import AgentHouse.Broker.Registry

/-!
# Worker broker: what the broker can do and what the host does by itself

`Act` lists the calls of the broker; `eff` says what each of them may answer and what it changes.
Reading and writing files, reading `/proc` and the control groups, and everything around
the start of a launcher may fail. Between two calls any process may exit, other processes may
appear with any free pid, and a launcher that has its plan goes on.
-/

namespace AgentHouse.Broker

/-- What the broker asks of its memory, its files, the processes and the cgroups. -/
inductive Act : Type → Type 1
  | registry : Act Registry
  | assign (f : Registry → Registry) : Act Unit
  /-- Read the registry file. -/
  | load : Act (Except IoError Registry)
  | persist : Act (Except IoError Unit)
  | marked : Act Bool
  | mark : Act (Except IoError Unit)
  | alive (pid : ℕ) : Act Bool
  | starttime (pid : ℕ) : Act (Option ℕ)
  /-- The user and group ids of a process. -/
  | ids (pid : ℕ) : Act (Except IoError (List ℕ × List ℕ))
  | members (path : String × Key) : Act (Except IoError (List ℕ))
  | empty (path : String × Key) : Act (Except IoError Bool)
  /-- Open a process by its pid; the answer is its serial number, if there is one. -/
  | pidfdOpen (pid : ℕ) : Act (Except IoError (Option ℕ))
  /-- Kill the process that was opened, for the worker `record`. -/
  | pidfdSendSignal (serial : ℕ) (record : Worker) : Act (Except IoError Unit)
  | spawn (launch : Launch) : Act (Except IoError Child)
  /-- Write the plan of a launcher to its standard input. -/
  | sendPlan (child : Child) : Act (Except IoError Unit)
  | kill (child : Child) (launch : Launch) : Act Unit
  | wait (child : Child) : Act Unit
  | tryWait (child : Child) : Act Bool
  | children : Act (List (Key × Child))
  | keepChild (key : Key) (child : Child) : Act Unit
  | takeChild (key : Key) : Act (Option Child)
  /-- The broker accepts connections. -/
  | ready : Act Unit
  /-- Anything else that the host decides. -/
  | ask (β : Type) : Act β

namespace World

/-- No live process is in the group. -/
def Unpopulated (s : World) (path : String × Key) : Prop := ∀ p ∈ s.procs, p.group ≠ some path

/-- A pid that the host may give to a new process. -/
def Free (s : World) (pid : ℕ) : Prop := pid ≠ 0 ∧ ∀ p ∈ s.owners, p.pid ≠ pid

/-- What a signal does: the target dies now or later. -/
def Killed (s : World) (p : Process) (signal : Signal) (s' : World) : Prop :=
  s' = { s with signals := s.signals ++ [signal] } ∨
  s' = { s.exited p with signals := s.signals ++ [signal] }

/-- A new launcher, as it waits for its plan. -/
def launcher (s : World) (pid start : ℕ) (l : Launch) : Process where
  serial := s.born
  pid := pid
  start := start
  uids := List.replicate 4 0
  gids := List.replicate 4 0
  group := none
  launch := some l
  planned := false
  child := true

/-- The zombie `n` has been waited for. -/
def reaped (s : World) (n : ℕ) : World :=
  { s with zombies := s.zombies.filter (fun p => p.serial ≠ n) }

end World

/-- What an action may answer and what it changes. -/
def eff : {β : Type} → Act β → World → β → World → Prop
  | _, .registry, s, b, s' => b = s.registry ∧ s' = s
  | _, .assign f, s, _, s' => s' = { s with registry := f s.registry }
  | _, .load, s, b, s' => s' = s ∧ match b with
      | .ok r => s.disk = some r
      | .error e => e.kind = .notFound → s.disk = none
  -- A write that fails may have replaced the file before it failed.
  | _, .persist, s, b, s' => match b with
      | .ok () => s' = { s with disk := some s.registry }
      | .error _ => s' = s ∨ s' = { s with disk := some s.registry }
  | _, .marked, s, b, s' => s' = s ∧ (b = true → s.marker = true)
  | _, .mark, s, b, s' => match b with
      | .ok () => s' = { s with marker := true }
      | .error _ => s' = s ∨ s' = { s with marker := true }
  | _, .alive pid, s, b, s' => s' = s ∧ (b = true ↔ ∃ p ∈ s.procs, p.pid = pid)
  | _, .starttime pid, s, b, s' => s' = s ∧ ∀ t, b = some t ↔ ∃ p ∈ s.owners, p.pid = pid ∧
      p.start = t
  | _, .ids pid, s, b, s' => s' = s ∧ match b with
      | .ok (uids, gids) => ∃ p ∈ s.owners, p.pid = pid ∧ p.uids = uids ∧ p.gids = gids
      | .error _ => True
  | _, .members path, s, b, s' => s' = s ∧ match b with
      | .ok pids => pids = (s.procs.filter (fun p => p.group = some path)).map Process.pid
      | .error _ => True
  -- A group can stay populated for a moment after its last process has exited.
  | _, .empty path, s, b, s' => s' = s ∧ (b = .ok true → s.Unpopulated path)
  | _, .pidfdOpen pid, s, b, s' => s' = s ∧ ∀ n, b = .ok (some n) →
      ∃ p ∈ s.owners, p.pid = pid ∧ p.serial = n
  | _, .pidfdSendSignal n record, s, b, s' =>
      (s' = s ∧ (b = .ok () → ∀ p ∈ s.procs, p.serial ≠ n)) ∨
      ∃ p ∈ s.procs, p.serial = n ∧ b = .ok () ∧ s.Killed p (.drain p record s.registry) s'
  | _, .spawn l, s, b, s' => match b with
      | .ok c => c.serial = s.born ∧ s.Free c.pid ∧ ∃ start, s' = { s with
          procs := s.procs ++ [s.launcher c.pid start l]
          born := s.born + 1
          spawned := s.spawned ++ [l] }
      | .error _ => s' = s
  | _, .sendPlan c, s, b, s' => (s' = s ∧ (b = .ok () → ∀ p ∈ s.procs, p.serial ≠ c.serial)) ∨
      ∃ p ∈ s.procs, p.serial = c.serial ∧ s' = s.changed p { p with planned := true }
  | _, .kill c l, s, _, s' =>
      (s' = s ∧ ∀ p ∈ s.procs, p.serial ≠ c.serial) ∨
      ∃ p ∈ s.procs, p.serial = c.serial ∧ s.Killed p (.cleanup p l) s'
  | _, .wait c, s, _, s' => (∀ p ∈ s.procs, p.serial ≠ c.serial) ∧ s' = s.reaped c.serial
  | _, .tryWait c, s, b, s' =>
      (b = true ∧ (∀ p ∈ s.procs, p.serial ≠ c.serial) ∧ s' = s.reaped c.serial) ∨
      (b = false ∧ s' = s)
  | _, .children, s, b, s' => b = s.children ∧ s' = s
  | _, .keepChild k c, s, _, s' =>
      s' = { s with children := s.children.filter (fun x => x.1 ≠ k) ++ [(k, c)] }
  | _, .takeChild k, s, b, s' => b = (Table.row Prod.fst k s.children).map Prod.snd ∧
      s' = { s with children := s.children.filter (fun x => x.1 ≠ k) }
  | _, .ready, s, _, s' => s' = { s with running := true }
  | _, .ask _, s, _, s' => s' = s

/-- One step of the host. -/
inductive Shift : World → World → Prop
  | exits {s : World} {p : Process} (hp : p ∈ s.procs) : Shift s (s.exited p)
  /-- A process that the broker has not started appears. -/
  | appears {s : World} {p : Process} (hserial : p.serial = s.born) (hpid : s.Free p.pid)
      (hlaunch : p.launch = none) (hplanned : p.planned = false) (hchild : p.child = false) :
      Shift s { s with procs := s.procs ++ [p], born := s.born + 1 }
  /-- A launcher with a plan enters its role group. -/
  | joins {s : World} {p : Process} {l : Launch} (hp : p ∈ s.procs) (hlaunch : p.launch = some l)
      (hplanned : p.planned = true) :
      Shift s (s.changed p { p with group := some l.group })
  /-- It drops its credentials in the group. -/
  | drops {s : World} {p : Process} {l : Launch} (hp : p ∈ s.procs) (hlaunch : p.launch = some l)
      (hplanned : p.planned = true) (hgroup : p.group = some l.group) :
      Shift s (s.changed p
        { p with uids := List.replicate 4 l.uid, gids := List.replicate 4 l.gid })

/-- What the host does between two calls of the broker. -/
def Drift : World → World → Prop := Relation.ReflTransGen Shift

/-- The broker ends. Its children go on without it. -/
def World.halted (s : World) : World :=
  { s with
    running := false
    children := []
    procs := s.procs.map (fun p => { p with child := false })
    zombies := [] }

end AgentHouse.Broker
