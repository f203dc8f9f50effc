import AgentHouse.Lib.Tables
import Mathlib.Data.Int.Notation
import Mathlib.Data.List.Infix
import Mathlib.Data.String.Basic

/-!
# The session manager of the guest

The registry of `sessions.rs` with everything that acts on it: `create` with its placeholder and
its eviction, `kill`, `delete`, the calls of `write_stdin`, and for each session the thread that
reaps its process. A step is one section under a lock or one call to the kernel, and the threads
take turns in any order. Numbers of processes are given out again once a process is reaped; what a
SIGKILL hits is recorded when it is sent.
-/

namespace AgentHouse.Forge.Manager

/-- Sessions that are kept before the oldest completed one is evicted. -/
def maxSessions : ℕ := 100

/-- What a call comes to. -/
inductive Reply where
  | ok
  | error (text : String)
deriving DecidableEq, Repr

/-- How a process ended. -/
inductive Exit where
  | exited (code : ℤ)
  | signaled
deriving DecidableEq, Repr

/-- `ExitStatus::code`. -/
def Exit.code : Exit → Option ℤ
  | .exited code => some code
  | .signaled => none

/-- What the search sees of a session. -/
inductive Observed where
  | reserved (code : Option ℤ)
  | unreserved
deriving DecidableEq, Repr

/-- Where `reap_session` is, and the closing of the input after it. -/
inductive Reaping where
  /-- In `wait_zombie`. -/
  | watching
  | observed (o : Observed)
  /-- It has taken the group, and signals it before it waits. -/
  | signalling (signal : Option ℕ) (fallback : Option ℤ)
  | waiting (fallback : Option ℤ)
  | polling (left : ℕ) (code : Option ℤ)
  | closing
  | ended
deriving DecidableEq, Repr

/-- The process of a session, with the thread that reaps it and the pumps that still run. -/
structure Child where
  pid : ℕ
  status : Option Exit := none
  reaped : Bool := false
  reaper : Reaping := .watching
  activePumps : ℕ
deriving DecidableEq, Repr

/-- A session object. -/
structure Session where
  id : String
  argv : List String
  startedAt : ℤ
  pgid : Option ℕ := none
  exit : Option ℤ := none
  /-- The pipe to the process is in its place. -/
  stdin : Bool := false
  /-- The terminal's master is in its place. -/
  master : Bool := false
  isPty : Bool
  /-- A placeholder has none. -/
  child : Option Child := none
  /-- What was written to the pipe or the terminal. -/
  received : List UInt8 := []
  /-- The calls of `write_stdin` that got the handle, in that order. -/
  turns : List ℕ := []
deriving DecidableEq, Repr

/-- Where a call of `write_stdin` is. -/
inductive Writing where
  | taking
  /-- At the head of the loop. -/
  | checking
  | writing
  /-- After the loop, before it asks whether the session is alive. -/
  | leaving (result : Reply)
  | restoring (result : Reply) (alive : Bool)
  | done (result : Reply)
deriving DecidableEq, Repr

/-- A call of `write_stdin`. -/
structure Input where
  session : ℕ
  data : List UInt8
  written : ℕ := 0
  pc : Writing := .taking
deriving DecidableEq, Repr

/-- What `write` returns. -/
inductive WriteCall where
  | took (n : ℕ)
  /-- It would block, or was interrupted. -/
  | again
  | failed (err : String)
deriving DecidableEq, Repr

/-- How far a call of `create` has come. -/
inductive Creating where
  | named
  | reserved
  | spawned (n : ℕ)
  | failed (text : String)
  | done (result : Reply)
deriving DecidableEq, Repr

/-- A call of `create`. -/
structure Create where
  id : String
  argv : List String
  pty : Bool
  pc : Creating := .named
deriving DecidableEq, Repr

/-- A call of `kill`. -/
structure Kill where
  session : ℕ
  id : String
  result : Option Reply := none
deriving DecidableEq, Repr

/-- How far a call of `delete` has come. -/
inductive Deleting where
  | removed
  | closingStdin
  | closingMaster
  | done
deriving DecidableEq, Repr

/-- A call of `delete`, once the session has been taken off the map. -/
structure Delete where
  session : ℕ
  pc : Deleting := .removed
deriving DecidableEq, Repr

/-- The loop of a `create` that found the registry full: it holds the map and goes from entry to
entry. -/
structure Search where
  create : ℕ
  /-- The entries it has not come to. -/
  rest : List (String × ℕ)
  oldest : Option (String × ℤ) := none
deriving DecidableEq, Repr

/-- Who holds the number of a process. -/
inductive Holder where
  | leader (n : ℕ)
  | other
deriving DecidableEq, Repr

/-- A SIGKILL that was sent for a session, and who was hit. -/
structure Signal where
  session : ℕ
  pgid : ℕ
  hit : Option Holder
deriving DecidableEq, Repr

/-- The manager, its sessions and the calls in progress. -/
structure State where
  /-- `std::process::id`. -/
  agent : ℕ
  nextId : ℕ := 1
  /-- Every session that was built; its place is what the threads and the map hold of it. -/
  objects : List Session := []
  sessions : List (String × ℕ) := []
  search : Option Search := none
  creates : List Create := []
  kills : List Kill := []
  deletes : List Delete := []
  inputs : List Input := []
  /-- The numbers that other processes hold. -/
  others : List ℕ := []
  signals : List Signal := []
deriving DecidableEq, Repr

/-- One atomic step of a call or of a session's threads. -/
inductive Event where
  /-- `create` takes a number for the new session. -/
  | create (argv : List String) (pty : Bool)
  /-- It finds the registry full; the map gives its entries in some order. -/
  | search (i : ℕ) (entries : List (String × ℕ))
  /-- The loop looks at one session, under the lock of its lifecycle. -/
  | look
  | reserve (i : ℕ) (now : ℤ)
  | spawn (i pid : ℕ) (now : ℤ)
  | spawnFails (i : ℕ) (text : String)
  /-- The last section of `create`. -/
  | list (i : ℕ)
  | kill (id : String)
  | killing (i : ℕ)
  | delete (id : String)
  | deleting (i : ℕ)
  | input (id : String) (data : List UInt8)
  | write (i : ℕ) (late : Bool) (call : WriteCall)
  /-- The reaper goes on; `failed` when the call it is in fails. -/
  | reap (n : ℕ) (failed : Bool)
  | exit (n : ℕ) (e : Exit)
  | pumpEnd (n : ℕ)
  | other (pid : ℕ)
  | otherEnds (pid : ℕ)
deriving DecidableEq, Repr

/-- The marker of a run whose completion is kept as a receipt. -/
def isolated (argv : List String) : Bool :=
  (argv[3]?.any fun a => "ahvm-run-isolated:".toList.isPrefixOf a.toList)
    && argv[0]? == some "/bin/sh" && argv[1]? == some "-c" && argv[2]? == some "exec \"$@\""

/-- The id of the session with this number. -/
def sessionId (agent n : ℕ) : String := "s-" ++ agent.repr ++ "-" ++ n.repr

namespace Session

/-- The process is not reaped and has this number. -/
def holds (s : Session) (pid : ℕ) : Bool := s.child.any fun c => c.pid == pid && !c.reaped

/-- The handle that `write_stdin` uses is in its place. -/
def handle (s : Session) : Bool := if s.isPty then s.master else s.stdin

/-- The handle to the process is put in its place, or taken. -/
def setHandle (s : Session) (present : Bool) : Session :=
  if s.isPty then { s with master := present } else { s with stdin := present }

/-- How the texts of `write_stdin` name the handle. -/
def label (s : Session) : String := if s.isPty then "pty" else "stdin"

/-- The section of `kill`: the answer, and the group it signals. -/
def kill (s : Session) (id : String) : Reply × Option ℕ :=
  if s.exit.isSome then (.error ("session " ++ id ++ " already completed"), none)
  else
    match s.pgid with
    | some pgid => (.ok, some pgid)
    | none => (.error ("session " ++ id ++ " already reaped"), none)

/-- The lifecycle section of `delete`, and the group it signals. -/
def delete (s : Session) : Session × Option ℕ :=
  ({ s with exit := some 124, pgid := none }, if s.exit.isNone then s.pgid else none)

/-- What the child's end tells `wait_zombie`. -/
def observe (e : Exit) : Observed := .reserved (e.code.or (some 124))

/-- The next step of `reap_session`, and the group it signals. -/
def reap (s : Session) (failed : Bool) : Option (Session × Option ℕ) := do
  let c ← s.child
  let goes (reaper : Reaping) : Session := { s with child := some { c with reaper } }
  match c.reaper with
  | .watching =>
      if failed then some (goes (.observed .unreserved), none)
      else c.status.map fun e => (goes (.observed (observe e)), none)
  | .observed o =>
      let (signal, fallback) :=
        match o with
        | .reserved code => (s.pgid, code)
        | .unreserved => (none, none)
      some ({ goes (.signalling signal fallback) with pgid := none }, none)
  | .signalling signal fallback => some (goes (.waiting fallback), signal)
  | .waiting fallback =>
      if failed then some (goes (.polling 50 fallback), none)
      else c.status.map fun e =>
        ({ s with
           child := some { c with reaper := .polling 50 (e.code.or fallback), reaped := true } },
         none)
  | .polling left code =>
      if c.activePumps = 0 ∨ left = 0 then
        some ({ goes .closing with exit := some (code.getD 124) }, none)
      else some (goes (.polling (left - 1) code), none)
  | .closing => some ((goes .ended).setHandle false, none)
  | .ended => none

/-- The next step of the call of `write_stdin` with the number `i`. -/
def write (s : Session) (i : ℕ) (w : Input) (late : Bool) (call : WriteCall) :
    Option (Session × Input) :=
  match w.pc with
  | .taking =>
      if s.handle then
        some ({ s.setHandle false with turns := s.turns ++ [i] }, { w with pc := .checking })
      else some (s, { w with pc := .done (.error (s.label ++ " closed")) })
  | .checking =>
      if w.written < w.data.length then
        if late then some (s, { w with pc := .leaving (.error (s.label ++ " write timeout")) })
        else if s.exit.isSome then
          some (s, { w with pc := .leaving (.error "session completed") })
        else some (s, { w with pc := .writing })
      else some (s, { w with pc := .leaving .ok })
  | .writing =>
      match call with
      | .took n =>
          if w.written + n ≤ w.data.length then
            some ({ s with received := s.received ++ (w.data.drop w.written).take n },
              { w with written := w.written + n, pc := .checking })
          else none
      | .again => some (s, { w with pc := .checking })
      | .failed err =>
          some (s, { w with pc := .leaving (.error (s.label ++ " write: " ++ err)) })
  | .leaving result => some (s, { w with pc := .restoring result s.exit.isNone })
  | .restoring result alive =>
      some (if result = .ok ∧ alive ∧ ¬ s.handle then s.setHandle true else s,
        { w with pc := .done result })
  | .done _ => none

end Session

namespace State

variable (m : State)

/-- Who holds a number. -/
def holder (pid : ℕ) : Option Holder :=
  if pid ∈ m.others then some .other
  else (m.objects.findIdx? fun s => s.holds pid).map .leader

/-- `kill_group`. -/
def killGroup (n : ℕ) (pgid : Option ℕ) : List Signal :=
  m.signals ++ pgid.toList.map fun p => ⟨n, p, m.holder p⟩

/-- `sessions.get`. -/
def get (id : String) : Option ℕ := (Table.row Prod.fst id m.sessions).map Prod.snd

/-- `sessions.insert`. -/
def insert (id : String) (n : ℕ) : List (String × ℕ) :=
  m.sessions.filter (fun e => e.1 ≠ id) ++ [(id, n)]

/-- `sessions.remove`. -/
def remove (id : String) : List (String × ℕ) := m.sessions.filter fun e => e.1 ≠ id

/-- A completed session that is not kept as a receipt. -/
def evictable (e : String × ℕ) : Option (String × ℤ) := do
  let s ← m.objects[e.2]?
  if s.exit.isSome ∧ isolated s.argv = false then some (e.1, s.startedAt) else none

/-- The order in which completed sessions are evicted. -/
def older (a b : String × ℤ) : Prop := a.2 < b.2 ∨ a.2 = b.2 ∧ a.1 < b.1

instance (a b : String × ℤ) : Decidable (older a b) :=
  inferInstanceAs (Decidable (a.2 < b.2 ∨ a.2 = b.2 ∧ a.1 < b.1))

/-- One turn of the loop that looks for the session to evict. -/
def consider (oldest : Option (String × ℤ)) (e : String × ℕ) : Option (String × ℤ) :=
  match m.evictable e, oldest with
  | some a, none => some a
  | some a, some b => if older a b then some a else some b
  | none, oldest => oldest

/-- The map without the session that the loop has found. -/
def evicted : List (String × ℕ) :=
  match m.search with
  | some ⟨_, _, some (id, _)⟩ => m.remove id
  | _ => m.sessions

/-- The map has room for another session, or the loop of this `create` is over. -/
def ready (i : ℕ) : Bool :=
  match m.search with
  | none => decide (m.sessions.length < maxSessions)
  | some search => decide (search.create = i ∧ search.rest = [])

/-- The end of the section of `create` that makes room: it puts a placeholder into the map. -/
def reserve (i : ℕ) (c : Create) (now : ℤ) : State :=
  { m with
    objects := m.objects ++ [{ id := c.id, argv := c.argv, startedAt := now, isPty := c.pty }]
    sessions := { m with sessions := m.evicted }.insert c.id m.objects.length
    search := none
    creates := m.creates.set i { c with pc := .reserved } }

/-- A section under the lock of the map waits for the loop that holds it. -/
def unlocked {α : Type} (r : Option α) : Option α := if m.search = none then r else none

/-- The session that `create_piped_inner` or `create_pty_inner` builds. -/
def spawned (c : Create) (pid : ℕ) (now : ℤ) : Session :=
  { id := c.id
    argv := c.argv
    startedAt := now
    pgid := some pid
    stdin := !c.pty
    master := c.pty
    isPty := c.pty
    child := some { pid, activePumps := if c.pty then 1 else 2 } }

/-- The state after an event, if that can happen. -/
def next : Event → Option State
  | .create argv pty =>
      if argv = [] then none
      else some { m with
        nextId := m.nextId + 1
        creates := m.creates ++ [{ id := sessionId m.agent m.nextId, argv, pty }] }
  | .search i entries => do
      let c ← m.unlocked m.creates[i]?
      if c.pc = .named ∧ maxSessions ≤ m.sessions.length ∧ entries.isPerm m.sessions then
        some { m with search := some { create := i, rest := entries } }
      else none
  | .look =>
      match m.search with
      | some ⟨create, e :: rest, oldest⟩ =>
          some { m with search := some { create, rest, oldest := m.consider oldest e } }
      | _ => none
  | .reserve i now => do
      let c ← m.creates[i]?
      if c.pc = .named ∧ m.ready i then some (m.reserve i c now) else none
  | .spawn i pid now => do
      let c ← m.creates[i]?
      if c.pc = .reserved ∧ m.holder pid = none then
        some { m with
          objects := m.objects ++ [spawned c pid now]
          creates := m.creates.set i { c with pc := .spawned m.objects.length } }
      else none
  | .spawnFails i text => do
      let c ← m.creates[i]?
      if c.pc = .reserved then
        some { m with creates := m.creates.set i { c with pc := .failed text } }
      else none
  | .list i => do
      let c ← m.unlocked m.creates[i]?
      match c.pc with
      | .spawned n =>
          some { m with
            sessions := m.insert c.id n
            creates := m.creates.set i { c with pc := .done .ok } }
      | .failed text =>
          some { m with
            sessions := m.remove c.id
            creates := m.creates.set i { c with pc := .done (.error text) } }
      | _ => none
  | .kill id => do
      let n ← m.unlocked (m.get id)
      some { m with kills := m.kills ++ [{ session := n, id }] }
  | .killing i => do
      let k ← m.kills[i]?
      let s ← m.objects[k.session]?
      if k.result = none then
        let (reply, pgid) := s.kill k.id
        some { m with
          kills := m.kills.set i { k with result := some reply }
          signals := m.killGroup k.session pgid }
      else none
  | .delete id => do
      let n ← m.unlocked (m.get id)
      some { m with sessions := m.remove id, deletes := m.deletes ++ [{ session := n }] }
  | .deleting i => do
      let d ← m.deletes[i]?
      let s ← m.objects[d.session]?
      match d.pc with
      | .removed =>
          some { m with
            objects := m.objects.set d.session s.delete.1
            deletes := m.deletes.set i { d with pc := .closingStdin }
            signals := m.killGroup d.session s.delete.2 }
      | .closingStdin =>
          some { m with
            objects := m.objects.set d.session { s with stdin := false }
            deletes := m.deletes.set i { d with pc := .closingMaster } }
      | .closingMaster =>
          some { m with
            objects := m.objects.set d.session { s with master := false }
            deletes := m.deletes.set i { d with pc := .done } }
      | .done => none
  | .input id data => do
      let n ← m.unlocked (m.get id)
      some { m with inputs := m.inputs ++ [{ session := n, data }] }
  | .write i late call => do
      let w ← m.inputs[i]?
      let s ← m.objects[w.session]?
      let (s', w') ← s.write i w late call
      some { m with objects := m.objects.set w.session s', inputs := m.inputs.set i w' }
  | .reap n failed => do
      let s ← m.objects[n]?
      let (s', pgid) ← s.reap failed
      some { m with objects := m.objects.set n s', signals := m.killGroup n pgid }
  | .exit n e => do
      let s ← m.objects[n]?
      let c ← s.child
      if c.status = none then
        some { m with
          objects := m.objects.set n { s with child := some { c with status := some e } } }
      else none
  | .pumpEnd n => do
      let s ← m.objects[n]?
      let c ← s.child
      if 0 < c.activePumps then
        some { m with
          objects := m.objects.set n
            { s with child := some { c with activePumps := c.activePumps - 1 } } }
      else none
  | .other pid => if m.holder pid = none then some { m with others := pid :: m.others } else none
  | .otherEnds pid => some { m with others := m.others.erase pid }

/-- An event that happens. -/
def Step (m : State) (e : Event) (m' : State) : Prop := m.next e = some m'

/-- The manager before its first session. -/
def start (agent : ℕ) : State := { agent }

end State

namespace Session

/-- The session with its reaper somewhere else. -/
def goes (s : Session) (c : Child) (reaper : Reaping) : Session :=
  { s with child := some { c with reaper } }

/-- What each step of `reap_session` does. -/
inductive Reaps (s : Session) : Session → Option ℕ → Prop
  | observe {c : Child} {o : Observed} (hc : s.child = some c) (hpc : c.reaper = .watching) :
      Reaps s (s.goes c (.observed o)) none
  | take {c : Child} {o : Observed} {signal : Option ℕ} {fallback : Option ℤ}
      (hc : s.child = some c) (hpc : c.reaper = .observed o)
      (hsignal : signal = s.pgid ∨ signal = none) :
      Reaps s { s.goes c (.signalling signal fallback) with pgid := none } none
  | signal {c : Child} {signal : Option ℕ} {fallback : Option ℤ} (hc : s.child = some c)
      (hpc : c.reaper = .signalling signal fallback) : Reaps s (s.goes c (.waiting fallback)) signal
  | wait {c : Child} {fallback code : Option ℤ} {reaped : Bool} (hc : s.child = some c)
      (hpc : c.reaper = .waiting fallback) :
      Reaps s (s.goes { c with reaped } (.polling 50 code)) none
  | poll {c : Child} {left : ℕ} {code : Option ℤ} (hc : s.child = some c)
      (hpc : c.reaper = .polling left code) : Reaps s (s.goes c (.polling (left - 1) code)) none
  | publish {c : Child} {left : ℕ} {code : Option ℤ} (hc : s.child = some c)
      (hpc : c.reaper = .polling left code) :
      Reaps s { s.goes c .closing with exit := some (code.getD 124) } none
  | close {c : Child} (hc : s.child = some c) (hpc : c.reaper = .closing) :
      Reaps s ((s.goes c .ended).setHandle false) none

/-- A turn of the reaper, as its cases. -/
theorem reaps_of_reap {s s' : Session} {failed : Bool} {pgid : Option ℕ}
    (hreap : s.reap failed = some (s', pgid)) : s.Reaps s' pgid := by
  simp only [reap, Option.bind_eq_bind, Option.bind_eq_some_iff] at hreap
  obtain ⟨c, hc, hreap⟩ := hreap
  cases hpc : c.reaper with
  | watching =>
    simp only [hpc] at hreap
    split at hreap
    · cases hreap
      exact .observe hc hpc
    · simp only [Option.map_eq_some_iff, Prod.mk.injEq] at hreap
      obtain ⟨e, -, rfl, rfl⟩ := hreap
      exact .observe hc hpc
  | observed o =>
    simp only [hpc] at hreap
    cases o with
    | reserved code =>
      cases hreap
      exact .take hc hpc (.inl rfl)
    | unreserved =>
      cases hreap
      exact .take hc hpc (.inr rfl)
  | signalling signal fallback =>
    simp only [hpc] at hreap
    cases hreap
    exact .signal hc hpc
  | waiting fallback =>
    simp only [hpc] at hreap
    split at hreap
    · cases hreap
      exact .wait hc hpc
    · simp only [Option.map_eq_some_iff, Prod.mk.injEq] at hreap
      obtain ⟨e, -, rfl, rfl⟩ := hreap
      exact @Reaps.wait s c fallback (e.code.or fallback) true hc hpc
  | polling left code =>
    simp only [hpc] at hreap
    split at hreap
    · cases hreap
      exact .publish hc hpc
    · cases hreap
      exact .poll hc hpc
  | closing =>
    simp only [hpc] at hreap
    cases hreap
    exact .close hc hpc
  | ended =>
    simp only [hpc] at hreap
    cases hreap

end Session

namespace State

/-- What each step does, with what it asks first. -/
inductive Does (m : State) : Event → State → Prop
  | create {argv : List String} {pty : Bool} (hargv : argv ≠ []) :
      Does m (.create argv pty)
        { m with
          nextId := m.nextId + 1
          creates := m.creates ++ [{ id := sessionId m.agent m.nextId, argv, pty }] }
  | search {i : ℕ} {c : Create} {entries : List (String × ℕ)} (hfree : m.search = none)
      (hc : m.creates[i]? = some c) (hpc : c.pc = .named)
      (hfull : maxSessions ≤ m.sessions.length) (hperm : entries.Perm m.sessions) :
      Does m (.search i entries) { m with search := some { create := i, rest := entries } }
  | look {create : ℕ} {e : String × ℕ} {rest : List (String × ℕ)} {oldest : Option (String × ℤ)}
      (hsearch : m.search = some ⟨create, e :: rest, oldest⟩) :
      Does m .look { m with search := some { create, rest, oldest := m.consider oldest e } }
  | reserve {i : ℕ} {c : Create} {now : ℤ} (hc : m.creates[i]? = some c) (hpc : c.pc = .named)
      (hready : m.ready i = true) : Does m (.reserve i now) (m.reserve i c now)
  | spawn {i pid : ℕ} {c : Create} {now : ℤ} (hc : m.creates[i]? = some c)
      (hpc : c.pc = .reserved) (hfree : m.holder pid = none) :
      Does m (.spawn i pid now)
        { m with
          objects := m.objects ++ [spawned c pid now]
          creates := m.creates.set i { c with pc := .spawned m.objects.length } }
  | spawnFails {i : ℕ} {c : Create} {text : String} (hc : m.creates[i]? = some c)
      (hpc : c.pc = .reserved) :
      Does m (.spawnFails i text)
        { m with creates := m.creates.set i { c with pc := .failed text } }
  | list {i n : ℕ} {c : Create} (hfree : m.search = none) (hc : m.creates[i]? = some c)
      (hpc : c.pc = .spawned n) :
      Does m (.list i)
        { m with
          sessions := m.insert c.id n
          creates := m.creates.set i { c with pc := .done .ok } }
  | unlist {i : ℕ} {c : Create} {text : String} (hfree : m.search = none)
      (hc : m.creates[i]? = some c) (hpc : c.pc = .failed text) :
      Does m (.list i)
        { m with
          sessions := m.remove c.id
          creates := m.creates.set i { c with pc := .done (.error text) } }
  | kill {id : String} {n : ℕ} (hfree : m.search = none) (hn : m.get id = some n) :
      Does m (.kill id) { m with kills := m.kills ++ [{ session := n, id }] }
  | killing {i : ℕ} {k : Kill} {s : Session} (hk : m.kills[i]? = some k)
      (hs : m.objects[k.session]? = some s) (hresult : k.result = none) :
      Does m (.killing i)
        { m with
          kills := m.kills.set i { k with result := some (s.kill k.id).1 }
          signals := m.killGroup k.session (s.kill k.id).2 }
  | delete {id : String} {n : ℕ} (hfree : m.search = none) (hn : m.get id = some n) :
      Does m (.delete id)
        { m with sessions := m.remove id, deletes := m.deletes ++ [{ session := n }] }
  | deleting {i : ℕ} {d : Delete} {s : Session} (hd : m.deletes[i]? = some d)
      (hs : m.objects[d.session]? = some s) (hpc : d.pc = .removed) :
      Does m (.deleting i)
        { m with
          objects := m.objects.set d.session s.delete.1
          deletes := m.deletes.set i { d with pc := .closingStdin }
          signals := m.killGroup d.session s.delete.2 }
  | closing {i : ℕ} {d : Delete} {s s' : Session} {pc : Deleting} (hd : m.deletes[i]? = some d)
      (hs : m.objects[d.session]? = some s)
      (hs' : d.pc = .closingStdin ∧ pc = .closingMaster ∧ s' = { s with stdin := false } ∨
        d.pc = .closingMaster ∧ pc = .done ∧ s' = { s with master := false }) :
      Does m (.deleting i)
        { m with
          objects := m.objects.set d.session s'
          deletes := m.deletes.set i { d with pc } }
  | input {id : String} {data : List UInt8} {n : ℕ} (hfree : m.search = none)
      (hn : m.get id = some n) :
      Does m (.input id data) { m with inputs := m.inputs ++ [{ session := n, data }] }
  | write {i : ℕ} {late : Bool} {call : WriteCall} {w w' : Input} {s s' : Session}
      (hw : m.inputs[i]? = some w) (hs : m.objects[w.session]? = some s)
      (hwrite : s.write i w late call = some (s', w')) :
      Does m (.write i late call)
        { m with objects := m.objects.set w.session s', inputs := m.inputs.set i w' }
  | reap {n : ℕ} {failed : Bool} {s s' : Session} {pgid : Option ℕ}
      (hs : m.objects[n]? = some s) (hreap : s.Reaps s' pgid) :
      Does m (.reap n failed)
        { m with objects := m.objects.set n s', signals := m.killGroup n pgid }
  | exit {n : ℕ} {e : Exit} {s : Session} {c : Child} (hs : m.objects[n]? = some s)
      (hc : s.child = some c) (hstatus : c.status = none) :
      Does m (.exit n e)
        { m with
          objects := m.objects.set n { s with child := some { c with status := some e } } }
  | pumpEnd {n : ℕ} {s : Session} {c : Child} (hs : m.objects[n]? = some s)
      (hc : s.child = some c) (hpumps : 0 < c.activePumps) :
      Does m (.pumpEnd n)
        { m with
          objects := m.objects.set n
            { s with child := some { c with activePumps := c.activePumps - 1 } } }
  | other {pid : ℕ} (hfree : m.holder pid = none) :
      Does m (.other pid) { m with others := pid :: m.others }
  | otherEnds {pid : ℕ} : Does m (.otherEnds pid) { m with others := m.others.erase pid }

variable {m m' : State} {e : Event}

/-- A section under the map's lock waits while a search holds it. -/
theorem unlocked_eq_some {α : Type} {r : Option α} {a : α} :
    m.unlocked r = some a ↔ m.search = none ∧ r = some a := by
  rw [unlocked, Option.ite_none_right_eq_some]

/-- Every step is one of the manager's events. -/
theorem Step.does (h : m.Step e m') : m.Does e m' := by
  unfold Step at h
  cases e with
  | create argv pty =>
    simp only [next, Option.ite_none_left_eq_some, Option.some.injEq] at h
    obtain ⟨hargv, rfl⟩ := h
    exact .create hargv
  | search i entries =>
    simp only [next, Option.bind_eq_bind, Option.bind_eq_some_iff, unlocked_eq_some,
      Option.ite_none_right_eq_some, Option.some.injEq] at h
    obtain ⟨c, ⟨hfree, hc⟩, ⟨hpc, hfull, hperm⟩, rfl⟩ := h
    exact .search hfree hc hpc hfull (List.isPerm_iff.mp hperm)
  | look =>
    simp only [next] at h
    split at h
    · rename_i hsearch
      cases h
      exact .look hsearch
    · cases h
  | reserve i now =>
    simp only [next, Option.bind_eq_bind, Option.bind_eq_some_iff,
      Option.ite_none_right_eq_some, Option.some.injEq] at h
    obtain ⟨c, hc, ⟨hpc, hready⟩, rfl⟩ := h
    exact .reserve hc hpc hready
  | spawn i pid now =>
    simp only [next, Option.bind_eq_bind, Option.bind_eq_some_iff,
      Option.ite_none_right_eq_some, Option.some.injEq] at h
    obtain ⟨c, hc, ⟨hpc, hfree⟩, rfl⟩ := h
    exact .spawn hc hpc hfree
  | spawnFails i text =>
    simp only [next, Option.bind_eq_bind, Option.bind_eq_some_iff,
      Option.ite_none_right_eq_some, Option.some.injEq] at h
    obtain ⟨c, hc, hpc, rfl⟩ := h
    exact .spawnFails hc hpc
  | list i =>
    simp only [next, Option.bind_eq_bind, Option.bind_eq_some_iff, unlocked_eq_some] at h
    obtain ⟨c, ⟨hfree, hc⟩, h⟩ := h
    split at h
    · rename_i hpc
      cases h
      exact .list hfree hc hpc
    · rename_i hpc
      cases h
      exact .unlist hfree hc hpc
    · cases h
  | kill id =>
    simp only [next, Option.bind_eq_bind, Option.bind_eq_some_iff, unlocked_eq_some,
      Option.some.injEq] at h
    obtain ⟨n, ⟨hfree, hn⟩, rfl⟩ := h
    exact .kill hfree hn
  | killing i =>
    simp only [next, Option.bind_eq_bind, Option.bind_eq_some_iff,
      Option.ite_none_right_eq_some, Option.some.injEq] at h
    obtain ⟨k, hk, s, hs, hresult, rfl⟩ := h
    exact .killing hk hs hresult
  | delete id =>
    simp only [next, Option.bind_eq_bind, Option.bind_eq_some_iff, unlocked_eq_some,
      Option.some.injEq] at h
    obtain ⟨n, ⟨hfree, hn⟩, rfl⟩ := h
    exact .delete hfree hn
  | deleting i =>
    simp only [next, Option.bind_eq_bind, Option.bind_eq_some_iff] at h
    obtain ⟨d, hd, s, hs, h⟩ := h
    split at h
    · rename_i hpc
      cases h
      exact .deleting hd hs hpc
    · rename_i hpc
      cases h
      exact .closing hd hs (.inl ⟨hpc, rfl, rfl⟩)
    · rename_i hpc
      cases h
      exact .closing hd hs (.inr ⟨hpc, rfl, rfl⟩)
    · cases h
  | input id data =>
    simp only [next, Option.bind_eq_bind, Option.bind_eq_some_iff, unlocked_eq_some,
      Option.some.injEq] at h
    obtain ⟨n, ⟨hfree, hn⟩, rfl⟩ := h
    exact .input hfree hn
  | write i late call =>
    simp only [next, Option.bind_eq_bind, Option.bind_eq_some_iff, Option.some.injEq] at h
    obtain ⟨w, hw, s, hs, ⟨s', w'⟩, hwrite, rfl⟩ := h
    exact .write hw hs hwrite
  | reap n failed =>
    simp only [next, Option.bind_eq_bind, Option.bind_eq_some_iff, Option.some.injEq] at h
    obtain ⟨s, hs, ⟨s', pgid⟩, hreap, rfl⟩ := h
    exact .reap hs (Session.reaps_of_reap hreap)
  | exit n e =>
    simp only [next, Option.bind_eq_bind, Option.bind_eq_some_iff,
      Option.ite_none_right_eq_some, Option.some.injEq] at h
    obtain ⟨s, hs, c, hc, hstatus, rfl⟩ := h
    exact .exit hs hc hstatus
  | pumpEnd n =>
    simp only [next, Option.bind_eq_bind, Option.bind_eq_some_iff,
      Option.ite_none_right_eq_some, Option.some.injEq] at h
    obtain ⟨s, hs, c, hc, hpumps, rfl⟩ := h
    exact .pumpEnd hs hc hpumps
  | other pid =>
    simp only [next, Option.ite_none_right_eq_some, Option.some.injEq] at h
    obtain ⟨hfree, rfl⟩ := h
    exact .other hfree
  | otherEnds pid =>
    simp only [next, Option.some.injEq] at h
    subst h
    exact .otherEnds

end State

end AgentHouse.Forge.Manager
