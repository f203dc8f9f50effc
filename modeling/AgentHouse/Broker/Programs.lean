import AgentHouse.Broker.Host

/-!
# Worker broker: opening, launching, draining and answering requests

The functions of the broker, one call of the host at a time. An error ends the function; what
it did before stays done.
-/

namespace AgentHouse.Broker

open Op

/-- The directory of a worker. -/
def Config.dirOf (c : Config) (id : String) : String := c.dataDir ++ "/" ++ id

/-- The worker ids that the broker accepts. -/
def validId (id : String) : Bool :=
  id ≠ "" ∧ id.utf8ByteSize ≤ 64 ∧ id ≠ "." ∧ id ≠ ".." ∧ id ≠ "snapshots" ∧
    id.toList.all (fun c => c.isAlphanum || c = '-' || c = '_' || c = '.')

/-- Something else that may fail. -/
def other : Op Act IoError Unit := attempt (.ask (Except IoError Unit))

/-- The process of a record is alive. -/
def leaderAlive (w : Worker) : Op Act IoError Bool := do
  if (← perform (.alive w.pid)) = true then
    return decide (w.starttime = (← perform (.starttime w.pid)))
  else
    return false

/-- The process of a record is alive, or its role group is not empty. -/
def lingers (w : Worker) (path : String × Key) : Op Act IoError Bool := do
  if (← leaderAlive w) = true then
    return true
  else
    return !(← attempt (.empty path))

/-- The process of a record is alive and has the assigned credentials. -/
def matchesWorker (w : Worker) : Op Act IoError Bool :=
  match w.isolation with
  | none => throw (.other "missing root worker identity")
  | some identity => do
    if (← leaderAlive w) = true then
      let (uids, gids) ← attempt (.ids w.pid)
      return decide (All uids identity.uid ∧ All gids identity.gid)
    else
      return false

/-- The process at `pid` no longer has the start time that was expected. -/
def replaced (pid : ℕ) : Option ℕ → Op Act IoError Bool
  | none => return false
  | some t => return decide ((← perform (.starttime pid)) ≠ some t)

/-- Kill a process, for the worker `record`, if it has the expected uid and start time. -/
def signalPid (record : Worker) (pid expectedUid : ℕ) (expectedStart : Option ℕ) :
    Op Act IoError Unit := do
  refuse (pid = 0 ∨ 2 ^ 31 ≤ pid) (.other "invalid pid")
  match ← attempt (.pidfdOpen pid) with
  | none => return ()
  | some serial =>
    if (← replaced pid expectedStart) = true then
      return ()
    else
      match ← outcome (attempt (.ids pid)) with
      | .error e => if e.kind = .notFound then return () else throw e
      | .ok (uids, _) => do
        refuse (¬ All uids expectedUid)
          (.other "refusing to signal a process outside assigned worker identity")
        attempt (.pidfdSendSignal serial record)

/-- The recorded start time of the leader, and that of another process as it is now. -/
def expectedStart (record : Worker) (pid : ℕ) : Op Act IoError (Option ℕ) :=
  if pid = record.pid then pure record.starttime else perform (.starttime pid)

/-- Kill one process of the role group of `record`. -/
def drainOne (record : Worker) (uid pid : ℕ) : Op Act IoError Unit := do
  signalPid record pid uid (← expectedStart record pid)

/-- The group is empty, by its list of processes and by the kernel's own account. -/
def vacant (path : String × Key) (pids : List ℕ) : Op Act IoError Bool :=
  if pids.isEmpty = true then attempt (.empty path) else pure false

/-- One round of the loop of `drain`. -/
def drainRound (record : Worker) (uid : ℕ) (path : String × Key) (again : Op Act IoError Unit) :
    Op Act IoError Unit := do
  let pids ← attempt (.members path)
  if (← vacant path pids) = true then
    if (← matchesWorker record) = true then
      throw (.other "worker survived outside its assigned role cgroup")
    else
      return ()
  else
    each (drainOne record uid) pids
    again

/-- The loop of `drain`. The deadline passes after `rounds` further rounds. -/
def drainRounds (record : Worker) (uid : ℕ) (path : String × Key) : ℕ → Op Act IoError Unit
  | 0 => drainRound record uid path (throw ⟨.timedOut, "worker role cgroup did not drain"⟩)
  | rounds + 1 => drainRound record uid path (drainRounds record uid path rounds)

/-- Wait for a child that the broker still has. -/
def reap : Option Child → Op Act IoError Unit
  | some child => perform (.wait child)
  | none => pure ()

/-- Kill everything in the role group and wait until it is empty. -/
def drain (k : Key) : Op Act IoError Unit := do
  let registry ← perform .registry
  match registry.find k with
  | none => throw (.other "root broker record missing")
  | some e => do
    let rounds ← perform (.ask ℕ)
    drainRounds e.worker e.identity.uid (group registry.config k) rounds
    reap (← perform (.takeChild k))
    -- the jail directory
    other

/-- The launch that follows the state `r` of the registry. -/
def nextLaunch (r : Registry) (k : Key) : Launch where
  config := r.config
  key := k
  slot := r.nextIdentity
  uid := addU32 r.config.uidBase r.nextIdentity
  gid := addU32 r.config.gidBase r.nextIdentity
  generation := r.nextIdentity + 1

/-- The record of a worker that has no process yet. -/
def newWorker (l : Launch) : Worker where
  id := l.key.1
  pid := 0
  sockDir := l.config.dirOf l.key.1
  statePath := l.config.dirOf l.key.1 ++ "/" ++
    match l.key.2 with
    | .vmm => "state.json"
    | .netd => "net-state.json"
  starttime := none
  isolation := some ⟨l.config.socket, l.key.2, l.uid, l.gid, l.generation⟩

/-- The record of a worker with its process. -/
def startedWorker (l : Launch) (pid : ℕ) (starttime : Option ℕ) : Worker :=
  { newWorker l with pid := pid, starttime := starttime }

/-- The record of a launch that has begun. -/
def intended (l : Launch) (pid : ℕ) (starttime : Option ℕ) (rootDisk : Option String) :
    Entry where
  intent := true
  worker := startedWorker l pid starttime
  rootDisk := rootDisk
  isolated := rfl

/-- Drop the intent of an earlier launch that left no process. -/
def recoverIntent (k : Key) (e : Entry) (path : String × Key) : Op Act IoError Unit :=
  if e.intent = true then do
    if (← lingers e.worker path) = true then
      throw (.other "unfinished live launch intent; explicit broker recovery required")
    else
      perform (.assign (·.settled k))
      attempt .persist
  else
    pure ()

/-- The first part of `launch`: no earlier worker is left. -/
def clear (k : Key) : Op Act IoError Unit := do
  let registry ← perform .registry
  refuse (registry.find k = none ∧ 16384 ≤ registry.entries.length)
    (.other ("root worker record limit reached; stop broker and compact deleted/drained VM " ++
      "records without resetting allocations"))
  match registry.find k with
  | none => return ()
  | some e => do
    recoverIntent k e (group registry.config k)
    if (← matchesWorker e.worker) = true then
      throw (.other "worker already running")
    else
      drain k

/-- The role group is empty. -/
def requireEmpty (path : String × Key) : Op Act IoError Unit := do
  let pids ← attempt (.members path)
  if (← vacant path pids) = true then
    return ()
  else
    throw (.other "role cgroup is not empty; refusing identity reuse")

/-- The launcher answers and has become the worker. -/
def confirm (k : Key) (worker : Worker) : Op Act IoError Unit := do
  -- the answer of the launcher within ten seconds
  other
  if (← matchesWorker worker) = true then
    perform (.assign (·.settled k))
    attempt .persist
  else
    throw (.other "worker exec did not establish assigned host credentials")

/-- The part of `launch` whose failure kills the launcher. -/
def establish (k : Key) (child : Child) (worker : Worker) : Op Act IoError Unit := do
  attempt .persist
  attempt (.sendPlan child)
  confirm k worker

/-- A launch that did not work out leaves no process behind. -/
def abandon (k : Key) (child : Child) (l : Launch) : Op Act IoError Unit := do
  perform (.kill child l)
  perform (.wait child)
  perform (.assign (·.settled k))
  let _ ← outcome (drain k)
  let _ ← outcome (attempt .persist)

/-- What `launch` does with the outcome of that part. -/
def finish (l : Launch) (child : Child) (worker : Worker) :
    Except IoError Unit → Op Act IoError Worker
  | .error e => do
    abandon l.key child l
    throw e
  | .ok () => do
    perform (.keepChild l.key child)
    return worker

/-- The end of `launch`. -/
def conclude (l : Launch) (child : Child) (worker : Worker) : Op Act IoError Worker := do
  finish l child worker (← outcome (establish l.key child worker))

/-- The part of `launch` after the identity was allocated. -/
def spawnWorker (l : Launch) (rootDisk : Option String) : Op Act IoError Worker := do
  -- the log file and the pipe
  other
  let child ← attempt (.spawn l)
  let worker := startedWorker l child.pid (← perform (.starttime child.pid))
  perform (.assign (·.insert (intended l child.pid worker.starttime rootDisk)))
  conclude l child worker

/-- `Broker::launch`: a fresh identity is saved before the launcher is spawned. -/
def launch (k : Key) : Op Act IoError Worker := do
  refuse (validId k.1 = false) (.other "invalid worker id")
  clear k
  let registry ← perform .registry
  requireEmpty (group registry.config k)
  refuse (registry.config.identityCount ≤ registry.nextIdentity)
    (.other ("reserved worker identities exhausted; extend reserved range without resetting " ++
      "registry"))
  let l := nextLaunch registry k
  -- the plan; the control groups
  let rootDisk ← attempt (.ask (Except IoError (Option String)))
  other
  perform (.assign fun r => r.allocated.insert (intended l 0 none rootDisk))
  attempt .persist
  spawnWorker l rootDisk

/-- A missing registry file was there once, or could not be read. -/
def installed (e : IoError) : Op Act IoError Bool :=
  if e.kind = .notFound then perform .marked else pure true

/-- Read the registry file, or write that of a first installation. -/
def loadRegistry (cfg : Config) : Op Act IoError Unit := do
  match ← outcome (attempt .load) with
  | .ok r => perform (.assign fun _ => r)
  | .error e => do
    if (← installed e) = true then
      throw (.other ("root identity registry unavailable; restore it, never reset allocations: " ++
        e.message))
    else
      -- no group of a VM is populated
      other
      perform (.assign fun _ => .fresh cfg)
      attempt .persist
      attempt .mark

/-- The changes of the configuration that the broker accepts. -/
def Extends (cfg : Config) (r : Registry) : Prop :=
  cfg.uidBase = r.config.uidBase ∧ cfg.gidBase = r.config.gidBase ∧
  cfg.stateDir = r.config.stateDir ∧ cfg.daemonUid = r.config.daemonUid ∧
  cfg.daemonGid = r.config.daemonGid ∧ r.config.identityCount ≤ cfg.identityCount ∧
  r.nextIdentity ≤ cfg.identityCount

instance (cfg : Config) (r : Registry) : Decidable (Extends cfg r) := by
  unfold Extends
  infer_instance

/-- More than the capacity has changed. -/
def reconfigures (cfg old : Config) : Bool :=
  { old.toSettings with identityCount := cfg.identityCount } ≠ cfg.toSettings

/-- The configuration does not change while a worker lingers. -/
def requireStopped (old : Config) (x : Key × Entry) : Op Act IoError Unit := do
  if (← lingers x.2.worker (group old (x.2.worker.id, x.2.identity.role))) = true then
    throw (.other "stop all workers before changing broker mount/device/library configuration")
  else
    return ()

/-- A process of an interrupted launch may be left. -/
def interrupted (e : Entry) (path : String × Key) : Op Act IoError Bool :=
  if e.intent = true then do
    if (← leaderAlive e.worker) = true then
      return true
    else
      let pids ← attempt (.members path)
      return !(← vacant path pids)
  else
    pure false

/-- Drop the intent of a launch that was interrupted and left no process. -/
def settle (cfg : Config) (x : Key × Entry) : Op Act IoError Unit := do
  if (← interrupted x.2 (group cfg (x.2.worker.id, x.2.identity.role))) = true then
    throw (.other ("interrupted launch still has a process; administrator must inspect/drain " ++
      "recorded role before broker restart"))
  else
    perform (.assign (·.settled x.1))

/-- `Broker::open`. -/
def openBroker (cfg : Config) : Op Act IoError Unit := do
  -- the sandbox support and the lock file
  other
  loadRegistry cfg
  let registry ← perform .registry
  refuse (¬ Extends cfg registry)
    (.other ("identity range/ledger/daemon changes require a separate deployment; reserved " ++
      "capacity may only increase"))
  Op.when (reconfigures cfg registry.config)
    (each (requireStopped registry.config) registry.entries)
  perform (.assign (·.configured cfg))
  attempt .persist
  each (settle cfg) registry.entries
  attempt .persist
  -- the preflight
  other

/-- The actions of a request. -/
inductive BrokerAction
  | check
  | launch
  | status
  | stop
  | inspect
  deriving DecidableEq, Repr

/-- A request, as the daemon sends it. -/
structure BrokerRequest where
  action : BrokerAction
  id : String
  role : WorkerRole
  worker : Option Worker
  deriving DecidableEq, Repr

/-- A reply; every one tells the paths of the configuration. -/
structure BrokerReply where
  error : Option String
  worker : Option Worker
  alive : Bool
  dataDir : String
  vmmBin : String
  netdBin : Option String
  cgroupRoot : String
  libPath : String
  rootDisk : Option String
  deriving DecidableEq, Repr

/-- `reply`: the reply without an outcome. -/
def Config.reply (c : Config) : BrokerReply where
  error := none
  worker := none
  alive := false
  dataDir := c.dataDir
  vmmBin := c.vmmBin
  netdBin := c.netdBin
  cgroupRoot := c.cgroupRoot
  libPath := c.libPath
  rootDisk := none

/-- A stop does not ask whether the worker runs. -/
def runs (action : BrokerAction) (w : Worker) : Op Act IoError Bool :=
  if action = .stop then pure false else matchesWorker w

/-- Status, stop and inspect; the answer says whether the worker is alive. -/
def observe (action : BrokerAction) (c : Config) (k : Key) (w : Worker) : Op Act IoError Bool := do
  if (← runs action w) = true then
    let pids ← attempt (.members (group c k))
    refuse (w.pid ∉ pids) (.other "worker is outside recorded role cgroup")
    return true
  else
    drain k
    return false

/-- `Broker::request`. -/
def request (q : BrokerRequest) : Op Act IoError BrokerReply := do
  let registry ← perform .registry
  let reply := registry.config.reply
  if q.action = .check then
    refuse (q.id ≠ "" ∨ q.worker ≠ none) (.other "invalid broker check request")
    return reply
  else
    refuse (validId q.id = false) (.other "invalid worker id")
    if q.action = .launch then
      refuse (q.worker ≠ none) (.other "launch cannot select process identity")
      let worker ← launch (q.id, q.role)
      return { reply with worker := some worker, alive := true }
    else
      match registry.find (q.id, q.role) with
      | none => throw (.other "root broker worker record missing")
      | some e => do
        refuse (e.intent = true ∨ q.worker ≠ some e.worker)
          (.other "daemon worker record does not match root-owned identity")
        let rootDisk := if q.action = .inspect then e.rootDisk else none
        let alive ← observe q.action registry.config (q.id, q.role) e.worker
        return { reply with alive := alive, rootDisk := rootDisk }

/-- Root may only check and inspect, the daemon may not inspect. -/
def serve (uid : ℕ) (q : BrokerRequest) : Op Act IoError BrokerReply := do
  refuse (uid = 0 ∧ q.action ≠ .inspect ∧ q.action ≠ .check ∨ uid ≠ 0 ∧ q.action = .inspect)
    ⟨.permissionDenied, "broker role action is not authorized for this peer"⟩
  request q

/-- The children that have exited. -/
def finished : List (Key × Child) → Op Act IoError (List Key)
  | [] => return []
  | (k, child) :: rest => do
    let gone ← perform (.tryWait child)
    let keys ← finished rest
    return if gone = true then k :: keys else keys

/-- Drain the role group of a worker that has exited. Errors are only logged. -/
def drainExited (k : Key) : Op Act IoError Unit := do
  let registry ← perform .registry
  match registry.find k with
  | none => return ()
  | some e => do
    let _ ← outcome (drain (e.worker.id, e.identity.role))

/-- `Broker::maintain`: the children that have exited are drained. -/
def maintain : Op Act IoError Unit := do
  let keys ← finished (← perform .children)
  each drainExited keys

/-- The record of a deleted VM whose worker has gone. -/
def retirable (c : Config) (x : Key × Entry) : Op Act IoError Bool := do
  let path := group c (x.2.worker.id, x.2.identity.role)
  -- whether the directory of the VM is there
  let deleted ← attempt (.ask (Except IoError Bool))
  if deleted = true ∧ x.2.intent = false then
    if (← matchesWorker x.2.worker) = true then
      return false
    else
      let pids ← attempt (.members path)
      vacant path pids
  else
    return false

/-- The entries that compaction may drop. -/
def retired (c : Config) : List (Key × Entry) → Op Act IoError (List Key)
  | [] => return []
  | x :: rest => do
    let forget ← retirable c x
    let keys ← retired c rest
    return if forget = true then x.1 :: keys else keys

/-- Compaction drops an entry once its cgroup has been drained. -/
def retire (k : Key) : Op Act IoError Unit := do
  drain k
  perform (.assign (·.remove k))

/-- `Broker::compact`. -/
def compact : Op Act IoError Unit := do
  let registry ← perform .registry
  let keys ← retired registry.config registry.entries
  each retire keys
  attempt .persist

/-- The programs of the broker's two services. -/
inductive Begins : World → Prog Act Unit → Prop
  | starts {s : World} (cfg : Config) (h : s.running = false) :
      Begins s ((do openBroker cfg; perform .ready : Op Act IoError Unit).bind fun _ => .done ())
  | compacts {s : World} (cfg : Config) (h : s.running = false) :
      Begins s ((do openBroker cfg; compact : Op Act IoError Unit).bind fun _ => .done ())
  | maintains {s : World} (h : s.running = true) :
      Begins s (Prog.bind maintain fun _ => .done ())
  | serves {s : World} (uid : ℕ) (q : BrokerRequest) (h : s.running = true) :
      Begins s (Prog.bind (serve uid q) fun _ => .done ())

/-- The broker on its host. -/
def machine : Machine Act World where
  env := Drift
  eff := eff
  begins := Begins
  halts s s' := s' = s.halted

/-- A host on which no broker has run yet. -/
structure Fresh (s : World) : Prop where
  running : s.running = false
  children : s.children = []
  disk : s.disk = none
  marker : s.marker = false
  zombies : s.zombies = []
  spawned : s.spawned = []
  signals : s.signals = []
  foreign : ∀ p ∈ s.procs, p.launch = none ∧ p.planned = false ∧ p.child = false
  pids : (s.procs.map Process.pid).Nodup ∧ ∀ p ∈ s.procs, p.pid ≠ 0
  serials : (s.procs.map Process.serial).Nodup ∧ ∀ p ∈ s.procs, p.serial < s.born
  /-- There is no registry in memory yet. -/
  registry : s.registry.nextIdentity = 0 ∧ s.registry.entries = []

end AgentHouse.Broker
