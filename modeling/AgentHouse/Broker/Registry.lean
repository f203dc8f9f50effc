import AgentHouse.Lib.Tables
import AgentHouse.Lib.Machines

/-!
# Worker broker: the identity registry and the host

The root broker starts one worker process for each sandbox and role. Every worker gets a
fresh uid, gid and generation from a reserved range; the registry file remembers how many
were handed out and which worker each sandbox and role last had. The host around it is the list
of its processes, the registry file, and the broker's own memory.

What the launcher does after it received its plan is left to the host: it joins the role
group and then drops its credentials, or it dies.
-/

namespace AgentHouse.Broker

/-- A sandbox has one worker of each role. -/
inductive WorkerRole
  | vmm
  | netd
  deriving DecidableEq, Repr

/-- The name of a role in paths and messages. -/
def WorkerRole.name : WorkerRole → String
  | .vmm => "vmm"
  | .netd => "netd"

/-- A sandbox id and a role. The source joins the two with a slash, which is in no valid id. -/
abbrev Key := String × WorkerRole

/-- The kinds of an I/O error that the broker tells apart. -/
inductive ErrorKind
  | notFound
  | timedOut
  | permissionDenied
  | other
  deriving DecidableEq, Repr

/-- An I/O error. -/
structure IoError where
  kind : ErrorKind
  message : String
  deriving DecidableEq, Repr

/-- `io::Error::other` -/
def IoError.other (message : String) : IoError := ⟨.other, message⟩

/-- The configuration file. -/
structure Settings where
  socket : String
  stateDir : String
  jailDir : String
  dataDir : String
  cgroupRoot : String
  daemonUid : ℕ
  daemonGid : ℕ
  uidBase : ℕ
  gidBase : ℕ
  identityCount : ℕ
  vmmBin : String
  netdBin : Option String
  gpuBin : Option String
  libPath : String
  imageRoots : List String
  devices : List String
  deriving DecidableEq, Repr

/-- The identity range that `Config::load` accepts. -/
def Settings.Reserved (c : Settings) : Prop :=
  c.daemonUid ≠ 0 ∧ c.daemonGid ≠ 0 ∧ 65536 ≤ c.uidBase ∧ 65536 ≤ c.gidBase ∧
  c.identityCount ≠ 0 ∧ c.identityCount ≤ 16777216 ∧
  c.uidBase + c.identityCount < 2147483647 ∧ c.gidBase + c.identityCount < 2147483647

instance (c : Settings) : Decidable c.Reserved := by unfold Settings.Reserved; infer_instance

/-- A configuration that was loaded. -/
structure Config extends Settings where
  reserved : toSettings.Reserved
  deriving DecidableEq

/-- The check of the identity range when the configuration is read. -/
def Config.load (c : Settings) : Except IoError Config :=
  if h : c.Reserved then .ok ⟨c, h⟩
  else .error (.other "invalid reserved worker identity range")

/-- Addition of the 32-bit integers that hold user and group ids. -/
def addU32 (a b : ℕ) : ℕ := (a + b) % 2 ^ 32

/-- The isolation of a worker. -/
structure WorkerIdentity where
  socket : String
  role : WorkerRole
  uid : ℕ
  gid : ℕ
  generation : ℕ
  deriving DecidableEq, Repr

/-- The record of a worker, as the daemon stores it. -/
structure Worker where
  id : String
  pid : ℕ
  sockDir : String
  statePath : String
  starttime : Option ℕ
  isolation : Option WorkerIdentity
  deriving DecidableEq, Repr

/-- A record of the registry; the broker writes none without an identity. -/
structure Entry where
  intent : Bool
  worker : Worker
  rootDisk : Option String
  isolated : worker.isolation.isSome = true

/-- The isolation that every entry has. -/
def Entry.identity (e : Entry) : WorkerIdentity := e.worker.isolation.get e.isolated

/-- The record without its launch intent. -/
def Entry.settled (e : Entry) : Entry := { e with intent := false }

/-- The registry; a record is kept under the id and the role of its worker. -/
structure Registry where
  config : Config
  nextIdentity : ℕ
  entries : List (Key × Entry)
  keyed : Table.Keyed Prod.fst entries
  named : ∀ x ∈ entries, (x.2.worker.id, x.2.identity.role) = x.1

namespace Registry

variable (r : Registry) (k : Key)

/-- The entry of a key. -/
def find : Option Entry := (Table.row Prod.fst k r.entries).map Prod.snd

/-- The registry of a first installation. -/
def fresh (c : Config) : Registry where
  config := c
  nextIdentity := 0
  entries := []
  keyed := List.nodup_nil
  named := fun _ h => nomatch h

/-- The registry under another configuration. -/
def configured (c : Config) : Registry := { r with config := c }

/-- The registry without a key. -/
def remove : Registry where
  config := r.config
  nextIdentity := r.nextIdentity
  entries := r.entries.filter (fun x => x.1 ≠ k)
  keyed := r.keyed.filter
  named := fun x hx => r.named x (List.mem_of_mem_filter hx)

/-- A removed key has no entry. -/
theorem row_remove : Table.row Prod.fst k (r.remove k).entries = none := by
  rw [Table.row_eq_none]
  intro x hx
  simpa using List.of_mem_filter hx

/-- Store the record of a worker, in place of an older one. -/
def insert (e : Entry) : Registry where
  config := r.config
  nextIdentity := r.nextIdentity
  entries := (r.remove (e.worker.id, e.identity.role)).entries ++
    [((e.worker.id, e.identity.role), e)]
  keyed := (r.remove _).keyed.append (r.row_remove _)
  named := by
    intro x hx
    obtain hx | rfl := Table.mem_snoc.mp hx
    · exact (r.remove _).named x hx
    · rfl

/-- Allocate the next identity. -/
def allocated : Registry := { r with nextIdentity := r.nextIdentity + 1 }

/-- Drop the launch intent of a record. -/
def settled : Registry where
  config := r.config
  nextIdentity := r.nextIdentity
  entries := Table.revise Prod.fst k (fun x => (x.1, x.2.settled)) r.entries
  keyed := r.keyed.revise (fun _ => rfl)
  named := by
    intro x hx
    obtain ⟨y, hy, rfl⟩ := List.mem_map.mp hx
    split
    · exact r.named y hy
    · exact r.named y hy

end Registry

/-- The role group of a worker. -/
def group (c : Config) (k : Key) : String × Key := (c.cgroupRoot, k)

/-- What a launcher was started for. -/
structure Launch where
  config : Config
  key : Key
  slot : ℕ
  uid : ℕ
  gid : ℕ
  generation : ℕ
  deriving DecidableEq

/-- The cgroup of a launch. -/
def Launch.group (l : Launch) : String × Key := Broker.group l.config l.key

/-- A process of the host. `serial` tells apart processes that had the same pid. -/
structure Process where
  serial : ℕ
  pid : ℕ
  start : ℕ
  uids : List ℕ
  gids : List ℕ
  /-- The role group that the process is in. -/
  group : Option (String × Key)
  /-- The launch of a process that the broker has started. -/
  launch : Option Launch
  /-- The process has received its plan. -/
  planned : Bool
  /-- The broker that runs now is its parent. -/
  child : Bool
  deriving DecidableEq

/-- All four ids are the given one. -/
def All (ids : List ℕ) (id : ℕ) : Prop := ids.length = 4 ∧ ∀ i ∈ ids, i = id

instance (ids : List ℕ) (id : ℕ) : Decidable (All ids id) := by unfold All; infer_instance

/-- The process runs as the worker that it was launched to be. -/
def Process.Runs (p : Process) (l : Launch) : Prop :=
  p.group = some l.group ∧ All p.uids l.uid ∧ All p.gids l.gid

/-- A signal that the broker has sent. -/
inductive Signal
  /-- Sent while the role group of `record` was drained, with `registry` in memory. -/
  | drain (target : Process) (record : Worker) (registry : Registry)
  /-- Sent by a failed launch to its own child. -/
  | cleanup (target : Process) (launch : Launch)

/-- A handle of a child process. -/
structure Child where
  serial : ℕ
  pid : ℕ
  deriving DecidableEq, Repr

/-- The host and the broker on it. -/
structure World where
  /-- The registry in the memory of the broker. -/
  registry : Registry
  children : List (Key × Child)
  running : Bool
  /-- The registry file. -/
  disk : Option Registry
  /-- The marker of a finished first installation. -/
  marker : Bool
  /-- The live processes. -/
  procs : List Process
  /-- Children that have exited and were not waited for. -/
  zombies : List Process
  born : ℕ
  /-- Every launch for which a process was started. -/
  spawned : List Launch
  signals : List Signal

namespace World

/-- The processes that own a pid. -/
def owners (s : World) : List Process := s.procs ++ s.zombies

/-- A live process changes. -/
def changed (s : World) (p p' : Process) : World :=
  { s with procs := s.procs.map (fun q => if q = p then p' else q) }

/-- A live process exits. A child of the broker keeps its pid until the broker waits for it. -/
def exited (s : World) (p : Process) : World :=
  { s with
    procs := s.procs.filter (fun q => q ≠ p)
    zombies := if p.child then s.zombies ++ [p] else s.zombies }

end World

end AgentHouse.Broker
