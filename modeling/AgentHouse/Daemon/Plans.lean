import Mathlib.Logic.Relation
import Mathlib.Tactic.Common

/-!
# What the tasks of the daemon lock

Each task as the sequence of its acquisitions and releases: lifecycle keys, which are names of
sandboxes, of snapshots and of project images, and permits of the scheduler. Between them stand
the checks and the changes of the store that decide which names a task goes on with. A task may
give up at every point, since any other check may fail and any client may disconnect. What it
holds is released then.
-/

namespace AgentHouse.Daemon.Waiting

/-- A key of `LifecycleLocks`. -/
abbrev Key := String

/-- The key of a snapshot's lock. -/
def snapshotKey (snapshot : String) : Key := "snapshot:" ++ snapshot

/-- The key of a project image's lock. -/
def imageKey (image : String) : Key := "project-image:" ++ image

/-- `builder_name` -/
def builderName (image : String) : Key := "env-build-" ++ image

/-- `builder_operation` -/
def builderOperation (image : String) : String := "project-builder-" ++ image

/-- `valid_id` of `operations.rs` -/
def validId (id : String) : Bool :=
  !id.isEmpty && decide (id.length ≤ 64) &&
    id.toList.all (fun c => c.isAlphanum || c == '-' || c == '_')

/-- The check of `restore` on the name of the new sandbox. -/
def restorable (id : String) : Bool :=
  !id.isEmpty && decide (id.length ≤ 64) && !(id.toList.head? == some '.') &&
    decide (id ≠ "snapshots") &&
    id.toList.all (fun c => c.isAlphanum || c == '-' || c == '_' || c == '.')

/-- What a task does about locks, permits and the store. -/
inductive Step where
  | lock (key : Key)
  | unlock (key : Key)
  /-- `try_lock`: never waits. -/
  | tryLock (key : Key)
  | permit
  | release
  /-- `try_acquire`: never waits. -/
  | tryPermit
  /-- `check_builder_create` and `check_replicated_name_available`. -/
  | check (name : Key) (operation : Option String)
  /-- `reserve_replicated_volume`, in `replicated::create`. -/
  | reserve (name : Key) (operation : Option String)
  /-- `admit_project_builder` -/
  | admitBuilder (image : String)
  /-- The admission in `capture`, with its check of the reservation. -/
  | admitImage (image : String)
  deriving DecidableEq, Repr

/-- The tasks, with the arguments that their routes accept. A loop is a task for each of its
rounds. -/
inductive Family where
  /-- `create_inner`: with a project image only in an operation, which has checked its name. -/
  | create (name : Key) (operation : Option String) (image : Option String)
      (checked : image.isSome = true → validId name = true ∧ operation.isSome = true)
  /-- `create_builder`, up to the submission of its operation. -/
  | createBuilder (image : String)
  /-- `snapshots::create`, which admits itself to the guest before. -/
  | createSnapshot (sandbox : Key) (snapshot : String)
  | deleteSnapshot (snapshot : String)
  | restore (snapshot : String) (name : Key) (checked : restorable name = true)
  /-- `start`, `stop`, `destroy`, `sync`, and a round of a run or of its event capture. -/
  | mutate (sandbox : Key)
  /-- `status`, `get`, the admission to a guest, previews, `runs::submit` and `cancel`,
  `current_sandbox_state` and `release_vm_pin`. -/
  | inspect (sandbox : Key)
  /-- `capture`, which hands its guard to the first round of `spawn_capture`. -/
  | capture (image : String)
  /-- A later round of `spawn_capture`. -/
  | recapture (image : String)
  /-- The deletion of an image, and its retirement. -/
  | deleteImage (image : String)
  /-- A row of the idle sweep or of the storage reconciliation. -/
  | sweep (sandbox : Key)

/-- A round of `spawn_capture` that has the guard of the image. -/
def captureRound (image : String) : List Step :=
  [.lock (builderName image), .permit, .release, .unlock (builderName image),
    .lock (builderName image), .unlock (builderName image), .unlock (imageKey image)]

/-- The steps of a task, in the order of the source. -/
def Family.plan : Family → List Step
  | .create name operation none _ =>
      [.lock name, .check name operation, .permit, .reserve name operation]
  | .create name operation (some image) _ =>
      [.lock name, .check name operation, .lock (imageKey image), .permit, .reserve name operation]
  | .createBuilder image =>
      [.lock (builderName image), .admitBuilder image, .unlock (builderName image)]
  | .createSnapshot sandbox snapshot =>
      [.lock sandbox, .unlock sandbox, .lock (snapshotKey snapshot), .permit]
  | .deleteSnapshot snapshot => [.lock (snapshotKey snapshot), .permit]
  | .restore snapshot name _ => [.lock (snapshotKey snapshot), .lock name, .permit]
  | .mutate sandbox => [.lock sandbox, .permit]
  | .inspect sandbox => [.lock sandbox]
  | .capture image => .lock (imageKey image) :: .admitImage image :: captureRound image
  | .recapture image => .lock (imageKey image) :: captureRound image
  | .deleteImage image => [.lock (imageKey image)]
  | .sweep sandbox => [.tryLock sandbox, .tryPermit]

/-- The id of the operation that a task executes. -/
def Family.operation : Family → Option String
  | .create _ operation _ _ => operation
  | _ => none

/-- A task and how many steps of its plan are done. -/
structure Task where
  family : Family
  done : ℕ

namespace Task

variable (t : Task)

/-- The step that the task takes next. -/
def next : Option Step := t.family.plan[t.done]?

/-- The keys that are held after some steps. -/
def keysAfter : List Step → List Key → List Key
  | [], keys => keys
  | .lock key :: steps, keys => keysAfter steps (key :: keys)
  | .tryLock key :: steps, keys => keysAfter steps (key :: keys)
  | .unlock key :: steps, keys => keysAfter steps (keys.filter (· ≠ key))
  | _ :: steps, keys => keysAfter steps keys

/-- Whether a permit is held after some steps. -/
def permitAfter : List Step → Bool → Bool
  | [], held => held
  | .permit :: steps, _ => permitAfter steps true
  | .tryPermit :: steps, _ => permitAfter steps true
  | .release :: steps, _ => permitAfter steps false
  | _ :: steps, held => permitAfter steps held

/-- The locks that the task holds. -/
def keys : List Key := keysAfter (t.family.plan.take t.done) []

/-- The task holds a permit. -/
def hasPermit : Bool := permitAfter (t.family.plan.take t.done) false

/-- The task has taken a step. -/
def advance : Task := { t with done := t.done + 1 }

end Task

/-- The rows that decide between the names. None of them is ever deleted, except that the volume
of a reservation may be released. -/
structure Store where
  /-- The rows of project builders. -/
  builders : List String
  /-- The sandboxes that have a replicated reservation that is not released. -/
  reserved : List Key
  /-- The rows of project images that `capture` has admitted. -/
  images : List String
  /-- The receipts of operations. -/
  receipts : List String
  /-- The operations that have reserved their volume; this is not stored. -/
  spent : List String

/-- The tasks of a process by number, and the store. -/
structure Process where
  tasks : ℕ → Option Task
  store : Store

namespace Process

/-- The first process, with a new store. -/
def new : Process := ⟨fun _ => none, ⟨[], [], [], [], []⟩⟩

variable (d : Process)

/-- Another task in a place. -/
def put (i : ℕ) (t : Option Task) : Process := { d with tasks := Function.update d.tasks i t }

/-- No task holds the key. -/
def Free (key : Key) : Prop := ∀ i t, d.tasks i = some t → key ∉ t.keys

/-- At least `permits` tasks have a permit. -/
def Full (permits : ℕ) : Prop :=
  ∃ holders : List ℕ, holders.Nodup ∧ permits ≤ holders.length ∧
    ∀ i ∈ holders, ∃ t, d.tasks i = some t ∧ t.hasPermit = true

/-- The step can be taken now. -/
def Enabled (permits : ℕ) : Step → Prop
  | .lock key => d.Free key
  | .tryLock key => d.Free key
  | .permit => ¬ d.Full permits
  | .tryPermit => ¬ d.Full permits
  | .check name operation =>
      (∀ image ∈ d.store.builders, name = builderName image →
        operation = some (builderOperation image)) ∧ name ∉ d.store.reserved
  | .admitBuilder image => image ∈ d.store.builders ∨ builderName image ∉ d.store.reserved
  | .admitImage image => image ∈ d.store.builders ∧ builderName image ∈ d.store.reserved
  | _ => True

/-- What the step does to the store. -/
def record (s : Store) : Step → Store
  | .reserve name operation =>
      { s with reserved := name :: s.reserved, spent := operation.toList ++ s.spent }
  | .admitBuilder image => { s with builders := image :: s.builders }
  | .admitImage image => { s with images := image :: s.images }
  | _ => s

/-- A task may begin: an operation has a new receipt, a later round of a capture a row. -/
def MayBegin : Family → Prop
  | .create _ (some operation) _ _ => operation ∉ d.store.receipts
  | .recapture image => image ∈ d.store.images
  | _ => True

/-- The receipt of the operation that begins. -/
def receive (f : Family) : Store :=
  { d.store with receipts := f.operation.toList ++ d.store.receipts }

end Process

open Process in
/-- A task or the process takes a step. -/
inductive Next (permits : ℕ) : Process → Process → Prop
  | begins {d : Process} {i : ℕ} {f : Family} (hfresh : d.tasks i = none) (hmay : d.MayBegin f) :
      Next permits d { d.put i (some ⟨f, 0⟩) with store := d.receive f }
  | step {d : Process} {i : ℕ} {t : Task} {a : Step} (ht : d.tasks i = some t)
      (hnext : t.next = some a) (henabled : d.Enabled permits a) :
      Next permits d { d.put i (some t.advance) with store := record d.store a }
  /-- The task returns, fails or is dropped. -/
  | quits {d : Process} {i : ℕ} : Next permits d (d.put i none)
  /-- The reconciliation or a deletion releases a volume. -/
  | releases {d : Process} {name : Key} :
      Next permits d { d with store :=
        { d.store with reserved := d.store.reserved.filter (· ≠ name) } }
  /-- The daemon starts again with its store. -/
  | restarts {d : Process} : Next permits d { d with tasks := fun _ => none }

/-- The states of a daemon that allows so many permits. -/
def Reaches (permits : ℕ) (d : Process) : Prop :=
  Relation.ReflTransGen (Next permits) .new d

/-- The task `i` waits for what the task `j` holds. -/
inductive Process.Waits (d : Process) : ℕ → ℕ → Prop
  | key {i j : ℕ} {t u : Task} {key : Key} (ht : d.tasks i = some t) (hu : d.tasks j = some u)
      (hnext : t.next = some (.lock key)) (hheld : key ∈ u.keys) : Waits d i j
  | permit {i j : ℕ} {t u : Task} (ht : d.tasks i = some t) (hu : d.tasks j = some u)
      (hnext : t.next = some .permit) (hheld : u.hasPermit = true) : Waits d i j

end AgentHouse.Daemon.Waiting
