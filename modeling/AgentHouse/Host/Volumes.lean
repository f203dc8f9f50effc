import AgentHouse.Lib.Programs
import AgentHouse.Host.Candidates

/-!
# Operations on one volume

What the supervisor does while it holds the lock of one volume, as programs over the actions
below (`service/mod.rs`). A section under the lock of the volume table is one action. Answers
that come from outside the supervisor (processes, files of the engine, the object store, time)
are left open: `ask` may answer anything. A store, image or process call whose effects lie
outside the volume's record, its owner directory and its NBD attachment is such a question.
-/

namespace AgentHouse.Host

/-- What an operation on a volume does to its record, the tables, the processes and the device. -/
inductive Act : Type → Type 1 where
  /-- The record in memory, `e.record`. -/
  | record : Act Record
  | assign (f : Record → Record) : Act Unit
  /-- `self.persist`. -/
  | persist (r : Record) : Act (Result Unit)
  /-- Under the table lock: persist, freeze admissions on failure, else adopt the record. -/
  | publish (next : Record) : Act (Result Unit)
  /-- The section of `reserve_residency`. -/
  | reserve : Act (Result Unit)
  /-- `private_dir` of the owner directory. -/
  | ownerDir : Act (Result Unit)
  | removeOwner : Act (Result Unit)
  | nbdPid (device : Path) : Act (Result (Option ℕ))
  | disconnect (device : Path) : Act (Result Unit)
  /-- Wait until nothing is attached to the device. -/
  | awaitDetached (device : Path) : Act (Result Unit)
  | connect (device : Path) (client : Process) : Act (Result Unit)
  /-- Any other use of the device node, its sockets or its queue. -/
  | useDevice (device : Path) : Act (Result Unit)
  | enterGroup (p : Process) : Act (Result Unit)
  | takeImports : Act Unit
  | dropImports : Act Unit
  | checkDigest (digest : String) : Act (Result Unit)
  | ask (what : String) (β : Type) : Act β

/-- An operation on a volume. -/
abbrev VolumeOp := Op Act String

/-- What a reply tells of the record. -/
structure Reply where
  device : Option Path
  reclamationComplete : Bool
  logicalReleased : Bool
deriving DecidableEq, Repr

namespace VolumeOp

variable (cfg : Config)

/-- The record in memory. -/
def record : VolumeOp Record := Op.perform .record

/-- The record in memory changes. -/
def assign (f : Record → Record) : VolumeOp Unit := Op.perform (.assign f)

/-- `self.persist(r)`. -/
def persist : VolumeOp Unit := do
  let r ← record
  Op.attempt (.persist r)

/-- A look at the world, whose answer is not modelled. -/
def ask (what : String) (β : Type) : VolumeOp β := Op.perform (.ask what β)

/-- A call that reports only whether it succeeded. -/
def call (what : String) : VolumeOp Unit := Op.attempt (.ask what (Result Unit))

/-- The device is asked to be free. -/
def unused (device : Path) : VolumeOp Unit := Op.attempt (.useDevice device)

/-- `resources.enter`. -/
def enterGroup (p : Process) : VolumeOp Unit :=
  if cfg.resources then Op.attempt (.enterGroup p) else pure ()

/-- `resources.remove`. -/
def removeGroup : VolumeOp Unit := if cfg.resources then call "remove cgroup" else pure ()

/-- `control`. -/
def control (r : Record) (command : String) : VolumeOp Bool := do
  Op.refuse (r.worker = none) "worker unavailable"
  Op.attempt (.useDevice r.device)
  Op.attempt (.ask command (Result Bool))

/-- `inspect`. -/
def inspect (r : Record) : VolumeOp Unit := do
  Op.refuse (r.evicted = true) "local disk evicted"
  let pid ← Op.attempt (.nbdPid r.device)
  Op.refuse (pid ≠ r.client.map (·.pid) ∨ r.client = none) "attachment unavailable"
  let localFailed ← control r "status"
  Op.refuse (localFailed = true) "local disk failed"

/-- The directory of a deleted volume's sandbox may belong to another volume now. -/
def foreignSandbox (r : Record) : VolumeOp Bool :=
  if r.deleted then Op.attempt (.ask "sandbox.json names another volume" (Result Bool))
  else pure false

/-- The part of `vm` that asks the files of the engine. -/
def engineVm (r : Record) : VolumeOp (Option Process) := do
  if !(← ask "state.json exists" Bool) then return none
  if ← foreignSandbox r then return none
  call "binding"
  match ← Op.attempt (.ask "process of state.json" (Result (Option Process))) with
  | none => return none
  | some p =>
    let rootDisk ← Op.attempt (.ask "spec.json root_disk" (Result (Option Path)))
    Op.refuse (rootDisk ≠ some r.device) "VM disk binding mismatch"
    call "check_vm_uid"
    Op.attempt (.useDevice r.device)
    return if ← ask "consumers contain it" Bool then some p else none

/-- `vm`: the process that the engine started on this device. -/
def vm : VolumeOp (Option Process) := do
  let r ← record
  if r.evicted then return none
  match r.vm with
  | none => engineVm r
  | some p =>
    if ← Op.attempt (.ask "alive" (Result Bool)) then
      call "check_vm_uid"
      return some p
    else engineVm r

/-- The part of `detach` that disconnects the device. -/
def disconnectDevice (r : Record) : VolumeOp Unit := do
  match ← Op.attempt (.nbdPid r.device) with
  | none => return
  | some pid =>
    Op.refuse (r.client.map (·.pid) ≠ some pid) "foreign attachment"
    Op.attempt (.disconnect r.device)
    Op.attempt (.awaitDetached r.device)

/-- `detach`. -/
def detach : VolumeOp Unit := do
  let r ← record
  if r.evicted then return
  let running ← vm
  Op.refuse (running.isSome = true) "VM still running"
  unused r.device
  disconnectDevice r
  Op.when r.worker.isSome (call "stop worker")
  Op.when r.deleted (Op.attempt (.useDevice r.device))
  assign Record.stopped
  persist
  removeGroup cfg

/-- `command` with a record: the NBD client is recorded before it may attach. Stopping it after
a failure changes nothing that is modelled. -/
def attachClient (device : Path) : VolumeOp Unit := do
  let p ← Op.attempt (.ask "spawn client" (Result Process))
  enterGroup cfg p
  assign fun r => { r with client := some p }
  persist
  Op.attempt (.connect device p)

/-- `attach`. -/
def attach : VolumeOp Unit := do
  let r ← record
  Op.refuse (r.evicted = true) "local resources are not reserved"
  if (← Op.outcome (inspect r)) matches .ok _ then return
  detach cfg
  let r ← record
  Op.attempt (.useDevice r.device)
  Op.attempt .ownerDir
  Op.attempt (.useDevice r.device)
  let p ← Op.attempt (.ask "spawn worker" (Result Process))
  enterGroup cfg p
  assign fun r => { r with worker := some p }
  persist
  call "start worker"
  let r ← record
  let _ ← control r "status"
  attachClient cfg r.device
  let r ← record
  let pid ← Op.attempt (.nbdPid r.device)
  Op.refuse (pid ≠ r.client.map (·.pid)) "NBD client identity mismatch"
  Op.attempt (.useDevice r.device)
  inspect r

/-- The part of `prepare_with` that records the digest of the image. -/
def recordHash (r : Record) (hash : String) : VolumeOp Unit := do
  if r.imageHash = "" then
    assign fun r => { r with imageHash := hash }
    persist
  else
    Op.refuse (r.imageHash ≠ hash) "import source changed"

/-- `prepare_with`. The store calls are those of the import and the enrollment. -/
def prepare : VolumeOp Unit := do
  let r ← record
  if r.prepared then return
  Op.guarded .takeImports .dropImports do
    let size ← Op.attempt (.ask "image size" (Result ℕ))
    Op.refuse (size ≠ r.logicalBytes ∨ size = 0 ∨ maxDisk < size ∨ size % chunkBytes ≠ 0)
      "invalid raw image size/type"
    let hash ← Op.attempt (.ask "cached_image_hash" (Result String))
    Op.attempt (.checkDigest hash)
    recordHash r hash
    call "import or create_from_base"
    call "enroll"
    assign fun r => { r with prepared := true }
    persist

/-- The first conditions of `evict`, without those that look at the device. -/
def notEvictable (r : Record) : Bool :=
  r.deleted || !r.prepared || !r.gcEligible || r.desired || r.worker.isSome || r.client.isSome

/-- `evict_with_store`. -/
def evictWithStore : VolumeOp Unit := do
  let r ← record
  Op.refuse ((notEvictable r || r.vm.isSome) = true) "volume is not detached for eviction"
  removeGroup cfg
  call "OwnedDisk::evict_local"
  Op.attempt (.publish { r with evicted := true })

/-- `evict`. -/
def evict : VolumeOp Unit := do
  let r ← record
  if r.evicted then return
  Op.refuse (notEvictable r = true) "volume is not eligible for local eviction"
  let running ← vm
  Op.refuse (running.isSome = true) "volume is not eligible for local eviction"
  let pid ← Op.attempt (.nbdPid r.device)
  Op.refuse (pid.isSome = true) "volume is not eligible for local eviction"
  unused r.device
  evictWithStore cfg

/-- `release_deleted_local`. -/
def releaseDeletedLocal : VolumeOp Unit := do
  let r ← record
  Op.refuse (r.deleted = false) "volume is not deleted"
  Op.when (!r.reclaimed && !r.evicted && r.prepared) (detach cfg)
  let r ← record
  Op.refuse ((!r.deleted || r.busy) = true) "volume is not detached and deleted"
  if r.logicalReleased && r.evicted then return
  Op.attempt .ownerDir
  call "OwnedDisk::discard_retired_local"
  Op.attempt (.publish { r with logicalReleased := true, evicted := true })

/-- `reclaim_with_store`. -/
def reclaimWithStore : VolumeOp Unit := do
  let r ← record
  Op.refuse ((!r.deleted || r.busy) = true) "volume is not detached and deleted"
  releaseDeletedLocal cfg
  call "collector lock"
  Op.attempt .ownerDir
  call "OwnedDisk::retire"
  let complete ← Op.attempt (.ask "sweep" (Result Bool))
  Op.when complete do
    removeGroup cfg
    Op.attempt .removeOwner
    assign fun r => { r with reclaimed := true }
    persist

/-- `reclaim`. -/
def reclaim : VolumeOp Unit := do
  releaseDeletedLocal cfg
  reclaimWithStore cfg

/-- The compaction of `collect_offline`. -/
def compactOffline (r : Record) : VolumeOp Unit := do
  let revision ← Op.attempt (.ask "remote_revision" (Result String))
  Op.when (r.compactRevision ≠ some revision) (assign fun r => { r with compactAfter := none })
  let next ← Op.attempt (.ask "compact_offline" (Result (Option CompactionCursor)))
  let revision ← Op.attempt (.ask "remote_revision" (Result String))
  assign fun r => { r with compactRevision := some revision, compactAfter := next }

/-- `collect_offline`. A listed key is a digest, which the collection checks. -/
def collectOffline : VolumeOp Unit := do
  let r ← record
  Op.refuse ((notEvictable r) = true) "offline collection requires a stopped detached disk"
  let running ← vm
  Op.refuse (running.isSome = true) "offline collection requires a stopped detached disk"
  let pid ← Op.attempt (.nbdPid r.device)
  Op.refuse (pid.isSome = true) "offline collection requires a stopped detached disk"
  unused r.device
  call "collector lock"
  call "cancel"
  Op.attempt .ownerDir
  call "OwnedDisk::open"
  let unmarked ← ask "no mark" Bool
  Op.when (r.gcAfter = none && unmarked) (compactOffline r)
  let after ← Op.attempt (.ask "collect_offline_cached" (Result (Option String)))
  Op.refuse (after.any (fun key => !validId key) = true) "corrupt listing"
  let now ← Op.attempt (.ask "now" (Result ℕ))
  assign fun r => { r with
    gcLastCompleted := if after = none then some now else r.gcLastCompleted, gcAfter := after }
  persist

/-- The part of `recover` for a volume that is to be detached. -/
def recoverDetached : VolumeOp Unit := do
  let r ← record
  Op.when (r.worker.isSome || r.client.isSome || r.vm.isSome) (detach cfg)
  let r ← record
  if r.deleted then reclaim cfg
  else Op.when (r.prepared && r.gcEligible && !r.evicted) do
    collectOffline
    let r ← record
    let cancelled ← ask "cancel" Bool
    Op.when (r.gcAfter = none && r.compactAfter = none && !cancelled) (evict cfg)

/-- The part of `recover` for a volume that is to be attached. -/
def recoverAttached : VolumeOp Unit := do
  let r ← record
  if (← Op.outcome (inspect r)) matches .ok _ then return
  let alive ← ask "worker alive and few failures" Bool
  Op.refuse (alive = true) "worker health check failed; retry before fencing VM"
  let running ← vm
  Op.when running.isSome (call "stop VM")
  detach cfg
  attach cfg

/-- `recover`. -/
def recover : VolumeOp Unit := do
  let r ← record
  if r.deleted || !r.desired then recoverDetached cfg else recoverAttached cfg

/-- The health probe of the recovery loop. It does not hold the volume, and looks at a copy of
its record. -/
def healthy (snapshot : Record) : VolumeOp Bool := do
  if !snapshot.desired then return false
  return (← Op.outcome (inspect snapshot)) matches .ok _

/-- `reserve_residency`. -/
def reserveResidency : VolumeOp Unit := do
  let r ← record
  if !r.evicted then return
  Op.attempt .reserve

/-- The part of `request` for a live record. -/
def live (q : Request) : VolumeOp Unit := do
  let r ← record
  match q.operation with
  | .prepare =>
    Op.refuse (q.image ≠ some r.image) "source mismatch"
    prepare
  | .attach =>
    Op.refuse (r.prepared = false) "not prepared"
    let running ← vm
    Op.refuse (running.isSome = true) "VM already bound"
    reserveResidency
    assign fun r => { r with desired := true, gcEligible := false, gcAfter := none }
    persist
    attach cfg
  | .bind =>
    inspect r
    match ← vm with
    | none => throw "VM not ready for binding"
    | some p =>
      assign fun r => { r with vm := some p }
      persist
  | .inspect | .status => inspect r
  | .sync =>
    Op.refuse (r.prepared = false) "not prepared"
    reserveResidency
    attach cfg
    let r ← record
    let _ ← control r "sync"
    Op.when (!r.desired) (detach cfg)
  | .detach =>
    let running ← vm
    Op.refuse (running.isSome = true) "VM still running"
    assign fun r => { r with desired := false }
    persist
    detach cfg
    assign fun r => { r with gcEligible := true }
    persist
  | _ => throw "unknown operation"

/-- The part of `request` for a deletion or a retirement. -/
def delete : VolumeOp Unit := do
  let r ← record
  assign fun r => { r with deleted := true, desired := false }
  persist
  Op.when (!r.deleted || r.worker.isSome || r.client.isSome || r.vm.isSome) (detach cfg)
  releaseDeletedLocal cfg

/-- The part of `request` that changes the volume. -/
def carryOut (q : Request) : VolumeOp Unit := do
  let r ← record
  if q.operation = .delete || q.operation = .retire then delete cfg
  else
    Op.refuse (r.deleted = true) "volume deleted"
    live cfg q

/-- `request`, from the point where the operation holds the volume. -/
def request (q : Request) : VolumeOp Reply := do
  let r ← record
  Op.refuse (q.sandboxDir ≠ r.sandbox) "sandbox binding mismatch"
  Op.refuse (q.operation = .prepare ∧ ¬ q.logicalBytes.all (fun n => decide (n = r.logicalBytes)))
    "admitted image sizing mismatch"
  Op.refuse (q.operation = .retire ∧ q.logicalBytes ≠ some r.logicalBytes)
    "retirement sizing mismatch"
  Op.when (!r.deleted && q.operation ≠ .retire) (call "binding")
  carryOut cfg q
  let r ← record
  return ⟨if r.worker.isSome then some r.device else none, r.reclaimed, r.logicalReleased⟩

/-- `validate_builder_record`. -/
def notBuilder (r : Record) (metadata : Metadata) (sourceBytes : ℕ) : Bool :=
  r.deleted || r.reclaimed || !r.prepared || r.desired || r.worker.isSome || r.client.isSome ||
    r.vm.isSome || decide (r.logicalBytes ≠ sourceBytes) ||
    decide (r.imageHash ≠ metadata.baseContentDigest)

/-- The part of `project_image_request_inner` that works on the source volume of a capture, which
it holds to its end. What the capture does with the image is an operation on the image. -/
def builder (metadata : Metadata) (sourceBytes : ℕ) : VolumeOp Reply := do
  let r ← record
  Op.refuse (notBuilder r metadata sourceBytes = true)
    "project image capture requires its stopped builder volume"
  let running ← vm
  Op.refuse (running.isSome = true) "project image capture requires its stopped builder volume"
  call "binding"
  let alive ← Op.attempt (.ask "verified_alive" (Result Bool))
  Op.refuse (alive = true) "builder worker is alive"
  Op.when (!r.evicted) do
    let pid ← Op.attempt (.nbdPid r.device)
    Op.refuse (pid.isSome = true) "builder NBD is attached"
    unused r.device
  call "capture_store"
  Op.attempt .ownerDir
  call "OwnedDisk::open"
  call "capture_project_image_with"
  return ⟨none, false, false⟩

end VolumeOp

end AgentHouse.Host
