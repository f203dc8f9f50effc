import AgentHouse.Host.Slots
import AgentHouse.Lib.Tables

/-!
# The volume supervisor

The supervisor with every volume and project image that it knows (`service/mod.rs` and
`service/project_images.rs`). An operation holds one volume or one image and performs its
actions one at a time; operations on different volumes and images interleave in any order. A
section under the lock of the volume table is one step. A crash keeps the volume directories,
the registry and the attachments; `open` reads them back. A recovery pass looks at a copy of
the record first, without holding the volume, and begins only if the record has not changed
meanwhile.
-/

namespace AgentHouse.Host

/-- A volume with the operation that holds it. -/
structure Thread where
  slot : Slot
  /-- The operation that holds the volume. -/
  job : Option (VolumeOp Reply)

/-- An image with the operation that holds its intent. -/
structure ImageThread where
  image : Image
  /-- The operation that holds the image's intent. -/
  job : Option (ImageOp ImageReply)

/-- A pass of the recovery loop that does not hold its volume yet. -/
structure Probe where
  id : String
  /-- The copy of the record that the pass has taken. -/
  snapshot : Record
  /-- What is left of the health probe. -/
  job : VolumeOp Bool

/-- The supervisor while it runs. -/
structure Service where
  threads : List Thread
  probes : List Probe
  /-- Directories that an admission left without an entry. -/
  debris : List String
  /-- Requests that have their slot but not yet its lock. -/
  waiting : List Request
  /-- `admission_failed`. -/
  frozen : Bool
  /-- The volume whose operation holds `imports`. -/
  imports : Option String
  images : List ImageThread
  /-- The image whose operation holds `project_images`. -/
  projectImages : Option String
  /-- Status requests that run without the lock of their intent. -/
  readers : List (String × ImageOp ImageReply)

/-- The host with the supervisor down or up. -/
inductive System where
  | down (volumes : List Volume) (images : List Image)
  | up (σ : Service)

/-- The volume of a thread. -/
def Thread.id (t : Thread) : String := t.slot.volume.id

/-- The image of a thread. -/
def ImageThread.id (t : ImageThread) : String := t.image.id

/-- What a step of the supervisor needs to know about its surroundings. -/
structure Surroundings where
  alive : Process → Bool
  /-- The length of the JSON text of a record. -/
  width : Record → ℕ

/-- Outcomes of the calls that an admission makes. -/
structure Outcomes where
  binding : Result Unit
  canonical : Result Path
  info : Result Unit
  trusted : Result Unit
  bytes : ℕ
  regular : Bool
  attached : Result Bool
  directory : Result Unit
  /-- The record file has been written. -/
  stored : Bool
  /-- What the save and the sync of `volumes` report. -/
  saved : Result Unit

namespace Surroundings

variable (P : Surroundings)

/-- `read` of a record file. -/
def read : Option Record → Result Record
  | none => .error "No such file or directory"
  | some r => if maxRecordBytes < P.width r then .error "record too large" else .ok r

/-- `resources.verify`. -/
def verify (v : Volume) (p : Process) : Result Unit :=
  if P.alive p ∧ p ∉ v.group then .error "live storage process outside expected cgroup"
  else .ok ()

end Surroundings

/-- The first configured device that no record claims. -/
def freeDevice (cfg : Config) (rs : List Record) : Result Path :=
  match cfg.devices.find? (fun d => d ∉ (rs.filter Record.claims).map Record.device) with
  | none => .error "volume device slots exhausted"
  | some d => .ok d

/-- `check_image_admission`. -/
def checkImageAdmission (cfg : Config) (candidates : List Candidate) (image : Path)
    (info : Result Unit) : Result Unit := do
  if candidates.any (fun c => c.path = some image && c.phase ≠ .ready) then
    throw "project image is not available for volume admission"
  if cfg.projectImageRoot.any (fun root => root.isPrefixOf image) then
    if candidates.any (fun c => c.path = some image) then info
    else throw "unregistered private project image"

/-- `check_digest_admission`. -/
def checkDigestAdmission (candidates : List Candidate) (digest : String) : Result Unit :=
  if candidates.any (fun c => c.digest = some digest && c.phase ≠ .ready) then
    .error "private project image is not available for import"
  else .ok ()

/-- `ensure_unreferenced` for one record. -/
def Candidate.references (c : Candidate) (r : Record) : Bool :=
  !r.reclaimed && (c.digest = some r.imageHash || c.path = some r.image)

namespace Service

variable (cfg : Config) (P : Surroundings) (σ : Service)

/-- The records of all known volumes, as they are on disk. -/
def records : Result (List Record) := σ.threads.mapM fun t => P.read t.slot.volume.record

/-- `records` of the registry. -/
def registry : Result (List Candidate) :=
  (σ.images.filterMap (fun t => t.image.candidate)).mapM fun c => do
    c.validate cfg
    return c

/-- The reservations of the records `rs` and of the registry. -/
def usage (rs : List Record) : Result Usage := do
  let usage ← rs.foldlM Usage.count .empty
  let charge ← logicalCharge (← σ.registry cfg)
  let logicalBytes ← checkedAdd usage.logicalBytes charge
  return { usage with logicalBytes }

/-- The checks of `reserve_residency`, and the device that it picks. -/
def residency (r : Record) : Result Path := do
  if σ.frozen then throw "reservation persistence failed; restart required"
  let rs ← σ.records P
  let usage ← σ.usage cfg (rs.filter fun other => other.id ≠ r.id)
  cfg.limits.admission usage r.logicalBytes
  freeDevice cfg rs

/-- The checks of `entry` for a retirement without a registered volume, and its record. -/
def retirement (q : Request) : Result Record := do
  match q.logicalBytes, cfg.devices.head? with
  | none, _ => throw "missing retirement sizing"
  | some bytes, device =>
    let _ ← Usage.empty.addResidency bytes false
    if q.sandboxDir.parent ≠ some cfg.engineRoot then
      throw "sandbox outside configured engine root"
    match device with
    | none => throw "empty device pool"
    | some device => return {
        id := q.volumeId, sandbox := q.sandboxDir, image := [], imageHash := "",
        logicalBytes := bytes, device := device, evicted := true, prepared := false,
        deleted := true, reclaimed := false, logicalReleased := false, compactAfter := none,
        compactRevision := none, gcAfter := none, gcEligible := false, gcLastCompleted := none,
        desired := false, worker := none, client := none, vm := none }

/-- The checks of `entry` for a new volume up to its device, with its image. -/
def admissionDevice (q : Request) (o : Outcomes) : Result (Path × Path) := do
  if q.sandboxDir.parent ≠ some cfg.engineRoot then
    throw "sandbox outside configured engine root"
  o.binding
  if q.image = none then throw "missing image"
  let image ← o.canonical
  checkImageAdmission cfg (← σ.registry cfg) image o.info
  o.trusted
  if ¬ q.logicalBytes.all (fun expected => decide (expected = o.bytes)) then
    throw "admitted image sizing mismatch"
  if !o.regular then throw "image must be a regular file"
  let rs ← σ.records P
  if maxUnreclaimedRecords ≤ (rs.filter fun r => !r.reclaimed).length then
    throw "unreclaimed volume record limit"
  let usage ← σ.usage cfg rs
  cfg.limits.admission usage o.bytes
  let device ← freeDevice cfg rs
  return (image, device)

/-- The checks of `entry` for a new volume, and its record. -/
def volumeAdmission (q : Request) (o : Outcomes) : Result Record := do
  let (image, device) ← σ.admissionDevice cfg P q o
  if ← o.attached then throw "device in use"
  return {
    id := q.volumeId, sandbox := q.sandboxDir, image := image, imageHash := "",
    logicalBytes := o.bytes, device := device, evicted := false, prepared := false,
    deleted := false, reclaimed := false, logicalReleased := false, compactAfter := none,
    compactRevision := none, gcAfter := none, gcEligible := false, gcLastCompleted := none,
    desired := false, worker := none, client := none, vm := none }

/-- A new entry. A save that reports a failure freezes admissions until the next start. -/
def insert (r : Record) (o : Outcomes) : Result Unit × Service :=
  match o.directory with
  | .error e => (.error e, { σ with debris := r.id :: σ.debris.filter fun id => id ≠ r.id })
  | .ok () =>
    let volume : Volume :=
      ⟨r.id, if o.stored then some r else none, false, none, []⟩
    (o.saved, { σ with
      threads := σ.threads ++ [⟨⟨volume, r⟩, none⟩]
      debris := σ.debris.filter fun id => id ≠ r.id
      frozen := σ.frozen || (o.saved matches .error _) })

/-- The volume is in the table. -/
def knows (id : String) : Bool := σ.threads.any fun t => t.id = id

/-- `entry`. -/
def entry (q : Request) (o : Outcomes) : Result Unit × Service :=
  if q.version ≠ 1 ∨ ¬ validId q.volumeId then (.error "invalid request", σ)
  else if (q.operation = .prepare ∨ q.operation = .retire) ∧ σ.frozen then
    (.error "reservation persistence failed; restart required before importing", σ)
  else if σ.knows q.volumeId then (.ok (), σ)
  else if q.operation = .retire then
    match retirement cfg q with
    | .error e => (.error e, σ)
    | .ok r => σ.insert r o
  else if q.operation = .prepare then
    match σ.volumeAdmission cfg P q o with
    | .error e => (.error e, σ)
    | .ok r => σ.insert r o
  else (.error "unknown volume", σ)

/-- The device that a table lookup looks at before it admits a volume. -/
def entryDevice (q : Request) (o : Outcomes) : Option Path :=
  if q.version ≠ 1 ∨ ¬ validId q.volumeId ∨ q.operation ≠ .prepare ∨ σ.frozen ∨
      σ.knows q.volumeId then none
  else (σ.admissionDevice cfg P q o).toOption.map Prod.snd

/-- The checks under the table lock of a new capture candidate. -/
def captureAdmission (c : Candidate) : Result Unit := do
  let charge ← logicalCharge (← σ.registry cfg)
  let rs ← σ.records P
  let used ← rs.foldlM (fun used r =>
    if r.reclaimed || r.logicalReleased then .ok used
    else if used + r.logicalBytes ≤ u64Max then .ok (used + r.logicalBytes)
    else .error "image admission overflow") charge
  if u64Max < used + c.logicalBytes ∨ cfg.limits.maxLogicalBytes < used + c.logicalBytes then
    throw "host logical capacity reservation exhausted"

/-- `ensure_unreferenced`. -/
def unreferenced (c : Candidate) : Result Unit := do
  let rs ← σ.records P
  if rs.any c.references then throw "project image still referenced by a volume"

/-- The thread of a volume with another slot and what is left of its job. -/
def advance (id : String) (slot : Slot) (job : Option (VolumeOp Reply)) : Service :=
  { σ with threads := Table.revise Thread.id id (fun _ => ⟨slot, job⟩) σ.threads }

/-- The thread of an image with another image and what is left of its job. -/
def advanceImage (id : String) (image : Image) (job : Option (ImageOp ImageReply)) : Service :=
  { σ with images := Table.revise ImageThread.id id (fun _ => ⟨image, job⟩) σ.images }

end Service

/-- What an action of the volume `id` asks of the supervisor and changes in it. -/
def Act.shares (cfg : Config) (P : Surroundings) (σ : Service) (s : Slot) {β : Type} (a : Act β)
    (b : β) (s' : Slot) (σ' : Service) : Prop :=
  match a with
  | .publish _ => (Succeeded b ∧ σ' = σ) ∨ (¬ Succeeded b ∧ σ' = { σ with frozen := true })
  | .reserve =>
      match σ.residency cfg P s.entry with
      | .error e => b = .error e ∧ s' = s ∧ σ' = σ
      | .ok device =>
          (¬ Succeeded b ∧ s' = s ∧ σ' = σ) ∨
          (Succeeded b ∧ s' = s.adopt (s.resident device) ∧ σ' = σ) ∨
          (¬ Succeeded b ∧ (s' = s ∨ s' = s.store (s.resident device)) ∧
            σ' = { σ with frozen := true })
  | .nbdPid device =>
      (b = .ok none → ∀ t ∈ σ.threads, t.slot.volume.link ≠ some device) ∧ σ' = σ
  | .takeImports => σ.imports = none ∧ σ' = { σ with imports := some s.volume.id }
  | .dropImports => σ' = { σ with imports := none }
  | .checkDigest digest =>
      (Succeeded b → ∃ candidates, σ.registry cfg = .ok candidates ∧
        checkDigestAdmission candidates digest = .ok ()) ∧ σ' = σ
  | _ => σ' = σ

/-- What an action of the image `id` asks of the supervisor and changes in it. -/
def ImageAct.shares (cfg : Config) (P : Surroundings) (σ : Service) (s : Image) {β : Type}
    (a : ImageAct β) (b : β) (s' : Image) (σ' : Service) : Prop :=
  match a with
  | .tryImages =>
      (b = .locked ∧ σ.projectImages = none ∧ σ' = { σ with projectImages := some s.id }) ∨
        (b = .wouldBlock ∧ σ' = σ) ∨ (b = .poisoned ∧ σ' = σ)
  | .dropImages => σ' = { σ with projectImages := none }
  | .admission c => σ' = σ ∧ (s' = s ∨ σ.captureAdmission cfg P c = .ok ())
  | .barrier c =>
      σ' = σ ∧ σ.imports = none ∧
        (Succeeded b ∨ s' ≠ s → σ.unreferenced P c = .ok ())
  | _ => σ' = σ

/-- Which admission a step is, and whether it reports success. -/
inductive Event where
  | volume (granted : Bool)
  | retirement
  | residency (granted : Bool)
  | capture (granted : Bool)
  | other
deriving DecidableEq, Repr

/-- The event of an action. -/
def Act.event {β : Type} : Act β → β → Event
  | .reserve, b => .residency (b matches .ok _)
  | _, _ => .other

/-- The event of an image's action. -/
def ImageAct.event {β : Type} : ImageAct β → β → Event
  | .admission _, b => .capture (b matches .ok _)
  | _, _ => .other

/-- The event of a table lookup. -/
def entryEvent (σ : Service) (q : Request) (res : Result Unit) : Event :=
  if σ.knows q.volumeId then .other
  else match q.operation with
    | .retire => .retirement
    | .prepare => .volume (res matches .ok _)
    | _ => .other

/-- The recovery loop passes over the volume. -/
def Record.settled (r : Record) : Bool :=
  (!r.deleted && r.evicted) ||
    (!r.deleted && !r.gcEligible && !r.desired && r.worker.isNone && r.client.isNone)

/-- What `open` has gathered from the directories that it has read. -/
structure Opening where
  usage : Usage
  assigned : List Path
  slots : List Slot

/-- The checks of `open` that tie a record to its directory and to the configuration. -/
def Record.bound (cfg : Config) (id : String) (r : Record) : Bool :=
  !((r.logicalReleased && (!r.deleted || r.busy)) || (r.reclaimed && (!r.deleted || r.busy)) ||
    (r.evicted && ((!r.prepared && !r.deleted) || r.busy)) || r.gcAfter.any (fun h => !validId h) ||
    decide (r.id ≠ id) || decide (r.device ∉ cfg.devices) ||
    decide (r.sandbox.parent ≠ some cfg.engineRoot))

/-- `open` of one directory. A directory without a record is removed if it holds nothing else. -/
def Opening.add (cfg : Config) (P : Surroundings) (o : Opening) (v : Volume) : Result Opening := do
  if ¬ validId v.id then throw "invalid volume directory"
  match v.record with
  | none => if v.owner then throw "unaccounted volume directory" else return o
  | some file =>
    let r ← (← P.read file).load
    if cfg.resources then
      for p in r.processes do P.verify v p
    let usage ← o.usage.count r
    if !r.bound cfg v.id then throw "invalid persisted volume binding"
    if r.claims && decide (r.device ∈ o.assigned) then throw "duplicate device assignment"
    return {
      usage := usage
      assigned := if r.claims then r.device :: o.assigned else o.assigned
      slots := o.slots ++ [⟨v, r⟩] }

/-- `Service::open` on the directories that survive. -/
def openVolumes (cfg : Config) (P : Surroundings) (volumes : List Volume) :
    Result (List Slot) := do
  let o ← volumes.foldlM (Opening.add cfg P) ⟨.empty, [], []⟩
  if cfg.devices.any (fun d => volumes.any (fun v => v.link = some d) &&
    decide (d ∉ o.assigned)) then
    throw "unrecorded NBD attachment"
  return o.slots

/-- The empty directory of an admission that failed. -/
def emptyDirectory (id : String) : Volume := ⟨id, none, false, none, []⟩

namespace Service

/-- A supervisor that has just started. -/
def started (slots : List Slot) (images : List Image) : Service where
  threads := slots.map fun slot => ⟨slot, none⟩
  probes := []
  debris := []
  waiting := []
  frozen := false
  imports := none
  images := images.map fun image => ⟨image, none⟩
  projectImages := none
  readers := []

/-- The directories that the supervisor leaves behind. -/
def volumes (σ : Service) : List Volume :=
  σ.threads.map (fun t => t.slot.volume) ++ σ.debris.map emptyDirectory

/-- The reply of a recovery pass is not sent to anyone. -/
def recovery (cfg : Config) : VolumeOp Reply := do
  VolumeOp.recover cfg
  return ⟨none, false, false⟩

/-- The operation of an image request that holds the intent's lock. -/
def imageOperation (cfg : Config) (D : Digests) (q : Request) (request : ImageRequest) :
    ImageOp ImageReply :=
  match q.operation with
  | .capture => ImageOp.capture cfg D q request
  | .imageRetire => ImageOp.retire cfg D q request
  | .imageStatus => ImageOp.status D true q request
  | _ => throw "unknown project image operation"

end Service

/-- A restriction on the steps that are considered: on the actions of operations on volumes and
on table lookups. -/
structure Condition where
  act : {β : Type} → Act β → Slot → β → Slot → Prop
  entry : Service → Request → Outcomes → Prop

/-- No restriction. -/
def Condition.any : Condition where
  act _ _ _ _ := True
  entry _ _ _ := True

/-- One step of the supervisor. -/
inductive System.Step (cfg : Config) (P : Surroundings) (D : Digests) (C : Condition) :
    System → Event → System → Prop
  | enter {σ σ' : Service} {q : Request} {o : Outcomes} {res : Result Unit}
      (hsaved : o.saved = .ok () → o.stored = true) (hC : C.entry σ q o)
      (hok : σ.entry cfg P q o = (res, σ')) :
      Step cfg P D C (.up σ) (entryEvent σ q res)
        (.up (if res = .ok () then { σ' with waiting := q :: σ'.waiting } else σ'))
  | lock {σ : Service} {q : Request} {slot : Slot} (hq : q ∈ σ.waiting)
      (ht : Table.row Thread.id q.volumeId σ.threads = some ⟨slot, none⟩) :
      Step cfg P D C (.up σ) .other
        (.up ({ σ with waiting := σ.waiting.erase q }.advance q.volumeId slot
          (some (VolumeOp.request cfg q))))
  | refuse {σ : Service} {q : Request} :
      Step cfg P D C (.up σ) .other (.up { σ with waiting := σ.waiting.erase q })
  | probe {σ : Service} {id : String} {slot : Slot}
      (ht : Table.row Thread.id id σ.threads = some ⟨slot, none⟩)
      (hdue : slot.entry.settled = false) :
      Step cfg P D C (.up σ) .other
        (.up { σ with probes := σ.probes ++ [⟨id, slot.entry, VolumeOp.healthy slot.entry⟩] })
  | probeAct {σ σ' : Service} {id : String} {snapshot : Record} {slot slot' : Slot}
      {job : Option (VolumeOp Reply)} {β : Type} {a : Act β} {b : β} {next : β → VolumeOp Bool}
      {before after : List Probe}
      (hp : σ.probes = before ++ ⟨id, snapshot, .act a next⟩ :: after)
      (ht : Table.row Thread.id id σ.threads = some ⟨slot, job⟩)
      (hdoes : a.does cfg slot b slot') (hshares : a.shares cfg P σ slot b slot' σ') :
      Step cfg P D C (.up σ) .other
        (.up { σ'.advance id slot' job with probes := before ++ ⟨id, snapshot, next b⟩ :: after })
  | dismiss {σ : Service} {id : String} {snapshot : Record} {r : Except String Bool}
      {before after : List Probe}
      (hp : σ.probes = before ++ ⟨id, snapshot, .done r⟩ :: after) :
      Step cfg P D C (.up σ) .other (.up { σ with probes := before ++ after })
  | recover {σ : Service} {id : String} {slot : Slot} {before after : List Probe}
      (hp : σ.probes = before ++ ⟨id, slot.entry, .done (.ok false)⟩ :: after)
      (ht : Table.row Thread.id id σ.threads = some ⟨slot, none⟩) :
      Step cfg P D C (.up σ) .other
        (.up ({ σ with probes := before ++ after }.advance id slot
          (some (Service.recovery cfg))))
  | act {σ σ' : Service} {id : String} {slot slot' : Slot} {β : Type} {a : Act β} {b : β}
      {next : β → VolumeOp Reply}
      (ht : Table.row Thread.id id σ.threads = some ⟨slot, some (.act a next)⟩)
      (hC : C.act a slot b slot') (hdoes : a.does cfg slot b slot')
      (hshares : a.shares cfg P σ slot b slot' σ') :
      Step cfg P D C (.up σ) (a.event b) (.up (σ'.advance id slot' (some (next b))))
  | finish {σ : Service} {id : String} {slot : Slot} {r : Except String Reply}
      (ht : Table.row Thread.id id σ.threads = some ⟨slot, some (.done r)⟩) :
      Step cfg P D C (.up σ) .other (.up (σ.advance id slot none))
  | register {σ : Service} {id : String} (hid : Table.row ImageThread.id id σ.images = none) :
      Step cfg P D C (.up σ) .other
        (.up { σ with images := σ.images ++ [⟨⟨id, none, none, none, none, .absent, 0⟩, none⟩] })
  | imageRequest {σ : Service} {q : Request} {request : ImageRequest} {image : Image}
      (hid : projectUuid request.imageId = true) (hr : q.projectImage = some request)
      (ht : Table.row ImageThread.id request.imageId σ.images = some ⟨image, none⟩) :
      Step cfg P D C (.up σ) .other
        (.up (σ.advanceImage request.imageId image (some (Service.imageOperation cfg D q request))))
  | builder {σ : Service} {q : Request} {request : ImageRequest} {metadata : Metadata}
      {sourceBytes : ℕ} {slot : Slot} (hr : q.projectImage = some request)
      (hq : q.operation = .capture) (hmetadata : request.metadata = some metadata)
      (hbytes : request.sourceLogicalBytes = some sourceBytes)
      (ht : Table.row Thread.id q.volumeId σ.threads = some ⟨slot, none⟩) :
      Step cfg P D C (.up σ) .other
        (.up (σ.advance q.volumeId slot (some (VolumeOp.builder metadata sourceBytes))))
  | imageAct {σ σ' : Service} {id : String} {image image' : Image} {β : Type} {a : ImageAct β}
      {b : β} {next : β → ImageOp ImageReply}
      (ht : Table.row ImageThread.id id σ.images = some ⟨image, some (.act a next)⟩)
      (hdoes : a.does cfg image b image') (hshares : a.shares cfg P σ image b image' σ') :
      Step cfg P D C (.up σ) (a.event b) (.up (σ'.advanceImage id image' (some (next b))))
  | imageFinish {σ : Service} {id : String} {image : Image} {r : Except String ImageReply}
      (ht : Table.row ImageThread.id id σ.images = some ⟨image, some (.done r)⟩) :
      Step cfg P D C (.up σ) .other (.up (σ.advanceImage id image none))
  | statusRequest {σ : Service} {q : Request} {request : ImageRequest} {t : ImageThread}
      (hid : projectUuid request.imageId = true) (hr : q.projectImage = some request)
      (hq : q.operation = .imageStatus)
      (ht : Table.row ImageThread.id request.imageId σ.images = some t) :
      Step cfg P D C (.up σ) .other
        (.up { σ with
          readers := σ.readers ++ [(request.imageId, ImageOp.status D false q request)] })
  | statusAct {σ σ' : Service} {id : String} {image image' : Image}
      {job : Option (ImageOp ImageReply)} {β : Type} {a : ImageAct β} {b : β}
      {next : β → ImageOp ImageReply} {before after : List (String × ImageOp ImageReply)}
      (hr : σ.readers = before ++ (id, .act a next) :: after)
      (ht : Table.row ImageThread.id id σ.images = some ⟨image, job⟩)
      (hdoes : a.does cfg image b image') (hshares : a.shares cfg P σ image b image' σ') :
      Step cfg P D C (.up σ) (a.event b)
        (.up { σ'.advanceImage id image' job with readers := before ++ (id, next b) :: after })
  | statusFinish {σ : Service} {id : String} {r : Except String ImageReply}
      {before after : List (String × ImageOp ImageReply)}
      (hr : σ.readers = before ++ (id, .done r) :: after) :
      Step cfg P D C (.up σ) .other (.up { σ with readers := before ++ after })
  | crash {σ : Service} :
      Step cfg P D C (.up σ) .other
        (.down σ.volumes (σ.images.map fun t => t.image))
  | restart {volumes : List Volume} {images : List Image} {slots : List Slot}
      (hok : openVolumes cfg P volumes = .ok slots) :
      Step cfg P D C (.down volumes images) .other (.up (Service.started slots images))

/-- The states that a new installation can reach. -/
inductive System.Reachable (cfg : Config) (P : Surroundings) (D : Digests) (C : Condition) :
    System → Prop
  | start : Reachable cfg P D C (.down [] [])
  | step {s s' : System} {e : Event} (h : Reachable cfg P D C s) (hs : s.Step cfg P D C e s') :
      Reachable cfg P D C s'

end AgentHouse.Host
