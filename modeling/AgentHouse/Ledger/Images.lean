import AgentHouse.Lib.Json
import AgentHouse.Ledger.Store

/-!
# Project builders, images and their pins

The functions of `project_images.rs`. Reading JSON text is left to a parameter `parse`. An
argument that names a phase is a value of its type: a text that names none is refused like the
phases that a function does not accept.
-/

namespace AgentHouse.Ledger

namespace Db

variable (db : Db)

/-- The builder of an id. -/
def builder (id : String) : Option ProjectEnvironmentBuilder :=
  Table.row ProjectEnvironmentBuilder.id id db.builders

/-- `project_images::image`. -/
def image (id : String) : Result ProjectEnvironmentImage :=
  require (Table.row ProjectEnvironmentImage.id id db.images) (.notFound "project image")

/-- The image of an id changes. -/
def reviseImage (id : String) (f : ProjectEnvironmentImage → ProjectEnvironmentImage) : Db :=
  { db with images := Table.revise ProjectEnvironmentImage.id id f db.images }

/-- The builder of an id goes on to a phase. -/
def reviseBuilder (id : String) (phase : BuilderPhase) : Db :=
  { db with builders :=
      Table.revise ProjectEnvironmentBuilder.id id (fun b => { b with phase }) db.builders }

/-- The row with a primary key of the references. -/
def ref (kind : RefKind) (referenceId : String) : Option ImageRef :=
  Table.row (fun r => (r.kind, r.referenceId)) (kind, referenceId) db.refs

/-- `INSERT INTO project_environment_image_refs`, with its primary and foreign key. -/
def insertRef (kind : RefKind) (referenceId imageId : String) : Result Db := do
  refuse ((db.ref kind referenceId).isSome ∨ db.images.all (·.id ≠ imageId)) .sqlite
  return { db with refs := db.refs ++ [⟨kind, referenceId, imageId⟩] }

/-- `INSERT OR IGNORE`. -/
def insertRefOrIgnore (kind : RefKind) (referenceId imageId : String) : Result Db := do
  if (db.ref kind referenceId).isSome then return db
  else db.insertRef kind referenceId imageId

/-- The image is pinned. -/
def referenced (id : String) : Bool := db.refs.any (·.imageId = id)

/-- A sandbox, a disk or a pending operation still uses the name. -/
def retains (sandbox : String) : Bool :=
  db.sandboxes.any (·.id = sandbox) || db.unreleased sandbox ||
    db.operations.any fun o => o.sandboxId = sandbox && o.state = .pending

/-- The last retention set of a project. -/
def retentionOf (owner tenant project : String) : Option Retention :=
  Table.row Retention.key (owner, tenant, project) db.retention

end Db

/-- The image belongs to the project. -/
def ProjectEnvironmentImage.belongs (i : ProjectEnvironmentImage) (owner tenant project : String) :
    Bool :=
  i.ownerUserId = owner && i.tenantId = tenant && i.projectId = project

section Builders

variable (db : Db)

/-- `admit_project_builder` -/
def admitProjectBuilder (row : ProjectEnvironmentBuilder) : Result (Bool × Db) := do
  match db.builder row.id with
  | some old =>
    refuse (old.sandboxId ≠ row.sandboxId ∨ old.ownerUserId ≠ row.ownerUserId ∨
        old.requestJson ≠ row.requestJson ∨ old.metadataJson ≠ row.metadataJson)
      (.conflict "builder identity already has another request")
    return (false, db)
  | none =>
    refuse (db.sandboxes.any (·.id = row.sandboxId) ∨ db.unreleased row.sandboxId)
      (.conflict "a project builder must be a fresh VM")
    -- sandbox names of builders are unique, and their owners exist
    refuse (db.builders.any (·.sandboxId = row.sandboxId) ∨ db.user row.ownerUserId = none) .sqlite
    return (true, { db with builders := db.builders ++ [{ row with phase := .creating }] })

/-- `set_project_builder_phase` -/
def setProjectBuilderPhase (id : String) (phase : BuilderPhase) : Result Db := do
  refuse (db.builder id = none) (.notFound "project builder")
  return db.reviseBuilder id phase

/-- The receipt of a rejected builder. -/
def LifecycleOperation.rejected (b : ProjectEnvironmentBuilder) (request : String) :
    LifecycleOperation :=
  { id := "project-builder-" ++ b.id, ownerUserId := b.ownerUserId, sandboxId := b.sandboxId
    request, state := .done, status := some 409
    errorJson := some ("\x7b\"code\":\"project_image_base_invalid\",\"message\":" ++
      "\"installed Ubuntu base does not match its frozen digest\"\x7d")
    sandboxState := some "absent", storageVolumeId := none }

/-- `reject_project_builder` -/
def rejectProjectBuilder (id request : String) : Result Db := do
  let builder ← require (db.builder id) .sqlite
  refuse (db.sandboxes.any (·.id = builder.sandboxId) ∨ db.unreleased builder.sandboxId ∨
      db.operations.any (·.sandboxId = builder.sandboxId) ∨ builder.phase ≠ .creating)
    (.conflict "builder create already admitted or retired")
  refuse (db.operations.any (·.id = "project-builder-" ++ id)) .sqlite
  return { db with operations := db.operations ++ [LifecycleOperation.rejected builder request] }
    |>.reviseBuilder id .failed

end Builders

section Capture

variable (parse : String → Option Json) (db : Db)

/-- The row that the admission of an image inserts. -/
def ProjectEnvironmentImage.preparing (row : ProjectEnvironmentImage) : ProjectEnvironmentImage :=
  { row with
    phase := .preparing, digest := none, imagePath := none, detail := none
    updatedAt := row.createdAt }

/-- `admit_project_image`: the quota is asked with the image in it. -/
def admitProjectImage (row : ProjectEnvironmentImage) : Result (Bool × Db) := do
  let expected ← require (checked (row.sourceLogicalBytes + 65536))
    (.conflict "image accounting overflow")
  refuse (row.logicalBytes ≠ expected ∨ row.sourceLogicalBytes ≤ 0 ∨
      64 * 1024 * 1024 * 1024 < row.logicalBytes ∨ row.sourceLogicalBytes % 65536 ≠ 0)
    (.conflict "invalid project image geometry")
  match Table.row ProjectEnvironmentImage.id row.id db.images with
  | some old =>
    refuse (old.ownerUserId ≠ row.ownerUserId ∨ old.tenantId ≠ row.tenantId ∨
        old.projectId ≠ row.projectId ∨ old.requestJson ≠ row.requestJson ∨
        old.metadataJson ≠ row.metadataJson ∨ old.sourceVolumeId ≠ row.sourceVolumeId ∨
        old.logicalBytes ≠ row.logicalBytes ∨ old.sourceSandboxId ≠ row.sourceSandboxId)
      (.conflict "image identity already has another capture")
    return (false, db)
  | none =>
    let builder ← require ((db.builder row.id).filter fun b => b.sandboxId = row.sourceSandboxId)
      .sqlite
    let provenance ← require (parse builder.metadataJson) .json
    refuse (builder.ownerUserId ≠ row.ownerUserId ∨ builder.metadataJson ≠ row.metadataJson ∨
        (provenance.index "tenant_id").asStr ≠ some row.tenantId ∨
        (provenance.index "project_id").asStr ≠ some row.projectId ∨
        (provenance.index "build_id").asStr ≠ some row.id)
      (.conflict "image builder provenance changed")
    let owner ← require (db.user builder.ownerUserId) .sqlite
    let total ← db.imageTotal builder.ownerUserId row.logicalBytes
    refuse (db.smallest builder.ownerUserId < 0 ∨ owner.maxVolumesMb < 0)
      (.conflict "project image storage quota exceeded")
    let maximum ← require (checked (owner.maxVolumesMb * mib)) (.conflict "invalid image quota")
    refuse (maximum < total) (.conflict "project image storage quota exceeded")
    let db ← { db with images := db.images ++ [row.preparing] }.insertRef .build row.id row.id
    return (true, db)

/-- The newest reservation of the owner for the name. -/
def Db.newestReservation (owner sandbox : String) : Option ReplicatedReservation :=
  (db.reservations.filter fun r => r.ownerUserId = owner && r.sandboxId = sandbox).foldl
    (fun best r => match best with
      | some b => if b.createdAt < r.createdAt then some r else some b
      | none => some r) none

/-- The row of a capture that is fenced before its admission. -/
def ProjectEnvironmentImage.unadmitted (b : ProjectEnvironmentBuilder) (tenant project : String)
    (source : Option ReplicatedReservation) (now : ℤ) : ProjectEnvironmentImage :=
  { id := b.id, ownerUserId := b.ownerUserId, tenantId := tenant, projectId := project
    metadataJson := b.metadataJson, requestJson := "\x7b\x7d"
    sourceVolumeId := (source.map (·.volumeId)).getD (String.ofList (List.replicate 64 '0'))
    sourceSandboxId := b.sandboxId, sourceLogicalBytes := (source.map (·.logicalBytes)).getD 0
    logicalBytes := 0, phase := .retired, digest := none, imagePath := none
    detail := some "capture_not_admitted", createdAt := now, updatedAt := now }

/-- `retire_unadmitted_project_image` -/
def retireUnadmittedProjectImage (id owner : String) (now : ℤ) :
    Result (ProjectEnvironmentImage × Db) := do
  refuse ((Table.row ProjectEnvironmentImage.id id db.images).isSome)
    (.conflict "capture has already been admitted")
  let builder ← require ((db.builder id).filter fun b => b.ownerUserId = owner)
    (.notFound "project builder")
  let metadata ← require (parse builder.metadataJson) .json
  let tenant ← require (metadata.index "tenant_id").asStr (.conflict "invalid builder provenance")
  let project ← require (metadata.index "project_id").asStr (.conflict "invalid builder provenance")
  -- the owner of an image exists
  refuse (db.user owner = none) .sqlite
  let row := ProjectEnvironmentImage.unadmitted builder tenant project
    (db.newestReservation owner builder.sandboxId) now
  return (row, { db with images := db.images ++ [row] })

end Capture

section Phases

variable (db : Db)

/-- The phases from which `set_project_image_phase` goes on. -/
def advances (phase : ImagePhase) (old : ImagePhase) : Bool :=
  (phase = .capturing && old = .preparing) ||
    (phase = .failed && (old = .preparing || old = .capturing))

/-- `set_project_image_phase` -/
def setProjectImagePhase (id : String) (phase : ImagePhase) (detail : Option String) (now : ℤ) :
    Result Db := do
  refuse (phase ≠ .capturing ∧ phase ≠ .failed) (.conflict "invalid image phase")
  refuse (¬ db.images.any fun i => i.id = id && advances phase i.phase)
    (.conflict "image phase already advanced or absent")
  return db.reviseImage id fun i => { i with phase, detail, updatedAt := now }

/-- `finish_project_image` -/
def finishProjectImage (id digest path : String) (now : ℤ) : Result Db := do
  refuse (¬ db.images.any fun i => i.id = id && i.phase = .capturing)
    (.conflict "image capture is not active")
  return db.reviseImage id fun i =>
    { i with
      phase := .ready, digest := some digest, imagePath := some path, detail := none
      updatedAt := now }

/-- `set_project_image_detail` -/
def setProjectImageDetail (id : String) (expected : ImagePhase) (detail : String) (now : ℤ) :
    Result Db := do
  refuse (¬ db.images.any fun i => i.id = id && i.phase = expected)
    (.conflict "image phase already advanced")
  return db.reviseImage id fun i => { i with detail := some detail, updatedAt := now }

/-- `begin_project_image_delete`: not while the image is pinned or being captured. -/
def beginProjectImageDelete (id owner : String) (now : ℤ) :
    Result (ProjectEnvironmentImage × Db) := do
  let row ← db.image id
  refuse (row.ownerUserId ≠ owner) (.notFound "project image")
  if row.phase = .retired then return (row, db)
  else
    refuse (db.referenced id ∨ row.phase = .preparing ∨ row.phase = .capturing)
      (.conflict "project image is referenced or capture is active")
    let deleting (i : ProjectEnvironmentImage) : ProjectEnvironmentImage :=
      { i with phase := .deleting, updatedAt := now }
    return (deleting row, db.reviseImage id deleting)

/-- `finish_project_image_retirement` -/
def finishProjectImageRetirement (id : String) (now : ℤ) : Result Db := do
  let row ← db.image id
  if row.phase = .retired then return db
  else
    refuse (row.phase ≠ .deleting ∨ db.referenced id) (.conflict "image is still retained")
    return db.reviseImage id fun i => { i with phase := .retired, updatedAt := now }

end Phases

section Pins

variable (db : Db)

/-- `pin_project_image_vm`: only of the own project, and by its digest. -/
def pinProjectImageVm (id owner tenant project digest sandbox : String) : Result Db := do
  let row ← db.image id
  refuse (¬ row.belongs owner tenant project ∨ row.digest ≠ some digest ∨ row.phase ≠ .ready)
    (.conflict "project image is not available for this project and generation")
  refuse ((db.ref .vm sandbox).any fun r => r.imageId ≠ id)
    (.conflict "VM already pins another project image")
  db.insertRefOrIgnore .vm sandbox id

/-- `release_project_image_vm` -/
def releaseProjectImageVm (sandbox : String) : Result Db := do
  refuse (db.retains sandbox) (.conflict "VM image pin still owns a retained disk")
  return { db with refs := db.refs.filter fun r => ¬ (r.kind = .vm ∧ r.referenceId = sandbox) }

/-- `format!("{tenant}/{project}")`. -/
def projectKey (tenant project : String) : String := tenant ++ "/" ++ project

/-- What a retention call names. -/
structure RetentionSet where
  ownerUserId : String
  tenantId : String
  projectId : String
  generation : ℤ
  requestJson : String
  current : Option String
  previous : Option String
  active : List String
  release : List String
deriving DecidableEq, Repr

namespace RetentionSet

variable (set : RetentionSet)

/-- The images that the call names, with whether they have to be ready. -/
def named : List (String × Bool) :=
  (set.current.toList ++ set.previous.toList).map (·, true) ++
    (set.active ++ set.release).map (·, false)

/-- An image that the call may name. -/
def check (entry : String × Bool) : Result Unit := do
  let row ← db.image entry.1
  refuse (¬ row.belongs set.ownerUserId set.tenantId set.projectId ∨ row.phase = .retired ∨
      row.phase = .deleting ∨ (entry.2 ∧ row.phase ≠ .ready))
    (.conflict "retention image does not belong to this project or is unavailable")
  refuse (entry.1 ∈ set.release ∧ row.phase ≠ .ready ∧ row.phase ≠ .failed)
    (.conflict "build pin still protects an unfinished capture")

/-- The reference is the current or previous one of an image of the project. -/
def replaces (r : ImageRef) : Bool :=
  (r.kind = .current || r.kind = .previous) &&
    db.images.any fun i => i.id = r.imageId && i.belongs set.ownerUserId set.tenantId set.projectId

/-- Insert the current or the previous reference. -/
def insert (kind : RefKind) (id : Option String) (db : Db) : Result Db :=
  match id with
  | some id => db.insertRef kind (projectKey set.tenantId set.projectId) id
  | none => .ok db

/-- The retention row of the call. -/
def row : Retention :=
  ⟨set.ownerUserId, set.tenantId, set.projectId, set.generation, set.requestJson⟩

/-- Insert or update the retention row. -/
def record (db : Db) : Result Db := do
  refuse (db.user set.ownerUserId = none) .sqlite
  return { db with retention := db.retention.filter (fun r => r.key ≠ set.row.key) ++ [set.row] }

end RetentionSet

/-- `retain_project_images`: a later generation replaces the pins of an earlier one. -/
def retainProjectImages (set : RetentionSet) : Result Db := do
  refuse (set.generation < 1 ∨ 64 < set.active.length ∨ 64 < set.release.length ∨
      (∃ id ∈ set.active, id ∈ set.release) ∨ (set.current.isSome ∧ set.current = set.previous))
    (.conflict "invalid project image retention set")
  let old := db.retentionOf set.ownerUserId set.tenantId set.projectId
  refuse (old.any fun old => set.generation < old.generation ||
      (set.generation = old.generation && old.requestJson ≠ set.requestJson))
    (.conflict "project retention generation is stale or changed")
  if old.any fun old => set.generation = old.generation then return db
  else
    set.named.forM (set.check db)
    let db := { db with refs := db.refs.filter fun r => !set.replaces db r }
    let db ← set.insert .current set.current db
    let db ← set.insert .previous set.previous db
    let db ← set.active.foldlM (fun db id => db.insertRefOrIgnore .build id id) db
    let db := { db with refs := db.refs.filter fun r =>
      ¬ (r.kind = .build ∧ r.referenceId ∈ set.release ∧ r.imageId = r.referenceId) }
    set.record db

end Pins

end AgentHouse.Ledger
