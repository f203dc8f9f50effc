import AgentHouse.Host.Records

/-!
# Project-image candidates

The registry record of a project image, the sealed intent that outlives it, and the checks
that both pass when they are read or written (`service/project_images.rs` and
`ahvm-engine/src/project_image.rs`).
-/

namespace AgentHouse.Host

/-- The length of the metadata at the end of an image. -/
def trailerBytes : ℕ := 65536

/-- The length that an image may have. -/
def maxImageBytes : ℕ := 64 * 1024 * 1024 * 1024

/-- `project_uuid` -/
def projectUuid (value : String) : Bool :=
  value.length == 36 &&
    value.toList.zipIdx.all fun (c, i) => if i ∈ [8, 13, 18, 23] then c == '-' else lowerHex c

/-- `ProjectImageMetadata` -/
structure Metadata where
  schema : ℕ
  tenantId : String
  projectId : String
  buildId : String
  sourceCommit : String
  baseImageDigest : String
  baseContentDigest : String
  revisionId : String
  installHookDigest : Option String
  startHookDigest : Option String
  canonicalWorkdir : String
deriving DecidableEq, Repr

/-- `ProjectImageMetadata::validate`. -/
def Metadata.validate (m : Metadata) : Result Unit :=
  if m.schema ≠ 1 ∨ ¬ projectUuid m.tenantId ∨ ¬ projectUuid m.projectId ∨
      ¬ projectUuid m.buildId ∨ m.sourceCommit.length ∉ [40, 64] ∨
      ¬ m.sourceCommit.toList.all lowerHex ∨ ¬ validId m.baseImageDigest ∨
      ¬ validId m.baseContentDigest ∨ ¬ validId m.revisionId ∨
      ¬ m.installHookDigest.all validId ∨ ¬ m.startHookDigest.all validId ∨
      m.canonicalWorkdir ≠ "/workspace/project" then
    .error "invalid project image provenance"
  else .ok ()

/-- `project_image::logical_bytes`. -/
def imageBytes (source : ℕ) : Result ℕ :=
  if u64Max < source + trailerBytes ∨ source = 0 ∨ source % chunkBytes ≠ 0 ∨
      maxImageBytes < source + trailerBytes then
    .error "invalid input"
  else .ok (source + trailerBytes)

/-- The base of a candidate. -/
structure BaseRef where
  image : String
  catalog : String
deriving DecidableEq, Repr

/-- `ImageIdentity`: the inode, its size, and a stamp for the times of its last changes. -/
structure Identity where
  inode : ℕ
  size : ℕ
  stamp : ℕ
deriving DecidableEq, Repr

/-- The phases of a candidate. -/
inductive Phase where
  | exporting
  | importing
  | ready
  | failed
  | retiring
  | retired
deriving DecidableEq, Repr

/-- Why a capture failed. -/
inductive ErrorCode where
  | captureFailed
  | captureInterrupted
deriving DecidableEq, Repr

/-- The configuration of the supervisor, as far as requests are checked against it. -/
structure Config where
  limits : Limits
  resources : Bool
  engineRoot : Path
  projectImageRoot : Option Path
  devices : List Path
deriving DecidableEq, Repr

/-- `Candidate`: the intent of a capture. -/
structure Candidate where
  schema : ℕ
  imageId : String
  sourceVolumeId : String
  sandboxDir : Path
  outputRoot : Path
  sourceLogicalBytes : ℕ
  logicalBytes : ℕ
  metadata : Metadata
  sourceRevision : String
  sourceManifestSha256 : String
  exportSha256 : Option String
  digest : Option String
  base : Option BaseRef
  fileIdentity : Option Identity
  localPublished : Bool
  phase : Phase
  errorCode : Option ErrorCode
  remoteRetired : Bool
  retirementVerified : Bool
  cleanupPasses : ℕ
  remoteClean : Bool
  logicalReleased : Bool
  reclamationComplete : Bool
deriving DecidableEq, Repr

namespace Candidate

/-- `path`: the name under which the image is published, once its digest is known. -/
def path (c : Candidate) : Option Path :=
  c.digest.map fun digest => c.outputRoot ++ [digest ++ ".ext4"]

/-- `validate`. -/
def validate (c : Candidate) (cfg : Config) : Result Unit := do
  c.metadata.validate
  if c.phase = .failed ∧ c.errorCode = none then
    throw "invalid project image failure proof"
  let bytes ← imageBytes c.sourceLogicalBytes
  if c.schema ≠ 1 ∨ ¬ projectUuid c.imageId ∨ c.imageId ≠ c.metadata.buildId ∨
      ¬ validId c.sourceVolumeId ∨ c.sandboxDir.parent ≠ some cfg.engineRoot ∨
      bytes ≠ c.logicalBytes ∨ c.sourceRevision.utf8ByteSize = 0 ∨
      256 < c.sourceRevision.utf8ByteSize ∨ ¬ validId c.sourceManifestSha256 ∨
      ¬ c.exportSha256.all validId ∨ ¬ c.digest.all validId ∨
      ¬ c.base.all (fun b => decide (some b.image = c.digest) && validId b.catalog) ∨
      (c.phase ≠ .retired ∧ cfg.projectImageRoot ≠ some c.outputRoot) ∨
      (c.phase = .ready ∧
        (c.digest = none ∨ c.base = none ∨ c.localPublished = false ∨ c.fileIdentity = none)) ∨
      (c.phase = .retired ∧ ¬ (c.logicalReleased ∧ c.reclamationComplete)) ∨
      (c.phase ≠ .retired ∧ (c.logicalReleased ∨ c.reclamationComplete)) ∨
      (c.remoteClean ∧ ¬ c.remoteRetired) then
    throw "invalid project image record"

end Candidate

/-- The candidate that the barrier of a retirement writes. -/
def Candidate.sealed (c : Candidate) : Candidate := { c with phase := .retiring }

/-- A sealed intent: it answers every later request for its image. -/
structure FailedIntent where
  schema : ℕ
  imageId : String
  volumeScope : String
  sandboxScope : String
  requestSha256 : String
  errorCode : ErrorCode
  retired : Bool
deriving DecidableEq, Repr

/-- The operations of a request. -/
inductive Operation where
  | prepare
  | retire
  | attach
  | bind
  | inspect
  | status
  | sync
  | detach
  | delete
  | capture
  | imageStatus
  | imageRetire
  | unknown
deriving DecidableEq, Repr

/-- The image part of a request. -/
structure ImageRequest where
  imageId : String
  metadata : Option Metadata
  sourceLogicalBytes : Option ℕ
  expectedDigest : Option String
deriving DecidableEq, Repr

/-- A request to the supervisor. -/
structure Request where
  version : ℕ
  operation : Operation
  volumeId : String
  sandboxDir : Path
  image : Option Path
  logicalBytes : Option ℕ
  projectImage : Option ImageRequest
deriving DecidableEq, Repr

/-- `matching`. -/
def Candidate.agrees (c : Candidate) (q : Request) (request : ImageRequest) : Result Unit :=
  if c.sourceVolumeId ≠ q.volumeId ∨ c.sandboxDir ≠ q.sandboxDir ∨
      ¬ request.metadata.all (fun m => decide (m = c.metadata)) ∨
      ¬ request.sourceLogicalBytes.all (fun n => decide (n = c.sourceLogicalBytes)) ∨
      ¬ request.expectedDigest.all (fun d => decide (some d = c.digest)) then
    .error "project image intent changed"
  else .ok ()

/-- `logical_charge` over the registry. -/
def logicalCharge (candidates : List Candidate) : Result ℕ :=
  candidates.foldlM (fun sum c => if c.logicalReleased then .ok sum
    else if sum + c.logicalBytes ≤ u64Max then .ok (sum + c.logicalBytes)
    else .error "project image accounting overflow") 0

end AgentHouse.Host
