import AgentHouse.Lib.Programs
import AgentHouse.Host.Candidates

/-!
# Operations on one project image

Capture, status and retirement of a project image as programs over the actions below
(`service/project_images.rs`). Capture and retirement run while they hold the lock of the
image's intent. Opening a file or calling the store may fail at any time; `ask` may answer
anything, in particular for what the source volume's own lock and disk answer.
-/

namespace AgentHouse.Host

/-- An inode and what the checks see of its contents. -/
structure ImageFile where
  identity : Identity
  sha256 : String
  trailer : Option Metadata
deriving DecidableEq, Repr

/-- The head of the base namespace that is named by the digest. -/
inductive BaseHead where
  | absent
  | importing (size : ℕ)
  | ready (size : ℕ)
  | tombstone
deriving DecidableEq, Repr

/-- The digests that seal a request. -/
structure Digests where
  text : String → String
  path : Path → String
  request : ImageRequest → String

/-- What a capture verifies of an export. -/
structure Verified where
  digest : String
  logicalBytes : ℕ
deriving DecidableEq, Repr

/-- The answer of `try_lock` on `project_images`. -/
inductive TryLock where
  | locked
  | wouldBlock
  | poisoned
deriving DecidableEq, Repr

/-- What an operation on an image does to its intent, its files and its source. -/
inductive ImageAct : Type → Type 1 where
  /-- `candidate_path(..).exists()`. -/
  | candidateExists : ImageAct Bool
  /-- `load`. -/
  | load : ImageAct (Result Candidate)
  /-- `persist`. -/
  | save (c : Candidate) : ImageAct (Result Unit)
  | intent : ImageAct (Option FailedIntent)
  | seal (f : FailedIntent) : ImageAct (Result Unit)
  | tryImages : ImageAct TryLock
  | dropImages : ImageAct Unit
  /-- The section under the table lock that admits a new candidate. -/
  | admission (c : Candidate) : ImageAct (Result Unit)
  /-- `ensure_unreferenced` and the write of `Retiring`, under the import and table locks. -/
  | barrier (c : Candidate) : ImageAct (Result Unit)
  | temporaryExists : ImageAct Bool
  | publishedExists : ImageAct Bool
  /-- `open_file` of the temporary. -/
  | openTemporary (create : Bool) : ImageAct (Result ImageFile)
  /-- `open_file` of the published path. -/
  | openPublished : ImageAct (Result ImageFile)
  | sameFile : ImageAct (Result Bool)
  | unlinkTemporary : ImageAct (Result Unit)
  | unlinkPublished : ImageAct (Result Unit)
  /-- `export_remote` into the temporary: the digest of what was exported. -/
  | exportRemote : ImageAct (Result String)
  /-- `finalize_export`. -/
  | finalizeExport (c : Candidate) : ImageAct (Result Verified)
  | setPermissions : ImageAct (Result Unit)
  | hardLink : ImageAct (Result Unit)
  /-- The contents and identity of the file that was opened under either name. -/
  | stat (inode : ℕ) : ImageAct (Result ImageFile)
  | importBase (digest : String) (size : ℕ) : ImageAct (Result BaseRef)
  | baseHead : ImageAct (Result BaseHead)
  /-- `OwnedDisk::retire` of the base namespace. -/
  | retireBase : ImageAct (Result Unit)
  /-- `reclaim::sweep` of the base namespace. -/
  | sweepBase : ImageAct (Result Bool)
  | ask (what : String) (β : Type) : ImageAct β

/-- An operation on an image. -/
abbrev ImageOp := Op ImageAct String

/-- The phase that a reply tells. -/
inductive ReplyPhase where
  | absent
  | capturing
  | ready
  | failed
  | retired
deriving DecidableEq, Repr

/-- `ProjectImageInfo`, as far as it is not a copy of the request. -/
structure ImageInfo where
  imageId : String
  digest : String
  imagePath : Path
  logicalBytes : ℕ
deriving DecidableEq, Repr

/-- The reply about an image. -/
structure ImageReply where
  ok : Bool
  phase : ReplyPhase
  quiescent : Bool
  errorCode : Option ErrorCode
  image : Option ImageInfo
  logicalReleased : Bool
  reclamationComplete : Bool
deriving DecidableEq, Repr

/-- `proof`. -/
def proof (phase : ReplyPhase) (quiescent : Bool) (error : Option ErrorCode)
    (image : Option ImageInfo) (ok : Bool) : ImageReply where
  ok := ok
  phase := phase
  quiescent := quiescent
  errorCode := error
  image := image
  logicalReleased := false
  reclamationComplete := false

namespace ImageOp

variable (cfg : Config) (D : Digests)

/-- A call outside that may fail. -/
def call (what : String) : ImageOp Unit := Op.attempt (.ask what (Result Unit))

/-- The intent is saved. -/
def save (c : Candidate) : ImageOp Unit := Op.attempt (.save c)

/-- `load` with `matching`. -/
def loadMatching (q : Request) (request : ImageRequest) : ImageOp Candidate := do
  let c ← Op.attempt .load
  Prog.done (c.agrees q request)
  return c

/-- What is compared with the candidate before a file is trusted. -/
def ownFile (c : Candidate) (f : ImageFile) : Bool :=
  f.identity.size = c.logicalBytes && some f.sha256 = c.digest && f.trailer = some c.metadata

/-- `info`. -/
def info (c : Candidate) : ImageOp ImageInfo := do
  Op.refuse (c.phase ≠ .ready) "project image is not ready"
  match c.digest, c.path with
  | some digest, some path =>
    let f ← Op.attempt .openPublished
    Op.refuse (some f.identity ≠ c.fileIdentity ∨ f.identity.size ≠ c.logicalBytes ∨
      f.trailer ≠ some c.metadata) "project image changed after publication"
    return ⟨c.imageId, digest, path, c.logicalBytes⟩
  | _, _ => throw "image digest unavailable"

/-- `publish_file`. -/
def publishFile (c : Candidate) (inode : ℕ) : ImageOp Candidate := do
  Op.attempt .setPermissions
  Op.attempt .hardLink
  call "sync"
  Op.attempt .unlinkTemporary
  call "sync"
  let f ← Op.attempt (.stat inode)
  let c := { c with localPublished := true, fileIdentity := some f.identity }
  save c
  return c

/-- The check of `capture_bytes` that the source volume is still the recorded generation. -/
def sourceUnchanged : ImageOp Unit := call "project image source generation changed"

/-- The part of `capture_bytes` that exports into the temporary. -/
def exportTemporary (c : Candidate) : ImageOp Candidate := do
  let sha256 ← Op.attempt .exportRemote
  Op.refuse (¬ c.exportSha256.all (fun s => decide (s = sha256))) "project image export changed"
  sourceUnchanged
  let c := { c with exportSha256 := some sha256 }
  save c
  let verified ← Op.attempt (.finalizeExport c)
  Op.refuse (verified.logicalBytes ≠ c.logicalBytes) "project image sizing changed"
  let c := { c with digest := some verified.digest, phase := .importing }
  save c
  return c

/-- The part of `capture_bytes` up to the published file, and its inode. -/
def publishedFile (c : Candidate) : ImageOp (Candidate × ℕ) := do
  let resumed ← Op.perform .publishedExists
  if c.digest.isSome && resumed then
    if ← Op.perform .temporaryExists then
      let same ← Op.attempt .sameFile
      Op.refuse (same = false) "project image publication collision"
      Op.attempt .unlinkTemporary
      call "sync"
    let f ← Op.attempt .openPublished
    return (c, f.identity.inode)
  else
    call "check_headroom"
    let f ← Op.attempt (.openTemporary true)
    if c.digest = none then
      let c ← exportTemporary c
      let c ← publishFile c f.identity.inode
      return (c, f.identity.inode)
    else
      Op.refuse (ownFile c f = false) "interrupted project image changed"
      let c ← publishFile c f.identity.inode
      return (c, f.identity.inode)

/-- The write of `capture_bytes` after a publication that a crash cut off. -/
def markPublished (c : Candidate) (f : ImageFile) : ImageOp Candidate := do
  if c.localPublished then return c
  let c := { c with localPublished := true, fileIdentity := some f.identity }
  save c
  return c

/-- `capture_bytes`. -/
def captureBytes (c : Candidate) : ImageOp ImageInfo := do
  if c.phase = .ready then
    info c
  else
    Op.refuse (c.phase = .failed ∨ c.phase = .retiring ∨ c.phase = .retired)
      "project image was retired"
    sourceUnchanged
    let (c, inode) ← publishedFile c
    let f ← Op.attempt (.stat inode)
    Op.refuse (ownFile c f = false) "published project image changed"
    let c ← markPublished c f
    call "project image capture deadline"
    match c.digest with
    | none => throw "missing image digest"
    | some digest =>
      call "private image digest ownership collision"
      let base ← Op.attempt (.importBase digest c.logicalBytes)
      Op.refuse (base.image ≠ digest) "project image import identity mismatch"
      let f ← Op.attempt (.stat inode)
      call "unlock"
      let c := { c with base := some base, fileIdentity := some f.identity, phase := .ready }
      save c
      info c

/-- `retire_remote`. -/
def retireRemote (c : Candidate) : ImageOp Candidate := do
  let c ← if c.remoteRetired then pure c else do
    match ← Op.attempt .baseHead with
    | .absent | .tombstone => pure ()
    | .importing size | .ready size =>
      Op.refuse (size ≠ c.logicalBytes) "private base size changed"
    Op.attempt .retireBase
    let c := { c with remoteRetired := true }
    save c
    pure c
  if c.remoteClean then return c
  let complete ← Op.attempt .sweepBase
  Op.refuse (u64Max < c.cleanupPasses + 1) "cleanup checkpoint overflow"
  let c := { c with cleanupPasses := c.cleanupPasses + 1, remoteClean := complete }
  save c
  return c

/-- The proof of `retire_project_image_with` that the image's file is its own. -/
def verifyRetirement (c : Candidate) : ImageOp Candidate := do
  if c.retirementVerified then return c
  if c.digest.isSome then
    let f ← if ← Op.perform .publishedExists then Op.attempt .openPublished
      else Op.attempt (.openTemporary false)
    Op.refuse (ownFile c f = false) "project image ownership proof failed"
  let c := { c with retirementVerified := true }
  save c
  return c

/-- `retire_project_image_with`. -/
def retireProjectImage (c : Candidate) : ImageOp Candidate := do
  if c.phase = .retired then return c
  Op.attempt (.barrier c)
  let c ← verifyRetirement c.sealed
  let c ← if c.digest.isSome then retireRemote c else do
    let c := { c with remoteRetired := true, remoteClean := true }
    save c
    pure c
  if !c.remoteClean then return c
  Op.attempt .unlinkTemporary
  if c.digest.isSome then Op.attempt .unlinkPublished
  call "sync"
  let c := { c with phase := .retired, logicalReleased := true, reclamationComplete := true }
  save c
  return c

/-- `failed_intent`. -/
def failedIntent (q : Request) (id : String) : ImageOp (Option FailedIntent) := do
  match ← Op.perform .intent with
  | none => return none
  | some failure =>
    Op.refuse (failure.schema ≠ 1 ∨ failure.imageId ≠ id ∨ ¬ validId failure.requestSha256 ∨
      failure.volumeScope ≠ D.text q.volumeId ∨ failure.sandboxScope ≠ D.path q.sandboxDir)
      "sealed project image intent mismatch"
    return some failure

/-- The intent that seals a request. -/
def sealedIntent (q : Request) (request : ImageRequest) (code : ErrorCode) (retired : Bool) :
    FailedIntent where
  schema := 1
  imageId := request.imageId
  volumeScope := D.text q.volumeId
  sandboxScope := D.path q.sandboxDir
  requestSha256 := D.request request
  errorCode := code
  retired := retired

/-- `seal_failed_intent`. -/
def sealFailedIntent (q : Request) (request : ImageRequest) (code : ErrorCode) : ImageOp Unit := do
  match ← failedIntent D q request.imageId with
  | some existing =>
    Op.refuse (existing.requestSha256 ≠ D.request request) "sealed project image intent changed"
  | none => Op.attempt (.seal (sealedIntent D q request code false))

/-- The reply that a retirement is complete. -/
def retiredReply : ImageReply :=
  { proof .retired true none none true with logicalReleased := true, reclamationComplete := true }

/-- The candidate that a first capture asks to admit. -/
def newCandidate (q : Request) (request : ImageRequest) (metadata : Metadata) (root : Path)
    (sourceBytes bytes : ℕ) (revision manifest : String) : Candidate where
  schema := 1
  imageId := request.imageId
  sourceVolumeId := q.volumeId
  sandboxDir := q.sandboxDir
  outputRoot := root
  sourceLogicalBytes := sourceBytes
  logicalBytes := bytes
  metadata := metadata
  sourceRevision := revision
  sourceManifestSha256 := manifest
  exportSha256 := none
  digest := none
  base := none
  fileIdentity := none
  localPublished := false
  phase := .exporting
  errorCode := none
  remoteRetired := false
  retirementVerified := false
  cleanupPasses := 0
  remoteClean := false
  logicalReleased := false
  reclamationComplete := false

/-- The checks with which `project_image_request_inner` begins. -/
def innerChecks (q : Request) (request : ImageRequest) : ImageOp Path := do
  Op.refuse (q.version ≠ 1 ∨ q.image.isSome ∨ q.logicalBytes.isSome) "invalid project image request"
  call "configured_root"
  match cfg.projectImageRoot with
  | none => throw "project images unavailable"
  | some root =>
    Op.refuse (¬ validId q.volumeId) "invalid source volume"
    Op.refuse (¬ projectUuid request.imageId ∨ ¬ request.expectedDigest.all validId)
      "invalid project image identity"
    call "source volume"
    return root

/-- The capture of `project_image_request_inner`. -/
def captureInner (q : Request) (request : ImageRequest) : ImageOp ImageInfo := do
  let root ← innerChecks cfg q request
  match request.metadata, request.sourceLogicalBytes with
  | some metadata, some sourceBytes =>
    Prog.done metadata.validate
    Op.refuse (request.imageId ≠ metadata.buildId) "project image ID must equal build ID"
    let bytes ← Prog.done (imageBytes sourceBytes)
    Op.refuse (cfg.limits.maxVolumeBytes < bytes) "project image logical size limit"
    let known ← Op.perform .candidateExists
    if known then
      let c ← loadMatching q request
      if c.phase = .ready then return ← info c
    call "stopped builder volume"
    call "synchronized builder disk"
    let c ← if known then Op.attempt .load else do
      let revision ← Op.attempt (.ask "head revision" (Result String))
      let manifest ← Op.attempt (.ask "head manifest digest" (Result String))
      call "check_headroom"
      let c := newCandidate q request metadata root sourceBytes bytes revision manifest
      Op.attempt (.admission c)
      pure c
    Prog.done (c.agrees q request)
    captureBytes c
  | _, _ => throw "missing frozen project image provenance"

/-- The retirement of `project_image_request_inner`. -/
def retireInner (q : Request) (request : ImageRequest) : ImageOp Candidate := do
  let _ ← innerChecks cfg q request
  let c ← loadMatching q request
  retireProjectImage c

/-- What `project_image_request` does after a failed capture. -/
def sealCapture (q : Request) (request : ImageRequest) : ImageOp ImageReply := do
  if ← Op.perform .candidateExists then
    let c ← loadMatching q request
    save { c with phase := .failed, errorCode := some .captureFailed }
  sealFailedIntent D q request .captureFailed
  return proof .failed true (some .captureFailed) none false

/-- The part of a capture that runs with `project_images` locked. -/
def captureLocked (q : Request) (request : ImageRequest) : ImageOp ImageReply := do
  match ← Op.outcome (captureInner cfg q request) with
  | .ok image => return proof .ready true none (some image) true
  | .error _ => sealCapture D q request

/-- The part of a retirement that runs with `project_images` locked. -/
def retireLocked (q : Request) (request : ImageRequest) : ImageOp ImageReply := do
  let c ← retireInner cfg q request
  let phase := if c.reclamationComplete then ReplyPhase.retired else .capturing
  if c.reclamationComplete then
    if let some failure ← failedIntent D q request.imageId then
      Op.attempt (.seal { failure with retired := true })
  return { proof phase true none none true with
    logicalReleased := c.logicalReleased, reclamationComplete := c.reclamationComplete }

/-- Run `body` with `project_images` locked, if it is free. -/
def withImages (poisoned body : ImageOp ImageReply) : ImageOp ImageReply := do
  match ← Op.perform .tryImages with
  | .wouldBlock => return proof .capturing false none none false
  | .poisoned => poisoned
  | .locked =>
    let r ← Op.outcome body
    Op.perform .dropImages
    Prog.done r

/-- A capture that holds the intent's lock, `project_image_request`. -/
def capture (q : Request) (request : ImageRequest) : ImageOp ImageReply := do
  if let some failure ← failedIntent D q request.imageId then
    Op.refuse (failure.retired = false ∧ failure.requestSha256 ≠ D.request request)
      "sealed project image intent changed"
    return proof (if failure.retired then .retired else .failed) true (some failure.errorCode)
      none false
  if ← Op.perform .candidateExists then
    let c ← loadMatching q request
    if c.phase = .failed || c.phase = .retiring || c.phase = .retired then
      return proof (if c.phase = .retired then .retired else .failed) true c.errorCode none false
  let poisoned : ImageOp ImageReply := do
    sealFailedIntent D q request .captureFailed
    return proof .failed true (some .captureFailed) none false
  withImages poisoned (captureLocked cfg D q request)

/-- A retirement that holds the intent's lock, `project_image_request`. -/
def retire (q : Request) (request : ImageRequest) : ImageOp ImageReply := do
  if let some failure ← failedIntent D q request.imageId then
    if !(← Op.perform .candidateExists) then
      Op.attempt (.seal { failure with retired := true })
      return retiredReply
  if !(← Op.perform .candidateExists) then
    Op.refuse (q.version ≠ 1 ∨ q.image.isSome ∨ q.logicalBytes.isSome)
      "invalid project image retirement"
    Op.attempt (.seal (sealedIntent D q request .captureFailed true))
    return retiredReply
  withImages (throw "project image operation busy") (retireLocked cfg D q request)

/-- The phase that a status reply shows. -/
def statusPhase : Phase → ReplyPhase
  | .ready => .ready
  | .failed => .failed
  | .retired => .retired
  | _ => .capturing

/-- `project_image_status`; `locked` tells whether it holds the intent's lock. -/
def status (locked : Bool) (q : Request) (request : ImageRequest) : ImageOp ImageReply := do
  Op.refuse (q.version ≠ 1 ∨ q.image.isSome ∨ q.logicalBytes.isSome)
    "invalid project image status request"
  if let some failure ← failedIntent D q request.imageId then
    let reply := proof (if failure.retired then .retired else .failed) locked
      (some failure.errorCode) none true
    if ← Op.perform .candidateExists then
      let c ← loadMatching q request
      return { reply with
        logicalReleased := c.logicalReleased, reclamationComplete := c.reclamationComplete }
    else
      return { reply with
        logicalReleased := failure.retired, reclamationComplete := failure.retired }
  if !(← Op.perform .candidateExists) then return proof .absent false none none true
  let c ← loadMatching q request
  Op.refuse (¬ validId q.volumeId) "invalid source volume"
  call "source sandbox binding"
  let c ← if (c.phase = .exporting || c.phase = .importing) && locked then do
      let c := { c with phase := .failed, errorCode := some .captureInterrupted }
      save c
      pure c
    else pure c
  let image ← if c.phase = .ready then some <$> info c else pure none
  return { proof (statusPhase c.phase) locked c.errorCode image true with
    logicalReleased := c.logicalReleased, reclamationComplete := c.reclamationComplete }

end ImageOp

end AgentHouse.Host
