import AgentHouse.Lib.Regions
import AgentHouse.Engine.Names
import Mathlib.Algebra.BigOperators.Group.List.Basic
import Mathlib.Algebra.Ring.Nat

/-!
# Operations on sandboxes and on the snapshot registry

The data directory as a list of paths, with the tables of the engine beside it. Every service and
every call to the file system succeeds, so an operation fails by its own checks only. The worker's
part of a checkpoint is the files that it leaves in the staging directory.
-/

namespace AgentHouse.Engine

open AgentHouse.Regions AgentHouse.Regions.Proc

/-- The states of a sandbox. -/
inductive State where
  | running
  | paused
  | stopped
  | failed
  deriving DecidableEq, Repr

/-- A `LiveRec`. Its directory is the one of its id. -/
structure Live where
  state : State
  /-- A worker is held, and alive. -/
  worker : Bool
  needsResume : Bool
  replicated : Bool
  desktop : Bool
  deleting : Bool
  /-- What the worker writes into the payloads of a checkpoint. -/
  image : String → List UInt8
  /-- The text of `backing-image.json`. -/
  backing : List UInt8

/-- What stands under a path. -/
inductive Node where
  | dir
  | file (bytes : List UInt8)
  | manifest (snapshotId : String)
  | record (live : Live)

/-- A path and what stands there. -/
abbrev Entry := Path × Node

/-- The tables under the engine's lock. -/
structure Tables where
  /-- `cfg.storage` is configured. -/
  quota : Bool
  sandboxes : String → Option Live
  snapshots : List String
  reservations : List String

/-- The data directory and the tables. -/
abbrev Backend := Store Entry Tables

/-- A call of the backend. -/
abbrev Call (β : Type) := Proc Entry Tables Error β

/-! ## The file system -/

/-- The entry is at the path or under it. -/
def below (p : Path) (e : Entry) : Bool := p.isPrefixOf e.1

/-- `exists()` -/
def present (p : Path) : Call Bool := view fun l => l.any fun e => e.1 == p

/-- `remove_dir_all` -/
def removeTree (p : Path) : Call Unit := edit fun l => l.filter fun e => !below p e

/-- The directories on the way to `p` that are missing, with `p`. -/
def createDirs (p : Path) : Call Unit := edit fun l =>
  l ++ (p.inits.tail.filter fun q => !l.any fun e => e.1 == q).map fun q => (q, .dir)

/-- A file is written, in the place of an older one. -/
def write (p : Path) (node : Node) : Call Unit := edit fun l =>
  (l.filter fun e => !(e.1 == p)) ++ [(p, node)]

/-- The entry under its new path. -/
def moved (p q : Path) (e : Entry) : Entry := (q ++ e.1.drop p.length, e.2)

/-- `rename` of a tree, over what stands there. -/
def rename (p q : Path) : Call Unit := edit fun l =>
  (l.filter fun e => !below q e).map fun e => if below p e then moved p q e else e

/-- The entries of a tree under their new paths. -/
def copies (p q : Path) (l : List Entry) : List Entry := (l.filter (below p)).map (moved p q)

/-- `copy_dir`, and `std::fs::copy` of one file. -/
def copy (p q : Path) : Call Unit := edit fun l =>
  (l.filter fun e => !(copies p q l).any fun c => c.1 == e.1) ++ copies p q l

/-- What stands at a path. -/
def lookup (p : Path) (l : List Entry) : Option Node := (l.find? fun e => e.1 == p).map (·.2)

/-- The manifest that the engine keeps in a bundle. -/
def sidecar (bundle : Path) : Path := bundle ++ ["ahvm-manifest.json"]

/-- `SnapshotManifest::read_from` -/
def readManifest (bundle : Path) : Call String := do
  match ← view (lookup (sidecar bundle)) with
  | some (.manifest snapshotId) => return snapshotId
  | _ => fail .manifest

/-! ## Tables -/

/-- `OpGuard`: the key is free again when `p` has ended. -/
def reserving {β : Type} (key : String) (p : Call β) : Call β := do
  let t ← tables
  if key ∈ t.reservations then
    fail (.inProgress key)
  else
    assign fun t => { t with reservations := key :: t.reservations }
    p.ending fun t => { t with reservations := t.reservations.erase key }

/-- The sandbox of an id. -/
def sandbox (id : String) : Call Live := do
  match (← tables).sandboxes id with
  | some live => return live
  | none => fail (.sandboxNotFound id)

/-- The sandbox is entered in the table, or removed. -/
def store (id : String) (live : Option Live) : Call Unit :=
  assign fun t => { t with sandboxes := fun other =>
    if other = id then live else t.sandboxes other }

/-- `persist_record`: written beside the record and renamed. -/
def persistRecord (id : String) (live : Live) : Call Unit := do
  let tmp := sandboxDir id ++ Temporary.record.path
  write tmp (.record live)
  rename tmp (sandboxDir id ++ ["sandbox.json"])

/-! ## Checkpoints -/

/-- The files of a checkpoint. -/
def payloads : List String := ["memory.img", "checkpoint.bin", "manifest.json"]

/-- The bundle of a sandbox. -/
def bundleDir (id : String) : Path := sandboxDir id ++ ["bundle"]

/-- `recover_bundle`: an old bundle takes the place of a missing one, or goes. -/
def recoverBundle (id : String) : Call Unit := do
  let old := sandboxDir id ++ Temporary.retired.path
  only (← present old) do
    only (!(← present (bundleDir id))) (rename old (bundleDir id))
    only (← present old) (removeTree old)

/-- `publish_bundle`: the old bundle steps aside until the new one is in place. -/
def publishBundle (id : String) (gen : Path) : Call Unit := do
  recoverBundle id
  let old := sandboxDir id ++ Temporary.retired.path
  only (← present (bundleDir id)) (rename (bundleDir id) old)
  rename gen (bundleDir id)
  only (← present old) (removeTree old)

/-- What is written and renamed once the checks have passed. -/
def checkpoint (id : String) (live : Live) (snapshotId : String) : Call Unit := do
  let dir := sandboxDir id
  let staging := dir ++ Temporary.checkpoint.path
  let gen := dir ++ Temporary.pending.path
  removeTree staging
  removeTree gen
  -- the worker answers `SNAPSHOT` when it has written its payloads
  createDirs staging
  each (fun name => write (staging ++ [name]) (.file (live.image name))) payloads
  createDirs gen
  each (fun name => rename (staging ++ [name]) (gen ++ [name])) payloads
  removeTree staging
  copy (dir ++ ["root.qcow2"]) (gen ++ ["root.qcow2"])
  write (gen ++ ["backing-image.json"]) (.file live.backing)
  write (gen ++ ["ahvm-manifest.json.tmp"]) (.manifest snapshotId)
  rename (gen ++ ["ahvm-manifest.json.tmp"]) (sidecar gen)
  publishBundle id gen

/-- `snapshot_live`: desktops have no snapshots. -/
def snapshotLive (id : String) (live : Live) (snapshotId : String) : Call Unit := do
  if live.desktop = true then
    fail .desktopSnapshots
  else
    lift (validateSnapshotId snapshotId)
    checkpoint id live snapshotId

/-! ## The registry -/

/-- The copy that is made aside and renamed into place. -/
def publish (id snapshotId : String) : Call String := do
  removeTree (stagingDir snapshotId)
  let stored ← Proc.cleaning
    (do
      copy (bundleDir id) (stagingDir snapshotId)
      createDirs (stagingDir snapshotId)
      rename (stagingDir snapshotId) (registryDir snapshotId)
      readManifest (registryDir snapshotId))
    (removeTree (stagingDir snapshotId))
  assign fun t => { t with snapshots := snapshotId :: t.snapshots }
  return stored

/-- The check of `snapshot_to_registry` on its source. -/
def runningSource (id : String) : Call Live := do
  if (← tables).quota = true then
    fail .quotaMode
  else
    let live ← sandbox id
    if live.state ≠ .running ∨ live.worker = false then
      fail (.notRunning id)
    else if live.replicated = true then
      fail .replicatedCheckpoints
    else
      return live

/-- `snapshot_to_registry` -/
def snapshotToRegistry (id snapshotId : String) : Call String := do
  let live ← runningSource id
  snapshotLive id live snapshotId
  if ← present (registryDir snapshotId) then
    fail (.snapshotExists snapshotId)
  else
    publish id snapshotId

/-- `live` is the record of the worker that is booted from the bundle. -/
def restoreInner (snapshotId newId : String) (live : Live) : Call Live := do
  let t ← tables
  if (t.sandboxes newId).isSome = true then
    fail (.sandboxExists newId)
  else if snapshotId ∉ t.snapshots then
    fail (.snapshotNotFound snapshotId)
  else
    let stored ← readManifest (registryDir snapshotId)
    if stored ≠ snapshotId then
      fail (.snapshotMismatch stored snapshotId)
    else
      createDirs (sandboxDir newId)
      copy (registryDir snapshotId ++ ["root.qcow2"]) (sandboxDir newId ++ ["root.qcow2"])
      persistRecord newId live
      store newId (some live)
      return live

/-- `remove_snapshot_bundle`: the bundle, what is staged of it, and the entry. -/
def removeSnapshotBundle (snapshotId : String) : Call Unit := do
  removeTree (registryDir snapshotId)
  removeTree (stagingDir snapshotId)
  assign fun t => { t with snapshots := t.snapshots.filter (· ≠ snapshotId) }

/-- `bundle_bytes`; `len` is the length of a file. -/
def bundleBytes (len : Node → ℕ) (p : Path) (l : List Entry) : ℕ :=
  ((l.filter (below p)).map fun e => len e.2).sum

/-! ## Operations -/

/-- `create`, up to the boot. -/
def create (id : String) (live : Live) (root : List UInt8) : Call Unit := do
  lift (validateId id)
  reserving id do
    if ((← tables).sandboxes id).isSome = true then
      fail (.sandboxExists id)
    else
      createDirs (sandboxDir id)
      write (sandboxDir id ++ ["root.qcow2"]) (.file root)
      persistRecord id live
      store id (some live)

/-- A paused sandbox runs again before it is used. -/
def resumeResident (id : String) : Call Unit := do
  let live ← sandbox id
  only ((live.state = .paused ∨ live.needsResume = true) ∧ live.worker = true) do
    let resumed := { live with state := .running, needsResume := false }
    persistRecord id resumed
    store id (some resumed)

/-- The record of a sandbox whose worker is gone. -/
def Live.halted (live : Live) : Live := { live with state := .stopped, worker := false }

/-- The worker is gone: the table and the record say so. -/
def halt (id : String) (live : Live) : Call Unit := do
  store id (some live.halted)
  persistRecord id live.halted

/-- `stop_replicated`; the volume is drained and detached by its service. -/
def stopReplicated (id : String) (live : Live) : Call Unit := do
  if live.deleting = true then
    fail .deletionPending
  else
    removeTree (sandboxDir id ++ ["state.json"])
    halt id live

/-- `stop` with the reservation held. -/
def stopHeld (id : String) : Call Unit := do
  resumeResident id
  let live ← sandbox id
  if live.replicated = true then
    stopReplicated id live
  else if live.worker = false then
    halt id live
  else if live.desktop = true then
    -- the guest flushes its disk, and no checkpoint is made
    removeTree (sandboxDir id ++ ["state.json"])
    halt id live
  else
    snapshotLive id live (stopId id)
    removeTree (sandboxDir id ++ ["state.json"])
    halt id live

/-- `stop` -/
def stop (id : String) : Call Unit := do
  lift (validateId id)
  reserving id (stopHeld id)

/-- `destroy`: a failure keeps the sandbox in the table. -/
def destroy (id : String) : Call Unit := do
  lift (validateId id)
  reserving id do
    let t ← tables
    match t.sandboxes id with
    | none => if t.quota = true then return () else fail (.sandboxNotFound id)
    | some live =>
      only live.replicated do
        let deleting := { live with deleting := true, state := .failed, worker := false }
        store id (some deleting)
        persistRecord id deleting
      store id none
      removeTree (sandboxDir id)

/-- `create_snapshot` -/
def createSnapshot (id snapshotId : String) : Call String := do
  lift (validateId id)
  lift (validateSnapshotId snapshotId)
  reserving id (reserving (snapKey snapshotId) (snapshotToRegistry id snapshotId))

/-- `restore` -/
def restore (snapshotId newId : String) (live : Live) : Call Live := do
  lift (validateId newId)
  lift (validateSnapshotId snapshotId)
  reserving newId (reserving (snapKey snapshotId) (restoreInner snapshotId newId live))

/-- `delete_snapshot` -/
def deleteSnapshot (snapshotId : String) : Call Unit := do
  lift (validateSnapshotRegistryId snapshotId)
  reserving (snapKey snapshotId) (removeSnapshotBundle snapshotId)

/-- `snapshot_local_bytes`; `none` is the overflow of the sum. -/
def snapshotLocalBytes (len : Node → ℕ) (snapshotId : String) : Call (Option ℕ) := do
  lift (validateSnapshotRegistryId snapshotId)
  let complete ← view (bundleBytes len (registryDir snapshotId))
  let pending ← view (bundleBytes len (stagingDir snapshotId))
  return if complete + pending < 2 ^ 64 then some (complete + pending) else none

/-- `fork`: a snapshot under the name of the new sandbox, restored at once. -/
def fork (id newId : String) (booted : Live) : Call Live := do
  lift (validateId id)
  lift (validateId newId)
  reserving id (reserving newId (reserving (snapKey (forkId newId)) do
    let stored ← snapshotToRegistry id (forkId newId)
    let live ← restoreInner stored newId booted
    persistRecord newId live
    return live))

/-- `d` is a directory of the registry whose name ends in `.tmp`, with `e` below it. -/
def sweeps (d e : Entry) : Bool :=
  match d with
  | ([top, name], .dir) =>
    [top] == registry && ".tmp".toList.isSuffixOf name.toList && below [top, name] e
  | _ => false

/-- What `sweep_debris` removes from the registry at the start. -/
def sweepRegistry : Call Unit := edit fun l => l.filter fun e => !l.any fun d => sweeps d e

end AgentHouse.Engine
