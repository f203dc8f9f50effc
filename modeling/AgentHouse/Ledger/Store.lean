import AgentHouse.Lib.Programs
import AgentHouse.Lib.Tables
import Mathlib.Algebra.Order.Ring.Int

/-!
# Storage reservations and lifecycle receipts

The tables of `schema.rs` that charge an owner for storage, with the functions of
`replicated.rs` and `operations.rs` over them. A function reads one value of `Db` and returns the
value that its transaction commits. Sums and products are those of an `i64`: an overflow is
an error. Columns that no function reads, such as `updated_at` of a reservation, are left out.
-/

namespace AgentHouse.Ledger

/-- The errors of the store, with the texts of refusals. -/
inductive Error where
  | sqlite
  | notFound (what : String)
  | conflict (why : String)
  | json
deriving DecidableEq, Repr

/-- A call of the store. -/
abbrev Result := Except Error

/-- Fail if the condition holds. -/
def refuse (c : Prop) [Decidable c] (e : Error) : Result Unit := if c then .error e else .ok ()

/-- Fail without a value. -/
def require {α : Type} (a : Option α) (e : Error) : Result α :=
  match a with
  | some a => .ok a
  | none => .error e

theorem refuse_eq_ok {c : Prop} [Decidable c] {e : Error} {u : Unit} (h : refuse c e = .ok u) :
    ¬ c := by
  unfold refuse at h
  split at h
  · cases h
  · assumption

theorem require_eq_ok {α : Type} {a : Option α} {e : Error} {b : α} (h : require a e = .ok b) :
    a = some b := by
  cases a with
  | none => cases h
  | some a => rw [Except.ok.inj h]

/-- The value, if it is an `i64`. -/
def checked (n : ℤ) : Option ℤ := if -2 ^ 63 ≤ n ∧ n < 2 ^ 63 then some n else none

/-- `SUM`, which fails if it overflows on the way. -/
def sum (ns : List ℤ) : Result ℤ :=
  ns.foldlM (fun total n => require (checked (total + n)) .sqlite) 0

/-- A mebibyte. -/
def mib : ℤ := 1024 * 1024

/-- A row of `users`, as far as quotas go. -/
structure User where
  id : String
  maxVolumesMb : ℤ
deriving DecidableEq, Repr

/-- A row of `volumes`. -/
structure LegacyVolume where
  id : String
  ownerUserId : String
  sizeMb : ℤ
deriving DecidableEq, Repr

/-- A row of `sandboxes`, as far as storage goes. -/
structure Sandbox where
  id : String
  ownerUserId : String
deriving DecidableEq, Repr

/-- The states of a reservation. -/
inductive ReservationState where
  | reserved
  | deleting
  | reclaimed
deriving DecidableEq, Repr

/-- A row of `replicated_reservations`. -/
structure ReplicatedReservation where
  volumeId : String
  ownerUserId : String
  sandboxId : String
  logicalBytes : ℤ
  state : ReservationState
  logicalReleased : Bool
  createdAt : ℤ
deriving DecidableEq, Repr

/-- The phases of a builder. -/
inductive BuilderPhase where
  | creating
  | isSealed
  | captured
  | retired
  | failed
deriving DecidableEq, Repr

/-- A row of `project_environment_builders`. -/
structure ProjectEnvironmentBuilder where
  id : String
  sandboxId : String
  ownerUserId : String
  requestJson : String
  metadataJson : String
  phase : BuilderPhase
  createdAt : ℤ
deriving DecidableEq, Repr

/-- The phases of an image. -/
inductive ImagePhase where
  | preparing
  | capturing
  | ready
  | failed
  | deleting
  | retired
deriving DecidableEq, Repr

/-- A row of `project_environment_images`. -/
structure ProjectEnvironmentImage where
  id : String
  ownerUserId : String
  tenantId : String
  projectId : String
  metadataJson : String
  requestJson : String
  sourceVolumeId : String
  sourceSandboxId : String
  sourceLogicalBytes : ℤ
  logicalBytes : ℤ
  phase : ImagePhase
  digest : Option String
  imagePath : Option String
  detail : Option String
  createdAt : ℤ
  updatedAt : ℤ
deriving DecidableEq, Repr

/-- What pins an image. -/
inductive RefKind where
  | build
  | vm
  | current
  | previous
deriving DecidableEq, Repr

/-- A row of `project_environment_image_refs`. -/
structure ImageRef where
  kind : RefKind
  referenceId : String
  imageId : String
deriving DecidableEq, Repr

/-- A row of `project_environment_retention`. -/
structure Retention where
  ownerUserId : String
  tenantId : String
  projectId : String
  generation : ℤ
  requestJson : String
deriving DecidableEq, Repr

/-- Its primary key. -/
def Retention.key (r : Retention) : String × String × String :=
  (r.ownerUserId, r.tenantId, r.projectId)

/-- The states of an operation. -/
inductive OperationState where
  | pending
  | done
  | interrupted
deriving DecidableEq, Repr

/-- A row of `lifecycle_operations`. -/
structure LifecycleOperation where
  id : String
  ownerUserId : String
  sandboxId : String
  request : String
  state : OperationState
  status : Option ℕ
  errorJson : Option String
  sandboxState : Option String
  storageVolumeId : Option String
deriving DecidableEq, Repr

/-- The tables of the ledger. -/
structure Db where
  users : List User := []
  volumes : List LegacyVolume := []
  sandboxes : List Sandbox := []
  reservations : List ReplicatedReservation := []
  builders : List ProjectEnvironmentBuilder := []
  images : List ProjectEnvironmentImage := []
  refs : List ImageRef := []
  retention : List Retention := []
  operations : List LifecycleOperation := []
deriving DecidableEq, Repr

/-- The reservation fences its sandbox name. -/
def ReplicatedReservation.retained (r : ReplicatedReservation) : Bool :=
  r.state ≠ .reclaimed && !r.logicalReleased

namespace Db

variable (db : Db)

/-- `replicated::find`. -/
def find (volume : String) : Option ReplicatedReservation :=
  Table.row ReplicatedReservation.volumeId volume db.reservations

/-- The user of an id. -/
def user (id : String) : Option User := Table.row User.id id db.users

/-- `replicated::usage`, the bytes. -/
def usage (owner : String) : Result ℤ :=
  sum ((db.reservations.filter fun r => r.ownerUserId = owner && r.retained).map (·.logicalBytes))

/-- What the admission of an image sums up instead. -/
def diskUsage (owner : String) : Result ℤ :=
  sum ((db.reservations.filter fun r => r.ownerUserId = owner && !r.logicalReleased).map
    (·.logicalBytes))

/-- `project_images::image_usage`. -/
def imageUsage (owner : String) : Result ℤ :=
  sum ((db.images.filter fun i => i.ownerUserId = owner && i.phase ≠ .retired).map (·.logicalBytes))

/-- The sizes of the owner's `volumes`. -/
def legacySizes (owner : String) : List ℤ :=
  (db.volumes.filter fun v => v.ownerUserId = owner).map (·.sizeMb)

/-- The smallest of the sizes. -/
def smallest (owner : String) : ℤ := (db.legacySizes owner).min?.getD 0

/-- Some reservation fences the name. -/
def occupied (sandbox : String) : Bool :=
  db.reservations.any fun r => r.sandboxId = sandbox && r.retained

/-- Some reservation of the name has not been released. -/
def unreleased (sandbox : String) : Bool :=
  db.reservations.any fun r => r.sandboxId = sandbox && !r.logicalReleased

/-- The quota in bytes, as a reservation reads it. -/
def quota (owner : String) : Result ℤ := do
  let user ← require (db.user owner) (.notFound "storage owner")
  require ((checked (user.maxVolumesMb * mib)).filter (0 ≤ ·)) (.conflict "invalid storage quota")

/-- The owner's total with a new reservation. -/
def reserveTotal (owner : String) (bytes : ℤ) : Result ℤ := do
  let legacyMb ← sum (db.legacySizes owner)
  let legacyBytes ← require ((checked (legacyMb * mib)).filter fun _ => 0 ≤ db.smallest owner)
    (.conflict "invalid existing volume usage")
  let imageBytes ← db.imageUsage owner
  let used ← db.usage owner
  require ((checked (used + legacyBytes)).bind fun n => (checked (n + imageBytes)).bind fun n =>
    checked (n + bytes)) (.conflict "storage accounting overflow")

/-- The owner's total with a new image. -/
def imageTotal (owner : String) (bytes : ℤ) : Result ℤ := do
  let disk ← db.diskUsage owner
  let legacy ← sum (db.legacySizes owner)
  let used ← db.imageUsage owner
  require ((checked (disk + used)).bind fun n => (checked (legacy * mib)).bind fun l =>
    (checked (n + l)).bind fun n => checked (n + bytes)) (.conflict "image accounting overflow")

/-- The reservation of a volume changes. -/
def reviseReservation (volume : String) (f : ReplicatedReservation → ReplicatedReservation) : Db :=
  { db with reservations := Table.revise ReplicatedReservation.volumeId volume f db.reservations }

/-- The owner's reservation that fences the name. -/
def replicatedForSandbox (owner sandbox : String) : Option ReplicatedReservation :=
  db.reservations.find? fun r => r.ownerUserId = owner && r.sandboxId = sandbox && r.retained

end Db

/-- A digit of a volume id. -/
def hexDigit (c : Char) : Bool := c.isDigit || ('a' ≤ c && c ≤ 'f')

/-- Bind the pending operations of the name that have no volume yet. -/
def LifecycleOperation.bindVolume (owner sandbox volume : String) (o : LifecycleOperation) :
    LifecycleOperation :=
  if o.ownerUserId = owner ∧ o.sandboxId = sandbox ∧ o.state = .pending ∧ o.storageVolumeId = none
  then { o with storageVolumeId := some volume }
  else o

section Replicated

variable (owner sandbox volume : String) (bytes now : ℤ) (db : Db)

/-- The row that a reservation inserts. -/
def ReplicatedReservation.new : ReplicatedReservation :=
  { volumeId := volume, ownerUserId := owner, sandboxId := sandbox, logicalBytes := bytes
    state := .reserved, logicalReleased := false, createdAt := now }

/-- `reserve_replicated_volume`: the quota is asked once for a volume. -/
def reserveReplicatedVolume : Result (ReplicatedReservation × Db) := do
  refuse (volume.utf8ByteSize ≠ 64 ∨ ¬ volume.toList.all hexDigit ∨ owner = "" ∨ sandbox = "" ∨
      64 < sandbox.utf8ByteSize ∨ bytes ≤ 0 ∨ 64 * 1024 * 1024 * 1024 < bytes ∨ bytes % 65536 ≠ 0)
    (.conflict "invalid replicated reservation")
  match db.find volume with
  | some old =>
    -- existing disks survive lowered quotas without a new charge
    refuse (¬ (old.ownerUserId = owner ∧ old.sandboxId = sandbox ∧ old.logicalBytes = bytes ∧
        old.state = .reserved))
      (.conflict "replicated volume identity already reserved or retired")
    return (old, db)
  | none =>
    let maximum ← db.quota owner
    let total ← db.reserveTotal owner bytes
    refuse (maximum < total) (.conflict "replicated storage quota exceeded")
    refuse (db.occupied sandbox) (.conflict "sandbox already has a retained replicated disk")
    let row := ReplicatedReservation.new owner sandbox volume bytes now
    return (row, { db with
      reservations := db.reservations ++ [row]
      operations := db.operations.map (LifecycleOperation.bindVolume owner sandbox volume) })

/-- Deletion intent. -/
def deleteReplicatedReservation : Result Db := do
  let row ← require ((db.find volume).filter fun r => r.ownerUserId = owner)
    (.notFound "replicated volume")
  if row.state = .reclaimed then return db
  else return db.reviseReservation volume fun r => { r with state := .deleting }

/-- The reservation after a retirement proof. -/
def ReplicatedReservation.retire (logicalReleased reclamationComplete : Bool)
    (r : ReplicatedReservation) : ReplicatedReservation :=
  { r with
    logicalReleased := r.logicalReleased || logicalReleased
    state := if reclamationComplete then .reclaimed else .deleting }

/-- The answer is whether this call has released the reservation. -/
def confirmReplicatedRetirement (logicalReleased reclamationComplete : Bool) :
    Result (Bool × Db) := do
  refuse (reclamationComplete ∧ ¬ logicalReleased)
    (.conflict "reclamation without logical retirement")
  let row ← require ((db.find volume).filter fun r => r.ownerUserId = owner)
    (.notFound "replicated volume")
  if row.state = .reclaimed then return (false, db)
  else
    refuse (row.state ≠ .deleting) (.conflict "replicated deletion not requested")
    let retired := db.reviseReservation volume
      (ReplicatedReservation.retire logicalReleased reclamationComplete)
    if logicalReleased ∧ ¬ row.logicalReleased then
      refuse (db.sandboxes.any fun s => s.id = row.sandboxId && s.ownerUserId ≠ owner)
        (.conflict "storage deletion owner mismatch")
      return (true, { retired with
        sandboxes := db.sandboxes.filter fun s => s.id ≠ row.sandboxId })
    else return (false, retired)

end Replicated

/-- Old reclaimed rows are released. -/
def ReplicatedReservation.migrate (r : ReplicatedReservation) : ReplicatedReservation :=
  if r.state = .reclaimed then { r with logicalReleased := true } else r

/-- What `init_schema` does to the rows. Its index must not find two reservations that fence one
name. -/
def initSchema (db : Db) : Result Db := do
  let reservations := db.reservations.map (·.migrate)
  refuse (¬ (((reservations.filter (·.retained)).map (·.sandboxId)).Nodup)) .sqlite
  return { db with reservations }

section Sandboxes

variable (id owner : String) (db : Db)

/-- A sandbox row is inserted. -/
def createSandbox : Result Db := do
  refuse (db.sandboxes.any (·.id = id) ∨ db.user owner = none) .sqlite
  return { db with sandboxes := db.sandboxes ++ [⟨id, owner⟩] }

/-- A sandbox row is deleted. -/
def deleteSandbox : Result Db :=
  .ok { db with sandboxes := db.sandboxes.filter fun s => s.id ≠ id }

end Sandboxes

section Operations

variable (db : Db)

/-- The number of operations that are not finished. -/
def Db.pendingOperations : ℕ := db.operations.countP fun o => o.state = .pending

/-- The row that an admission inserts. -/
def LifecycleOperation.admitted (id owner sandbox request : String) : LifecycleOperation :=
  { id, ownerUserId := owner, sandboxId := sandbox, request, state := .pending, status := none
    errorJson := none, sandboxState := none
    storageVolumeId := (db.replicatedForSandbox owner sandbox).map (·.volumeId) }

/-- The answer is true only for the call that admits the operation. -/
def admitLifecycleOperation (id owner sandbox request : String) : Result (Bool × Db) := do
  match Table.row LifecycleOperation.id id db.operations with
  | some old =>
    refuse (¬ (old.ownerUserId = owner ∧ old.request = request ∧ old.sandboxId = sandbox))
      (.conflict "operation key reused")
    return (false, db)
  | none =>
    -- the row is ignored by the index of pending operations, or by the bound on their number
    refuse (db.operations.any (fun o => o.sandboxId = sandbox && o.state = .pending) ∨
      64 ≤ db.pendingOperations) (.conflict "operation already in progress or queue full")
    return (true, { db with
      operations := db.operations ++ [LifecycleOperation.admitted db id owner sandbox request] })

/-- `finish_lifecycle_operation`: an operation is finished once. -/
def finishLifecycleOperation (id : String) (status : ℕ) (error sandboxState : Option String)
    (storageVolumeId : Option String) : Result Db :=
  .ok { db with operations := db.operations.map fun o =>
    if o.id = id ∧ o.state = .pending then
      { o with
        state := .done
        status := some status
        errorJson := error
        sandboxState
        storageVolumeId := o.storageVolumeId <|> storageVolumeId }
    else o }

/-- `interrupt_lifecycle_operations`, at the start of the daemon. -/
def interruptLifecycleOperations : Result Db :=
  .ok { db with operations := db.operations.map fun o =>
    if o.state = .pending then { o with state := .interrupted } else o }

end Operations

end AgentHouse.Ledger
