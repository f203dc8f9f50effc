import Mathlib.Tactic.Common
import Mathlib.Algebra.Ring.Nat
import Mathlib.Algebra.Order.Group.Nat
import Mathlib.Data.List.ReduceOption

/-!
# Volume records and storage budgets

The record that the volume supervisor keeps for each volume, the checks that it makes when it
reads one back, and the reservations that it derives from all of them (`service/mod.rs` and
`service/accounting.rs`). A path is the list of its components. A record file always carries
the key `logical_released`: the upgrade of files that lack it is not modelled.
-/

namespace AgentHouse.Host

/-- A refusal carries its message. -/
abbrev Result := Except String

/-- A path by its components. -/
abbrev Path := List String

/-- `Path::parent`. -/
def Path.parent : Path → Option Path
  | [] => none
  | part :: rest => some (part :: rest).dropLast

/-- The largest `u64`. -/
def u64Max : ℕ := 2 ^ 64 - 1

/-- The unit of disk sizes. -/
def chunkBytes : ℕ := 64 * 1024

/-- What a journal may take. -/
def logLimit : ℕ := 256 * 1024 * 1024

/-- What the cache of a volume may take. -/
def cacheBytes : ℕ := 64 * 1024 * 1024
/-- Compaction can hold both the original log and its replacement. -/
def journalBytes : ℕ := 2 * logLimit

/-- The size that a disk may have. -/
def maxDisk : ℕ := 64 * 1024 * 1024 * 1024

/-- How many records there may be. -/
def maxUnreclaimedRecords : ℕ := 1024
/-- What `read` accepts of a record file. -/
def maxRecordBytes : ℕ := 16384

/-- A digit of a lower-case hexadecimal number. -/
def lowerHex (c : Char) : Bool := c.isDigit || ('a' ≤ c && c ≤ 'f')

/-- `valid_id` of the service, also `project_digest`. -/
def validId (id : String) : Bool := id.length == 64 && id.toList.all lowerHex

/-- A process that cannot be taken for another one of its number. -/
structure Process where
  pid : ℕ
  start : ℕ
  boot : String
deriving DecidableEq, Repr

/-- Where the compaction of packs goes on. -/
structure CompactionCursor where
  page : ℕ
  afterPack : Option String
deriving DecidableEq, Repr

/-- `Record`: what the supervisor stores of a volume. -/
structure Record where
  id : String
  sandbox : Path
  image : Path
  imageHash : String
  logicalBytes : ℕ
  device : Path
  evicted : Bool
  prepared : Bool
  deleted : Bool
  reclaimed : Bool
  logicalReleased : Bool
  compactAfter : Option CompactionCursor
  compactRevision : Option String
  gcAfter : Option String
  gcEligible : Bool
  gcLastCompleted : Option ℕ
  desired : Bool
  worker : Option Process
  client : Option Process
  vm : Option Process
deriving DecidableEq, Repr

namespace Record

/-- The condition that several checks share: wanted by nobody and used by no process. -/
def busy (r : Record) : Bool :=
  r.desired || r.worker.isSome || r.client.isSome || r.vm.isSome

/-- The processes that the supervisor has started for the volume. -/
def processes (r : Record) : List Process := [r.worker, r.client].reduceOption

/-- The record of a volume whose processes are gone. -/
def stopped (r : Record) : Record := { r with worker := none, client := none, vm := none }

/-- `Record::load` on the value that a file holds. -/
def load (r : Record) : Result Record :=
  if r.reclaimed && (!r.deleted || r.busy) then .error "contradictory reclaimed record"
  else if r.reclaimed && (!r.logicalReleased || !r.evicted) then
    .error "contradictory reclaimed record"
  else .ok r

/-- The record keeps its device from other volumes. -/
def claims (r : Record) : Bool :=
  (!r.reclaimed && !r.evicted) || r.worker.isSome || r.client.isSome

end Record

/-- The limits of the configuration. -/
structure Limits where
  maxVolumeBytes : ℕ
  maxLogicalBytes : ℕ
  maxJournalBytes : ℕ
  maxCacheBytes : ℕ
deriving DecidableEq, Repr

/-- What the volumes take up. -/
structure Usage where
  retainedVolumes : ℕ
  logicalBytes : ℕ
  journalReservedBytes : ℕ
  cacheReservedBytes : ℕ
deriving DecidableEq, Repr

/-- `valid_size` -/
def validSize (size : ℕ) : Result Unit :=
  if size = 0 ∨ maxDisk < size ∨ size % chunkBytes ≠ 0 then .error "invalid reserved disk size"
  else .ok ()

/-- An addition that may overflow. -/
def checkedAdd (a b : ℕ) : Result ℕ :=
  if a + b ≤ u64Max then .ok (a + b) else .error "storage accounting overflow"

namespace Usage

/-- No volumes. -/
def empty : Usage := ⟨0, 0, 0, 0⟩

/-- `add_record`. -/
def addRecord (u : Usage) (size : ℕ) (resident retained : Bool) : Result Usage := do
  validSize size
  let retainedVolumes ← checkedAdd u.retainedVolumes (if retained then 1 else 0)
  let logicalBytes ← checkedAdd u.logicalBytes (if retained then size else 0)
  let journalReservedBytes ← checkedAdd u.journalReservedBytes
    (if resident then journalBytes else 0)
  let cacheReservedBytes ← checkedAdd u.cacheReservedBytes (if resident then cacheBytes else 0)
  return { retainedVolumes, logicalBytes, journalReservedBytes, cacheReservedBytes }

/-- `add_residency`. -/
def addResidency (u : Usage) (size : ℕ) (resident : Bool) : Result Usage :=
  u.addRecord size resident true

/-- `add`. -/
def add (u : Usage) (size : ℕ) : Result Usage := u.addResidency size true

/-- What the loops of the service do with one record. -/
def count (u : Usage) (r : Record) : Result Usage :=
  if r.reclaimed then .ok u else u.addRecord r.logicalBytes (!r.evicted) (!r.logicalReleased)

end Usage

/-- `Limits::validate`. -/
def Limits.validate (l : Limits) : Result Unit := do
  validSize l.maxVolumeBytes
  if l.maxLogicalBytes < l.maxVolumeBytes ∨ l.maxJournalBytes < journalBytes ∨
      l.maxCacheBytes < cacheBytes then
    throw "storage budgets must accommodate at least one volume"

/-- `Limits::admit`. -/
def Limits.admission (l : Limits) (used : Usage) (size : ℕ) : Result Unit := do
  if l.maxVolumeBytes < size then
    throw "per-volume logical capacity limit"
  let next ← used.add size
  if l.maxLogicalBytes < next.logicalBytes then
    throw "host logical capacity reservation exhausted"
  if l.maxJournalBytes < next.journalReservedBytes then
    throw "host journal reservation exhausted"
  if l.maxCacheBytes < next.cacheReservedBytes then
    throw "host cache reservation exhausted"

end AgentHouse.Host
