import AgentHouse.Lib.Blocks

/-!
# Errors, limits and stored documents

The types that `ahvm-volume` keeps in the object store and in an owner directory, with the
limits that its readers and writers check. A hash is written in the source as 64 lowercase
hex digits; here it is its raw bytes, so `valid_hash` is a length check. Documents that pass
through `serde_json` appear as the values it reads back; only their size is used otherwise.
-/

namespace AgentHouse.Volume

/-- Chunks, objects and manifests. -/
abbrev Bytes := List UInt8

/-- A digest, in its raw bytes. -/
abbrev Hash := Bytes

/-- The id of a volume or of a base image. -/
abbrev VolumeId := String

/-- What a head is replaced by. -/
abbrev Revision := String

/-- `std::collections::BTreeMap`: ordered iteration, equality by contents. -/
abbrev BTreeMap (K V : Type) [Ord K] := Std.ExtTreeMap K V compare

instance {K V : Type} [Ord K] [Std.TransOrd K] [Std.LawfulEqOrd K] [DecidableEq V] :
    DecidableEq (BTreeMap K V) :=
  inferInstanceAs (DecidableEq (Std.ExtTreeMap K V compare))

/-- The errors of the volume layer. -/
inductive Error where
  | backpressure
  | notReady
  | deadline
  | invalidInput
  | notFound
  | corrupt
  | conflict
  | store
  | uncertain
  | reopenRequired
  deriving DecidableEq, Repr

/-- A call of the volume layer. -/
abbrev Result (α : Type) := Except Error α

theorem Result.not_ok {α : Type} {e : Error} : ¬ ∃ a : α, (.error e : Result α) = .ok a := by
  rintro ⟨a, h⟩
  cases h

theorem Result.not_error {α : Type} {a : α} : ¬ ∃ e, (.ok a : Result α) = .error e := by
  rintro ⟨e, h⟩
  cases h

/-- `publication_error`: every failure of a publication but a conflict is ambiguous. -/
def publicationError : Error → Error
  | .conflict => .conflict
  | _ => .uncertain

/-- `CHUNK_BYTES` -/
def chunkBytes : ℕ := 64 * 1024

/-- `MAX_OBJECT_BYTES` -/
def maxObjectBytes : ℕ := 1024 * 1024

/-- `MAX_MANIFEST_BYTES` -/
def maxManifestBytes : ℕ := 128 * 1024

/-- The size that a volume may have. -/
def maxSize : ℕ := 64 * 1024 * 1024 * 1024

/-- What may be buffered. -/
def dirtyLimit : ℕ := 64 * 1024 * 1024

/-- What one call may read or write. -/
def writeLimit : ℕ := 32 * 1024 * 1024

/-- The slots of a page. -/
def slots : ℕ := 1024

/-- The length of a page with packs. -/
def packPageBytes : ℕ := 128 * 1024

/-- The length of its slots. -/
def packSlotBytes : ℕ := 72

theorem chunkBytes_pos : 0 < chunkBytes := by decide
theorem slots_pos : 0 < slots := by decide
theorem maxObjectBytes_eq : maxObjectBytes = 16 * chunkBytes := by decide

/-- `u64::checked_add`. -/
def checkedAdd (a b : ℕ) : Option ℕ := if a + b < 2 ^ 64 then some (a + b) else none

/-- `valid_hash` on a hash that is held as raw bytes. -/
def validHash (h : Hash) : Bool := h.length == 32

/-- `valid_id` -/
def validId (id : VolumeId) : Bool :=
  !id.isEmpty && decide (id.length ≤ 64) &&
    id.toList.all (fun c => c.isAlphanum || c == '-' || c == '_')

/-- The value of one lowercase hex digit. -/
def hexDigit (c : Char) : Option ℕ :=
  if '0' ≤ c ∧ c ≤ '9' then some (c.toNat - '0'.toNat)
  else if 'a' ≤ c ∧ c ≤ 'f' then some (c.toNat - 'a'.toNat + 10)
  else none

/-- Pairs of lowercase hex digits, high digit first. -/
def hexPairs : List Char → Option Bytes
  | [] => some []
  | [_] => none
  | a :: b :: rest => do
    let x ← hexDigit a
    let y ← hexDigit b
    let tail ← hexPairs rest
    return UInt8.ofNat (16 * x + y) :: tail

/-- `decode`: an image is named by 64 lowercase hex digits. -/
def decode (s : String) : Result Bytes :=
  if s.length = 64 then
    match hexPairs s.toList with
    | some bytes => .ok bytes
    | none => .error .corrupt
  else .error .corrupt

/-- The mark of a replication. -/
structure Replication where
  id : Hash
  sequence : ℕ
  deriving DecidableEq

/-- The base of a volume. -/
structure BaseRef where
  image : VolumeId
  catalog : Hash
  deriving DecidableEq

/-- `Root`: the manifest of a volume. -/
structure Root where
  format : ℕ
  volume : VolumeId
  size : ℕ
  generation : ℕ
  ready : Bool
  pages : BTreeMap ℕ Hash
  replication : Option Replication
  base : Option BaseRef
  deriving DecidableEq

/-- `Envelope`: a manifest with its owner. -/
structure Envelope where
  volume : VolumeId
  epoch : ℕ
  owner : Option Hash
  manifest : Root
  deriving DecidableEq

/-- `Tombstone`: the manifest of a retired volume. -/
structure Tombstone where
  volume : VolumeId
  deleted : Bool
  deriving DecidableEq

/-- The document under a volume's head key, told apart by its `format` field: 4 is an
ownership envelope, 5 a tombstone and every other number a disk map. -/
inductive Manifest where
  | root (r : Root)
  | envelope (e : Envelope)
  | tombstone (t : Tombstone)
  deriving DecidableEq

/-- A manifest under its revision. -/
structure Head where
  revision : Revision
  manifest : Manifest
  deriving DecidableEq

/-- The private identity file of an owner directory. -/
structure Identity where
  volume : VolumeId
  token : Hash
  epoch : ℕ
  deriving DecidableEq

/-- The header of a local journal. -/
structure Header where
  volume : VolumeId
  id : Hash
  base : Revision
  acknowledged : ℕ
  sequence : ℕ
  deriving DecidableEq

/-- What the development takes from outside the repository: the digest of `sha2`, the
documents of `serde_json`, and the revisions that the object store hands out. The `n`-th
publication of manifest `m` gets the revision `tag n m`; a revision names one content,
whether the store counts publications or derives it from the bytes as an ETag. The first
disk map of a volume, without pages, is a few hundred bytes of JSON. -/
structure Platform where
  digest : Bytes → Hash
  digest_length : ∀ b, (digest b).length = 32
  json : Manifest → Bytes
  json_blank : ∀ {format size : ℕ} {id : VolumeId} {ready : Bool}, format ≤ 11 → size ≤ maxSize →
    validId id = true →
    (json (.root ⟨format, id, size, 0, ready, ∅, none, none⟩)).length ≤ maxManifestBytes
  tag : ℕ → Manifest → Revision
  tag_ne_empty : ∀ n m, tag n m ≠ ""
  tag_inj : ∀ {n n' m m'}, tag n m = tag n' m' → n = n' ∨ m = m'
  headerJson : Header → Bytes
  parseHeader : Bytes → Option Header
  parseHeader_headerJson : ∀ h, parseHeader (headerJson h) = some h
  identityJson : Identity → Bytes
  parseIdentity : Bytes → Option Identity
  parseIdentity_identityJson : ∀ i, parseIdentity (identityJson i) = some i

/-- The digest behaves ideally on a set of byte strings: it has no collision there and
never yields the all-zero pattern that marks a hole. -/
structure Platform.Ideal (P : Platform) (S : Set Bytes) : Prop where
  inj : ∀ {a b}, a ∈ S → b ∈ S → P.digest a = P.digest b → a = b
  ne_zero : ∀ {a}, a ∈ S → P.digest a ≠ List.replicate 32 0

end AgentHouse.Volume
