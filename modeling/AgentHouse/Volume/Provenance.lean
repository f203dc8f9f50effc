import AgentHouse.Volume.Formats
import AgentHouse.Lib.Files

/-!
# The provenance of a project image

An exported project image is the bytes of its filesystem followed by one block, the trailer, that
names where the image comes from. `trailer` and `decode_trailer` are inverse to each other on the
blocks that are accepted, and `finalize_export` appends the trailer behind the extent that the
ext4 superblock declares. Text is kept as the bytes of its UTF-8 encoding.
-/

namespace AgentHouse.Volume

open AgentHouse.Files

/-- Text that is written as a literal. -/
def ascii (s : String) : Bytes := s.toList.map fun c => UInt8.ofNat c.toNat

/-- `PROJECT_IMAGE_TRAILER_BYTES` -/
def projectImageTrailerBytes : ℕ := 65536

/-- `PROJECT_IMAGE_MAX_BYTES` -/
def projectImageMaxBytes : ℕ := 64 * 1024 * 1024 * 1024

/-- The magic number of a trailer. -/
def projectMagic : Bytes := ascii "AHVMPJ01"

/-- The length of a trailer's header. -/
def headerBytes : ℕ := 16

/-- The length that metadata may have. -/
def maxMetadataBytes : ℕ := 4096

/-! ## Metadata -/

/-- `ProjectImageMetadata` -/
structure ProjectImageMetadata where
  schema : ℕ
  tenantId : Bytes
  projectId : Bytes
  buildId : Bytes
  sourceCommit : Bytes
  baseImageDigest : Bytes
  baseContentDigest : Bytes
  revisionId : Bytes
  installHookDigest : Option Bytes
  startHookDigest : Option Bytes
  canonicalWorkdir : Bytes
  deriving DecidableEq, Repr

/-- A lowercase hex digit. -/
def lowerHex (b : UInt8) : Bool := (48 ≤ b && b ≤ 57) || (97 ≤ b && b ≤ 102)

/-- `project_uuid` -/
def projectUuid (value : Bytes) : Bool :=
  value.length = 36 && value.zipIdx.all fun (b, i) =>
    if i ∈ [8, 13, 18, 23] then b = 45 else lowerHex b

/-- `project_digest` -/
def projectDigest (value : Bytes) : Bool := value.length = 64 && value.all lowerHex

namespace ProjectImageMetadata

variable (m : ProjectImageMetadata)

/-- What `validate` accepts. -/
def validate : Bool :=
  m.schema = 1 && projectUuid m.tenantId && projectUuid m.projectId && projectUuid m.buildId &&
    m.sourceCommit.length ∈ [40, 64] && m.sourceCommit.all lowerHex &&
    projectDigest m.baseImageDigest && projectDigest m.baseContentDigest &&
    projectDigest m.revisionId && m.installHookDigest.all projectDigest &&
    m.startHookDigest.all projectDigest && m.canonicalWorkdir = ascii "/workspace/project"

end ProjectImageMetadata

/-! ## The document -/

/-- A digit of a lower-case hexadecimal number. -/
def lowerDigit (n : ℕ) : UInt8 := UInt8.ofNat (if n < 10 then 48 + n else 87 + n)

/-- A byte inside a quoted text, as `serde_json` writes it. -/
def escapeByte (b : UInt8) : Bytes :=
  if b = 34 then ascii "\\\""
  else if b = 92 then ascii "\\\\"
  else if b = 8 then ascii "\\b"
  else if b = 9 then ascii "\\t"
  else if b = 10 then ascii "\\n"
  else if b = 12 then ascii "\\f"
  else if b = 13 then ascii "\\r"
  else if b < 32 then ascii "\\u00" ++ [lowerDigit (b.toNat / 16), lowerDigit (b.toNat % 16)]
  else [b]

/-- A string as JSON writes it. -/
def quoteBytes (s : Bytes) : Bytes := [34] ++ s.flatMap escapeByte ++ [34]

/-- A missing text is written as `null`. -/
def quoteOption : Option Bytes → Bytes
  | none => ascii "null"
  | some s => quoteBytes s

/-- `serde_json::to_vec`: the fields in the order of the structure, without blanks. -/
def ProjectImageMetadata.toVec (m : ProjectImageMetadata) : Bytes :=
  ascii "\x7b\"schema\":" ++ ascii (toString m.schema) ++
  ascii ",\"tenant_id\":" ++ quoteBytes m.tenantId ++
  ascii ",\"project_id\":" ++ quoteBytes m.projectId ++
  ascii ",\"build_id\":" ++ quoteBytes m.buildId ++
  ascii ",\"source_commit\":" ++ quoteBytes m.sourceCommit ++
  ascii ",\"base_image_digest\":" ++ quoteBytes m.baseImageDigest ++
  ascii ",\"base_content_digest\":" ++ quoteBytes m.baseContentDigest ++
  ascii ",\"revision_id\":" ++ quoteBytes m.revisionId ++
  ascii ",\"install_hook_digest\":" ++ quoteOption m.installHookDigest ++
  ascii ",\"start_hook_digest\":" ++ quoteOption m.startHookDigest ++
  ascii ",\"canonical_workdir\":" ++ quoteBytes m.canonicalWorkdir ++ ascii "\x7d"

/-- `canonical_bytes` -/
def ProjectImageMetadata.canonicalBytes (m : ProjectImageMetadata) : Option Bytes :=
  if m.validate && m.toVec.length ≤ 4096 then some m.toVec else none

/-! ## The trailer -/

/-- The sum is a `checked_add`. -/
def logicalBytes (sourceBytes : ℕ) : Result ℕ :=
  if sourceBytes + projectImageTrailerBytes ≥ 2 ^ 64 then .error .invalidInput
  else if sourceBytes = 0 ∨ sourceBytes % chunkBytes ≠ 0 ∨
      sourceBytes + projectImageTrailerBytes > projectImageMaxBytes then .error .invalidInput
  else .ok (sourceBytes + projectImageTrailerBytes)

/-- The buffer of zeros with the magic, the length and the document copied into it. -/
def trailer (m : ProjectImageMetadata) : Result Bytes :=
  match m.canonicalBytes with
  | none => .error .invalidInput
  | some json =>
    .ok (projectMagic ++ beBytes 4 (json.length % 2 ^ 32) ++ List.replicate 4 0 ++ json ++
      List.replicate (projectImageTrailerBytes - headerBytes - json.length) 0)

/-- The parser of `serde_json` is a parameter. -/
def decodeTrailer (parse : Bytes → Option ProjectImageMetadata) (bytes : Bytes) :
    Result ProjectImageMetadata :=
  if bytes.length ≠ projectImageTrailerBytes ∨ bytes.take 8 ≠ projectMagic ∨
      (slice bytes 12 4).any (· ≠ 0) then .error .corrupt
  else
    let length := ofBe (slice bytes 8 4)
    if ¬ (1 ≤ length ∧ length ≤ maxMetadataBytes) ∨
        (bytes.drop (headerBytes + length)).any (· ≠ 0) then .error .corrupt
    else
      match parse (slice bytes headerBytes length) with
      | none => .error .corrupt
      | some metadata =>
        match metadata.canonicalBytes with
        | none => .error .corrupt
        | some canonical =>
          if canonical ≠ slice bytes headerBytes length then .error .corrupt else .ok metadata

theorem length_toVec_pos (m : ProjectImageMetadata) : 0 < m.toVec.length := by
  have hend : ascii "\x7d" ≠ [] := by decide
  exact List.length_pos_iff.mpr (List.append_ne_nil_of_right_ne_nil _ hend)

/-- What the canonical bytes are, and when there are any. -/
theorem canonicalBytes_eq_some {m : ProjectImageMetadata} {json : Bytes}
    (h : m.canonicalBytes = some json) :
    m.validate = true ∧ json = m.toVec ∧ 1 ≤ json.length ∧ json.length ≤ maxMetadataBytes := by
  unfold ProjectImageMetadata.canonicalBytes at h
  split at h
  · rename_i hok
    obtain rfl := Option.some.inj h
    rw [Bool.and_eq_true, decide_eq_true_iff] at hok
    exact ⟨hok.1, rfl, length_toVec_pos m, hok.2⟩
  · cases h

theorem length_projectMagic : projectMagic.length = 8 := by decide

theorem any_ne_zero_eq_false {l : Bytes} (h : l.any (· ≠ 0) = false) :
    l = List.replicate l.length 0 := by
  refine List.eq_replicate_iff.mpr ⟨rfl, fun b hb => ?_⟩
  have := List.any_eq_false.mp h b hb
  simpa using this

theorem any_ne_zero_replicate (n : ℕ) :
    (List.replicate n (0 : UInt8)).any (· ≠ 0) = false := by
  refine List.any_eq_false.mpr fun b hb => ?_
  simp [List.eq_of_mem_replicate hb]

/-- The block of a document. -/
def framed (json : Bytes) : Bytes :=
  projectMagic ++ beBytes 4 (json.length % 2 ^ 32) ++ List.replicate 4 0 ++ json ++
    List.replicate (projectImageTrailerBytes - headerBytes - json.length) 0

section

variable {json : Bytes} (hlen : json.length ≤ maxMetadataBytes)
include hlen

/-- A trailer has its length. -/
theorem length_framed : (framed json).length = projectImageTrailerBytes := by
  unfold framed projectImageTrailerBytes headerBytes
  unfold maxMetadataBytes at hlen
  simp only [List.length_append, length_projectMagic, length_beBytes, List.length_replicate]
  omega

omit hlen in
/-- It begins with its magic. -/
theorem framed_magic : (framed json).take 8 = projectMagic := by
  simp only [framed, List.append_assoc]
  rw [← length_projectMagic, List.take_left]

omit hlen in
/-- The parts of a block, each behind its predecessors. -/
theorem framed_parts :
    slice (framed json) 8 4 = beBytes 4 (json.length % 2 ^ 32) ∧
    slice (framed json) 12 4 = List.replicate 4 0 ∧
    slice (framed json) headerBytes json.length = json ∧
    (framed json).drop (headerBytes + json.length) =
      List.replicate (projectImageTrailerBytes - headerBytes - json.length) 0 := by
  have hmagic := length_projectMagic
  have hbe : (beBytes 4 (json.length % 2 ^ 32)).length = 4 := length_beBytes _ _
  have hzeros : (List.replicate 4 (0 : UInt8)).length = 4 := List.length_replicate
  unfold framed headerBytes
  generalize beBytes 4 (json.length % 2 ^ 32) = be at hbe ⊢
  generalize projectMagic = magic at hmagic ⊢
  generalize List.replicate 4 (0 : UInt8) = zeros at hzeros ⊢
  generalize List.replicate (projectImageTrailerBytes - 16 - json.length) (0 : UInt8) = pad
  refine ⟨?_, ?_, ?_, ?_⟩
  · rw [slice_append_left (by simp; omega), slice_append_left (by simp; omega),
      slice_append_left (by simp; omega), slice_append_right (by omega), hmagic,
      slice_eq_self hbe]
  · rw [slice_append_left (by simp; omega), slice_append_left (by simp; omega),
      slice_append_right (by simp; omega), List.length_append, hmagic, hbe,
      slice_eq_self hzeros]
  · rw [slice_append_left (by simp; omega), slice_append_right (by simp; omega),
      List.length_append, List.length_append, hmagic, hbe, hzeros, slice_eq_self rfl]
  · have hhead : (magic ++ be ++ zeros ++ json).length = 16 + json.length := by
      simp only [List.length_append]
      omega
    rw [← hhead, List.drop_left]

end

/-- The trailer of valid metadata. -/
theorem trailer_eq_ok {m : ProjectImageMetadata} {b : Bytes} (h : trailer m = .ok b) :
    m.canonicalBytes = some m.toVec ∧ b = framed m.toVec := by
  unfold trailer at h
  split at h
  · cases h
  · rename_i json hjson
    have hdoc := (canonicalBytes_eq_some hjson).2.1
    rw [Except.ok.injEq] at h
    refine ⟨hjson.trans (congrArg some hdoc), ?_⟩
    unfold framed
    rw [← hdoc, ← h]

/-- And every valid one has a trailer. -/
theorem exists_trailer {m : ProjectImageMetadata} {json : Bytes}
    (h : m.canonicalBytes = some json) : ∃ b, trailer m = .ok b := by
  unfold trailer
  rw [h]
  exact ⟨_, rfl⟩

section

variable {parse : Bytes → Option ProjectImageMetadata}

/-- What `trailer` produces is read back. -/
theorem decodeTrailer_trailer {m : ProjectImageMetadata} {b : Bytes} (h : trailer m = .ok b)
    (hparse : parse m.toVec = some m) : decodeTrailer parse b = .ok m := by
  obtain ⟨hjson, rfl⟩ := trailer_eq_ok h
  obtain ⟨-, -, hpos, hle⟩ := canonicalBytes_eq_some hjson
  obtain ⟨hlength, hreserved, hdoc, hpad⟩ := @framed_parts m.toVec
  have hmod : m.toVec.length % 2 ^ 32 = m.toVec.length := by
    unfold maxMetadataBytes at hle
    exact Nat.mod_eq_of_lt (by omega)
  have hof : ofBe (beBytes 4 m.toVec.length) = m.toVec.length := by
    unfold maxMetadataBytes at hle
    exact ofBe_beBytes (by omega)
  unfold decodeTrailer
  rw [if_neg (by
    rw [framed_magic, hreserved, length_framed hle, any_ne_zero_replicate]
    simp)]
  simp only [hlength, hmod, hof, hpad, hdoc, hparse, hjson, any_ne_zero_replicate]
  rw [if_neg (by simp [hpos, hle]), if_neg (by simp)]

/-- What is accepted is the block of its document. -/
theorem trailer_decodeTrailer {m : ProjectImageMetadata} {b : Bytes}
    (h : decodeTrailer parse b = .ok m) : trailer m = .ok b := by
  unfold decodeTrailer at h
  split at h
  · cases h
  rename_i hhead
  simp only at h
  split at h
  · cases h
  rename_i hbody
  split at h
  · cases h
  rename_i metadata hmeta
  split at h
  · cases h
  rename_i canonical hcanonical
  split at h
  · cases h
  rename_i heq
  cases h
  simp only [not_or, not_not, Bool.not_eq_true] at hhead hbody heq
  obtain ⟨hlen, hmagic, hreserved⟩ := hhead
  obtain ⟨⟨hpos, hle⟩, hpad⟩ := hbody
  unfold projectImageTrailerBytes at hlen
  unfold maxMetadataBytes at hle
  have hjson : (slice b headerBytes (ofBe (slice b 8 4))).length = ofBe (slice b 8 4) := by
    rw [length_slice, hlen]
    unfold headerBytes
    omega
  have hword : beBytes 4 (ofBe (slice b 8 4)) = slice b 8 4 := by
    have h4 : (slice b 8 4).length = 4 := by
      rw [length_slice, hlen]
      rfl
    have := beBytes_ofBe (slice b 8 4)
    rwa [h4] at this
  have hzeros := any_ne_zero_eq_false hreserved
  have hrest := any_ne_zero_eq_false hpad
  rw [length_slice, hlen] at hzeros
  rw [List.length_drop, hlen] at hrest
  have hmod : ofBe (slice b 8 4) % 2 ^ 32 = ofBe (slice b 8 4) := Nat.mod_eq_of_lt (by omega)
  unfold trailer
  rw [hcanonical, heq]
  simp only [hjson, hmod, hword]
  rw [← hmagic]
  have hsplit : ∀ n k, slice b n k ++ b.drop (n + k) = b.drop n := by
    intro n k
    rw [slice, ← List.drop_drop, List.take_append_drop]
  have hpad' : List.replicate (projectImageTrailerBytes - headerBytes - ofBe (slice b 8 4)) 0 =
      b.drop (headerBytes + ofBe (slice b 8 4)) := by
    rw [hrest, projectImageTrailerBytes, Nat.sub_sub]
  have hzeros' : List.replicate 4 0 = slice b 12 4 := hzeros.symm
  rw [hpad', hzeros']
  simp only [List.append_assoc]
  rw [hsplit headerBytes]
  have h12 := hsplit 12 4
  have h8 := hsplit 8 4
  rw [show headerBytes = 12 + 4 from rfl, h12, h8, List.take_append_drop]

end

/-! ## The extent of the filesystem -/

/-- `from_le_bytes`. -/
def ofLe (l : Bytes) : ℕ := ofBe l.reverse

/-- The field of four bytes at an offset. -/
def le32 (superblock : Bytes) (offset : ℕ) : ℕ := ofLe (slice superblock offset 4)

/-- `u64::checked_mul`. -/
def checkedMul (a b : ℕ) : Option ℕ := if a * b < 2 ^ 64 then some (a * b) else none

/-- What is read of the superblock. -/
def superblockBytes : ℕ := 0x158

/-- The count of blocks, with its upper half. -/
def superblockBlocks (superblock : Bytes) : ℕ :=
  le32 superblock 0x4 ||| le32 superblock 0x150 <<< 32

/-- What `ext4_bytes` makes of the superblock. -/
def superblockExtent (superblock : Bytes) (sourceBytes : ℕ) : Result ℕ :=
  if ofLe (slice superblock 0x38 2) ≠ 0xef53 then .error .corrupt
  else if le32 superblock 0x18 > 6 then .error .corrupt
  else if le32 superblock 0x150 ≠ 0 ∧ le32 superblock 0x60 &&& 0x80 = 0 then .error .corrupt
  else
    match checkedMul (superblockBlocks superblock) (1024 <<< le32 superblock 0x18) with
    | none => .error .corrupt
    | some size =>
      if superblockBlocks superblock ≤ le32 superblock 0x14 ∨ size < 2048 ∨ size > sourceBytes ∨
          (le32 superblock 0x18 = 0 ∧ le32 superblock 0x14 ≠ 1) ∨
          (le32 superblock 0x18 ≠ 0 ∧ le32 superblock 0x14 ≠ 0) then .error .corrupt
      else .ok size

/-! ## Files -/

/-- A computation on an open file. -/
abbrev Io (α : Type) := File → Result α × File

namespace Io

variable {α β : Type}

/-- A result that does not need the file. -/
def pure (a : α) : Io α := fun f => (.ok a, f)

/-- The file goes on with what was read. -/
def bind (x : Io α) (k : α → Io β) : Io β := fun f =>
  match x f with
  | (.ok a, g) => k a g
  | (.error e, g) => (.error e, g)

instance : Monad Io where
  pure := pure
  bind := bind

/-- A result that needs no file. -/
def ofResult (r : Result α) : Io α := fun f => (r, f)

/-- A call whose failures become the error `e`. -/
def call (e : Error) (x : File → Except Failure α × File) : Io α := fun f =>
  match x f with
  | (.ok a, g) => (.ok a, g)
  | (.error _, g) => (.error e, g)

/-- What a computation that succeeds has done. -/
theorem bind_eq_ok {x : Io α} {k : α → Io β} {f g : File} {b : β} :
    (x >>= k) f = (.ok b, g) ↔ ∃ a h, x f = (.ok a, h) ∧ k a h = (.ok b, g) := by
  show bind x k f = _ ↔ _
  unfold bind
  rcases x f with ⟨_ | a, h⟩
  · simp
  · simp

theorem pure_eq_ok {a b : α} {f g : File} :
    (Pure.pure a : Io α) f = (.ok b, g) ↔ a = b ∧ f = g := by
  show pure a f = _ ↔ _
  simp [pure]

theorem ofResult_eq_ok {r : Result α} {f g : File} {a : α} :
    ofResult r f = (.ok a, g) ↔ r = .ok a ∧ f = g := by
  simp [ofResult]

/-- A call that succeeds is one of the file. -/
theorem call_eq_ok {e : Error} {x : File → Except Failure α × File} {f g : File} {a : α} :
    call e x f = (.ok a, g) ↔ x f = (.ok a, g) := by
  unfold call
  rcases x f with ⟨_ | b, h⟩
  · simp
  · simp

end Io

/-- What `File::metadata` tells. -/
structure Stat where
  isFile : Bool
  len : ℕ
  modified : Option ℕ

/-- The metadata of the file. -/
def stat : Io Stat := do
  Io.call .store File.call
  fun f => (.ok ⟨f.regular, f.data.length, f.modified⟩, f)

/-- `ext4_bytes`: the extent of the file system in the image. -/
def ext4Bytes (sourceBytes : ℕ) : Io ℕ := do
  let _ ← Io.ofResult (logicalBytes sourceBytes)
  Io.call .store (File.seek · 1024)
  let superblock ← Io.call .corrupt (File.readExact · superblockBytes)
  Io.ofResult (superblockExtent superblock sourceBytes)

/-- The loop of `hash_file`: what it has hashed, and its length. -/
def hashLoop (f : File) (hashed : Bytes) (read : ℕ) : Result (Bytes × ℕ) × File :=
  match _hread : f.read chunkBytes with
  | (.error _, g) => (.error .store, g)
  | (.ok [], g) => (.ok (hashed, read), g)
  | (.ok (b :: bytes), g) =>
    match checkedAdd read (b :: bytes).length with
    | none => (.error .corrupt, g)
    | some read => hashLoop g (hashed ++ b :: bytes) read
termination_by f.data.length - f.pos
decreasing_by
  obtain ⟨hbytes, hdata, hpos, -, -, -⟩ := File.read_ok _hread
  have hlen := congrArg List.length hbytes
  rw [length_slice, List.length_cons] at hlen
  rw [hdata, hpos, List.length_cons]
  omega

section

-- SHA-256 as lowercase hex digits, and the parser of `serde_json`.
variable (sha256 : Bytes → Bytes) (parse : Bytes → Option ProjectImageMetadata)

/-- `hash_file`: the file must not change meanwhile. -/
def hashFile : Io Bytes := do
  let before ← stat
  if ¬ before.isFile then Io.ofResult (.error .invalidInput)
  else
    Io.call .store (File.seek · 0)
    let (hashed, read) ← fun f => hashLoop f [] 0
    let after ← stat
    if read ≠ before.len ∨ after.len ≠ before.len ∨ after.modified ≠ before.modified then
      Io.ofResult (.error .conflict)
    else pure (sha256 hashed)

/-- What an export or a check finds out. -/
structure VerifiedImage where
  digest : Bytes
  logicalBytes : ℕ
  filesystemBytes : ℕ
  deriving DecidableEq, Repr

/-- `finalize_export`: the trailer is appended to the exported image. -/
def finalizeExport (sourceBytes : ℕ) (exportSha256 : Bytes) (metadata : ProjectImageMetadata) :
    Io VerifiedImage := do
  let logicalBytes ← Io.ofResult (logicalBytes sourceBytes)
  let trailer ← Io.ofResult (trailer metadata)
  if ¬ projectDigest exportSha256 then Io.ofResult (.error .invalidInput)
  else
    let found ← stat
    if found.len ≠ sourceBytes then Io.ofResult (.error .invalidInput)
    else
      let filesystemBytes ← ext4Bytes sourceBytes
      let hash ← hashFile sha256
      if hash ≠ exportSha256 then Io.ofResult (.error .corrupt)
      else
        Io.call .store (File.seek · sourceBytes)
        Io.call .store (File.writeAll · trailer)
        Io.call .store File.call
        let written ← stat
        if written.len ≠ logicalBytes then Io.ofResult (.error .corrupt)
        else
          let digest ← hashFile sha256
          pure ⟨digest, logicalBytes, filesystemBytes⟩

/-- The part of an image in front of its trailer. The difference is a `checked_sub`. -/
def imageSource (total : ℕ) : Result ℕ :=
  if total < projectImageTrailerBytes then .error .corrupt
  else
    match logicalBytes (total - projectImageTrailerBytes) with
    | .error _ => .error .corrupt
    | .ok logical =>
      if logical ≠ total then .error .corrupt else .ok (total - projectImageTrailerBytes)

/-- `read_metadata`: the trailer of an image. -/
def readMetadata : Io ProjectImageMetadata := do
  let found ← stat
  let source ← Io.ofResult (imageSource found.len)
  let _ ← ext4Bytes source
  Io.call .store (File.seek · source)
  let bytes ← Io.call .corrupt (File.readExact · projectImageTrailerBytes)
  Io.ofResult (decodeTrailer parse bytes)

end

/-! ## What the calls leave -/

/-- The later file has the same contents and no further failures. -/
structure Same (f g : File) : Prop where
  data : g.data = f.data
  regular : g.regular = f.regular
  modified : g.modified = f.modified
  fates : g.fates ⊆ f.fates

namespace Same

variable {f g h : File}

theorem trans (hfg : Same f g) (hgh : Same g h) : Same f h :=
  ⟨hgh.data.trans hfg.data, hgh.regular.trans hfg.regular, hgh.modified.trans hfg.modified,
    List.Subset.trans hgh.fates hfg.fates⟩

theorem call (f : File) : Same f f.call.2 :=
  ⟨f.call_data, f.call_regular, f.call_modified, f.call_fates_subset⟩

end Same

section

variable {f g : File}

/-- A seek changes the position only. -/
theorem seek_ok {pos : ℕ} {u : Unit} (h : f.seek pos = (.ok u, g)) : Same f g ∧ g.pos = pos := by
  have hcall := Same.call f
  unfold File.seek at h
  split at h
  · rename_i g' heq
    cases h
    rw [heq] at hcall
    exact ⟨⟨hcall.data, hcall.regular, hcall.modified, hcall.fates⟩, rfl⟩
  · rename_i hne
    exact absurd h (hne _)

/-- What the file is, without a change. -/
theorem stat_ok {s : Stat} (h : stat f = (.ok s, g)) :
    s = ⟨f.regular, f.data.length, f.modified⟩ ∧ Same f g := by
  have hcall := Same.call f
  obtain ⟨u, g', heq, hret⟩ := Io.bind_eq_ok.mp h
  rw [Io.call_eq_ok] at heq
  rw [heq] at hcall
  cases hret
  exact ⟨by rw [hcall.regular, hcall.data, hcall.modified], hcall⟩

/-- A read changes no content. -/
theorem readExact_same {n : ℕ} {bytes : Bytes} (h : f.readExact n = (.ok bytes, g)) :
    bytes = slice f.data f.pos n ∧ Same f g := by
  obtain ⟨hbytes, -, hdata, hregular, hmodified, hfates⟩ := File.readExact_ok h
  exact ⟨hbytes, hdata, hregular, hmodified, hfates⟩

/-- The extent that the superblock says. -/
theorem ext4Bytes_ok {source n : ℕ} (h : ext4Bytes source f = (.ok n, g)) :
    superblockExtent (slice f.data 1024 superblockBytes) source = .ok n ∧ Same f g := by
  obtain ⟨total, f₁, hlogical, h⟩ := Io.bind_eq_ok.mp h
  obtain ⟨-, rfl⟩ := Io.ofResult_eq_ok.mp hlogical
  obtain ⟨u, f₂, hseek, h⟩ := Io.bind_eq_ok.mp h
  obtain ⟨hsame, hpos⟩ := seek_ok (Io.call_eq_ok.mp hseek)
  obtain ⟨superblock, f₃, hread, h⟩ := Io.bind_eq_ok.mp h
  obtain ⟨rfl, hsame'⟩ := readExact_same (Io.call_eq_ok.mp hread)
  obtain ⟨hextent, rfl⟩ := Io.ofResult_eq_ok.mp h
  rw [hsame.data, hpos] at hextent
  exact ⟨hextent, hsame.trans hsame'⟩

/-- The loop hashes what is left of the file. -/
theorem hashLoop_ok {hashed all : Bytes} {read n : ℕ}
    (h : hashLoop f hashed read = (.ok (all, n), g)) :
    all = hashed ++ f.data.drop f.pos ∧ Same f g := by
  induction f, hashed, read using hashLoop.induct generalizing g with
  | case1 f hashed read e f₁ hread =>
    rw [hashLoop] at h
    split at h <;> simp_all
  | case2 f hashed read f₁ hread =>
    have hend := File.read_eq_nil chunkBytes_pos hread
    obtain ⟨-, hdata, -, hregular, hmodified, hfates⟩ := File.read_ok hread
    have hloop : hashLoop f hashed read = (.ok (hashed, read), f₁) := by
      rw [hashLoop]
      split <;> simp_all
    rw [hloop] at h
    cases h
    rw [List.drop_eq_nil_of_le hend, List.append_nil]
    exact ⟨rfl, hdata, hregular, hmodified, hfates⟩
  | case3 f hashed read b bytes f₁ hread hadd =>
    rw [hashLoop] at h
    split at h <;> simp_all
  | case4 f hashed read b bytes f₁ hread read' hadd ih =>
    obtain ⟨hbytes, hdata, hpos, hregular, hmodified, hfates⟩ := File.read_ok hread
    have hloop : hashLoop f hashed read = hashLoop f₁ (hashed ++ b :: bytes) read' := by
      rw [hashLoop]
      split <;> simp_all
    rw [hloop] at h
    obtain ⟨hall, hsame⟩ := ih h
    refine ⟨?_, Same.trans ⟨hdata, hregular, hmodified, hfates⟩ hsame⟩
    rw [hall, List.append_assoc, ← File.drop_read hread]

/-- The digest of the whole file. -/
theorem hashFile_ok {sha256 : Bytes → Bytes} {digest : Bytes}
    (h : hashFile sha256 f = (.ok digest, g)) : digest = sha256 f.data ∧ Same f g := by
  obtain ⟨before, f₁, hbefore, h⟩ := Io.bind_eq_ok.mp h
  obtain ⟨-, hsame₁⟩ := stat_ok hbefore
  split at h
  · cases (Io.ofResult_eq_ok.mp h).1
  obtain ⟨u, f₂, hseek, h⟩ := Io.bind_eq_ok.mp h
  obtain ⟨hsame₂, hpos⟩ := seek_ok (Io.call_eq_ok.mp hseek)
  obtain ⟨⟨hashed, read⟩, f₃, hloop, h⟩ := Io.bind_eq_ok.mp h
  obtain ⟨hhashed, hsame₃⟩ := hashLoop_ok hloop
  obtain ⟨after, f₄, hafter, h⟩ := Io.bind_eq_ok.mp h
  obtain ⟨-, hsame₄⟩ := stat_ok hafter
  split at h
  · cases (Io.ofResult_eq_ok.mp h).1
  obtain ⟨rfl, rfl⟩ := Io.pure_eq_ok.mp h
  rw [hpos, List.drop_zero, List.nil_append, hsame₂.data, hsame₁.data] at hhashed
  exact ⟨by rw [hhashed], ((hsame₁.trans hsame₂).trans hsame₃).trans hsame₄⟩

/-- An export that succeeds has appended the trailer behind the verified source. -/
theorem finalizeExport_ok {sha256 : Bytes → Bytes} {source : ℕ} {exported : Bytes}
    {metadata : ProjectImageMetadata} {v : VerifiedImage}
    (h : finalizeExport sha256 source exported metadata f = (.ok v, g)) :
    ∃ b, trailer metadata = .ok b ∧ f.data.length = source ∧ exported = sha256 f.data ∧
      g.data = f.data ++ b ∧ logicalBytes source = .ok v.logicalBytes ∧
      superblockExtent (slice f.data 1024 superblockBytes) source = .ok v.filesystemBytes ∧
      v.digest = sha256 g.data := by
  obtain ⟨total, f₁, hfirst, h⟩ := Io.bind_eq_ok.mp h
  obtain ⟨hlogical, rfl⟩ := Io.ofResult_eq_ok.mp hfirst
  obtain ⟨b, f₁, hsecond, h⟩ := Io.bind_eq_ok.mp h
  obtain ⟨htrailer, rfl⟩ := Io.ofResult_eq_ok.mp hsecond
  split at h
  · cases (Io.ofResult_eq_ok.mp h).1
  obtain ⟨found, f₁, hfound, h⟩ := Io.bind_eq_ok.mp h
  obtain ⟨rfl, hsame₁⟩ := stat_ok hfound
  split at h
  · cases (Io.ofResult_eq_ok.mp h).1
  rename_i hlen
  have hlen : f.data.length = source := not_not.mp hlen
  obtain ⟨n, f₂, hext, h⟩ := Io.bind_eq_ok.mp h
  obtain ⟨hextent, hsame₂⟩ := ext4Bytes_ok hext
  obtain ⟨hash, f₃, hhash, h⟩ := Io.bind_eq_ok.mp h
  obtain ⟨rfl, hsame₃⟩ := hashFile_ok hhash
  split at h
  · cases (Io.ofResult_eq_ok.mp h).1
  rename_i hequal
  obtain ⟨u, f₄, hseek, h⟩ := Io.bind_eq_ok.mp h
  obtain ⟨hsame₄, hpos⟩ := seek_ok (Io.call_eq_ok.mp hseek)
  obtain ⟨u, f₅, hwrite, h⟩ := Io.bind_eq_ok.mp h
  have hbefore : f₄.data = f.data := by
    rw [hsame₄.data, hsame₃.data, hsame₂.data, hsame₁.data]
  obtain ⟨hdata, -, -⟩ := File.writeAll_ok (Io.call_eq_ok.mp hwrite) (by rw [hpos, hbefore, hlen])
  obtain ⟨u, f₆, hsync, h⟩ := Io.bind_eq_ok.mp h
  have hsame₆ := Same.call f₅
  rw [Io.call_eq_ok.mp hsync] at hsame₆
  obtain ⟨written, f₇, hwritten, h⟩ := Io.bind_eq_ok.mp h
  obtain ⟨-, hsame₇⟩ := stat_ok hwritten
  split at h
  · cases (Io.ofResult_eq_ok.mp h).1
  obtain ⟨digest, f₈, hdigest, h⟩ := Io.bind_eq_ok.mp h
  obtain ⟨rfl, hsame₈⟩ := hashFile_ok hdigest
  obtain ⟨rfl, rfl⟩ := Io.pure_eq_ok.mp h
  refine ⟨b, htrailer, hlen, ?_, ?_, hlogical, ?_, ?_⟩
  · rw [← not_not.mp hequal, hsame₂.data, hsame₁.data]
  · rw [hsame₈.data, hsame₇.data, hsame₆.data, hdata, hbefore]
  · rw [← hsame₁.data]
    exact hextent
  · simp only
    rw [hsame₈.data]

/-- The logical size has room for the trailer. -/
theorem logicalBytes_ok {source total : ℕ} (h : logicalBytes source = .ok total) :
    total = source + projectImageTrailerBytes ∧ chunkBytes ≤ source := by
  unfold logicalBytes at h
  split at h
  · cases h
  split at h
  · cases h
  rename_i hcheck
  simp only [not_or, not_not] at hcheck
  have hdvd : chunkBytes ∣ source := Nat.dvd_of_mod_eq_zero hcheck.2.1
  exact ⟨(Except.ok.inj h).symm, Nat.le_of_dvd (Nat.pos_of_ne_zero hcheck.1) hdvd⟩

theorem le32_lt (superblock : Bytes) (offset : ℕ) : le32 superblock offset < 2 ^ 32 := by
  have hlt := ofBe_lt (slice superblock offset 4).reverse
  have hle : 256 ^ (slice superblock offset 4).reverse.length ≤ 256 ^ 4 := by
    refine Nat.pow_le_pow_right (by decide) ?_
    rw [List.length_reverse, length_slice]
    exact min_le_left _ _
  unfold le32 ofLe
  omega

/-- The extent is the declared number of blocks times their size, without any wrapping, and lies
within the source. -/
theorem superblockExtent_ok {superblock : Bytes} {source n : ℕ}
    (h : superblockExtent superblock source = .ok n) :
    n = (le32 superblock 0x4 + 2 ^ 32 * le32 superblock 0x150) *
        (1024 * 2 ^ le32 superblock 0x18) ∧ n ≤ source := by
  unfold superblockExtent at h
  split at h
  · cases h
  split at h
  · cases h
  split at h
  · cases h
  split at h
  · cases h
  rename_i size hsize
  split at h
  · cases h
  rename_i hcheck
  cases h
  unfold checkedMul at hsize
  split at hsize
  · have hblocks : superblockBlocks superblock =
        le32 superblock 0x4 + 2 ^ 32 * le32 superblock 0x150 := by
      unfold superblockBlocks
      rw [Nat.or_comm, ← Nat.shiftLeft_add_eq_or_of_lt (le32_lt superblock 0x4),
        Nat.shiftLeft_eq, Nat.add_comm, Nat.mul_comm]
    rw [hblocks, Nat.shiftLeft_eq] at hsize
    refine ⟨(Option.some.inj hsize).symm, ?_⟩
    simp only [not_or] at hcheck
    omega
  · cases hsize

/-- And the source is what is left without it. -/
theorem imageSource_eq_ok {total source : ℕ} :
    imageSource total = .ok source ↔
      total = source + projectImageTrailerBytes ∧ logicalBytes source = .ok total := by
  unfold imageSource
  generalize projectImageTrailerBytes = size
  constructor
  · intro h
    split at h
    · cases h
    split at h
    · cases h
    rename_i logical hlogical
    split at h
    · cases h
    rename_i heq
    obtain rfl := Except.ok.inj h
    exact ⟨by omega, hlogical.trans (congrArg _ (not_not.mp heq))⟩
  · rintro ⟨rfl, hlogical⟩
    rw [if_neg (by omega), Nat.add_sub_cancel, hlogical]
    exact if_neg (by simp)

/-- Whatever `read_metadata` returns is the decoded last block. -/
theorem readMetadata_ok {parse : Bytes → Option ProjectImageMetadata} {m : ProjectImageMetadata}
    (h : readMetadata parse f = (.ok m, g)) :
    ∃ source, f.data.length = source + projectImageTrailerBytes ∧
      decodeTrailer parse (slice f.data source projectImageTrailerBytes) = .ok m := by
  obtain ⟨found, f₁, hfound, h⟩ := Io.bind_eq_ok.mp h
  obtain ⟨rfl, hsame₁⟩ := stat_ok hfound
  obtain ⟨source, f₂, hsource, h⟩ := Io.bind_eq_ok.mp h
  obtain ⟨himage, rfl⟩ := Io.ofResult_eq_ok.mp hsource
  obtain ⟨n, f₂, hext, h⟩ := Io.bind_eq_ok.mp h
  obtain ⟨-, hsame₂⟩ := ext4Bytes_ok hext
  obtain ⟨u, f₃, hseek, h⟩ := Io.bind_eq_ok.mp h
  obtain ⟨hsame₃, hpos⟩ := seek_ok (Io.call_eq_ok.mp hseek)
  obtain ⟨bytes, f₄, hread, h⟩ := Io.bind_eq_ok.mp h
  obtain ⟨rfl, hsame₄⟩ := readExact_same (Io.call_eq_ok.mp hread)
  obtain ⟨hdecode, -⟩ := Io.ofResult_eq_ok.mp h
  rw [hsame₃.data, hsame₂.data, hsame₁.data, hpos] at hdecode
  exact ⟨source, (imageSource_eq_ok.mp himage).1, hdecode⟩

/-- Every call moves all or a part of what was asked for. -/
def Calm (f : File) : Prop := Fate.failed ∉ f.fates ∧ Fate.interrupted ∉ f.fates

/-- A calm file stays calm. -/
theorem Calm.mono (h : Calm f) (hsame : Same f g) : Calm g :=
  ⟨fun hmem => h.1 (hsame.fates hmem), fun hmem => h.2 (hsame.fates hmem)⟩

theorem Calm.call (h : Calm f) : f.call = (.ok (), f.call.2) := by
  unfold File.call
  split <;> rename_i heq
  · rfl
  · exact absurd (by simp [heq]) h.1
  · exact absurd (by simp [heq]) h.2
  · rfl

theorem Calm.seek (h : Calm f) (pos : ℕ) :
    ∃ g, f.seek pos = (.ok (), g) ∧ Same f g ∧ g.pos = pos := by
  have hseek : f.seek pos = (.ok (), { f.call.2 with pos }) := by
    unfold File.seek
    rw [h.call]
  exact ⟨_, hseek, seek_ok hseek⟩

theorem Calm.stat (h : Calm f) :
    ∃ g, stat f = (.ok ⟨f.regular, f.data.length, f.modified⟩, g) ∧ Same f g := by
  have hcall := Same.call f
  refine ⟨f.call.2, Io.bind_eq_ok.mpr ⟨(), f.call.2, Io.call_eq_ok.mpr h.call, ?_⟩, hcall⟩
  rw [hcall.regular, hcall.data, hcall.modified]

/-- In a calm file the extent is read. -/
theorem Calm.ext4Bytes {source total n : ℕ} (h : Calm f)
    (hlogical : logicalBytes source = .ok total)
    (hlen : source ≤ f.data.length)
    (hextent : superblockExtent (slice f.data 1024 superblockBytes) source = .ok n) :
    ∃ g, ext4Bytes source f = (.ok n, g) ∧ Same f g := by
  obtain ⟨f₁, hseek, hsame, hpos⟩ := h.seek 1024
  have hchunk := (logicalBytes_ok hlogical).2
  obtain ⟨f₂, hread, hdata, hfates⟩ := File.readExact_whole (f := f₁) (n := superblockBytes)
    (h.mono hsame).1 (by
      rw [hpos, hsame.data]
      unfold superblockBytes
      unfold chunkBytes at hchunk
      omega)
  have hsame' := (readExact_same hread).2
  refine ⟨f₂, ?_, hsame.trans hsame'⟩
  refine Io.bind_eq_ok.mpr ⟨total, f, Io.ofResult_eq_ok.mpr ⟨hlogical, rfl⟩, ?_⟩
  refine Io.bind_eq_ok.mpr ⟨(), f₁, Io.call_eq_ok.mpr hseek, ?_⟩
  refine Io.bind_eq_ok.mpr ⟨_, f₂, Io.call_eq_ok.mpr hread, ?_⟩
  rw [hsame.data, hpos]
  exact Io.ofResult_eq_ok.mpr ⟨hextent, rfl⟩

/-- A calm file that ends with a block behind a source of the right size is read. -/
theorem Calm.readMetadata {parse : Bytes → Option ProjectImageMetadata} {m : ProjectImageMetadata}
    {data b : Bytes} {total n : ℕ} (h : Calm f) (hdata : f.data = data ++ b)
    (hb : b.length = projectImageTrailerBytes) (hlogical : logicalBytes data.length = .ok total)
    (hextent : superblockExtent (slice data 1024 superblockBytes) data.length = .ok n)
    (hdecode : decodeTrailer parse b = .ok m) : ∃ g, readMetadata parse f = (.ok m, g) := by
  obtain ⟨htotal, hchunk⟩ := logicalBytes_ok hlogical
  have hlen : f.data.length = data.length + projectImageTrailerBytes := by
    rw [hdata, List.length_append, hb]
  have hsuper : slice f.data 1024 superblockBytes = slice data 1024 superblockBytes := by
    rw [hdata, slice_append_left]
    unfold superblockBytes
    unfold chunkBytes at hchunk
    omega
  obtain ⟨f₁, hstat, hsame₁⟩ := h.stat
  obtain ⟨f₂, hext, hsame₂⟩ := (h.mono hsame₁).ext4Bytes hlogical
    (by rw [hsame₁.data, hlen]; omega) (by rw [hsame₁.data, hsuper]; exact hextent)
  have hcalm₂ := (h.mono hsame₁).mono hsame₂
  obtain ⟨f₃, hseek, hsame₃, hpos⟩ := hcalm₂.seek data.length
  have hdata₃ : f₃.data = f.data := by rw [hsame₃.data, hsame₂.data, hsame₁.data]
  obtain ⟨f₄, hread, -, -⟩ := File.readExact_whole (n := projectImageTrailerBytes)
    (hcalm₂.mono hsame₃).1 (by rw [hpos, hdata₃, hlen])
  rw [hpos, hdata₃, hdata, slice_append_right (le_refl _), Nat.sub_self, slice_eq_self hb] at hread
  refine ⟨f₄, Io.bind_eq_ok.mpr ⟨_, f₁, hstat, ?_⟩⟩
  refine Io.bind_eq_ok.mpr ⟨data.length, f₁, Io.ofResult_eq_ok.mpr ⟨?_, rfl⟩, ?_⟩
  · refine imageSource_eq_ok.mpr ⟨hlen, ?_⟩
    rw [hlen, ← htotal]
    exact hlogical
  refine Io.bind_eq_ok.mpr ⟨n, f₂, hext, ?_⟩
  refine Io.bind_eq_ok.mpr ⟨(), f₃, Io.call_eq_ok.mpr hseek, ?_⟩
  exact Io.bind_eq_ok.mpr ⟨b, f₄, Io.call_eq_ok.mpr hread, Io.ofResult_eq_ok.mpr ⟨hdecode, rfl⟩⟩

end

/-! ## Round trips -/

/-- The trailer is read back as the metadata it was made of, and a block that is accepted is the
trailer of its metadata. The declared extent is exact and ends within the source. A finished export
is the unchanged source followed by the trailer, from which `read_metadata` returns the metadata,
in every file with these contents; so two finished exports of one digest have one provenance,
unless their contents are a collision. -/
theorem provenance_round_trip (sha256 : Bytes → Bytes)
    (parse : Bytes → Option ProjectImageMetadata)
    (hparse : ∀ m : ProjectImageMetadata, m.validate = true → parse m.toVec = some m) :
    (∀ m b, trailer m = .ok b → decodeTrailer parse b = .ok m) ∧
    (∀ b m, decodeTrailer parse b = .ok m → trailer m = .ok b) ∧
    (∀ superblock source n, superblockExtent superblock source = .ok n →
      n = (le32 superblock 0x4 + 2 ^ 32 * le32 superblock 0x150) *
          (1024 * 2 ^ le32 superblock 0x18) ∧ n ≤ source) ∧
    (∀ source exported m f v g, finalizeExport sha256 source exported m f = (.ok v, g) →
      f.data.length = source ∧ g.data.take source = f.data ∧
      superblockExtent (slice f.data 1024 superblockBytes) source = .ok v.filesystemBytes ∧
      ∀ f', f'.data = g.data →
        (∀ m' g', readMetadata parse f' = (.ok m', g') → m' = m) ∧
        (Calm f' → ∃ g', readMetadata parse f' = (.ok m, g'))) ∧
    (∀ source exported m f v g source' exported' m' f' v' g',
      finalizeExport sha256 source exported m f = (.ok v, g) →
      finalizeExport sha256 source' exported' m' f' = (.ok v', g') →
      (sha256 g.data = sha256 g'.data → g.data = g'.data) →
      v.digest = v'.digest → m = m') := by
  have hback : ∀ m b, trailer m = .ok b → decodeTrailer parse b = .ok m := fun m b h =>
    decodeTrailer_trailer h (hparse m (canonicalBytes_eq_some (trailer_eq_ok h).1).1)
  have hlength : ∀ m b, trailer m = .ok b → b.length = projectImageTrailerBytes := by
    intro m b h
    obtain ⟨hjson, rfl⟩ := trailer_eq_ok h
    exact length_framed (canonicalBytes_eq_some hjson).2.2.2
  refine ⟨hback, fun b m h => trailer_decodeTrailer h, fun superblock source n h =>
    superblockExtent_ok h, fun source exported m f v g h => ?_,
    fun source exported m f v g source' exported' m' f' v' g' h h' hcollision hdigest => ?_⟩
  · obtain ⟨b, htrailer, hlen, -, hdata, hlogical, hextent, -⟩ := finalizeExport_ok h
    refine ⟨hlen, by rw [hdata, ← hlen, List.take_left], hextent, fun f' hf' => ⟨?_, ?_⟩⟩
    · intro m' g' hread
      obtain ⟨source', hlen', hdecode⟩ := readMetadata_ok hread
      rw [hf', hdata, List.length_append, hlength m b htrailer, hlen] at hlen'
      obtain rfl : source = source' := by omega
      rw [hf', hdata, slice_append_right (by omega), hlen, Nat.sub_self,
        slice_eq_self (hlength m b htrailer), hback m b htrailer] at hdecode
      exact (Except.ok.inj hdecode).symm
    · intro hcalm
      subst hlen
      exact hcalm.readMetadata (hf'.trans hdata) (hlength m b htrailer) hlogical hextent
        (hback m b htrailer)
  · obtain ⟨b, htrailer, -, -, hdata, -, -, hv⟩ := finalizeExport_ok h
    obtain ⟨b', htrailer', -, -, hdata', -, -, hv'⟩ := finalizeExport_ok h'
    have hsame := hcollision (by rw [← hv, ← hv', hdigest])
    rw [hdata, hdata'] at hsame
    obtain ⟨-, rfl⟩ := List.append_inj' hsame
      ((hlength m b htrailer).trans (hlength m' b' htrailer').symm)
    have hm := hback m b htrailer
    rw [hback m' b htrailer'] at hm
    exact (Except.ok.inj hm).symm

/-! ## A reader of compact documents -/

/-- What follows a literal. -/
def expect (literal input : Bytes) : Option Bytes :=
  if input.take literal.length = literal then some (input.drop literal.length) else none

/-- A quoted text without escapes. -/
def readQuoted : Bytes → Option (Bytes × Bytes)
  | [] => none
  | first :: input =>
    if first ≠ 34 then none
    else
      match input.dropWhile (· ≠ 34) with
      | [] => none
      | _ :: rest => some (input.takeWhile (· ≠ 34), rest)

/-- A digest or `null`. -/
def readOption (input : Bytes) : Option (Option Bytes × Bytes) :=
  match expect (ascii "null") input with
  | some rest => some (none, rest)
  | none => (readQuoted input).map fun (s, rest) => (some s, rest)

/-- The documents that `toVec` writes for metadata of the first schema. -/
def readCompact (input : Bytes) : Option ProjectImageMetadata := do
  let input ← expect (ascii "\x7b\"schema\":") input
  let input ← expect (ascii (toString 1)) input
  let input ← expect (ascii ",\"tenant_id\":") input
  let (tenantId, input) ← readQuoted input
  let input ← expect (ascii ",\"project_id\":") input
  let (projectId, input) ← readQuoted input
  let input ← expect (ascii ",\"build_id\":") input
  let (buildId, input) ← readQuoted input
  let input ← expect (ascii ",\"source_commit\":") input
  let (sourceCommit, input) ← readQuoted input
  let input ← expect (ascii ",\"base_image_digest\":") input
  let (baseImageDigest, input) ← readQuoted input
  let input ← expect (ascii ",\"base_content_digest\":") input
  let (baseContentDigest, input) ← readQuoted input
  let input ← expect (ascii ",\"revision_id\":") input
  let (revisionId, input) ← readQuoted input
  let input ← expect (ascii ",\"install_hook_digest\":") input
  let (installHookDigest, input) ← readOption input
  let input ← expect (ascii ",\"start_hook_digest\":") input
  let (startHookDigest, input) ← readOption input
  let input ← expect (ascii ",\"canonical_workdir\":") input
  let (canonicalWorkdir, input) ← readQuoted input
  let input ← expect (ascii "\x7d") input
  if input = [] then
    some ⟨1, tenantId, projectId, buildId, sourceCommit, baseImageDigest, baseContentDigest,
      revisionId, installHookDigest, startHookDigest, canonicalWorkdir⟩
  else none

theorem expect_append (literal rest : Bytes) : expect literal (literal ++ rest) = some rest := by
  simp [expect]

/-- Bytes that `serde_json` writes as they are. -/
def Plain (s : Bytes) : Prop := ∀ b ∈ s, b ≠ 34 ∧ b ≠ 92 ∧ ¬ b < 32

/-- Plain text is quoted as it is. -/
theorem quoteBytes_of_plain {s : Bytes} (h : Plain s) : quoteBytes s = 34 :: s ++ [34] := by
  have hmap : s.flatMap escapeByte = s := by
    induction s with
    | nil => rfl
    | cons b s ih =>
      obtain ⟨hquote, hslash, hblank⟩ := h b List.mem_cons_self
      have hone : escapeByte b = [b] := by
        unfold escapeByte
        rw [if_neg hquote, if_neg hslash, if_neg (by rintro rfl; exact hblank (by decide)),
          if_neg (by rintro rfl; exact hblank (by decide)),
          if_neg (by rintro rfl; exact hblank (by decide)),
          if_neg (by rintro rfl; exact hblank (by decide)),
          if_neg (by rintro rfl; exact hblank (by decide)), if_neg hblank]
      rw [List.flatMap_cons, hone, ih (fun x hx => h x (List.mem_cons_of_mem _ hx))]
      rfl
  rw [quoteBytes, hmap]
  rfl

/-- And read back. -/
theorem readQuoted_quoteBytes {s : Bytes} (h : Plain s) (rest : Bytes) :
    readQuoted (quoteBytes s ++ rest) = some (s, rest) := by
  have hall : ∀ b ∈ s, decide (b ≠ 34) = true := fun b hb => by simpa using (h b hb).1
  have hdrop : (s ++ 34 :: rest).dropWhile (fun b => decide (b ≠ 34)) = 34 :: rest := by
    rw [List.dropWhile_append_of_pos hall]
    rfl
  have htake : (s ++ 34 :: rest).takeWhile (fun b => decide (b ≠ 34)) = s := by
    rw [List.takeWhile_append_of_pos hall]
    simp
  rw [quoteBytes_of_plain h, List.cons_append, List.cons_append, List.append_assoc,
    List.singleton_append]
  simp only [readQuoted, hdrop, htake]
  rfl

/-- So is text that may be missing. -/
theorem readOption_quoteOption {s : Option Bytes} (h : ∀ t ∈ s, Plain t) (rest : Bytes) :
    readOption (quoteOption s ++ rest) = some (s, rest) := by
  cases s with
  | none => rw [readOption, quoteOption, expect_append]
  | some t =>
    have hquote : expect (ascii "null") (quoteBytes t ++ rest) = none := by
      rw [quoteBytes_of_plain (h t rfl)]
      simp [expect, ascii]
    rw [readOption, quoteOption, hquote]
    simp only [readQuoted_quoteBytes (h t rfl), Option.map_some]

theorem lowerHex_plain {b : UInt8} (h : lowerHex b = true) : b ≠ 34 ∧ b ≠ 92 ∧ ¬ b < 32 := by
  unfold lowerHex at h
  simp only [Bool.or_eq_true, Bool.and_eq_true, decide_eq_true_iff, UInt8.le_iff_toNat_le] at h
  simp only [ne_eq, ← UInt8.toNat_inj, UInt8.lt_iff_toNat_lt]
  simp only [UInt8.reduceToNat] at h ⊢
  omega

/-- Hexadecimal digits are plain. -/
theorem plain_of_lowerHex {s : Bytes} (h : s.all lowerHex = true) : Plain s :=
  fun b hb => lowerHex_plain (List.all_eq_true.mp h b hb)

/-- So is an id. -/
theorem plain_of_uuid {s : Bytes} (h : projectUuid s = true) : Plain s := by
  intro b hb
  obtain ⟨i, hi⟩ := List.mem_iff_getElem?.mp hb
  have hall := List.all_eq_true.mp (Bool.and_eq_true _ _ ▸ h).2 (b, i)
    (List.mem_zipIdx_iff_getElem?.mpr hi)
  simp only at hall
  split at hall
  · obtain rfl : b = 45 := by simpa using hall
    decide
  · exact lowerHex_plain hall

/-- And a digest. -/
theorem plain_of_digest {s : Bytes} (h : projectDigest s = true) : Plain s := by
  unfold projectDigest at h
  exact plain_of_lowerHex (Bool.and_eq_true _ _ ▸ h).2

theorem plain_workdir : Plain (ascii "/workspace/project") := by
  have hall : (ascii "/workspace/project").all (fun b => b != 34 && b != 92 && !decide (b < 32)) =
      true := by
    decide
  intro b hb
  simpa [and_assoc] using List.all_eq_true.mp hall b hb

section

variable {α : Type} (literal rest : Bytes)

theorem expect_bind (k : Bytes → Option α) : (expect literal (literal ++ rest) >>= k) = k rest := by
  rw [expect_append]
  rfl

theorem quoted_bind {s : Bytes} (hs : Plain s) (k : Bytes × Bytes → Option α) :
    (expect literal (literal ++ (quoteBytes s ++ rest)) >>= fun input => readQuoted input >>= k) =
      k (s, rest) := by
  rw [expect_bind, readQuoted_quoteBytes hs]
  rfl

theorem optional_bind {s : Option Bytes} (hs : ∀ t ∈ s, Plain t)
    (k : Option Bytes × Bytes → Option α) :
    (expect literal (literal ++ (quoteOption s ++ rest)) >>= fun input => readOption input >>= k) =
      k (s, rest) := by
  rw [expect_bind, readOption_quoteOption hs]
  rfl

end

section

attribute [local irreducible] ascii

/-- Valid metadata is read back from its bytes. -/
theorem readCompact_toVec (m : ProjectImageMetadata) (h : m.validate = true) :
    readCompact m.toVec = some m := by
  simp only [ProjectImageMetadata.validate, Bool.and_eq_true, decide_eq_true_iff] at h
  obtain ⟨⟨⟨⟨⟨⟨⟨⟨⟨⟨⟨hschema, htenant⟩, hproject⟩, hbuild⟩, -⟩, hcommit⟩, himage⟩, hcontent⟩,
    hrevision⟩, hinstall⟩, hstart⟩, hworkdir⟩ := h
  have hoption : ∀ {s : Option Bytes}, s.all projectDigest = true → ∀ t ∈ s, Plain t := by
    rintro s hs t rfl
    exact plain_of_digest hs
  have hplain : Plain m.canonicalWorkdir := by
    rw [hworkdir]
    exact plain_workdir
  have hend := expect_append (ascii "\x7d") []
  rw [List.append_nil] at hend
  unfold readCompact ProjectImageMetadata.toVec
  rw [hschema]
  simp only [List.append_assoc]
  rw [expect_bind, expect_bind, quoted_bind _ _ (plain_of_uuid htenant)]
  rw [quoted_bind _ _ (plain_of_uuid hproject), quoted_bind _ _ (plain_of_uuid hbuild),
    quoted_bind _ _ (plain_of_lowerHex hcommit), quoted_bind _ _ (plain_of_digest himage),
    quoted_bind _ _ (plain_of_digest hcontent), quoted_bind _ _ (plain_of_digest hrevision),
    optional_bind _ _ (hoption hinstall), optional_bind _ _ (hoption hstart),
    quoted_bind _ _ hplain]
  rw [hend, ← hschema]
  rfl

end

/-- The metadata of the tests. -/
def sampleMetadata : ProjectImageMetadata where
  schema := 1
  tenantId := ascii "11111111-1111-1111-1111-111111111111"
  projectId := ascii "22222222-2222-2222-2222-222222222222"
  buildId := ascii "33333333-3333-3333-3333-333333333333"
  sourceCommit := List.replicate 40 97
  baseImageDigest := List.replicate 64 98
  baseContentDigest := List.replicate 64 101
  revisionId := List.replicate 64 99
  installHookDigest := some (List.replicate 64 100)
  startHookDigest := none
  canonicalWorkdir := ascii "/workspace/project"

theorem sampleMetadata_canonical : sampleMetadata.canonicalBytes.isSome = true := by
  decide +kernel

/-- A reader with the assumed property reads the trailer of the tests' metadata back. -/
theorem sample_trailer_read_back : ∃ b, trailer sampleMetadata = .ok b ∧
    decodeTrailer readCompact b = .ok sampleMetadata := by
  obtain ⟨json, hjson⟩ := Option.isSome_iff_exists.mp sampleMetadata_canonical
  obtain ⟨b, hb⟩ := exists_trailer hjson
  exact ⟨b, hb, (provenance_round_trip id readCompact readCompact_toVec).1 _ b hb⟩

end AgentHouse.Volume
