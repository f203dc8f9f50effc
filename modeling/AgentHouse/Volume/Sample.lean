import AgentHouse.Volume.Commit

/-!
# A small platform

A concrete instance of `Platform` for evaluating the model. The digest is a toy: it tells
byte strings apart by their length and first bytes, is never zero, and is ideal on sets of
byte strings that differ there. Documents are written in unary and read back exactly.
-/

namespace AgentHouse.Volume.Sample

/-- A number, written in ones. -/
def putNat (n : ℕ) : Bytes := List.replicate n 1 ++ [0]

/-- A number is read back. -/
def getNat : Bytes → Option (ℕ × Bytes)
  | [] => none
  | b :: rest => if b = 0 then some (0, rest) else (getNat rest).map (fun x => (x.1 + 1, x.2))

/-- Numbers are read back. -/
theorem getNat_putNat (n : ℕ) (rest : Bytes) : getNat (putNat n ++ rest) = some (n, rest) := by
  induction n with
  | zero => simp [putNat, getNat]
  | succ n ih =>
    have hcons : putNat (n + 1) ++ rest = 1 :: (putNat n ++ rest) := by
      simp [putNat, List.replicate_succ]
    rw [hcons, getNat, ih]
    simp

/-- A list, behind its length. -/
def putNats (l : List ℕ) : Bytes := putNat l.length ++ l.flatMap putNat

/-- So many numbers are read back. -/
def takeNats : ℕ → Bytes → Option (List ℕ × Bytes)
  | 0, b => some ([], b)
  | n + 1, b => do
    let (x, rest) ← getNat b
    let (l, rest) ← takeNats n rest
    return (x :: l, rest)

/-- A list is read back. -/
def getNats (b : Bytes) : Option (List ℕ × Bytes) := do
  let (n, rest) ← getNat b
  takeNats n rest

private theorem takeNats_flatMap (l : List ℕ) (rest : Bytes) :
    takeNats l.length (l.flatMap putNat ++ rest) = some (l, rest) := by
  induction l with
  | nil => simp [takeNats]
  | cons x l ih =>
    simp only [List.length_cons, takeNats, List.flatMap_cons, List.append_assoc, getNat_putNat,
      Option.bind_eq_bind, Option.bind_some, ih, Option.pure_def]

/-- So are lists of them. -/
theorem getNats_putNats (l : List ℕ) (rest : Bytes) :
    getNats (putNats l ++ rest) = some (l, rest) := by
  simp only [getNats, putNats, List.append_assoc, getNat_putNat, Option.bind_eq_bind,
    Option.bind_some, takeNats_flatMap]

/-- The characters of a text as numbers. -/
def chars (s : String) : List ℕ := s.toList.map Char.toNat

/-- The text of such characters. -/
def ofChars (l : List ℕ) : String := String.ofList (l.map Char.ofNat)

/-- Strings. -/
theorem ofChars_chars (s : String) : ofChars (chars s) = s := by
  have hid : ∀ l : List Char, (l.map Char.toNat).map Char.ofNat = l := by
    intro l
    induction l with
    | nil => rfl
    | cons c l ih => simp [ih]
  rw [ofChars, chars, hid, String.ofList_toList]

/-- Bytes as numbers. -/
def bytes (b : Bytes) : List ℕ := b.map UInt8.toNat

/-- The bytes of such numbers. -/
def ofBytes (l : List ℕ) : Bytes := l.map UInt8.ofNat

/-- Bytes. -/
theorem ofBytes_bytes (b : Bytes) : ofBytes (bytes b) = b := by
  induction b with
  | nil => rfl
  | cons x b ih =>
    simp only [ofBytes, bytes, List.map_cons, UInt8.ofNat_toNat] at ih ⊢
    rw [ih]

/-- A format of journal headers. -/
def headerJson (h : Header) : Bytes :=
  putNats (chars h.volume) ++ (putNats (bytes h.id) ++ (putNats (chars h.base) ++
    (putNat h.acknowledged ++ putNat h.sequence)))

/-- A header is read back. -/
def parseHeader (b : Bytes) : Option Header := do
  let (volume, b) ← getNats b
  let (id, b) ← getNats b
  let (base, b) ← getNats b
  let (acknowledged, b) ← getNat b
  let (sequence, _) ← getNat b
  return ⟨ofChars volume, ofBytes id, ofChars base, acknowledged, sequence⟩

/-- The header of a journal. -/
theorem parseHeader_headerJson (h : Header) : parseHeader (headerJson h) = some h := by
  have hlast : getNat (putNat h.sequence) = some (h.sequence, []) := by
    have := getNat_putNat h.sequence []
    rwa [List.append_nil] at this
  simp only [parseHeader, headerJson, getNats_putNats, getNat_putNat, hlast, Option.bind_eq_bind,
    Option.bind_some, ofChars_chars, ofBytes_bytes, Option.pure_def]

/-- A format of identities. -/
def identityJson (i : Identity) : Bytes :=
  putNats (chars i.volume) ++ (putNats (bytes i.token) ++ putNat i.epoch)

/-- An identity is read back. -/
def parseIdentity (b : Bytes) : Option Identity := do
  let (volume, b) ← getNats b
  let (token, b) ← getNats b
  let (epoch, _) ← getNat b
  return ⟨ofChars volume, ofBytes token, epoch⟩

/-- An identity. -/
theorem parseIdentity_identityJson (i : Identity) :
    parseIdentity (identityJson i) = some i := by
  have hlast : getNat (putNat i.epoch) = some (i.epoch, []) := by
    have := getNat_putNat i.epoch []
    rwa [List.append_nil] at this
  simp only [parseIdentity, identityJson, getNats_putNats, hlast, Option.bind_eq_bind,
    Option.bind_some, ofChars_chars, ofBytes_bytes, Option.pure_def]

/-- The parts of a head that change between publications. -/
def json : Manifest → Bytes
  | .root r => 1 :: putNat r.generation
  | .envelope e => 2 :: (putNat e.epoch ++ (putNat (if e.owner.isSome then 0 else 1) ++
      putNat e.manifest.generation))
  | .tombstone _ => [3]

/-- Length and first bytes, behind a byte that keeps the digest from being zero. -/
def digest (b : Bytes) : Hash := 1 :: b.headD 0 :: beBytes 30 b.length

/-- Publications are counted. -/
def tag (n : ℕ) (_ : Manifest) : Revision := String.ofList (List.replicate (n + 1) 'r')

/-- A platform of these formats, whose digest tells all byte strings apart. -/
def platform : Platform where
  digest := digest
  digest_length b := by simp [digest]
  json := json
  json_blank _ _ _ := by simp [json, putNat, maxManifestBytes]
  tag := tag
  tag_ne_empty n m h := by
    have := congrArg String.length h
    simp [tag] at this
  tag_inj {n n' m m'} h := by
    have := congrArg String.length h
    left
    simpa [tag] using this
  headerJson := headerJson
  parseHeader := parseHeader
  parseHeader_headerJson := parseHeader_headerJson
  identityJson := identityJson
  parseIdentity := parseIdentity
  parseIdentity_identityJson := parseIdentity_identityJson

/-- The digest tells apart strings of a set that differ in length or first byte. -/
theorem ideal {S : Set Bytes} (h : ∀ a ∈ S, ∀ b ∈ S, a.headD 0 = b.headD 0 →
    a.length % 256 ^ 30 = b.length % 256 ^ 30 → a = b) : platform.Ideal S where
  inj {a b} ha hb heq := by
    have hparts : a.headD 0 = b.headD 0 ∧ beBytes 30 a.length = beBytes 30 b.length := by
      simpa [platform, digest] using heq
    have hmod : ∀ w n : ℕ, ofBe (beBytes w n) = n % 256 ^ w := by
      intro w
      induction w with
      | zero => intro n; simp [beBytes, ofBe, Nat.mod_one]
      | succ w ih =>
        intro n
        have hb : (UInt8.ofNat (n % 256)).toNat = n % 256 := by simp
        rw [beBytes, ofBe_append_singleton, ih, hb, pow_succ, Nat.mul_comm (256 ^ w) 256,
          Nat.mod_mul]
        omega
    apply h a ha b hb hparts.1
    have := congrArg ofBe hparts.2
    rwa [hmod, hmod] at this
  ne_zero _ heq := by
    simp [platform, digest, List.replicate_succ] at heq

/-- A bucket without objects and heads. -/
def blank : Bucket := ⟨fun _ => ∅, fun _ => none, 0, []⟩

/-- A new disk of one chunk. -/
def volume : IndexedVolume :=
  ⟨.raw false, ⟨8, "disk", chunkBytes, 0, true, ∅, none, none⟩, none, "r", ∅, false⟩

/-- The bucket with this disk. -/
def bucket : Bucket :=
  ⟨fun _ => ∅, Function.update (fun _ => none) ⟨false, "disk"⟩
    (some ⟨"r", .root volume.root⟩), 1, []⟩

/-- The disk of the samples is created. -/
theorem create_eq : IndexedVolume.create platform blank false "disk" chunkBytes .delivered =
    (bucket, .ok volume) := rfl

end AgentHouse.Volume.Sample
