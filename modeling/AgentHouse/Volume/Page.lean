import AgentHouse.Volume.Formats

/-!
# Index pages

An index page names the contents of 1024 consecutive chunks. An unpacked page has a 32-byte
entry for each chunk, its digest. A packed page has a 72-byte entry: the digest, the digest
of the pack that holds the chunk and the offset in that pack. An all-zero digest is a hole.
The functions follow the byte arithmetic of `indexed.rs`; `Edits` describes a page that
differs from another one only in its entries, and the functions are read off the entries.
-/

namespace AgentHouse.Volume

/-- `AHVMPG02` -/
def magic : Bytes := [0x41, 0x48, 0x56, 0x4d, 0x50, 0x47, 0x30, 0x32]

/-- `AHVMPG08` -/
def packMagic : Bytes := [0x41, 0x48, 0x56, 0x4d, 0x50, 0x47, 0x30, 0x38]

/-- A block of zeros. -/
def zeros (n : ℕ) : Bytes := List.replicate n 0

/-- `iter().all(|b| *b == 0)` -/
def isZero (b : Bytes) : Bool := b.all (· == 0)

/-- The length of a slot, by the page's magic number. -/
def stride (page : Bytes) : ℕ := if page.take 8 = packMagic then packSlotBytes else 32

/-- Where the slot of a chunk starts. -/
def slotAt (page : Bytes) (index : ℕ) : ℕ := 16 + index % slots * stride page

/-- The chunk of a slot. -/
def slot (page : Bytes) (index : ℕ) : Option Hash :=
  let hash := slice page (slotAt page index) 32
  if isZero hash then none else some hash

/-- The object of a slot, and where its chunk starts in it. -/
def objectSlot (page : Bytes) (index : ℕ) : Option (Hash × ℕ) :=
  match slot page index with
  | none => none
  | some chunk =>
    let start := slotAt page index
    if stride page = packSlotBytes ∧ isZero (slice page (start + 32) 32) = false then
      some (slice page (start + 32) 32, ofBe (slice page (start + 64) 4))
    else some (chunk, 0)

/-- `packed_page`: the same chunks in a page with packs. -/
def packedPage (page : Bytes) : Bytes :=
  if stride page = packSlotBytes then page
  else
    let out := packMagic ++ slice page 8 8 ++ zeros (packPageBytes - 16)
    (List.range slots).foldl (fun out index =>
      splice out (slotAt out index) (slice page (slotAt page index) 32)) out

@[simp] theorem length_zeros (n : ℕ) : (zeros n).length = n := by simp [zeros]

/-- Bytes are zero if they are zeros of their length. -/
theorem isZero_iff (b : Bytes) : isZero b = true ↔ b = zeros b.length := by
  simp [isZero, zeros, List.eq_replicate_iff]

@[simp] theorem isZero_zeros (n : ℕ) : isZero (zeros n) = true := by
  simp [isZero, zeros]

theorem isZero_of_slice {l : Bytes} {a n : ℕ} (h : isZero l = true) :
    isZero (slice l a n) = true := by
  simp only [isZero, List.all_eq_true, slice] at h ⊢
  intro x hx
  exact h x (List.mem_of_mem_drop (List.mem_of_mem_take hx))

/-- A slice of zeros. -/
theorem slice_zeros {n a m : ℕ} (h : a + m ≤ n) : slice (zeros n) a m = zeros m := by
  simp only [slice, zeros, List.drop_replicate, List.take_replicate]
  congr 1
  omega

section Entry

/-- The digest an entry names. -/
def entrySlot (e : Bytes) : Option Hash :=
  if isZero (slice e 0 32) then none else some (slice e 0 32)

/-- The object, and the offset in it, that holds an entry's chunk. -/
def entryObject (e : Bytes) : Option (Hash × ℕ) :=
  match entrySlot e with
  | none => none
  | some chunk =>
    if e.length = packSlotBytes ∧ isZero (slice e 32 32) = false then
      some (slice e 32 32, ofBe (slice e 64 4))
    else some (chunk, 0)

/-- Entry `j` of a page whose entries have width `w`. -/
def entryAt (w : ℕ) (page : Bytes) (j : ℕ) : Bytes := slice page (16 + j * w) w

/-- Every entry lies within the page. -/
theorem entry_bound {w j : ℕ} (hj : j < slots) : 16 + j * w + w ≤ 16 + slots * w := by
  have : (j + 1) * w ≤ slots * w := Nat.mul_le_mul_right w hj
  rw [Nat.add_mul] at this
  omega

/-- A page has one of two strides. -/
theorem stride_eq (page : Bytes) : stride page = packSlotBytes ∨ stride page = 32 := by
  unfold stride
  split
  · exact Or.inl rfl
  · exact Or.inr rfl

theorem stride_ge (page : Bytes) : 32 ≤ stride page := by
  rcases stride_eq page with h | h <;> rw [h]
  decide

/-- Entries have the width of the page. -/
theorem length_entryAt {w : ℕ} {page : Bytes} {j : ℕ} (hj : j < slots)
    (hlen : 16 + slots * w ≤ page.length) : (entryAt w page j).length = w := by
  have := entry_bound (w := w) hj
  rw [entryAt, length_slice]
  omega

/-- A slot is read from its entry. -/
theorem slot_eq_entrySlot (page : Bytes) (index : ℕ) :
    slot page index = entrySlot (entryAt (stride page) page (index % slots)) := by
  have h := stride_ge page
  have hslice : slice (entryAt (stride page) page (index % slots)) 0 32 =
      slice page (slotAt page index) 32 := by
    rw [entryAt, slice_slice (by omega), Nat.add_zero, slotAt]
  rw [slot, entrySlot, hslice]

/-- And so is the object. -/
theorem objectSlot_eq_entryObject {page : Bytes} (index : ℕ)
    (hlen : 16 + slots * stride page ≤ page.length) :
    objectSlot page index = entryObject (entryAt (stride page) page (index % slots)) := by
  have hj : index % slots < slots := Nat.mod_lt _ slots_pos
  have hlen' := length_entryAt hj hlen
  rw [objectSlot, slot_eq_entrySlot, entryObject, hlen']
  cases entrySlot (entryAt (stride page) page (index % slots)) with
  | none => rfl
  | some chunk =>
    rcases stride_eq page with hs | hs
    · have hpack : slice (entryAt (stride page) page (index % slots)) 32 32 =
          slice page (slotAt page index + 32) 32 := by
        rw [entryAt, slice_slice (by rw [hs]; decide), slotAt]
      have hoff : slice (entryAt (stride page) page (index % slots)) 64 4 =
          slice page (slotAt page index + 64) 4 := by
        rw [entryAt, slice_slice (by rw [hs]; decide), slotAt]
      rw [hpack, hoff]
    · have hne : ¬ stride page = packSlotBytes := by
        rw [hs]
        decide
      simp only [hne, false_and, if_false]

end Entry

section Edits

variable {w : ℕ} {page page' : Bytes} {g : ℕ → Bytes}

/-- `page'` is `page` with entry `j` replaced by `g j`, for every `j`. -/
structure Edits (w : ℕ) (page page' : Bytes) (g : ℕ → Bytes) : Prop where
  length_eq : page'.length = page.length
  head_eq : slice page' 0 16 = slice page 0 16
  tail_eq : page'.drop (16 + slots * w) = page.drop (16 + slots * w)
  entry_eq : ∀ j < slots, entryAt w page' j = g j

theorem Edits.refl (w : ℕ) (page : Bytes) : Edits w page page (entryAt w page) :=
  ⟨rfl, rfl, rfl, fun _ _ => rfl⟩

/-- Overwriting a window inside one entry changes that entry only. -/
theorem Edits.splice_within (h : Edits w page page' g) (hlen : 16 + slots * w ≤ page.length)
    {j c : ℕ} {b : Bytes} (hj : j < slots) (hb : c + b.length ≤ w) :
    Edits w page (splice page' (16 + j * w + c) b)
      (Function.update g j (splice (g j) c b)) := by
  have hbound := entry_bound (w := w) hj
  have hl := h.length_eq
  have hspl : 16 + j * w + c + b.length ≤ page'.length := by omega
  refine ⟨?_, ?_, ?_, ?_⟩
  · rw [length_splice hspl, hl]
  · rw [slice_splice_of_disjoint hspl (Or.inl (by omega)), h.head_eq]
  · rw [← h.tail_eq]
    apply List.ext_getElem?
    intro k
    rw [List.getElem?_drop, List.getElem?_drop, getElem?_splice hspl, if_neg (by omega)]
  · intro i hi
    by_cases hij : i = j
    · subst hij
      rw [Function.update_self, ← h.entry_eq i hi, entryAt, entryAt,
        slice_splice_of_within (by omega) (by omega) (by omega)]
      congr 1
      omega
    · rw [Function.update_of_ne hij, ← h.entry_eq i hi, entryAt, entryAt]
      apply slice_splice_of_disjoint hspl
      rcases Nat.lt_or_gt_of_ne hij with hlt | hlt
      · have : (i + 1) * w ≤ j * w := Nat.mul_le_mul_right w hlt
        rw [Nat.add_mul] at this
        omega
      · have : (j + 1) * w ≤ i * w := Nat.mul_le_mul_right w hlt
        rw [Nat.add_mul] at this
        omega

theorem splice_whole {b e : Bytes} (h : e.length = b.length) : splice b 0 e = e := by
  simp [splice, h]

/-- Overwriting a whole entry. -/
theorem Edits.splice_entry (h : Edits w page page' g) (hlen : 16 + slots * w ≤ page.length)
    {j : ℕ} {e : Bytes} (hj : j < slots) (he : e.length = w) :
    Edits w page (splice page' (16 + j * w) e) (Function.update g j e) := by
  have hl := h.length_eq
  have hgj : (g j).length = w := by
    rw [← h.entry_eq j hj]
    exact length_entryAt hj (by omega)
  have hs := h.splice_within hlen hj (c := 0) (b := e) (by omega)
  rwa [Nat.add_zero, splice_whole (by omega)] at hs

theorem Edits.congr {g' : ℕ → Bytes} (h : Edits w page page' g)
    (hg : ∀ j < slots, g j = g' j) : Edits w page page' g' :=
  ⟨h.length_eq, h.head_eq, h.tail_eq, fun j hj => (h.entry_eq j hj).trans (hg j hj)⟩

theorem take_eq_of_slice {l r : Bytes} (h : slice l 0 16 = slice r 0 16) :
    l.take 8 = r.take 8 := by
  have := congrArg (List.take 8) h
  simpa [slice, List.take_take] using this

/-- An edited page keeps its stride. -/
theorem Edits.stride_eq (h : Edits w page page' g) : stride page' = stride page := by
  unfold stride
  rw [take_eq_of_slice h.head_eq]

end Edits

section Packed

/-- The packed form of a 32-byte entry: no pack, offset zero. -/
def directEntry (hash : Hash) : Bytes := hash ++ zeros 40

theorem length_directEntry {hash : Hash} (h : hash.length = 32) :
    (directEntry hash).length = packSlotBytes := by
  simp [directEntry, h, packSlotBytes]

/-- A direct entry holds its hash. -/
theorem slice_directEntry {hash : Hash} (h : hash.length = 32) :
    slice (directEntry hash) 0 32 = hash := by
  rw [directEntry, slice_append_left (by omega), slice_eq_self h]

/-- And names the same chunk. -/
theorem entrySlot_directEntry {e : Bytes} (h : e.length = 32) :
    entrySlot (directEntry e) = entrySlot e := by
  simp only [entrySlot, slice_directEntry h, slice_eq_self h]

/-- A directly addressed chunk is its own object. -/
theorem entryObject_directEntry {e : Bytes} (h : e.length = 32) :
    entryObject (directEntry e) = (entrySlot e).map (fun hash => (hash, 0)) := by
  have hz : isZero (slice (directEntry e) 32 32) = true := by
    rw [directEntry, slice_append_right (by omega), h, slice_zeros (by omega)]
    simp
  rw [entryObject, entrySlot_directEntry h]
  cases entrySlot e with
  | none => rfl
  | some chunk => simp [hz]

theorem entryObject_short {e : Bytes} (h : e.length = 32) :
    entryObject e = (entrySlot e).map (fun hash => (hash, 0)) := by
  have hne : ¬ e.length = packSlotBytes := by
    rw [h]
    decide
  rw [entryObject]
  cases entrySlot e with
  | none => rfl
  | some chunk => simp [hne]

private theorem packMagic_ne_magic : magic ≠ packMagic := by decide

theorem stride_of_magic {page : Bytes} (h : page.take 8 = magic) : stride page = 32 := by
  rw [stride, if_neg]
  rw [h]
  exact packMagic_ne_magic

theorem stride_of_packMagic {page : Bytes} (h : page.take 8 = packMagic) :
    stride page = packSlotBytes := by
  rw [stride, if_pos h]

/-- The blank page that `packed_page` copies the digests into. -/
def blankPacked (page : Bytes) : Bytes :=
  packMagic ++ slice page 8 8 ++ zeros (packPageBytes - 16)

/-- A blank packed page has its length. -/
theorem length_blankPacked {page : Bytes} (hlen : 16 ≤ page.length) :
    (blankPacked page).length = packPageBytes := by
  have : min 8 (page.length - 8) = 8 := by omega
  simp [blankPacked, packMagic, this, packPageBytes]

theorem take_blankPacked (page : Bytes) : (blankPacked page).take 8 = packMagic := by
  simp [blankPacked, packMagic]

/-- And its entries are zeros. -/
theorem entryAt_blankPacked {page : Bytes} (hlen : 16 ≤ page.length) {j : ℕ} (hj : j < slots) :
    entryAt packSlotBytes (blankPacked page) j = zeros packSlotBytes := by
  have hb := entry_bound (w := packSlotBytes) hj
  have hp : 16 + slots * packSlotBytes ≤ packPageBytes := by decide
  have hh : (packMagic ++ slice page 8 8).length = 16 := by
    have : min 8 (page.length - 8) = 8 := by omega
    simp [packMagic, this]
  rw [entryAt, blankPacked, slice_append_right (by omega), hh, slice_zeros (by omega)]

/-- The loop of `packed_page`: after `n` rounds the first `n` entries are copied. -/
private theorem packedPage_loop {page : Bytes} (hlen : page.length = chunkBytes)
    (hmagic : page.take 8 = magic) {n : ℕ} (hn : n ≤ slots) :
    Edits packSlotBytes (blankPacked page)
      ((List.range n).foldl (fun out index =>
        splice out (slotAt out index) (slice page (slotAt page index) 32)) (blankPacked page))
      (fun j => if j < n then directEntry (entryAt 32 page j) else zeros packSlotBytes) := by
  have h16 : 16 ≤ page.length := by
    rw [hlen]
    decide
  have hblank := length_blankPacked h16
  have hroom : 16 + slots * packSlotBytes ≤ (blankPacked page).length := by
    rw [hblank]
    decide
  induction n with
  | zero =>
    exact (Edits.refl _ _).congr (fun j hj => by simp [entryAt_blankPacked h16 hj])
  | succ n ih =>
    have ih := ih (by omega)
    rw [List.range_succ, List.foldl_append, List.foldl_cons, List.foldl_nil]
    set out := (List.range n).foldl (fun out index =>
      splice out (slotAt out index) (slice page (slotAt page index) 32))
        (blankPacked page) with hout
    have hsout : stride out = packSlotBytes := by
      rw [ih.stride_eq, stride_of_packMagic (take_blankPacked page)]
    have hmod : n % slots = n := Nat.mod_eq_of_lt (by omega)
    have he : (slice page (slotAt page n) 32).length = 32 := by
      have hb := entry_bound (w := 32) (show n < slots by omega)
      have hc : 16 + slots * 32 ≤ chunkBytes := by decide
      rw [slotAt, hmod, stride_of_magic hmagic, length_slice]
      omega
    have hstep := ih.splice_within hroom (j := n) (c := 0)
      (b := slice page (slotAt page n) 32) (by omega) (by rw [he]; decide)
    have hat : slotAt out n = 16 + n * packSlotBytes + 0 := by
      rw [slotAt, hmod, hsout, Nat.add_zero]
    rw [hat]
    apply hstep.congr
    intro j hj
    by_cases hjn : j = n
    · subst hjn
      have hentry : entryAt 32 page j = slice page (slotAt page j) 32 := by
        rw [entryAt, slotAt, hmod, stride_of_magic hmagic]
      rw [Function.update_self, if_neg (by omega), if_pos (by omega), hentry, directEntry]
      simp only [splice, List.take_zero, List.nil_append, he, zeros, List.drop_replicate]
      rfl
    · rw [Function.update_of_ne hjn]
      by_cases hlt : j < n
      · rw [if_pos hlt, if_pos (by omega)]
      · rw [if_neg hlt, if_neg (by omega)]

/-- `packed_page` of an unpacked page keeps the page number and every digest, and
addresses every chunk directly. -/
theorem packedPage_edits {page : Bytes} (hlen : page.length = chunkBytes)
    (hmagic : page.take 8 = magic) :
    Edits packSlotBytes (blankPacked page) (packedPage page)
      (fun j => directEntry (entryAt 32 page j)) := by
  have hne : ¬ stride page = packSlotBytes := by
    rw [stride_of_magic hmagic]
    decide
  have h := packedPage_loop hlen hmagic (le_refl slots)
  rw [packedPage, if_neg hne]
  exact h.congr (fun j hj => by rw [if_pos hj])

end Packed

end AgentHouse.Volume
