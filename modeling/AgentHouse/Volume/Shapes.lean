import AgentHouse.Volume.Loads

/-!
# The layout of pages

`Shaped` restates the checks of `page_from` entry by entry. Fetched pages are shaped, and a
page whose entries were edited stays shaped when the new entries are well formed and name
packs consistently.
-/

namespace AgentHouse.Volume

open IndexedVolume

/-- Zero byte by byte. -/
theorem isZero_iff_getElem? (b : Bytes) :
    isZero b = true ↔ ∀ (k : ℕ) (x : UInt8), b[k]? = some x → x = 0 := by
  simp only [isZero, List.all_eq_true, beq_iff_eq]
  constructor
  · intro h k x hk
    exact h x (List.mem_of_getElem? hk)
  · intro h x hx
    obtain ⟨k, hk⟩ := List.mem_iff_getElem?.mp hx
    exact h k x hk

theorem eq_zeros_of_isZero {b : Bytes} {n : ℕ} (h : isZero b = true) (hlen : b.length = n) :
    b = zeros n := by
  rw [← hlen]
  exact (isZero_iff b).mp h

/-- A run of slots is zero exactly when each of its entries is. -/
theorem isZero_entries {w : ℕ} (hw : 0 < w) (pg : Bytes) (a : ℕ) :
    isZero (slice pg (16 + a * w) (slots * w - a * w)) = true ↔
      ∀ j, a ≤ j → j < slots → isZero (entryAt w pg j) = true := by
  simp only [isZero_iff_getElem?, entryAt, getElem?_slice]
  constructor
  · intro h j haj hj k x hk
    split at hk
    · rename_i hkw
      have hb := entry_bound (w := w) hj
      have ha : a * w ≤ j * w := Nat.mul_le_mul_right w haj
      apply h (j * w - a * w + k) x
      rw [if_pos (by omega), ← hk]
      congr 1
      omega
    · cases hk
  · intro h k x hk
    split at hk
    · rename_i hkw
      have hdiv := Nat.div_add_mod' (a * w + k) w
      have hmod := Nat.mod_lt (a * w + k) hw
      apply h ((a * w + k) / w) _ _ ((a * w + k) % w) x
      · rw [if_pos hmod, ← hk]
        congr 1
        omega
      · rw [Nat.le_div_iff_mul_le hw]
        omega
      · rw [Nat.div_lt_iff_lt_mul hw]
        omega
    · cases hk

/-- The first 32 bytes of an entry. -/
abbrev entryHash (e : Bytes) : Bytes := slice e 0 32

/-- The pack field of a packed entry. -/
abbrev entryPack (e : Bytes) : Bytes := slice e 32 32

/-- The offset field of a packed entry. -/
abbrev entryOffset (e : Bytes) : ℕ := ofBe (slice e 64 4)

/-- The checks that `page_from` makes on one packed slot. -/
structure EntryOk (e : Bytes) : Prop where
  padding : isZero (slice e 68 4) = true
  hole : isZero (entryHash e) = true → isZero (slice e 32 36) = true
  direct : isZero (entryPack e) = true → entryOffset e = 0
  located : isZero (entryPack e) = false →
    entryOffset e % chunkBytes = 0 ∧ entryOffset e < maxObjectBytes

/-- An entry that points into a pack. -/
def Located (e : Bytes) : Prop := isZero (entryHash e) = false ∧ isZero (entryPack e) = false

/-- The layout of a page, entry by entry. -/
structure Shaped (size index : ℕ) (packed : Bool) (pg : Bytes) : Prop where
  length_eq : pg.length = pageBytes packed
  take_eq : pg.take 8 = pageMagic packed
  index_eq : ofBe (slice pg 8 8) = index
  tail_zero : isZero (pg.drop (16 + slots * pageWidth packed)) = true
  beyond : ∀ j, validSlots size index ≤ j → j < slots →
    isZero (entryAt (pageWidth packed) pg j) = true
  entryOk : packed = true → ∀ j < slots, EntryOk (entryAt packSlotBytes pg j)
  consistent : packed = true → ∀ j < slots, ∀ k < slots,
    Located (entryAt packSlotBytes pg j) → Located (entryAt packSlotBytes pg k) →
    entryPack (entryAt packSlotBytes pg j) = entryPack (entryAt packSlotBytes pg k) →
    entryOffset (entryAt packSlotBytes pg j) = entryOffset (entryAt packSlotBytes pg k) →
    entryHash (entryAt packSlotBytes pg j) = entryHash (entryAt packSlotBytes pg k)

theorem pageWidth_pos (packed : Bool) : 0 < pageWidth packed := by
  cases packed <;> decide

/-- A page has room for its entries. -/
theorem room_pageBytes (packed : Bool) : 16 + slots * pageWidth packed ≤ pageBytes packed := by
  cases packed <;> decide

theorem Shaped.room {size index : ℕ} {packed : Bool} {pg : Bytes}
    (h : Shaped size index packed pg) :
    16 + slots * pageWidth packed ≤ pg.length := by
  rw [h.length_eq]
  exact room_pageBytes packed

theorem stride_of_take {packed : Bool} {pg : Bytes} (h : pg.take 8 = pageMagic packed) :
    stride pg = pageWidth packed := by
  cases packed with
  | false => exact stride_of_magic h
  | true => exact stride_of_packMagic h

/-- The stride of a page is the one of its kind. -/
theorem Shaped.stride_eq {size index : ℕ} {packed : Bool} {pg : Bytes}
    (h : Shaped size index packed pg) : stride pg = pageWidth packed :=
  stride_of_take h.take_eq

/-- The fields of a slot of a packed page are those of its entry. -/
theorem packed_fields {pg : Bytes} (ht : pg.take 8 = packMagic) {i : ℕ} (hi : i < slots) :
    slice pg (slotAt pg i) 32 = entryHash (entryAt packSlotBytes pg i) ∧
    slice pg (slotAt pg i + 32) 32 = entryPack (entryAt packSlotBytes pg i) ∧
    slice pg (slotAt pg i + 64) 4 = slice (entryAt packSlotBytes pg i) 64 4 ∧
    slice pg (slotAt pg i + 68) 4 = slice (entryAt packSlotBytes pg i) 68 4 ∧
    slice pg (slotAt pg i + 32) 36 = slice (entryAt packSlotBytes pg i) 32 36 := by
  have hat : slotAt pg i = 16 + i * packSlotBytes := by
    rw [slotAt, Nat.mod_eq_of_lt hi, stride_of_packMagic ht]
  rw [hat]
  refine ⟨?_, ?_, ?_, ?_, ?_⟩
  · rw [entryHash, entryAt, slice_slice (by decide), Nat.add_zero]
  · rw [entryPack, entryAt, slice_slice (by decide)]
  · rw [entryAt, slice_slice (by decide)]
  · rw [entryAt, slice_slice (by decide)]
  · rw [entryAt, slice_slice (by decide)]

private theorem packedSlotOk_iff {pg : Bytes} (ht : pg.take 8 = packMagic) {i : ℕ}
    (hi : i < slots) : packedSlotOk pg i = true ↔ EntryOk (entryAt packSlotBytes pg i) := by
  obtain ⟨h0, h32, h64, h68, h36⟩ := packed_fields ht hi
  unfold packedSlotOk
  simp only [h0, h32, h64, h68, h36, Bool.and_eq_true, Bool.not_eq_true', Bool.and_eq_false_iff,
    Bool.not_eq_false', Bool.or_eq_true, bne_eq_false_iff_eq, beq_iff_eq, decide_eq_true_eq]
  constructor
  · rintro ⟨⟨⟨hp, hh⟩, hd⟩, hl⟩
    refine ⟨hp, fun h => ?_, fun h => ?_, fun h => ?_⟩
    · rcases hh with hh | hh
      · rw [h] at hh; cases hh
      · exact hh
    · rcases hd with hd | hd
      · rw [h] at hd; cases hd
      · exact hd
    · rcases hl with hl | hl
      · rw [h] at hl; cases hl
      · exact hl
  · intro h
    refine ⟨⟨⟨h.padding, ?_⟩, ?_⟩, ?_⟩
    · cases hz : isZero (entryHash (entryAt packSlotBytes pg i)) with
      | false => exact Or.inl rfl
      | true => exact Or.inr (h.hole hz)
    · cases hz : isZero (entryPack (entryAt packSlotBytes pg i)) with
      | false => exact Or.inl rfl
      | true => exact Or.inr (h.direct hz)
    · cases hz : isZero (entryPack (entryAt packSlotBytes pg i)) with
      | false => exact Or.inr (h.located hz)
      | true => exact Or.inl rfl

private theorem locationsOk_iff {pg : Bytes} (ht : pg.take 8 = packMagic) :
    locationsOk pg = true ↔ ∀ j < slots, ∀ k < slots,
      Located (entryAt packSlotBytes pg j) → Located (entryAt packSlotBytes pg k) →
      entryPack (entryAt packSlotBytes pg j) = entryPack (entryAt packSlotBytes pg k) →
      entryOffset (entryAt packSlotBytes pg j) = entryOffset (entryAt packSlotBytes pg k) →
      entryHash (entryAt packSlotBytes pg j) = entryHash (entryAt packSlotBytes pg k) := by
  simp only [locationsOk, List.all_eq_true, List.mem_range]
  refine forall₂_congr fun j hj => forall₂_congr fun k hk => ?_
  obtain ⟨hj0, hj32, hj64, -, -⟩ := packed_fields ht hj
  obtain ⟨hk0, hk32, hk64, -, -⟩ := packed_fields ht hk
  simp only [hj0, hj32, hj64, hk0, hk32, hk64, Located, Bool.or_eq_true, Bool.not_eq_true',
    Bool.and_eq_false_iff, Bool.not_eq_false', beq_iff_eq, beq_eq_false_iff_ne]
  constructor
  · rintro h ⟨hj1, hj2⟩ ⟨hk1, hk2⟩ hp ho
    rcases h with ((((h | h) | (h | h)) | h) | h) | h
    · rw [hj1] at h; cases h
    · rw [hj2] at h; cases h
    · rw [hk1] at h; cases h
    · rw [hk2] at h; cases h
    · exact absurd hp h
    · exact absurd ho h
    · exact h
  · intro h
    by_contra hne
    simp only [not_or, Bool.not_eq_true, ne_eq, not_not] at hne
    tauto

/-- The checks of `page_from` are the layout. -/
theorem pageShape_iff {size index : ℕ} {packed : Bool} {pg : Bytes} :
    pageShape size index packed pg = true ↔ Shaped size index packed pg := by
  unfold pageShape
  simp only [Bool.and_eq_true, decide_eq_true_eq, beq_iff_eq, Bool.or_eq_true, Bool.not_eq_true',
    List.all_eq_true, List.mem_range]
  rw [isZero_entries (pageWidth_pos packed)]
  constructor
  · rintro ⟨⟨⟨⟨⟨hlen, htake⟩, hidx⟩, htail⟩, hbeyond⟩, hpacked⟩
    refine ⟨hlen, htake, hidx, htail, hbeyond, fun hp => ?_, fun hp => ?_⟩
    · subst hp
      intro j hj
      have h := (hpacked.resolve_left (by simp)).1 j hj
      exact (packedSlotOk_iff htake hj).mp h
    · subst hp
      exact (locationsOk_iff htake).mp (hpacked.resolve_left (by simp)).2
  · intro h
    refine ⟨⟨⟨⟨⟨h.length_eq, h.take_eq⟩, h.index_eq⟩, h.tail_zero⟩, h.beyond⟩, ?_⟩
    cases packed with
    | false => exact Or.inl rfl
    | true =>
      exact Or.inr ⟨fun j hj => (packedSlotOk_iff h.take_eq hj).mpr (h.entryOk rfl j hj),
        (locationsOk_iff h.take_eq).mpr (h.consistent rfl)⟩

section Entries

variable {size index : ℕ} {packed : Bool} {pg : Bytes}

/-- A slot is read from its entry. -/
theorem Shaped.slot_eq (h : Shaped size index packed pg) (i : ℕ) :
    slot pg i = entrySlot (entryAt (pageWidth packed) pg (i % slots)) := by
  rw [slot_eq_entrySlot, h.stride_eq]

/-- And so is the object. -/
theorem Shaped.objectSlot_eq (h : Shaped size index packed pg) (i : ℕ) :
    objectSlot pg i = entryObject (entryAt (pageWidth packed) pg (i % slots)) := by
  rw [objectSlot_eq_entryObject i (by rw [h.stride_eq]; exact h.room), h.stride_eq]

theorem Shaped.length_entry (h : Shaped size index packed pg) {j : ℕ} (hj : j < slots) :
    (entryAt (pageWidth packed) pg j).length = pageWidth packed :=
  length_entryAt hj h.room

/-- A page without any data has no entries. -/
theorem isZero_entry_of_drop {w : ℕ} {pg : Bytes} (hw : 0 < w) (h : isZero (pg.drop 16) = true)
    {j : ℕ} (hj : j < slots) : isZero (entryAt w pg j) = true := by
  have hs : isZero (slice pg (16 + 0 * w) (slots * w - 0 * w)) = true := by
    rw [Nat.zero_mul, Nat.add_zero, Nat.sub_zero, slice]
    simp only [isZero, List.all_eq_true] at h ⊢
    intro x hx
    exact h x (List.mem_of_mem_take hx)
  exact (isZero_entries hw pg 0).mp hs j (Nat.zero_le j) hj

theorem entrySlot_of_isZero {e : Bytes} (h : isZero e = true) : entrySlot e = none := by
  rw [entrySlot, if_pos (isZero_of_slice h)]

end Entries

section Empty

theorem length_pageMagic (packed : Bool) : (pageMagic packed).length = 8 := by
  cases packed <;> rfl

theorem sixteen_le_pageBytes (packed : Bool) : 16 ≤ pageBytes packed := by
  cases packed <;> decide

/-- An empty page has empty entries. -/
theorem entryAt_emptyPage (packed : Bool) (index : ℕ) {j : ℕ} (hj : j < slots) :
    entryAt (pageWidth packed) (emptyPage packed index) j = zeros (pageWidth packed) := by
  have hb := entry_bound (w := pageWidth packed) hj
  have hr := room_pageBytes packed
  have hh : (pageMagic packed ++ beBytes 8 index).length = 16 := by
    simp [length_pageMagic]
  rw [entryAt, emptyPage, slice_append_right (by omega), hh, slice_zeros (by omega)]

/-- Which are in order. -/
theorem entryOk_zeros : EntryOk (zeros packSlotBytes) where
  padding := by rw [slice_zeros (by decide)]; simp
  hole _ := by rw [slice_zeros (by decide)]; simp
  direct _ := by rw [entryOffset, slice_zeros (by decide)]; decide
  located h := by
    rw [entryPack, slice_zeros (by decide)] at h
    simp at h

theorem not_located_of_isZero {e : Bytes} (h : isZero e = true) : ¬ Located e := by
  rintro ⟨h1, -⟩
  rw [entryHash, isZero_of_slice h] at h1
  cases h1

/-- The page of a range without data has the layout of a page. -/
theorem shaped_emptyPage (size : ℕ) {index : ℕ} (packed : Bool) (hidx : index < 256 ^ 8) :
    Shaped size index packed (emptyPage packed index) := by
  have hh : (pageMagic packed ++ beBytes 8 index).length = 16 := by
    simp [length_pageMagic]
  have h16 := sixteen_le_pageBytes packed
  have hr := room_pageBytes packed
  refine ⟨?_, ?_, ?_, ?_, ?_, ?_, ?_⟩
  · rw [emptyPage, List.length_append, hh, length_zeros]
    omega
  · rw [emptyPage, List.append_assoc, List.take_append_of_le_length (by rw [length_pageMagic]),
      List.take_of_length_le (by rw [length_pageMagic])]
  · rw [emptyPage, slice_append_left (by omega), slice_append_right (by rw [length_pageMagic]),
      length_pageMagic, Nat.sub_self, slice_eq_self (by simp), ofBe_beBytes hidx]
  · rw [emptyPage, List.drop_append, List.drop_eq_nil_of_le (by omega), List.nil_append, zeros,
      List.drop_replicate]
    exact isZero_zeros _
  · intro j _ hj
    rw [entryAt_emptyPage packed index hj]
    simp
  · intro hp j hj
    subst hp
    have := entryAt_emptyPage true index hj
    rw [show pageWidth true = packSlotBytes from rfl] at this
    rw [this]
    exact entryOk_zeros
  · intro hp j hj k _ hl
    subst hp
    have := entryAt_emptyPage true index hj
    rw [show pageWidth true = packSlotBytes from rfl] at this
    rw [this] at hl
    exact absurd hl (not_located_of_isZero (by simp))

end Empty

section Edited

/-- An edited page keeps its layout if its new entries are well formed, lie within the disk
and agree on the packs they point into. -/
theorem Shaped.edits {size index : ℕ} {packed : Bool} {pg pg' : Bytes} {g : ℕ → Bytes}
    (h : Shaped size index packed pg) (he : Edits (pageWidth packed) pg pg' g)
    (hbeyond : ∀ j, validSlots size index ≤ j → j < slots → isZero (g j) = true)
    (hok : packed = true → ∀ j < slots, EntryOk (g j))
    (hcons : packed = true → ∀ j < slots, ∀ k < slots, Located (g j) → Located (g k) →
      entryPack (g j) = entryPack (g k) → entryOffset (g j) = entryOffset (g k) →
      entryHash (g j) = entryHash (g k)) :
    Shaped size index packed pg' := by
  have hmid : slice pg' 8 8 = slice pg 8 8 := by
    have := congrArg (fun l => slice l 8 8) he.head_eq
    simpa only [slice_slice (show 8 + 8 ≤ 16 by omega), Nat.zero_add] using this
  refine ⟨he.length_eq.trans h.length_eq, (take_eq_of_slice he.head_eq).trans h.take_eq,
    by rw [hmid]; exact h.index_eq, by rw [he.tail_eq]; exact h.tail_zero, ?_, ?_, ?_⟩
  · intro j hv hj
    rw [he.entry_eq j hj]
    exact hbeyond j hv hj
  · intro hp j hj
    subst hp
    rw [show packSlotBytes = pageWidth true from rfl, he.entry_eq j hj]
    exact hok rfl j hj
  · intro hp j hj k hk
    subst hp
    rw [show packSlotBytes = pageWidth true from rfl, he.entry_eq j hj, he.entry_eq k hk]
    exact hcons rfl j hj k hk

theorem directEntry_pack_zero {e : Bytes} (h : e.length = 32) :
    isZero (entryPack (directEntry e)) = true := by
  rw [entryPack, directEntry, slice_append_right (by omega), slice_zeros (by omega)]
  simp

/-- A direct entry is in order. -/
theorem entryOk_directEntry {e : Bytes} (h : e.length = 32) : EntryOk (directEntry e) where
  padding := by
    rw [directEntry, slice_append_right (by omega), slice_zeros (by omega)]
    simp
  hole _ := by
    rw [directEntry, slice_append_right (by omega), slice_zeros (by omega)]
    simp
  direct _ := by
    rw [entryOffset, directEntry, slice_append_right (by omega), slice_zeros (by omega)]
    decide
  located hl := by
    rw [directEntry_pack_zero h] at hl
    cases hl

/-- It has no pack. -/
theorem not_located_directEntry {e : Bytes} (h : e.length = 32) : ¬ Located (directEntry e) := by
  rintro ⟨-, hp⟩
  rw [directEntry_pack_zero h] at hp
  cases hp

theorem isZero_directEntry {e : Bytes} (h : isZero e = true) : isZero (directEntry e) = true := by
  simp only [directEntry, isZero, List.all_append, Bool.and_eq_true] at h ⊢
  exact ⟨h, isZero_zeros 40⟩

/-- Converting an inherited page keeps its layout. -/
theorem shaped_packedPage {size index : ℕ} {pg : Bytes} (h : Shaped size index false pg) :
    Shaped size index true (packedPage pg) := by
  have he := packedPage_edits h.length_eq h.take_eq
  have hlen : (16 : ℕ) ≤ pg.length := by
    rw [h.length_eq]
    decide
  have hhead : (packMagic ++ slice pg 8 8).length = 16 := by
    have : min 8 (pg.length - 8) = 8 := by omega
    simp [packMagic, this]
  have hentry : ∀ j < slots, (entryAt 32 pg j).length = 32 := fun j hj => h.length_entry hj
  have hmid : slice (packedPage pg) 8 8 = slice pg 8 8 := by
    have h1 := congrArg (fun l => slice l 8 8) he.head_eq
    simp only [slice_slice (show 8 + 8 ≤ 16 by omega), Nat.zero_add] at h1
    rw [h1, blankPacked, slice_append_left (by omega), slice_append_right (by decide)]
    exact slice_eq_self (by rw [length_slice]; omega)
  refine ⟨he.length_eq.trans (length_blankPacked hlen),
    (take_eq_of_slice he.head_eq).trans (take_blankPacked pg), by rw [hmid]; exact h.index_eq,
    ?_, ?_, ?_, ?_⟩
  · have hroom : 16 ≤ 16 + slots * packSlotBytes := by omega
    rw [show pageWidth true = packSlotBytes from rfl, he.tail_eq, blankPacked, List.drop_append,
      List.drop_eq_nil_of_le (by omega), List.nil_append, zeros, List.drop_replicate]
    exact isZero_zeros _
  · intro j hv hj
    rw [show pageWidth true = packSlotBytes from rfl, he.entry_eq j hj]
    exact isZero_directEntry (h.beyond j hv hj)
  · intro _ j hj
    rw [he.entry_eq j hj]
    exact entryOk_directEntry (hentry j hj)
  · intro _ j hj k hk hl
    rw [he.entry_eq j hj] at hl
    exact absurd hl (not_located_directEntry (hentry j hj))

end Edited

section Fetched

variable {P : Platform} {view : View} {v : IndexedVolume} {index : ℕ} {pg : Bytes}

/-- The bytes of a fetched page before an inherited one is converted. -/
theorem pageFrom_some {hash : Hash} {base : Bool}
    (hok : v.pageFrom P view index (some hash) base = .ok pg) :
    ∃ bytes, (if base then ∃ b, v.root.base = some b ∧ view.baseChunk b.image hash none = .ok bytes
        else view.chunk v.space hash = .ok bytes) ∧
      P.digest bytes = hash ∧ Shaped v.root.size index (v.packed && !base) bytes ∧
      pg = if v.packed && base then packedPage bytes else bytes := by
  unfold pageFrom at hok
  cases base with
  | false =>
    simp only [Bool.false_eq_true, if_false] at hok ⊢
    cases hc : view.chunk v.space hash with
    | error e => simp [hc] at hok
    | ok bytes =>
      simp only [hc] at hok
      split at hok
      · cases hok
      · rename_i bytes' hb
        split at hb
        · rename_i hcond
          obtain rfl := Except.ok.inj hb
          exact ⟨bytes, rfl, hcond.1, pageShape_iff.mp hcond.2, (Except.ok.inj hok).symm⟩
        · cases hb
  | true =>
    simp only [if_true] at hok ⊢
    cases hr : v.root.base with
    | none => simp [hr] at hok
    | some b =>
      simp only [hr] at hok
      cases hc : view.baseChunk b.image hash none with
      | error e => simp [hc] at hok
      | ok bytes =>
        simp only [hc] at hok
        split at hok
        · cases hok
        · rename_i bytes' hb
          split at hb
          · rename_i hcond
            obtain rfl := Except.ok.inj hb
            exact ⟨bytes, ⟨b, rfl, hc⟩, hcond.1, pageShape_iff.mp hcond.2,
              (Except.ok.inj hok).symm⟩
          · cases hb

/-- Every fetched page has the layout of the volume's pages. -/
theorem shaped_pageFrom {hash : Option Hash} {base : Bool} (hidx : index < 256 ^ 8)
    (hok : v.pageFrom P view index hash base = .ok pg) : Shaped v.root.size index v.packed pg := by
  have key : ∀ bytes, Shaped v.root.size index (v.packed && !base) bytes →
      pg = (if v.packed && base then packedPage bytes else bytes) →
      Shaped v.root.size index v.packed pg := by
    rintro bytes hs rfl
    cases hp : v.packed <;> cases base <;> simp only [hp, Bool.not_true, Bool.not_false,
      Bool.and_true, Bool.and_false, Bool.false_eq_true, if_false, if_true] at hs ⊢
    · exact hs
    · exact hs
    · exact hs
    · exact shaped_packedPage hs
  cases hash with
  | none =>
    exact key _ (shaped_emptyPage _ _ hidx)
      (by simpa only [pageFrom, Except.ok.injEq] using hok.symm)
  | some hash =>
    obtain ⟨bytes, -, -, hs, heq⟩ := pageFrom_some hok
    exact key bytes hs heq

/-- A stored object with the right digest and layout is a page. -/
theorem pageFrom_private {hash : Hash} (hc : view.chunk v.space hash = .ok pg)
    (hd : P.digest pg = hash) (hs : Shaped v.root.size index v.packed pg) :
    v.pageFrom P view index (some hash) false = .ok pg := by
  have hshape : pageShape v.root.size index (v.packed && !false) pg = true := by
    rw [Bool.not_false, Bool.and_true]
    exact pageShape_iff.mpr hs
  simp only [pageFrom, Bool.false_eq_true, if_false, hc, hd, hshape, and_self, if_true,
    Bool.and_false]

end Fetched

end AgentHouse.Volume
