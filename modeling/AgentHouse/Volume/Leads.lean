import AgentHouse.Volume.Working

/-!
# What an entry leads to

A load sees one entry of a page, the base page beside it and one object. `Leads` says that
an entry leads to a chunk; there is one lemma for each kind of entry that a commit writes: a
hole, an entry it keeps, a chunk of the base, a chunk of its own and a place in a pack.
-/

namespace AgentHouse.Volume

open IndexedVolume

section Base

variable {P : Platform} {S : Set Bytes} {B B' : Bucket} {v : IndexedVolume} {f : ℕ → Bytes}

/-- A base page is an unpacked page, converted if the volume is packed. -/
theorem pageFrom_base {view : View} {index : ℕ} {hash : Option Hash} {pg : Bytes}
    (hidx : index < 256 ^ 8) (hok : v.pageFrom P view index hash true = .ok pg) :
    ∃ bytes, Shaped v.root.size index false bytes ∧
      pg = if v.packed then packedPage bytes else bytes := by
  cases hash with
  | none =>
    refine ⟨emptyPage false index, shaped_emptyPage _ false hidx, ?_⟩
    simpa only [pageFrom, Bool.not_true, Bool.and_false, Bool.and_true,
      Except.ok.injEq] using hok.symm
  | some hash =>
    obtain ⟨bytes, -, -, hs, heq⟩ := pageFrom_some hok
    exact ⟨bytes, by simpa using hs, by simpa using heq⟩

/-- Chunks of the base are always their own objects. -/
theorem Holds.base_objectSlot (h : Holds P S B v f) {i : ℕ} (hi : i < v.chunkCount) :
    objectSlot (storedBase P B v (i / slots)) i =
      (slot (storedBase P B v (i / slots)) i).map (fun hash => (hash, 0)) := by
  have hp := div_slots_lt_pageCount hi
  have hj : i % slots < slots := Nat.mod_lt _ slots_pos
  obtain ⟨bytes, hs, heq⟩ := pageFrom_base (h.page_bound hp) (h.basePage_eq hp)
  have hlen : (entryAt 32 bytes (i % slots)).length = 32 := hs.length_entry hj
  rw [heq]
  cases hk : v.packed with
  | false =>
    simp only [Bool.false_eq_true, if_false]
    rw [hs.slot_eq, hs.objectSlot_eq]
    exact entryObject_short hlen
  | true =>
    have hsp := shaped_packedPage hs
    have he := (packedPage_edits hs.length_eq hs.take_eq).entry_eq _ hj
    simp only [if_true]
    rw [hsp.slot_eq, hsp.objectSlot_eq, show pageWidth true = packSlotBytes from rfl, he,
      entrySlot_directEntry hlen, entryObject_directEntry hlen]

/-- Only a volume with a base has chunks in its base pages. -/
theorem Holds.base_of_slot (h : Holds P S B v f) {i : ℕ} (hi : i < v.chunkCount) {hash : Hash}
    (hs : slot (storedBase P B v (i / slots)) i = some hash) :
    ∃ c b, v.base = some c ∧ v.root.base = some b := by
  have hp := div_slots_lt_pageCount hi
  have hbase := h.base
  cases hc : v.base with
  | none =>
    exfalso
    have hok := h.basePage_eq hp
    have hj : i % slots < slots := Nat.mod_lt _ slots_pos
    have hse := shaped_emptyPage v.root.size false (h.page_bound hp)
    have hz : entrySlot (entryAt 32 (emptyPage false (i / slots)) (i % slots)) = none := by
      apply entrySlot_of_isZero
      have := entryAt_emptyPage false (i / slots) hj
      rw [show pageWidth false = 32 from rfl] at this
      rw [this]
      simp
    have heq : storedBase P B v (i / slots) =
        if v.packed then packedPage (emptyPage false (i / slots))
        else emptyPage false (i / slots) := by
      simpa only [IndexedVolume.basePage, hc, Option.bind_none, pageFrom, Bool.not_true,
        Bool.and_false, Bool.and_true, Except.ok.injEq] using hok.symm
    rw [heq] at hs
    cases hk : v.packed with
    | false =>
      simp only [hk, Bool.false_eq_true, if_false] at hs
      rw [hse.slot_eq, show pageWidth false = 32 from rfl, hz] at hs
      cases hs
    | true =>
      have hlen : (entryAt 32 (emptyPage false (i / slots)) (i % slots)).length = 32 :=
        hse.length_entry hj
      simp only [hk, if_true] at hs
      rw [(shaped_packedPage hse).slot_eq, show pageWidth true = packSlotBytes from rfl,
        (packedPage_edits hse.length_eq hse.take_eq).entry_eq _ hj, entrySlot_directEntry hlen,
        hz] at hs
      cases hs
  | some c =>
    cases hb : v.root.base with
    | none => simp [loadBase, hb, hc] at hbase
    | some b => exact ⟨c, b, rfl, rfl⟩

/-- The page of a base is read as it is stored. -/
theorem Holds.basePage?_eq (h : Holds P S B v f) {p : ℕ} (hp : p < pageCount v.root.size) :
    v.basePage? P B.view p = .ok (v.base.map (fun _ => storedBase P B v p)) := by
  unfold basePage?
  cases v.base with
  | none => rfl
  | some c => simp [h.basePage_eq hp]

theorem Holds.basePage?_sound (h : Holds P S B v f) {view : View} (hs : view.Sound B) {p : ℕ}
    (hp : p < pageCount v.root.size) {pg : Option Bytes} (hok : v.basePage? P view p = .ok pg) :
    pg = v.base.map (fun _ => storedBase P B v p) :=
  Except.ok.inj ((basePage?_mono (hs.le B.view_healthy) hok).symm.trans (h.basePage?_eq hp))

/-- A larger bucket stores the same. -/
theorem Holds.storedBase_mono (h : Holds P S B v f) (hle : B.Le B') {p : ℕ}
    (hp : p < pageCount v.root.size) : storedBase P B' v p = storedBase P B v p := by
  have := basePage_mono hle.view (h.basePage_eq hp)
  simp only [storedBase, this]

end Base

section Leads

variable {P : Platform} {S : Set Bytes} {B B' : Bucket} {v : IndexedVolume} {f : ℕ → Bytes}
  {i : ℕ} {e c : Bytes}

/-- A chunk whose slot holds the entry `e` loads as `c`. -/
def Leads (P : Platform) (B : Bucket) (v : IndexedVolume) (i : ℕ) (e c : Bytes) : Prop :=
  ∀ pg, slot pg i = entrySlot e → objectSlot pg i = entryObject e →
    v.loadFrom P B.view pg i = .ok c

/-- An empty slot leads to zeros. -/
theorem leads_hole (he : entrySlot e = none) : Leads P B v i e (zeros chunkBytes) := by
  intro pg hs _
  simp only [loadFrom, hs, he]

/-- The stored entry leads to the stored chunk. -/
theorem Holds.leads_stored (h : Holds P S B v f) (hi : i < v.chunkCount) :
    Leads P B v i (entryNow P B v ∅ i) (f i) := by
  intro pg hs ho
  have hw : Working P B v ∅ := Working.empty
  have hcur : current P B v ∅ (i / slots) = storedPage P B v (i / slots) := by simp [current]
  rw [← hw.slot_eq h hi, hcur] at hs
  rw [← hw.objectSlot_eq h hi, hcur] at ho
  rw [loadFrom_congr hs ho]
  exact h.loadFrom_stored hi

/-- A slot leads to the same chunk in a larger bucket. -/
theorem Leads.mono (hl : Leads P B v i e c) (hle : B.Le B') : Leads P B' v i e c :=
  fun pg hs ho => loadFrom_mono hle.view (hl pg hs ho)

/-- A loaded chunk has the digest that its slot names. -/
theorem loadFrom_digest {view : View} {pg : Bytes} {hash : Hash}
    (hs : slot pg i = some hash) (hok : v.loadFrom P view pg i = .ok c) : P.digest c = hash := by
  unfold loadFrom at hok
  simp only [hs] at hok
  split at hok
  · cases hok
  · split at hok
    · cases hok
    · split at hok
      · cases hok
      · split at hok
        · cases hok
        · split at hok
          · cases hok
          · rename_i hne
            rw [← Except.ok.inj hok]
            by_contra hc
            exact hne (Or.inr hc)

/-- A chunk that the base has at the same slot is read from the base. -/
theorem Holds.leads_base (h : Holds P S B v f) (ha : Addressed P S B) (hi : i < v.chunkCount)
    {hash : Hash} (hb : slot (storedBase P B v (i / slots)) i = some hash)
    (hs : entrySlot e = some hash) (ho : entryObject e = some (hash, 0)) :
    ∃ c, Leads P B v i e c ∧ P.digest c = hash ∧ c ∈ S := by
  have hp := div_slots_lt_pageCount hi
  obtain ⟨cat, base, hcat, hbase⟩ := h.base_of_slot hi hb
  obtain ⟨c, hc, hlen⟩ := h.baseChunks i hi _ hash base (h.basePage_eq hp) hb hbase
  obtain ⟨hd, hmem⟩ := ha _ _ _ hc
  refine ⟨c, fun pg hpg hpo => ?_, hd, hmem⟩
  have hinh : inheritsSlot (some (storedBase P B v (i / slots))) pg i hash = true := by
    have := h.base_objectSlot hi
    rw [hb] at this
    simp only [inheritsSlot, Option.any_some, hb, this, hpo, ho, Option.map_some, decide_true,
      Bool.and_self]
  have hview := B.view_healthy.baseChunk_of (some (i * chunkBytes)) hc
  simp only [loadFrom, hpg, hs, h.basePage?_eq hp, hcat, Option.map_some, hpo, ho, hinh, if_true,
    hbase, hview, extract, Bool.not_true, Bool.false_and, Bool.false_eq_true, if_false, hd,
    hlen, ne_eq, not_true_eq_false, or_self]

/-- A chunk that the base does not have at its slot is read from its private object. -/
theorem Holds.leads_private (h : Holds P S B v f) (hi : i < v.chunkCount) {hash object : Hash}
    {offset : ℕ} {bytes : Bytes} (hb : slot (storedBase P B v (i / slots)) i ≠ some hash)
    (hs : entrySlot e = some hash) (ho : entryObject e = some (object, offset))
    (hobj : (B.objects v.space)[object]? = some bytes)
    (hext : extract P object hash offset false bytes = .ok c) (hlen : c.length = chunkBytes)
    (hd : P.digest c = hash) : Leads P B v i e c := by
  intro pg hpg hpo
  have hp := div_slots_lt_pageCount hi
  have hinh : inheritsSlot (v.base.map (fun _ => storedBase P B v (i / slots))) pg i hash =
      false := by
    cases v.base with
    | none => rfl
    | some cat => simp [inheritsSlot, hb]
  have hf := B.view_healthy.fetch_of hobj
  simp only [loadFrom, hpg, hs, h.basePage?_eq hp, hpo, ho, hinh, Bool.false_eq_true, if_false,
    hf, hext, hlen, hd, ne_eq, not_true_eq_false, or_self]

/-- Where a located chunk was found: in a pack of which it is a slice, or alone. -/
theorem Holds.located_object (h : Holds P S B v f) (ha : Addressed P S B) (hi : i < v.chunkCount)
    {hash pack : Hash} {offset : ℕ}
    (hs : slot (storedPage P B v (i / slots)) i = some hash)
    (ho : objectSlot (storedPage P B v (i / slots)) i = some (pack, offset)) :
    ∃ obj ∈ S, P.digest obj = pack ∧
      (pack ≠ hash → slice obj offset chunkBytes = f i) ∧ (pack = hash → obj = f i) := by
  have hp := div_slots_lt_pageCount hi
  have hl := h.loadFrom_stored hi
  have hdf := loadFrom_digest hs hl
  by_cases heq : pack = hash
  · exact ⟨f i, h.known i hi, by rw [heq]; exact hdf, fun hne => absurd heq hne, fun _ => rfl⟩
  · have hinh : inheritsSlot (v.base.map (fun _ => storedBase P B v (i / slots)))
        (storedPage P B v (i / slots)) i hash = false := by
      cases v.base with
      | none => rfl
      | some cat =>
        simp only [Option.map_some, inheritsSlot, Option.any_some, Bool.and_eq_false_iff,
          decide_eq_false_iff_not]
        by_cases hb : slot (storedBase P B v (i / slots)) i = some hash
        · right
          rw [h.base_objectSlot hi, hb, ho]
          simp [Ne.symm heq]
        · exact Or.inl hb
    simp only [loadFrom, hs, h.basePage?_eq hp, ho, hinh, Bool.false_eq_true, if_false] at hl
    cases hf : B.view.fetch v.space pack with
    | error er => simp [hf] at hl
    | ok bytes =>
      obtain ⟨hdig, hmem⟩ := ha _ _ _ (B.view_healthy.toSound.of_fetch hf)
      refine ⟨bytes, hmem, hdig, fun _ => ?_, fun hc => absurd hc heq⟩
      simp only [hf, extract, Bool.not_false, Bool.true_and, decide_eq_true_eq, ne_eq, heq,
        not_false_eq_true, if_true] at hl
      split at hl
      · cases hl
      · rename_i chunk hchunk
        split at hchunk
        · cases hchunk
        · split at hl
          · cases hl
          · rw [Except.ok.inj hchunk]
            exact Except.ok.inj hl

end Leads

end AgentHouse.Volume
