import AgentHouse.Volume.Contents

/-!
# Pages under construction

A commit edits copies of the stored pages. `Working` relates the copies to the stored pages
and gives each dirty chunk its entry; what the loops of both commit paths do to a page is
replacing the entries of their chunks one after another.
-/

namespace AgentHouse.Volume

open IndexedVolume

section Stored

variable {P : Platform} {S : Set Bytes} {B : Bucket} {v : IndexedVolume} {f : ℕ → Bytes}

/-- The page that the bucket holds for a range of chunks. -/
def storedPage (P : Platform) (B : Bucket) (v : IndexedVolume) (p : ℕ) : Bytes :=
  match v.page P B.view p with
  | .ok pg => pg
  | .error _ => []

/-- The page of the base for a range of chunks. -/
def storedBase (P : Platform) (B : Bucket) (v : IndexedVolume) (p : ℕ) : Bytes :=
  match v.basePage P B.view p with
  | .ok pg => pg
  | .error _ => []

/-- A page is read as it is stored. -/
theorem Holds.page_eq (h : Holds P S B v f) {p : ℕ} (hp : p < pageCount v.root.size) :
    v.page P B.view p = .ok (storedPage P B v p) := by
  obtain ⟨pg, hpg, -⟩ := loadStored_ok (h.loads (p * slots) (mul_slots_lt hp))
  rw [Nat.mul_div_cancel p slots_pos] at hpg
  simp only [storedPage, hpg]

/-- So is a page of the base. -/
theorem Holds.basePage_eq (h : Holds P S B v f) {p : ℕ} (hp : p < pageCount v.root.size) :
    v.basePage P B.view p = .ok (storedBase P B v p) := by
  obtain ⟨pg, hpg⟩ := h.basePages p hp
  simp only [storedBase, hpg]

/-- A sound view reads nothing else. -/
theorem Holds.page_sound (h : Holds P S B v f) {view : View} (hs : view.Sound B) {p : ℕ}
    (hp : p < pageCount v.root.size) {pg : Bytes} (hok : v.page P view p = .ok pg) :
    pg = storedPage P B v p :=
  Except.ok.inj ((page_mono (hs.le B.view_healthy) hok).symm.trans (h.page_eq hp))

theorem Holds.basePage_sound (h : Holds P S B v f) {view : View} (hs : view.Sound B) {p : ℕ}
    (hp : p < pageCount v.root.size) {pg : Bytes} (hok : v.basePage P view p = .ok pg) :
    pg = storedBase P B v p :=
  Except.ok.inj ((basePage_mono (hs.le B.view_healthy) hok).symm.trans (h.basePage_eq hp))

/-- A stored page has its shape. -/
theorem Holds.shaped_page (h : Holds P S B v f) {p : ℕ} (hp : p < pageCount v.root.size) :
    Shaped v.root.size p v.packed (storedPage P B v p) :=
  shaped_pageFrom (h.page_bound hp) (h.page_eq hp)

/-- The stored chunk is what its slot of the stored page leads to. -/
theorem Holds.loadFrom_stored (h : Holds P S B v f) {i : ℕ} (hi : i < v.chunkCount) :
    v.loadFrom P B.view (storedPage P B v (i / slots)) i = .ok (f i) := by
  obtain ⟨pg, hpg, hl⟩ := loadStored_ok (h.loads i hi)
  rw [h.page_sound B.view_healthy.toSound (div_slots_lt_pageCount hi) hpg] at hl
  exact hl

end Stored

section Working

variable {P : Platform} {S : Set Bytes} {B : Bucket} {v : IndexedVolume} {f : ℕ → Bytes}
  {pages : BTreeMap ℕ Bytes}

/-- The pages under construction are stored pages with edited entries. -/
structure Working (P : Platform) (B : Bucket) (v : IndexedVolume) (pages : BTreeMap ℕ Bytes) :
    Prop where
  bound : ∀ {p : ℕ} {pg : Bytes}, pages[p]? = some pg → p < pageCount v.root.size
  edits : ∀ {p : ℕ} {pg : Bytes}, pages[p]? = some pg →
    Edits (pageWidth v.packed) (storedPage P B v p) pg (entryAt (pageWidth v.packed) pg)

/-- The page as it stands: the copy under construction, or the stored page. -/
def current (P : Platform) (B : Bucket) (v : IndexedVolume) (pages : BTreeMap ℕ Bytes) (p : ℕ) :
    Bytes := (pages[p]?).getD (storedPage P B v p)

/-- The entry of a chunk as it stands. -/
def entryNow (P : Platform) (B : Bucket) (v : IndexedVolume) (pages : BTreeMap ℕ Bytes) (i : ℕ) :
    Bytes := entryAt (pageWidth v.packed) (current P B v pages (i / slots)) (i % slots)

/-- Before the first edit. -/
theorem Working.empty : Working P B v ∅ :=
  ⟨fun h => by simp at h, fun h => by simp at h⟩

/-- The page being written is an edit of the stored one. -/
theorem Working.edits_current (hw : Working P B v pages) (p : ℕ) :
    Edits (pageWidth v.packed) (storedPage P B v p) (current P B v pages p)
      (entryAt (pageWidth v.packed) (current P B v pages p)) := by
  unfold current
  cases hp : pages[p]? with
  | none => exact Edits.refl _ _
  | some pg => exact hw.edits hp

/-- It is read as it is. -/
theorem Working.workingPage_sound (h : Holds P S B v f) {view : View} (hs : view.Sound B) {p : ℕ}
    (hp : p < pageCount v.root.size) {pg : Bytes} (hok : v.workingPage P view pages p = .ok pg) :
    pg = current P B v pages p := by
  unfold IndexedVolume.workingPage at hok
  unfold current
  cases hc : pages[p]? with
  | none =>
    simp only [hc] at hok
    exact h.page_sound hs hp hok
  | some pg' =>
    simp only [hc] at hok
    exact (Except.ok.inj hok).symm

/-- The layout of the page as it stands. -/
theorem Working.room (hw : Working P B v pages) (h : Holds P S B v f) {p : ℕ}
    (hp : p < pageCount v.root.size) :
    16 + slots * pageWidth v.packed ≤ (current P B v pages p).length := by
  rw [(hw.edits_current p).length_eq]
  exact (h.shaped_page hp).room

theorem Working.stride_eq (hw : Working P B v pages) (h : Holds P S B v f) {p : ℕ}
    (hp : p < pageCount v.root.size) :
    stride (current P B v pages p) = pageWidth v.packed := by
  rw [(hw.edits_current p).stride_eq]
  exact (h.shaped_page hp).stride_eq

/-- Where a slot lies. -/
theorem Working.slotAt_eq (hw : Working P B v pages) (h : Holds P S B v f) {i : ℕ}
    (hi : i < v.chunkCount) :
    slotAt (current P B v pages (i / slots)) i = 16 + i % slots * pageWidth v.packed := by
  rw [slotAt, hw.stride_eq h (div_slots_lt_pageCount hi)]

/-- What it names. -/
theorem Working.slot_eq (hw : Working P B v pages) (h : Holds P S B v f) {i : ℕ}
    (hi : i < v.chunkCount) :
    slot (current P B v pages (i / slots)) i = entrySlot (entryNow P B v pages i) := by
  rw [slot_eq_entrySlot, hw.stride_eq h (div_slots_lt_pageCount hi), entryNow]

/-- And where the object is. -/
theorem Working.objectSlot_eq (hw : Working P B v pages) (h : Holds P S B v f) {i : ℕ}
    (hi : i < v.chunkCount) :
    objectSlot (current P B v pages (i / slots)) i = entryObject (entryNow P B v pages i) := by
  have hp := div_slots_lt_pageCount hi
  rw [objectSlot_eq_entryObject i (by rw [hw.stride_eq h hp]; exact hw.room h hp),
    hw.stride_eq h hp, entryNow]

theorem Working.length_entryNow (hw : Working P B v pages) (h : Holds P S B v f) {i : ℕ}
    (hi : i < v.chunkCount) : (entryNow P B v pages i).length = pageWidth v.packed :=
  length_entryAt (Nat.mod_lt _ slots_pos) (hw.room h (div_slots_lt_pageCount hi))

/-- Keeping a page as it is. -/
theorem Working.keep (hw : Working P B v pages) {p : ℕ} (hp : p < pageCount v.root.size) :
    Working P B v (pages.insert p (current P B v pages p)) ∧
      ∀ i, entryNow P B v (pages.insert p (current P B v pages p)) i = entryNow P B v pages i := by
  have hcur : ∀ q, current P B v (pages.insert p (current P B v pages p)) q =
      current P B v pages q := by
    intro q
    by_cases hq : p = q
    · simp [current, hq]
    · simp [current, hq, Std.ExtTreeMap.getElem?_insert]
  refine ⟨⟨?_, ?_⟩, ?_⟩
  · intro q pg hq
    rw [Std.ExtTreeMap.getElem?_insert] at hq
    split at hq
    · rename_i heq
      rw [← Std.LawfulEqCmp.eq_of_compare heq]
      exact hp
    · exact hw.bound hq
  · intro q pg hq
    rw [Std.ExtTreeMap.getElem?_insert] at hq
    split at hq
    · rename_i heq
      rw [← Std.LawfulEqCmp.eq_of_compare heq, ← Option.some.inj hq]
      exact hw.edits_current p
    · exact hw.edits hq
  · intro i
    unfold entryNow
    rw [hcur]

/-- Replacing the entry of one chunk. -/
theorem Working.set (hw : Working P B v pages) (h : Holds P S B v f) {i : ℕ}
    (hi : i < v.chunkCount) {e : Bytes} (he : e.length = pageWidth v.packed) :
    let page := splice (current P B v pages (i / slots)) (16 + i % slots * pageWidth v.packed) e
    Working P B v (pages.insert (i / slots) page) ∧
      ∀ k, entryNow P B v (pages.insert (i / slots) page) k =
        if k = i then e else entryNow P B v pages k := by
  intro page
  have hp := div_slots_lt_pageCount hi
  have hj : i % slots < slots := Nat.mod_lt _ slots_pos
  have hedit := (hw.edits_current (i / slots)).splice_entry (h.shaped_page hp).room hj he
  have hself : Edits (pageWidth v.packed) (storedPage P B v (i / slots)) page
      (entryAt (pageWidth v.packed) page) :=
    hedit.congr (fun j hj' => (hedit.entry_eq j hj').symm)
  refine ⟨⟨?_, ?_⟩, ?_⟩
  · intro q pg hq
    rw [Std.ExtTreeMap.getElem?_insert] at hq
    split at hq
    · rename_i heq
      rw [← Std.LawfulEqCmp.eq_of_compare heq]
      exact hp
    · exact hw.bound hq
  · intro q pg hq
    rw [Std.ExtTreeMap.getElem?_insert] at hq
    split at hq
    · rename_i heq
      rw [← Std.LawfulEqCmp.eq_of_compare heq, ← Option.some.inj hq]
      exact hself
    · exact hw.edits hq
  · intro k
    by_cases hq : i / slots = k / slots
    · have hcur : current P B v (pages.insert (i / slots) page) (k / slots) = page := by
        simp [current, hq]
      rw [entryNow, hcur, hedit.entry_eq _ (Nat.mod_lt _ slots_pos)]
      by_cases hki : k = i
      · rw [if_pos hki, hki, Function.update_self]
      · rw [if_neg hki, Function.update_of_ne, entryNow, hq]
        intro hmod
        apply hki
        rw [← Nat.div_add_mod k slots, ← Nat.div_add_mod i slots, hq, hmod]
    · have hcur : current P B v (pages.insert (i / slots) page) (k / slots) =
          current P B v pages (k / slots) := by
        simp [current, hq, Std.ExtTreeMap.getElem?_insert]
      rw [entryNow, hcur, if_neg (fun hki => hq (by rw [hki])), entryNow]

end Working

end AgentHouse.Volume
