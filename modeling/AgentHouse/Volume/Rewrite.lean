import AgentHouse.Volume.Leads

/-!
# The rewritten pages of a commit

Both commit paths turn the dirty map into rewritten pages and new objects. `Rewritten` states
what they have in common: the pages keep their layout, and once the new objects are stored
every entry leads to the chunk that the handle shows.
-/

namespace AgentHouse.Volume

open IndexedVolume

section Common

variable {P : Platform} {S : Set Bytes} {B : Bucket} {v : IndexedVolume} {f : ℕ → Bytes}
  {pages : BTreeMap ℕ Bytes}

/-- The bucket holds all the listed objects in one namespace. -/
def Stores (B : Bucket) (s : Space) (new : List (Hash × Bytes)) : Prop :=
  ∀ o ∈ new, (B.objects s)[o.1]? = some o.2

/-- The listed objects lie under their own hash and are among the known byte strings. -/
def Digests (P : Platform) (S : Set Bytes) (new : List (Hash × Bytes)) : Prop :=
  ∀ o ∈ new, P.digest o.2 = o.1 ∧ o.2 ∈ S

/-- The outcome of rewriting the pages of the dirty chunks. -/
structure Rewritten (P : Platform) (S : Set Bytes) (B : Bucket) (v : IndexedVolume)
    (f : ℕ → Bytes) (pages : BTreeMap ℕ Bytes) (new : List (Hash × Bytes)) : Prop where
  working : Working P B v pages
  shaped : ∀ p < pageCount v.root.size, Shaped v.root.size p v.packed (current P B v pages p)
  digests : Digests P S new
  leads : ∀ B', B.Le B' → Addressed P S B' → Stores B' v.space new → ∀ i < v.chunkCount,
    Leads P B' v i (entryNow P B v pages i) (v.over f i)

/-- A slot beyond the disk belongs to no chunk of it. -/
theorem chunkCount_le_of_validSlots {p j : ℕ} (hj : j < slots)
    (h : validSlots v.root.size p ≤ j) : v.chunkCount ≤ p * slots + j := by
  unfold validSlots at h
  unfold IndexedVolume.chunkCount
  omega

/-- The entry of a chunk, in the page being written. -/
theorem entryNow_eq (p : ℕ) {j : ℕ} (hj : j < slots) :
    entryNow P B v pages (p * slots + j) =
      entryAt (pageWidth v.packed) (current P B v pages p) j := by
  have hdiv : (p * slots + j) / slots = p := by
    rw [Nat.mul_comm, Nat.mul_add_div slots_pos, Nat.div_eq_of_lt hj, Nat.add_zero]
  have hmod : (p * slots + j) % slots = j := by
    rw [Nat.mul_comm, Nat.mul_add_mod, Nat.mod_eq_of_lt hj]
  rw [entryNow, hdiv, hmod]

/-- No page has been written at first. -/
theorem current_empty (p : ℕ) : current P B v ∅ p = storedPage P B v p := by
  simp [current]

/-- The stored entry of a slot beyond the disk is blank. -/
theorem Holds.entry_beyond (h : Holds P S B v f) {p : ℕ} (hp : p < pageCount v.root.size) {j : ℕ}
    (hv : validSlots v.root.size p ≤ j) (hj : j < slots) :
    isZero (entryNow P B v ∅ (p * slots + j)) = true := by
  rw [entryNow_eq p hj, current_empty]
  exact (h.shaped_page hp).beyond j hv hj

/-- Rewritten pages keep their layout if only entries of dirty chunks change, and these are
well formed and agree on the packs they point into. -/
theorem Working.shaped (hw : Working P B v pages) (h : Holds P S B v f) (hd : DirtyOk v)
    (hclean : ∀ i, v.dirty[i]? = none → entryNow P B v pages i = entryNow P B v ∅ i)
    (hok : v.packed = true → ∀ i < v.chunkCount, EntryOk (entryNow P B v pages i))
    (hcons : v.packed = true → ∀ i < v.chunkCount, ∀ k < v.chunkCount,
      Located (entryNow P B v pages i) → Located (entryNow P B v pages k) →
      entryPack (entryNow P B v pages i) = entryPack (entryNow P B v pages k) →
      entryOffset (entryNow P B v pages i) = entryOffset (entryNow P B v pages k) →
      entryHash (entryNow P B v pages i) = entryHash (entryNow P B v pages k))
    {p : ℕ} (hp : p < pageCount v.root.size) :
    Shaped v.root.size p v.packed (current P B v pages p) := by
  have hblank : ∀ j, j < slots → ¬ p * slots + j < v.chunkCount →
      entryNow P B v pages (p * slots + j) = entryNow P B v ∅ (p * slots + j) := by
    intro j hj hlt
    apply hclean
    cases hb : v.dirty[p * slots + j]? with
    | none => rfl
    | some b => exact absurd (hd _ _ hb).1 hlt
  have hbeyond : ∀ j, j < slots → ¬ p * slots + j < v.chunkCount →
      isZero (entryNow P B v pages (p * slots + j)) = true := by
    intro j hj hlt
    rw [hblank j hj hlt]
    apply h.entry_beyond hp _ hj
    unfold validSlots
    unfold IndexedVolume.chunkCount at hlt
    omega
  refine (h.shaped_page hp).edits (hw.edits_current p) ?_ ?_ ?_
  · intro j hv hj
    rw [← entryNow_eq p hj]
    exact hbeyond j hj (by have := chunkCount_le_of_validSlots hj hv; omega)
  · intro hk j hj
    by_cases hlt : p * slots + j < v.chunkCount
    · rw [← entryNow_eq p hj]
      exact hok hk _ hlt
    · have hse := (h.shaped_page hp).entryOk hk j hj
      rw [← entryNow_eq p hj, hblank j hj hlt, entryNow_eq p hj, current_empty, hk]
      exact hse
  · intro hk j hj m hm hlj hlm
    rw [← entryNow_eq p hj] at hlj ⊢
    rw [← entryNow_eq p hm] at hlm ⊢
    by_cases hj' : p * slots + j < v.chunkCount
    · by_cases hm' : p * slots + m < v.chunkCount
      · exact hcons hk _ hj' _ hm' hlj hlm
      · exact absurd hlm (not_located_of_isZero (hbeyond m hm hm'))
    · exact absurd hlj (not_located_of_isZero (hbeyond j hj hj'))

/-- A dirty chunk covers the stored one. -/
theorem over_of_dirty {i : ℕ} {b : Bytes} (h : v.dirty[i]? = some b) : v.over f i = b := by
  simp [IndexedVolume.over, h]

theorem over_of_clean {i : ℕ} (h : v.dirty[i]? = none) : v.over f i = f i := by
  simp [IndexedVolume.over, h]

/-- A digest is never mistaken for a hole. -/
theorem isZero_digest (hi : P.Ideal S) {b : Bytes} (hb : b ∈ S) : isZero (P.digest b) = false := by
  cases hz : isZero (P.digest b) with
  | false => rfl
  | true =>
    exfalso
    apply hi.ne_zero hb
    have := (isZero_iff _).mp hz
    rwa [P.digest_length] at this

/-- A kept entry that names the digest of a dirty chunk already leads to that chunk. -/
theorem Holds.eq_of_stored (h : Holds P S B v f) (hideal : P.Ideal S) {i : ℕ}
    (hi : i < v.chunkCount) {b : Bytes} (hb : b ∈ S)
    (hs : entrySlot (entryNow P B v ∅ i) = some (P.digest b)) : f i = b := by
  have hw : Working P B v ∅ := Working.empty
  have hslot := hw.slot_eq h hi
  rw [current_empty, hs] at hslot
  exact hideal.inj (h.known i hi) hb (loadFrom_digest hslot (h.loadFrom_stored hi))

end Common

section Unpacked

variable {P : Platform} {S : Set Bytes} {B : Bucket} {v : IndexedVolume} {f : ℕ → Bytes}

/-- The entry of a dirty chunk after the unpacked loop, and where its contents are. -/
def SettledUnpacked (P : Platform) (B : Bucket) (v : IndexedVolume)
    (acc : BTreeMap ℕ Bytes × BTreeMap Hash Bytes) (i : ℕ) (b : Bytes) : Prop :=
  if isZero b then entryNow P B v acc.1 i = zeros 32
  else entryNow P B v acc.1 i = P.digest b ∧
    (entryNow P B v ∅ i = P.digest b ∨
      slot (storedBase P B v (i / slots)) i = some (P.digest b) ∨
      (acc.2[P.digest b]?).isSome)

/-- The uploads of the unpacked loop are digests of dirty chunks. -/
def UploadsOk (P : Platform) (S : Set Bytes) (uploads : BTreeMap Hash Bytes) : Prop :=
  ∀ (h : Hash) (b : Bytes), uploads[h]? = some b → P.digest b = h ∧ b ∈ S

/-- An object that is uploaded is known. -/
theorem UploadsOk.insertIfNew {uploads : BTreeMap Hash Bytes} (hu : UploadsOk P S uploads)
    {b : Bytes} (hb : b ∈ S) : UploadsOk P S (uploads.insertIfNew (P.digest b) b) := by
  intro h c hc
  rw [Std.ExtTreeMap.getElem?_insertIfNew] at hc
  split at hc
  · rename_i heq
    rw [← Option.some.inj hc]
    exact ⟨Std.LawfulEqCmp.eq_of_compare heq.1, hb⟩
  · exact hu h c hc

/-- One round of the unpacked loop settles its own chunk. -/
private theorem stageUnpacked_step (h : Holds P S B v f) (hk : v.packed = false) {view : View}
    (hs : view.Sound B) {acc acc' : BTreeMap ℕ Bytes × BTreeMap Hash Bytes} {i : ℕ} {b : Bytes}
    (hi : i < v.chunkCount) (hb : b ∈ S)
    (hw : Working P B v acc.1) (hu : UploadsOk P S acc.2)
    (hfresh : entryNow P B v acc.1 i = entryNow P B v ∅ i)
    (hok : v.stageUnpacked P view acc (i, b) = .ok acc') :
    Working P B v acc'.1 ∧ UploadsOk P S acc'.2 ∧ SettledUnpacked P B v acc' i b ∧
      (∀ k, k ≠ i → entryNow P B v acc'.1 k = entryNow P B v acc.1 k) ∧
      ∀ d : Hash, (acc.2[d]?).isSome → (acc'.2[d]?).isSome := by
  have hp := div_slots_lt_pageCount hi
  have hwidth : pageWidth v.packed = 32 := by rw [hk]; rfl
  unfold stageUnpacked at hok
  cases hpg : v.workingPage P view acc.1 (i / slots) with
  | error e => simp [hpg] at hok
  | ok page =>
    have hcur := Working.workingPage_sound h hs hp hpg
    subst hcur
    have hentry : slice (current P B v acc.1 (i / slots)) (16 + i % slots * 32) 32 =
        entryNow P B v acc.1 i := by
      rw [entryNow, entryAt, hwidth]
    simp only [hpg, hentry] at hok
    by_cases hz : isZero b = true
    · obtain ⟨hw', he⟩ := hw.set h hi (e := zeros 32) (by simp [hwidth])
      rw [hwidth] at hw' he
      simp only [hz, if_true] at hok
      obtain rfl := Except.ok.inj hok
      refine ⟨hw', hu, ?_, fun k hki => by rw [he, if_neg hki], fun _ hd => hd⟩
      simp only [SettledUnpacked, hz, if_true, he]
    · simp only [hz, Bool.false_eq_true, if_false] at hok
      split at hok
      · rename_i hsame
        obtain rfl := Except.ok.inj hok
        obtain ⟨hw', he⟩ := hw.keep hp
        refine ⟨hw', hu, ?_, fun k _ => he k, fun _ hd => hd⟩
        simp only [SettledUnpacked, hz, Bool.false_eq_true, if_false, he]
        exact ⟨hsame, Or.inl (by rw [← hfresh]; exact hsame)⟩
      · cases hbp : v.basePage? P view (i / slots) with
        | error e => simp [hbp] at hok
        | ok basePage =>
          have hbase := h.basePage?_sound hs hp hbp
          obtain ⟨hw', he⟩ := hw.set h hi (e := P.digest b) (by rw [P.digest_length, hwidth])
          rw [hwidth] at hw' he
          simp only [hbp] at hok
          obtain rfl := Except.ok.inj hok
          refine ⟨hw', ?_, ?_, fun k hki => by rw [he, if_neg hki], ?_⟩
          · simp only
            split
            · exact hu
            · exact hu.insertIfNew hb
          · simp only [SettledUnpacked, hz, Bool.false_eq_true, if_false, he, if_true, true_and]
            right
            split
            · rename_i hany
              left
              rw [hbase] at hany
              cases hv : v.base with
              | none => simp [hv] at hany
              | some c => simpa [hv] using hany
            · right
              rw [Std.ExtTreeMap.getElem?_insertIfNew]
              split
              · rfl
              · rename_i hne
                by_contra hc
                apply hne
                simpa using hc
          · intro d hd
            simp only
            split
            · exact hd
            · rw [Std.ExtTreeMap.getElem?_insertIfNew]
              split
              · rfl
              · exact hd

/-- The unpacked loop rewrites the pages of the dirty chunks. -/
theorem rewriteUnpacked_ok (h : Holds P S B v f) (hideal : P.Ideal S) (hk : v.packed = false)
    (hd : DirtyOk v) (hS : ∀ (i : ℕ) (b : Bytes), v.dirty[i]? = some b → b ∈ S) {view : View}
    (hs : view.Sound B) {pages : BTreeMap ℕ Bytes} {uploads : BTreeMap Hash Bytes}
    (hok : v.rewriteUnpacked P view = .ok (pages, uploads)) :
    Rewritten P S B v f pages uploads.toList ∧ UploadsOk P S uploads := by
  obtain ⟨⟨hw, hu⟩, hset, hfr⟩ := foldlM_toList_rule hok
    (fun acc => Working P B v acc.1 ∧ UploadsOk P S acc.2)
    (fun acc i => entryNow P B v acc.1 i = entryNow P B v ∅ i)
    (SettledUnpacked P B v) ⟨Working.empty, fun _ _ hc => by simp at hc⟩ (fun _ => rfl) (by
      rintro acc acc' i b ⟨hw, hu⟩ hm hfresh hround
      obtain ⟨hw', hu', hset, hother, hup⟩ :=
        stageUnpacked_step h hk hs (hd i b hm).1 (hS i b hm) hw hu hfresh hround
      refine ⟨⟨hw', hu'⟩, hset, fun k hki hk' => (hother k hki).trans hk', ?_⟩
      intro k c hki hc
      unfold SettledUnpacked at hc ⊢
      rw [hother k hki]
      split
      · rename_i hz
        simpa only [hz, if_true] using hc
      · rename_i hz
        simp only [hz, Bool.false_eq_true, if_false] at hc
        exact ⟨hc.1, hc.2.imp id (Or.imp id (hup _))⟩)
  refine ⟨⟨hw, fun p hp => ?_, ?_, ?_⟩, hu⟩
  · exact hw.shaped h hd hfr (fun hp => by rw [hk] at hp; cases hp)
      (fun hp => by rw [hk] at hp; cases hp) hp
  · rintro ⟨d, b⟩ hmem
    exact hu d b (Std.ExtTreeMap.mem_toList_iff_getElem?_eq_some.mp hmem)
  · intro B' hle ha hst i hi
    have h' := h.mono hle
    cases hb : v.dirty[i]? with
    | none =>
      rw [hfr i hb, over_of_clean hb]
      exact (h.leads_stored hi).mono hle
    | some b =>
      have hmem := hS i b hb
      have hsettled := hset i b hb
      rw [over_of_dirty hb]
      unfold SettledUnpacked at hsettled
      split at hsettled
      · rename_i hz
        rw [hsettled, eq_zeros_of_isZero hz (hd i b hb).2]
        exact leads_hole (entrySlot_of_isZero (by simp))
      · obtain ⟨he, hwhere⟩ := hsettled
        have hlen := P.digest_length b
        have hes : entrySlot (P.digest b) = some (P.digest b) := by
          rw [entrySlot, slice_eq_self hlen, if_neg (by simp [isZero_digest hideal hmem])]
        have heo : entryObject (P.digest b) = some (P.digest b, 0) := by
          rw [entryObject_short hlen, hes]
          rfl
        have hbase := h.storedBase_mono hle (div_slots_lt_pageCount hi)
        rw [he]
        by_cases hbs : slot (storedBase P B v (i / slots)) i = some (P.digest b)
        · obtain ⟨c, hc, hdc, hmc⟩ := h'.leads_base ha hi (by rw [hbase]; exact hbs) hes heo
          rwa [hideal.inj hmc hmem hdc] at hc
        · rcases hwhere with hold | hbs' | hup
          · have hfb := h.eq_of_stored hideal hi hmem (by rw [hold]; exact hes)
            have := (h.leads_stored hi).mono hle
            rwa [hold, hfb] at this
          · exact absurd hbs' hbs
          · obtain ⟨c, hc⟩ := Option.isSome_iff_exists.mp hup
            obtain ⟨hdc, hmc⟩ := hu _ _ hc
            obtain rfl := hideal.inj hmc hmem hdc
            apply h'.leads_private hi (by rw [hbase]; exact hbs) hes heo
              (hst (_, c) (Std.ExtTreeMap.mem_toList_iff_getElem?_eq_some.mpr hc))
            · simp [extract]
            · exact (hd i c hb).2
            · rfl

end Unpacked

end AgentHouse.Volume
