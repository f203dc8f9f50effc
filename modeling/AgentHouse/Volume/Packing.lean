import AgentHouse.Volume.Rewrite

/-!
# Packs and located entries

The packed commit path groups new chunks into packs and writes the place of each chunk into
its entry. This module follows the loops of `commit_packed` and shows that they rewrite the
pages of the dirty chunks.
-/

namespace AgentHouse.Volume

open IndexedVolume

section Located

/-- The packed entry of a chunk that lies in a pack. -/
def locatedEntry (hash pack : Hash) (offset : ℕ) : Bytes :=
  hash ++ pack ++ beBytes 4 offset ++ zeros 4

variable {hash pack : Hash} {offset : ℕ}

/-- An entry of a packed page has its width. -/
theorem length_locatedEntry (hh : hash.length = 32) (hp : pack.length = 32) :
    (locatedEntry hash pack offset).length = packSlotBytes := by
  simp [locatedEntry, hh, hp, packSlotBytes]

private theorem slice_locatedEntry (hh : hash.length = 32) (hp : pack.length = 32) :
    slice (locatedEntry hash pack offset) 0 32 = hash ∧
    slice (locatedEntry hash pack offset) 32 32 = pack ∧
    slice (locatedEntry hash pack offset) 64 4 = beBytes 4 offset ∧
    slice (locatedEntry hash pack offset) 68 4 = zeros 4 := by
  have h1 : (hash ++ pack).length = 64 := by simp [hh, hp]
  have h2 : (hash ++ pack ++ beBytes 4 offset).length = 68 := by simp [hh, hp]
  have hb : (beBytes 4 offset).length = 4 := length_beBytes 4 offset
  unfold locatedEntry
  refine ⟨?_, ?_, ?_, ?_⟩
  · rw [slice_append_left (by omega), slice_append_left (by omega), slice_append_left (by omega),
      slice_eq_self hh]
  · rw [slice_append_left (by omega), slice_append_left (by omega), slice_append_right (by omega),
      hh, Nat.sub_self, slice_eq_self hp]
  · rw [slice_append_left (by omega), slice_append_right (by omega), h1, Nat.sub_self,
      slice_eq_self hb]
  · rw [slice_append_right (by omega), h2, Nat.sub_self, slice_eq_self (by simp)]

/-- The hash is read back. -/
theorem entryHash_locatedEntry (hh : hash.length = 32) (hp : pack.length = 32) :
    entryHash (locatedEntry hash pack offset) = hash := (slice_locatedEntry hh hp).1

/-- So is the pack. -/
theorem entryPack_locatedEntry (hh : hash.length = 32) (hp : pack.length = 32) :
    entryPack (locatedEntry hash pack offset) = pack := (slice_locatedEntry hh hp).2.1

/-- And the offset. -/
theorem entryOffset_locatedEntry (hh : hash.length = 32) (hp : pack.length = 32)
    (ho : offset < maxObjectBytes) : entryOffset (locatedEntry hash pack offset) = offset := by
  rw [entryOffset, (slice_locatedEntry hh hp).2.2.1]
  apply ofBe_beBytes
  exact lt_trans ho (by decide)

/-- Such an entry is in order. -/
theorem entryOk_locatedEntry (hh : hash.length = 32) (hp : pack.length = 32)
    (hzh : isZero hash = false) (hzp : isZero pack = false) (hmod : offset % chunkBytes = 0)
    (ho : offset < maxObjectBytes) : EntryOk (locatedEntry hash pack offset) where
  padding := by
    rw [(slice_locatedEntry hh hp).2.2.2]
    simp
  hole hz := by
    rw [entryHash_locatedEntry hh hp, hzh] at hz
    cases hz
  direct hz := by
    rw [entryPack_locatedEntry hh hp, hzp] at hz
    cases hz
  located _ := by
    rw [entryOffset_locatedEntry hh hp ho]
    exact ⟨hmod, ho⟩

theorem entrySlot_locatedEntry (hh : hash.length = 32) (hp : pack.length = 32)
    (hzh : isZero hash = false) : entrySlot (locatedEntry hash pack offset) = some hash := by
  rw [entrySlot, (slice_locatedEntry hh hp).1, if_neg (by simp [hzh])]

theorem entryObject_locatedEntry (hh : hash.length = 32) (hp : pack.length = 32)
    (hzh : isZero hash = false) (hzp : isZero pack = false) (ho : offset < maxObjectBytes) :
    entryObject (locatedEntry hash pack offset) = some (pack, offset) := by
  have hoff := entryOffset_locatedEntry hh hp ho
  unfold entryOffset at hoff
  rw [entryObject, entrySlot_locatedEntry hh hp hzh]
  simp only [length_locatedEntry hh hp, (slice_locatedEntry hh hp).2.1, hzp, hoff, and_self,
    if_true]

/-- Writing a location into an entry that names a chunk directly, or again into one that
has it already. -/
theorem locate_entry {e : Bytes} (hh : hash.length = 32) (hp : pack.length = 32)
    (he : e = directEntry hash ∨ e = locatedEntry hash pack offset) :
    splice (splice e 32 pack) 64 (beBytes 4 offset) = locatedEntry hash pack offset := by
  have hb : (beBytes 4 offset).length = 4 := length_beBytes 4 offset
  rcases he with rfl | rfl
  · have h1 : splice (directEntry hash) 32 pack = hash ++ pack ++ zeros 8 := by
      simp only [splice, directEntry, hp]
      rw [List.take_append_of_le_length (by omega), List.take_of_length_le (by omega),
        List.drop_append, List.drop_eq_nil_of_le (by omega), hh, List.nil_append]
      rfl
    have h2 : (hash ++ pack).length = 64 := by simp [hh, hp]
    rw [h1]
    simp only [splice, hb]
    rw [List.take_append_of_le_length (by omega), List.take_of_length_le (by omega),
      List.drop_append, List.drop_eq_nil_of_le (by omega), h2, List.nil_append]
    rfl
  · have h1 : splice (locatedEntry hash pack offset) 32 pack = locatedEntry hash pack offset := by
      simp only [splice, locatedEntry, List.append_assoc, hp]
      rw [List.take_append_of_le_length (by omega), List.take_of_length_le (by omega),
        List.drop_append, List.drop_eq_nil_of_le (by omega), hh, List.nil_append,
        List.drop_append_of_le_length (by omega), List.drop_eq_nil_of_le (by omega),
        List.nil_append]
    have h2 : (hash ++ pack).length = 64 := by simp [hh, hp]
    rw [h1]
    simp only [splice, locatedEntry, hb]
    rw [List.append_assoc (hash ++ pack), List.take_append_of_le_length (by omega),
      List.take_of_length_le (by omega), List.drop_append, List.drop_eq_nil_of_le (by omega), h2,
      List.nil_append, List.drop_append_of_le_length (by omega),
      List.drop_eq_nil_of_le (by omega), List.nil_append, List.append_assoc]

end Located

section Groups

variable {P : Platform} {chunks : BTreeMap Hash Bytes}

/-- The place of a chunk: its position in one of the groups. -/
def InPack (P : Platform) (chunks : BTreeMap Hash Bytes) (h pack : Hash) (offset : ℕ) : Prop :=
  ∃ group ∈ groupsOf (maxObjectBytes / chunkBytes) chunks.toList, ∃ k b,
    group[k]? = some (h, b) ∧ pack = P.digest (packBytes group) ∧ offset = k * chunkBytes

/-- Every location names a place in a pack. -/
theorem locations_ok {h pack : Hash} {offset : ℕ}
    (hl : (locations P chunks)[h]? = some (pack, offset)) : InPack P chunks h pack offset := by
  have houter := foldl_induction (l := groupsOf (maxObjectBytes / chunkBytes) chunks.toList)
    (f := fun locations group => group.zipIdx.foldl (fun locations entry =>
      locations.insert entry.1.1 (P.digest (packBytes group), entry.2 * chunkBytes)) locations)
    (z := (∅ : BTreeMap Hash (Hash × ℕ)))
    (fun _ acc => ∀ (h : Hash) (l : Hash × ℕ), acc[h]? = some l → InPack P chunks h l.1 l.2)
    (fun h l hc => by simp at hc) (by
      intro done group rest acc hgroups ih
      refine foldl_induction (l := group.zipIdx)
        (fun _ acc => ∀ (h : Hash) (l : Hash × ℕ), acc[h]? = some l → InPack P chunks h l.1 l.2)
        ih ?_
      rintro done' ⟨⟨h', b'⟩, k⟩ rest' acc' hzip ih' h l hc
      rw [Std.ExtTreeMap.getElem?_insert] at hc
      split at hc
      · rename_i heq
        obtain rfl := Std.LawfulEqCmp.eq_of_compare heq
        obtain rfl := Option.some.inj hc
        refine ⟨group, by rw [hgroups]; simp, k, b', ?_, rfl, rfl⟩
        have hmem : ((h', b'), k) ∈ group.zipIdx := by rw [hzip]; simp
        exact List.mem_zipIdx_iff_getElem?.mp hmem
      · exact ih' h l hc)
  exact houter h (pack, offset) hl

/-- The members of a group are chunks. -/
theorem mem_of_group {group : List (Hash × Bytes)}
    (hg : group ∈ groupsOf (maxObjectBytes / chunkBytes) chunks.toList) {o : Hash × Bytes}
    (ho : o ∈ group) : chunks[o.1]? = some o.2 := by
  rw [← Std.ExtTreeMap.mem_toList_iff_getElem?_eq_some]
  have hflat := flatten_groupsOf (show 0 < maxObjectBytes / chunkBytes by decide) chunks.toList
  rw [← hflat]
  exact List.mem_flatten.mpr ⟨group, hg, ho⟩

/-- What a place in a pack holds, when all chunks are whole. -/
theorem InPack.spec (hlen : ∀ (h : Hash) (b : Bytes), chunks[h]? = some b → b.length = chunkBytes)
    {h pack : Hash} {offset : ℕ} (hp : InPack P chunks h pack offset) :
    ∃ bytes b, (pack, bytes) ∈ packs P chunks ∧ pack = P.digest bytes ∧ chunks[h]? = some b ∧
      bytes.length ≤ maxObjectBytes ∧ bytes.length % chunkBytes = 0 ∧
      offset % chunkBytes = 0 ∧ offset + chunkBytes ≤ bytes.length ∧
      slice bytes offset chunkBytes = b ∧ (bytes.length = chunkBytes → offset = 0) := by
  obtain ⟨group, hg, k, b, hk, rfl, rfl⟩ := hp
  have hmem := List.mem_of_getElem? hk
  have hlens : ∀ o ∈ group, (Prod.snd o).length = chunkBytes := fun o ho =>
    hlen o.1 o.2 (mem_of_group hg ho)
  have hlength : (packBytes group).length = group.length * chunkBytes := length_flatMap_eq hlens
  have hle : group.length ≤ 16 := length_le_of_mem_groupsOf hg
  have hkl : k < group.length := (List.getElem?_eq_some_iff.mp hk).1
  have hkl' : (k + 1) * chunkBytes ≤ group.length * chunkBytes := Nat.mul_le_mul_right _ hkl
  rw [Nat.add_mul, Nat.one_mul] at hkl'
  refine ⟨packBytes group, b, List.mem_map.mpr ⟨group, hg, rfl⟩, rfl, mem_of_group hg hmem, ?_,
    ?_, ?_, ?_, ?_, ?_⟩
  · rw [hlength, maxObjectBytes_eq]
    exact Nat.mul_le_mul_right _ hle
  · rw [hlength]
    exact Nat.mul_mod_left _ _
  · exact Nat.mul_mod_left _ _
  · omega
  · exact slice_flatMap hlens hk
  · intro hone
    rw [hlength] at hone
    have : group.length = 1 :=
      Nat.eq_of_mul_eq_mul_right chunkBytes_pos (by rw [Nat.one_mul]; exact hone)
    have hk0 : k = 0 := by omega
    rw [hk0, Nat.zero_mul]

end Groups

section Staging

variable {P : Platform} {S : Set Bytes} {B : Bucket} {v : IndexedVolume} {f : ℕ → Bytes}
  {force : Bool}

/-- What the first loop of `commit_packed` keeps. -/
structure StagedOk (P : Platform) (S : Set Bytes) (B : Bucket) (v : IndexedVolume)
    (acc : Staged) : Prop where
  working : Working P B v acc.pages
  bases : ∀ {p : ℕ} {bp : Bytes}, acc.basePages[p]? = some bp → bp = storedBase P B v p
  chunks : ∀ {h : Hash} {b : Bytes}, acc.chunks[h]? = some b →
    P.digest b = h ∧ b ∈ S ∧ b.length = chunkBytes
  changed : ∀ {i : ℕ} {h : Hash}, (i, h) ∈ acc.changed → ∃ b, v.dirty[i]? = some b ∧
    h = P.digest b

/-- The entry of a dirty chunk after the first loop. -/
def SettledPacked (P : Platform) (B : Bucket) (v : IndexedVolume) (acc : Staged) (i : ℕ)
    (b : Bytes) : Prop :=
  (isZero b = true ∧ entryNow P B v acc.pages i = zeros packSlotBytes ∧
    ∀ h, (i, h) ∉ acc.changed) ∨
  (entrySlot (entryNow P B v ∅ i) = some (P.digest b) ∧
    entryNow P B v acc.pages i = entryNow P B v ∅ i ∧ ∀ h, (i, h) ∉ acc.changed) ∨
  (slot (storedBase P B v (i / slots)) i = some (P.digest b) ∧
    entryNow P B v acc.pages i = directEntry (P.digest b) ∧ ∀ h, (i, h) ∉ acc.changed) ∨
  (slot (storedBase P B v (i / slots)) i ≠ some (P.digest b) ∧
    entryNow P B v acc.pages i = directEntry (P.digest b) ∧ (i, P.digest b) ∈ acc.changed)

/-- Clearing a slot and then writing its digest is writing a direct entry. -/
private theorem splice_direct {page : Bytes} {start : ℕ} {hash : Hash} (hh : hash.length = 32)
    (hroom : start + packSlotBytes ≤ page.length) :
    splice (splice page start (zeros packSlotBytes)) start hash =
      splice page start (directEntry hash) := by
  have hz : (zeros packSlotBytes).length = packSlotBytes := by simp
  have hl : (splice page start (zeros packSlotBytes)).length = page.length :=
    length_splice (by rw [hz]; exact hroom)
  have hs : slice (splice page start (zeros packSlotBytes)) start packSlotBytes =
      zeros packSlotBytes := by
    have := slice_splice_self (l := page) (b := zeros packSlotBytes) (a := start)
      (by rw [hz]; exact hroom)
    rwa [hz] at this
  have hd : splice (zeros packSlotBytes) 0 hash = directEntry hash := by
    simp only [splice, List.take_zero, List.nil_append, hh, zeros, List.drop_replicate,
      directEntry]
    rfl
  have h72 : packSlotBytes = 72 := rfl
  have := splice_within (l := splice page start (zeros packSlotBytes)) (b := hash) (a := start)
    (c := 0) (n := packSlotBytes) (by omega) (by omega)
  rw [Nat.add_zero] at this
  rw [this, hs, hd, splice_splice (by rw [hz]; exact hroom)
    (by rw [length_directEntry hh, length_zeros])]

/-- The base page at hand is the stored one. -/
private theorem workingBase_sound (h : Holds P S B v f) {view : View} (hs : view.Sound B) {p : ℕ}
    (hp : p < pageCount v.root.size) {basePages : BTreeMap ℕ Bytes}
    (hb : ∀ {p : ℕ} {bp : Bytes}, basePages[p]? = some bp → bp = storedBase P B v p) {bp : Bytes}
    (hok : v.workingBase P view basePages p = .ok bp) : bp = storedBase P B v p := by
  unfold workingBase at hok
  cases hc : basePages[p]? with
  | none =>
    simp only [hc] at hok
    exact h.basePage_sound hs hp hok
  | some bp' =>
    simp only [hc] at hok
    rw [← Except.ok.inj hok]
    exact hb hc

/-- One round of the packed loop settles its own chunk. -/
private theorem stagePacked_step (h : Holds P S B v f) (hk : v.packed = true) {view : View}
    (hs : view.Sound B) {acc acc' : Staged} {i : ℕ} {b : Bytes} (hd : DirtyOk v)
    (hm : v.dirty[i]? = some b) (hb : b ∈ S) (hacc : StagedOk P S B v acc)
    (hfresh : entryNow P B v acc.pages i = entryNow P B v ∅ i) (hnew : ∀ h, (i, h) ∉ acc.changed)
    (hok : v.stagePacked P view force acc (i, b) = .ok acc') :
    StagedOk P S B v acc' ∧ SettledPacked P B v acc' i b ∧
      (∀ k, k ≠ i → entryNow P B v acc'.pages k = entryNow P B v acc.pages k) ∧
      ∀ k h, k ≠ i → ((k, h) ∈ acc'.changed ↔ (k, h) ∈ acc.changed) := by
  obtain ⟨hi, hblen⟩ := hd i b hm
  have hp := div_slots_lt_pageCount hi
  have hwidth : pageWidth v.packed = packSlotBytes := by rw [hk]; rfl
  have hw := hacc.working
  unfold stagePacked at hok
  cases hpg : v.workingPage P view acc.pages (i / slots) with
  | error e => simp [hpg] at hok
  | ok page =>
    have hcur := Working.workingPage_sound h hs hp hpg
    subst hcur
    cases hbp : v.workingBase P view acc.basePages (i / slots) with
    | error e => simp [hpg, hbp] at hok
    | ok basePage =>
      have hbase := workingBase_sound h hs hp hacc.bases hbp
      subst hbase
      have hbases : ∀ {p : ℕ} {bp : Bytes},
          (acc.basePages.insert (i / slots) (storedBase P B v (i / slots)))[p]? = some bp →
            bp = storedBase P B v p := by
        intro p bp hc
        rw [Std.ExtTreeMap.getElem?_insert] at hc
        split at hc
        · rename_i heq
          rw [← Option.some.inj hc, Std.LawfulEqCmp.eq_of_compare heq]
        · exact hacc.bases hc
      have hroom : 16 + i % slots * packSlotBytes + packSlotBytes ≤
          (current P B v acc.pages (i / slots)).length := by
        have h1 := entry_bound (w := packSlotBytes) (Nat.mod_lt i slots_pos)
        have h2 := hw.room h hp
        rw [hwidth] at h2
        omega
      have hslotAt := hw.slotAt_eq h hi
      rw [hwidth] at hslotAt
      have hslot := hw.slot_eq h hi
      rw [hfresh] at hslot
      simp only [hpg, hbp, hslotAt, hslot, splice_direct (P.digest_length b) hroom] at hok
      obtain ⟨hw0, he0⟩ := hw.set h hi (e := zeros packSlotBytes) (by simp [hwidth])
      obtain ⟨hw1, he1⟩ := hw.set h hi (e := directEntry (P.digest b))
        (by rw [length_directEntry (P.digest_length b), hwidth])
      obtain ⟨hw2, he2⟩ := hw.keep hp
      rw [hwidth] at hw0 he0 hw1 he1
      split at hok
      · rename_i hz
        obtain rfl := Except.ok.inj hok
        exact ⟨⟨hw0, hbases, hacc.chunks, hacc.changed⟩,
          Or.inl ⟨hz, by simp only [he0, if_true], hnew⟩,
          fun k hki => by simp only [he0, if_neg hki], fun _ _ _ => Iff.rfl⟩
      · split at hok
        · rename_i hsame
          simp only [Bool.and_eq_true, decide_eq_true_eq] at hsame
          obtain rfl := Except.ok.inj hok
          exact ⟨⟨hw2, hbases, hacc.chunks, hacc.changed⟩,
            Or.inr (Or.inl ⟨hsame.2, by simp only [he2, hfresh], hnew⟩),
            fun k _ => he2 k, fun _ _ _ => Iff.rfl⟩
        · split at hok
          · rename_i hbs
            obtain rfl := Except.ok.inj hok
            exact ⟨⟨hw1, hbases, hacc.chunks, hacc.changed⟩,
              Or.inr (Or.inr (Or.inl ⟨hbs, by simp only [he1, if_true], hnew⟩)),
              fun k hki => by simp only [he1, if_neg hki], fun _ _ _ => Iff.rfl⟩
          · rename_i hbs
            obtain rfl := Except.ok.inj hok
            refine ⟨⟨hw1, hbases, ?_, ?_⟩,
              Or.inr (Or.inr (Or.inr ⟨hbs, by simp only [he1, if_true], by simp⟩)),
              fun k hki => by simp only [he1, if_neg hki], ?_⟩
            · intro d c hc
              simp only at hc
              rw [Std.ExtTreeMap.getElem?_insertIfNew] at hc
              split at hc
              · rename_i heq
                rw [← Option.some.inj hc]
                exact ⟨Std.LawfulEqCmp.eq_of_compare heq.1, hb, hblen⟩
              · exact hacc.chunks hc
            · intro k d hmem
              rcases List.mem_append.mp hmem with hmem | hmem
              · exact hacc.changed hmem
              · obtain ⟨rfl, rfl⟩ : k = i ∧ d = P.digest b := by simpa using hmem
                exact ⟨b, hm, rfl⟩
            · intro k d hki
              simp [hki]

/-- The first loop of `commit_packed` settles every dirty chunk. -/
theorem stagePacked_ok (h : Holds P S B v f) (hk : v.packed = true) (hd : DirtyOk v)
    (hS : ∀ (i : ℕ) (b : Bytes), v.dirty[i]? = some b → b ∈ S) {view : View} (hs : view.Sound B)
    {staged : Staged}
    (hok : v.dirty.toList.foldlM (v.stagePacked P view force) Staged.empty = .ok staged) :
    StagedOk P S B v staged ∧
      (∀ (i : ℕ) (b : Bytes), v.dirty[i]? = some b → SettledPacked P B v staged i b) ∧
      ∀ (i : ℕ), v.dirty[i]? = none → entryNow P B v staged.pages i = entryNow P B v ∅ i := by
  obtain ⟨hinv, hset, hfr⟩ := foldlM_toList_rule hok (StagedOk P S B v)
    (fun acc i => entryNow P B v acc.pages i = entryNow P B v ∅ i ∧ ∀ h, (i, h) ∉ acc.changed)
    (SettledPacked P B v)
    ⟨Working.empty, fun hc => by simp [Staged.empty] at hc, fun hc => by simp [Staged.empty] at hc,
      fun hc => by simp [Staged.empty] at hc⟩
    (fun _ => ⟨rfl, by simp [Staged.empty]⟩) (by
      rintro acc acc' i b hacc hm ⟨hfresh, hnew⟩ hround
      obtain ⟨hacc', hset, hentry, hchanged⟩ :=
        stagePacked_step h hk hs hd hm (hS i b hm) hacc hfresh hnew hround
      refine ⟨hacc', hset, ?_, ?_⟩
      · rintro k hki ⟨he, hn⟩
        exact ⟨(hentry k hki).trans he, fun d hmem => hn d ((hchanged k d hki).mp hmem)⟩
      · intro k c hki hc
        unfold SettledPacked at hc ⊢
        rw [hentry k hki]
        simp only [hchanged k _ hki]
        exact hc)
  exact ⟨hinv, hset, fun i hi => (hfr i hi).1⟩

end Staging

section Locating

variable {P : Platform} {S : Set Bytes} {B : Bucket} {v : IndexedVolume} {f : ℕ → Bytes}

/-- Writing one location replaces the entry of its chunk. -/
private theorem locate_step (h : Holds P S B v f) (hk : v.packed = true)
    {locs : BTreeMap Hash (Hash × ℕ)} {pages pages' : BTreeMap ℕ Bytes} {i : ℕ} {hash : Hash}
    (hi : i < v.chunkCount) (hw : Working P B v pages) (hh : hash.length = 32)
    (hpacks : ∀ {h pack : Hash} {o : ℕ}, locs[h]? = some (pack, o) → pack.length = 32)
    (hentry : entryNow P B v pages i = directEntry hash ∨
      ∃ pack offset, locs[hash]? = some (pack, offset) ∧
        entryNow P B v pages i = locatedEntry hash pack offset)
    (hok : locate locs pages (i, hash) = .ok pages') :
    Working P B v pages' ∧ ∃ pack offset, locs[hash]? = some (pack, offset) ∧
      ∀ k, entryNow P B v pages' k =
        if k = i then locatedEntry hash pack offset else entryNow P B v pages k := by
  have hp := div_slots_lt_pageCount hi
  have hwidth : pageWidth v.packed = packSlotBytes := by rw [hk]; rfl
  unfold locate at hok
  simp only at hok
  split at hok
  · rename_i page pack offset hpage hloc
    obtain rfl := Except.ok.inj hok
    have hpl := hpacks hloc
    have hcur : page = current P B v pages (i / slots) := by simp [current, hpage]
    subst hcur
    have hroom : 16 + i % slots * packSlotBytes + packSlotBytes ≤
        (current P B v pages (i / slots)).length := by
      have h1 := entry_bound (w := packSlotBytes) (Nat.mod_lt i slots_pos)
      have h2 := hw.room h hp
      rw [hwidth] at h2
      omega
    have hslotAt := hw.slotAt_eq h hi
    rw [hwidth] at hslotAt
    have he : slice (current P B v pages (i / slots)) (16 + i % slots * packSlotBytes)
        packSlotBytes = entryNow P B v pages i := by
      rw [entryNow, entryAt, hwidth]
    have helen : (entryNow P B v pages i).length = packSlotBytes := by
      rw [hw.length_entryNow h hi, hwidth]
    have h72 : packSlotBytes = 72 := rfl
    have hb : (beBytes 4 offset).length = 4 := length_beBytes 4 offset
    have h1 : splice (current P B v pages (i / slots)) (16 + i % slots * packSlotBytes + 32) pack =
        splice (current P B v pages (i / slots)) (16 + i % slots * packSlotBytes)
          (splice (entryNow P B v pages i) 32 pack) := by
      rw [splice_within (n := packSlotBytes) hroom (by omega), he]
    have hl1 : (splice (entryNow P B v pages i) 32 pack).length = packSlotBytes := by
      rw [length_splice (by omega), helen]
    have h2 : splice (splice (current P B v pages (i / slots))
          (16 + i % slots * packSlotBytes + 32) pack)
          (16 + i % slots * packSlotBytes + 64) (beBytes 4 offset) =
        splice (current P B v pages (i / slots)) (16 + i % slots * packSlotBytes)
          (splice (splice (entryNow P B v pages i) 32 pack) 64 (beBytes 4 offset)) := by
      have hin : 16 + i % slots * packSlotBytes +
          (splice (entryNow P B v pages i) 32 pack).length ≤
          (current P B v pages (i / slots)).length := by omega
      have hself := slice_splice_self hin
      rw [hl1] at hself
      rw [h1, splice_within (n := packSlotBytes) (by rw [length_splice hin]; exact hroom)
        (by omega), hself, splice_splice hin (by rw [length_splice (by omega)])]
    have h3 : splice (splice (entryNow P B v pages i) 32 pack) 64 (beBytes 4 offset) =
        locatedEntry hash pack offset := by
      apply locate_entry hh hpl
      rcases hentry with hentry | ⟨pack', offset', hloc', hentry⟩
      · exact Or.inl hentry
      · rw [hloc] at hloc'
        obtain ⟨rfl, rfl⟩ := Prod.mk.inj (Option.some.inj hloc')
        exact Or.inr hentry
    obtain ⟨hw', he'⟩ := hw.set h hi (e := locatedEntry hash pack offset)
      (by rw [length_locatedEntry hh hpl, hwidth])
    rw [hwidth] at hw' he'
    rw [hslotAt, h2, h3]
    exact ⟨hw', pack, offset, hloc, he'⟩
  · cases hok

/-- The second loop of `commit_packed` writes the location of every changed chunk. -/
theorem locate_ok (h : Holds P S B v f) (hk : v.packed = true) (hd : DirtyOk v)
    {staged : Staged} (hst : StagedOk P S B v staged)
    (hset : ∀ (i : ℕ) (b : Bytes), v.dirty[i]? = some b → SettledPacked P B v staged i b)
    {locs : BTreeMap Hash (Hash × ℕ)}
    (hpacks : ∀ {h pack : Hash} {o : ℕ}, locs[h]? = some (pack, o) → pack.length = 32)
    {pages : BTreeMap ℕ Bytes}
    (hok : staged.changed.foldlM (locate locs) staged.pages = .ok pages) :
    Working P B v pages ∧
      (∀ {i : ℕ} {hash : Hash}, (i, hash) ∈ staged.changed → ∃ pack offset,
        locs[hash]? = some (pack, offset) ∧
        entryNow P B v pages i = locatedEntry hash pack offset) ∧
      ∀ i, (∀ h, (i, h) ∉ staged.changed) →
        entryNow P B v pages i = entryNow P B v staged.pages i := by
  refine foldlM_induction hok (fun done pages => Working P B v pages ∧
      (∀ {i : ℕ} {hash : Hash}, (i, hash) ∈ done → ∃ pack offset,
        locs[hash]? = some (pack, offset) ∧
        entryNow P B v pages i = locatedEntry hash pack offset) ∧
      ∀ i, (∀ h, (i, h) ∉ done) → entryNow P B v pages i = entryNow P B v staged.pages i)
    ⟨hst.working, by simp, fun _ _ => rfl⟩ ?_
  rintro done ⟨i, hash⟩ rest pg pg' hl ⟨hw, hin, hout⟩ hround
  have hmem : (i, hash) ∈ staged.changed := by rw [hl]; simp
  obtain ⟨b, hb, rfl⟩ := hst.changed hmem
  have hone : ∀ {d : Hash}, (i, d) ∈ staged.changed → d = P.digest b := by
    intro d hd'
    obtain ⟨b', hb', rfl⟩ := hst.changed hd'
    rw [Option.some.inj (hb.symm.trans hb')]
  have hentry : entryNow P B v pg i = directEntry (P.digest b) ∨
      ∃ pack offset, locs[P.digest b]? = some (pack, offset) ∧
        entryNow P B v pg i = locatedEntry (P.digest b) pack offset := by
    by_cases hdone : (i, P.digest b) ∈ done
    · exact Or.inr (hin hdone)
    · left
      have hnot : ∀ d, (i, d) ∉ done := by
        intro d hd'
        have hdb : d = P.digest b := hone (by rw [hl]; exact List.mem_append_left _ hd')
        exact hdone (hdb ▸ hd')
      rw [hout i hnot]
      rcases hset i b hb with hc | hc | hc | hc
      · exact absurd hmem (hc.2.2 _)
      · exact absurd hmem (hc.2.2 _)
      · exact absurd hmem (hc.2.2 _)
      · exact hc.2.1
  obtain ⟨hw', pack, offset, hloc, hnew⟩ :=
    locate_step h hk (hd i b hb).1 hw (P.digest_length b) hpacks hentry hround
  refine ⟨hw', ?_, ?_⟩
  · intro k d hkd
    by_cases hki : k = i
    · subst hki
      have hdb : d = P.digest b := by
        rcases List.mem_append.mp hkd with hkd | hkd
        · exact hone (by rw [hl]; exact List.mem_append_left _ hkd)
        · exact (by simpa using hkd)
      subst hdb
      exact ⟨pack, offset, hloc, by rw [hnew, if_pos rfl]⟩
    · rcases List.mem_append.mp hkd with hkd | hkd
      · obtain ⟨pack', offset', hl', he'⟩ := hin hkd
        exact ⟨pack', offset', hl', by rw [hnew, if_neg hki]; exact he'⟩
      · exact absurd (by simpa using congrArg Prod.fst (List.mem_singleton.mp hkd)) hki
  · intro k hk'
    have hki : k ≠ i := fun heq => hk' (P.digest b) (by rw [heq]; simp)
    rw [hnew, if_neg hki]
    exact hout k (fun d hd' => hk' d (List.mem_append_left _ hd'))

end Locating

section Backed

variable {P : Platform} {S : Set Bytes} {B : Bucket} {v : IndexedVolume} {f : ℕ → Bytes}

/-- There is an object with the digest that the entry names as its pack, and the entry's chunk
is a slice of it or all of it. -/
def Backed (P : Platform) (S : Set Bytes) (e : Bytes) : Prop :=
  ∃ obj ∈ S, ∃ c, c.length = chunkBytes ∧ P.digest obj = entryPack e ∧
    P.digest c = entryHash e ∧
    (entryPack e ≠ entryHash e → slice obj (entryOffset e) chunkBytes = c) ∧
    (entryPack e = entryHash e → obj = c)

/-- Two entries that name one place of one pack name one chunk. -/
theorem Backed.consistent (hideal : P.Ideal S) {e e' : Bytes} (he : Backed P S e)
    (he' : Backed P S e') (hp : entryPack e = entryPack e') (ho : entryOffset e = entryOffset e') :
    entryHash e = entryHash e' := by
  obtain ⟨obj, hmem, c, hlen, hdo, hdc, hne, heq⟩ := he
  obtain ⟨obj', hmem', c', hlen', hdo', hdc', hne', heq'⟩ := he'
  obtain rfl : obj = obj' := hideal.inj hmem hmem' (by rw [hdo, hdo', hp])
  -- A pack that is one chunk has only one place.
  have hwhole : ∀ {c c' : Bytes} {o : ℕ}, c'.length = chunkBytes → obj.length = chunkBytes →
      slice obj o chunkBytes = c' → obj = c' := by
    intro c c' o hl ho' hsl
    have h0 : o = 0 := by
      have := congrArg List.length hsl
      rw [length_slice, hl, ho'] at this
      have := chunkBytes_pos
      omega
    rw [h0, slice_eq_self ho'] at hsl
    exact hsl
  by_cases h1 : entryPack e = entryHash e
  · by_cases h2 : entryPack e' = entryHash e'
    · rw [← h1, ← h2, hp]
    · have hobj := heq h1
      rw [← h1, ← hdo, hwhole (c := c) hlen' (hobj ▸ hlen) (hne' h2), hdc']
  · by_cases h2 : entryPack e' = entryHash e'
    · have hobj := heq' h2
      rw [← h2, ← hdo', hwhole (c := c') hlen (hobj ▸ hlen') (hne h1), hdc]
    · rw [← hdc, ← hdc', ← hne h1, ← hne' h2, ho]

/-- The located entries of a stored page are backed. -/
theorem Holds.backed_stored (h : Holds P S B v f) (ha : Addressed P S B) (hk : v.packed = true)
    {i : ℕ} (hi : i < v.chunkCount) (hl : Located (entryNow P B v ∅ i)) :
    Backed P S (entryNow P B v ∅ i) := by
  have hw : Working P B v ∅ := Working.empty
  have hes : entrySlot (entryNow P B v ∅ i) = some (entryHash (entryNow P B v ∅ i)) := by
    rw [entrySlot, if_neg (by rw [hl.1]; simp)]
  have heo : entryObject (entryNow P B v ∅ i) =
      some (entryPack (entryNow P B v ∅ i), entryOffset (entryNow P B v ∅ i)) := by
    have hlen : (entryNow P B v ∅ i).length = packSlotBytes := by
      rw [hw.length_entryNow h hi, hk]
      rfl
    rw [entryObject, hes]
    simp only [hl.2, and_true]
    rw [if_pos hlen]
  have hs := hw.slot_eq h hi
  have ho := hw.objectSlot_eq h hi
  rw [current_empty, hes] at hs
  rw [current_empty, heo] at ho
  obtain ⟨obj, hmem, hdo, hne, heq⟩ := h.located_object ha hi hs ho
  exact ⟨obj, hmem, f i, h.length_eq hi, hdo, loadFrom_digest hs (h.loadFrom_stored hi), hne, heq⟩

end Backed

section Rewriting

variable {P : Platform} {S : Set Bytes} {B : Bucket} {v : IndexedVolume} {f : ℕ → Bytes}
  {force : Bool}

/-- A changed chunk: its pack, and its place in the pack. -/
structure PackedAt (P : Platform) (S : Set Bytes) (chunks : BTreeMap Hash Bytes) (b pack : Bytes)
    (offset : ℕ) (bytes : Bytes) : Prop where
  mem : (pack, bytes) ∈ packs P chunks
  known : bytes ∈ S
  digest : pack = P.digest bytes
  length_le : bytes.length ≤ maxObjectBytes
  length_mod : bytes.length % chunkBytes = 0
  offset_mod : offset % chunkBytes = 0
  offset_le : offset + chunkBytes ≤ bytes.length
  slice_eq : slice bytes offset chunkBytes = b

/-- A chunk with a location is in a pack, at its offset. -/
theorem packedAt_of_location (hideal : P.Ideal S) {chunks : BTreeMap Hash Bytes}
    (hchunks : ∀ {h : Hash} {b : Bytes}, chunks[h]? = some b →
      P.digest b = h ∧ b ∈ S ∧ b.length = chunkBytes)
    (hP : ∀ o ∈ packs P chunks, o.2 ∈ S) {b : Bytes} (hb : b ∈ S) {pack : Hash} {offset : ℕ}
    (hl : (locations P chunks)[P.digest b]? = some (pack, offset)) :
    ∃ bytes, PackedAt P S chunks b pack offset bytes := by
  obtain ⟨bytes, b', hmem, hdig, hc, hle, hmod, homod, hole, hsl, -⟩ :=
    (locations_ok hl).spec (fun h b hc => (hchunks hc).2.2)
  obtain ⟨hd', hm', -⟩ := hchunks hc
  obtain rfl := hideal.inj hm' hb hd'
  exact ⟨bytes, hmem, hP _ hmem, hdig, hle, hmod, homod, hole, hsl⟩

/-- The final entry of a dirty chunk. -/
inductive FinalEntry (P : Platform) (S : Set Bytes) (B : Bucket) (v : IndexedVolume)
    (chunks : BTreeMap Hash Bytes) (i : ℕ) (b : Bytes) : Bytes → Prop
  | hole (hz : isZero b = true) : FinalEntry P S B v chunks i b (zeros packSlotBytes)
  | kept (hs : entrySlot (entryNow P B v ∅ i) = some (P.digest b)) :
      FinalEntry P S B v chunks i b (entryNow P B v ∅ i)
  | base (hs : slot (storedBase P B v (i / slots)) i = some (P.digest b)) :
      FinalEntry P S B v chunks i b (directEntry (P.digest b))
  | located {pack : Hash} {offset : ℕ} {bytes : Bytes}
      (hs : slot (storedBase P B v (i / slots)) i ≠ some (P.digest b))
      (hp : PackedAt P S chunks b pack offset bytes) :
      FinalEntry P S B v chunks i b (locatedEntry (P.digest b) pack offset)

variable {chunks : BTreeMap Hash Bytes} {i : ℕ} {b e : Bytes}

/-- The offset lies in the pack. -/
theorem PackedAt.offset_lt {pack bytes : Bytes} {offset : ℕ}
    (hp : PackedAt P S chunks b pack offset bytes) : offset < maxObjectBytes := by
  have h1 := hp.length_le
  have h2 := hp.offset_le
  have h3 := chunkBytes_pos
  omega

theorem PackedAt.length_pack {pack bytes : Bytes} {offset : ℕ}
    (hp : PackedAt P S chunks b pack offset bytes) : pack.length = 32 := by
  rw [hp.digest, P.digest_length]

/-- The final entry of a chunk is in order. -/
theorem FinalEntry.entryOk (he : FinalEntry P S B v chunks i b e) (h : Holds P S B v f)
    (hideal : P.Ideal S) (hk : v.packed = true) (hi : i < v.chunkCount) (hb : b ∈ S) :
    EntryOk e := by
  cases he with
  | hole hz => exact entryOk_zeros
  | kept hs =>
    have hp := div_slots_lt_pageCount hi
    have := (h.shaped_page hp).entryOk hk (i % slots) (Nat.mod_lt _ slots_pos)
    rw [entryNow, current_empty, hk]
    exact this
  | base hs => exact entryOk_directEntry (P.digest_length b)
  | located hs hp =>
    exact entryOk_locatedEntry (P.digest_length b) hp.length_pack (isZero_digest hideal hb)
      (by rw [hp.digest]; exact isZero_digest hideal hp.known) hp.offset_mod hp.offset_lt

/-- Its pack is known. -/
theorem FinalEntry.backed (he : FinalEntry P S B v chunks i b e) (h : Holds P S B v f)
    (ha : Addressed P S B) (hideal : P.Ideal S) (hk : v.packed = true) (hi : i < v.chunkCount)
    (hb : b ∈ S) (hlen : b.length = chunkBytes) (hl : Located e) : Backed P S e := by
  cases he with
  | hole hz => exact absurd hl (not_located_of_isZero (by simp))
  | kept hs => exact h.backed_stored ha hk hi hl
  | base hs => exact absurd hl (not_located_directEntry (P.digest_length b))
  | @located pack offset bytes hs hp =>
    have hh := P.digest_length b
    have hpl := hp.length_pack
    refine ⟨bytes, hp.known, b, hlen, ?_, ?_, ?_, ?_⟩
    · rw [entryPack_locatedEntry hh hpl, hp.digest]
    · rw [entryHash_locatedEntry hh hpl]
    · intro _
      rw [entryOffset_locatedEntry hh hpl hp.offset_lt, hp.slice_eq]
    · intro heq
      rw [entryPack_locatedEntry hh hpl, entryHash_locatedEntry hh hpl, hp.digest] at heq
      exact hideal.inj hp.known hb heq

/-- And it leads to the chunk. -/
theorem FinalEntry.leads (he : FinalEntry P S B v chunks i b e) (h : Holds P S B v f)
    (hideal : P.Ideal S) (hi : i < v.chunkCount) (hb : b ∈ S) (hlen : b.length = chunkBytes)
    {B' : Bucket} (hle : B.Le B') (ha : Addressed P S B')
    (hst : Stores B' v.space (packs P chunks)) : Leads P B' v i e b := by
  have h' := h.mono hle
  have hbase := h.storedBase_mono hle (div_slots_lt_pageCount hi)
  have hh := P.digest_length b
  have hz := isZero_digest hideal hb
  cases he with
  | hole hz =>
    rw [eq_zeros_of_isZero hz hlen]
    exact leads_hole (entrySlot_of_isZero (by simp))
  | kept hs =>
    have := (h.leads_stored hi).mono hle
    rwa [h.eq_of_stored hideal hi hb hs] at this
  | base hs =>
    have hes : entrySlot (P.digest b) = some (P.digest b) := by
      rw [entrySlot, slice_eq_self hh, if_neg (by simp [hz])]
    obtain ⟨c, hc, hdc, hmc⟩ := h'.leads_base (e := directEntry (P.digest b)) ha hi
      (by rw [hbase]; exact hs) (by rw [entrySlot_directEntry hh, hes])
      (by rw [entryObject_directEntry hh, hes]; rfl)
    rwa [hideal.inj hmc hb hdc] at hc
  | @located pack offset bytes hs hp =>
    have hpl := hp.length_pack
    have hzp : isZero pack = false := by rw [hp.digest]; exact isZero_digest hideal hp.known
    apply h'.leads_private hi (by rw [hbase]; exact hs) (entrySlot_locatedEntry hh hpl hz)
      (entryObject_locatedEntry hh hpl hz hzp hp.offset_lt) (hst _ hp.mem) ?_ hlen rfl
    by_cases heq : pack = P.digest b
    · have hbytes : bytes = b := hideal.inj hp.known hb (by rw [← hp.digest, heq])
      simp [extract, heq, hbytes]
    · have hno : ¬ (bytes.length > maxObjectBytes ∨ bytes.length % chunkBytes ≠ 0 ∨
          P.digest bytes ≠ pack ∨ offset + chunkBytes > bytes.length) := by
        have h1 := hp.length_le
        have h2 := hp.length_mod
        have h3 := hp.offset_le
        rintro (hc | hc | hc | hc)
        · omega
        · exact hc h2
        · exact hc hp.digest.symm
        · omega
      simp only [extract, Bool.not_false, Bool.true_and, decide_eq_true_eq, ne_eq, heq,
        not_false_eq_true, if_true]
      rw [if_neg hno, hp.slice_eq]

/-- The packed loops rewrite the pages of the dirty chunks. -/
theorem rewritePacked_ok (h : Holds P S B v f) (hideal : P.Ideal S) (ha : Addressed P S B)
    (hk : v.packed = true) (hd : DirtyOk v)
    (hS : ∀ (i : ℕ) (b : Bytes), v.dirty[i]? = some b → b ∈ S) {view : View} (hs : view.Sound B)
    {staged : Staged} {pages : BTreeMap ℕ Bytes}
    (hP : ∀ o ∈ packs P staged.chunks, o.2 ∈ S)
    (hok : v.rewritePacked P view force = .ok (staged, pages)) :
    Rewritten P S B v f pages (packs P staged.chunks) ∧
      ∀ {p : ℕ} {bp : Bytes}, staged.basePages[p]? = some bp → bp = storedBase P B v p := by
  unfold rewritePacked at hok
  cases hst : v.dirty.toList.foldlM (v.stagePacked P view force) Staged.empty with
  | error e => simp [hst] at hok
  | ok staged' =>
    simp only [hst] at hok
    cases hloc : staged'.changed.foldlM (locate (locations P staged'.chunks)) staged'.pages with
    | error e => simp [hloc] at hok
    | ok pages' =>
      simp only [hloc] at hok
      obtain ⟨rfl, rfl⟩ := Prod.mk.inj (Except.ok.inj hok)
      obtain ⟨hsok, hset, hfr⟩ := stagePacked_ok h hk hd hS hs hst
      have hpacks : ∀ {h pack : Hash} {o : ℕ},
          (locations P staged'.chunks)[h]? = some (pack, o) → pack.length = 32 := by
        intro d pack o hl
        obtain ⟨group, -, k, c, -, rfl, -⟩ := locations_ok hl
        exact P.digest_length _
      obtain ⟨hw, hin, hout⟩ := locate_ok h hk hd hsok hset hpacks hloc
      have hclean : ∀ i, v.dirty[i]? = none →
          entryNow P B v pages' i = entryNow P B v ∅ i := by
        intro i hi
        rw [hout i (fun d hd' => by
          obtain ⟨b, hb, -⟩ := hsok.changed hd'
          rw [hi] at hb
          cases hb)]
        exact hfr i hi
      have hfinal : ∀ (i : ℕ) (b : Bytes), v.dirty[i]? = some b →
          FinalEntry P S B v staged'.chunks i b (entryNow P B v pages' i) := by
        intro i b hb
        rcases hset i b hb with ⟨hz, he, hn⟩ | ⟨hsl, he, hn⟩ | ⟨hsl, he, hn⟩ | ⟨hsl, he, hmem⟩
        · rw [hout i hn, he]
          exact .hole hz
        · rw [hout i hn, he]
          exact .kept hsl
        · rw [hout i hn, he]
          exact .base hsl
        · obtain ⟨pack, offset, hl, he'⟩ := hin hmem
          obtain ⟨bytes, hp⟩ := packedAt_of_location hideal hsok.chunks hP (hS i b hb) hl
          rw [he']
          exact .located hsl hp
      have hbacked : ∀ i < v.chunkCount, Located (entryNow P B v pages' i) →
          Backed P S (entryNow P B v pages' i) := by
        intro i hi hl
        cases hb : v.dirty[i]? with
        | none =>
          rw [hclean i hb] at hl ⊢
          exact h.backed_stored ha hk hi hl
        | some b =>
          exact (hfinal i b hb).backed h ha hideal hk hi (hS i b hb) (hd i b hb).2 hl
      refine ⟨⟨hw, fun p hp => hw.shaped h hd hclean ?_ ?_ hp, ?_, ?_⟩, hsok.bases⟩
      · intro _ i hi
        cases hb : v.dirty[i]? with
        | none =>
          rw [hclean i hb]
          have := (h.shaped_page (div_slots_lt_pageCount hi)).entryOk hk (i % slots)
            (Nat.mod_lt _ slots_pos)
          rw [entryNow, current_empty, hk]
          exact this
        | some b => exact (hfinal i b hb).entryOk h hideal hk hi (hS i b hb)
      · intro _ i hi k hk' hli hlk
        exact (hbacked i hi hli).consistent hideal (hbacked k hk' hlk)
      · rintro ⟨pack, bytes⟩ hmem
        refine ⟨?_, hP _ hmem⟩
        obtain ⟨group, -, heq⟩ := List.mem_map.mp hmem
        obtain ⟨rfl, rfl⟩ := Prod.mk.inj heq
        rfl
      · intro B' hle ha' hstores i hi
        cases hb : v.dirty[i]? with
        | none =>
          rw [hclean i hb, over_of_clean hb]
          exact (h.leads_stored hi).mono hle
        | some b =>
          rw [over_of_dirty hb]
          exact (hfinal i b hb).leads h hideal hi (hS i b hb) (hd i b hb).2 hle ha' hstores

end Rewriting

end AgentHouse.Volume
