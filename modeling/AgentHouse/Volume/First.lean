import AgentHouse.Volume.Creating
import AgentHouse.Volume.Sample

/-!
# The first commit of a disk

A packed disk without pages and one buffered chunk is the smallest disk that a commit changes:
it uploads the chunk as a pack of its own and one page that locates it there. The plan, the
upload and the publication are written out here for any store that takes the objects.
-/

namespace AgentHouse.Volume

open IndexedVolume

section First

variable {P : Platform} {S : Set Bytes} {B B' : Bucket} {view : View} {v : IndexedVolume}
  {c : Bytes}

/-- The page that locates a first chunk in a pack of its own. -/
def firstPage (P : Platform) (c : Bytes) : Bytes :=
  splice (splice (splice (splice (emptyPage true 0) 16 (zeros packSlotBytes)) 16 (P.digest c)) 48
    (P.digest c)) 80 (beBytes 4 0)

/-- A packed disk without pages, with this one chunk in its dirty map. -/
structure First (v : IndexedVolume) (c : Bytes) : Prop where
  packed : v.packed = true
  pages : v.root.pages = ∅
  base : v.base = none
  dirty : v.dirty = (∅ : BTreeMap ℕ Bytes).insert 0 c
  nonzero : isZero c = false

/-- The page that names the first chunk. -/
theorem firstPage_spec (P : Platform) (c : Bytes) : (firstPage P c).length = packPageBytes ∧
    slice (firstPage P c) 16 32 = P.digest c ∧ slice (firstPage P c) 48 32 = P.digest c := by
  have hlen : (emptyPage true 0).length = packPageBytes :=
    (shaped_emptyPage chunkBytes true (show 0 < 256 ^ 8 by decide)).length_eq
  have hroom : 1024 ≤ packPageBytes := by decide
  have hblank : (splice (emptyPage true 0) 16 (zeros packSlotBytes)).length = packPageBytes := by
    rw [length_splice (by rw [hlen, length_zeros]; decide), hlen]
  unfold firstPage
  generalize splice (emptyPage true 0) 16 (zeros packSlotBytes) = blank at hblank
  have hd : (P.digest c).length = 32 := P.digest_length c
  have hb : (beBytes 4 0).length = 4 := length_beBytes 4 0
  have hhash : (splice blank 16 (P.digest c)).length = packPageBytes := by
    rw [length_splice (by omega), hblank]
  have hpack : (splice (splice blank 16 (P.digest c)) 48 (P.digest c)).length = packPageBytes := by
    rw [length_splice (by omega), hhash]
  refine ⟨by rw [length_splice (by omega), hpack], ?_, ?_⟩
  · rw [slice_splice_of_disjoint (by omega) (.inl (by omega)),
      slice_splice_of_disjoint (by omega) (.inl (by omega))]
    have hself := slice_splice_self (l := blank) (a := 16) (b := P.digest c) (by omega)
    rwa [hd] at hself
  · rw [slice_splice_of_disjoint (by omega) (.inl (by omega))]
    have hself := slice_splice_self (l := splice blank 16 (P.digest c)) (a := 48)
      (b := P.digest c) (by omega)
    rwa [hd] at hself

/-- It names it in its first slot. -/
theorem slot_firstPage (hh : isZero (P.digest c) = false) :
    slot (firstPage P c) 0 = some (P.digest c) := by
  rw [slot, show slotAt (firstPage P c) 0 = 16 by simp [slotAt], (firstPage_spec P c).2.1, hh]
  rfl

/-- The chunk is a pack by itself. -/
theorem objectSlot_firstPage (hh : isZero (P.digest c) = false) :
    ∃ offset, objectSlot (firstPage P c) 0 = some (P.digest c, offset) := by
  simp only [objectSlot, slot_firstPage hh, show slotAt (firstPage P c) 0 = 16 by simp [slotAt],
    (firstPage_spec P c).2.2]
  split
  · exact ⟨_, rfl⟩
  · exact ⟨_, rfl⟩

/-- The later of two entries for one key counts. -/
theorem insert_insert {K V : Type} [Ord K] [Std.TransOrd K] [Std.LawfulEqOrd K]
    (m : BTreeMap K V) (k : K) (a b : V) :
    (m.insert k a).insert k b = m.insert k b := by
  apply Std.ExtTreeMap.ext_getElem?
  intro i
  simp only [Std.ExtTreeMap.getElem?_insert]
  split <;> rfl

theorem isZero_firstPage (hh : isZero (P.digest c) = false) :
    isZero ((firstPage P c).drop 16) = false := by
  by_contra hzero
  have hslice := isZero_of_slice (a := 0) (n := 32) (by simpa using hzero)
  rw [slice, List.drop_drop] at hslice
  rw [← (firstPage_spec P c).2.1, slice, hslice] at hh
  cases hh

/-- What the first loop of the commit leaves. -/
def firstStaged (P : Platform) (c : Bytes) : Staged where
  pages := (∅ : BTreeMap ℕ Bytes).insert 0
    (splice (splice (emptyPage true 0) 16 (zeros packSlotBytes)) 16 (P.digest c))
  basePages := (∅ : BTreeMap ℕ Bytes).insert 0 (packedPage (emptyPage false 0))
  chunks := (∅ : BTreeMap Hash Bytes).insertIfNew (P.digest c) c
  changed := [(0, P.digest c)]

theorem slot_blank : slot (packedPage (emptyPage false 0)) 0 = none := by
  have hshape := shaped_emptyPage chunkBytes false (show 0 < 256 ^ 8 by decide)
  rw [(shaped_packedPage hshape).slot_eq]
  apply entrySlot_of_isZero
  rw [show entryAt (pageWidth true) (packedPage (emptyPage false 0)) (0 % slots) = _ from
    (packedPage_edits hshape.length_eq hshape.take_eq).entry_eq 0 slots_pos]
  apply isZero_directEntry
  rw [show entryAt 32 (emptyPage false 0) 0 = _ from entryAt_emptyPage false 0 slots_pos]
  exact isZero_zeros _

/-- The first chunk is staged. -/
theorem First.stage (h : First v c) :
    v.stagePacked P view false Staged.empty (0, c) = .ok (firstStaged P c) := by
  have hpage : v.page P view 0 = .ok (emptyPage true 0) := by
    simp [IndexedVolume.page, IndexedVolume.inheritsPage, IndexedVolume.pageFrom, h.pages, h.packed]
  have hbase : v.basePage P view 0 = .ok (packedPage (emptyPage false 0)) := by
    simp [IndexedVolume.basePage, IndexedVolume.pageFrom, h.base, h.packed]
  have hstart : slotAt (emptyPage true 0) 0 = 16 := rfl
  have hempty : slot (emptyPage true 0) 0 = none := rfl
  simp [IndexedVolume.stagePacked, IndexedVolume.workingPage, IndexedVolume.workingBase,
    Staged.empty, firstStaged, hpage, hbase, h.nonzero, slot_blank, hempty, hstart]

/-- It makes one object. -/
theorem groups_first (P : Platform) (c : Bytes) :
    groupsOf (maxObjectBytes / chunkBytes) (firstStaged P c).chunks.toList =
      [[(P.digest c, c)]] := by
  rw [show (firstStaged P c).chunks.toList = [(P.digest c, c)] from rfl, groupsOf,
    if_pos ⟨by decide, by simp⟩, groupsOf, if_neg (by simp [maxObjectBytes, chunkBytes])]
  rfl

/-- The loops of the commit: one chunk in one pack, located by one page. -/
theorem First.rewrite (h : First v c) : v.rewritePacked P view false =
    .ok (firstStaged P c, (∅ : BTreeMap ℕ Bytes).insert 0 (firstPage P c)) := by
  have hlist : v.dirty.toList = [(0, c)] := by
    rw [h.dirty]
    rfl
  have hlocations : (locations P (firstStaged P c).chunks)[P.digest c]? = some (P.digest c, 0) := by
    simp [locations, groups_first, packBytes]
  have hlocate : locate (locations P (firstStaged P c).chunks) (firstStaged P c).pages
      (0, P.digest c) = .ok ((∅ : BTreeMap ℕ Bytes).insert 0 (firstPage P c)) := by
    have hpage : (firstStaged P c).pages[0]? =
        some (splice (splice (emptyPage true 0) 16 (zeros packSlotBytes)) 16 (P.digest c)) := by
      simp [firstStaged]
    simp only [locate, Nat.zero_div, hpage, hlocations, slotAt, Nat.zero_mod, Nat.zero_mul]
    rw [firstStaged, insert_insert, firstPage]
  have hstaged : v.dirty.toList.foldlM (v.stagePacked P view false) Staged.empty =
      .ok (firstStaged P c) := by
    rw [hlist, List.foldlM_cons, h.stage]
    rfl
  have hlocated : (firstStaged P c).changed.foldlM (locate (locations P (firstStaged P c).chunks))
      (firstStaged P c).pages = .ok ((∅ : BTreeMap ℕ Bytes).insert 0 (firstPage P c)) := by
    rw [show (firstStaged P c).changed = [(0, P.digest c)] from rfl, List.foldlM_cons, hlocate]
    rfl
  simp only [IndexedVolume.rewritePacked, hstaged, hlocated]

/-- The page map after the first commit. -/
def firstPages (P : Platform) (c : Bytes) : BTreeMap ℕ Hash :=
  (∅ : BTreeMap ℕ Hash).insert 0 (P.digest (firstPage P c))

/-- The objects of the first commit. -/
def firstObjects (P : Platform) (c : Bytes) : List (Hash × Bytes) :=
  [(P.digest c, c), (P.digest (firstPage P c), firstPage P c)]

/-- The plan of a first commit. -/
theorem First.plan (h : First v c) (hh : isZero (P.digest c) = false) :
    v.plan P view false = .ok (firstPages P c, firstObjects P c) := by
  have hplace : v.placePacked P (firstStaged P c).basePages
      (v.root.pages, packs P (firstStaged P c).chunks) (0, firstPage P c) =
        (firstPages P c, firstObjects P c) := by
    simp [IndexedVolume.placePacked, isZero_firstPage hh, h.base, h.pages, packs, groups_first,
      packBytes, firstPages, firstObjects]
  rw [IndexedVolume.plan, if_pos h.packed, IndexedVolume.planPacked, h.rewrite]
  simp only
  rw [show ((∅ : BTreeMap ℕ Bytes).insert 0 (firstPage P c)).toList = [(0, firstPage P c)] from rfl,
    List.foldl_cons, List.foldl_nil, hplace]

/-- What the first commit digests. -/
theorem First.hashed (h : First v c) {b : Bytes} (hb : b ∈ v.hashed P view false) :
    b = c ∨ b = firstPage P c := by
  have hlist : v.dirty.toList = [(0, c)] := by
    rw [h.dirty]
    rfl
  have hpages : ((∅ : BTreeMap ℕ Bytes).insert 0 (firstPage P c)).toList =
      [(0, firstPage P c)] := rfl
  simpa [IndexedVolume.hashed, hlist, h.packed, h.rewrite, hpages, packs, groups_first, packBytes,
    or_assoc, or_comm, or_left_comm] using hb

/-- The disk map of the first commit. -/
def firstRoot (P : Platform) (v : IndexedVolume) (c : Bytes) (mark : Option Replication) : Root :=
  published (v.nextRoot mark) (v.root.generation + 1) (firstPages P c)

/-- The handle after the first commit, where `n` publications came before. -/
def firstHandle (P : Platform) (v : IndexedVolume) (c : Bytes) (mark : Option Replication) (n : ℕ) :
    IndexedVolume :=
  { v with
    root := firstRoot P v c mark
    revision := P.tag n (v.store.wrap (firstRoot P v c mark))
    dirty := ∅ }

/-- It changes the root. -/
theorem First.changed (h : First v c) (mark : Option Replication) :
    (firstRoot P v c mark).pages ≠ v.root.pages := by
  rw [h.pages]
  intro hpages
  have hget : (firstPages P c)[0]? = (∅ : BTreeMap ℕ Hash)[0]? := by
    rw [← hpages]
    rfl
  simp [firstPages] at hget

/-- A first commit uploads its objects and publishes its root. -/
theorem First.commitInner_eq (B : Bucket) (mark : Option Replication) {φ : Faults} (h : First v c)
    (hh : isZero (P.digest c) = false) (hp : v.poisoned = false) (hexpired : φ.expired = false)
    (hgen : v.root.generation + 1 < 2 ^ 64) :
    v.commitInner P B φ mark =
      match uploadObjects B φ v.space (firstObjects P c) with
      | (B', .error e) => (B', v, .error e)
      | (B', .ok ()) => v.publish P B' φ (firstRoot P v c mark) := by
  have hcheck : v.check 0 0 = .ok () := check_of hp (Nat.zero_le _)
  have hdirty : v.dirty.isEmpty = false := by
    rw [h.dirty]
    rfl
  have hchecked : checkedAdd (v.nextRoot mark).generation 1 = some (v.root.generation + 1) := by
    cases mark <;> exact if_pos hgen
  have hchanged := h.changed (P := P) mark
  simp only [IndexedVolume.commitInner, hcheck, hdirty, hexpired, Bool.false_eq_true, false_and,
    if_false, IndexedVolume.commitFrom, hchecked, h.plan hh, IndexedVolume.finish]
  exact if_neg fun hsame => hchanged hsame.1

/-- Without a mark, a commit goes straight to work. -/
theorem commit_of_unmarked {φ : Faults} (h : v.root.replication = none) :
    v.commit P B φ = v.commitInner P B φ none := by
  rw [IndexedVolume.commit, h]
  rfl

/-- A first commit whose upload fails changes nothing but the objects. -/
theorem First.commitInner_refused {mark : Option Replication} {φ : Faults} {e : Error}
    (h : First v c) (hh : isZero (P.digest c) = false) (hp : v.poisoned = false)
    (hexpired : φ.expired = false) (hgen : v.root.generation + 1 < 2 ^ 64)
    (hupload : φ.upload = some e) :
    v.commitInner P B φ mark =
      (keepObjects B v.space φ.kept (firstObjects P c), v, .error e) := by
  rw [h.commitInner_eq _ _ hh hp hexpired hgen]
  simp only [uploadObjects, hupload]

/-- A first commit that the store takes replaces the head, also if the reply is lost. -/
theorem First.commitInner {mark : Option Replication} {φ : Faults} {bases : Bool}
    (h : First v c) (hideal : P.Ideal S) (ha : Addressed P S B) (hc : c ∈ S)
    (hpage : firstPage P c ∈ S) (hstore : v.store = .raw bases) (hp : v.poisoned = false)
    (hexpired : φ.expired = false) (hupload : φ.upload = none)
    (hgen : v.root.generation + 1 < 2 ^ 64)
    (hjson : (P.json (.root (firstRoot P v c mark))).length ≤ maxManifestBytes)
    (hhead : (B.heads v.space).map Head.revision = some v.revision) :
    ∃ B', Publishes P B (φ.view B) v (v.nextRoot mark) false (firstRoot P v c mark) B' ∧
      (φ.delivery = .delivered → v.commitInner P B φ mark =
        (B', firstHandle P v c mark B.published, .ok (v.root.generation + 1))) ∧
      (φ.delivery = .replyLost → v.commitInner P B φ mark =
        (B', { v with poisoned := true }, .error .uncertain)) := by
  have hh := isZero_digest hideal hc
  have hdigests : Digests P S (firstObjects P c) := by
    intro o ho
    rcases List.mem_cons.mp ho with rfl | ho
    · exact ⟨rfl, hc⟩
    · obtain rfl := List.mem_singleton.mp ho
      exact ⟨rfl, hpage⟩
  obtain ⟨Bu, hput⟩ := putChunks_succeeds (s := v.space) hideal ha hdigests
  obtain ⟨hgrows, -⟩ := putChunks_ok hput
  have hchecked : checkedAdd (v.nextRoot mark).generation 1 = some (v.root.generation + 1) := by
    cases mark <;> exact if_pos hgen
  have hvolume : (firstRoot P v c mark).volume = v.root.volume := by cases mark <;> rfl
  have hgeneration : (firstRoot P v c mark).generation = v.root.generation + 1 := rfl
  have hspace : v.store.space (firstRoot P v c mark).volume = v.space := by
    rw [hvolume, IndexedVolume.space]
  have hrevision : (Bu.heads (v.store.space (firstRoot P v c mark).volume)).map Head.revision =
      some v.revision := by
    rw [hspace, hgrows.heads, hhead]
  have hpublish : Bu.publish P (v.store.space (firstRoot P v c mark).volume) (some v.revision)
      (v.store.wrap (firstRoot P v c mark)) = .ok
        (Bu.replace P (v.store.space (firstRoot P v c mark).volume)
          (v.store.wrap (firstRoot P v c mark)),
        P.tag B.published (v.store.wrap (firstRoot P v c mark))) := by
    rw [Bucket.publish, if_pos hrevision, ← hgrows.published]
    rfl
  have hsend : v.store.publish P (φ.view Bu) Bu (firstRoot P v c mark).volume (some v.revision)
      (firstRoot P v c mark) φ.delivery = transmit P Bu
        (v.store.space (firstRoot P v c mark).volume) (some v.revision)
        (v.store.wrap (firstRoot P v c mark)) φ.delivery := by
    rw [hstore]
    rfl
  have hcommit := h.commitInner_eq B mark hh hp hexpired hgen
  simp only [uploadObjects, hupload, hput, IndexedVolume.publish, hsend] at hcommit
  rw [if_neg (Nat.not_lt.mpr hjson)] at hcommit
  refine ⟨_, ⟨Bu, ⟨⟨_, _, _, h.plan hh, hchecked, rfl, hput⟩,
    fun hsame => h.changed mark hsame.1, ?_⟩, rfl, hrevision⟩, ?_, ?_⟩
  · exact ⟨by rw [hstore]; exact ⟨hjson, hjson⟩, fun i hi => by rw [hstore] at hi; cases hi⟩
  · intro hdelivery
    rw [hcommit, hdelivery, transmit]
    simp only [hpublish, P.tag_ne_empty, if_false]
    rfl
  · intro hdelivery
    rw [hcommit, hdelivery, transmit]
    simp only [hpublish]
    rfl

end First

namespace Sample

/-- A chunk of zeros behind a seven. -/
def seven : Bytes := 7 :: zeros (chunkBytes - 1)

/-- The blank disk with a seven written to its start. -/
def written : IndexedVolume := { volume with dirty := (∅ : BTreeMap ℕ Bytes).insert 0 seven }

/-- The byte strings of this disk. The digest tells them apart by their first bytes. -/
def known : Set Bytes := {zeros chunkBytes, seven, firstPage platform seven}

/-- The samples know the bytes that they hash. -/
theorem known_ideal : platform.Ideal known := by
  apply ideal
  rintro a (rfl | rfl | rfl) b (rfl | rfl | rfl) hab -
  all_goals first
    | rfl
    | exact absurd hab (by decide)

theorem zeros_known : zeros chunkBytes ∈ known := .inl rfl
theorem seven_known : seven ∈ known := .inr (.inl rfl)
theorem page_known : firstPage platform seven ∈ known := .inr (.inr rfl)

theorem blank_addressed (S : Set Bytes) : Addressed platform S blank :=
  fun s h b hb => by simp [blank] at hb

theorem bucket_addressed (S : Set Bytes) : Addressed platform S bucket :=
  fun s h b hb => by simp [bucket] at hb

theorem first_written : First written seven := ⟨rfl, rfl, rfl, rfl, rfl⟩

/-- A blank disk finds its only chunk without a look at the store. -/
theorem load_blank (view : View) : volume.load platform view 0 = .ok (zeros chunkBytes) := rfl

theorem splice_seven : splice (zeros chunkBytes) 0 [7] = seven := by
  simp [splice, seven, zeros]

theorem fits_seven : ¬ volume.dirtyBytes + volume.extraChunks 0 ([7] : Bytes).length * chunkBytes >
    dirtyLimit := by
  rw [IndexedVolume.dirtyBytes, IndexedVolume.extraChunks]
  decide

/-- The write goes to the dirty map. -/
theorem write_seven (B : Bucket) (φ : Faults) :
    volume.write platform B φ 0 [7] = (B, written, .ok ()) := by
  have hsegments : segments chunkBytes 0 ([7] : Bytes).length 0 = [⟨0, 0, 0, 1⟩] := by
    rw [segments_pos chunkBytes_pos (by decide)]
    simp [segments_zero, chunkBytes]
  have hchunk : volume.writtenChunk platform (φ.view B) [7] ⟨0, 0, 0, 1⟩ = .ok seven := by
    rw [IndexedVolume.writtenChunk, if_neg (by decide), load_blank]
    exact congrArg Except.ok splice_seven
  have hbuffer : volume.buffer platform (φ.view B) 0 [7] = (written, .ok ()) := by
    rw [IndexedVolume.buffer, hsegments, List.foldlM_cons, IndexedVolume.stageWrite, hchunk]
    rfl
  rw [IndexedVolume.write, check_of rfl (by decide)]
  simp only
  rw [if_neg (by decide), if_neg (by decide), if_neg fits_seven, hbuffer]

/-- The objects of the first commit are known. -/
theorem objects_digests : Digests platform known (firstObjects platform seven) := by
  intro o ho
  rcases List.mem_cons.mp ho with rfl | ho
  · exact ⟨rfl, seven_known⟩
  · obtain rfl := List.mem_singleton.mp ho
    exact ⟨rfl, page_known⟩

/-- What the commit of the written disk digests is known. -/
theorem written_known {view : View} : ∀ b ∈ written.hashed platform view false, b ∈ known := by
  intro b hb
  rcases first_written.hashed hb with rfl | rfl
  · exact seven_known
  · exact page_known

/-- The commit of the written disk at a store that takes its objects. -/
theorem commitInner_written {B : Bucket} (φ : Faults) (mark : Option Replication)
    (ha : Addressed platform known B)
    (hhead : B.heads ⟨false, "disk"⟩ = some ⟨"r", .root volume.root⟩)
    (hexpired : φ.expired = false) (hupload : φ.upload = none) :
    ∃ B', Publishes platform B (φ.view B) written (written.nextRoot mark) false
        (firstRoot platform written seven mark) B' ∧
      (φ.delivery = .delivered → written.commitInner platform B φ mark =
        (B', firstHandle platform written seven mark B.published, .ok 1)) ∧
      (φ.delivery = .replyLost → written.commitInner platform B φ mark =
        (B', { written with poisoned := true }, .error .uncertain)) := by
  have hjson : (platform.json (.root (firstRoot platform written seven mark))).length ≤
      maxManifestBytes := by
    rw [show platform.json (.root (firstRoot platform written seven mark)) = [1, 1, 0] from rfl]
    decide
  have hspace : written.space = ⟨false, "disk"⟩ := rfl
  exact first_written.commitInner known_ideal ha seven_known page_known rfl rfl hexpired hupload
    (by decide) hjson (by rw [hspace, hhead]; rfl)

/-- The blank disk holds zeros. -/
theorem head_blank : HeadOf platform known bucket volume fun _ => zeros chunkBytes :=
  (createInner_ok zeros_known create_eq).2.1

theorem length_seven : seven.length = chunkBytes := by
  rw [seven, List.length_cons, length_zeros]
  rfl

/-- A commit of the written disk leaves the seven at its head. -/
theorem head_written {B : Bucket} {φ : Faults} {mark : Option Replication}
    (hmark : ∀ m, mark = some m → m.id.length = 32 ∧ m.sequence ≠ 0)
    (hpublishes : Publishes platform bucket (φ.view bucket) written (written.nextRoot mark) false
      (firstRoot platform written seven mark) B) (hs : (φ.view bucket).Sound bucket) :
    HeadOf platform known B (firstHandle platform written seven mark 1)
      (written.over fun _ => zeros chunkBytes) ∧ Addressed platform known B := by
  have hwritten : HeadOf platform known bucket written (fun _ => zeros chunkBytes) :=
    head_blank.of_same rfl rfl rfl rfl
  have hdirty : DirtyOk written := by
    intro i b hb
    rw [first_written.dirty, Std.ExtTreeMap.getElem?_insert, Std.ExtTreeMap.getElem?_empty] at hb
    split at hb
    · rename_i heq
      obtain rfl : 0 = i := by simpa using heq
      obtain rfl := Option.some.inj hb
      exact ⟨by decide, length_seven⟩
    · cases hb
  have hcontinues := continues_nextRoot hwritten.holds.rootOk hmark
  exact ⟨hwritten.publishes hpublishes known_ideal (bucket_addressed _) hdirty hs written_known
    hcontinues, (hpublishes.holds hwritten.holds known_ideal (bucket_addressed _) hdirty hs
      written_known hcontinues "").2.1⟩

end Sample

end AgentHouse.Volume
