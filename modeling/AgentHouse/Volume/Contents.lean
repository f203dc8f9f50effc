import AgentHouse.Volume.Shapes
import AgentHouse.Lib.Loops

/-!
# The contents of a volume

`Holds P S B v f` says that the bucket `B` stores the chunks `f` for the handle `v`: every
load of a stored chunk succeeds and yields it. The dirty map lies over the stored chunks.
Reads and writes of a handle are reads and writes of the flat array that the chunks denote.
-/

namespace AgentHouse.Volume

open IndexedVolume

/-- The number of chunks of a disk. -/
def IndexedVolume.chunkCount (v : IndexedVolume) : ℕ := v.root.size / chunkBytes

/-- Objects lie under their own hash, and all are among the byte strings `S` that the digest
tells apart. -/
def Addressed (P : Platform) (S : Set Bytes) (B : Bucket) : Prop :=
  ∀ (s : Space) (h : Hash) (b : Bytes), (B.objects s)[h]? = some b → P.digest b = h ∧ b ∈ S

/-- The bucket stores the chunks `f` for the handle `v`. -/
structure Holds (P : Platform) (S : Set Bytes) (B : Bucket) (v : IndexedVolume)
    (f : ℕ → Bytes) : Prop where
  wellFormed : v.root.wellFormed v.root.volume = true
  base : loadBase P B.view v.root = .ok v.base
  loads : ∀ i < v.chunkCount, v.loadStored P B.view i = .ok (f i)
  known : ∀ i < v.chunkCount, f i ∈ S
  basePages : ∀ p < pageCount v.root.size, ∃ pg, v.basePage P B.view p = .ok pg
  baseChunks : ∀ i < v.chunkCount, ∀ pg h b, v.basePage P B.view (i / slots) = .ok pg →
    slot pg i = some h → v.root.base = some b →
    ∃ c, (B.objects ⟨true, b.image⟩)[h]? = some c ∧ c.length = chunkBytes

/-- Buffered chunks lie within the disk and are whole. -/
def DirtyOk (v : IndexedVolume) : Prop :=
  ∀ (i : ℕ) (b : Bytes), v.dirty[i]? = some b → i < v.chunkCount ∧ b.length = chunkBytes

/-- The chunks of a handle: buffered ones lie over the stored ones. -/
def IndexedVolume.over (v : IndexedVolume) (f : ℕ → Bytes) (i : ℕ) : Bytes :=
  (v.dirty[i]?).getD (f i)

/-- The facts that `decode_head` established about a disk map. -/
structure RootOk (r : Root) : Prop where
  size_pos : 0 < r.size
  size_le : r.size ≤ maxSize
  size_mod : r.size % chunkBytes = 0
  format : r.format ∈ [2, 3, 6, 7, 8, 9, 10, 11]
  marked : r.format ∈ [3, 7, 9, 11] ↔ r.replication.isSome = true
  based : r.format ∈ [6, 7, 10, 11] ↔ r.base.isSome = true
  mark_ok : ∀ m, r.replication = some m → m.id.length = 32 ∧ m.sequence ≠ 0
  pages_ok : ∀ (p : ℕ) (h : Hash), r.pages[p]? = some h → p < pageCount r.size ∧ h.length = 32

/-- A root is well formed if it is of the volume and in order. -/
theorem wellFormed_iff {r : Root} {id : VolumeId} :
    r.wellFormed id = true ↔ r.volume = id ∧ RootOk r := by
  unfold Root.wellFormed
  simp only [Bool.and_eq_true, List.all_eq_true, decide_eq_true_eq, beq_iff_eq, bne_iff_ne,
    List.contains_iff_mem, validHash]
  have hbool : ∀ a b : Bool, a = b ↔ (a = true ↔ b = true) := by decide
  constructor
  · rintro ⟨⟨⟨⟨⟨⟨⟨⟨hf, hm⟩, hb⟩, hr⟩, hv⟩, hs⟩, hs'⟩, hmod⟩, hp⟩
    refine ⟨hv, by omega, hs', hmod, hf, ?_, ?_, ?_, ?_⟩
    · rw [hbool] at hm
      simpa [List.contains_iff_mem] using hm
    · rw [hbool] at hb
      simpa [List.contains_iff_mem] using hb
    · intro m hm
      simpa [hm, validHash] using hr
    · intro p h hph
      rw [← Std.ExtTreeMap.mem_toList_iff_getElem?_eq_some] at hph
      exact hp (p, h) hph
  · rintro ⟨hv, h⟩
    refine ⟨⟨⟨⟨⟨⟨⟨⟨h.format, ?_⟩, ?_⟩, ?_⟩, hv⟩, by have := h.size_pos; omega⟩, h.size_le⟩,
      h.size_mod⟩, ?_⟩
    · rw [hbool]
      simpa [List.contains_iff_mem] using h.marked
    · rw [hbool]
      simpa [List.contains_iff_mem] using h.based
    · cases hm : r.replication with
      | none => rfl
      | some m =>
        have := h.mark_ok m hm
        simp [this.1, this.2]
    · rintro ⟨p, hh⟩ hmem
      rw [Std.ExtTreeMap.mem_toList_iff_getElem?_eq_some] at hmem
      exact h.pages_ok p hh hmem

section Chunks

variable {P : Platform} {S : Set Bytes} {B B' : Bucket} {v : IndexedVolume} {f : ℕ → Bytes}

/-- Arrays are compared chunk by chunk. -/
theorem flat_congr {f g : ℕ → Bytes} {x : ℕ} (h : f (x / chunkBytes) = g (x / chunkBytes)) :
    flat chunkBytes f x = flat chunkBytes g x := by
  simp only [flat, h]

theorem dirtyOk_empty {v : IndexedVolume} (h : v.dirty = ∅) : DirtyOk v := by
  intro i b hb
  rw [h] at hb
  simp at hb

/-- Without dirty chunks the content is what is stored. -/
theorem over_empty {v : IndexedVolume} (h : v.dirty = ∅) (f : ℕ → Bytes) : v.over f = f := by
  funext i
  simp [IndexedVolume.over, h]

theorem Holds.rootOk (h : Holds P S B v f) : RootOk v.root := (wellFormed_iff.mp h.wellFormed).2

theorem Holds.size_eq (h : Holds P S B v f) : v.root.size = v.chunkCount * chunkBytes :=
  (Nat.div_mul_cancel (Nat.dvd_of_mod_eq_zero h.rootOk.size_mod)).symm

/-- A position within the disk lies in one of its chunks. -/
theorem Holds.div_lt (h : Holds P S B v f) {x : ℕ} (hx : x < v.root.size) :
    x / chunkBytes < v.chunkCount := by
  rw [Nat.div_lt_iff_lt_mul chunkBytes_pos, ← h.size_eq]
  exact hx

/-- The page of a chunk is one of the disk's pages. -/
theorem div_slots_lt_pageCount {size i : ℕ} (h : i < size / chunkBytes) :
    i / slots < pageCount size := by
  have hs := slots_pos
  unfold pageCount
  rw [Nat.div_lt_iff_lt_mul hs]
  have h1 := Nat.div_add_mod' (size / chunkBytes + (slots - 1)) slots
  have h2 := Nat.mod_lt (size / chunkBytes + (slots - 1)) hs
  omega

/-- The first chunk of a page lies within the disk. -/
theorem mul_slots_lt {size p : ℕ} (h : p < pageCount size) : p * slots < size / chunkBytes := by
  have hs := slots_pos
  unfold pageCount at h
  have h1 := Nat.div_mul_le_self (size / chunkBytes + (slots - 1)) slots
  have h2 : (p + 1) * slots ≤ (size / chunkBytes + (slots - 1)) / slots * slots :=
    Nat.mul_le_mul_right slots h
  rw [Nat.add_mul] at h2
  omega

/-- Page numbers fit their field. -/
theorem pageCount_le {size : ℕ} (h : size ≤ maxSize) : pageCount size ≤ 1024 := by
  unfold pageCount
  have h1 : size / chunkBytes ≤ maxSize / chunkBytes := Nat.div_le_div_right h
  have h2 : maxSize / chunkBytes = 1024 * 1024 := by decide
  rw [show slots = 1024 from rfl]
  omega

theorem Holds.page_bound (h : Holds P S B v f) {p : ℕ} (hp : p < pageCount v.root.size) :
    p < 256 ^ 8 := by
  have := pageCount_le h.rootOk.size_le
  omega

/-- What a successful load delivers: a whole chunk. -/
theorem loadFrom_length {view : View} {pg : Bytes} {i : ℕ} {c : Bytes}
    (h : v.loadFrom P view pg i = .ok c) : c.length = chunkBytes := by
  unfold loadFrom at h
  split at h
  · rw [← Except.ok.inj h]
    simp
  · split at h
    · cases h
    · split at h
      · cases h
      · simp only at h
        split at h
        · cases h
        · split at h
          · cases h
          · rename_i chunk _
            split at h
            · cases h
            · rename_i hne
              rw [← Except.ok.inj h]
              by_contra hc
              exact hne (Or.inl hc)

/-- Every chunk has the length of a chunk. -/
theorem Holds.length_eq (h : Holds P S B v f) {i : ℕ} (hi : i < v.chunkCount) :
    (f i).length = chunkBytes := by
  obtain ⟨pg, -, hl⟩ := loadStored_ok (h.loads i hi)
  exact loadFrom_length hl

/-- Dirty or not. -/
theorem Holds.over_length (h : Holds P S B v f) (hd : DirtyOk v) {i : ℕ} (hi : i < v.chunkCount) :
    (v.over f i).length = chunkBytes := by
  unfold IndexedVolume.over
  cases hb : v.dirty[i]? with
  | none => exact h.length_eq hi
  | some b => exact (hd i b hb).2

/-- A volume keeps its contents in a bucket that holds more. -/
theorem Holds.mono (h : Holds P S B v f) (hle : B.Le B') : Holds P S B' v f where
  wellFormed := h.wellFormed
  base := loadBase_mono hle.view h.base
  loads i hi := loadStored_mono hle.view (h.loads i hi)
  known := h.known
  basePages p hp := by
    obtain ⟨pg, hpg⟩ := h.basePages p hp
    exact ⟨pg, basePage_mono hle.view hpg⟩
  baseChunks i hi pg hash b hpg hs hb := by
    obtain ⟨pg', hpg'⟩ := h.basePages (i / slots) (div_slots_lt_pageCount hi)
    have heq := (basePage_mono hle.view hpg').symm.trans hpg
    rw [Except.ok.inj heq] at hpg'
    obtain ⟨c, hc, hlen⟩ := h.baseChunks i hi pg hash b hpg' hs hb
    exact ⟨c, hle _ _ _ hc, hlen⟩

/-- The stored contents depend on the source of a handle and its page map only. -/
theorem Holds.of_pages (h : Holds P S B v f) {v' : IndexedVolume} (hsrc : SameSource v v')
    (hpages : v'.root.pages = v.root.pages) (hroot : RootOk v'.root) : Holds P S B v' f where
  wellFormed := wellFormed_iff.mpr ⟨rfl, hroot⟩
  base := by
    have hb := h.base
    unfold loadBase at hb ⊢
    rw [hsrc.rootBase, hsrc.size, hsrc.base]
    exact hb
  loads i hi := by
    have hi' : i < v.chunkCount := by simpa only [chunkCount, hsrc.size] using hi
    obtain ⟨pg, hp, hl⟩ := loadStored_ok (h.loads i hi')
    rw [loadStored, hsrc.page (by rw [hpages]), hp]
    simpa only [hsrc.loadFrom] using hl
  known i hi := h.known i (by simpa only [chunkCount, hsrc.size] using hi)
  basePages p hp := by
    rw [hsrc.basePage]
    exact h.basePages p (by simpa only [hsrc.size] using hp)
  baseChunks i hi pg hash b hpg hs hb := by
    rw [hsrc.basePage] at hpg
    exact h.baseChunks i (by simpa only [chunkCount, hsrc.size] using hi) pg hash b hpg hs
      (by simpa only [hsrc.rootBase] using hb)

/-- The stored contents do not depend on the dirty map, the revision or the poison flag. -/
theorem Holds.of_same (h : Holds P S B v f) {v' : IndexedVolume} (hsrc : SameSource v v')
    (hroot : v'.root = v.root) : Holds P S B v' f :=
  h.of_pages hsrc (by rw [hroot]) (by rw [hroot]; exact h.rootOk)

/-- A handle stores one content. -/
theorem Holds.unique (h : Holds P S B v f) {v' : IndexedVolume} {f' : ℕ → Bytes}
    (h' : Holds P S B v' f') (hsrc : SameSource v v') (hpages : v'.root.pages = v.root.pages)
    {i : ℕ} (hi : i < v.chunkCount) : f' i = f i := by
  have h1 := (h.of_pages hsrc hpages h'.rootOk).loads i
    (by simpa only [chunkCount, hsrc.size] using hi)
  have h2 := h'.loads i (by simpa only [chunkCount, hsrc.size] using hi)
  exact Except.ok.inj (h2.symm.trans h1)

/-- Every load through a sound view yields the chunk. -/
theorem Holds.load_sound (h : Holds P S B v f) {view : View} (hs : view.Sound B) {i : ℕ}
    (hi : i < v.chunkCount) {c : Bytes} (hok : v.load P view i = .ok c) : c = v.over f i := by
  unfold IndexedVolume.over
  cases hd : v.dirty[i]? with
  | some b =>
    rw [load_of_dirty hd] at hok
    exact (Except.ok.inj hok).symm
  | none =>
    rw [load_of_clean hd] at hok
    have := (loadStored_mono (hs.le B.view_healthy) hok).symm.trans (h.loads i hi)
    exact Except.ok.inj this

/-- Every load through a healthy view succeeds. -/
theorem Holds.load_healthy (h : Holds P S B v f) {view : View} (hh : view.Healthy B) {i : ℕ}
    (hi : i < v.chunkCount) : v.load P view i = .ok (v.over f i) := by
  unfold IndexedVolume.over
  cases hd : v.dirty[i]? with
  | some b => exact load_of_dirty hd
  | none =>
    rw [load_of_clean hd]
    exact loadStored_mono (B.view_healthy.toSound.le hh) (h.loads i hi)

end Chunks

section Reads

variable {P : Platform} {S : Set Bytes} {B : Bucket} {v : IndexedVolume} {f : ℕ → Bytes}

/-- The loop of `read` puts together the loaded pieces. -/
theorem gather_ok {view : View} {g : ℕ → Bytes} :
    ∀ {segs : List Segment} {out : Bytes}, v.gather P view segs = .ok out →
      (∀ s ∈ segs, ∀ c, v.load P view s.index = .ok c → c = g s.index) →
      out = segs.flatMap (fun s => slice (g s.index) s.within s.count)
  | [], out, hok, _ => (Except.ok.inj hok).symm
  | s :: rest, out, hok, hg => by
    rw [gather] at hok
    cases hl : v.load P view s.index with
    | error e => simp [hl] at hok
    | ok bytes =>
      simp only [hl] at hok
      cases hr : v.gather P view rest with
      | error e => simp [hr] at hok
      | ok tail =>
        simp only [hr] at hok
        rw [← Except.ok.inj hok, List.flatMap_cons, hg s List.mem_cons_self bytes hl,
          gather_ok hr (fun t ht => hg t (List.mem_cons_of_mem _ ht))]

/-- By recursion on the segments, what is gathered is what they hold. -/
theorem gather_succeeds {view : View} {g : ℕ → Bytes} :
    ∀ {segs : List Segment}, (∀ s ∈ segs, v.load P view s.index = .ok (g s.index)) →
      v.gather P view segs = .ok (segs.flatMap (fun s => slice (g s.index) s.within s.count))
  | [], _ => rfl
  | s :: rest, hg => by
    rw [gather, hg s List.mem_cons_self,
      gather_succeeds (fun t ht => hg t (List.mem_cons_of_mem _ ht))]
    rfl

/-- The chunks that a transfer within the disk touches. -/
theorem Holds.segment_lt (h : Holds P S B v f) {offset len : ℕ} (hr : offset + len ≤ v.root.size)
    {s : Segment} (hs : s ∈ segments chunkBytes offset len 0) : s.index < v.chunkCount := by
  have hfit := segments_fits chunkBytes_pos offset len 0 s hs
  have hle := hfit.index_le.2
  have hc := hfit.count_pos
  have hd := hfit.done_count
  exact lt_of_le_of_lt hle (h.div_lt (by omega))

/-- What the check of a call has established. -/
theorem check_ok {pos len : ℕ} (h : v.check pos len = .ok ()) :
    v.poisoned = false ∧ pos + len ≤ v.root.size := by
  unfold IndexedVolume.check at h
  split at h
  · cases h
  · rename_i hp
    split at h
    · cases h
    · exact ⟨by simpa using hp, by omega⟩

/-- And what it needs. -/
theorem check_of {pos len : ℕ} (hp : v.poisoned = false) (hr : pos + len ≤ v.root.size) :
    v.check pos len = .ok () := by
  simp only [IndexedVolume.check, hp, Bool.false_eq_true, if_false]
  rw [if_neg (by omega)]

/-- A read that succeeds returns a window of the flat array. -/
theorem Holds.read_sound (h : Holds P S B v f) (hd : DirtyOk v) {view : View}
    (hs : view.Sound B) {offset len : ℕ} {out : Bytes}
    (hok : v.read P view offset len = .ok out) :
    out = window (flat chunkBytes (v.over f)) offset len := by
  unfold IndexedVolume.read at hok
  cases hc : v.check offset len with
  | error e => simp [hc] at hok
  | ok u =>
    simp only [hc] at hok
    split at hok
    · cases hok
    · have hr := (check_ok hc).2
      rw [gather_ok hok (g := v.over f)
        (fun s hseg c hl => h.load_sound hs (h.segment_lt hr hseg) hl)]
      rcases Nat.eq_zero_or_pos len with rfl | hlen
      · simp [segments_zero, window]
      · exact flatMap_segments chunkBytes_pos offset len 0
          (fun i _ hi => h.over_length hd (lt_of_le_of_lt hi (h.div_lt (by omega))))

/-- A read within the disk succeeds through a healthy view. -/
theorem Holds.read_healthy (h : Holds P S B v f) (hd : DirtyOk v) {view : View}
    (hh : view.Healthy B) (hp : v.poisoned = false) {offset len : ℕ}
    (hr : offset + len ≤ v.root.size) (hl : len ≤ writeLimit) :
    v.read P view offset len = .ok (window (flat chunkBytes (v.over f)) offset len) := by
  have hok : ∃ out, v.read P view offset len = .ok out := by
    rw [IndexedVolume.read, check_of hp hr]
    simp only
    rw [if_neg (by omega),
      gather_succeeds (fun s hs => h.load_healthy hh (h.segment_lt hr hs))]
    exact ⟨_, rfl⟩
  obtain ⟨out, hok⟩ := hok
  rw [hok, h.read_sound hd hh.toSound hok]

end Reads

section Writes

variable {P : Platform} {S : Set Bytes} {B : Bucket} {v : IndexedVolume} {f : ℕ → Bytes}

/-- The loop of `write` fills in each touched chunk once. -/
theorem stageWrite_loop {view : View} {input : Bytes} {offset : ℕ} {pending : BTreeMap ℕ Bytes}
    (hok : (segments chunkBytes offset input.length 0).foldlM (v.stageWrite P view input) ∅ =
      .ok pending) :
    (∀ s ∈ segments chunkBytes offset input.length 0, ∃ c,
      v.writtenChunk P view input s = .ok c ∧ pending[s.index]? = some c) ∧
    ∀ i, (∀ s ∈ segments chunkBytes offset input.length 0, s.index ≠ i) → pending[i]? = none := by
  have hsorted := segments_sorted chunkBytes_pos offset input.length 0
  refine foldlM_induction hok (fun done pending =>
    (∀ s ∈ done, ∃ c, v.writtenChunk P view input s = .ok c ∧ pending[s.index]? = some c) ∧
    ∀ i, (∀ s ∈ done, s.index ≠ i) → pending[i]? = none) (by simp) ?_
  rintro done s rest acc acc' hl ⟨h1, h2⟩ hstep
  unfold IndexedVolume.stageWrite at hstep
  cases hw : v.writtenChunk P view input s with
  | error e => simp [hw] at hstep
  | ok c =>
    simp only [hw] at hstep
    obtain rfl := Except.ok.inj hstep
    rw [hl, List.pairwise_append] at hsorted
    have hne : ∀ t ∈ done, t.index ≠ s.index := fun t ht =>
      Nat.ne_of_lt (hsorted.2.2 t ht s List.mem_cons_self)
    constructor
    · intro t ht
      rcases List.mem_append.mp ht with ht | ht
      · obtain ⟨c', hc', hp'⟩ := h1 t ht
        refine ⟨c', hc', ?_⟩
        rw [Std.ExtTreeMap.getElem?_insert, if_neg]
        · exact hp'
        · simpa using (hne t ht).symm
      · obtain rfl := List.mem_singleton.mp ht
        exact ⟨c, hw, by simp⟩
    · intro i hi
      have hsi : s.index ≠ i := hi s (by simp)
      rw [Std.ExtTreeMap.getElem?_insert, if_neg (by simpa using hsi)]
      exact h2 i (fun t ht => hi t (List.mem_append_left _ ht))

/-- A touched chunk is the old one with the written part filled in, also when it was not
loaded because it is overwritten as a whole. -/
theorem Holds.writtenChunk_eq (h : Holds P S B v f) (hd : DirtyOk v) {view : View}
    (hs : view.Sound B) {input : Bytes} {offset : ℕ} (hr : offset + input.length ≤ v.root.size)
    {s : Segment} (hseg : s ∈ segments chunkBytes offset input.length 0) {c : Bytes}
    (hok : v.writtenChunk P view input s = .ok c) :
    c = splice (v.over f s.index) s.within (slice input s.done s.count) := by
  have hlt := h.segment_lt hr hseg
  have hfit := segments_fits chunkBytes_pos offset input.length 0 s hseg
  unfold IndexedVolume.writtenChunk at hok
  by_cases hwhole : s.within = 0 ∧ s.count = chunkBytes
  · simp only [hwhole, and_self, if_true] at hok
    have hlen : (slice input s.done s.count).length = chunkBytes := by
      have := hfit.done_count
      rw [length_slice]
      omega
    rw [hwhole.2] at hlen
    rw [← Except.ok.inj hok, hwhole.1, hwhole.2, splice_whole (by rw [hlen, length_zeros]),
      splice_whole (by rw [hlen, h.over_length hd hlt])]
  · simp only [if_neg hwhole] at hok
    cases hl : v.load P view s.index with
    | error e => simp [hl] at hok
    | ok bytes =>
      simp only [hl] at hok
      rw [← Except.ok.inj hok, h.load_sound hs hlt hl]

/-- An accepted write overwrites the flat array and stays in the buffer. -/
theorem Holds.buffer_ok (h : Holds P S B v f) (hd : DirtyOk v) {view : View}
    (hs : view.Sound B) {offset : ℕ} {input : Bytes} (hr : offset + input.length ≤ v.root.size)
    {v' : IndexedVolume} (hok : v.buffer P view offset input = (v', .ok ())) :
    SameSource v v' ∧ v'.root = v.root ∧ v'.revision = v.revision ∧ v'.poisoned = v.poisoned ∧
      DirtyOk v' ∧
      flat chunkBytes (v'.over f) = overwrite (flat chunkBytes (v.over f)) offset input := by
  unfold IndexedVolume.buffer at hok
  split at hok
  · cases (Prod.mk.inj hok).2
  · rename_i pending hloop
    obtain ⟨rfl, -⟩ := Prod.mk.inj hok
    obtain ⟨hin, hout⟩ := stageWrite_loop hloop
    have hchunk : ∀ s ∈ segments chunkBytes offset input.length 0, pending[s.index]? =
        some (splice (v.over f s.index) s.within (slice input s.done s.count)) := by
      intro s hseg
      obtain ⟨c, hc, hp⟩ := hin s hseg
      rw [hp, h.writtenChunk_eq hd hs hr hseg hc]
    have hlen : ∀ s ∈ segments chunkBytes offset input.length 0,
        (splice (v.over f s.index) s.within (slice input s.done s.count)).length = chunkBytes := by
      intro s hseg
      have hfit := segments_fits chunkBytes_pos offset input.length 0 s hseg
      have hol := h.over_length hd (h.segment_lt hr hseg)
      have := hfit.within_le
      have := hfit.done_count
      rw [length_splice (by rw [length_slice, hol]; omega), hol]
    refine ⟨⟨rfl, rfl, rfl, rfl, rfl⟩, rfl, rfl, rfl, ?_, ?_⟩
    · intro i b hb
      simp only [Std.ExtTreeMap.getElem?_union] at hb
      by_cases hex : ∃ s ∈ segments chunkBytes offset input.length 0, s.index = i
      · obtain ⟨s, hseg, rfl⟩ := hex
        rw [hchunk s hseg] at hb
        have hb' : splice (v.over f s.index) s.within (slice input s.done s.count) = b := by
          simpa using hb
        exact ⟨h.segment_lt hr hseg, by rw [← hb']; exact hlen s hseg⟩
      · rw [hout i (fun s hseg heq => hex ⟨s, hseg, heq⟩)] at hb
        exact hd i b (by simpa using hb)
    · apply flat_overwrite chunkBytes_pos
      · intro s hseg
        exact h.over_length hd (h.segment_lt hr hseg)
      · intro s hseg
        simp only [IndexedVolume.over, Std.ExtTreeMap.getElem?_union, hchunk s hseg]
        rfl
      · intro i hi
        simp only [IndexedVolume.over, Std.ExtTreeMap.getElem?_union, hout i hi]
        simp

/-- A write within the disk is buffered when the store answers. -/
theorem Holds.buffer_healthy (h : Holds P S B v f) {view : View} (hh : view.Healthy B)
    {offset : ℕ} {input : Bytes} (hr : offset + input.length ≤ v.root.size) :
    ∃ v', v.buffer P view offset input = (v', .ok ()) := by
  have hchunk : ∀ s ∈ segments chunkBytes offset input.length 0,
      ∃ c, v.writtenChunk P view input s = .ok c := by
    intro s hseg
    unfold IndexedVolume.writtenChunk
    by_cases hwhole : s.within = 0 ∧ s.count = chunkBytes
    · simp only [hwhole, and_self, if_true]
      exact ⟨_, rfl⟩
    · simp only [if_neg hwhole, h.load_healthy hh (h.segment_lt hr hseg)]
      exact ⟨_, rfl⟩
  obtain ⟨pending, hp, -⟩ := foldlM_succeeds (f := v.stageWrite P view input) (z := ∅)
    (l := segments chunkBytes offset input.length 0) (fun _ _ => True) trivial (by
      intro done s rest acc hl _
      obtain ⟨c, hc⟩ := hchunk s (by rw [hl]; simp)
      exact ⟨acc.insert s.index c, by simp only [IndexedVolume.stageWrite, hc], trivial⟩)
  exact ⟨{ v with dirty := v.dirty ∪ pending }, by simp only [IndexedVolume.buffer, hp]⟩

/-- A write that fits into the dirty map touches nothing else. -/
theorem Holds.write_buffers (h : Holds P S B v f) {φ : Faults} (hh : (φ.view B).Healthy B)
    (hp : v.poisoned = false) {offset : ℕ} {input : Bytes}
    (hr : offset + input.length ≤ v.root.size) (hl : input.length ≤ writeLimit)
    (hne : input ≠ [])
    (hfit : v.dirtyBytes + v.extraChunks offset input.length * chunkBytes ≤ dirtyLimit) :
    ∃ v', v.buffer P (φ.view B) offset input = (v', .ok ()) ∧
      v.write P B φ offset input = (B, v', .ok ()) := by
  obtain ⟨v', hb⟩ := h.buffer_healthy hh hr
  refine ⟨v', hb, ?_⟩
  rw [IndexedVolume.write, check_of hp hr]
  simp only
  rw [if_neg (by omega), if_neg hne, if_neg (by omega), hb]

/-- Writing a whole chunk into a dirty map with room for it. -/
theorem write_whole {φ : Faults} {i : ℕ} {b : Bytes} (hp : v.poisoned = false)
    (hb : b.length = chunkBytes)
    (hr : i * chunkBytes + chunkBytes ≤ v.root.size)
    (hfit : (v.dirty.size + 1) * chunkBytes ≤ dirtyLimit) :
    v.write P B φ (i * chunkBytes) b =
      (B, { v with dirty := v.dirty ∪ (∅ : BTreeMap ℕ Bytes).insert i b }, .ok ()) := by
  have hC := chunkBytes_pos
  have hextra : v.extraChunks (i * chunkBytes) b.length ≤ 1 := by
    unfold IndexedVolume.extraChunks
    refine (List.length_filter_le _ _).trans ?_
    have hlast : (i * chunkBytes + chunkBytes - 1) / chunkBytes = i := by
      rw [Nat.add_sub_assoc hC, Nat.mul_comm, Nat.mul_add_div hC,
        Nat.div_eq_of_lt (by omega), Nat.add_zero]
    rw [hb, hlast, Nat.mul_div_cancel _ hC, List.length_range']
    omega
  have hdirty : v.dirtyBytes + v.extraChunks (i * chunkBytes) b.length * chunkBytes ≤
      dirtyLimit := by
    refine le_trans ?_ hfit
    rw [IndexedVolume.dirtyBytes, ← Nat.add_mul]
    exact Nat.mul_le_mul_right _ (by omega)
  have hlimit : ¬ b.length > writeLimit := by rw [hb]; decide
  have hne : b ≠ [] := by
    rintro rfl
    simp only [List.length_nil] at hb
    omega
  have hchunk : v.writtenChunk P (φ.view B) b ⟨i, 0, 0, chunkBytes⟩ = .ok b := by
    simp only [IndexedVolume.writtenChunk, and_self, if_true]
    rw [slice_eq_self hb, splice_whole (by rw [hb, length_zeros])]
  rw [IndexedVolume.write, check_of hp (by rw [hb]; exact hr)]
  simp only
  rw [if_neg hlimit, if_neg hne, if_neg (by omega), IndexedVolume.buffer, hb,
    segments_whole chunkBytes_pos]
  simp only [List.foldlM_cons, List.foldlM_nil, IndexedVolume.stageWrite, hchunk]
  rfl

end Writes

end AgentHouse.Volume
