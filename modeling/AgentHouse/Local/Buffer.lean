import AgentHouse.Local.Versions

/-!
# Reads and writes of the journalled disk

Pending chunks lie over the chunks of the remote volume. Reads and writes are those of the
flat array that the two denote together, and the records of an accepted write turn the
contents before it into the contents after it.
-/

namespace AgentHouse.Local

open Volume IndexedVolume

section Reads

variable {P : Platform} {S : Set Bytes} {B : Bucket} {store : Client} {id : VolumeId}
  {count : ℕ} {s : State} {g : ℕ → Bytes} {view : View}

/-- The chunks of a disk: pending ones lie over those of the remote volume. -/
def State.over (s : State) (g : ℕ → Bytes) (i : ℕ) : Bytes :=
  ((s.pending[i]?).map Pending.bytes).getD (g i)

/-- Pending chunks lie within the disk and are whole. -/
def PendingOk (count : ℕ) (pending : BTreeMap ℕ Pending) : Prop :=
  ∀ (i : ℕ) (p : Pending), pending[i]? = some p → i < count ∧ p.bytes.length = chunkBytes

/-- A state whose reader serves the chunks `g`. -/
structure Reads (P : Platform) (S : Set Bytes) (B : Bucket) (store : Client) (id : VolumeId)
    (count : ℕ) (s : State) (g : ℕ → Bytes) : Prop where
  serves : Serves P S B store id count s.reader g
  clean : s.reader.dirty = ∅
  pending : PendingOk count s.pending

/-- A block over the remote volume has the length of a block. -/
theorem Reads.over_length (h : Reads P S B store id count s g) {i : ℕ} (hi : i < count) :
    (s.over g i).length = chunkBytes := by
  unfold State.over
  cases hp : s.pending[i]? with
  | none => exact h.serves.length_eq hi
  | some p => exact (h.pending i p hp).2

theorem Reads.size_eq (h : Reads P S B store id count s g) :
    s.reader.root.size = count * chunkBytes := by
  rw [← h.serves.count_eq]
  exact h.serves.holds.size_eq

theorem Reads.div_lt (h : Reads P S B store id count s g) {x : ℕ}
    (hx : x < s.reader.root.size) : x / chunkBytes < count := by
  rw [← h.serves.count_eq]
  exact h.serves.holds.div_lt hx

/-- Segments of a valid range lie in the volume. -/
theorem Reads.segment_lt (h : Reads P S B store id count s g) {pos len : ℕ}
    (hr : pos + len ≤ s.reader.root.size) {t : Segment}
    (ht : t ∈ segments chunkBytes pos len 0) : t.index < count := by
  rw [← h.serves.count_eq]
  exact h.serves.holds.segment_lt hr ht

/-- A piece of a chunk as the reader delivers it. -/
theorem Reads.read_piece (h : Reads P S B store id count s g) (hs : view.Sound B) {i w n : ℕ}
    (hi : i < count) (hw : w + n ≤ chunkBytes) {out : Bytes}
    (hok : s.reader.read P view (i * chunkBytes + w) n = .ok out) : out = slice (g i) w n := by
  have hout := h.serves.holds.read_sound (dirtyOk_empty h.clean) hs hok
  rw [hout, over_empty h.clean, slice_eq_window (h.serves.length_eq hi) hw]

/-- What the check of a call has established. -/
theorem State.check_ok {pos len : ℕ} (hok : s.check pos len = .ok ()) :
    s.failed = false ∧ len ≤ writeLimit ∧ pos + len ≤ s.reader.root.size := by
  unfold State.check at hok
  split at hok
  · cases hok
  · rename_i hf
    split at hok
    · cases hok
    · rename_i hn
      simp only [not_or, IndexedVolume.size] at hn
      exact ⟨by simpa using hf, by omega, by omega⟩

/-- The loop of `read` puts together pieces of the chunks. -/
theorem Reads.gather_ok (h : Reads P S B store id count s g) (hs : view.Sound B) :
    ∀ {segs : List Segment} {out : Bytes}, s.gather P view segs = .ok out →
      (∀ t ∈ segs, t.index < count ∧ t.within + t.count ≤ chunkBytes) →
      out = segs.flatMap (fun t => slice (s.over g t.index) t.within t.count)
  | [], out, hok, _ => (Except.ok.inj hok).symm
  | t :: rest, out, hok, hfit => by
    obtain ⟨hi, hw⟩ := hfit t List.mem_cons_self
    have ih := fun {tail} (htail : s.gather P view rest = .ok tail) =>
      h.gather_ok hs htail (fun t' ht' => hfit t' (List.mem_cons_of_mem _ ht'))
    rw [State.gather] at hok
    cases hp : s.pending[t.index]? with
    | some p =>
      simp only [hp] at hok
      cases hr : s.gather P view rest with
      | error e => simp [hr] at hok
      | ok tail =>
        simp only [hr] at hok
        rw [← Except.ok.inj hok, List.flatMap_cons, ih hr]
        simp [State.over, hp]
    | none =>
      simp only [hp] at hok
      cases hl : s.reader.read P view (t.index * chunkBytes + t.within) t.count with
      | error e => simp [hl] at hok
      | ok piece =>
        simp only [hl] at hok
        cases hr : s.gather P view rest with
        | error e => simp [hr] at hok
        | ok tail =>
          simp only [hr] at hok
          rw [← Except.ok.inj hok, List.flatMap_cons, ih hr, h.read_piece hs hi hw hl]
          simp [State.over, hp]

/-- A read that succeeds returns a window of the flat array. -/
theorem Reads.read_sound (h : Reads P S B store id count s g) (hs : view.Sound B) {pos len : ℕ}
    {out : Bytes} (hok : s.read P view pos len = .ok out) :
    out = window (flat chunkBytes (s.over g)) pos len := by
  unfold State.read at hok
  split at hok
  · cases hok
  · rename_i hc
    have hr := (State.check_ok hc).2.2
    rw [h.gather_ok hs hok (fun t ht => ⟨h.segment_lt hr ht,
      (segments_fits chunkBytes_pos pos len 0 t ht).within_le⟩)]
    rcases Nat.eq_zero_or_pos len with rfl | hlen
    · simp [segments_zero, window]
    · exact flatMap_segments chunkBytes_pos pos len 0
        (fun i _ hi => h.over_length (lt_of_le_of_lt hi (h.div_lt (by omega))))

end Reads

section Records

/-- The chunks of a buffer as records. -/
def recordsIn (m : BTreeMap ℕ Pending) : List Record :=
  m.toList.map (fun e => ⟨e.2.sequence, e.1, e.2.bytes⟩)

/-- The records of the pending map. -/
theorem mem_recordsIn {m : BTreeMap ℕ Pending} {r : Record} :
    r ∈ recordsIn m ↔ m[r.key]? = some (Record.pending r) := by
  unfold recordsIn
  rw [List.mem_map]
  constructor
  · rintro ⟨⟨i, p⟩, hmem, rfl⟩
    exact Std.ExtTreeMap.mem_toList_iff_getElem?_eq_some.mp hmem
  · intro h
    exact ⟨(r.key, Record.pending r), Std.ExtTreeMap.mem_toList_iff_getElem?_eq_some.mpr h, rfl⟩

/-- One for each index. -/
theorem lastOf_recordsIn (m : BTreeMap ℕ Pending) (i : ℕ) :
    (lastOf (recordsIn m) i).map Record.pending = m[i]? := by
  cases hl : lastOf (recordsIn m) i with
  | some r =>
    obtain ⟨hmem, rfl⟩ := lastOf_some hl
    rw [mem_recordsIn.mp hmem]
    rfl
  | none =>
    cases hm : m[i]? with
    | none => rfl
    | some p =>
      have hmem : (⟨p.sequence, i, p.bytes⟩ : Record) ∈ recordsIn m := mem_recordsIn.mpr hm
      exact absurd rfl (lastOf_eq_none.mp hl _ hmem)

/-- The order in which records lie in a journal. -/
def Before (r t : Record) : Prop :=
  r.sequence < t.sequence ∨ r.sequence = t.sequence ∧ r.key < t.key

theorem Before.asymm {r t : Record} (h : Before r t) : ¬ Before t r := by
  unfold Before at *
  omega

theorem ascending_of_before {L : List Record} (h : L.Pairwise Before) : Ascending L := by
  refine h.imp (fun {r t} hrt => ?_)
  unfold Before at hrt
  omega

/-- The records of one write lie in order. -/
theorem before_recordsIn {m : BTreeMap ℕ Pending} {n : ℕ}
    (h : ∀ (i : ℕ) (p : Pending), m[i]? = some p → p.sequence = n) :
    (recordsIn m).Pairwise Before := by
  unfold recordsIn
  rw [List.pairwise_map]
  refine Std.ExtTreeMap.ordered_keys_toList.imp_of_mem ?_
  intro a b ha hb hlt
  have hseq := h a.1 a.2 (Std.ExtTreeMap.mem_toList_iff_getElem?_eq_some.mp ha)
  have hseq' := h b.1 b.2 (Std.ExtTreeMap.mem_toList_iff_getElem?_eq_some.mp hb)
  exact Or.inr ⟨hseq.trans hseq'.symm, by simpa [Nat.compare_eq_lt] using hlt⟩

/-- A buffer that holds the latest records is written out as the squeezed journal. -/
theorem entries_eq {s : State} {a : ℕ} {A : List Record} (hA : A.Pairwise Before)
    (hp : ∀ i : ℕ, s.pending[i]? = (latest a A i).map Record.pending) :
    s.entries.map (fun e => (⟨e.2.sequence, e.1, e.2.bytes⟩ : Record)) = squeeze a A := by
  have hmem : ∀ r : Record, r ∈ s.entries.map (fun e => (⟨e.2.sequence, e.1, e.2.bytes⟩ : Record)) ↔
      s.pending[r.key]? = some (Record.pending r) := by
    intro r
    rw [← mem_recordsIn, recordsIn, List.mem_map, List.mem_map]
    simp only [State.entries, List.mem_mergeSort]
  have hle : s.entries.Pairwise (fun a b => State.entryLe a b = true) := by
    refine List.pairwise_mergeSort ?_ ?_ _
    · intro x y z hxy hyz
      simp only [State.entryLe, decide_eq_true_eq] at hxy hyz ⊢
      omega
    · intro x y
      simp only [State.entryLe, Bool.or_eq_true, decide_eq_true_eq]
      omega
  have hne : s.entries.Pairwise (fun a b => a.1 ≠ b.1) := by
    refine ((List.mergeSort_perm _ _).pairwise_iff ?_).mpr ?_
    · intro x y hxy
      exact Ne.symm hxy
    · refine Std.ExtTreeMap.ordered_keys_toList.imp ?_
      intro x y hlt heq
      rw [heq] at hlt
      simp at hlt
  refine eq_of_pairwise_of_mem_iff (R := Before) (fun _ _ h => h.asymm) ?_
    (hA.sublist squeeze_sublist) ?_
  · rw [List.pairwise_map]
    refine (hle.and hne).imp ?_
    rintro x y ⟨hxy, hk⟩
    simp only [State.entryLe, decide_eq_true_eq] at hxy
    simp only [Before]
    omega
  · intro r
    rw [hmem, mem_squeeze, hp]
    constructor
    · intro h
      cases hl : latest a A r.key with
      | none => simp [hl] at h
      | some t =>
        rw [hl, Option.map_some] at h
        have hkey := (lastOf_some (latest_some.mp hl).1).2
        obtain ⟨hs, hb⟩ := Pending.mk.inj (Option.some.inj h)
        obtain ⟨ts, tk, tv⟩ := t
        obtain ⟨rs, rk, rv⟩ := r
        simp only at hkey hs hb
        subst hkey hs hb
        rfl
    · intro h
      rw [h]
      rfl

end Records

section Writes

variable {P : Platform} {S : Set Bytes} {B : Bucket} {store : Client} {id : VolumeId}
  {count : ℕ} {s : State} {g : ℕ → Bytes} {view : View}

/-- A touched chunk is the old one with the written part filled in. -/
theorem Reads.writtenChunk_eq (h : Reads P S B store id count s g) (hs : view.Sound B)
    {input : Bytes} {pos : ℕ} (hr : pos + input.length ≤ s.reader.root.size) {t : Segment}
    (ht : t ∈ segments chunkBytes pos input.length 0) {c : Bytes}
    (hok : s.writtenChunk P view input t = .ok c) :
    c = splice (s.over g t.index) t.within (slice input t.done t.count) := by
  have hlt := h.segment_lt hr ht
  have hfit := segments_fits chunkBytes_pos pos input.length 0 t ht
  unfold State.writtenChunk at hok
  by_cases hwhole : t.within = 0 ∧ t.count = chunkBytes
  · simp only [hwhole, and_self, if_true] at hok
    have hlen : (slice input t.done t.count).length = chunkBytes := by
      have := hfit.done_count
      rw [length_slice]
      omega
    rw [hwhole.2] at hlen
    rw [← Except.ok.inj hok, hwhole.1, hwhole.2, splice_whole (by rw [hlen, length_zeros]),
      splice_whole (by rw [hlen, h.over_length hlt])]
  · simp only [if_neg hwhole] at hok
    cases hp : s.pending[t.index]? with
    | some p =>
      simp only [hp] at hok
      rw [← Except.ok.inj hok]
      simp [State.over, hp]
    | none =>
      simp only [hp] at hok
      cases hl : s.reader.read P view (t.index * chunkBytes) chunkBytes with
      | error e => simp [hl] at hok
      | ok bytes =>
        simp only [hl] at hok
        have hl0 : s.reader.read P view (t.index * chunkBytes + 0) chunkBytes = .ok bytes := by
          rw [Nat.add_zero]
          exact hl
        have hb := h.read_piece hs hlt (Nat.le_of_eq (Nat.zero_add chunkBytes)) hl0
        rw [← Except.ok.inj hok, hb, slice_eq_self (h.serves.length_eq hlt)]
        simp [State.over, hp]

/-- What an admitted write stages. -/
structure Admitted (P : Platform) (s : State) (g : ℕ → Bytes) (count pos : ℕ) (input : Bytes)
    (sequence : ℕ) (staged : BTreeMap ℕ Pending) : Prop where
  healthy : s.failed = false
  sequence_eq : sequence = s.sequence + 1
  sequence_lt : sequence < 2 ^ 64
  touched : ∃ (i : ℕ) (p : Pending), staged[i]? = some p
  room : (s.pending ∪ staged).size * chunkBytes ≤ dirtyLimit
  sequences : ∀ (i : ℕ) (p : Pending), staged[i]? = some p → p.sequence = sequence
  pending : PendingOk count staged
  shows : flat chunkBytes (fun i => ((staged[i]?).map Pending.bytes).getD (s.over g i)) =
    overwrite (flat chunkBytes (s.over g)) pos input

/-- The loop of `write` stages each touched chunk once. -/
theorem stage_loop {sequence pos : ℕ} {input : Bytes} {staged : BTreeMap ℕ Pending}
    (hok : (segments chunkBytes pos input.length 0).foldlM (s.stage P view sequence input) ∅ =
      .ok staged) :
    (∀ t ∈ segments chunkBytes pos input.length 0, ∃ c,
      s.writtenChunk P view input t = .ok c ∧ staged[t.index]? = some ⟨sequence, c⟩) ∧
    ∀ i, (∀ t ∈ segments chunkBytes pos input.length 0, t.index ≠ i) → staged[i]? = none := by
  have hsorted := segments_sorted chunkBytes_pos pos input.length 0
  refine foldlM_induction hok (fun done staged =>
    (∀ t ∈ done, ∃ c, s.writtenChunk P view input t = .ok c ∧
      staged[t.index]? = some ⟨sequence, c⟩) ∧
    ∀ i, (∀ t ∈ done, t.index ≠ i) → staged[i]? = none) (by simp) ?_
  rintro done t rest acc acc' hl ⟨h1, h2⟩ hstep
  unfold State.stage at hstep
  cases hw : s.writtenChunk P view input t with
  | error e => simp [hw] at hstep
  | ok c =>
    simp only [hw] at hstep
    obtain rfl := Except.ok.inj hstep
    rw [hl, List.pairwise_append] at hsorted
    have hne : ∀ u ∈ done, u.index ≠ t.index := fun u hu =>
      Nat.ne_of_lt (hsorted.2.2 u hu t List.mem_cons_self)
    constructor
    · intro u hu
      rcases List.mem_append.mp hu with hu | hu
      · obtain ⟨c', hc', hp'⟩ := h1 u hu
        refine ⟨c', hc', ?_⟩
        rw [Std.ExtTreeMap.getElem?_insert, if_neg]
        · exact hp'
        · simpa using (hne u hu).symm
      · obtain rfl := List.mem_singleton.mp hu
        exact ⟨c, hw, by simp⟩
    · intro i hi
      have hti : t.index ≠ i := hi t (by simp)
      rw [Std.ExtTreeMap.getElem?_insert, if_neg (by simpa using hti)]
      exact h2 i (fun u hu => hi u (List.mem_append_left _ hu))

/-- Staged chunks that are not pending yet are among the extra ones. -/
theorem size_union_staged {pos len : ℕ} {staged : BTreeMap ℕ Pending}
    (h : ∀ (i : ℕ) (p : Pending), staged[i]? = some p →
      pos / chunkBytes ≤ i ∧ i ≤ (pos + len - 1) / chunkBytes) :
    (s.pending ∪ staged).size ≤ s.pending.size + s.extraChunks pos len := by
  have hnodup : (s.pending ∪ staged).keys.Nodup := Std.ExtTreeMap.nodup_keys
  have hsub : (s.pending ∪ staged).keys ⊆ s.pending.keys ++
      (List.range' (pos / chunkBytes) ((pos + len - 1) / chunkBytes + 1 - pos / chunkBytes)).filter
        (fun i => !s.pending.contains i) := by
    intro i hi
    rw [Std.ExtTreeMap.mem_keys, Std.ExtTreeMap.mem_union_iff] at hi
    rw [List.mem_append]
    by_cases hp : i ∈ s.pending
    · exact Or.inl (Std.ExtTreeMap.mem_keys.mpr hp)
    · right
      have hst := hi.resolve_left hp
      rw [Std.ExtTreeMap.mem_iff_isSome_getElem?, Option.isSome_iff_exists] at hst
      obtain ⟨p, hst⟩ := hst
      obtain ⟨h1, h2⟩ := h i p hst
      rw [List.mem_filter, List.mem_range'_1]
      refine ⟨by omega, ?_⟩
      rw [Bool.not_eq_true', ← Bool.not_eq_true, Std.ExtTreeMap.contains_iff_mem]
      exact hp
  have hlen := List.Nodup.length_le_of_subset hnodup hsub
  rw [Std.ExtTreeMap.length_keys, List.length_append, Std.ExtTreeMap.length_keys] at hlen
  exact hlen

/-- An admitted write. -/
theorem Reads.admit_ok (h : Reads P S B store id count s g) (hs : view.Sound B) {pos : ℕ}
    {input : Bytes} {sequence : ℕ} {staged : BTreeMap ℕ Pending}
    (hok : s.admission P view pos input = .ok (some (sequence, staged))) :
    Admitted P s g count pos input sequence staged := by
  unfold State.admission at hok
  split at hok
  · cases hok
  rename_i hcheck
  obtain ⟨hfail, -, hr⟩ := State.check_ok hcheck
  split at hok
  · cases hok
  rename_i hne
  split at hok
  · cases hok
  rename_i hroom
  split at hok
  · cases hok
  rename_i seq hseq
  split at hok
  · cases hok
  rename_i st hloop
  obtain ⟨rfl, rfl⟩ := Prod.mk.inj (Option.some.inj (Except.ok.inj hok))
  have hadd : seq = s.sequence + 1 ∧ seq < 2 ^ 64 := by
    unfold checkedAdd at hseq
    split at hseq
    · rename_i hlt
      obtain rfl := Option.some.inj hseq
      exact ⟨rfl, hlt⟩
    · cases hseq
  obtain ⟨hin, hout⟩ := stage_loop hloop
  have hchunk : ∀ t ∈ segments chunkBytes pos input.length 0, st[t.index]? =
      some ⟨seq, splice (s.over g t.index) t.within (slice input t.done t.count)⟩ := by
    intro t ht
    obtain ⟨c, hc, hp⟩ := hin t ht
    rw [hp, h.writtenChunk_eq hs hr ht hc]
  have hcases : ∀ (i : ℕ) (p : Pending), st[i]? = some p →
      ∃ t ∈ segments chunkBytes pos input.length 0, t.index = i ∧
        p = ⟨seq, splice (s.over g t.index) t.within (slice input t.done t.count)⟩ := by
    intro i p hp
    by_cases hex : ∃ t ∈ segments chunkBytes pos input.length 0, t.index = i
    · obtain ⟨t, ht, rfl⟩ := hex
      rw [hchunk t ht] at hp
      exact ⟨t, ht, rfl, (Option.some.inj hp).symm⟩
    · rw [hout i (fun t ht heq => hex ⟨t, ht, heq⟩)] at hp
      cases hp
  refine ⟨hfail, hadd.1, hadd.2, ?_, ?_, ?_, ?_, ?_⟩
  · have hpos := List.length_pos_iff.mpr hne
    obtain ⟨t, ht, -⟩ := segments_cover chunkBytes_pos pos input.length 0 (le_refl pos) (by omega)
    exact ⟨_, _, hchunk t ht⟩
  · have hsize : (s.pending ∪ st).size ≤ s.pending.size + s.extraChunks pos input.length := by
      refine size_union_staged (fun i p hp => ?_)
      obtain ⟨t, ht, rfl, -⟩ := hcases i p hp
      exact (segments_fits chunkBytes_pos pos input.length 0 t ht).index_le
    exact le_trans (Nat.mul_le_mul_right _ hsize) (by omega)
  · intro i p hp
    obtain ⟨t, -, -, rfl⟩ := hcases i p hp
    rfl
  · intro i p hp
    obtain ⟨t, ht, rfl, rfl⟩ := hcases i p hp
    have hfit := segments_fits chunkBytes_pos pos input.length 0 t ht
    have hlt := h.segment_lt hr ht
    have hol := h.over_length hlt
    have := hfit.within_le
    have := hfit.done_count
    exact ⟨hlt, by rw [length_splice (by rw [length_slice, hol]; omega), hol]⟩
  · apply flat_overwrite chunkBytes_pos
    · intro t ht
      exact h.over_length (h.segment_lt hr ht)
    · intro t ht
      simp [hchunk t ht]
    · intro i hi
      simp [hout i hi]

end Writes

end AgentHouse.Local
