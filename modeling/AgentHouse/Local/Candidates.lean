import AgentHouse.Local.Buffer

/-!
# Journal files

What a file under the journal's name holds: a header, the squeezed records up to the last
rewrite and the records since then, perhaps with an incomplete one at the end. `Candidate`
also says which of the records are on disk for certain, and that these include everything
that was sent to the store. It survives a crash, and replay recovers from it the contents
after some number of records.
-/

namespace AgentHouse.Local

open Volume IndexedVolume

/-- The records that a journal holds which was rewritten after the first `m` of them, and to
which `j` more were added. -/
def History.kept (η : History) (h : Header) (m j : ℕ) : List Record :=
  squeeze h.acknowledged (η.records.take m) ++ (η.records.drop m).take j

/-- A new journal holds no records. -/
theorem kept_zero (η : History) (h : Header) : η.kept h 0 0 = [] := rfl

/-- The file `F` is a journal of the history `η`, rewritten after `m` records; `j` more were
added, and the first `d` records are on disk for certain. -/
structure Candidate (P : Platform) (S : Set Bytes) (store : Client) (id : VolumeId) (B : Bucket)
    (η : History) (h : Header) (m j d : ℕ) (tail : Bytes) (F : File) : Prop where
  image : ∃ hb, headerBytes P h = .ok hb ∧
    F.bytes = hb ++ ((η.kept h m j).flatMap (Record.encode P) ++ tail)
  tail_lt : tail.length < recordSize
  volume : h.volume = id
  journal : h.id = η.journal
  journal_length : η.journal.length = 32
  ack_le : h.acknowledged ≤ h.sequence
  anchor : ∃ w, Known P S store id B η w ∧ w.revision = h.base ∧
    water η.journal w.root = h.acknowledged
  rewritten : m ≤ d
  durable : d ≤ m + j
  bound : m + j ≤ η.records.length
  synced : headerSize P h +
    ((squeeze h.acknowledged (η.records.take m)).length + (d - m)) * recordSize ≤ F.synced
  covered : ∀ r ∈ η.records.drop d, η.sent < r.sequence
  below : ∀ r ∈ η.records.take m, r.sequence ≤ h.sequence
  reach : η.sent ≤ newest h.sequence ((η.records.take d).drop m)

section Candidates

variable {P : Platform} {S : Set Bytes} {B B' : Bucket} {store : Client} {id : VolumeId}
  {η η' : History} {h : Header} {m j d : ℕ} {tail : Bytes} {F : File}

/-- The header of a candidate acknowledges no more than was sent for good. -/
theorem Candidate.floor (hc : Candidate P S store id B η h m j d tail F) :
    h.acknowledged ≤ η.floor := by
  obtain ⟨w, hw, -, hwater⟩ := hc.anchor
  rw [← hwater]
  exact hw.floor

/-- A record that is kept is one of the journal. -/
theorem mem_kept {r : Record} (hr : r ∈ η.kept h m j) : r ∈ η.records := by
  rcases List.mem_append.mp hr with hr | hr
  · exact List.mem_of_mem_take (squeeze_sublist.subset hr)
  · exact List.mem_of_mem_drop (List.mem_of_mem_take hr)

/-- Cutting a journal after its synced part leaves a journal with the same certain records. -/
theorem Candidate.cut (hc : Candidate P S store id B η h m j d tail F)
    (hfit : ∀ r ∈ η.records, Record.Fits η.count r) {k : ℕ} (hk : F.synced ≤ k) :
    ∃ j' tail', Candidate P S store id B η h m j' d tail' ⟨F.bytes.take k, F.synced⟩ := by
  obtain ⟨hb, hhb, hbytes⟩ := hc.image
  have hlen := length_headerBytes hhb
  have hsync := hc.synced
  have hsq : (squeeze h.acknowledged (η.records.take m)).length + (d - m) ≤
      (k - hb.length) / recordSize := by
    rw [Nat.le_div_iff_mul_le recordSize_pos]
    omega
  have henc : ∀ r ∈ η.kept h m j, (Record.encode P r).length = recordSize :=
    fun r hr => Record.length_encode (hfit r (mem_kept hr))
  obtain ⟨tail', htail', htake⟩ := take_frames recordSize_pos henc hc.tail_lt (k - hb.length)
  generalize hn : (k - hb.length) / recordSize = n at hsq htake
  have hkept : (η.kept h m j).take n = η.kept h m
      (min (n - (squeeze h.acknowledged (η.records.take m)).length) j) := by
    rw [History.kept, List.take_append, List.take_of_length_le (by omega), List.take_take,
      History.kept]
  have hdur := hc.durable
  have hrw := hc.rewritten
  refine ⟨min (n - (squeeze h.acknowledged (η.records.take m)).length) j, tail',
    { hc with image := ⟨hb, hhb, ?_⟩, tail_lt := htail', durable := ?_, bound := ?_ }⟩
  · rw [hbytes, List.take_append, List.take_of_length_le (show hb.length ≤ k by omega), htake,
      hkept]
  · omega
  · have := hc.bound
    omega

/-- A candidate stays one while the store changes. -/
theorem Candidate.later (hc : Candidate P S store id B η h m j d tail F)
    (hl : Later P B η B' η') (hrec : η'.records = η.records) (hsent : η'.sent = η.sent) :
    Candidate P S store id B' η' h m j d tail F := by
  have hkept : η'.kept h m j = η.kept h m j := by rw [History.kept, hrec, History.kept]
  obtain ⟨w, hw, hrev, hwater⟩ := hc.anchor
  refine ⟨by rw [hkept]; exact hc.image, hc.tail_lt, hc.volume,
    by rw [hl.journal]; exact hc.journal,
    by rw [hl.journal]; exact hc.journal_length, hc.ack_le,
    ⟨w, hw.later hl, hrev, by rw [hl.journal]; exact hwater⟩, hc.rewritten, hc.durable,
    by rw [hrec]; exact hc.bound, by rw [hrec]; exact hc.synced, ?_, by rw [hrec]; exact hc.below,
    by rw [hrec, hsent]; exact hc.reach⟩
  rw [hrec, hsent]
  exact hc.covered

/-- A candidate stays one when records are added elsewhere. -/
theorem Candidate.extend (hc : Candidate P S store id B η h m j d tail F) {M : List Record}
    (hM : ∀ r ∈ M, η.sent < r.sequence) :
    Candidate P S store id B { η with records := η.records ++ M } h m j d tail F := by
  have hb := hc.bound
  have hd := hc.durable
  have hl : Later P B η B { η with records := η.records ++ M } :=
    ⟨Bucket.Le.refl B, rfl, rfl, rfl, fun h => h, le_refl _, le_refl _,
      fun q hq => upTo_append_of_newer (fun r hr => lt_of_le_of_lt hq (hM r hr))⟩
  have htake : ∀ n ≤ η.records.length, (η.records ++ M).take n = η.records.take n :=
    fun n hn => List.take_append_of_le_length hn
  have hkept : History.kept { η with records := η.records ++ M } h m j = η.kept h m j := by
    simp only [History.kept]
    rw [htake m (by omega), List.drop_append_of_le_length (by omega),
      List.take_append_of_le_length (by rw [List.length_drop]; omega)]
  obtain ⟨w, hw, hrev, hwater⟩ := hc.anchor
  refine ⟨by rw [hkept]; exact hc.image, hc.tail_lt, hc.volume, hc.journal, hc.journal_length,
    hc.ack_le, ⟨w, hw.later hl, hrev, hwater⟩, hc.rewritten, hd, ?_, ?_, ?_, ?_, ?_⟩
  · simp only [List.length_append]
    omega
  · simp only
    rw [htake m (by omega)]
    exact hc.synced
  · simp only
    rw [List.drop_append_of_le_length (by omega)]
    intro r hr
    rcases List.mem_append.mp hr with hr | hr
    · exact hc.covered r hr
    · exact hM r hr
  · simp only
    rw [htake m (by omega)]
    exact hc.below
  · simp only
    rw [htake d (by omega)]
    exact hc.reach

/-- More may be sent once all older records are on disk. -/
theorem Candidate.send (hc : Candidate P S store id B η h m j d tail F) {q : ℕ}
    (hq : η.sent ≤ q) (hcov : ∀ r ∈ η.records.drop d, q < r.sequence)
    (hreach : q ≤ newest h.sequence ((η.records.take d).drop m)) :
    Candidate P S store id B { η with sent := q } h m j d tail F := by
  have hl : Later P B η B { η with sent := q } :=
    ⟨Bucket.Le.refl B, rfl, rfl, rfl, fun h => h, le_refl _, hq, fun _ _ => rfl⟩
  obtain ⟨w, hw, hrev, hwater⟩ := hc.anchor
  exact ⟨hc.image, hc.tail_lt, hc.volume, hc.journal, hc.journal_length, hc.ack_le,
    ⟨w, hw.later hl, hrev, hwater⟩, hc.rewritten, hc.durable, hc.bound, hc.synced, hcov, hc.below,
    hreach⟩

/-- Syncing a journal puts all its records on disk. -/
theorem Candidate.sync (hc : Candidate P S store id B η h m j d tail F)
    (hfit : ∀ r ∈ η.records, Record.Fits η.count r) :
    Candidate P S store id B η h m j (m + j) tail ⟨F.bytes, F.bytes.length⟩ := by
  obtain ⟨hb, hhb, hbytes⟩ := hc.image
  have hd := hc.durable
  have hbound := hc.bound
  refine { hc with
    rewritten := by omega, durable := le_refl _, synced := ?_, covered := ?_, reach := ?_ }
  · rw [hbytes, List.length_append, List.length_append, length_headerBytes hhb,
      length_flatMap_eq (fun r hr => Record.length_encode (P := P) (hfit r (mem_kept hr))),
      History.kept, List.length_append, List.length_take, List.length_drop]
    have hj : min j (η.records.length - m) = j := by omega
    rw [hj, show m + j - m = j by omega]
    exact Nat.add_le_add_left (Nat.le_add_right _ _) _
  · intro r hr
    apply hc.covered
    rw [← Nat.sub_add_cancel hd, Nat.add_comm, ← List.drop_drop] at hr
    exact List.mem_of_mem_drop hr
  · have hsub : ((η.records.take d).drop m).Sublist ((η.records.take (m + j)).drop m) := by
      refine List.Sublist.drop ?_ m
      rw [← min_eq_left hd, ← List.take_take]
      exact List.take_sublist _ _
    refine le_trans hc.reach (newest_le (le_newest _ _) ?_)
    intro r hr
    exact sequence_le_newest (hsub.subset hr)

end Candidates

end AgentHouse.Local
