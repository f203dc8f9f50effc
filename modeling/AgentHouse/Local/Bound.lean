import AgentHouse.Local.Candidates

/-!
# The state of a disk and its records

`Bound` says that the state in memory belongs to the records `A` of a history: the reader has
those up to the acknowledged mark and the rest is pending. Accepting another version of the
remote volume keeps this, a rewritten journal is a candidate for it, and opening the disk over
a candidate establishes it.
-/

namespace AgentHouse.Local

open Volume IndexedVolume

/-- The state holds the records `A` of the history. -/
structure Bound (P : Platform) (S : Set Bytes) (store : Client) (id : VolumeId) (B : Bucket)
    (η : History) (A : List Record) (s : State) : Prop where
  volume : s.header.volume = id
  journal : s.header.id = η.journal
  journal_length : η.journal.length = 32
  base : s.header.base = s.reader.revision
  ack : water η.journal s.reader.root = s.header.acknowledged
  reader : Known P S store id B η s.reader
  clean : s.reader.dirty = ∅
  sound : s.reader.poisoned = false
  pending : ∀ i : ℕ, s.pending[i]? = (latest s.header.acknowledged A i).map Record.pending
  room : s.pending.size * chunkBytes ≤ dirtyLimit
  acked_le : ∀ r ∈ A, r.sequence ≤ s.sequence
  sent_le : η.sent ≤ s.sequence

/-- `A` is what the history consists of, but for records that were never sent. -/
structure Ledger (η : History) (A T : List Record) : Prop where
  records : η.records = A ++ T
  ordered : η.records.Pairwise Before
  fits : ∀ r ∈ η.records, Record.Fits η.count r
  unsent : ∀ r ∈ T, η.sent < r.sequence

section Bound

variable {P : Platform} {S : Set Bytes} {B B' : Bucket} {store : Client} {id : VolumeId}
  {η η' : History} {A T : List Record} {s s' : State} {remote : IndexedVolume}

/-- What the bucket has acknowledged was sent. -/
theorem Bound.ack_le_sent (hb : Bound P S store id B η A s) : s.header.acknowledged ≤ η.sent := by
  rw [← hb.ack]
  exact hb.reader.sent

/-- Acknowledged records are in order. -/
theorem Ledger.acked (hl : Ledger η A T) : A.Pairwise Before := by
  have := hl.ordered
  rw [hl.records] at this
  exact (List.pairwise_append.mp this).1

/-- Everything that was sent was acknowledged to the caller. -/
theorem Ledger.upTo_eq (hl : Ledger η A T) {q : ℕ} (hq : q ≤ η.sent) :
    upTo q η.records = upTo q A := by
  rw [hl.records]
  exact upTo_append_of_newer (fun r hr => lt_of_le_of_lt hq (hl.unsent r hr))

theorem Ledger.fits_acked (hl : Ledger η A T) {r : Record} (hr : r ∈ A) :
    Record.Fits η.count r :=
  hl.fits r (by rw [hl.records]; exact List.mem_append_left _ hr)

/-- The acknowledged records come first in the journal. -/
theorem Ledger.take_length (hl : Ledger η A T) : η.records.take A.length = A := by
  rw [hl.records, List.take_left]

/-- What is pending lies over what the reader has. -/
theorem Bound.over_eq (hb : Bound P S store id B η A s) (hl : Ledger η A T) :
    s.over (η.after s.header.acknowledged) = applied η.origin A := by
  funext i
  rw [applied_split (a := s.header.acknowledged), State.over, hb.pending i, History.after,
    hl.upTo_eq hb.ack_le_sent, Option.map_map]
  rfl

/-- What is pending fits the volume. -/
theorem Bound.pendingOk (hb : Bound P S store id B η A s) (hl : Ledger η A T) :
    PendingOk η.count s.pending := by
  intro i p hp
  rw [hb.pending i] at hp
  cases hlast : latest s.header.acknowledged A i with
  | none => simp [hlast] at hp
  | some r =>
    obtain ⟨hmem, hkey⟩ := lastOf_some (latest_some.mp hlast).1
    have hfit := hl.fits_acked hmem
    rw [hlast, Option.map_some] at hp
    rw [← Option.some.inj hp, ← hkey]
    exact ⟨hfit.key_lt, hfit.length_value⟩

/-- A bound state reads the content of the history. -/
theorem Bound.reads (hb : Bound P S store id B η A s) (hl : Ledger η A T) :
    Reads P S B store id η.count s (η.after s.header.acknowledged) :=
  ⟨by rw [← hb.ack]; exact hb.reader.serves, hb.clean, hb.pendingOk hl⟩

/-- The state keeps its records while the store changes. -/
theorem Bound.later (hb : Bound P S store id B η A s) (hl : Later P B η B' η')
    (hsent : η'.sent ≤ s.sequence) : Bound P S store id B' η' A s :=
  { hb with
    journal := by rw [hl.journal]; exact hb.journal
    journal_length := by rw [hl.journal]; exact hb.journal_length
    ack := by rw [hl.journal]; exact hb.ack
    reader := hb.reader.later hl
    sent_le := hsent }

/-- What the acceptance of a remote version changes. -/
theorem State.accept_cases {remote : IndexedVolume} (hok : s.accept remote = .ok s') :
    ∃ ack, s.accepted remote = some ack ∧ s' = { s with
      header := { s.header with base := remote.revision, acknowledged := ack }
      pending := s.pending.filter (fun _ p => decide (p.sequence > ack))
      reader := remote } := by
  unfold State.accept at hok
  split at hok
  · cases hok
  · rename_i ack hack
    exact ⟨ack, hack, (Except.ok.inj hok).symm⟩

/-- The mark that is accepted is that of the accepted version. -/
theorem Bound.accepted_eq (hb : Bound P S store id B η A s) (hr : Known P S store id B η remote)
    {ack : ℕ} (hack : s.accepted remote = some ack) :
    ack = water η.journal remote.root ∧ s.header.acknowledged ≤ ack := by
  unfold State.accepted at hack
  split at hack
  · rename_i hrev
    rw [hb.base] at hrev
    have hroot := hb.reader.root_eq hr hrev
    obtain rfl := Option.some.inj hack
    exact ⟨by rw [hroot, hb.ack], le_refl _⟩
  · cases hm : remote.root.replication with
    | none => simp [hm] at hack
    | some r =>
      simp only [hm] at hack
      split at hack
      · rename_i hc
        obtain rfl := Option.some.inj hack
        refine ⟨?_, hc.2.1⟩
        rw [water, hm]
        simp [hc.1, hb.journal]
      · cases hack

/-- Accepting another version of the remote volume. -/
theorem Bound.accept (hb : Bound P S store id B η A s) (hr : Known P S store id B η remote)
    (hclean : remote.dirty = ∅) (hsound : remote.poisoned = false)
    (hok : s.accept remote = .ok s') : Bound P S store id B η A s' := by
  obtain ⟨ack, hack, rfl⟩ := State.accept_cases hok
  obtain ⟨hwater, hle⟩ := hb.accepted_eq hr hack
  refine ⟨hb.volume, hb.journal, hb.journal_length, rfl, hwater.symm, hr, hclean, hsound, ?_, ?_,
    hb.acked_le, hb.sent_le⟩
  · intro i
    simp only
    rw [Std.ExtTreeMap.getElem?_filter, hb.pending i, ← latest_filter hle]
    cases latest s.header.acknowledged A i with
    | none => rfl
    | some r =>
      by_cases hlt : ack < r.sequence <;> simp [Record.pending, hlt, Option.filter_some]
  · exact le_trans (Nat.mul_le_mul_right _ Std.ExtTreeMap.size_filter_le_size) hb.room

end Bound

section Rewriting

variable {P : Platform} {S : Set Bytes} {B : Bucket} {store : Client} {id : VolumeId}
  {η : History} {A T : List Record} {s s' : State} {w : Rewrite} {res : Result Unit}

/-- Everything that a rewrite of the journal can do. -/
theorem State.compact_cases (hok : s.compact P w = (s', res)) :
    ((∃ e, res = .error e) ∧ (s' = { s.stamped with failed := true } ∨
      ∃ bytes, s.stamped.journalBytes P = .ok bytes ∧ s' = { s.stamped with
        failed := true, renamed := ⟨bytes, bytes.length⟩ :: s.renamed })) ∨
    (res = .ok () ∧ ∃ bytes, s.stamped.journalBytes P = .ok bytes ∧ s' = { s.stamped with
      file := ⟨bytes, bytes.length⟩
      renamed := []
      stale := []
      localSequence := s.sequence }) := by
  unfold State.compact State.compactInner at hok
  cases hj : s.stamped.journalBytes P with
  | error e =>
    simp only [hj] at hok
    obtain ⟨rfl, rfl⟩ := Prod.mk.inj hok
    exact Or.inl ⟨⟨e, rfl⟩, Or.inl rfl⟩
  | ok bytes =>
    simp only [hj] at hok
    cases w with
    | failed =>
      obtain ⟨rfl, rfl⟩ := Prod.mk.inj hok
      exact Or.inl ⟨⟨_, rfl⟩, Or.inl rfl⟩
    | renamed =>
      obtain ⟨rfl, rfl⟩ := Prod.mk.inj hok
      exact Or.inl ⟨⟨_, rfl⟩, Or.inr ⟨bytes, rfl, rfl⟩⟩
    | done =>
      obtain ⟨rfl, rfl⟩ := Prod.mk.inj hok
      exact Or.inr ⟨rfl, bytes, rfl, rfl⟩

/-- A rewritten journal is a candidate that has all acknowledged records on disk. -/
theorem Bound.candidate (hb : Bound P S store id B η A s) (hl : Ledger η A T) {bytes : Bytes}
    (hok : s.stamped.journalBytes P = .ok bytes) :
    Candidate P S store id B η s.stamped.header A.length 0 A.length [] ⟨bytes, bytes.length⟩ := by
  have htake := hl.take_length
  have hrec := hl.records
  have hentries := entries_eq hl.acked hb.pending
  have hkept : η.kept s.stamped.header A.length 0 = squeeze s.header.acknowledged A := by
    rw [History.kept, htake, List.take_zero, List.append_nil]
    rfl
  unfold State.journalBytes at hok
  cases hh : headerBytes P s.stamped.header with
  | error e => simp [hh] at hok
  | ok hbs =>
    simp only [hh] at hok
    have hflat : s.stamped.entries.flatMap (fun e => recordBytes P e.1 e.2) =
        (squeeze s.header.acknowledged A).flatMap (Record.encode P) := by
      rw [← hentries, List.flatMap_map]
      rfl
    rw [hflat] at hok
    obtain rfl := Except.ok.inj hok
    have henc : ∀ r ∈ squeeze s.header.acknowledged A, (Record.encode P r).length = recordSize :=
      fun r hr => Record.length_encode (hl.fits_acked (squeeze_sublist.subset hr))
    refine ⟨⟨hbs, hh, by rw [hkept, List.append_nil]⟩, recordSize_pos, hb.volume, hb.journal,
      hb.journal_length, hb.ack_le_sent.trans hb.sent_le,
        ⟨s.reader, hb.reader, hb.base.symm, hb.ack⟩,
      le_refl _, by omega, ?_, ?_, ?_, ?_, ?_⟩
    · rw [hrec, List.length_append]
      omega
    · rw [htake, List.length_append, length_headerBytes hh, length_flatMap_eq henc,
        Nat.sub_self, Nat.add_zero]
      exact le_refl _
    · rw [hrec, List.drop_left]
      exact hl.unsent
    · rw [htake]
      exact hb.acked_le
    · exact hb.sent_le.trans (le_newest _ _)

/-- A rewrite changes nothing but the files and the failure flag. -/
theorem Bound.compact (hb : Bound P S store id B η A s) (hok : s.compact P w = (s', res)) :
    Bound P S store id B η A s' := by
  rcases State.compact_cases hok with ⟨-, rfl | ⟨bytes, -, rfl⟩⟩ | ⟨-, bytes, -, rfl⟩ <;>
    exact ⟨hb.volume, hb.journal, hb.journal_length, hb.base, hb.ack, hb.reader, hb.clean, hb.sound,
      hb.pending, hb.room, hb.acked_le, hb.sent_le⟩

end Rewriting

section Recovery

variable {P : Platform} {S : Set Bytes} {B : Bucket} {store : Client} {id : VolumeId}
  {η : History} {h : Header} {m j d : ℕ} {tail : Bytes} {F : File} {remote : IndexedVolume}

/-- The first `n` records of a history as those that a disk holds. -/
theorem ledger_take (hord : η.records.Pairwise Before)
    (hfit : ∀ r ∈ η.records, Record.Fits η.count r) {n : ℕ} (hdn : d ≤ n)
    (hcov : ∀ r ∈ η.records.drop d, η.sent < r.sequence) :
    Ledger η (η.records.take n) (η.records.drop n) := by
  refine ⟨(List.take_append_drop n _).symm, hord, hfit, fun r hr => hcov r ?_⟩
  rw [← Nat.sub_add_cancel hdn, Nat.add_comm, ← List.drop_drop] at hr
  exact List.mem_of_mem_drop hr

/-- The header of a candidate is read back. -/
theorem Candidate.readHeader_eq (hc : Candidate P S store id B η h m j d tail F) :
    readHeader P id F.bytes = .ok (h, (η.kept h m j).flatMap (Record.encode P) ++ tail) := by
  obtain ⟨hb, hhb, hbytes⟩ := hc.image
  rw [hbytes]
  exact readHeader_ok hhb hc.volume (by rw [hc.journal]; exact hc.journal_length) hc.ack_le

/-- Replay starts where the head ends. -/
theorem Candidate.replayAck_eq (hc : Candidate P S store id B η h m j d tail F)
    (hfloor : water η.journal remote.root = η.floor) : replayAck remote h = η.floor := by
  have hle := hc.floor
  unfold replayAck
  unfold water at hfloor
  cases hm : remote.root.replication with
  | none =>
    simp only [hm] at hfloor
    simp only [Option.filter_none]
    omega
  | some r =>
    simp only [hm] at hfloor
    by_cases hid : r.id = η.journal
    · rw [if_pos hid] at hfloor
      simp only [Option.filter_some, hc.journal, hid, beq_self_eq_true, if_true]
      omega
    · rw [if_neg hid] at hfloor
      simp only [Option.filter_some, hc.journal, beq_eq_false_iff_ne.mpr hid, Bool.false_eq_true,
        if_false]
      omega

/-- Cutting off an incomplete record leaves a journal without one. -/
theorem Candidate.dropTorn (hc : Candidate P S store id B η h m j d tail F)
    (hfit : ∀ r ∈ η.records, Record.Fits η.count r) :
    Candidate P S store id B η h m j d []
      ⟨dropTorn F.bytes ((η.kept h m j).flatMap (Record.encode P) ++ tail), F.synced⟩ := by
  obtain ⟨hb, hhb, hbytes⟩ := hc.image
  have henc : ∀ r ∈ η.kept h m j, (Record.encode P r).length = recordSize :=
    fun r hr => Record.length_encode (hfit r (mem_kept hr))
  refine { hc with image := ⟨hb, hhb, ?_⟩, tail_lt := recordSize_pos }
  have hmod : ((η.kept h m j).flatMap (Record.encode P) ++ tail).length % recordSize =
      tail.length := by
    rw [List.length_append, length_flatMap_eq henc, Nat.mul_comm, Nat.mul_add_mod,
      Nat.mod_eq_of_lt hc.tail_lt]
  have hlen : F.bytes.length - tail.length =
      (hb ++ (η.kept h m j).flatMap (Record.encode P)).length := by
    rw [hbytes]
    simp only [List.length_append]
    omega
  rw [Local.dropTorn, hmod, hlen, List.append_nil]
  rw [hbytes, ← List.append_assoc, List.take_left]

/-- Replay of a candidate collects the records that the head does not have. -/
theorem Candidate.replay_ok (hc : Candidate P S store id B η h m j d tail F)
    (hord : η.records.Pairwise Before) (hfit : ∀ r ∈ η.records, Record.Fits η.count r)
    (hcount : η.count ≤ 2 ^ 64) {acc : Replay}
    (hok : replay P h η.count η.floor
      ((η.kept h m j).flatMap (Record.encode P) ++ tail) = .ok acc) :
    (∀ i : ℕ, acc.pending[i]? =
      (latest η.floor (η.records.take (m + j)) i).map Record.pending) ∧
      acc.sequence = newest h.sequence (η.kept h m j) ∧
      acc.pending.size * chunkBytes ≤ dirtyLimit := by
  rw [replay_encode (fun r hr => hfit r (mem_kept hr)) hcount hc.tail_lt] at hok
  obtain ⟨hp, hseq, hsize⟩ := Local.replay_ok hok
  refine ⟨fun i => ?_, hseq, hsize⟩
  have hsub : (η.kept h m j).Sublist η.records := by
    have hcut : ((η.records.drop m).take j).Sublist (η.records.drop m) := List.take_sublist _ _
    have := (squeeze_sublist (a := h.acknowledged) (L := η.records.take m)).append hcut
    rwa [List.take_append_drop] at this
  have hsplit : η.records.take (m + j) = η.records.take m ++ (η.records.drop m).take j :=
    List.take_add
  rw [hp i, lastOf_newer (ascending_of_before (hord.sublist hsub)), History.kept,
    latest_squeeze_append hc.floor, hsplit]

/-- What opening a disk over a candidate accepts. -/
theorem Candidate.accepted_eq (hc : Candidate P S store id B η h m j d tail F)
    (hr : Known P S store id B η remote) (hfloor : water η.journal remote.root = η.floor)
    {s : State} (hs : s.header = h) {ack : ℕ} (hack : s.accepted remote = some ack) :
    ack = η.floor := by
  unfold State.accepted at hack
  split at hack
  · rename_i hrev
    obtain ⟨w, hw, hwrev, hwater⟩ := hc.anchor
    have hroot := hw.root_eq hr (by rw [hrev, hs, hwrev])
    rw [← Option.some.inj hack, hs, ← hwater, ← hroot, hfloor]
  · cases hm : remote.root.replication with
    | none => simp [hm] at hack
    | some r =>
      simp only [hm] at hack
      split at hack
      · rename_i hid
        rw [← Option.some.inj hack, ← hfloor, water, hm]
        simp only
        rw [if_pos (by rw [hid.1, hs, hc.journal])]
      · cases hack

/-- Opening a disk over a candidate binds it to the records in the file. -/
theorem Candidate.mounts (hc : Candidate P S store id B η h m j d tail F)
    (hord : η.records.Pairwise Before) (hfit : ∀ r ∈ η.records, Record.Fits η.count r)
    (hcount : η.count ≤ 2 ^ 64) (hr : Known P S store id B η remote) (hclean : remote.dirty = ∅)
    (hsound : remote.poisoned = false) (hfloor : water η.journal remote.root = η.floor)
    {acc : Replay} (hok : replay P h η.count η.floor
      ((η.kept h m j).flatMap (Record.encode P) ++ tail) = .ok acc)
    {s s' : State} (hheader : s.header = h) (hpending : s.pending = acc.pending)
    (hsequence : s.sequence = acc.sequence) (haccept : s.accept remote = .ok s') :
    Bound P S store id B η (η.records.take (m + j)) s' := by
  obtain ⟨hp, hseq, hsize⟩ := hc.replay_ok hord hfit hcount hok
  obtain ⟨ack, hack, rfl⟩ := State.accept_cases haccept
  obtain rfl := hc.accepted_eq hr hfloor hheader hack
  have hrew := hc.rewritten
  have hdur := hc.durable
  refine ⟨by rw [← hc.volume, ← hheader], by rw [← hc.journal, ← hheader], hc.journal_length, rfl,
    hfloor, hr, hclean, hsound, ?_, ?_, ?_, ?_⟩
  · intro i
    simp only
    rw [Std.ExtTreeMap.getElem?_filter, hpending, hp i, ← latest_filter (le_refl η.floor)]
    cases latest η.floor (η.records.take (m + j)) i with
    | none => rfl
    | some r =>
      by_cases hlt : η.floor < r.sequence <;> simp [Record.pending, hlt, Option.filter_some]
  · rw [← hpending] at hsize
    exact le_trans (Nat.mul_le_mul_right _ Std.ExtTreeMap.size_filter_le_size) hsize
  · intro r hmem
    simp only
    rw [hsequence, hseq]
    rw [List.take_add, List.mem_append] at hmem
    rcases hmem with hmem | hmem
    · exact (hc.below r hmem).trans (le_newest _ _)
    · exact sequence_le_newest (List.mem_append_right _ hmem)
  · simp only
    rw [hsequence, hseq]
    refine hc.reach.trans (newest_le (le_newest _ _) (fun r hmem => ?_))
    refine sequence_le_newest (List.mem_append_right _ ?_)
    have hle : d - m ≤ j := by omega
    rw [List.drop_take, ← min_eq_left hle, ← List.take_take] at hmem
    exact List.mem_of_mem_take hmem

end Recovery

end AgentHouse.Local
