import AgentHouse.Local.Running

/-!
# Writes to a disk in use

A write that succeeds adds its records to the journal and to the acknowledged ones, and turns
the contents into the overwritten ones. A write that fails may leave some of its records in
the journal; they are newer than everything that was sent.
-/

namespace AgentHouse.Local

open Volume IndexedVolume

section Appending

variable {P : Platform} {S : Set Bytes} {B : Bucket} {store : Client} {id : VolumeId}
  {η : History} {h : Header} {m j d : ℕ} {tail : Bytes} {F : File} {L : List Record}

/-- Records above what was sent may be appended. -/
theorem later_append (P : Platform) (B : Bucket) (hL : ∀ r ∈ L, η.sent < r.sequence) :
    Later P B η B { η with records := η.records ++ L } :=
  ⟨Bucket.Le.refl B, rfl, rfl, rfl, fun h => h, le_refl _, le_refl _,
    fun _ hq => upTo_append_of_newer (fun r hr => lt_of_le_of_lt hq (hL r hr))⟩

/-- Appending records to a journal that has all others. -/
theorem Candidate.append (hc : Candidate P S store id B η h m j d [] F)
    (hfull : m + j = η.records.length) (hL : ∀ r ∈ L, η.sent < r.sequence)
    (htail : tail.length < recordSize) :
    Candidate P S store id B { η with records := η.records ++ L } h m (j + L.length) d tail
      ⟨F.bytes ++ (L.flatMap (Record.encode P) ++ tail), F.synced⟩ := by
  have hdur := hc.durable
  obtain ⟨hb, hhb, hbytes⟩ := hc.image
  have hold : η.kept h m j = squeeze h.acknowledged (η.records.take m) ++ η.records.drop m := by
    rw [History.kept, List.take_of_length_le (l := η.records.drop m)
      (by rw [List.length_drop]; omega)]
  have hkept : History.kept { η with records := η.records ++ L } h m (j + L.length) =
      η.kept h m j ++ L := by
    rw [hold, History.kept]
    simp only
    rw [List.take_append_of_le_length (by omega), List.drop_append_of_le_length (by omega),
      List.take_of_length_le (l := η.records.drop m ++ L)
        (by rw [List.length_append, List.length_drop]; omega), List.append_assoc]
  refine { hc.extend hL with
    image := ⟨hb, hhb, ?_⟩, tail_lt := htail, durable := by omega, bound := ?_ }
  · rw [hkept, hbytes, List.flatMap_append]
    simp only [List.append_nil, List.append_assoc]
  · simp only [List.length_append]
    omega

/-- The bytes of staged records. -/
theorem recordsOf_eq (staged : BTreeMap ℕ Pending) :
    State.recordsOf P staged = (recordsIn staged).flatMap (Record.encode P) := by
  rw [State.recordsOf, recordsIn, List.flatMap_map]
  rfl

end Appending

section Writing

variable {P : Platform} {S : Set Bytes} {B : Bucket} {store : Client} {id : VolumeId}
  {η : History} {A T : List Record} {n : ℕ} {s s' : State} {view : View} {g : ℕ → Bytes}
  {count pos sequence : ℕ} {input : Bytes} {staged : BTreeMap ℕ Pending} {w : Rewrite} {a : Append}
  {res : Result Unit}

/-- An admission depends on three fields. -/
theorem Admitted.of_same (h : Admitted P s g count pos input sequence staged)
    (hfailed : s'.failed = s.failed) (hpending : s'.pending = s.pending)
    (hsequence : s'.sequence = s.sequence) :
    Admitted P s' g count pos input sequence staged := by
  obtain ⟨hh, he, hl, ht, hr, hse, hp, hs⟩ := h
  have hover : s'.over g = s.over g := by
    funext i
    rw [State.over, hpending, State.over]
  exact ⟨hfailed.trans hh, by rw [hsequence]; exact he, hl, ht, by rw [hpending]; exact hr, hse, hp,
    by rw [hover]; exact hs⟩

/-- The records of an admitted write. -/
theorem Admitted.record (h : Admitted P s g count pos input sequence staged) {r : Record}
    (hr : r ∈ recordsIn staged) : r.sequence = sequence ∧ Record.Fits count r := by
  have hget := mem_recordsIn.mp hr
  have hseq : r.sequence = sequence := h.sequences r.key _ hget
  obtain ⟨hkey, hlen⟩ := h.pending r.key _ hget
  have := h.sequence_eq
  have := h.sequence_lt
  exact ⟨hseq, by omega, by omega, hkey, hlen⟩

/-- Records of an admitted write at the end of a history. -/
theorem Running.ledger_append (h : Running P S store id B η A T n s)
    (hadm : Admitted P s g η.count pos input sequence staged) {L : List Record}
    (hL : L.Sublist (recordsIn staged)) :
    T = [] ∧ (∀ r ∈ L, s.sequence < r.sequence ∧ η.sent < r.sequence) ∧
      (η.records ++ L).Pairwise Before ∧ ∀ r ∈ η.records ++ L, Record.Fits η.count r := by
  have hT : T = [] := by
    by_contra hne
    have := h.torn hne
    rw [hadm.healthy] at this
    cases this
  have hsent := h.bound.sent_le
  have hseq := hadm.sequence_eq
  have hnew : ∀ r ∈ L, s.sequence < r.sequence ∧ η.sent < r.sequence := by
    intro r hr
    have := (hadm.record (hL.subset hr)).1
    omega
  have hrec : η.records = A := by rw [h.ledger.records, hT, List.append_nil]
  refine ⟨hT, hnew, ?_, ?_⟩
  · rw [List.pairwise_append]
    refine ⟨h.ledger.ordered, (before_recordsIn hadm.sequences).sublist hL, ?_⟩
    intro r hr t ht
    rw [hrec] at hr
    exact Or.inl (lt_of_le_of_lt (h.bound.acked_le r hr) (hnew t ht).1)
  · intro r hr
    rcases List.mem_append.mp hr with hr | hr
    · exact h.ledger.fits r hr
    · exact (hadm.record (hL.subset hr)).2

/-- The buffer after a write holds the records of the write and the older ones. -/
theorem Bound.admitted (hb : Bound P S store id B η A s)
    (hadm : Admitted P s g count pos input sequence staged) (i : ℕ) :
    (s.pending ∪ staged)[i]? =
      (latest s.header.acknowledged (A ++ recordsIn staged) i).map Record.pending := by
  have hst := lastOf_recordsIn staged i
  rw [Std.ExtTreeMap.getElem?_union, hb.pending i, ← hst]
  cases hlast : lastOf (recordsIn staged) i with
  | none =>
    rw [Option.map_none, Option.none_or]
    congr 1
    simp only [latest, lastOf_append, hlast, Option.none_or]
  | some r =>
    have hseq := (hadm.record (lastOf_some hlast).1).1
    have hack := hb.ack_le_sent
    have hsent := hb.sent_le
    have := hadm.sequence_eq
    have hboth : lastOf (A ++ recordsIn staged) i = some r := by
      rw [lastOf_append, hlast, Option.some_or]
    rw [latest_of_lt hboth (by omega)]
    rfl

/-- The append of an admitted write that succeeds. -/
theorem Running.append_done (h : Running P S store id B η A T n s)
    (hadm : Admitted P s (η.after s.header.acknowledged) η.count pos input sequence staged)
    (hne : recordsIn staged ≠ []) :
    Running P S store id B { η with records := η.records ++ recordsIn staged }
      (A ++ recordsIn staged) T n
      { s with
        file := ⟨s.file.bytes ++ State.recordsOf P staged, s.file.synced⟩
        sequence := sequence
        pending := s.pending ∪ staged } := by
  obtain ⟨hT, hnew, hord, hfit⟩ := h.ledger_append hadm (List.Sublist.refl _)
  have hl := later_append P B (fun r hr => (hnew r hr).2)
  have hb := h.bound
  have hseq := hadm.sequence_eq
  have hlater := hb.later hl hb.sent_le
  have hren : s.renamed = [] := h.unrenamed hadm.healthy
  subst hT
  have hrec : η.records = A := by rw [h.ledger.records, List.append_nil]
  refine ⟨h.remote.later hl h.remote.addressed rfl rfl rfl,
    ⟨by rw [hrec, List.append_nil], hord, hfit, (fun r hr => by cases hr)⟩, ?_,
    (fun r hr => by cases hr), (fun hc => absurd rfl hc), ?_, ?_, ?_, h.unrenamed, h.stale⟩
  · refine ⟨hb.volume, hb.journal, hb.journal_length, hb.base, hb.ack, hlater.reader, hb.clean,
      hb.sound, hb.admitted hadm, hadm.room, ?_, ?_⟩
    · intro r hr
      rcases List.mem_append.mp hr with hr | hr
      · have := hb.acked_le r hr
        simp only
        omega
      · exact le_of_eq (hadm.record hr).1
    · have := hb.sent_le
      simp only
      omega
  · rw [List.length_append]
    exact h.flushed_le.trans (Nat.le_add_right _ _)
  · obtain ⟨hd, m, j, d, tail, hf⟩ := h.file
    obtain ⟨rfl, hfull⟩ := hf.whole hadm.healthy
    have hempty : ([] : Bytes).length < recordSize := recordSize_pos
    have hc := hf.candidate.append hfull (fun r hr => (hnew r hr).2) hempty
    rw [List.append_nil, ← recordsOf_eq] at hc
    have hacked := hf.acked
    refine ⟨hd, m, j + (recordsIn staged).length, d, [], hc, ?_, ?_, hf.flushed, ?_, ?_⟩
    · rw [List.length_append]
      omega
    · rw [List.length_append]
      exact hf.start_le.trans (Nat.le_add_right _ _)
    · obtain ⟨r, hr⟩ := List.exists_mem_of_ne_nil _ hne
      rw [← (hadm.record hr).1]
      refine sequence_le_newest ?_
      rw [List.drop_append_of_le_length hf.start_le]
      exact List.mem_append_right _ hr
    · intro _
      refine ⟨rfl, ?_⟩
      simp only [List.length_append]
      omega
  · intro F hF
    simp only [hren, List.not_mem_nil] at hF

/-- The append of an admitted write that fails. -/
theorem Running.append_torn (h : Running P S store id B η A T n s)
    (hadm : Admitted P s g η.count pos input sequence staged) (k : ℕ) :
    Running P S store id B
      { η with records := η.records ++ (recordsIn staged).take (k / recordSize) } A
      (T ++ (recordsIn staged).take (k / recordSize)) n
      { s with
        file := ⟨s.file.bytes ++ (State.recordsOf P staged).take k, s.file.synced⟩
        failed := true } := by
  obtain ⟨hT, hnew, hord, hfit⟩ := h.ledger_append hadm
    (List.take_sublist (k / recordSize) (recordsIn staged))
  have hl := later_append P B (fun r hr => (hnew r hr).2)
  have hb := h.bound
  have hren : s.renamed = [] := h.unrenamed hadm.healthy
  subst hT
  have hrec : η.records = A := by rw [h.ledger.records, List.append_nil]
  refine ⟨h.remote.later hl h.remote.addressed rfl rfl rfl,
    ⟨by rw [hrec, List.nil_append], hord, hfit, ?_⟩, ?_, ?_, fun _ => rfl, h.flushed_le, ?_, ?_,
    (fun hc => by cases hc), h.stale⟩
  · intro r hr
    exact (hnew r hr).2
  · exact (hb.later hl hb.sent_le).of_same rfl rfl rfl rfl
  · intro r hr
    exact (hnew r hr).1
  · obtain ⟨hd, m, j, d, tail, hf⟩ := h.file
    obtain ⟨rfl, hfull⟩ := hf.whole hadm.healthy
    have henc : ∀ r ∈ recordsIn staged, (Record.encode P r).length = recordSize :=
      fun r hr => Record.length_encode (hadm.record hr).2
    have hempty : ([] : Bytes).length < recordSize := recordSize_pos
    obtain ⟨tail', htail', htake⟩ := take_frames recordSize_pos henc hempty k
    rw [List.append_nil, ← recordsOf_eq] at htake
    have hc := hf.candidate.append hfull (fun r hr => (hnew r hr).2) htail'
    rw [← htake] at hc
    exact ⟨hd, m, _, d, tail', hc, hf.acked.trans (by omega), hf.start_le, hf.flushed, hf.sequence,
      (fun hc => by cases hc)⟩
  · intro F hF
    simp only [hren, List.not_mem_nil] at hF

/-- Everything that the journal part of a write can do. -/
theorem State.log_cases (hok : s.log P staged w a = (s', res)) :
    (∃ e, res = .error e ∧ s.compact P w = (s', .error e) ∧ s.logged P staged w a = []) ∨
    ∃ s1, (s1 = s ∨ s.compact P w = (s1, .ok ())) ∧ s1.append P staged a = (s', res) ∧
      s.logged P staged w a = a.reached staged := by
  unfold State.log at hok
  unfold State.logged
  split at hok
  · rename_i hfull
    cases hcomp : s.compact P w with
    | mk s1 r =>
      rw [hcomp] at hok
      cases r with
      | error e =>
        obtain ⟨rfl, rfl⟩ := Prod.mk.inj hok
        exact Or.inl ⟨e, rfl, rfl, if_pos ⟨hfull, by simp⟩⟩
      | ok u => exact Or.inr ⟨s1, Or.inr rfl, hok, if_neg (by simp)⟩
  · rename_i hfull
    exact Or.inr ⟨s, Or.inl rfl, hok, if_neg (fun hc => hfull hc.1)⟩

/-- The records are in the journal, or the write has failed. -/
theorem Running.log (h : Running P S store id B η A T n s)
    (hadm : Admitted P s (η.after s.header.acknowledged) η.count pos input sequence staged)
    (hne : recordsIn staged ≠ []) (hok : s.log P staged w a = (s', res)) :
    (res = .ok () → s.logged P staged w a = recordsIn staged ∧
      Running P S store id B { η with records := η.records ++ s.logged P staged w a }
        (A ++ s.logged P staged w a) T n
        { s' with sequence := sequence, pending := s'.pending ∪ staged }) ∧
    ∀ e, res = .error e →
      Running P S store id B { η with records := η.records ++ s.logged P staged w a } A
        (T ++ s.logged P staged w a) n { s' with failed := true } := by
  rcases State.log_cases hok with ⟨e, rfl, hcomp, hlog⟩ | ⟨s1, hs1, happ, hlog⟩
  · simp only [hlog, List.append_nil]
    exact ⟨(fun hc => by cases hc), fun _ _ => (h.compact hcomp).1.fail⟩
  · -- A rewrite before the append changes nothing that the write depends on.
    have h1 : Running P S store id B η A T n s1 ∧ Admitted P s1
        (η.after s1.header.acknowledged) η.count pos input sequence staged := by
      rcases hs1 with rfl | hcomp
      · exact ⟨h, hadm⟩
      · refine ⟨(h.compact hcomp).1, ?_⟩
        rcases State.compact_cases hcomp with ⟨⟨e, he⟩, -⟩ | ⟨-, bytes, -, rfl⟩
        · cases he
        · exact hadm.of_same rfl rfl rfl
    rw [hlog]
    cases a with
    | done =>
      obtain ⟨rfl, rfl⟩ := Prod.mk.inj happ
      exact ⟨fun _ => ⟨rfl, h1.1.append_done h1.2 hne⟩, fun e he => by cases he⟩
    | torn k =>
      obtain ⟨rfl, rfl⟩ := Prod.mk.inj happ
      exact ⟨fun hc => (by cases hc), fun e _ => h1.1.append_torn h1.2 k⟩

-- The continuations are variables: with `log` in their place the kernel would evaluate it.
theorem match_admitted {x : Result (Option (ℕ × BTreeMap ℕ Pending))} {sequence : ℕ}
    {staged : BTreeMap ℕ Pending} {f : Error → State × Result Unit} {g : State × Result Unit}
    {k : ℕ → BTreeMap ℕ Pending → State × Result Unit} :
    x = .ok (some (sequence, staged)) →
      (match x with
      | .error e => f e
      | .ok none => g
      | .ok (some (a, b)) => k a b) = k sequence staged := by
  rintro rfl
  rfl

/-- A write that is admitted is logged. -/
theorem State.write_admitted {sequence : ℕ} {staged : BTreeMap ℕ Pending}
    (hadmitted : s.admission P view pos input = .ok (some (sequence, staged))) :
    s.write P view pos input w a =
      match s.log P staged w a with
      | (s', .error e) => ({ s' with failed := true }, .error e)
      | (s', .ok ()) =>
        ({ s' with sequence := sequence, pending := s'.pending ∪ staged }, .ok ()) := by
  unfold State.write
  exact match_admitted hadmitted

/-- A write, whatever becomes of it. -/
theorem Running.write (h : Running P S store id B η A T n s) (hs : view.Sound B)
    (hok : s.write P view pos input w a = (s', res)) :
    ∃ η', Later P B η B η' ∧ η'.sent = η.sent ∧
      (res = .ok () →
        Running P S store id B η' (A ++ s.written P view pos input w a) T n s' ∧
        flat chunkBytes (applied η.origin (A ++ s.written P view pos input w a)) =
          overwrite (flat chunkBytes (applied η.origin A)) pos input) ∧
      ∀ e, res = .error e →
        Running P S store id B η' A (T ++ s.written P view pos input w a) n s' := by
  have hreads := h.bound.reads h.ledger
  have hover := h.bound.over_eq h.ledger
  unfold State.written
  cases hadmitted : s.admission P view pos input with
  | error e =>
    simp only [State.write, hadmitted] at hok ⊢
    obtain ⟨rfl, rfl⟩ := Prod.mk.inj hok
    refine ⟨η, Later.refl P B η, rfl, (fun hc => by cases hc), fun _ _ => ?_⟩
    rw [List.append_nil]
    exact h
  | ok o =>
    cases o with
    | none =>
      simp only [State.write, hadmitted] at hok ⊢
      obtain ⟨rfl, rfl⟩ := Prod.mk.inj hok
      have hnil : input = [] := by
        unfold State.admission at hadmitted
        split at hadmitted
        · cases hadmitted
        split at hadmitted
        · assumption
        split at hadmitted
        · cases hadmitted
        split at hadmitted
        · cases hadmitted
        split at hadmitted
        · cases hadmitted
        · cases hadmitted
      refine ⟨η, Later.refl P B η, rfl, fun _ => ?_, fun e he => by cases he⟩
      rw [List.append_nil, hnil, overwrite_nil]
      exact ⟨h, rfl⟩
    | some x =>
      obtain ⟨sequence, staged⟩ := x
      have hadm := hreads.admit_ok hs hadmitted
      have hne : recordsIn staged ≠ [] := by
        obtain ⟨i, p, hp⟩ := hadm.touched
        have hmem : (⟨p.sequence, i, p.bytes⟩ : Record) ∈ recordsIn staged := mem_recordsIn.mpr hp
        exact List.ne_nil_of_mem hmem
      rw [State.write_admitted hadmitted] at hok
      simp only
      cases hlog : s.log P staged w a with
      | mk s1 r =>
        obtain ⟨hdone, hfail⟩ := h.log hadm hne hlog
        rw [hlog] at hok
        have hnew : ∀ r ∈ s.logged P staged w a, η.sent < r.sequence := by
          intro r hr
          have hsub : (s.logged P staged w a).Sublist (recordsIn staged) := by
            rcases State.log_cases hlog with ⟨-, -, -, heq⟩ | ⟨-, -, -, heq⟩
            · rw [heq]
              exact List.nil_sublist _
            · rw [heq]
              cases a with
              | done => exact List.Sublist.refl _
              | torn k => exact List.take_sublist _ _
          exact ((h.ledger_append hadm hsub).2.1 r hr).2
        refine ⟨_, later_append P B hnew, rfl, ?_, ?_⟩
        · rintro rfl
          cases r with
          | error e => cases (Prod.mk.inj hok).2
          | ok u =>
            obtain ⟨rfl, -⟩ := Prod.mk.inj hok
            obtain ⟨heq, hrun⟩ := hdone rfl
            refine ⟨hrun, ?_⟩
            rw [heq, ← hover, ← hadm.shows, hover]
            congr 1
            funext i
            rw [applied_append, applied_eq, ← lastOf_recordsIn, Option.map_map]
            rfl
        · rintro e rfl
          cases r with
          | error e' =>
            obtain ⟨rfl, -⟩ := Prod.mk.inj hok
            exact hfail e' rfl
          | ok u => cases (Prod.mk.inj hok).2

end Writing

section Single

variable {P : Platform} {view : View} {s : State} {i w : ℕ} {input bytes : Bytes}

/-- A write within one chunk is admitted as one record, if it finds room in the buffer. -/
theorem State.admission_single (hne : input ≠ []) (hwithin : w + input.length ≤ chunkBytes)
    (hfailed : s.failed = false) (hsize : i * chunkBytes + w + input.length ≤ s.reader.size)
    (hold : s.writtenChunk P view input ⟨i, w, 0, input.length⟩ = .ok bytes)
    (hroom : (s.pending.size + 1) * chunkBytes ≤ dirtyLimit) (hsequence : s.sequence + 1 < 2 ^ 64) :
    s.admission P view (i * chunkBytes + w) input =
      .ok (some (s.sequence + 1, (∅ : BTreeMap ℕ Pending).insert i ⟨s.sequence + 1, bytes⟩)) := by
  have hpos : 0 < input.length := List.length_pos_iff.mpr hne
  have hchunk : chunkBytes ≤ writeLimit := by decide
  have hcheck : s.check (i * chunkBytes + w) input.length = .ok () := by
    rw [State.check, hfailed, if_neg (by simp), if_neg (by omega)]
  have hextra : s.extraChunks (i * chunkBytes + w) input.length ≤ 1 := by
    have hfirst : (i * chunkBytes + w) / chunkBytes = i := by
      rw [Nat.mul_comm, Nat.mul_add_div chunkBytes_pos, Nat.div_eq_of_lt (by omega), Nat.add_zero]
    have hlast : (i * chunkBytes + w + input.length - 1) / chunkBytes = i := by
      rw [show i * chunkBytes + w + input.length - 1 = chunkBytes * i + (w + input.length - 1) by
        rw [Nat.mul_comm]; omega, Nat.mul_add_div chunkBytes_pos, Nat.div_eq_of_lt (by omega),
        Nat.add_zero]
    rw [State.extraChunks]
    simp only [hfirst, hlast]
    apply (List.length_filter_le _ _).trans
    rw [List.length_range', Nat.add_sub_cancel_left]
  have hdirty : ¬ (s.pending.size + s.extraChunks (i * chunkBytes + w) input.length) * chunkBytes >
      dirtyLimit := by
    have hmul := Nat.mul_le_mul_right chunkBytes
      (show s.pending.size + s.extraChunks (i * chunkBytes + w) input.length ≤
        s.pending.size + 1 by omega)
    omega
  have hchecked : checkedAdd s.sequence 1 = some (s.sequence + 1) := if_pos hsequence
  have hstage : s.stage P view (s.sequence + 1) input ∅ ⟨i, w, 0, input.length⟩ =
      .ok ((∅ : BTreeMap ℕ Pending).insert i ⟨s.sequence + 1, bytes⟩) := by
    rw [State.stage, hold]
  simp only [State.admission, hcheck, if_neg hne, if_neg hdirty, hchecked,
    segments_within hpos hwithin, List.foldlM_cons, hstage]
  rfl

/-- It appends this record. -/
theorem State.write_single {pos : ℕ} (rw : Rewrite) (a : Append)
    (hadmission : s.admission P view pos input =
      .ok (some (s.sequence + 1, (∅ : BTreeMap ℕ Pending).insert i ⟨s.sequence + 1, bytes⟩)))
    (hlog : s.file.bytes.length + recordSize ≤ logLimit) :
    s.written P view pos input rw a = a.reached ((∅ : BTreeMap ℕ Pending).insert i
        ⟨s.sequence + 1, bytes⟩) ∧
      (a = .done → s.write P view pos input rw a = ({ s with
        file := ⟨s.file.bytes ++ Record.encode P ⟨s.sequence + 1, i, bytes⟩, s.file.synced⟩
        pending := s.pending ∪ (∅ : BTreeMap ℕ Pending).insert i ⟨s.sequence + 1, bytes⟩
        sequence := s.sequence + 1 }, .ok ())) ∧
      ∀ k, a = .torn k → s.write P view pos input rw a = ({ s with
        file := ⟨s.file.bytes ++ (Record.encode P ⟨s.sequence + 1, i, bytes⟩).take k,
          s.file.synced⟩
        failed := true }, .error .store) := by
  have hone : ((∅ : BTreeMap ℕ Pending).insert i ⟨s.sequence + 1, bytes⟩).size = 1 := rfl
  have hrecords : State.recordsOf P ((∅ : BTreeMap ℕ Pending).insert i ⟨s.sequence + 1, bytes⟩) =
      Record.encode P ⟨s.sequence + 1, i, bytes⟩ := List.append_nil _
  have hroom : ¬ s.file.bytes.length + recordSize > logLimit := Nat.not_lt.mpr hlog
  refine ⟨?_, ?_, ?_⟩
  · simp only [State.written, hadmission, State.logged, hone, Nat.one_mul, hroom, false_and,
      if_false]
  · rintro rfl
    simp only [State.write, hadmission, State.log, hone, Nat.one_mul, if_neg hroom, State.append,
      hrecords]
  · rintro k rfl
    simp only [State.write, hadmission, State.log, hone, Nat.one_mul, if_neg hroom, State.append,
      hrecords]

end Single

end AgentHouse.Local
