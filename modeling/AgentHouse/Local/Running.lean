import AgentHouse.Local.Replicate

/-!
# A disk in use

`Running` is what holds while a process has the disk open: the state in memory belongs to the
acknowledged records, the journal has them all, and every file that a crash could leave under
the journal's name has those that were flushed or sent to the store. Each operation keeps it.
-/

namespace AgentHouse.Local

open Volume IndexedVolume

/-- The open journal: everything acknowledged is in it, and the first `n` records are on disk. -/
structure FileOk (P : Platform) (S : Set Bytes) (store : Client) (id : VolumeId) (B : Bucket)
    (η : History) (A : List Record) (n q : ℕ) (failed : Bool) (F : File) (h : Header) (m j d : ℕ)
    (tail : Bytes) : Prop where
  candidate : Candidate P S store id B η h m j d tail F
  acked : A.length ≤ m + j
  start_le : m ≤ A.length
  flushed : n ≤ d
  sequence : q ≤ newest h.sequence (A.drop m)
  whole : failed = false → tail = [] ∧ m + j = η.records.length

/-- A file that was renamed to the journal but may not stay there. -/
structure RenamedOk (P : Platform) (S : Set Bytes) (store : Client) (id : VolumeId) (B : Bucket)
    (η : History) (A : List Record) (q : ℕ) (F : File) (h : Header) (m j d : ℕ) (tail : Bytes) :
    Prop where
  candidate : Candidate P S store id B η h m j d tail F
  acked : A.length ≤ d
  sequence : q ≤ newest h.sequence ((η.records.take d).drop m)

/-- A process has the disk open, with the acknowledged records `A`, the first `n` of which are
on disk, and the remains `T` of a failed write. -/
structure Running (P : Platform) (S : Set Bytes) (store : Client) (id : VolumeId) (B : Bucket)
    (η : History) (A T : List Record) (n : ℕ) (s : State) : Prop where
  remote : Remote P S store id B η
  ledger : Ledger η A T
  bound : Bound P S store id B η A s
  unheard : ∀ r ∈ T, s.sequence < r.sequence
  torn : T ≠ [] → s.failed = true
  flushed_le : n ≤ A.length
  file : ∃ h m j d tail,
    FileOk P S store id B η A n s.sequence s.failed s.file h m j d tail
  renamed : ∀ F ∈ s.renamed, ∃ h m j d tail,
    RenamedOk P S store id B η A s.sequence F h m j d tail
  unrenamed : s.failed = false → s.renamed = []
  stale : s.stale = []

section Basics

variable {P : Platform} {S : Set Bytes} {B B' : Bucket} {store : Client} {id : VolumeId}
  {η η' : History} {A T : List Record} {n : ℕ} {s s' : State}

/-- The bound depends on four fields. -/
theorem Bound.of_same (hb : Bound P S store id B η A s) (hheader : s'.header = s.header)
    (hreader : s'.reader = s.reader) (hpending : s'.pending = s.pending)
    (hsequence : s'.sequence = s.sequence) : Bound P S store id B η A s' := by
  obtain ⟨hv, hj, hjl, hbase, hack, hr, hc, hso, hp, hroom, hle, hse⟩ := hb
  rw [← hheader] at hv hj hbase hack hp
  rw [← hreader] at hbase hack hr hc hso
  rw [← hpending] at hp hroom
  rw [← hsequence] at hle hse
  exact ⟨hv, hj, hjl, hbase, hack, hr, hc, hso, hp, hroom, hle, hse⟩

/-- Less may be claimed to be flushed. -/
theorem Running.flushed_mono {n' : ℕ} (h : Running P S store id B η A T n s) (hn : n' ≤ n) :
    Running P S store id B η A T n' s := by
  obtain ⟨hd, m, j, d, tail, hf⟩ := h.file
  exact { h with
    flushed_le := hn.trans h.flushed_le
    file := ⟨hd, m, j, d, tail, { hf with flushed := hn.trans hf.flushed }⟩ }

/-- The store may change under a disk in use. -/
theorem Running.later (h : Running P S store id B η A T n s) (hl : Later P B η B' η')
    (hrec : η'.records = η.records) (hsent : η'.sent = η.sent)
    (hR : Remote P S store id B' η') : Running P S store id B' η' A T n s := by
  refine ⟨hR, ⟨hrec.trans h.ledger.records, by rw [hrec]; exact h.ledger.ordered, ?_, ?_⟩,
    h.bound.later hl (by rw [hsent]; exact h.bound.sent_le), h.unheard, h.torn, h.flushed_le, ?_,
      ?_, h.unrenamed,
    h.stale⟩
  · rw [hrec, hl.count]
    exact h.ledger.fits
  · rw [hsent]
    exact h.ledger.unsent
  · obtain ⟨hd, m, j, d, tail, hf⟩ := h.file
    exact ⟨hd, m, j, d, tail, hf.candidate.later hl hrec hsent, hf.acked, hf.start_le, hf.flushed,
      hf.sequence, by rw [hrec]; exact hf.whole⟩
  · intro F hF
    obtain ⟨hd, m, j, d, tail, hf⟩ := h.renamed F hF
    exact ⟨hd, m, j, d, tail, hf.candidate.later hl hrec hsent, hf.acked,
      by rw [hrec]; exact hf.sequence⟩

/-- A disk that refuses further requests. -/
theorem Running.fail (h : Running P S store id B η A T n s) :
    Running P S store id B η A T n { s with failed := true } := by
  refine ⟨h.remote, h.ledger, h.bound.of_same rfl rfl rfl rfl, h.unheard, fun _ => rfl,
    h.flushed_le, ?_,
    h.renamed, (fun hc => by cases hc), h.stale⟩
  obtain ⟨hd, m, j, d, tail, hf⟩ := h.file
  exact ⟨hd, m, j, d, tail, hf.candidate, hf.acked, hf.start_le, hf.flushed, hf.sequence,
    fun hc => by cases hc⟩

/-- Accepting another version. -/
theorem Running.accept {remote : IndexedVolume} (h : Running P S store id B η A T n s)
    (hr : InHand P S store id B η remote) (hok : s.accept remote = .ok s') :
    Running P S store id B η A T n s' := by
  have hb := h.bound.accept hr.toKnown hr.clean hr.sound hok
  obtain ⟨ack, -, rfl⟩ := State.accept_cases hok
  refine ⟨h.remote, h.ledger, hb, h.unheard, h.torn, h.flushed_le, ?_, h.renamed,
    h.unrenamed, h.stale⟩
  obtain ⟨hd, m, j, d, tail, hf⟩ := h.file
  exact ⟨hd, m, j, d, tail, hf.candidate, hf.acked, hf.start_le, hf.flushed, hf.sequence, hf.whole⟩

/-- Syncing the journal puts all acknowledged records on disk. -/
theorem Running.sync (h : Running P S store id B η A T n s) :
    Running P S store id B η A T A.length s.sync := by
  refine ⟨h.remote, h.ledger, h.bound.of_same rfl rfl rfl rfl, h.unheard, h.torn, le_refl _, ?_,
    h.renamed, h.unrenamed, h.stale⟩
  obtain ⟨hd, m, j, d, tail, hf⟩ := h.file
  exact ⟨hd, m, j, m + j, tail, hf.candidate.sync h.ledger.fits, hf.acked, hf.start_le, hf.acked,
    hf.sequence, hf.whole⟩

/-- Rewriting the journal. -/
theorem Running.compact {w : Rewrite} {res : Result Unit} (h : Running P S store id B η A T n s)
    (hok : s.compact P w = (s', res)) :
    Running P S store id B η A T n s' ∧
      (res = .ok () → Running P S store id B η A T A.length s' ∧ s'.failed = s.failed ∧
        s'.renamed = []) := by
  have hb := h.bound.compact hok
  obtain ⟨hd, m, j, d, tail, hf⟩ := h.file
  rcases State.compact_cases hok with ⟨⟨e, rfl⟩, rfl | ⟨bytes, hj, rfl⟩⟩ | ⟨rfl, bytes, hj, rfl⟩
  · refine ⟨⟨h.remote, h.ledger, hb, h.unheard, fun _ => rfl, h.flushed_le, ?_, h.renamed,
      (fun hc => by cases hc),
      h.stale⟩, fun hc => by cases hc⟩
    exact ⟨hd, m, j, d, tail, hf.candidate, hf.acked, hf.start_le, hf.flushed, hf.sequence,
      fun hc => by cases hc⟩
  · refine ⟨⟨h.remote, h.ledger, hb, h.unheard, fun _ => rfl, h.flushed_le, ?_, ?_,
      (fun hc => by cases hc),
      h.stale⟩, fun hc => by cases hc⟩
    · exact ⟨hd, m, j, d, tail, hf.candidate, hf.acked, hf.start_le, hf.flushed, hf.sequence,
        fun hc => by cases hc⟩
    · intro F hF
      rcases List.mem_cons.mp hF with rfl | hF
      · exact ⟨_, _, _, _, _, h.bound.candidate h.ledger hj, le_refl _, le_newest _ _⟩
      · obtain ⟨hd, m, j, d, tail, hf⟩ := h.renamed F hF
        exact ⟨hd, m, j, d, tail, hf.candidate, hf.acked, hf.sequence⟩
  · have hwhole : s.failed = false → A.length + 0 = η.records.length := by
      intro hfail
      have hT : T = [] := by
        by_contra hne
        rw [h.torn hne] at hfail
        cases hfail
      rw [h.ledger.records, hT, List.append_nil, Nat.add_zero]
    have hnew : ∀ n ≤ A.length, Running P S store id B η A T n { s.stamped with
        file := ⟨bytes, bytes.length⟩
        renamed := []
        stale := []
        localSequence := s.sequence } := by
      intro n hn
      refine ⟨h.remote, h.ledger, hb, h.unheard, h.torn, hn, ?_, (fun F hF => by cases hF),
        fun _ => rfl,
        rfl⟩
      exact ⟨_, _, _, _, _, h.bound.candidate h.ledger hj, Nat.le_add_right _ _, le_refl _, hn,
        le_newest _ _, fun hfail => ⟨rfl, hwhole hfail⟩⟩
    exact ⟨hnew n h.flushed_le, fun _ => ⟨hnew _ (le_refl _), rfl, rfl⟩⟩

end Basics

section Replication

variable {P : Platform} {S : Set Bytes} {B B' : Bucket} {store : Client} {id : VolumeId}
  {η : History} {A T : List Record} {n : ℕ} {s s' : State} {remote : IndexedVolume}

/-- A version in hand is clean. -/
theorem InHand.cleanCopy (h : InHand P S store id B η remote) : remote.cleanCopy = .ok remote := by
  rw [IndexedVolume.cleanCopy, check_of h.sound (Nat.zero_le _)]
  simp only
  rw [if_pos (by rw [h.clean]; simp), ← h.clean, ← h.sound]

/-- With all acknowledged records on disk, all of them may be sent. -/
theorem Running.send (h : Running P S store id B η A T A.length s) :
    Later P B η B { η with sent := s.sequence } ∧
      Running P S store id B { η with sent := s.sequence } A T A.length s := by
  have hl : Later P B η B { η with sent := s.sequence } :=
    ⟨Bucket.Le.refl B, rfl, rfl, rfl, fun h => h, le_refl _, h.bound.sent_le, fun _ _ => rfl⟩
  -- What lies behind the acknowledged records belongs to a write that failed.
  have hcov : ∀ d, A.length ≤ d → ∀ r ∈ η.records.drop d, s.sequence < r.sequence := by
    intro d hd r hr
    rw [h.ledger.records, List.drop_append, List.drop_eq_nil_of_le hd, List.nil_append] at hr
    exact h.unheard r (List.mem_of_mem_drop hr)
  refine ⟨hl, h.remote.later hl h.remote.addressed rfl rfl rfl,
    ⟨h.ledger.records, h.ledger.ordered, h.ledger.fits, h.unheard⟩,
    h.bound.later hl (le_refl _), h.unheard, h.torn, le_refl _, ?_, ?_, h.unrenamed, h.stale⟩
  · obtain ⟨hd, m, j, d, tail, hf⟩ := h.file
    refine ⟨hd, m, j, d, tail, hf.candidate.send h.bound.sent_le (hcov d hf.flushed) ?_, hf.acked,
      hf.start_le, hf.flushed, hf.sequence, hf.whole⟩
    refine hf.sequence.trans (newest_le (le_newest _ _) (fun r hr => sequence_le_newest ?_))
    rw [h.ledger.records, List.take_append, List.take_of_length_le hf.flushed, List.drop_append]
    exact List.mem_append_left _ hr
  · intro F hF
    obtain ⟨hd, m, j, d, tail, hf⟩ := h.renamed F hF
    exact ⟨hd, m, j, d, tail, hf.candidate.send h.bound.sent_le (hcov d hf.acked) hf.sequence,
      hf.acked, hf.sequence⟩

/-- Everything acknowledged so far, as the history up to the current sequence number. -/
theorem Running.after_sequence (h : Running P S store id B η A T n s) :
    η.after s.sequence = applied η.origin A := by
  rw [History.after, h.ledger.records, upTo_append_of_newer h.unheard, upTo_of_le h.bound.acked_le]

/-- The second section of a replication round. -/
theorem Running.reconcile {synced : Bool} {w : Rewrite} {res : Result (Option Snapshot)}
    (h : Running P S store id B η A T n s) (hr : InHand P S store id B η remote)
    (hok : s.reconcile P remote synced w = (s', res)) :
    ∃ η', Later P B η B η' ∧ η'.records = η.records ∧ Running P S store id B η' A T n s' ∧
      ((∃ o, res = .ok o) → Running P S store id B η' A T A.length s') ∧
      ∀ t, res = .ok (some t) → SnapshotOk P S store id B η' remote t := by
  unfold State.reconcile at hok
  rw [hr.cleanCopy] at hok
  simp only at hok
  split at hok
  · obtain ⟨rfl, rfl⟩ := Prod.mk.inj hok
    exact ⟨η, Later.refl P B η, rfl, h.fail, fun hc => absurd hc Result.not_ok,
      fun t hc => by cases hc⟩
  rename_i s1 hacc
  have h1 := h.accept hr hacc
  split at hok
  · obtain ⟨rfl, rfl⟩ := Prod.mk.inj hok
    exact ⟨η, Later.refl P B η, rfl, h1.fail, fun hc => absurd hc Result.not_ok,
      fun t hc => by cases hc⟩
  split at hok
  · split at hok
    · rename_i s2 e hcomp
      obtain ⟨rfl, rfl⟩ := Prod.mk.inj hok
      refine ⟨η, Later.refl P B η, rfl, (h1.sync.compact hcomp).1.flushed_mono h.flushed_le,
        fun hc => absurd hc Result.not_ok, fun t hc => by cases hc⟩
    · rename_i s2 hcomp
      obtain ⟨rfl, rfl⟩ := Prod.mk.inj hok
      have h2 := (h1.sync.compact hcomp).1
      exact ⟨η, Later.refl P B η, rfl, h2.flushed_mono h.flushed_le, fun _ => h2,
        fun t hc => by cases hc⟩
  · rename_i hne
    obtain ⟨rfl, rfl⟩ := Prod.mk.inj hok
    obtain ⟨hl, h2⟩ := h1.sync.send
    refine ⟨_, hl, rfl, h2.flushed_mono h.flushed_le, fun _ => h2, ?_⟩
    intro t ht
    obtain rfl := Option.some.inj (Except.ok.inj ht)
    obtain ⟨ack, hack, rfl⟩ := State.accept_cases hacc
    have hwater : water η.journal remote.root = ack := h1.bound.ack
    have hlow : ack ≤ s.sequence := h1.bound.ack_le_sent.trans h1.bound.sent_le
    have hshow := h2.bound.over_eq h2.ledger
    have hafter := h2.after_sequence
    refine ⟨hr.later hl, h1.bound.journal, h1.bound.journal_length, ?_, le_refl _, ?_,
      h1.bound.pendingOk h1.ledger, h1.bound.room, fun i => ?_⟩
    · -- Something is pending, and its sequence number is positive.
      intro hzero
      apply hne
      rw [Std.ExtTreeMap.isEmpty_iff]
      apply Std.ExtTreeMap.ext_getElem?
      intro i
      rw [h1.bound.pending i, Std.ExtTreeMap.getElem?_empty]
      cases hlast : latest ack A i with
      | none => simp only [Option.map_none]
      | some r =>
        have hmem := (lastOf_some (latest_some.mp hlast).1).1
        have hpos := (h.ledger.fits_acked hmem).sequence_pos
        have hle := h.bound.acked_le r hmem
        simp only at hzero
        omega
    · simp only [hwater]
      exact hlow
    · simp only [hwater]
      exact congrFun (hshow.trans hafter.symm) i

/-- The last section of a replication round. -/
theorem Running.settle {w : Rewrite} {res : Result Unit} (h : Running P S store id B η A T n s)
    (hr : InHand P S store id B η remote) (hok : s.settle P remote w = (s', res)) :
    Running P S store id B η A T n s' ∧
      (res = .ok () → Running P S store id B η A T A.length s') := by
  unfold State.settle at hok
  split at hok
  · obtain ⟨rfl, rfl⟩ := Prod.mk.inj hok
    exact ⟨h, fun hc => by cases hc⟩
  · rename_i s1 hacc
    obtain ⟨h1, h2⟩ := (h.accept hr hacc).compact hok
    exact ⟨h1, fun hc => (h2 hc).1⟩

/-- A flush makes durable what was written. -/
theorem Running.flush {synced : Bool} {res : Result Unit} (h : Running P S store id B η A T n s)
    (hok : s.flush synced = (s', res)) : Running P S store id B η A T n s' ∧
      (res = .ok () → Running P S store id B η A T A.length s') := by
  unfold State.flush at hok
  split at hok
  · obtain ⟨rfl, rfl⟩ := Prod.mk.inj hok
    exact ⟨h, fun hc => by cases hc⟩
  · split at hok
    · obtain ⟨rfl, rfl⟩ := Prod.mk.inj hok
      exact ⟨h.sync.flushed_mono h.flushed_le, fun _ => h.sync⟩
    · obtain ⟨rfl, rfl⟩ := Prod.mk.inj hok
      exact ⟨h.fail, fun hc => by cases hc⟩

/-- A disk with nothing pending has all acknowledged records in the remote volume. -/
theorem Running.nothing (h : Running P S store id B η A T n s) (hok : s.begin = .ok false) :
    Running P S store id B η A T A.length s := by
  have hempty : s.pending = ∅ := by
    unfold State.begin at hok
    split at hok
    · cases hok
    · exact Std.ExtTreeMap.isEmpty_iff.mp (by simpa using hok)
  have hold : ∀ r ∈ A, r.sequence ≤ η.sent := by
    intro r hr
    refine le_trans ?_ h.bound.ack_le_sent
    obtain ⟨e, he⟩ : ∃ e, lastOf A r.key = some e := by
      cases hl : lastOf A r.key with
      | none => exact absurd rfl (lastOf_eq_none.mp hl r hr)
      | some e => exact ⟨e, rfl⟩
    have hle := (ascending_of_before h.ledger.acked).le_lastOf he hr rfl
    by_contra hgt
    have := h.bound.pending r.key
    rw [latest_of_lt he (by omega), hempty] at this
    simp at this
  obtain ⟨hd, m, j, d, tail, hf⟩ := h.file
  refine { h with flushed_le := le_refl _, file := ⟨hd, m, j, d, tail, { hf with flushed := ?_ }⟩ }
  by_contra hlt
  rw [not_le] at hlt
  have hget : A[d]? = some (A[d]) := List.getElem?_eq_getElem hlt
  have hmem : A[d] ∈ η.records.drop d := by
    rw [h.ledger.records, List.drop_append_of_le_length (by omega)]
    refine List.mem_append_left _ (List.mem_iff_getElem?.mpr ⟨0, ?_⟩)
    rw [List.getElem?_drop, Nat.add_zero, hget]
  have := hf.candidate.covered _ hmem
  have := hold _ (List.getElem_mem hlt)
  omega

/-- A pass of `compact_remote`. -/
theorem Running.compactRemote {φ : Faults} {after : Option CompactionCursor} {budget : ℕ}
    {w : Rewrite} {res : Result Compaction} (h : Running P S store id B η A T n s)
    (hideal : P.Ideal S) (hs : ∀ B, (φ.view B).Sound B)
    (hS : ∀ v, IndexedVolume.open P (φ.view B) store id = .ok v →
      ∀ b ∈ v.passHashed P (φ.view B) after budget, b ∈ S)
    (hok : s.compactRemote P B φ after budget w = (B', s', res)) :
    ∃ η', Later P B η B' η' ∧ η'.records = η.records ∧ η'.sent = η.sent ∧
      Running P S store id B' η' A T n s' := by
  have hsame : ∃ η', Later P B η B η' ∧ η'.records = η.records ∧ η'.sent = η.sent ∧
      Running P S store id B η' A T n s := ⟨η, Later.refl P B η, rfl, rfl, h⟩
  unfold State.compactRemote at hok
  rw [h.bound.reader.serves.store_eq, h.bound.volume] at hok
  split at hok
  · obtain ⟨rfl, rfl, -⟩ := by simpa using hok
    exact hsame
  split at hok
  · obtain ⟨rfl, rfl, -⟩ := by simpa using hok
    exact hsame
  split at hok
  · obtain ⟨rfl, rfl, -⟩ := by simpa using hok
    exact hsame
  rename_i remote hopen
  obtain ⟨hk, hclean, hsound, -, -⟩ := h.remote.open_sound (hs B) hopen
  have hin : InHand P S store id B η remote := ⟨hk, hclean, hsound⟩
  split at hok
  · obtain ⟨rfl, rfl, -⟩ := by simpa using hok
    exact hsame
  rename_i hrev
  rw [not_not] at hrev
  have hroot := h.bound.reader.root_eq hk hrev
  split at hok
  · rename_i B1 v1 e hpass
    obtain ⟨η', hl, hR, hrec, hsent, -⟩ := h.remote.compactPacks hin hideal hs (hS _ hopen) hpass
    have h1 := h.later hl hrec hsent hR
    split at hok
    · obtain ⟨rfl, rfl, -⟩ := by simpa using hok
      exact ⟨η', hl, hrec, hsent, h1.fail⟩
    · obtain ⟨rfl, rfl, -⟩ := by simpa using hok
      exact ⟨η', hl, hrec, hsent, h1⟩
  · rename_i B1 v1 c hpass
    obtain ⟨η', hl, hR, hrec, hsent, hnew⟩ :=
      h.remote.compactPacks hin hideal hs (hS _ hopen) hpass
    have h1 := h.later hl hrec hsent hR
    split at hok
    · obtain ⟨rfl, rfl, -⟩ := by simpa using hok
      exact ⟨η', hl, hrec, hsent, h1⟩
    · rename_i hc
      obtain ⟨hin', hwater⟩ := hnew c rfl hc
      have hb := h1.bound
      -- The new disk map has the same records, so the state is bound to it in the same way.
      have h2 : Running P S store id B1 η' A T n { s with
          header := { s.header with base := v1.revision }
          reader := v1 } := by
        refine { h1 with bound := ⟨hb.volume, hb.journal, hb.journal_length, rfl, ?_, hin'.toKnown,
          hin'.clean, hin'.sound, hb.pending, hb.room, hb.acked_le, hb.sent_le⟩ }
        simp only
        rw [hl.journal, hwater, hroot, h.bound.ack]
      split at hok
      · rename_i s2 e hcomp
        obtain ⟨rfl, rfl, -⟩ := by simpa using hok
        exact ⟨η', hl, hrec, hsent, (h2.compact hcomp).1⟩
      · rename_i s2 hcomp
        obtain ⟨rfl, rfl, -⟩ := by simpa using hok
        exact ⟨η', hl, hrec, hsent, (h2.compact hcomp).1⟩

end Replication

end AgentHouse.Local
