import AgentHouse.Local.Writing

/-!
# A disk at rest

`Resting` is what holds of a directory while no process uses it: every file that may turn up
under the journal's name is a journal with the flushed records, or the journal was never used
and may be missing or unfinished. Opening the disk leads back to `Running`, with the records
that the journal has; a crash at rest changes nothing.
-/

namespace AgentHouse.Local

open Volume IndexedVolume

/-- Nothing has happened to a journal yet. -/
structure Pristine (store : Client) (id : VolumeId) (B : Bucket) (η : History) : Prop where
  records : η.records = []
  sent : η.sent = 0
  floor : η.floor = 0
  quiet : ∀ q ∈ B.flights, q.space ≠ store.space id

/-- A journal file whose creation did not come to an end. -/
structure Draft (P : Platform) (S : Set Bytes) (store : Client) (id : VolumeId) (B : Bucket)
    (η : History) (F : File) : Prop where
  journal_length : η.journal.length = 32
  bytes : F.bytes = [] ∨ ∃ w hb k, Known P S store id B η w ∧ water η.journal w.root = 0 ∧
    headerBytes P ⟨id, η.journal, w.revision, 0, 0⟩ = .ok hb ∧ F.bytes = hb.take k

/-- What may turn up under the journal's name. -/
inductive Entry (P : Platform) (S : Set Bytes) (store : Client) (id : VolumeId) (B : Bucket)
    (η : History) (n : ℕ) : Option File → Prop
  | journal {F : File} {h : Header} {m j d : ℕ} {tail : Bytes}
      (hc : Candidate P S store id B η h m j d tail F) (hn : n ≤ d) :
        Entry P S store id B η n (some F)
  | draft {F : File} (hp : Pristine store id B η) (hd : Draft P S store id B η F) :
      Entry P S store id B η n (some F)
  | absent (hp : Pristine store id B η) : Entry P S store id B η n none

/-- The directory of a disk that no process uses. -/
structure Resting (P : Platform) (S : Set Bytes) (store : Client) (id : VolumeId) (B : Bucket)
    (η : History) (n : ℕ) (dir : Directory) : Prop where
  remote : Remote P S store id B η
  ordered : η.records.Pairwise Before
  fits : ∀ r ∈ η.records, Record.Fits η.count r
  flushed_le : n ≤ η.records.length
  entries : ∀ e ∈ dir.journal :: dir.others, Entry P S store id B η n e
  alone : dir.journal = none → dir.others = []

section Resting

variable {P : Platform} {S : Set Bytes} {B B' : Bucket} {store : Client} {id : VolumeId}
  {η η' : History} {A T : List Record} {n : ℕ} {s : State} {dir : Directory} {e : Option File}

/-- What a directory entry holds stays true of a later bucket. -/
theorem Entry.later (h : Entry P S store id B η n e) (hl : Later P B η B' η')
    (hrec : η'.records = η.records) (hsent : η'.sent = η.sent)
    (hp : Pristine store id B η → Pristine store id B' η') : Entry P S store id B' η' n e := by
  cases h with
  | journal hc hn => exact .journal (hc.later hl hrec hsent) hn
  | absent hpr => exact .absent (hp hpr)
  | draft hpr hd =>
    refine .draft (hp hpr) ⟨by rw [hl.journal]; exact hd.journal_length, ?_⟩
    rcases hd.bytes with hb | ⟨w, hb, k, hw, hwater, hh, hF⟩
    · exact Or.inl hb
    · exact Or.inr ⟨w, hb, k, hw.later hl, by rw [hl.journal]; exact hwater,
        by rw [hl.journal]; exact hh, hF⟩

/-- And so does the state at rest. -/
theorem Resting.later (h : Resting P S store id B η n dir) (hl : Later P B η B' η')
    (hrec : η'.records = η.records) (hsent : η'.sent = η.sent)
    (hp : Pristine store id B η → Pristine store id B' η') (hR : Remote P S store id B' η') :
    Resting P S store id B' η' n dir :=
  ⟨hR, by rw [hrec]; exact h.ordered, by rw [hrec, hl.count]; exact h.fits,
    by rw [hrec]; exact h.flushed_le, fun e he => (h.entries e he).later hl hrec hsent hp, h.alone⟩

/-- A crash leaves one of the entries, cut after its synced part. -/
theorem Resting.survivor (h : Resting P S store id B η n dir) (he : dir.Survivor e) :
    Resting P S store id B η n ⟨e, []⟩ := by
  refine ⟨h.remote, h.ordered, h.fits, h.flushed_le, ?_, fun _ => rfl⟩
  intro e' he'
  obtain rfl : e' = e := by simpa using he'
  rcases he with ⟨hmem, rfl⟩ | ⟨F, k, hmem, hk, rfl⟩
  · exact h.entries _ hmem
  · have hent := h.entries _ hmem
    generalize hG : some F = G at hent
    cases hent with
    | journal hc hn =>
      obtain rfl := Option.some.inj hG
      obtain ⟨j', tail', hc'⟩ := hc.cut h.fits hk
      exact .journal hc' hn
    | absent hpr => cases hG
    | draft hpr hd =>
      obtain rfl := Option.some.inj hG
      refine .draft hpr ⟨hd.journal_length, ?_⟩
      rcases hd.bytes with hb | ⟨w, hb, k', hw, hwater, hh, hF⟩
      · exact Or.inl (by simp only [hb, List.take_nil])
      · exact Or.inr ⟨w, hb, min k k', hw, hwater, hh, by simp only [hF, List.take_take]⟩

/-- A process that ends leaves its files. -/
theorem Running.rests (h : Running P S store id B η A T n s) :
    Resting P S store id B η n s.directory := by
  have hfile : Entry P S store id B η n (some s.file) := by
    obtain ⟨hd, m, j, d, tail, hf⟩ := h.file
    exact .journal hf.candidate hf.flushed
  have hren : ∀ F ∈ s.renamed, Entry P S store id B η n (some F) := by
    intro F hF
    obtain ⟨hd, m, j, d, tail, hf⟩ := h.renamed F hF
    exact .journal hf.candidate (h.flushed_le.trans hf.acked)
  refine ⟨h.remote, h.ledger.ordered, h.ledger.fits, ?_, ?_, ?_⟩
  · rw [h.ledger.records, List.length_append]
    exact h.flushed_le.trans (Nat.le_add_right _ _)
  · intro e he
    unfold State.directory at he
    rw [h.stale] at he
    split at he
    · obtain rfl : e = some s.file := by simpa using he
      exact hfile
    · rename_i newest older heq
      rw [heq] at hren
      simp only [List.append_nil, List.mem_cons, List.mem_map] at he
      rcases he with rfl | rfl | ⟨F, hF, rfl⟩
      · exact hren _ List.mem_cons_self
      · exact hfile
      · exact hren _ (List.mem_cons_of_mem _ hF)
  · intro hc
    unfold State.directory at hc
    split at hc <;> cases hc

end Resting

section Mounting

variable {P : Platform} {S : Set Bytes} {B : Bucket} {store : Client} {id : VolumeId}
  {η : History} {A T : List Record} {n : ℕ} {remote : IndexedVolume} {h : Header} {file : File}
  {stale : List (Option File)} {pending : BTreeMap ℕ Pending} {sequence : ℕ} {w : Rewrite}
  {dir' : Directory} {res : Result State}

/-- The history after the records that did not survive are given up. -/
theorem Ledger.drop_torn (hl : Ledger η A T) (P : Platform) (B : Bucket) :
    Later P B η B { η with records := A } ∧ Ledger { η with records := A } A [] := by
  refine ⟨⟨Bucket.Le.refl B, rfl, rfl, rfl, fun h => h, le_refl _, le_refl _,
    fun _ hq => (hl.upTo_eq hq).symm⟩, ⟨(List.append_nil A).symm, hl.acked, ?_, ?_⟩⟩
  · intro r hr
    exact hl.fits_acked hr
  · intro r hr
    cases hr

/-- The end of `open`, once the records of the journal are known. -/
theorem Remote.mount (hR : Remote P S store id B η) (hr : InHand P S store id B η remote)
    (hl : Ledger η A T) (hn : n ≤ A.length)
    (hfile : ∀ e ∈ some file :: stale, Entry P S store id B η n e)
    (hbound : ∀ s', State.accept ⟨h, file, [], stale, remote, pending, sequence, sequence, false⟩
      remote = .ok s' → Bound P S store id B η A s')
    (hok : mount P remote h file stale pending sequence w = (dir', res)) :
    (∀ e ∈ dir'.journal :: dir'.others, Entry P S store id B η n e) ∧ dir'.journal ≠ none ∧
      ∀ s, res = .ok s → s.failed = false ∧
        Running P S store id B { η with records := A } A [] A.length s := by
  unfold Local.mount at hok
  rw [hr.cleanCopy] at hok
  simp only at hok
  split at hok
  · obtain ⟨rfl, rfl⟩ := Prod.mk.inj hok
    exact ⟨hfile, (fun hc => by cases hc), fun s hc => by cases hc⟩
  rename_i s1 hacc
  have hb := hbound s1 hacc
  obtain ⟨ack, -, rfl⟩ := State.accept_cases hacc
  split at hok
  · rename_i t e hcomp
    obtain ⟨rfl, rfl⟩ := Prod.mk.inj hok
    rcases State.compact_cases hcomp with ⟨-, rfl | ⟨bytes, hj, rfl⟩⟩ | ⟨he, -⟩
    · exact ⟨hfile, (fun hc => by cases hc), fun s hc => by cases hc⟩
    · refine ⟨?_, (fun hc => by cases hc), fun s hc => by cases hc⟩
      intro e he
      rcases List.mem_cons.mp he with rfl | he
      · exact .journal (hb.candidate hl hj) hn
      · exact hfile e he
    · cases he
  · rename_i t hcomp
    obtain ⟨rfl, rfl⟩ := Prod.mk.inj hok
    obtain ⟨hlater, hledger⟩ := hl.drop_torn P B
    have hb' := hb.later hlater hb.sent_le
    have hbt := hb'.compact hcomp
    rcases State.compact_cases hcomp with ⟨⟨e, he⟩, -⟩ | ⟨-, bytes, hj, rfl⟩
    · cases he
    refine ⟨?_, (fun hc => by cases hc), ?_⟩
    · intro e he
      obtain rfl : e = some ⟨bytes, bytes.length⟩ := by simpa [State.directory] using he
      exact .journal (hb.candidate hl hj) hn
    · intro s hs
      obtain rfl := Except.ok.inj hs
      refine ⟨rfl, hR.later hlater hR.addressed rfl rfl rfl, hledger, hbt,
        (fun r hr => by cases hr), (fun hc => absurd rfl hc), le_refl _, ?_,
        (fun F hF => by cases hF), fun _ => rfl, rfl⟩
      exact ⟨_, _, _, _, _, hb'.candidate hledger hj, Nat.le_add_right _ _, le_refl _, le_refl _,
        le_newest _ _, fun _ => ⟨rfl, rfl⟩⟩

/-- A journal that was just created. -/
theorem Pristine.candidate (hp : Pristine store id B η) (hlen : η.journal.length = 32)
    {v : IndexedVolume} (hv : Known P S store id B η v) (hwater : water η.journal v.root = 0)
    {hb : Bytes} (hhb : headerBytes P ⟨id, η.journal, v.revision, 0, 0⟩ = .ok hb) :
    Candidate P S store id B η ⟨id, η.journal, v.revision, 0, 0⟩ 0 0 0 [] ⟨hb, hb.length⟩ := by
  refine ⟨⟨hb, hhb, ?_⟩, recordSize_pos, rfl, rfl, hlen, le_refl _, ⟨v, hv, rfl, hwater⟩, le_refl _,
    le_refl _, Nat.zero_le _, ?_, ?_, ?_, ?_⟩
  · simp [kept_zero]
  · rw [length_headerBytes hhb, List.take_zero, show squeeze 0 ([] : List Record) = [] from rfl]
    simp
  · rw [hp.records]
    intro r hr
    cases hr
  · intro r hr
    cases hr
  · rw [hp.sent]
    exact Nat.zero_le _

end Mounting

section Opening

variable {P : Platform} {S : Set Bytes} {B : Bucket} {store : Client} {id : VolumeId}
  {η : History} {n : ℕ} {dir dir' : Directory} {view : View} {random : Bytes} {c : Creation}
  {w : Rewrite} {res : Result State} {v remote : IndexedVolume} {journal : Hash}

theorem mark_wrap (store : Client) (r : Root) : mark (store.wrap r) = r.replication := by
  cases store <;> rfl

/-- Nothing has happened to a pristine volume. -/
theorem Pristine.after_eq (hp : Pristine store id B η) (q : ℕ) : η.after q = η.origin := by
  rw [History.after, hp.records]
  rfl

/-- A history in which nothing has happened may get another journal. -/
theorem Pristine.renew (hp : Pristine store id B η) (hv : Known P S store id B η v)
    (hun : water journal v.root = 0) : Known P S store id B { η with journal := journal } v := by
  refine ⟨⟨?_, ?_⟩, hv.dated, ?_⟩
  · have hs := hv.serves
    rw [hp.after_eq] at hs
    have hafter : History.after { η with journal := journal } (water journal v.root) = η.origin :=
      hp.after_eq (water journal v.root)
    simp only [hafter]
    exact hs
  · simp only [hun]
    exact Nat.zero_le _
  · simp only [hun]
    exact Nat.zero_le _

/-- A head without a mark of this journal has acknowledged nothing. -/
theorem water_of_unmarked {rev : Revision}
    (hhead : B.heads (store.space id) = some ⟨rev, store.wrap v.root⟩)
    (hun : Unmarked B (store.space id) journal) : water journal v.root = 0 := by
  unfold water
  cases hm : v.root.replication with
  | none => rfl
  | some r =>
    have hne := hun _ r hhead (by rw [mark_wrap, hm])
    simp [hne]

/-- A pristine volume may be given another journal. -/
theorem Remote.renew (h : Remote P S store id B η) (hp : Pristine store id B η)
    (hun : Unmarked B (store.space id) journal) :
    Remote P S store id B { η with journal := journal } ∧
      Pristine store id B { η with journal := journal } := by
  refine ⟨⟨h.addressed, ?_, fun q hq hsp => absurd hsp (hp.quiet q hq)⟩,
    ⟨hp.records, hp.sent, hp.floor, hp.quiet⟩⟩
  obtain ⟨v, hv, -, hhead⟩ := h.head
  have hw := water_of_unmarked hhead hun
  exact ⟨v, hp.renew hv hw, hw.trans hp.floor.symm, hhead⟩

/-- The number of blocks fits into 64 bits. -/
theorem Known.count_lt (hv : Known P S store id B η v) : η.count ≤ 2 ^ 64 := by
  have hok := hv.serves.holds.rootOk.size_le
  have hc := hv.serves.count_eq
  rw [IndexedVolume.chunkCount] at hc
  have : v.root.size / chunkBytes ≤ v.root.size := Nat.div_le_self _ _
  have : maxSize ≤ 2 ^ 64 := by decide
  omega

theorem Known.size_div (hv : Known P S store id B η v) : v.size / chunkBytes = η.count :=
  hv.serves.count_eq

/-- Opening a disk whose journal has the bytes of a candidate. -/
theorem Resting.open_journal {F file : File} {h h' : Header} {m j d : ℕ} {tail rest : Bytes}
    {acc : Replay} (hrest : Resting P S store id B η n dir)
    (hc : Candidate P S store id B η h m j d tail F) (hn : n ≤ d)
    (hr : InHand P S store id B η remote) (hfloor : water η.journal remote.root = η.floor)
    (hread : readHeader P id F.bytes = .ok (h', rest))
    (hreplay : replay P h' (remote.size / chunkBytes) (replayAck remote h') rest = .ok acc)
    (hentries : ∀ e ∈ some file :: dir.others, Entry P S store id B η n e)
    (hok : mount P remote h' file dir.others acc.pending acc.sequence w = (dir', res)) :
    (∀ e ∈ dir'.journal :: dir'.others, Entry P S store id B η n e) ∧ dir'.journal ≠ none ∧
      ∀ s, res = .ok s → s.failed = false ∧
        Running P S store id B { η with records := η.records.take (m + j) }
          (η.records.take (m + j)) [] (m + j) s := by
  rw [hc.readHeader_eq] at hread
  obtain ⟨rfl, rfl⟩ := Prod.mk.inj (Except.ok.inj hread)
  rw [hr.size_div, hc.replayAck_eq hfloor] at hreplay
  have hd := hc.durable
  have hlen : (η.records.take (m + j)).length = m + j := by
    rw [List.length_take, min_eq_left hc.bound]
  have hledger := ledger_take hrest.ordered hrest.fits hd hc.covered
  have hm := hrest.remote.mount hr hledger (n := n) (by omega) hentries
    (fun s' hacc => hc.mounts hrest.ordered hrest.fits hr.count_lt hr.toKnown hr.clean hr.sound
      hfloor hreplay rfl rfl rfl hacc) hok
  rwa [hlen] at hm

/-- A draft that can be read is complete. -/
theorem Draft.complete {F : File} {h' : Header} {rest : Bytes} (hd : Draft P S store id B η F)
    (hp : Pristine store id B η) (hread : readHeader P id F.bytes = .ok (h', rest)) :
    ∃ v, rest = [] ∧ Candidate P S store id B η ⟨id, η.journal, v, 0, 0⟩ 0 0 0 []
      ⟨F.bytes, F.bytes.length⟩ := by
  rcases hd.bytes with hb | ⟨v, hb, k, hv, hwater, hhb, hF⟩
  · rw [hb] at hread
    cases hread
  · rcases Nat.lt_or_ge k hb.length with hk | hk
    · rw [hF, readHeader_torn hhb hk] at hread
      cases hread
    · rw [List.take_of_length_le hk] at hF
      have hc := hp.candidate hd.journal_length hv hwater hhb
      refine ⟨v.revision, ?_, by rw [hF]; exact hc⟩
      have heq := hc.readHeader_eq
      simp only at heq
      rw [← hF, hread] at heq
      rw [(Prod.mk.inj (Except.ok.inj heq)).2, kept_zero]
      rfl

/-- Opening a disk at rest. -/
theorem Resting.opens (h : Resting P S store id B η n dir) (hs : view.Sound B)
    (hfresh : dir.journal = none → Unmarked B (store.space id) (P.digest random))
    (hok : openDisk P view store id random c w dir = (dir', res)) :
    ∃ η', η'.count = η.count ∧ η'.origin = η.origin ∧ η'.records = η.records ∧
      Resting P S store id B η' n dir' ∧
      ∀ s, res = .ok s → s.failed = false ∧ ∃ k, n ≤ k ∧ k ≤ η.records.length ∧
        Running P S store id B { η' with records := η.records.take k } (η.records.take k)
          [] k s := by
  have hsame : ∀ e : Error, ∃ η', η'.count = η.count ∧ η'.origin = η.origin ∧
      η'.records = η.records ∧ Resting P S store id B η' n dir ∧
      ∀ s, (.error e : Result State) = .ok s → s.failed = false ∧ ∃ k, n ≤ k ∧
        k ≤ η.records.length ∧ Running P S store id B { η' with records := η.records.take k }
          (η.records.take k) [] k s :=
    fun e => ⟨η, rfl, rfl, rfl, h, fun s hc => by cases hc⟩
  unfold openDisk at hok
  split at hok
  · obtain ⟨rfl, rfl⟩ := Prod.mk.inj hok
    exact hsame _
  rename_i remote hopen
  obtain ⟨hk, hclean, hsound, hfloor, hhead⟩ := h.remote.open_sound hs hopen
  have hr : InHand P S store id B η remote := ⟨hk, hclean, hsound⟩
  have hothers : ∀ e ∈ dir.others, Entry P S store id B η n e :=
    fun e he => h.entries e (List.mem_cons_of_mem _ he)
  split at hok
  · rename_i file hjournal
    split at hok
    · obtain ⟨rfl, rfl⟩ := Prod.mk.inj hok
      exact hsame _
    split at hok
    · obtain ⟨rfl, rfl⟩ := Prod.mk.inj hok
      exact hsame _
    rename_i h' rest hread
    split at hok
    · obtain ⟨rfl, rfl⟩ := Prod.mk.inj hok
      exact hsame _
    rename_i acc hreplay
    have hent := h.entries _ List.mem_cons_self
    rw [hjournal] at hent
    -- Whatever the journal is, opening it binds the disk to some of its records.
    obtain ⟨k, hnk, hk', hent', hne, hrun⟩ : ∃ k, n ≤ k ∧ k ≤ η.records.length ∧
        (∀ e ∈ dir'.journal :: dir'.others, Entry P S store id B η n e) ∧ dir'.journal ≠ none ∧
        ∀ s, res = .ok s → s.failed = false ∧
          Running P S store id B { η with records := η.records.take k } (η.records.take k)
            [] k s := by
      cases hent with
      | journal hc hn =>
        have := hc.durable
        refine ⟨_, by omega, hc.bound, h.open_journal hc hn hr hfloor hread hreplay ?_ hok⟩
        intro e he
        rcases List.mem_cons.mp he with rfl | he
        · rw [hc.readHeader_eq] at hread
          obtain ⟨-, rfl⟩ := Prod.mk.inj (Except.ok.inj hread)
          exact .journal (hc.dropTorn h.fits) hn
        · exact hothers e he
      | draft hp hd =>
        have hzero : n = 0 := by
          have := h.flushed_le
          rw [hp.records] at this
          simpa using this
        obtain ⟨rev, rfl, hc⟩ := hd.complete hp hread
        refine ⟨0 + 0, by omega, hc.bound, h.open_journal hc
          (by omega) hr hfloor hread hreplay ?_ hok⟩
        intro e he
        rcases List.mem_cons.mp he with rfl | he
        · have hbytes : dropTorn file.bytes [] = file.bytes := by
            rw [dropTorn, List.length_nil, Nat.zero_mod, Nat.sub_zero, List.take_length]
          rw [hbytes]
          exact .draft hp ⟨hd.journal_length, hd.bytes⟩
        · exact hothers e he
    exact ⟨η, rfl, rfl, rfl, ⟨h.remote, h.ordered, h.fits, h.flushed_le, hent',
      fun hc => absurd hc hne⟩, fun s hs => ⟨(hrun s hs).1, k, hnk, hk', (hrun s hs).2⟩⟩
  · rename_i hjournal
    have hent := h.entries _ List.mem_cons_self
    rw [hjournal] at hent
    cases hent with
    | absent hp =>
      have hnil := h.alone hjournal
      have hun := hfresh hjournal
      obtain ⟨hR, hp'⟩ := h.remote.renew hp hun
      have hwater := water_of_unmarked (v := remote) hhead hun
      have hk' := hp.renew hk hwater
      have hlen := P.digest_length random
      have hzero : n = 0 := by
        have := h.flushed_le
        rw [hp.records] at this
        simpa using this
      -- The new file may still be missing or incomplete after a crash.
      have hdraft : ∀ F : File, Draft P S store id B { η with journal := P.digest random } F →
          ∃ η', η'.count = η.count ∧ η'.origin = η.origin ∧ η'.records = η.records ∧
            Resting P S store id B η' n ⟨some F, none :: dir.others⟩ := by
        intro F hF
        refine ⟨{ η with journal := P.digest random }, rfl, rfl, rfl, hR, h.ordered, h.fits,
          h.flushed_le, ?_, fun hc => by cases hc⟩
        intro e he
        rw [hnil] at he
        rcases List.mem_cons.mp he with rfl | he
        · exact .draft hp' hF
        · obtain rfl : e = none := by simpa using he
          exact .absent hp'
      simp only at hok
      split at hok
      · obtain ⟨rfl, rfl⟩ := Prod.mk.inj hok
        obtain ⟨η', h1, h2, h3, h4⟩ := hdraft ⟨[], 0⟩ ⟨hlen, Or.inl rfl⟩
        exact ⟨η', h1, h2, h3, h4, fun s hc => by cases hc⟩
      rename_i bytes hbytes
      cases c with
      | torn k =>
        obtain ⟨rfl, rfl⟩ := Prod.mk.inj hok
        obtain ⟨η', h1, h2, h3, h4⟩ := hdraft ⟨bytes.take k, 0⟩
          ⟨hlen, Or.inr ⟨remote, bytes, k, hk', hwater, hbytes, rfl⟩⟩
        exact ⟨η', h1, h2, h3, h4, fun s hc => by cases hc⟩
      | unsynced =>
        obtain ⟨rfl, rfl⟩ := Prod.mk.inj hok
        obtain ⟨η', h1, h2, h3, h4⟩ := hdraft ⟨bytes, 0⟩
          ⟨hlen, Or.inr ⟨remote, bytes, bytes.length, hk', hwater, hbytes, by simp⟩⟩
        exact ⟨η', h1, h2, h3, h4, fun s hc => by cases hc⟩
      | done =>
        have hrest : Resting P S store id B { η with journal := P.digest random } n dir := by
          refine ⟨hR, h.ordered, h.fits, h.flushed_le, ?_, h.alone⟩
          intro e he
          rw [hjournal, hnil] at he
          obtain rfl : e = none := by simpa using he
          exact .absent hp'
        have hc := hp'.candidate hlen hk' hwater hbytes
        have hfile : ∀ e ∈ some (File.mk bytes bytes.length) :: dir.others,
            Entry P S store id B { η with journal := P.digest random } n e := by
          intro e he
          rw [hnil] at he
          obtain rfl : e = some ⟨bytes, bytes.length⟩ := by simpa using he
          exact .journal hc (by omega)
        simp only [← hnil] at hok
        have hread := hc.readHeader_eq
        rw [kept_zero, List.flatMap_nil, List.nil_append] at hread
        obtain ⟨hent', hne, hrun⟩ := hrest.open_journal hc (by omega) ⟨hk', hclean, hsound⟩
          (hwater.trans hp.floor.symm) hread (replay_nil _ _ _) hfile hok
        exact ⟨{ η with journal := P.digest random }, rfl, rfl, rfl, ⟨hR, h.ordered, h.fits,
          h.flushed_le, hent', fun hc => absurd hc hne⟩,
          fun s hs => ⟨(hrun s hs).1, 0 + 0, by omega, hc.bound, (hrun s hs).2⟩⟩

/-- A header that fits is written. -/
theorem headerBytes_fits {h : Header} (hfits : (P.headerJson h).length ≤ headerLimit) :
    ∃ bytes, headerBytes P h = .ok bytes := ⟨_, if_neg (Nat.not_lt.mpr hfits)⟩

/-- A journal that can be read and replayed is bound to the remote volume. -/
theorem openDisk_journal {file : File} {h : Header} {rest : Bytes} {acc : Replay}
    (hopen : IndexedVolume.open P view store id = .ok remote) (hdir : dir.journal = some file)
    (hlength : file.bytes.length ≤ logLimit)
    (hheader : readHeader P id file.bytes = .ok (h, rest))
    (hreplay : replay P h (remote.size / chunkBytes) (replayAck remote h) rest = .ok acc) :
    openDisk P view store id random c w dir =
      Local.mount P remote h ⟨dropTorn file.bytes rest, file.synced⟩ dir.others acc.pending
        acc.sequence w := by
  simp only [openDisk, hopen, hdir, if_neg (Nat.not_lt.mpr hlength), hheader, hreplay]

/-- A journal that the remote volume accepts and whose new header fits is rewritten. -/
theorem mount_succeeds {file : File} {h : Header} {stale : List (Option File)}
    {pending : BTreeMap ℕ Pending} {sequence ack : ℕ} {bytes : Bytes}
    (hclean : remote.dirty = ∅) (hsound : remote.poisoned = false)
    (haccepted : State.accepted ⟨h, file, [], stale, remote, pending, sequence, sequence, false⟩
      remote = some ack)
    (hbytes : headerBytes P ⟨h.volume, h.id, remote.revision, ack, sequence⟩ = .ok bytes) :
    ∃ dir' s, Local.mount P remote h file stale pending sequence .done = (dir', .ok s) := by
  have hcopy : remote.cleanCopy = .ok remote := by
    rw [IndexedVolume.cleanCopy, check_of hsound (Nat.zero_le _)]
    simp only
    rw [if_pos (by rw [hclean]; simp), ← hclean, ← hsound]
  simp only [Local.mount, hcopy, State.accept, haccepted, State.compact, State.compactInner,
    State.stamped, State.journalBytes, hbytes]
  exact ⟨_, _, rfl⟩

end Opening

end AgentHouse.Local
