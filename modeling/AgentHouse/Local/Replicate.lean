import AgentHouse.Local.Machine

/-!
# Replication rounds

What the sections of a replication round and a pass of `compact_remote` do to the remote
volume. The snapshot holds whole chunks and fits into the dirty map, so the upload buffers it
without a read and without an intermediate commit, and what is published is the snapshot over
the version that was opened.
-/

namespace AgentHouse.Local

open Volume IndexedVolume

section Uploading

variable {P : Platform} {B : Bucket} {φ : Faults} {v : IndexedVolume}

/-- An upload of one chunk is one write. -/
theorem uploadEntries_single {v' : IndexedVolume} {i : ℕ} {p : Pending}
    (hwrite : v.write P B φ (i * chunkBytes) p.bytes = (B, v', .ok ())) :
    uploadEntries P φ [(i, p)] B v = (B, v', .ok ()) := by
  simp only [uploadEntries, hwrite]

/-- Once the entries are buffered, they are published. -/
theorem upload_of_entries {B' : Bucket} {v' : IndexedVolume} {t : Snapshot}
    (hok : uploadEntries P φ t.entries.toList B v = (B', v', .ok ())) :
    upload P B φ v t = v'.commitReplication P B' φ t.mark := by
  simp only [upload, hok]

/-- The entries of a snapshot as records. -/
def asRecord (e : ℕ × Pending) : Record := ⟨e.2.sequence, e.1, e.2.bytes⟩

/-- The upload buffers the entries and does nothing else. -/
theorem uploadEntries_eq {L : List (ℕ × Pending)} (hp : v.poisoned = false)
    (hL : ∀ e ∈ L, e.1 * chunkBytes + chunkBytes ≤ v.root.size ∧ e.2.bytes.length = chunkBytes)
    (hfit : (v.dirty.size + L.length) * chunkBytes ≤ dirtyLimit) :
    ∃ d, uploadEntries P φ L B v = (B, { v with dirty := d }, .ok ()) ∧
      ∀ i : ℕ, d[i]? = ((lastOf (L.map asRecord) i).map Update.value).or v.dirty[i]? := by
  induction L generalizing v with
  | nil => exact ⟨v.dirty, rfl, by simp⟩
  | cons e rest ih =>
    obtain ⟨k, p⟩ := e
    obtain ⟨hr, hb⟩ := hL (k, p) List.mem_cons_self
    rw [List.length_cons] at hfit
    have hstep := @write_whole P B v φ _ _ hp hb hr
      (le_trans (Nat.mul_le_mul_right _ (by omega)) hfit)
    have hsize : (v.dirty ∪ (∅ : BTreeMap ℕ Bytes).insert k p.bytes).size ≤ v.dirty.size + 1 := by
      refine Std.ExtTreeMap.size_union_le_size_add_size.trans ?_
      rw [Std.ExtTreeMap.size_insert]
      simp
    obtain ⟨d, hd, hget⟩ := ih
      (v := { v with dirty := v.dirty ∪ (∅ : BTreeMap ℕ Bytes).insert k p.bytes }) hp
      (fun e he => hL e (List.mem_cons_of_mem _ he))
      (le_trans (Nat.mul_le_mul_right _ (by simp only; omega)) hfit)
    refine ⟨d, ?_, fun i => ?_⟩
    · rw [uploadEntries, hstep]
      exact hd
    · rw [hget i, List.map_cons, lastOf_cons]
      cases lastOf (rest.map asRecord) i with
      | some r => rfl
      | none =>
        simp only [Option.map_none, Option.none_or, asRecord]
        rw [Std.ExtTreeMap.getElem?_union, Std.ExtTreeMap.getElem?_insert]
        by_cases hk : k = i
        · simp only [hk, Std.ReflCmp.compare_self, if_true, Option.some_or, Option.map_some]
        · simp [hk]

end Uploading

section Rounds

variable {P : Platform} {S : Set Bytes} {B B' : Bucket} {store : Client} {id : VolumeId}
  {η η' : History} {remote remote' : IndexedVolume} {t : Snapshot} {φ : Faults}

/-- A published version that can be accepted. -/
structure InHand (P : Platform) (S : Set Bytes) (store : Client) (id : VolumeId) (B : Bucket)
    (η : History) (remote : IndexedVolume) : Prop extends Known P S store id B η remote where
  clean : remote.dirty = ∅
  sound : remote.poisoned = false

/-- A snapshot leads from the version in hand to the records up to its mark. -/
structure SnapshotOk (P : Platform) (S : Set Bytes) (store : Client) (id : VolumeId) (B : Bucket)
    (η : History) (remote : IndexedVolume) (t : Snapshot) : Prop
    extends InHand P S store id B η remote where
  journal : t.mark.id = η.journal
  journal_length : η.journal.length = 32
  mark_ne : t.mark.sequence ≠ 0
  mark_sent : t.mark.sequence ≤ η.sent
  newer : water η.journal remote.root ≤ t.mark.sequence
  entries : PendingOk η.count t.entries
  room : t.entries.size * chunkBytes ≤ dirtyLimit
  shows : ∀ i : ℕ, ((t.entries[i]?).map Pending.bytes).getD
    (η.after (water η.journal remote.root) i) = η.after t.mark.sequence i

/-- What a replication round may rely on between its sections. -/
def Worker.Ok (P : Platform) (S : Set Bytes) (store : Client) (id : VolumeId) (B : Bucket)
    (η : History) : Worker → Prop
  | .idle => True
  | .begun => True
  | .opened remote => InHand P S store id B η remote
  | .snapshot remote t => SnapshotOk P S store id B η remote t
  | .committed remote => InHand P S store id B η remote

/-- A version in hand stays one. -/
theorem InHand.later (h : InHand P S store id B η remote) (hl : Later P B η B' η') :
    InHand P S store id B' η' remote :=
  ⟨h.toKnown.later hl, h.clean, h.sound⟩

/-- A snapshot stays one. -/
theorem SnapshotOk.later (h : SnapshotOk P S store id B η remote t) (hl : Later P B η B' η') :
    SnapshotOk P S store id B' η' remote t := by
  refine ⟨h.toInHand.later hl, h.journal.trans hl.journal.symm,
    by rw [hl.journal]; exact h.journal_length, h.mark_ne, h.mark_sent.trans hl.sent,
    by rw [hl.journal]; exact h.newer, by rw [hl.count]; exact h.entries, h.room, fun i => ?_⟩
  rw [hl.journal, hl.after_eq h.sent, hl.after_eq h.mark_sent]
  exact h.shows i

/-- So does what the worker holds. -/
theorem Worker.Ok.later {worker : Worker} (h : worker.Ok P S store id B η)
    (hl : Later P B η B' η') : worker.Ok P S store id B' η' := by
  cases worker with
  | idle => trivial
  | begun => trivial
  | opened remote => exact InHand.later h hl
  | snapshot remote t => exact SnapshotOk.later h hl
  | committed remote => exact InHand.later h hl

/-- `commit_replication` gives up at once or commits with the mark. -/
theorem commitReplication_cases {v v' : IndexedVolume} {m : Replication} {res : Result ℕ}
    (hok : v.commitReplication P B φ m = (B', v', res)) :
    (B' = B ∧ ∃ e, res = .error e) ∨ m.sequence ≠ 0 ∧ m.id.length = 32 ∧
      Outcome P B (φ.view B) φ.delivery v (v.nextRoot (some m)) false B' v' res := by
  unfold IndexedVolume.commitReplication at hok
  split at hok
  · obtain ⟨rfl, -, rfl⟩ := by simpa using hok
    exact Or.inl ⟨rfl, _, rfl⟩
  · rename_i hvalid
    rw [not_or] at hvalid
    unfold IndexedVolume.commitInner at hok
    split at hok
    · obtain ⟨rfl, -, rfl⟩ := by simpa using hok
      exact Or.inl ⟨rfl, _, rfl⟩
    rw [if_neg (by simp)] at hok
    split at hok
    · obtain ⟨rfl, -, rfl⟩ := by simpa using hok
      exact Or.inl ⟨rfl, _, rfl⟩
    · refine Or.inr ⟨hvalid.2, ?_, commitFrom_outcome hok⟩
      have hid := hvalid.1
      simp only [validHash] at hid
      simpa using hid

/-- Uploading a snapshot keeps the remote volume in order, and what it publishes can be
accepted. -/
theorem Remote.upload (h : Remote P S store id B η) (ht : SnapshotOk P S store id B η remote t)
    (hideal : P.Ideal S) (hs : ∀ B, (φ.view B).Sound B)
    (hS : ∀ B' v, uploadEntries P φ t.entries.toList B remote = (B', v, .ok ()) →
      ∀ b ∈ v.hashed P (φ.view B') false, b ∈ S) {res : Result ℕ}
    (hok : Local.upload P B φ remote t = (B', remote', res)) :
    ∃ η', Later P B η B' η' ∧ Remote P S store id B' η' ∧ η'.records = η.records ∧
      η'.sent = η.sent ∧ (Worker.uploaded remote' res).Ok P S store id B' η' := by
  have hsize : remote.root.size = η.count * chunkBytes := by
    rw [← ht.serves.count_eq]
    exact ht.serves.holds.size_eq
  obtain ⟨d, hup, hget⟩ := @uploadEntries_eq P B φ _ t.entries.toList
    ht.sound (fun e he => by
      obtain ⟨hi, hb⟩ := ht.entries e.1 e.2 (Std.ExtTreeMap.mem_toList_iff_getElem?_eq_some.mp he)
      refine ⟨?_, hb⟩
      rw [hsize, ← Nat.succ_mul]
      exact Nat.mul_le_mul_right _ hi) (by
      rw [ht.clean, Std.ExtTreeMap.length_toList]
      simpa using ht.room)
  have hentry : ∀ i : ℕ, d[i]? = (t.entries[i]?).map Pending.bytes := by
    intro i
    rw [hget i, ht.clean, ← lastOf_recordsIn, recordsIn, Option.map_map]
    simp only [Std.ExtTreeMap.getElem?_empty, Option.or_none]
    rfl
  unfold Local.upload at hok
  rw [hup] at hok
  simp only at hok
  rcases commitReplication_cases hok with ⟨rfl, e, rfl⟩ | ⟨hne, hlen, ho⟩
  · exact ⟨η, Later.refl P _ η, h, rfl, rfl, trivial⟩
  · have hd : DirtyOk { remote with dirty := d } := by
      intro i b hb
      simp only at hb
      rw [hentry i] at hb
      cases he : t.entries[i]? with
      | none => simp [he] at hb
      | some p =>
        obtain ⟨hi, hlen⟩ := ht.entries i p he
        rw [he, Option.map_some] at hb
        rw [← Option.some.inj hb]
        refine ⟨?_, hlen⟩
        have hcount : remote.chunkCount = η.count := ht.serves.count_eq
        rw [← hcount] at hi
        exact hi
    have hover : ∀ i < η.count, IndexedVolume.over { remote with dirty := d }
        (η.after (water η.journal remote.root)) i = η.after t.mark.sequence i := by
      intro i _
      simp only [IndexedVolume.over]
      rw [hentry i]
      exact ht.shows i
    have hroot : RootOk (IndexedVolume.root { remote with dirty := d }) := ht.serves.holds.rootOk
    have hwater : water η.journal
        (IndexedVolume.nextRoot { remote with dirty := d } (some t.mark)) = t.mark.sequence := by
      simp [water, IndexedVolume.nextRoot, ht.journal]
    obtain ⟨η', hl, hR, hrec, hsent, hres⟩ := h.outcome ht.toKnown hideal hd (hs B)
      (hS _ _ hup) (continues_nextRoot hroot (fun m hm => by
        obtain rfl := Option.some.inj hm
        exact ⟨hlen, hne⟩)) hwater ht.newer ht.mark_sent hover ho
    refine ⟨η', hl, hR, hrec, hsent, ?_⟩
    cases res with
    | error e => trivial
    | ok g =>
      obtain ⟨hk, hclean, hpois, -⟩ := hres g rfl
      exact ⟨hk, hclean, hpois.trans ht.sound⟩

/-- A pass of `compact_packs` from the head keeps the remote volume in order, and its result
has the same records. -/
theorem Remote.compactPacks (h : Remote P S store id B η) (hr : InHand P S store id B η remote)
    (hideal : P.Ideal S) (hs : ∀ B, (φ.view B).Sound B) {after : Option CompactionCursor}
    {budget : ℕ} (hS : ∀ b ∈ remote.passHashed P (φ.view B) after budget, b ∈ S)
    {res : Result Compaction}
    (hok : remote.compactPacks P B φ after budget = (B', remote', res)) :
    ∃ η', Later P B η B' η' ∧ Remote P S store id B' η' ∧ η'.records = η.records ∧
      η'.sent = η.sent ∧ ∀ c, res = .ok c → c.rewrittenBlocks ≠ 0 →
        InHand P S store id B' η' remote' ∧
          water η.journal remote'.root = water η.journal remote.root := by
  rcases compactPacks_cases hr.serves.holds hideal h.addressed (hs B) hr.clean hok with
    ⟨rfl, rfl, hz⟩ | ⟨dirty, v1, r, hrest, hpass, ho, hcase⟩
  · exact ⟨η, Later.refl P _ η, h, rfl, rfl, fun c hc hne => absurd (hz c hc) hne⟩
  · have hcount := hr.serves.count_eq
    have hd : DirtyOk { remote with dirty := dirty } := by
      intro i b hb
      obtain ⟨hi, rfl⟩ := hrest i b hb
      exact ⟨hi, hr.serves.holds.length_eq hi⟩
    have hover : ∀ i < η.count, IndexedVolume.over { remote with dirty := dirty }
        (η.after (water η.journal remote.root)) i = η.after (water η.journal remote.root) i := by
      intro i _
      simp only [IndexedVolume.over]
      cases hb : dirty[i]? with
      | none => rfl
      | some b => exact (hrest i b hb).2
    have hroot : RootOk (IndexedVolume.root { remote with dirty := dirty }) :=
      hr.serves.holds.rootOk
    obtain ⟨η', hl, hR, hrec, hsent, hres⟩ := h.outcome hr.toKnown hideal hd (hs B)
      (fun b hb => hS b (hpass b hb)) (continues_self hroot) rfl (le_refl _) hr.sent hover ho
    refine ⟨η', hl, hR, hrec, hsent, fun c hc _ => ?_⟩
    rcases hcase with ⟨g, c', rfl, -, -, rfl⟩ | ⟨e, -, he, -⟩
    · obtain ⟨hk, hclean, hpois, hwater⟩ := hres g rfl
      exact ⟨⟨hk, hclean, hpois.trans hr.sound⟩, hwater⟩
    · rw [he] at hc
      cases hc

end Rounds

end AgentHouse.Local
