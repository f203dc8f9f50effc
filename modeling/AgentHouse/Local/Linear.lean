import AgentHouse.Local.Recovering
import AgentHouse.Volume.First

/-!
# What a journalled disk guarantees

Every step of a disk keeps the invariant that its state belongs to the records of its journal.
Two guarantees follow. While the disk is open, reads return what the acknowledged writes have
produced, whatever the replication round does at the same time. And after a crash, the disk
opens with the contents after some number of records, among them all that were flushed.
-/

namespace AgentHouse.Local

open Volume IndexedVolume

section Contents

variable {P : Platform} {S : Set Bytes} {B : Bucket} {store : Client} {id : VolumeId}
  {η : History} {A T : List Record} {n : ℕ} {s : State}

/-- A chunk of the remote volume, read through a store that answers. -/
theorem Bound.read_reader (hb : Bound P S store id B η A s) {i : ℕ} (hi : i < η.count) :
    s.reader.read P B.view (i * chunkBytes) chunkBytes =
      .ok (η.after s.header.acknowledged i) := by
  have hs := hb.reader.serves
  rw [hb.ack] at hs
  have hsize := hs.holds.size_eq
  rw [hs.count_eq] at hsize
  have hr : i * chunkBytes + chunkBytes ≤ s.reader.root.size := by
    rw [hsize, ← Nat.succ_mul]
    exact Nat.mul_le_mul_right _ hi
  rw [hs.holds.read_healthy (dirtyOk_empty hb.clean) B.view_healthy hb.sound hr (by decide),
    over_empty hb.clean]
  have hwin := slice_eq_window (f := η.after s.header.acknowledged) (w := 0) (n := chunkBytes)
    (hs.length_eq hi) (by omega)
  rw [Nat.add_zero] at hwin
  rw [← hwin, slice_eq_self (hs.length_eq hi)]

/-- What an open disk shows. -/
theorem Bound.contents_eq (hb : Bound P S store id B η A s) (hl : Ledger η A T)
    (hfail : s.failed = false) {i : ℕ} (hi : i < η.count) :
    s.contents P B i = applied η.origin A i := by
  have hreads := hb.reads hl
  have hover := hb.over_eq hl
  have hsize := hreads.size_eq
  have hcheck : s.check (i * chunkBytes) chunkBytes = .ok () := by
    unfold State.check
    have hle : i * chunkBytes + chunkBytes ≤ s.reader.root.size := by
      rw [hsize, ← Nat.succ_mul]
      exact Nat.mul_le_mul_right _ hi
    have hlimit : chunkBytes ≤ writeLimit := by decide
    rw [hfail, if_neg (by simp), if_neg]
    rw [IndexedVolume.size]
    omega
  have hread : s.read P B.view (i * chunkBytes) chunkBytes =
      .ok (s.over (η.after s.header.acknowledged) i) := by
    unfold State.read
    rw [hcheck]
    simp only
    rw [segments_whole chunkBytes_pos, State.gather, State.gather]
    cases hp : s.pending[i]? with
    | some p =>
      simp only [hp, List.append_nil, State.over]
      rw [slice_eq_self (hb.pendingOk hl i p hp).2]
      rfl
    | none =>
      simp only [hp, Nat.add_zero, hb.read_reader hi, List.append_nil, State.over]
      rfl
  rw [State.contents, hread, ← hover]

end Contents

section Invariant

variable {P : Platform} {S : Set Bytes} {store : Client} {id : VolumeId} {σ σ' : System}
  {η : History} {old : List Record}

/-- The program's part of the invariant. -/
def Mode.Ok (P : Platform) (S : Set Bytes) (store : Client) (id : VolumeId) (B : Bucket)
    (η : History) (old log torn : List Record) (flushed : ℕ) : Mode → Prop
  | .closed dir => Resting P S store id B η (old.length + flushed) dir ∧
      η.records = old ++ log ++ torn
  | .running s worker =>
      Running P S store id B η (old ++ log) torn (old.length + flushed) s ∧
        worker.Ok P S store id B η

/-- The records of the journal are those from before the disk was opened, those of the
acknowledged writes since then and those of a failed write. -/
structure System.Inv (P : Platform) (S : Set Bytes) (store : Client) (id : VolumeId)
    (σ : System) (η : History) (old : List Record) : Prop where
  start : ∀ i < η.count, σ.start i = applied η.origin old i
  array : ∀ x < η.count * chunkBytes,
    σ.array x = flat chunkBytes (applied η.origin (old ++ σ.log)) x
  flushed : σ.flushed ≤ σ.log.length
  mode : σ.mode.Ok P S store id σ.bucket η old σ.log σ.torn σ.flushed

/-- The invariant of a disk that runs. -/
theorem System.Inv.running {s : State} {worker : Worker} (h : σ.Inv P S store id η old)
    (hm : σ.mode = .running s worker) :
    Running P S store id σ.bucket η (old ++ σ.log) σ.torn (old.length + σ.flushed) s ∧
      worker.Ok P S store id σ.bucket η := by
  have := h.mode
  rw [hm] at this
  exact this

/-- The invariant of a directory at rest. -/
theorem System.Inv.closed {dir : Directory} (h : σ.Inv P S store id η old)
    (hm : σ.mode = .closed dir) :
    Resting P S store id σ.bucket η (old.length + σ.flushed) dir ∧
      η.records = old ++ σ.log ++ σ.torn := by
  have := h.mode
  rw [hm] at this
  exact this

/-- A step that leaves the records as they are. -/
theorem System.Inv.enter {η' : History} {B : Bucket} {mode : Mode} (h : σ.Inv P S store id η old)
    (hcount : η'.count = η.count) (horigin : η'.origin = η.origin)
    (hm : mode.Ok P S store id B η' old σ.log σ.torn σ.flushed) :
    (σ.enter B mode).Inv P S store id η' old :=
  ⟨by rw [hcount, horigin]; exact h.start, by rw [hcount, horigin]; exact h.array, h.flushed, hm⟩

/-- A step that makes all acknowledged records durable. -/
theorem System.Inv.durable {s : State} {worker : Worker} (h : σ.Inv P S store id η old)
    (hm : σ.mode = .running s worker)
    (hrun : Running P S store id σ.bucket η (old ++ σ.log) σ.torn (old ++ σ.log).length s) :
    σ.durable.Inv P S store id η old := by
  refine ⟨h.start, h.array, le_refl _, ?_⟩
  have hwork := (h.running hm).2
  simp only [System.durable, hm]
  rw [List.length_append] at hrun
  exact ⟨hrun, hwork⟩

/-- A step that ends with a barrier. -/
theorem System.Inv.barrier {α : Type} {η' : History} {s : State} {worker : Worker}
    {res : Result α} (h : σ.Inv P S store id η old) (hcount : η'.count = η.count)
    (horigin : η'.origin = η.origin)
    (hrun : Running P S store id σ.bucket η' (old ++ σ.log) σ.torn (old.length + σ.flushed) s)
    (hwork : worker.Ok P S store id σ.bucket η')
    (hok : (∃ a, res = .ok a) →
      Running P S store id σ.bucket η' (old ++ σ.log) σ.torn (old ++ σ.log).length s) :
    ((σ.enter σ.bucket (.running s worker)).barrier res).Inv P S store id η' old := by
  have hnext : (σ.enter σ.bucket (.running s worker)).Inv P S store id η' old :=
    h.enter hcount horigin ⟨hrun, hwork⟩
  cases res with
  | error e => exact hnext
  | ok a => exact hnext.durable rfl (hok ⟨a, rfl⟩)

/-- The store changes while the disk is in any mode. -/
theorem System.Inv.later {η' : History} {B : Bucket} (h : σ.Inv P S store id η old)
    (hl : Later P σ.bucket η B η') (hrec : η'.records = η.records) (hsent : η'.sent = η.sent)
    (hp : Pristine store id σ.bucket η → Pristine store id B η')
    (hR : Remote P S store id B η') : (σ.enter B σ.mode).Inv P S store id η' old := by
  refine h.enter hl.count hl.origin ?_
  cases hm : σ.mode with
  | closed dir =>
    obtain ⟨hrest, hrecs⟩ := h.closed hm
    exact ⟨hrest.later hl hrec hsent hp hR, hrec.trans hrecs⟩
  | running s worker =>
    obtain ⟨hrun, hwork⟩ := h.running hm
    exact ⟨hrun.later hl hrec hsent hR, hwork.later hl⟩

/-- The remote volume is in order in any mode. -/
theorem System.Inv.remote (h : σ.Inv P S store id η old) :
    Remote P S store id σ.bucket η := by
  cases hm : σ.mode with
  | closed dir => exact (h.closed hm).1.remote
  | running s worker => exact (h.running hm).1.remote

/-- A write appends to the journal, or the disk is failed. -/
theorem System.Inv.write {s s' : State} {worker : Worker} {view : View} {pos : ℕ} {input : Bytes}
    {w : Rewrite} {a : Append} {res : Result Unit} (h : σ.Inv P S store id η old)
    (hm : σ.mode = .running s worker) (hs : view.Sound σ.bucket)
    (hok : s.write P view pos input w a = (s', res)) :
    ∃ η', (σ.wrote s' worker (s.written P view pos input w a) pos input res).Inv
      P S store id η' old := by
  obtain ⟨hrun, hwork⟩ := h.running hm
  obtain ⟨η', hl, -, hdone, hfail⟩ := hrun.write hs hok
  refine ⟨η', ?_⟩
  cases res with
  | ok u =>
    obtain ⟨hrun', hflat⟩ := hdone rfl
    rw [List.append_assoc] at hrun' hflat
    refine ⟨by rw [hl.count, hl.origin]; exact h.start, ?_, ?_, hrun', hwork.later hl⟩
    · intro x hx
      rw [hl.count] at hx
      simp only [System.wrote]
      rw [hl.origin, hflat]
      unfold overwrite
      rw [h.array x hx]
    · simp only [System.wrote, List.length_append]
      exact h.flushed.trans (Nat.le_add_right _ _)
  | error e =>
    exact ⟨by rw [hl.count, hl.origin]; exact h.start, by rw [hl.count, hl.origin]; exact h.array,
      h.flushed, hfail e rfl, hwork.later hl⟩

/-- Opening the disk. The contents are those after some number of records. -/
theorem System.Inv.reopened {dir dir' : Directory} {view : View} {random : Bytes} {c : Creation}
    {w : Rewrite} {s : State} (h : σ.Inv P S store id η old) (hm : σ.mode = .closed dir)
    (hs : view.Sound σ.bucket)
    (hfresh : dir.journal = none → Unmarked σ.bucket (store.space id) (P.digest random))
    (hok : openDisk P view store id random c w dir = (dir', .ok s)) :
    ∃ η' k, σ.flushed ≤ k ∧ k ≤ (σ.log ++ σ.torn).length ∧
      (σ.reopened P s).Inv P S store id η' (old ++ (σ.log ++ σ.torn).take k) ∧
      η'.count = η.count ∧ η'.origin = η.origin := by
  obtain ⟨hrest, hrec⟩ := h.closed hm
  obtain ⟨η', hcount, horigin, -, -, hopen⟩ := hrest.opens hs hfresh hok
  obtain ⟨hfail, k, hnk, hk, hrun⟩ := hopen s rfl
  have hrun' : Running P S store id σ.bucket { η' with records := η.records.take k }
      (η.records.take k) [] (η.records.take k).length s := by
    rw [List.length_take, min_eq_left hk]
    exact hrun
  have htake : η.records.take k = old ++ (σ.log ++ σ.torn).take (k - old.length) := by
    rw [hrec, List.append_assoc, List.take_append, List.take_of_length_le (by omega)]
  rw [htake] at hrun'
  have hklen : k - old.length ≤ (σ.log ++ σ.torn).length := by
    rw [hrec, List.append_assoc, List.length_append] at hk
    omega
  refine ⟨{ η' with records := old ++ (σ.log ++ σ.torn).take (k - old.length) }, k - old.length,
    by omega, hklen, ⟨?_, ?_, le_refl _, ?_⟩, hcount, horigin⟩
  · intro i hi
    exact hrun'.bound.contents_eq hrun'.ledger hfail hi
  · intro x hx
    simp only [System.reopened, List.append_nil]
    refine flat_congr ?_
    exact hrun'.bound.contents_eq hrun'.ledger hfail
      ((Nat.div_lt_iff_lt_mul chunkBytes_pos).mpr hx)
  · simp only [System.reopened, Mode.Ok, List.append_nil, Nat.add_zero]
    exact ⟨hrun', trivial⟩

/-- Every step keeps the invariant. -/
theorem System.Inv.step (hideal : P.Ideal S) (h : σ.Inv P S store id η old)
    (hstep : System.Step P S store id σ σ') : ∃ η' old', σ'.Inv P S store id η' old' := by
  cases hstep with
  | write hm hs hok =>
    obtain ⟨η', hinv⟩ := h.write hm hs hok
    exact ⟨η', old, hinv⟩
  | flush hm hok =>
    obtain ⟨hrun, hwork⟩ := h.running hm
    obtain ⟨hrun', hdone⟩ := hrun.flush hok
    exact ⟨η, old, h.barrier rfl rfl hrun' hwork (fun hc => hdone (by
      obtain ⟨u, hc⟩ := hc
      exact hc))⟩
  | begin hm _ => exact ⟨η, old, h.enter rfl rfl ⟨(h.running hm).1, trivial⟩⟩
  | nothing hm hok => exact ⟨η, old, h.durable hm ((h.running hm).1.nothing hok)⟩
  | connect hm hs hok =>
    obtain ⟨hrun, -⟩ := h.running hm
    obtain ⟨hk, hclean, hsound, -, -⟩ := hrun.remote.open_sound hs hok
    exact ⟨η, old, h.enter rfl rfl ⟨hrun, hk, hclean, hsound⟩⟩
  | @reconcile s s' remote synced w t hm hok =>
    obtain ⟨hrun, hwork⟩ := h.running hm
    obtain ⟨η', hl, -, hrun', -, hsnap⟩ := hrun.reconcile hwork hok
    exact ⟨η', old, h.enter hl.count hl.origin ⟨hrun', hsnap t rfl⟩⟩
  | reconciled hm hok _ =>
    obtain ⟨hrun, hwork⟩ := h.running hm
    obtain ⟨η', hl, -, hrun', hdone, -⟩ := hrun.reconcile hwork hok
    exact ⟨η', old, h.barrier hl.count hl.origin hrun' trivial hdone⟩
  | upload hm hs hS hok =>
    obtain ⟨hrun, hwork⟩ := h.running hm
    obtain ⟨η', hl, hR, hrec, hsent, hwork'⟩ := hrun.remote.upload hwork hideal hs hS hok
    exact ⟨η', old, h.enter hl.count hl.origin ⟨hrun.later hl hrec hsent hR, hwork'⟩⟩
  | settle hm hok =>
    obtain ⟨hrun, hwork⟩ := h.running hm
    obtain ⟨hrun', hdone⟩ := hrun.settle hwork hok
    exact ⟨η, old, h.barrier rfl rfl hrun' trivial (fun hc => hdone (by
      obtain ⟨u, hc⟩ := hc
      exact hc))⟩
  | giveUp hm => exact ⟨η, old, h.enter rfl rfl ⟨(h.running hm).1, trivial⟩⟩
  | compactRemote hm hs hS hok =>
    obtain ⟨hrun, -⟩ := h.running hm
    obtain ⟨η', hl, -, -, hrun'⟩ := hrun.compactRemote hideal hs hS hok
    exact ⟨η', old, h.enter hl.count hl.origin ⟨hrun', trivial⟩⟩
  | land hq =>
    obtain ⟨η', hl, hR, hrec, hsent, hfloor⟩ := h.remote.land hq
    refine ⟨η', old, h.later hl hrec hsent (fun hp => ?_) hR⟩
    exact ⟨hrec.trans hp.records, hsent.trans hp.sent, (hfloor (hp.quiet _ hq)).trans hp.floor,
      fun q hq => hp.quiet q (by rwa [Bucket.land_flights] at hq)⟩
  | other hle ha hh hp hf =>
    obtain ⟨hl, hR⟩ := h.remote.other hle ha hh hp hf
    refine ⟨η, old, h.later hl rfl rfl (fun hpr => ?_) hR⟩
    exact ⟨hpr.records, hpr.sent, hpr.floor, fun q hq hsp => hpr.quiet q (hf q hq hsp) hsp⟩
  | stop hm =>
    obtain ⟨hrun, -⟩ := h.running hm
    exact ⟨η, old, h.enter rfl rfl ⟨hrun.rests, hrun.ledger.records⟩⟩
  | powerLoss hm he =>
    obtain ⟨hrun, -⟩ := h.running hm
    exact ⟨η, old, h.enter rfl rfl ⟨hrun.rests.survivor he, hrun.ledger.records⟩⟩
  | powerLossAtRest hm he =>
    obtain ⟨hrest, hrec⟩ := h.closed hm
    exact ⟨η, old, h.enter rfl rfl ⟨hrest.survivor he, hrec⟩⟩
  | «open» hm hs hfresh hok =>
    obtain ⟨η', k, -, -, hinv, -, -⟩ := h.reopened hm hs hfresh hok
    exact ⟨η', _, hinv⟩
  | openFailed hm hs hfresh hok =>
    obtain ⟨hrest, hrec⟩ := h.closed hm
    obtain ⟨η', hcount, horigin, hrec', hrest', -⟩ := hrest.opens hs hfresh hok
    exact ⟨η', old, h.enter hcount horigin ⟨hrest', hrec'.trans hrec⟩⟩

/-- A disk over an existing volume satisfies the invariant. -/
theorem System.Starts.inv (h : σ.Starts P S store id) : ∃ η, σ.Inv P S store id η [] := by
  obtain ⟨v, hv, rfl, rfl, hready, n, hn, htag⟩ := h.head
  -- No mark has an empty journal id.
  have hwater : water [] v.root = 0 := by
    unfold water
    cases hm : v.root.replication with
    | none => rfl
    | some r =>
      have hlen := (hv.holds.rootOk.mark_ok r hm).1
      have hne : r.id ≠ [] := by
        intro hc
        rw [hc] at hlen
        cases hlen
      exact if_neg hne
  let η : History := ⟨[], v.chunkCount, σ.start, [], 0, 0, fun _ => v.store.wrap v.root⟩
  have hafter : ∀ q, η.after q = σ.start := fun _ => rfl
  have hk : Known P S v.store v.root.volume σ.bucket η v := by
    refine ⟨⟨?_, ?_⟩, ⟨n, hn, rfl, htag⟩, ?_⟩
    · rw [hafter]
      exact HeadOf.serves hv hready
    · exact le_of_eq hwater
    · exact le_of_eq hwater
  have hR : Remote P S v.store v.root.volume σ.bucket η :=
    ⟨h.addressed, ⟨v, hk, hwater, hv.head⟩, fun q hq hsp => absurd hsp (h.quiet q hq)⟩
  refine ⟨η, fun i _ => rfl, ?_, ?_, ?_⟩
  · intro x _
    rw [h.array, h.log]
    rfl
  · rw [h.flushed]
    exact Nat.zero_le _
  · rw [h.mode, h.log, h.torn, h.flushed]
    refine ⟨⟨hR, List.Pairwise.nil, (fun r hr => by cases hr), le_refl _, ?_, fun _ => rfl⟩, rfl⟩
    intro e he
    obtain rfl : e = none := by simpa using he
    exact .absent ⟨rfl, rfl, rfl, h.quiet⟩

/-- Every reachable system satisfies the invariant. -/
theorem System.Run.inv (hideal : P.Ideal S) (hrun : System.Run P S store id σ) :
    ∃ η old, σ.Inv P S store id η old := by
  induction hrun with
  | start h =>
    obtain ⟨η, hinv⟩ := h.inv
    exact ⟨η, [], hinv⟩
  | step _ hstep ih =>
    obtain ⟨η, old, hinv⟩ := ih
    exact hinv.step hideal hstep

end Invariant

section Guarantees

variable {P : Platform} {S : Set Bytes} {store : Client} {id : VolumeId} {σ : System}

/-- A step that leads from a disk at rest to an open one. -/
theorem System.Step.opened {σ' : System} {dir : Directory} {s : State} {worker : Worker}
    (h : System.Step P S store id σ σ') (hdir : σ.mode = .closed dir)
    (hm : σ'.mode = .running s worker) :
    ∃ view random c w dir', View.Sound view σ.bucket ∧
      (dir.journal = none → Unmarked σ.bucket (store.space id) (P.digest random)) ∧
      openDisk P view store id random c w dir = (dir', .ok s) ∧ σ' = σ.reopened P s := by
  cases h with
  | @«open» dir₁ dir' view random c w s₁ hm' hs hfresh hok =>
    obtain rfl := Mode.closed.inj (hdir.symm.trans hm')
    obtain ⟨rfl, -⟩ := Mode.running.inj hm
    exact ⟨view, random, c, w, dir', hs, hfresh, hok, rfl⟩
  | openFailed => cases hm
  | powerLossAtRest => cases hm
  | _ => simp_all [System.enter]

/-- A write that is acknowledged, and whose journal records are known. -/
theorem System.Step.acknowledged {s s' : State} {worker : Worker} {view : View} {pos : ℕ}
    {input : Bytes} {w : Rewrite} {a : Append} {records : List Record}
    (hm : σ.mode = .running s worker) (hs : view.Sound σ.bucket)
    (hok : s.write P view pos input w a = (s', .ok ()))
    (hrecords : s.written P view pos input w a = records) :
    System.Step P S store id σ { σ with
      mode := .running s' worker
      log := σ.log ++ records
      array := overwrite σ.array pos input } := by
  rw [← hrecords]
  exact .write hm hs hok

/-- A write that fails, and whose journal records are known. -/
theorem System.Step.unacknowledged {s s' : State} {worker : Worker} {view : View} {pos : ℕ}
    {input : Bytes} {w : Rewrite} {a : Append} {e : Error} {records : List Record}
    (hm : σ.mode = .running s worker) (hs : view.Sound σ.bucket)
    (hok : s.write P view pos input w a = (s', .error e))
    (hrecords : s.written P view pos input w a = records) :
    System.Step P S store id σ { σ with
      mode := .running s' worker
      torn := σ.torn ++ records } := by
  rw [← hrecords]
  exact .write hm hs hok

/-- A flush of a disk on which no call has failed. -/
theorem System.Step.flush_unfailed {s : State} {worker : Worker}
    (hm : σ.mode = .running s worker) (hfailed : s.failed = false) :
    System.Step P S store id σ (σ.enter σ.bucket (.running s.sync worker)).durable := by
  have hcheck : s.check 0 0 = .ok () := by
    rw [State.check, hfailed, if_neg Bool.false_ne_true, if_neg (by omega)]
  have hflush : s.flush true = (s.sync, .ok ()) := by
    simp only [State.flush, hcheck, if_true]
  exact .flush hm hflush

/-- A journalled disk is a flat array. In every state in which a process has the disk open, a
read that succeeds returns what the acknowledged writes have produced. A chunk that is pending
has these bytes, and a chunk that is not pending has them in the remote volume. And a disk
whose writes have all been flushed shows the same array after it is opened again; the first
time, this is what the remote volume stored. -/
theorem local_disk_linearizable (hideal : P.Ideal S) (hrun : System.Run P S store id σ) :
    (∀ s worker, σ.mode = .running s worker →
      (∀ view pos len out, view.Sound σ.bucket → s.read P view pos len = .ok out →
        out = window σ.array pos len) ∧
      ∀ i, (i + 1) * chunkBytes ≤ s.size →
        (∀ p, s.pending[i]? = some p →
          p.bytes = window σ.array (i * chunkBytes) chunkBytes) ∧
        (s.pending[i]? = none → s.reader.read P σ.bucket.view (i * chunkBytes) chunkBytes =
          .ok (window σ.array (i * chunkBytes) chunkBytes))) ∧
    ∀ σ' s worker, System.Step P S store id σ σ' → (∃ dir, σ.mode = .closed dir) →
      σ'.mode = .running s worker → σ.torn = [] → σ.flushed = σ.log.length →
      ∀ x < s.size, σ'.array x = σ.array x := by
  obtain ⟨η, old, hinv⟩ := hrun.inv hideal
  refine ⟨?_, ?_⟩
  · intro s worker hm
    obtain ⟨hr, -⟩ := hinv.running hm
    have hreads := hr.bound.reads hr.ledger
    have hover := hr.bound.over_eq hr.ledger
    have hsize : s.size = η.count * chunkBytes := hreads.size_eq
    refine ⟨?_, ?_⟩
    · intro view pos len out hs hok
      rw [hreads.read_sound hs hok, hover]
      have hin : pos + len ≤ s.size := by
        unfold State.read at hok
        split at hok
        · cases hok
        · rename_i hcheck
          exact (State.check_ok hcheck).2.2
      exact window_congr (fun x _ hx => (hinv.array x (by omega)).symm)
    · intro i hi
      rw [hsize] at hi
      have hlt : i < η.count := Nat.lt_of_succ_le (Nat.le_of_mul_le_mul_right hi chunkBytes_pos)
      have harray : window σ.array (i * chunkBytes) chunkBytes =
          s.over (η.after s.header.acknowledged) i := by
        rw [← window_block (hreads.over_length hlt), hover]
        have hmul := Nat.add_one_mul i chunkBytes
        exact window_congr (fun x _ hx => hinv.array x (by omega))
      rw [harray]
      refine ⟨?_, ?_⟩
      · intro p hp
        simp [State.over, hp]
      · intro hp
        rw [hr.bound.read_reader hlt]
        simp [State.over, hp]
  · rintro σ' s worker hstep ⟨dir, hdir⟩ hm htorn hflushed x hx
    obtain ⟨view, random, c, w, dir', hs, hfresh, hok, rfl⟩ := hstep.opened hdir hm
    obtain ⟨η', k, hk, hk', hinv', hcount, horigin⟩ := hinv.reopened hdir hs hfresh hok
    have hsize : s.size = η'.count * chunkBytes :=
      ((hinv'.running hm).1.bound.reads (hinv'.running hm).1.ledger).size_eq
    have htake : (σ.log ++ σ.torn).take k = σ.log := by
      rw [htorn, List.append_nil] at hk' ⊢
      rw [show k = σ.log.length by omega, List.take_length]
    rw [hinv'.array x (by omega), hinv.array x (by rw [← hcount]; omega), htake, horigin]
    simp only [System.reopened, List.append_nil]

/-- The header of the first journal of the sample disk. -/
private def firstHeader : Header := ⟨"disk", Sample.platform.digest [], "r", 0, 0⟩

/-- The bytes of this header. -/
private def headed : Bytes :=
  journalMagic ++ beBytes 4 (Sample.headerJson firstHeader).length ++
    Sample.headerJson firstHeader ++ hexBytes (Sample.digest (Sample.headerJson firstHeader))

private theorem headerBytes_first : headerBytes Sample.platform firstHeader = .ok headed := by
  rw [headerBytes, if_neg (by decide +kernel)]
  rfl

private theorem length_headed : headed.length < 4096 := by decide +kernel

/-- A seven and a nine in front of zeros. -/
private def nine : Bytes := 7 :: 9 :: zeros (chunkBytes - 2)

/-- The first write of the sample. -/
private def one : Record := ⟨1, 0, Sample.seven⟩

/-- The second write, over the bytes of the first. -/
private def two : Record := ⟨2, 0, nine⟩

/-- The disk when it was opened for the first time. -/
private def fresh : State :=
  ⟨firstHeader, ⟨headed, headed.length⟩, [], [], Sample.volume, ∅, 0, 0, false⟩

/-- With a seven at its start, not yet on disk. -/
private def sevened : State := { fresh with
  file := ⟨headed ++ Record.encode Sample.platform one, headed.length⟩
  pending := ∅ ∪ (∅ : BTreeMap ℕ Pending).insert 0 (Record.pending one)
  sequence := 1 }

/-- With a nine behind it. -/
private def nined : State := { sevened.sync with
  file := ⟨sevened.file.bytes ++ Record.encode Sample.platform two, sevened.file.bytes.length⟩
  pending := sevened.pending ∪ (∅ : BTreeMap ℕ Pending).insert 0 (Record.pending two)
  sequence := 2 }

private theorem length_nine : nine.length = chunkBytes := by
  rw [nine, List.length_cons, List.length_cons, length_zeros]
  rfl

private theorem fits_one : Record.Fits 1 one :=
  ⟨by decide, by decide, by decide, Sample.length_seven⟩

private theorem fits_two : Record.Fits 1 two :=
  ⟨by decide, by decide, by decide, length_nine⟩

private theorem length_one : (Record.encode Sample.platform one).length = recordSize :=
  Record.length_encode (P := Sample.platform) fits_one

private theorem length_two : (Record.encode Sample.platform two).length = recordSize :=
  Record.length_encode (P := Sample.platform) fits_two

private theorem copy_blank : Sample.volume.cleanCopy = .ok Sample.volume := rfl

private theorem opens_fresh {view : View}
    (hopen : IndexedVolume.open Sample.platform view (.raw false) "disk" = .ok Sample.volume) :
    openDisk Sample.platform view (.raw false) "disk" [] .done .done ⟨none, []⟩ =
      (⟨some fresh.file, []⟩, .ok fresh) := by
  have hbytes : headerBytes Sample.platform ⟨"disk", Sample.platform.digest [],
      Sample.volume.revision, 0, 0⟩ = .ok headed := headerBytes_first
  have hempty : ∀ s : State, s.pending = ∅ → s.entries = [] := by
    intro s hs
    rw [State.entries, hs]
    exact List.mergeSort_nil
  have hcompact : fresh.compact Sample.platform .done = (fresh, .ok ()) := by
    have hjournal : fresh.stamped.journalBytes Sample.platform = .ok headed := by
      rw [State.journalBytes, show fresh.stamped.header = firstHeader from rfl, headerBytes_first,
        hempty _ rfl]
      exact congrArg Except.ok (List.append_nil _)
    simp only [State.compact, State.compactInner, hjournal]
    rfl
  simp only [openDisk, hopen, hbytes, Local.mount, copy_blank]
  have haccept : (⟨⟨"disk", Sample.platform.digest [], Sample.volume.revision, 0, 0⟩,
      ⟨headed, headed.length⟩, [], [], Sample.volume, ∅, 0, 0, false⟩ : State).accept
        Sample.volume = .ok fresh := rfl
  simp only [haccept, hcompact]
  rfl

/-- The blank disk shows zeros. -/
private theorem read_blank (view : View) :
    Sample.volume.read Sample.platform view (0 * chunkBytes) chunkBytes =
      .ok (zeros chunkBytes) := by
  rw [IndexedVolume.read, check_of rfl (by decide)]
  simp only
  rw [if_neg (by decide), segments_whole chunkBytes_pos, IndexedVolume.gather, Sample.load_blank]
  simp only [IndexedVolume.gather, List.append_nil]
  rw [slice_eq_self (length_zeros _)]

/-- The first write appends the first record. -/
private theorem write_fresh (view : View) :
    fresh.write Sample.platform view 0 [7] .done .done = (sevened, .ok ()) ∧
      fresh.written Sample.platform view 0 [7] .done .done = [one] := by
  have hold : fresh.writtenChunk Sample.platform view [7] ⟨0, 0, 0, 1⟩ = .ok Sample.seven := by
    have hpending : fresh.pending[0]? = none := rfl
    simp only [State.writtenChunk, hpending]
    rw [if_neg (by decide), show fresh.reader = Sample.volume from rfl, read_blank]
    exact congrArg Except.ok Sample.splice_seven
  have hlength : fresh.file.bytes.length + recordSize ≤ logLimit := by
    have hlimit : 4096 + recordSize ≤ logLimit := by decide
    have := length_headed
    simp only [fresh]
    omega
  have hadmission := State.admission_single (s := fresh) (i := 0) (w := 0) (by decide) (by decide)
    rfl (by decide) hold (by decide) (by decide)
  obtain ⟨hwritten, hwrite, -⟩ := State.write_single .done .done hadmission hlength
  exact ⟨hwrite rfl, hwritten⟩

/-- The second write goes on with the bytes of the first. -/
private theorem write_sevened (view : View) :
    sevened.sync.write Sample.platform view 1 [9] .done .done = (nined, .ok ()) ∧
      sevened.sync.written Sample.platform view 1 [9] .done .done = [two] := by
  have hold : sevened.sync.writtenChunk Sample.platform view [9] ⟨0, 1, 0, 1⟩ = .ok nine := by
    have hpending : sevened.sync.pending[0]? = some (Record.pending one) := rfl
    simp only [State.writtenChunk, hpending]
    rw [if_neg (by decide)]
    apply congrArg Except.ok
    simp [splice, slice, nine, one, Record.pending, Sample.seven, zeros]
    rfl
  have hlength : sevened.sync.file.bytes.length + recordSize ≤ logLimit := by
    have hlimit : 4096 + recordSize + recordSize ≤ logLimit := by decide
    have := length_headed
    simp only [State.sync, sevened, List.length_append, length_one]
    omega
  have hadmission := State.admission_single (s := sevened.sync) (i := 0) (w := 1) (by decide)
    (by decide) rfl (by decide) hold (by decide) (by decide)
  obtain ⟨hwritten, hwrite, -⟩ := State.write_single .done .done hadmission hlength
  exact ⟨hwrite rfl, hwritten⟩

private theorem State.sync_sync (s : State) : s.sync.sync = s.sync := rfl

private theorem State.sync_file (s : State) :
    s.sync.file = ⟨s.file.bytes, s.file.bytes.length⟩ := rfl

/-- The snapshot of the first replication round. -/
private def snapshot : Snapshot := ⟨sevened.pending, ⟨Sample.platform.digest [], 1⟩⟩

private theorem reconcile_sevened :
    sevened.sync.reconcile Sample.platform Sample.volume true .done =
      (sevened.sync, .ok (some snapshot)) := by
  have hpending : ∀ i : ℕ, sevened.pending[i]? =
      if i = 0 then some (Record.pending one) else none := by
    intro i
    simp only [sevened, Std.ExtTreeMap.getElem?_union, Std.ExtTreeMap.getElem?_insert,
      Std.ExtTreeMap.getElem?_empty, Nat.compare_eq_eq, eq_comm (a := 0)]
    split <;> rfl
  have hkept : sevened.pending.filter (fun _ p => decide (p.sequence > 0)) = sevened.pending := by
    apply Std.ExtTreeMap.ext_getElem?
    intro i
    rw [Std.ExtTreeMap.getElem?_filter, hpending]
    split <;> rfl
  have haccept : sevened.sync.accept Sample.volume = .ok sevened.sync := by
    have haccepted : sevened.sync.accepted Sample.volume = some 0 := if_pos rfl
    rw [State.accept, haccepted]
    simp only [State.sync, hkept]
    rfl
  have hsync : sevened.sync.sync = sevened.sync := State.sync_sync sevened
  simp only [State.reconcile, copy_blank, haccept, hsync]
  rw [if_neg (by decide), if_neg (by decide)]
  rfl

/-- The head request of a replication arrives, and its reply is lost. -/
private def unheard : Faults := { Faults.none with delivery := .replyLost }

/-- The handle at the head that this request leaves. -/
private def replicated : IndexedVolume :=
  firstHandle Sample.platform Sample.written Sample.seven (some snapshot.mark) 1

private theorem upload_entries : uploadEntries Sample.platform unheard snapshot.entries.toList
    Sample.bucket Sample.volume = (Sample.bucket, Sample.written, .ok ()) := by
  have hlist : snapshot.entries.toList = [(0, Record.pending one)] := rfl
  have hbytes : (Record.pending one).bytes = Sample.seven := rfl
  rw [hlist]
  apply uploadEntries_single
  rw [hbytes]
  exact write_whole (P := Sample.platform) (B := Sample.bucket) (φ := unheard)
    (v := Sample.volume) (i := 0) rfl Sample.length_seven (by decide) (by decide)

/-- What is hashed for the upload is known. -/
private theorem hashed_snapshot (B : Bucket) (v : IndexedVolume)
    (hok : uploadEntries Sample.platform unheard snapshot.entries.toList Sample.bucket
      Sample.volume = (B, v, .ok ())) :
    ∀ b ∈ v.hashed Sample.platform (unheard.view B) false, b ∈ Sample.known := by
  rw [upload_entries] at hok
  obtain ⟨rfl, hv, -⟩ := hok
  exact Sample.written_known

/-- The store publishes the first write, and its reply is lost. -/
private theorem uploads_snapshot : ∃ B remote,
    upload Sample.platform Sample.bucket unheard Sample.volume snapshot =
      (B, remote, .error .uncertain) ∧
    HeadOf Sample.platform Sample.known B replicated
      (Sample.written.over fun _ => zeros chunkBytes) := by
  obtain ⟨B, hpublishes, -, hlost⟩ := Sample.commitInner_written unheard
    (some snapshot.mark) (Sample.bucket_addressed _) rfl rfl rfl
  refine ⟨B, { Sample.written with poisoned := true }, ?_, ?_⟩
  · rw [upload_of_entries upload_entries, IndexedVolume.commitReplication, if_neg (by decide)]
    exact hlost rfl
  · refine (Sample.head_written ?_ hpublishes (Bucket.view_healthy _).toSound).1
    intro m hm
    obtain rfl := Option.some.inj hm
    exact ⟨by decide, by decide⟩

private theorem renewed : ∃ bytes, headerBytes Sample.platform
    ⟨firstHeader.volume, firstHeader.id, replicated.revision, 1, 2⟩ = .ok bytes :=
  headerBytes_fits (by decide +kernel)

/-- The records in the journal, in front of the rest of an incomplete one. -/
private def journaled (tail : Bytes) : Bytes :=
  [one, two].flatMap (Record.encode Sample.platform) ++ tail

private theorem length_journaled (tail : Bytes) :
    (journaled tail).length = recordSize + (recordSize + 0) + tail.length := by
  rw [journaled, List.length_append, List.flatMap_cons, List.length_append, length_one,
    List.flatMap_cons, List.length_append, length_two, List.flatMap_nil, List.length_nil]

private theorem bytes_nined (tail : Bytes) :
    nined.file.bytes ++ tail = headed ++ journaled tail := by
  simp [nined, State.sync, sevened, fresh, journaled]

/-- Only the second record is newer than what the head has. -/
private theorem replay_journaled {tail : Bytes} (htail : tail.length < recordSize) :
    replay Sample.platform firstHeader 1 1 (journaled tail) =
      .ok ⟨(∅ : BTreeMap ℕ Pending).insert 0 (Record.pending two), 2, 2⟩ := by
  have hfits : ∀ r ∈ [one, two], Record.Fits 1 r := by
    intro r hr
    rcases List.mem_cons.mp hr with rfl | hr
    · exact fits_one
    · obtain rfl := List.mem_singleton.mp hr
      exact fits_two
  have hroom : ∀ n ≤ 1, n * chunkBytes ≤ dirtyLimit :=
    fun n hn => (Nat.mul_le_mul_right _ hn).trans (by decide)
  have hfirst : replayUpdate 1 1 ⟨∅, 0, 0⟩ 1 0 Sample.seven = .ok ⟨∅, 1, 1⟩ :=
    replayUpdate_ok ⟨∅, 0, 0⟩ (by decide) (by decide) (by decide) (hroom _ (by decide))
  have hsecond : replayUpdate 1 1 ⟨∅, 1, 1⟩ 2 0 nine =
      .ok ⟨(∅ : BTreeMap ℕ Pending).insert 0 (Record.pending two), 2, 2⟩ :=
    replayUpdate_ok ⟨∅, 1, 1⟩ (by decide) (by decide) (by decide) (hroom _ (by decide))
  rw [journaled, replay_encode hfits (by norm_num) htail]
  simp only [List.foldlM_cons, List.foldlM_nil, one, two, firstHeader, hfirst, hsecond, bind,
    Except.bind, pure, Except.pure]

private theorem count_replicated : replicated.size / chunkBytes = 1 := by
  rw [show replicated.size = chunkBytes from rfl, Nat.div_self chunkBytes_pos]

private theorem ack_replicated : replayAck replicated firstHeader = 1 := by
  rw [replayAck, show replicated.root.replication = some ⟨firstHeader.id, 1⟩ from rfl,
    Option.filter_some, if_pos (beq_self_eq_true _)]
  rfl

private theorem accepts_replicated {file : File} {pending : BTreeMap ℕ Pending} :
    State.accepted ⟨firstHeader, file, [], [], replicated, pending, 2, 2, false⟩ replicated =
      some 1 := by
  have hrevision : replicated.revision ≠ firstHeader.base := by decide
  rw [State.accepted, if_neg hrevision,
    show replicated.root.replication = some ⟨firstHeader.id, 1⟩ from rfl]
  exact if_pos ⟨rfl, Nat.zero_le _, Nat.le_succ 1⟩

/-- The journal is opened, whatever the crash left of a third record. -/
private theorem reopens {view : View} {n : ℕ} {tail : Bytes}
    (hopen : IndexedVolume.open Sample.platform view (.raw false) "disk" = .ok replicated)
    (htail : tail.length < recordSize) :
    ∃ dir s, openDisk Sample.platform view (.raw false) "disk" [] .done .done
      ⟨some ⟨nined.file.bytes ++ tail, n⟩, []⟩ = (dir, .ok s) := by
  have hlimit : 4096 + recordSize + recordSize + recordSize ≤ logLimit := by decide
  have hlength : (headed ++ journaled tail).length ≤ logLimit := by
    have := length_headed
    rw [List.length_append, length_journaled]
    omega
  have hheader : readHeader Sample.platform "disk" (headed ++ journaled tail) =
      .ok (firstHeader, journaled tail) :=
    readHeader_ok headerBytes_first rfl (by decide) (by decide)
  have hreplay : replay Sample.platform firstHeader (replicated.size / chunkBytes)
      (replayAck replicated firstHeader) (journaled tail) =
        .ok ⟨(∅ : BTreeMap ℕ Pending).insert 0 (Record.pending two), 2, 2⟩ := by
    rw [count_replicated, ack_replicated, replay_journaled htail]
  obtain ⟨bytes, hrenewed⟩ := renewed
  have hmount : ∃ dir s, Local.mount Sample.platform replicated firstHeader
      ⟨dropTorn (headed ++ journaled tail) (journaled tail), n⟩ []
      ((∅ : BTreeMap ℕ Pending).insert 0 (Record.pending two)) 2 .done = (dir, .ok s) :=
    mount_succeeds rfl rfl accepts_replicated hrenewed
  have hdir : (⟨some ⟨headed ++ journaled tail, n⟩, []⟩ : Directory).journal =
      some ⟨headed ++ journaled tail, n⟩ := rfl
  rw [bytes_nined, openDisk_journal hopen hdir hlength hheader hreplay]
  exact hmount

/-- A disk of one chunk that was never opened. -/
private def sampleSystem : System :=
  ⟨Sample.bucket, .closed ⟨none, []⟩, fun _ => zeros chunkBytes, [], [], 0,
    flat chunkBytes (fun _ => zeros chunkBytes)⟩

private theorem sampleSystem_starts :
    sampleSystem.Starts Sample.platform Sample.known (.raw false) "disk" := by
  exact ⟨⟨Sample.volume, Sample.head_blank, rfl, rfl, rfl, 0, by decide, rfl⟩,
    Sample.bucket_addressed _,
    (fun q hq => by cases hq), rfl, rfl, rfl, rfl, rfl⟩

private theorem sampleSystem_unmarked : Unmarked Sample.bucket ((Client.raw false).space "disk")
    (Sample.platform.digest []) := by
  intro h r hh hr
  obtain rfl : ⟨"r", .root Sample.volume.root⟩ = h := Option.some.inj hh
  cases hr

/-- A run of the sample disk. -/
private abbrev SampleRun (σ : System) : Prop :=
  System.Run Sample.platform Sample.known (.raw false) "disk" σ

private theorem sample_opened : ∃ start array,
    SampleRun ⟨Sample.bucket, .running fresh .idle, start, [], [], 0, array⟩ :=
  ⟨_, _, (System.Run.start sampleSystem_starts).step
    (.open rfl Sample.bucket.view_healthy.toSound (fun _ => sampleSystem_unmarked)
      (opens_fresh (Sample.head_blank.open_healthy Sample.bucket.view_healthy rfl)))⟩

/-- The first write is flushed and replicated; the reply of the store is lost. -/
private theorem sample_replicated : ∃ B start array,
    SampleRun ⟨B, .running sevened.sync .idle, start, [one], [], 1, array⟩ ∧
    HeadOf Sample.platform Sample.known B replicated
      (Sample.written.over fun _ => zeros chunkBytes) := by
  have hhealthy := Sample.bucket.view_healthy.toSound
  obtain ⟨B, remote, hupload, hhead⟩ := uploads_snapshot
  obtain ⟨start, array, hopened⟩ := sample_opened
  have hseven : SampleRun ⟨Sample.bucket, .running sevened .idle, start, [one], [], 0,
      overwrite array 0 [7]⟩ :=
    hopened.step (System.Step.acknowledged rfl hhealthy (write_fresh _).1 (write_fresh _).2)
  generalize overwrite array 0 [7] = array at hseven
  have hflushed : SampleRun ⟨Sample.bucket, .running sevened.sync .idle, start, [one], [], 1,
      array⟩ := hseven.step (System.Step.flush_unfailed rfl rfl)
  have hbegun : SampleRun ⟨Sample.bucket, .running sevened.sync .begun, start, [one], [], 1,
      array⟩ := hflushed.step (.begin rfl rfl)
  have hconnected : SampleRun ⟨Sample.bucket, .running sevened.sync (.opened Sample.volume),
      start, [one], [], 1, array⟩ :=
    hbegun.step (.connect rfl hhealthy
      (Sample.head_blank.open_healthy Sample.bucket.view_healthy rfl))
  have hsnapshot : SampleRun ⟨Sample.bucket,
      .running sevened.sync (.snapshot Sample.volume snapshot), start, [one], [], 1, array⟩ :=
    hconnected.step (.reconcile rfl reconcile_sevened)
  have huploaded : SampleRun ⟨B,
      .running sevened.sync (.uploaded remote (.error .uncertain)), start, [one], [], 1, array⟩ :=
    hsnapshot.step (.upload rfl (fun _ => (Bucket.view_healthy _).toSound) hashed_snapshot
      hupload)
  exact ⟨B, start, array, huploaded, hhead⟩

/-- Then the second write is flushed, too. -/
private theorem sample_flushed : ∃ B start array,
    SampleRun ⟨B, .running nined.sync .idle, start, [one, two], [], 2, array⟩ ∧
    HeadOf Sample.platform Sample.known B replicated
      (Sample.written.over fun _ => zeros chunkBytes) := by
  obtain ⟨B, start, array, hrun, hhead⟩ := sample_replicated
  have hnine : SampleRun ⟨B, .running nined .idle, start, [one, two], [], 1,
      overwrite array 1 [9]⟩ :=
    hrun.step (System.Step.acknowledged rfl (Bucket.view_healthy B).toSound
      (write_sevened _).1 (write_sevened _).2)
  generalize overwrite array 1 [9] = array at hnine
  exact ⟨B, start, array, hnine.step (System.Step.flush_unfailed rfl rfl), hhead⟩

private theorem read_nined (view : View) :
    nined.sync.read Sample.platform view 0 3 = .ok [7, 9, 0] := by
  have hcheck : nined.sync.check 0 3 = .ok () := by
    rw [State.check, if_neg (by decide), if_neg (by decide)]
  have hpending : nined.sync.pending[0]? = some (Record.pending two) := rfl
  have hsegments : segments chunkBytes 0 3 0 = [⟨0, 0, 0, 3⟩] :=
    segments_within (i := 0) (w := 0) (by decide) (by decide)
  simp only [State.read, hcheck, hsegments, State.gather, hpending]
  rfl

/-- What a power failure may leave of the journal behind the flushed bytes. -/
private theorem sample_survives {s : State} {tail : Bytes} (k : ℕ) (hrenamed : s.renamed = [])
    (hfile : s.file = ⟨nined.file.bytes ++ tail, nined.file.bytes.length⟩) :
    s.directory.Survivor (some ⟨nined.file.bytes ++ tail.take k, nined.file.bytes.length⟩) := by
  refine Or.inr ⟨s.file, nined.file.bytes.length + k, ?_, ?_, ?_⟩
  · rw [State.directory, hrenamed]
    exact List.mem_cons_self
  · rw [hfile]
    exact Nat.le_add_right _ _
  · rw [hfile, List.take_length_add_append]

/-- A seven, a nine and a five in front of zeros. -/
private def five : Bytes := 7 :: 9 :: 5 :: zeros (chunkBytes - 3)

/-- The first bytes of a third record. -/
private def tornTail : Bytes :=
  (Record.encode Sample.platform ⟨nined.sync.sequence + 1, 0, five⟩).take 100

/-- The disk after a write of which only these bytes reach the journal. -/
private def tornState : State := { nined.sync with
  file := ⟨nined.sync.file.bytes ++ tornTail, nined.sync.file.synced⟩
  failed := true }

/-- The directory after a crash, with fifty of them. -/
private def crashed : Directory :=
  ⟨some ⟨nined.file.bytes ++ tornTail.take 50, nined.file.bytes.length⟩, []⟩

/-- The third write fails on the way. -/
private theorem write_nined (view : View) :
    nined.sync.write Sample.platform view 2 [5] .done (.torn 100) = (tornState, .error .store) ∧
      nined.sync.written Sample.platform view 2 [5] .done (.torn 100) = [] := by
  have hold : nined.sync.writtenChunk Sample.platform view [5] ⟨0, 2, 0, 1⟩ = .ok five := by
    have hpending : nined.sync.pending[0]? = some (Record.pending two) := rfl
    simp only [State.writtenChunk, hpending]
    rw [if_neg (by decide)]
    apply congrArg Except.ok
    simp [splice, slice, five, two, nine, Record.pending, zeros]
    rfl
  have hlength : nined.sync.file.bytes.length + recordSize ≤ logLimit := by
    have hlimit : 4096 + recordSize + recordSize + recordSize ≤ logLimit := by decide
    have := length_headed
    simp only [State.sync, nined, sevened, List.length_append, length_one, length_two]
    omega
  have hadmission := State.admission_single (s := nined.sync) (i := 0) (w := 2) (by decide)
    (by decide) rfl (by decide) hold (by decide) (by decide)
  rw [Nat.zero_mul, Nat.zero_add] at hadmission
  obtain ⟨hwritten, -, hwrite⟩ := State.write_single .done (.torn 100) hadmission hlength
  have hnone : 100 / recordSize = 0 := by decide
  constructor
  · exact hwrite 100 rfl
  · rw [hwritten, Append.reached, hnone, List.take_zero]

/-- Then the power fails. -/
private theorem sample_crashed {B : Bucket} {start : ℕ → Bytes} {array : ℕ → UInt8}
    (hrun : SampleRun ⟨B, .running nined.sync .idle, start, [one, two], [], 2, array⟩)
    (hhead : HeadOf Sample.platform Sample.known B replicated
      (Sample.written.over fun _ => zeros chunkBytes)) :
    SampleRun ⟨B, .closed crashed, start, [one, two], [], 2, array⟩ ∧
    ∃ dir s, openDisk Sample.platform B.view (.raw false) "disk" [] .done .done crashed =
      (dir, .ok s) := by
  have htorn : SampleRun ⟨B, .running tornState .idle, start, [one, two], [], 2, array⟩ :=
    hrun.step (System.Step.unacknowledged rfl (Bucket.view_healthy B).toSound (write_nined _).1
      (write_nined _).2)
  have hfile : tornState.file = ⟨nined.file.bytes ++ tornTail, nined.file.bytes.length⟩ := by
    rw [tornState, State.sync_file]
  have hsurvives : tornState.directory.Survivor crashed.journal := sample_survives 50 rfl hfile
  have htail : (tornTail.take 50).length < recordSize := by
    have hsize : 50 < recordSize := by decide
    have := List.length_take_le 50 tornTail
    omega
  exact ⟨htorn.step (.powerLoss rfl hsurvives),
    reopens (hhead.open_healthy (Bucket.view_healthy B) rfl) htail⟩

/-- The sample disk with two writes that are flushed, the first of them replicated. A third
write fails, the power fails, and the disk is opened again. -/
theorem local_disk_linearizable_sample : ∃ σ σ' τ s s',
    SampleRun σ ∧ σ.mode = .running s .idle ∧ σ.log.length = 2 ∧
    (∃ h r, σ.bucket.heads ((Client.raw false).space "disk") = some h ∧
      mark h.manifest = some r ∧ r.sequence = 1) ∧
    s.read Sample.platform σ.bucket.view 0 3 = .ok [7, 9, 0] ∧
    window σ.array 0 3 = [7, 9, 0] ∧
    SampleRun σ' ∧ σ'.mode = .closed crashed ∧ σ'.array = σ.array ∧
    System.Step Sample.platform Sample.known (.raw false) "disk" σ' τ ∧
    τ.mode = .running s' .idle ∧ ∀ x < s'.size, τ.array x = σ'.array x := by
  obtain ⟨B, start, array, hrun, hhead⟩ := sample_flushed
  obtain ⟨hcrashed, dir, s', hok⟩ := sample_crashed hrun hhead
  have hhealthy := (Bucket.view_healthy B).toSound
  have hread := read_nined B.view
  have hopens : System.Step Sample.platform Sample.known (.raw false) "disk"
      ⟨B, .closed crashed, start, [one, two], [], 2, array⟩
      (System.reopened Sample.platform ⟨B, .closed crashed, start, [one, two], [], 2, array⟩ s') :=
    .open rfl hhealthy (fun h => by cases h) hok
  refine ⟨_, _, _, nined.sync, s', hrun, rfl, rfl, ⟨_, _, hhead.head, rfl, rfl⟩, hread, ?_,
    hcrashed, rfl, rfl, hopens, rfl, ?_⟩
  · exact (((local_disk_linearizable Sample.known_ideal hrun).1 _ _ rfl).1 _ 0 3 _ hhealthy
      hread).symm
  · exact (local_disk_linearizable Sample.known_ideal hcrashed).2 _ s' .idle hopens ⟨_, rfl⟩ rfl
      rfl rfl

/-- Flushed writes survive. Whenever a disk at rest can be opened, it shows the contents after
some number of the journal records since it was last opened, among them all records of writes
that were acknowledged before the last flush; and no chunk that is pending then is older than
what the remote volume has of this journal. -/
theorem flushed_writes_survive (hideal : P.Ideal S) (hrun : System.Run P S store id σ)
    {dir dir' : Directory} {view : View} {random : Bytes} {c : Creation} {w : Rewrite} {s : State}
    (hm : σ.mode = .closed dir) (hs : view.Sound σ.bucket)
    (hfresh : dir.journal = none → Unmarked σ.bucket (store.space id) (P.digest random))
    (hok : openDisk P view store id random c w dir = (dir', .ok s)) :
    (∃ k, σ.flushed ≤ k ∧ k ≤ (σ.log ++ σ.torn).length ∧
      ∀ i, (i + 1) * chunkBytes ≤ s.size →
        s.contents P σ.bucket i = applied σ.start ((σ.log ++ σ.torn).take k) i) ∧
    ∀ (i : ℕ) (p : Pending) (r : Replication), s.pending[i]? = some p →
      s.reader.root.replication = some r → r.id = s.header.id → r.sequence < p.sequence := by
  obtain ⟨η, old, hinv⟩ := hrun.inv hideal
  obtain ⟨η', k, hk, hk', hinv', hcount, horigin⟩ := hinv.reopened hm hs hfresh hok
  obtain ⟨hr, -⟩ := hinv'.running rfl
  have hsize : s.size = η'.count * chunkBytes := (hr.bound.reads hr.ledger).size_eq
  refine ⟨⟨k, hk, hk', ?_⟩, ?_⟩
  · intro i hi
    rw [hsize] at hi
    have hlt : i < η'.count := Nat.lt_of_succ_le (Nat.le_of_mul_le_mul_right hi chunkBytes_pos)
    have hstart := hinv'.start i hlt
    have hold := hinv.start i (by rw [← hcount]; exact hlt)
    rw [show s.contents P σ.bucket i = (σ.reopened P s).start i from rfl, hstart, horigin,
      applied_append]
    simp only [applied_eq, hold]
  · intro i p r hp hrep hid
    have hack := hr.bound.ack
    have hpend := hr.bound.pending i
    rw [hp] at hpend
    rw [water, hrep] at hack
    simp only [hid, hr.bound.journal, if_true] at hack
    cases hlast : latest s.header.acknowledged
        (old ++ (σ.log ++ σ.torn).take k ++ (σ.reopened P s).log) i with
    | none =>
      rw [hlast] at hpend
      cases hpend
    | some t =>
      rw [hlast, Option.map_some] at hpend
      obtain rfl := Option.some.inj hpend
      rw [hack]
      exact (latest_some.mp hlast).2

/-- The sample disk after the crash: both records that were flushed survive. -/
theorem flushed_writes_survive_sample : ∃ σ dir s,
    SampleRun σ ∧ σ.mode = .closed crashed ∧ σ.log = [one, two] ∧ σ.flushed = 2 ∧
    openDisk Sample.platform σ.bucket.view (.raw false) "disk" [] .done .done crashed =
      (dir, .ok s) ∧
    ∃ k, σ.flushed ≤ k ∧ k ≤ (σ.log ++ σ.torn).length ∧
      ∀ i, (i + 1) * chunkBytes ≤ s.size →
        s.contents Sample.platform σ.bucket i = applied σ.start ((σ.log ++ σ.torn).take k) i := by
  obtain ⟨B, start, array, hrun, hhead⟩ := sample_flushed
  obtain ⟨hcrashed, dir, s, hok⟩ := sample_crashed hrun hhead
  exact ⟨_, dir, s, hcrashed, rfl, rfl, rfl, hok, (flushed_writes_survive Sample.known_ideal
    hcrashed rfl (Bucket.view_healthy B).toSound (fun h => by cases h) hok).1⟩

end Guarantees

end AgentHouse.Local
