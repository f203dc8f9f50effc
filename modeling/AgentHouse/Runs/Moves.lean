import AgentHouse.Runs.Lanes
import AgentHouse.Lib.Programs

/-!
# What an operation does to a lane

`Move` lists what can happen to the lane of one run id, and `Op.body_moves` says that every
committed operation moves every lane in one of these ways. The invariants of the outbox and
of the receipts are derived from the moves alone.
-/

namespace AgentHouse.Runs

/-- What one committed operation can do to the lane of `id`. -/
inductive Move (parse : String → Option Json) (db : Db) :
    Op → String → Lane → Lane → Prop
  | same (op : Op) (id : String) (l : Lane) : Move parse db op id l l
  /-- The receipt is new, and no stream of an earlier run of that id is left. -/
  | admitted {id sandboxId ownerId request : String} {now deadlineAt : ℤ} {l : Lane}
      {delivery : Option Json} (hrun : l.run = none) (hstream : l.stream = none)
      (hdelivery : ((parse request).getD .null).get? "event_delivery" = delivery) :
      Move parse db (.admission id sandboxId ownerId request now deadlineAt) id l
        { run := some (.starting id sandboxId ownerId request now deadlineAt)
          stream := delivery.map fun d => .fresh id d deadlineAt
          queue := [] }
  | claimed {id : String} {now : ℤ} {l : Lane} {r : ManagedRun} (hrun : l.run = some r)
      (hopen : r.finishedAt = none) :
      Move parse db (.claim id now) id l { l with run := some (r.claimed now) }
  /-- A report that stores no event: not terminal, or of a run without a stream. -/
  | updated {id : String} {epoch now : ℤ} {report : Report} {l : Lane} {r : ManagedRun}
      {phase : Phase} (hrun : l.run = some r) (hopen : r.finishedAt = none)
      (hepoch : r.epoch = epoch) (hsession : replaces report.sessionId r.sessionId = false)
      (hboot : replaces report.bootId r.bootId = false)
      (hstream : report.terminal = true → l.stream = none) :
      Move parse db (.update id epoch report now) id l
        { l with run := some (r.report phase report now) }
  /-- The final report, stored with its event. -/
  | finished {id : String} {epoch now : ℤ} {report : Report} {l : Lane} {r : ManagedRun}
      {phase : Phase} {s : ManagedRunEventStream} {hash : String} {value : Option Json}
      (hrun : l.run = some r) (hopen : r.finishedAt = none) (hepoch : r.epoch = epoch)
      (hsession : replaces report.sessionId r.sessionId = false)
      (hboot : replaces report.bootId r.bootId = false) (hterminal : report.terminal = true)
      (hstream : l.stream = some s) (hunsealed : s.isSealed = false) :
      Move parse db (.update id epoch report now) id l
        { run := some (r.report phase report now)
          stream := some (s.stored
            (payload parse (r.report phase report now) hash s.nextEventSeq .receipt
              value).size true)
          queue := l.queue ++ [{
            runId := id, seq := s.nextEventSeq, createdAt := now
            payload := payload parse (r.report phase report now) hash s.nextEventSeq .receipt
              value }] }
  /-- A checkpoint: the cursor and its event together. -/
  | checkpointed {id : String} {epoch now : ℤ} {offset guestSeq : ℕ} {text : String} {l : Lane}
      {r : ManagedRun} {s : ManagedRunEventStream} {hash : String} {value : Json}
      (hrun : l.run = some r) (hopen : r.finishedAt = none) (hepoch : r.epoch = epoch)
      (hstream : l.stream = some s) (hunsealed : s.isSealed = false)
      (hparse : parse text = some value) (hsize : text.utf8ByteSize ≤ maxCheckpointBytes)
      (hoffset : s.sourceOffset < offset) (hguest : guestSeq = s.guestSeq + 1)
      (hfits : s.pendingBytes +
        (payload parse r hash s.nextEventSeq .checkpoint (some value)).size ≤
          perRun .checkpoint) :
      Move parse db (.checkpoint id epoch offset guestSeq text now) id l
        { run := l.run
          stream := some ((s.stored
            (payload parse r hash s.nextEventSeq .checkpoint (some value)).size false).advanced
              offset guestSeq text)
          queue := l.queue ++ [{
            runId := id, seq := s.nextEventSeq, createdAt := now
            payload := payload parse r hash s.nextEventSeq .checkpoint (some value) }] }
  | sourceFailed {id : String} {epoch : ℤ} {l : Lane} {r : ManagedRun} (hrun : l.run = some r)
      (hopen : r.finishedAt = none) (hepoch : r.epoch = epoch) :
      Move parse db (.failSource id epoch) id l
        { l with stream := l.stream.map (·.failed) }
  /-- The first event goes. -/
  | acknowledged {id : String} {seq : ℕ} {l : Lane} {s : ManagedRunEventStream}
      {e : ManagedRunEvent} (hstream : l.stream = some s) (hseq : seq = s.ackedSeq + 1)
      (he : e ∈ l.queue) (heseq : e.seq = seq)
      (hmore : ¬(s.isSealed = true ∧ seq = s.nextEventSeq - 1)) :
      Move parse db (.acknowledge id seq) id l
        { run := l.run, stream := some (s.acked seq e.payload.size)
          queue := l.queue.filter fun e => e.seq ≠ seq }
  /-- The final event goes while the receipt is there. -/
  | settled {id : String} {seq : ℕ} {l : Lane} {s : ManagedRunEventStream} {r : ManagedRun}
      {e : ManagedRunEvent} (hrun : l.run = some r) (hstream : l.stream = some s)
      (hseq : seq = s.ackedSeq + 1) (he : e ∈ l.queue) (heseq : e.seq = seq)
      (hsealed : s.isSealed = true) (hlast : seq = s.nextEventSeq - 1) :
      Move parse db (.acknowledge id seq) id l
        { run := l.run, stream := some (s.acked seq e.payload.size).cleared
          queue := l.queue.filter fun e => e.seq ≠ seq }
  /-- The final event of a deleted run goes, and the stream with it. -/
  | drained {id : String} {seq : ℕ} {l : Lane} {s : ManagedRunEventStream}
      (hrun : l.run = none) (hstream : l.stream = some s) (hseq : seq = s.ackedSeq + 1)
      (hsealed : s.isSealed = true) (hlast : seq = s.nextEventSeq - 1) :
      Move parse db (.acknowledge id seq) id l { run := none, stream := none, queue := [] }
  /-- The receipt goes with its sandbox. -/
  | deleted {op : Op} {id : String} {l : Lane} {r : ManagedRun} (hrun : l.run = some r)
      (hdoomed : op.Dooms db r) : Move parse db op id l { l with run := none }
  /-- A complete stream without a receipt goes, the receipt possibly by this operation. -/
  | cleaned {op : Op} {id : String} {l : Lane} {s : ManagedRunEventStream}
      (hrun : ∀ r, l.run = some r → op.Dooms db r) (hstream : l.stream = some s)
      (hcomplete : s.complete = true) :
      Move parse db op id l { run := none, stream := none, queue := [] }

section Moves

variable {parse : String → Option Json} {db db' : Db} {id : String}

/-- The tables after an event is stored. -/
def Db.stored (db : Db) (e : ManagedRunEvent) (final : Bool) : Db :=
  { db with events := db.events ++ [e] }.reviseStream e.runId fun t =>
    t.stored e.payload.size final

/-- A stored event: the limits that it kept and the tables that it made. -/
theorem append_ok {run : ManagedRun} {kind : Kind} {checkpoint : Option Json} {now : ℤ}
    (h : append parse db run kind checkpoint now = .ok db') :
    ∃ s hash, db.findStream run.id = some s ∧ s.isSealed = false ∧
      (payload parse run hash s.nextEventSeq kind checkpoint).size ≤ maxManagedEventBytes ∧
      s.pendingBytes + (payload parse run hash s.nextEventSeq kind checkpoint).size ≤
        perRun kind ∧
      db.totals.1 + (payload parse run hash s.nextEventSeq kind checkpoint).size +
        remainingReserve db.totals.2.1 kind ≤ maxTotalPending ∧
      db' = db.stored { runId := run.id, seq := s.nextEventSeq, createdAt := now
                        payload := payload parse run hash s.nextEventSeq kind checkpoint }
        kind.final := by
  unfold append at h
  cases hs : db.stream run.id with
  | error e => rw [hs] at h; cases h
  | ok s =>
    rw [hs] at h
    simp only [bind, Except.bind] at h
    split at h
    · cases h
    rename_i hsealed
    split at h
    · cases h
    split at h
    · cases h
    rename_i hash _
    split at h
    · cases h
    rename_i hsize
    split at h
    · cases h
    rename_i hfull
    split at h
    · cases h
    split at h
    · cases h
    rw [not_or] at hfull
    have hsealed : s.isSealed = false := by simpa using hsealed
    exact ⟨s, hash, stream_ok.mp hs, hsealed, by omega, by omega, by omega,
      (Except.ok.inj h).symm⟩

/-- A stored event is the last of its queue. -/
theorem lane_stored {e : ManagedRunEvent} {final : Bool} (j : String) :
    (db.stored e final).lane j =
      if j = e.runId then
        { run := db.find j, stream := (db.findStream j).map (·.stored e.payload.size final)
          queue := db.queue j ++ [e] }
      else db.lane j := by
  rw [Db.stored, lane_reviseStream (f := fun t => t.stored e.payload.size final) (fun _ => rfl)]
  have hqueue : ({ db with events := db.events ++ [e] } : Db).queue j =
      db.queue j ++ if e.runId = j then [e] else [] := by
    rw [Db.queue, List.filter_append, Db.queue, List.filter_singleton]
    by_cases hj : e.runId = j <;> simp [hj]
  split
  · rename_i hj
    rw [Db.lane, hqueue, if_pos hj.symm]
    rfl
  · rename_i hj
    rw [Db.lane, hqueue, if_neg (fun he => hj he.symm), List.append_nil]
    rfl

/-- It keeps the tables in order. -/
theorem Db.Sound.stored (h : db.Sound) {e : ManagedRunEvent} {final : Bool}
    (hs : (db.findStream e.runId).isSome) : (db.stored e final).Sound := by
  apply Db.Sound.reviseStream (f := fun t => t.stored e.payload.size final) _ _ (fun _ => rfl)
  refine { runs := h.runs, streams := h.streams, owned := ?_ }
  intro t ht
  rcases List.mem_append.mp ht with ht | ht
  · exact h.owned t ht
  · rw [List.mem_singleton.mp ht]
    exact hs

/-- What a claim changes. -/
theorem claim_ok {now : ℤ} {run : ManagedRun}
    (hok : claimManagedRun db id now = .ok (db', run)) :
    ∃ r, db.find id = some r ∧ r.finishedAt = none ∧ db' = db.reviseRun id (·.claimed now) := by
  unfold claimManagedRun at hok
  obtain ⟨r, hr, hok⟩ := bind_ok hok
  split at hok
  · cases hok
  rename_i hopen
  split at hok
  · cases hok
  obtain ⟨saved, -, hok⟩ := bind_ok hok
  obtain ⟨rfl, -⟩ := Prod.mk.inj (Except.ok.inj hok)
  exact ⟨r, get_ok.mp hr, by simpa using hopen, rfl⟩

/-- Each operation moves the lanes: a claim. -/
theorem claim_moves (h : db.Sound) {now : ℤ} {run : ManagedRun}
    (hok : claimManagedRun db id now = .ok (db', run)) :
    db'.Sound ∧ ∀ j, Move parse db (.claim id now) j (db.lane j) (db'.lane j) := by
  obtain ⟨r, hr, hopen, rfl⟩ := claim_ok hok
  have hkey (r : ManagedRun) : (r.claimed now).id = r.id := rfl
  refine ⟨h.reviseRun id hkey, ?_⟩
  intro j
  rw [lane_reviseRun hkey]
  split
  · rename_i hj
    subst hj
    have hfind : (db.lane j).run = some r := hr
    rw [hfind]
    exact .claimed hfind hopen
  · exact .same _ _ _

/-- What a failed source changes. -/
theorem failSource_ok {epoch : ℤ} (hok : failManagedRunEventSource db id epoch = .ok db') :
    ∃ r, db.find id = some r ∧ r.finishedAt = none ∧ r.epoch = epoch ∧
      db' = db.reviseStream id (·.failed) := by
  unfold failManagedRunEventSource at hok
  obtain ⟨r, hr, hok⟩ := bind_ok hok
  split at hok
  · cases hok
  rename_i hcurrent
  rw [not_or, not_not] at hcurrent
  exact ⟨r, get_ok.mp hr, by simpa using hcurrent.2, hcurrent.1, (Except.ok.inj hok).symm⟩

/-- A source that failed. -/
theorem failSource_moves (h : db.Sound) {epoch : ℤ}
    (hok : failManagedRunEventSource db id epoch = .ok db') :
    db'.Sound ∧ ∀ j, Move parse db (.failSource id epoch) j (db.lane j) (db'.lane j) := by
  obtain ⟨r, hr, hopen, hepoch, rfl⟩ := failSource_ok hok
  have hkey (s : ManagedRunEventStream) : s.failed.runId = s.runId := rfl
  refine ⟨h.reviseStream id hkey, ?_⟩
  intro j
  rw [lane_reviseStream hkey]
  split
  · rename_i hj
    subst hj
    exact .sourceFailed hr hopen hepoch
  · exact .same _ _ _

/-- A committed checkpoint: the checks on run and cursor, and the event stored before. -/
theorem checkpoint_ok {epoch now : ℤ} {offset guestSeq : ℕ} {text : String}
    (hok : appendManagedRunCheckpoint parse db id epoch offset guestSeq text now = .ok db') :
    ∃ r s value mid, db.find id = some r ∧ db.findStream id = some s ∧ parse text = some value ∧
      text.utf8ByteSize ≤ maxCheckpointBytes ∧ r.finishedAt = none ∧ r.epoch = epoch ∧
      s.sourceOffset < offset ∧ guestSeq = s.guestSeq + 1 ∧
      append parse db r .checkpoint (some value) now = .ok mid ∧
      db' = mid.reviseStream id (·.advanced offset guestSeq text) := by
  unfold appendManagedRunCheckpoint at hok
  split at hok
  · cases hok
  rename_i hrange
  split at hok
  · cases hok
  rename_i value hvalue
  obtain ⟨r, hr, hok⟩ := bind_ok hok
  obtain ⟨s, hs, hok⟩ := bind_ok hok
  split at hok
  · cases hok
  rename_i hcursor
  obtain ⟨mid, happend, hok⟩ := bind_ok hok
  simp only [not_or, not_not, not_le, not_lt, Option.isSome_iff_ne_none, ne_eq] at hcursor hrange
  exact ⟨r, s, value, mid, get_ok.mp hr, stream_ok.mp hs, hvalue, hrange.2.2, hcursor.2.1,
    hcursor.1, hcursor.2.2.2.2, hcursor.2.2.2.1, happend, (Except.ok.inj hok).symm⟩

/-- A checkpoint. -/
theorem checkpoint_moves (h : db.Sound) {epoch now : ℤ} {offset guestSeq : ℕ} {text : String}
    (hok : appendManagedRunCheckpoint parse db id epoch offset guestSeq text now = .ok db') :
    db'.Sound ∧ ∀ j, Move parse db (.checkpoint id epoch offset guestSeq text now) j
      (db.lane j) (db'.lane j) := by
  obtain ⟨r, s, value, mid, hr, hs, hvalue, hsize, hopen, hepoch, hoffset, hguest, happend, rfl⟩ :=
    checkpoint_ok hok
  obtain rfl := find_key hr
  obtain ⟨t, hash, ht, hunsealed, -, hfits, -, rfl⟩ := append_ok happend
  obtain rfl : s = t := Option.some.inj (hs.symm.trans ht)
  have hkey (s : ManagedRunEventStream) :
      (s.advanced offset guestSeq text).runId = s.runId := rfl
  refine ⟨(h.stored (by rw [ht]; rfl)).reviseStream r.id hkey, ?_⟩
  intro j
  rw [lane_reviseStream hkey]
  split
  · rename_i hj
    subst hj
    have hstream : (db.findStream r.id).map
        (·.stored (payload parse r hash s.nextEventSeq .checkpoint (some value)).size false) =
          some (s.stored (payload parse r hash s.nextEventSeq .checkpoint (some value)).size
            false) := by
      rw [ht]
      rfl
    rw [lane_stored, if_pos rfl]
    simp only [Kind.final, decide_false, hstream, reduceCtorEq]
    exact .checkpointed hr hopen hepoch ht hunsealed hvalue hsize hoffset hguest hfits
  · rename_i hj
    rw [lane_stored, if_neg hj]
    exact .same _ _ _

/-- A terminal run without a stream stores nothing; another stores its final event. -/
theorem terminal_ok {run : ManagedRun} {now : ℤ} (h : terminal parse db run now = .ok db') :
    (db.findStream run.id = none ∧ db' = db) ∨
      ∃ value, append parse db run .receipt value now = .ok db' := by
  unfold terminal at h
  cases hs : db.findStream run.id with
  | none =>
    rw [hs] at h
    exact .inl ⟨rfl, (Except.ok.inj h).symm⟩
  | some s =>
    rw [hs] at h
    simp only at h
    split at h
    · exact .inr ⟨none, h⟩
    · split at h
      · cases h
      · exact .inr ⟨_, h⟩

/-- The receipt after a report, found again in the tables. -/
theorem find_reported {r : ManagedRun} {phase : Phase} {report : Report} {now : ℤ}
    (hr : db.find id = some r) :
    (db.reviseRun id (·.report phase report now)).find id = some (r.report phase report now) := by
  have hkey (r : ManagedRun) : (r.report phase report now).id = r.id := rfl
  rw [find_reviseRun hkey, if_pos rfl, hr]
  rfl

/-- A committed report: the checks on the run, and its final event when it is terminal. -/
theorem update_ok {epoch now : ℤ} {report : Report} {run : ManagedRun}
    (hok : updateManagedRun parse db id epoch report now = .ok (db', run)) :
    ∃ r phase, db.find id = some r ∧ r.finishedAt = none ∧ r.epoch = epoch ∧
      replaces report.sessionId r.sessionId = false ∧
      replaces report.bootId r.bootId = false ∧
      (report.terminal = false ∧ db' = db.reviseRun id (·.report phase report now) ∨
        report.terminal = true ∧
          terminal parse (db.reviseRun id (·.report phase report now))
            (r.report phase report now) now = .ok db') := by
  unfold updateManagedRun at hok
  split at hok
  · cases hok
  rename_i phase hphase
  split at hok
  · cases hok
  obtain ⟨r, hr, hok⟩ := bind_ok hok
  have hr := get_ok.mp hr
  split at hok
  · cases hok
  rename_i hcurrent
  split at hok
  · cases hok
  rename_i hidentity
  obtain ⟨saved, hsaved, hok⟩ := bind_ok hok
  obtain rfl : r.report phase report now = saved :=
    Option.some.inj ((find_reported hr).symm.trans (get_ok.mp hsaved))
  simp only [not_or, not_not, Bool.not_eq_true, Option.isSome_eq_false_iff,
    Option.isNone_iff_eq_none] at hcurrent hidentity
  refine ⟨r, phase, hr, hcurrent.1, hcurrent.2, hidentity.1, hidentity.2, ?_⟩
  simp only at hok
  split at hok
  · rename_i hterminal
    obtain ⟨final, hfinal, hok⟩ := bind_ok hok
    obtain ⟨rfl, -⟩ := Prod.mk.inj (Except.ok.inj hok)
    exact .inr ⟨hterminal, hfinal⟩
  · rename_i hterminal
    obtain ⟨rfl, -⟩ := Prod.mk.inj (Except.ok.inj hok)
    exact .inl ⟨by simpa using hterminal, rfl⟩

/-- An update. -/
theorem update_moves (h : db.Sound) {epoch now : ℤ} {report : Report} {run : ManagedRun}
    (hok : updateManagedRun parse db id epoch report now = .ok (db', run)) :
    db'.Sound ∧ ∀ j, Move parse db (.update id epoch report now) j (db.lane j) (db'.lane j) := by
  obtain ⟨r, phase, hr, hopen, hepoch, hsession, hboot, hcase⟩ := update_ok hok
  obtain rfl := find_key hr
  have hkey (r : ManagedRun) : (r.report phase report now).id = r.id := rfl
  have hrun : (db.lane r.id).run = some r := hr
  -- the lanes before an event is stored
  have hlane (j : String) : (db.reviseRun r.id (·.report phase report now)).lane j =
      if j = r.id then { db.lane j with run := some (r.report phase report now) }
      else db.lane j := by
    rw [lane_reviseRun hkey]
    split
    · rename_i hj
      rw [hj, hrun, Option.map_some]
    · rfl
  have hsound := h.reviseRun r.id hkey
  have hplain (hnone : report.terminal = true → db.findStream r.id = none) (j : String) :
      Move parse db (.update r.id epoch report now) j (db.lane j)
        ((db.reviseRun r.id (·.report phase report now)).lane j) := by
    rw [hlane]
    split
    · rename_i hj
      subst hj
      exact .updated hrun hopen hepoch hsession hboot hnone
    · exact .same _ _ _
  rcases hcase with ⟨hterm, rfl⟩ | ⟨hterm, hfinal⟩
  · exact ⟨hsound, hplain (by simp [hterm])⟩
  rcases terminal_ok hfinal with ⟨hnone, rfl⟩ | ⟨value, happend⟩
  · exact ⟨hsound, hplain fun _ => hnone⟩
  obtain ⟨s, hash, hs, hunsealed, -, -, -, rfl⟩ := append_ok happend
  have hs' : db.findStream r.id = some s := hs
  refine ⟨hsound.stored (by rw [hs]; rfl), ?_⟩
  intro j
  rw [lane_stored]
  split
  · rename_i hj
    subst hj
    have hfind : (db.reviseRun r.id (·.report phase report now)).find r.id =
        some (r.report phase report now) := find_reported hr
    have hstream : (db.reviseRun r.id (·.report phase report now)).findStream r.id = some s := hs
    simp only [hkey, hfind, hstream, Option.map_some, Kind.final, decide_true]
    exact .finished hrun hopen hepoch hsession hboot hterm hs' hunsealed
  · rename_i hj
    rw [hlane, if_neg (show j ≠ r.id from hj)]
    exact .same _ _ _

/-- The tables after the first event of a stream is acknowledged. -/
def Db.acknowledged (db : Db) (e : ManagedRunEvent) : Db :=
  (db.deleteEvent e.runId e.seq).reviseStream e.runId fun s => s.acked e.seq e.payload.size

/-- The tables after the final event of a stream is acknowledged. -/
def Db.settled (db : Db) (e : ManagedRunEvent) : Db :=
  ((db.acknowledged e).reviseStream e.runId fun s => s.cleared).deleteStreams fun s =>
    decide (s.runId = e.runId) && (db.find e.runId).isNone

/-- What an acknowledgement changes. -/
theorem acknowledge_ok {seq : ℕ} (hok : acknowledgeManagedRunEvent db id seq = .ok db') :
    (db' = db ∧ ∃ s, db.findStream id = some s ∧ seq ≤ s.ackedSeq) ∨
    ∃ s e, db.findStream id = some s ∧ seq = s.ackedSeq + 1 ∧
      e ∈ db.queue id ∧ e.seq = seq ∧
      ((s.isSealed = true ∧ seq = s.nextEventSeq - 1) ∧ db' = db.settled e ∨
        ¬(s.isSealed = true ∧ seq = s.nextEventSeq - 1) ∧ db' = db.acknowledged e) := by
  unfold acknowledgeManagedRunEvent at hok
  split at hok
  · cases hok
  obtain ⟨s, hs, hok⟩ := bind_ok hok
  split at hok
  · rename_i hold
    exact .inl ⟨(Except.ok.inj hok).symm, s, stream_ok.mp hs, hold⟩
  split at hok
  · cases hok
  rename_i hseq
  rw [not_not] at hseq
  split at hok
  · cases hok
  rename_i e he
  split at hok
  · cases hok
  have hmem := List.mem_of_find?_eq_some he
  obtain ⟨rfl, rfl⟩ : e.runId = id ∧ e.seq = seq := by simpa using List.find?_some he
  refine .inr ⟨s, e, stream_ok.mp hs, hseq, List.mem_filter.mpr ⟨hmem, by simp⟩, rfl, ?_⟩
  simp only at hok
  split at hok
  · rename_i hfinal
    exact .inl ⟨hfinal, (Except.ok.inj hok).symm⟩
  · rename_i hmore
    exact .inr ⟨hmore, (Except.ok.inj hok).symm⟩

/-- The lanes after the first event of a stream is acknowledged. -/
theorem lane_acknowledged {s : ManagedRunEventStream} {e : ManagedRunEvent}
    (hs : db.findStream e.runId = some s) (j : String) :
    (db.acknowledged e).lane j =
      if j = e.runId then
        { run := (db.lane j).run, stream := some (s.acked e.seq e.payload.size)
          queue := (db.lane j).queue.filter fun t => t.seq ≠ e.seq }
      else db.lane j := by
  have hacked (s : ManagedRunEventStream) :
      (s.acked e.seq e.payload.size).runId = s.runId := rfl
  have hstream : (db.lane e.runId).stream = some s := hs
  rw [Db.acknowledged, lane_reviseStream hacked, lane_deleteEvent]
  split
  · rename_i hj
    subst hj
    simp only [hstream, Option.map_some]
  · rfl

theorem Db.Sound.acknowledged (h : db.Sound) (e : ManagedRunEvent) : (db.acknowledged e).Sound := by
  apply (h.deleteEvent e.runId e.seq).reviseStream
  intro s
  rfl

/-- The last acknowledgement takes the stream away. -/
theorem Db.Sound.settled (h : db.Sound) (e : ManagedRunEvent) : (db.settled e).Sound := by
  apply Db.Sound.deleteStreams
  apply (h.acknowledged e).reviseStream
  intro s
  rfl

/-- Only the stream of the final event can go, and only without its receipt. -/
theorem Db.Sound.lane_settled (h : db.Sound) {s : ManagedRunEventStream} {e : ManagedRunEvent}
    (hs : db.findStream e.runId = some s) (j : String) :
    (db.settled e).lane j =
      if j = e.runId then
        if (db.find e.runId).isNone then { run := none, stream := none, queue := [] }
        else
          { run := (db.lane j).run, stream := some (s.acked e.seq e.payload.size).cleared
            queue := (db.lane j).queue.filter fun t => t.seq ≠ e.seq }
      else db.lane j := by
  have hcleared (s : ManagedRunEventStream) : s.cleared.runId = s.runId := rfl
  have hsound := (h.acknowledged e).reviseStream e.runId hcleared
  have hlane : ((db.acknowledged e).reviseStream e.runId fun s => s.cleared).lane j =
      if j = e.runId then
        { run := (db.lane j).run, stream := some (s.acked e.seq e.payload.size).cleared
          queue := (db.lane j).queue.filter fun t => t.seq ≠ e.seq }
      else db.lane j := by
    rw [lane_reviseStream hcleared, lane_acknowledged hs]
    split <;> rfl
  rw [Db.settled, hsound.lane_deleteStreams]
  have hstream := congrArg Lane.stream hlane
  change ((db.acknowledged e).reviseStream e.runId fun s => s.cleared).findStream j = _ at hstream
  rw [hlane]
  by_cases hj : j = e.runId
  · subst hj
    rw [if_pos rfl] at hstream
    have hkey : (s.acked e.seq e.payload.size).cleared.runId = e.runId := by
      have := findStream_key hs
      exact this
    rw [hstream, Option.any_some, if_pos rfl, if_pos rfl, hkey, decide_eq_true rfl,
      Bool.true_and]
    split
    · rename_i hnone
      have hrun : (db.lane e.runId).run = none := Option.isNone_iff_eq_none.mp hnone
      rw [hrun]
    · rfl
  · have hother : (((db.acknowledged e).reviseStream e.runId fun s => s.cleared).findStream j).any
        (fun s => decide (s.runId = e.runId) && (db.find e.runId).isNone) = false := by
      rw [Bool.eq_false_iff, ne_eq, Option.any_eq_true]
      rintro ⟨t, ht, hgone⟩
      rw [Bool.and_eq_true, decide_eq_true_eq, findStream_key ht] at hgone
      exact hj hgone.1
    rw [hother, if_neg (by simp), if_neg hj, if_neg hj]

/-- An acknowledgement. -/
theorem acknowledge_moves (h : db.Sound) {seq : ℕ}
    (hok : acknowledgeManagedRunEvent db id seq = .ok db') :
    db'.Sound ∧ ∀ j, Move parse db (.acknowledge id seq) j (db.lane j) (db'.lane j) := by
  rcases acknowledge_ok hok with
    ⟨rfl, -⟩ | ⟨s, e, hs, hseq, he, rfl, ⟨hfinal, rfl⟩ | ⟨hmore, rfl⟩⟩
  · exact ⟨h, fun j => .same _ _ _⟩
  · obtain rfl := queue_runId he
    refine ⟨h.settled e, ?_⟩
    intro j
    rw [h.lane_settled hs]
    split
    · rename_i hj
      subst hj
      split
      · rename_i hnone
        exact .drained (Option.isNone_iff_eq_none.mp hnone) hs hseq hfinal.1 hfinal.2
      · rename_i hsome
        obtain ⟨r, hr⟩ := Option.ne_none_iff_exists'.mp fun hn => hsome
          (Option.isNone_iff_eq_none.mpr hn)
        exact .settled hr hs hseq he rfl hfinal.1 hfinal.2
    · exact .same _ _ _
  · obtain rfl := queue_runId he
    refine ⟨h.acknowledged e, ?_⟩
    intro j
    rw [lane_acknowledged hs]
    split
    · rename_i hj
      subst hj
      exact .acknowledged hs hseq he rfl hmore
    · exact .same _ _ _

/-- A lane under a cleanup: it stays, or its stream was complete and its run is gone. -/
theorem Db.Sound.cleanup_cases (h : db.Sound) (j : String) :
    (cleanupRetiredStreams db).lane j = db.lane j ∨
      ∃ s, db.findStream j = some s ∧ s.complete = true ∧ db.find j = none ∧
        (cleanupRetiredStreams db).lane j = { run := none, stream := none, queue := [] } := by
  rw [h.lane_cleanup]
  cases hs : db.findStream j with
  | none => exact .inl (by rw [Option.any_none, if_neg (by simp)])
  | some s =>
    rw [← hs, any_retired hs]
    split
    · rename_i hretired
      rw [Bool.and_eq_true, Option.isNone_iff_eq_none] at hretired
      refine .inr ⟨s, hs, hretired.1, hretired.2, ?_⟩
      rw [Db.lane, hretired.2]
    · exact .inl rfl

theorem Db.Sound.cleanup (h : db.Sound) : (cleanupRetiredStreams db).Sound :=
  h.deleteStreams

/-- A stream that admission makes, with the totals it was checked against. -/
theorem admitStream_ok {request : String} {run : ManagedRun} (hrun : db.find id = some run)
    (h : admitStream parse db id request = .ok db') :
    (cleanupRetiredStreams db).findStream id = none ∧
      ((((parse request).getD .null).get? "event_delivery" = none ∧
          db' = cleanupRetiredStreams db) ∨
        ∃ delivery, ((parse request).getD .null).get? "event_delivery" = some delivery ∧
          db' = { cleanupRetiredStreams db with
            streams := (cleanupRetiredStreams db).streams ++ [.fresh id delivery run.deadlineAt] } ∧
          db'.totals.1 + db'.totals.2.1 * maxManagedEventBytes ≤ maxTotalPending) := by
  unfold admitStream at h
  simp only at h
  split at h
  · cases h
  rename_i hretained
  refine ⟨by simpa using hretained, ?_⟩
  split at h
  · rename_i hdelivery
    exact .inl ⟨hdelivery, (Except.ok.inj h).symm⟩
  · rename_i delivery hdelivery
    have hget : (cleanupRetiredStreams db).get id = .ok run := get_ok.mpr hrun
    rw [hget] at h
    simp only [bind, Except.bind] at h
    split at h
    · cases h
    split at h
    · cases h
    rename_i hcapacity
    rw [not_or, not_lt] at hcapacity
    obtain rfl := Except.ok.inj h
    exact .inr ⟨delivery, hdelivery, rfl, hcapacity.1⟩

/-- An admission that inserts a receipt: what it checked, and the tables it made. -/
theorem admit_ok {sandboxId ownerId request : String} {now deadlineAt : ℤ} {run : ManagedRun}
    {created : Bool} (hnew : db.find id = none)
    (hok : admitManagedRun parse db id sandboxId ownerId request now deadlineAt =
      .ok (db', run, created)) :
    (∀ r ∈ db.runs, r.sandboxId = sandboxId → r.finishedAt = none →
        isolated parse request = true ∧ isolated parse r.requestJson = true) ∧
      admitStream parse { db with runs := db.runs ++
        [.starting id sandboxId ownerId request now deadlineAt] } id request = .ok db' ∧
      db'.find id = some run ∧ created = true := by
  unfold admitManagedRun at hok
  rw [hnew] at hok
  simp only at hok
  split at hok
  · cases hok
  split at hok
  · cases hok
  split at hok
  · cases hok
  split at hok
  · cases hok
  rename_i hisolated
  simp only [bind, Except.bind] at hok
  split at hok
  · cases hok
  rename_i final hstream
  split at hok
  · cases hok
  rename_i saved hsaved
  simp only [Except.ok.injEq, Prod.mk.injEq] at hok
  obtain ⟨rfl, rfl, rfl⟩ := hok
  refine ⟨?_, hstream, get_ok.mp hsaved, rfl⟩
  intro r hr hsandbox hopen
  rw [List.any_eq_true] at hisolated
  by_contra hboth
  apply hisolated
  refine ⟨r, hr, ?_⟩
  simp only [hsandbox, hopen, true_and, decide_eq_true_eq, Bool.or_eq_true, Bool.not_eq_true']
  rw [not_and_or] at hboth
  simpa using hboth

/-- A retry of an admission changes nothing and returns the receipt. -/
theorem admit_existing {sandboxId ownerId request : String} {now deadlineAt : ℤ}
    {run existing : ManagedRun} {created : Bool} (hfind : db.find id = some existing)
    (hok : admitManagedRun parse db id sandboxId ownerId request now deadlineAt =
      .ok (db', run, created)) : db' = db ∧ run = existing ∧ created = false := by
  unfold admitManagedRun at hok
  rw [hfind] at hok
  simp only at hok
  split at hok
  · simp only [Except.ok.injEq, Prod.mk.injEq] at hok
    exact ⟨hok.1.symm, hok.2.1.symm, hok.2.2.symm⟩
  · cases hok

/-- The inserted receipt, found again in the tables. -/
theorem find_starting {sandboxId ownerId request : String} {now deadlineAt : ℤ}
    (hfind : db.find id = none) :
    ({ db with runs := db.runs ++ [.starting id sandboxId ownerId request now deadlineAt] } :
      Db).find id = some (.starting id sandboxId ownerId request now deadlineAt) := by
  have hlane := lane_addRun (j := id)
    (r := .starting id sandboxId ownerId request now deadlineAt) hfind
  rw [if_pos (by rfl)] at hlane
  exact congrArg Lane.run hlane

/-- An admission. -/
theorem admit_moves (h : db.Sound) {sandboxId ownerId request : String} {now deadlineAt : ℤ}
    {run : ManagedRun} {created : Bool}
    (hok : admitManagedRun parse db id sandboxId ownerId request now deadlineAt =
      .ok (db', run, created)) :
    db'.Sound ∧ ∀ j, Move parse db (.admission id sandboxId ownerId request now deadlineAt) j
      (db.lane j) (db'.lane j) := by
  cases hfind : db.find id with
  | some existing =>
    rw [(admit_existing hfind hok).1]
    exact ⟨h, fun j => .same _ _ _⟩
  | none =>
    obtain ⟨-, hstream, -⟩ := admit_ok hfind hok
    -- the receipt is inserted first, so the id's own stream is never cleaned up here
    have hmid := h.addRun (r := .starting id sandboxId ownerId request now deadlineAt) hfind
    have hlane (j : String) := lane_addRun (j := j)
      (r := .starting id sandboxId ownerId request now deadlineAt) hfind
    set mid : Db := { db with runs := db.runs ++
      [.starting id sandboxId ownerId request now deadlineAt] }
    have hrun : mid.find id = some (.starting id sandboxId ownerId request now deadlineAt) :=
      find_starting hfind
    obtain ⟨hnone, hcase⟩ := admitStream_ok hrun hstream
    have hself : (cleanupRetiredStreams mid).lane id = mid.lane id := by
      rcases hmid.cleanup_cases id with hsame | ⟨s, -, -, hgone, -⟩
      · exact hsame
      · rw [hrun] at hgone
        cases hgone
    have hstream' : db.findStream id = none :=
      (congrArg Lane.stream hself).symm.trans hnone
    have hqueue := h.queue_nil hstream'
    have hother (j : String) (hj : j ≠ id) :
        Move parse db (.admission id sandboxId ownerId request now deadlineAt) j (db.lane j)
          ((cleanupRetiredStreams mid).lane j) := by
      have hj' : mid.lane j = db.lane j := (hlane j).trans (if_neg hj)
      rcases hmid.cleanup_cases j with hsame | ⟨s, hs, hcomplete, hgone, heq⟩
      · rw [hsame, hj']
        exact .same _ _ _
      · rw [heq]
        refine .cleaned ?_ ((congrArg Lane.stream hj').symm.trans hs) hcomplete
        intro r hr
        rw [← hj'] at hr
        cases hgone.symm.trans hr
    have hlaneId : (cleanupRetiredStreams mid).lane id =
        { run := some (.starting id sandboxId ownerId request now deadlineAt)
          stream := none, queue := [] } := by
      rw [hself, hlane, if_pos (by rfl), Db.lane, hstream', hqueue]
    rcases hcase with ⟨hdelivery, rfl⟩ | ⟨delivery, hdelivery, rfl, -⟩
    · refine ⟨hmid.cleanup, ?_⟩
      intro j
      by_cases hj : j = id
      · subst hj
        rw [hlaneId]
        exact .admitted hfind hstream' hdelivery
      · exact hother j hj
    · refine ⟨hmid.cleanup.addStream hnone, ?_⟩
      intro j
      rw [lane_addStream hnone]
      by_cases hj : j = id
      · subst hj
        rw [if_pos (by rfl), hlaneId]
        exact .admitted hfind hstream' hdelivery
      · rw [if_neg (by exact hj)]
        exact hother j hj

/-- A cascade. -/
theorem cascade_moves (h : db.Sound) {op : Op} {gone : Sandbox → Bool}
    (hgone : ∀ b, gone b = true → op.deletes db b = true) (j : String) :
    Move parse db op j (db.lane j) ((db.cascade gone).lane j) := by
  rcases h.lane_cascade gone j with hsame | ⟨r, b, hr, hb, hgb, hbid, heq⟩
  · rw [hsame]
    exact .same _ _ _
  · rw [heq]
    exact .deleted hr ⟨b, hb, hgone b hgb, hbid⟩

/-- The deletion of a sandbox. -/
theorem deleteSandbox_moves (h : db.Sound) (j : String) :
    Move parse db (.deleteSandbox id) j (db.lane j) ((deleteSandbox db id).lane j) := by
  rcases h.cascade.cleanup_cases j with hsame | ⟨s, hs, hcomplete, hnone, heq⟩
  · rw [deleteSandbox, hsame]
    exact cascade_moves h (fun b hb => hb) j
  · rw [deleteSandbox, heq]
    refine .cleaned ?_ hs hcomplete
    intro r hr
    rcases h.lane_cascade (fun b => b.id = id) j with
      hsame | ⟨r', b, hr', hb, hgb, hbid, -⟩
    · have hkept := congrArg Lane.run hsame
      cases hnone.symm.trans (hkept.trans hr)
    · obtain rfl : r' = r := Option.some.inj (hr'.symm.trans hr)
      exact ⟨b, hb, hgb, hbid⟩

/-- A committed proof of retirement deletes at most the sandbox of its reservation. -/
theorem confirm_ok {owner volume : String} {released complete first : Bool}
    (hok : confirmReplicatedRetirement db owner volume released complete = .ok (db', first)) :
    ∃ gone rows, db' = { db.cascade gone with reservations := rows } ∧
      ∀ b, gone b = true →
        (Op.confirmRetirement owner volume released complete).deletes db b = true := by
  have hany : (db.sandboxes.any fun _ => false) = false := by
    rw [List.any_eq_false]
    simp
  have hnothing : db.cascade (fun _ => false) = db := by
    simp [Db.cascade, hany]
  unfold confirmReplicatedRetirement at hok
  split at hok
  · cases hok
  split at hok
  · cases hok
  rename_i row hrow
  split at hok
  · obtain ⟨rfl, -⟩ := Prod.mk.inj (Except.ok.inj hok)
    exact ⟨fun _ => false, db.reservations, by rw [hnothing], by simp⟩
  split at hok
  · cases hok
  simp only at hok
  split at hok
  · cases hok
  obtain ⟨rfl, -⟩ := Prod.mk.inj (Except.ok.inj hok)
  have hrow' := (Option.filter_eq_some_iff.mp hrow).1
  split
  · refine ⟨fun b => b.id = row.sandboxId, _, rfl, ?_⟩
    intro b hb
    rw [Op.deletes, hrow', Option.any_some]
    rw [decide_eq_true_eq] at hb ⊢
    exact hb.symm
  · exact ⟨fun _ => false, _, by rw [hnothing], by simp⟩

/-- The confirmation of a retirement. -/
theorem confirm_moves (h : db.Sound) {owner volume : String} {released complete first : Bool}
    (hok : confirmReplicatedRetirement db owner volume released complete = .ok (db', first)) :
    db'.Sound ∧ ∀ j, Move parse db (.confirmRetirement owner volume released complete) j
      (db.lane j) (db'.lane j) := by
  obtain ⟨gone, rows, rfl, hgone⟩ := confirm_ok hok
  exact ⟨{ h.cascade with }, cascade_moves h hgone⟩

/-- Every committed operation keeps the keys and moves every lane. -/
theorem Op.body_moves {op : Op} {reply : Reply} (h : db.Sound)
    (hok : op.body parse db = .ok (db', reply)) :
    db'.Sound ∧ ∀ j, Move parse db op j (db.lane j) (db'.lane j) := by
  cases op with
  | admission id sandboxId ownerId requestJson now deadlineAt =>
    obtain ⟨⟨final, run, created⟩, hadmitted, hok⟩ := bind_ok hok
    obtain ⟨rfl, -⟩ := Prod.mk.inj (Except.ok.inj hok)
    exact admit_moves h hadmitted
  | claim id now =>
    obtain ⟨⟨final, run⟩, hclaim, hok⟩ := bind_ok hok
    obtain ⟨rfl, -⟩ := Prod.mk.inj (Except.ok.inj hok)
    exact claim_moves h hclaim
  | update id epoch report now =>
    obtain ⟨⟨final, run⟩, hupdate, hok⟩ := bind_ok hok
    obtain ⟨rfl, -⟩ := Prod.mk.inj (Except.ok.inj hok)
    exact update_moves h hupdate
  | checkpoint id epoch offset guestSeq text now =>
    obtain ⟨final, hcheckpoint, hok⟩ := bind_ok hok
    obtain ⟨rfl, -⟩ := Prod.mk.inj (Except.ok.inj hok)
    exact checkpoint_moves h hcheckpoint
  | failSource id epoch =>
    obtain ⟨final, hfail, hok⟩ := bind_ok hok
    obtain ⟨rfl, -⟩ := Prod.mk.inj (Except.ok.inj hok)
    exact failSource_moves h hfail
  | acknowledge id seq =>
    obtain ⟨final, hack, hok⟩ := bind_ok hok
    obtain ⟨rfl, -⟩ := Prod.mk.inj (Except.ok.inj hok)
    exact acknowledge_moves h hack
  | cleanup =>
    obtain ⟨rfl, -⟩ := Prod.mk.inj (Except.ok.inj hok)
    refine ⟨h.cleanup, ?_⟩
    intro j
    rcases h.cleanup_cases j with hsame | ⟨s, hs, hcomplete, hnone, heq⟩
    · rw [hsame]
      exact .same _ _ _
    · rw [heq]
      refine .cleaned ?_ hs hcomplete
      intro r hr
      cases hnone.symm.trans hr
  | createSandbox sandbox =>
    rw [Op.body] at hok
    split at hok
    · cases hok
    · obtain ⟨rfl, -⟩ := Prod.mk.inj (Except.ok.inj hok)
      exact ⟨{ h with }, fun j => .same _ _ _⟩
  | deleteSandbox id =>
    obtain ⟨rfl, -⟩ := Prod.mk.inj (Except.ok.inj hok)
    exact ⟨h.cascade.cleanup, deleteSandbox_moves h⟩
  | stopAfterDelete id =>
    obtain ⟨rfl, -⟩ := Prod.mk.inj (Except.ok.inj hok)
    exact ⟨h.cascade, cascade_moves h fun b hb => hb⟩
  | deleteUser id =>
    obtain ⟨rfl, -⟩ := Prod.mk.inj (Except.ok.inj hok)
    exact ⟨h.cascade, cascade_moves h fun b hb => hb⟩
  | confirmRetirement owner volume released complete =>
    obtain ⟨⟨final, first⟩, hconfirm, hok⟩ := bind_ok hok
    obtain ⟨rfl, -⟩ := Prod.mk.inj (Except.ok.inj hok)
    exact confirm_moves h hconfirm
  | reserve rows =>
    obtain ⟨rfl, -⟩ := Prod.mk.inj (Except.ok.inj hok)
    exact ⟨{ h with }, fun j => .same _ _ _⟩

end Moves

end AgentHouse.Runs
