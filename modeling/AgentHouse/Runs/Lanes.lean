import AgentHouse.Runs.Store

/-!
# One lane for each run id

The operations on the store as transactions, and what belongs to one run id: its receipt, its
event stream and its queue of events. The lemmas say what each statement that an operation
is made of does to the lanes, as long as keys are unique and events belong to streams.
-/

namespace AgentHouse.Runs

/-- The operations on the store. `stopAfterDelete` is `delete_sandbox` in a process that stops
after the first of its two statements; `reserve` is any change that other functions make to
the reservations. -/
inductive Op where
  | admission (id sandboxId ownerId requestJson : String) (now deadlineAt : ℤ)
  | claim (id : String) (now : ℤ)
  | update (id : String) (epoch : ℤ) (report : Report) (now : ℤ)
  | checkpoint (id : String) (epoch : ℤ) (offset guestSeq : ℕ) (text : String) (now : ℤ)
  | failSource (id : String) (epoch : ℤ)
  | acknowledge (id : String) (seq : ℕ)
  | cleanup
  | createSandbox (sandbox : Sandbox)
  | deleteSandbox (id : String)
  | stopAfterDelete (id : String)
  | deleteUser (id : String)
  | confirmRetirement (owner volume : String) (logicalReleased reclamationComplete : Bool)
  | reserve (rows : List ReplicatedReservation)

/-- What a call answers. -/
inductive Reply where
  | done
  | run (run : ManagedRun) (created : Bool)
  | released (first : Bool)

/-- Commit on success, roll back on failure. -/
def transaction {α : Type} (body : Db → Result (Db × α)) (db : Db) : Db × Result α :=
  match body db with
  | .ok (db', a) => (db', .ok a)
  | .error e => (db, .error e)

section Exec

variable (parse : String → Option Json)

/-- A call on the whole database. -/
def Op.body : Op → Db → Result (Db × Reply)
  | admission id sandboxId ownerId requestJson now deadlineAt, db => do
      let (db, run, created) ←
        admitManagedRun parse db id sandboxId ownerId requestJson now deadlineAt
      .ok (db, .run run created)
  | claim id now, db => do
      let (db, run) ← claimManagedRun db id now
      .ok (db, .run run false)
  | update id epoch report now, db => do
      let (db, run) ← updateManagedRun parse db id epoch report now
      .ok (db, .run run false)
  | checkpoint id epoch offset guestSeq text now, db => do
      let db ← appendManagedRunCheckpoint parse db id epoch offset guestSeq text now
      .ok (db, .done)
  | failSource id epoch, db => do
      let db ← failManagedRunEventSource db id epoch
      .ok (db, .done)
  | acknowledge id seq, db => do
      let db ← acknowledgeManagedRunEvent db id seq
      .ok (db, .done)
  | cleanup, db => .ok (cleanupRetiredStreams db, .done)
  | createSandbox sandbox, db =>
      if (Table.row Sandbox.id sandbox.id db.sandboxes).isSome then .error .sqlite
      else .ok ({ db with sandboxes := db.sandboxes ++ [sandbox] }, .done)
  | deleteSandbox id, db => .ok (Runs.deleteSandbox db id, .done)
  | stopAfterDelete id, db => .ok (db.cascade fun b => b.id = id, .done)
  | deleteUser id, db => .ok (db.cascade fun b => b.ownerUserId = id, .done)
  | confirmRetirement owner volume logicalReleased reclamationComplete, db => do
      let (db, first) ←
        confirmReplicatedRetirement db owner volume logicalReleased reclamationComplete
      .ok (db, .released first)
  | reserve rows, db => .ok ({ db with reservations := rows }, .done)

/-- One operation as a transaction. -/
def Op.exec (op : Op) : Db → Db × Result Reply :=
  transaction (op.body parse)

end Exec

/-- The sandboxes that an operation deletes. -/
def Op.deletes (db : Db) : Op → Sandbox → Bool
  | deleteSandbox id, b | stopAfterDelete id, b => b.id = id
  | deleteUser id, b => b.ownerUserId = id
  | confirmRetirement _ volume _ _, b =>
      (Table.row ReplicatedReservation.volumeId volume db.reservations).any
        (fun row => row.sandboxId = b.id)
  | _, _ => false

/-- The operation deletes the run's sandbox. -/
def Op.Dooms (db : Db) (op : Op) (run : ManagedRun) : Prop :=
  ∃ b ∈ db.sandboxes, op.deletes db b = true ∧ b.id = run.sandboxId

/-- What belongs to one run id. -/
structure Lane where
  run : Option ManagedRun
  stream : Option ManagedRunEventStream
  queue : List ManagedRunEvent

/-- The events of a run. -/
def Db.queue (db : Db) (id : String) : List ManagedRunEvent :=
  db.events.filter (fun e => e.runId = id)

/-- All that the database has about a run. -/
def Db.lane (db : Db) (id : String) : Lane :=
  { run := db.find id, stream := db.findStream id, queue := db.queue id }

/-- Keys are unique, and every event belongs to a stream. -/
structure Db.Sound (db : Db) : Prop where
  runs : Table.Keyed ManagedRun.id db.runs
  streams : Table.Keyed ManagedRunEventStream.runId db.streams
  owned : ∀ e ∈ db.events, (db.findStream e.runId).isSome

section Parts

variable {db : Db} {id j : String}

/-- A run that is found has the id that was asked for. -/
theorem find_key {r : ManagedRun} (h : db.find id = some r) : r.id = id :=
  (Table.row_mem h).2

theorem findStream_key {s : ManagedRunEventStream} (h : db.findStream id = some s) :
    s.runId = id :=
  (Table.row_mem h).2

/-- A run is got if and only if it is found. -/
theorem get_ok {r : ManagedRun} : db.get id = .ok r ↔ db.find id = some r := by
  unfold Db.get
  cases db.find id <;> simp

theorem stream_ok {s : ManagedRunEventStream} :
    db.stream id = .ok s ↔ db.findStream id = some s := by
  unfold Db.stream
  cases db.findStream id <;> simp

/-- The events of a queue are of its run. -/
theorem queue_runId {e : ManagedRunEvent} (h : e ∈ db.queue id) : e.runId = id := by
  simpa using (List.mem_filter.mp h).2

/-- A run without a stream has no events. -/
theorem Db.Sound.queue_nil (h : db.Sound) (hs : db.findStream id = none) : db.queue id = [] := by
  rw [Db.queue, List.filter_eq_nil_iff]
  intro e he hid
  have hid : e.runId = id := by simpa using hid
  have := h.owned e he
  rw [hid, hs] at this
  cases this

section Revise

variable {f : ManagedRun → ManagedRun}

theorem find_reviseRun (hf : ∀ r, (f r).id = r.id) :
    (db.reviseRun id f).find j = if j = id then (db.find j).map f else db.find j :=
  Table.row_revise hf

/-- Each change of the tables, seen from one lane: a change of a run. -/
theorem lane_reviseRun (hf : ∀ r, (f r).id = r.id) :
    (db.reviseRun id f).lane j =
      if j = id then { db.lane j with run := (db.lane j).run.map f } else db.lane j := by
  rw [Db.lane, find_reviseRun hf]
  split <;> rfl

/-- It keeps the tables in order. -/
theorem Db.Sound.reviseRun (h : db.Sound) (id : String) (hf : ∀ r, (f r).id = r.id) :
    (db.reviseRun id f).Sound :=
  { runs := h.runs.revise hf, streams := h.streams, owned := h.owned }

end Revise

section ReviseStream

variable {f : ManagedRunEventStream → ManagedRunEventStream}

theorem findStream_reviseStream (hf : ∀ s, (f s).runId = s.runId) :
    (db.reviseStream id f).findStream j =
      if j = id then (db.findStream j).map f else db.findStream j :=
  Table.row_revise hf

/-- A change of a stream. -/
theorem lane_reviseStream (hf : ∀ s, (f s).runId = s.runId) :
    (db.reviseStream id f).lane j =
      if j = id then { db.lane j with stream := (db.lane j).stream.map f } else db.lane j := by
  rw [Db.lane, findStream_reviseStream hf]
  split <;> rfl

/-- It keeps them in order as well. -/
theorem Db.Sound.reviseStream (h : db.Sound) (id : String) (hf : ∀ s, (f s).runId = s.runId) :
    (db.reviseStream id f).Sound where
  runs := h.runs
  streams := h.streams.revise hf
  owned := by
    intro e he
    rw [findStream_reviseStream hf]
    split
    · rw [Option.isSome_map]
      exact h.owned e he
    · exact h.owned e he

end ReviseStream

section DeleteStreams

variable {gone : ManagedRunEventStream → Bool}

theorem Db.Sound.findStream_deleteStreams (h : db.Sound) :
    (db.deleteStreams gone).findStream j = (db.findStream j).filter (fun s => !gone s) :=
  h.streams.row_filter

theorem Db.Sound.any_gone (h : db.Sound) :
    (db.streams.any fun s => gone s && decide (s.runId = j)) =
      (db.findStream j).any gone := by
  rw [Bool.eq_iff_iff, List.any_eq_true, Option.any_eq_true]
  constructor
  · rintro ⟨s, hs, hgone⟩
    rw [Bool.and_eq_true, decide_eq_true_eq] at hgone
    obtain ⟨hgone, rfl⟩ := hgone
    exact ⟨s, h.streams.row_of_mem hs, hgone⟩
  · rintro ⟨s, hs, hgone⟩
    obtain ⟨hmem, hid⟩ := Table.row_mem hs
    exact ⟨s, hmem, by simp [hgone, hid]⟩

/-- The events of deleted streams go. -/
theorem Db.Sound.queue_deleteStreams (h : db.Sound) :
    (db.deleteStreams gone).queue j =
      if (db.findStream j).any gone then [] else db.queue j := by
  rw [Db.queue, Db.deleteStreams, List.filter_filter]
  split
  · rename_i hgone
    rw [List.filter_eq_nil_iff]
    intro e _ hkeep
    simp only [Bool.and_eq_true, decide_eq_true_eq] at hkeep
    obtain ⟨hid, hkeep⟩ := hkeep
    rw [h.any_gone, hid, hgone] at hkeep
    cases hkeep
  · rename_i hgone
    rw [Db.queue]
    apply List.filter_congr
    intro e _
    by_cases hid : e.runId = j
    · rw [h.any_gone, hid, Bool.eq_false_iff.mpr hgone, Bool.not_false, Bool.and_true]
    · simp [hid]

/-- A lane either loses its stream with its whole queue, or stays. -/
theorem Db.Sound.lane_deleteStreams (h : db.Sound) :
    (db.deleteStreams gone).lane j =
      if (db.findStream j).any gone then { db.lane j with stream := none, queue := [] }
      else db.lane j := by
  rw [Db.lane, h.findStream_deleteStreams, h.queue_deleteStreams]
  cases hs : db.findStream j with
  | none => simp [Db.lane, hs]; rfl
  | some s =>
    cases hg : gone s with
    | true => simp [hg, Db.lane]; rfl
    | false => simp [hg, Db.lane, hs]; rfl

/-- And leave the tables in order. -/
theorem Db.Sound.deleteStreams (h : db.Sound) : (db.deleteStreams gone).Sound where
  runs := h.runs
  streams := h.streams.filter
  owned := by
    intro e he
    obtain ⟨he, hkeep⟩ := List.mem_filter.mp he
    rw [h.any_gone] at hkeep
    rw [h.findStream_deleteStreams]
    obtain ⟨s, hs⟩ := Option.isSome_iff_exists.mp (h.owned e he)
    rw [hs] at hkeep ⊢
    simp only [Option.any_some] at hkeep
    simp [hkeep]

end DeleteStreams

/-- A cleanup takes retired lanes away. -/
theorem Db.Sound.lane_cleanup (h : db.Sound) :
    (cleanupRetiredStreams db).lane j =
      if (db.findStream j).any (retired db) then { db.lane j with stream := none, queue := [] }
      else db.lane j :=
  h.lane_deleteStreams

/-- A stream is retired if it is complete and its run is gone. -/
theorem any_retired {s : ManagedRunEventStream} (h : db.findStream j = some s) :
    (db.findStream j).any (retired db) = (s.complete && (db.find j).isNone) := by
  rw [h, Option.any_some, retired, findStream_key h]

section DeleteEvent

variable {seq : ℕ}

/-- The deletion of an event. -/
theorem lane_deleteEvent : (db.deleteEvent id seq).lane j =
    if j = id then { db.lane j with queue := (db.lane j).queue.filter fun e => e.seq ≠ seq }
    else db.lane j := by
  have hqueue : (db.deleteEvent id seq).queue j =
      (db.queue j).filter fun e => ¬(j = id ∧ e.seq = seq) := by
    rw [Db.queue, Db.deleteEvent, Db.queue, List.filter_filter, List.filter_filter]
    apply List.filter_congr
    intro e _
    by_cases hj : e.runId = j
    · subst hj
      simp
    · simp [hj]
  rw [Db.lane, hqueue]
  split
  · rename_i hj
    simp only [hj, true_and]
    rfl
  · rename_i hj
    simp only [hj, false_and, not_false_eq_true, decide_true, List.filter_true]
    rfl

theorem Db.Sound.deleteEvent (h : db.Sound) (id : String) (seq : ℕ) :
    (db.deleteEvent id seq).Sound :=
  { runs := h.runs, streams := h.streams
    owned := fun e he => h.owned e (List.mem_of_mem_filter he) }

end DeleteEvent

section Insert

/-- A new run. -/
theorem lane_addRun {r : ManagedRun} (hr : db.find r.id = none) :
    ({ db with runs := db.runs ++ [r] } : Db).lane j =
      if j = r.id then { db.lane j with run := some r } else db.lane j := by
  have hfind : ({ db with runs := db.runs ++ [r] } : Db).find j =
      if j = r.id then some r else db.find j := Table.row_append hr
  rw [Db.lane, hfind]
  split <;> rfl

/-- A new run keeps the tables in order. -/
theorem Db.Sound.addRun (h : db.Sound) {r : ManagedRun} (hr : db.find r.id = none) :
    ({ db with runs := db.runs ++ [r] } : Db).Sound :=
  { runs := h.runs.append hr, streams := h.streams, owned := h.owned }

variable {s : ManagedRunEventStream}

theorem findStream_addStream (hs : db.findStream s.runId = none) :
    ({ db with streams := db.streams ++ [s] } : Db).findStream j =
      if j = s.runId then some s else db.findStream j :=
  Table.row_append hs

/-- A new stream. -/
theorem lane_addStream (hs : db.findStream s.runId = none) :
    ({ db with streams := db.streams ++ [s] } : Db).lane j =
      if j = s.runId then { db.lane j with stream := some s } else db.lane j := by
  rw [Db.lane, findStream_addStream hs]
  split <;> rfl

/-- A new stream does so too. -/
theorem Db.Sound.addStream (h : db.Sound) (hs : db.findStream s.runId = none) :
    ({ db with streams := db.streams ++ [s] } : Db).Sound where
  runs := h.runs
  streams := h.streams.append hs
  owned := by
    intro e he
    rw [findStream_addStream hs]
    split
    · rfl
    · exact h.owned e he

end Insert

section Cascade

variable {gone : Sandbox → Bool}

/-- The runs of deleted sandboxes go. -/
theorem Db.Sound.find_cascade (h : db.Sound) :
    (db.cascade gone).find j = (db.find j).filter fun r =>
      !db.sandboxes.any fun b => gone b && decide (b.id = r.sandboxId) :=
  h.runs.row_filter

/-- And leave the tables in order. -/
theorem Db.Sound.cascade (h : db.Sound) : (db.cascade gone).Sound :=
  { runs := h.runs.filter, streams := h.streams, owned := h.owned }

/-- A lane keeps its receipt, or loses it because its sandbox goes. -/
theorem Db.Sound.lane_cascade (h : db.Sound) (gone : Sandbox → Bool) (j : String) :
    (db.cascade gone).lane j = db.lane j ∨
      ∃ r b, db.find j = some r ∧ b ∈ db.sandboxes ∧ gone b = true ∧ b.id = r.sandboxId ∧
        (db.cascade gone).lane j = { db.lane j with run := none } := by
  have hlane : (db.cascade gone).lane j = { db.lane j with run := (db.cascade gone).find j } := rfl
  rw [hlane, h.find_cascade]
  cases hr : db.find j with
  | none => exact .inl (by simp [Db.lane, hr])
  | some r =>
    cases hany : db.sandboxes.any fun b => gone b && decide (b.id = r.sandboxId) with
    | false => exact .inl (by simp [Db.lane, hr, hany])
    | true =>
      obtain ⟨b, hb, hgone⟩ := List.any_eq_true.mp hany
      rw [Bool.and_eq_true, decide_eq_true_eq] at hgone
      exact .inr ⟨r, b, rfl, hb, hgone.1, hgone.2,
        by rw [Option.filter_some_neg (by rw [hany]; rfl)]⟩

end Cascade

end Parts

end AgentHouse.Runs
