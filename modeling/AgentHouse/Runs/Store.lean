import AgentHouse.Lib.Json
import AgentHouse.Lib.Tables

/-!
# The managed-run tables and their transactions

The rows of `schema.rs` that runs and their event outbox use, with the functions of
`runs.rs` and `run_events.rs` over them. A function of the store reads and writes one value
of `Db`; `transaction` commits what it made, or keeps the old value when it fails. Reading
JSON text is left to a parameter `parse`. Times, epochs and counters are unbounded numbers
here; the source's range checks on them are kept.
-/

namespace AgentHouse.Runs

/-- The errors of the store, with the texts of refusals. -/
inductive Error where
  | sqlite
  | notFound (what : String)
  | conflict (why : String)
  | json
deriving DecidableEq, Repr

/-- A call of the store. -/
abbrev Result := Except Error

/-- `MAX_MANAGED_EVENT_BYTES` -/
def maxManagedEventBytes : ℕ := 300 * 1024

/-- `MAX_RUN_PENDING` -/
def maxRunPending : ℕ := 8 * 1024 * 1024

/-- `MAX_TOTAL_PENDING` -/
def maxTotalPending : ℕ := 128 * 1024 * 1024

/-- `MAX_PENDING_STREAMS` -/
def maxPendingStreams : ℕ := 4096

/-- `MAX_RETAINED` -/
def maxRetained : ℕ := 4096

/-- The length that a checkpoint may have. -/
def maxCheckpointBytes : ℕ := 262144
/-- The largest value of an `i64`. -/
def i64Max : ℕ := 2 ^ 63 - 1

/-- The phases of a run. -/
inductive Phase where
  | starting
  | running
  | uncertain
  | cancelling
  | succeeded
  | failed
  | interrupted
deriving DecidableEq, Repr

/-- The name of a phase in the database. -/
def Phase.name : Phase → String
  | starting => "starting"
  | running => "running"
  | uncertain => "uncertain"
  | cancelling => "cancelling"
  | succeeded => "succeeded"
  | failed => "failed"
  | interrupted => "interrupted"

/-- The run is over. -/
def Phase.terminal : Phase → Bool
  | succeeded | failed | interrupted => true
  | _ => false

/-- The phase of a name. -/
def Phase.parse (name : String) : Option Phase :=
  [Phase.starting, .running, .uncertain, .cancelling, .succeeded, .failed,
    .interrupted].find? (fun phase => phase.name = name)

/-- A row of `managed_runs`. -/
structure ManagedRun where
  id : String
  sandboxId : String
  ownerId : String
  requestJson : String
  phase : Phase
  epoch : ℤ
  sessionId : Option String
  bootId : Option String
  createdAt : ℤ
  updatedAt : ℤ
  deadlineAt : ℤ
  finishedAt : Option ℤ
  exitCode : Option ℤ
  detail : Option String
deriving DecidableEq, Repr

/-- The row that admission inserts. -/
def ManagedRun.starting (id sandboxId ownerId requestJson : String) (now deadlineAt : ℤ) :
    ManagedRun :=
  { id, sandboxId, ownerId, requestJson, phase := .starting, epoch := 1, sessionId := none
    bootId := none, createdAt := now, updatedAt := now, deadlineAt, finishedAt := none
    exitCode := none, detail := none }

/-- A run at its next epoch. -/
def ManagedRun.claimed (run : ManagedRun) (now : ℤ) : ManagedRun :=
  { run with epoch := run.epoch + 1, updatedAt := now }

/-- A row of `managed_run_event_streams`. -/
structure ManagedRunEventStream where
  runId : String
  deliveryJson : String
  retryUntil : ℤ
  sourceOffset : ℕ := 0
  guestSeq : ℕ := 0
  nextEventSeq : ℕ := 1
  ackedSeq : ℕ := 0
  checkpointJson : Option String := none
  pendingBytes : ℕ := 0
  sourceFailed : Bool := false
  isSealed : Bool := false
deriving DecidableEq, Repr

namespace ManagedRunEventStream

/-- The row that admission inserts. -/
def fresh (id : String) (delivery : Json) (deadlineAt : ℤ) : ManagedRunEventStream :=
  { runId := id, deliveryJson := delivery.render, retryUntil := deadlineAt + 7 * 86400 }

/-- One more event of `size` bytes; the final one seals the stream. -/
def stored (s : ManagedRunEventStream) (size : ℕ) (final : Bool) : ManagedRunEventStream :=
  { s with
    nextEventSeq := s.nextEventSeq + 1
    pendingBytes := s.pendingBytes + size
    isSealed := final }

/-- The guest cursor and its projection. -/
def advanced (s : ManagedRunEventStream) (offset guestSeq : ℕ) (checkpoint : String) :
    ManagedRunEventStream :=
  { s with sourceOffset := offset, guestSeq := guestSeq, checkpointJson := some checkpoint }

/-- The source has failed: no checkpoint follows. -/
def failed (s : ManagedRunEventStream) : ManagedRunEventStream :=
  { s with sourceFailed := true, checkpointJson := none }

/-- The first event, of `size` bytes, is acknowledged. -/
def acked (s : ManagedRunEventStream) (seq size : ℕ) : ManagedRunEventStream :=
  { s with ackedSeq := seq, pendingBytes := s.pendingBytes - size }

/-- Nothing is left to deliver: the private data goes. -/
def cleared (s : ManagedRunEventStream) : ManagedRunEventStream :=
  { s with deliveryJson := "\x7b\x7d", checkpointJson := none }

/-- The final event is stored and every event is acknowledged. -/
def complete (s : ManagedRunEventStream) : Bool :=
  s.isSealed && decide (s.ackedSeq = s.nextEventSeq - 1)

end ManagedRunEventStream

/-- An event row. Its text is the compact rendering of the document. -/
structure ManagedRunEvent where
  runId : String
  seq : ℕ
  payload : Json
  createdAt : ℤ

/-- A row of `sandboxes`, as far as runs go. -/
structure Sandbox where
  id : String
  ownerUserId : String
deriving DecidableEq, Repr

/-- The states of a reservation. -/
inductive ReservationState where
  | reserved
  | deleting
  | reclaimed
deriving DecidableEq, Repr

/-- A row of `replicated_reservations`, as far as runs go. -/
structure ReplicatedReservation where
  volumeId : String
  ownerUserId : String
  sandboxId : String
  state : ReservationState
  logicalReleased : Bool
deriving DecidableEq, Repr

/-- The tables of managed runs. -/
structure Db where
  sandboxes : List Sandbox := []
  runs : List ManagedRun := []
  streams : List ManagedRunEventStream := []
  events : List ManagedRunEvent := []
  reservations : List ReplicatedReservation := []

namespace Db

/-- `runs::find`. -/
def find (db : Db) (id : String) : Option ManagedRun :=
  Table.row ManagedRun.id id db.runs

/-- `runs::get`. -/
def get (db : Db) (id : String) : Result ManagedRun :=
  match db.find id with
  | some run => .ok run
  | none => .error (.notFound s!"managed run {id}")

/-- The stream of a run. -/
def findStream (db : Db) (id : String) : Option ManagedRunEventStream :=
  Table.row ManagedRunEventStream.runId id db.streams

/-- `run_events::stream`. -/
def stream (db : Db) (id : String) : Result ManagedRunEventStream :=
  match db.findStream id with
  | some source => .ok source
  | none => .error (.notFound s!"managed run event stream {id}")

/-- The run of an id changes. -/
def reviseRun (db : Db) (id : String) (f : ManagedRun → ManagedRun) : Db :=
  { db with runs := Table.revise ManagedRun.id id f db.runs }

/-- The stream of a run changes. -/
def reviseStream (db : Db) (id : String)
    (f : ManagedRunEventStream → ManagedRunEventStream) : Db :=
  { db with streams := Table.revise ManagedRunEventStream.runId id f db.streams }

/-- An event is deleted. -/
def deleteEvent (db : Db) (id : String) (seq : ℕ) : Db :=
  { db with events := db.events.filter fun e => ¬(e.runId = id ∧ e.seq = seq) }

/-- Delete streams, and by the foreign key the events of those that are gone. -/
def deleteStreams (db : Db) (gone : ManagedRunEventStream → Bool) : Db :=
  { db with
    streams := db.streams.filter (fun s => !gone s)
    events := db.events.filter fun e =>
      !db.streams.any fun s => gone s && decide (s.runId = e.runId) }

/-- Delete sandboxes, and by the foreign key their runs. -/
def cascade (db : Db) (gone : Sandbox → Bool) : Db :=
  { db with
    sandboxes := db.sandboxes.filter (fun b => !gone b)
    runs := db.runs.filter fun r =>
      !db.sandboxes.any fun b => gone b && decide (b.id = r.sandboxId) }

/-- Pending bytes, unsealed streams, and streams that still have something to deliver. -/
def totals (db : Db) : ℕ × ℕ × ℕ :=
  ((db.streams.map (·.pendingBytes)).sum,
    (db.streams.map fun s => if s.isSealed then 0 else 1).sum,
    (db.streams.map fun s =>
      if !s.isSealed || decide (s.ackedSeq < s.nextEventSeq - 1) then 1 else 0).sum)

end Db

/-- A stream that is delivered completely and whose run is deleted. -/
def retired (db : Db) (s : ManagedRunEventStream) : Bool :=
  s.complete && (db.find s.runId).isNone

/-- `cleanup_retired_streams` -/
def cleanupRetiredStreams (db : Db) : Db :=
  db.deleteStreams (retired db)

section Text

variable (parse : String → Option Json)

/-- `session_isolated` and not `fence_on_failure`. -/
def isolated (request : String) : Bool :=
  match parse request with
  | some v => (v.index "session_isolated").isTrue && !(v.index "fence_on_failure").isTrue
  | none => false

/-- `run_events::admit`, after the run's row is inserted. -/
def admitStream (db : Db) (id request : String) : Result Db := do
  let db := cleanupRetiredStreams db
  if (db.findStream id).isSome then
    .error (.conflict "managed event run identity is retained")
  else match ((parse request).getD .null).get? "event_delivery" with
  | none => .ok db
  | some delivery =>
    let run ← db.get id
    if i64Max < run.deadlineAt + 7 * 86400 then
      .error (.conflict "managed event retry deadline overflow")
    else
      let fresh := ManagedRunEventStream.fresh id delivery run.deadlineAt
      let db := { db with streams := db.streams ++ [fresh] }
      let sums := db.totals
      if maxTotalPending < sums.1 + sums.2.1 * maxManagedEventBytes
          ∨ maxPendingStreams < sums.2.2 then
        .error (.conflict "managed event retention capacity exhausted")
      else .ok db

/-- The receipt without the host-only callback configuration. -/
def publicManagedRun (run : ManagedRun) : ManagedRun :=
  match parse run.requestJson with
  | some (.obj fields) =>
      if (fields.lookup "event_delivery").isSome then
        { run with requestJson := (Json.obj (Json.remove "event_delivery" fields)).render }
      else run
  | _ => run

end Text

/-- A number of an event. -/
private def number (n : ℤ) : Json := .num (toString n)

/-- A receipt as a document. -/
def ManagedRun.toJson (run : ManagedRun) : Json :=
  .obj [("boot_id", Json.ofOption (run.bootId.map .str)),
    ("created_at", number run.createdAt),
    ("deadline_at", number run.deadlineAt),
    ("detail", Json.ofOption (run.detail.map .str)),
    ("epoch", number run.epoch),
    ("exit_code", Json.ofOption (run.exitCode.map number)),
    ("finished_at", Json.ofOption (run.finishedAt.map number)),
    ("id", .str run.id),
    ("owner_id", .str run.ownerId),
    ("phase", .str run.phase.name),
    ("request_json", .str run.requestJson),
    ("sandbox_id", .str run.sandboxId),
    ("session_id", Json.ofOption (run.sessionId.map .str)),
    ("updated_at", number run.updatedAt)]

/-- The kinds of an event. -/
inductive Kind where
  | checkpoint
  | receipt
deriving DecidableEq, Repr

/-- The name of a kind. -/
def Kind.name : Kind → String
  | checkpoint => "checkpoint"
  | receipt => "receipt"

/-- The receipt is the last event. -/
def Kind.final (kind : Kind) : Bool := kind = .receipt

/-- What one stream may hold: only the final event may use the space kept for it. -/
def perRun (kind : Kind) : ℕ :=
  maxRunPending - (if kind.final then 0 else maxManagedEventBytes)

/-- The space kept for the final events of all unsealed streams after this event. -/
def remainingReserve (unsealed : ℕ) (kind : Kind) : ℕ :=
  (unsealed - kind.final.toNat) * maxManagedEventBytes

section Append

variable (parse : String → Option Json)

/-- The fields of an event before its checkpoint is set. -/
def envelope (run : ManagedRun) (requestHash : String) (seq : ℕ) (kind : Kind) : Json :=
  .obj [("event_seq", .num (toString seq)),
    ("kind", .str kind.name),
    ("receipt", (publicManagedRun parse run).toJson),
    ("request_hash", .str requestHash),
    ("run_id", .str run.id),
    ("sandbox_id", .str run.sandboxId),
    ("schema", .num "1")]

/-- The hash that binds an event to its request. -/
def requestHash (request : Json) : Option String :=
  ((request.index "event_delivery").index "request_hash").asStr

/-- The payload of an event: the envelope, and a checkpoint. -/
def payload (run : ManagedRun) (requestHash : String) (seq : ℕ) (kind : Kind)
    (checkpoint : Option Json) : Json :=
  match checkpoint with
  | some value => Json.set "checkpoint" value (envelope parse run requestHash seq kind)
  | none => envelope parse run requestHash seq kind

/-- `append`: the event is charged to the run's reserve and to the shared one. -/
def append (db : Db) (run : ManagedRun) (kind : Kind) (checkpoint : Option Json) (now : ℤ) :
    Result Db := do
  let source ← db.stream run.id
  if source.isSealed then .error (.conflict "managed event stream is sealed")
  else match parse run.requestJson with
  | none => .error .json
  | some request =>
  match requestHash request with
  | none => .error (.conflict "managed event binding missing")
  | some hash =>
    let payload := payload parse run hash source.nextEventSeq kind checkpoint
    if maxManagedEventBytes < payload.size then
      .error (.conflict "managed event exceeds size limit")
    else
      let sums := db.totals
      if perRun kind < source.pendingBytes + payload.size
          ∨ maxTotalPending < sums.1 + payload.size + remainingReserve sums.2.1 kind then
        .error (.conflict "managed event outbox backpressure")
      else if i64Max < source.nextEventSeq + 1 then
        .error (.conflict "managed event sequence exhausted")
      -- the primary key of the events
      else if db.events.any (fun e => e.runId = run.id ∧ e.seq = source.nextEventSeq) then
        .error .sqlite
      else
        let event := { runId := run.id, seq := source.nextEventSeq, payload, createdAt := now }
        .ok <| { db with events := db.events ++ [event] }.reviseStream run.id fun s =>
          s.stored payload.size kind.final

/-- Store the final event of a run, if it has a stream. -/
def terminal (db : Db) (run : ManagedRun) (now : ℤ) : Result Db :=
  match db.findStream run.id with
  | none => .ok db
  | some source =>
    match (if source.sourceFailed then none else source.checkpointJson) with
    | none => append parse db run .receipt none now
    | some text =>
      match parse text with
      | none => .error .json
      | some value => append parse db run .receipt (some value) now

/-- `append_managed_run_checkpoint` -/
def appendManagedRunCheckpoint (db : Db) (id : String) (epoch : ℤ) (offset guestSeq : ℕ)
    (checkpoint : String) (now : ℤ) : Result Db := do
  if i64Max < offset ∨ i64Max < guestSeq ∨ maxCheckpointBytes < checkpoint.utf8ByteSize then
    .error (.conflict "invalid managed checkpoint cursor or size")
  else match parse checkpoint with
  | none => .error .json
  | some value =>
    let run ← db.get id
    let source ← db.stream id
    if run.epoch ≠ epoch ∨ run.finishedAt.isSome ∨ source.sourceFailed
        ∨ guestSeq ≠ source.guestSeq + 1 ∨ offset ≤ source.sourceOffset then
      .error (.conflict "managed checkpoint cursor or epoch stale")
    else
      let db ← append parse db run .checkpoint (some value) now
      .ok <| db.reviseStream id fun s => s.advanced offset guestSeq checkpoint

end Append

/-- `fail_managed_run_event_source` -/
def failManagedRunEventSource (db : Db) (id : String) (epoch : ℤ) : Result Db := do
  let run ← db.get id
  if run.epoch ≠ epoch ∨ run.finishedAt.isSome then
    .error (.conflict "managed stream epoch stale")
  else
    .ok <| db.reviseStream id fun s => s.failed

/-- `acknowledge_managed_run_event`: in order, and once more without effect. -/
def acknowledgeManagedRunEvent (db : Db) (id : String) (seq : ℕ) : Result Db := do
  if i64Max < seq then .error (.conflict "managed event acknowledgement out of range")
  else
    let source ← db.stream id
    if seq ≤ source.ackedSeq then .ok db
    else if seq ≠ source.ackedSeq + 1 then
      .error (.conflict "managed event acknowledgement skipped sequence")
    else match db.events.find? (fun e => e.runId = id ∧ e.seq = seq) with
    | none => .error (.conflict "managed event acknowledgement missing")
    | some event =>
      -- the column may not become negative
      if source.pendingBytes < event.payload.size then .error .sqlite
      else
        let db := (db.deleteEvent id seq).reviseStream id fun s => s.acked seq event.payload.size
        if source.isSealed ∧ seq = source.nextEventSeq - 1 then
          let db := db.reviseStream id fun s => s.cleared
          .ok <| db.deleteStreams fun s => decide (s.runId = id) && (db.find id).isNone
        else .ok db

/-- Admit a run, or return the receipt of an exact retry. -/
def admitManagedRun (parse : String → Option Json) (db : Db)
    (id sandboxId ownerId requestJson : String) (now deadlineAt : ℤ) :
    Result (Db × ManagedRun × Bool) := do
  match db.find id with
  | some existing =>
    if existing.sandboxId = sandboxId ∧ existing.ownerId = ownerId
        ∧ existing.requestJson = requestJson then
      .ok (db, existing, false)
    else .error (.conflict "managed run request ID reused")
  | none =>
    if id.isEmpty ∨ sandboxId.isEmpty ∨ ownerId.isEmpty ∨ deadlineAt ≤ now then
      .error (.conflict "invalid managed run admission")
    else if (Table.row Sandbox.id sandboxId db.sandboxes).isNone then
      .error (.notFound s!"sandbox {sandboxId}")
    else if maxRetained ≤ db.runs.length then
      .error (.conflict "managed run receipt capacity exhausted")
    else if db.runs.any (fun r => r.sandboxId = sandboxId ∧ r.finishedAt = none
        ∧ (!isolated parse requestJson || !isolated parse r.requestJson)) then
      .error (.conflict "exclusive managed run already active")
    else
      let run := ManagedRun.starting id sandboxId ownerId requestJson now deadlineAt
      let db ← admitStream parse { db with runs := db.runs ++ [run] } id requestJson
      let saved ← db.get id
      .ok (db, saved, true)

/-- Fence a previous controller: the next epoch. The row is read in the same transaction, so
the predicates of the source's `UPDATE` hold of it. -/
def claimManagedRun (db : Db) (id : String) (now : ℤ) : Result (Db × ManagedRun) := do
  let current ← db.get id
  if current.finishedAt.isSome then .error (.conflict "managed run is terminal")
  else if i64Max < current.epoch + 1 then .error (.conflict "managed run epoch exhausted")
  else
    let db := db.reviseRun id fun r => r.claimed now
    let saved ← db.get id
    .ok (db, saved)

/-- What a controller reports about its run. -/
structure Report where
  phase : String
  sessionId : Option String
  bootId : Option String
  exitCode : Option ℤ
  detail : Option String
  terminal : Bool
deriving DecidableEq, Repr

/-- A known identity is kept when no new one is given. -/
def ManagedRun.report (run : ManagedRun) (phase : Phase) (report : Report) (now : ℤ) :
    ManagedRun :=
  { run with
    phase
    sessionId := report.sessionId.or run.sessionId
    bootId := report.bootId.or run.bootId
    exitCode := report.exitCode
    detail := report.detail
    updatedAt := now
    finishedAt := if report.terminal then some now else none }

/-- A known identity would be replaced. -/
def replaces (new old : Option String) : Bool :=
  match new, old with
  | some new, some old => new ≠ old
  | _, _ => false

/-- `update_managed_run`: only by the controller of the last epoch. -/
def updateManagedRun (parse : String → Option Json) (db : Db) (id : String) (epoch : ℤ)
    (report : Report) (now : ℤ) : Result (Db × ManagedRun) := do
  match Phase.parse report.phase with
  | none => .error (.conflict "invalid managed run phase/terminal flag")
  | some phase =>
    if report.terminal ≠ phase.terminal then
      .error (.conflict "invalid managed run phase/terminal flag")
    else
      let current ← db.get id
      if current.finishedAt.isSome ∨ current.epoch ≠ epoch then
        .error (.conflict "managed run is terminal or epoch stale")
      else if replaces report.sessionId current.sessionId
          ∨ replaces report.bootId current.bootId then
        .error (.conflict "managed run native identity changed")
      else
        let db := db.reviseRun id fun r => r.report phase report now
        let saved ← db.get id
        let db ← if report.terminal then terminal parse db saved now else .ok db
        .ok (db, saved)

/-- `delete_sandbox`: two statements, each committed by itself. -/
def deleteSandbox (db : Db) (id : String) : Db :=
  cleanupRetiredStreams (db.cascade fun b => b.id = id)

/-- `confirm_replicated_retirement` -/
def confirmReplicatedRetirement (db : Db) (owner volume : String)
    (logicalReleased reclamationComplete : Bool) : Result (Db × Bool) :=
  if reclamationComplete ∧ ¬logicalReleased then
    .error (.conflict "reclamation without logical retirement")
  else match (Table.row ReplicatedReservation.volumeId volume db.reservations).filter
      (fun r => r.ownerUserId = owner) with
  | none => .error (.notFound "replicated volume")
  | some row =>
    if row.state = .reclaimed then .ok (db, false)
    else if row.state ≠ .deleting then .error (.conflict "replicated deletion not requested")
    else
      let first := logicalReleased && !row.logicalReleased
      if first ∧ db.sandboxes.any (fun b => b.id = row.sandboxId ∧ b.ownerUserId ≠ owner) then
        .error (.conflict "storage deletion owner mismatch")
      else
        let db := if first then db.cascade (fun b => b.id = row.sandboxId) else db
        let rows := Table.revise ReplicatedReservation.volumeId volume
          (fun r => { r with
            logicalReleased := r.logicalReleased || logicalReleased
            state := if reclamationComplete then .reclaimed else .deleting }) db.reservations
        .ok ({ db with reservations := rows }, first)

end AgentHouse.Runs
