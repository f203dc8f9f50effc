import AgentHouse.Lib.Lines
import AgentHouse.Lib.Traces
import AgentHouse.Runs.Fencing
import AgentHouse.Runs.Guest

/-!
# Capture of the guest's journal

`capture` and `prepare_terminal` of `run_events.rs`, one step for each call of the store or of the
guest. Between two steps the journal grows, the guest boots and stops, and others call the store;
a call may fail at any point, and the daemon may stop and start again. A capture holds the
lifecycle lock of its VM, so that during one there is no other, and nobody claims or
updates the run.
-/

namespace AgentHouse.Runs

/-- The length up to which the journal is read. -/
def maxGuestJournal : ℕ := 16 * 1024 * 1024

/-- The byte at the end of a record. -/
def newline : UInt8 := 10

/-- `file_read`: the bytes from an offset on, and whether fewer than the limit were there. -/
def fileRead (file : List UInt8) (offset limit : ℕ) : List UInt8 × Bool :=
  ((file.drop offset).take limit, decide ((file.drop offset).length < limit))

/-- What has been read of the journal, and how much of it is stored. -/
structure Chunk where
  offset : ℕ
  data : List UInt8
  eof : Bool
  consumed : ℕ
deriving DecidableEq, Repr

/-- Why the source is marked as failed. -/
inductive Cause where
  | invalidLine
  | longLine
  | largeJournal
  | unreadable
  | missing
  | torn
deriving DecidableEq, Repr

/-- Where a capture is. -/
inductive Pc where
  | top
  | opened (source : ManagedRunEventStream)
  | lines (chunk : Chunk)
  | record (chunk : Chunk) (line : List UInt8) (seq : ℕ) (checkpoint : String)
  | failing (cause : Cause)
  | done (result : Result Unit)

/-- A capture of a run, and how far it has come. -/
structure Capture where
  run : ManagedRun
  requestHash : String
  final : Bool
  iterations : ℕ := 0
  pc : Pc

/-- The capture has an outcome. -/
def Capture.finished (c : Capture) : Bool :=
  match c.pc with
  | .done _ => true
  | _ => false

/-- The store, the guest and the capture of one run. `taken` is the history of the lines that are
stored, each with its checkpoint. -/
structure Node where
  db : Db
  journal : Option (List UInt8) := none
  /-- The identity of the running guest. -/
  boot : Option String := none
  capture : Option Capture := none
  taken : List (List UInt8 × String) := []

/-- The request's hash, if the run has an event delivery. -/
def grant (parse : String → Option Json) (run : ManagedRun) : Option String :=
  (parse run.requestJson).bind requestHash

namespace Node

variable (parse : String → Option Json) (reads : List UInt8 → Option Json)

/-- A capture is under way. -/
def busy (n : Node) : Bool := n.capture.any fun c => !c.finished

/-- The capture goes on elsewhere. -/
def goto (n : Node) (c : Capture) (pc : Pc) : Node := { n with capture := some { c with pc } }

/-- The next step of a capture. -/
def advance (n : Node) (c : Capture) (now : ℤ) : Node :=
  match c.pc with
  | .top =>
    match n.db.stream c.run.id with
    | .error e => n.goto c (.done (.error e))
    | .ok source =>
      if source.sourceFailed ∨ source.isSealed then n.goto c (.done (.ok ()))
      else if maxGuestJournal < source.sourceOffset then n.goto c (.failing .largeJournal)
      else n.goto c (.opened source)
  | .opened source =>
    match n.journal with
    | none => if c.final then n.goto c (.failing .missing) else n.goto c (.done (.ok ()))
    | some journal =>
      let (data, eof) := fileRead journal source.sourceOffset maxGuestLine
      if data = [] then n.goto c (.done (.ok ()))
      else if maxGuestLine < data.length ∨ maxGuestJournal < source.sourceOffset + data.length then
        n.goto c (.failing .largeJournal)
      else n.goto c (.lines ⟨source.sourceOffset, data, eof, 0⟩)
  | .lines chunk =>
    match Lines.next newline (chunk.data.drop chunk.consumed) with
    | some (line, _) =>
      match n.db.stream c.run.id with
      | .error e => n.goto c (.done (.error e))
      | .ok current =>
        match guestRecord parse reads line.dropLast ⟨current.guestSeq, current.checkpointJson⟩
            c.run c.requestHash with
        | none => n.goto c (.failing .invalidLine)
        | some (seq, checkpoint) =>
          n.goto c (.record { chunk with consumed := chunk.consumed + line.length } line seq
            checkpoint.render)
    | none =>
      let c := { c with iterations := c.iterations + 1 }
      if chunk.consumed < chunk.data.length ∧ (chunk.eof ∨ chunk.consumed = 0) then
        if c.final ∨ chunk.data.length = maxGuestLine then
          n.goto c (.failing (if chunk.eof then .torn else .longLine))
        else n.goto c (.done (.ok ()))
      else if chunk.eof ∨ (¬ c.final ∧ 4 ≤ c.iterations) then n.goto c (.done (.ok ()))
      else n.goto c .top
  | .record chunk line seq text =>
    match (Op.checkpoint c.run.id c.run.epoch (chunk.offset + chunk.consumed) seq text now).exec
        parse n.db with
    | (_, .error e) => n.goto c (.done (.error e))
    | (db, .ok _) => { n with db, taken := n.taken ++ [(line, text)] }.goto c (.lines chunk)
  | .failing _ =>
    match (Op.failSource c.run.id c.run.epoch).exec parse n.db with
    | (_, .error e) => n.goto c (.done (.error e))
    | (db, .ok _) => { n with db }.goto c (.done (.ok ()))
  | .done _ => n

/-- The run's capture begins: the periodic one of a run whose guest has booted, or the final one
of `prepare_terminal`, which asks for the guest of the run first. -/
def start (n : Node) (run : ManagedRun) (hash : String) (final : Bool) : Option Node :=
  let capture (pc : Pc) : Node := { n with capture := some ⟨run, hash, final, 0, pc⟩ }
  if run.finishedAt.isSome then none
  else if final then
    if n.boot = none ∨ run.bootId = none ∨ n.boot ≠ run.bootId then
      some (capture (.failing .unreadable))
    else some (capture .top)
  else if run.bootId = none then none
  else some (capture .top)

end Node

/-- One step of the guest, the store or a capture. -/
inductive Event where
  | grow (bytes : List UInt8)
  | guest (boot : Option String)
  | store (op : Op)
  | capture (final : Bool)
  | own (now : ℤ)
  /-- A call of the store or the guest fails. -/
  | interrupt (e : Error)
  /-- The daemon stops. -/
  | restart

/-- What others do not call for the run: the capture's own calls, admission, which is of another
run of the id, and during a capture what needs the lifecycle lock. -/
def Op.excluded (id : String) (busy : Bool) : Op → Bool
  | .checkpoint i _ _ _ _ _ | .failSource i _ | .admission i _ _ _ _ _ => i = id
  | .claim i _ | .update i _ _ _ => i = id && busy
  | _ => false

/-- One step of the run `id`. -/
def Node.next (parse : String → Option Json) (reads : List UInt8 → Option Json) (id : String)
    (n : Node) : Event → Option Node
  | .grow bytes => some { n with journal := some (n.journal.getD [] ++ bytes) }
  | .guest boot => some { n with boot }
  | .store op => if op.excluded id n.busy then none else
      some { n with db := (op.exec parse n.db).1 }
  | .capture final =>
      if n.busy then none
      else do
        let run ← n.db.find id
        let hash ← grant parse run
        n.start run hash final
  | .own now => do
      let c ← n.capture
      if c.finished then none else return n.advance parse reads c now
  | .interrupt e => do
      let c ← n.capture
      if c.finished then none else return n.goto c (.done (.error e))
  | .restart => some { n with capture := none }

/-- Steps of the run `id`. -/
def Node.Step (parse : String → Option Json) (reads : List UInt8 → Option Json) (id : String)
    (n : Node) (e : Event) (n' : Node) : Prop :=
  n.next parse reads id e = some n'

/-- Nothing has been captured of the run. -/
structure Node.Fresh (id : String) (n : Node) : Prop where
  sound : n.db.Sound
  stream : ∀ s, n.db.findStream id = some s →
    s.sourceOffset = 0 ∧ s.guestSeq = 0 ∧ s.checkpointJson = none ∧ s.sourceFailed = false
  capture : n.capture = none
  taken : n.taken = []

section Fold

variable (parse : String → Option Json) (reads : List UInt8 → Option Json)

/-- The checkpoints of complete lines, one after the other, until one is invalid. -/
def foldLines (run : ManagedRun) (hash : String) : List (List UInt8) → Source → List String
  | [], _ => []
  | line :: lines, source =>
      match guestRecord parse reads line.dropLast source run hash with
      | none => []
      | some (seq, checkpoint) =>
          checkpoint.render :: foldLines run hash lines ⟨seq, some checkpoint.render⟩

end Fold

end AgentHouse.Runs
