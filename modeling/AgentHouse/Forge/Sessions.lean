import AgentHouse.Lib.Traces
import Mathlib.Data.Int.Notation

/-!
# Sessions of the guest

The output of one session: the ring of `sessions.rs` with the pumps that fill it, the reaper and
`delete`, the attach loop of `agent.rs`, and the client that reads it through
`read_session_output`. A step is one visit to the ring, the lifecycle or the pump counter; frames
travel in order until the connection breaks.
-/

namespace AgentHouse.Forge

/-- Bytes of scrollback that are kept. -/
def ringCap : ℕ := 256 * 1024

/-- Bytes of one frame. -/
def chunkSize : ℕ := 32 * 1024

/-- `Ring`: the last bytes of the output. -/
structure Ring where
  base : ℕ := 0
  total : ℕ := 0
  buf : List UInt8 := []
deriving DecidableEq, Repr

/-- What `read_from` returns. -/
structure Reading where
  chunk : List UInt8
  next : ℕ
  exit : Option ℤ
  truncated : Bool
deriving DecidableEq, Repr

namespace Ring

/-- `Ring::append` -/
def append (ring : Ring) (data : List UInt8) : Ring :=
  let buf := ring.buf ++ data
  let drop := buf.length - ringCap
  if ringCap < buf.length then ⟨ring.base + drop, ring.total + data.length, buf.drop drop⟩
  else ⟨ring.base, ring.total + data.length, buf⟩

/-- `read_from` -/
def readFrom (ring : Ring) (sent : ℕ) (exit : Option ℤ) : Reading :=
  let start := min (max sent ring.base - ring.base) ring.buf.length
  let stop := min (start + chunkSize) ring.buf.length
  { chunk := (ring.buf.drop start).take (stop - start)
    next := ring.base + stop
    exit
    truncated := sent < ring.base }

end Ring

/-- A frame of the attach loop. -/
structure SessionData where
  seq : ℕ
  data : List UInt8
  eof : Bool
  exitCode : Option ℤ
  truncated : Bool
deriving DecidableEq, Repr

/-- The thread that waits for the process: for its exit, then for the pumps, with the polls that
are left. -/
inductive Reaper where
  | waiting
  | polling (left : ℕ) (code : Option ℤ)
  | published
deriving DecidableEq, Repr

/-- Where the attach loop is: before `read_from`, before `total`, before `pumps_done`. -/
inductive Pc where
  | reading
  | counting (read : Reading)
  | polling (read : Reading) (drained : Bool)
  | closed
deriving DecidableEq, Repr

/-- A call of `read_session_output`, with the frames it has taken. -/
structure Call where
  firstChunk : Bool
  data : List UInt8 := []
  exitCode : Option ℤ := none
  nextSeq : ℕ
  truncated : Bool := false
  taken : List SessionData := []
deriving DecidableEq, Repr

/-- What a call returns. -/
structure SessionChunk where
  data : List UInt8
  eof : Bool
  exitCode : Option ℤ
  nextSeq : ℕ
  truncated : Bool
deriving DecidableEq, Repr

/-- The reply of a finished call. -/
def Call.reply (c : Call) (eof : Bool) : SessionChunk :=
  ⟨c.data, eof, c.exitCode, c.nextSeq, c.truncated⟩

/-- The client takes a frame. -/
def Call.take (c : Call) (f : SessionData) : Call where
  firstChunk := c.firstChunk
  data := c.data ++ f.data
  exitCode := f.exitCode.or c.exitCode
  nextSeq := f.seq + f.data.length
  truncated := c.truncated || decide (c.nextSeq < f.seq) || f.truncated
  taken := c.taken ++ [f]

/-- A connection: the attach loop at one end, the frames on their way, the call at the other. -/
structure Link where
  sent : ℕ
  pc : Pc := .reading
  frames : List SessionData := []
  call : Call
deriving DecidableEq, Repr

/-- A session at both ends, with the record of what was written and delivered. -/
structure Node where
  ring : Ring := {}
  exit : Option ℤ := none
  /-- The pumps, each with whether it still runs. -/
  pumps : List Bool
  reaper : Reaper := .waiting
  /-- The session is in the manager's map. -/
  listed : Bool := true
  link : Option Link := none
  /-- The `next_seq` the client last received. -/
  cursor : ℕ
  /-- Everything that was ever appended. -/
  written : List UInt8 := []
  /-- The replies the client has received, each with its frames. -/
  replies : List (SessionChunk × List SessionData) := []
deriving DecidableEq, Repr

/-- One step of a pump, the reaper, the attach loop, the network or the client. -/
inductive Event where
  /-- A pump reads from its pipe and appends. -/
  | pump (i : ℕ) (data : List UInt8)
  | pumpEnd (i : ℕ)
  /-- The reaper observes the exit. -/
  | exited (code : Option ℤ)
  /-- The reaper polls the pumps, or publishes the exit. -/
  | reap
  | delete
  /-- The client attaches at its cursor. -/
  | connect (firstChunk : Bool)
  /-- The attach loop goes on; `late` when its time is over. -/
  | serve (late : Bool)
  /-- The client takes the next frame. -/
  | receive
  /-- The call returns what arrived: its budget is over or the connection is gone. -/
  | giveUp
  /-- The call fails and reports nothing. -/
  | fail
deriving DecidableEq, Repr

/-- The attach loop sends a frame or goes on. -/
def Link.finish (l : Link) (read : Reading) (eof late : Bool) : Link :=
  if read.chunk = [] ∧ ¬ eof then { l with pc := if late then .closed else .reading }
  else
    let frame : SessionData :=
      { seq := read.next - read.chunk.length
        data := read.chunk
        eof
        exitCode := if eof then read.exit else none
        truncated := read.truncated }
    if eof then { l with frames := l.frames ++ [frame], pc := .closed }
    else { l with frames := l.frames ++ [frame], sent := read.next, pc := .reading }

namespace Node

/-- `active_pumps`. -/
def activePumps (n : Node) : ℕ := n.pumps.count true

/-- The next step of the attach loop. -/
def serve (n : Node) (l : Link) (late : Bool) : Link :=
  match l.pc with
  | .reading => { l with pc := .counting (n.ring.readFrom l.sent n.exit) }
  | .counting read => { l with pc := .polling read (decide (read.next = n.ring.total)) }
  | .polling read drained =>
      l.finish read (read.exit.isSome && drained && decide (n.activePumps = 0)) late
  | .closed => l

/-- A call returns. -/
def answer (n : Node) (c : Call) (eof : Bool) : Node :=
  { n with
    link := none
    cursor := c.nextSeq
    replies := n.replies ++ [(c.reply eof, c.taken)] }

/-- The reaper's next step. -/
def reap (n : Node) : Option Node :=
  match n.reaper with
  | .waiting | .published => none
  | .polling left code =>
      if n.activePumps = 0 ∨ left = 0 then
        some { n with reaper := .published, exit := some (code.getD 124) }
      else some { n with reaper := .polling (left - 1) code }

/-- The state after an event, if that can happen. -/
def next (n : Node) : Event → Option Node
  | .pump i data =>
      if n.pumps[i]? = some true then
        some { n with ring := n.ring.append data, written := n.written ++ data }
      else none
  | .pumpEnd i =>
      if n.pumps[i]? = some true then some { n with pumps := n.pumps.set i false } else none
  | .exited code =>
      if n.reaper = .waiting then some { n with reaper := .polling 50 code } else none
  | .reap => n.reap
  | .delete => if n.listed then some { n with listed := false, exit := some 124 } else none
  | .connect firstChunk =>
      if n.listed ∧ n.link = none then
        some { n with
          link := some { sent := n.cursor, call := { firstChunk, nextSeq := n.cursor } } }
      else none
  | .serve late => n.link.map fun l => { n with link := some (n.serve l late) }
  | .receive => do
      let l ← n.link
      match l.frames with
      | [] => none
      | f :: frames =>
        let call := l.call.take f
        if f.eof ∨ (call.firstChunk ∧ call.data ≠ []) then return n.answer call f.eof
        else return { n with link := some { l with frames, call } }
  | .giveUp => n.link.map fun l => n.answer l.call false
  | .fail => some { n with link := none }

/-- An event that happens. -/
def Step (n : Node) (e : Event) (n' : Node) : Prop := n.next e = some n'

/-- A new session with its pumps, two for pipes and one for a terminal, and a client that will ask
for the output from `cursor` on. -/
def start (pumps cursor : ℕ) : Node := { pumps := List.replicate pumps true, cursor }

end Node

end AgentHouse.Forge
