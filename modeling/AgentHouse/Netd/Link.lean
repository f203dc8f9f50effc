import AgentHouse.Lib.Prefixed
import AgentHouse.Lib.Traces
import AgentHouse.Netd.Bandwidth

/-!
# The link to the guest

One round of `serve` reads from the guest, takes complete frames off what was read, gives them to
the stack, checks the timer of a partial frame, relays, and writes the queued frames. What the
guest sends and when, how much the socket to the guest takes before the guest reads from it, how
reads and writes are cut, what `validate` says of a frame, and what the stack does with its device
is given, step by step. The history remembers what has been done.
-/

namespace AgentHouse.Netd

/-- An Ethernet frame. -/
abbrev Frame := List UInt8

/-- The length that a frame may have. -/
def maxFrame : ℕ := 128 * 1024

/-- The lengths of frames that are accepted. -/
def linkFormat : Format := ⟨4, 14, maxFrame, by decide, by decide⟩

/-- Five seconds in nanoseconds. -/
def partialTimeout : ℕ := 5 * scale

/-- What comes of a frame: it is dropped, it is an echo request that is answered at once or not at
all, or the stack gets it. -/
inductive Verdict where
  | dropped
  | echo (reply : Option Frame)
  | queued

/-- What a read of the socket comes to. -/
inductive ReadResult where
  | closed
  | bytes (n : ℕ)
  | wouldBlock
  | failed

/-- What a write to the socket comes to. -/
inductive WriteResult where
  | zero
  | bytes (n : ℕ)
  | wouldBlock
  | failed

/-- How `serve` ends. -/
inductive End where
  | closed
  | io
  | stoppedWriting
  | frameSize
  | partialFrame
deriving DecidableEq

/-- Where the loop is, with the frames that it may still take. -/
inductive Phase where
  | reading (left : ℕ)
  | parsing (left : ℕ)
  | validating (left : ℕ) (frame : Frame)
  /-- `iface.poll` after a frame was queued. -/
  | polling (left : ℕ)
  | checking
  /-- From the timer to the writes: polls of the stack, flows, queries and echoes. -/
  | relaying
  | writing (left : ℕ)
  | waiting
  | ended (e : End)

/-- What was handed on so far. -/
structure History where
  /-- The frames handed to `validate`. -/
  handed : List Frame
  /-- The frames pushed to the transmit queue. -/
  pushed : List (List UInt8)
  written : List UInt8
  /-- When the reads of this round found the socket empty. -/
  emptied : Option ℕ

/-- The link to the guest, with its buffers. -/
structure Link where
  now : ℕ
  /-- What the guest has sent, with the time of each byte. -/
  stream : List (UInt8 × ℕ)
  /-- So many bytes have been read. -/
  taken : ℕ
  incoming : List UInt8
  frameStarted : Option ℕ
  ingress : Bucket
  egress : Bucket
  rx : List Frame
  tx : List (List UInt8)
  writeOffset : ℕ
  /-- So many bytes the socket to the guest takes until the guest reads. -/
  room : ℕ
  phase : Phase
  history : History

/-- What a step is given by the guest, the clock and the stack. -/
inductive Act where
  | tick (d : ℕ)
  | send (bytes : List UInt8)
  /-- The guest reads, and the socket has room for `n` more bytes. -/
  | drain (n : ℕ)
  /-- The program goes on without a call. -/
  | goOn
  | read (r : ReadResult)
  | verdict (v : Verdict)
  /-- `Device::receive` -/
  | receive
  /-- `TxToken::consume` -/
  | transmit (frame : Frame)
  /-- `enqueue_echo`, called by the echo forwarder. -/
  | enqueueEcho (reply : Frame)
  | write (r : WriteResult)
  /-- `Bucket::ready` of one of the buckets, for the flags and the timeout of `poll`. -/
  | ready (ingress : Bool)
  | poll (ok : Bool)

namespace Link

/-- A link over which nothing has been sent. -/
def init (limit : Option UInt64) (now room : ℕ) : Link where
  now
  stream := []
  taken := 0
  incoming := []
  frameStarted := none
  ingress := .new limit now
  egress := .new limit now
  rx := []
  tx := []
  writeOffset := 0
  room
  phase := .reading 16
  history := ⟨[], [], [], none⟩

variable (s : Link)

/-- What the guest has sent and nobody has read. -/
def unread : List (UInt8 × ℕ) := s.stream.drop s.taken

/-- The loop goes on to a phase. -/
def goto (p : Phase) : Link := { s with phase := p }

/-- A length of four bytes and the frame. -/
def framed (frame : Frame) : List UInt8 := linkFormat.prefixed frame

/-- The queue of 64 frames is shared by the stack and the echo forwarder. -/
def push (frame : Frame) : Link :=
  { s with
    tx := s.tx ++ [framed frame]
    history := { s.history with pushed := s.history.pushed ++ [framed frame] } }

/-- A reply to an echo request is queued if there is room. -/
def enqueueEcho (reply : Frame) : Link := if s.tx.length < 64 then s.push reply else s

/-- The most that one read may return, and the bucket after the question. -/
def readLimit : ℕ × Bucket :=
  let (count, ingress) := s.ingress.available s.now
  (min count.toNat 16384, ingress)

/-- Bytes have been read. -/
def fed (n : ℕ) (ingress : Bucket) : Link :=
  { s with
    frameStarted := if s.incoming = [] then some s.now else s.frameStarted
    ingress := ingress.consume (.ofNat n)
    incoming := s.incoming ++ (s.unread.take n).map (·.1)
    taken := s.taken + n }

/-- One read, of as many bytes as the limit allows. -/
def read (left : ℕ) (r : ReadResult) : Option Link :=
  let (count, ingress) := s.readLimit
  if maxFrame + 4 ≤ s.incoming.length ∨ count = 0 then none
  else
    match r with
    | .closed => if s.unread = [] then some ({ s with ingress }.goto (.ended .closed)) else none
    | .bytes n =>
        if 0 < n ∧ n ≤ count ∧ n ≤ s.unread.length then
          some ((s.fed n ingress).goto (.reading left))
        else none
    | .wouldBlock =>
        if s.unread = [] then
          some { s with
            ingress
            phase := .parsing 64
            history := { s.history with emptied := some s.now } }
        else none
    | .failed => some ({ s with ingress }.goto (.ended .io))

/-- The reads end with the 16th, with the buffer full or with nothing allowed. -/
def stopReading : Option Link :=
  match s.phase with
  | .reading 0 => some (s.goto (.parsing 64))
  | .reading (_ + 1) =>
      if maxFrame + 4 ≤ s.incoming.length then some (s.goto (.parsing 64))
      else
        let (count, ingress) := s.readLimit
        if count = 0 then some ({ s with ingress }.goto (.parsing 64)) else none
  | _ => none

/-- The frame at the front of `incoming` is taken off. -/
def took (len left : ℕ) : Link :=
  let frame := (s.incoming.take (len + 4)).drop 4
  let rest := s.incoming.drop (len + 4)
  { s with
    incoming := rest
    frameStarted := if rest = [] then none else some s.now
    phase := .validating left frame
    history := { s.history with handed := s.history.handed ++ [frame] } }

/-- The next frame is taken off what has been read. -/
def parse (left : ℕ) : Link :=
  if s.incoming.length < 4 ∨ 64 ≤ s.rx.length then s.goto .checking
  else
    let len := ofBe (s.incoming.take 4)
    if ¬ (14 ≤ len ∧ len ≤ maxFrame) then s.goto (.ended .frameSize)
    else if s.incoming.length < len + 4 then s.goto .checking
    else s.took len left

/-- The timer of a partial frame has run out. -/
def late : Bool := s.frameStarted.any fun t => decide (partialTimeout < s.now - t)

/-- The next frame to write, from where the last write stopped. -/
def remaining : List UInt8 := (s.tx.headD []).drop s.writeOffset

/-- Bytes have been written. -/
def wrote (n : ℕ) (egress : Bucket) : Link :=
  let s := { s with
    egress := egress.consume (.ofNat n)
    room := s.room - n
    history := { s.history with written := s.history.written ++ s.remaining.take n } }
  if s.writeOffset + n = (s.tx.headD []).length then { s with tx := s.tx.tail, writeOffset := 0 }
  else { s with writeOffset := s.writeOffset + n }

/-- The most that one write may take, and the bucket after the question. -/
def writeLimit : ℕ × Bucket :=
  let (count, egress) := s.egress.available s.now
  (min count.toNat s.remaining.length, egress)

/-- The socket blocks only if it has no room for all that is to be written. -/
def write (left : ℕ) (r : WriteResult) : Option Link :=
  let (count, egress) := s.writeLimit
  if s.tx = [] ∨ count = 0 then none
  else
    match r with
    | .zero => some ({ s with egress }.goto (.ended .stoppedWriting))
    | .bytes n =>
        if 0 < n ∧ n ≤ count ∧ n ≤ s.room then some ((s.wrote n egress).goto (.writing left))
        else none
    | .wouldBlock => if s.room < count then some ({ s with egress }.goto .waiting) else none
    | .failed => some ({ s with egress }.goto (.ended .io))

/-- The writes end with the 64th, with the queue empty or with nothing allowed. -/
def stopWriting : Option Link :=
  match s.phase with
  | .writing 0 => some (s.goto .waiting)
  | .writing (_ + 1) =>
      if s.tx = [] then some (s.goto .waiting)
      else
        let (count, egress) := s.writeLimit
        if count = 0 then some ({ s with egress }.goto .waiting) else none
  | _ => none

/-- What the program does without a call. -/
def goOn : Option Link :=
  match s.phase with
  | .reading _ => s.stopReading
  | .parsing 0 => some (s.goto .checking)
  | .parsing (left + 1) => some (s.parse left)
  | .polling left => some (s.goto (.parsing left))
  | .checking => some (s.goto (if s.late then .ended .partialFrame else .relaying))
  | .relaying => some (s.goto (.writing 64))
  | .writing _ => s.stopWriting
  | _ => none

/-- What comes of a frame. -/
def verdict (v : Verdict) : Option Link :=
  match s.phase with
  | .validating left frame =>
      match v with
      | .dropped => some (s.goto (.parsing left))
      | .echo reply => some ((reply.elim s s.enqueueEcho).goto (.parsing left))
      | .queued => some ({ s with rx := s.rx ++ [frame] }.goto (.polling left))
  | _ => none

/-- The stack runs. -/
def inStack : Bool :=
  match s.phase with
  | .polling _ => true
  | .relaying => true
  | _ => false

/-- The state after a step, if that can happen. -/
def step : Act → Option Link
  | .tick d => some { s with now := s.now + d }
  | .send bytes => some { s with stream := s.stream ++ bytes.map (·, s.now) }
  | .drain n => some { s with room := s.room + n }
  | .goOn => s.goOn
  | .read r =>
      match s.phase with
      | .reading (left + 1) => s.read left r
      | _ => none
  | .verdict v => s.verdict v
  | .receive =>
      if s.inStack ∧ s.tx.length < 64 then
        match s.rx with
        | [] => none
        | _ :: rx => some { s with rx }
      else none
  | .transmit frame => if s.inStack ∧ s.tx.length < 64 then some (s.push frame) else none
  | .enqueueEcho reply =>
      match s.phase with
      | .relaying => some (s.enqueueEcho reply)
      | _ => none
  | .write r =>
      match s.phase with
      | .writing (left + 1) => s.write left r
      | _ => none
  | .ready ingress =>
      match s.phase with
      | .waiting =>
          some (if ingress then { s with ingress := (s.ingress.ready s.now).2 }
            else { s with egress := (s.egress.ready s.now).2 })
      | _ => none
  | .poll ok =>
      match s.phase with
      | .waiting =>
          if ok then
            some { s with phase := .reading 16, history := { s.history with emptied := none } }
          else some (s.goto (.ended .io))
      | _ => none

end Link

end AgentHouse.Netd
