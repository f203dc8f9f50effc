import AgentHouse.Lib.Triples
import AgentHouse.Volume.Formats

/-!
# The NBD server

`nbd.rs`: the handshake and the request loop of one connection. The client is the bytes that it
sends, cut anywhere, and it may stop taking bytes at any point. The disk is any implementation of
`Disk`. Indexing, additions of `usize` and `unreachable!` are checked, so a panic is an
outcome of the model. What the server takes, sends and calls is logged in its order.
-/

namespace AgentHouse.Nbd

open AgentHouse.Volume (Error Result)
open AgentHouse.Op (attempt perform refuse each)

/-- What is sent over the connection. -/
abbrev Bytes := List UInt8

/-- A byte string of `n` bytes, such as a filled buffer. -/
abbrev Block (n : ℕ) := { data : Bytes // data.length = n }

/-- Why a connection is given up. -/
inductive Fault where
  /-- `invalid()` -/
  | invalid
  /-- The input ended before a buffer was filled. -/
  | unexpectedEof
  /-- The client does not take more bytes. -/
  | gone
  | panic
  /-- The bound on the number of requests was too small. -/
  | exhausted
  deriving DecidableEq, Repr

/-- An implementation of the trait `Disk` with states `σ`. -/
structure Disk (σ : Type) where
  size : σ → ℕ
  size_lt : ∀ s, size s < 2 ^ 64
  read : σ → ℕ → (n : ℕ) → Result (Block n) × σ
  write : σ → ℕ → Bytes → Result Unit × σ
  flush : σ → Result Unit × σ

/-- What the server does to its stream and to its disk. -/
inductive Action : Type → Type 1
  | readExact (n : ℕ) : Action (Except Fault (Block n))
  | writeAll (bytes : Bytes) : Action (Except Fault Unit)
  | flushStream : Action (Except Fault Unit)
  | size : Action ℕ
  | read (offset n : ℕ) : Action (Result (Block n))
  | write (offset : ℕ) (data : Bytes) : Action (Result Unit)
  | flush : Action (Result Unit)

/-- A part of the server's program. -/
abbrev Server (α : Type) := Op Action Fault α

/-- The calls of the disk. -/
inductive DiskOp where
  | read (offset length : ℕ)
  | write (offset : ℕ) (data : Bytes)
  | flush
  deriving DecidableEq, Repr

/-- A call of the disk, with the size that the disk has when it is called and the bytes that a
successful read leaves in the buffer. -/
structure Call where
  size : ℕ
  op : DiskOp
  ok : Bool
  filled : Bytes
  deriving DecidableEq, Repr

/-- What happens on the connection and at the disk. -/
inductive Event where
  /-- The bytes filled a buffer. -/
  | took (bytes : Bytes)
  | sent (bytes : Bytes)
  /-- The client took these bytes of a write or flush of the stream, which then failed. -/
  | lost (bytes : Bytes)
  | called (call : Call)
  deriving DecidableEq, Repr

/-- A connection: what the client is still going to send, the disk and the log. -/
structure Conn (σ : Type) where
  input : Bytes
  disk : σ
  log : List Event

section Contract

variable {σ : Type}

/-- The bytes that a read leaves. -/
def filledBy {n : ℕ} : Result (Block n) → Bytes
  | .ok data => data.val
  | .error _ => []

/-- The event is recorded. -/
def Conn.noted (s : Conn σ) (e : Event) : Conn σ := { s with log := s.log ++ [e] }

/-- A read that does not fill its buffer ends the connection; the bytes that it got are dropped
with the buffer and stay in `input` here. -/
def contract (D : Disk σ) : Contract Action (Conn σ) where
  does
    | .readExact n, s, r, s' =>
        (∃ h : n ≤ s.input.length, r = .ok ⟨s.input.take n, List.length_take_of_le h⟩ ∧
          s' = { s with input := s.input.drop n }.noted (.took (s.input.take n))) ∨
        (s.input.length < n ∧ r = .error .unexpectedEof ∧ s' = s)
    | .writeAll bytes, s, r, s' =>
        (r = .ok () ∧ s' = s.noted (.sent bytes)) ∨
        ∃ part, part <+: bytes ∧ r = .error .gone ∧ s' = s.noted (.lost part)
    | .flushStream, s, r, s' =>
        (r = .ok () ∧ s' = s) ∨ (r = .error .gone ∧ s' = s.noted (.lost []))
    | .size, s, n, s' => n = D.size s.disk ∧ s' = s
    | .read offset n, s, r, s' =>
        r = (D.read s.disk offset n).1 ∧
        s' = { s with disk := (D.read s.disk offset n).2 }.noted
          (.called ⟨D.size s.disk, .read offset n, r.isOk, filledBy r⟩)
    | .write offset data, s, r, s' =>
        r = (D.write s.disk offset data).1 ∧
        s' = { s with disk := (D.write s.disk offset data).2 }.noted
          (.called ⟨D.size s.disk, .write offset data, r.isOk, []⟩)
    | .flush, s, r, s' =>
        r = (D.flush s.disk).1 ∧
        s' = { s with disk := (D.flush s.disk).2 }.noted
          (.called ⟨D.size s.disk, .flush, r.isOk, []⟩)
  allowed _ _ := True

end Contract

/-! ## Checked operations -/

/-- `bytes[start..end]` -/
def range (bytes : Bytes) (start stop : ℕ) : Server Bytes :=
  if start ≤ stop ∧ stop ≤ bytes.length then pure (slice bytes start (stop - start))
  else throw .panic

/-- Addition of two `usize`. -/
def add (a b : ℕ) : Server ℕ := if a + b < 2 ^ 64 then pure (a + b) else throw .panic

/-- Subtraction of two `usize`. -/
def sub (a b : ℕ) : Server ℕ := if b ≤ a then pure (a - b) else throw .panic

/-- `bytes[at..at + n]` as a number. -/
def numberAt (bytes : Bytes) (n start : ℕ) : Server ℕ := do
  let stop ← add start n
  let window ← range bytes start stop
  return ofBe window

/-- A number of two bytes. -/
def u16At (bytes : Bytes) (start : ℕ) : Server ℕ := numberAt bytes 2 start

/-- A number of four bytes. -/
def u32At (bytes : Bytes) (start : ℕ) : Server ℕ := numberAt bytes 4 start

/-- A number of eight bytes. -/
def u64At (bytes : Bytes) (start : ℕ) : Server ℕ := numberAt bytes 8 start

/-! ## The handshake -/

/-- `MAX_REQUEST` -/
def maxRequest : ℕ := 32 * 1024 * 1024

/-- The magic number of options. -/
def optMagic : ℕ := 0x49484156454f5054

/-- `FLAGS` -/
def exportFlags : ℕ := 1 ||| 4 ||| 8

/-- Several pieces are written one after the other. -/
def writeEach (chunks : List Bytes) : Server Unit :=
  each (fun chunk => attempt (.writeAll chunk)) chunks

/-- `option_reply` -/
def optionReply (option kind : ℕ) (data : Bytes) : Server Unit :=
  writeEach [beBytes 8 0x3e889045565a9, beBytes 4 option, beBytes 4 kind,
    beBytes 4 (data.length % 2 ^ 32), data]

/-- Option 1, `EXPORT_NAME`. -/
def exportName (size flags : ℕ) (data : Bytes) : Server (Option Bool) := do
  refuse (data ≠ []) .invalid
  writeEach ([beBytes 8 size, beBytes 2 exportFlags] ++
    if flags &&& 2 = 0 then [List.replicate 124 0] else [])
  attempt .flushStream
  return some true

/-- Options 6 and 7, `INFO` and `GO`. -/
def info (size option : ℕ) (data : Bytes) : Server (Option Bool) := do
  refuse (data.length < 6) .invalid
  let nameLen ← u32At data 0
  let room ← sub data.length 6
  refuse (nameLen > room) .invalid
  let start ← add 4 nameLen
  let n ← u16At data start
  let named ← add 6 nameLen
  let whole ← add named (2 * n)
  refuse (data.length ≠ whole) .invalid
  if nameLen ≠ 0 then
    optionReply option 0x80000006 []
    attempt .flushStream
    return none
  else
    optionReply option 3 (beBytes 2 0 ++ beBytes 8 size ++ beBytes 2 exportFlags)
    optionReply option 3 (beBytes 2 3 ++ beBytes 4 512 ++ beBytes 4 65536 ++ beBytes 4 maxRequest)
    optionReply option 1 []
    attempt .flushStream
    if option = 7 then
      return some true
    else
      attempt .flushStream
      return none

/-- The answer to one option. The handshake goes on after `none`. -/
def answer (size flags option : ℕ) (data : Bytes) : Server (Option Bool) :=
  if option = 1 then exportName size flags data
  else if option = 2 ∧ data = [] then do
    optionReply option 1 []
    attempt .flushStream
    return some false
  else if option = 6 ∨ option = 7 then info size option data
  else do
    optionReply option 0x80000001 []
    attempt .flushStream
    return none

/-- The loop over at most `count` options. -/
def options (size flags : ℕ) : ℕ → Server Bool
  | 0 => throw .invalid
  | count + 1 => do
    let header ← attempt (.readExact 16)
    let magic ← u64At header 0
    refuse (magic ≠ optMagic) .invalid
    let option ← u32At header 8
    let length ← u32At header 12
    refuse (length > 4096) .invalid
    let data ← attempt (.readExact length)
    match ← answer size flags option data with
    | some opened => return opened
    | none => options size flags count

/-- `handshake`: the flags, and at most 32 options. -/
def handshake (size : ℕ) : Server Bool := do
  writeEach [beBytes 8 0x4e42444d41474943, beBytes 8 optMagic, beBytes 2 3]
  attempt .flushStream
  let client ← attempt (.readExact 4)
  let flags := ofBe client
  refuse (flags &&& (2 ^ 32 - 1 - 3) ≠ 0 ∨ flags &&& 1 = 0) .invalid
  options size flags 32

/-! ## The requests -/

/-- `offset.checked_add(length)` lies within the disk. -/
def fits (offset length size : ℕ) : Bool :=
  if offset + length < 2 ^ 64 then decide (offset + length ≤ size) else false

/-- `valid`: the flags and the range of a command. -/
def valid (flags command offset length size : ℕ) : Bool :=
  if command = 0 ∨ command = 1 then
    decide (flags &&& (2 ^ 16 - 1 - if command = 1 then 1 else 0) = 0) && decide (length > 0) &&
      decide (length % 512 = 0) && decide (offset % 512 = 0) && fits offset length size
  else if command = 3 then decide (flags = 0 ∧ offset = 0 ∧ length = 0)
  else false

/-- The calls of the disk for a request, with the buffer that they leave. -/
def execute (flags command offset : ℕ) (data : Bytes) (size : ℕ) :
    Server (Result Unit × Bytes) :=
  if valid flags command offset data.length size = false then pure (.error .invalidInput, data)
  else if command = 0 then do
    match ← perform (.read offset data.length) with
    | .ok filled => return (.ok (), filled.val)
    | .error e => return (.error e, data)
  else if command = 1 then do
    match ← perform (.write offset data) with
    | .ok () =>
      if flags &&& 1 ≠ 0 then
        let flushed ← perform .flush
        return (flushed, data)
      else return (.ok (), data)
    | .error e => return (.error e, data)
  else if command = 3 then do
    let flushed ← perform .flush
    return (flushed, data)
  else throw .panic

/-- `errno` -/
def errnoOf : Result Unit → ℕ
  | .ok () => 0
  | .error .invalidInput => 22
  | .error _ => 5

/-- The data of a request: a write brings it, every other command gets a zeroed buffer. -/
def payload (command length : ℕ) : Server Bytes :=
  if command = 1 then do
    let data ← attempt (.readExact length)
    return data
  else pure (List.replicate length 0)

/-- One round of the loop of `serve`; `false` ends the connection. -/
def request : Server Bool := do
  let header ← attempt (.readExact 28)
  let magic ← u32At header 0
  refuse (magic ≠ 0x25609513) .invalid
  let flags ← u16At header 4
  let command ← u16At header 6
  let offset ← u64At header 16
  let length ← u32At header 24
  refuse (length > maxRequest) .invalid
  if command = 2 then
    return false
  else
    let data ← payload command length
    let size ← perform .size
    let (result, data) ← execute flags command offset data size
    let errno := errnoOf result
    let cookie ← range header 8 16
    writeEach ([beBytes 4 0x67446698, beBytes 4 errno, cookie] ++
      if command = 0 ∧ errno = 0 then [data] else [])
    attempt .flushStream
    return true

/-- The loop of `serve`. The bound stands for the input, which every request shortens. -/
def requests : ℕ → Server Unit
  | 0 => throw .exhausted
  | bound + 1 => do
    if ← request then requests bound
    else return ()

/-- `serve`, with a bound on the requests that are read. -/
def serve (bound : ℕ) : Server Unit := do
  let size ← perform .size
  if ← handshake size then requests bound
  else return ()

end AgentHouse.Nbd
