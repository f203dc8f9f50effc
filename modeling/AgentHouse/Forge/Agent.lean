import AgentHouse.Lib.Json
import AgentHouse.Proto.Frames

/-!
# The agent's request loop

A connection is served by one thread. It reads a frame, performs the request and writes what comes
of it, and goes on with the next frame or closes the connection. What the peer sends and what
payloads parse to is given; what the operations come to and which writes fail is given step by step.
-/

namespace AgentHouse.Forge.Agent

open Proto

/-- A frame of the wire protocol. -/
abbrev Frame := Proto.Frame

/-- `AUTH` is not needed where the token is empty. -/
structure Config where
  token : Bytes

/-- `FileReq` -/
inductive FileReq where
  | upload (path : String)
  | read (path : String) (offset limit : UInt64)
  | write (path dataB64 : String)
  | list (path : String) (offset limit : UInt64)

/-- `SessionReq` -/
inductive SessionReq where
  | create (argv : List String) (env : List (String × String)) (cwd : Option String) (pty : Bool)
  | attach (sessionId : String) (fromSeq : UInt64) (timeoutMs : Option UInt64)
  | input (sessionId dataB64 : String)
  | kill (sessionId : String)
  | resize (sessionId : String) (rows cols : UInt16)
  | delete (sessionId : String)
  | list

/-- `ExecReq` -/
structure ExecReq where
  argv : List String
  env : List (String × String)
  cwd : Option String

/-- What `serde_json` makes of payloads, and the texts of errors. -/
structure Parsers where
  auth : Bytes → Except String Bytes
  exec : Bytes → Except String ExecReq
  file : Bytes → Except String FileReq
  session : Bytes → Except String SessionReq
  commit : Bytes → Except String ℕ
  display : Error → String

/-- Where the connection's thread is. -/
inductive Phase where
  | auth
  | ready
  | executing (req : ExecReq)
  | serving (req : FileReq)
  | uploading (path : String)
  /-- The first frame of an upload has been written, and bytes have come in. -/
  | receiving (path : String) (bytes : ℕ)
  | forwarding
  /-- An upload or a tunnel could not write its first frame. -/
  | refusing
  /-- All session requests but `attach`. -/
  | session (req : SessionReq)
  | attaching (sessionId : String)
  | attached (sessionId : String)
  | closed

/-- A connection, with the record of what was read and written. -/
structure Conn where
  phase : Phase
  /-- What is still to be read. -/
  input : Source
  /-- All frames that have been read. -/
  frames : List Frame
  /-- The frame of the auth gate. -/
  gate : List Frame
  requests : List Frame
  /-- The frames of an upload. -/
  transfer : List Frame
  /-- The frames that have been written in full, and whether they end a response. -/
  log : List (Frame × Bool)
  out : Bytes

/-- What comes of the writes of a frame. -/
inductive Io where
  | done
  | failed (written : ℕ)

/-- What a step writes. `send_frame` ignores errors; otherwise there is a phase that an error leads
to. -/
inductive Reply where
  | none
  | ignored (f : Frame)
  | checked (f : Frame) (final : Bool) (failed : Phase)

/-- What a step reads, or what the operation of the request comes to. -/
inductive Act where
  /-- A frame is read at the gate or at the top of the loop. -/
  | received
  /-- An operation comes to a body or to a message. -/
  | finished (r : Except String Bytes)
  /-- An upload is refused before its first frame. -/
  | unready (message : String)
  | uploadReady
  /-- A frame is read by an upload, and its data are written or the file is published. -/
  | piece (r : Except String Unit)
  | forwarded (r : Except String Unit)
  | refused (message : String)
  | found (there : Bool)
  /-- The JSON of a `SessionData`, of at most 32 KiB of output. -/
  | chunk (body : Bytes) (eof : Bool)
  /-- The idle bound of an attach has passed. -/
  | expired

/-- A connection is served from the gate on, or without one. -/
def init (cfg : Config) (input : Source) : Conn where
  phase := if cfg.token = [] then .ready else .auth
  input := input
  frames := []
  gate := []
  requests := []
  transfer := []
  log := []
  out := []

/-- `constant_eq` -/
def constantEq (a b : Bytes) : Bool :=
  if a.length ≠ b.length then false
  else (a.zip b).foldl (fun acc (x, y) => acc ||| (x ^^^ y)) 0 == 0

/-- `err_frame` -/
def errFrame (message : String) : Frame :=
  ⟨.error, (Json.obj [("message", .str message)]).render.toUTF8.data.toList⟩

/-- The name of a type in messages. -/
def debug : FrameType → String
  | .execReq => "ExecReq"
  | .auth => "Auth"
  | .configReq => "ConfigReq"
  | .configResp => "ConfigResp"
  | .execResp => "ExecResp"
  | .error => "Error"
  | .fileReq => "FileReq"
  | .fileResp => "FileResp"
  | .sessionReq => "SessionReq"
  | .sessionResp => "SessionResp"
  | .sessionData => "SessionData"
  | .forwardReq => "ForwardReq"
  | .forwardResp => "ForwardResp"
  | .fileData => "FileData"
  | .fileCommit => "FileCommit"

/-- The frame that lets the peer send its data. -/
def uploadReady : Frame :=
  ⟨.fileResp, (Json.obj [("op", .str "upload_ready")]).render.toUTF8.data.toList⟩

/-- The response to an upload. -/
def written (bytes : ℕ) : Frame :=
  ⟨.fileResp, (Json.obj [("op", .str "write"), ("bytes", .num (toString bytes))]).render.toUTF8
    |>.data.toList⟩

namespace Conn

variable (checks : Bool) (cfg : Config) (P : Parsers) (s : Conn)

/-- The connection goes on to a phase. -/
def goto (p : Phase) : Conn := { s with phase := p }

/-- A frame has been read. -/
def read (f : Frame) (rest : Source) : Conn := { s with input := rest, frames := s.frames ++ [f] }

/-- A frame is written, or not, or in part. The flag says that `write_frame` succeeded. -/
def deliver (f : Frame) (final : Bool) (io : Io) : Conn × Bool :=
  match writeFrame checks f with
  | .error _ => (s, false)
  | .ok b =>
      match io with
      | .done => ({ s with out := s.out ++ b, log := s.log ++ [(f, final)] }, true)
      | .failed n => ({ s with out := s.out ++ b.take n }, false)

/-- A build that checks additions panics over a frame, and the connection is dropped. -/
def panics (f : Frame) : Bool := decide (writeFrame checks f = .error .panicked)

/-- What a step writes, and what an error leads to. -/
def reply (r : Reply) (io : Io) : Conn :=
  match r with
  | .none => s
  | .ignored f => if panics checks f then s.goto .closed else (s.deliver checks f true io).1
  | .checked f final failed =>
      let (s, ok) := s.deliver checks f final io
      if ok then s else if panics checks f then s.goto .closed else s.goto failed

/-- The frame of the gate carries the token. -/
def authorized (f : Frame) : Bool :=
  decide (f.msgType = .auth) &&
    match P.auth f.payload with
    | .ok token => constantEq token cfg.token
    | .error _ => false

/-- The gate: the first frame must be `AUTH` with the token. -/
def gateFrame : Conn × Reply :=
  match readFrame s.input with
  | (.error e, _) => (s.goto .closed, .ignored (errFrame ("auth required: " ++ P.display e)))
  | (.ok f, rest) =>
      let s := { s.read f rest with gate := [f] }
      if authorized cfg P f then (s.goto .ready, .none)
      else (s.goto .closed, .ignored (errFrame "auth required"))

/-- The answer to a payload that does not parse. -/
def badRequest (e : String) : Frame := errFrame ("bad request: " ++ e)

/-- What a request leads to. -/
def dispatch (f : Frame) : Conn × Reply :=
  match f.msgType with
  | .forwardReq => (s.goto .forwarding, .none)
  | .execReq =>
      match P.exec f.payload with
      | .ok req => (s.goto (.executing req), .none)
      | .error e => (s.goto .ready, .ignored (badRequest e))
  | .fileReq =>
      match P.file f.payload with
      | .ok (.upload path) => (s.goto (.uploading path), .none)
      | .ok req => (s.goto (.serving req), .none)
      | .error e => (s.goto .ready, .ignored (badRequest e))
  | .sessionReq =>
      match P.session f.payload with
      | .ok (.attach id _ _) => (s.goto (.attaching id), .none)
      | .ok req => (s.goto (.session req), .none)
      | .error e => (s.goto .ready, .ignored (badRequest e))
  | other => (s.goto .ready, .ignored (errFrame ("unexpected frame type " ++ debug other)))

/-- The top of the loop. -/
def request : Conn × Reply :=
  match readFrame s.input with
  | (.error .cleanEof, _) => (s.goto .closed, .none)
  | (.error e, _) => (s.goto .closed, .ignored (errFrame ("read: " ++ P.display e)))
  | (.ok f, rest) => { s.read f rest with requests := s.requests ++ [f] }.dispatch P f

/-- A frame of an upload: its size so far, its result, or a message. -/
def uploadFrame (bytes : ℕ) (f : Frame) (r : Except String Unit) : Except String (ℕ ⊕ ℕ) :=
  match f.msgType with
  | .fileData =>
      if f.payload = [] ∨ 65536 < f.payload.length then
        .error "upload chunks must be 1..=65536 bytes"
      else
        match r with
        | .error e => .error ("upload write: " ++ e)
        | .ok _ =>
            if 2 ^ 64 ≤ bytes + f.payload.length then .error "upload size overflow"
            else .ok (.inl (bytes + f.payload.length))
  | .fileCommit =>
      match P.commit f.payload with
      | .error e => .error ("upload commit: " ++ e)
      | .ok claimed =>
          if claimed ≠ bytes then .error "upload length mismatch"
          else
            match r with
            | .error message => .error message
            | .ok _ => .ok (.inr bytes)
  | _ => .error "expected upload data or commit"

/-- Whatever is not a chunk ends an upload and the connection. -/
def piece (path : String) (bytes : ℕ) (r : Except String Unit) : Conn × Reply :=
  match readFrame s.input with
  | (.error e, _) =>
      (s.goto .closed, .ignored (errFrame ("upload interrupted: " ++ P.display e)))
  | (.ok f, rest) =>
      let s := { s.read f rest with transfer := s.transfer ++ [f] }
      match uploadFrame P bytes f r with
      | .ok (.inl bytes) => (s.goto (.receiving path bytes), .none)
      | .ok (.inr bytes) => (s.goto .closed, .ignored (written bytes))
      | .error message => (s.goto .closed, .ignored (errFrame message))

/-- The response of `exec` and of file requests is bounded before it is written. -/
def respond (msgType : FrameType) (body : Bytes) : Conn × Reply :=
  if maxFrameSize < 1 + body.length then
    (s.goto .closed, .ignored (errFrame ("response too large (" ++ toString body.length ++
      " bytes): retry with a smaller limit")))
  else (s.goto .ready, .checked ⟨msgType, body⟩ true .closed)

/-- The next phase, and what is written before it. -/
def act : Act → Option (Conn × Reply)
  | .received =>
      match s.phase with
      | .auth => some (s.gateFrame cfg P)
      | .ready => some (s.request P)
      | _ => none
  | .finished r =>
      match s.phase, r with
      | .executing _, .ok body => some (s.respond .execResp body)
      | .serving _, .ok body => some (s.respond .fileResp body)
      | .serving _, .error message => some (s.goto .ready, .ignored (errFrame message))
      | .session _, .ok body => some (s.goto .ready, .ignored ⟨.sessionResp, body⟩)
      | .session _, .error message => some (s.goto .ready, .ignored (errFrame message))
      | _, _ => none
  | .unready message =>
      match s.phase with
      | .uploading _ => some (s.goto .closed, .ignored (errFrame message))
      | _ => none
  | .uploadReady =>
      match s.phase with
      | .uploading path => some (s.goto (.receiving path 0), .checked uploadReady false .refusing)
      | _ => none
  | .piece r =>
      match s.phase with
      | .receiving path bytes => some (s.piece P path bytes r)
      | _ => none
  | .forwarded r =>
      match s.phase with
      | .forwarding =>
          match r with
          | .ok _ => some (s.goto .closed, .checked ⟨.forwardResp, []⟩ true .refusing)
          | .error message => some (s.goto .closed, .ignored (errFrame message))
      | _ => none
  | .refused message =>
      match s.phase with
      | .refusing => some (s.goto .closed, .ignored (errFrame message))
      | _ => none
  | .found there =>
      match s.phase with
      | .attaching id =>
          if there then some (s.goto (.attached id), .none)
          else some (s.goto .ready, .ignored (errFrame ("no such session: " ++ id)))
      | _ => none
  | .chunk body eof =>
      match s.phase with
      | .attached id =>
          if 1 + body.length < 2 ^ 32 then
            some (s.goto (if eof then .ready else .attached id),
              .checked ⟨.sessionData, body⟩ eof .closed)
          else none
      | _ => none
  | .expired =>
      match s.phase with
      | .attached _ => some (s.goto .closed, .none)
      | _ => none

/-- One step: what is read or comes back, and then the write. -/
def step (a : Act × Io) : Option Conn :=
  (s.act cfg P a.1).map fun (t, r) => t.reply checks r a.2

end Conn

end AgentHouse.Forge.Agent
