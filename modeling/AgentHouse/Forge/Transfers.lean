import AgentHouse.Lib.Teams
import Mathlib.Algebra.Ring.Nat

/-!
# File transfers to one destination

Clients of the engine upload to a path, agents serve uploads, and agents serve write requests, all
for one destination. The directory of the destination holds the temporary files too. The directory
is a table of names over inodes, so that an open file can still be written under another name or
under none. A call may fail at any time; only the removal of a temporary file succeeds.
-/

namespace AgentHouse.Forge.Transfers

open Op

/-- The contents of files. -/
abbrev Bytes := List UInt8

/-- The names in the destination's directory. -/
abbrev Name := String

/-- A transfer on the connection `c` has a client and an agent. -/
inductive Who where
  | client (c : ℕ)
  | agent (c : ℕ)
  /-- The agent that serves the write request `k`. -/
  | writer (k : ℕ)
  deriving DecidableEq, Repr

/-- The frames that the agent reads. -/
inductive Up where
  /-- `FileReq` of the kind `upload` -/
  | request
  | data (payload : Bytes)
  /-- `FileCommit`, with the number in its payload if it is one. -/
  | commit (claimed : Option ℕ)
  | other
  deriving DecidableEq, Repr

/-- The frames that the client reads. -/
inductive Down where
  /-- `{"op":"upload_ready"}` -/
  | ready
  /-- `FileResp::Write` -/
  | written (bytes : ℕ)
  | failed (message : String)
  deriving DecidableEq, Repr

/-- A rename onto the destination, with the contents that it published. -/
structure Commit where
  who : Who
  bytes : Bytes
  deriving DecidableEq, Repr

/-- The directory, the transfers and the connections. -/
structure World where
  names : Name → Option ℕ
  contents : ℕ → Bytes
  /-- No inode from here on has been used. -/
  inodes : ℕ
  /-- `TMP_COUNTER` -/
  counter : ℕ
  /-- The temporary file of a transfer. -/
  held : Who → Option (Name × ℕ)
  commits : List Commit
  up : ℕ → List Up
  taken : ℕ → ℕ
  down : ℕ → List Down
  seen : ℕ → ℕ
  /-- What a client has read from its source. -/
  read : ℕ → Bytes
  exhausted : ℕ → Bool
  /-- The number of bytes that a client returns, or that a write request is answered with. -/
  told : Who → Option ℕ

/-- The transfers that there are. -/
structure Config where
  dest : Name
  pid : ℕ
  /-- The connections whose client is the engine. On the others anything may arrive. -/
  engine : ℕ → Bool
  /-- The data of a write request, if it is valid base64. -/
  requests : ℕ → Option Bytes
  maxOutputBytes : ℕ
  /-- The path is a cancellation marker. -/
  marker : Bool

/-- Why a temporary file was not created. -/
inductive CreateError where
  | alreadyExists
  | other
  deriving DecidableEq, Repr

/-- The answer of a source. -/
inductive Source where
  | interrupted
  | failed (message : String)
  | chunk (bytes : Bytes)
  deriving DecidableEq, Repr

/-- What the programs ask of the file system and of the network. -/
inductive Act : Type → Type 1 where
  /-- The name that `unique_sibling` tries next. -/
  | candidate : Act Name
  /-- `create_new` -/
  | create (x : Name) : Act (Except CreateError ℕ)
  /-- One `write` to an open file; it may take a part. -/
  | write (i : ℕ) (data : Bytes) : Act (Except String ℕ)
  /-- Onto the destination. -/
  | rename (x : Name) : Act (Except String Unit)
  | remove (x : Name) : Act Unit
  /-- Another call that may fail and changes nothing of the directory. -/
  | call (what : String) : Act (Except String Unit)
  /-- The agent reads a frame. -/
  | recv (c : ℕ) : Act (Except String Up)
  /-- The agent writes a frame. -/
  | answer (c : ℕ) (frame : Down) : Act (Except String Unit)
  /-- The client writes a frame. -/
  | send (c : ℕ) (frame : Up) : Act (Except String Unit)
  /-- The client reads a frame. -/
  | reply (c : ℕ) : Act (Except String Down)
  /-- The client reads from its source. -/
  | source (c : ℕ) : Act Source
  /-- A client returns its result, or the answer of a write request is given. -/
  | tell (bytes : ℕ) : Act Unit
  /-- A round more than a run takes. -/
  | stall : Act Empty

/-! ## Programs -/

/-- `unique_sibling`, with `tries` tries left. -/
def uniqueSibling : ℕ → Op Act String (Option (Name × ℕ))
  | 0 => return none
  | tries + 1 => do
    let cand ← perform .candidate
    match ← perform (.create cand) with
    | .ok file => return some (cand, file)
    | .error .alreadyExists => uniqueSibling tries
    | .error .other => return none

/-- `write_all`; every call takes at least one byte, so `fuel` is the length. -/
def writeAll (file : ℕ) : ℕ → Bytes → Op Act String Unit
  | 0, data => if data = [] then return () else throw "failed to write whole buffer"
  | fuel + 1, data =>
    if data = [] then return ()
    else do
      let n ← attempt (.write file data)
      writeAll file fuel (data.drop n)

/-- The temporary file is removed where `body` fails. -/
def cleaning {α : Type} (tmp : Name) (body : Op Act String α) : Op Act String α := do
  match ← outcome body with
  | .ok a => return a
  | .error e => do
    perform (.remove tmp)
    throw e

/-- The loop of `upload`, in `fuel` rounds at most. -/
def receive (c : ℕ) (tmp : Name) (file : ℕ) : ℕ → ℕ → Op Act String ℕ
  | 0, _ => do
    let never ← perform .stall
    Empty.elim never
  | fuel + 1, bytes => do
    match ← attempt (.recv c) with
    | .data payload =>
      if payload = [] ∨ payload.length > 65536 then
        throw "upload chunks must be 1..=65536 bytes"
      else
        writeAll file payload.length payload
        if bytes + payload.length < 2 ^ 64 then receive c tmp file fuel (bytes + payload.length)
        else throw "upload size overflow"
    | .commit none => throw "upload commit"
    | .commit (some claimed) =>
      if claimed ≠ bytes then
        throw "upload length mismatch"
      else
        attempt (.call "upload sync")
        attempt (.rename tmp)
        return bytes
    | _ => throw "expected upload data or commit"

/-- `upload`, with a bound on the frames that it reads. -/
def upload (c fuel : ℕ) : Op Act String ℕ := do
  attempt (.call "timeout")
  attempt (.call "jail")
  attempt (.call "mkdir")
  match ← uniqueSibling 10 with
  | none => throw "cannot create upload temporary file"
  | some (tmp, file) => cleaning tmp do
    attempt (.answer c .ready)
    receive c tmp file fuel 0

/-- The agent's part of a connection: the answer to an upload is its last frame. -/
def serve (c fuel : ℕ) : Op Act String Unit := do
  match ← attempt (.recv c) with
  | .request =>
    match ← outcome (upload c fuel) with
    | .ok bytes => attempt (.answer c (.written bytes))
    | .error message => attempt (.answer c (.failed message))
  | _ => return ()

/-- `FileReq::Write`; the result is the answer of the request. -/
def serveWrite (cfg : Config) (k : ℕ) : Op Act String ℕ := do
  match cfg.requests k with
  | none => throw "base64"
  | some data =>
    if data.length > cfg.maxOutputBytes then
      throw "write too large"
    else
      attempt (.call "jail")
      attempt (.call "mkdir")
      match ← uniqueSibling 10 with
      | none => throw "write: temp name exhausted"
      | some (tmp, file) => cleaning tmp do
        if cfg.marker = true then
          attempt (.call "cancel marker permissions")
        writeAll file data.length data
        attempt (.rename tmp)
        return data.length

/-- The end of `file_upload`, after the source was read to its end. -/
def finish (c total : ℕ) : Op Act String ℕ := do
  attempt (.send c (.commit (some total)))
  match ← attempt (.reply c) with
  | .written bytes => if bytes = total then return total else throw "upload failed"
  | _ => throw "upload failed"

/-- The loop of `file_upload`, in `fuel` rounds at most. -/
def pump (c : ℕ) : ℕ → ℕ → Op Act String ℕ
  | 0, _ => do
    let never ← perform .stall
    Empty.elim never
  | fuel + 1, total => do
    match ← perform (.source c) with
    | .interrupted => pump c fuel total
    | .failed message => throw message
    | .chunk bytes =>
      if bytes = [] then
        finish c total
      else
        attempt (.send c (.data bytes))
        if total + bytes.length < 2 ^ 64 then pump c fuel (total + bytes.length)
        else throw "upload size overflow"

/-- `file_upload`, with a bound on the chunks that it sends. -/
def fileUpload (c fuel : ℕ) : Op Act String ℕ := do
  attempt (.call "connect")
  attempt (.send c .request)
  match ← attempt (.reply c) with
  | .ready => pump c fuel 0
  | _ => throw "upload unavailable"

/-- A client that reports its success. -/
def report (c fuel : ℕ) : Op Act String Unit := do
  let total ← fileUpload c fuel
  perform (.tell total)

/-- A write request that is answered with a success. -/
def answerWrite (cfg : Config) (k : ℕ) : Op Act String Unit := do
  let bytes ← serveWrite cfg k
  perform (.tell bytes)

/-! ## The world -/

/-- `.ahvm-tmp-{pid}-{nanos}-{n}` -/
def tempName (pid nanos n : ℕ) : Name :=
  ".ahvm-tmp-" ++ toString pid ++ "-" ++ toString nanos ++ "-" ++ toString n

/-- What an action of `w` does, where only the names that are `ok` are tried. -/
def Eff (cfg : Config) (ok : Name → Prop) (w : Who) {β : Type} (a : Act β) (s : World) :
    β → World → Prop :=
  match a with
  | .candidate => fun cand s' => ∃ nanos < 10 ^ 9, cand = tempName cfg.pid nanos s.counter ∧
    ok cand ∧ s' = { s with counter := (s.counter + 1) % 2 ^ 64 }
  | .create x => fun r s' =>
    (s.names x = none ∧ r = .ok s.inodes ∧ s' = { s with
      names := Function.update s.names x (some s.inodes)
      contents := Function.update s.contents s.inodes []
      inodes := s.inodes + 1
      held := Function.update s.held w (some (x, s.inodes)) }) ∨
    (s.names x ≠ none ∧ r = .error .alreadyExists ∧ s' = s) ∨ (r = .error .other ∧ s' = s)
  | .write i data => fun r s' =>
    (∃ n, 0 < n ∧ n ≤ data.length ∧ r = .ok n ∧ s' = { s with
      contents := Function.update s.contents i (s.contents i ++ data.take n) }) ∨
    (∃ e, r = .error e ∧ s' = s)
  | .rename x => fun r s' =>
    (∃ i, s.names x = some i ∧ r = .ok () ∧ s' = { s with
      names := Function.update (Function.update s.names x none) cfg.dest (some i)
      held := Function.update s.held w none
      commits := ⟨w, s.contents i⟩ :: s.commits }) ∨
    (∃ e, r = .error e ∧ s' = s)
  | .remove x => fun _ s' => s' = { s with
      names := Function.update s.names x none
      held := Function.update s.held w none }
  | .call _ => fun _ s' => s' = s
  | .recv c => fun r s' =>
    (∃ frame, (s.up c)[s.taken c]? = some frame ∧ r = .ok frame ∧ s' = { s with
      taken := Function.update s.taken c (s.taken c + 1) }) ∨
    (∃ e, r = .error e ∧ s' = s)
  | .answer c frame => fun r s' =>
    -- a frame that was written may still be followed by an error
    s' = { s with down := Function.update s.down c (s.down c ++ [frame]) } ∨
    (∃ e, r = .error e ∧ s' = s)
  | .send c frame => fun r s' =>
    s' = { s with up := Function.update s.up c (s.up c ++ [frame]) } ∨
    (∃ e, r = .error e ∧ s' = s)
  | .reply c => fun r s' =>
    (∃ frame, (s.down c)[s.seen c]? = some frame ∧ r = .ok frame ∧ s' = { s with
      seen := Function.update s.seen c (s.seen c + 1) }) ∨
    (∃ e, r = .error e ∧ s' = s)
  | .source c => fun r s' =>
    (r = .interrupted ∧ s' = s) ∨ (∃ message, r = .failed message ∧ s' = s) ∨
    (∃ bytes : Bytes, bytes.length ≤ 65536 ∧ r = .chunk bytes ∧ s' = { s with
      read := Function.update s.read c (s.read c ++ bytes)
      exhausted := Function.update s.exhausted c (s.exhausted c || decide (bytes = [])) })
  | .tell n => fun _ s' => s' = { s with told := Function.update s.told w (some n) }
  | .stall => fun _ _ => False

/-- The programs of a transfer. -/
inductive Begins (cfg : Config) : Who → Prog Act Unit → Prop
  | client {c fuel : ℕ} (h : cfg.engine c = true) : Begins cfg (.client c) (report c fuel).thread
  | agent {c fuel : ℕ} : Begins cfg (.agent c) (serve c fuel).thread
  | writer {k : ℕ} : Begins cfg (.writer k) (answerWrite cfg k).thread

/-- Frames of a client that is not the engine. -/
inductive Env (cfg : Config) : World → World → Prop
  | arrives {s : World} {c : ℕ} {frames : List Up} (h : cfg.engine c = false) :
    Env cfg s { s with up := Function.update s.up c (s.up c ++ frames) }

/-- Transfers over one directory. -/
def team (cfg : Config) (ok : Name → Prop) : Team Who Act World where
  env := Env cfg
  eff w _ a s b s' := Eff cfg ok w a s b s'
  begins w _ p := Begins cfg w p

/-- No transfer has begun. -/
structure Start (cfg : Config) (s : World) : Prop where
  inodes : ∀ x i, s.names x = some i → i < s.inodes
  held : ∀ w, s.held w = none
  commits : s.commits = []
  up : ∀ c, cfg.engine c = true → s.up c = []
  taken : ∀ c, s.taken c = 0
  down : ∀ c, s.down c = []
  read : ∀ c, s.read c = []
  told : ∀ w, s.told w = none

/-- The frames of an upload of `bytes`. -/
def Whole (frames : List Up) (bytes : Bytes) : Prop :=
  ∃ chunks : List Bytes, frames = .request :: chunks.map .data ++ [.commit (some bytes.length)] ∧
    chunks.flatten = bytes

/-- What was published is all that the peer sent before its commit, or all of the request. -/
def Complete (cfg : Config) (s : World) : Commit → Prop
  | ⟨.agent c, bytes⟩ => ∃ frames, frames <+: s.up c ∧ Whole frames bytes
  | ⟨.writer k, bytes⟩ => cfg.requests k = some bytes
  | ⟨.client _, _⟩ => False

end AgentHouse.Forge.Transfers
