import AgentHouse.Lib.Slices
import AgentHouse.Lib.Teams
import AgentHouse.Volume.Provenance

/-!
# Proofs of base images

A request for the proof of a base image samples the identity of the file and looks it up in a
cache. If it is not there, a background job hashes the file. Others may change files and names at
any time, but contents that were changed have identities that the file never had before.
Requests, jobs and changes interleave call by call; what is done under the lock of
the cache is one step.
-/

namespace AgentHouse.Engine.Proving

open Volume (projectDigest)

/-- The contents of files, and digests. -/
abbrev Bytes := List UInt8

/-- Device and number of a file. -/
abbrev Inode := ℕ × ℕ

/-- A path, as the bytes that the system takes. -/
abbrev FilePath := Bytes

/-- What the verifier knows a file by. -/
structure Identity where
  dev : ℕ
  ino : ℕ
  bytes : ℕ
  mtime : ℤ
  mtimeNs : ℤ
  ctime : ℤ
  ctimeNs : ℤ
  mode : ℕ
  uid : ℕ
  gid : ℕ
  links : ℕ
deriving DecidableEq

/-- What a file's `stat` returns. -/
structure Metadata where
  isFile : Bool
  dev : ℕ
  ino : ℕ
  len : ℕ
  mtime : ℤ
  mtimeNsec : ℤ
  ctime : ℤ
  ctimeNsec : ℤ
  mode : ℕ
  uid : ℕ
  gid : ℕ
  nlink : ℕ

/-- `Identity::read` -/
def Identity.read (m : Metadata) : Identity where
  dev := m.dev
  ino := m.ino
  bytes := m.len
  mtime := m.mtime
  mtimeNs := m.mtimeNsec
  ctime := m.ctime
  ctimeNs := m.ctimeNsec
  mode := m.mode
  uid := m.uid
  gid := m.gid
  links := m.nlink

/-- What a proof is cached under. -/
structure Key where
  path : FilePath
  artifactDigest : Bytes
  identity : Identity
deriving DecidableEq

/-- `ProjectImageBaseStatus` -/
inductive Status where
  | verifying
  | verified
  | invalid
deriving DecidableEq

/-- `ProjectImageBaseProof` -/
structure Proof where
  status : Status
  contentDigest : Option Bytes
deriving DecidableEq

/-- A proof that has no digest. -/
def Proof.unavailable (status : Status) : Proof := ⟨status, none⟩

/-- The length of the metadata at the end of an image. -/
def trailerBytes : ℕ := 65536

/-- The length that an image may have. -/
def maxBytes : ℕ := 64 * 1024 * 1024 * 1024

/-- The checks of `source` on the metadata of the path. -/
def unsuitable (m : Metadata) : Bool :=
  !m.isFile || m.mode &&& 0o022 != 0 || m.len == 0 || decide (2 ^ 64 ≤ m.len + trailerBytes) ||
    decide (maxBytes < m.len + trailerBytes) || m.len % 65536 != 0

/-! ## The cache -/

/-- An entry of the cache; a failed one may be tried again after `retry`. -/
structure Slot where
  key : Key
  proof : Proof
  retry : Option ℕ

/-- The state of the verifier: one job at a time, and the proofs so far. -/
structure Cache where
  running : Bool
  jobs : ℕ
  entries : List Slot

/-- The part of `status_with` after the lookup: a job is started unless one runs. The last
component says that it was started. -/
def Cache.start (c : Cache) (spawns : Bool) : Cache × Proof × Bool :=
  if c.running then (c, .unavailable .verifying, false)
  else if spawns then
    ({ c with running := true, jobs := min (c.jobs + 1) (2 ^ 64 - 1) },
      .unavailable .verifying, true)
  else
    ({ c with running := false, jobs := min (c.jobs + 1) (2 ^ 64 - 1) },
      .unavailable .invalid, false)

/-- What `status_with` does under the lock. -/
def Cache.consult (c : Cache) (key : Key) (now : ℕ) (spawns : Bool) : Cache × Proof × Bool :=
  match c.entries.find? (fun e => decide (e.key = key)) with
  | some e =>
      if e.retry.all (fun at_ => decide (now < at_)) then (c, e.proof, false)
      else { c with entries := c.entries.eraseP fun e => decide (e.key = key) }.start spawns
  | none => c.start spawns

/-- A second in nanoseconds. -/
def second : ℕ := 1000000000

/-- What a job does under the lock at its end. -/
def Cache.finish (c : Cache) (key : Key) (proof : Proof) (now : ℕ) : Cache :=
  let entries := if 4 ≤ c.entries.length then c.entries.tail else c.entries
  let slot :=
    if proof.status = .invalid then ⟨key, .unavailable .verifying, some (now + 30 * second)⟩
    else ⟨key, proof, none⟩
  { c with running := false, entries := entries ++ [slot] }

/-! ## Programs -/

/-- What a request and a job do to files, the clock and the cache. -/
inductive Act : Type → Type 1 where
  | canonicalize (path : FilePath) : Act (Option FilePath)
  | symlinkMetadata (path : FilePath) : Act (Option Metadata)
  | openFile (path : FilePath) : Act (Option Inode)
  | metadata (file : Inode) : Act (Option Metadata)
  | read (file : Inode) (pos size : ℕ) : Act (Option Bytes)
  | now : Act ℕ
  /-- `status_with` under the lock. -/
  | consult (file : Inode) (key : Key) : Act Proof
  /-- The end of a job under the lock. -/
  | finish (key : Key) (proof : Proof) : Act Unit
  /-- A request returns. -/
  | answer (proof : Proof) : Act Unit

/-- The answer to a file that is not an image. -/
def invalid : Proof := .unavailable .invalid

/-- `source`: the open file with its key, in `next`. -/
def source (path : FilePath) (artifactDigest : Bytes)
    (next : Option (Inode × Key) → Prog Act Unit) :
    Prog Act Unit :=
  if projectDigest artifactDigest = false then next none
  else .act (.canonicalize path) fun real =>
    if real ≠ some path then next none
    else .act (.symlinkMetadata path) fun
      | none => next none
      | some before =>
        if unsuitable before = true then next none
        else .act (.openFile path) fun
          | none => next none
          | some file => .act (.metadata file) fun
            | none => next none
            | some after =>
              if Identity.read after ≠ Identity.read before then next none
              else next (some (file, ⟨path, artifactDigest, Identity.read before⟩))

/-- `Verifier::status` -/
def status (path : FilePath) (artifactDigest : Bytes) : Prog Act Unit :=
  source path artifactDigest fun
    | none => .act (.answer invalid) .done
    | some (file, key) => .act (.consult file key) fun proof => .act (.answer proof) .done

section Hash

variable (sha256 : Bytes → Bytes) (file : Inode) (key : Key)

/-- The end of `hash`, where `data` is all that was read. -/
def conclude (data : Bytes) (next : Proof → Prog Act Unit) : Prog Act Unit :=
  .act (.metadata file) fun
    | none => next invalid
    | some after => .act (.symlinkMetadata key.path) fun
      | none => next invalid
      | some path =>
        if data.length ≠ key.identity.bytes ∨ Identity.read after ≠ key.identity ∨
            Identity.read path ≠ key.identity then next invalid
        else next ⟨.verified, some (sha256 data)⟩

/-- The buffer that a job reads into. -/
def bufferSize : ℕ := 8 * 1024 * 1024

/-- The loop of `hash`. The hasher is the bytes it was given, `bytes` their number. -/
def hashLoop (deadline : ℕ) (data : Bytes) (next : Proof → Prog Act Unit) : Prog Act Unit :=
  .act .now fun now =>
    if deadline ≤ now then next invalid
    else .act (.read file data.length bufferSize) fun
      | none => next invalid
      | some [] => conclude sha256 file key data next
      | some (byte :: rest) =>
        if key.identity.bytes < (data ++ byte :: rest).length then next invalid
        else hashLoop deadline (data ++ byte :: rest) next
termination_by key.identity.bytes - data.length
decreasing_by
  simp only [List.length_append, List.length_cons] at *
  omega

/-- A job. -/
def job : Prog Act Unit :=
  .act .now fun now => hashLoop sha256 file key (now + 300 * second) [] fun proof =>
    .act (.finish key proof) .done

end Hash

/-! ## The world -/

/-- A file apart from its number. -/
structure Node where
  contents : Bytes
  isFile : Bool
  mtime : ℤ
  mtimeNsec : ℤ
  ctime : ℤ
  ctimeNsec : ℤ
  mode : ℕ
  uid : ℕ
  gid : ℕ
  nlink : ℕ

/-- The metadata of a file. -/
def stat (i : Inode) (f : Node) : Metadata where
  isFile := f.isFile
  dev := i.1
  ino := i.2
  len := f.contents.length
  mtime := f.mtime
  mtimeNsec := f.mtimeNsec
  ctime := f.ctime
  ctimeNsec := f.ctimeNsec
  mode := f.mode
  uid := f.uid
  gid := f.gid
  nlink := f.nlink

/-- The identity of a file. -/
def identity (i : Inode) (f : Node) : Identity := Identity.read (stat i f)

/-- The threads. -/
inductive Who where
  | request (n : ℕ)
  /-- The job that request `n` started. -/
  | job (n : ℕ)
deriving DecidableEq

/-- The files, the clock, the cache and its jobs, with what files were before. -/
structure World where
  nodes : Inode → Node
  names : FilePath → Option Inode
  now : ℕ
  cache : Cache
  /-- How often the contents of a file were changed. -/
  era : Inode → ℕ
  /-- The identities that files had, with the era and the contents. -/
  had : Identity → Option (ℕ × Bytes)
  /-- The contents of the path's file when the request sampled its identity. -/
  sampled : ℕ → Option Bytes
  replies : ℕ → Option Proof
  started : ℕ → Option (Inode × Key)
  /-- The request whose job has not finished. -/
  active : Option ℕ

/-- A file is changed. If its contents are, it gets an identity that it never had; otherwise its
identity may also be one that it had since its contents were changed. -/
def World.change (s : World) (i : Inode) (f : Node) (era : ℕ) : World :=
  { s with
    nodes := Function.update s.nodes i f
    era := Function.update s.era i era
    had := Function.update s.had (identity i f) (some (era, f.contents)) }

/-- The file of an identity. -/
def Identity.inode (id : Identity) : Inode := (id.dev, id.ino)

/-- What others do. -/
inductive Env : World → World → Prop
  | names {s : World} (names : FilePath → Option Inode) : Env s { s with names }
  | clock {s : World} {now : ℕ} (h : s.now ≤ now) : Env s { s with now }
  | contents {s : World} {i : Inode} {f : Node} (h : s.had (identity i f) = none) :
    Env s (s.change i f (s.era i + 1))
  | attributes {s : World} {i : Inode} {f : Node} (hsame : f.contents = (s.nodes i).contents)
      (h : s.had (identity i f) = none ∨
        s.had (identity i f) = some (s.era i, f.contents)) :
    Env s (s.change i f (s.era i))

/-- The contents of the path's file are noted for a request. -/
def World.sample (s : World) (w : Who) (contents : Bytes) : World :=
  match w with
  | .request n => { s with sampled := Function.update s.sampled n (some contents) }
  | .job _ => s

/-- What an action does. Calls of the system may fail, and the lock may be poisoned. -/
def Eff (w : Who) {β : Type} (a : Act β) (s : World) : β → World → Prop :=
  match a with
  -- Any path of directories may be a symbolic link for a moment.
  | .canonicalize _ => fun _ s' => s' = s
  | .symlinkMetadata path => fun r s' =>
    (r = none ∧ s' = s) ∨
    (∃ i, s.names path = some i ∧ r = some (stat i (s.nodes i)) ∧
      s' = s.sample w (s.nodes i).contents)
  -- The path may be a symbolic link to any file by now.
  | .openFile _ => fun _ s' => s' = s
  | .metadata file => fun r s' => (r = none ∨ r = some (stat file (s.nodes file))) ∧ s' = s
  | .read file pos size => fun r s' =>
    (r = none ∨ ∃ n, 0 < n ∧ n ≤ size ∧ r = some (slice (s.nodes file).contents pos n)) ∧ s' = s
  | .now => fun r s' => r = s.now ∧ s' = s
  | .consult file key => fun r s' =>
    (r = invalid ∧ s' = s) ∨
    (∃ n spawns, w = .request n ∧ r = (s.cache.consult key s.now spawns).2.1 ∧
      s' = { s with
        cache := (s.cache.consult key s.now spawns).1
        started := if (s.cache.consult key s.now spawns).2.2 then
          Function.update s.started n (some (file, key)) else s.started
        active := if (s.cache.consult key s.now spawns).2.2 then some n else s.active })
  | .finish key proof => fun _ s' =>
    s' = s ∨ s' = { s with cache := s.cache.finish key proof s.now, active := none }
  | .answer proof => fun _ s' =>
    ∃ n, w = .request n ∧ s' = { s with replies := Function.update s.replies n (some proof) }

/-- A request begins at any time, and a job once it has been started. -/
inductive Begins (sha256 : Bytes → Bytes) (s : World) : Who → Prog Act Unit → Prop
  | request {n : ℕ} {path : FilePath} {artifactDigest : Bytes} :
    Begins sha256 s (.request n) (status path artifactDigest)
  | job {n : ℕ} {file : Inode} {key : Key} (h : s.started n = some (file, key)) :
    Begins sha256 s (.job n) (job sha256 file key)

/-- Requests and jobs over one world. -/
def team (sha256 : Bytes → Bytes) : Team Who Act World where
  env := Env
  eff w _ a s b s' := Eff w a s b s'
  begins w s p := Begins sha256 s w p

/-- The era is over, or the file still has these contents. -/
def World.Past (s : World) (id : Identity) (era : ℕ) (contents : Bytes) : Prop :=
  era ≤ s.era id.inode ∧ (era = s.era id.inode → (s.nodes id.inode).contents = contents)

/-- Nothing was requested yet. -/
structure Start (s : World) : Prop where
  files : ∀ i, s.had (identity i (s.nodes i)) = some (s.era i, (s.nodes i).contents)
  history : ∀ id era contents, s.had id = some (era, contents) → s.Past id era contents
  cache : s.cache = ⟨false, 0, []⟩
  replies : ∀ n, s.replies n = none
  started : ∀ n, s.started n = none
  active : s.active = none

/-- The thread has something left to do. -/
def Working : Thread Act → Prop
  | .idle => True
  | .runs (.act _ _) => True
  | .runs (.done _) => False
  | .ended => False

end AgentHouse.Engine.Proving
