import AgentHouse.Local.Bound

/-!
# The disk as a machine

The steps of one disk: the operations of a process that has it open, the sections of a
replication round between which other operations run, late requests, crashes and restarts.
Beside the state of the program a system carries what it is compared with: the contents when
the disk was opened, the journal records of all writes since then, how many of them have been
flushed, and the flat array that the acknowledged writes have produced.
-/

namespace AgentHouse.Local

open Volume IndexedVolume

/-- A replication round between its sections, and what it has in hand. -/
inductive Worker where
  | idle
  | begun
  | opened (remote : IndexedVolume)
  | snapshot (remote : IndexedVolume) (t : Snapshot)
  | committed (remote : IndexedVolume)

/-- A directory at rest, or a process that has the disk open. -/
inductive Mode where
  | closed (dir : Directory)
  | running (s : State) (worker : Worker)

/-- The store and the disk on its host, with the record of the acknowledged writes. -/
structure System where
  bucket : Bucket
  mode : Mode
  /-- The contents when the disk was last opened. -/
  start : ℕ → Bytes
  /-- The records of the acknowledged writes since then. -/
  log : List Record
  /-- The records that a failed write left in the journal. -/
  torn : List Record
  /-- The number of records that were acknowledged before the last flush. -/
  flushed : ℕ
  /-- The contents with every acknowledged write applied. -/
  array : ℕ → UInt8

/-- The chunks of a disk as it reads them from a store that answers. -/
def State.contents (P : Platform) (B : Bucket) (s : State) (i : ℕ) : Bytes :=
  match s.read P B.view (i * chunkBytes) chunkBytes with
  | .ok bytes => bytes
  | .error _ => []

/-- The records of a write that get into the journal whole. -/
def Append.reached (staged : BTreeMap ℕ Pending) : Append → List Record
  | .done => recordsIn staged
  | .torn k => (recordsIn staged).take (k / recordSize)

/-- The records that `log` leaves in the journal. -/
def State.logged (P : Platform) (s : State) (staged : BTreeMap ℕ Pending) (w : Rewrite)
    (a : Append) : List Record :=
  if s.file.bytes.length + staged.size * recordSize > logLimit ∧ (s.compact P w).2 ≠ .ok () then []
  else a.reached staged

/-- The records that a write leaves in the journal. -/
def State.written (P : Platform) (view : View) (s : State) (pos : ℕ) (input : Bytes) (w : Rewrite)
    (a : Append) : List Record :=
  match s.admission P view pos input with
  | .ok (some (_, staged)) => s.logged P staged w a
  | _ => []

namespace System

/-- The disk goes on, before another bucket. -/
def enter (σ : System) (B : Bucket) (mode : Mode) : System :=
  { σ with bucket := B, mode := mode }

/-- The system after a write. Records of a write that failed are kept apart. -/
def wrote (σ : System) (s : State) (worker : Worker) (records : List Record) (pos : ℕ)
    (input : Bytes) (res : Result Unit) : System :=
  match res with
  | .ok () => { σ with
      mode := .running s worker
      log := σ.log ++ records
      array := overwrite σ.array pos input }
  | .error _ => { σ with mode := .running s worker, torn := σ.torn ++ records }

/-- All acknowledged writes are on disk now. -/
def durable (σ : System) : System := { σ with flushed := σ.log.length }

/-- The system after a step that promises durability if it succeeds. -/
def barrier {α : Type} (σ : System) (res : Result α) : System :=
  match res with
  | .ok _ => σ.durable
  | .error _ => σ

/-- The system with a disk that was just opened. -/
def reopened (P : Platform) (σ : System) (s : State) : System where
  bucket := σ.bucket
  mode := .running s .idle
  start := s.contents P σ.bucket
  log := []
  torn := []
  flushed := 0
  array := flat chunkBytes (s.contents P σ.bucket)

end System

/-- Where a replication round goes after the upload. -/
def Worker.uploaded (remote : IndexedVolume) : Result ℕ → Worker
  | .ok _ => .committed remote
  | .error _ => .idle

/-- The replication mark in a manifest. -/
def mark : Manifest → Option Replication
  | .root r => r.replication
  | .envelope e => e.manifest.replication
  | .tombstone _ => none

/-- The head carries no mark of the journal. -/
def Unmarked (B : Bucket) (s : Space) (journal : Hash) : Prop :=
  ∀ h r, B.heads s = some h → mark h.manifest = some r → r.id ≠ journal

section Runs

variable (P : Platform) (S : Set Bytes) (store : Client) (id : VolumeId)

/-- One step of a disk. Answers of the store are never wrong, and what is hashed for an upload
lies in `S`. -/
inductive System.Step : System → System → Prop
  | write {σ : System} {s s' : State} {worker : Worker} {view : View} {pos : ℕ} {input : Bytes}
      {w : Rewrite} {a : Append} {res : Result Unit} (hm : σ.mode = .running s worker)
      (hs : view.Sound σ.bucket) (hok : s.write P view pos input w a = (s', res)) :
      Step σ (σ.wrote s' worker (s.written P view pos input w a) pos input res)
  | flush {σ : System} {s s' : State} {worker : Worker} {synced : Bool} {res : Result Unit}
      (hm : σ.mode = .running s worker) (hok : s.flush synced = (s', res)) :
      Step σ ((σ.enter σ.bucket (.running s' worker)).barrier res)
  | begin {σ : System} {s : State} (hm : σ.mode = .running s .idle) (hok : s.begin = .ok true) :
      Step σ (σ.enter σ.bucket (.running s .begun))
  | nothing {σ : System} {s : State} (hm : σ.mode = .running s .idle) (hok : s.begin = .ok false) :
      Step σ σ.durable
  | connect {σ : System} {s : State} {view : View} {remote : IndexedVolume}
      (hm : σ.mode = .running s .begun) (hs : view.Sound σ.bucket)
      (hok : IndexedVolume.open P view store id = .ok remote) :
      Step σ (σ.enter σ.bucket (.running s (.opened remote)))
  | reconcile {σ : System} {s s' : State} {remote : IndexedVolume} {synced : Bool} {w : Rewrite}
      {t : Snapshot} (hm : σ.mode = .running s (.opened remote))
      (hok : s.reconcile P remote synced w = (s', .ok (some t))) :
      Step σ (σ.enter σ.bucket (.running s' (.snapshot remote t)))
  | reconciled {σ : System} {s s' : State} {remote : IndexedVolume} {synced : Bool} {w : Rewrite}
      {res : Result (Option Snapshot)} (hm : σ.mode = .running s (.opened remote))
      (hok : s.reconcile P remote synced w = (s', res)) (hres : ∀ t, res ≠ .ok (some t)) :
      Step σ ((σ.enter σ.bucket (.running s' .idle)).barrier res)
  | upload {σ : System} {s : State} {remote remote' : IndexedVolume} {t : Snapshot} {φ : Faults}
      {B : Bucket} {res : Result ℕ} (hm : σ.mode = .running s (.snapshot remote t))
      (hs : ∀ B, (φ.view B).Sound B)
      (hS : ∀ B v, uploadEntries P φ t.entries.toList σ.bucket remote = (B, v, .ok ()) →
        ∀ b ∈ v.hashed P (φ.view B) false, b ∈ S)
      (hok : upload P σ.bucket φ remote t = (B, remote', res)) :
      Step σ (σ.enter B (.running s (.uploaded remote' res)))
  | settle {σ : System} {s s' : State} {remote : IndexedVolume} {w : Rewrite} {res : Result Unit}
      (hm : σ.mode = .running s (.committed remote)) (hok : s.settle P remote w = (s', res)) :
      Step σ ((σ.enter σ.bucket (.running s' .idle)).barrier res)
  | giveUp {σ : System} {s : State} {worker : Worker} (hm : σ.mode = .running s worker) :
      Step σ (σ.enter σ.bucket (.running s .idle))
  | compactRemote {σ : System} {s s' : State} {φ : Faults} {after : Option CompactionCursor}
      {budget : ℕ} {w : Rewrite} {B : Bucket} {res : Result Compaction}
      (hm : σ.mode = .running s .idle) (hs : ∀ B, (φ.view B).Sound B)
      (hS : ∀ v, IndexedVolume.open P (φ.view σ.bucket) store id = .ok v →
        ∀ b ∈ v.passHashed P (φ.view σ.bucket) after budget, b ∈ S)
      (hok : s.compactRemote P σ.bucket φ after budget w = (B, s', res)) :
      Step σ (σ.enter B (.running s' .idle))
  | land {σ : System} {q : Request} (hq : q ∈ σ.bucket.flights) :
      Step σ (σ.enter (σ.bucket.land P q) σ.mode)
  | other {σ : System} {B : Bucket} (hle : σ.bucket.Le B) (ha : Addressed P S B)
      (hh : B.heads (store.space id) = σ.bucket.heads (store.space id))
      (hp : σ.bucket.published ≤ B.published)
      (hf : ∀ q ∈ B.flights, q.space = store.space id → q ∈ σ.bucket.flights) :
      Step σ (σ.enter B σ.mode)
  | stop {σ : System} {s : State} {worker : Worker} (hm : σ.mode = .running s worker) :
      Step σ (σ.enter σ.bucket (.closed s.directory))
  | powerLoss {σ : System} {s : State} {worker : Worker} {e : Option File}
      (hm : σ.mode = .running s worker) (he : s.directory.Survivor e) :
      Step σ (σ.enter σ.bucket (.closed ⟨e, []⟩))
  | powerLossAtRest {σ : System} {dir : Directory} {e : Option File} (hm : σ.mode = .closed dir)
      (he : dir.Survivor e) : Step σ (σ.enter σ.bucket (.closed ⟨e, []⟩))
  | «open» {σ : System} {dir dir' : Directory} {view : View} {random : Bytes} {c : Creation}
      {w : Rewrite} {s : State} (hm : σ.mode = .closed dir) (hs : view.Sound σ.bucket)
      (hfresh : dir.journal = none → Unmarked σ.bucket (store.space id) (P.digest random))
      (hok : openDisk P view store id random c w dir = (dir', .ok s)) : Step σ (σ.reopened P s)
  | openFailed {σ : System} {dir dir' : Directory} {view : View} {random : Bytes} {c : Creation}
      {w : Rewrite} {e : Error} (hm : σ.mode = .closed dir) (hs : view.Sound σ.bucket)
      (hfresh : dir.journal = none → Unmarked σ.bucket (store.space id) (P.digest random))
      (hok : openDisk P view store id random c w dir = (dir', .error e)) :
      Step σ (σ.enter σ.bucket (.closed dir'))

/-- A disk over an existing volume, before its directory is used. -/
structure System.Starts (σ : System) : Prop where
  head : ∃ v, HeadOf P S σ.bucket v σ.start ∧ v.store = store ∧ v.root.volume = id ∧
    v.root.ready = true ∧ ∃ n < σ.bucket.published, P.tag n (store.wrap v.root) = v.revision
  addressed : Addressed P S σ.bucket
  quiet : ∀ q ∈ σ.bucket.flights, q.space ≠ store.space id
  mode : σ.mode = .closed ⟨none, []⟩
  log : σ.log = []
  torn : σ.torn = []
  flushed : σ.flushed = 0
  array : σ.array = flat chunkBytes σ.start

/-- The systems that can be reached. -/
inductive System.Run : System → Prop
  | start {σ : System} (h : σ.Starts P S store id) : Run σ
  | step {σ σ' : System} (run : Run σ) (h : System.Step P S store id σ σ') : Run σ'

end Runs

end AgentHouse.Local
