import AgentHouse.Local.Journal
import AgentHouse.Volume.Compact

/-!
# The journalled disk

The state of `local.rs` and its operations. A write is acknowledged once its records are in
the journal; `replicate` moves the buffered chunks into the remote volume and `accept` drops
those that the remote volume has. Files are modelled with the prefix that is known to be on
disk, so that a crash can cut the rest. The outcome of every file operation is a parameter.
-/

namespace AgentHouse.Local

open Volume

/-- A file, and the length of the prefix that `sync_all` has put on disk. -/
structure File where
  bytes : Bytes
  synced : ℕ
  deriving DecidableEq

/-- What lies under the journal's name, and what a crash may leave there instead as long as
the directory is not synced. -/
structure Directory where
  journal : Option File
  others : List (Option File)
  deriving DecidableEq

/-- The disk in memory, its journal and what a crash may leave of that. -/
structure State where
  header : Header
  file : File
  /-- Files renamed to the journal while the directory was not synced, the newest first. -/
  renamed : List File
  /-- What else a crash may leave under the journal's name. -/
  stale : List (Option File)
  reader : IndexedVolume
  pending : BTreeMap ℕ Pending
  sequence : ℕ
  localSequence : ℕ
  failed : Bool

/-- How far a rewrite of the journal got: not to the rename, to the rename only, or to the
synced directory. -/
inductive Rewrite where
  | failed
  | renamed
  | done
  deriving DecidableEq, Repr

/-- How far the records of a write got. -/
inductive Append where
  | done
  | torn (bytes : ℕ)
  deriving DecidableEq, Repr

/-- How far the creation of a journal got: through some bytes of its header, through all of
them without a sync of file and directory, or to the end. -/
inductive Creation where
  | torn (bytes : ℕ)
  | unsynced
  | done
  deriving DecidableEq, Repr

namespace State

/-- The size of the disk. -/
def size (s : State) : ℕ := s.reader.size

/-- `check`: the disk is in order and the range inside it. -/
def check (s : State) (pos len : ℕ) : Result Unit :=
  if s.failed then .error .reopenRequired
  else if len > writeLimit ∨ pos + len > s.reader.size then .error .invalidInput
  else .ok ()

section Compaction

/-- The order of `entries.sort_by_key`: by sequence, then by index. -/
def entryLe (a b : ℕ × Pending) : Bool :=
  decide (a.2.sequence < b.2.sequence ∨ a.2.sequence = b.2.sequence ∧ a.1 ≤ b.1)

/-- The pending chunks, the oldest first. -/
def entries (s : State) : List (ℕ × Pending) := s.pending.toList.mergeSort entryLe

/-- The bytes of a rewritten journal. -/
def journalBytes (P : Platform) (s : State) : Result Bytes :=
  match headerBytes P s.header with
  | .error e => .error e
  | .ok bytes => .ok (bytes ++ s.entries.flatMap (fun e => recordBytes P e.1 e.2))

/-- The state with the header that a rewrite stores. -/
def stamped (s : State) : State := { s with header := { s.header with sequence := s.sequence } }

/-- `compact_inner`: the journal is rewritten beside itself and renamed. -/
def compactInner (P : Platform) (s : State) (w : Rewrite) : State × Result Unit :=
  match s.stamped.journalBytes P with
  | .error e => (s.stamped, .error e)
  | .ok bytes =>
    match w with
    | .failed => (s.stamped, .error .store)
    | .renamed =>
      ({ s.stamped with renamed := ⟨bytes, bytes.length⟩ :: s.renamed }, .error .store)
    | .done => ({ s.stamped with
        file := ⟨bytes, bytes.length⟩
        renamed := []
        stale := []
        localSequence := s.sequence }, .ok ())

/-- `compact`: a failure poisons the disk. -/
def compact (P : Platform) (s : State) (w : Rewrite) : State × Result Unit :=
  match s.compactInner P w with
  | (s', .error e) => ({ s' with failed := true }, .error e)
  | (s', .ok ()) => (s', .ok ())

end Compaction

/-- The mark up to which `accept` takes the pending chunks as replicated. -/
def accepted (s : State) (remote : IndexedVolume) : Option ℕ :=
  if remote.revision = s.header.base then some s.header.acknowledged
  else
    match remote.root.replication with
    | none => none
    | some r =>
      if r.id = s.header.id ∧ r.sequence ≥ s.header.acknowledged ∧ r.sequence ≤ s.sequence then
        some r.sequence
      else none

/-- `accept`: what the remote volume has is dropped from the pending chunks. -/
def accept (s : State) (remote : IndexedVolume) : Result State :=
  match s.accepted remote with
  | none => .error .conflict
  | some ack => .ok { s with
      header := { s.header with base := remote.revision, acknowledged := ack }
      pending := s.pending.filter (fun _ p => decide (p.sequence > ack))
      reader := remote }

section Access

/-- The bytes that the loop of `read` collects. -/
def gather (P : Platform) (view : View) (s : State) : List Segment → Result Bytes
  | [] => .ok []
  | t :: rest =>
    let answer : Result Bytes :=
      match s.pending[t.index]? with
      | some p => .ok (slice p.bytes t.within t.count)
      | none => s.reader.read P view (t.index * chunkBytes + t.within) t.count
    match answer with
    | .error e => .error e
    | .ok bytes =>
      match s.gather P view rest with
      | .error e => .error e
      | .ok tail => .ok (bytes ++ tail)

/-- `read` -/
def read (P : Platform) (view : View) (s : State) (pos len : ℕ) : Result Bytes :=
  match s.check pos len with
  | .error e => .error e
  | .ok () => s.gather P view (segments chunkBytes pos len 0)

/-- A chunk that a write touches, with the written part filled in. -/
def writtenChunk (P : Platform) (view : View) (s : State) (input : Bytes) (t : Segment) :
    Result Bytes :=
  let old : Result Bytes :=
    if t.within = 0 ∧ t.count = chunkBytes then .ok (zeros chunkBytes)
    else
      match s.pending[t.index]? with
      | some p => .ok p.bytes
      | none => s.reader.read P view (t.index * chunkBytes) chunkBytes
  match old with
  | .error e => .error e
  | .ok bytes => .ok (splice bytes t.within (slice input t.done t.count))

/-- One round of the loop of `write`. -/
def stage (P : Platform) (view : View) (s : State) (sequence : ℕ) (input : Bytes)
    (staged : BTreeMap ℕ Pending) (t : Segment) : Result (BTreeMap ℕ Pending) :=
  match s.writtenChunk P view input t with
  | .error e => .error e
  | .ok bytes => .ok (staged.insert t.index ⟨sequence, bytes⟩)

/-- The number of chunks that a write would add to the pending ones. -/
def extraChunks (s : State) (pos len : ℕ) : ℕ :=
  let first := pos / chunkBytes
  let last := (pos + len - 1) / chunkBytes
  ((List.range' first (last + 1 - first)).filter (fun i => !s.pending.contains i)).length

/-- The records of a write. -/
def recordsOf (P : Platform) (staged : BTreeMap ℕ Pending) : Bytes :=
  staged.toList.flatMap (fun e => recordBytes P e.1 e.2)

/-- The records of a write reach the journal, in whole or in part. -/
def append (P : Platform) (s : State) (staged : BTreeMap ℕ Pending) (a : Append) :
    State × Result Unit :=
  match a with
  | .done => ({ s with file := ⟨s.file.bytes ++ recordsOf P staged, s.file.synced⟩ }, .ok ())
  | .torn k =>
    ({ s with file := ⟨s.file.bytes ++ (recordsOf P staged).take k, s.file.synced⟩ },
      .error .store)

/-- Put the records of a write into the journal, which is rewritten first if it is full. -/
def log (P : Platform) (s : State) (staged : BTreeMap ℕ Pending) (w : Rewrite) (a : Append) :
    State × Result Unit :=
  if s.file.bytes.length + staged.size * recordSize > logLimit then
    match s.compact P w with
    | (s', .error e) => (s', .error e)
    | (s', .ok ()) => s'.append P staged a
  else s.append P staged a

/-- The part of a write before anything changes: the sequence number and the chunks of a write
that is admitted, and nothing for an empty one. -/
def admission (P : Platform) (view : View) (s : State) (pos : ℕ) (input : Bytes) :
    Result (Option (ℕ × BTreeMap ℕ Pending)) :=
  match s.check pos input.length with
  | .error e => .error e
  | .ok () =>
    if input = [] then .ok none
    else if (s.pending.size + s.extraChunks pos input.length) * chunkBytes > dirtyLimit then
      .error .backpressure
    else
      match checkedAdd s.sequence 1 with
      | none => .error .corrupt
      | some sequence =>
        match (segments chunkBytes pos input.length 0).foldlM
            (s.stage P view sequence input) ∅ with
        | .error e => .error e
        | .ok staged => .ok (some (sequence, staged))

/-- `write`: a failure of the journal poisons the disk. -/
def write (P : Platform) (view : View) (s : State) (pos : ℕ) (input : Bytes) (w : Rewrite)
    (a : Append) : State × Result Unit :=
  match s.admission P view pos input with
  | .error e => (s, .error e)
  | .ok none => (s, .ok ())
  | .ok (some (sequence, staged)) =>
    match s.log P staged w a with
    | (s', .error e) => ({ s' with failed := true }, .error e)
    | (s', .ok ()) => ({ s' with sequence := sequence, pending := s'.pending ∪ staged }, .ok ())

/-- `sync_all` on the journal. -/
def sync (s : State) : State :=
  { s with
    file := ⟨s.file.bytes, s.file.bytes.length⟩
    localSequence := s.sequence }

/-- `flush`: a failed sync poisons the disk. -/
def flush (s : State) (synced : Bool) : State × Result Unit :=
  match s.check 0 0 with
  | .error e => (s, .error e)
  | .ok () => if synced then (s.sync, .ok ()) else ({ s with failed := true }, .error .store)

end Access

end State

section Replication

/-- What one round of replication uploads. -/
structure Snapshot where
  entries : BTreeMap ℕ Pending
  mark : Replication

/-- The first section of `replicate`: whether there is anything to do. -/
def State.begin (s : State) : Result Bool :=
  match s.check 0 0 with
  | .error e => .error e
  | .ok () => .ok (!s.pending.isEmpty)

/-- The second section: take over a publication whose reply was lost, sync the journal and
take a snapshot of what is still pending. -/
def State.reconcile (P : Platform) (s : State) (remote : IndexedVolume) (synced : Bool)
    (w : Rewrite) : State × Result (Option Snapshot) :=
  match remote.cleanCopy with
  | .error e => (s, .error e)
  | .ok copy =>
    match s.accept copy with
    | .error e => ({ s with failed := true }, .error e)
    | .ok s' =>
      if synced = false then ({ s' with failed := true }, .error .store)
      else if s'.pending.isEmpty then
        match s'.sync.compact P w with
        | (t, .error e) => (t, .error e)
        | (t, .ok ()) => (t, .ok none)
      else (s'.sync, .ok (some ⟨s'.pending, ⟨s'.header.id, s'.sequence⟩⟩))

/-- Write the chunks of a snapshot into the remote volume. -/
def uploadEntries (P : Platform) (φ : Faults) :
    List (ℕ × Pending) → Bucket → IndexedVolume → Bucket × IndexedVolume × Result Unit
  | [], B, remote => (B, remote, .ok ())
  | (index, p) :: rest, B, remote =>
    match remote.write P B φ (index * chunkBytes) p.bytes with
    | (B', remote', .error e) => (B', remote', .error e)
    | (B', remote', .ok ()) => uploadEntries P φ rest B' remote'

/-- The part of `replicate` without the lock: upload and publish. -/
def upload (P : Platform) (B : Bucket) (φ : Faults) (remote : IndexedVolume) (t : Snapshot) :
    Bucket × IndexedVolume × Result ℕ :=
  match uploadEntries P φ t.entries.toList B remote with
  | (B', remote', .error e) => (B', remote', .error e)
  | (B', remote', .ok ()) => remote'.commitReplication P B' φ t.mark

/-- The last section: take over the published disk map and rewrite the journal. -/
def State.settle (P : Platform) (s : State) (remote : IndexedVolume) (w : Rewrite) :
    State × Result Unit :=
  match s.accept remote with
  | .error e => (s, .error e)
  | .ok s' => s'.compact P w

/-- `compact_remote`: repack the remote volume and bind the journal to the new disk map. -/
def State.compactRemote (P : Platform) (B : Bucket) (φ : Faults) (s : State)
    (after : Option CompactionCursor) (budget : ℕ) (w : Rewrite) :
    Bucket × State × Result Compaction :=
  if s.failed then (B, s, .error .reopenRequired)
  else if s.pending.isEmpty = false then (B, s, .error .backpressure)
  else
    match IndexedVolume.open P (φ.view B) s.reader.store s.header.volume with
    | .error e => (B, s, .error e)
    | .ok remote =>
      if remote.revision ≠ s.reader.revision then (B, s, .error .conflict)
      else
        match remote.compactPacks P B φ after budget with
        | (B', _, .error e) =>
          if e = .conflict ∨ e = .uncertain ∨ e = .reopenRequired then
            (B', { s with failed := true }, .error e)
          else (B', s, .error e)
        | (B', remote', .ok c) =>
          if c.rewrittenBlocks = 0 then (B', s, .ok c)
          else
            match State.compact P { s with
                header := { s.header with base := remote'.revision }
                reader := remote' } w with
            | (s', .error e) => (B', s', .error e)
            | (s', .ok ()) => (B', s', .ok c)

end Replication

section Opening

/-- The directory as a running system sees it. -/
def State.directory (s : State) : Directory :=
  match s.renamed with
  | [] => ⟨some s.file, s.stale⟩
  | newest :: older => ⟨some newest, some s.file :: older.map some ++ s.stale⟩

/-- The end of `open`: bind the journal to the remote volume and rewrite it. -/
def mount (P : Platform) (remote : IndexedVolume) (h : Header) (file : File)
    (stale : List (Option File)) (pending : BTreeMap ℕ Pending) (sequence : ℕ) (w : Rewrite) :
    Directory × Result State :=
  match remote.cleanCopy with
  | .error e => (⟨some file, stale⟩, .error e)
  | .ok reader =>
    let s : State := ⟨h, file, [], stale, reader, pending, sequence, sequence, false⟩
    match s.accept remote with
    | .error e => (s.directory, .error e)
    | .ok s' =>
      match s'.compact P w with
      | (t, .error e) => (t.directory, .error e)
      | (t, .ok ()) => (t.directory, .ok t)

/-- The records up to this sequence number are in the remote volume. -/
def replayAck (remote : IndexedVolume) (h : Header) : ℕ :=
  match remote.root.replication.filter (fun r => r.id == h.id) with
  | none => h.acknowledged
  | some r => max r.sequence h.acknowledged

/-- `LocalDisk::open`. A new journal is created in place. -/
def openDisk (P : Platform) (view : View) (store : Client) (id : VolumeId) (random : Bytes)
    (c : Creation) (w : Rewrite) (dir : Directory) : Directory × Result State :=
  match IndexedVolume.open P view store id with
  | .error e => (dir, .error e)
  | .ok remote =>
    match dir.journal with
    | some file =>
      if file.bytes.length > logLimit then (dir, .error .corrupt)
      else
        match readHeader P id file.bytes with
        | .error e => (dir, .error e)
        | .ok (h, rest) =>
          match replay P h (remote.size / chunkBytes) (replayAck remote h) rest with
          | .error e => (dir, .error e)
          | .ok acc =>
            mount P remote h ⟨dropTorn file.bytes rest, file.synced⟩ dir.others acc.pending
              acc.sequence w
    | none =>
      let h : Header := ⟨id, P.digest random, remote.revision, 0, 0⟩
      match headerBytes P h with
      | .error e => (⟨some ⟨[], 0⟩, none :: dir.others⟩, .error e)
      | .ok bytes =>
        match c with
        | .torn k => (⟨some ⟨bytes.take k, 0⟩, none :: dir.others⟩, .error .store)
        | .unsynced => (⟨some ⟨bytes, 0⟩, none :: dir.others⟩, .error .store)
        | .done => mount P remote h ⟨bytes, bytes.length⟩ [] ∅ 0 w

/-- A crash leaves any of the possible files, cut after its synced prefix. -/
def Directory.Survivor (dir : Directory) (e : Option File) : Prop :=
  (none ∈ dir.journal :: dir.others ∧ e = none) ∨
    ∃ F k, some F ∈ dir.journal :: dir.others ∧ F.synced ≤ k ∧
      e = some ⟨F.bytes.take k, F.synced⟩

end Opening

end AgentHouse.Local
