import AgentHouse.Volume.Indexed

/-!
# Indexed volumes: writes, commits and publication

Writes are buffered in the dirty map. A commit plans a new disk map and the objects it needs,
uploads the objects and then replaces the head by compare-and-set, the only step that makes
anything visible. `Faults` fixes what the outside does to one call: which reads are answered,
whether the deadline passes, which upload fails and how the head request is delivered.
-/

namespace AgentHouse.Volume

/-- What becomes of one compare-and-set request. `replyLost`, `requestLost` and `delayed` look
alike to the client; a `canceled` request was never sent. -/
inductive Delivery where
  | delivered
  | replyLost
  | requestLost
  | delayed
  | canceled
  deriving DecidableEq, Repr

/-- Send a head replacement. -/
def transmit (P : Platform) (B : Bucket) (s : Space) (expected : Option Revision) (m : Manifest)
    (d : Delivery) : Bucket × Result Revision :=
  match d with
  | .canceled => (B, .error .deadline)
  | .requestLost => (B, .error .uncertain)
  | .delayed => (B.send ⟨s, expected, m⟩, .error .uncertain)
  | .replyLost =>
    match B.publish P s expected m with
    | .ok (B', _) => (B', .error .uncertain)
    | .error _ => (B, .error .uncertain)
  | .delivered =>
    match B.publish P s expected m with
    | .ok (B', rev) => (B', .ok rev)
    | .error e => (B, .error e)

/-- `encode` of an envelope refuses documents that its reader would refuse. -/
def encodeEnvelope (P : Platform) (e : Envelope) : Result Manifest :=
  if (P.json (.envelope e)).length > maxManifestBytes then .error .corrupt
  else .ok (.envelope e)

/-- `publish_cancellable` of the trait. The ownership layer wraps the disk map in an envelope
of its own identity and relies on the expected revision alone. -/
def Client.publish (P : Platform) (view : View) (B : Bucket) (c : Client) (id : VolumeId)
    (expected : Option Revision) (r : Root) (d : Delivery) : Bucket × Result Revision :=
  match c with
  | .raw bases => transmit P B ⟨bases, id⟩ expected (.root r) d
  | .owned i =>
    match expected with
    | none => (B, .error .invalidInput)
    | some rev =>
      if id ≠ i.volume then (B, .error .invalidInput)
      else
        match decodeEnvelope P view id ⟨rev, .root r⟩ with
        | .error e => (B, .error e)
        | .ok e =>
          match encodeEnvelope P { e with epoch := i.epoch, owner := some i.token } with
          | .error err => (B, .error err)
          | .ok m => transmit P B ⟨false, id⟩ expected m d

/-- The behaviour of the outside world during one call. -/
structure Faults where
  view : Bucket → View
  expired : Bool
  upload : Option Error
  kept : Hash → Bool
  delivery : Delivery

/-- A call during which nothing fails. -/
def Faults.none : Faults := ⟨Bucket.view, false, .none, fun _ => true, .delivered⟩

/-- The objects that an interrupted upload stored all the same. -/
def keepObjects (B : Bucket) (s : Space) (kept : Hash → Bool) (objects : List (Hash × Bytes)) :
    Bucket :=
  objects.foldl (fun B o =>
    if kept o.1 then
      match B.putChunk s o.1 o.2 with
      | .ok B' => B'
      | .error _ => B
    else B) B

/-- `upload_objects`: all objects, or an error after some of them. -/
def uploadObjects (B : Bucket) (φ : Faults) (s : Space) (objects : List (Hash × Bytes)) :
    Bucket × Result Unit :=
  match φ.upload with
  | some e => (keepObjects B s φ.kept objects, .error e)
  | .none =>
    match objects.foldlM (fun B o => B.putChunk s o.1 o.2) B with
    | .ok B' => (B', .ok ())
    | .error e => (keepObjects B s φ.kept objects, .error e)

namespace IndexedVolume

section Unpacked

/-- The page under construction, fetched at the first dirty chunk in it. -/
def workingPage (P : Platform) (view : View) (v : IndexedVolume) (pages : BTreeMap ℕ Bytes)
    (index : ℕ) : Result Bytes :=
  match pages[index]? with
  | some page => .ok page
  | none => v.page P view index

/-- One dirty chunk of the unpacked commit: its slot in the page under construction, and
whether its contents have to be uploaded. -/
def stageUnpacked (P : Platform) (view : View) (v : IndexedVolume)
    (acc : BTreeMap ℕ Bytes × BTreeMap Hash Bytes) (chunk : ℕ × Bytes) :
    Result (BTreeMap ℕ Bytes × BTreeMap Hash Bytes) :=
  let pageIndex := chunk.1 / slots
  let start := 16 + chunk.1 % slots * 32
  let hash := P.digest chunk.2
  match v.workingPage P view acc.1 pageIndex with
  | .error e => .error e
  | .ok page =>
    if isZero chunk.2 then .ok (acc.1.insert pageIndex (splice page start (zeros 32)), acc.2)
    else if slice page start 32 = hash then .ok (acc.1.insert pageIndex page, acc.2)
    else
      match v.basePage? P view pageIndex with
      | .error e => .error e
      | .ok basePage =>
        .ok (acc.1.insert pageIndex (splice page start hash),
          if basePage.any (fun p => decide (slot p chunk.1 = some hash)) then acc.2
          else acc.2.insertIfNew hash chunk.2)

/-- One rewritten page of the unpacked commit: its entry in the disk map and its upload. -/
def placeUnpacked (P : Platform) (v : IndexedVolume)
    (acc : BTreeMap ℕ Hash × BTreeMap Hash Bytes) (page : ℕ × Bytes) :
    BTreeMap ℕ Hash × BTreeMap Hash Bytes :=
  let (pages, uploads) := acc
  let (index, bytes) := page
  if isZero (bytes.drop 16) then (pages.erase index, uploads)
  else if v.root.pages[index]? = some (P.digest bytes) then (pages, uploads)
  else
    (pages.insert index (P.digest bytes),
      if v.base.any (fun b => decide (b.pages[index]? = some (P.digest bytes))) then uploads
      else uploads.insert (P.digest bytes) bytes)

/-- The rewritten pages and the new chunks of an unpacked commit. -/
def rewriteUnpacked (P : Platform) (view : View) (v : IndexedVolume) :
    Result (BTreeMap ℕ Bytes × BTreeMap Hash Bytes) :=
  v.dirty.toList.foldlM (v.stageUnpacked P view) (∅, ∅)

/-- The pages and uploads of a commit in the old format. -/
def planUnpacked (P : Platform) (view : View) (v : IndexedVolume) :
    Result (BTreeMap ℕ Hash × List (Hash × Bytes)) :=
  match v.rewriteUnpacked P view with
  | .error e => .error e
  | .ok (pages, uploads) =>
    let placed := pages.toList.foldl (v.placeUnpacked P) (v.root.pages, uploads)
    .ok (placed.1, placed.2.toList)

end Unpacked

section Packed

/-- The state of the first loop of `commit_packed`. -/
structure Staged where
  pages : BTreeMap ℕ Bytes
  basePages : BTreeMap ℕ Bytes
  chunks : BTreeMap Hash Bytes
  changed : List (ℕ × Hash)

/-- Nothing is staged. -/
def Staged.empty : Staged := ⟨∅, ∅, ∅, []⟩

/-- The base page beside a page under construction. -/
def workingBase (P : Platform) (view : View) (v : IndexedVolume) (basePages : BTreeMap ℕ Bytes)
    (index : ℕ) : Result Bytes :=
  match basePages[index]? with
  | some page => .ok page
  | none => v.basePage P view index

/-- One dirty chunk of the packed commit. A chunk that the base has at the same slot is
addressed directly; any other new chunk is noted for packing. -/
def stagePacked (P : Platform) (view : View) (v : IndexedVolume) (force : Bool) (acc : Staged)
    (chunk : ℕ × Bytes) : Result Staged :=
  let pageIndex := chunk.1 / slots
  let hash := P.digest chunk.2
  match v.workingPage P view acc.pages pageIndex, v.workingBase P view acc.basePages pageIndex with
  | .error e, _ => .error e
  | .ok _, .error e => .error e
  | .ok page, .ok basePage =>
    let start := slotAt page chunk.1
    let blank := splice page start (zeros packSlotBytes)
    let basePages := acc.basePages.insert pageIndex basePage
    if isZero chunk.2 then
      .ok { acc with pages := acc.pages.insert pageIndex blank, basePages := basePages }
    else if !force && decide (slot page chunk.1 = some hash) then
      .ok { acc with pages := acc.pages.insert pageIndex page, basePages := basePages }
    else if slot basePage chunk.1 = some hash then
      .ok { acc with
        pages := acc.pages.insert pageIndex (splice blank start hash), basePages := basePages }
    else
      .ok ⟨acc.pages.insert pageIndex (splice blank start hash), basePages,
        acc.chunks.insertIfNew hash chunk.2, acc.changed ++ [(chunk.1, hash)]⟩

/-- The bytes of one pack. -/
def packBytes (group : List (Hash × Bytes)) : Bytes := group.flatMap Prod.snd

/-- The packs of the new chunks, at most sixteen chunks each. -/
def packs (P : Platform) (chunks : BTreeMap Hash Bytes) : List (Hash × Bytes) :=
  (groupsOf (maxObjectBytes / chunkBytes) chunks.toList).map (fun group =>
    (P.digest (packBytes group), packBytes group))

/-- Where each new chunk lies. -/
def locations (P : Platform) (chunks : BTreeMap Hash Bytes) : BTreeMap Hash (Hash × ℕ) :=
  (groupsOf (maxObjectBytes / chunkBytes) chunks.toList).foldl (fun locations group =>
    group.zipIdx.foldl (fun locations entry =>
      locations.insert entry.1.1 (P.digest (packBytes group), entry.2 * chunkBytes)) locations) ∅

/-- Write the location of one new chunk into its slot. -/
def locate (locations : BTreeMap Hash (Hash × ℕ)) (pages : BTreeMap ℕ Bytes)
    (change : ℕ × Hash) : Result (BTreeMap ℕ Bytes) :=
  let (index, hash) := change
  match pages[index / slots]?, locations[hash]? with
  | some page, some (pack, offset) =>
    let start := slotAt page index
    .ok (pages.insert (index / slots)
      (splice (splice page (start + 32) pack) (start + 64) (beBytes 4 offset)))
  | _, _ => .error .corrupt

/-- One rewritten page of the packed commit. A page that equals the base's page again is
inherited again. -/
def placePacked (P : Platform) (v : IndexedVolume) (basePages : BTreeMap ℕ Bytes)
    (acc : BTreeMap ℕ Hash × List (Hash × Bytes)) (page : ℕ × Bytes) :
    BTreeMap ℕ Hash × List (Hash × Bytes) :=
  let (pages, uploads) := acc
  let (index, bytes) := page
  if isZero (bytes.drop 16) then (pages.erase index, uploads)
  else
    match v.base.bind (fun b => b.pages[index]?) with
    | some inherited =>
      if basePages[index]? = some bytes then (pages.insert index inherited, uploads)
      else if v.root.pages[index]? = some (P.digest bytes) then (pages, uploads)
      else (pages.insert index (P.digest bytes), uploads ++ [(P.digest bytes, bytes)])
    | none =>
      if v.root.pages[index]? = some (P.digest bytes) then (pages, uploads)
      else (pages.insert index (P.digest bytes), uploads ++ [(P.digest bytes, bytes)])

/-- The rewritten pages and the new chunks of a packed commit. -/
def rewritePacked (P : Platform) (view : View) (v : IndexedVolume) (force : Bool) :
    Result (Staged × BTreeMap ℕ Bytes) :=
  match v.dirty.toList.foldlM (v.stagePacked P view force) Staged.empty with
  | .error e => .error e
  | .ok staged =>
    match staged.changed.foldlM (locate (locations P staged.chunks)) staged.pages with
    | .error e => .error e
    | .ok pages => .ok (staged, pages)

/-- The pages and uploads of a commit with packs. -/
def planPacked (P : Platform) (view : View) (v : IndexedVolume) (force : Bool) :
    Result (BTreeMap ℕ Hash × List (Hash × Bytes)) :=
  match v.rewritePacked P view force with
  | .error e => .error e
  | .ok (staged, pages) =>
    .ok (pages.toList.foldl (v.placePacked P staged.basePages)
      (v.root.pages, packs P staged.chunks))

end Packed

/-- The disk map and the objects of the next commit. -/
def plan (P : Platform) (view : View) (v : IndexedVolume) (force : Bool) :
    Result (BTreeMap ℕ Hash × List (Hash × Bytes)) :=
  if v.packed then v.planPacked P view force else v.planUnpacked P view

/-- `publish_cancellable`: an ambiguous or refused publication poisons the handle. -/
def publish (P : Platform) (B : Bucket) (φ : Faults) (v : IndexedVolume) (next : Root) :
    Bucket × IndexedVolume × Result ℕ :=
  if (P.json (.root next)).length > maxManifestBytes then (B, v, .error .corrupt)
  else
    match v.store.publish P (φ.view B) B next.volume (some v.revision) next φ.delivery with
    | (B', .ok rev) =>
      if rev = "" then (B', { v with poisoned := true }, .error .uncertain)
      else (B', { v with root := next, revision := rev, dirty := ∅ }, .ok next.generation)
    | (B', .error .deadline) => (B', v, .error .deadline)
    | (B', .error e) => (B', { v with poisoned := true }, .error (publicationError e))

/-- The part of a commit that follows its plan. -/
def finish (P : Platform) (B : Bucket) (φ : Faults) (v : IndexedVolume) (next : Root)
    (uploads : List (Hash × Bytes)) : Bucket × IndexedVolume × Result ℕ :=
  if next.pages = v.root.pages ∧ next.replication = v.root.replication then
    (B, { v with dirty := ∅ }, .ok v.root.generation)
  else
    match uploadObjects B φ v.space uploads with
    | (B', .error e) => (B', v, .error e)
    | (B', .ok ()) => v.publish P B' φ next

/-- The format that carries a replication mark. -/
def markedFormat (packed hasBase : Bool) : ℕ :=
  if packed then (if hasBase then 11 else 9) else (if hasBase then 7 else 3)

/-- The disk map that a commit starts from. -/
def nextRoot (v : IndexedVolume) (mark : Option Replication) : Root :=
  match mark with
  | none => v.root
  | some m => { v.root with
      format := markedFormat v.packed v.root.base.isSome
      replication := some m }

/-- Plan, upload and publish from the given disk map. -/
def commitFrom (P : Platform) (B : Bucket) (φ : Faults) (v : IndexedVolume) (next : Root)
    (force : Bool) : Bucket × IndexedVolume × Result ℕ :=
  match checkedAdd next.generation 1 with
  | none => (B, v, .error .corrupt)
  | some generation =>
    match v.plan P (φ.view B) force with
    | .error e => (B, v, .error e)
    | .ok (pages, uploads) =>
      v.finish P B φ { next with generation := generation, pages := pages } uploads

/-- `commit_inner` -/
def commitInner (P : Platform) (B : Bucket) (φ : Faults) (v : IndexedVolume)
    (mark : Option Replication) : Bucket × IndexedVolume × Result ℕ :=
  match v.check 0 0 with
  | .error e => (B, v, .error e)
  | .ok () =>
    if v.dirty.isEmpty ∧ mark = none then (B, v, .ok v.root.generation)
    else if φ.expired then (B, v, .error .deadline)
    else v.commitFrom P B φ (v.nextRoot mark) false

/-- `commit` -/
def commit (P : Platform) (B : Bucket) (φ : Faults) (v : IndexedVolume) :
    Bucket × IndexedVolume × Result ℕ :=
  if v.root.replication.isSome then (B, v, .error .invalidInput)
  else v.commitInner P B φ none

/-- `commit_replication` -/
def commitReplication (P : Platform) (B : Bucket) (φ : Faults) (v : IndexedVolume)
    (mark : Replication) : Bucket × IndexedVolume × Result ℕ :=
  if validHash mark.id = false ∨ mark.sequence = 0 then (B, v, .error .invalidInput)
  else v.commitInner P B φ (some mark)

/-- `commit_import` -/
def commitImport (P : Platform) (B : Bucket) (φ : Faults) (v : IndexedVolume) :
    Bucket × IndexedVolume × Result ℕ :=
  if v.root.ready ∨ v.root.replication.isSome then (B, v, .error .invalidInput)
  else v.commitInner P B φ none

/-- `finish_import`: commit, then publish the disk map as ready. -/
def finishImport (P : Platform) (B : Bucket) (φ φ' : Faults) (v : IndexedVolume) :
    Bucket × IndexedVolume × Result ℕ :=
  match v.commit P B φ with
  | (B', v', .error e) => (B', v', .error e)
  | (B', v', .ok _) =>
    match v'.check 0 0 with
    | .error e => (B', v', .error e)
    | .ok () =>
      match checkedAdd v'.root.generation 1 with
      | none => (B', v', .error .corrupt)
      | some generation =>
        if φ'.expired then (B', v', .error .deadline)
        else v'.publish P B' φ' { v'.root with ready := true, generation := generation }

/-- A chunk that a write touches, with the written part filled in. A chunk that is written
as a whole is not loaded. -/
def writtenChunk (P : Platform) (view : View) (v : IndexedVolume) (input : Bytes) (s : Segment) :
    Result Bytes :=
  let old : Result Bytes :=
    if s.within = 0 ∧ s.count = chunkBytes then .ok (zeros chunkBytes)
    else v.load P view s.index
  match old with
  | .error e => .error e
  | .ok bytes => .ok (splice bytes s.within (slice input s.done s.count))

/-- One round of the loop of `write`. -/
def stageWrite (P : Platform) (view : View) (v : IndexedVolume) (input : Bytes)
    (pending : BTreeMap ℕ Bytes) (s : Segment) : Result (BTreeMap ℕ Bytes) :=
  match v.writtenChunk P view input s with
  | .error e => .error e
  | .ok bytes => .ok (pending.insert s.index bytes)

/-- The part of a write that follows its admission. -/
def buffer (P : Platform) (view : View) (v : IndexedVolume) (offset : ℕ) (input : Bytes) :
    IndexedVolume × Result Unit :=
  match (segments chunkBytes offset input.length 0).foldlM (v.stageWrite P view input) ∅ with
  | .error e => (v, .error e)
  | .ok pending => ({ v with dirty := v.dirty ∪ pending }, .ok ())

/-- The number of chunks that a write would add to the dirty map. -/
def extraChunks (v : IndexedVolume) (offset len : ℕ) : ℕ :=
  let first := offset / chunkBytes
  let last := (offset + len - 1) / chunkBytes
  ((List.range' first (last + 1 - first)).filter (fun i => !v.dirty.contains i)).length

/-- `write`: a full buffer is committed first. -/
def write (P : Platform) (B : Bucket) (φ : Faults) (v : IndexedVolume) (offset : ℕ)
    (input : Bytes) : Bucket × IndexedVolume × Result Unit :=
  match v.check offset input.length with
  | .error e => (B, v, .error e)
  | .ok () =>
    if input.length > writeLimit then (B, v, .error .invalidInput)
    else if input = [] then (B, v, .ok ())
    else if v.dirtyBytes + v.extraChunks offset input.length * chunkBytes > dirtyLimit then
      match v.commit P B φ with
      | (B', v', .error e) => (B', v', .error e)
      | (B', v', .ok _) => (B', v'.buffer P (φ.view B') offset input)
    else (B, v.buffer P (φ.view B) offset input)

/-- A clean handle on the same disk map. -/
def cleanCopy (v : IndexedVolume) : Result IndexedVolume :=
  match v.check 0 0 with
  | .error e => .error e
  | .ok () =>
    if v.dirty.isEmpty then .ok { v with dirty := ∅, poisoned := false }
    else .error .invalidInput

/-- The first head of a volume: created only if there is none. -/
def createRoot (P : Platform) (B : Bucket) (store : Client) (base : Option Catalog) (root : Root)
    (d : Delivery) : Bucket × Result IndexedVolume :=
  match transmit P B (store.space root.volume) none (.root root) d with
  | (B', .error e) => (B', .error (publicationError e))
  | (B', .ok rev) =>
    if rev = "" then (B', .error .uncertain)
    else (B', .ok ⟨store, root, base, rev, ∅, false⟩)

/-- `create_inner` -/
def createInner (P : Platform) (B : Bucket) (bases : Bool) (id : VolumeId) (size : ℕ)
    (ready : Bool) (d : Delivery) : Bucket × Result IndexedVolume :=
  if validId id = false ∨ size = 0 ∨ size > maxSize ∨ size % chunkBytes ≠ 0 then
    (B, .error .invalidInput)
  else createRoot P B (.raw bases) none
    ⟨if ready then 8 else 2, id, size, 0, ready, ∅, none, none⟩ d

/-- `create` -/
def create (P : Platform) (B : Bucket) (bases : Bool) (id : VolumeId) (size : ℕ) (d : Delivery) :
    Bucket × Result IndexedVolume := createInner P B bases id size true d

/-- `create_import` -/
def createImport (P : Platform) (B : Bucket) (bases : Bool) (id : VolumeId) (size : ℕ)
    (d : Delivery) : Bucket × Result IndexedVolume := createInner P B bases id size false d

/-- `create_from_base` -/
def createFromBase (P : Platform) (B : Bucket) (view : View) (id : VolumeId) (reference : BaseRef)
    (d : Delivery) : Bucket × Result IndexedVolume :=
  if validId id = false then (B, .error .invalidInput)
  else
    match Catalog.load P view reference with
    | .error e => (B, .error e)
    | .ok base =>
      let root : Root := ⟨10, id, base.size, 0, true, base.pages, none, some reference⟩
      if (P.json (.root root)).length > maxManifestBytes then (B, .error .corrupt)
      else createRoot P B (.raw false) (some base) root d

/-- `export_base`: pin the catalog of a finished, unpacked image. -/
def exportBase (P : Platform) (B : Bucket) (v : IndexedVolume) : Bucket × Result BaseRef :=
  if v.root.ready = false ∨ (v.packed ∧ ¬ v.root.pages.isEmpty) ∨ v.root.base.isSome ∨
      v.root.replication.isSome ∨ ¬ v.dirty.isEmpty ∨ v.poisoned then (B, .error .invalidInput)
  else
    match (Catalog.mk v.root.size v.root.pages).encode v.root.volume with
    | .error e => (B, .error e)
    | .ok bytes =>
      match B.putChunk v.space (P.digest bytes) bytes with
      | .error e => (B, .error e)
      | .ok B' => (B', .ok ⟨v.root.volume, P.digest bytes⟩)

end IndexedVolume

end AgentHouse.Volume
