import AgentHouse.Volume.Store

/-!
# Indexed volumes: handles, pages and loads

The handle of `indexed.rs` and everything it does without publishing: how a head is decoded,
how an index page is fetched and checked, and how a chunk is found through the dirty map, a
private or inherited page, a pack and the base. What a load asks its cache to read ahead has no
part in its result and is left out.
-/

namespace AgentHouse.Volume

/-- The `ObjectStore` a handle goes through: the bucket itself, under the prefix of volumes
or of images, or the ownership layer of one identity. -/
inductive Client where
  | raw (bases : Bool)
  | owned (identity : Identity)
  deriving DecidableEq

/-- The space of a volume, as a client sees it. -/
def Client.space : Client → VolumeId → Space
  | .raw bases, id => ⟨bases, id⟩
  | .owned _, id => ⟨false, id⟩

/-- `IndexedVolume`: a handle. -/
structure IndexedVolume where
  store : Client
  root : Root
  base : Option Catalog
  revision : Revision
  dirty : BTreeMap ℕ Bytes
  poisoned : Bool
  deriving DecidableEq

/-- The number of index pages of a disk: `(size / CHUNK_BYTES).div_ceil(SLOTS)`. -/
def pageCount (size : ℕ) : ℕ := (size / chunkBytes + (slots - 1)) / slots

/-- The checks that `decode_head` makes on the disk map itself. -/
def Root.wellFormed (r : Root) (id : VolumeId) : Bool :=
  [2, 3, 6, 7, 8, 9, 10, 11].contains r.format &&
    ([3, 7, 9, 11].contains r.format == r.replication.isSome) &&
    ([6, 7, 10, 11].contains r.format == r.base.isSome) &&
    r.replication.all (fun m => validHash m.id && m.sequence != 0) &&
    r.volume == id && r.size != 0 && decide (r.size ≤ maxSize) && r.size % chunkBytes == 0 &&
    r.pages.toList.all (fun (p, h) => decide (p < pageCount r.size) && validHash h)

/-- The pages may hold packs. -/
def Root.packed (r : Root) : Bool := [8, 9, 10, 11].contains r.format

/-- The catalog of the base that a disk map pins, if any. -/
def loadBase (P : Platform) (view : View) (r : Root) : Result (Option Catalog) :=
  match r.base with
  | none => .ok none
  | some b =>
    match Catalog.load P view b with
    | .error e => .error e
    | .ok c => if c.size ≠ r.size then .error .corrupt else .ok (some c)

/-- `decode_head`, once the bytes are known to be a disk map. -/
def decodeRoot (P : Platform) (view : View) (store : Client) (id : VolumeId)
    (revision : Revision) (r : Root) (ready : Bool) : Result IndexedVolume :=
  if (P.json (.root r)).length > maxManifestBytes ∨ revision = "" then .error .corrupt
  else if r.wellFormed id = false then .error .corrupt
  else if ready && !r.ready then .error .notReady
  else
    match loadBase P view r with
    | .error e => .error e
    | .ok base => .ok ⟨store, r, base, revision, ∅, false⟩

/-- `decode_head` -/
def decodeHead (P : Platform) (view : View) (store : Client) (id : VolumeId) (h : Head)
    (ready : Bool) : Result IndexedVolume :=
  match h.manifest with
  | .root r => decodeRoot P view store id h.revision r ready
  | _ => .error .corrupt

/-- `owned::decode`: unwrap an ownership envelope, or treat a bare disk map as epoch zero. -/
def decodeEnvelope (P : Platform) (view : View) (id : VolumeId) (h : Head) : Result Envelope :=
  if (P.json h.manifest).length > maxManifestBytes ∨ h.revision = "" then .error .corrupt
  else
    match h.manifest with
    | .tombstone _ => .error .corrupt
    | .envelope e =>
      if e.volume ≠ id ∨ e.epoch = 0 ∨ e.owner.any (fun t => !validHash t) then .error .corrupt
      else
        match decodeRoot P view (.raw false) id h.revision e.manifest true with
        | .error err => .error err
        | .ok _ => .ok e
    | .root r =>
      match decodeRoot P view (.raw false) id h.revision r true with
      | .error err => .error err
      | .ok _ => .ok ⟨id, 0, none, r⟩

/-- `matches`: the envelope names this owner. -/
def Identity.matches (i : Identity) (e : Envelope) : Bool :=
  e.epoch == i.epoch && e.owner == some i.token

/-- `head` of the trait, at the bucket or through the ownership layer. -/
def Client.head (P : Platform) (view : View) (c : Client) (id : VolumeId) :
    Result (Option Head) :=
  match c with
  | .raw bases => view.head ⟨bases, id⟩
  | .owned i =>
    if id ≠ i.volume then .error .invalidInput
    else
      match view.head ⟨false, id⟩ with
      | .error e => .error e
      | .ok none => .error .notFound
      | .ok (some h) =>
        match decodeEnvelope P view id h with
        | .error e => .error e
        | .ok e =>
          if i.matches e = false then .error .conflict
          else .ok (some ⟨h.revision, .root e.manifest⟩)

namespace IndexedVolume

/-- `open` -/
def «open» (P : Platform) (view : View) (store : Client) (id : VolumeId) :
    Result IndexedVolume :=
  if validId id = false then .error .invalidInput
  else
    match store.head P view id with
    | .error e => .error e
    | .ok none => .error .notFound
    | .ok (some h) => decodeHead P view store id h true

/-- The size of the volume. -/
def size (v : IndexedVolume) : ℕ := v.root.size

/-- What is buffered. -/
def dirtyBytes (v : IndexedVolume) : ℕ := v.dirty.size * chunkBytes

/-- The handle writes packs. -/
def packed (v : IndexedVolume) : Bool := v.root.packed

/-- The namespace of the volume's own objects. -/
def space (v : IndexedVolume) : Space := v.store.space v.root.volume

/-- `check`: the handle is in order and the range inside the volume. -/
def check (v : IndexedVolume) (pos len : ℕ) : Result Unit :=
  if v.poisoned then .error .reopenRequired
  else if pos + len > v.root.size then .error .invalidInput
  else .ok ()

/-- One slot of a packed page: padding is zero, a hole has no location, a direct chunk has
offset zero, and a pack offset is a multiple of the chunk size below the pack limit. -/
def packedSlotOk (bytes : Bytes) (i : ℕ) : Bool :=
  let start := slotAt bytes i
  let empty := isZero (slice bytes start 32)
  let direct := isZero (slice bytes (start + 32) 32)
  let offset := ofBe (slice bytes (start + 64) 4)
  isZero (slice bytes (start + 68) 4) &&
    !(empty && !isZero (slice bytes (start + 32) 36)) &&
    !(direct && offset != 0) &&
    (direct || (offset % chunkBytes == 0 && decide (offset < maxObjectBytes)))

/-- Slots that name the same place of the same pack name the same chunk. The source keeps a
map of the places seen so far; the answer is that of comparing all pairs. -/
def locationsOk (bytes : Bytes) : Bool :=
  let located := fun i => !isZero (slice bytes (slotAt bytes i) 32) &&
    !isZero (slice bytes (slotAt bytes i + 32) 32)
  (List.range slots).all (fun i => (List.range slots).all (fun j =>
    !(located i && located j && slice bytes (slotAt bytes i + 32) 32 ==
        slice bytes (slotAt bytes j + 32) 32 &&
      ofBe (slice bytes (slotAt bytes i + 64) 4) == ofBe (slice bytes (slotAt bytes j + 64) 4)) ||
    slice bytes (slotAt bytes i) 32 == slice bytes (slotAt bytes j) 32))

/-- `page_bytes`, `width` and `magic` of `page_from`. -/
def pageBytes (packed : Bool) : ℕ := if packed then packPageBytes else chunkBytes

/-- The length of a slot. -/
def pageWidth (packed : Bool) : ℕ := if packed then packSlotBytes else 32

/-- The magic number of a page. -/
def pageMagic (packed : Bool) : Bytes := if packed then packMagic else magic

/-- The number of slots of a page that lie within the disk. -/
def validSlots (size index : ℕ) : ℕ := min (size / chunkBytes - index * slots) slots

/-- The checks that `page_from` makes on the layout of a fetched page. -/
def pageShape (size index : ℕ) (packed : Bool) (bytes : Bytes) : Bool :=
  let width := pageWidth packed
  let valid := validSlots size index
  decide (bytes.length = pageBytes packed) && bytes.take 8 == pageMagic packed &&
    ofBe (slice bytes 8 8) == index &&
    isZero (bytes.drop (16 + slots * width)) &&
    isZero (slice bytes (16 + valid * width) (slots * width - valid * width)) &&
    (!packed || ((List.range slots).all (packedSlotOk bytes) && locationsOk bytes))

/-- The page of a range without any data. -/
def emptyPage (packed : Bool) (index : ℕ) : Bytes :=
  pageMagic packed ++ beBytes 8 index ++ zeros (pageBytes packed - 16)

/-- `page_from` -/
def pageFrom (P : Platform) (view : View) (v : IndexedVolume) (index : ℕ) (hash : Option Hash)
    (base : Bool) : Result Bytes :=
  let packed := v.packed && !base
  let fetched : Result Bytes :=
    match hash with
    | none => .ok (emptyPage packed index)
    | some hash =>
      let answer : Result Bytes :=
        if base then
          match v.root.base with
          | none => .error .corrupt
          | some b => view.baseChunk b.image hash none
        else view.chunk v.space hash
      match answer with
      | .error e => .error e
      | .ok bytes =>
        if P.digest bytes = hash ∧ pageShape v.root.size index packed bytes then .ok bytes
        else .error .corrupt
  match fetched with
  | .error e => .error e
  | .ok bytes => .ok (if v.packed && base then packedPage bytes else bytes)

/-- `base_page` -/
def basePage (P : Platform) (view : View) (v : IndexedVolume) (index : ℕ) : Result Bytes :=
  v.pageFrom P view index (v.base.bind (fun b => b.pages[index]?)) true

/-- A page is inherited when its hash is the base's hash for the same page. -/
def inheritsPage (v : IndexedVolume) (index : ℕ) : Bool :=
  (v.root.pages[index]?).isSome &&
    v.base.any (fun b => decide (b.pages[index]? = v.root.pages[index]?))

/-- `page` -/
def page (P : Platform) (view : View) (v : IndexedVolume) (index : ℕ) : Result Bytes :=
  v.pageFrom P view index (v.root.pages[index]?) (v.inheritsPage index)

/-- Whether a slot of a page is that of the base page. -/
def inheritsSlot (basePage : Option Bytes) (page : Bytes) (index : ℕ) (hash : Hash) : Bool :=
  basePage.any (fun p => decide (slot p index = some hash) &&
    decide (objectSlot p index = objectSlot page index))

/-- The base page, fetched only by a volume that has a base. -/
def basePage? (P : Platform) (view : View) (v : IndexedVolume) (index : ℕ) :
    Result (Option Bytes) :=
  match v.base with
  | none => .ok none
  | some _ =>
    match v.basePage P view index with
    | .error e => .error e
    | .ok p => .ok (some p)

/-- Cut a chunk out of the object that holds it. An object that is not the chunk itself is
a pack and is checked against its own hash first. -/
def extract (P : Platform) (object hash : Hash) (offset : ℕ) (inherited : Bool) (bytes : Bytes) :
    Result Bytes :=
  if !inherited && decide (object ≠ hash) then
    if bytes.length > maxObjectBytes ∨ bytes.length % chunkBytes ≠ 0 ∨ P.digest bytes ≠ object ∨
        offset + chunkBytes > bytes.length then .error .corrupt
    else .ok (slice bytes offset chunkBytes)
  else .ok bytes

/-- `load` once the page is at hand. -/
def loadFrom (P : Platform) (view : View) (v : IndexedVolume) (page : Bytes) (index : ℕ) :
    Result Bytes :=
  match slot page index with
  | none => .ok (zeros chunkBytes)
  | some hash =>
    match v.basePage? P view (index / slots) with
    | .error e => .error e
    | .ok basePage =>
      match objectSlot page index with
      | none => .error .corrupt
      | some (object, offset) =>
        let inherited := inheritsSlot basePage page index hash
        let answer : Result Bytes :=
          if inherited then
            match v.root.base with
            | none => .error .corrupt
            | some b => view.baseChunk b.image hash (some (index * chunkBytes))
          else view.fetch v.space object
        match answer with
        | .error e => .error e
        | .ok bytes =>
          match extract P object hash offset inherited bytes with
          | .error e => .error e
          | .ok chunk =>
            if chunk.length ≠ chunkBytes ∨ P.digest chunk ≠ hash then .error .corrupt
            else .ok chunk

/-- `load`: a chunk from the buffer, its page or the base. -/
def load (P : Platform) (view : View) (v : IndexedVolume) (index : ℕ) : Result Bytes :=
  match v.dirty[index]? with
  | some b => .ok b
  | none =>
    match v.page P view (index / slots) with
    | .error e => .error e
    | .ok page => v.loadFrom P view page index

/-- The bytes that the loop of `read` collects. -/
def gather (P : Platform) (view : View) (v : IndexedVolume) : List Segment → Result Bytes
  | [] => .ok []
  | s :: rest =>
    match v.load P view s.index with
    | .error e => .error e
    | .ok bytes =>
      match v.gather P view rest with
      | .error e => .error e
      | .ok tail => .ok (slice bytes s.within s.count ++ tail)

/-- `read` -/
def read (P : Platform) (view : View) (v : IndexedVolume) (offset len : ℕ) : Result Bytes :=
  match v.check offset len with
  | .error e => .error e
  | .ok () =>
    if len > writeLimit then .error .invalidInput
    else v.gather P view (segments chunkBytes offset len 0)

end IndexedVolume

end AgentHouse.Volume
