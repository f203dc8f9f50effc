import AgentHouse.Volume.Page

/-!
# The object store and base catalogs

The bucket behind the `ObjectStore` trait: for every volume an ordered namespace of immutable
objects and one head that is replaced by compare-and-set. Images live beside the volumes
under a prefix of their own. A `View` is what the store answers to the reads of one call;
a sound view may fail but never lies, a healthy one also never fails.
-/

namespace AgentHouse.Volume

/-- A key prefix of the bucket: a volume, or an image under the `bases` prefix. -/
structure Space where
  bases : Bool
  id : VolumeId
  deriving DecidableEq

/-- A head replacement on its way to the store. -/
structure Request where
  space : Space
  expected : Option Revision
  manifest : Manifest
  deriving DecidableEq

/-- The objects and heads of the store, and the requests on their way. -/
structure Bucket where
  objects : Space → BTreeMap Hash Bytes
  heads : Space → Option Head
  /-- The number of publications that took effect. -/
  published : ℕ
  /-- The requests whose clients have given up waiting. The store may still get them. -/
  flights : List Request

/-- Store an object under its hash. -/
def Bucket.insert (B : Bucket) (s : Space) (h : Hash) (b : Bytes) : Bucket :=
  { B with objects := Function.update B.objects s ((B.objects s).insert h b) }

/-- `put_chunk`: an existing object must have identical bytes. -/
def Bucket.putChunk (B : Bucket) (s : Space) (h : Hash) (b : Bytes) : Result Bucket :=
  match (B.objects s)[h]? with
  | some b' => if b' = b then .ok B else .error .corrupt
  | none => .ok (B.insert s h b)

/-- `publish`: replace the head if its revision is the expected one. -/
def Bucket.publish (P : Platform) (B : Bucket) (s : Space) (expected : Option Revision)
    (m : Manifest) : Result (Bucket × Revision) :=
  if (B.heads s).map Head.revision = expected then
    .ok ({ B with
      heads := Function.update B.heads s (some ⟨P.tag B.published m, m⟩)
      published := B.published + 1 }, P.tag B.published m)
  else .error .conflict

/-- Leave a request on its way. -/
def Bucket.send (B : Bucket) (q : Request) : Bucket := { B with flights := q :: B.flights }

/-- A late request reaches the store. It is kept among those on their way: it may arrive once
more. -/
def Bucket.land (P : Platform) (B : Bucket) (q : Request) : Bucket :=
  match B.publish P q.space q.expected q.manifest with
  | .ok (B', _) => B'
  | .error _ => B

/-- The answers of a store to the reads that one call issues. -/
structure View where
  head : Space → Result (Option Head)
  chunk : Space → Hash → Result Bytes
  cachedChunk : Space → Hash → Option Bytes
  baseChunk : VolumeId → Hash → Option ℕ → Result Bytes

/-- An object from the cache if that has it, else from the store. -/
def View.fetch (view : View) (s : Space) (object : Hash) : Result Bytes :=
  match view.cachedChunk s object with
  | some b => .ok b
  | none => view.chunk s object

/-- The answers of a store that is reachable and has no cache. -/
def Bucket.view (B : Bucket) : View where
  head s := .ok (B.heads s)
  chunk s h := match (B.objects s)[h]? with
    | some b => .ok b
    | none => .error .corrupt
  cachedChunk _ _ := none
  baseChunk image h _ := match (B.objects ⟨true, image⟩)[h]? with
    | some b => .ok b
    | none => .error .corrupt

/-- Whatever the store answers is what it holds. -/
structure View.Sound (view : View) (B : Bucket) : Prop where
  head : ∀ {s h}, view.head s = .ok h → B.heads s = h
  chunk : ∀ {s h b}, view.chunk s h = .ok b → (B.objects s)[h]? = some b
  cachedChunk : ∀ {s h b}, view.cachedChunk s h = some b → (B.objects s)[h]? = some b
  baseChunk : ∀ {image h o b}, view.baseChunk image h o = .ok b →
    (B.objects ⟨true, image⟩)[h]? = some b

/-- A sound view in which every object that is present can be read. -/
structure View.Healthy (view : View) (B : Bucket) : Prop extends view.Sound B where
  head_of : ∀ s, view.head s = .ok (B.heads s)
  chunk_of : ∀ {s h b}, (B.objects s)[h]? = some b → view.chunk s h = .ok b
  baseChunk_of : ∀ {image h b} (o : Option ℕ), (B.objects ⟨true, image⟩)[h]? = some b →
    view.baseChunk image h o = .ok b

/-- A bucket is seen as it is. -/
theorem Bucket.view_healthy (B : Bucket) : B.view.Healthy B where
  head hok := Except.ok.inj hok
  head_of _ := rfl
  chunk {s h b} hok := by
    simp only [Bucket.view] at hok
    split at hok
    · rename_i b' hb'
      rw [hb', Except.ok.inj hok]
    · cases hok
  cachedChunk hok := by cases hok
  baseChunk {image h o b} hok := by
    simp only [Bucket.view] at hok
    split at hok
    · rename_i b' hb'
      rw [hb', Except.ok.inj hok]
    · cases hok
  chunk_of hb := by simp only [Bucket.view, hb]
  baseChunk_of o hb := by simp only [Bucket.view, hb]

/-- Every object that `view` delivers, `view'` delivers too. -/
structure View.Le (view view' : View) : Prop where
  chunk : ∀ {s h b}, view.chunk s h = .ok b → view'.chunk s h = .ok b
  fetch : ∀ {s h b}, view.fetch s h = .ok b → view'.fetch s h = .ok b
  baseChunk : ∀ {image h o b}, view.baseChunk image h o = .ok b →
    view'.baseChunk image h o = .ok b

/-- What a sound view answers is stored. -/
theorem View.Sound.of_fetch {view : View} {B : Bucket} (hs : view.Sound B) {s : Space} {h : Hash}
    {b : Bytes} (hok : view.fetch s h = .ok b) : (B.objects s)[h]? = some b := by
  unfold View.fetch at hok
  split at hok
  · rename_i b' hb'
    rw [hs.cachedChunk hb', Except.ok.inj hok]
  · exact hs.chunk hok

/-- What is stored a healthy view answers. -/
theorem View.Healthy.fetch_of {view : View} {B : Bucket} (hh : view.Healthy B) {s : Space}
    {h : Hash} {b : Bytes} (hb : (B.objects s)[h]? = some b) : view.fetch s h = .ok b := by
  unfold View.fetch
  split
  · rename_i b' hb'
    rw [hh.cachedChunk hb'] at hb
    rw [Option.some.inj hb]
  · exact hh.chunk_of hb

/-- A sound view delivers no more than a healthy one. -/
theorem View.Sound.le {view view' : View} {B : Bucket} (hs : view.Sound B)
    (hh : view'.Healthy B) : view.Le view' :=
  ⟨fun h => hh.chunk_of (hs.chunk h), fun h => hh.fetch_of (hs.of_fetch h),
    fun h => hh.baseChunk_of _ (hs.baseChunk h)⟩

/-- `B'` holds every object of `B`. -/
def Bucket.Le (B B' : Bucket) : Prop :=
  ∀ (s : Space) (h : Hash) (b : Bytes),
    (B.objects s)[h]? = some b → (B'.objects s)[h]? = some b

theorem Bucket.Le.refl (B : Bucket) : B.Le B := fun _ _ _ h => h

theorem Bucket.Le.trans {A B C : Bucket} (h : A.Le B) (h' : B.Le C) : A.Le C :=
  fun s k b hb => h' s k b (h s k b hb)

/-- A larger bucket is seen better. -/
theorem Bucket.Le.view {B B' : Bucket} (h : B.Le B') : B.view.Le B'.view :=
  ⟨fun hok => B'.view_healthy.chunk_of (h _ _ _ (B.view_healthy.chunk hok)),
    fun hok => B'.view_healthy.fetch_of (h _ _ _ (B.view_healthy.toSound.of_fetch hok)),
    fun hok => B'.view_healthy.baseChunk_of _ (h _ _ _ (B.view_healthy.baseChunk hok))⟩

/-- One object more. -/
theorem Bucket.getElem?_insert (B : Bucket) (s s' : Space) (h h' : Hash) (b : Bytes) :
    ((B.insert s h b).objects s')[h']? =
      if s' = s ∧ h' = h then some b else (B.objects s')[h']? := by
  simp only [Bucket.insert]
  by_cases hs : s' = s
  · subst hs
    rw [Function.update_self, Std.ExtTreeMap.getElem?_insert]
    by_cases hh : h = h'
    · simp [hh]
    · simp [hh, Ne.symm hh]
  · rw [Function.update_of_ne hs, if_neg (fun h => hs h.1)]

/-- A successful upload leaves the object in place and touches no other one. -/
theorem Bucket.putChunk_spec {B B' : Bucket} {s : Space} {h : Hash} {b : Bytes}
    (hok : B.putChunk s h b = .ok B') :
    B'.heads = B.heads ∧ B'.published = B.published ∧ B'.flights = B.flights ∧
      ∀ s' h', (B'.objects s')[h']? =
        if s' = s ∧ h' = h then some b else (B.objects s')[h']? := by
  unfold Bucket.putChunk at hok
  split at hok
  · rename_i b' hb'
    split at hok
    · rename_i heq
      obtain rfl := Except.ok.inj hok
      refine ⟨rfl, rfl, rfl, fun s' h' => ?_⟩
      split
      · rename_i hc
        rw [hc.1, hc.2, hb', heq]
      · rfl
    · cases hok
  · obtain rfl := Except.ok.inj hok
    exact ⟨rfl, rfl, rfl, fun s' h' => B.getElem?_insert s s' h h' b⟩

theorem Bucket.Le.of_objects_eq {B B' : Bucket} (h : B'.objects = B.objects) : B.Le B' := by
  intro s k b hb
  rwa [h]

section Catalog

/-- `AHVMBS01` -/
def catalogMagic : Bytes := [0x41, 0x48, 0x56, 0x4d, 0x42, 0x53, 0x30, 0x31]

/-- The length of a catalog's header. -/
def catalogHeader : ℕ := 48

/-- How many pages a catalog may list. -/
def catalogPages : ℕ := 1024

/-- The immutable page map of an exported image. -/
structure Catalog where
  size : ℕ
  pages : BTreeMap ℕ Hash
  deriving DecidableEq

/-- `Catalog::encode` -/
def Catalog.encode (c : Catalog) (image : VolumeId) : Result Bytes := do
  let raw ← decode image
  let bytes := catalogMagic ++ beBytes 8 c.size ++ raw ++ zeros (chunkBytes - catalogHeader)
  c.pages.toList.foldlM (fun bytes (page, hash) =>
    if page ≥ catalogPages then .error .invalidInput
    else if validHash hash = false then .error .corrupt
    else .ok (splice bytes (catalogHeader + page * 32) hash)) bytes

/-- The checks that `Catalog::load` makes on the bytes it fetched, and the map it builds. -/
def Catalog.parse (P : Platform) (base : BaseRef) (raw bytes : Bytes) : Result Catalog :=
  if bytes.length ≠ chunkBytes ∨ P.digest bytes ≠ base.catalog ∨ bytes.take 8 ≠ catalogMagic ∨
      slice bytes 16 32 ≠ raw ∨
      isZero (bytes.drop (catalogHeader + catalogPages * 32)) = false then .error .corrupt
  else
    let size := ofBe (slice bytes 8 8)
    if size = 0 ∨ size > maxSize ∨ size % chunkBytes ≠ 0 then .error .corrupt
    else
      let count := (size / chunkBytes + 1023) / 1024
      let hashAt := fun i => slice bytes (catalogHeader + i * 32) 32
      if (List.range catalogPages).any (fun i => !isZero (hashAt i) && decide (i ≥ count)) then
        .error .corrupt
      else
        .ok ⟨size, (List.range catalogPages).foldl (fun pages i =>
          if isZero (hashAt i) then pages else pages.insert i (hashAt i)) ∅⟩

/-- `Catalog::load` -/
def Catalog.load (P : Platform) (view : View) (base : BaseRef) : Result Catalog := do
  let raw ← decode base.image
  if validHash base.catalog = false then .error .corrupt
  else
    let bytes ← view.baseChunk base.image base.catalog none
    Catalog.parse P base raw bytes

end Catalog

end AgentHouse.Volume
