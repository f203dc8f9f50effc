import AgentHouse.Local.Disk

/-!
# Versions of the remote volume

While a journal is in use, every disk map in circulation, be it the head, the disk map of a
handle or that of a request on its way, stores what the records of the journal up to some
sequence number produce, and its replication mark tells that number. `Version` states this
for one handle, `Remote` for the head and the requests. A revision belongs to one manifest,
so a request that takes effect replaces the disk map it was made from.
-/

namespace AgentHouse.Local

open Volume IndexedVolume

section Dates

variable {P : Platform} {B B' : Bucket} {past : ℕ → Manifest} {rev : Revision} {m m' : Manifest}

/-- One of the publications so far gave the revision `rev` to the manifest `m`. -/
def Dated (P : Platform) (B : Bucket) (past : ℕ → Manifest) (rev : Revision) (m : Manifest) :
    Prop := ∃ n < B.published, past n = m ∧ P.tag n m = rev

/-- A revision has one manifest. -/
theorem Dated.unique (h : Dated P B past rev m) (h' : Dated P B past rev m') : m = m' := by
  obtain ⟨n, -, hp, ht⟩ := h
  obtain ⟨n', -, hp', ht'⟩ := h'
  rcases P.tag_inj (ht.trans ht'.symm) with rfl | heq
  · rw [← hp, ← hp']
  · exact heq

theorem Dated.of_published (h : Dated P B past rev m) (hp : B'.published = B.published) :
    Dated P B' past rev m := by
  obtain ⟨n, hn, hpast, ht⟩ := h
  exact ⟨n, by rw [hp]; exact hn, hpast, ht⟩

/-- A new head leaves the past alone. -/
theorem Dated.replace (h : Dated P B past rev m) (s : Space) (m' : Manifest) :
    Dated P (B.replace P s m') (Function.update past B.published m') rev m := by
  obtain ⟨n, hn, hpast, ht⟩ := h
  refine ⟨n, ?_, ?_, ht⟩
  · rw [Bucket.replace_published]
    omega
  · rw [Function.update_of_ne (by omega)]
    exact hpast

/-- And is dated itself. -/
theorem dated_replace (P : Platform) (B : Bucket) (past : ℕ → Manifest) (s : Space)
    (m : Manifest) :
    Dated P (B.replace P s m) (Function.update past B.published m) (P.tag B.published m) m :=
  ⟨B.published, by simp, Function.update_self .., rfl⟩

/-- Distinct roots are wrapped apart. -/
theorem wrap_inj {store : Client} {r r' : Root} (h : store.wrap r = store.wrap r') : r = r' := by
  cases store with
  | raw bases => exact Manifest.root.inj h
  | owned i => exact congrArg Envelope.manifest (Manifest.envelope.inj h)

end Dates

section Serving

variable {P : Platform} {S : Set Bytes} {B B' : Bucket} {store : Client} {id : VolumeId}
  {count : ℕ} {w w' : IndexedVolume} {g g' : ℕ → Bytes}

/-- The handle `w` is one through which the volume can be opened, and stores the chunks `g`. -/
structure Serves (P : Platform) (S : Set Bytes) (B : Bucket) (store : Client) (id : VolumeId)
    (count : ℕ) (w : IndexedVolume) (g : ℕ → Bytes) : Prop where
  holds : Holds P S B w g
  store_eq : w.store = store
  volume_eq : w.root.volume = id
  count_eq : w.chunkCount = count
  valid : validId id = true
  client : store.Valid id
  readable : store.Readable P w.root
  ready : w.root.ready = true
  revision_ne : w.revision ≠ ""

theorem Serves.space_eq (h : Serves P S B store id count w g) : w.space = store.space id := by
  rw [IndexedVolume.space, h.store_eq, h.volume_eq]

/-- The head of a version that is served. -/
theorem Serves.headOf (h : Serves P S B store id count w g)
    (hh : B.heads (store.space id) = some ⟨w.revision, store.wrap w.root⟩) : HeadOf P S B w g :=
  ⟨by rw [h.space_eq, h.store_eq]; exact hh, h.holds, by rw [h.volume_eq]; exact h.valid,
    by rw [h.store_eq, h.volume_eq]; exact h.client, by rw [h.store_eq]; exact h.readable,
    h.revision_ne, fun _ _ => h.ready⟩

/-- What is served is served by a larger bucket. -/
theorem Serves.mono (h : Serves P S B store id count w g) (hle : B.Le B') :
    Serves P S B' store id count w g :=
  { h with holds := h.holds.mono hle }

/-- The content outside the volume does not count. -/
theorem Serves.congr (h : Serves P S B store id count w g) (hg : ∀ i < count, g' i = g i) :
    Serves P S B store id count w g' := by
  refine { h with holds := ?_ }
  have hi := h.count_eq
  refine ⟨h.holds.wellFormed, h.holds.base, ?_, ?_, h.holds.basePages, h.holds.baseChunks⟩
  · intro i hlt
    rw [hg i (by omega)]
    exact h.holds.loads i hlt
  · intro i hlt
    rw [hg i (by omega)]
    exact h.holds.known i hlt

/-- The dirty map and the poison flag do not matter. -/
theorem Serves.of_same (h : Serves P S B store id count w g) (hstore : w'.store = w.store)
    (hroot : w'.root = w.root) (hbase : w'.base = w.base) (hrev : w'.revision ≠ "") :
    Serves P S B store id count w' g := by
  have hsrc : SameSource w w' := ⟨by rw [IndexedVolume.packed, hroot]; rfl, by rw [hroot],
    by rw [IndexedVolume.space, hstore, hroot]; rfl, by rw [hroot], hbase⟩
  exact ⟨h.holds.of_same hsrc hroot, hstore.trans h.store_eq, by rw [hroot]; exact h.volume_eq,
    by rw [IndexedVolume.chunkCount, hroot]; exact h.count_eq, h.valid, h.client,
    by rw [hroot]; exact h.readable, by rw [hroot]; exact h.ready, hrev⟩

/-- Dirty chunks do not count for what the bucket holds. -/
theorem Serves.with_dirty (h : Serves P S B store id count w g) (dirty : BTreeMap ℕ Bytes) :
    Holds P S B { w with dirty := dirty } g :=
  h.holds.of_same ⟨rfl, rfl, rfl, rfl, rfl⟩ rfl

theorem Serves.length_eq (h : Serves P S B store id count w g) {i : ℕ} (hi : i < count) :
    (g i).length = chunkBytes := h.holds.length_eq (by rw [h.count_eq]; exact hi)

/-- What opening the volume yields, if its head is that of the handle. -/
theorem Serves.open_sound (h : Serves P S B store id count w g)
    (hh : B.heads (store.space id) = some ⟨w.revision, store.wrap w.root⟩) {view : View}
    (hs : view.Sound B) (hok : IndexedVolume.open P view store id = .ok w') : w' = w.clean := by
  rw [← h.store_eq, ← h.volume_eq] at hok
  exact ((h.headOf hh).open_sound hs hok).1

/-- A head that is served is opened by a healthy view. -/
theorem Serves.open_healthy (h : Serves P S B store id count w g)
    (hh : B.heads (store.space id) = some ⟨w.revision, store.wrap w.root⟩) {view : View}
    (hs : view.Healthy B) : IndexedVolume.open P view store id = .ok w.clean := by
  have := (h.headOf hh).open_healthy hs h.ready
  rwa [h.store_eq, h.volume_eq] at this

/-- A volume that is open can be served. -/
theorem HeadOf.serves {f : ℕ → Bytes} (h : HeadOf P S B w f) (hready : w.root.ready = true) :
    Serves P S B w.store w.root.volume w.chunkCount w f :=
  ⟨h.holds, rfl, rfl, rfl, h.valid, h.client, h.readable, hready, h.revision_ne⟩

end Serving

/-- The sequence number up to which a disk map has the records of a journal. -/
def water (journal : Hash) (r : Root) : ℕ :=
  match r.replication with
  | none => 0
  | some m => if m.id = journal then m.sequence else 0

theorem water_of_replication {journal : Hash} {r r' : Root} (h : r'.replication = r.replication) :
    water journal r' = water journal r := by rw [water, h, water]

/-- What has happened to a disk since its journal was created: the contents at that time and
the records since then, how much of them may have been sent to the store, and how much of
them the head has. -/
structure History where
  journal : Hash
  count : ℕ
  origin : ℕ → Bytes
  records : List Record
  sent : ℕ
  floor : ℕ
  past : ℕ → Manifest

/-- The contents after the records up to a sequence number. -/
def History.after (η : History) (q : ℕ) : ℕ → Bytes := applied η.origin (upTo q η.records)

section Versions

variable {P : Platform} {S : Set Bytes} {B B' B'' : Bucket} {store : Client} {id : VolumeId}
  {η η' η'' : History} {w w' : IndexedVolume}

/-- A later state of the store and of the history. -/
structure Later (P : Platform) (B : Bucket) (η : History) (B' : Bucket) (η' : History) : Prop where
  le : B.Le B'
  journal : η'.journal = η.journal
  count : η'.count = η.count
  origin : η'.origin = η.origin
  dated : ∀ {rev m}, Dated P B η.past rev m → Dated P B' η'.past rev m
  floor : η.floor ≤ η'.floor
  sent : η.sent ≤ η'.sent
  records : ∀ q ≤ η.sent, upTo q η'.records = upTo q η.records

theorem Later.refl (P : Platform) (B : Bucket) (η : History) : Later P B η B η :=
  ⟨Bucket.Le.refl B, rfl, rfl, rfl, fun h => h, le_refl _, le_refl _, fun _ _ => rfl⟩

theorem Later.trans (h : Later P B η B' η') (h' : Later P B' η' B'' η'') :
    Later P B η B'' η'' :=
  ⟨h.le.trans h'.le, h'.journal.trans h.journal, h'.count.trans h.count,
    h'.origin.trans h.origin, fun hd => h'.dated (h.dated hd), h.floor.trans h'.floor,
    h.sent.trans h'.sent,
    fun q hq => (h'.records q (hq.trans h.sent)).trans (h.records q hq)⟩

/-- What was sent is unchanged later. -/
theorem Later.after_eq (h : Later P B η B' η') {q : ℕ} (hq : q ≤ η.sent) :
    η'.after q = η.after q := by
  rw [History.after, h.origin, h.records q hq, History.after]

/-- The handle stores what the records up to its own mark produce. -/
structure Version (P : Platform) (S : Set Bytes) (store : Client) (id : VolumeId) (B : Bucket)
    (η : History) (w : IndexedVolume) : Prop where
  serves : Serves P S B store id η.count w (η.after (water η.journal w.root))
  sent : water η.journal w.root ≤ η.sent

/-- A version that was published, now or earlier. -/
structure Known (P : Platform) (S : Set Bytes) (store : Client) (id : VolumeId) (B : Bucket)
    (η : History) (w : IndexedVolume) : Prop extends Version P S store id B η w where
  dated : Dated P B η.past w.revision (store.wrap w.root)
  floor : water η.journal w.root ≤ η.floor

/-- A version stays one. -/
theorem Version.later (h : Version P S store id B η w) (hl : Later P B η B' η') :
    Version P S store id B' η' w := by
  have hsent := h.sent
  refine ⟨?_, ?_⟩
  · rw [hl.count, hl.journal, hl.after_eq hsent]
    exact h.serves.mono hl.le
  · rw [hl.journal]
    exact hsent.trans hl.sent

/-- What is known stays known. -/
theorem Known.later (h : Known P S store id B η w) (hl : Later P B η B' η') :
    Known P S store id B' η' w :=
  ⟨h.toVersion.later hl, hl.dated h.dated, by rw [hl.journal]; exact h.floor.trans hl.floor⟩

theorem Known.of_same (h : Known P S store id B η w) (hstore : w'.store = w.store)
    (hroot : w'.root = w.root) (hbase : w'.base = w.base) (hrev : w'.revision = w.revision) :
    Known P S store id B η w' := by
  refine ⟨⟨?_, ?_⟩, ?_, ?_⟩
  · rw [hroot]
    exact h.serves.of_same hstore hroot hbase (by rw [hrev]; exact h.serves.revision_ne)
  · rw [hroot]
    exact h.sent
  · rw [hrev, hroot]
    exact h.dated
  · rw [hroot]
    exact h.floor

/-- The remote volume of a journal: its head and the requests on their way to it. -/
structure Remote (P : Platform) (S : Set Bytes) (store : Client) (id : VolumeId) (B : Bucket)
    (η : History) : Prop where
  addressed : Addressed P S B
  head : ∃ w, Known P S store id B η w ∧ water η.journal w.root = η.floor ∧
    B.heads (store.space id) = some ⟨w.revision, store.wrap w.root⟩
  flights : ∀ q ∈ B.flights, q.space = store.space id → ∃ w e r,
    Version P S store id B η w ∧ q.manifest = store.wrap w.root ∧ q.expected = some e ∧
      Dated P B η.past e (store.wrap r) ∧ water η.journal r ≤ water η.journal w.root

/-- Opening the volume yields the head. -/
theorem Remote.open_sound (h : Remote P S store id B η) {view : View} (hs : view.Sound B)
    (hok : IndexedVolume.open P view store id = .ok w) :
    Known P S store id B η w ∧ w.dirty = ∅ ∧ w.poisoned = false ∧
      water η.journal w.root = η.floor ∧
      B.heads (store.space id) = some ⟨w.revision, store.wrap w.root⟩ := by
  obtain ⟨v, hv, hfloor, hhead⟩ := h.head
  have hw := hv.serves.open_sound hhead hs hok
  subst hw
  exact ⟨hv.of_same rfl rfl rfl rfl, rfl, rfl, hfloor, hhead⟩

/-- Two published handles of one revision have one disk map. -/
theorem Known.root_eq (h : Known P S store id B η w) (h' : Known P S store id B η w')
    (hrev : w'.revision = w.revision) : w'.root = w.root := by
  have := h'.dated
  rw [hrev] at this
  exact wrap_inj (this.unique h.dated)

/-- The remote side stays in order. -/
theorem Remote.later (h : Remote P S store id B η) (hl : Later P B η B' η')
    (ha : Addressed P S B') (hheads : B'.heads = B.heads) (hflights : B'.flights = B.flights)
    (hfloor : η'.floor = η.floor) : Remote P S store id B' η' := by
  refine ⟨ha, ?_, ?_⟩
  · obtain ⟨v, hv, hw, hhead⟩ := h.head
    exact ⟨v, hv.later hl, by rw [hl.journal, hw, hfloor], by rw [hheads]; exact hhead⟩
  · intro q hq hsp
    rw [hflights] at hq
    obtain ⟨v, e, r, hv, hm, he, hd, hle⟩ := h.flights q hq hsp
    exact ⟨v, e, r, hv.later hl, hm, he, hl.dated hd, by rw [hl.journal]; exact hle⟩

/-- The history after the head was replaced by a version. -/
def History.published (η : History) (B : Bucket) (m : Manifest) (q : ℕ) : History :=
  { η with floor := q, past := Function.update η.past B.published m }

/-- A publication makes a later bucket. -/
theorem Later.replace (P : Platform) (B : Bucket) (η : History) (s : Space) (m : Manifest) {q : ℕ}
    (hq : η.floor ≤ q) : Later P B η (B.replace P s m) (η.published B m q) :=
  ⟨Bucket.le_replace P B s m, rfl, rfl, rfl, fun hd => hd.replace s m, hq, le_refl _,
    fun _ _ => rfl⟩

/-- Replacing the head by a version that has at least as many records. -/
theorem Remote.replace (h : Remote P S store id B η) (hw : Version P S store id B η w)
    (hq : η.floor ≤ water η.journal w.root) :
    Remote P S store id (B.replace P (store.space id) (store.wrap w.root))
        (η.published B (store.wrap w.root) (water η.journal w.root)) ∧
      Known P S store id (B.replace P (store.space id) (store.wrap w.root))
        (η.published B (store.wrap w.root) (water η.journal w.root))
        { w with revision := P.tag B.published (store.wrap w.root) } := by
  have hl := Later.replace P B η (store.space id) (store.wrap w.root) hq
  have hk : Known P S store id (B.replace P (store.space id) (store.wrap w.root))
      (η.published B (store.wrap w.root) (water η.journal w.root))
      { w with revision := P.tag B.published (store.wrap w.root) } := by
    have hv := hw.later hl
    exact ⟨⟨hv.serves.of_same rfl rfl rfl (P.tag_ne_empty _ _), hv.sent⟩, dated_replace ..,
      le_refl _⟩
  refine ⟨⟨h.addressed, ⟨_, hk, rfl, Bucket.replace_heads_self ..⟩, ?_⟩, hk⟩
  intro q hmem hsp
  obtain ⟨v, e, r, hv, hm, he, hd, hle⟩ := h.flights q hmem hsp
  exact ⟨v, e, r, hv.later hl, hm, he, hl.dated hd, hle⟩

/-- A version is at most as old as the head if it was made from the head's revision. -/
theorem Remote.floor_eq (h : Remote P S store id B η) {e : Revision} {r : Root}
    (hd : Dated P B η.past e (store.wrap r))
    (he : (B.heads (store.space id)).map Head.revision = some e) :
    η.floor = water η.journal r := by
  obtain ⟨v, hv, hfloor, hhead⟩ := h.head
  rw [hhead] at he
  have hrev : v.revision = e := by simpa using he
  have hvd := hv.dated
  rw [hrev] at hvd
  rw [← hfloor, wrap_inj (hvd.unique hd)]

/-- A request that arrives late either changes nothing or replaces the head by a version. -/
theorem Remote.land (h : Remote P S store id B η) {q : Request} (hq : q ∈ B.flights) :
    ∃ η', Later P B η (B.land P q) η' ∧ Remote P S store id (B.land P q) η' ∧
      η'.records = η.records ∧ η'.sent = η.sent ∧
      (q.space ≠ store.space id → η'.floor = η.floor) := by
  unfold Bucket.land Bucket.publish
  by_cases hrev : (B.heads q.space).map Head.revision = q.expected
  · simp only [hrev, if_true]
    by_cases hsp : q.space = store.space id
    · obtain ⟨w, e, r, hw, hm, he, hd, hle⟩ := h.flights q hq hsp
      rw [hsp, he] at hrev
      have hfloor := h.floor_eq hd hrev
      have hge : η.floor ≤ water η.journal w.root := hfloor ▸ hle
      rw [hsp, hm]
      exact ⟨_, Later.replace P B η _ _ hge, (h.replace hw hge).1, rfl, rfl,
        fun hne => absurd rfl hne⟩
    · -- The head of another volume.
      have hl := Later.replace P B η q.space q.manifest (le_refl η.floor)
      refine ⟨_, hl, ⟨h.addressed, ?_, ?_⟩, rfl, rfl, fun _ => rfl⟩
      · obtain ⟨v, hv, hfloor, hhead⟩ := h.head
        refine ⟨v, hv.later hl, hfloor, ?_⟩
        rw [← hhead]
        exact Bucket.replace_heads_of_ne P B (Ne.symm hsp) q.manifest
      · intro q' hmem hsp'
        obtain ⟨v, e, r, hv, hm, he, hd, hle⟩ := h.flights q' hmem hsp'
        exact ⟨v, e, r, hv.later hl, hm, he, hl.dated hd, hle⟩
  · simp only [hrev, if_false]
    exact ⟨η, Later.refl P B η, h, rfl, rfl, fun _ => rfl⟩

/-- What other volumes do. -/
theorem Remote.other (h : Remote P S store id B η) (hle : B.Le B') (ha : Addressed P S B')
    (hhead : B'.heads (store.space id) = B.heads (store.space id))
    (hp : B.published ≤ B'.published)
    (hf : ∀ q ∈ B'.flights, q.space = store.space id → q ∈ B.flights) :
    Later P B η B' η ∧ Remote P S store id B' η := by
  have hl : Later P B η B' η := by
    refine ⟨hle, rfl, rfl, rfl, ?_, le_refl _, le_refl _, fun _ _ => rfl⟩
    rintro rev m ⟨n, hn, hd⟩
    exact ⟨n, by omega, hd⟩
  refine ⟨hl, ha, ?_, ?_⟩
  · obtain ⟨v, hv, hfloor, hh⟩ := h.head
    exact ⟨v, hv.later hl, hfloor, by rw [hhead]; exact hh⟩
  · intro q hq hsp
    obtain ⟨v, e, r, hv, hm, he, hd, hlew⟩ := h.flights q (hf q hq hsp) hsp
    exact ⟨v, e, r, hv.later hl, hm, he, hl.dated hd, hlew⟩

end Versions

section Commits

variable {P : Platform} {S : Set Bytes} {B B' : Bucket} {store : Client} {id : VolumeId}
  {η : History} {w v' : IndexedVolume} {dirty : BTreeMap ℕ Bytes} {next : Root} {force : Bool}
  {view : View} {d : Delivery} {res : Result ℕ} {q : ℕ}

/-- The new disk map of a commit from a known handle is a version. -/
theorem Known.prepares {r : Root} {Bu : Bucket} (hw : Known P S store id B η w)
    (hideal : P.Ideal S) (ha : Addressed P S B)
    (hd : DirtyOk { w with dirty := dirty }) (hs : view.Sound B)
    (hS : ∀ b ∈ IndexedVolume.hashed P view { w with dirty := dirty } force, b ∈ S)
    (hc : Continues { w with dirty := dirty } next) (hq : water η.journal next = q)
    (hsent : q ≤ η.sent)
    (hover : ∀ i < η.count, IndexedVolume.over { w with dirty := dirty }
      (η.after (water η.journal w.root)) i = η.after q i)
    (hp : Prepares P B view { w with dirty := dirty } next force r Bu) :
    (∃ objs, Grows B Bu (store.space id) objs) ∧ Addressed P S Bu ∧
      water η.journal r = q ∧
      Version P S store id Bu η { w with root := r, dirty := ∅ } := by
  have hself : Holds P S B { w with dirty := dirty } (η.after (water η.journal w.root)) :=
    hw.serves.with_dirty dirty
  obtain ⟨⟨objs, hg⟩, ha', hh⟩ := hp.holds hself hideal ha hd hs hS hc w.revision
  obtain ⟨pages, uploads, generation, -, -, rfl, -⟩ := hp.plan
  have hwater : water η.journal (published next generation pages) = q := hq
  have hstore : IndexedVolume.store { w with dirty := dirty } = store := hw.serves.store_eq
  have hserves : Serves P S Bu store id η.count
      { w with root := published next generation pages, dirty := ∅ }
      (IndexedVolume.over { w with dirty := dirty } (η.after (water η.journal w.root))) :=
    ⟨hh, hw.serves.store_eq, hc.volume.trans hw.serves.volume_eq, by
      have hsize : next.size = w.root.size := hc.size
      rw [← hw.serves.count_eq]
      exact congrArg (· / chunkBytes) hsize, hw.serves.valid, hw.serves.client,
      by rw [← hstore]; exact hp.sendable.readable, hc.ready.trans hw.serves.ready,
      hw.serves.revision_ne⟩
  refine ⟨⟨objs, ?_⟩, ha', hwater, ⟨?_, ?_⟩⟩
  · rw [← hw.serves.space_eq]
    exact hg
  · simp only [hwater]
    exact hserves.congr (fun i hi => (hover i hi).symm)
  · simp only [hwater]
    exact hsent

/-- So do new objects. -/
theorem Later.grows {Bu : Bucket} {s : Space} {objs : List (Hash × Bytes)} (hg : Grows B Bu s objs)
    (P : Platform) (η : History) : Later P B η Bu η :=
  ⟨hg.le, rfl, rfl, rfl, fun hd => hd.of_published hg.published, le_refl _, le_refl _,
    fun _ _ => rfl⟩

/-- New objects keep the remote side in order. -/
theorem Remote.grows {Bu : Bucket} {s : Space} {objs : List (Hash × Bytes)}
    (h : Remote P S store id B η) (hg : Grows B Bu s objs) (ha : Addressed P S Bu) :
    Remote P S store id Bu η :=
  h.later (Later.grows hg P η) ha hg.heads hg.flights rfl

/-- A commit from a known handle keeps the remote volume in order, whatever becomes of its
request. -/
theorem Remote.outcome (h : Remote P S store id B η) (hw : Known P S store id B η w)
    (hideal : P.Ideal S) (hd : DirtyOk { w with dirty := dirty }) (hs : view.Sound B)
    (hS : ∀ b ∈ IndexedVolume.hashed P view { w with dirty := dirty } force, b ∈ S)
    (hc : Continues { w with dirty := dirty } next) (hq : water η.journal next = q)
    (hle : water η.journal w.root ≤ q) (hsent : q ≤ η.sent)
    (hover : ∀ i < η.count, IndexedVolume.over { w with dirty := dirty }
      (η.after (water η.journal w.root)) i = η.after q i)
    (ho : Outcome P B view d { w with dirty := dirty } next force B' v' res) :
    ∃ η', Later P B η B' η' ∧ Remote P S store id B' η' ∧ η'.records = η.records ∧
      η'.sent = η.sent ∧
      ∀ g, res = .ok g → Known P S store id B' η' v' ∧ v'.dirty = ∅ ∧
        v'.poisoned = w.poisoned ∧ water η.journal v'.root = q := by
  -- What a publication does, with or without its reply.
  have hpub : ∀ {r : Root}, Publishes P B view { w with dirty := dirty } next force r B' →
      ∃ η', Later P B η B' η' ∧ Remote P S store id B' η' ∧ η'.records = η.records ∧
        η'.sent = η.sent ∧ water η.journal r = q ∧ Known P S store id B' η'
          { w with root := r, revision := P.tag B.published (store.wrap r), dirty := ∅ } := by
    rintro r ⟨Bu, hprep, hrep⟩
    obtain ⟨⟨objs, hg⟩, ha, hwater, hv⟩ :=
      hw.prepares hideal h.addressed hd hs hS hc hq hsent hover hprep
    have hR := h.grows hg ha
    have hvol : r.volume = id := hv.serves.volume_eq
    have hbucket := hrep.bucket
    have hexp := hrep.expected
    simp only [hw.serves.store_eq, hvol] at hbucket hexp
    have hwd := (Later.grows hg P η).dated hw.dated
    have hfloor := hR.floor_eq hwd hexp
    have hge : η.floor ≤ water η.journal r := by rw [hfloor, hwater]; exact hle
    obtain ⟨hR', hk⟩ := hR.replace hv hge
    rw [hbucket]
    refine ⟨_, (Later.grows hg P η).trans (Later.replace P Bu η _ _ hge), hR', rfl, rfl,
      hwater, ?_⟩
    rw [← hg.published]
    exact hk
  cases ho with
  | @failed _ _ e uploads hplan hg hv =>
    have hself : Holds P S B { w with dirty := dirty } (η.after (water η.journal w.root)) :=
      hw.serves.with_dirty dirty
    have hdig : Digests P S uploads := by
      rcases hplan with rfl | ⟨pages, hplan⟩
      · exact fun o ho => by cases ho
      · exact (plan_ok hself hideal h.addressed hd hs hS hplan).digests
    exact ⟨η, Later.grows hg P η, h.grows hg (hg.addressed h.addressed hdig), rfl, rfl,
      fun g hg => by cases hg⟩
  | unchanged hplan hmark =>
    refine ⟨η, Later.refl P B η, h, rfl, rfl, fun g _ => ⟨hw.of_same rfl rfl rfl rfl, rfl, rfl, ?_⟩⟩
    rw [← hq]
    exact (water_of_replication hmark).symm
  | published hp =>
    obtain ⟨η', hl, hR, hrec, hse, hwater, hk⟩ := hpub hp
    refine ⟨η', hl, hR, hrec, hse, fun g _ => ⟨?_, rfl, rfl, hwater⟩⟩
    simp only [hw.serves.store_eq] at hk ⊢
    exact hk
  | lost hp _ =>
    obtain ⟨η', hl, hR, hrec, hse, -, -⟩ := hpub hp
    exact ⟨η', hl, hR, hrec, hse, fun g hg => by cases hg⟩
  | @delayed Bu r hprep _ =>
    obtain ⟨⟨objs, hg⟩, ha, hwater, hv⟩ :=
      hw.prepares hideal h.addressed hd hs hS hc hq hsent hover hprep
    have hl := Later.grows hg P η
    have hR := h.grows hg ha
    have hl' : Later P Bu η (Bu.send (IndexedVolume.request { w with dirty := dirty } r)) η :=
      ⟨Bucket.Le.refl Bu, rfl, rfl, rfl, fun hd => hd, le_refl _, le_refl _, fun _ _ => rfl⟩
    refine ⟨η, hl.trans hl', ⟨ha, ?_, ?_⟩, rfl, rfl, fun g hg => by cases hg⟩
    · obtain ⟨u, hu, hfl, hhead⟩ := hR.head
      exact ⟨u, hu.later hl', hfl, hhead⟩
    · intro t ht hsp
      rcases List.mem_cons.mp ht with rfl | ht
      · refine ⟨_, w.revision, w.root, hv.later hl', ?_, rfl, (hw.later (hl.trans hl')).dated, ?_⟩
        · simp only [IndexedVolume.request, hw.serves.store_eq]
        · simp only [hwater]
          exact hle
      · obtain ⟨u, e, r', hu, hm, he, hdt, hle'⟩ := hR.flights t ht hsp
        exact ⟨u, e, r', hu.later hl', hm, he, hl'.dated hdt, hle'⟩

end Commits

end AgentHouse.Local
