import AgentHouse.Volume.Opening

/-!
# Creating volumes and exporting images

A new volume is blank. A volume over an exported image starts with the image's pages and
shows the image's contents. The catalog that an export stores reads back as the page map of
the image.
-/

namespace AgentHouse.Volume

open IndexedVolume

section Blank

variable {P : Platform} {S : Set Bytes} {B B' : Bucket} {v : IndexedVolume}

/-- A successful creation replaces an absent head. -/
theorem createRoot_ok {store : Client} {base : Option Catalog} {root : Root} {d : Delivery}
    (hok : createRoot P B store base root d = (B', .ok v)) :
    B.heads (store.space root.volume) = none ∧
      B' = B.replace P (store.space root.volume) (.root root) ∧
      v = ⟨store, root, base, P.tag B.published (.root root), ∅, false⟩ := by
  unfold createRoot at hok
  cases ht : transmit P B (store.space root.volume) none (.root root) d with
  | mk B'' res =>
    rw [ht] at hok
    rcases transmit_cases ht with ⟨rfl, e, rfl⟩ | ⟨-, rfl, rfl⟩ | ⟨hnone, rfl, hres⟩
    · simp at hok
    · simp at hok
    · rcases hres with ⟨-, rfl⟩ | ⟨-, rfl⟩
      · simp only [P.tag_ne_empty, if_false] at hok
        obtain ⟨rfl, hv⟩ := Prod.mk.inj hok
        exact ⟨by simpa using hnone, rfl, (Except.ok.inj hv).symm⟩
      · simp at hok

/-- A disk map without pages and without a base stores zeros. -/
theorem holds_blank (hroot : RootOk v.root) (hp : v.root.pages = ∅) (hb : v.root.base = none)
    (hb' : v.base = none) (hz : zeros chunkBytes ∈ S) (B : Bucket) :
    Holds P S B v (fun _ => zeros chunkBytes) where
  wellFormed := wellFormed_iff.mpr ⟨rfl, hroot⟩
  base := by rw [loadBase, hb, hb']
  loads i hi := by
    have hbound : i / slots < 256 ^ 8 := by
      have h1 := div_slots_lt_pageCount hi
      have h2 := pageCount_le hroot.size_le
      omega
    have hempty : v.page P B.view (i / slots) = .ok (emptyPage v.packed (i / slots)) := by
      simp [IndexedVolume.page, inheritsPage, pageFrom, hp]
    have hslot := slot_of_drop (shaped_emptyPage v.root.size v.packed hbound)
      (isZero_drop_emptyPage v.packed (i / slots)) i
    simp only [loadStored, hempty, loadFrom, hslot]
  known _ _ := hz
  basePages p _ := by simp [IndexedVolume.basePage, pageFrom, hb']
  baseChunks i _ pg h b _ _ hbase := by
    rw [hb] at hbase
    cases hbase

/-- A new volume is blank. -/
theorem createInner_ok {bases ready : Bool} {id : VolumeId} {size : ℕ} {d : Delivery}
    (hz : zeros chunkBytes ∈ S) (hok : createInner P B bases id size ready d = (B', .ok v)) :
    B'.objects = B.objects ∧ HeadOf P S B' v (fun _ => zeros chunkBytes) ∧ v.dirty = ∅ ∧
      v.poisoned = false ∧ v.root.size = size ∧ v.root.ready = ready ∧ v.store = .raw bases := by
  unfold createInner at hok
  split at hok
  · simp at hok
  · rename_i hvalid
    simp only [not_or, Bool.not_eq_false, Nat.not_lt, gt_iff_lt, ne_eq, not_not] at hvalid
    obtain ⟨hid, hpos, hle, hmod⟩ := hvalid
    obtain ⟨-, rfl, rfl⟩ := createRoot_ok hok
    have hroot : RootOk ⟨if ready then 8 else 2, id, size, 0, ready, ∅, none, none⟩ := by
      refine ⟨Nat.pos_of_ne_zero hpos, hle, hmod, ?_, ?_, ?_, ?_, ?_⟩
      · cases ready <;> simp
      · cases ready <;> simp
      · cases ready <;> simp
      · intro m hm
        cases hm
      · intro p h hp
        simp at hp
    have hj : (P.json (.root ⟨if ready then 8 else 2, id, size, 0, ready, ∅, none,
        none⟩)).length ≤ maxManifestBytes :=
      P.json_blank (by cases ready <;> simp) hle hid
    exact ⟨rfl, ⟨Bucket.replace_heads_self .., holds_blank hroot rfl rfl rfl hz _, hid,
      fun i hi => by (cases hi), ⟨hj, hj⟩, P.tag_ne_empty _ _, fun i hi => by (cases hi)⟩,
      rfl, rfl, rfl, rfl, rfl⟩

end Blank

section Catalogs

variable {P : Platform} {size : ℕ} {pages : BTreeMap ℕ Hash} {image : VolumeId} {raw bytes : Bytes}

/-- The parts of an encoded catalog. -/
structure CatalogBytes (size : ℕ) (pages : BTreeMap ℕ Hash) (raw bytes : Bytes) : Prop where
  length_eq : bytes.length = chunkBytes
  head_eq : slice bytes 0 48 = catalogMagic ++ beBytes 8 size ++ raw
  tail_zero : isZero (bytes.drop (catalogHeader + catalogPages * 32)) = true
  present : ∀ (p : ℕ) (h : Hash), pages[p]? = some h → p < catalogPages ∧ h.length = 32 ∧
    slice bytes (catalogHeader + p * 32) 32 = h
  absent : ∀ (p : ℕ), p < catalogPages → pages[p]? = none →
    slice bytes (catalogHeader + p * 32) 32 = zeros 32

/-- A digest that is decoded has 32 bytes. -/
theorem decode_length {s : String} {raw : Bytes} (h : decode s = .ok raw) : raw.length = 32 := by
  have hpairs : ∀ (l : List Char) (b : Bytes), hexPairs l = some b → l.length = 2 * b.length := by
    intro l
    induction l using hexPairs.induct with
    | case1 => intro b hb; obtain rfl := Option.some.inj hb; rfl
    | case2 c => intro b hb; cases hb
    | case3 x y rest ih =>
      intro b hb
      simp only [hexPairs, Option.bind_eq_bind, Option.pure_def] at hb
      obtain ⟨_, -, hb⟩ := Option.bind_eq_some_iff.mp hb
      obtain ⟨_, -, hb⟩ := Option.bind_eq_some_iff.mp hb
      obtain ⟨tail, htail, hb⟩ := Option.bind_eq_some_iff.mp hb
      rw [← Option.some.inj hb, List.length_cons, List.length_cons, ih tail htail,
        List.length_cons]
      omega
  unfold decode at h
  split at h
  · rename_i hlen
    split at h
    · rename_i b hb
      rw [← Except.ok.inj h]
      have := hpairs _ _ hb
      rw [String.length_toList] at this
      omega
    · cases h
  · cases h

/-- The layout of an encoded catalog. -/
theorem Catalog.encode_ok (hok : (Catalog.mk size pages).encode image = .ok bytes) :
    ∃ raw, decode image = .ok raw ∧ CatalogBytes size pages raw bytes := by
  unfold Catalog.encode at hok
  cases hraw : decode image with
  | error e => simp [hraw, bind, Except.bind] at hok
  | ok raw =>
    refine ⟨raw, rfl, ?_⟩
    simp only [hraw, bind, Except.bind] at hok
    have hrl := decode_length hraw
    have hhead : (catalogMagic ++ beBytes 8 size ++ raw).length = 48 := by
      simp [catalogMagic, hrl]
    have hC : chunkBytes = 65536 := rfl
    have hH : catalogHeader = 48 := rfl
    have hP : catalogPages = 1024 := rfl
    obtain ⟨⟨hlen, hhd, htl⟩, hset, hfr⟩ := foldlM_toList_rule hok
      (fun b => b.length = chunkBytes ∧ slice b 0 48 = catalogMagic ++ beBytes 8 size ++ raw ∧
        isZero (b.drop (catalogHeader + catalogPages * 32)) = true)
      (fun b p => p < catalogPages → slice b (catalogHeader + p * 32) 32 = zeros 32)
      (fun b p h => p < catalogPages ∧ h.length = 32 ∧ slice b (catalogHeader + p * 32) 32 = h)
      (by
        refine ⟨?_, ?_, ?_⟩
        · rw [List.length_append, hhead, length_zeros]
          omega
        · rw [slice_append_left (by omega), slice_eq_self hhead]
        · rw [List.drop_append, List.drop_eq_nil_of_le (by omega), List.nil_append, zeros,
            List.drop_replicate]
          exact isZero_zeros _)
      (by
        intro p hp
        rw [slice_append_right (by omega), slice_zeros (by omega)])
      (by
        rintro b b' p h ⟨hlen, hhd, htl⟩ hm hfresh hround
        split at hround
        · cases hround
        · rename_i hp
          split at hround
          · cases hround
          · rename_i hv
            have hpl : p < catalogPages := by omega
            have hh : h.length = 32 := by simpa [validHash] using hv
            obtain rfl := Except.ok.inj hround
            have hroom : catalogHeader + p * 32 + h.length ≤ b.length := by omega
            refine ⟨⟨?_, ?_, ?_⟩, ⟨hpl, hh, ?_⟩, ?_, ?_⟩
            · rw [length_splice hroom, hlen]
            · rw [slice_splice_of_disjoint hroom (Or.inl (by omega)), hhd]
            · have hdrop : (splice b (catalogHeader + p * 32) h).drop
                  (catalogHeader + catalogPages * 32) =
                  b.drop (catalogHeader + catalogPages * 32) := by
                apply List.ext_getElem?
                intro k
                rw [List.getElem?_drop, List.getElem?_drop, getElem?_splice hroom,
                  if_neg (by omega)]
              rw [hdrop]
              exact htl
            · have := slice_splice_self hroom
              rwa [hh] at this
            · intro q hq hfr hql
              rw [slice_splice_of_disjoint hroom (by omega)]
              exact hfr hql
            · rintro q x hq ⟨hql, hxl, hsl⟩
              refine ⟨hql, hxl, ?_⟩
              rw [slice_splice_of_disjoint hroom (by omega)]
              exact hsl)
    exact ⟨hlen, hhd, htl, hset, fun p hp hn => hfr p hn hp⟩

/-- The map that `Catalog::load` builds. -/
private theorem parse_pages (bytes : Bytes) (n p : ℕ) :
    ((List.range n).foldl (fun pages i =>
      if isZero (slice bytes (catalogHeader + i * 32) 32) then pages
      else pages.insert i (slice bytes (catalogHeader + i * 32) 32)) (∅ : BTreeMap ℕ Hash))[p]? =
      if p < n ∧ isZero (slice bytes (catalogHeader + p * 32) 32) = false then
        some (slice bytes (catalogHeader + p * 32) 32) else none := by
  induction n with
  | zero => simp
  | succ n ih =>
    rw [List.range_succ, List.foldl_append, List.foldl_cons, List.foldl_nil]
    by_cases hpn : p = n
    · subst hpn
      by_cases hz : isZero (slice bytes (catalogHeader + p * 32) 32) = true
      · rw [if_pos hz, ih, if_neg (by simp), if_neg (by simp [hz])]
      · rw [if_neg hz, Std.ExtTreeMap.getElem?_insert_self, if_pos ⟨by omega, by simpa using hz⟩]
    · have hiff : (p < n + 1 ∧ isZero (slice bytes (catalogHeader + p * 32) 32) = false) ↔
          (p < n ∧ isZero (slice bytes (catalogHeader + p * 32) 32) = false) := by
        constructor <;> rintro ⟨h1, h2⟩ <;> exact ⟨by omega, h2⟩
      split
      · rw [ih]
        simp only [hiff]
      · rw [Std.ExtTreeMap.getElem?_insert, if_neg
          (fun heq => hpn (Std.LawfulEqCmp.eq_of_compare heq).symm), ih]
        simp only [hiff]

/-- A catalog reads back as the page map it was made from. -/
theorem Catalog.parse_encoded (hb : CatalogBytes size pages raw bytes) (hraw : raw.length = 32)
    (hsize : 0 < size ∧ size ≤ maxSize ∧ size % chunkBytes = 0)
    (hpages : ∀ (p : ℕ) (h : Hash), pages[p]? = some h → p < pageCount size ∧ isZero h = false)
    (base : BaseRef) (hd : P.digest bytes = base.catalog) :
    Catalog.parse P base raw bytes = .ok ⟨size, pages⟩ := by
  have hm : catalogMagic.length = 8 := rfl
  have hl8 : (beBytes 8 size).length = 8 := length_beBytes 8 size
  have hhead : (catalogMagic ++ beBytes 8 size).length = 16 := by
    simp [catalogMagic]
  have htake : bytes.take 8 = catalogMagic := by
    have h1 := congrArg (fun l => slice l 0 8) hb.head_eq
    simp only [slice_slice (show 0 + 8 ≤ 48 by omega), Nat.zero_add] at h1
    rw [List.append_assoc, slice_append_left (by omega), slice_eq_self hm] at h1
    exact h1
  have hsz : slice bytes 8 8 = beBytes 8 size := by
    have h1 := congrArg (fun l => slice l 8 8) hb.head_eq
    simp only [slice_slice (show 8 + 8 ≤ 48 by omega), Nat.zero_add] at h1
    rw [h1, slice_append_left (by omega), slice_append_right (by omega), hm, Nat.sub_self,
      slice_eq_self hl8]
  have himg : slice bytes 16 32 = raw := by
    have h1 := congrArg (fun l => slice l 16 32) hb.head_eq
    simp only [slice_slice (show 16 + 32 ≤ 48 by omega), Nat.zero_add] at h1
    rw [h1, slice_append_right (by omega), hhead, Nat.sub_self, slice_eq_self hraw]
  have hofbe : ofBe (slice bytes 8 8) = size := by
    rw [hsz]
    apply ofBe_beBytes
    have : maxSize < 256 ^ 8 := by decide
    omega
  have hslot : ∀ p < catalogPages,
      (isZero (slice bytes (catalogHeader + p * 32) 32) = false ∧
        pages[p]? = some (slice bytes (catalogHeader + p * 32) 32)) ∨
      (isZero (slice bytes (catalogHeader + p * 32) 32) = true ∧ pages[p]? = none) := by
    intro p hp
    cases hc : pages[p]? with
    | none =>
      right
      rw [hb.absent p hp hc]
      simp
    | some h =>
      left
      obtain ⟨-, -, hsl⟩ := hb.present p h hc
      rw [hsl]
      exact ⟨(hpages p h hc).2, rfl⟩
  have hno : ¬ (bytes.length ≠ chunkBytes ∨ P.digest bytes ≠ base.catalog ∨
      bytes.take 8 ≠ catalogMagic ∨ slice bytes 16 32 ≠ raw ∨
      isZero (bytes.drop (catalogHeader + catalogPages * 32)) = false) := by
    rintro (hc | hc | hc | hc | hc)
    · exact hc hb.length_eq
    · exact hc hd
    · exact hc htake
    · exact hc himg
    · rw [hb.tail_zero] at hc
      cases hc
  have hno2 : ¬ (size = 0 ∨ size > maxSize ∨ size % chunkBytes ≠ 0) := by
    rintro (hc | hc | hc)
    · omega
    · omega
    · exact hc hsize.2.2
  have hany : (List.range catalogPages).any (fun i =>
      !isZero (slice bytes (catalogHeader + i * 32) 32) &&
        decide (i ≥ (size / chunkBytes + 1023) / 1024)) = false := by
    rw [List.any_eq_false]
    intro p hp hc
    rw [Bool.and_eq_true, Bool.not_eq_true', decide_eq_true_eq] at hc
    rcases hslot p (List.mem_range.mp hp) with ⟨-, hs⟩ | ⟨hz, -⟩
    · have hlt := (hpages p _ hs).1
      unfold pageCount at hlt
      rw [show slots = 1024 from rfl] at hlt
      omega
    · rw [hz] at hc
      cases hc.1
  unfold Catalog.parse
  rw [if_neg hno]
  simp only [hofbe]
  rw [if_neg hno2]
  rw [if_neg (by rw [hany]; simp)]
  have heq : (List.range catalogPages).foldl (fun pages i =>
      if isZero (slice bytes (catalogHeader + i * 32) 32) then pages
      else pages.insert i (slice bytes (catalogHeader + i * 32) 32)) (∅ : BTreeMap ℕ Hash) =
      pages := by
    apply Std.ExtTreeMap.ext_getElem?
    intro p
    rw [parse_pages]
    by_cases hp : p < catalogPages
    · rcases hslot p hp with ⟨hz, hs⟩ | ⟨hz, hs⟩
      · rw [if_pos ⟨hp, hz⟩, hs]
      · rw [if_neg (by simp [hz]), hs]
    · rw [if_neg (by simp [hp])]
      cases hc : pages[p]? with
      | none => rfl
      | some h => exact absurd (hb.present p h hc).1 hp
  rw [heq]

end Catalogs

section Images

variable {P : Platform} {S : Set Bytes} {B B' : Bucket} {v w : IndexedVolume} {f : ℕ → Bytes}
  {base : BaseRef}

/-- The bucket holds an exported image with the chunks `f`; `w` is a handle on the image. -/
structure Exported (P : Platform) (S : Set Bytes) (B : Bucket) (base : BaseRef)
    (w : IndexedVolume) (f : ℕ → Bytes) : Prop where
  holds : Holds P S B w f
  store : w.store = .raw true
  image : base.image = w.root.volume
  noBase : w.root.base = none
  unpacked : w.packed = true → w.root.pages = ∅
  catalog : Catalog.load P B.view base = .ok ⟨w.root.size, w.root.pages⟩

/-- An exported image has its own space. -/
theorem Exported.space_eq (he : Exported P S B base w f) : w.space = ⟨true, base.image⟩ := by
  rw [IndexedVolume.space, he.store, he.image, Client.space]

theorem Exported.base_none (he : Exported P S B base w f) : w.base = none := by
  have h := he.holds.base
  rw [loadBase, he.noBase] at h
  exact (Except.ok.inj h).symm

/-- It stays exported in a larger bucket. -/
theorem Exported.mono (he : Exported P S B base w f) (hle : B.Le B') :
    Exported P S B' base w f :=
  ⟨he.holds.mono hle, he.store, he.image, he.noBase, he.unpacked,
    Catalog.load_mono hle.view he.catalog⟩

/-- Page hashes are digests, so no page of a map is mistaken for an absent one. -/
theorem Holds.isZero_pageHash (h : Holds P S B v f) (hideal : P.Ideal S) (ha : Addressed P S B)
    {p : ℕ} {hash : Hash} (hp : v.root.pages[p]? = some hash) : isZero hash = false := by
  have hpc := (h.rootOk.pages_ok p hash hp).1
  have hok := h.page_eq hpc
  rw [IndexedVolume.page, hp] at hok
  obtain ⟨bytes, hobj, rfl, -, -⟩ := pageFrom_some hok
  apply isZero_digest hideal
  split at hobj
  · obtain ⟨b, -, hview⟩ := hobj
    exact (ha _ _ _ (B.view_healthy.baseChunk hview)).2
  · exact (ha _ _ _ (B.view_healthy.chunk hobj)).2

/-- A finished image can be exported, and its catalog reads back. -/
theorem exportBase_ok (h : Holds P S B v f) (hideal : P.Ideal S) (ha : Addressed P S B)
    (hstore : v.store = .raw true)
    (hS : ∀ bytes, (Catalog.mk v.root.size v.root.pages).encode v.root.volume = .ok bytes →
      bytes ∈ S)
    (hok : exportBase P B v = (B', .ok base)) :
    B.Le B' ∧ B'.heads = B.heads ∧ Addressed P S B' ∧ Exported P S B' base v f := by
  unfold exportBase at hok
  split at hok
  · simp at hok
  · rename_i hguard
    simp only [not_or] at hguard
    obtain ⟨-, hpk, hnb, -, -, -⟩ := hguard
    cases henc : (Catalog.mk v.root.size v.root.pages).encode v.root.volume with
    | error e => simp [henc] at hok
    | ok bytes =>
      simp only [henc] at hok
      cases hput : B.putChunk v.space (P.digest bytes) bytes with
      | error e => simp [hput] at hok
      | ok B'' =>
        simp only [hput] at hok
        obtain ⟨rfl, hbase⟩ := Prod.mk.inj hok
        obtain rfl := Except.ok.inj hbase
        have hg := (Grows.refl B v.space [(P.digest bytes, bytes)]).putChunk
          (List.mem_singleton.mpr rfl) hput
        have hd : Digests P S [(P.digest bytes, bytes)] := by
          intro o ho
          rw [List.mem_singleton.mp ho]
          exact ⟨rfl, hS bytes henc⟩
        have hspace : v.space = ⟨true, v.root.volume⟩ := by
          rw [IndexedVolume.space, hstore, Client.space]
        have hobj : (B''.objects ⟨true, v.root.volume⟩)[P.digest bytes]? = some bytes := by
          rw [← hspace, (Bucket.putChunk_spec hput).2.2.2, if_pos ⟨rfl, rfl⟩]
        obtain ⟨raw, hraw, hbytes⟩ := Catalog.encode_ok henc
        have hparse := Catalog.parse_encoded (P := P)
          hbytes (decode_length hraw)
          ⟨h.rootOk.size_pos, h.rootOk.size_le, h.rootOk.size_mod⟩
          (fun p hash hp => ⟨(h.rootOk.pages_ok p hash hp).1, h.isZero_pageHash hideal ha hp⟩)
          ⟨v.root.volume, P.digest bytes⟩ rfl
        refine ⟨hg.le, hg.heads, hg.addressed ha hd, h.mono hg.le, hstore, rfl,
          by simpa using hnb, ?_, ?_⟩
        · intro hp
          by_contra hne
          exact hpk ⟨hp, by simpa [Std.ExtTreeMap.isEmpty_iff] using hne⟩
        · have hview := B''.view_healthy.baseChunk_of none hobj
          unfold Catalog.load
          simp only [hraw, bind, Except.bind, validHash, P.digest_length, beq_self_eq_true,
            Bool.true_eq_false, if_false, hview, hparse]

/-- The pages and chunks of an image, as a volume over the image finds them. -/
private theorem Exported.page_of (he : Exported P S B base w f) {p : ℕ} {hash : Hash}
    (hp : w.root.pages[p]? = some hash) :
    ∃ bytes, (B.objects ⟨true, base.image⟩)[hash]? = some bytes ∧ P.digest bytes = hash ∧
      Shaped w.root.size p false bytes ∧ storedPage P B w p = bytes := by
  have hpc := (he.holds.rootOk.pages_ok p hash hp).1
  have hunp : w.packed = false := by
    cases hk : w.packed with
    | false => rfl
    | true => rw [he.unpacked hk] at hp; simp at hp
  have hok := he.holds.page_eq hpc
  have hinh : w.inheritsPage p = false := by
    rw [inheritsPage, he.base_none]
    simp
  rw [IndexedVolume.page, hp, hinh] at hok
  obtain ⟨bytes, hobj, hdig, hs, heq⟩ := pageFrom_some hok
  simp only [Bool.false_eq_true, if_false] at hobj
  have hget := B.view_healthy.chunk hobj
  rw [he.space_eq] at hget
  rw [hunp] at hs
  refine ⟨bytes, hget, hdig, hs, ?_⟩
  simpa [hunp] using heq

private theorem Exported.chunk_of (he : Exported P S B base w f) {i : ℕ} (hi : i < w.chunkCount)
    {hash : Hash} (hs : slot (storedPage P B w (i / slots)) i = some hash)
    (ho : objectSlot (storedPage P B w (i / slots)) i = some (hash, 0)) :
    (B.objects ⟨true, base.image⟩)[hash]? = some (f i) ∧ P.digest (f i) = hash := by
  have hl := he.holds.loadFrom_stored hi
  have hdig := loadFrom_digest hs hl
  refine ⟨?_, hdig⟩
  simp only [loadFrom, hs, he.holds.basePage?_eq (div_slots_lt_pageCount hi), he.base_none,
    Option.map_none, ho, inheritsSlot, Option.any_none, Bool.false_eq_true, if_false] at hl
  cases hf : B.view.fetch w.space hash with
  | error e => simp [hf] at hl
  | ok bytes =>
    have hget := B.view_healthy.toSound.of_fetch hf
    rw [he.space_eq] at hget
    simp only [hf, extract, ne_eq, not_true_eq_false, decide_false, Bool.not_false,
      Bool.and_false, Bool.false_eq_true, if_false] at hl
    split at hl
    · cases hl
    · rw [hget, Except.ok.inj hl]

/-- A packed volume whose page map is that of an exported image shows the image. -/
theorem Exported.holds_over (he : Exported P S B base w f) (hv : RootOk v.root)
    (hsize : v.root.size = w.root.size) (hpages : v.root.pages = w.root.pages)
    (hbase : v.root.base = some base) (hcat : v.base = some ⟨w.root.size, w.root.pages⟩)
    (hk : v.packed = true) : Holds P S B v f := by
  have hcount : v.chunkCount = w.chunkCount := by rw [chunkCount, hsize, chunkCount]
  have hbound : ∀ {p : ℕ}, p < pageCount v.root.size → p < 256 ^ 8 := by
    intro p hp
    have := pageCount_le hv.size_le
    omega
  -- The base page of every range, and the slots in it.
  have hbp : ∀ p < pageCount v.root.size, ∃ bytes, Shaped v.root.size p false bytes ∧
      v.basePage P B.view p = .ok (packedPage bytes) ∧
      (∀ i, slot (storedPage P B w p) i = slot bytes i) ∧
      (∀ hash, w.root.pages[p]? = some hash →
        v.page P B.view p = .ok (packedPage bytes)) ∧
      (w.root.pages[p]? = none → ∀ i, slot bytes i = none) := by
    intro p hp
    cases hw : w.root.pages[p]? with
    | none =>
      have hse := shaped_emptyPage v.root.size false (hbound hp)
      have hnone := slot_of_drop hse (isZero_drop_emptyPage false p)
      refine ⟨emptyPage false p, hse, ?_, ?_, ?_, ?_⟩
      · simp [IndexedVolume.basePage, hcat, hw, pageFrom, hk]
      · intro i
        have hst : storedPage P B w p = emptyPage w.packed p := by
          simp [storedPage, IndexedVolume.page, hw, inheritsPage, pageFrom]
        rw [hst, hnone, slot_of_drop (shaped_emptyPage w.root.size w.packed (hbound hp))
          (isZero_drop_emptyPage w.packed p)]
      · intro hash hc
        cases hc
      · intro _
        exact hnone
    | some hash =>
      obtain ⟨bytes, hget, hdig, hs, hst⟩ := he.page_of hw
      have hview := B.view_healthy.baseChunk_of none hget
      rw [← hsize] at hs
      have hfrom : v.pageFrom P B.view p (some hash) true = .ok (packedPage bytes) := by
        have hshape := pageShape_iff.mpr hs
        simp only [pageFrom, if_true, hbase, hview, hdig, hk, Bool.not_true, Bool.and_false,
          hshape, and_self, Bool.and_self]
      refine ⟨bytes, hs, ?_, ?_, ?_, ?_⟩
      · rw [IndexedVolume.basePage, hcat, Option.bind_some, hw, hfrom]
      · intro i
        rw [hst]
      · intro hash' _
        have hinh : v.inheritsPage p = true := by
          rw [inheritsPage, hpages, hcat]
          simp [hw]
        rw [IndexedVolume.page, hpages, hw, hinh, hfrom]
      · intro hc
        cases hc
  -- A chunk of the base page is the image's chunk.
  have hchunk : ∀ i < v.chunkCount, ∀ hash, slot (storedPage P B w (i / slots)) i = some hash →
      (B.objects ⟨true, base.image⟩)[hash]? = some (f i) ∧ P.digest (f i) = hash := by
    intro i hi hash hs
    rw [hcount] at hi
    apply he.chunk_of hi hs
    have hp := div_slots_lt_pageCount hi
    cases hw : w.root.pages[i / slots]? with
    | none =>
      obtain ⟨bytes, -, -, hslots, -, hnone⟩ := hbp (i / slots) (by rw [hsize]; exact hp)
      rw [hslots, hnone hw] at hs
      cases hs
    | some h =>
      obtain ⟨bytes, -, -, hshape, hst⟩ := he.page_of hw
      rw [hst] at hs ⊢
      have hlen : (entryAt 32 bytes (i % slots)).length = 32 :=
        hshape.length_entry (Nat.mod_lt _ slots_pos)
      rw [hshape.slot_eq] at hs
      rw [hshape.objectSlot_eq]
      change entrySlot (entryAt 32 bytes (i % slots)) = some hash at hs
      change entryObject (entryAt 32 bytes (i % slots)) = some (hash, 0)
      rw [entryObject_short hlen, hs]
      rfl
  have hslotp : ∀ {p : ℕ} {bytes : Bytes}, Shaped v.root.size p false bytes → ∀ i,
      slot (packedPage bytes) i = slot bytes i ∧
        objectSlot (packedPage bytes) i = (slot bytes i).map (fun h => (h, 0)) := by
    intro p bytes hs i
    have hj : i % slots < slots := Nat.mod_lt _ slots_pos
    have hlen : (entryAt 32 bytes (i % slots)).length = 32 := hs.length_entry hj
    have hsp := shaped_packedPage hs
    rw [hsp.slot_eq, hsp.objectSlot_eq, hs.slot_eq, show pageWidth true = packSlotBytes from rfl,
      (packedPage_edits hs.length_eq hs.take_eq).entry_eq _ hj, entrySlot_directEntry hlen,
      entryObject_directEntry hlen]
    exact ⟨rfl, rfl⟩
  refine ⟨wellFormed_iff.mpr ⟨rfl, hv⟩, ?_, ?_, ?_, ?_, ?_⟩
  · rw [loadBase, hbase, hcat]
    simp [he.catalog, hsize]
  · intro i hi
    have hp := div_slots_lt_pageCount hi
    obtain ⟨bytes, hshape, hbpage, hslots, hpage, hnone⟩ := hbp (i / slots) hp
    obtain ⟨hsl, hob⟩ := hslotp hshape i
    have himg := he.holds.loadFrom_stored (i := i) (by rw [← hcount]; exact hi)
    cases hw : w.root.pages[i / slots]? with
    | none =>
      have hempty : v.page P B.view (i / slots) = .ok (emptyPage v.packed (i / slots)) := by
        simp [IndexedVolume.page, hpages, hw, inheritsPage, pageFrom]
      have hzero := slot_of_drop (shaped_emptyPage v.root.size v.packed (hbound hp))
        (isZero_drop_emptyPage v.packed (i / slots)) i
      rw [loadFrom, hslots, hnone hw] at himg
      simp only [loadStored, hempty, loadFrom, hzero]
      exact himg
    | some h =>
      simp only [loadStored, hpage h hw]
      cases hs : slot bytes i with
      | none =>
        rw [loadFrom, hslots, hs] at himg
        rw [loadFrom, hsl, hs]
        exact himg
      | some hash =>
        obtain ⟨hget, hdig⟩ := hchunk i hi hash (by rw [hslots]; exact hs)
        have hview := B.view_healthy.baseChunk_of (some (i * chunkBytes)) hget
        have hbq : v.basePage? P B.view (i / slots) = .ok (some (packedPage bytes)) := by
          rw [basePage?, hcat]
          simp [hbpage]
        have hinh : inheritsSlot (some (packedPage bytes)) (packedPage bytes) i hash = true := by
          simp [inheritsSlot, hsl, hs]
        have hlen := he.holds.length_eq (i := i) (by rw [← hcount]; exact hi)
        simp only [loadFrom, hsl, hs, hbq, hob, Option.map_some, hinh, if_true, hbase, hview,
          extract, Bool.not_true, Bool.false_and, Bool.false_eq_true, if_false, hlen, hdig,
          ne_eq, not_true_eq_false, or_self]
  · intro i hi
    exact he.holds.known i (by rw [← hcount]; exact hi)
  · intro p hp
    obtain ⟨bytes, -, hbpage, -⟩ := hbp p hp
    exact ⟨_, hbpage⟩
  · intro i hi pg hash b hpg hsl hb
    have hp := div_slots_lt_pageCount hi
    obtain ⟨bytes, hshape, hbpage, hslots, -, -⟩ := hbp (i / slots) hp
    rw [hbpage] at hpg
    obtain rfl := Except.ok.inj hpg
    rw [hbase] at hb
    obtain rfl := Option.some.inj hb
    rw [(hslotp hshape i).1, ← hslots] at hsl
    exact ⟨f i, (hchunk i hi hash hsl).1, he.holds.length_eq (by rw [← hcount]; exact hi)⟩

/-- A volume over an exported image starts with the image's contents. -/
theorem createFromBase_ok (he : Exported P S B base w f) {view : View} (hs : view.Sound B)
    {id : VolumeId} {d : Delivery}
    (hok : createFromBase P B view id base d = (B', .ok v)) :
    B'.objects = B.objects ∧ HeadOf P S B' v f ∧ v.dirty = ∅ ∧ v.poisoned = false ∧
      v.root.size = w.root.size ∧ v.root.ready = true ∧ v.store = .raw false := by
  unfold createFromBase at hok
  split at hok
  · simp at hok
  · rename_i hid
    cases hload : Catalog.load P view base with
    | error e => simp [hload] at hok
    | ok cat =>
      have hcat := (Catalog.load_mono (hs.le B.view_healthy) hload).symm.trans he.catalog
      obtain rfl := Except.ok.inj hcat
      simp only [hload] at hok
      split at hok
      · simp at hok
      · rename_i hj
        obtain ⟨-, rfl, rfl⟩ := createRoot_ok hok
        have hroot : RootOk ⟨10, id, w.root.size, 0, true, w.root.pages, none, some base⟩ := by
          have hw := he.holds.rootOk
          refine ⟨hw.size_pos, hw.size_le, hw.size_mod, by simp, by simp, by simp, ?_,
            hw.pages_ok⟩
          intro m hm
          cases hm
        have hle : B.Le (B.replace P ⟨false, id⟩
            (.root ⟨10, id, w.root.size, 0, true, w.root.pages, none, some base⟩)) :=
          Bucket.le_replace P B _ _
        exact ⟨rfl, ⟨Bucket.replace_heads_self ..,
          (he.mono hle).holds_over hroot rfl rfl rfl rfl rfl, by simpa using hid,
          fun i hi => by (cases hi), ⟨Nat.not_lt.mp hj, Nat.not_lt.mp hj⟩, P.tag_ne_empty _ _,
          fun i hi => by (cases hi)⟩, rfl, rfl, rfl, rfl, rfl⟩

end Images

end AgentHouse.Volume
