import AgentHouse.Volume.Commit

/-!
# What loads depend on

Loads are monotone in the answers of the store and depend on a page only through the slot of
the chunk. A fetched page always has the layout that `page_from` checks, also when it was
inherited from an unpacked base and converted.
-/

namespace AgentHouse.Volume

section Mono

variable {P : Platform} {view view' : View}

/-- What one view answers, a better view answers too: a catalog. -/
theorem Catalog.load_mono (hle : view.Le view') {base : BaseRef} {c : Catalog}
    (hok : Catalog.load P view base = .ok c) : Catalog.load P view' base = .ok c := by
  unfold Catalog.load at hok ⊢
  cases hraw : decode base.image with
  | error e => simp [hraw, bind, Except.bind] at hok
  | ok raw =>
    simp only [hraw, bind, Except.bind] at hok ⊢
    split at hok
    · cases hok
    · rename_i hv
      rw [if_neg hv]
      cases hb : view.baseChunk base.image base.catalog none with
      | error e => simp [hb] at hok
      | ok bytes =>
        simp only [hb] at hok
        simp only [hle.baseChunk hb, hok]

/-- A base. -/
theorem loadBase_mono (hle : view.Le view') {r : Root} {base : Option Catalog}
    (hok : loadBase P view r = .ok base) : loadBase P view' r = .ok base := by
  unfold loadBase at hok ⊢
  cases hr : r.base with
  | none => simpa [hr] using hok
  | some b =>
    simp only [hr] at hok ⊢
    cases hc : Catalog.load P view b with
    | error e => simp [hc] at hok
    | ok c =>
      simp only [hc] at hok
      simpa only [Catalog.load_mono hle hc] using hok

/-- A root. -/
theorem decodeRoot_mono (hle : view.Le view') {store : Client} {id : VolumeId} {rev : Revision}
    {r : Root} {ready : Bool} {v : IndexedVolume}
    (hok : decodeRoot P view store id rev r ready = .ok v) :
    decodeRoot P view' store id rev r ready = .ok v := by
  unfold decodeRoot at hok ⊢
  split_ifs at hok ⊢
  cases hb : loadBase P view r with
  | error e => simp [hb] at hok
  | ok base =>
    simp only [hb] at hok
    simpa only [loadBase_mono hle hb] using hok

namespace IndexedVolume

variable {v : IndexedVolume}

/-- A page. -/
theorem pageFrom_mono (hle : view.Le view') {index : ℕ} {hash : Option Hash} {base : Bool}
    {pg : Bytes} (hok : v.pageFrom P view index hash base = .ok pg) :
    v.pageFrom P view' index hash base = .ok pg := by
  unfold pageFrom at hok ⊢
  cases hash with
  | none => exact hok
  | some hash =>
    cases base with
    | false =>
      simp only [Bool.false_eq_true, if_false] at hok ⊢
      cases hc : view.chunk v.space hash with
      | error e => simp [hc] at hok
      | ok bytes => simpa only [hc, hle.chunk hc] using hok
    | true =>
      simp only [if_true] at hok ⊢
      cases hb : v.root.base with
      | none => simp [hb] at hok
      | some b =>
        simp only [hb] at hok ⊢
        cases hc : view.baseChunk b.image hash none with
        | error e => simp [hc] at hok
        | ok bytes => simpa only [hc, hle.baseChunk hc] using hok

theorem page_mono (hle : view.Le view') {index : ℕ} {pg : Bytes}
    (hok : v.page P view index = .ok pg) : v.page P view' index = .ok pg :=
  pageFrom_mono hle hok

theorem basePage_mono (hle : view.Le view') {index : ℕ} {pg : Bytes}
    (hok : v.basePage P view index = .ok pg) : v.basePage P view' index = .ok pg :=
  pageFrom_mono hle hok

theorem basePage?_mono (hle : view.Le view') {index : ℕ} {pg : Option Bytes}
    (hok : v.basePage? P view index = .ok pg) : v.basePage? P view' index = .ok pg := by
  unfold basePage? at hok ⊢
  cases hb : v.base with
  | none => simpa [hb] using hok
  | some b =>
    simp only [hb] at hok ⊢
    cases hp : v.basePage P view index with
    | error e => simp [hp] at hok
    | ok p => simpa only [hp, basePage_mono hle hp] using hok

/-- A chunk of a page. -/
theorem loadFrom_mono (hle : view.Le view') {page : Bytes} {index : ℕ} {c : Bytes}
    (hok : v.loadFrom P view page index = .ok c) : v.loadFrom P view' page index = .ok c := by
  unfold loadFrom at hok ⊢
  cases hs : slot page index with
  | none => simpa [hs] using hok
  | some hash =>
    simp only [hs] at hok ⊢
    cases hb : v.basePage? P view (index / slots) with
    | error e => simp [hb] at hok
    | ok basePage =>
      simp only [hb] at hok
      simp only [basePage?_mono hle hb]
      cases ho : objectSlot page index with
      | none => simp [ho] at hok
      | some location =>
        obtain ⟨object, offset⟩ := location
        simp only [ho] at hok ⊢
        cases hi : inheritsSlot basePage page index hash with
        | false =>
          simp only [hi, Bool.false_eq_true, if_false] at hok ⊢
          cases hf : view.fetch v.space object with
          | error e => simp [hf] at hok
          | ok bytes => simpa only [hf, hle.fetch hf] using hok
        | true =>
          simp only [hi, if_true] at hok ⊢
          cases hr : v.root.base with
          | none => simp [hr] at hok
          | some b =>
            simp only [hr] at hok ⊢
            cases hc : view.baseChunk b.image hash (some (index * chunkBytes)) with
            | error e => simp [hc] at hok
            | ok bytes => simpa only [hc, hle.baseChunk hc] using hok

/-- `load` without the dirty map: what the store holds for a chunk. -/
def loadStored (P : Platform) (view : View) (v : IndexedVolume) (index : ℕ) : Result Bytes :=
  match v.page P view (index / slots) with
  | .error e => .error e
  | .ok page => v.loadFrom P view page index

/-- A dirty chunk is read from memory. -/
theorem load_of_dirty {index : ℕ} {b : Bytes} (h : v.dirty[index]? = some b) :
    v.load P view index = .ok b := by
  simp only [load, h]

/-- A clean one from the store. -/
theorem load_of_clean {index : ℕ} (h : v.dirty[index]? = none) :
    v.load P view index = v.loadStored P view index := by
  simp only [load, h]
  rfl

/-- A stored chunk comes from a page. -/
theorem loadStored_ok {index : ℕ} {c : Bytes} (h : v.loadStored P view index = .ok c) :
    ∃ page, v.page P view (index / slots) = .ok page ∧ v.loadFrom P view page index = .ok c := by
  unfold loadStored at h
  cases hp : v.page P view (index / slots) with
  | error e => simp [hp] at h
  | ok page => exact ⟨page, rfl, by simpa only [hp] using h⟩

/-- And there a better view answers the same. -/
theorem loadStored_mono (hle : view.Le view') {index : ℕ} {c : Bytes}
    (hok : v.loadStored P view index = .ok c) : v.loadStored P view' index = .ok c := by
  obtain ⟨page, hp, hl⟩ := loadStored_ok hok
  simp only [loadStored, page_mono hle hp, loadFrom_mono hle hl]

end IndexedVolume

end Mono

section Congruence

variable {P : Platform} {view : View}

/-- The parts of a handle that decide how pages and chunks are fetched. -/
structure IndexedVolume.SameSource (v v' : IndexedVolume) : Prop where
  packed : v'.packed = v.packed
  size : v'.root.size = v.root.size
  space : v'.space = v.space
  rootBase : v'.root.base = v.root.base
  base : v'.base = v.base

namespace IndexedVolume

variable {v v' : IndexedVolume}

/-- Volumes of one source read the same pages. -/
theorem SameSource.pageFrom (h : SameSource v v') (index : ℕ) (hash : Option Hash) (base : Bool) :
    v'.pageFrom P view index hash base = v.pageFrom P view index hash base := by
  unfold IndexedVolume.pageFrom
  rw [h.packed, h.size, h.space, h.rootBase]

theorem SameSource.basePage (h : SameSource v v') (index : ℕ) :
    v'.basePage P view index = v.basePage P view index := by
  unfold IndexedVolume.basePage
  rw [h.pageFrom, h.base]

theorem SameSource.basePage? (h : SameSource v v') (index : ℕ) :
    v'.basePage? P view index = v.basePage? P view index := by
  unfold IndexedVolume.basePage?
  rw [h.basePage, h.base]

theorem SameSource.loadFrom (h : SameSource v v') (page : Bytes) (index : ℕ) :
    v'.loadFrom P view page index = v.loadFrom P view page index := by
  unfold IndexedVolume.loadFrom
  rw [h.basePage?, h.space, h.rootBase]

/-- A page that the new disk map names by the same hash is the same page. -/
theorem SameSource.page (h : SameSource v v') {index : ℕ}
    (hp : v'.root.pages[index]? = v.root.pages[index]?) :
    v'.page P view index = v.page P view index := by
  unfold IndexedVolume.page inheritsPage
  rw [h.pageFrom, h.base, hp]

/-- A load sees a page only through the slot of the chunk. -/
theorem loadFrom_congr {page page' : Bytes} {index : ℕ} (hs : slot page' index = slot page index)
    (ho : objectSlot page' index = objectSlot page index) :
    v.loadFrom P view page' index = v.loadFrom P view page index := by
  unfold loadFrom inheritsSlot
  rw [hs, ho]

end IndexedVolume

end Congruence

end AgentHouse.Volume
