import AgentHouse.Volume.Contents

/-!
# Verified reads

Nothing that a store answers is trusted: pages, catalogs and chunks are checked against the digests
that name them. So a disk map alone decides what a read returns. Different answers, of a store that
deletes and gets objects meanwhile, lead to the same bytes or to an error.
-/

namespace AgentHouse.Volume

open IndexedVolume

variable {P : Platform} {S : Set Bytes} {view view' : View}

/-- The objects that are answered lie in `S`, with the chunks that can be cut out of packs. -/
structure View.Within (view : View) (S : Set Bytes) : Prop where
  chunk : ∀ {s h b}, view.chunk s h = .ok b → b ∈ S
  fetch : ∀ {s h b}, view.fetch s h = .ok b → b ∈ S
  part : ∀ {s h b} {o : ℕ}, b.length % chunkBytes = 0 → o + chunkBytes ≤ b.length →
    view.fetch s h = .ok b → slice b o chunkBytes ∈ S
  baseChunk : ∀ {image h o b}, view.baseChunk image h o = .ok b → b ∈ S

/-- What is extracted from a known object is known. -/
theorem View.Within.extract_mem (hw : view.Within S) {s : Space} {object hash : Hash} {o : ℕ}
    {inherited : Bool} {bytes c : Bytes} (hb : view.fetch s object = .ok bytes)
    (hok : IndexedVolume.extract P object hash o inherited bytes = .ok c) : c ∈ S := by
  unfold IndexedVolume.extract at hok
  split at hok
  · split at hok
    · cases hok
    · rename_i hchecks
      rw [← Except.ok.inj hok]
      exact hw.part (by omega) (by omega) hb
  · rw [← Except.ok.inj hok]
    exact hw.fetch hb

/-- A catalog has the digest that names it. -/
theorem Catalog.parse_digest {base : BaseRef} {raw bytes : Bytes} {c : Catalog}
    (hok : Catalog.parse P base raw bytes = .ok c) : P.digest bytes = base.catalog := by
  unfold Catalog.parse at hok
  split at hok
  · cases hok
  · rename_i h
    simp only [not_or, not_not] at h
    exact h.2.1

/-- How a catalog is loaded. -/
theorem Catalog.load_ok {base : BaseRef} {c : Catalog} (hok : Catalog.load P view base = .ok c) :
    ∃ raw bytes, decode base.image = .ok raw ∧
      view.baseChunk base.image base.catalog none = .ok bytes ∧
        Catalog.parse P base raw bytes = .ok c := by
  unfold Catalog.load at hok
  cases hraw : decode base.image with
  | error e => simp [hraw, bind, Except.bind] at hok
  | ok raw =>
    simp only [hraw, bind, Except.bind] at hok
    split at hok
    · cases hok
    · cases hb : view.baseChunk base.image base.catalog none with
      | error e => simp [hb] at hok
      | ok bytes =>
        simp only [hb] at hok
        exact ⟨raw, bytes, rfl, rfl, hok⟩

section Unique

variable (hideal : P.Ideal S) (hw : view.Within S) (hw' : view'.Within S)
include hideal hw hw'

/-- Two views load the same: a catalog. -/
theorem Catalog.load_unique {base : BaseRef} {c c' : Catalog}
    (hok : Catalog.load P view base = .ok c) (hok' : Catalog.load P view' base = .ok c') :
    c = c' := by
  obtain ⟨raw, bytes, hraw, hb, hparse⟩ := Catalog.load_ok hok
  obtain ⟨raw', bytes', hraw', hb', hparse'⟩ := Catalog.load_ok hok'
  have hbytes : bytes = bytes' := by
    apply hideal.inj (hw.baseChunk hb) (hw'.baseChunk hb')
    rw [Catalog.parse_digest hparse, Catalog.parse_digest hparse']
  rw [hraw] at hraw'
  obtain rfl := Except.ok.inj hraw'
  rw [← hbytes, hparse] at hparse'
  exact Except.ok.inj hparse'

/-- A base. -/
theorem loadBase_unique {r : Root} {base base' : Option Catalog}
    (hok : loadBase P view r = .ok base) (hok' : loadBase P view' r = .ok base') :
    base = base' := by
  unfold loadBase at hok hok'
  cases hr : r.base with
  | none =>
    simp only [hr] at hok hok'
    rw [← Except.ok.inj hok, ← Except.ok.inj hok']
  | some b =>
    simp only [hr] at hok hok'
    cases hc : Catalog.load P view b with
    | error e => simp [hc] at hok
    | ok c =>
      cases hc' : Catalog.load P view' b with
      | error e => simp [hc'] at hok'
      | ok c' =>
        obtain rfl := Catalog.load_unique hideal hw hw' hc hc'
        simp only [hc, hc'] at hok hok'
        rw [hok] at hok'
        exact Except.ok.inj hok'

namespace IndexedVolume

variable {v : IndexedVolume} {index : ℕ}

/-- A page. -/
theorem pageFrom_unique {hash : Option Hash} {base : Bool} {pg pg' : Bytes}
    (hok : v.pageFrom P view index hash base = .ok pg)
    (hok' : v.pageFrom P view' index hash base = .ok pg') : pg = pg' := by
  cases hash with
  | none =>
    have hsame : v.pageFrom P view index none base = v.pageFrom P view' index none base := rfl
    rw [hsame, hok'] at hok
    exact (Except.ok.inj hok).symm
  | some hash =>
    obtain ⟨bytes, hb, hd, -, rfl⟩ := pageFrom_some hok
    obtain ⟨bytes', hb', hd', -, rfl⟩ := pageFrom_some hok'
    have hbytes : bytes = bytes' := by
      have hdigest : P.digest bytes = P.digest bytes' := by rw [hd, hd']
      cases base with
      | false =>
        simp only [Bool.false_eq_true, if_false] at hb hb'
        exact hideal.inj (hw.chunk hb) (hw'.chunk hb') hdigest
      | true =>
        simp only [if_true] at hb hb'
        obtain ⟨b, -, hb⟩ := hb
        obtain ⟨b', -, hb'⟩ := hb'
        exact hideal.inj (hw.baseChunk hb) (hw'.baseChunk hb') hdigest
    rw [hbytes]

omit hideal hw' in
/-- A chunk is checked against its slot, wherever it comes from. -/
theorem loadFrom_digest {page c : Bytes} (hok : v.loadFrom P view page index = .ok c) :
    (slot page index = none ∧ c = zeros chunkBytes) ∨
      ∃ hash, slot page index = some hash ∧ P.digest c = hash ∧ c ∈ S := by
  unfold loadFrom at hok
  cases hs : slot page index with
  | none =>
    simp only [hs] at hok
    exact .inl ⟨rfl, (Except.ok.inj hok).symm⟩
  | some hash =>
    simp only [hs] at hok
    cases hb : v.basePage? P view (index / slots) with
    | error e => simp [hb] at hok
    | ok basePage =>
      simp only [hb] at hok
      cases ho : objectSlot page index with
      | none => simp [ho] at hok
      | some location =>
        obtain ⟨object, offset⟩ := location
        simp only [ho] at hok
        split at hok
        · cases hok
        · rename_i bytes hanswer
          split at hok
          · cases hok
          · rename_i chunk hextract
            split at hok
            · cases hok
            · rename_i hchecked
              simp only [not_or, not_not] at hchecked
              obtain rfl := Except.ok.inj hok
              refine .inr ⟨hash, rfl, hchecked.2, ?_⟩
              cases hi : inheritsSlot basePage page index hash with
              | true =>
                simp only [hi, if_true] at hanswer
                simp only [hi, extract, Bool.not_true, Bool.false_and, Bool.false_eq_true,
                  if_false] at hextract
                obtain rfl := Except.ok.inj hextract
                split at hanswer
                · cases hanswer
                · exact hw.baseChunk hanswer
              | false =>
                simp only [hi, Bool.false_eq_true, if_false] at hanswer
                exact hw.extract_mem hanswer hextract

/-- A chunk. -/
theorem load_unique {c c' : Bytes} (hok : v.load P view index = .ok c)
    (hok' : v.load P view' index = .ok c') : c = c' := by
  unfold load at hok hok'
  split at hok
  · rename_i b hd
    simp only [hd] at hok'
    rw [← Except.ok.inj hok, ← Except.ok.inj hok']
  · rename_i hd
    simp only [hd] at hok'
    cases hp : v.page P view (index / slots) with
    | error e => simp [hp] at hok
    | ok pg =>
      cases hp' : v.page P view' (index / slots) with
      | error e => simp [hp'] at hok'
      | ok pg' =>
        obtain rfl := pageFrom_unique hideal hw hw' hp hp'
        simp only [hp] at hok
        simp only [hp'] at hok'
        rcases loadFrom_digest hw hok with ⟨hslot, rfl⟩ | ⟨hash, hslot, hdigest, hc⟩
        · rcases loadFrom_digest hw' hok' with ⟨-, rfl⟩ | ⟨hash', hslot', -, -⟩
          · rfl
          · cases hslot.symm.trans hslot'
        · rcases loadFrom_digest hw' hok' with ⟨hslot', -⟩ | ⟨hash', hslot', hdigest', hc'⟩
          · cases hslot.symm.trans hslot'
          · have hhash : hash = hash' := Option.some.inj (hslot.symm.trans hslot')
            exact hideal.inj hc hc' (by rw [hdigest, hdigest', hhash])

end IndexedVolume

end Unique

/-- A read that succeeds puts together what the chunks are known to be. -/
theorem IndexedVolume.read_window {v : IndexedVolume} {g : ℕ → Bytes} (hroot : RootOk v.root)
    (hg : ∀ i < v.chunkCount, ∀ c, v.load P view i = .ok c → c = g i)
    (hlen : ∀ i < v.chunkCount, (g i).length = chunkBytes) {offset len : ℕ} {out : Bytes}
    (hok : v.read P view offset len = .ok out) :
    offset + len ≤ v.root.size ∧ out = window (flat chunkBytes g) offset len := by
  have hlt : ∀ x < v.root.size, x / chunkBytes < v.chunkCount := by
    intro x hx
    rw [chunkCount, Nat.div_lt_iff_lt_mul chunkBytes_pos,
      Nat.div_mul_cancel (Nat.dvd_of_mod_eq_zero hroot.size_mod)]
    exact hx
  unfold IndexedVolume.read at hok
  cases hc : v.check offset len with
  | error e => simp [hc] at hok
  | ok u =>
    simp only [hc] at hok
    split at hok
    · cases hok
    · have hr := (check_ok hc).2
      have hloads : ∀ s ∈ segments chunkBytes offset len 0, ∀ c,
          v.load P view s.index = .ok c → c = g s.index := by
        intro s hs c hload
        have hfit := segments_fits chunkBytes_pos offset len 0 s hs
        have hle := hfit.index_le.2
        have hcount := hfit.count_pos
        have hdone := hfit.done_count
        exact hg _ (lt_of_le_of_lt hle (hlt _ (by omega))) c hload
      refine ⟨hr, ?_⟩
      rw [gather_ok hok hloads]
      rcases Nat.eq_zero_or_pos len with rfl | hpos
      · simp [segments_zero, window]
      · exact flatMap_segments chunkBytes_pos offset len 0
          (fun i _ hi => hlen i (lt_of_le_of_lt hi (hlt _ (by omega))))

end AgentHouse.Volume
