import AgentHouse.Volume.Packing

/-!
# Plans

From the rewritten pages a commit derives the new page map and the objects to upload. A page
becomes a hole, is inherited from the base again, keeps its hash or is stored as a new
object. `Planned` states what a plan promises: with its objects in the bucket, every chunk of
a handle on the new page map loads as the committing handle shows it.
-/

namespace AgentHouse.Volume

open IndexedVolume

section Placing

variable {P : Platform} {S : Set Bytes} {B B' : Bucket} {v v' : IndexedVolume} {f : ℕ → Bytes}

/-- What a plan makes of one rewritten page `pg`: its entry in the new page map. -/
inductive Placed (P : Platform) (B : Bucket) (v : IndexedVolume) (stored : Hash → Bytes → Prop)
    (p : ℕ) (pg : Bytes) : Option Hash → Prop
  | hole (hz : isZero (pg.drop 16) = true) : Placed P B v stored p pg none
  | inherited {c : Catalog} {h : Hash} (hk : v.packed = true) (hc : v.base = some c)
      (hp : c.pages[p]? = some h) (hpg : pg = storedBase P B v p) :
      Placed P B v stored p pg (some h)
  | own (hw : v.root.pages[p]? = some (P.digest pg) ∨
      (v.packed = false ∧ ∃ c, v.base = some c ∧ c.pages[p]? = some (P.digest pg)) ∨
      stored (P.digest pg) pg) : Placed P B v stored p pg (some (P.digest pg))

/-- What is placed stays so when more is stored. -/
theorem Placed.imp {stored stored' : Hash → Bytes → Prop} {p : ℕ} {pg : Bytes} {h : Option Hash}
    (hp : Placed P B v stored p pg h) (himp : ∀ h b, stored h b → stored' h b) :
    Placed P B v stored' p pg h := by
  cases hp with
  | hole hz => exact .hole hz
  | inherited hk hc hp hpg => exact .inherited hk hc hp hpg
  | own hw => exact .own (hw.imp id (Or.imp id (himp _ _)))

/-- The page that a handle with a new page map sees agrees slot by slot with `pg`. -/
def SeesPage (P : Platform) (B : Bucket) (v : IndexedVolume) (p : ℕ) (pg : Bytes) : Prop :=
  ∃ pg', v.page P B.view p = .ok pg' ∧ ∀ i, i / slots = p →
    slot pg' i = slot pg i ∧ objectSlot pg' i = objectSlot pg i

/-- A page of zeros names nothing. -/
theorem slot_of_drop {size index : ℕ} {packed : Bool} {pg : Bytes}
    (hs : Shaped size index packed pg) (hz : isZero (pg.drop 16) = true) (i : ℕ) :
    slot pg i = none := by
  rw [hs.slot_eq]
  exact entrySlot_of_isZero
    (isZero_entry_of_drop (pageWidth_pos packed) hz (Nat.mod_lt _ slots_pos))

theorem objectSlot_of_slot {pg : Bytes} {i : ℕ} (h : slot pg i = none) :
    objectSlot pg i = none := by
  simp only [objectSlot, h]

theorem isZero_drop_emptyPage (packed : Bool) (index : ℕ) :
    isZero ((emptyPage packed index).drop 16) = true := by
  have hh : (pageMagic packed ++ beBytes 8 index).length = 16 := by
    simp [length_pageMagic]
  rw [emptyPage, List.drop_append, List.drop_eq_nil_of_le (by omega), hh, List.nil_append,
    Nat.sub_self, List.drop_zero]
  exact isZero_zeros _

/-- A page hash that is a digest of a known page leads to that page. -/
private theorem page_of_digest (h : Holds P S B v f) (hideal : P.Ideal S) (hle : B.Le B')
    (ha : Addressed P S B') (hsrc : SameSource v v') {p : ℕ} (hp : p < pageCount v.root.size)
    {pg : Bytes} (hS : pg ∈ S) (hshape : Shaped v.root.size p v.packed pg)
    (hpages : v'.root.pages[p]? = some (P.digest pg))
    (hw : v.root.pages[p]? = some (P.digest pg) ∨
      (v.packed = false ∧ ∃ c, v.base = some c ∧ c.pages[p]? = some (P.digest pg)) ∨
      (B'.objects v.space)[P.digest pg]? = some pg) :
    v'.page P B'.view p = .ok pg := by
  have h' := h.mono hle
  rw [IndexedVolume.page, hsrc.pageFrom, hpages]
  cases hinh : v'.inheritsPage p with
  | true =>
    -- The base has a page of this digest; it is unpacked, so the volume must be too.
    have hbase : v.base.bind (fun c => c.pages[p]?) = some (P.digest pg) := by
      rw [inheritsPage, hpages, hsrc.base] at hinh
      cases hc : v.base with
      | none => simp [hc] at hinh
      | some c => simpa [hc] using hinh
    have hok := h'.basePage_eq hp
    rw [IndexedVolume.basePage, hbase] at hok
    obtain ⟨bytes, hobj, hdig, hs, heq⟩ := pageFrom_some hok
    simp only [if_true] at hobj
    obtain ⟨b, -, hview⟩ := hobj
    have hmem := (ha _ _ _ (B'.view_healthy.baseChunk hview)).2
    obtain rfl := hideal.inj hmem hS hdig
    cases hk : v.packed with
    | false =>
      rw [hk] at heq
      rw [hok, heq]
      rfl
    | true =>
      exfalso
      have h1 := hs.length_eq
      have h2 := hshape.length_eq
      rw [h1, hk] at h2
      revert h2
      decide
  | false =>
    have hobj : (B'.objects v.space)[P.digest pg]? = some pg := by
      rcases hw with hw | ⟨-, c, hc, hcp⟩ | hw
      · have hok := h'.page_eq hp
        have hninh : v.inheritsPage p = false := by
          rw [inheritsPage, hpages, hsrc.base] at hinh
          rw [inheritsPage, hw]
          exact hinh
        rw [IndexedVolume.page, hw, hninh] at hok
        obtain ⟨bytes, hchunk, hdig, -, -⟩ := pageFrom_some hok
        simp only [Bool.false_eq_true, if_false] at hchunk
        have hget := B'.view_healthy.chunk hchunk
        rwa [hideal.inj (ha _ _ _ hget).2 hS hdig] at hget
      · rw [inheritsPage, hpages, hsrc.base, hc] at hinh
        simp [hcp] at hinh
      · exact hw
    exact pageFrom_private (B'.view_healthy.chunk_of hobj) rfl hshape

/-- A placed page is seen through the new page map. -/
theorem Placed.sees (h : Holds P S B v f) (hideal : P.Ideal S) (hle : B.Le B')
    (ha : Addressed P S B') (hsrc : SameSource v v') {p : ℕ} (hp : p < pageCount v.root.size)
    {pg : Bytes} (hS : pg ∈ S) (hshape : Shaped v.root.size p v.packed pg)
    (hpl : Placed P B v (fun h b => (B'.objects v.space)[h]? = some b) p pg (v'.root.pages[p]?)) :
    SeesPage P B' v' p pg := by
  generalize hroot : v'.root.pages[p]? = entry at hpl
  cases hpl with
  | hole hz =>
    have hempty : v'.page P B'.view p = .ok (emptyPage v.packed p) := by
      rw [IndexedVolume.page, hsrc.pageFrom, inheritsPage, hroot]
      simp [pageFrom]
    refine ⟨_, hempty, fun i _ => ?_⟩
    have h1 := slot_of_drop (shaped_emptyPage v.root.size v.packed (h.page_bound hp))
      (isZero_drop_emptyPage v.packed p) i
    have h2 := slot_of_drop hshape hz i
    rw [h1, h2, objectSlot_of_slot h1, objectSlot_of_slot h2]
    exact ⟨rfl, rfl⟩
  | inherited hk hc hcp hpg =>
    refine ⟨pg, ?_, fun _ _ => ⟨rfl, rfl⟩⟩
    have hinh : v'.inheritsPage p = true := by
      rw [inheritsPage, hroot, hsrc.base, hc]
      simp [hcp]
    have hok := (h.mono hle).basePage_eq hp
    rw [IndexedVolume.basePage, hc, Option.bind_some, hcp] at hok
    rw [IndexedVolume.page, hsrc.pageFrom, hroot, hinh, hok, hpg, h.storedBase_mono hle hp]
  | own hw =>
    exact ⟨pg, page_of_digest h hideal hle ha hsrc hp hS hshape hroot hw, fun _ _ => ⟨rfl, rfl⟩⟩

/-- The hash under which a page is placed is a hash. -/
theorem Placed.length_hash (h : Holds P S B v f) {stored : Hash → Bytes → Prop} {p : ℕ}
    (hp : p < pageCount v.root.size) {pg : Bytes} {hash : Hash}
    (hpl : Placed P B v stored p pg (some hash)) : hash.length = 32 := by
  generalize hentry : some hash = entry at hpl
  cases hpl with
  | hole hz => cases hentry
  | inherited hk hc hcp hpg =>
    obtain rfl := Option.some.inj hentry
    have hok := h.basePage_eq hp
    rw [IndexedVolume.basePage, hc, Option.bind_some, hcp] at hok
    obtain ⟨bytes, -, hdig, -, -⟩ := pageFrom_some hok
    rw [← hdig, P.digest_length]
  | own hw =>
    obtain rfl := Option.some.inj hentry
    exact P.digest_length _

end Placing

section Planned

variable {P : Platform} {S : Set Bytes} {B B' : Bucket} {v v' : IndexedVolume} {f : ℕ → Bytes}

/-- What a plan promises. -/
structure Planned (P : Platform) (S : Set Bytes) (B : Bucket) (v : IndexedVolume)
    (f : ℕ → Bytes) (pages : BTreeMap ℕ Hash) (uploads : List (Hash × Bytes)) : Prop where
  digests : Digests P S uploads
  pages_ok : ∀ (p : ℕ) (h : Hash), pages[p]? = some h → p < pageCount v.root.size ∧ h.length = 32
  loads : ∀ {B' v'}, B.Le B' → Addressed P S B' → Stores B' v.space uploads → SameSource v v' →
    v'.root.pages = pages → ∀ i < v.chunkCount, v'.loadStored P B'.view i = .ok (v.over f i)

/-- A page map that places every rewritten page and keeps every other one is a plan. -/
theorem Rewritten.planned {pages : BTreeMap ℕ Bytes} {new : List (Hash × Bytes)}
    (hr : Rewritten P S B v f pages new) (h : Holds P S B v f) (hideal : P.Ideal S)
    (hS : ∀ (p : ℕ) (pg : Bytes), pages[p]? = some pg → pg ∈ S)
    {map : BTreeMap ℕ Hash} {uploads : List (Hash × Bytes)} (hd : Digests P S uploads)
    (hnew : ∀ o ∈ new, o ∈ uploads)
    (hset : ∀ (p : ℕ) (pg : Bytes), pages[p]? = some pg →
      Placed P B v (fun h b => (h, b) ∈ uploads) p pg (map[p]?))
    (hkeep : ∀ (p : ℕ), pages[p]? = none → map[p]? = v.root.pages[p]?) :
    Planned P S B v f map uploads := by
  refine ⟨hd, ?_, ?_⟩
  · intro p hash hp
    cases hpg : pages[p]? with
    | none =>
      rw [hkeep p hpg] at hp
      exact h.rootOk.pages_ok p hash hp
    | some pg =>
      have hb := hr.working.bound hpg
      have hpl := hset p pg hpg
      rw [hp] at hpl
      exact ⟨hb, hpl.length_hash h hb⟩
  · intro B' v' hle ha hst hsrc hmap i hi
    have hp := div_slots_lt_pageCount hi
    have hsees : SeesPage P B' v' (i / slots) (current P B v pages (i / slots)) := by
      cases hpg : pages[i / slots]? with
      | none =>
        refine ⟨storedPage P B v (i / slots), ?_, ?_⟩
        · rw [hsrc.page (by rw [hmap]; exact hkeep _ hpg)]
          exact page_mono hle.view (h.page_eq hp)
        · intro k _
          simp [current, hpg]
      | some pg =>
        have hcur : current P B v pages (i / slots) = pg := by simp [current, hpg]
        have hshape := hr.shaped _ hp
        rw [hcur] at hshape ⊢
        apply Placed.sees h hideal hle ha hsrc hp (hS _ _ hpg) hshape
        rw [hmap]
        exact (hset _ _ hpg).imp (fun h b hmem => hst (h, b) hmem)
    obtain ⟨pg', hok, hslots⟩ := hsees
    obtain ⟨hs, ho⟩ := hslots i rfl
    have hlead := hr.leads B' hle ha (fun o ho => hst o (hnew o ho)) i hi pg'
      (by rw [hs, hr.working.slot_eq h hi]) (by rw [ho, hr.working.objectSlot_eq h hi])
    rw [loadStored, hok]
    simp only [hsrc.loadFrom, hlead]

/-- The byte strings that a commit digests: dirty chunks, rewritten pages and packs. -/
def IndexedVolume.hashed (P : Platform) (view : View) (v : IndexedVolume) (force : Bool) :
    List Bytes :=
  v.dirty.toList.map Prod.snd ++
    if v.packed then
      match v.rewritePacked P view force with
      | .ok (staged, pages) =>
        pages.toList.map Prod.snd ++ (packs P staged.chunks).map Prod.snd
      | .error _ => []
    else
      match v.rewriteUnpacked P view with
      | .ok (pages, _) => pages.toList.map Prod.snd
      | .error _ => []

/-- The dirty chunks are among the digested byte strings. -/
theorem dirty_known {view : View} {force : Bool}
    (hS : ∀ b ∈ v.hashed P view force, b ∈ S) (i : ℕ) (b : Bytes) (hb : v.dirty[i]? = some b) :
    b ∈ S := by
  apply hS
  apply List.mem_append_left
  exact List.mem_map.mpr ⟨(i, b), Std.ExtTreeMap.mem_toList_iff_getElem?_eq_some.mpr hb, rfl⟩

/-- A plan without packs places every chunk. -/
theorem planUnpacked_ok (h : Holds P S B v f) (hideal : P.Ideal S) (hk : v.packed = false)
    (hd : DirtyOk v) {view : View} (hs : view.Sound B) {force : Bool}
    (hS : ∀ b ∈ v.hashed P view force, b ∈ S) {map : BTreeMap ℕ Hash}
    {uploads : List (Hash × Bytes)} (hok : v.planUnpacked P view = .ok (map, uploads)) :
    Planned P S B v f map uploads := by
  unfold planUnpacked at hok
  cases hrw : v.rewriteUnpacked P view with
  | error e => simp [hrw] at hok
  | ok result =>
    obtain ⟨pages, new⟩ := result
    simp only [hrw] at hok
    obtain ⟨rfl, rfl⟩ := Prod.mk.inj (Except.ok.inj hok)
    obtain ⟨hr, hu⟩ := rewriteUnpacked_ok h hideal hk hd (dirty_known hS) hs hrw
    have hSp : ∀ (p : ℕ) (pg : Bytes), pages[p]? = some pg → pg ∈ S := by
      intro p pg hpg
      apply hS
      simp only [hashed, hk, Bool.false_eq_true, if_false, hrw]
      apply List.mem_append_right
      exact List.mem_map.mpr
        ⟨(p, pg), Std.ExtTreeMap.mem_toList_iff_getElem?_eq_some.mpr hpg, rfl⟩
    obtain ⟨⟨hu', hsub⟩, hset, hkeep⟩ := foldl_toList_rule (m := pages)
      (f := v.placeUnpacked P) (z := (v.root.pages, new))
      (fun acc => UploadsOk P S acc.2 ∧ ∀ (h : Hash) (b : Bytes), new[h]? = some b →
        acc.2[h]? = some b)
      (fun acc p => acc.1[p]? = v.root.pages[p]?)
      (fun acc p pg => Placed P B v (fun h b => acc.2[h]? = some b) p pg (acc.1[p]?))
      ⟨hu, fun _ _ hc => hc⟩ (fun _ => rfl) (by
        rintro ⟨map, up⟩ p pg ⟨hu, hsub⟩ hpg hfr
        simp only at hu hsub hfr
        have hins : ∀ (h : Hash) (b : Bytes), up[h]? = some b →
            (up.insert (P.digest pg) pg)[h]? = some b := by
          intro h b hb
          rw [Std.ExtTreeMap.getElem?_insert]
          split
          · rename_i heq
            obtain ⟨hdb, hmb⟩ := hu h b hb
            rw [hideal.inj (hSp p pg hpg) hmb
              ((Std.LawfulEqCmp.eq_of_compare heq).trans hdb.symm)]
          · exact hb
        have huins : UploadsOk P S (up.insert (P.digest pg) pg) := by
          intro h b hb
          rw [Std.ExtTreeMap.getElem?_insert] at hb
          split at hb
          · rename_i heq
            rw [← Option.some.inj hb]
            exact ⟨Std.LawfulEqCmp.eq_of_compare heq, hSp p pg hpg⟩
          · exact hu h b hb
        have hne : ∀ {p' : ℕ}, p' ≠ p → ¬ compare p p' = .eq := by
          intro p' hp' heq
          exact hp' (Std.LawfulEqCmp.eq_of_compare heq).symm
        unfold placeUnpacked
        simp only
        split
        · rename_i hz
          refine ⟨⟨hu, hsub⟩, ?_, ?_, ?_⟩
          · rw [Std.ExtTreeMap.getElem?_erase_self]
            exact .hole hz
          · intro p' hp' hfr'
            rw [Std.ExtTreeMap.getElem?_erase, if_neg (hne hp')]
            exact hfr'
          · intro p' pg' hp' hpl
            rw [Std.ExtTreeMap.getElem?_erase, if_neg (hne hp')]
            exact hpl
        · split
          · rename_i hsame
            refine ⟨⟨hu, hsub⟩, ?_, fun _ _ hfr' => hfr', fun _ _ _ hpl => hpl⟩
            rw [hfr, hsame]
            exact .own (Or.inl hsame)
          · refine ⟨?_, ?_, ?_, ?_⟩
            · split
              · exact ⟨hu, hsub⟩
              · exact ⟨huins, fun h b hb => hins h b (hsub h b hb)⟩
            · rw [Std.ExtTreeMap.getElem?_insert_self]
              apply Placed.own
              right
              split
              · rename_i hany
                left
                cases hc : v.base with
                | none => simp [hc] at hany
                | some c => exact ⟨hk, c, rfl, by simpa [hc] using hany⟩
              · right
                exact Std.ExtTreeMap.getElem?_insert_self
            · intro p' hp' hfr'
              rw [Std.ExtTreeMap.getElem?_insert, if_neg (hne hp')]
              exact hfr'
            · intro p' pg' hp' hpl
              rw [Std.ExtTreeMap.getElem?_insert, if_neg (hne hp')]
              split
              · exact hpl
              · exact hpl.imp hins)
    refine hr.planned h hideal hSp ?_ ?_ ?_ hkeep
    · rintro ⟨d, b⟩ hmem
      exact hu' d b (Std.ExtTreeMap.mem_toList_iff_getElem?_eq_some.mp hmem)
    · rintro ⟨d, b⟩ hmem
      rw [Std.ExtTreeMap.mem_toList_iff_getElem?_eq_some] at hmem ⊢
      exact hsub d b hmem
    · intro p pg hpg
      exact (hset p pg hpg).imp
        (fun d b hb => Std.ExtTreeMap.mem_toList_iff_getElem?_eq_some.mpr hb)

/-- So does one with packs. -/
theorem planPacked_ok (h : Holds P S B v f) (hideal : P.Ideal S) (ha : Addressed P S B)
    (hk : v.packed = true) (hd : DirtyOk v) {view : View} (hs : view.Sound B) {force : Bool}
    (hS : ∀ b ∈ v.hashed P view force, b ∈ S) {map : BTreeMap ℕ Hash}
    {uploads : List (Hash × Bytes)} (hok : v.planPacked P view force = .ok (map, uploads)) :
    Planned P S B v f map uploads := by
  unfold planPacked at hok
  cases hrw : v.rewritePacked P view force with
  | error e => simp [hrw] at hok
  | ok result =>
    obtain ⟨staged, pages⟩ := result
    simp only [hrw] at hok
    have hSp : ∀ (p : ℕ) (pg : Bytes), pages[p]? = some pg → pg ∈ S := by
      intro p pg hpg
      apply hS
      simp only [hashed, hk, if_true, hrw]
      apply List.mem_append_right
      apply List.mem_append_left
      exact List.mem_map.mpr
        ⟨(p, pg), Std.ExtTreeMap.mem_toList_iff_getElem?_eq_some.mpr hpg, rfl⟩
    have hSq : ∀ o ∈ packs P staged.chunks, o.2 ∈ S := by
      intro o ho
      apply hS
      simp only [hashed, hk, if_true, hrw]
      apply List.mem_append_right
      apply List.mem_append_right
      exact List.mem_map.mpr ⟨o, ho, rfl⟩
    obtain ⟨hr, hbases⟩ := rewritePacked_ok h hideal ha hk hd (dirty_known hS) hs hSq hrw
    obtain ⟨⟨hdig, hsub⟩, hset, hkeep⟩ := foldl_toList_rule (m := pages)
      (f := v.placePacked P staged.basePages) (z := (v.root.pages, packs P staged.chunks))
      (fun acc => Digests P S acc.2 ∧ ∀ o ∈ packs P staged.chunks, o ∈ acc.2)
      (fun acc p => acc.1[p]? = v.root.pages[p]?)
      (fun acc p pg => Placed P B v (fun h b => (h, b) ∈ acc.2) p pg (acc.1[p]?))
      ⟨hr.digests, fun _ ho => ho⟩ (fun _ => rfl) (by
        rintro ⟨map, up⟩ p pg ⟨hdig, hsub⟩ hpg hfr
        simp only at hdig hsub hfr
        have hne : ∀ {p' : ℕ}, p' ≠ p → ¬ compare p p' = .eq := by
          intro p' hp' heq
          exact hp' (Std.LawfulEqCmp.eq_of_compare heq).symm
        have hdig' : Digests P S (up ++ [(P.digest pg, pg)]) := by
          intro o ho
          rcases List.mem_append.mp ho with ho | ho
          · exact hdig o ho
          · rw [List.mem_singleton.mp ho]
            exact ⟨rfl, hSp p pg hpg⟩
        -- The page is stored as an object of its own, unless the map has its hash already.
        have hown : ∀ {acc : BTreeMap ℕ Hash × List (Hash × Bytes)},
            acc = (if v.root.pages[p]? = some (P.digest pg) then (map, up)
              else (map.insert p (P.digest pg), up ++ [(P.digest pg, pg)])) →
            (Digests P S acc.2 ∧ ∀ o ∈ packs P staged.chunks, o ∈ acc.2) ∧
              Placed P B v (fun h b => (h, b) ∈ acc.2) p pg (acc.1[p]?) ∧
              (∀ p', p' ≠ p → map[p']? = v.root.pages[p']? → acc.1[p']? = v.root.pages[p']?) ∧
              ∀ p' pg', p' ≠ p → Placed P B v (fun h b => (h, b) ∈ up) p' pg' (map[p']?) →
                Placed P B v (fun h b => (h, b) ∈ acc.2) p' pg' (acc.1[p']?) := by
          rintro acc rfl
          split
          · rename_i hsame
            refine ⟨⟨hdig, hsub⟩, ?_, fun _ _ hfr' => hfr', fun _ _ _ hpl => hpl⟩
            simp only
            rw [hfr, hsame]
            exact .own (Or.inl hsame)
          · refine ⟨⟨hdig', fun o ho => List.mem_append_left _ (hsub o ho)⟩, ?_, ?_, ?_⟩
            · simp only
              rw [Std.ExtTreeMap.getElem?_insert_self]
              exact .own (Or.inr (Or.inr (by simp)))
            · intro p' hp' hfr'
              simp only
              rw [Std.ExtTreeMap.getElem?_insert, if_neg (hne hp')]
              exact hfr'
            · intro p' pg' hp' hpl
              simp only
              rw [Std.ExtTreeMap.getElem?_insert, if_neg (hne hp')]
              exact hpl.imp (fun d b hmem => List.mem_append_left _ hmem)
        unfold placePacked
        simp only
        split
        · rename_i hz
          refine ⟨⟨hdig, hsub⟩, ?_, ?_, ?_⟩
          · rw [Std.ExtTreeMap.getElem?_erase_self]
            exact .hole hz
          · intro p' hp' hfr'
            rw [Std.ExtTreeMap.getElem?_erase, if_neg (hne hp')]
            exact hfr'
          · intro p' pg' hp' hpl
            rw [Std.ExtTreeMap.getElem?_erase, if_neg (hne hp')]
            exact hpl
        · split
          · rename_i inh hinh
            split
            · rename_i hbp
              obtain ⟨c, hc, hcp⟩ := Option.bind_eq_some_iff.mp hinh
              refine ⟨⟨hdig, hsub⟩, ?_, ?_, ?_⟩
              · rw [Std.ExtTreeMap.getElem?_insert_self]
                exact .inherited hk hc hcp (hbases hbp)
              · intro p' hp' hfr'
                rw [Std.ExtTreeMap.getElem?_insert, if_neg (hne hp')]
                exact hfr'
              · intro p' pg' hp' hpl
                rw [Std.ExtTreeMap.getElem?_insert, if_neg (hne hp')]
                exact hpl
            · exact hown rfl
          · exact hown rfl)
    rw [Except.ok.inj hok] at hdig hsub hset hkeep
    exact hr.planned h hideal hSp hdig hsub hset hkeep

/-- Both commit paths plan what the handle shows. -/
theorem plan_ok (h : Holds P S B v f) (hideal : P.Ideal S) (ha : Addressed P S B) (hd : DirtyOk v)
    {view : View} (hs : view.Sound B) {force : Bool} (hS : ∀ b ∈ v.hashed P view force, b ∈ S)
    {map : BTreeMap ℕ Hash} {uploads : List (Hash × Bytes)}
    (hok : v.plan P view force = .ok (map, uploads)) : Planned P S B v f map uploads := by
  unfold IndexedVolume.plan at hok
  cases hk : v.packed with
  | false =>
    simp only [hk, Bool.false_eq_true, if_false] at hok
    exact planUnpacked_ok h hideal hk hd hs hS hok
  | true =>
    simp only [hk, if_true] at hok
    exact planPacked_ok h hideal ha hk hd hs hS hok

end Planned

end AgentHouse.Volume
