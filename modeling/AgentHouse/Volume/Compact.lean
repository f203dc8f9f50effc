import AgentHouse.Volume.Opening

/-!
# Repacking index pages

`compact_packs` copies the live chunks of sparsely used packs into new packs, one index page
at a time, and publishes the page with its new locations. The chunks pass through the dirty
map, each with the contents it already has, so what the volume stores does not change.
-/

namespace AgentHouse.Volume

/-- Where the compaction goes on. -/
structure CompactionCursor where
  page : ℕ
  afterPack : Option Hash
  deriving DecidableEq

/-- What a compaction did. -/
structure Compaction where
  rewrittenBlocks : ℕ
  nextPage : Option CompactionCursor
  deriving DecidableEq

/-- A slot that lies in a pack. -/
structure Member where
  index : ℕ
  offset : ℕ
  chunk : Hash

/-- The state of the loop over the packs of a page. -/
structure Repack where
  consumed : ℕ
  completedPack : Option Hash
  nextCursor : Option CompactionCursor
  dirty : BTreeMap ℕ Bytes

namespace IndexedVolume

/-- The slots of a page that lie in packs, grouped by pack. -/
def packGroups (page : Bytes) (pageIndex : ℕ) : Result (BTreeMap Hash (List Member)) :=
  (List.range slots).foldlM (fun groups within =>
    let index := pageIndex * slots + within
    match objectSlot page index with
    | none => .ok groups
    | some (pack, offset) =>
      match slot page index with
      | none => .error .corrupt
      | some chunk =>
        if pack = chunk then .ok groups
        else .ok (groups.insert pack ((groups[pack]?).getD [] ++ [⟨index, offset, chunk⟩]))) ∅

/-- The chunk of a member, cut out of its pack. -/
def Member.bytes (m : Member) (pack : Bytes) : Bytes := slice pack m.offset chunkBytes

/-- Stage the chunks of one pack, as many as the budget allows. -/
def stageMembers (pack : Bytes) (dirty : BTreeMap ℕ Bytes) (members : List Member) :
    BTreeMap ℕ Bytes :=
  members.foldl (fun dirty m => dirty.insert m.index (Member.bytes m pack)) dirty

/-- The loop over the packs of a page. The worst-case input is reserved before a pack is
read, a pack that is used in full is left alone, and a pack that does not fit is resumed by
the next pass. -/
def repack (P : Platform) (view : View) (v : IndexedVolume) (budget page : ℕ)
    (resume : Option Hash) : List (Hash × List Member) → Repack → Result Repack
  | [], acc => .ok acc
  | (pack, members) :: rest, acc =>
    if resume.any (fun hash => (compare pack hash).isLE) then
      v.repack P view budget page resume rest acc
    else if acc.consumed + maxObjectBytes + chunkBytes > budget then
      .ok { acc with nextCursor := some ⟨page, acc.completedPack⟩ }
    else
      match view.chunk v.space pack with
      | .error e => .error e
      | .ok bytes =>
        if bytes.length > maxObjectBytes ∨ bytes.length % chunkBytes ≠ 0 ∨ P.digest bytes ≠ pack ∨
            bytes.length < chunkBytes then .error .corrupt
        else if members.any (fun m => decide (m.offset + chunkBytes > bytes.length) ||
            decide (P.digest (Member.bytes m bytes) ≠ m.chunk)) then .error .corrupt
        else
          let consumed := acc.consumed + bytes.length
          if (members.map Member.offset).dedup.length * chunkBytes ≥ bytes.length then
            v.repack P view budget page resume rest
              { acc with consumed := consumed, completedPack := some pack }
          else
            let available := (budget - consumed) / chunkBytes
            let staged : Repack := { acc with
              consumed := consumed + (members.take available).length * chunkBytes
              dirty := stageMembers bytes acc.dirty (members.take available) }
            if members.length > available then
              .ok { staged with nextCursor := some ⟨page, acc.completedPack⟩ }
            else v.repack P view budget page resume rest { staged with completedPack := some pack }

/-- The first page at or after the cursor. -/
def pageFromCursor (v : IndexedVolume) (after : Option CompactionCursor) : Option ℕ :=
  v.root.pages.keys.find? (fun index => after.all (fun cursor => decide (index ≥ cursor.page)))

/-- The chunks that a pass over one page stages, and where the next pass resumes. -/
def stageCompaction (P : Platform) (view : View) (v : IndexedVolume)
    (after : Option CompactionCursor) (budget pageIndex : ℕ) : Result Repack :=
  match v.page P view pageIndex with
  | .error e => .error e
  | .ok page =>
    match packGroups page pageIndex with
    | .error e => .error e
    | .ok groups =>
      let resume := (after.filter (fun cursor => cursor.page == pageIndex)).bind (·.afterPack)
      v.repack P view budget pageIndex resume groups.toList ⟨0, resume, none, ∅⟩

/-- Where the scan continues after a page is done. -/
def nextPage (v : IndexedVolume) (next : Option CompactionCursor) (pageIndex : ℕ) :
    Option CompactionCursor :=
  next.or ((v.root.pages.keys.find? (fun index => decide (index > pageIndex))).map (⟨·, none⟩))

/-- `compact_packs_inner` -/
def compactPacksInner (P : Platform) (B : Bucket) (φ : Faults) (v : IndexedVolume)
    (after : Option CompactionCursor) (budget : ℕ) : Bucket × IndexedVolume × Result Compaction :=
  if after.any (fun cursor => decide (cursor.page ≥ pageCount v.root.size) ||
      cursor.afterPack.any (fun hash => !validHash hash)) then (B, v, .error .invalidInput)
  else if budget < 2 * maxObjectBytes ∨ budget > 8 * maxObjectBytes then
    (B, v, .error .invalidInput)
  else if v.packed = false then (B, v, .ok ⟨0, none⟩)
  else
    match v.pageFromCursor after with
    | none => (B, v, .ok ⟨0, none⟩)
    | some pageIndex =>
      if φ.expired then (B, v, .error .deadline)
      else
        match v.stageCompaction P (φ.view B) after budget pageIndex with
        | .error e => (B, v, .error e)
        | .ok staged =>
          if staged.dirty.isEmpty then
            (B, v, .ok ⟨0, v.nextPage staged.nextCursor pageIndex⟩)
          else
            match IndexedVolume.commitFrom P B φ { v with dirty := staged.dirty } v.root true with
            | (B', v', .error e) => (B', v', .error e)
            | (B', v', .ok _) =>
              (B', v', .ok ⟨staged.dirty.size, v'.nextPage staged.nextCursor pageIndex⟩)

/-- `compact_packs`: staged chunks are disposable, so an error clears them. -/
def compactPacks (P : Platform) (B : Bucket) (φ : Faults) (v : IndexedVolume)
    (after : Option CompactionCursor) (budget : ℕ) : Bucket × IndexedVolume × Result Compaction :=
  match v.check 0 0 with
  | .error e => (B, v, .error e)
  | .ok () =>
    if v.dirty.isEmpty = false then (B, v, .error .invalidInput)
    else
      match v.compactPacksInner P B φ after budget with
      | (B', v', .error e) => (B', { v' with dirty := ∅ }, .error e)
      | (B', v', .ok c) => (B', v', .ok c)

/-- Everything that the commit of a repacking pass digests. -/
def passHashed (P : Platform) (view : View) (v : IndexedVolume) (after : Option CompactionCursor)
    (budget : ℕ) : List Bytes :=
  match v.pageFromCursor after with
  | none => []
  | some pageIndex =>
    match v.stageCompaction P view after budget pageIndex with
    | .error _ => []
    | .ok staged => IndexedVolume.hashed P view { v with dirty := staged.dirty } true

end IndexedVolume

open IndexedVolume

section Members

variable {P : Platform} {S : Set Bytes} {B B' : Bucket} {v v' : IndexedVolume} {f : ℕ → Bytes}
  {view : View}

/-- A member as the page lists it. -/
structure Member.Listed (m : Member) (page : Bytes) (pageIndex : ℕ) (pack : Hash) : Prop where
  index_div : m.index / slots = pageIndex
  slot_eq : slot page m.index = some m.chunk
  objectSlot_eq : objectSlot page m.index = some (pack, m.offset)
  pack_ne : pack ≠ m.chunk

/-- The groups hold listed slots only. -/
theorem packGroups_listed {page : Bytes} {pageIndex : ℕ} {groups : BTreeMap Hash (List Member)}
    (hok : packGroups page pageIndex = .ok groups) {pack : Hash} {members : List Member}
    (hg : groups[pack]? = some members) {m : Member} (hm : m ∈ members) :
    m.Listed page pageIndex pack := by
  revert pack members m
  refine foldlM_induction hok (fun _ groups => ∀ {pack : Hash} {members : List Member},
    groups[pack]? = some members → ∀ {m : Member}, m ∈ members → m.Listed page pageIndex pack)
    (by simp) ?_
  intro done within rest acc acc' hl ih hstep pack members hg m hm
  have hwithin : within < slots := by
    have : within ∈ List.range slots := by rw [hl]; simp
    exact List.mem_range.mp this
  cases ho : objectSlot page (pageIndex * slots + within) with
  | none =>
    simp only [ho] at hstep
    exact ih (by rw [Except.ok.inj hstep]; exact hg) hm
  | some loc =>
    obtain ⟨pack', offset⟩ := loc
    simp only [ho] at hstep
    cases hs : slot page (pageIndex * slots + within) with
    | none => simp [hs] at hstep
    | some chunk =>
      simp only [hs] at hstep
      split at hstep
      · exact ih (by rw [Except.ok.inj hstep]; exact hg) hm
      · rename_i hne
        rw [← Except.ok.inj hstep, Std.ExtTreeMap.getElem?_insert] at hg
        split at hg
        · rename_i heq
          have heq' : pack' = pack := by simpa using heq
          subst heq'
          rw [← Option.some.inj hg] at hm
          rcases List.mem_append.mp hm with hm | hm
          · cases hold : acc[pack']? with
            | none => simp [hold] at hm
            | some old => exact ih hold (by simpa [hold] using hm)
          · obtain rfl := List.mem_singleton.mp hm
            refine ⟨?_, hs, ho, hne⟩
            simp only
            rw [Nat.mul_comm, Nat.mul_add_div slots_pos, Nat.div_eq_of_lt hwithin, Nat.add_zero]
        · exact ih hg hm

/-- A slot beyond the end of the disk is a hole. -/
theorem Holds.slot_lt (h : Holds P S B v f) {p i : ℕ} (hp : p < pageCount v.root.size)
    (hdiv : i / slots = p) {hash : Hash} (hs : slot (storedPage P B v p) i = some hash) :
    i < v.chunkCount := by
  by_contra hge
  have hshape := h.shaped_page hp
  have hj : i % slots < slots := Nat.mod_lt _ slots_pos
  have hsplit := Nat.div_add_mod' i slots
  have hz : isZero (entryAt (pageWidth v.packed) (storedPage P B v p) (i % slots)) = true := by
    apply hshape.beyond _ _ hj
    unfold validSlots
    rw [hdiv] at hsplit
    simp only [chunkCount] at hge
    omega
  rw [hshape.slot_eq, entrySlot_of_isZero hz] at hs
  cases hs

/-- A listed member of a verified pack is the stored chunk. -/
theorem Holds.member_bytes (h : Holds P S B v f) (hideal : P.Ideal S) (ha : Addressed P S B)
    (hs : view.Sound B) {p : ℕ} (hp : p < pageCount v.root.size) {m : Member} {pack : Hash}
    (hm : m.Listed (storedPage P B v p) p pack) {bytes : Bytes}
    (hc : view.chunk v.space pack = .ok bytes) :
    m.index < v.chunkCount ∧ Member.bytes m bytes = f m.index := by
  have hi := h.slot_lt hp hm.index_div hm.slot_eq
  obtain ⟨hd, hmem⟩ := ha _ _ _ (hs.chunk hc)
  have hslot := hm.slot_eq
  have hobject := hm.objectSlot_eq
  rw [← hm.index_div] at hslot hobject
  obtain ⟨obj, hobj, hdobj, hslice, -⟩ := h.located_object ha hi hslot hobject
  obtain rfl := hideal.inj hobj hmem (hdobj.trans hd.symm)
  exact ⟨hi, hslice hm.pack_ne⟩

end Members

section Staging

variable {P : Platform} {S : Set Bytes} {B B' : Bucket} {v v' : IndexedVolume} {f : ℕ → Bytes}
  {view : View}

/-- Every buffered chunk is a stored one. -/
def Restates (v : IndexedVolume) (f : ℕ → Bytes) (dirty : BTreeMap ℕ Bytes) : Prop :=
  ∀ (i : ℕ) (b : Bytes), dirty[i]? = some b → i < v.chunkCount ∧ b = f i

/-- Staged members restate what the volume holds. -/
theorem stageMembers_restates {bytes : Bytes} {members : List Member} {dirty : BTreeMap ℕ Bytes}
    (hd : Restates v f dirty)
    (hm : ∀ m ∈ members, m.index < v.chunkCount ∧ Member.bytes m bytes = f m.index) :
    Restates v f (stageMembers bytes dirty members) := by
  refine foldl_induction (fun _ dirty => Restates v f dirty) hd ?_
  intro done m rest acc hl hacc i b hb
  have hmem : m ∈ members := by rw [hl]; simp
  simp only [Std.ExtTreeMap.getElem?_insert] at hb
  split at hb
  · rename_i heq
    have heq' : m.index = i := by simpa using heq
    rw [← Option.some.inj hb, ← heq']
    exact hm m hmem
  · exact hacc i b hb

/-- Whatever the loop over the packs stages is stored already. -/
theorem repack_restates {budget page : ℕ} {resume : Option Hash}
    {groups : List (Hash × List Member)}
    (hg : ∀ g ∈ groups, ∀ bytes, view.chunk v.space g.1 = .ok bytes →
      ∀ m ∈ g.2, m.index < v.chunkCount ∧ Member.bytes m bytes = f m.index)
    {acc staged : Repack} (hd : Restates v f acc.dirty)
    (hok : v.repack P view budget page resume groups acc = .ok staged) :
    Restates v f staged.dirty := by
  induction groups generalizing acc with
  | nil =>
    rw [← Except.ok.inj hok]
    exact hd
  | cons g rest ih =>
    obtain ⟨pack, members⟩ := g
    have hrest : ∀ {acc : Repack}, Restates v f acc.dirty →
        v.repack P view budget page resume rest acc = .ok staged → Restates v f staged.dirty :=
      fun hacc h => ih (fun g' hg' => hg g' (List.mem_cons_of_mem _ hg')) hacc h
    rw [repack] at hok
    split at hok
    · exact hrest hd hok
    · split at hok
      · rw [← Except.ok.inj hok]
        exact hd
      · split at hok
        · cases hok
        · rename_i bytes hc
          have hmem := hg (pack, members) List.mem_cons_self bytes hc
          split at hok
          · cases hok
          · split at hok
            · cases hok
            · simp only at hok
              split at hok
              · exact hrest (by exact hd) hok
              · have hst : Restates v f (stageMembers bytes acc.dirty
                    (members.take ((budget - (acc.consumed + bytes.length)) / chunkBytes))) :=
                  stageMembers_restates hd (fun m hm => hmem m (List.mem_of_mem_take hm))
                split at hok
                · rw [← Except.ok.inj hok]
                  exact hst
                · exact hrest hst hok

/-- So does a staged compaction. -/
theorem stageCompaction_restates (h : Holds P S B v f) (hideal : P.Ideal S)
    (ha : Addressed P S B) (hs : view.Sound B) {after : Option CompactionCursor}
    {budget pageIndex : ℕ} (hp : pageIndex < pageCount v.root.size) {staged : Repack}
    (hok : v.stageCompaction P view after budget pageIndex = .ok staged) :
    Restates v f staged.dirty := by
  unfold stageCompaction at hok
  split at hok
  · cases hok
  · rename_i page hpage
    split at hok
    · cases hok
    · rename_i groups hgroups
      rw [h.page_sound hs hp hpage] at hgroups
      refine repack_restates ?_ (by simp [Restates]) hok
      intro g hg bytes hc m hm
      rw [Std.ExtTreeMap.mem_toList_iff_getElem?_eq_some] at hg
      exact h.member_bytes hideal ha hs hp (packGroups_listed hgroups hg hm) hc

/-- The first page that a pass looks at is a page of the disk. -/
theorem Holds.pageFromCursor_lt (h : Holds P S B v f) {after : Option CompactionCursor}
    {pageIndex : ℕ} (hp : v.pageFromCursor after = some pageIndex) :
    pageIndex < pageCount v.root.size := by
  have hmem := List.mem_of_find?_eq_some hp
  rw [Std.ExtTreeMap.mem_keys, Std.ExtTreeMap.mem_iff_isSome_getElem?,
    Option.isSome_iff_exists] at hmem
  obtain ⟨hash, hhash⟩ := hmem
  exact (h.rootOk.pages_ok pageIndex hash hhash).1

/-- A pass leaves everything alone, or commits chunks that are stored already. -/
theorem compactPacksInner_cases {φ : Faults} {after : Option CompactionCursor} {budget : ℕ}
    {res : Result Compaction} (h : Holds P S B v f) (hideal : P.Ideal S) (ha : Addressed P S B)
    (hs : (φ.view B).Sound B) (hok : v.compactPacksInner P B φ after budget = (B', v', res)) :
    (B' = B ∧ v' = v ∧ ∀ c, res = .ok c → c.rewrittenBlocks = 0) ∨
      ∃ dirty r, Restates v f dirty ∧
        (∀ b ∈ IndexedVolume.hashed P (φ.view B) { v with dirty := dirty } true,
          b ∈ v.passHashed P (φ.view B) after budget) ∧
        Outcome P B (φ.view B) φ.delivery { v with dirty := dirty } v.root true B' v' r ∧
        ((∃ g c, r = .ok g ∧ res = .ok c ∧ c.rewrittenBlocks ≠ 0) ∨
          (∃ e, r = .error e ∧ res = .error e)) := by
  unfold compactPacksInner at hok
  split at hok
  · obtain ⟨rfl, rfl, rfl⟩ := by simpa using hok
    exact Or.inl ⟨rfl, rfl, fun c hc => by cases hc⟩
  split at hok
  · obtain ⟨rfl, rfl, rfl⟩ := by simpa using hok
    exact Or.inl ⟨rfl, rfl, fun c hc => by cases hc⟩
  split at hok
  · obtain ⟨rfl, rfl, rfl⟩ := by simpa using hok
    exact Or.inl ⟨rfl, rfl, fun c hc => by cases hc; rfl⟩
  split at hok
  · obtain ⟨rfl, rfl, rfl⟩ := by simpa using hok
    exact Or.inl ⟨rfl, rfl, fun c hc => by cases hc; rfl⟩
  rename_i pageIndex hpage
  split at hok
  · obtain ⟨rfl, rfl, rfl⟩ := by simpa using hok
    exact Or.inl ⟨rfl, rfl, fun c hc => by cases hc⟩
  split at hok
  · obtain ⟨rfl, rfl, rfl⟩ := by simpa using hok
    exact Or.inl ⟨rfl, rfl, fun c hc => by cases hc⟩
  rename_i staged hstaged
  have hrest := stageCompaction_restates h hideal ha hs (h.pageFromCursor_lt hpage) hstaged
  have hpass : v.passHashed P (φ.view B) after budget =
      IndexedVolume.hashed P (φ.view B) { v with dirty := staged.dirty } true := by
    simp only [passHashed, hpage, hstaged]
  split at hok
  · obtain ⟨rfl, rfl, rfl⟩ := by simpa using hok
    exact Or.inl ⟨rfl, rfl, fun c hc => by cases hc; rfl⟩
  rename_i hne
  right
  split at hok
  · rename_i B2 v2 e hcm
    obtain ⟨rfl, rfl, rfl⟩ := by simpa using hok
    exact ⟨_, _, hrest, fun b hb => hpass ▸ hb, commitFrom_outcome hcm, Or.inr ⟨e, rfl, rfl⟩⟩
  · rename_i B2 v2 g hcm
    obtain ⟨rfl, rfl, rfl⟩ := by simpa using hok
    refine ⟨_, _, hrest, fun b hb => hpass ▸ hb, commitFrom_outcome hcm,
      Or.inl ⟨g, _, rfl, rfl, ?_⟩⟩
    intro hzero
    exact hne (by rw [Std.ExtTreeMap.isEmpty_eq_size_beq_zero]; simpa using hzero)

/-- The same for `compact_packs`, which drops the staged chunks after an error. -/
theorem compactPacks_cases {φ : Faults} {after : Option CompactionCursor} {budget : ℕ}
    {res : Result Compaction} (h : Holds P S B v f) (hideal : P.Ideal S) (ha : Addressed P S B)
    (hs : (φ.view B).Sound B) (hclean : v.dirty = ∅)
    (hok : v.compactPacks P B φ after budget = (B', v', res)) :
    (B' = B ∧ v' = v ∧ ∀ c, res = .ok c → c.rewrittenBlocks = 0) ∨
      ∃ dirty v1 r, Restates v f dirty ∧
        (∀ b ∈ IndexedVolume.hashed P (φ.view B) { v with dirty := dirty } true,
          b ∈ v.passHashed P (φ.view B) after budget) ∧
        Outcome P B (φ.view B) φ.delivery { v with dirty := dirty } v.root true B' v1 r ∧
        ((∃ g c, r = .ok g ∧ res = .ok c ∧ c.rewrittenBlocks ≠ 0 ∧ v' = v1) ∨
          (∃ e, r = .error e ∧ res = .error e ∧ v' = { v1 with dirty := ∅ })) := by
  have hself : { v with dirty := ∅ } = v := by rw [← hclean]
  unfold compactPacks at hok
  split at hok
  · obtain ⟨rfl, rfl, rfl⟩ := by simpa using hok
    exact Or.inl ⟨rfl, rfl, fun c hc => by cases hc⟩
  rw [if_neg (by simp [hclean])] at hok
  split at hok
  · rename_i B1 v1 e hin
    obtain ⟨rfl, rfl, rfl⟩ := by simpa using hok
    rcases compactPacksInner_cases h hideal ha hs hin with
      ⟨rfl, rfl, -⟩ | ⟨dirty, r, hd, hk, ho, ⟨g, c, -, hc, -⟩ | ⟨e', rfl, he⟩⟩
    · exact Or.inl ⟨rfl, hself, fun c hc => by cases hc⟩
    · cases hc
    · obtain rfl := Except.error.inj he
      exact Or.inr ⟨dirty, v1, _, hd, hk, ho, Or.inr ⟨e, rfl, rfl, rfl⟩⟩
  · rename_i B1 v1 c hin
    obtain ⟨rfl, rfl, rfl⟩ := by simpa using hok
    rcases compactPacksInner_cases h hideal ha hs hin with
      ⟨rfl, rfl, hc⟩ | ⟨dirty, r, hd, hk, ho, ⟨g, c', hr, hc, hne⟩ | ⟨e', -, he⟩⟩
    · exact Or.inl ⟨rfl, rfl, hc⟩
    · obtain rfl := Except.ok.inj hc
      exact Or.inr ⟨dirty, _, r, hd, hk, ho, Or.inl ⟨g, c, hr, rfl, hne, rfl⟩⟩
    · cases he

end Staging

end AgentHouse.Volume
