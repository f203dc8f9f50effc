import AgentHouse.Ledger.Changes

/-!
# Pins protect images

References on images over every history of calls: an image that is being deleted has none, pins of
names in use stay, and the current and previous image of a project are those of the newest
accepted retention call.
-/

namespace AgentHouse.Ledger

variable {parse : String → Option Json} {db db' : Db} {a : Action} {v : Value}

/-- What the calls keep true of images and their references. -/
structure Db.Pinned (db : Db) : Prop where
  keyed : Table.Keyed ProjectEnvironmentImage.id db.images
  exist : ∀ r ∈ db.refs, ∃ i ∈ db.images, i.id = r.imageId
  free : ∀ r ∈ db.refs, ∀ i ∈ db.images, i.id = r.imageId →
    i.phase ≠ .deleting ∧ i.phase ≠ .retired

/-- What a retention set may name. -/
theorem check_ok {set : RetentionSet} {entry : String × Bool} (h : set.check db entry = .ok ()) :
    ∃ i ∈ db.images, i.id = entry.1 ∧
      i.belongs set.ownerUserId set.tenantId set.projectId = true ∧
      i.phase ≠ .deleting ∧ i.phase ≠ .retired := by
  unfold RetentionSet.check at h
  obtain ⟨row, hrow, h⟩ := bind_ok h
  obtain ⟨_, havailable, _⟩ := bind_ok h
  have havailable := refuse_eq_ok havailable
  push Not at havailable
  obtain ⟨hrow, hid⟩ := image_ok hrow
  exact ⟨row, hrow, hid, havailable.1, havailable.2.2.1, havailable.2.1⟩

/-- The images that a retention call names belong to its project and are there to stay. -/
theorem Retained.named {set : RetentionSet} {refs : List ImageRef} (h : Retained db set refs)
    {r : ImageRef}
    (hr : set.current = some r.imageId ∨ set.previous = some r.imageId ∨ r.imageId ∈ set.active) :
    ∃ i ∈ db.images, i.id = r.imageId ∧
      i.belongs set.ownerUserId set.tenantId set.projectId = true ∧
      i.phase ≠ .deleting ∧ i.phase ≠ .retired := by
  have hentry : ∃ ready, (r.imageId, ready) ∈ set.named := by
    unfold RetentionSet.named
    obtain hr | hr | hr := hr
    · exact ⟨true, by simp [hr]⟩
    · exact ⟨true, by simp [hr]⟩
    · exact ⟨false, by simp [hr]⟩
  obtain ⟨ready, hentry⟩ := hentry
  exact check_ok (h.checks _ hentry)

/-- Where a reference after a retention call comes from. -/
theorem Retained.mem_cases {set : RetentionSet} {refs : List ImageRef} (h : Retained db set refs)
    {r : ImageRef} (hr : r ∈ refs) :
    r ∈ db.refs ∨ ∃ i ∈ db.images, i.id = r.imageId ∧
      i.belongs set.ownerUserId set.tenantId set.projectId = true ∧
      i.phase ≠ .deleting ∧ i.phase ≠ .retired := by
  obtain ⟨⟨hold, _⟩ | ⟨_, ⟨_, hcurrent⟩ | ⟨_, hprevious⟩⟩ | ⟨_, hself, hactive, _⟩, _⟩ :=
    (h.mem r).mp hr
  · exact .inl hold
  · exact .inr (h.named (.inl hcurrent))
  · exact .inr (h.named (.inr (.inl hprevious)))
  · exact .inr (h.named (.inr (.inr (hself ▸ hactive))))

namespace Db.Pinned

/-- An id belongs to one image. -/
theorem eq_of_id (h : db.Pinned) {i i' : ProjectEnvironmentImage} (hi : i ∈ db.images)
    (hi' : i' ∈ db.images) (hid : i.id = i'.id) : i = i' :=
  List.inj_on_of_nodup_map h.keyed hi hi' hid

/-- References that are old or on an image that is there to stay. -/
theorem setRefs (h : db.Pinned) {refs : List ImageRef} (hrefs : ∀ r ∈ refs, r ∈ db.refs ∨
    ∃ i ∈ db.images, i.id = r.imageId ∧ i.phase ≠ .deleting ∧ i.phase ≠ .retired)
    (himages : db'.images = db.images) (hrefs' : db'.refs = refs) : db'.Pinned := by
  refine ⟨himages ▸ h.keyed, ?_, ?_⟩
  · intro r hr
    rw [himages]
    obtain hold | ⟨i, hi, hid, _⟩ := hrefs r (hrefs' ▸ hr)
    · exact h.exist r hold
    · exact ⟨i, hi, hid⟩
  · intro r hr i hi hid
    rw [himages] at hi
    obtain hold | ⟨i', hi', hid', hphase⟩ := hrefs r (hrefs' ▸ hr)
    · exact h.free r hold i hi hid
    · rw [h.eq_of_id hi hi' (hid.trans hid'.symm)]
      exact hphase

/-- The image with an id goes on to a phase that it may have with its references. -/
theorem reviseImage (h : db.Pinned) {id : String}
    {f : ProjectEnvironmentImage → ProjectEnvironmentImage} (hf : ∀ i, (f i).id = i.id)
    (hfree : ∀ i ∈ db.images, i.id = id → db.referenced id = true →
      (f i).phase ≠ .deleting ∧ (f i).phase ≠ .retired) : (db.reviseImage id f).Pinned := by
  have hid (i : ProjectEnvironmentImage) : (if i.id = id then f i else i).id = i.id := by
    split
    · exact hf i
    · rfl
  refine ⟨h.keyed.revise hf, ?_, ?_⟩
  · intro r hr
    obtain ⟨i, hi, hir⟩ := h.exist r hr
    exact ⟨_, List.mem_map_of_mem hi, (hid i).trans hir⟩
  · intro r hr i hi hir
    obtain ⟨i₀, hi₀, rfl⟩ := List.mem_map.mp hi
    rw [hid] at hir
    split
    · rename_i hsame
      refine hfree i₀ hi₀ hsame (List.any_eq_true.mpr ⟨r, hr, ?_⟩)
      exact decide_eq_true (hir.symm.trans hsame)
    · exact h.free r hr i₀ hi₀ hir

/-- A new image, with its own references or with none. -/
theorem addImage (h : db.Pinned) (row : ProjectEnvironmentImage) {new : List ImageRef}
    (hnone : Table.row ProjectEnvironmentImage.id row.id db.images = none)
    (hnew : ∀ r ∈ new, r.imageId = row.id ∧ row.phase ≠ .deleting ∧ row.phase ≠ .retired)
    (himages : db'.images = db.images ++ [row]) (hrefs : db'.refs = db.refs ++ new) :
    db'.Pinned := by
  refine ⟨himages ▸ h.keyed.append hnone, ?_, ?_⟩
  · intro r hr
    rw [himages]
    obtain hr | hr := List.mem_append.mp (hrefs ▸ hr)
    · obtain ⟨i, hi, hid⟩ := h.exist r hr
      exact ⟨i, List.mem_append_left _ hi, hid⟩
    · exact ⟨row, List.mem_append_right _ (List.mem_singleton_self _), (hnew r hr).1.symm⟩
  · intro r hr i hi hid
    rw [himages] at hi
    obtain hr | hr := List.mem_append.mp (hrefs ▸ hr)
    · obtain hi | rfl := Table.mem_snoc.mp hi
      · exact h.free r hr i hi hid
      · -- a reference has an image, and this one is new
        obtain ⟨i', hi', hid'⟩ := h.exist r hr
        exact absurd (hid'.trans hid.symm) (Table.row_eq_none.mp hnone i' hi')
    · obtain ⟨hself, hphase⟩ := hnew r hr
      obtain hi | rfl := Table.mem_snoc.mp hi
      · exact absurd (hid.trans hself) (Table.row_eq_none.mp hnone i hi)
      · exact hphase

/-- Every change keeps what is pinned. -/
theorem step (h : db.Pinned) (hs : Change parse db a v db') : db'.Pinned := by
  cases hs with
  | @admitted row _ _ _ hnone =>
    refine h.addImage row.preparing hnone ?_ rfl rfl
    intro r hr
    rw [List.mem_singleton.mp hr]
    simp [ProjectEnvironmentImage.preparing]
  | unadmitted hnone hb =>
    refine h.addImage _ ?_ (fun r hr => absurd hr List.not_mem_nil) rfl (List.append_nil _).symm
    rw [ProjectEnvironmentImage.unadmitted, (Table.row_mem hb).2]
    exact hnone
  | @phase _ phase _ _ row hrow hid hadvances =>
    refine h.reviseImage (fun _ => rfl) fun i hi hi' _ => ?_
    cases phase <;> simp [advances] at hadvances ⊢
  | finished => exact h.reviseImage (fun _ => rfl) fun _ _ _ _ => by simp
  | detailed =>
    refine h.reviseImage (fun _ => rfl) fun i hi hid href => ?_
    obtain ⟨r, hr, hrid⟩ := List.any_eq_true.mp href
    exact h.free r hr i hi (hid.trans (of_decide_eq_true hrid).symm)
  | deleting _ _ _ hfree | retired _ _ _ hfree =>
    refine h.reviseImage (fun _ => rfl) fun i hi hid href => ?_
    rw [hfree] at href
    cases href
  | pinned hrow hid _ hphase =>
    refine h.setRefs (fun r hr => ?_) rfl rfl
    obtain hr | rfl := Table.mem_snoc.mp hr
    · exact .inl hr
    · exact .inr ⟨_, hrow, hid, by rw [hphase]; simp, by rw [hphase]; simp⟩
  | unpinned => exact h.setRefs (fun r hr => .inl (List.mem_of_mem_filter hr)) rfl rfl
  | retained hrefs =>
    refine h.setRefs (fun r hr => ?_) rfl rfl
    obtain hold | ⟨i, hi, hid, _, hphase⟩ := hrefs.mem_cases hr
    · exact .inl hold
    · exact .inr ⟨i, hi, hid, hphase⟩
  | _ => exact h.setRefs (fun r hr => .inl hr) rfl rfl

/-- So does every call. -/
theorem step_run (h : db.Pinned) {c : Call} (hs : Step parse db c db') : db'.Pinned := by
  obtain ⟨_, _, rfl⟩ | ⟨v, _, hchange⟩ := hs.change
  · exact h
  · exact h.step hchange

/-- Images stay and only advance. -/
theorem image_later (h : db.Pinned) {c : Call} (hs : Step parse db c db')
    {i : ProjectEnvironmentImage} (hi : i ∈ db.images) : ∃ i' ∈ db'.images, i.Later i' := by
  obtain ⟨_, _, rfl⟩ | ⟨v, _, hchange⟩ := hs.change
  · exact ⟨i, hi, .refl i⟩
  · obtain ⟨f, hf, hlater⟩ | ⟨row, _, hrow⟩ := hchange.images h.keyed
    · exact ⟨f i, hf ▸ List.mem_map_of_mem hi, hlater i hi⟩
    · exact ⟨i, hrow ▸ List.mem_append_left _ hi, .refl i⟩

end Db.Pinned

/-- The pin of a name in use stays. -/
theorem pin_kept {c : Call} (hs : Step parse db c db') {r : ImageRef} (hr : r ∈ db.refs)
    (hkind : r.kind = .vm) (hretains : db.retains r.referenceId = true) : r ∈ db'.refs := by
  obtain ⟨a, reply⟩ := c
  obtain ⟨_, _, rfl⟩ | ⟨v, _, hchange⟩ := hs.change
  · exact hr
  cases hchange with
  | admitted | pinned => exact List.mem_append_left _ hr
  | unpinned hfree =>
    refine List.mem_filter.mpr ⟨hr, decide_eq_true ?_⟩
    rintro ⟨_, rfl⟩
    rw [hfree] at hretains
    cases hretains
  | retained hrefs =>
    refine (hrefs.mem r).mpr ⟨.inl ⟨hr, ?_⟩, fun hbuild => ?_⟩
    · simp [RetentionSet.replaces, hkind]
    · rw [hkind] at hbuild
      cases hbuild.1
  | _ => exact hr

section Retention

variable {owner tenant project : String}

/-- A current or previous reference of the project. -/
def Db.Points (db : Db) (owner tenant project : String) (r : ImageRef) : Prop :=
  r ∈ db.refs ∧ (r.kind = .current ∨ r.kind = .previous) ∧
    ∃ i ∈ db.images, i.id = r.imageId ∧ i.belongs owner tenant project = true

/-- The reference is one that the retention call asks for. -/
def RetentionSet.Asks (set : RetentionSet) (r : ImageRef) : Prop :=
  r.referenceId = projectKey set.tenantId set.projectId ∧
    (r.kind = .current ∧ set.current = some r.imageId ∨
      r.kind = .previous ∧ set.previous = some r.imageId)

/-- What a set asks for is one of the images it names. -/
theorem RetentionSet.Asks.named {set : RetentionSet} {r : ImageRef} (h : set.Asks r) :
    set.current = some r.imageId ∨ set.previous = some r.imageId ∨ r.imageId ∈ set.active := by
  obtain ⟨_, ⟨_, hcurrent⟩ | ⟨_, hprevious⟩⟩ := h
  · exact .inl hcurrent
  · exact .inr (.inl hprevious)

/-- The retention call is about the project. -/
def RetentionSet.For (set : RetentionSet) (owner tenant project : String) : Prop :=
  set.ownerUserId = owner ∧ set.tenantId = tenant ∧ set.projectId = project

/-- The owner, the tenant and the project of an image. -/
theorem belongs_iff {i : ProjectEnvironmentImage} : i.belongs owner tenant project = true ↔
    i.ownerUserId = owner ∧ i.tenantId = tenant ∧ i.projectId = project := by
  simp [ProjectEnvironmentImage.belongs, and_assoc]

/-- An image belongs to one project. -/
theorem RetentionSet.for_of_belongs {set : RetentionSet} {i : ProjectEnvironmentImage}
    (h : i.belongs set.ownerUserId set.tenantId set.projectId = true)
    (h' : i.belongs owner tenant project = true) : set.For owner tenant project := by
  obtain ⟨ho, ht, hp⟩ := belongs_iff.mp h
  obtain ⟨ho', ht', hp'⟩ := belongs_iff.mp h'
  exact ⟨ho.symm.trans ho', ht.symm.trans ht', hp.symm.trans hp'⟩

/-- A retention call for the project leaves the references that it asks for. -/
theorem points_retained {set : RetentionSet} {refs : List ImageRef}
    {retention : List Retention} (hrefs : Retained db set refs)
    (hset : set.For owner tenant project)
    (r : ImageRef) :
    Db.Points { db with refs, retention } owner tenant project r ↔ set.Asks r := by
  obtain ⟨rfl, rfl, rfl⟩ := hset
  constructor
  · rintro ⟨hr, hkind, i, hi, hid, hbelongs⟩
    obtain ⟨⟨hold, hkept⟩ | hasks | ⟨hbuild, _⟩, _⟩ := (hrefs.mem r).mp hr
    · have : set.replaces db r = true := by
        unfold RetentionSet.replaces
        rw [Bool.and_eq_true]
        refine ⟨by simpa using hkind, List.any_eq_true.mpr ⟨i, hi, ?_⟩⟩
        rw [Bool.and_eq_true]
        exact ⟨decide_eq_true hid, hbelongs⟩
      rw [this] at hkept
      cases hkept
    · exact hasks
    · rw [hbuild] at hkind
      simp at hkind
  · intro hasks
    have hkind : r.kind = .current ∨ r.kind = .previous := hasks.2.imp And.left And.left
    obtain ⟨i, hi, hid, hbelongs, _⟩ := hrefs.named hasks.named
    refine ⟨(hrefs.mem r).mpr ⟨.inr (.inl hasks), fun hbuild => ?_⟩, hkind, i, hi, hid, hbelongs⟩
    rw [hbuild.1] at hkind
    simp at hkind

/-- Whose the image of a reference is does not change. -/
theorem belongs_step (h : db.Pinned) (hs : Change parse db a v db') {r : ImageRef}
    (hr : r ∈ db.refs) :
    (∃ i ∈ db'.images, i.id = r.imageId ∧ i.belongs owner tenant project = true) ↔
      ∃ i ∈ db.images, i.id = r.imageId ∧ i.belongs owner tenant project = true := by
  obtain ⟨f, hf, hlater⟩ | ⟨row, hnone, hrow⟩ := hs.images h.keyed
  · have hsame {i : ProjectEnvironmentImage} (hi : i ∈ db.images) :
        (f i).belongs owner tenant project = i.belongs owner tenant project := by
      unfold ProjectEnvironmentImage.belongs
      rw [(hlater i hi).ownerUserId, (hlater i hi).tenantId, (hlater i hi).projectId]
    rw [hf]
    constructor
    · rintro ⟨i, hi, hid, hbelongs⟩
      obtain ⟨i₀, hi₀, rfl⟩ := List.mem_map.mp hi
      exact ⟨i₀, hi₀, (hlater i₀ hi₀).id.symm.trans hid, hsame hi₀ ▸ hbelongs⟩
    · rintro ⟨i, hi, hid, hbelongs⟩
      exact ⟨f i, List.mem_map_of_mem hi, (hlater i hi).id.trans hid, (hsame hi).trans hbelongs⟩
  · rw [hrow]
    constructor
    · rintro ⟨i, hi, hid, hbelongs⟩
      obtain hi | rfl := Table.mem_snoc.mp hi
      · exact ⟨i, hi, hid, hbelongs⟩
      · obtain ⟨i', hi', hid'⟩ := h.exist r hr
        exact absurd (hid'.trans hid.symm) (Table.row_eq_none.mp hnone i' hi')
    · rintro ⟨i, hi, hid, hbelongs⟩
      exact ⟨i, List.mem_append_left _ hi, hid, hbelongs⟩

/-- A retention call for another project. -/
theorem points_apart (h : db.Pinned) {set : RetentionSet} {refs : List ImageRef}
    {retention : List Retention} (hrefs : Retained db set refs)
    (hset : ¬ set.For owner tenant project) (r : ImageRef) :
    Db.Points { db with refs, retention } owner tenant project r ↔
      db.Points owner tenant project r := by
  constructor
  · rintro ⟨hr, hkind, i, hi, hid, hbelongs⟩
    obtain ⟨⟨hold, _⟩ | hasks | ⟨hbuild, _⟩, _⟩ := (hrefs.mem r).mp hr
    · exact ⟨hold, hkind, i, hi, hid, hbelongs⟩
    · obtain ⟨i', hi', hid', hbelongs', _⟩ := hrefs.named (RetentionSet.Asks.named hasks)
      rw [h.eq_of_id hi' hi (hid'.trans hid.symm)] at hbelongs'
      exact absurd (RetentionSet.for_of_belongs hbelongs' hbelongs) hset
    · rw [hbuild] at hkind
      simp at hkind
  · rintro ⟨hr, hkind, i, hi, hid, hbelongs⟩
    refine ⟨(hrefs.mem r).mpr ⟨.inl ⟨hr, ?_⟩, fun hbuild => ?_⟩, hkind, i, hi, hid, hbelongs⟩
    · by_contra hreplaces
      rw [Bool.not_eq_false, RetentionSet.replaces, Bool.and_eq_true] at hreplaces
      obtain ⟨i', hi', hmatch⟩ := List.any_eq_true.mp hreplaces.2
      rw [Bool.and_eq_true, decide_eq_true_iff] at hmatch
      rw [h.eq_of_id hi' hi (hmatch.1.trans hid.symm)] at hmatch
      exact hset (RetentionSet.for_of_belongs hmatch.2 hbelongs)
    · rw [hbuild.1] at hkind
      simp at hkind

/-- A call that is no new retention call for the project leaves its references as they are. -/
theorem points_step (h : db.Pinned) (hs : Change parse db a v db')
    (hother : ∀ set refs, a = .retainProjectImages set → Retained db set refs →
      ¬ set.For owner tenant project) (r : ImageRef) :
    db'.Points owner tenant project r ↔ db.Points owner tenant project r := by
  have himage {r : ImageRef} (hr : r ∈ db.refs) :
      (∃ i ∈ db'.images, i.id = r.imageId ∧ i.belongs owner tenant project = true) ↔
        ∃ i ∈ db.images, i.id = r.imageId ∧ i.belongs owner tenant project = true :=
    belongs_step h hs hr
  have hsame (hrefs : r.kind = .current ∨ r.kind = .previous → (r ∈ db'.refs ↔ r ∈ db.refs)) :
      db'.Points owner tenant project r ↔ db.Points owner tenant project r := by
    constructor
    · rintro ⟨hr, hkind, hi⟩
      have hr := (hrefs hkind).mp hr
      exact ⟨hr, hkind, (himage hr).mp hi⟩
    · rintro ⟨hr, hkind, hi⟩
      exact ⟨(hrefs hkind).mpr hr, hkind, (himage hr).mpr hi⟩
  have hnew {kind : RefKind} {referenceId imageId : String}
      (hkind : kind ≠ .current ∧ kind ≠ .previous) :
      r.kind = .current ∨ r.kind = .previous →
        (r ∈ db.refs ++ [⟨kind, referenceId, imageId⟩] ↔ r ∈ db.refs) := by
    intro hr
    rw [Table.mem_snoc, or_iff_left]
    rintro rfl
    exact hr.elim hkind.1 hkind.2
  cases hs with
  | admitted => exact hsame (hnew ⟨by simp, by simp⟩)
  | pinned => exact hsame (hnew ⟨by simp, by simp⟩)
  | unpinned =>
    refine hsame fun hkind => ?_
    rw [List.mem_filter, and_iff_left]
    refine decide_eq_true ?_
    rintro ⟨hvm, _⟩
    rw [hvm] at hkind
    simp at hkind
  | retained hrefs => exact points_apart h hrefs (hother _ _ rfl hrefs) r
  | _ => exact hsame fun _ => Iff.rfl

/-- The retention row of a project after a call. -/
theorem retentionOf_retained {set : RetentionSet} {refs : List ImageRef} :
    Db.retentionOf { db with
      refs, retention := db.retention.filter (fun r => r.key ≠ set.row.key) ++ [set.row] }
      owner tenant project =
    if (owner, tenant, project) = set.row.key then some set.row
    else db.retentionOf owner tenant project := by
  unfold Db.retentionOf
  rw [Table.row_append, Table.row_filter_ne]
  · split
    · rfl
    · rfl
  · rw [Table.row_filter_ne, if_pos rfl]

/-- The call is an accepted retention call for the project. -/
def Call.Accepts (c : Call) (owner tenant project : String) (set : RetentionSet) : Prop :=
  c.action = .retainProjectImages set ∧ (∃ v, c.reply = .ok v) ∧ set.For owner tenant project

/-- Among the calls, the first accepted one with the highest generation of the project asks for
`set`. -/
def Newest (calls : List Call) (owner tenant project : String) (set : RetentionSet) : Prop :=
  ∃ before c after, calls = before ++ c :: after ∧ c.Accepts owner tenant project set ∧
    (∀ c' ∈ before, ∀ set', c'.Accepts owner tenant project set' →
      set'.generation < set.generation) ∧
    ∀ c' ∈ after, ∀ set', c'.Accepts owner tenant project set' → set'.generation ≤ set.generation

/-- What is retained for a project after calls. -/
inductive Db.Retains (db : Db) (calls : List Call) (owner tenant project : String) : Prop
  | never (hnone : ∀ c ∈ calls, ∀ set, ¬ c.Accepts owner tenant project set)
      (hrow : db.retentionOf owner tenant project = none)
      (hpoints : ∀ r, ¬ db.Points owner tenant project r)
  | newest {set : RetentionSet} (hnewest : Newest calls owner tenant project set)
      (hrow : db.retentionOf owner tenant project = some set.row)
      (hpoints : ∀ r, db.Points owner tenant project r ↔ set.Asks r)

/-- A call that is not accepted for the project. -/
theorem Db.Retains.keep {calls : List Call} {c : Call}
    (h : db.Retains calls owner tenant project)
    (hc : ∀ set, ¬ c.Accepts owner tenant project set)
    (hrow : db'.retentionOf owner tenant project = db.retentionOf owner tenant project)
    (hpoints : ∀ r, db'.Points owner tenant project r ↔ db.Points owner tenant project r) :
    db'.Retains (calls ++ [c]) owner tenant project := by
  cases h with
  | never hnone hrow' hpoints' =>
    refine .never ?_ (hrow.trans hrow') fun r hr => hpoints' r ((hpoints r).mp hr)
    intro c' hc' set
    obtain hc' | rfl := Table.mem_snoc.mp hc'
    · exact hnone c' hc' set
    · exact hc set
  | newest hnewest hrow' hpoints' =>
    obtain ⟨before, c', after, rfl, haccepts, hbefore, hafter⟩ := hnewest
    refine .newest ⟨before, c', after ++ [c], by simp, haccepts, hbefore, ?_⟩ (hrow.trans hrow')
      fun r => (hpoints r).trans (hpoints' r)
    intro c'' hc'' set' haccepts'
    obtain hc'' | rfl := Table.mem_snoc.mp hc''
    · exact hafter c'' hc'' set' haccepts'
    · exact absurd haccepts' (hc set')

/-- Every accepted call of the project so far has at most the generation of the row. -/
theorem Db.Retains.generation_le {calls : List Call} (h : db.Retains calls owner tenant project)
    {c : Call} (hc : c ∈ calls) {set : RetentionSet}
    (haccepts : c.Accepts owner tenant project set) :
    ∃ old, db.retentionOf owner tenant project = some old ∧ set.generation ≤ old.generation := by
  cases h with
  | never hnone => exact absurd haccepts (hnone c hc set)
  | @newest newest hnewest hrow =>
    refine ⟨_, hrow, ?_⟩
    obtain ⟨before, c', after, rfl, ⟨haction, _⟩, hbefore, hafter⟩ := hnewest
    obtain hc | hc := List.mem_append.mp hc
    · exact (hbefore c hc set haccepts).le
    · obtain rfl | hc := List.mem_cons.mp hc
      · obtain rfl : newest = set := by
          have := haction.symm.trans haccepts.1
          injection this
        exact le_rfl
      · exact hafter c hc set haccepts

/-- The newest call so far is asked for again. -/
theorem Db.Retains.again {calls : List Call} {c : Call} (h : db.Retains calls owner tenant project)
    {set : RetentionSet} (haccepts : c.Accepts owner tenant project set) {old : Retention}
    (hold : db.retentionOf owner tenant project = some old)
    (hgeneration : set.generation = old.generation) :
    db.Retains (calls ++ [c]) owner tenant project := by
  cases h with
  | never _ hrow =>
    rw [hrow] at hold
    cases hold
  | newest hnewest hrow hpoints =>
    obtain ⟨before, c', after, rfl, haccepts', hbefore, hafter⟩ := hnewest
    refine .newest ⟨before, c', after ++ [c], by simp, haccepts', hbefore, ?_⟩ hrow hpoints
    intro c'' hc'' set' haccepts''
    obtain hc'' | rfl := Table.mem_snoc.mp hc''
    · exact hafter c'' hc'' set' haccepts''
    · obtain rfl : set = set' := by
        have := haccepts.1.symm.trans haccepts''.1
        injection this
      rw [hgeneration, ← Option.some.inj (hrow.symm.trans hold)]
      exact le_rfl

/-- A retention call for the project with a higher generation. -/
theorem Db.Retains.renew {calls : List Call} {c : Call} (h : db.Retains calls owner tenant project)
    {set : RetentionSet} {refs : List ImageRef} (hrefs : Retained db set refs)
    (haccepts : c.Accepts owner tenant project set) :
    Db.Retains { db with
      refs, retention := db.retention.filter (fun r => r.key ≠ set.row.key) ++ [set.row] }
      (calls ++ [c]) owner tenant project := by
  have hset := haccepts.2.2
  refine .newest ⟨calls, c, [], rfl, haccepts, ?_, by simp⟩ ?_ (points_retained hrefs hset)
  · intro c' hc' set' haccepts'
    obtain ⟨old, hold, hle⟩ := h.generation_le hc' haccepts'
    obtain ⟨rfl, rfl, rfl⟩ := hset
    exact hle.trans_lt (hrefs.newer old hold)
  · obtain ⟨rfl, rfl, rfl⟩ := hset
    rw [retentionOf_retained]
    exact if_pos rfl

/-- Calls other than retention calls leave the retention rows as they are. -/
theorem retention_step (hs : Change parse db a v db') (ha : ∀ set, a ≠ .retainProjectImages set) :
    db'.retention = db.retention := by
  cases hs with
  | retained | retainedBefore => exact absurd rfl (ha _)
  | _ => rfl

/-- A call keeps what the last retention set asked for. -/
theorem Db.Retains.step {calls : List Call} (h : db.Retains calls owner tenant project)
    (hpinned : db.Pinned) {c : Call} (hs : Step parse db c db') :
    db'.Retains (calls ++ [c]) owner tenant project := by
  obtain ⟨a, reply⟩ := c
  obtain ⟨e, hreply, rfl⟩ | ⟨v, hreply, hchange⟩ := hs.change
  · refine h.keep ?_ rfl fun r => Iff.rfl
    rintro set ⟨_, ⟨v, hok⟩, _⟩
    cases hreply.symm.trans hok
  by_cases ha : ∃ set, a = .retainProjectImages set ∧ set.For owner tenant project
  · obtain ⟨set, rfl, hset⟩ := ha
    have haccepts : Call.Accepts ⟨.retainProjectImages set, reply⟩ owner tenant project set :=
      ⟨rfl, ⟨v, hreply⟩, hset⟩
    cases hchange with
    | retained hrefs hretention =>
      subst hretention
      exact h.renew hrefs haccepts
    | retainedBefore hold hgeneration =>
      refine h.again haccepts ?_ hgeneration
      obtain ⟨rfl, rfl, rfl⟩ := hset
      exact hold
  · push Not at ha
    refine h.keep ?_ ?_ (points_step hpinned hchange fun set _ hset _ => ha set hset)
    · rintro set ⟨haction, _, hset⟩
      exact ha set haction hset
    · by_cases hretain : ∃ set, a = .retainProjectImages set
      · obtain ⟨set, rfl⟩ := hretain
        cases hchange with
        | retained _ hretention =>
          subst hretention
          rw [retentionOf_retained, if_neg]
          intro hkey
          refine ha set rfl ?_
          obtain ⟨howner, hkey⟩ := Prod.mk.inj hkey
          obtain ⟨htenant, hproject⟩ := Prod.mk.inj hkey
          exact ⟨howner.symm, htenant.symm, hproject.symm⟩
        | retainedBefore => rfl
      · push Not at hretain
        unfold Db.retentionOf
        rw [retention_step hchange hretain]

/-- A database without images. -/
structure Db.Imageless (db : Db) : Prop where
  images : db.images = []
  refs : db.refs = []
  retention : db.retention = []

/-- A database without images has nothing pinned. -/
theorem Db.Imageless.pinned (h : db.Imageless) : db.Pinned := by
  refine ⟨?_, ?_, ?_⟩
  · rw [h.images]
    exact List.nodup_nil
  · simp [h.refs]
  · simp [h.refs]

/-- By induction on the calls, pins hold in every database reached. -/
theorem Db.Pinned.run {start : Db} {calls : List Call} (h : start.Pinned)
    (hrun : Trace (Step parse) start calls db) : db.Pinned :=
  hrun.invariant h fun hI hs => hI.step_run hs

/-- And so do the retention sets. -/
theorem Db.Retains.run {start : Db} {calls : List Call} (hstart : start.Imageless)
    (hrun : Trace (Step parse) start calls db) (owner tenant project : String) :
    db.Retains calls owner tenant project := by
  induction hrun with
  | nil =>
    refine .never (by simp) ?_ ?_
    · rw [Db.retentionOf, hstart.retention]
      rfl
    · simp [Db.Points, hstart.refs]
  | snoc hrun hs ih => exact ih.step (hstart.pinned.run hrun) hs

end Retention

/-- Over every history: an image that is being deleted or is retired has no reference, whatever
is called next; images stay and their phases only advance; the pin of a name in use stays; the
current and previous references of a project are those of its newest accepted retention call; and
a failed call changes nothing. -/
theorem project_image_pins_protect {start : Db} {calls : List Call} (hstart : start.Imageless)
    (hrun : Trace (Step parse) start calls db) :
    (∀ i ∈ db.images, i.phase = .deleting ∨ i.phase = .retired →
      ∀ r ∈ db.refs, r.imageId ≠ i.id) ∧
    (∀ later db', Trace (Step parse) db later db' → ∀ i ∈ db.images,
      ∃ i' ∈ db'.images, i.Later i') ∧
    (∀ c db', Step parse db c db' → ∀ r ∈ db.refs, r.kind = .vm →
      db.retains r.referenceId = true → r ∈ db'.refs) ∧
    (∀ owner tenant project, db.Retains calls owner tenant project) ∧
    ∀ c db' e, Step parse db c db' → c.reply = .error e → db' = db := by
  have hpinned : db.Pinned := hstart.pinned.run hrun
  refine ⟨?_, ?_, fun c db' hs r hr => pin_kept hs hr, .run hstart hrun, ?_⟩
  · intro i hi hphase r hr hid
    obtain ⟨hdeleting, hretired⟩ := hpinned.free r hr i hi hid.symm
    exact hphase.elim hdeleting hretired
  · intro later db' hlater i hi
    induction hlater with
    | nil => exact ⟨i, hi, .refl i⟩
    | snoc hlater hs ih =>
      obtain ⟨i', hi', hlater'⟩ := ih
      obtain ⟨i'', hi'', hstep⟩ := (hpinned.run hlater).image_later hs hi'
      exact ⟨i'', hi'', hlater'.trans hstep⟩
  · intro c db' e hs herror
    obtain ⟨_, _, hsame⟩ | ⟨v, hok, _⟩ := hs.cases
    · exact hsame
    · cases herror.symm.trans hok

section Sample

/-- The provenance of a build of project `p` of tenant `t`. -/
def provenance (build : String) : Json :=
  .obj [("build_id", .str build), ("project_id", .str "p"), ("tenant_id", .str "t")]

/-- A reader for the provenances of two builds. -/
def provenanceParse (text : String) : Option Json :=
  [provenance "a", provenance "b"].find? (·.render = text)

/-- A builder of a build. -/
def sampleBuilder (build owner : String) : ProjectEnvironmentBuilder :=
  ⟨build, "builder-" ++ build, owner, "", (provenance build).render, .creating, 1⟩

/-- The image of a build, before its capture. -/
def sampleImage (build owner : String) : ProjectEnvironmentImage :=
  { id := build, ownerUserId := owner, tenantId := "t", projectId := "p"
    metadataJson := (provenance build).render, requestJson := "", sourceVolumeId := ""
    sourceSandboxId := "builder-" ++ build, sourceLogicalBytes := 65536
    logicalBytes := 131072, phase := .preparing, digest := none, imagePath := none
    detail := none, createdAt := 1, updatedAt := 1 }

/-- A retention set with at most a current image. -/
def sampleRetention (owner : String) (generation : ℤ) (current : Option String) : RetentionSet :=
  ⟨owner, "t", "p", generation, "", current, none, [], []⟩

/-- The calls that capture an image. -/
def sampleCapture (build owner : String) : List Action :=
  [.admitProjectImage (sampleImage build owner), .setProjectImagePhase build .capturing none 2,
    .finishProjectImage build "digest" "path" 3]

/-- An image is captured and retained, a stale call comes late, and the image is pinned by a VM
that still exists when its pin is to be released. -/
def pinActions : List Action :=
  [.admitProjectBuilder (sampleBuilder "a" "alice")] ++ sampleCapture "a" "alice" ++
    [.retainProjectImages (sampleRetention "alice" 2 (some "a")),
      .retainProjectImages (sampleRetention "alice" 1 none),
      .pinProjectImageVm "a" "alice" "t" "p" "digest" "vm", .createSandbox "vm" "alice",
      .releaseProjectImageVm "vm", .beginProjectImageDelete "a" "alice" 4]

theorem project_image_pins_protect_sample :
    ∃ calls db, Trace (Step provenanceParse) { users := [⟨"alice", 100⟩] } calls db ∧
      db.refs = [⟨.build, "a", "a"⟩, ⟨.current, "t/p", "a"⟩, ⟨.vm, "vm", "a"⟩] ∧
      (∀ c db', Step provenanceParse db c db' → ∀ r ∈ db.refs, r.kind = .vm →
        db.retains r.referenceId = true → r ∈ db'.refs) ∧
      db.Retains calls "alice" "t" "p" := by
  have hrun := history_trace provenanceParse pinActions { users := [⟨"alice", 100⟩] }
  obtain ⟨_, _, hpins, hretains, _⟩ := project_image_pins_protect ⟨rfl, rfl, rfl⟩ hrun
  exact ⟨_, _, hrun, by decide +kernel, hpins, hretains _ _ _⟩

end Sample

end AgentHouse.Ledger
