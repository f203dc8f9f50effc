import AgentHouse.Ledger.Pins

/-!
# Owners and their views

What an owner can tell of the ledger is its view: the images of others, the references on them and
the retention rows of others are left out. A call of the owner on its own images runs on the view
as it does on the ledger, and a call of another owner leaves the view as it is, as long as no
reference of theirs takes a key that the owner uses.
-/

namespace AgentHouse.Ledger

variable {parse : String → Option Json} {db db' : Db} {owner : String}

/-- The reference is on an image of the owner. -/
def Db.owns (db : Db) (owner : String) (r : ImageRef) : Bool :=
  db.images.any fun i => i.id = r.imageId && i.ownerUserId = owner

/-- The ledger without the images of other owners. -/
def Db.view (db : Db) (owner : String) : Db :=
  { db with
    images := db.images.filter (·.ownerUserId = owner)
    refs := db.refs.filter (db.owns owner)
    retention := db.retention.filter (·.ownerUserId = owner) }

/-- No other owner has an image with the id. -/
def Db.Mine (db : Db) (owner id : String) : Prop :=
  ∀ i ∈ db.images, i.id = id → i.ownerUserId = owner

/-- The call is one of the owner on its own images, or none about images. -/
def Action.Own (owner : String) (db : Db) : Action → Prop
  | .admitProjectImage row => row.ownerUserId = owner ∧ db.Mine owner row.id
  | .retireUnadmittedProjectImage id o _ | .beginProjectImageDelete id o _
  | .pinProjectImageVm id o _ _ _ _ => o = owner ∧ db.Mine owner id
  | .setProjectImagePhase id _ _ _ | .finishProjectImage id _ _ _
  | .setProjectImageDetail id _ _ _ | .finishProjectImageRetirement id _ => db.Mine owner id
  | .retainProjectImages set =>
      set.ownerUserId = owner ∧ ∀ entry ∈ set.named, db.Mine owner entry.1
  | _ => True

/-- The call is one of another owner about images. -/
def Action.Foreign (owner : String) (db : Db) : Action → Prop
  | .admitProjectImage row => row.ownerUserId ≠ owner
  | .retireUnadmittedProjectImage _ o _ | .beginProjectImageDelete _ o _
  | .pinProjectImageVm _ o _ _ _ _ => o ≠ owner
  | .setProjectImagePhase id _ _ _ | .finishProjectImage id _ _ _
  | .setProjectImageDetail id _ _ _ | .finishProjectImageRetirement id _ =>
      ∀ i ∈ db.images, i.id = id → i.ownerUserId ≠ owner
  | .releaseProjectImageVm sandbox =>
      ∀ r ∈ db.refs, r.kind = .vm → r.referenceId = sandbox → db.owns owner r = false
  | .retainProjectImages set => set.ownerUserId ≠ owner
  | _ => False

/-- The keys of the references that the call may insert beside build pins. -/
def Action.keys : Action → List (RefKind × String)
  | .pinProjectImageVm _ _ _ _ _ sandbox => [(.vm, sandbox)]
  | .retainProjectImages set =>
      (set.current.map fun _ => (.current, projectKey set.tenantId set.projectId)).toList ++
        (set.previous.map fun _ => (.previous, projectKey set.tenantId set.projectId)).toList
  | _ => []

/-- What is kept of the references: build pins are on their own image, and no reference on an
image of another owner has one of the keys. -/
structure Db.Apart (db : Db) (owner : String) (keys : List (RefKind × String)) : Prop where
  exist : ∀ r ∈ db.refs, ∃ i ∈ db.images, i.id = r.imageId
  builds : ∀ r ∈ db.refs, r.kind = .build → r.referenceId = r.imageId
  foreign : ∀ r ∈ db.refs, db.owns owner r = false → (r.kind, r.referenceId) ∉ keys

/-- A reference is the owner's if its image is. -/
theorem owns_iff {r : ImageRef} :
    db.owns owner r = true ↔ ∃ i ∈ db.images, i.id = r.imageId ∧ i.ownerUserId = owner := by
  simp [Db.owns]

section Lookups

variable {keys : List (RefKind × String)} {id : String}

theorem row_view (hmine : db.Mine owner id) :
    Table.row ProjectEnvironmentImage.id id (db.view owner).images =
      Table.row ProjectEnvironmentImage.id id db.images :=
  Table.row_filter_of fun i hi hid => decide_eq_true (hmine i hi hid)

/-- The owner's images are in the owner's view. -/
theorem image_view (hmine : db.Mine owner id) : (db.view owner).image id = db.image id := by
  unfold Db.image
  rw [row_view hmine]

/-- A question about the owner's image is answered by the view. -/
theorem any_view (hmine : db.Mine owner id) (p : ProjectEnvironmentImage → Bool) :
    ((db.view owner).images.any fun i => i.id = id && p i) =
      db.images.any fun i => i.id = id && p i := by
  unfold Db.view
  rw [List.any_filter, Bool.eq_iff_iff, List.any_eq_true, List.any_eq_true]
  refine exists_congr fun i => and_congr_right fun hi => ?_
  simp only [Bool.and_eq_true, decide_eq_true_iff]
  exact ⟨And.right, fun h => ⟨hmine i hi h.1, h⟩⟩

/-- So is whether it is referenced. -/
theorem Db.Apart.referenced_view (h : db.Apart owner keys) (hmine : db.Mine owner id) :
    (db.view owner).referenced id = db.referenced id := by
  unfold Db.referenced Db.view
  rw [List.any_filter, Bool.eq_iff_iff, List.any_eq_true, List.any_eq_true]
  refine exists_congr fun r => and_congr_right fun hr => ?_
  rw [Bool.and_eq_true, decide_eq_true_iff, and_iff_right_iff_imp, owns_iff]
  rintro rfl
  obtain ⟨i, hi, hid⟩ := h.exist r hr
  exact ⟨i, hi, hid, hmine i hi hid⟩

/-- A key of which other owners have no reference. -/
theorem ref_view {kind : RefKind} {referenceId : String}
    (hmine : ∀ r ∈ db.refs, r.kind = kind → r.referenceId = referenceId → db.owns owner r = true) :
    (db.view owner).ref kind referenceId = db.ref kind referenceId := by
  refine Table.row_filter_of fun r hr hkey => ?_
  obtain ⟨hkind, hid⟩ := Prod.mk.inj hkey
  exact hmine r hr hkind hid

/-- And the reference under the owner's key. -/
theorem Db.Apart.ref_view (h : db.Apart owner keys) {kind : RefKind} {referenceId : String}
    (hkey : (kind, referenceId) ∈ keys) :
    (db.view owner).ref kind referenceId = db.ref kind referenceId := by
  refine Ledger.ref_view fun r hr hkind hid => ?_
  by_contra howns
  exact h.foreign r hr (Bool.eq_false_iff.mpr howns) (hkind ▸ hid ▸ hkey)

theorem Db.Apart.build_view (h : db.Apart owner keys) (hmine : db.Mine owner id) :
    (db.view owner).ref .build id = db.ref .build id := by
  refine Ledger.ref_view fun r hr hkind hid => owns_iff.mpr ?_
  obtain ⟨i, hi, hir⟩ := h.exist r hr
  exact ⟨i, hi, hir, hmine i hi (hir.trans ((h.builds r hr hkind).symm.trans hid))⟩

/-- And the owner's retention set. -/
theorem retentionOf_view (tenant project : String) :
    (db.view owner).retentionOf owner tenant project = db.retentionOf owner tenant project := by
  refine Table.row_filter_of fun r _ hkey => decide_eq_true ?_
  exact (Prod.mk.inj hkey).1

/-- And the owner's usage. -/
theorem imageUsage_view : (db.view owner).imageUsage owner = db.imageUsage owner := by
  unfold Db.imageUsage Db.view
  rw [List.filter_filter]
  congr 2
  refine List.filter_congr fun i _ => ?_
  cases hi : decide (i.ownerUserId = owner) <;> simp

end Lookups

section Others

variable (db) (owner)

/-- A map after two steps is one after the second. -/
theorem bind_map {α β γ : Type} (x : Result α) (k : α → Result β) (g : β → γ) :
    (x >>= k).map g = x >>= fun a => (k a).map g := by
  cases x with
  | error e => rfl
  | ok a => rfl

variable {db owner} in
/-- Two steps, the second one on the outcome of the first. -/
theorem bind_view {α β : Type} {x x' : Result Db} {k : Db → Result α} {g : α → β}
    {k' : Db → Result β} (hx : x' = x.map (·.view owner))
    (hk : ∀ db₁, x = .ok db₁ → k' (db₁.view owner) = (k db₁).map g) :
    x' >>= k' = (x >>= k).map g := by
  subst hx
  cases x with
  | error e => rfl
  | ok db₁ => exact hk db₁ rfl

/-- Each operation commutes with the view. -/
theorem delete_view (o volume : String) :
    deleteReplicatedReservation o volume (db.view owner) =
      (deleteReplicatedReservation o volume db).map (·.view owner) := by
  unfold deleteReplicatedReservation
  rw [bind_map]
  refine congrArg _ (funext fun row => ?_)
  split
  · rfl
  · rfl

/-- Confirmation of a retirement. -/
theorem confirm_view (o volume : String) (released complete : Bool) :
    confirmReplicatedRetirement o volume (db.view owner) released complete =
      (confirmReplicatedRetirement o volume db released complete).map
        fun p => (p.1, p.2.view owner) := by
  unfold confirmReplicatedRetirement
  rw [bind_map]
  refine congrArg _ (funext fun _ => ?_)
  rw [bind_map]
  refine congrArg _ (funext fun row => ?_)
  dsimp only
  split
  · rfl
  rw [bind_map]
  refine congrArg _ (funext fun _ => ?_)
  split
  · rw [bind_map]
    rfl
  · rfl

/-- Creation of a sandbox. -/
theorem createSandbox_view (id o : String) :
    createSandbox id o (db.view owner) = (createSandbox id o db).map (·.view owner) := by
  unfold createSandbox
  rw [bind_map]
  rfl

/-- Admission of a builder. -/
theorem admitBuilder_view (row : ProjectEnvironmentBuilder) :
    admitProjectBuilder (db.view owner) row =
      (admitProjectBuilder db row).map fun p => (p.1, p.2.view owner) := by
  unfold admitProjectBuilder
  rw [show (db.view owner).builder row.id = db.builder row.id from rfl]
  cases db.builder row.id with
  | some old =>
    dsimp only
    rw [bind_map]
    rfl
  | none =>
    dsimp only
    rw [bind_map]
    refine congrArg _ (funext fun _ => ?_)
    rw [bind_map]
    rfl

theorem setBuilderPhase_view (id : String) (phase : BuilderPhase) :
    setProjectBuilderPhase (db.view owner) id phase =
      (setProjectBuilderPhase db id phase).map (·.view owner) := by
  unfold setProjectBuilderPhase
  rw [bind_map]
  rfl

theorem rejectBuilder_view (id request : String) :
    rejectProjectBuilder (db.view owner) id request =
      (rejectProjectBuilder db id request).map (·.view owner) := by
  unfold rejectProjectBuilder
  rw [bind_map]
  refine congrArg _ (funext fun b => ?_)
  rw [bind_map]
  refine congrArg _ (funext fun _ => ?_)
  rw [bind_map]
  rfl

theorem admitOperation_view (id o sandbox request : String) :
    admitLifecycleOperation (db.view owner) id o sandbox request =
      (admitLifecycleOperation db id o sandbox request).map fun p => (p.1, p.2.view owner) := by
  unfold admitLifecycleOperation
  rw [show (db.view owner).operations = db.operations from rfl]
  cases Table.row LifecycleOperation.id id db.operations with
  | some old =>
    dsimp only
    rw [bind_map]
    rfl
  | none =>
    dsimp only
    rw [bind_map]
    rfl

/-- Opening the database again. -/
theorem reopen_view :
    (initSchema (db.view owner) >>= interruptLifecycleOperations) =
      (initSchema db >>= interruptLifecycleOperations).map (·.view owner) := by
  unfold initSchema
  rw [bind_map, bind_assoc, bind_assoc]
  rfl

/-- A reservation of the owner itself. -/
theorem reserve_view (sandbox volume : String) (bytes now : ℤ) :
    reserveReplicatedVolume owner sandbox volume bytes now (db.view owner) =
      (reserveReplicatedVolume owner sandbox volume bytes now db).map
        fun p => (p.1, p.2.view owner) := by
  unfold reserveReplicatedVolume
  rw [bind_map]
  refine congrArg _ (funext fun _ => ?_)
  rw [show (db.view owner).find volume = db.find volume from rfl]
  cases db.find volume with
  | some old =>
    dsimp only
    rw [bind_map]
    rfl
  | none =>
    have htotal : (db.view owner).reserveTotal owner bytes = db.reserveTotal owner bytes := by
      unfold Db.reserveTotal
      rw [imageUsage_view]
      rfl
    dsimp only
    rw [bind_map, htotal]
    refine congrArg _ (funext fun maximum => ?_)
    rw [bind_map]
    refine congrArg _ (funext fun total => ?_)
    rw [bind_map]
    refine congrArg _ (funext fun _ => ?_)
    rw [bind_map]
    rfl

end Others

section Images

variable {keys : List (RefKind × String)} {id : String}

/-- A change of an image that keeps its owner. -/
theorem view_reviseImage {f : ProjectEnvironmentImage → ProjectEnvironmentImage}
    (hid : ∀ i, (f i).id = i.id) (howner : ∀ i, (f i).ownerUserId = i.ownerUserId) :
    (db.reviseImage id f).view owner = (db.view owner).reviseImage id f := by
  have hid' (i : ProjectEnvironmentImage) : (if i.id = id then f i else i).id = i.id := by
    split
    · exact hid i
    · rfl
  have howner' (i : ProjectEnvironmentImage) :
      (if i.id = id then f i else i).ownerUserId = i.ownerUserId := by
    split
    · exact howner i
    · rfl
  have howns : (db.reviseImage id f).owns owner = db.owns owner := by
    funext r
    unfold Db.owns Db.reviseImage Table.revise
    rw [List.any_map]
    congr 1
    funext i
    simp only [Function.comp_apply, hid', howner']
  have himages : (db.reviseImage id f).images.filter (·.ownerUserId = owner) =
      Table.revise ProjectEnvironmentImage.id id f (db.images.filter (·.ownerUserId = owner)) := by
    unfold Db.reviseImage Table.revise
    rw [List.filter_map]
    congr 1
    refine List.filter_congr fun i _ => ?_
    simp only [Function.comp_apply, howner']
  unfold Db.view
  rw [howns, himages]
  rfl

/-- A revision of one image, after a check that the view passes as well. -/
theorem revise_view {c c' : Prop} [Decidable c] [Decidable c'] {e : Error}
    {f : ProjectEnvironmentImage → ProjectEnvironmentImage} (hc : c' ↔ c)
    (hid : ∀ i, (f i).id = i.id) (howner : ∀ i, (f i).ownerUserId = i.ownerUserId) :
    (refuse c' e >>= fun _ => pure ((db.view owner).reviseImage id f)) =
      (refuse c e >>= fun _ => pure (db.reviseImage id f)).map (·.view owner) := by
  rw [bind_map, refuse, refuse, if_congr hc rfl rfl, ← view_reviseImage hid howner]
  rfl

/-- A phase of the owner's image. -/
theorem setImagePhase_view (hmine : db.Mine owner id) (phase : ImagePhase) (detail : Option String)
    (now : ℤ) :
    setProjectImagePhase (db.view owner) id phase detail now =
      (setProjectImagePhase db id phase detail now).map (·.view owner) := by
  unfold setProjectImagePhase
  rw [bind_map]
  refine congrArg _ (funext fun _ => ?_)
  exact revise_view (by rw [any_view hmine]) (fun _ => rfl) fun _ => rfl

theorem finishImage_view (hmine : db.Mine owner id) (digest path : String) (now : ℤ) :
    finishProjectImage (db.view owner) id digest path now =
      (finishProjectImage db id digest path now).map (·.view owner) :=
  revise_view (by rw [any_view hmine]) (fun _ => rfl) fun _ => rfl

theorem setImageDetail_view (hmine : db.Mine owner id) (expected : ImagePhase) (detail : String)
    (now : ℤ) :
    setProjectImageDetail (db.view owner) id expected detail now =
      (setProjectImageDetail db id expected detail now).map (·.view owner) :=
  revise_view (by rw [any_view hmine]) (fun _ => rfl) fun _ => rfl

/-- The end of its retirement. -/
theorem finishRetirement_view (h : db.Apart owner keys) (hmine : db.Mine owner id) (now : ℤ) :
    finishProjectImageRetirement (db.view owner) id now =
      (finishProjectImageRetirement db id now).map (·.view owner) := by
  unfold finishProjectImageRetirement
  rw [bind_map, image_view hmine]
  refine congrArg _ (funext fun row => ?_)
  split
  · rfl
  · exact revise_view (by rw [h.referenced_view hmine]) (fun _ => rfl) fun _ => rfl

/-- The beginning of its deletion. -/
theorem beginDelete_view (h : db.Apart owner keys) (hmine : db.Mine owner id) (o : String)
    (now : ℤ) :
    beginProjectImageDelete (db.view owner) id o now =
      (beginProjectImageDelete db id o now).map fun p => (p.1, p.2.view owner) := by
  unfold beginProjectImageDelete
  rw [bind_map, image_view hmine]
  refine congrArg _ (funext fun row => ?_)
  rw [bind_map]
  refine congrArg _ (funext fun _ => ?_)
  split
  · rfl
  · rw [bind_map, h.referenced_view hmine]
    refine congrArg _ (funext fun _ => ?_)
    refine congrArg (fun db' => Except.ok (_, db')) (Eq.symm (view_reviseImage ?_ ?_))
    · exact fun _ => rfl
    · exact fun _ => rfl

/-- A reference on an image of the owner is in its view. -/
theorem view_addRef {r : ImageRef} (howns : db.owns owner r = true) :
    Db.view { db with refs := db.refs ++ [r] } owner =
      { db.view owner with refs := (db.view owner).refs ++ [r] } := by
  have hsame : Db.owns { db with refs := db.refs ++ [r] } owner = db.owns owner := rfl
  unfold Db.view
  rw [hsame, List.filter_append, List.filter_singleton, howns]
  rfl

/-- A reference to the owner's image, under a key that others leave alone. -/
theorem insertRef_view {kind : RefKind} {referenceId imageId : String}
    (hmine : db.Mine owner imageId)
    (href : (db.view owner).ref kind referenceId = db.ref kind referenceId) :
    (db.view owner).insertRef kind referenceId imageId =
      (db.insertRef kind referenceId imageId).map (·.view owner) := by
  have hall : ((db.view owner).images.all (·.id ≠ imageId)) = db.images.all (·.id ≠ imageId) := by
    rw [← Bool.not_inj_iff, List.not_all_eq_any_not, List.not_all_eq_any_not]
    have := any_view hmine fun _ => true
    simpa using this
  unfold Db.insertRef
  rw [bind_map, href, hall]
  by_cases hc : (db.ref kind referenceId).isSome ∨ db.images.all (·.id ≠ imageId)
  · rw [refuse, if_pos hc]
    rfl
  · rw [refuse, if_neg hc]
    rw [not_or, List.all_eq_true] at hc
    push Not at hc
    obtain ⟨_, i, hi, hid⟩ := hc
    have hid : i.id = imageId := by simpa using hid
    have howns : db.owns owner ⟨kind, referenceId, imageId⟩ = true :=
      owns_iff.mpr ⟨i, hi, hid, hmine i hi hid⟩
    exact congrArg Except.ok (view_addRef howns).symm

theorem insertRefOrIgnore_view {kind : RefKind} {referenceId imageId : String}
    (hmine : db.Mine owner imageId)
    (href : (db.view owner).ref kind referenceId = db.ref kind referenceId) :
    (db.view owner).insertRefOrIgnore kind referenceId imageId =
      (db.insertRefOrIgnore kind referenceId imageId).map (·.view owner) := by
  unfold Db.insertRefOrIgnore
  rw [href]
  split
  · rfl
  · exact insertRef_view hmine href

/-- A pin. -/
theorem pin_view (h : db.Apart owner keys) (hmine : db.Mine owner id)
    (o tenant project digest sandbox : String) (hkey : (.vm, sandbox) ∈ keys) :
    pinProjectImageVm (db.view owner) id o tenant project digest sandbox =
      (pinProjectImageVm db id o tenant project digest sandbox).map (·.view owner) := by
  unfold pinProjectImageVm
  rw [bind_map, image_view hmine, h.ref_view hkey]
  refine congrArg _ (funext fun row => ?_)
  rw [bind_map]
  refine congrArg _ (funext fun _ => ?_)
  rw [bind_map]
  refine congrArg _ (funext fun _ => ?_)
  exact insertRefOrIgnore_view hmine (h.ref_view hkey)

/-- Filters on references commute with the view. -/
theorem view_filterRefs (p : ImageRef → Bool) :
    Db.view { db with refs := db.refs.filter p } owner =
      { db.view owner with refs := (db.view owner).refs.filter p } := by
  have hsame : Db.owns { db with refs := db.refs.filter p } owner = db.owns owner := rfl
  unfold Db.view
  rw [hsame, List.filter_filter, List.filter_filter]
  congr 1
  exact List.filter_congr fun r _ => Bool.and_comm _ _

/-- And its release, by anybody. -/
theorem release_view (sandbox : String) :
    releaseProjectImageVm (db.view owner) sandbox =
      (releaseProjectImageVm db sandbox).map (·.view owner) := by
  unfold releaseProjectImageVm
  rw [bind_map, ← view_filterRefs]
  rfl

/-- A new image of the owner is in the view. -/
theorem view_addImage (h : db.Apart owner keys) {row : ProjectEnvironmentImage}
    (howner : row.ownerUserId = owner)
    (hnone : Table.row ProjectEnvironmentImage.id row.id db.images = none) :
    Db.view { db with images := db.images ++ [row] } owner =
      { db.view owner with images := (db.view owner).images ++ [row] } := by
  have hrefs : db.refs.filter (Db.owns { db with images := db.images ++ [row] } owner) =
      db.refs.filter (db.owns owner) := by
    refine List.filter_congr fun r hr => ?_
    obtain ⟨i, hi, hid⟩ := h.exist r hr
    have hne : row.id ≠ r.imageId := fun heq =>
      Table.row_eq_none.mp hnone i hi (hid.trans heq.symm)
    simp [Db.owns, List.any_append, hne]
  unfold Db.view
  rw [hrefs, List.filter_append, List.filter_singleton, howner, decide_eq_true rfl]
  rfl

/-- The retirement of an image that was never admitted. -/
theorem retireUnadmitted_view (h : db.Apart owner keys) (hmine : db.Mine owner id) (now : ℤ) :
    retireUnadmittedProjectImage parse (db.view owner) id owner now =
      (retireUnadmittedProjectImage parse db id owner now).map fun p => (p.1, p.2.view owner) := by
  unfold retireUnadmittedProjectImage
  rw [row_view hmine]
  cases hrow : Table.row ProjectEnvironmentImage.id id db.images with
  | some row => rfl
  | none =>
    rw [show (db.view owner).builder id = db.builder id from rfl]
    cases hb : (db.builder id).filter fun b => b.ownerUserId = owner with
    | none => rfl
    | some b =>
      obtain ⟨hb, howner⟩ := filter_some hb
      change (require (parse b.metadataJson) .json >>= _) =
        Except.map _ (require (parse b.metadataJson) .json >>= _)
      rw [bind_map]
      refine congrArg _ (funext fun metadata => ?_)
      rw [bind_map]
      refine congrArg _ (funext fun tenant => ?_)
      rw [bind_map]
      refine congrArg _ (funext fun project => ?_)
      rw [bind_map]
      refine congrArg _ (funext fun _ => ?_)
      refine congrArg (fun db' => Except.ok (_, db')) (view_addImage h ?_ ?_).symm
      · exact of_decide_eq_true howner
      · rw [ProjectEnvironmentImage.unadmitted, (Table.row_mem hb).2]
        exact hrow

/-- The admission of an image. -/
theorem admitImage_view (h : db.Apart owner keys) {row : ProjectEnvironmentImage}
    (howner : row.ownerUserId = owner) (hmine : db.Mine owner row.id) :
    admitProjectImage parse (db.view owner) row =
      (admitProjectImage parse db row).map fun p => (p.1, p.2.view owner) := by
  unfold admitProjectImage
  rw [bind_map, row_view hmine]
  refine congrArg _ (funext fun expected => ?_)
  rw [bind_map]
  refine congrArg _ (funext fun _ => ?_)
  cases hrow : Table.row ProjectEnvironmentImage.id row.id db.images with
  | some old =>
    dsimp only
    rw [bind_map]
    rfl
  | none =>
    dsimp only
    rw [bind_map]
    refine congrArg _ (funext fun b => ?_)
    rw [bind_map]
    refine congrArg _ (funext fun provenance => ?_)
    rw [bind_map]
    by_cases hb : b.ownerUserId = owner
    · have htotal : (db.view owner).imageTotal b.ownerUserId row.logicalBytes =
          db.imageTotal b.ownerUserId row.logicalBytes := by
        rw [hb]
        unfold Db.imageTotal
        rw [imageUsage_view]
        rfl
      rw [htotal]
      refine congrArg _ (funext fun _ => ?_)
      rw [bind_map]
      refine congrArg _ (funext fun user => ?_)
      rw [bind_map]
      refine congrArg _ (funext fun total => ?_)
      rw [bind_map]
      refine congrArg _ (funext fun _ => ?_)
      rw [bind_map]
      refine congrArg _ (funext fun maximum => ?_)
      rw [bind_map]
      refine congrArg _ (funext fun _ => ?_)
      refine bind_view ?_ fun db₁ _ => rfl
      have hnew : row.preparing ∈ db.images ++ [row.preparing] :=
        List.mem_append_right _ (List.mem_singleton_self _)
      have hview := view_addImage h (show row.preparing.ownerUserId = owner from howner) hrow
      refine (congrArg (Db.insertRef · .build row.id row.id) hview.symm).trans
        (insertRef_view ?_ (ref_view ?_))
      · intro i hi hid
        obtain hi | rfl := Table.mem_snoc.mp hi
        · exact hmine i hi hid
        · exact howner
      · intro r hr hkind hid
        exact owns_iff.mpr ⟨_, hnew, hid.symm.trans (h.builds r hr hkind), howner⟩
    · rw [refuse, if_pos (.inl fun heq => hb (heq.trans howner))]
      rfl

end Images

section Retention

variable {keys : List (RefKind × String)} {set : RetentionSet}

/-- The same images with some of the references. -/
theorem Db.Apart.filterRefs (h : db.Apart owner keys) (p : ImageRef → Bool) :
    Db.Apart { db with refs := db.refs.filter p } owner keys where
  exist r hr := h.exist r (List.mem_of_mem_filter hr)
  builds r hr := h.builds r (List.mem_of_mem_filter hr)
  foreign r hr := h.foreign r (List.mem_of_mem_filter hr)

/-- A reference to the owner's own image keeps the owner apart. -/
theorem Db.Apart.insertRef (h : db.Apart owner keys) {kind : RefKind} {referenceId imageId : String}
    (hmine : db.Mine owner imageId) (hbuild : kind = .build → referenceId = imageId)
    (hok : db.insertRef kind referenceId imageId = .ok db') :
    db'.Apart owner keys ∧ db'.images = db.images := by
  unfold Db.insertRef at hok
  obtain ⟨_, hfree, hok⟩ := bind_ok hok
  obtain rfl := Except.ok.inj hok
  have hfree := refuse_eq_ok hfree
  rw [not_or, List.all_eq_true] at hfree
  push Not at hfree
  obtain ⟨_, i, hi, hid⟩ := hfree
  have hid : i.id = imageId := by simpa using hid
  refine ⟨⟨fun r hr => ?_, fun r hr => ?_, fun r hr => ?_⟩, rfl⟩
  · obtain hr | rfl := Table.mem_snoc.mp hr
    · exact h.exist r hr
    · exact ⟨i, hi, hid⟩
  · obtain hr | rfl := Table.mem_snoc.mp hr
    · exact h.builds r hr
    · exact hbuild
  · obtain hr | rfl := Table.mem_snoc.mp hr
    · exact h.foreign r hr
    · intro howns
      have : db.owns owner ⟨kind, referenceId, imageId⟩ = true :=
        owns_iff.mpr ⟨i, hi, hid, hmine i hi hid⟩
      exact absurd (this.symm.trans howns) (by simp)

/-- The references of a retention set. -/
theorem insert_view (h : db.Apart owner keys) {kind : RefKind} {id : Option String}
    (hkey : ∀ x, id = some x → (kind, projectKey set.tenantId set.projectId) ∈ keys)
    (hmine : ∀ x, id = some x → db.Mine owner x) :
    set.insert kind id (db.view owner) = (set.insert kind id db).map (·.view owner) := by
  cases id with
  | none => rfl
  | some id => exact insertRef_view (hmine id rfl) (h.ref_view (hkey id rfl))

theorem Db.Apart.insert (h : db.Apart owner keys) {kind : RefKind} {id : Option String}
    (hkind : kind ≠ .build) (hmine : ∀ x, id = some x → db.Mine owner x)
    (hok : set.insert kind id db = .ok db') : db'.Apart owner keys ∧ db'.images = db.images := by
  cases id with
  | none =>
    obtain rfl := Except.ok.inj hok
    exact ⟨h, rfl⟩
  | some id => exact h.insertRef (hmine id rfl) (fun hbuild => absurd hbuild hkind) hok

/-- By induction on the images, those of the builds in use. -/
theorem activate_view {ids : List String} (h : db.Apart owner keys)
    (hmine : ∀ id ∈ ids, db.Mine owner id) :
    ids.foldlM (fun (db : Db) id => db.insertRefOrIgnore .build id id) (db.view owner) =
      (ids.foldlM (fun (db : Db) id => db.insertRefOrIgnore .build id id) db).map
        (·.view owner) := by
  induction ids generalizing db with
  | nil => rfl
  | cons id ids ih =>
    have hid := hmine id List.mem_cons_self
    rw [List.foldlM_cons, List.foldlM_cons]
    refine bind_view (insertRefOrIgnore_view hid (h.build_view hid)) fun db₁ hok => ?_
    have hnext : db₁.Apart owner keys ∧ db₁.images = db.images := by
      unfold Db.insertRefOrIgnore at hok
      split at hok
      · obtain rfl := Except.ok.inj hok
        exact ⟨h, rfl⟩
      · exact h.insertRef hid (fun _ => rfl) hok
    refine ih hnext.1 fun x hx => ?_
    unfold Db.Mine
    rw [hnext.2]
    exact hmine x (List.mem_cons_of_mem _ hx)

/-- Whether a set replaces the last one. -/
theorem replaces_view (howner : set.ownerUserId = owner) :
    set.replaces (db.view owner) = set.replaces db := by
  funext r
  unfold RetentionSet.replaces Db.view
  rw [List.any_filter]
  congr 2
  funext i
  rw [ProjectEnvironmentImage.belongs, howner]
  cases hi : decide (i.ownerUserId = owner) <;> simp

theorem check_view {entry : String × Bool} (hmine : db.Mine owner entry.1) :
    set.check (db.view owner) entry = set.check db entry := by
  unfold RetentionSet.check
  rw [image_view hmine]

theorem forM_congr {α : Type} {as : List α} {f g : α → Result Unit} (h : ∀ a ∈ as, f a = g a) :
    as.forM f = as.forM g := by
  induction as with
  | nil => rfl
  | cons a as ih =>
    have ih := ih fun b hb => h b (List.mem_cons_of_mem _ hb)
    change (f a >>= fun _ => as.forM f) = g a >>= fun _ => as.forM g
    rw [h a List.mem_cons_self, ih]

/-- The record of a set. -/
theorem record_view (howner : set.ownerUserId = owner) :
    set.record (db.view owner) = (set.record db).map (·.view owner) := by
  unfold RetentionSet.record
  rw [bind_map]
  refine congrArg _ (funext fun _ => congrArg Except.ok ?_)
  have hretention : (db.retention.filter (fun r => r.key ≠ set.row.key) ++ [set.row]).filter
      (·.ownerUserId = owner) =
      (db.retention.filter (·.ownerUserId = owner)).filter (fun r => r.key ≠ set.row.key) ++
        [set.row] := by
    rw [List.filter_append, List.filter_singleton, List.filter_filter, List.filter_filter,
      show decide (set.row.ownerUserId = owner) = true from decide_eq_true howner]
    congr 1
    exact List.filter_congr fun r _ => Bool.and_comm _ _
  exact congrArg (fun retention => { db.view owner with retention }) hretention.symm

/-- A retention call of the owner. -/
theorem retain_view (h : db.Apart owner keys) (howner : set.ownerUserId = owner)
    (hmine : ∀ entry ∈ set.named, db.Mine owner entry.1)
    (hkeys : ∀ key ∈ (Action.retainProjectImages set).keys, key ∈ keys) :
    retainProjectImages (db.view owner) set =
      (retainProjectImages db set).map (·.view owner) := by
  have hcurrent (x : String) (hx : set.current = some x) : db.Mine owner x :=
    hmine (x, true) (by simp [RetentionSet.named, hx])
  have hprevious (x : String) (hx : set.previous = some x) : db.Mine owner x :=
    hmine (x, true) (by simp [RetentionSet.named, hx])
  have hactive (x : String) (hx : x ∈ set.active) : db.Mine owner x :=
    hmine (x, false) (by simp [RetentionSet.named, hx])
  unfold retainProjectImages
  rw [bind_map]
  refine congrArg _ (funext fun _ => ?_)
  rw [howner, retentionOf_view, bind_map]
  refine congrArg _ (funext fun _ => ?_)
  dsimp only
  split
  · rfl
  rw [bind_map, forM_congr fun entry hentry => check_view (hmine entry hentry)]
  refine congrArg _ (funext fun _ => ?_)
  have hkept := h.filterRefs fun r => !set.replaces db r
  rw [replaces_view howner, ← view_filterRefs]
  refine bind_view (insert_view hkept (fun x hx => hkeys _ ?_) hcurrent) fun db₁ hok₁ => ?_
  · simp [Action.keys, hx]
  obtain ⟨h₁, himages₁⟩ := hkept.insert (by simp) hcurrent hok₁
  have hmine₁ {x : String} (hx : db.Mine owner x) : db₁.Mine owner x := by
    unfold Db.Mine
    rw [himages₁]
    exact hx
  refine bind_view (insert_view h₁ (fun x hx => hkeys _ ?_) fun x hx => hmine₁ (hprevious x hx))
    fun db₂ hok₂ => ?_
  · simp [Action.keys, hx]
  obtain ⟨h₂, himages₂⟩ := h₁.insert (by simp) (fun x hx => hmine₁ (hprevious x hx)) hok₂
  have hmine₂ {x : String} (hx : db.Mine owner x) : db₂.Mine owner x := by
    unfold Db.Mine
    rw [himages₂]
    exact hmine₁ hx
  refine bind_view (activate_view h₂ fun x hx => hmine₂ (hactive x hx)) fun db₃ _ => ?_
  rw [← view_filterRefs]
  exact record_view howner

end Retention

section Steps

variable {keys : List (RefKind × String)} {a : Action} {v : Value}

/-- Operations without a value. -/
theorem plain_view {r r' : Result Db} (h : r' = r.map (·.view owner)) :
    plain r' = (plain r).map fun p => (p.1, p.2.view owner) := by
  subst h
  cases r with
  | error e => rfl
  | ok db => rfl

/-- Operations with one. -/
theorem tagged_view {α : Type} {tag : α → Value} {r r' : Result (α × Db)}
    (h : r' = r.map fun p => (p.1, p.2.view owner)) :
    tagged tag r' = (tagged tag r).map fun p => (p.1, p.2.view owner) := by
  subst h
  cases r with
  | error e => rfl
  | ok p => rfl

/-- A call of the owner on its own images does in the view what it does in the ledger. -/
theorem body_view (h : db.Apart owner keys) (hown : a.Own owner db)
    (hkeys : ∀ key ∈ a.keys, key ∈ keys)
    (hreserve : ∀ o sandbox volume bytes now,
      a = .reserveReplicatedVolume o sandbox volume bytes now → o = owner) :
    a.body parse (db.view owner) = (a.body parse db).map fun p => (p.1, p.2.view owner) := by
  cases a with
  | reserveReplicatedVolume o sandbox volume bytes now =>
    obtain rfl := hreserve o sandbox volume bytes now rfl
    exact tagged_view (reserve_view db _ sandbox volume bytes now)
  | deleteReplicatedReservation o volume => exact plain_view (delete_view db owner o volume)
  | confirmReplicatedRetirement o volume released complete =>
    exact tagged_view (confirm_view db owner o volume released complete)
  | createSandbox id o => exact plain_view (createSandbox_view db owner id o)
  | deleteSandbox id => rfl
  | admitProjectBuilder row => exact tagged_view (admitBuilder_view db owner row)
  | setProjectBuilderPhase id phase => exact plain_view (setBuilderPhase_view db owner id phase)
  | rejectProjectBuilder id request => exact plain_view (rejectBuilder_view db owner id request)
  | admitProjectImage row => exact tagged_view (admitImage_view h hown.1 hown.2)
  | retireUnadmittedProjectImage id o now =>
    obtain ⟨rfl, hmine⟩ := hown
    exact tagged_view (retireUnadmitted_view h hmine now)
  | setProjectImagePhase id phase detail now =>
    exact plain_view (setImagePhase_view hown phase detail now)
  | finishProjectImage id digest path now =>
    exact plain_view (finishImage_view hown digest path now)
  | setProjectImageDetail id expected detail now =>
    exact plain_view (setImageDetail_view hown expected detail now)
  | beginProjectImageDelete id o now => exact tagged_view (beginDelete_view h hown.2 o now)
  | finishProjectImageRetirement id now => exact plain_view (finishRetirement_view h hown now)
  | pinProjectImageVm id o tenant project digest sandbox =>
    exact plain_view (pin_view h hown.2 o tenant project digest sandbox
      (hkeys _ (List.mem_singleton_self _)))
  | releaseProjectImageVm sandbox => exact plain_view (release_view sandbox)
  | retainProjectImages set => exact plain_view (retain_view h hown.1 hown.2 hkeys)
  | admitLifecycleOperation id o sandbox request =>
    exact tagged_view (admitOperation_view db owner id o sandbox request)
  | finishLifecycleOperation id status error sandboxState volume => rfl
  | reopen => exact plain_view (reopen_view db owner)

end Steps

end AgentHouse.Ledger
