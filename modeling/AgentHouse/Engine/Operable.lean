import AgentHouse.Engine.Isolation

/-!
# Which ids can be operated on

`stop` and `fork` check names that they derive from the id of a sandbox as snapshot ids. They
accept fewer names than `validate_id` does.
-/

namespace AgentHouse.Engine

open AgentHouse.Regions AgentHouse.Regions.Proc

/-- The error is about the name of a snapshot: it is invalid, in use by another operation, or
taken. -/
def Error.About (name : String) (e : Error) : Prop :=
  e = .badSnapshotId name ∨ e = .inProgress (snapKey name) ∨ e = .snapshotExists name

/-- A rejection because of the name of a snapshot. -/
def Rejects {β : Type} (name : String) (r : Except Error β) : Prop :=
  ∃ e : Error, r = .error e ∧ e.About name

/-- An error about no such name. -/
def Neutral (e : Error) : Prop := ∀ name, ¬ e.About name

variable {β γ : Type} {id source name : String} {live : Live} {b : Backend} {e : Error}

theorem rejects_ok {a : β} : ¬ Rejects name (.ok a : Except Error β) := nofun

/-- A call rejects a name if and only if its error is about it. -/
theorem rejects_error : Rejects name (.error e : Except Error β) ↔ e.About name :=
  ⟨fun ⟨_, h, habout⟩ => Except.error.inj h ▸ habout, fun h => ⟨e, rfl, h⟩⟩

theorem not_rejects {p : Call β} (h : Fails Neutral p) : ¬ Rejects name (p b).1 :=
  fun ⟨e, he, habout⟩ => h b e he name habout

/-! ## Calls that reject no name -/

section Failures

variable {E : Error → Prop} {p q : Path}

/-- The errors of each call, from the inside out. -/
theorem persistRecord_fails : Fails E (persistRecord id live) := .bind .edit fun _ => .edit

theorem recoverBundle_fails : Fails E (recoverBundle id) :=
  .bind .view fun _ => .only <| .bind .view fun _ => .bind (.only .edit) fun _ =>
    .bind .view fun _ => .only .edit

theorem publishBundle_fails : Fails E (publishBundle id p) :=
  .bind recoverBundle_fails fun _ => .bind .view fun _ => .bind (.only .edit) fun _ =>
    .bind .edit fun _ => .bind .view fun _ => .only .edit

theorem checkpoint_fails : Fails E (checkpoint id live name) :=
  .bind .edit fun _ => .bind .edit fun _ => .bind .edit fun _ => .bind (.each (fun _ => .edit) _)
    fun _ => .bind .edit fun _ => .bind (.each (fun _ => .edit) _) fun _ => .bind .edit fun _ =>
    .bind .edit fun _ => .bind .edit fun _ => .bind .edit fun _ => .bind .edit fun _ =>
    publishBundle_fails

theorem readManifest_fails (h : E .manifest) : Fails E (readManifest p) := by
  refine .bind .view fun found => ?_
  split
  · exact .pure
  · exact .fail h

theorem neutral_manifest : Neutral .manifest := by rintro name (h | h | h) <;> cases h

theorem publish_fails : Fails Neutral (publish id name) :=
  .bind .edit fun _ => .bind (.cleaning (.bind .edit fun _ => .bind .edit fun _ => .bind .edit
    fun _ => readManifest_fails neutral_manifest)) fun _ => .bind .assign fun _ => .pure

theorem sandbox_fails (h : E (.sandboxNotFound id)) : Fails E (sandbox id) := by
  refine .bind .tables fun t => ?_
  cases t.sandboxes id with
  | none => exact .fail h
  | some live => exact .pure

theorem runningSource_fails : Fails Neutral (runningSource id) := by
  refine .bind .tables fun _ => .ite (.fail ?_) (.bind (sandbox_fails ?_) fun _ =>
    .ite (.fail ?_) (.ite (.fail ?_) .pure))
  all_goals
    rintro name (h | h | h) <;> cases h

theorem restoreInner_fails : Fails Neutral (restoreInner name id live) := by
  refine .bind .tables fun _ => .ite (.fail ?_) (.ite (.fail ?_)
    (.bind (readManifest_fails neutral_manifest) fun _ => .ite (.fail ?_)
      (.bind .edit fun _ => .bind .edit fun _ => .bind persistRecord_fails fun _ =>
        .bind .assign fun _ => .pure)))
  all_goals
    rintro name (h | h | h) <;> cases h

theorem halt_fails : Fails E (halt id live) := .bind .assign fun _ => persistRecord_fails

end Failures

/-! ## Checks before the work -/

/-- The check of the id is about no snapshot. -/
theorem validateId_neutral (h : validateId id = .error e) : Neutral e := by
  unfold validateId at h
  split_ifs at h <;> cases h <;> rintro name (h | h | h) <;> cases h

/-- The backend with a key in use. -/
def holding (key : String) (b : Backend) : Backend :=
  { b with tables := { b.tables with reservations := key :: b.tables.reservations } }

/-- A key that is in use rejects, and otherwise the operation goes on with the key in use. -/
theorem reserving_run {key : String} {p : Call β} : (reserving key p b).1 =
    if key ∈ b.tables.reservations then .error (.inProgress key) else (p (holding key b)).1 := by
  rw [reserving, tables_bind]
  by_cases h : key ∈ b.tables.reservations
  · rw [if_pos h, if_pos h]
    rfl
  · rw [if_neg h, if_neg h]
    rfl

/-- A valid id passes it. -/
theorem lift_valid (h : validateId id = .ok ()) {p : Call β} :
    (do lift (validateId id); p : Call β) b = p b := by
  rw [h]
  rfl

theorem sandbox_run (h : b.tables.sandboxes id = some live) : sandbox id b = (.ok live, b) := by
  rw [sandbox, tables_bind, h]
  rfl

theorem sandbox_missing (h : b.tables.sandboxes id = none) :
    sandbox id b = (.error (.sandboxNotFound id), b) := by
  rw [sandbox, tables_bind, h]
  rfl

/-- A resumed sandbox is the same one. -/
theorem resumeResident_run (h : b.tables.sandboxes id = some live) :
    ∃ b' live', resumeResident id b = (.ok (), b') ∧ b'.tables.sandboxes id = some live' ∧
      live'.replicated = live.replicated ∧ live'.worker = live.worker ∧
      live'.desktop = live.desktop := by
  rw [resumeResident, bind_of_ok (sandbox_run h), only]
  split
  · refine ⟨_, { live with state := .running, needsResume := false }, rfl, ?_, rfl, rfl, rfl⟩
    exact if_pos rfl
  · exact ⟨b, live, rfl, h, rfl, rfl, rfl⟩

/-- `snapshot_live` rejects the names that are no snapshot ids. -/
theorem snapshotLive_rejects : Rejects name (snapshotLive id live name b).1 ↔
    live.desktop = false ∧ validateSnapshotId name ≠ .ok () := by
  rw [snapshotLive]
  cases hdesktop : live.desktop with
  | true =>
    rw [if_pos rfl]
    exact iff_of_false (by rintro ⟨_, h, hn | hn | hn⟩ <;> cases h <;> cases hn) nofun
  | false =>
    rw [if_neg Bool.false_ne_true]
    by_cases hok : validateSnapshotId name = .ok ()
    · rw [hok]
      exact iff_of_false (not_rejects checkpoint_fails) fun h => h.2 rfl
    · rw [validateSnapshotId_error hok]
      exact iff_of_true ⟨_, rfl, .inl rfl⟩ ⟨rfl, nofun⟩

/-! ## Stopping -/

theorem inProgress_neutral (h : validateId id = .ok ()) : Neutral (.inProgress id) := by
  rintro name (hn | hn | hn)
  · cases hn
  · exact id_ne_snapKey h (Error.inProgress.inj hn)
  · cases hn

/-- What follows a call with neutral errors rejects nothing by itself. -/
theorem bind_rejects {p : Call γ} {f : γ → Call β} (hf : ∀ c, Fails Neutral (f c)) :
    Rejects name ((p >>= f) b).1 ↔ Rejects name (p b).1 := by
  cases hp : (p b).1 with
  | error e =>
    rw [bind_error (Prod.ext hp rfl)]
    exact rejects_error.trans rejects_error.symm
  | ok c =>
    rw [bind_of_ok (Prod.ext hp rfl)]
    exact iff_of_false (not_rejects (hf c)) rejects_ok

/-- The sandbox takes a checkpoint where it stops: it is local, has a worker and no desktop. -/
def Freezes (b : Backend) (id : String) : Prop :=
  ∃ live, b.tables.sandboxes id = some live ∧ live.replicated = false ∧ live.worker = true ∧
    live.desktop = false

/-- A stop under its reservation rejects its snapshot if it has to freeze and the name is
refused. -/
theorem stopHeld_rejects : Rejects (stopId id) (stopHeld id b).1 ↔
    Freezes b id ∧ validateSnapshotId (stopId id) ≠ .ok () := by
  have hhalt (live : Live) : Fails Neutral (do
      removeTree (sandboxDir id ++ ["state.json"])
      halt id live) := .bind .edit fun _ => halt_fails
  have hnone {e : Error} (he : Neutral e) : ¬ Rejects (stopId id) (.error e : Except Error Unit) :=
    fun h => he _ (rejects_error.mp h)
  rw [stopHeld]
  cases hlive : b.tables.sandboxes id with
  | none =>
    have hresume : resumeResident id b = (.error (.sandboxNotFound id), b) := by
      rw [resumeResident, bind_error (sandbox_missing hlive)]
    rw [bind_error hresume]
    refine iff_of_false (hnone ?_) ?_
    · rintro name (hn | hn | hn) <;> cases hn
    · rintro ⟨⟨live, hsome, -⟩, -⟩
      rw [hlive] at hsome
      cases hsome
  | some live =>
    have hfreezes : Freezes b id ↔
        live.replicated = false ∧ live.worker = true ∧ live.desktop = false := by
      refine ⟨?_, fun h => ⟨live, hlive, h⟩⟩
      rintro ⟨_, hsome, h⟩
      rw [hlive] at hsome
      cases hsome
      exact h
    obtain ⟨b', live', hresume, hlive', hreplicated, hworker, hdesktop⟩ :=
      resumeResident_run hlive
    rw [bind_of_ok hresume, bind_of_ok (sandbox_run hlive'), hfreezes, ← hreplicated, ← hworker,
      ← hdesktop]
    cases hr : live'.replicated with
    | true =>
      rw [if_pos rfl]
      refine iff_of_false (not_rejects (.ite (.fail ?_) (hhalt live'))) nofun
      rintro name (hn | hn | hn) <;> cases hn
    | false =>
      rw [if_neg Bool.false_ne_true]
      cases hw : live'.worker with
      | false =>
        rw [if_pos rfl]
        exact iff_of_false (not_rejects halt_fails) nofun
      | true =>
        rw [if_neg (by decide)]
        cases hd : live'.desktop with
        | true =>
          rw [if_pos rfl]
          exact iff_of_false (not_rejects (hhalt live')) nofun
        | false =>
          rw [if_neg Bool.false_ne_true, bind_rejects fun _ => hhalt live', snapshotLive_rejects,
            hd]
          simp

/-- A stop rejects it if besides nobody else is at work on the sandbox. -/
theorem stop_rejects (h : validateId id = .ok ()) :
    Rejects (stopId id) (stop id b).1 ↔
      (id ∉ b.tables.reservations ∧ Freezes b id) ∧ ¬ Fits id := by
  rw [stop, lift_valid h, reserving_run, ← stopId_ok h]
  by_cases hbusy : id ∈ b.tables.reservations
  · rw [if_pos hbusy]
    exact iff_of_false (fun hr => inProgress_neutral h _ (rejects_error.mp hr))
      fun hc => hc.1.1 hbusy
  · rw [if_neg hbusy, stopHeld_rejects, and_iff_right hbusy]
    rfl

/-! ## Forking -/

/-- The source of a fork is copied: it runs a worker on local storage, without a desktop. -/
def Copies (b : Backend) (source : String) : Prop :=
  b.tables.quota = false ∧ ∃ live, b.tables.sandboxes source = some live ∧ live.state = .running ∧
    live.worker = true ∧ live.replicated = false ∧ live.desktop = false

/-- A directory of the registry is there. -/
def Taken (b : Backend) (name : String) : Prop := ∃ e ∈ b.entries, e.1 = registryDir name

instance : Decidable (Taken b name) := inferInstanceAs (Decidable (∃ e ∈ _, _))

/-- A source that can be copied is found running. -/
theorem runningSource_run (h : Copies b source) :
    ∃ live, runningSource source b = (.ok live, b) ∧ live.desktop = false := by
  obtain ⟨hquota, live, hlive, hstate, hworker, hreplicated, hdesktop⟩ := h
  refine ⟨live, ?_, hdesktop⟩
  rw [runningSource, tables_bind, if_neg (by rw [hquota]; exact Bool.false_ne_true),
    bind_of_ok (sandbox_run hlive), if_neg (by simp [hstate, hworker]),
      if_neg (by simp [hreplicated])]
  rfl

/-- The check of the source reads the tables only. -/
theorem runningSource_store : (runningSource source b).2 = b := by
  rw [runningSource, tables_bind]
  split
  · rfl
  · cases hlive : b.tables.sandboxes source with
    | none => rw [bind_error (sandbox_missing hlive)]
    | some found =>
      rw [bind_of_ok (sandbox_run hlive)]
      split
      · rfl
      · split <;> rfl

/-- And what is found running without a desktop can be copied. -/
theorem copies_of_runningSource (h : (runningSource source b).1 = .ok live)
    (hdesktop : live.desktop = false) : Copies b source := by
  rw [runningSource, tables_bind] at h
  by_cases hquota : b.tables.quota = true
  · rw [if_pos hquota] at h
    cases h
  rw [if_neg hquota] at h
  cases hlive : b.tables.sandboxes source with
  | none =>
    rw [bind_error (sandbox_missing hlive)] at h
    cases h
  | some found =>
    rw [bind_of_ok (sandbox_run hlive)] at h
    by_cases hrun : found.state ≠ .running ∨ found.worker = false
    · rw [if_pos hrun] at h
      cases h
    rw [if_neg hrun] at h
    by_cases hreplicated : found.replicated = true
    · rw [if_pos hreplicated] at h
      cases h
    rw [if_neg hreplicated] at h
    cases h
    push Not at hrun
    exact ⟨Bool.eq_false_iff.mpr hquota, live, hlive, hrun.1, by simpa using hrun.2,
      Bool.eq_false_iff.mpr hreplicated, hdesktop⟩

/-- A checkpoint leaves the registry alone. -/
theorem taken_snapshotLive (hsource : validateId source = .ok ()) :
    Taken (snapshotLive source live name b).2 name ↔ Taken b name := by
  have hblind : Blind (Owner.snapshot name).region.entries (snapshotLive source live name) :=
    blind_snapshotLive (Owner.clear_sandbox hsource trivial)
  have hkeeps := hblind.keeps b
  have hregion (e : Entry) (he : e.1 = registryDir name) :
      (Owner.snapshot name).region.entries e = true := by
    simp [Region.entries, Owner.region, Owner.dirs, he]
  constructor
  · rintro ⟨e, he, hpath⟩
    exact ⟨e, (List.mem_filter.mp (hkeeps ▸ List.mem_filter.mpr ⟨he, hregion e hpath⟩)).1, hpath⟩
  · rintro ⟨e, he, hpath⟩
    exact ⟨e, (List.mem_filter.mp (hkeeps.symm ▸ List.mem_filter.mpr ⟨he, hregion e hpath⟩)).1,
      hpath⟩

/-- The directory of a snapshot exists if the name is taken. -/
theorem present_taken : present (registryDir name) b = (.ok (decide (Taken b name)), b) := by
  refine Prod.ext (congrArg Except.ok ?_) rfl
  rw [Bool.eq_iff_iff, List.any_eq_true, decide_eq_true_eq]
  exact exists_congr fun e => and_congr_right fun _ => beq_iff_eq

/-- A snapshot is refused for its name if it is no snapshot id or is in the registry. -/
theorem snapshotToRegistry_rejects (hsource : validateId source = .ok ()) :
    Rejects name (snapshotToRegistry source name b).1 ↔
      Copies b source ∧ (validateSnapshotId name ≠ .ok () ∨ Taken b name) := by
  rw [snapshotToRegistry]
  cases hrun : (runningSource source b).1 with
  | error e =>
    rw [bind_error (Prod.ext hrun rfl)]
    refine iff_of_false (fun hr => runningSource_fails b e hrun _ (rejects_error.mp hr)) ?_
    rintro ⟨hcopies, -⟩
    obtain ⟨live, hlive, -⟩ := runningSource_run hcopies
    rw [hlive] at hrun
    cases hrun
  | ok live =>
    rw [bind_of_ok (Prod.ext hrun runningSource_store)]
    cases hdesktop : live.desktop with
    | true =>
      have hlive : snapshotLive source live name b = (.error .desktopSnapshots, b) := by
        rw [snapshotLive, if_pos hdesktop]
        rfl
      rw [bind_error hlive]
      refine iff_of_false ?_ ?_
      · rintro ⟨_, he, hn | hn | hn⟩ <;> cases he <;> cases hn
      · rintro ⟨hcopies, -⟩
        obtain ⟨other, hother, hnone⟩ := runningSource_run hcopies
        rw [hother] at hrun
        cases hrun
        rw [hnone] at hdesktop
        cases hdesktop
    | false =>
      rw [and_iff_right (copies_of_runningSource hrun hdesktop)]
      by_cases hok : validateSnapshotId name = .ok ()
      · have hdone : (snapshotLive source live name b).1 = .ok () := by
          have hnever : Fails (fun _ => False) (checkpoint source live name) := checkpoint_fails
          obtain ⟨u, hu⟩ := hnever.ok b
          rw [snapshotLive, if_neg (by simp [hdesktop]), hok]
          exact hu
        rw [bind_of_ok (Prod.ext hdone rfl), bind_of_ok present_taken]
        by_cases htaken : Taken b name
        · rw [if_pos (decide_eq_true ((taken_snapshotLive hsource).mpr htaken))]
          exact iff_of_true ⟨_, rfl, .inr (.inr rfl)⟩ (.inr htaken)
        · rw [if_neg (by simpa [taken_snapshotLive hsource] using htaken)]
          exact iff_of_false (not_rejects publish_fails) fun h => h.elim (· hok) htaken
      · have hbad : snapshotLive source live name b = (.error (.badSnapshotId name), b) := by
          rw [snapshotLive, if_neg (by simp [hdesktop]), validateSnapshotId_error hok]
          rfl
        rw [bind_error hbad]
        exact iff_of_true ⟨_, rfl, .inl rfl⟩ (.inl hok)

/-- Both ids of a fork are accepted and free. -/
def Reserves (b : Backend) (source id : String) : Prop :=
  validateId source = .ok () ∧ source ∉ b.tables.reservations ∧ id ≠ source ∧
    id ∉ b.tables.reservations

/-- A fork that reserves its ids is rejected for its name if the key is in use, or if a copy is
made and the name is no snapshot id or is in the registry. -/
theorem fork_rejects (h : validateId id = .ok ()) : Rejects (forkId id) (fork source id live b).1 ↔
    Reserves b source id ∧ (snapKey (forkId id) ∈ b.tables.reservations ∨
      Copies b source ∧ (¬ Fits id ∨ Taken b (forkId id))) := by
  rw [fork]
  by_cases hsource : validateId source = .ok ()
  swap
  · cases he : validateId source with
    | ok u => exact absurd he hsource
    | error e =>
      exact iff_of_false (fun hr => validateId_neutral he _ (rejects_error.mp hr))
        fun hc => hsource hc.1.1
  rw [lift_valid hsource, lift_valid h, reserving_run]
  by_cases hbusy : source ∈ b.tables.reservations
  · rw [if_pos hbusy]
    exact iff_of_false (fun hr => inProgress_neutral hsource _ (rejects_error.mp hr))
      fun hc => hc.1.2.1 hbusy
  rw [if_neg hbusy, reserving_run]
  by_cases hnew : id ∈ (holding source b).tables.reservations
  · rw [if_pos hnew]
    refine iff_of_false (fun hr => inProgress_neutral h _ (rejects_error.mp hr)) fun hc => ?_
    rcases List.mem_cons.mp hnew with heq | hmem
    · exact hc.1.2.2.1 heq
    · exact hc.1.2.2.2 hmem
  rw [if_neg hnew, reserving_run]
  have hreserves : Reserves b source id :=
    ⟨hsource, hbusy, fun heq => hnew (heq ▸ List.mem_cons_self),
      fun hmem => hnew (List.mem_cons_of_mem _ hmem)⟩
  have hkey : snapKey (forkId id) ∈ (holding id (holding source b)).tables.reservations ↔
      snapKey (forkId id) ∈ b.tables.reservations := by
    simp [holding, (id_ne_snapKey h).symm, (id_ne_snapKey hsource).symm]
  rw [and_iff_right hreserves]
  by_cases hheld : snapKey (forkId id) ∈ b.tables.reservations
  · rw [if_pos (hkey.mpr hheld)]
    exact iff_of_true ⟨_, rfl, .inr (.inl rfl)⟩ (.inl hheld)
  · rw [if_neg (mt hkey.mp hheld), or_iff_right hheld, ← forkId_ok h,
      bind_rejects fun _ => .bind restoreInner_fails fun _ => .bind persistRecord_fails fun _ =>
        .pure]
    exact snapshotToRegistry_rejects hsource

/-! ## The other operations -/

/-- An error about no name but this one. -/
def Only (name : String) (e : Error) : Prop := ∀ other, e.About other → other = name

theorem Neutral.only (h : Neutral e) : Only name e := fun other habout => (h other habout).elim

theorem only_bad : Only name (.badSnapshotId name) := by
  rintro other (hn | hn | hn)
  · exact (Error.badSnapshotId.inj hn).symm
  · cases hn
  · cases hn

/-- The check of a snapshot id is about that id. -/
theorem validateSnapshotId_only (h : validateSnapshotId name = .error e) : Only name e := by
  rw [validateSnapshotId_error (by rw [h]; nofun)] at h
  cases h
  exact only_bad

theorem reserving_fails {E : Error → Prop} {key : String} {p : Call β} (h : E (.inProgress key))
    (hp : Fails E p) : Fails E (reserving key p) :=
  .bind .tables fun _ => .ite (.fail h) (.bind .assign fun _ => .ending hp)

theorem snapshotLive_fails : Fails (Only name) (snapshotLive id live name) := by
  refine .ite (.fail (Neutral.only ?_)) (.bind (.lift fun _ => validateSnapshotId_only) fun _ =>
    checkpoint_fails)
  rintro other (hn | hn | hn) <;> cases hn

/-- A snapshot fails only about its own name. -/
theorem snapshotToRegistry_fails : Fails (Only name) (snapshotToRegistry id name) := by
  refine .bind (runningSource_fails.mono fun _ h => h.only) fun _ => .bind snapshotLive_fails
    fun _ => .bind .view fun _ => .ite (.fail ?_) (publish_fails.mono fun _ h => h.only)
  rintro other (hn | hn | hn)
  · cases hn
  · cases hn
  · exact (Error.snapshotExists.inj hn).symm

/-- A named snapshot is rejected for its own name only. -/
theorem createSnapshot_rejects {snapshotId : String} (h : validateId id = .ok ())
    (hr : Rejects name (createSnapshot id snapshotId b).1) : name = snapshotId := by
  have hkey : Only snapshotId (.inProgress (snapKey snapshotId)) := by
    rintro other (hn | hn | hn)
    · cases hn
    · exact (append_left_inj (Error.inProgress.inj hn)).symm
    · cases hn
  have hfails : Fails (Only snapshotId) (createSnapshot id snapshotId) :=
    .bind (.lift fun _ he => (validateId_neutral he).only) fun _ =>
      .bind (.lift fun _ => validateSnapshotId_only) fun _ =>
      reserving_fails (inProgress_neutral h).only (reserving_fails hkey snapshotToRegistry_fails)
  obtain ⟨e, he, habout⟩ := hr
  exact hfails b e he name habout

/-- A destruction rejects no name. -/
theorem destroy_rejects (h : validateId id = .ok ()) : ¬ Rejects name (destroy id b).1 := by
  rw [destroy, lift_valid h, reserving_run]
  split
  · exact fun hr => inProgress_neutral h _ (rejects_error.mp hr)
  · refine not_rejects (.bind .tables fun t => ?_)
    cases t.sandboxes id with
    | none =>
      refine .ite .pure (.fail ?_)
      rintro name (hn | hn | hn) <;> cases hn
    | some live =>
      exact .bind (.only (.bind .assign fun _ => persistRecord_fails)) fun _ =>
        .bind .assign fun _ => .edit

/-! ## Every accepted id -/

/-- No operation on the sandbox is rejected because of a name that is derived from its id. -/
structure Operable (b : Backend) (id : String) : Prop where
  stop : ¬ Rejects (stopId id) (stop id b).1
  fork : ∀ source live, ¬ Rejects (forkId id) (fork source id live b).1
  snapshot : ∀ name snapshotId, Rejects name (createSnapshot id snapshotId b).1 → name = snapshotId
  destroy : ∀ name, ¬ Rejects name (destroy id b).1

/-- The id fits into the names that are derived from it, wherever they are used, and the name of
its fork is not taken. -/
structure Unhindered (b : Backend) (id : String) : Prop where
  stop : id ∉ b.tables.reservations → Freezes b id → Fits id
  key : ∀ source, Reserves b source id → snapKey (forkId id) ∉ b.tables.reservations
  fork : ∀ source, Reserves b source id → Copies b source → Fits id ∧ ¬ Taken b (forkId id)

/-- A sandbox is operable if and only if no check of a derived name is in its way. -/
theorem operable_iff (h : validateId id = .ok ()) : Operable b id ↔ Unhindered b id := by
  constructor
  · intro hop
    have hfork (source : String) (live : Live) := mt (fork_rejects h).mpr (hop.fork source live)
    let live : Live := ⟨.running, true, false, false, false, false, fun _ => [], []⟩
    refine ⟨fun hbusy hfreezes => ?_, fun source hr hkey => ?_, fun source hr hcopies => ?_⟩
    · by_contra hfits
      exact hop.stop ((stop_rejects h).mpr ⟨⟨hbusy, hfreezes⟩, hfits⟩)
    · exact hfork source live ⟨hr, .inl hkey⟩
    · constructor
      · by_contra hfits
        exact hfork source live ⟨hr, .inr ⟨hcopies, .inl hfits⟩⟩
      · exact fun htaken => hfork source live ⟨hr, .inr ⟨hcopies, .inr htaken⟩⟩
  · intro hu
    refine ⟨fun hr => ?_, fun source live hr => ?_, fun _ _ => createSnapshot_rejects h,
      fun _ => destroy_rejects h⟩
    · obtain ⟨⟨hbusy, hfreezes⟩, hfits⟩ := (stop_rejects h).mp hr
      exact hfits (hu.stop hbusy hfreezes)
    · obtain ⟨hreserves, hkey | ⟨hcopies, hfits | htaken⟩⟩ := (fork_rejects h).mp hr
      · exact hu.key source hreserves hkey
      · exact hfits (hu.fork source hreserves hcopies).1
      · exact (hu.fork source hreserves hcopies).2 htaken

/-- The name of the fork to a sandbox is neither in the registry nor in use. -/
def Free (b : Backend) (id : String) : Prop :=
  snapKey (forkId id) ∉ b.tables.reservations ∧ ¬ Taken b (forkId id)

/-- One running sandbox. -/
def lone (id : String) : Backend where
  entries := []
  tables := ⟨false, fun other => if other = id then
    some ⟨.running, true, false, false, false, false, fun _ => [], []⟩ else none, [], []⟩

/-- The ids that can always be operated on are the short ones without a dot. -/
theorem always_operable_iff (h : validateId id = .ok ()) :
    (∀ b, Free b id → Operable b id) ↔ Fits id := by
  constructor
  · intro hall
    have hop := hall (lone id) ⟨nofun, nofun⟩
    exact ((operable_iff h).mp hop).stop nofun ⟨_, if_pos rfl, rfl, rfl, rfl⟩
  · exact fun hfits b hfree => (operable_iff h).mpr
      ⟨fun _ _ => hfits, fun _ _ => hfree.1, fun _ _ _ => ⟨hfits, hfree.2⟩⟩

end AgentHouse.Engine
