import Mathlib.Data.List.Infix
import AgentHouse.Engine.Manifest

/-!
# Operations keep to their own directories

What a sandbox or a snapshot owns is what is below its directories. An operation neither sees nor
changes what is owned by others, unless one of the names is a staging name of the other.
-/

namespace AgentHouse.Engine

open AgentHouse.Regions AgentHouse.Regions.Proc

/-- A region of paths that contains what is below its paths. -/
structure Region where
  has : Path → Bool
  down : ∀ {p q : Path}, has p = true → p <+: q → has q = true

namespace Region

/-- The entries of a region. -/
def entries (R : Region) (e : Entry) : Bool := R.has e.1

/-- Nothing at or below `p` is in the region. -/
def Clear (R : Region) (p : Path) : Prop := ∀ q, p <+: q → R.has q = false

variable {R : Region} {p q : Path}

theorem Clear.self (h : R.Clear p) : R.has p = false := h p (List.prefix_refl p)

/-- What lies below a clear path is clear. -/
theorem Clear.append (h : R.Clear p) (rest : Path) : R.Clear (p ++ rest) :=
  fun _ hq => h _ ((List.prefix_append p rest).trans hq)

/-- So is what it lies below. -/
theorem Clear.above (h : R.Clear p) (hq : q <+: p) : R.has q = false := by
  cases hhas : R.has q with
  | false => rfl
  | true => exact absurd (R.down hhas hq) (by rw [h.self]; exact Bool.false_ne_true)

/-- No entry of the region lies below it. -/
theorem Clear.not_below (h : R.Clear p) {e : Entry} (he : R.entries e = true) :
    below p e = false := by
  cases hbelow : below p e with
  | false => rfl
  | true =>
    have := h e.1 (List.isPrefixOf_iff_prefix.mp hbelow)
    rw [entries, this] at he
    cases he

/-- Nothing moves into the region. -/
theorem Clear.moved (h : R.Clear q) (e : Entry) : R.entries (moved p q e) = false :=
  h _ (List.prefix_append q _)

theorem Clear.ne (h : R.Clear p) {e : Entry} (he : R.entries e = true) : (e.1 == p) = false := by
  rw [beq_eq_false_iff_ne]
  rintro rfl
  rw [entries, h.self] at he
  cases he

end Region

open Region

/-! ## Calls to the file system -/

section Calls

variable {R : Region} {p q : Path}

/-- Outside its region an owner sees nothing of the others: each primitive, and then each call. -/
theorem blind_present (h : R.Clear p) : Blind R.entries (present p) := by
  refine .any fun e he => ?_
  rw [beq_iff_eq.mp he |> congrArg R.has |> Eq.trans (show R.entries e = R.has e.1 from rfl)]
  exact h.self

theorem blind_removeTree (h : R.Clear p) : Blind R.entries (removeTree p) := by
  refine .revise (fun _ e => !below p e) (fun _ => []) ?_ nofun fun l => ?_
  · intro _ e he
    rw [h.not_below he]
    rfl
  · exact (List.append_nil _).symm

theorem blind_write (h : R.Clear p) (node : Node) : Blind R.entries (write p node) := by
  refine .revise (fun _ e => !(e.1 == p)) (fun _ => [(p, node)]) ?_ ?_ fun _ => rfl
  · intro _ e he
    rw [h.ne he]
    rfl
  · intro _ e he
    rw [List.mem_singleton.mp he]
    exact h.self

theorem blind_createDirs (h : R.Clear p) : Blind R.entries (createDirs p) := by
  refine .revise (fun _ _ => true)
    (fun l => (p.inits.tail.filter fun q => !l.any fun e => e.1 == q).map fun q => (q, .dir))
    (fun _ _ _ => rfl) ?_ fun l => ?_
  · intro l e he
    obtain ⟨q, hq, rfl⟩ := List.mem_map.mp he
    exact h.above ((List.mem_inits _ _).mp (List.mem_of_mem_tail (List.mem_filter.mp hq).1))
  · rw [List.filter_true]
    refine congrArg (l ++ ·) (congrArg _ (List.filter_congr fun q hq => ?_))
    have hq : R.has q = false := h.above ((List.mem_inits _ _).mp (List.mem_of_mem_tail hq))
    rw [List.any_filter]
    refine congrArg (fun b => !b) (congrArg (l.any ·) (funext fun e => ?_))
    cases he : e.1 == q with
    | false => rw [Bool.and_false]
    | true => rw [Region.entries, beq_iff_eq.mp he, hq]; rfl

theorem blind_rename (hp : R.Clear p) (hq : R.Clear q) : Blind R.entries (rename p q) := by
  refine .map (fun e => !below q e) (fun e => if below p e then moved p q e else e)
    ?_ ?_ ?_ fun _ => rfl
  · intro e he
    rw [hq.not_below he]
    rfl
  · intro e he
    rw [hp.not_below he]
    rfl
  · intro e he
    split
    · exact hq.moved e
    · exact he

/-- A copy outside the region copies no entry of it. -/
theorem copies_outside (hp : R.Clear p) (l : List Entry) :
    copies p q (l.filter fun e => !R.entries e) = copies p q l := by
  rw [copies, copies, List.filter_filter]
  refine congrArg _ (List.filter_congr fun e _ => ?_)
  cases he : R.entries e with
  | false => exact Bool.and_true _
  | true => rw [hp.not_below he, Bool.false_and]

theorem blind_copy (hp : R.Clear p) (hq : R.Clear q) : Blind R.entries (copy p q) := by
  have hcopies (l : List Entry) : ∀ e ∈ copies p q l, R.entries e = false := by
    intro e he
    obtain ⟨e, -, rfl⟩ := List.mem_map.mp he
    exact hq.moved e
  refine .revise (fun l e => !(copies p q l).any fun c => c.1 == e.1) (copies p q)
    ?_ hcopies fun l => ?_
  · intro l e he
    rw [Bool.not_eq_true', List.any_eq_false]
    intro c hc heq
    have := hcopies l c hc
    rw [Region.entries, beq_iff_eq.mp heq] at this
    rw [Region.entries, this] at he
    cases he
  · rw [copies_outside hp]

theorem blind_lookup (h : R.Clear p) : Blind R.entries (view (lookup p) : Call (Option Node)) := by
  refine .view fun l => ?_
  rw [lookup, lookup, List.find?_filter]
  refine congrArg (fun f => (l.find? f).map Prod.snd) (funext fun e => ?_)
  cases he : R.entries e with
  | false => simp [beq_eq_decide]
  | true => simp [h.ne he]

theorem blind_readManifest (h : R.Clear p) : Blind R.entries (readManifest p) := by
  refine .bind (blind_lookup (h.append _)) fun found => ?_
  split
  · exact .pure
  · exact .fail

theorem blind_bundleBytes (len : Node → ℕ) (h : R.Clear p) :
    Blind R.entries (view (bundleBytes len p) : Call ℕ) := by
  refine .view fun l => ?_
  rw [bundleBytes, bundleBytes, List.filter_filter]
  refine congrArg (fun l : List Entry => (l.map fun e => len e.2).sum)
    (List.filter_congr fun e _ => ?_)
  cases he : R.entries e with
  | false => exact (Bool.and_true _).symm
  | true => rw [h.not_below he]; rfl

end Calls

/-! ## Operations -/

section Operations

variable {R : Region} {β : Type} {p : Call β} {id newId snapshotId : String} {live : Live}

theorem blind_reserving {key : String} (h : Blind R.entries p) :
    Blind R.entries (reserving key p) :=
  .bind .tables fun _ => .ite (fun _ => .fail) fun _ => .bind .assign fun _ => .ending h

theorem blind_sandbox : Blind R.entries (sandbox id) := by
  refine .bind .tables fun t => ?_
  cases t.sandboxes id with
  | none => exact .fail
  | some live => exact .pure

theorem blind_persistRecord (h : R.Clear (sandboxDir id)) :
    Blind R.entries (persistRecord id live) :=
  .bind (blind_write (h.append _) _) fun _ => blind_rename (h.append _) (h.append _)

theorem blind_recoverBundle (h : R.Clear (sandboxDir id)) :
    Blind R.entries (recoverBundle id) := by
  have hbundle : R.Clear (bundleDir id) := h.append _
  have hold := h.append Temporary.retired.path
  exact .bind (blind_present hold) fun _ => .only <|
    .bind (blind_present hbundle) fun _ =>
    .bind (.only (blind_rename hold hbundle)) fun _ =>
    .bind (blind_present hold) fun _ => .only (blind_removeTree hold)

/-- Publication works within the directory of the sandbox. -/
theorem blind_publishBundle {gen : Path} (h : R.Clear (sandboxDir id)) (hgen : R.Clear gen) :
    Blind R.entries (publishBundle id gen) := by
  have hbundle : R.Clear (bundleDir id) := h.append _
  have hold := h.append Temporary.retired.path
  exact .bind (blind_recoverBundle h) fun _ =>
    .bind (blind_present hbundle) fun _ =>
    .bind (.only (blind_rename hbundle hold)) fun _ =>
    .bind (blind_rename hgen hbundle) fun _ =>
    .bind (blind_present hold) fun _ => .only (blind_removeTree hold)

/-- So does a checkpoint. -/
theorem blind_checkpoint (h : R.Clear (sandboxDir id)) :
    Blind R.entries (checkpoint id live snapshotId) := by
  have hstaging := h.append Temporary.checkpoint.path
  have hgen := h.append Temporary.pending.path
  exact .bind (blind_removeTree hstaging) fun _ =>
    .bind (blind_removeTree hgen) fun _ =>
    .bind (blind_createDirs hstaging) fun _ =>
    .bind (.each fun _ _ => blind_write (hstaging.append _) _) fun _ =>
    .bind (blind_createDirs hgen) fun _ =>
    .bind (.each fun _ _ => blind_rename (hstaging.append _) (hgen.append _)) fun _ =>
    .bind (blind_removeTree hstaging) fun _ =>
    .bind (blind_copy (h.append _) (hgen.append _)) fun _ =>
    .bind (blind_write (hgen.append _) _) fun _ =>
    .bind (blind_write (hgen.append _) _) fun _ =>
    .bind (blind_rename (hgen.append _) (hgen.append _)) fun _ => blind_publishBundle h hgen

theorem blind_snapshotLive (h : R.Clear (sandboxDir id)) :
    Blind R.entries (snapshotLive id live snapshotId) :=
  .ite (fun _ => .fail) fun _ => .bind .lift fun _ => blind_checkpoint h

/-- A snapshot is published from the sandbox into the registry. -/
theorem blind_publish (h : R.Clear (sandboxDir id)) (hdir : R.Clear (registryDir snapshotId))
    (hstaging : R.Clear (stagingDir snapshotId)) : Blind R.entries (publish id snapshotId) := by
  have hmake : Blind R.entries (do
      copy (bundleDir id) (stagingDir snapshotId)
      createDirs (stagingDir snapshotId)
      rename (stagingDir snapshotId) (registryDir snapshotId)
      readManifest (registryDir snapshotId)) :=
    .bind (blind_copy (h.append _) hstaging) fun _ =>
    .bind (blind_createDirs hstaging) fun _ =>
    .bind (blind_rename hstaging hdir) fun _ => blind_readManifest hdir
  exact .bind (blind_removeTree hstaging) fun _ =>
    .bind (.cleaning hmake (blind_removeTree hstaging)) fun _ => .bind .assign fun _ => .pure

theorem blind_runningSource : Blind R.entries (runningSource id) :=
  .bind .tables fun _ => .ite (fun _ => .fail) fun _ => .bind blind_sandbox fun _ =>
    .ite (fun _ => .fail) fun _ => .ite (fun _ => .fail) fun _ => .pure

theorem blind_snapshotToRegistry (h : R.Clear (sandboxDir id))
    (hdir : R.Clear (registryDir snapshotId)) (hstaging : R.Clear (stagingDir snapshotId)) :
    Blind R.entries (snapshotToRegistry id snapshotId) :=
  .bind blind_runningSource fun _ => .bind (blind_snapshotLive h) fun _ =>
    .bind (blind_present hdir) fun _ => .ite (fun _ => .fail) fun _ =>
    blind_publish h hdir hstaging

theorem blind_restoreInner (h : R.Clear (sandboxDir newId))
    (hdir : R.Clear (registryDir snapshotId)) :
    Blind R.entries (restoreInner snapshotId newId live) :=
  .bind .tables fun _ => .ite (fun _ => .fail) fun _ => .ite (fun _ => .fail) fun _ =>
    .bind (blind_readManifest hdir) fun _ => .ite (fun _ => .fail) fun _ =>
    .bind (blind_createDirs h) fun _ =>
    .bind (blind_copy (hdir.append _) (h.append _)) fun _ =>
    .bind (blind_persistRecord h) fun _ => .bind .assign fun _ => .pure

theorem blind_halt (h : R.Clear (sandboxDir id)) : Blind R.entries (halt id live) :=
  .bind .assign fun _ => blind_persistRecord h

theorem blind_resumeResident (h : R.Clear (sandboxDir id)) : Blind R.entries (resumeResident id) :=
  .bind blind_sandbox fun _ => .only <| .bind (blind_persistRecord h) fun _ => .assign

/-- The calls of the engine, one by one. -/
theorem blind_stop (h : validateId id = .ok () → R.Clear (sandboxDir id)) :
    Blind R.entries (stop id) := by
  refine .lift_bind fun _ hid => ?_
  have hremove (live : Live) : Blind R.entries (do
      removeTree (sandboxDir id ++ ["state.json"])
      halt id live) := .bind (blind_removeTree ((h hid).append _)) fun _ => blind_halt (h hid)
  exact blind_reserving <| .bind (blind_resumeResident (h hid)) fun _ =>
    .bind blind_sandbox fun live =>
    .ite (fun _ => .ite (fun _ => .fail) fun _ => hremove live) fun _ =>
    .ite (fun _ => blind_halt (h hid)) fun _ => .ite (fun _ => hremove live) fun _ =>
    .bind (blind_snapshotLive (h hid)) fun _ => hremove live

theorem blind_create {root : List UInt8} (h : validateId id = .ok () → R.Clear (sandboxDir id)) :
    Blind R.entries (create id live root) :=
  .lift_bind fun _ hid => blind_reserving <| .bind .tables fun _ => .ite (fun _ => .fail) fun _ =>
    .bind (blind_createDirs (h hid)) fun _ => .bind (blind_write ((h hid).append _) _) fun _ =>
    .bind (blind_persistRecord (h hid)) fun _ => .assign

theorem blind_destroy (h : validateId id = .ok () → R.Clear (sandboxDir id)) :
    Blind R.entries (destroy id) := by
  refine .lift_bind fun _ hid => blind_reserving <| .bind .tables fun t => ?_
  cases t.sandboxes id with
  | none => exact .ite (fun _ => .pure) fun _ => .fail
  | some live =>
    exact .bind (.only (.bind .assign fun _ => blind_persistRecord (h hid))) fun _ =>
      .bind .assign fun _ => blind_removeTree (h hid)

theorem blind_deleteSnapshot (hdir : R.Clear (registryDir snapshotId))
    (hstaging : R.Clear (stagingDir snapshotId)) : Blind R.entries (deleteSnapshot snapshotId) :=
  .bind .lift fun _ => blind_reserving <| .bind (blind_removeTree hdir) fun _ =>
    .bind (blind_removeTree hstaging) fun _ => .assign

theorem blind_snapshotLocalBytes {len : Node → ℕ} (hdir : R.Clear (registryDir snapshotId))
    (hstaging : R.Clear (stagingDir snapshotId)) :
    Blind R.entries (snapshotLocalBytes len snapshotId) :=
  .bind .lift fun _ => .bind (blind_bundleBytes len hdir) fun _ =>
    .bind (blind_bundleBytes len hstaging) fun _ => .pure

theorem blind_createSnapshot (h : validateId id = .ok () → R.Clear (sandboxDir id))
    (hdir : R.Clear (registryDir snapshotId)) (hstaging : R.Clear (stagingDir snapshotId)) :
    Blind R.entries (createSnapshot id snapshotId) :=
  .lift_bind fun _ hid => .bind .lift fun _ =>
    blind_reserving (blind_reserving (blind_snapshotToRegistry (h hid) hdir hstaging))

theorem blind_restore (h : validateId newId = .ok () → R.Clear (sandboxDir newId))
    (hdir : R.Clear (registryDir snapshotId)) : Blind R.entries (restore snapshotId newId live) :=
  .lift_bind fun _ hid => .bind .lift fun _ =>
    blind_reserving (blind_reserving (blind_restoreInner (h hid) hdir))

/-- A fork works in both sandboxes and in the registry. -/
theorem blind_fork (h : validateId id = .ok () → R.Clear (sandboxDir id))
    (hnew : validateId newId = .ok () → R.Clear (sandboxDir newId))
    (hdir : R.Clear (registryDir (forkId newId)))
    (hstaging : R.Clear (stagingDir (forkId newId))) : Blind R.entries (fork id newId live) := by
  refine .lift_bind fun _ hid => .lift_bind fun _ hnewId => blind_reserving <| blind_reserving <|
    blind_reserving <| .bind_of (blind_snapshotToRegistry (h hid) hdir hstaging) fun s stored hs =>
    ?_
  -- what was published is restored, since its manifest has the name of the fork
  have hname : stored = forkId newId :=
    snapshotToRegistry_ends (validateId_ok.mp hid).2.2.2.1 s _ stored (P := fun _ => True) trivial
      (Prod.ext hs rfl)
  rw [hname]
  exact .bind (blind_restoreInner (hnew hnewId) hdir) fun _ =>
    .bind (blind_persistRecord (hnew hnewId)) fun _ => .pure

end Operations

/-! ## Owners -/

/-- A sandbox, or a name in the registry of snapshots and forks. -/
inductive Owner where
  | sandbox (id : String)
  | snapshot (name : String)
  deriving DecidableEq, Repr

namespace Owner

/-- The directories that an owner has to itself. -/
def dirs : Owner → List Path
  | sandbox id => [sandboxDir id]
  | snapshot name => [registryDir name, stagingDir name]

/-- The id of an owner has passed its check. -/
def Valid : Owner → Prop
  | sandbox id => validateId id = .ok ()
  | snapshot name => validateSnapshotRegistryId name = .ok ()

/-- Different owners, of which none is called like the directory the other is written in. -/
def Apart : Owner → Owner → Prop
  | sandbox a, sandbox b => a ≠ b
  | snapshot a, snapshot b => a ≠ b ∧ a ≠ tmp b ∧ tmp a ≠ b
  | _, _ => True

/-- What is at or below the directories of an owner. -/
def region (o : Owner) : Region where
  has q := o.dirs.any (·.isPrefixOf q)
  down := by
    intro p q hp hpq
    obtain ⟨d, hd, hdp⟩ := List.any_eq_true.mp hp
    exact List.any_eq_true.mpr ⟨d, hd, List.isPrefixOf_iff_prefix.mpr
      ((List.isPrefixOf_iff_prefix.mp hdp).trans hpq)⟩

/-- A path is clear of an owner that has no directory above or below it. -/
theorem clear_iff {o : Owner} {p : Path} :
    o.region.Clear p ↔ ∀ d ∈ o.dirs, ¬ d <+: p ∧ ¬ p <+: d := by
  constructor
  · intro h d hd
    have hnot (q : Path) (hpq : p <+: q) : ¬ d <+: q := by
      intro hdq
      have := h q hpq
      rw [region, List.any_eq_false] at this
      exact this d hd (List.isPrefixOf_iff_prefix.mpr hdq)
    exact ⟨hnot p (List.prefix_refl p), fun hpd => hnot d hpd (List.prefix_refl d)⟩
  · intro h q hpq
    rw [region, List.any_eq_false]
    intro d hd hdq
    obtain ⟨hdp, hpd⟩ := h d hd
    -- two prefixes of one path are comparable
    rcases List.prefix_or_prefix_of_prefix hpq (List.isPrefixOf_iff_prefix.mp hdq) with hc | hc
    · exact hpd hc
    · exact hdp hc

variable {o : Owner} {id name : String}

theorem Valid.sandbox_ne (h : (sandbox id).Valid) : id ≠ "snapshots" :=
  (validateId_ok.mp h).2.2.2.1

/-- The directory of a sandbox is clear of every other owner. -/
theorem clear_sandbox (hid : validateId id = .ok ()) (h : (sandbox id).Apart o) :
    o.region.Clear (sandboxDir id) := by
  rw [clear_iff]
  have hname := (validateId_ok.mp hid).2.2.2.1
  cases o with
  | sandbox other =>
    have hne : id ≠ other := h
    simp [dirs, sandboxDir, hne, Ne.symm hne]
  | snapshot other => simp [dirs, sandboxDir, registryDir, stagingDir, registry, hname]

/-- The directory of a snapshot is clear of the owners apart from it. -/
theorem clear_registryDir (ho : o.Valid) (h : (snapshot name).Apart o) :
    o.region.Clear (registryDir name) := by
  rw [clear_iff]
  cases o with
  | sandbox other =>
    simp [dirs, sandboxDir, registryDir, registry, ho.sandbox_ne]
  | snapshot other =>
    obtain ⟨hne, hleft, hright⟩ : name ≠ other ∧ name ≠ tmp other ∧ tmp name ≠ other := h
    simp [dirs, registryDir, stagingDir, registry, hne, Ne.symm hne, hleft, Ne.symm hleft]

/-- And so is its staging. -/
theorem clear_stagingDir (ho : o.Valid) (h : (snapshot name).Apart o) :
    o.region.Clear (stagingDir name) := by
  rw [clear_iff]
  cases o with
  | sandbox other =>
    simp [dirs, sandboxDir, stagingDir, registry, ho.sandbox_ne]
  | snapshot other =>
    obtain ⟨hne, hleft, hright⟩ : name ≠ other ∧ name ≠ tmp other ∧ tmp name ≠ other := h
    have htmp : tmp name ≠ tmp other := fun heq => hne (append_right_inj heq)
    simp [dirs, registryDir, stagingDir, registry, hright, Ne.symm hright, htmp, Ne.symm htmp]

end Owner

/-- A call of an operation, with what the world adds to it. -/
inductive Operation where
  | create (id : String) (live : Live) (root : List UInt8)
  | stop (id : String)
  | destroy (id : String)
  | createSnapshot (id snapshotId : String)
  | restore (snapshotId newId : String) (live : Live)
  | deleteSnapshot (snapshotId : String)
  | snapshotLocalBytes (len : Node → ℕ) (snapshotId : String)
  | fork (id newId : String) (live : Live)

/-- What an operation answers. -/
inductive Answer where
  | done
  | manifest (snapshotId : String)
  | info (live : Live)
  | bytes (n : Option ℕ)

namespace Operation

/-- An operation of the engine. -/
def run : Operation → Call Answer
  | create id live root => do
    Engine.create id live root
    return .done
  | stop id => do
    Engine.stop id
    return .done
  | destroy id => do
    Engine.destroy id
    return .done
  | createSnapshot id snapshotId => return .manifest (← Engine.createSnapshot id snapshotId)
  | restore snapshotId newId live => return .info (← Engine.restore snapshotId newId live)
  | deleteSnapshot snapshotId => do
    Engine.deleteSnapshot snapshotId
    return .done
  | snapshotLocalBytes len snapshotId =>
    return .bytes (← Engine.snapshotLocalBytes len snapshotId)
  | fork id newId live => return .info (← Engine.fork id newId live)

/-- The sandboxes and the names in the registry that it is called with. -/
def owners : Operation → List Owner
  | create id _ _ => [.sandbox id]
  | stop id => [.sandbox id]
  | destroy id => [.sandbox id]
  | createSnapshot id snapshotId => [.sandbox id, .snapshot snapshotId]
  | restore snapshotId newId _ => [.sandbox newId, .snapshot snapshotId]
  | deleteSnapshot snapshotId => [.snapshot snapshotId]
  | snapshotLocalBytes _ snapshotId => [.snapshot snapshotId]
  | fork id newId _ => [.sandbox id, .sandbox newId, .snapshot (forkId newId)]

/-- An operation is blind to the directories of every owner that is apart from its own. -/
theorem isolated (op : Operation) {o : Owner} (ho : o.Valid)
    (h : ∀ mine ∈ op.owners, mine.Apart o) : Blind o.region.entries op.run := by
  cases op with
  | create id live root =>
    have hid : (Owner.sandbox id).Apart o := h _ (by simp [owners])
    exact .bind (blind_create fun hok => Owner.clear_sandbox hok hid) fun _ => .pure
  | stop id =>
    have hid : (Owner.sandbox id).Apart o := h _ (by simp [owners])
    exact .bind (blind_stop fun hok => Owner.clear_sandbox hok hid) fun _ => .pure
  | destroy id =>
    have hid : (Owner.sandbox id).Apart o := h _ (by simp [owners])
    exact .bind (blind_destroy fun hok => Owner.clear_sandbox hok hid) fun _ => .pure
  | createSnapshot id snapshotId =>
    have hid : (Owner.sandbox id).Apart o := h _ (by simp [owners])
    have hname : (Owner.snapshot snapshotId).Apart o := h _ (by simp [owners])
    exact .bind (blind_createSnapshot (fun hok => Owner.clear_sandbox hok hid)
      (Owner.clear_registryDir ho hname) (Owner.clear_stagingDir ho hname)) fun _ => .pure
  | restore snapshotId newId live =>
    have hid : (Owner.sandbox newId).Apart o := h _ (by simp [owners])
    have hname : (Owner.snapshot snapshotId).Apart o := h _ (by simp [owners])
    exact .bind (blind_restore (fun hok => Owner.clear_sandbox hok hid)
      (Owner.clear_registryDir ho hname)) fun _ => .pure
  | deleteSnapshot snapshotId =>
    have hname : (Owner.snapshot snapshotId).Apart o := h _ (by simp [owners])
    exact .bind (blind_deleteSnapshot (Owner.clear_registryDir ho hname)
      (Owner.clear_stagingDir ho hname)) fun _ => .pure
  | snapshotLocalBytes len snapshotId =>
    have hname : (Owner.snapshot snapshotId).Apart o := h _ (by simp [owners])
    exact .bind (blind_snapshotLocalBytes (Owner.clear_registryDir ho hname)
      (Owner.clear_stagingDir ho hname)) fun _ => .pure
  | fork id newId live =>
    have hid : (Owner.sandbox id).Apart o := h _ (by simp [owners])
    have hnew : (Owner.sandbox newId).Apart o := h _ (by simp [owners])
    have hname : (Owner.snapshot (forkId newId)).Apart o := h _ (by simp [owners])
    exact .bind (blind_fork (fun hok => Owner.clear_sandbox hok hid)
      (fun hok => Owner.clear_sandbox hok hnew) (Owner.clear_registryDir ho hname)
      (Owner.clear_stagingDir ho hname)) fun _ => .pure

end Operation

end AgentHouse.Engine
