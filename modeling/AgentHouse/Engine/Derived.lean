import AgentHouse.Engine.Operable

/-!
# What the accepted ids promise

An accepted id can be operated on and keeps its directories to itself unless it is long, has a dot,
or is called like a name that is derived from another one.
-/

namespace AgentHouse.Engine

open AgentHouse.Regions AgentHouse.Regions.Proc

variable {name : String}

/-- The test of the sweep, as an equation. -/
theorem isSuffix_tmp : ".tmp".toList.isSuffixOf name.toList = true ↔ ∃ m, name = tmp m := by
  rw [List.isSuffixOf_iff_suffix]
  constructor
  · rintro ⟨l, hl⟩
    refine ⟨String.ofList l, String.toList_inj.mp ?_⟩
    rw [tmp, String.toList_append, @String.toList_ofList l]
    exact hl.symm
  · rintro ⟨m, rfl⟩
    rw [tmp, String.toList_append]
    exact List.suffix_append _ _

/-- The registry directory of a name survives the start unless the name ends in `.tmp`. -/
def Survives (name : String) : Prop :=
  ∀ s, (sweepRegistry s).2.entries.filter (below (registryDir name)) =
    s.entries.filter (below (registryDir name))

/-- The sweep removes what lies below a temporary directory of the registry. -/
theorem sweeps_iff {d e : Entry} : sweeps d e = true ↔
    ∃ m, d = (registryDir (tmp m), .dir) ∧ below (registryDir (tmp m)) e = true := by
  constructor
  · intro h
    unfold sweeps at h
    split at h
    · simp only [Bool.and_eq_true, beq_iff_eq] at h
      obtain ⟨⟨htop, hsuffix⟩, hbelow⟩ := h
      obtain ⟨m, rfl⟩ := isSuffix_tmp.mp hsuffix
      cases htop
      exact ⟨m, rfl, hbelow⟩
    · cases h
  · rintro ⟨m, rfl, hbelow⟩
    show (registry == registry && ".tmp".toList.isSuffixOf (tmp m).toList &&
      below (registryDir (tmp m)) e) = true
    rw [hbelow, isSuffix_tmp.mpr ⟨m, rfl⟩, beq_self_eq_true]
    rfl

/-- A snapshot survives if and only if its name is no temporary one. -/
theorem survives_iff : Survives name ↔ ∀ m, name ≠ tmp m := by
  constructor
  · rintro h m rfl
    have hself : below (registryDir (tmp m)) (registryDir (tmp m), .dir) = true :=
      List.isPrefixOf_iff_prefix.mpr (List.prefix_refl _)
    have := h ⟨[(registryDir (tmp m), .dir)], ⟨false, fun _ => none, [], []⟩⟩
    simp [sweepRegistry, Proc.edit, sweeps_iff.mpr ⟨m, rfl, hself⟩, hself] at this
  · intro h s
    show (s.entries.filter _).filter _ = _
    rw [List.filter_filter]
    refine List.filter_congr fun e _ => ?_
    cases hbelow : below (registryDir name) e with
    | false => rfl
    | true =>
      rw [Bool.true_and, Bool.not_eq_true', List.any_eq_false]
      intro d _ hd
      obtain ⟨m, -, hother⟩ := sweeps_iff.mp hd
      -- both directories are on the way to `e` and of one depth
      have hle := List.prefix_of_prefix_length_le
        (List.isPrefixOf_iff_prefix.mp hother) (List.isPrefixOf_iff_prefix.mp hbelow) le_rfl
      have heq : registryDir (tmp m) = registryDir name := hle.eq_of_length rfl
      exact h m (List.cons.inj (List.cons.inj heq).2).1.symm

/-- A deletion removes the directory of a snapshot and its staging. -/
theorem deleteSnapshot_entries {b : Backend} (hname : validateSnapshotRegistryId name = .ok ())
    (hfree : snapKey name ∉ b.tables.reservations) :
    ((Operation.deleteSnapshot name).run b).2.entries =
      (b.entries.filter fun e => !below (registryDir name) e).filter
        fun e => !below (stagingDir name) e := by
  have hrun : deleteSnapshot name b = (.ok (), (deleteSnapshot name b).2) := by
    rw [deleteSnapshot, hname, lift_ok_bind, reserving, tables_bind, if_neg hfree]
    rfl
  rw [Operation.run, bind_of_ok hrun, deleteSnapshot, hname, lift_ok_bind, reserving, tables_bind,
    if_neg hfree]
  rfl

/-- Where one name is the staging name of the other, deleting the one removes what is the
other's. -/
theorem deleteSnapshot_sees {n m : String} (hn : validateSnapshotRegistryId n = .ok ())
    (h : n = tmp m ∨ tmp n = m) :
    ¬ Blind (Owner.snapshot m).region.entries (Operation.deleteSnapshot n).run := by
  intro hblind
  have hremoved (p : Path) (hp : p = registryDir n ∨ p = stagingDir n) (tables : Tables)
      (hfree : tables.reservations = []) :
      ((Operation.deleteSnapshot n).run ⟨[(p, .dir)], tables⟩).2.entries = [] := by
    have hself (q : Path) : below q (q, .dir) = true :=
      List.isPrefixOf_iff_prefix.mpr (List.prefix_refl _)
    rw [deleteSnapshot_entries hn (by rw [hfree]; exact List.not_mem_nil)]
    rcases hp with rfl | rfl <;> simp [hself]
  have hshared : ∃ p, (p = registryDir n ∨ p = stagingDir n) ∧
      (Owner.snapshot m).region.entries (p, .dir) = true := by
    rcases h with rfl | rfl
    · exact ⟨stagingDir m, .inl rfl, by simp [Region.entries, Owner.region, Owner.dirs]⟩
    · exact ⟨stagingDir n, .inr rfl, by
        simp [Region.entries, Owner.region, Owner.dirs, stagingDir, registryDir]⟩
  obtain ⟨p, hp, hregion⟩ := hshared
  have := hblind.keeps ⟨[(p, .dir)], ⟨false, fun _ => none, [], []⟩⟩
  rw [hremoved p hp _ rfl, List.filter_cons_of_pos hregion] at this
  cases this

/-- Two owners are not apart only if one is the temporary name of the other. -/
theorem not_apart {o other : Owner} (hne : o ≠ other) (h : ¬ o.Apart other) :
    ∃ n m, o = .snapshot n ∧ other = .snapshot m ∧ (n = tmp m ∨ tmp n = m) := by
  cases o with
  | sandbox a =>
    cases other with
    | sandbox b => exact (h fun heq => hne (congrArg Owner.sandbox heq)).elim
    | snapshot m => exact (h trivial).elim
  | snapshot n =>
    cases other with
    | sandbox b => exact (h trivial).elim
    | snapshot m =>
      refine ⟨n, m, rfl, rfl, ?_⟩
      by_contra hnot
      push Not at hnot
      exact h ⟨fun heq => hne (congrArg Owner.snapshot heq), hnot.1, hnot.2⟩

/-- Operations on an accepted id are rejected for a derived name exactly where the id is long or
has a dot or the name of its fork is taken; derived names coincide exactly for the clashing pairs;
and an operation is blind to the directories of others exactly if no name is a staging name of the
other. -/
theorem accepted_ids (b : Backend) (id name : String) (p q : Source) (op : Operation)
    (o other : Owner) :
    (validateId id = .ok () → (Operable b id ↔ Unhindered b id)) ∧
    (validateId id = .ok () → ((∀ b, Free b id → Operable b id) ↔ Fits id)) ∧
    (p.Accepted → q.Accepted → p ≠ q →
      (p.derived ≠ q.derived ↔ ¬ (Clash p q ∨ Clash q p))) ∧
    (o.Valid → (∀ mine ∈ op.owners, mine.Apart o) → Blind o.region.entries op.run) ∧
    (o.Valid → o ≠ other → ¬ o.Apart other →
      ∃ op : Operation, op.owners = [o] ∧ ¬ Blind other.region.entries op.run) ∧
    (Survives name ↔ ∀ m, name ≠ tmp m) := by
  refine ⟨operable_iff, always_operable_iff,
    fun hp hq hne => not_congr (derived_eq_iff hp hq hne), op.isolated,
    fun ho hne h => ?_, survives_iff⟩
  obtain ⟨n, m, rfl, rfl, hstaged⟩ := not_apart hne h
  exact ⟨.deleteSnapshot n, rfl, deleteSnapshot_sees ho hstaged⟩

/-- A running sandbox that was created as `dev.box` cannot be stopped or forked to, a snapshot and
a fork share the directory `fork-b`, and `fork-b.tmp` may be deleted while it is written. -/
theorem dotted_id_cannot_stop :
    validateId "dev.box" = .ok () ∧
      (stop "dev.box" (lone "dev.box")).1 = .error (.badSnapshotId "stop-dev.box") ∧
      validateSnapshotId "fork-b" = .ok () ∧ validateId "b" = .ok () ∧
      Source.derived (.snapshot .directory, "fork-b") = Source.derived (.fork .directory, "b") ∧
      validateSnapshotRegistryId "fork-b.tmp" = .ok () ∧
      registryDir "fork-b.tmp" = stagingDir (forkId "b") ∧
      (deleteSnapshot "fork-b.tmp" ⟨[(stagingDir (forkId "b"), .dir)],
        ⟨false, fun _ => none, [], [snapKey (forkId "b")]⟩⟩).2.entries = [] := by
  exact ⟨by decide, rfl, by decide, by decide, by decide, by decide, by decide, rfl⟩

end AgentHouse.Engine
