import Mathlib.Data.List.Basic
import Mathlib.Tactic.Common

/-!
# The names that the engine derives from ids

A sandbox has a directory under the data directory of the engine, a named snapshot has one in the
registry `snapshots`, and a fork has one there under a name that is made from the id of the new
sandbox. Directories that are being written have names of their own, and operations reserve keys.
Sandbox ids and snapshot ids are checked by validators with different alphabets.
-/

namespace AgentHouse.Engine

/-- The components of a path below the data directory. -/
abbrev Path := List String

/-- The errors of the engine, named by their texts. -/
inductive Error where
  /-- `bad sandbox id {id:?}` -/
  | badSandboxId (id : String)
  /-- `reserved sandbox id {id:?}` -/
  | reservedSandboxId (id : String)
  /-- `bad snapshot id {id:?}` -/
  | badSnapshotId (id : String)
  /-- `sandbox {key}: operation already in progress` -/
  | inProgress (key : String)
  /-- `sandbox {id}` is not found. -/
  | sandboxNotFound (id : String)
  /-- `snapshot {id}` is not found. -/
  | snapshotNotFound (id : String)
  /-- `sandbox {id} is not running (state {state:?})` -/
  | notRunning (id : String)
  /-- `named snapshots/forks require separate storage reservations in quota mode` -/
  | quotaMode
  /-- `replicated checkpoints/forks are not implemented` -/
  | replicatedCheckpoints
  /-- `desktop snapshots are not supported` -/
  | desktopSnapshots
  /-- `snapshot {id} exists` -/
  | snapshotExists (id : String)
  /-- `sandbox {id} exists` and `sandbox {id} already exists` -/
  | sandboxExists (id : String)
  /-- `snapshot id mismatch: registry has {stored:?}, caller passed {passed:?}` -/
  | snapshotMismatch (stored passed : String)
  /-- A sidecar that is missing or is no manifest. -/
  | manifest
  /-- `sandbox deletion is pending` -/
  | deletionPending
  deriving DecidableEq, Repr

/-- The characters of a snapshot id. -/
def snapshotChar (c : Char) : Bool := c.isAlphanum || c = '-' || c = '_'

/-- The characters of a sandbox id. -/
def idChar (c : Char) : Bool := snapshotChar c || c = '.'

/-- `validate_id` -/
def validateId (id : String) : Except Error Unit :=
  if id = "" ∨ id.utf8ByteSize > 64 then .error (.badSandboxId id)
  else if id.toList.all idChar = false then .error (.badSandboxId id)
  else if id = "snapshots" ∨ id.toList.head? = some '.' then .error (.reservedSandboxId id)
  else .ok ()

/-- `validate_snapshot_id` -/
def validateSnapshotId (id : String) : Except Error Unit :=
  if id = "" ∨ id.utf8ByteSize > 64 then .error (.badSnapshotId id)
  else if id.toList.all snapshotChar = false then .error (.badSnapshotId id)
  else .ok ()

/-- `id.strip_prefix("fork-")` -/
def stripFork (id : String) : Option String :=
  (id.toList.dropPrefix? "fork-".toList).map fun rest => String.ofList rest

/-- `validate_snapshot_registry_id`: a snapshot id, or the name of a fork's snapshot. -/
def validateSnapshotRegistryId (id : String) : Except Error Unit :=
  match validateSnapshotId id with
  | .ok () => .ok ()
  | .error e =>
    match stripFork id with
    | some sandbox => validateId sandbox
    | none => .error e

/-! ## Derived names -/

/-- The snapshot of a stopped sandbox. -/
def stopId (id : String) : String := "stop-" ++ id

/-- The snapshot that a fork is restored from. -/
def forkId (id : String) : String := "fork-" ++ id

/-- The name of a registry directory that is being written. -/
def tmp (name : String) : String := name ++ ".tmp"

/-- The key of an operation on a snapshot. -/
def snapKey (snapshotId : String) : String := "snap:" ++ snapshotId

/-- The directory of a sandbox. -/
def sandboxDir (id : String) : Path := [id]

/-- The directory of all snapshots. -/
def registry : Path := ["snapshots"]

/-- The directory of a snapshot. -/
def registryDir (snapshotId : String) : Path := registry ++ [snapshotId]

/-- Where a snapshot is copied before it is renamed. -/
def stagingDir (snapshotId : String) : Path := registry ++ [tmp snapshotId]

/-- What the engine writes under another name first in the directory of a sandbox. -/
inductive Temporary where
  /-- `sandbox.json.tmp` -/
  | record
  /-- `runtime/bundle.new` -/
  | checkpoint
  /-- `bundle.pending` -/
  | pending
  /-- `bundle.old` -/
  | retired
  deriving DecidableEq, Repr

/-- Where a temporary stands in the directory of its sandbox. -/
def Temporary.path : Temporary → Path
  | .record => ["sandbox.json.tmp"]
  | .checkpoint => ["runtime", "bundle.new"]
  | .pending => ["bundle.pending"]
  | .retired => ["bundle.old"]

/-- What a snapshot or a fork has a name for. -/
inductive Part where
  | directory
  | staging
  | key
  deriving DecidableEq, Repr

/-- A kind of derived name. -/
inductive Kind where
  | sandbox
  | temporary (t : Temporary)
  /-- The key that is reserved for an operation on a sandbox. -/
  | sandboxKey
  | snapshot (part : Part)
  /-- Of the snapshot that the fork to a sandbox is made from. -/
  | fork (part : Part)
  deriving DecidableEq, Repr

/-- What is derived from an id. -/
inductive Derived where
  | path (p : Path)
  | key (k : String)
  deriving DecidableEq, Repr

/-- What a snapshot id gives. -/
def Part.of (snapshotId : String) : Part → Derived
  | .directory => .path (registryDir snapshotId)
  | .staging => .path (stagingDir snapshotId)
  | .key => .key (snapKey snapshotId)

/-- A kind of derived name with the id that it is derived from. -/
abbrev Source := Kind × String

/-- What an id gives, by its source. -/
def Source.derived : Source → Derived
  | (.sandbox, id) => .path (sandboxDir id)
  | (.temporary t, id) => .path (sandboxDir id ++ t.path)
  | (.sandboxKey, id) => .key id
  | (.snapshot part, id) => part.of id
  | (.fork part, id) => part.of (forkId id)

/-- The id is accepted by the validator of its kind. -/
def Source.Accepted : Source → Prop
  | (.snapshot _, id) => validateSnapshotId id = .ok ()
  | (_, id) => validateId id = .ok ()

/-- The pairs with one name: a snapshot that is called like a fork, and a fork to a sandbox that
is called like the directory another one is written in. -/
inductive Clash : Source → Source → Prop
  | fork (part : Part) (id : String) : Clash (.snapshot part, forkId id) (.fork part, id)
  | stagedFork (id : String) : Clash (.fork .staging, id) (.fork .directory, tmp id)
  | stagedSnapshot (id : String) :
    Clash (.snapshot .staging, forkId id) (.fork .directory, tmp id)

/-! ## What the validators accept -/

variable {id : String}

/-- A check that fails before the rest. -/
theorem check_ok {e : Error} {c : Prop} [Decidable c] {r : Except Error Unit} :
    (if c then .error e else r) = .ok () ↔ ¬ c ∧ r = .ok () := by
  by_cases hc : c
  · rw [if_pos hc]
    exact iff_of_false nofun fun h => h.1 hc
  · rw [if_neg hc]
    exact (and_iff_right hc).symm

/-- What `validate_id` accepts. -/
theorem validateId_ok : validateId id = .ok () ↔
    id ≠ "" ∧ id.utf8ByteSize ≤ 64 ∧ id.toList.all idChar = true ∧ id ≠ "snapshots" ∧
      id.toList.head? ≠ some '.' := by
  rw [validateId, check_ok, check_ok, check_ok]
  simp only [not_or, Nat.not_lt, gt_iff_lt, Bool.not_eq_false, and_true, and_assoc, ne_eq]

/-- What `validate_snapshot_id` accepts. -/
theorem validateSnapshotId_ok : validateSnapshotId id = .ok () ↔
    id ≠ "" ∧ id.utf8ByteSize ≤ 64 ∧ id.toList.all snapshotChar = true := by
  rw [validateSnapshotId, check_ok, check_ok]
  simp only [not_or, Nat.not_lt, gt_iff_lt, Bool.not_eq_false, and_true, and_assoc, ne_eq]

/-- And the error that it answers otherwise. -/
theorem validateSnapshotId_error (h : validateSnapshotId id ≠ .ok ()) :
    validateSnapshotId id = .error (.badSnapshotId id) := by
  unfold validateSnapshotId at h ⊢
  split_ifs at h ⊢ with hsize hchars
  · rfl
  · rfl
  · exact absurd rfl h

/-- The ids that also fit behind `stop-` and `fork-` in a snapshot id. -/
def Fits (id : String) : Prop := id.utf8ByteSize ≤ 59 ∧ '.' ∉ id.toList

instance : Decidable (Fits id) := inferInstanceAs (Decidable (_ ∧ _))

/-- A sandbox id is spelled like a snapshot id if it has no dot. -/
theorem snapshotChars_iff (h : id.toList.all idChar = true) :
    id.toList.all snapshotChar = true ↔ '.' ∉ id.toList := by
  simp only [List.all_eq_true, idChar, Bool.or_eq_true, decide_eq_true_eq] at h ⊢
  constructor
  · intro hall hdot
    exact absurd (hall '.' hdot) (by decide)
  · intro hdot c hc
    rcases h c hc with hchar | rfl
    · exact hchar
    · exact absurd hc hdot

/-- A name with a prefix of five snapshot characters is a snapshot id if the rest fits. -/
theorem prefixed_ok {pre : String} (hsize : pre.utf8ByteSize = 5)
    (hpre : pre.toList.all snapshotChar = true) (h : validateId id = .ok ()) :
    validateSnapshotId (pre ++ id) = .ok () ↔ Fits id := by
  obtain ⟨-, -, hchars, -⟩ := validateId_ok.mp h
  rw [validateSnapshotId_ok, Fits, ← snapshotChars_iff hchars, String.utf8ByteSize_append, hsize,
    String.toList_append, List.all_append, hpre, Bool.true_and]
  refine ⟨fun ⟨_, hle, hall⟩ => ⟨by omega, hall⟩, fun ⟨hle, hall⟩ => ⟨?_, by omega, hall⟩⟩
  intro hempty
  have := congrArg String.utf8ByteSize hempty
  rw [String.utf8ByteSize_append, hsize, String.utf8ByteSize_empty] at this
  omega

/-- The snapshot of a stop is accepted if and only if the id fits. -/
theorem stopId_ok (h : validateId id = .ok ()) :
    validateSnapshotId (stopId id) = .ok () ↔ Fits id :=
  prefixed_ok (by decide) (by decide) h

/-- And so is the snapshot of a fork. -/
theorem forkId_ok (h : validateId id = .ok ()) :
    validateSnapshotId (forkId id) = .ok () ↔ Fits id :=
  prefixed_ok (by decide) (by decide) h

/-! ## Names that coincide -/

theorem append_left_inj {pre a b : String} (h : pre ++ a = pre ++ b) : a = b := by
  have := congrArg String.toList h
  rw [String.toList_append, String.toList_append] at this
  exact String.toList_inj.mp (List.append_cancel_left this)

theorem append_right_inj {a b post : String} (h : a ++ post = b ++ post) : a = b := by
  have := congrArg String.toList h
  rw [String.toList_append, String.toList_append] at this
  exact String.toList_inj.mp (List.append_cancel_right this)

/-- The temporary name of a fork's snapshot is the one of the temporary name. -/
theorem tmp_forkId : tmp (forkId id) = forkId (tmp id) := String.append_assoc

/-- Where a fork's name ends in `.tmp`, so does the id. -/
theorem forkId_eq_tmp {n : String} (h : forkId id = tmp n) :
    ∃ m, id = tmp m ∧ n = forkId m := by
  have hlist := congrArg String.toList h
  rw [forkId, tmp, String.toList_append, String.toList_append, List.append_eq_append_iff] at hlist
  rcases hlist with ⟨m, hn, hid⟩ | ⟨m, hfork, htmp⟩
  · refine ⟨String.ofList m, ?_, ?_⟩
    · apply String.toList_inj.mp
      rw [tmp, String.toList_append, @String.toList_ofList m]
      exact hid
    · apply String.toList_inj.mp
      rw [forkId, String.toList_append, @String.toList_ofList m]
      exact hn
  · -- the suffix begins inside `fork-`, which has no dot
    cases m with
    | nil =>
      refine ⟨"", ?_, ?_⟩
      · exact String.toList_inj.mp htmp.symm
      · exact String.toList_inj.mp ((List.append_nil _).symm.trans hfork.symm)
    | cons c m =>
      have hdot : c = '.' := (List.cons.inj htmp).1.symm
      have hmem : '.' ∈ "fork-".toList := by
        rw [hfork, hdot]
        exact List.mem_append_right _ List.mem_cons_self
      exact absurd hmem (by decide)

/-- No snapshot id is a temporary name. -/
theorem tmp_not_snapshot {n : String} : validateSnapshotId (tmp n) ≠ .ok () := by
  intro h
  have hall := (validateSnapshotId_ok.mp h).2.2
  rw [tmp, String.toList_append, List.all_append, Bool.and_eq_true] at hall
  exact absurd hall.2 (by decide)

/-- Two names of the registry coincide where one is the staging name of the other. -/
theorem part_of_eq {a b : Part} {n m : String} (h : a.of n = b.of m) :
    (a = b ∧ n = m) ∨ (a = .directory ∧ b = .staging ∧ n = tmp m) ∨
      (a = .staging ∧ b = .directory ∧ tmp n = m) := by
  cases a <;> cases b <;>
    simp only [Part.of, registryDir, stagingDir, snapKey, registry, Derived.path.injEq,
      Derived.key.injEq, List.cons_append, List.nil_append, List.cons.injEq, and_true, true_and,
      reduceCtorEq] at h
  · exact .inl ⟨rfl, h⟩
  · exact .inr (.inl ⟨rfl, rfl, h⟩)
  · exact .inr (.inr ⟨rfl, rfl, h⟩)
  · exact .inl ⟨rfl, append_right_inj h⟩
  · exact .inl ⟨rfl, append_left_inj h⟩

/-- A key of a sandbox is no key of a snapshot. -/
theorem id_ne_snapKey {n : String} (h : validateId id = .ok ()) : id ≠ snapKey n := by
  rintro rfl
  have hall := (validateId_ok.mp h).2.2.1
  rw [snapKey, String.toList_append, List.all_append, Bool.and_eq_true] at hall
  exact absurd hall.1 (by decide)

/-- What is in the directory of a sandbox is not in the registry. -/
theorem sandbox_ne_part {part : Part} {n : String} {p : Path} (h : validateId id = .ok ()) :
    Derived.path (sandboxDir id ++ p) ≠ part.of n := by
  have hname := (validateId_ok.mp h).2.2.2.1
  cases part <;> simp [Part.of, registryDir, stagingDir, registry, sandboxDir, hname]

/-- Distinct temporaries have distinct paths. -/
theorem temporary_path_inj {t u : Temporary} (h : t.path = u.path) : t = u := by
  cases t <;> cases u <;> first | rfl | exact absurd h (by decide)

theorem temporary_path_ne {t : Temporary} : t.path ≠ [] := by
  cases t <;> decide

/-- The part and the name in the registry. -/
def Source.home : Source → Option (Part × String)
  | (.snapshot part, id) => some (part, id)
  | (.fork part, id) => some (part, forkId id)
  | _ => none

/-- The derived name of a source is its part of its home. -/
theorem derived_home {p : Source} {part : Part} {n : String} (h : p.home = some (part, n)) :
    p.derived = part.of n := by
  obtain ⟨k, id⟩ := p
  cases k <;> simp only [Source.home, Option.some.injEq, Prod.mk.injEq, reduceCtorEq] at h
  all_goals
    obtain ⟨rfl, rfl⟩ := h
    rfl

/-- No name of a sandbox is a name in the registry. -/
theorem derived_ne_home {p : Source} {part : Part} {n : String} (hp : p.Accepted)
    (h : p.home = none) : p.derived ≠ part.of n := by
  obtain ⟨k, id⟩ := p
  cases k with
  | sandbox => exact sandbox_ne_part (p := []) hp
  | temporary t => exact sandbox_ne_part hp
  | sandboxKey =>
    cases part with
    | directory => nofun
    | staging => nofun
    | key => exact fun heq => id_ne_snapKey hp (Derived.key.inj heq)
  | snapshot part => cases h
  | fork part => cases h

/-- Names derived from sandboxes do not clash. -/
theorem sandbox_derived_inj {p q : Source} (hp : p.home = none) (hq : q.home = none)
    (h : p.derived = q.derived) : p = q := by
  obtain ⟨k, id⟩ := p
  obtain ⟨k', id'⟩ := q
  cases k <;> cases k' <;>
    simp only [Source.derived, sandboxDir, Derived.path.injEq, Derived.key.injEq, List.cons.injEq,
      List.cons_append, List.nil_append, and_true, reduceCtorEq] at h
  case sandbox.sandbox => rw [h]
  case sandbox.temporary => exact absurd h.2.symm temporary_path_ne
  case temporary.sandbox => exact absurd h.2 temporary_path_ne
  case temporary.temporary => rw [h.1, temporary_path_inj h.2]
  case sandboxKey.sandboxKey => rw [h]
  all_goals
    first
    | exact absurd hp (Option.some_ne_none _)
    | exact absurd hq (Option.some_ne_none _)

/-- A snapshot and a fork of one name clash. -/
theorem clash_snapshot_fork {a b : Part} {n x : String} (hn : validateSnapshotId n = .ok ())
    (h : a.of n = b.of (forkId x)) : Clash (.snapshot a, n) (.fork b, x) := by
  rcases part_of_eq h with ⟨rfl, rfl⟩ | ⟨rfl, rfl, htmp⟩ | ⟨rfl, rfl, htmp⟩
  · exact .fork a x
  · rw [htmp] at hn
    exact absurd hn tmp_not_snapshot
  · obtain ⟨m, rfl, rfl⟩ := forkId_eq_tmp htmp.symm
    exact .stagedSnapshot m

/-- Two sources with one derived name clash. -/
theorem clash_of_home {p q : Source} (hp : p.Accepted) (hq : q.Accepted) (hne : p ≠ q)
    {a b : Part} {n m : String} (hpn : p.home = some (a, n)) (hqm : q.home = some (b, m))
    (h : a.of n = b.of m) : Clash p q ∨ Clash q p := by
  obtain ⟨k, x⟩ := p
  obtain ⟨k', y⟩ := q
  cases k <;> cases k' <;>
    simp only [Source.home, Option.some.injEq, Prod.mk.injEq, reduceCtorEq] at hpn hqm
  all_goals
    obtain ⟨rfl, rfl⟩ := hpn
    obtain ⟨rfl, rfl⟩ := hqm
  case snapshot.snapshot a b =>
    rcases part_of_eq h with ⟨rfl, rfl⟩ | ⟨-, -, rfl⟩ | ⟨-, -, rfl⟩
    · exact absurd rfl hne
    · exact absurd hp tmp_not_snapshot
    · exact absurd hq tmp_not_snapshot
  case snapshot.fork a b => exact .inl (clash_snapshot_fork hp h)
  case fork.snapshot a b => exact .inr (clash_snapshot_fork hq h.symm)
  case fork.fork a b =>
    rcases part_of_eq h with ⟨rfl, hxy⟩ | ⟨rfl, rfl, hxy⟩ | ⟨rfl, rfl, hxy⟩
    · rw [append_left_inj hxy] at hne
      exact absurd rfl hne
    · rw [append_left_inj (hxy.trans tmp_forkId)]
      exact .inr (.stagedFork y)
    · rw [append_left_inj (hxy.symm.trans tmp_forkId)]
      exact .inl (.stagedFork x)

/-- And what clashes has one derived name. -/
theorem Clash.derived_eq {p q : Source} (h : Clash p q) : p.derived = q.derived := by
  cases h with
  | fork part id => rfl
  | stagedFork id => exact congrArg (fun n => Derived.path (registry ++ [n])) tmp_forkId
  | stagedSnapshot id => exact congrArg (fun n => Derived.path (registry ++ [n])) tmp_forkId

/-- Two accepted sources have one name exactly if they are one of the clashing pairs. -/
theorem derived_eq_iff {p q : Source} (hp : p.Accepted) (hq : q.Accepted) (hne : p ≠ q) :
    p.derived = q.derived ↔ Clash p q ∨ Clash q p := by
  constructor
  · intro h
    cases hph : p.home with
    | none =>
      cases hqh : q.home with
      | none => exact absurd (sandbox_derived_inj hph hqh h) hne
      | some r =>
        exact absurd (h.trans (derived_home hqh)) (derived_ne_home hp hph)
    | some r =>
      cases hqh : q.home with
      | none => exact absurd (h.symm.trans (derived_home hph)) (derived_ne_home hq hqh)
      | some r' =>
        rw [derived_home hph, derived_home hqh] at h
        exact clash_of_home hp hq hne hph hqh h
  · rintro (h | h)
    · exact h.derived_eq
    · exact h.derived_eq.symm

end AgentHouse.Engine
