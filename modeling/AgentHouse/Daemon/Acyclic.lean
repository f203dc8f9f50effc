import AgentHouse.Daemon.Plans
import Mathlib.Tactic.Linarith

/-!
# No cycle of waiting tasks

Every task that waits gets a rank from what it holds. Whoever holds what a task waits for has a
higher rank, so that no chain of waits comes back. The one place where the order of the keys does
not give this is a creation from an image that has the name of the image's own builder. It would
wait for the image and the capture of the image for the name. The rows exclude it: the capture
has found the volume of the builder reserved, and the only operation that can reserve it runs
once.
-/

namespace AgentHouse.Daemon.Waiting

section Names

theorem snapshotKey_ne_imageKey (snapshot image : String) :
    snapshotKey snapshot ≠ imageKey image := by
  intro h
  have hchars := congrArg String.toList h
  simp [snapshotKey, imageKey] at hchars

theorem snapshotKey_ne_builderName (snapshot image : String) :
    snapshotKey snapshot ≠ builderName image := by
  intro h
  have hchars := congrArg String.toList h
  simp [snapshotKey, builderName] at hchars

theorem imageKey_ne_builderName (image other : String) : imageKey image ≠ builderName other := by
  intro h
  have hchars := congrArg String.toList h
  simp [imageKey, builderName] at hchars

/-- A name that a sandbox can have is not a key of a snapshot. -/
theorem restorable_ne_snapshotKey {name : Key} (hname : restorable name = true)
    (snapshot : String) : name ≠ snapshotKey snapshot := by
  rintro rfl
  simp [restorable, snapshotKey] at hname

/-- No sandbox name is the key of an image. -/
theorem validId_ne_imageKey {name : Key} (hname : validId name = true) (image : String) :
    name ≠ imageKey image := by
  rintro rfl
  simp [validId, imageKey] at hname

end Names

namespace Task

/-- The keys after two stretches of a plan. -/
theorem keysAfter_append (steps more : List Step) (keys : List Key) :
    keysAfter (steps ++ more) keys = keysAfter more (keysAfter steps keys) := by
  induction steps generalizing keys with
  | nil => rfl
  | cons a steps ih => cases a <;> simp [keysAfter, ih]

variable {t : Task} {a : Step}

theorem take_advance (hnext : t.next = some a) :
    t.family.plan.take (t.done + 1) = t.family.plan.take t.done ++ [a] := by
  simp only [next] at hnext
  rw [List.take_add_one, hnext]
  rfl

theorem drop_advance (hnext : t.next = some a) :
    t.family.plan.drop t.done = a :: t.family.plan.drop (t.done + 1) := by
  obtain ⟨hlt, rfl⟩ := List.getElem?_eq_some_iff.mp hnext
  exact List.drop_eq_getElem_cons hlt

/-- A step changes the keys by what it locks or unlocks. -/
theorem keys_advance (hnext : t.next = some a) : t.advance.keys = keysAfter [a] t.keys := by
  simp only [keys, advance, take_advance hnext, keysAfter_append]

/-- A key is held only after a step that locks it. -/
theorem mem_keys_advance (hnext : t.next = some a) {key : Key} (hkey : key ∈ t.advance.keys) :
    key ∈ t.keys ∨ a = .lock key ∨ a = .tryLock key := by
  rw [keys_advance hnext] at hkey
  cases a with
  | lock other | tryLock other =>
    simp only [keysAfter, List.mem_cons] at hkey
    rcases hkey with rfl | hkey
    · simp
    · exact .inl hkey
  | unlock other => exact .inl (List.mem_filter.mp hkey).1
  | _ => exact .inl hkey

/-- The creation has passed its check of the name and has not reserved its volume. -/
def Checked (t : Task) (name : Key) (operation : Option String) : Prop :=
  .check name operation ∈ t.family.plan.take t.done ∧
    .reserve name operation ∈ t.family.plan.drop t.done

/-- The operation has not reserved its volume. -/
def Pending (t : Task) (operation : String) : Prop :=
  ∃ name, .reserve name (some operation) ∈ t.family.plan.drop t.done

/-- The task captures an image whose row it has seen. -/
def Captures (t : Task) (image : String) : Prop :=
  .admitImage image ∈ t.family.plan.take t.done ∨ t.family = .recapture image

theorem Checked.pending {name : Key} {operation : String} (h : t.Checked name (some operation)) :
    t.Pending operation :=
  ⟨name, h.2⟩

theorem Pending.of_advance {operation : String} (hnext : t.next = some a)
    (h : t.advance.Pending operation) : t.Pending operation := by
  obtain ⟨name, hmem⟩ := h
  refine ⟨name, ?_⟩
  rw [drop_advance hnext]
  exact List.mem_cons_of_mem _ hmem

theorem Checked.of_advance {name : Key} {operation : Option String} (hnext : t.next = some a)
    (h : t.advance.Checked name operation) :
    t.Checked name operation ∨ a = .check name operation := by
  obtain ⟨hdone, htodo⟩ := h
  simp only [advance, take_advance hnext, List.mem_append, List.mem_singleton] at hdone
  rcases hdone with hdone | rfl
  · refine .inl ⟨hdone, ?_⟩
    rw [drop_advance hnext]
    exact List.mem_cons_of_mem _ htodo
  · exact .inr rfl

theorem Captures.of_advance {image : String} (hnext : t.next = some a)
    (h : t.advance.Captures image) : t.Captures image ∨ a = .admitImage image := by
  rcases h with hmem | hfamily
  · simp only [advance, take_advance hnext, List.mem_append, List.mem_singleton] at hmem
    rcases hmem with hmem | rfl
    · exact .inl (.inl hmem)
    · exact .inr rfl
  · exact .inl (.inr hfamily)

/-- How far a task that waits is from a task that does not. -/
def rank (t : Task) : ℕ :=
  match t.next with
  | some (.lock _) =>
    match t.family, t.keys with
    | _, [] => 0
    | .restore .., _ => 1
    | .create .., _ => 2
    | _, _ => 3
  | some .permit => 4
  | _ => 5

/-- What a task holds while it waits for a key. -/
theorem lock_cases {key : Key} (hnext : t.next = some (.lock key)) :
    t.rank = 0 ∧ t.keys = [] ∨
    (∃ snapshot, t.rank = 1 ∧ restorable key = true ∧ t.keys = [snapshotKey snapshot]) ∨
    (∃ name operation image, t.rank = 2 ∧ key = imageKey image ∧ validId name = true ∧
      t.keys = [name] ∧ t.Checked name (some operation)) ∨
    ∃ image, t.rank = 3 ∧ key = builderName image ∧ t.keys = [imageKey image] ∧
      t.Captures image := by
  obtain ⟨family, done⟩ := t
  have hrank : ∀ t : Task, t.next = some (.lock key) → t.keys = [] → t.rank = 0 := by
    intro t hnext hkeys
    simp only [rank, hnext, hkeys]
  cases family with
  | create name operation image checked =>
    cases image with
    | none =>
      rcases done with _ | _ | _ | _ | done <;> simp [next, Family.plan] at hnext
      exact .inl ⟨hrank _ (by simp [next, Family.plan, hnext]) rfl, rfl⟩
    | some image =>
      obtain ⟨hname, hoperation⟩ := checked rfl
      obtain ⟨operation, rfl⟩ := Option.isSome_iff_exists.mp hoperation
      rcases done with _ | _ | _ | _ | _ | done <;> simp [next, Family.plan] at hnext
      · exact .inl ⟨hrank _ (by simp [next, Family.plan, hnext]) rfl, rfl⟩
      · refine .inr (.inr (.inl ⟨name, operation, image, rfl, hnext.symm, hname, rfl, ?_⟩))
        simp [Checked, Family.plan]
  | createBuilder image =>
    rcases done with _ | _ | _ | done <;> simp [next, Family.plan] at hnext
    exact .inl ⟨hrank _ (by simp [next, Family.plan, hnext]) rfl, rfl⟩
  | createSnapshot sandbox snapshot =>
    rcases done with _ | _ | _ | _ | done <;> simp [next, Family.plan] at hnext
    · exact .inl ⟨hrank _ (by simp [next, Family.plan, hnext]) rfl, rfl⟩
    · have hkeys : keys ⟨.createSnapshot sandbox snapshot, 2⟩ = [] := by
        simp [keys, Family.plan, keysAfter]
      exact .inl ⟨hrank _ (by simp [next, Family.plan, hnext]) hkeys, hkeys⟩
  | restore snapshot name checked =>
    rcases done with _ | _ | _ | done <;> simp [next, Family.plan] at hnext
    · exact .inl ⟨hrank _ (by simp [next, Family.plan, hnext]) rfl, rfl⟩
    · exact .inr (.inl ⟨snapshot, rfl, hnext ▸ checked, rfl⟩)
  | capture image =>
    have hkeys : keys ⟨.capture image, 6⟩ = [imageKey image] := by
      simp [keys, Family.plan, captureRound, keysAfter, imageKey_ne_builderName]
    rcases done with _ | _ | _ | _ | _ | _ | _ | _ | _ | done <;>
      simp [next, Family.plan, captureRound] at hnext
    · exact .inl ⟨hrank _ (by simp [next, Family.plan, hnext]) rfl, rfl⟩
    · exact .inr (.inr (.inr ⟨image, rfl, hnext.symm, rfl, by simp [Captures, Family.plan]⟩))
    · refine .inr (.inr (.inr ⟨image, ?_, hnext.symm, hkeys, by simp [Captures, Family.plan]⟩))
      simp [rank, next, Family.plan, captureRound, hkeys]
  | recapture image =>
    have hkeys : keys ⟨.recapture image, 5⟩ = [imageKey image] := by
      simp [keys, Family.plan, captureRound, keysAfter, imageKey_ne_builderName]
    rcases done with _ | _ | _ | _ | _ | _ | _ | _ | done <;>
      simp [next, Family.plan, captureRound] at hnext
    · exact .inl ⟨hrank _ (by simp [next, Family.plan, hnext]) rfl, rfl⟩
    · exact .inr (.inr (.inr ⟨image, rfl, hnext.symm, rfl, .inr rfl⟩))
    · refine .inr (.inr (.inr ⟨image, ?_, hnext.symm, hkeys, .inr rfl⟩))
      simp [rank, next, Family.plan, captureRound, hkeys]
  | deleteSnapshot | mutate | inspect | deleteImage | sweep =>
    rcases done with _ | _ | done <;> simp [next, Family.plan] at hnext
    all_goals exact .inl ⟨hrank _ (by simp [next, Family.plan, hnext]) rfl, rfl⟩

/-- A task with a permit waits for nothing. -/
theorem rank_of_hasPermit (h : t.hasPermit = true) : t.rank = 5 := by
  obtain ⟨family, done⟩ := t
  cases family with
  | create name operation image checked =>
    cases image with
    | none =>
      rcases done with _ | _ | _ | _ | done <;>
        simp [hasPermit, Family.plan, permitAfter] at h
      all_goals simp [rank, next, Family.plan]
    | some image =>
      rcases done with _ | _ | _ | _ | _ | done <;>
        simp [hasPermit, Family.plan, permitAfter] at h
      all_goals simp [rank, next, Family.plan]
  | capture image =>
    rcases done with _ | _ | _ | _ | _ | _ | _ | _ | _ | done <;>
      simp [hasPermit, Family.plan, captureRound, permitAfter] at h
    all_goals simp [rank, next, Family.plan, captureRound]
  | recapture image =>
    rcases done with _ | _ | _ | _ | _ | _ | _ | _ | done <;>
      simp [hasPermit, Family.plan, captureRound, permitAfter] at h
    all_goals simp [rank, next, Family.plan, captureRound]
  | createBuilder | createSnapshot | deleteSnapshot | restore | mutate | inspect | deleteImage
  | sweep =>
    rcases done with _ | _ | _ | _ | done <;>
      simp [hasPermit, Family.plan, permitAfter] at h <;> simp [rank, next, Family.plan]

/-- A task that waits for a permit has rank four. -/
theorem rank_of_permit (hnext : t.next = some .permit) : t.rank = 4 := by
  simp only [rank, hnext]

/-- A creation keeps the lock on the name that it has checked. -/
theorem Checked.name_mem {name : Key} {operation : Option String} (h : t.Checked name operation) :
    name ∈ t.keys := by
  obtain ⟨family, done⟩ := t
  obtain ⟨hdone, -⟩ := h
  cases family with
  | create other operation image checked =>
    cases image with
    | none =>
      rcases done with _ | _ | _ | _ | done <;> simp [Family.plan] at hdone
      all_goals simp [keys, Family.plan, keysAfter, hdone.1]
    | some image =>
      rcases done with _ | _ | _ | _ | _ | done <;> simp [Family.plan] at hdone
      all_goals simp [keys, Family.plan, keysAfter, hdone.1]
  | _ =>
    simpa [Family.plan, captureRound] using List.mem_of_mem_take hdone

/-- A creation reserves what it has checked. -/
theorem checked_of_reserve {name : Key} {operation : Option String}
    (hnext : t.next = some (.reserve name operation)) : t.Checked name operation := by
  obtain ⟨family, done⟩ := t
  cases family with
  | create other operation image checked =>
    cases image with
    | none =>
      rcases done with _ | _ | _ | _ | done <;> simp [next, Family.plan] at hnext
      simp [Checked, Family.plan, hnext]
    | some image =>
      rcases done with _ | _ | _ | _ | _ | done <;> simp [next, Family.plan] at hnext
      simp [Checked, Family.plan, hnext]
  | _ => simpa [Family.plan, captureRound] using List.mem_of_getElem? hnext

/-- The reservation is the last step. -/
theorem drop_of_reserve {name : Key} {operation : Option String}
    (hnext : t.next = some (.reserve name operation)) :
    t.family.plan.drop (t.done + 1) = [] := by
  obtain ⟨family, done⟩ := t
  cases family with
  | create other operation image checked =>
    cases image with
    | none =>
      rcases done with _ | _ | _ | _ | done <;> simp [next, Family.plan] at hnext
      rfl
    | some image =>
      rcases done with _ | _ | _ | _ | _ | done <;> simp [next, Family.plan] at hnext
      rfl
  | _ =>
    have hmem := List.mem_of_getElem? hnext
    simp [Family.plan, captureRound] at hmem

/-- A builder is admitted under the lock of its name. -/
theorem name_mem_of_admitBuilder {image : String} (hnext : t.next = some (.admitBuilder image)) :
    builderName image ∈ t.keys := by
  obtain ⟨family, done⟩ := t
  cases family with
  | createBuilder other =>
    rcases done with _ | _ | _ | done <;> simp [next, Family.plan] at hnext
    simp [keys, Family.plan, keysAfter, hnext]
  | create other operation image checked =>
    have hplan := List.mem_of_getElem? hnext
    cases image <;> simp [Family.plan] at hplan
  | _ => simpa [Family.plan, captureRound] using List.mem_of_getElem? hnext

/-- A task that admits a builder has checked no name. -/
theorem not_checked_of_admitBuilder {image : String} {name : Key} {operation : Option String}
    (hnext : t.next = some (.admitBuilder image)) : ¬ t.Checked name operation := by
  rintro ⟨-, htodo⟩
  have htodo := List.mem_of_mem_drop htodo
  have hplan := List.mem_of_getElem? hnext
  cases hf : t.family with
  | create other operation image checked => cases image <;> simp [hf, Family.plan] at hplan
  | createBuilder other => simp [hf, Family.plan] at htodo
  | _ => simp [hf, Family.plan, captureRound] at hplan

/-- A task waits for a lock, or its rank is at least four. -/
theorem rank_cases (t : Task) : (∃ key, t.next = some (.lock key)) ∨ 4 ≤ t.rank := by
  by_cases hlock : ∃ key, t.next = some (.lock key)
  · exact .inl hlock
  · refine .inr ?_
    unfold rank
    split
    · next key hnext => exact absurd ⟨key, hnext⟩ hlock
    · omega
    · omega

end Task

/-- What holds in every state of the daemon. -/
structure Process.Sound (p : Process) : Prop where
  excluded {i j : ℕ} {t u : Task} {key : Key} (ht : p.tasks i = some t)
    (hu : p.tasks j = some u) (hne : i ≠ j) (hkey : key ∈ t.keys) : key ∉ u.keys
  spent_receipts {operation : String} (h : operation ∈ p.store.spent) :
    operation ∈ p.store.receipts
  pending {i : ℕ} {t : Task} {operation : String} (ht : p.tasks i = some t)
    (h : t.Pending operation) : operation ∈ p.store.receipts ∧ operation ∉ p.store.spent
  once {i j : ℕ} {t u : Task} {operation : String} (ht : p.tasks i = some t)
    (hu : p.tasks j = some u) (h : t.Pending operation) (h' : u.Pending operation) : i = j
  reserved {image : String} (h : image ∈ p.store.builders)
    (hreserved : builderName image ∈ p.store.reserved) :
    builderOperation image ∈ p.store.spent
  images {image : String} (h : image ∈ p.store.images) :
    image ∈ p.store.builders ∧ builderOperation image ∈ p.store.spent
  checked {i : ℕ} {t : Task} {name : Key} {operation : Option String} (ht : p.tasks i = some t)
    (h : t.Checked name operation) :
    (∀ image ∈ p.store.builders, name = builderName image →
      operation = some (builderOperation image)) ∧ name ∉ p.store.reserved
  captured {i : ℕ} {t : Task} {image : String} (ht : p.tasks i = some t)
    (h : t.Captures image) : image ∈ p.store.images

theorem Family.operation_of_reserve {f : Family} {name : Key} {operation : String}
    (h : .reserve name (some operation) ∈ f.plan) : f.operation = some operation := by
  cases f with
  | create other operation image checked =>
    cases image <;> simp [plan] at h
    all_goals simp [Family.operation, h]
  | _ => simp [plan, captureRound] at h

namespace Process

variable {permits : ℕ} {p : Process}

/-- The empty process is sound. -/
theorem sound_new : Sound new := by
  constructor <;> simp [new]

/-- Fewer tasks and fewer reservations. -/
theorem Sound.shrink {q : Process} (h : p.Sound)
    (htasks : ∀ {i t}, q.tasks i = some t → p.tasks i = some t)
    (hreserved : q.store.reserved ⊆ p.store.reserved)
    (hstore : q.store = { p.store with reserved := q.store.reserved }) : q.Sound where
  excluded ht hu hne hkey := h.excluded (htasks ht) (htasks hu) hne hkey
  spent_receipts hspent := by
    rw [hstore] at hspent ⊢
    exact h.spent_receipts hspent
  pending ht hpending := by
    rw [hstore]
    exact h.pending (htasks ht) hpending
  once ht hu := h.once (htasks ht) (htasks hu)
  reserved himage hres := by
    rw [hstore] at himage ⊢
    exact h.reserved himage (hreserved hres)
  images himage := by
    rw [hstore] at himage ⊢
    exact h.images himage
  checked ht hchecked := by
    obtain ⟨hbuilders, hname⟩ := h.checked (htasks ht) hchecked
    refine ⟨fun image himage => ?_, fun hres => hname (hreserved hres)⟩
    rw [hstore] at himage
    exact hbuilders image himage
  captured ht hcaptures := by
    rw [hstore]
    exact h.captured (htasks ht) hcaptures

/-- A family that may begin brings a fresh operation. -/
theorem operation_new {f : Family} {operation : String} (hmay : p.MayBegin f)
    (hf : f.operation = some operation) : operation ∉ p.store.receipts := by
  cases f with
  | create name other image checked =>
    obtain rfl : other = some operation := hf
    exact hmay
  | _ => nomatch hf

theorem pending_begin {f : Family} {operation : String} (h : Task.Pending ⟨f, 0⟩ operation) :
    f.operation = some operation := by
  obtain ⟨name, hmem⟩ := h
  exact Family.operation_of_reserve hmem

/-- A new task keeps the invariant. -/
theorem Sound.begin {i : ℕ} {f : Family} (h : p.Sound) (hmay : p.MayBegin f) :
    Sound { p.put i (some ⟨f, 0⟩) with store := p.receive f } := by
  have hcases : ∀ {j t}, (p.put i (some ⟨f, 0⟩)).tasks j = some t →
      j = i ∧ t = ⟨f, 0⟩ ∨ j ≠ i ∧ p.tasks j = some t := by
    intro j t ht
    by_cases hj : j = i
    · subst hj
      exact .inl ⟨rfl, by simpa [put] using ht.symm⟩
    · exact .inr ⟨hj, by simpa [put, hj] using ht⟩
  constructor
  case excluded =>
    intro j k t u key ht hu hne hkey hkey'
    rcases hcases ht with ⟨-, rfl⟩ | ⟨-, ht⟩
    · exact absurd hkey List.not_mem_nil
    rcases hcases hu with ⟨-, rfl⟩ | ⟨-, hu⟩
    · exact absurd hkey' List.not_mem_nil
    exact h.excluded ht hu hne hkey hkey'
  case spent_receipts =>
    intro operation hspent
    exact List.mem_append_right _ (h.spent_receipts hspent)
  case pending =>
    intro j t operation ht hpending
    rcases hcases ht with ⟨-, rfl⟩ | ⟨-, ht⟩
    · have hf := pending_begin hpending
      refine ⟨List.mem_append_left _ (by simp [hf]), fun hspent => ?_⟩
      exact operation_new hmay hf (h.spent_receipts hspent)
    · obtain ⟨hreceipt, hspent⟩ := h.pending ht hpending
      exact ⟨List.mem_append_right _ hreceipt, hspent⟩
  case once =>
    intro j k t u operation ht hu hpending hpending'
    rcases hcases ht with ⟨rfl, rfl⟩ | ⟨-, hold⟩ <;> rcases hcases hu with ⟨rfl, rfl⟩ | ⟨-, hold'⟩
    · rfl
    · exact absurd (h.pending hold' hpending').1 (operation_new hmay (pending_begin hpending))
    · exact absurd (h.pending hold hpending).1 (operation_new hmay (pending_begin hpending'))
    · exact h.once hold hold' hpending hpending'
  case reserved => exact h.reserved
  case images => exact h.images
  case checked =>
    intro j t name operation ht hchecked
    rcases hcases ht with ⟨-, rfl⟩ | ⟨-, ht⟩
    · exact absurd hchecked.1 List.not_mem_nil
    · exact h.checked ht hchecked
  case captured =>
    intro j t image ht hcaptures
    rcases hcases ht with ⟨-, rfl⟩ | ⟨-, ht⟩
    · rcases hcaptures with hmem | rfl
      · exact absurd hmem List.not_mem_nil
      · exact hmay
    · exact h.captured ht hcaptures

/-- A builder is recorded by the step that admits it. -/
theorem mem_builders_record {s : Store} {a : Step} {image : String}
    (h : image ∈ (record s a).builders) : image ∈ s.builders ∨ a = .admitBuilder image := by
  cases a with
  | admitBuilder other =>
    rcases List.mem_cons.mp h with rfl | h
    · exact .inr rfl
    · exact .inl h
  | _ => exact .inl h

/-- A name is reserved by the step that reserves it. -/
theorem mem_reserved_record {s : Store} {a : Step} {name : Key}
    (h : name ∈ (record s a).reserved) :
    name ∈ s.reserved ∨ ∃ operation, a = .reserve name operation := by
  cases a with
  | reserve other operation =>
    rcases List.mem_cons.mp h with rfl | h
    · exact .inr ⟨operation, rfl⟩
    · exact .inl h
  | _ => exact .inl h

/-- An image is recorded by the step that admits it. -/
theorem mem_images_record {s : Store} {a : Step} {image : String}
    (h : image ∈ (record s a).images) : image ∈ s.images ∨ a = .admitImage image := by
  cases a with
  | admitImage other =>
    rcases List.mem_cons.mp h with rfl | h
    · exact .inr rfl
    · exact .inl h
  | _ => exact .inl h

/-- An operation is spent by a reservation. -/
theorem mem_spent_record {s : Store} {a : Step} {operation : String}
    (h : operation ∈ (record s a).spent) :
    operation ∈ s.spent ∨ ∃ name, a = .reserve name (some operation) := by
  cases a with
  | reserve name other =>
    rcases List.mem_append.mp h with h | h
    · obtain rfl := Option.mem_toList.mp h
      exact .inr ⟨name, rfl⟩
    · exact .inl h
  | _ => exact .inl h

theorem spent_record {s : Store} {operation : String} (a : Step) (h : operation ∈ s.spent) :
    operation ∈ (record s a).spent := by
  cases a with
  | reserve name other => exact List.mem_append_right _ h
  | _ => exact h

theorem builders_record {s : Store} {image : String} (a : Step) (h : image ∈ s.builders) :
    image ∈ (record s a).builders := by
  cases a with
  | admitBuilder other => exact List.mem_cons_of_mem _ h
  | _ => exact h

theorem images_record {s : Store} {image : String} (a : Step) (h : image ∈ s.images) :
    image ∈ (record s a).images := by
  cases a with
  | admitImage other => exact List.mem_cons_of_mem _ h
  | _ => exact h

@[simp] theorem receipts_record (s : Store) (a : Step) : (record s a).receipts = s.receipts := by
  cases a <;> rfl

section Step

variable {i : ℕ} {t : Task} {a : Step}

/-- A task after the step: the one that takes it, or another one. -/
theorem tasks_step (ht : p.tasks i = some t) {j : ℕ} {u : Task}
    (hu : (p.put i (some t.advance)).tasks j = some u) :
    j = i ∧ u = t.advance ∨ j ≠ i ∧ p.tasks j = some u := by
  by_cases hj : j = i
  · subst hj
    exact .inl ⟨rfl, by simpa [put] using hu.symm⟩
  · exact .inr ⟨hj, by simpa [put, hj] using hu⟩

/-- Nobody else holds a key that the task holds after the step. -/
theorem Sound.excluded_advance (h : p.Sound) (ht : p.tasks i = some t)
    (hnext : t.next = some a) (henabled : p.Enabled permits a) {j : ℕ} {u : Task} {key : Key}
    (hne : j ≠ i) (hu : p.tasks j = some u) (hkey : key ∈ t.advance.keys) : key ∉ u.keys := by
  rcases Task.mem_keys_advance hnext hkey with hkey | rfl | rfl
  · exact h.excluded ht hu hne.symm hkey
  · exact henabled j u hu
  · exact henabled j u hu

/-- A pending operation was pending before the step. -/
theorem pending_step (ht : p.tasks i = some t) (hnext : t.next = some a) {j : ℕ} {u : Task}
    {operation : String} (hu : (p.put i (some t.advance)).tasks j = some u)
    (hpending : u.Pending operation) : ∃ v, p.tasks j = some v ∧ v.Pending operation := by
  rcases tasks_step ht hu with ⟨rfl, rfl⟩ | ⟨-, hu⟩
  · exact ⟨t, ht, hpending.of_advance hnext⟩
  · exact ⟨u, hu, hpending⟩

/-- The operation that has just reserved its volume is not pending any more. -/
theorem Sound.pending_reserve (h : p.Sound) (ht : p.tasks i = some t) {name : Key}
    {operation : String} (hnext : t.next = some (.reserve name (some operation))) {j : ℕ}
    {u : Task} (hu : (p.put i (some t.advance)).tasks j = some u) : ¬ u.Pending operation := by
  intro hpending
  rcases tasks_step ht hu with ⟨rfl, rfl⟩ | ⟨hne, hu⟩
  · obtain ⟨other, hmem⟩ := hpending
    simp only [Task.advance, Task.drop_of_reserve hnext] at hmem
    exact absurd hmem List.not_mem_nil
  · exact hne (h.once hu ht hpending (Task.checked_of_reserve hnext).pending)

/-- What is checked stays so: the lock on the name keeps the others from changing its rows. -/
theorem Sound.checked_step (h : p.Sound) (ht : p.tasks i = some t) (hnext : t.next = some a)
    (henabled : p.Enabled permits a) {j : ℕ} {u : Task} {name : Key} {operation : Option String}
    (hu : (p.put i (some t.advance)).tasks j = some u) (hchecked : u.Checked name operation) :
    (∀ image ∈ (record p.store a).builders, name = builderName image →
      operation = some (builderOperation image)) ∧ name ∉ (record p.store a).reserved := by
  have hbefore : (∀ image ∈ p.store.builders, name = builderName image →
      operation = some (builderOperation image)) ∧ name ∉ p.store.reserved := by
    rcases tasks_step ht hu with ⟨rfl, rfl⟩ | ⟨-, hu⟩
    · rcases hchecked.of_advance hnext with hchecked | rfl
      · exact h.checked ht hchecked
      · exact henabled
    · exact h.checked hu hchecked
  -- A step on the rows of the name is a step of the task that has the lock on it.
  have hown : ∀ key ∈ t.keys, key = name → j = i ∧ u = t.advance := by
    rintro key hkey rfl
    rcases tasks_step ht hu with hown | ⟨hne, hu⟩
    · exact hown
    · exact absurd hchecked.name_mem (h.excluded ht hu hne.symm hkey)
  refine ⟨fun image himage hname => ?_, fun hreserved => ?_⟩
  · rcases mem_builders_record himage with himage | rfl
    · exact hbefore.1 image himage hname
    · obtain ⟨rfl, rfl⟩ := hown _ (Task.name_mem_of_admitBuilder hnext) hname.symm
      rcases hchecked.of_advance hnext with hchecked | hcheck
      · exact absurd hchecked (Task.not_checked_of_admitBuilder hnext)
      · nomatch hcheck
  · rcases mem_reserved_record hreserved with hreserved | ⟨other, rfl⟩
    · exact hbefore.2 hreserved
    · obtain ⟨rfl, rfl⟩ := hown _ (Task.checked_of_reserve hnext).name_mem rfl
      obtain ⟨-, htodo⟩ := hchecked
      simp only [Task.advance, Task.drop_of_reserve hnext] at htodo
      exact absurd htodo List.not_mem_nil

/-- A step of any task keeps the invariant. -/
theorem Sound.step (h : p.Sound) (ht : p.tasks i = some t) (hnext : t.next = some a)
    (henabled : p.Enabled permits a) :
    Sound { p.put i (some t.advance) with store := record p.store a } := by
  constructor
  case excluded =>
    intro j k u v key hu hv hne hkey hkey'
    rcases tasks_step ht hu with ⟨rfl, rfl⟩ | ⟨hj, hold⟩ <;>
      rcases tasks_step ht hv with ⟨rfl, rfl⟩ | ⟨hk, hold'⟩
    · exact hne rfl
    · exact h.excluded_advance ht hnext henabled hk hold' hkey hkey'
    · exact h.excluded_advance ht hnext henabled hj hold hkey' hkey
    · exact h.excluded hold hold' hne hkey hkey'
  case spent_receipts =>
    intro operation hspent
    rw [receipts_record]
    rcases mem_spent_record hspent with hspent | ⟨name, rfl⟩
    · exact h.spent_receipts hspent
    · exact (h.pending ht (Task.checked_of_reserve hnext).pending).1
  case pending =>
    intro j u operation hu hpending
    obtain ⟨v, hv, hbefore⟩ := pending_step ht hnext hu hpending
    obtain ⟨hreceipt, hspent⟩ := h.pending hv hbefore
    refine ⟨by rwa [receipts_record], fun hafter => ?_⟩
    rcases mem_spent_record hafter with hafter | ⟨name, rfl⟩
    · exact hspent hafter
    · exact h.pending_reserve ht hnext hu hpending
  case once =>
    intro j k u v operation hu hv hpending hpending'
    obtain ⟨_, hu, hpending⟩ := pending_step ht hnext hu hpending
    obtain ⟨_, hv, hpending'⟩ := pending_step ht hnext hv hpending'
    exact h.once hu hv hpending hpending'
  case reserved =>
    intro image himage hreserved
    rcases mem_builders_record himage with himage | rfl
    · rcases mem_reserved_record hreserved with hreserved | ⟨operation, rfl⟩
      · exact spent_record a (h.reserved himage hreserved)
      · obtain rfl := (h.checked ht (Task.checked_of_reserve hnext)).1 image himage rfl
        exact List.mem_append_left _ (by simp)
    · rcases henabled with himage | hfree
      · exact h.reserved himage hreserved
      · exact absurd hreserved hfree
  case images =>
    intro image himage
    have hbefore : image ∈ p.store.builders ∧ builderOperation image ∈ p.store.spent := by
      rcases mem_images_record himage with himage | rfl
      · exact h.images himage
      · exact ⟨henabled.1, h.reserved henabled.1 henabled.2⟩
    exact ⟨builders_record a hbefore.1, spent_record a hbefore.2⟩
  case checked =>
    intro j u name operation hu hchecked
    exact h.checked_step ht hnext henabled hu hchecked
  case captured =>
    intro j u image hu hcaptures
    rcases tasks_step ht hu with ⟨rfl, rfl⟩ | ⟨-, hu⟩
    · rcases hcaptures.of_advance hnext with hcaptures | rfl
      · exact images_record a (h.captured ht hcaptures)
      · exact List.mem_cons_self
    · exact images_record a (h.captured hu hcaptures)

end Step

/-- How far the task of a number is from one that waits for nothing. -/
def rank (p : Process) (i : ℕ) : ℕ := ((p.tasks i).map Task.rank).getD 0

theorem rank_of_task {i : ℕ} {t : Task} (ht : p.tasks i = some t) : p.rank i = t.rank := by
  simp [rank, ht]

end Process

open Process

variable {permits : ℕ} {p : Process}

/-- Every step of the process does. -/
theorem Next.sound {q : Process} (h : Next permits p q) (hp : p.Sound) : q.Sound := by
  cases h with
  | begins hfresh hmay => exact hp.begin hmay
  | step ht hnext henabled => exact hp.step ht hnext henabled
  | @quits i =>
    refine hp.shrink (fun {j t} ht => ?_) (fun _ h => h) rfl
    by_cases hj : j = i
    · subst hj
      simp [put] at ht
    · simpa [put, hj] using ht
  | releases => exact hp.shrink (fun ht => ht) List.filter_sublist.subset rfl
  | restarts => exact hp.shrink (fun ht => nomatch ht) (fun _ h => h) rfl

/-- By induction on the steps, every reachable process is sound. -/
theorem Reaches.sound (h : Reaches permits p) : p.Sound := by
  induction h with
  | refl => exact sound_new
  | tail _ hnext ih => exact hnext.sound ih

/-- A creation from an image does not hold the name that a capture waits for. The capture has
found the volume of its builder reserved, and the operation of the creation has reserved none. -/
theorem Process.Sound.builderName_ne (h : p.Sound) {i j : ℕ} {t u : Task} {image : String}
    {name : Key} {operation : String} (ht : p.tasks i = some t) (hu : p.tasks j = some u)
    (hcaptures : t.Captures image) (hchecked : u.Checked name (some operation)) :
    builderName image ≠ name := by
  rintro rfl
  obtain ⟨hbuilder, hspent⟩ := h.images (h.captured ht hcaptures)
  obtain rfl := Option.some_inj.mp ((h.checked hu hchecked).1 image hbuilder rfl)
  exact (h.pending hu hchecked.pending).2 hspent

/-- Whoever holds what a task waits for has a higher rank. -/
theorem Process.Sound.rank_lt (h : p.Sound) {i j : ℕ} (hwaits : p.Waits i j) :
    p.rank i < p.rank j := by
  cases hwaits with
  | permit ht hu hnext hheld =>
    rw [rank_of_task ht, rank_of_task hu, Task.rank_of_permit hnext, Task.rank_of_hasPermit hheld]
    omega
  | @key t u key ht hu hnext hheld =>
    rw [rank_of_task ht, rank_of_task hu]
    -- What the holder waits for, with the keys that it holds then.
    rcases Task.rank_cases u with ⟨other, hother⟩ | hrank
    · rcases Task.lock_cases hother with ⟨-, hkeys⟩ | ⟨snapshot, hrank, -, hkeys⟩ |
        ⟨name, operation, image, hrank, -, hvalid, hkeys, hchecked⟩ |
        ⟨image, hrank, -, hkeys, -⟩ <;>
        rw [hkeys] at hheld
      · exact absurd hheld List.not_mem_nil
      all_goals obtain rfl := List.mem_singleton.mp hheld
      · rcases Task.lock_cases hnext with ⟨hlow, -⟩ | ⟨_, -, hname, -⟩ |
          ⟨_, _, image, -, hkey, -⟩ | ⟨image, -, hkey, -⟩
        · omega
        · exact absurd rfl (restorable_ne_snapshotKey hname snapshot)
        · exact absurd hkey (snapshotKey_ne_imageKey snapshot image)
        · exact absurd hkey (snapshotKey_ne_builderName snapshot image)
      · rcases Task.lock_cases hnext with ⟨hlow, -⟩ | ⟨_, hlow, -⟩ |
          ⟨_, _, image, -, hkey, -⟩ | ⟨image, -, hkey, -, hcaptures⟩
        · omega
        · omega
        · exact absurd hkey (validId_ne_imageKey hvalid image)
        · exact absurd hkey.symm (h.builderName_ne ht hu hcaptures hchecked)
      · rcases Task.lock_cases hnext with ⟨hlow, -⟩ | ⟨_, hlow, -⟩ | ⟨_, _, _, hlow, -⟩ |
          ⟨other, -, hkey, -⟩
        · omega
        · omega
        · omega
        · exact absurd hkey (imageKey_ne_builderName image other)
    · rcases Task.lock_cases hnext with ⟨hlow, -⟩ | ⟨_, hlow, -⟩ | ⟨_, _, _, hlow, -⟩ |
        ⟨_, hlow, -⟩ <;> omega

/-- No task of a reachable state waits, through others, for itself. -/
theorem no_deadlock (h : Reaches permits p) (i : ℕ) : ¬ Relation.TransGen p.Waits i i := by
  intro hcycle
  have hranks : ∀ {j}, Relation.TransGen p.Waits i j → p.rank i < p.rank j := by
    intro j hpath
    induction hpath with
    | single hwaits => exact h.sound.rank_lt hwaits
    | tail _ hwaits ih => exact ih.trans (h.sound.rank_lt hwaits)
  exact lt_irrefl _ (hranks hcycle)

/-- A stop that has its sandbox, and a restore to the name of the sandbox. -/
def held : Process :=
  let stop := (new.put 0 (some ⟨.mutate "a", 0⟩)).put 0 (some ⟨.mutate "a", 1⟩)
  (stop.put 1 (some ⟨.restore "s" "a" (by decide), 0⟩)).put 1
    (some ⟨.restore "s" "a" (by decide), 1⟩)

theorem Process.Free.put {key : Key} (h : p.Free key) {i : ℕ} {t : Task} (hkey : key ∉ t.keys) :
    (p.put i (some t)).Free key := by
  intro j u hu
  by_cases hj : j = i
  · subst hj
    obtain rfl : t = u := by simpa [Process.put] using hu
    exact hkey
  · exact h j u (by simpa [Process.put, hj] using hu)

/-- A state with a task that waits for another one is reachable. -/
theorem reaches_held : Reaches 1 held := by
  have hnew : ∀ key, new.Free key := fun key i t ht => nomatch ht
  have hstop : Reaches 1 ((new.put 0 (some ⟨.mutate "a", 0⟩)).put 0 (some ⟨.mutate "a", 1⟩)) :=
    .tail (.tail .refl (.begins (f := .mutate "a") rfl trivial))
      (.step (t := ⟨.mutate "a", 0⟩) (a := .lock "a") rfl rfl ((hnew "a").put (by decide)))
  refine .tail (.tail hstop (.begins (f := .restore "s" "a" (by decide)) rfl trivial))
    (.step (t := ⟨.restore "s" "a" (by decide), 0⟩) (a := .lock (snapshotKey "s")) rfl rfl ?_)
  exact (((hnew _).put (by decide)).put (by decide)).put (by decide)

theorem held_no_deadlock :
    held.Waits 1 0 ∧ ¬ Relation.TransGen held.Waits 0 0 ∧ ¬ Relation.TransGen held.Waits 1 1 :=
  ⟨.key rfl rfl rfl (by decide), no_deadlock reaches_held 0, no_deadlock reaches_held 1⟩

end AgentHouse.Daemon.Waiting
