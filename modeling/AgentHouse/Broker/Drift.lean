import AgentHouse.Broker.Programs

/-!
# Worker broker: what stays the same while the host moves

A process keeps its pid, its start time and its launch for as long as it lives, and a launched
process that runs as its worker goes on to do so. Nothing that the host does makes a new
worker, and a child that has not been waited for keeps its pid.
-/

namespace AgentHouse.Broker

variable {s s' t : World} {p p' q : Process} {l : Launch} {k : Key}

/-- A launched process that has its plan. It may be on its way to become the worker. -/
def World.IsWorker (s : World) (p : Process) (l : Launch) : Prop :=
  p ∈ s.procs ∧ p.launch = some l ∧ p.planned = true

/-- `p'` is the process `p` at a later time. -/
structure Continues (p p' : Process) : Prop where
  serial : p'.serial = p.serial
  pid : p'.pid = p.pid
  start : p'.start = p.start
  launch : p'.launch = p.launch
  planned : p'.planned = p.planned
  child : p'.child = p.child
  foreign : p.launch = none → p' = p
  runs : ∀ l, p.launch = some l → p.Runs l → p'.Runs l
  /-- It has its own credentials or those of its launch. -/
  uids : p'.uids = p.uids ∨ ∃ l, p.launch = some l ∧ p'.Runs l

/-- A process goes on as itself. -/
theorem Continues.refl (p : Process) : Continues p p :=
  ⟨rfl, rfl, rfl, rfl, rfl, rfl, fun _ => rfl, fun _ _ h => h, .inl rfl⟩

/-- What goes on twice goes on. -/
theorem Continues.trans (h : Continues p p') (h' : Continues p' q) : Continues p q where
  serial := h'.serial.trans h.serial
  pid := h'.pid.trans h.pid
  start := h'.start.trans h.start
  launch := h'.launch.trans h.launch
  planned := h'.planned.trans h.planned
  child := h'.child.trans h.child
  foreign hp := by
    have hp' := h.foreign hp
    subst hp'
    exact h'.foreign hp
  runs l hl hr := h'.runs l (h.launch.trans hl) (h.runs l hl hr)
  uids := by
    obtain huids' | ⟨l, hl, hr⟩ := h'.uids
    · obtain huids | ⟨l, hl, hr⟩ := h.uids
      · exact .inl (huids'.trans huids)
      · exact .inr ⟨l, hl, h'.runs l (h.launch.trans hl) hr⟩
    · exact .inr ⟨l, h.launch.symm.trans hl, hr⟩

theorem all_replicate (id : ℕ) : All (List.replicate 4 id) id :=
  ⟨List.length_replicate, fun _ hi => List.eq_of_mem_replicate hi⟩

/-- The records stay, and every live process continues an earlier one or is new and foreign. -/
structure Wanes (s s' : World) : Prop where
  registry : s'.registry = s.registry
  running : s'.running = s.running
  disk : s'.disk = s.disk
  marker : s'.marker = s.marker
  spawned : s'.spawned = s.spawned
  born : s.born ≤ s'.born
  procs : ∀ p' ∈ s'.procs, (∃ p ∈ s.procs, Continues p p') ∨
    (p'.launch = none ∧ p'.planned = false ∧ s.born ≤ p'.serial)

/-- What the host does by itself also leaves the broker's children and signals alone. -/
structure Drifts (s s' : World) : Prop extends Wanes s s' where
  children : s'.children = s.children
  signals : s'.signals = s.signals
  /-- A child owns its pid until it is waited for. -/
  held : ∀ p ∈ s.owners, p.child = true → ∃ p' ∈ s'.owners, Continues p p'

theorem Wanes.refl (s : World) : Wanes s s :=
  ⟨rfl, rfl, rfl, rfl, rfl, le_rfl, fun p hp => .inl ⟨p, hp, .refl p⟩⟩

theorem Wanes.trans (h : Wanes s s') (h' : Wanes s' t) : Wanes s t where
  registry := h'.registry.trans h.registry
  running := h'.running.trans h.running
  disk := h'.disk.trans h.disk
  marker := h'.marker.trans h.marker
  spawned := h'.spawned.trans h.spawned
  born := h.born.trans h'.born
  procs q hq := by
    obtain ⟨p', hp', hcontinues'⟩ | ⟨hlaunch, hplanned, hborn⟩ := h'.procs q hq
    · obtain ⟨p, hp, hcontinues⟩ | ⟨hlaunch, hplanned, hborn⟩ := h.procs p' hp'
      · exact .inl ⟨p, hp, hcontinues.trans hcontinues'⟩
      · obtain rfl := hcontinues'.foreign hlaunch
        exact .inr ⟨hlaunch, hplanned, hborn⟩
    · exact .inr ⟨hlaunch, hplanned, h.born.trans hborn⟩

theorem Drifts.refl (s : World) : Drifts s s :=
  ⟨.refl s, rfl, rfl, fun p hp _ => ⟨p, hp, .refl p⟩⟩

theorem Drifts.trans (h : Drifts s s') (h' : Drifts s' t) : Drifts s t where
  toWanes := h.toWanes.trans h'.toWanes
  children := h'.children.trans h.children
  signals := h'.signals.trans h.signals
  held p hp hchild := by
    obtain ⟨p', hp', hcontinues⟩ := h.held p hp hchild
    obtain ⟨q, hq, hcontinues'⟩ := h'.held p' hp' (hcontinues.child.trans hchild)
    exact ⟨q, hq, hcontinues.trans hcontinues'⟩

/-- A change of one process that keeps what identifies it. -/
theorem drifts_changed (hcontinues : Continues p p') : Drifts s (s.changed p p') where
  registry := rfl
  children := rfl
  running := rfl
  disk := rfl
  marker := rfl
  spawned := rfl
  signals := rfl
  born := le_rfl
  procs q hq := by
    obtain ⟨q, hmem, rfl⟩ := List.mem_map.mp hq
    refine .inl ⟨q, hmem, ?_⟩
    by_cases heq : q = p
    · rw [if_pos heq, heq]
      exact hcontinues
    · rw [if_neg heq]
      exact .refl q
  held q hq _ := by
    obtain hq | hq := List.mem_append.mp hq
    · refine ⟨if q = p then p' else q, List.mem_append_left _ (List.mem_map_of_mem hq), ?_⟩
      by_cases heq : q = p
      · rw [if_pos heq, heq]
        exact hcontinues
      · rw [if_neg heq]
        exact .refl q
    · exact ⟨q, List.mem_append_right _ hq, .refl q⟩

/-- A child that exits keeps its pid. -/
theorem drifts_exited (s : World) (p : Process) : Drifts s (s.exited p) where
  registry := rfl
  children := rfl
  running := rfl
  disk := rfl
  marker := rfl
  spawned := rfl
  signals := rfl
  born := le_rfl
  procs q hq := .inl ⟨q, List.mem_of_mem_filter hq, .refl q⟩
  held q hq hchild := by
    refine ⟨q, ?_, .refl q⟩
    obtain hq | hq := List.mem_append.mp hq
    · by_cases heq : q = p
      · refine List.mem_append_right _ ?_
        simp only [World.exited, ← heq, hchild, if_true]
        exact List.mem_append_right _ List.mem_cons_self
      · refine List.mem_append_left _ (List.mem_filter.mpr ⟨hq, ?_⟩)
        exact decide_eq_true heq
    · refine List.mem_append_right _ ?_
      by_cases hpchild : p.child = true
      · simp only [World.exited, hpchild, if_true]
        exact List.mem_append_left _ hq
      · simpa only [World.exited, if_neg hpchild] using hq

/-- One step of the host by itself is a drift. -/
theorem Shift.drifts (h : Shift s s') : Drifts s s' := by
  cases h with
  | exits hp => exact drifts_exited s _
  | @appears p hserial hpid hlaunch hplanned hchild =>
    refine ⟨⟨rfl, rfl, rfl, rfl, rfl, Nat.le_succ _, ?_⟩, rfl, rfl, ?_⟩
    · intro q hq
      obtain hq | rfl := Table.mem_snoc.mp hq
      · exact .inl ⟨q, hq, .refl q⟩
      · exact .inr ⟨hlaunch, hplanned, hserial.ge⟩
    · intro q hq _
      refine ⟨q, ?_, .refl q⟩
      obtain hq | hq := List.mem_append.mp hq
      · exact List.mem_append_left _ (List.mem_append_left _ hq)
      · exact List.mem_append_right _ hq
  | @joins p l hp hlaunch hplanned =>
    refine drifts_changed ⟨rfl, rfl, rfl, rfl, rfl, rfl, fun h => ?_, fun l' hl' hr => ?_, .inl rfl⟩
    · rw [hlaunch] at h
      cases h
    · rw [hlaunch] at hl'
      cases hl'
      exact ⟨rfl, hr.2⟩
  | @drops p l hp hlaunch hplanned hgroup =>
    have hruns : Process.Runs { p with
        uids := List.replicate 4 l.uid, gids := List.replicate 4 l.gid } l :=
      ⟨hgroup, all_replicate _, all_replicate _⟩
    refine drifts_changed ⟨rfl, rfl, rfl, rfl, rfl, rfl, fun h => ?_, fun l' hl' _ => ?_,
      .inr ⟨l, hlaunch, hruns⟩⟩
    · rw [hlaunch] at h
      cases h
    · rw [hlaunch] at hl'
      cases hl'
      exact hruns

/-- Any number of steps are one. -/
theorem Drift.drifts (h : Drift s s') : Drifts s s' := by
  induction h with
  | refl => exact .refl s
  | tail _ hshift ih => exact ih.trans hshift.drifts

/-- A worker was a worker before. -/
theorem Wanes.worker (h : Wanes s s') (hw : s'.IsWorker p' l) :
    ∃ p, s.IsWorker p l ∧ Continues p p' := by
  obtain ⟨hp', hlaunch, hplanned⟩ := hw
  obtain ⟨p, hp, hcontinues⟩ | ⟨hnone, _, _⟩ := h.procs p' hp'
  · exact ⟨p, ⟨hp, hcontinues.launch.symm.trans hlaunch, hcontinues.planned.symm.trans hplanned⟩,
      hcontinues⟩
  · rw [hnone] at hlaunch
    cases hlaunch

/-- A live process that was there before is the same one. -/
theorem Wanes.continues {n : ℕ} (h : Wanes s s') (hp' : p' ∈ s'.procs) (hserial : p'.serial = n)
    (hn : n < s.born) : ∃ p ∈ s.procs, p.serial = n ∧ Continues p p' := by
  obtain ⟨p, hp, hcontinues⟩ | ⟨_, _, hborn⟩ := h.procs p' hp'
  · exact ⟨p, hp, hcontinues.serial.symm.trans hserial, hcontinues⟩
  · omega

/-- No worker of the key is alive. -/
def World.Vacated (s : World) (k : Key) : Prop := ∀ p l, s.IsWorker p l → l.key ≠ k

/-- A key that has no worker gets none by itself. -/
theorem World.Vacated.wanes (h : s.Vacated k) (hd : Wanes s s') : s'.Vacated k := by
  intro p' l hw
  obtain ⟨p, hw, _⟩ := hd.worker hw
  exact h p l hw

end AgentHouse.Broker
