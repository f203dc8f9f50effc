import AgentHouse.Daemon.Admission

/-!
# Guest work never crosses the replacement of a VM

What the tasks keep true of each name, step by step and over whole runs.
-/

namespace AgentHouse.Daemon

/-- A task there neither makes, nor has made, nor is about to remove a VM. -/
def Pc.Quiet (pc : Pc) : Prop := pc ≠ .checked ∧ pc ≠ .booted ∧ pc ≠ .invalidated

namespace World

/-- What the tasks keep true of one name. -/
structure Serves (w : World) (id : String) : Prop where
  guarded : ∀ g ∈ w.guards, g.flight.id = id → ∀ v ∈ w.vms id,
    g.vm = some v.incarnation ∧ v.owner = g.user
  matched : ∀ user ∈ w.rows id, ∀ v ∈ w.vms id,
    v.owner = user ∨ ∃ t ∈ w.tasks, t.id = id ∧ t.pc = .booted
  clear : ∀ t ∈ w.tasks, t.id = id → t.pc = .checked ∨ t.pc = .booted →
    ∀ g ∈ w.guards, g.flight.id ≠ id
  booted : ∀ t ∈ w.tasks, t.id = id → t.pc = .booted →
    ∃ v ∈ w.vms id, v.owner = t.user ∧ v.stored = false
  waiting : ∀ t ∈ w.tasks, t.id = id → t.pc ≠ .dropped → ∀ i ∈ t.seen,
    w.locks.Overtaken t.key ∨ ∃ v ∈ w.vms id, v.incarnation = i ∧ v.stored = true
  window : ∀ d ∈ w.tasks, d.id = id → d.pc = .invalidated →
    ∀ t ∈ w.tasks, t.id = id → t.pc ≠ .dropped → w.locks.Overtaken t.key

/-- The invariant of the daemon. -/
structure Sound (w : World) : Prop where
  queue : Queue w.locks w.tasks
  tracked : Tracked w.activity w.guards
  serves : ∀ id, w.Serves id

variable {w w' : World} {id : String} {key : ℕ} {t : Task}

/-- A step that only moves tasks of the name along, takes guards back or deletes its row. -/
theorem Serves.quiet (h : w.Serves id) (hrows : ∀ user ∈ w'.rows id, w.rows id = some user)
    (hvms : w'.vms id = w.vms id)
    (hguards : ∀ g ∈ w'.guards, g.flight.id = id → g ∈ w.guards)
    (htasks : ∀ t' ∈ w'.tasks, t'.id = id → t'.pc ≠ .dropped → ∃ t ∈ w.tasks, t.key = t'.key ∧
      t.id = id ∧ t.pc ≠ .dropped ∧ t.seen = t'.seen ∧ (t' = t ∨ t'.pc.Quiet))
    (hbooted : ∀ t ∈ w.tasks, t.id = id → t.pc = .booted → t ∈ w'.tasks)
    (hover : ∀ t' ∈ w'.tasks, t'.id = id → t'.pc ≠ .dropped → w.locks.Overtaken t'.key →
      w'.locks.Overtaken t'.key) : w'.Serves id where
  guarded g hg hid v hv := h.guarded g (hguards g hg hid) hid v (hvms ▸ hv)
  matched user huser v hv := by
    obtain howner | ⟨t, ht, hid, hpc⟩ := h.matched user (hrows user huser) v (hvms ▸ hv)
    · exact .inl howner
    · exact .inr ⟨t, hbooted t ht hid hpc, hid, hpc⟩
  clear t' ht' hid hpc g hg heq := by
    have hlive : t'.pc ≠ .dropped := by
      intro hdropped
      rw [hdropped] at hpc
      simp at hpc
    obtain ⟨t, ht, _, htid, _, _, rfl | hquiet⟩ := htasks t' ht' hid hlive
    · exact h.clear t' ht htid hpc g (hguards g hg heq) heq
    · exact hpc.elim hquiet.1 hquiet.2.1
  booted t' ht' hid hpc := by
    have hlive : t'.pc ≠ .dropped := by
      rw [hpc]
      simp
    obtain ⟨t, ht, _, htid, _, _, rfl | hquiet⟩ := htasks t' ht' hid hlive
    · rw [hvms]
      exact h.booted t' ht htid hpc
    · exact absurd hpc hquiet.2.1
  waiting t' ht' hid hpc i hi := by
    obtain ⟨t, ht, hkey, htid, htpc, hseen, _⟩ := htasks t' ht' hid hpc
    obtain hpast | hv := h.waiting t ht htid htpc i (hseen ▸ hi)
    · exact .inl (hover t' ht' hid hpc (hkey ▸ hpast))
    · exact .inr (hvms ▸ hv)
  window d' hd' hdid hdpc t' ht' hid hpc := by
    have hlive : d'.pc ≠ .dropped := by
      rw [hdpc]
      simp
    obtain ⟨d, hd, _, hdid', _, _, rfl | hquiet⟩ := htasks d' hd' hdid hlive
    · obtain ⟨t, ht, hkey, htid, htpc, _⟩ := htasks t' ht' hid hpc
      exact hover t' ht' hid hpc (hkey ▸ h.window d' hd hdid' hdpc t ht htid htpc)
    · exact absurd hdpc hquiet.2.2

/-- The step concerns one name only. -/
structure Apart (w w' : World) (id : String) : Prop where
  rows : ∀ other, other ≠ id → w'.rows other = w.rows other
  vms : ∀ other, other ≠ id → w'.vms other = w.vms other
  guards : ∀ g ∈ w'.guards, g.flight.id ≠ id → g ∈ w.guards
  tasks : ∀ t ∈ w'.tasks, t.id ≠ id → t.pc ≠ .dropped → t ∈ w.tasks
  kept : ∀ t ∈ w.tasks, t.id ≠ id → t.pc = .booted → t ∈ w'.tasks
  overtaken : ∀ t ∈ w'.tasks, t.id ≠ id → t.pc ≠ .dropped → w.locks.Overtaken t.key →
    w'.locks.Overtaken t.key

/-- A step that touches one sandbox has to be checked there only. -/
theorem Sound.of_apart (h : w.Sound) (id : String) (hqueue : Queue w'.locks w'.tasks)
    (htracked : Tracked w'.activity w'.guards) (hapart : w.Apart w' id)
    (hserves : w'.Serves id) : w'.Sound := by
  refine ⟨hqueue, htracked, fun other => ?_⟩
  by_cases hother : other = id
  · exact hother ▸ hserves
  · refine (h.serves other).quiet ?_ (hapart.vms other hother) ?_ ?_ ?_ ?_
    · intro user huser
      rw [← hapart.rows other hother]
      exact huser
    · intro g hg hid
      exact hapart.guards g hg (hid ▸ hother)
    · intro t ht hid hpc
      exact ⟨t, hapart.tasks t ht (hid ▸ hother) hpc, rfl, hid, hpc, rfl, .inl rfl⟩
    · intro t ht hid hpc
      exact hapart.kept t ht (hid ▸ hother) hpc
    · intro t ht hid hpc
      exact hapart.overtaken t ht (hid ▸ hother) hpc

theorem bind_task {f : Task → Option World} (h : (w.task key).bind f = some w') :
    ∃ t ∈ w.tasks, t.key = key ∧ f t = some w' := by
  obtain ⟨t, ht, hf⟩ := Option.bind_eq_some_iff.mp h
  exact ⟨t, (Table.row_mem ht).1, (Table.row_mem ht).2, hf⟩

/-- A step of the locks moves one task. -/
theorem lockStep_eq_some {a : LockAction} {pc : Pc} (h : w.lockStep a key pc = some w') :
    ∃ locks', w.locks.Step a locks' ∧ w' = { w.go key pc with locks := locks' } := by
  obtain ⟨locks', hs, rfl⟩ := Option.map_eq_some_iff.mp h
  exact ⟨locks', hs, rfl⟩

theorem mem_go_of_ne {pc : Pc} (ht : t ∈ w.tasks) (hne : t.key ≠ key) : t ∈ (w.go key pc).tasks :=
  List.mem_map.mpr ⟨t, ht, if_neg hne⟩

/-- Tasks of other names do not notice that a task goes on. -/
theorem mem_go_apart {t' : Task} {pc : Pc} (h : Queue w.locks w.tasks) (ht : t ∈ w.tasks)
    (hid : t'.id ≠ t.id) : t' ∈ (w.go t.key pc).tasks ↔ t' ∈ w.tasks := by
  constructor
  · intro ht'
    obtain ⟨t₀, ht₀, _, hid₀, _, _, _, ⟨hkey, _⟩ | ⟨_, rfl⟩⟩ := Queue.mem_go ht'
    · obtain rfl := h.eq_of_key ht₀ ht hkey
      exact absurd hid₀ hid
    · exact ht₀
  · intro ht'
    refine mem_go_of_ne ht' fun hkey => hid ?_
    rw [h.eq_of_key ht' ht hkey]

/-- After the holder of a name has gone on, no other task holds its lock. -/
theorem sole {t' : Task} {pc : Pc} (h : Queue w.locks w.tasks) (ht : t ∈ w.tasks)
    (hhold : t.pc.stage = .holding) (ht' : t' ∈ (w.go t.key pc).tasks) (hid : t'.id = t.id)
    (hhold' : t'.pc.stage = .holding) : t'.pc = pc ∧ t'.user = t.user := by
  obtain ⟨t₀, ht₀, _, _, huser, _, _, ⟨hkey, hpc⟩ | ⟨hne, rfl⟩⟩ := Queue.mem_go ht'
  · obtain rfl := h.eq_of_key ht₀ ht hkey
    exact ⟨hpc, huser⟩
  · rw [h.eq_of_holding ht₀ ht hid hhold' hhold] at hne
    exact absurd rfl hne

/-- The task before its last move. -/
theorem mem_go_live {t' : Task} {pc : Pc} (h : Queue w.locks w.tasks) (ht : t ∈ w.tasks)
    (hpc : t.pc ≠ .dropped) (ht' : t' ∈ (w.go t.key pc).tasks) (hpc' : t'.pc ≠ .dropped) :
    ∃ t₀ ∈ w.tasks, t₀.key = t'.key ∧ t₀.id = t'.id ∧ t₀.seen = t'.seen ∧ t₀.pc ≠ .dropped := by
  obtain ⟨t₀, ht₀, hkey, hid, _, _, hseen, ⟨hsame, _⟩ | ⟨_, rfl⟩⟩ := Queue.mem_go ht'
  · obtain rfl := h.eq_of_key ht₀ ht hsame
    exact ⟨t₀, ht₀, hkey.symm, hid.symm, hseen.symm, hpc⟩
  · exact ⟨t', ht₀, rfl, rfl, rfl, hpc'⟩

namespace Sound

/-- A task that has nothing to do with a VM goes on. -/
theorem quiet (h : w.Sound) {locks : Locks} {pc : Pc}
    (hqueue : Queue locks (w.go key pc).tasks) (hquiet : pc.Quiet)
    (hfrom : ∀ t ∈ w.tasks, t.key = key → t.pc ≠ .booted ∧ (t.pc ≠ .dropped ∨ pc = .dropped))
    (hover : ∀ t' ∈ (w.go key pc).tasks, t'.pc ≠ .dropped → w.locks.Overtaken t'.key →
      locks.Overtaken t'.key) : Sound { w.go key pc with locks } := by
  refine ⟨hqueue, h.tracked, fun id => ?_⟩
  refine (h.serves id).quiet (fun _ huser => huser) rfl (fun g hg _ => hg) ?_ ?_ ?_
  · intro t' ht' hid hpc'
    obtain ⟨t, ht, hkey, htid, _, _, hseen, ⟨hsame, hpc⟩ | ⟨_, rfl⟩⟩ := Queue.mem_go ht'
    · have hlive : t.pc ≠ .dropped := by
        obtain hlive | hdropped := (hfrom t ht hsame).2
        · exact hlive
        · exact absurd (hpc.trans hdropped) hpc'
      exact ⟨t, ht, hkey.symm, htid.symm.trans hid, hlive, hseen.symm, .inr (hpc ▸ hquiet)⟩
    · exact ⟨t', ht, rfl, hid, hpc', rfl, .inl rfl⟩
  · intro t ht _ hpc
    exact mem_go_of_ne ht fun hkey => (hfrom t ht hkey).1 hpc
  · intro t' ht' _ hpc'
    exact hover t' ht' hpc'

/-- A task may go on where it changes nothing. -/
theorem go (h : w.Sound) {pc : Pc} (ht : t ∈ w.tasks) (hquiet : pc.Quiet)
    (hhold : t.pc.stage = .holding) (hhold' : pc.stage = .holding) (hbooted : t.pc ≠ .booted) :
    (w.go t.key pc).Sound := by
  refine h.quiet (h.queue.go ht (hhold'.trans hhold.symm)) hquiet ?_ fun _ _ _ hover => hover
  intro t' ht' hkey
  obtain rfl := h.queue.eq_of_key ht' ht hkey
  refine ⟨hbooted, .inl fun hdropped => ?_⟩
  rw [hdropped] at hhold
  cases hhold

/-- The row of a name is deleted. -/
theorem deleteRow (h : w.Sound) : Sound { w with rows := Function.update w.rows id none } := by
  refine ⟨h.queue, h.tracked, fun other => ?_⟩
  refine (h.serves other).quiet ?_ rfl (fun g hg _ => hg) ?_ (fun t ht _ _ => ht)
    fun _ _ _ _ hover => hover
  · intro user huser
    have huser : Function.update w.rows id none other = some user := huser
    by_cases hother : other = id
    · rw [hother, Function.update_self] at huser
      cases huser
    · rw [Function.update_of_ne hother] at huser
      exact huser
  · intro t ht hid hpc
    exact ⟨t, ht, rfl, hid, hpc, rfl, .inl rfl⟩

/-- Guards are taken back. -/
theorem track (h : w.Sound) {activity : Activity} {guards : List Guard}
    (htracked : Tracked activity guards) (hguards : ∀ g ∈ guards, g ∈ w.guards) :
    Sound { w with activity, guards } := by
  refine ⟨h.queue, htracked, fun other => ?_⟩
  refine (h.serves other).quiet (fun _ huser => huser) rfl (fun g hg _ => hguards g hg) ?_
    (fun t ht _ _ => ht) fun _ _ _ _ hover => hover
  intro t ht hid hpc
  exact ⟨t, ht, rfl, hid, hpc, rfl, .inl rfl⟩

/-- A guard is handed out while nobody replaces the VM of its name. -/
theorem grant (h : w.Sound) {user : String} {vm : Option ℕ} (hgrant : w.grant id user vm = some w')
    (hclear : ∀ t ∈ w.tasks, t.id = id → ¬ (t.pc = .checked ∨ t.pc = .booted))
    (hvm : ∀ v ∈ w.vms id, vm = some v.incarnation ∧ v.owner = user) : w'.Sound := by
  obtain ⟨⟨flight, tracker⟩, hbegin, rfl⟩ := Option.map_eq_some_iff.mp hgrant
  obtain ⟨hflight, hsound⟩ := h.tracked.begin hbegin
  refine h.of_apart id h.queue hsound ⟨fun _ _ => rfl, fun _ _ => rfl, ?_,
    fun t ht _ _ => ht, fun t ht _ _ => ht, fun _ _ _ _ hover => hover⟩ ?_
  · intro g hg hid
    obtain rfl | hg := List.mem_cons.mp hg
    · exact absurd hflight hid
    · exact hg
  · refine { h.serves id with guarded := ?_, clear := ?_ }
    · intro g hg hid v hv
      obtain rfl | hg := List.mem_cons.mp hg
      · exact hvm v hv
      · exact (h.serves id).guarded g hg hid v hv
    · intro t ht hid hpc
      exact absurd hpc (hclear t ht hid)

/-- The name has been found free of guest work. -/
theorem check (h : w.Sound) (ht : t ∈ w.tasks) (hpc : t.pc = .locked)
    (hcount : w.activity.tracker.count t.id = 0) : (w.go t.key .checked).Sound := by
  have hhold : t.pc.stage = .holding := by rw [hpc]; rfl
  have hold := h.serves t.id
  refine h.of_apart t.id (h.queue.go ht (by rw [hpc]; rfl)) h.tracked
    ⟨fun _ _ => rfl, fun _ _ => rfl, fun g hg _ => hg,
      fun t' ht' hid _ => (mem_go_apart h.queue ht hid).mp ht',
      fun t' ht' hid _ => (mem_go_apart h.queue ht hid).mpr ht', fun _ _ _ _ hover => hover⟩ ?_
  refine ⟨hold.guarded, ?_, ?_, ?_, ?_, ?_⟩
  · intro user huser v hv
    obtain howner | ⟨t₀, ht₀, hid, hbooted⟩ := hold.matched user huser v hv
    · exact .inl howner
    · have := h.queue.eq_of_holding ht₀ ht hid (by rw [hbooted]; rfl) hhold
      rw [this, hpc] at hbooted
      cases hbooted
  · intro t' ht' hid _
    exact h.tracked.none_of_count hcount
  · intro t' ht' hid hbooted
    have := (sole h.queue ht hhold ht' hid (by rw [hbooted]; rfl)).1
    rw [hbooted] at this
    cases this
  · intro t' ht' hid hpc' i hi
    obtain ⟨t₀, ht₀, hkey, hid₀, hseen, hpc₀⟩ :=
      mem_go_live h.queue ht (by rw [hpc]; simp) ht' hpc'
    rw [← hkey]
    exact hold.waiting t₀ ht₀ (hid₀.trans hid) hpc₀ i (hseen ▸ hi)
  · intro d hd hdid hdpc
    have := (sole h.queue ht hhold hd hdid (by rw [hdpc]; rfl)).1
    rw [hdpc] at this
    cases this

/-- The task that holds a name makes, stores or removes its VM. -/
theorem replace (h : w.Sound) {pc : Pc} {rows : String → Option String} {vms : String → Option Vm}
    {nextVm : ℕ} (ht : t ∈ w.tasks) (hhold : t.pc.stage = .holding) (hhold' : pc.stage = .holding)
    (hrows : ∀ other, other ≠ t.id → rows other = w.rows other)
    (hvms : ∀ other, other ≠ t.id → vms other = w.vms other)
    (hpc : pc ≠ .checked ∧ pc ≠ .invalidated)
    (hguarded : ∀ g ∈ w.guards, g.flight.id = t.id → ∀ v ∈ vms t.id,
      g.vm = some v.incarnation ∧ v.owner = g.user)
    (hmatched : ∀ user ∈ rows t.id, ∀ v ∈ vms t.id, v.owner = user ∨ pc = .booted)
    (hbooted : pc = .booted → (∀ g ∈ w.guards, g.flight.id ≠ t.id) ∧
      ∃ v ∈ vms t.id, v.owner = t.user ∧ v.stored = false)
    (hwaiting : ∀ t' ∈ w.tasks, t'.id = t.id → t'.pc ≠ .dropped → ∀ i ∈ t'.seen,
      w.locks.Overtaken t'.key) : Sound { w.go t.key pc with rows, vms, nextVm } := by
  have hlive : t.pc ≠ .dropped := by
    intro hdropped
    rw [hdropped] at hhold
    cases hhold
  refine h.of_apart t.id (h.queue.go ht (hhold'.trans hhold.symm)) h.tracked
    ⟨hrows, hvms, fun g hg _ => hg, fun t' ht' hid _ => (mem_go_apart h.queue ht hid).mp ht',
      fun t' ht' hid _ => (mem_go_apart h.queue ht hid).mpr ht', fun _ _ _ _ hover => hover⟩ ?_
  refine ⟨hguarded, ?_, ?_, ?_, ?_, ?_⟩
  · intro user huser v hv
    obtain howner | rfl := hmatched user huser v hv
    · exact .inl howner
    · exact .inr ⟨_, List.mem_map_of_mem ht, by rw [if_pos rfl], by rw [if_pos rfl]⟩
  · intro t' ht' hid hpc'
    obtain hchecked | hbooted' := hpc'
    · have := (sole h.queue ht hhold ht' hid (by rw [hchecked]; rfl)).1
      exact absurd (this.symm.trans hchecked) hpc.1
    · have := (sole h.queue ht hhold ht' hid (by rw [hbooted']; rfl)).1
      exact (hbooted (this.symm.trans hbooted')).1
  · intro t' ht' hid hbooted'
    obtain ⟨hsame, huser⟩ := sole h.queue ht hhold ht' hid (by rw [hbooted']; rfl)
    rw [huser]
    exact (hbooted (hsame.symm.trans hbooted')).2
  · intro t' ht' hid hpc' i hi
    obtain ⟨t₀, ht₀, hkey, hid₀, hseen, hpc₀⟩ := mem_go_live h.queue ht hlive ht' hpc'
    rw [← hkey]
    exact .inl (hwaiting t₀ ht₀ (hid₀.trans hid) hpc₀ i (hseen ▸ hi))
  · intro d hd hdid hdpc
    have := (sole h.queue ht hhold hd hdid (by rw [hdpc]; rfl)).1
    exact absurd (this.symm.trans hdpc) hpc.2

/-- A checked task boots a new incarnation. -/
theorem boot (h : w.Sound) (ht : t ∈ w.tasks) (hpc : t.pc = .checked) (hnone : w.vms t.id = none) :
    Sound { w.go t.key .booted with
      vms := Function.update w.vms t.id (some ⟨w.nextVm, t.user, false⟩)
      nextVm := w.nextVm + 1 } := by
  have hclear := (h.serves t.id).clear t ht rfl (.inl hpc)
  refine h.replace ht (by rw [hpc]; rfl) rfl (fun _ _ => rfl)
    (fun other hother => Function.update_of_ne hother _ _) (by simp) ?_
    (fun _ _ _ _ => .inr rfl) (fun _ => ⟨hclear, ?_⟩) ?_
  · intro g hg hid
    exact absurd hid (hclear g hg)
  · exact ⟨_, Function.update_self _ _ _, rfl, rfl⟩
  · intro t' ht' hid hpc' i hi
    obtain hover | ⟨v, hv, _⟩ := (h.serves t.id).waiting t' ht' hid hpc' i hi
    · exact hover
    · rw [hnone] at hv
      cases hv

/-- While a new VM is not stored, nobody who waits for its name has seen it. -/
theorem overtaken_of_booted (h : w.Sound) (ht : t ∈ w.tasks) (hpc : t.pc = .booted) {t' : Task}
    (ht' : t' ∈ w.tasks) (hid : t'.id = t.id) (hpc' : t'.pc ≠ .dropped) {i : ℕ} (hi : i ∈ t'.seen) :
    w.locks.Overtaken t'.key := by
  obtain hover | ⟨v, hv, _, hstored⟩ := (h.serves t.id).waiting t' ht' hid hpc' i hi
  · exact hover
  · obtain ⟨v', hv', _, hunstored⟩ := (h.serves t.id).booted t ht rfl hpc
    obtain rfl := Option.some.inj (hv.symm.trans hv')
    rw [hunstored] at hstored
    cases hstored

/-- The row is written after the boot. -/
theorem store (h : w.Sound) (ht : t ∈ w.tasks) (hpc : t.pc = .booted) :
    Sound { w.go t.key .finished with
      rows := Function.update w.rows t.id (some t.user)
      vms := Function.update w.vms t.id ((w.vms t.id).map fun v =>
        { v with stored := true }) } := by
  refine h.replace ht (by rw [hpc]; rfl) rfl (fun other hother => Function.update_of_ne hother _ _)
    (fun other hother => Function.update_of_ne hother _ _) (by simp) ?_ ?_ (by simp)
    fun t' ht' hid hpc' i hi => h.overtaken_of_booted ht hpc ht' hid hpc' hi
  · intro g hg hid
    exact absurd hid ((h.serves t.id).clear t ht rfl (.inr hpc) g hg)
  · intro user huser v hv
    rw [Function.update_self] at huser hv
    obtain rfl := Option.some.inj huser
    obtain ⟨v', hv', howner, _⟩ := (h.serves t.id).booted t ht rfl hpc
    rw [show w.vms t.id = some v' from hv'] at hv
    obtain rfl := Option.some.inj hv
    exact .inl howner

/-- A failed boot takes its incarnation away. -/
theorem clean (h : w.Sound) (ht : t ∈ w.tasks) (hpc : t.pc = .booted)
    {rows : String → Option String} (hrows : ∀ other, other ≠ t.id → rows other = w.rows other) :
    Sound { w.go t.key .finished with vms := Function.update w.vms t.id none, rows } := by
  refine h.replace ht (by rw [hpc]; rfl) rfl hrows
    (fun other hother => Function.update_of_ne hother _ _) (by simp) ?_ ?_ (by simp)
    fun t' ht' hid hpc' i hi => h.overtaken_of_booted ht hpc ht' hid hpc' hi
  · intro g hg hid v hv
    rw [Function.update_self] at hv
    cases hv
  · intro user huser v hv
    rw [Function.update_self] at hv
    cases hv

/-- The incarnation goes after the invalidation. -/
theorem destroyVm (h : w.Sound) (ht : t ∈ w.tasks) (hpc : t.pc = .invalidated) :
    Sound { w.go t.key .emptied with vms := Function.update w.vms t.id none } := by
  refine h.replace ht (by rw [hpc]; rfl) rfl (fun _ _ => rfl)
    (fun other hother => Function.update_of_ne hother _ _) (by simp) ?_ ?_ (by simp)
    fun t' ht' hid hpc' i hi => (h.serves t.id).window t ht rfl hpc t' ht' hid hpc'
  · intro g hg hid v hv
    rw [Function.update_self] at hv
    cases hv
  · intro user huser v hv
    rw [Function.update_self] at hv
    cases hv

/-- A task may arrive while no destruction is at work on its sandbox. -/
theorem arrive (h : w.Sound) {user : String} {kind : Kind}
    (hcalm : ∀ t ∈ w.tasks, t.id = id → t.pc ≠ .invalidated) :
    Sound { w with
      locks := w.locks.lease id
      tasks := w.tasks ++ [⟨w.locks.nextKey, user, id, kind, .queued, w.visible id⟩] } := by
  have hqueue := h.queue.arrive user id kind (w.visible id)
  have hover {t : Task} (ht : t ∈ w.tasks) (hpc : t.pc ≠ .dropped)
      (hover : w.locks.Overtaken t.key) : (w.locks.lease id).Overtaken t.key :=
    h.queue.carry (a := .lease id) rfl (by simp [Queue.Unwrapped]) hqueue
      (List.mem_append_left _ ht) hpc hover
  have hold := h.serves id
  refine h.of_apart id hqueue h.tracked ⟨fun _ _ => rfl, fun _ _ => rfl, fun g hg _ => hg, ?_,
    fun t ht _ _ => List.mem_append_left _ ht, ?_⟩ ⟨hold.guarded, ?_, ?_, ?_, ?_, ?_⟩
  · intro t ht hid _
    obtain ht | rfl := Table.mem_snoc.mp ht
    · exact ht
    · exact absurd rfl hid
  · intro t ht hid hpc hpast
    obtain ht | rfl := Table.mem_snoc.mp ht
    · exact hover ht hpc hpast
    · exact absurd rfl hid
  · intro user huser v hv
    obtain howner | ⟨t, ht, hid, hpc⟩ := hold.matched user huser v hv
    · exact .inl howner
    · exact .inr ⟨t, List.mem_append_left _ ht, hid, hpc⟩
  · intro t ht hid hpc
    obtain ht | rfl := Table.mem_snoc.mp ht
    · exact hold.clear t ht hid hpc
    · simp at hpc
  · intro t ht hid hpc
    obtain ht | rfl := Table.mem_snoc.mp ht
    · exact hold.booted t ht hid hpc
    · cases hpc
  · intro t ht hid hpc i hi
    obtain ht | rfl := Table.mem_snoc.mp ht
    · obtain hpast | hv := hold.waiting t ht hid hpc i hi
      · exact .inl (hover ht hpc hpast)
      · exact .inr hv
    · obtain ⟨v, hv, rfl⟩ := Option.map_eq_some_iff.mp hi
      obtain ⟨hv, hstored⟩ := Option.filter_eq_some_iff.mp hv
      exact .inr ⟨v, hv, rfl, hstored⟩
  · intro d hd hdid hdpc
    obtain hd | rfl := Table.mem_snoc.mp hd
    · exact absurd hdpc (hcalm d hd hdid)
    · cases hdpc

/-- A destruction invalidates the lease of its sandbox. -/
theorem invalidate (h : w.Sound) (ht : t ∈ w.tasks) (hpc : t.pc = .locked) {locks : Locks}
    (hs : w.locks.Step (.invalidate t.id t.key) locks)
    (hwrap : Queue.Unwrapped w.locks (.invalidate t.id t.key)) :
    Sound { w.go t.key .invalidated with locks } := by
  have hhold : t.pc.stage = .holding := by rw [hpc]; rfl
  have hlive : t.pc ≠ .dropped := by rw [hpc]; simp
  have hgone : Queue w.locks (w.go t.key .invalidated).tasks := h.queue.go ht hhold.symm
  have hqueue : Queue locks (w.go t.key .invalidated).tasks := hgone.invalidate hs hwrap
  have hover {t' : Task} (ht' : t' ∈ (w.go t.key .invalidated).tasks) (hid : t'.id = t.id)
      (hpc' : t'.pc ≠ .dropped) : locks.Overtaken t'.key :=
    hgone.overtaken_invalidate hs hwrap ht' hid hpc'
  have hold := h.serves t.id
  refine h.of_apart t.id hqueue h.tracked ⟨fun _ _ => rfl, fun _ _ => rfl, fun g hg _ => hg,
    fun t' ht' hid _ => (mem_go_apart h.queue ht hid).mp ht',
    fun t' ht' hid _ => (mem_go_apart h.queue ht hid).mpr ht',
    fun t' ht' _ hpc' hpast => hgone.carry hs hwrap hqueue ht' hpc' hpast⟩
    ⟨hold.guarded, ?_, ?_, ?_, ?_, ?_⟩
  · intro user huser v hv
    obtain howner | ⟨t₀, ht₀, hid, hbooted⟩ := hold.matched user huser v hv
    · exact .inl howner
    · have := h.queue.eq_of_holding ht₀ ht hid (by rw [hbooted]; rfl) hhold
      rw [this, hpc] at hbooted
      cases hbooted
  · intro t' ht' hid hpc'
    have hstage : t'.pc.stage = .holding := by
      obtain hpc' | hpc' := hpc'
      · rw [hpc']; rfl
      · rw [hpc']; rfl
    rw [(sole h.queue ht hhold ht' hid hstage).1] at hpc'
    simp at hpc'
  · intro t' ht' hid hpc'
    have := (sole h.queue ht hhold ht' hid (by rw [hpc']; rfl)).1
    rw [hpc'] at this
    cases this
  · intro t' ht' hid hpc' i _
    exact .inl (hover ht' hid hpc')
  · intro d hd hdid hdpc t' ht' hid hpc'
    exact hover ht' hid hpc'

/-- A task unlocks its name. One that has booted a VM and could not store its row leaves it only
to its own user. -/
theorem unlock (h : w.Sound) {locks : Locks} (hs : w.locks.Step (.unlock key) locks)
    (hcalm : ∀ t ∈ w.tasks, t.key = key → t.pc = .booted → w.mayDestroy t = true) :
    Sound { w.go key .unlocked with locks } := by
  have hwrap : Queue.Unwrapped w.locks (.unlock key) := by simp [Queue.Unwrapped]
  have hqueue : Queue locks (w.go key .unlocked).tasks := by
    have hsound := h.queue.sound.step hs
    cases hs.turn with
    | unlock => exact h.queue.move .unlocked hsound
  have hholding {t : Task} (ht : t ∈ w.tasks) (hkey : t.key = key) : t.pc.stage = .holding := by
    obtain ⟨l, hl, hlkey, _, hstage⟩ := h.queue.leased t ht
    cases hs.turn with
    | @unlock l' hl' hstage' =>
      obtain rfl := h.queue.sound.eq_of_key hl hl' (hlkey.trans hkey)
      exact hstage.symm.trans hstage'
  have hcarry {t' : Task} (ht' : t' ∈ (w.go key .unlocked).tasks) (hpc' : t'.pc ≠ .dropped)
      (hpast : w.locks.Overtaken t'.key) : locks.Overtaken t'.key :=
    h.queue.carry hs hwrap hqueue ht' hpc' hpast
  by_cases hbooted : ∃ t ∈ w.tasks, t.key = key ∧ t.pc = .booted
  · obtain ⟨t, ht, rfl, hpc⟩ := hbooted
    have hhold := hholding ht rfl
    have hold := h.serves t.id
    have hgone {t' : Task} (ht' : t' ∈ (w.go t.key .unlocked).tasks) (hid : t'.id = t.id) :
        t'.pc.stage ≠ .holding := by
      intro hhold'
      rw [(sole h.queue ht hhold ht' hid hhold').1] at hhold'
      cases hhold'
    refine h.of_apart t.id hqueue h.tracked ⟨fun _ _ => rfl, fun _ _ => rfl, fun g hg _ => hg,
      fun t' ht' hid _ => (mem_go_apart h.queue ht hid).mp ht',
      fun t' ht' hid _ => (mem_go_apart h.queue ht hid).mpr ht',
      fun t' ht' _ hpc' hpast => hcarry ht' hpc' hpast⟩ ⟨hold.guarded, ?_, ?_, ?_, ?_, ?_⟩
    · intro user huser v hv
      obtain ⟨v', hv', howner, _⟩ := hold.booted t ht rfl hpc
      obtain rfl := Option.some.inj (hv.symm.trans hv')
      have hmay := hcalm t ht rfl hpc
      rw [mayDestroy, show w.rows t.id = some user from huser] at hmay
      have hown : user = t.user := by simpa using hmay
      exact .inl (howner.trans hown.symm)
    · intro t' ht' hid hpc'
      refine absurd ?_ (hgone ht' hid)
      obtain hpc' | hpc' := hpc'
      · rw [hpc']; rfl
      · rw [hpc']; rfl
    · intro t' ht' hid hpc'
      exact absurd (by rw [hpc']; rfl) (hgone ht' hid)
    · intro t' ht' hid hpc' i hi
      obtain ⟨t₀, ht₀, hkey, hid₀, hseen, hpc₀⟩ :=
        mem_go_live h.queue ht (by rw [hpc]; simp) ht' hpc'
      have hpast := h.overtaken_of_booted ht hpc ht₀ (hid₀.trans hid) hpc₀ (hseen ▸ hi)
      exact .inl (hcarry ht' hpc' (hkey ▸ hpast))
    · intro d hd hdid hdpc
      exact absurd (by rw [hdpc]; rfl) (hgone hd hdid)
  · refine h.quiet hqueue ⟨by simp, by simp, by simp⟩ ?_ fun t' ht' hpc' hpast =>
      hcarry ht' hpc' hpast
    intro t ht hkey
    refine ⟨fun hpc => hbooted ⟨t, ht, hkey, hpc⟩, .inl fun hdropped => ?_⟩
    have := hholding ht hkey
    rw [hdropped] at this
    cases this

/-- A task whose turn it is holds the lock. -/
theorem acquire (h : w.Sound) {locks : Locks} (hs : w.locks.Step (.acquire key) locks) :
    Sound { w.go key .locked with locks } := by
  have hqueue : Queue locks (w.go key .locked).tasks := by
    have hsound := h.queue.sound.step hs
    cases hs.turn with
    | acquire => exact h.queue.move .locked hsound
  refine h.quiet hqueue ⟨by simp, by simp, by simp⟩ ?_
    fun t' ht' hpc' hpast => h.queue.carry hs (by simp [Queue.Unwrapped]) hqueue ht' hpc' hpast
  intro t ht hkey
  have hstage : t.pc.stage = .queued := by
    obtain ⟨l, hl, hlkey, _, hstage⟩ := h.queue.leased t ht
    cases hs.turn with
    | @acquire l' hl' hstage' =>
      obtain rfl := h.queue.sound.eq_of_key hl hl' (hlkey.trans hkey)
      exact hstage.symm.trans hstage'
  refine ⟨fun hpc => ?_, .inl fun hpc => ?_⟩
  · rw [hpc] at hstage
    cases hstage
  · rw [hpc] at hstage
    cases hstage

/-- A task leaves. -/
theorem depart (h : w.Sound) {locks : Locks} (hs : w.locks.Step (.drop key) locks) :
    Sound { w.go key .dropped with locks } := by
  have hqueue : Queue locks (w.go key .dropped).tasks := by
    cases hs.turn with
    | drop hl _ hstage => exact h.queue.dropBody hl hstage
  refine h.quiet hqueue ⟨by simp, by simp, by simp⟩ ?_
    fun t' ht' hpc' hpast => h.queue.carry hs (by simp [Queue.Unwrapped]) hqueue ht' hpc' hpast
  intro t ht hkey
  refine ⟨fun hpc => ?_, .inr rfl⟩
  obtain ⟨l, hl, hlkey, _, hstage⟩ := h.queue.leased t ht
  cases hs.turn with
  | @drop l' hl' _ hstage' =>
    obtain rfl := h.queue.sound.eq_of_key hl hl' (hlkey.trans hkey)
    rw [hstage, hpc] at hstage'
    simp [Pc.stage] at hstage'

/-- Its lease goes. -/
theorem decrement (h : w.Sound) {locks : Locks} (hs : w.locks.Step (.decrement key) locks) :
    Sound { w with locks, tasks := w.tasks.filter fun t => t.key ≠ key } := by
  have hqueue : Queue locks (w.tasks.filter fun t => t.key ≠ key) := by
    cases hs.turn with
    | decrement => exact h.queue.decrement
  refine ⟨hqueue, h.tracked, fun id => ?_⟩
  refine (h.serves id).quiet (fun _ huser => huser) rfl (fun g hg _ => hg) ?_ ?_
    fun t' ht' _ hpc' hpast => h.queue.carry hs (by simp [Queue.Unwrapped]) hqueue ht' hpc' hpast
  · intro t ht hid hpc
    exact ⟨t, List.mem_of_mem_filter ht, rfl, hid, hpc, rfl, .inl rfl⟩
  · intro t ht _ hpc
    refine List.mem_filter.mpr ⟨ht, decide_eq_true fun hkey => ?_⟩
    obtain ⟨l, hl, hlkey, _, hstage⟩ := h.queue.leased t ht
    cases hs.turn with
    | @decrement l' hl' hstage' =>
      obtain rfl := h.queue.sound.eq_of_key hl hl' (hlkey.trans hkey)
      rw [hstage, hpc] at hstage'
      cases hstage'

/-- The guard that an admission hands out is for the VM of the user. -/
theorem owned (h : w.Sound) (ht : t ∈ w.tasks) (hpc : t.pc = .locked)
    (hrow : w.rows t.id = some t.user) {v : Vm} (hv : v ∈ w.vms t.id) : v.owner = t.user := by
  obtain howner | ⟨t₀, ht₀, hid, hbooted⟩ := (h.serves t.id).matched t.user hrow v hv
  · exact howner
  · have := h.queue.eq_of_holding ht₀ ht hid (by rw [hbooted]; rfl) (by rw [hpc]; rfl)
    rw [this, hpc] at hbooted
    cases hbooted

/-- Nobody replaces a sandbox that a task has locked. -/
theorem not_replacing (h : w.Sound) (ht : t ∈ w.tasks) (hpc : t.pc = .locked) :
    ∀ t' ∈ w.tasks, t'.id = t.id → ¬ (t'.pc = .checked ∨ t'.pc = .booted) := by
  intro t' ht' hid hpc'
  have hstage : t'.pc.stage = .holding := by
    obtain hpc' | hpc' := hpc'
    · rw [hpc']; rfl
    · rw [hpc']; rfl
  rw [h.queue.eq_of_holding ht' ht hid hstage (by rw [hpc]; rfl), hpc] at hpc'
  simp at hpc'

theorem grant_tasks {user : String} {vm : Option ℕ} (hgrant : w.grant id user vm = some w') :
    w'.tasks = w.tasks := by
  obtain ⟨_, _, rfl⟩ := Option.map_eq_some_iff.mp hgrant
  rfl

/-- Every calm step keeps the invariant. -/
theorem step (h : w.Sound) {a : AdmissionAction} (hs : w.CalmStep a w') : w'.Sound := by
  unfold CalmStep at hs
  split at hs
  case isFalse => cases hs
  rename_i hcalm
  cases a with
  | arrive user id kind =>
    obtain rfl := Option.some.inj hs
    refine h.arrive fun t ht hid hpc => ?_
    have := List.all_eq_true.mp hcalm t ht
    simp [hid, hpc] at this
  | acquire key =>
    obtain ⟨locks, hlock, rfl⟩ := lockStep_eq_some hs
    exact h.acquire hlock
  | unlock key =>
    obtain ⟨locks, hlock, rfl⟩ := lockStep_eq_some hs
    refine h.unlock hlock fun t ht hkey hpc => ?_
    have hcalm : (w.task key).all (fun t => t.pc ≠ .booted || w.mayDestroy t) = true := hcalm
    rw [task, ← hkey, h.queue.keyed.row_of_mem ht] at hcalm
    simpa [hpc] using hcalm
  | depart key =>
    obtain ⟨locks, hlock, rfl⟩ := lockStep_eq_some hs
    exact h.depart hlock
  | decrement key =>
    obtain ⟨locks, hlock, rfl⟩ := Option.map_eq_some_iff.mp hs
    exact h.decrement hlock
  | admission key =>
    obtain ⟨t, ht, rfl, hs⟩ := bind_task hs
    split at hs
    · rename_i hc
      obtain ⟨_, hpc, _, hrow⟩ := hc
      obtain ⟨w₁, hgrant, rfl⟩ := Option.map_eq_some_iff.mp hs
      have hsound : w₁.Sound := h.grant hgrant (h.not_replacing ht hpc) fun v hv =>
        ⟨congrArg (Option.map Vm.incarnation) hv, h.owned ht hpc hrow hv⟩
      exact hsound.go (grant_tasks hgrant ▸ ht) ⟨by simp, by simp, by simp⟩ (by rw [hpc]; rfl) rfl
        (by rw [hpc]; simp)
    · cases hs
  | check key =>
    obtain ⟨t, ht, rfl, hs⟩ := bind_task hs
    split at hs
    · rename_i hc
      obtain rfl := Option.some.inj hs
      exact h.check ht hc.2.1 hc.2.2.2
    · cases hs
  | boot key =>
    obtain ⟨t, ht, rfl, hs⟩ := bind_task hs
    split at hs
    · rename_i hc
      obtain rfl := Option.some.inj hs
      exact h.boot ht hc.1 hc.2
    · cases hs
  | store key =>
    obtain ⟨t, ht, rfl, hs⟩ := bind_task hs
    split at hs
    · rename_i hc
      obtain rfl := Option.some.inj hs
      exact h.store ht hc.1
    · cases hs
  | clean key row =>
    obtain ⟨t, ht, rfl, hs⟩ := bind_task hs
    split at hs
    · rename_i hc
      obtain rfl := Option.some.inj hs
      refine h.clean ht hc fun other hother => ?_
      split
      · exact Function.update_of_ne hother _ _
      · rfl
    · cases hs
  | invalidate key =>
    obtain ⟨t, ht, rfl, hs⟩ := bind_task hs
    split at hs
    · rename_i hc
      obtain ⟨locks, hlock, rfl⟩ := lockStep_eq_some hs
      refine h.invalidate ht hc.2.1 hlock ?_
      rintro _ _ ⟨⟩ l hl
      have hcalm : (w.locks.find t.key).all (fun l => w.locks.epochs l.entry + 1 < 2 ^ 64) = true :=
        hcalm
      rw [show w.locks.find t.key = some l from hl] at hcalm
      simpa using hcalm
    · cases hs
  | destroyVm key removed =>
    obtain ⟨t, ht, rfl, hs⟩ := bind_task hs
    split at hs
    · rename_i hc
      obtain rfl := Option.some.inj hs
      split
      · exact h.destroyVm ht hc
      · exact h.go ht ⟨by simp, by simp, by simp⟩ (by rw [hc]; rfl) rfl (by rw [hc]; simp)
    · cases hs
  | deleteRow key =>
    obtain ⟨t, ht, rfl, hs⟩ := bind_task hs
    split at hs
    · rename_i hc
      obtain rfl := Option.some.inj hs
      have hgone : (w.go t.key .cleared).Sound :=
        h.go ht ⟨by simp, by simp, by simp⟩ (by rw [hc]; rfl) rfl (by rw [hc]; simp)
      exact hgone.deleteRow
    · cases hs
  | forget key =>
    obtain ⟨t, ht, rfl, hs⟩ := bind_task hs
    split at hs
    · rename_i hc
      obtain ⟨activity, hremove, rfl⟩ := Option.map_eq_some_iff.mp hs
      have hgone : (w.go t.key .finished).Sound :=
        h.go ht ⟨by simp, by simp, by simp⟩ (by rw [hc]; rfl) rfl (by rw [hc]; simp)
      exact hgone.track (h.tracked.apart (.inr ⟨_, rfl⟩) hremove) fun g hg => hg
    · cases hs
  | nested g =>
    simp only [World.step] at hs
    split at hs
    · rename_i hg
      refine h.grant hs (fun t ht hid hpc => ?_) fun v hv => ?_
      · exact (h.serves t.id).clear t ht rfl hpc g hg hid.symm
      · exact (h.serves _).guarded g hg rfl v hv
    · cases hs
  | dropGuard g now =>
    simp only [World.step] at hs
    split at hs
    · rename_i hg
      obtain ⟨activity, hdrop, rfl⟩ := Option.map_eq_some_iff.mp hs
      exact h.track (h.tracked.drop hg hdrop) fun g' hg' => List.mem_of_mem_erase hg'
    · cases hs
  | track a =>
    simp only [World.step] at hs
    split at hs
    · rename_i ha
      obtain ⟨activity, htrack, rfl⟩ := Option.map_eq_some_iff.mp hs
      exact h.track (h.tracked.apart (.inl ha) htrack) fun g hg => hg
    · cases hs

end Sound

/-- The new world is sound. -/
theorem new_sound : new.Sound := by
  refine ⟨⟨Locks.new_sound, ?_, ?_, ?_⟩, ⟨Activity.new_sound, List.Perm.refl _⟩, fun id => ?_⟩
  · exact List.nodup_nil
  · exact fun t ht => absurd ht List.not_mem_nil
  · exact fun l hl => absurd hl List.not_mem_nil
  · constructor <;> simp [new]

/-- A request starts and ends no incarnation. -/
theorem grant_vms {user : String} {vm : Option ℕ} (h : w.grant id user vm = some w') :
    w'.vms = w.vms := by
  obtain ⟨_, _, rfl⟩ := Option.map_eq_some_iff.mp h
  rfl

/-- A VM appears or becomes visible only through the task that has made it. -/
theorem vms_step {a : AdmissionAction} (hs : w.step a = some w') {v : Vm} (hv : v ∈ w'.vms id)
    (hnew : v ∉ w.vms id) :
    w'.guards = w.guards ∧ ∃ t ∈ w.tasks, t.id = id ∧ (t.pc = .checked ∨ t.pc = .booted) := by
  have hat {t : Task} {vm : Option Vm} (ht : t ∈ w.tasks) (hpc : t.pc = .checked ∨ t.pc = .booted)
      (hv : v ∈ Function.update w.vms t.id vm id) :
      ∃ t ∈ w.tasks, t.id = id ∧ (t.pc = .checked ∨ t.pc = .booted) := by
    by_cases hid : id = t.id
    · exact ⟨t, ht, hid.symm, hpc⟩
    · rw [Function.update_of_ne hid] at hv
      exact absurd hv hnew
  cases a with
  | arrive =>
    obtain rfl := Option.some.inj hs
    exact absurd hv hnew
  | acquire | unlock | depart =>
    obtain ⟨_, _, rfl⟩ := lockStep_eq_some hs
    exact absurd hv hnew
  | decrement =>
    obtain ⟨_, _, rfl⟩ := Option.map_eq_some_iff.mp hs
    exact absurd hv hnew
  | admission =>
    obtain ⟨t, ht, _, hs⟩ := bind_task hs
    split at hs
    · obtain ⟨w₁, hgrant, rfl⟩ := Option.map_eq_some_iff.mp hs
      exact absurd (grant_vms hgrant ▸ hv) hnew
    · cases hs
  | check | deleteRow =>
    obtain ⟨t, ht, _, hs⟩ := bind_task hs
    split at hs
    · obtain rfl := Option.some.inj hs
      exact absurd hv hnew
    · cases hs
  | boot =>
    obtain ⟨t, ht, _, hs⟩ := bind_task hs
    split at hs
    · rename_i hc
      obtain rfl := Option.some.inj hs
      exact ⟨rfl, hat ht (.inl hc.1) hv⟩
    · cases hs
  | store =>
    obtain ⟨t, ht, _, hs⟩ := bind_task hs
    split at hs
    · rename_i hc
      obtain rfl := Option.some.inj hs
      exact ⟨rfl, hat ht (.inr hc.1) hv⟩
    · cases hs
  | clean =>
    obtain ⟨t, ht, _, hs⟩ := bind_task hs
    split at hs
    · rename_i hc
      obtain rfl := Option.some.inj hs
      exact ⟨rfl, hat ht (.inr hc) hv⟩
    · cases hs
  | invalidate =>
    obtain ⟨t, ht, _, hs⟩ := bind_task hs
    split at hs
    · obtain ⟨_, _, rfl⟩ := lockStep_eq_some hs
      exact absurd hv hnew
    · cases hs
  | destroyVm key removed =>
    obtain ⟨t, ht, _, hs⟩ := bind_task hs
    split at hs
    · obtain rfl := Option.some.inj hs
      cases removed with
      | false => exact absurd hv hnew
      | true =>
        have hv : v ∈ Function.update w.vms t.id none id := hv
        by_cases hid : id = t.id
        · rw [hid, Function.update_self] at hv
          cases hv
        · rw [Function.update_of_ne hid] at hv
          exact absurd hv hnew
    · cases hs
  | forget =>
    obtain ⟨t, ht, _, hs⟩ := bind_task hs
    split at hs
    · obtain ⟨_, _, rfl⟩ := Option.map_eq_some_iff.mp hs
      exact absurd hv hnew
    · cases hs
  | nested g =>
    simp only [World.step] at hs
    split at hs
    · exact absurd (grant_vms hs ▸ hv) hnew
    · cases hs
  | dropGuard | track =>
    simp only [World.step] at hs
    split at hs
    · obtain ⟨_, _, rfl⟩ := Option.map_eq_some_iff.mp hs
      exact absurd hv hnew
    · cases hs

/-- Over whole calm runs: the VM under an outstanding guard is the one that was there at its
admission, owned by the guard's user; a VM of a name appears and becomes visible only while no
guard of the name is outstanding; and a request that has been waiting since a VM was visible is
admitted to that VM or not at all. -/
theorem guest_requests_never_cross_replacement {as : List AdmissionAction}
    (hrun : Trace CalmStep new as w) :
    (∀ g ∈ w.guards, ∀ v ∈ w.vms g.flight.id, g.vm = some v.incarnation ∧ v.owner = g.user) ∧
    (∀ a w', w.CalmStep a w' → ∀ id, ∀ v ∈ w'.vms id, v ∉ w.vms id →
      ∀ g ∈ w'.guards, g.flight.id ≠ id) ∧
    (∀ key w', w.CalmStep (.admission key) w' → ∀ t ∈ w.tasks, t.key = key →
      ∀ i ∈ t.seen, (w.vms t.id).map Vm.incarnation = some i) := by
  have hsound : w.Sound := hrun.invariant new_sound fun hI hstep => hI.step hstep
  refine ⟨fun g hg => (hsound.serves _).guarded g hg rfl, ?_, ?_⟩
  · intro a w' hs id v hv hnew g hg
    unfold CalmStep at hs
    split at hs
    · obtain ⟨hguards, t, ht, hid, hpc⟩ := vms_step hs hv hnew
      exact (hsound.serves id).clear t ht hid hpc g (hguards ▸ hg)
    · cases hs
  · rintro key w' hs t ht rfl i hi
    unfold CalmStep at hs
    split at hs
    case isFalse => cases hs
    obtain ⟨t', ht', hkey, hs⟩ := bind_task hs
    obtain rfl := hsound.queue.eq_of_key ht' ht hkey
    split at hs
    case isFalse => cases hs
    rename_i hc
    obtain hpast | ⟨v, hv, rfl, _⟩ :=
      (hsound.serves t'.id).waiting t' ht rfl (by rw [hc.2.1]; simp) i hi
    · exact absurd hpast (hsound.queue.not_overtaken hc.2.2.1)
    · exact congrArg (Option.map Vm.incarnation) hv

/-- A VM is created and later destroyed while its replacement queues; the request arrives at the
given point of the destruction. -/
def replacing (before after : List AdmissionAction) : List AdmissionAction :=
  [.arrive "alice" "vm" .create, .acquire 0, .check 0, .boot 0, .store 0, .unlock 0, .depart 0,
    .decrement 0, .arrive "alice" "vm" .destroy, .acquire 1, .arrive "alice" "vm" .create] ++
  before ++ [.invalidate 1] ++ after ++
  [.destroyVm 1 true, .deleteRow 1, .forget 1, .unlock 1, .depart 1, .acquire 2, .check 2, .boot 2,
    .store 2, .unlock 2, .depart 2, .acquire 3]

/-- A request that has queued before the invalidation is refused, and another one is admitted. -/
def refused : List AdmissionAction :=
  replacing [.arrive "alice" "vm" .guest] [] ++
    [.unlock 3, .arrive "alice" "vm" .guest, .acquire 4, .admission 4]

theorem guest_requests_never_cross_replacement_refused :
    ∃ w, Trace CalmStep new refused w ∧
      w.guards.map Guard.vm = [some 1] ∧
      ∀ g ∈ w.guards, ∀ v ∈ w.vms g.flight.id, g.vm = some v.incarnation ∧ v.owner = g.user := by
  have hrun : Trace CalmStep new refused _ := Trace.of_foldlM rfl
  exact ⟨_, hrun, rfl, (guest_requests_never_cross_replacement hrun).1⟩

/-- A request that queues between the invalidation and the removal of the VM is admitted to the
VM that replaces it. -/
theorem late_request_crosses_replacement :
    ∃ w w', Trace Step new (replacing [] [.arrive "alice" "vm" .guest]) w ∧
      w.Step (.admission 3) w' ∧ ∃ t ∈ w.tasks, t.key = 3 ∧ t.seen = some 0 ∧
        (w.vms t.id).map Vm.incarnation = some 1 :=
  ⟨_, _, Trace.of_foldlM rfl, rfl, _,
    List.mem_cons_of_mem _ (List.mem_cons_of_mem _ List.mem_cons_self), rfl, rfl, rfl⟩

end World

end AgentHouse.Daemon
