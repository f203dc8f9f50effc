import AgentHouse.Daemon.Activity
import AgentHouse.Daemon.Locks

/-!
# Guest admission across the replacement of a VM

Requests for guest work (`routes.rs`), destruction and the two ways of creating a sandbox
(`sandboxes.rs`, `snapshots.rs`, `replicated.rs`), as tasks that queue for the lifecycle lock of a
name. What a task does while it holds the lock is cut at every point at which another task can
see a difference. A step that is possible may also fail: the task then unlocks where it stands.
The storage sweep destroys as `destroy` does, without a user who asks for it.
-/

namespace AgentHouse.Daemon

/-- A VM of the backend, with the user who created it. -/
structure Vm where
  incarnation : ℕ
  owner : String
  /-- Its sandbox row has been stored. -/
  stored : Bool
deriving DecidableEq, Repr

/-- What a task does once it has the lock of its sandbox. -/
inductive Kind where
  /-- `routes::admit`. -/
  | guest
  /-- `destroy_operation`, or the sweep's retirement of an orphan. -/
  | destroy
  /-- `create_inner`. -/
  | create
  /-- `restore` of a snapshot. -/
  | restore
deriving DecidableEq, Repr

/-- How far a task has come. -/
inductive Pc where
  | queued
  | locked
  /-- A create or restore whose checks have passed. -/
  | checked
  /-- The new VM runs; its row is not stored. -/
  | booted
  /-- A destroy between `invalidate_identity` and `backend.destroy`. -/
  | invalidated
  /-- `backend.destroy` has been tried. -/
  | emptied
  /-- The sandbox row has been deleted. -/
  | cleared
  /-- Nothing is left to do but to unlock. -/
  | finished
  | unlocked
  | dropped
deriving DecidableEq, Repr

/-- How far the lease of a task has come. -/
def Pc.stage : Pc → Stage
  | .queued => .queued
  | .unlocked => .leaving
  | .dropped => .dropped
  | _ => .holding

/-- A request that holds or awaits the lease of a sandbox. -/
structure Task where
  key : ℕ
  user : String
  id : String
  kind : Kind
  pc : Pc
  /-- The VM that was there when the task began to wait. -/
  seen : Option ℕ
deriving DecidableEq, Repr

/-- A guard that a task or its caller holds, with the VM that was there at its admission. -/
structure Guard where
  flight : InFlight
  user : String
  vm : Option ℕ
deriving DecidableEq, Repr

/-- The daemon and the VMs of the backend. -/
structure World where
  locks : Locks
  activity : Activity
  /-- The owner of each sandbox row. -/
  rows : String → Option String
  vms : String → Option Vm
  nextVm : ℕ
  tasks : List Task
  guards : List Guard

/-- What the tasks and the world do. -/
inductive AdmissionAction where
  | arrive (user id : String) (kind : Kind)
  | acquire (key : ℕ)
  | unlock (key : ℕ)
  | depart (key : ℕ)
  | decrement (key : ℕ)
  | admission (key : ℕ)
  | check (key : ℕ)
  | boot (key : ℕ)
  | store (key : ℕ)
  /-- The VM is removed again, and with its volume the row of its own user. -/
  | clean (key : ℕ) (row : Bool)
  | invalidate (key : ℕ)
  | destroyVm (key : ℕ) (removed : Bool)
  | deleteRow (key : ℕ)
  | forget (key : ℕ)
  /-- Input of a stream that holds a guard. -/
  | nested (g : Guard)
  | dropGuard (g : Guard) (now : ℕ)
  /-- What else happens to the tracker. -/
  | track (a : ActivityAction)
deriving DecidableEq, Repr

/-- The tracker's operation neither hands out nor takes back a guard of guest work, and forgets
nothing. -/
def ActivityAction.apart : ActivityAction → Bool
  | .begin _ | .dropFlight _ _ | .remove _ => false
  | _ => true

namespace World

/-- A daemon without sandboxes. -/
def new : World := ⟨.new, .new, fun _ => none, fun _ => none, 0, [], []⟩

variable (w : World)

/-- The task of a lease. -/
def task (key : ℕ) : Option Task := Table.row Task.key key w.tasks

/-- The task goes on to `pc`. -/
def go (key : ℕ) (pc : Pc) : World :=
  { w with tasks := Table.revise Task.key key (fun t => { t with pc }) w.tasks }

/-- A step of the lock of a task that also changes where the task stands. -/
def lockStep (a : LockAction) (key : ℕ) (pc : Pc) : Option World :=
  (w.locks.step a).map fun locks => { w.go key pc with locks }

/-- `identity_changed` of the task's guard. -/
def identityChanged (key : ℕ) : Bool := (w.locks.find key).any w.locks.identityChanged

/-- The VM of a name once its sandbox is visible. -/
def visible (id : String) : Option ℕ :=
  ((w.vms id).filter Vm.stored).map Vm.incarnation

/-- Hand out a guard. -/
def grant (id user : String) (vm : Option ℕ) : Option World :=
  (w.activity.tracker.begin id).map fun (flight, tracker) =>
    { w with
      activity := { w.activity with tracker, flights := flight :: w.activity.flights }
      guards := ⟨flight, user, vm⟩ :: w.guards }

/-- Owned by the user, or by nobody while a builder of that name is retired. -/
def mayDestroy (t : Task) : Bool := (w.rows t.id).all (· = t.user)

/-- One step, if it is possible. -/
def step : AdmissionAction → Option World
  | .arrive user id kind => some { w with
      locks := w.locks.lease id
      tasks := w.tasks ++ [⟨w.locks.nextKey, user, id, kind, .queued, w.visible id⟩] }
  | .acquire key => w.lockStep (.acquire key) key .locked
  | .unlock key => w.lockStep (.unlock key) key .unlocked
  | .depart key => w.lockStep (.drop key) key .dropped
  | .decrement key => (w.locks.step (.decrement key)).map fun locks =>
      { w with locks, tasks := w.tasks.filter fun t => t.key ≠ key }
  | .admission key => (w.task key).bind fun t =>
      if t.kind = .guest ∧ t.pc = .locked ∧ w.identityChanged key = false ∧
          w.rows t.id = some t.user then
        (w.grant t.id t.user ((w.vms t.id).map Vm.incarnation)).map fun w => w.go key .finished
      else none
  | .check key => (w.task key).bind fun t =>
      -- `identity_available`; a restore also refuses a name that has changed while it queued
      if (t.kind = .create ∨ t.kind = .restore ∧ w.identityChanged key = false) ∧
          t.pc = .locked ∧ w.activity.tracker.managedRuns t.id = none ∧
          w.activity.tracker.count t.id = 0 then
        some (w.go key .checked)
      else none
  | .boot key => (w.task key).bind fun t =>
      if t.pc = .checked ∧ w.vms t.id = none then
        some { w.go key .booted with
          vms := Function.update w.vms t.id (some ⟨w.nextVm, t.user, false⟩)
          nextVm := w.nextVm + 1 }
      else none
  | .store key => (w.task key).bind fun t =>
      if t.pc = .booted ∧ w.rows t.id = none then
        some { w.go key .finished with
          rows := Function.update w.rows t.id (some t.user)
          vms := Function.update w.vms t.id ((w.vms t.id).map fun v => { v with stored := true }) }
      else none
  | .clean key row => (w.task key).bind fun t =>
      if t.pc = .booted then
        some { w.go key .finished with
          vms := Function.update w.vms t.id none
          rows := if row ∧ w.mayDestroy t then Function.update w.rows t.id none else w.rows }
      else none
  | .invalidate key => (w.task key).bind fun t =>
      -- `destroy` also refuses a name that has changed while it queued; the storage sweep does not
      if t.kind = .destroy ∧ t.pc = .locked ∧ w.mayDestroy t then
        w.lockStep (.invalidate t.id key) key .invalidated
      else none
  | .destroyVm key removed => (w.task key).bind fun t =>
      if t.pc = .invalidated then
        some { w.go key .emptied with
          vms := if removed then Function.update w.vms t.id none else w.vms }
      else none
  | .deleteRow key => (w.task key).bind fun t =>
      if t.pc = .emptied then
        some { w.go key .cleared with rows := Function.update w.rows t.id none }
      else none
  | .forget key => (w.task key).bind fun t =>
      if t.pc = .cleared then
        (w.activity.step (.remove t.id)).map fun activity => { w.go key .finished with activity }
      else none
  | .nested g => if g ∈ w.guards then w.grant g.flight.id g.user g.vm else none
  | .dropGuard g now =>
      if g ∈ w.guards then
        (w.activity.step (.dropFlight g.flight now)).map fun activity =>
          { w with activity, guards := w.guards.erase g }
      else none
  | .track a => if a.apart then (w.activity.step a).map fun activity =>
      { w with activity } else none

/-- One step of a task or of the world. -/
def Step (w : World) (a : AdmissionAction) (w' : World) : Prop := w.step a = some w'

/-- Nobody queues for a name between its invalidation and the removal of its VM; a create or
restore that could not store its row leaves no VM under the row of another user; and no epoch
wraps around. -/
def calm : AdmissionAction → Bool
  | .arrive _ id _ => w.tasks.all fun t => t.id ≠ id || t.pc ≠ .invalidated
  | .unlock key => (w.task key).all fun t => t.pc ≠ .booted || w.mayDestroy t
  | .invalidate key => (w.locks.find key).all fun l => w.locks.epochs l.entry + 1 < 2 ^ 64
  | _ => true

/-- A step that meets the condition of `calm`. -/
def CalmStep (w : World) (a : AdmissionAction) (w' : World) : Prop :=
  (if w.calm a then w.step a else none) = some w'

end World

/-- The id of the lease has been invalidated since it was taken. -/
def Locks.Overtaken (s : Locks) (key : ℕ) : Prop :=
  ∃ l ∈ s.leases, l.key = key ∧ l.epoch < s.epochs l.entry

/-- Tasks and their leases. -/
structure Queue (locks : Locks) (tasks : List Task) : Prop where
  sound : locks.Sound
  keyed : Table.Keyed Task.key tasks
  leased : ∀ t ∈ tasks, ∃ l ∈ locks.leases, l.key = t.key ∧ l.id = t.id ∧ l.stage = t.pc.stage
  epochs : ∀ l ∈ locks.leases, l.epoch ≤ locks.epochs l.entry

/-- Outstanding guards and the tracker. -/
structure Tracked (activity : Activity) (guards : List Guard) : Prop where
  sound : activity.Sound
  flights : activity.flights.Perm (guards.map Guard.flight)

namespace Queue

variable {locks locks' : Locks} {tasks : List Task} {t t' : Task} {pc : Pc} {key : ℕ}

/-- A key belongs to one task. -/
theorem eq_of_key (h : Queue locks tasks) (ht : t ∈ tasks) (ht' : t' ∈ tasks)
    (hkey : t.key = t'.key) : t = t' :=
  List.inj_on_of_nodup_map h.keyed ht ht' hkey

/-- The task that holds the lock of a name. -/
theorem eq_of_holding (h : Queue locks tasks) (ht : t ∈ tasks) (ht' : t' ∈ tasks)
    (hid : t.id = t'.id) (hhold : t.pc.stage = .holding) (hhold' : t'.pc.stage = .holding) :
    t = t' := by
  obtain ⟨l, hl, hkey, hlid, hstage⟩ := h.leased t ht
  obtain ⟨l', hl', hkey', hlid', hstage'⟩ := h.leased t' ht'
  have hlive : l.Live := by
    rw [Lease.Live, hstage, hhold]
    simp
  have hlive' : l'.Live := by
    rw [Lease.Live, hstage', hhold']
    simp
  have hentry := h.sound.entry_eq hl hl' hlive hlive' (by rw [hlid, hlid', hid])
  have := h.sound.single l hl l' hl' hentry (hstage.trans hhold) (hstage'.trans hhold')
  exact h.eq_of_key ht ht' (by rw [← hkey, ← hkey', this])

/-- Only the task that moves has another program counter. -/
theorem mem_go {t' : Task} (h : t' ∈ Table.revise Task.key key (fun t => { t with pc }) tasks) :
    ∃ t ∈ tasks, t'.key = t.key ∧ t'.id = t.id ∧ t'.user = t.user ∧ t'.kind = t.kind ∧
      t'.seen = t.seen ∧ (t.key = key ∧ t'.pc = pc ∨ t.key ≠ key ∧ t' = t) := by
  obtain ⟨t, ht, rfl⟩ := List.mem_map.mp h
  by_cases hkey : t.key = key
  · rw [if_pos hkey]
    exact ⟨t, ht, rfl, rfl, rfl, rfl, rfl, .inl ⟨hkey, rfl⟩⟩
  · rw [if_neg hkey]
    exact ⟨t, ht, rfl, rfl, rfl, rfl, rfl, .inr ⟨hkey, rfl⟩⟩

/-- The task goes on while its lease stays as it is. -/
theorem go (h : Queue locks tasks) (ht : t ∈ tasks) (hstage : pc.stage = t.pc.stage) :
    Queue locks (Table.revise Task.key t.key (fun t => { t with pc }) tasks) where
  sound := h.sound
  keyed := h.keyed.revise fun _ => rfl
  leased t' ht' := by
    obtain ⟨t₀, ht₀, hkey, hid, _, _, _, ⟨hsame, hpc⟩ | ⟨_, rfl⟩⟩ := mem_go ht'
    · obtain rfl := h.eq_of_key ht₀ ht hsame
      obtain ⟨l, hl, hlkey, hlid, hlstage⟩ := h.leased t₀ ht₀
      exact ⟨l, hl, hlkey.trans hkey.symm, hlid.trans hid.symm, by rw [hlstage, hpc, hstage]⟩
    · exact h.leased t' ht₀
  epochs := h.epochs

/-- The lease of the task is moved along with it. -/
theorem move (h : Queue locks tasks) (pc : Pc) (hsound : (locks.move key pc.stage).Sound) :
    Queue (locks.move key pc.stage)
      (Table.revise Task.key key (fun t => { t with pc }) tasks) where
  sound := hsound
  keyed := h.keyed.revise fun _ => rfl
  leased t' ht' := by
    obtain ⟨t₀, ht₀, hkey, hid, _, _, _, hcase⟩ := mem_go ht'
    obtain ⟨l, hl, hlkey, hlid, hlstage⟩ := h.leased t₀ ht₀
    refine ⟨_, List.mem_map_of_mem hl, ?_⟩
    obtain ⟨hsame, hpc⟩ | ⟨hne, rfl⟩ := hcase
    · rw [if_pos (hlkey.trans hsame)]
      exact ⟨hlkey.trans hkey.symm, hlid.trans hid.symm, by rw [hpc]⟩
    · rw [if_neg fun heq => hne (hlkey.symm.trans heq)]
      exact ⟨hlkey, hlid, hlstage⟩
  epochs l hl := by
    obtain ⟨l₀, hl₀, _, _, hentry, hepoch, _⟩ := Locks.mem_move_same hl
    rw [← hepoch, ← hentry]
    exact h.epochs l₀ hl₀

/-- The body of a drop keeps the queue. -/
theorem dropBody (h : Queue locks tasks) {l : Lease} (hl : l ∈ locks.leases)
    (hstage : l.stage = .queued ∨ l.stage = .leaving) :
    Queue (locks.dropBody l)
      (Table.revise Task.key l.key (fun t => { t with pc := .dropped }) tasks) := by
  have hsound := h.sound.dropBody hl hstage
  have hmoved : Queue (locks.move l.key Pc.dropped.stage) _ := h.move .dropped
    (h.sound.move hl (fun hne => absurd rfl hne) fun hhold => by cases hhold)
  have hleases : (locks.dropBody l).leases = (locks.move l.key .dropped).leases ∧
      (locks.dropBody l).epochs = locks.epochs := by
    unfold Locks.dropBody
    split
    · exact ⟨rfl, rfl⟩
    · exact ⟨rfl, rfl⟩
  refine ⟨hsound, hmoved.keyed, ?_, ?_⟩
  · rw [hleases.1]
    exact hmoved.leased
  · rw [hleases.1, hleases.2]
    exact hmoved.epochs

/-- So does the decrement after it. -/
theorem decrement (h : Queue locks tasks) :
    Queue { locks with leases := locks.leases.filter fun l => l.key ≠ key }
      (tasks.filter fun t => t.key ≠ key) where
  sound := h.sound.decrement
  keyed := h.keyed.filter
  leased t ht := by
    obtain ⟨ht, hne⟩ := List.mem_filter.mp ht
    obtain ⟨l, hl, hkey, hrest⟩ := h.leased t ht
    refine ⟨l, List.mem_filter.mpr ⟨hl, ?_⟩, hkey, hrest⟩
    rw [hkey]
    exact hne
  epochs l hl := h.epochs l (List.mem_of_mem_filter hl)

/-- A new task brings a new lease. -/
theorem arrive (h : Queue locks tasks) (user id : String) (kind : Kind) (seen : Option ℕ) :
    Queue (locks.lease id) (tasks ++ [⟨locks.nextKey, user, id, kind, .queued, seen⟩]) where
  sound := h.sound.lease id
  keyed := by
    refine h.keyed.append (Table.row_eq_none.mpr fun t ht hkey => ?_)
    obtain ⟨l, hl, hlkey, _⟩ := h.leased t ht
    exact (h.sound.fresh l hl).ne (hlkey.trans hkey)
  leased t ht := by
    unfold Locks.lease
    obtain ht | rfl := Table.mem_snoc.mp ht
    · obtain ⟨l, hl, hrest⟩ := h.leased t ht
      split
      · exact ⟨l, List.mem_append_left _ hl, hrest⟩
      · exact ⟨l, List.mem_append_left _ hl, hrest⟩
    · split
      · exact ⟨_, List.mem_append_right _ (List.mem_singleton_self _), rfl, rfl, rfl⟩
      · exact ⟨_, List.mem_append_right _ (List.mem_singleton_self _), rfl, rfl, rfl⟩
  epochs l hl := by
    unfold Locks.lease at hl ⊢
    split at hl
    · obtain hl | rfl := Table.mem_snoc.mp hl
      · exact h.epochs l hl
      · exact le_rfl
    · obtain hl | rfl := Table.mem_snoc.mp hl
      · dsimp only
        rw [Function.update_of_ne (h.sound.held l hl).ne]
        exact h.epochs l hl
      · exact Nat.zero_le _

/-- No epoch is about to wrap around. -/
def Unwrapped (locks : Locks) (a : LockAction) : Prop :=
  ∀ id key, a = .invalidate id key → ∀ l ∈ locks.find key, locks.epochs l.entry + 1 < 2 ^ 64

/-- The epoch of a live lease's entry grows with the invalidations of its id. -/
theorem epochs_grow (h : Queue locks tasks) {a : LockAction} (hs : locks.Step a locks')
    (hwrap : Unwrapped locks a) {l : Lease} (hl : l ∈ locks.leases) (hlive : l.Live) :
    locks'.epochs l.entry =
      if a.invalidates l.id then locks.epochs l.entry + 1 else locks.epochs l.entry := by
  rw [Locks.epochs_step h.sound hs hl hlive]
  by_cases hinv : a.invalidates l.id = true
  · rw [if_pos hinv, if_pos hinv, Nat.mod_eq_of_lt]
    -- the lease that invalidates has the same entry
    cases hs.turn with
    | @invalidate l' hl' hstage =>
      have hlive' : l'.Live := by
        rw [Lease.Live, hstage]
        simp
      have hentry := h.sound.entry_eq hl' hl hlive' hlive (of_decide_eq_true hinv)
      rw [← hentry]
      exact hwrap l'.id l'.key rfl l' (h.sound.keyed.row_of_mem hl')
    | _ => cases hinv
  · rw [if_neg hinv, if_neg hinv]

/-- A lease that was overtaken stays so. -/
theorem overtaken_step (h : Queue locks tasks) {a : LockAction} (hs : locks.Step a locks')
    (hwrap : Unwrapped locks a) (hover : locks.Overtaken key) {l' : Lease}
    (hl' : l' ∈ locks'.leases) (hkey' : l'.key = key) (hlive' : l'.Live) :
    locks'.Overtaken key := by
  obtain ⟨l, hl, hkey, hlt⟩ := hover
  obtain ⟨l₀, hl₀, hlive₀, hkey₀, _, hentry₀, hepoch₀⟩ := Locks.lease_before h.sound hs hl' hlive'
    (by rw [hkey', ← hkey]; exact h.sound.fresh l hl)
  obtain rfl := h.sound.eq_of_key hl hl₀ (by rw [hkey, hkey₀, hkey'])
  refine ⟨l', hl', hkey', ?_⟩
  rw [← hentry₀, ← hepoch₀, h.epochs_grow hs hwrap hl hlive₀]
  split
  · omega
  · exact hlt

theorem live_of_pc {l : Lease} (hstage : l.stage = t.pc.stage) (hpc : t.pc ≠ .dropped) :
    l.Live := by
  intro hdropped
  rw [hdropped] at hstage
  cases hcase : t.pc with
  | dropped => exact hpc hcase
  | _ =>
    rw [hcase] at hstage
    cases hstage

/-- A task that goes on waiting stays overtaken. -/
theorem carry {tasks' : List Task} (h : Queue locks tasks) {a : LockAction}
    (hs : locks.Step a locks') (hwrap : Unwrapped locks a) (h' : Queue locks' tasks')
    (ht' : t' ∈ tasks') (hpc : t'.pc ≠ .dropped) (hover : locks.Overtaken t'.key) :
    locks'.Overtaken t'.key := by
  obtain ⟨l', hl', hkey', _, hstage'⟩ := h'.leased t' ht'
  exact h.overtaken_step hs hwrap hover hl' hkey' (live_of_pc hstage' hpc)

/-- Invalidation by the holder keeps the queue. -/
theorem invalidate {id : String} (h : Queue locks tasks)
    (hs : locks.Step (.invalidate id key) locks') (hwrap : Unwrapped locks (.invalidate id key)) :
    Queue locks' tasks := by
  have hsound := h.sound.step hs
  cases hs.turn with
  | @invalidate l hl =>
    refine ⟨hsound, h.keyed, h.leased, fun l' hl' => ?_⟩
    have hwrap := hwrap l.id l.key rfl l (h.sound.keyed.row_of_mem hl)
    have hle := h.epochs l' hl'
    by_cases hentry : l'.entry = l.entry
    · rw [Locks.invalidate, hentry]
      dsimp only
      rw [Function.update_self, Nat.mod_eq_of_lt hwrap]
      rw [hentry] at hle
      omega
    · rw [Locks.invalidate]
      dsimp only
      rw [Function.update_of_ne hentry]
      exact hle

/-- An invalidation overtakes every task of the name. -/
theorem overtaken_invalidate {id : String} (h : Queue locks tasks)
    (hs : locks.Step (.invalidate id key) locks') (hwrap : Unwrapped locks (.invalidate id key))
    (ht : t ∈ tasks) (hid : t.id = id) (hpc : t.pc ≠ .dropped) : locks'.Overtaken t.key := by
  obtain ⟨l, hl, hkey, hlid, hstage⟩ := h.leased t ht
  have hgrow := h.epochs_grow hs hwrap hl (live_of_pc hstage hpc)
  rw [if_pos (by simp [LockAction.invalidates, hlid, hid])] at hgrow
  have hle := h.epochs l hl
  cases hs.turn with
  | invalidate =>
    refine ⟨l, hl, hkey, ?_⟩
    rw [hgrow]
    omega

/-- A lease whose identity is unchanged has not been overtaken. -/
theorem not_overtaken (h : Queue locks tasks)
    (hsame : (locks.find key).any locks.identityChanged = false) : ¬ locks.Overtaken key := by
  rintro ⟨l, hl, rfl, hlt⟩
  rw [Locks.find, h.sound.keyed.row_of_mem hl] at hsame
  simp only [Option.any_some, Locks.identityChanged, decide_eq_false_iff_not, not_not] at hsame
  exact hlt.ne' hsame

end Queue

namespace Tracked

variable {activity : Activity} {guards : List Guard} {id : String}

/-- A sandbox whose count is zero has no guard. -/
theorem none_of_count (h : Tracked activity guards) (hcount : activity.tracker.count id = 0) :
    ∀ g ∈ guards, g.flight.id ≠ id := by
  intro g hg
  rw [(h.sound.counted id).count_eq, List.countP_eq_zero] at hcount
  have hflight : g.flight ∈ activity.flights := h.flights.mem_iff.mpr (List.mem_map_of_mem hg)
  simpa using hcount g.flight hflight

/-- Work that begins is tracked by a guard. -/
theorem begin (h : Tracked activity guards) {flight : InFlight} {tracker : Tracker}
    (hbegin : activity.tracker.begin id = some (flight, tracker)) {user : String}
    {vm : Option ℕ} : flight.id = id ∧
      Tracked { activity with tracker, flights := flight :: activity.flights }
        (⟨flight, user, vm⟩ :: guards) := by
  refine ⟨?_, h.sound.begin hbegin, h.flights.cons flight⟩
  unfold Tracker.begin at hbegin
  split at hbegin
  · cases hbegin
  · obtain rfl := congrArg Prod.fst (Option.some.inj hbegin)
    rfl

/-- A guard that is dropped leaves the others tracked. -/
theorem drop (h : Tracked activity guards) {g : Guard} {now : ℕ} {activity' : Activity}
    (hg : g ∈ guards) (hs : activity.Step (.dropFlight g.flight now) activity') :
    Tracked activity' (guards.erase g) := by
  refine ⟨h.sound.step hs, ?_⟩
  simp only [Activity.Step, Activity.step] at hs
  split at hs
  · obtain rfl := Option.some.inj hs
    have hperm : (guards.map Guard.flight).Perm (g.flight :: (guards.erase g).map Guard.flight) :=
      (List.perm_cons_erase hg).map _
    have := (h.flights.trans hperm).erase g.flight
    rwa [List.erase_cons_head] at this
  · cases hs

/-- Whatever else happens to the tracker. -/
theorem apart (h : Tracked activity guards) {a : ActivityAction} {activity' : Activity}
    (ha : a.apart = true ∨ ∃ id, a = .remove id) (hs : activity.Step a activity') :
    Tracked activity' guards := by
  refine ⟨h.sound.step hs, ?_⟩
  have hflights : activity'.flights = activity.flights := by
    cases a with
    | begin | dropFlight => simp [ActivityAction.apart] at ha
    | setManagedRun | finishManagedRun | restoreManagedCooldown | touchAt | setPauseAfterSecs
        | setIdlePolicy =>
      obtain rfl := Option.some.inj hs
      rfl
    | beginIdleTransition =>
      obtain rfl := Option.some.inj hs
      split
      · rfl
      · rfl
    | dropStop =>
      simp only [Activity.Step, Activity.step] at hs
      split at hs
      · obtain rfl := Option.some.inj hs
        rfl
      · cases hs
    | remove =>
      simp only [Activity.Step, Activity.step] at hs
      split at hs
      · cases hs
      · obtain rfl := Option.some.inj hs
        rfl
  rw [hflights]
  exact h.flights

end Tracked

end AgentHouse.Daemon
