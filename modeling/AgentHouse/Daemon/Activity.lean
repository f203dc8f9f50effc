import AgentHouse.Lib.Traces
import Mathlib.Data.List.Count
import Mathlib.Logic.Function.Basic
import Mathlib.Algebra.Order.Group.Nat
import Mathlib.Algebra.Ring.Nat

/-!
# The activity tracker

`ActivityTracker` of `thermal.rs` with the guards that it has handed out. Each operation is one
section under the lock of the tracker. An instant is a number of nanoseconds; operations that
read the clock take its value as an argument.
-/

namespace AgentHouse.Daemon

/-- The policy that a tenant may set. -/
structure IdlePolicy where
  pauseAfterSecs : ℕ
  agentIdleStopSecs : ℕ
  idleStopSecs : ℕ
deriving DecidableEq, Repr

/-- `TrackerInner`. -/
structure Tracker where
  pauseAfterSecs : ℕ
  agentIdleStopSecs : ℕ
  idleStopSecs : Option ℕ
  last : String → Option ℕ
  /-- The generation and the count of the guards of an id. -/
  inflight : String → Option (ℕ × ℕ)
  /-- The epoch of each run that holds an id. -/
  managedRuns : String → Option (List (String × ℤ))
  managedCooldown : String → Bool
  nextGeneration : ℕ
  retired : String → Bool
  stopping : String → Bool

/-- `InFlight`. -/
structure InFlight where
  id : String
  generation : ℕ
deriving DecidableEq, Repr

/-- `DEFAULT_AGENT_IDLE_STOP_SECS` -/
def defaultAgentIdleStopSecs : ℕ := 300

namespace Tracker

/-- `ActivityTracker::new` -/
def new : Tracker where
  pauseAfterSecs := 0
  agentIdleStopSecs := defaultAgentIdleStopSecs
  idleStopSecs := none
  last _ := none
  inflight _ := none
  managedRuns _ := none
  managedCooldown _ := false
  nextGeneration := 0
  retired _ := false
  stopping _ := false

variable (t : Tracker) (id : String)

/-- `set_idle_policy` -/
def setIdlePolicy (policy : IdlePolicy) : Tracker :=
  { t with
    pauseAfterSecs := policy.pauseAfterSecs
    agentIdleStopSecs := policy.agentIdleStopSecs
    idleStopSecs := some policy.idleStopSecs }

/-- `set_managed_run`: a hold, unless the sandbox is being stopped. -/
def setManagedRun (run : String) (epoch : ℤ) (now : ℕ) : Bool × Tracker :=
  if t.stopping id then (false, t)
  else
    let runs := ((t.managedRuns id).getD []).filter (fun r => r.1 ≠ run) ++ [(run, epoch)]
    (true, { t with
      managedRuns := Function.update t.managedRuns id (some runs)
      last := Function.update t.last id (some now) })

/-- `cooldown_at`. -/
def cooldownAt (finishedAt : ℕ) : Tracker :=
  { t with
    managedCooldown := Function.update t.managedCooldown id true
    last := Function.update t.last id (some
      (((t.last id).map (max · finishedAt)).getD finishedAt)) }

/-- `finish_managed_run`: the hold goes, and the last one leaves a cooldown. -/
def finishManagedRun (run : String) (epoch : ℤ) (finishedAt : ℕ) : Bool × Tracker :=
  match t.managedRuns id with
  | none => (false, t)
  | some runs =>
    if (run, epoch) ∉ runs then (false, t)
    else
      let rest := runs.filter fun r => r.1 ≠ run
      if rest ≠ [] then
        (true, { t with managedRuns := Function.update t.managedRuns id (some rest) })
      else
        (true, { t with managedRuns := Function.update t.managedRuns id none }.cooldownAt id
          finishedAt)

/-- `restore_managed_cooldown` -/
def restoreManagedCooldown (finishedAt : ℕ) : Bool × Tracker :=
  if t.stopping id ∨ (t.managedRuns id).isSome then (false, t)
  else (true, t.cooldownAt id finishedAt)

/-- `touch_at` -/
def touchAt (at' : ℕ) : Tracker :=
  if t.retired id then t else { t with last := Function.update t.last id (some at') }

/-- `remove`: requests that are still in flight retire the id. -/
def remove : Tracker :=
  { t with
    last := Function.update t.last id none
    retired := if (t.inflight id).isSome then Function.update t.retired id true else t.retired
    managedRuns := Function.update t.managedRuns id none
    managedCooldown := Function.update t.managedCooldown id false
    stopping := Function.update t.stopping id false }

/-- `begin`: a request enters, in the generation of those already there. -/
def begin : Option (InFlight × Tracker) :=
  if t.stopping id ∨ t.retired id then none
  else
    let next := (t.nextGeneration + 1) % 2 ^ 64
    let (generation, count) := (t.inflight id).getD (next, 0)
    some (⟨id, generation⟩, { t with
      nextGeneration := next
      inflight := Function.update t.inflight id (some (generation, count + 1)) })

/-- The number of guards that the tracker knows of. -/
def count : ℕ := ((t.inflight id).map Prod.snd).getD 0

/-- The threshold that is in force for a transition. -/
def threshold (secs : ℕ) (pause : Bool) : ℕ :=
  if pause then secs
  else if t.managedCooldown id then t.agentIdleStopSecs
  else t.idleStopSecs.getD secs

/-- `now.duration_since(t).as_secs()`. -/
def secondsSince (now at' : ℕ) : ℕ := (now - at') / 10 ^ 9

/-- `begin_idle_transition`. -/
def beginIdleTransition (now secs : ℕ) (pause : Bool) : Option Tracker :=
  if pause ∧ (secs = 0 ∨ t.pauseAfterSecs ≠ secs) then none
  else if t.stopping id ∨ (t.managedRuns id).isSome ∨ 0 < t.count id then none
  else match t.last id with
    | none => none
    | some at' =>
      if secondsSince now at' ≤ t.threshold id secs pause then none
      else some { t with stopping := Function.update t.stopping id true }

/-- The drop of a guard of guest work. -/
def dropFlight (g : InFlight) (now : ℕ) : Tracker :=
  match t.inflight g.id with
  | none => t
  | some (generation, n) =>
    if generation ≠ g.generation then t
    else
      let left := if n - 1 = 0 then none else some (generation, n - 1)
      let t' := { t with inflight := Function.update t.inflight g.id left }
      if t'.retired g.id then
        if left = none then { t' with retired := Function.update t'.retired g.id false } else t'
      else { t' with last := Function.update t'.last g.id (some now) }

/-- The drop of the guard of a transition. -/
def dropStop : Tracker := { t with stopping := Function.update t.stopping id false }

end Tracker

/-- The tracker and the guards that are outstanding. -/
structure Activity where
  tracker : Tracker
  flights : List InFlight
  stops : List String

/-- The calls of the tracker. -/
inductive ActivityAction where
  | begin (id : String)
  | dropFlight (g : InFlight) (now : ℕ)
  | setManagedRun (id run : String) (epoch : ℤ) (now : ℕ)
  | finishManagedRun (id run : String) (epoch : ℤ) (finishedAt : ℕ)
  | restoreManagedCooldown (id : String) (finishedAt : ℕ)
  | touchAt (id : String) (at' : ℕ)
  | setPauseAfterSecs (secs : ℕ)
  | setIdlePolicy (policy : IdlePolicy)
  | beginIdleTransition (id : String) (now secs : ℕ) (pause : Bool)
  | dropStop (id : String)
  | remove (id : String)
deriving DecidableEq, Repr

namespace Activity

/-- A daemon that has just started. -/
def new : Activity := ⟨.new, [], []⟩

/-- One operation. A guard that is dropped is outstanding, and an id is removed only while no
transition of it is. -/
def step (s : Activity) : ActivityAction → Option Activity
  | .begin id => some <| match s.tracker.begin id with
      | none => s
      | some (g, tracker) => { s with tracker, flights := g :: s.flights }
  | .dropFlight g now =>
      if g ∈ s.flights then
        some { s with tracker := s.tracker.dropFlight g now, flights := s.flights.erase g }
      else none
  | .setManagedRun id run epoch now =>
      some { s with tracker := (s.tracker.setManagedRun id run epoch now).2 }
  | .finishManagedRun id run epoch finishedAt =>
      some { s with tracker := (s.tracker.finishManagedRun id run epoch finishedAt).2 }
  | .restoreManagedCooldown id finishedAt =>
      some { s with tracker := (s.tracker.restoreManagedCooldown id finishedAt).2 }
  | .touchAt id at' => some { s with tracker := s.tracker.touchAt id at' }
  | .setPauseAfterSecs secs => some { s with tracker := { s.tracker with pauseAfterSecs := secs } }
  | .setIdlePolicy policy => some { s with tracker := s.tracker.setIdlePolicy policy }
  | .beginIdleTransition id now secs pause =>
      some <| match s.tracker.beginIdleTransition id now secs pause with
      | none => s
      | some tracker => { s with tracker, stops := id :: s.stops }
  | .dropStop id =>
      if id ∈ s.stops then
        some { s with tracker := s.tracker.dropStop id, stops := s.stops.erase id }
      else none
  | .remove id =>
      if id ∈ s.stops then none else some { s with tracker := s.tracker.remove id }

/-- One call that is accepted. -/
def Step (s : Activity) (a : ActivityAction) (s' : Activity) : Prop := s.step a = some s'

/-- The run holds the id. -/
def Holds (s : Activity) (id run : String) (epoch : ℤ) : Prop :=
  ∃ runs ∈ s.tracker.managedRuns id, (run, epoch) ∈ runs

/-- What the tracker knows of the guards of one id. -/
def Counted (s : Activity) (id : String) : Prop :=
  match s.tracker.inflight id with
  | none => ∀ g ∈ s.flights, g.id ≠ id
  | some (generation, n) =>
      0 < n ∧ n = s.flights.countP (fun g => g.id = id) ∧
        ∀ g ∈ s.flights, g.id = id → g.generation = generation

/-- What the operations keep true. -/
structure Sound (s : Activity) : Prop where
  counted : ∀ id, s.Counted id
  nodup : s.stops.Nodup
  stops : ∀ id, id ∈ s.stops ↔ s.tracker.stopping id = true
  exclusive : ∀ id, s.tracker.stopping id = true →
    s.tracker.inflight id = none ∧ s.tracker.managedRuns id = none

variable {s s' : Activity} {a : ActivityAction} {id run : String} {epoch : ℤ}

/-- The count of a sandbox is the number of its guards. -/
theorem Counted.count_eq (h : s.Counted id) :
    s.tracker.count id = s.flights.countP (fun g => g.id = id) := by
  unfold Counted at h
  unfold Tracker.count
  split at h
  · rename_i hnone
    rw [hnone]
    refine (List.countP_eq_zero.mpr fun g hg => ?_).symm
    simpa using h g hg
  · rename_i generation n hsome
    rw [hsome]
    exact h.2.1

theorem Counted.congr {t : Tracker} (h : s.Counted id)
    (hin : t.inflight id = s.tracker.inflight id) : Counted { s with tracker := t } id := by
  unfold Counted at h ⊢
  rw [hin]
  exact h

/-- The guards of another id play no part. -/
theorem Counted.frame {t : Tracker} {flights : List InFlight} (h : s.Counted id)
    (hin : t.inflight id = s.tracker.inflight id)
    (hcount : flights.countP (fun g => g.id = id) = s.flights.countP (fun g => g.id = id))
    (hmem : ∀ g ∈ flights, g.id = id → g ∈ s.flights) :
    Counted { s with tracker := t, flights } id := by
  unfold Counted at h ⊢
  rw [hin]
  split
  · rename_i hnone
    rw [hnone] at h
    exact fun g hg hid => h g (hmem g hg hid) hid
  · rename_i generation n hsome
    rw [hsome] at h
    exact ⟨h.1, h.2.1.trans hcount.symm, fun g hg hid => h.2.2 g (hmem g hg hid) hid⟩

namespace Sound

/-- An operation that touches neither guards nor transitions. -/
theorem retrack {t : Tracker} (h : s.Sound) (hin : t.inflight = s.tracker.inflight)
    (hstop : t.stopping = s.tracker.stopping)
    (hruns : ∀ id, s.tracker.stopping id = true → t.managedRuns id = none) :
    Sound { s with tracker := t } where
  counted id := (h.counted id).congr (congrFun hin id)
  nodup := h.nodup
  stops id := by
    rw [h.stops id]
    exact (congrArg (· = true) (congrFun hstop id)).symm ▸ Iff.rfl
  exclusive id hid := by
    have hid : s.tracker.stopping id = true := congrFun hstop id ▸ hid
    exact ⟨(congrFun hin id).trans (h.exclusive id hid).1, hruns id hid⟩

/-- A managed run changes no count. -/
theorem setManagedRun (h : s.Sound) {now : ℕ} :
    Sound { s with tracker := (s.tracker.setManagedRun id run epoch now).2 } := by
  unfold Tracker.setManagedRun
  split
  · exact h
  · rename_i hstop
    refine h.retrack rfl rfl fun other hother => ?_
    have hne : other ≠ id := fun heq => hstop (heq ▸ hother)
    exact (Function.update_of_ne hne _ _).trans (h.exclusive other hother).2

/-- Neither does a cooldown. -/
theorem cooldownAt (h : s.Sound) {t : Tracker} {finishedAt : ℕ}
    (ht : Sound { s with tracker := t }) :
    Sound { s with tracker := t.cooldownAt id finishedAt } :=
  ⟨fun other => (ht.counted other).congr rfl, h.nodup, ht.stops, ht.exclusive⟩

theorem update_none (h : s.Sound) {other : String} (hother : s.tracker.stopping other = true) :
    Function.update s.tracker.managedRuns id none other = none := by
  by_cases heq : other = id
  · rw [heq, Function.update_self]
  · rw [Function.update_of_ne heq]
    exact (h.exclusive other hother).2

/-- A finish ends the run of its own epoch only. -/
theorem finishManagedRun (h : s.Sound) {finishedAt : ℕ} :
    Sound { s with tracker := (s.tracker.finishManagedRun id run epoch finishedAt).2 } := by
  unfold Tracker.finishManagedRun
  split
  · exact h
  rename_i runs hruns
  split
  · exact h
  dsimp only
  split
  · refine h.retrack rfl rfl fun other hother => ?_
    have hnone := (h.exclusive other hother).2
    have hne : other ≠ id := fun heq => by rw [heq, hruns] at hnone; cases hnone
    exact (Function.update_of_ne hne _ _).trans hnone
  · exact h.cooldownAt (h.retrack rfl rfl fun other hother => h.update_none hother)

/-- A sandbox may be forgotten while it is not stopping. -/
theorem remove (h : s.Sound) (hid : id ∉ s.stops) :
    Sound { s with tracker := s.tracker.remove id } where
  counted other := (h.counted other).congr rfl
  nodup := h.nodup
  stops other := by
    rw [h.stops other]
    change _ ↔ Function.update s.tracker.stopping id false other = true
    by_cases heq : other = id
    · rw [heq, Function.update_self]
      simpa [h.stops id] using hid
    · rw [Function.update_of_ne heq]
  exclusive other hother := by
    have hstop : s.tracker.stopping other = true := by
      change Function.update s.tracker.stopping id false other = true at hother
      by_cases heq : other = id
      · rw [heq, Function.update_self] at hother
        cases hother
      · rwa [Function.update_of_ne heq] at hother
    exact ⟨(h.exclusive other hstop).1, h.update_none hstop⟩

/-- The guard of new guest work is counted. -/
theorem begin (h : s.Sound) {g : InFlight} {t : Tracker}
    (hbegin : s.tracker.begin id = some (g, t)) :
    Sound { s with tracker := t, flights := g :: s.flights } := by
  unfold Tracker.begin at hbegin
  split at hbegin
  · cases hbegin
  rename_i hfree
  obtain ⟨rfl, rfl⟩ := Prod.mk.inj (Option.some.inj hbegin)
  refine ⟨fun other => ?_, h.nodup, h.stops, fun other hother => ?_⟩
  · by_cases heq : other = id
    · subst heq
      have hcounted := h.counted other
      unfold Counted at hcounted ⊢
      dsimp only
      rw [Function.update_self]
      cases hin : s.tracker.inflight other with
      | none =>
        rw [hin] at hcounted
        have hzero : s.flights.countP (fun g => g.id = other) = 0 :=
          List.countP_eq_zero.mpr fun g hg => by simpa using hcounted g hg
        refine ⟨by simp, by simp [hzero], fun g hg hid => ?_⟩
        obtain rfl | hg := List.mem_cons.mp hg
        · rfl
        · exact absurd hid (hcounted g hg)
      | some pair =>
        obtain ⟨generation, n⟩ := pair
        rw [hin] at hcounted
        refine ⟨by simp, by simp [hcounted.2.1], fun g hg hid => ?_⟩
        obtain rfl | hg := List.mem_cons.mp hg
        · rfl
        · exact hcounted.2.2 g hg hid
    · refine (h.counted other).frame (Function.update_of_ne heq _ _) ?_ fun g hg hid => ?_
      · have hne : ¬ id = other := fun hid => heq hid.symm
        simp [hne]
      · obtain rfl | hg := List.mem_cons.mp hg
        · exact absurd hid.symm heq
        · exact hg
  · have hne : other ≠ id := fun heq => hfree (.inl (heq ▸ hother))
    obtain ⟨hin, hruns⟩ := h.exclusive other hother
    exact ⟨(Function.update_of_ne hne _ _).trans hin, hruns⟩

/-- What the drop of an outstanding guard does: its id loses one of its guards. -/
theorem dropFlight_inflight (h : s.Sound) {g : InFlight} (hg : g ∈ s.flights) (now : ℕ) :
    ∃ n, s.tracker.inflight g.id = some (g.generation, n) ∧
      (s.tracker.dropFlight g now).inflight = Function.update s.tracker.inflight g.id
        (if n - 1 = 0 then none else some (g.generation, n - 1)) ∧
      (s.tracker.dropFlight g now).stopping = s.tracker.stopping ∧
      (s.tracker.dropFlight g now).managedRuns = s.tracker.managedRuns := by
  have hcounted := h.counted g.id
  unfold Counted at hcounted
  split at hcounted
  · exact absurd rfl (hcounted g hg)
  rename_i generation n hin
  obtain rfl : g.generation = generation := hcounted.2.2 g hg rfl
  refine ⟨n, hin, ?_⟩
  unfold Tracker.dropFlight
  rw [hin]
  simp only [ne_eq, not_true_eq_false, if_false]
  split
  · split
    · exact ⟨rfl, rfl, rfl⟩
    · exact ⟨rfl, rfl, rfl⟩
  · exact ⟨rfl, rfl, rfl⟩

/-- A dropped guard is subtracted once. -/
theorem dropFlight (h : s.Sound) {g : InFlight} (hg : g ∈ s.flights) {now : ℕ} :
    Sound { s with tracker := s.tracker.dropFlight g now, flights := s.flights.erase g } := by
  obtain ⟨n, hin, hin', hstop, hruns⟩ := h.dropFlight_inflight hg now
  refine ⟨fun other => ?_, h.nodup, ?_, fun other hother => ?_⟩
  · have herase : (s.flights.erase g).countP (fun g => g.id = other) =
        s.flights.countP (fun g => g.id = other) - if g.id = other then 1 else 0 := by
      rw [List.countP_erase]
      simp [hg]
    by_cases heq : other = g.id
    · subst heq
      have hcounted := h.counted g.id
      unfold Counted at hcounted ⊢
      dsimp only
      rw [hin']
      rw [hin] at hcounted
      obtain ⟨hpos, hcount, hgen⟩ := hcounted
      rw [if_pos rfl, ← hcount] at herase
      rw [Function.update_self]
      by_cases hlast : n - 1 = 0
      · rw [if_pos hlast]
        intro g' hg' hid
        rw [hlast, List.countP_eq_zero] at herase
        exact herase g' hg' (by simpa using hid)
      · rw [if_neg hlast]
        exact ⟨by omega, herase.symm, fun g' hg' => hgen g' (List.mem_of_mem_erase hg')⟩
    · have hne : ¬ g.id = other := fun hid => heq hid.symm
      refine (h.counted other).frame ?_ ?_ fun g' hg' _ => List.mem_of_mem_erase hg'
      · rw [hin', Function.update_of_ne heq]
      · rw [herase, if_neg hne, Nat.sub_zero]
  · intro id
    rw [hstop]
    exact h.stops id
  · rw [hstop] at hother
    obtain ⟨hnone, hruns'⟩ := h.exclusive other hother
    refine ⟨?_, (congrFun hruns other).trans hruns'⟩
    have hne : other ≠ g.id := fun heq => by rw [heq, hin] at hnone; cases hnone
    rw [hin', Function.update_of_ne hne]
    exact hnone

/-- What a transition has found when it commits. -/
theorem commits {t t' : Tracker} {now secs : ℕ} {pause : Bool}
    (h : t.beginIdleTransition id now secs pause = some t') :
    t' = { t with stopping := Function.update t.stopping id true } ∧ t.stopping id = false ∧
      t.managedRuns id = none ∧ t.count id = 0 ∧ (pause = true → secs = t.pauseAfterSecs) ∧
      ∃ at', t.last id = some at' ∧ t.threshold id secs pause * 10 ^ 9 < now - at' := by
  unfold Tracker.beginIdleTransition at h
  split at h
  · cases h
  rename_i hpause
  split at h
  · cases h
  rename_i hbusy
  push Not at hbusy
  obtain ⟨hstop, hruns, hcount⟩ := hbusy
  split at h
  · cases h
  rename_i at' hlast
  split at h
  · cases h
  rename_i hage
  obtain rfl := Option.some.inj h
  refine ⟨rfl, by simpa using hstop, by simpa using hruns, by omega, fun hp => ?_, at', hlast, ?_⟩
  · by_contra hne
    exact hpause ⟨hp, .inr fun heq => hne heq.symm⟩
  · unfold Tracker.secondsSince at hage
    omega

/-- A transition begins only without guards, runs or another transition. -/
theorem beginIdleTransition (h : s.Sound) {t : Tracker} {now secs : ℕ} {pause : Bool}
    (hcommit : s.tracker.beginIdleTransition id now secs pause = some t) :
    Sound { s with tracker := t, stops := id :: s.stops } := by
  obtain ⟨rfl, hstop, hruns, hcount, _⟩ := commits hcommit
  have hfree : id ∉ s.stops := by
    rw [h.stops id, hstop]
    simp
  refine ⟨fun other => (h.counted other).congr rfl, List.nodup_cons.mpr ⟨hfree, h.nodup⟩, ?_, ?_⟩
  · intro other
    rw [List.mem_cons, h.stops other]
    change _ ↔ Function.update s.tracker.stopping id true other = true
    by_cases heq : other = id
    · rw [heq, Function.update_self]
      simp
    · rw [Function.update_of_ne heq]
      exact or_iff_right heq
  · intro other hother
    by_cases heq : other = id
    · subst heq
      refine ⟨?_, hruns⟩
      have hcounted := h.counted other
      unfold Counted at hcounted
      unfold Tracker.count at hcount
      cases hin : s.tracker.inflight other with
      | none => rfl
      | some pair =>
        rw [hin] at hcounted hcount
        exact absurd hcount hcounted.1.ne'
    · have hother : Function.update s.tracker.stopping id true other = true := hother
      rw [Function.update_of_ne heq] at hother
      exact h.exclusive other hother

/-- The end of a transition lets new work in. -/
theorem dropStop (h : s.Sound) :
    Sound { s with tracker := s.tracker.dropStop id, stops := s.stops.erase id } where
  counted other := (h.counted other).congr rfl
  nodup := h.nodup.erase id
  stops other := by
    rw [h.nodup.mem_erase_iff, h.stops other]
    change _ ↔ Function.update s.tracker.stopping id false other = true
    by_cases heq : other = id
    · rw [heq, Function.update_self]
      simp
    · rw [Function.update_of_ne heq]
      exact and_iff_right heq
  exclusive other hother := by
    have hother : Function.update s.tracker.stopping id false other = true := hother
    by_cases heq : other = id
    · rw [heq, Function.update_self] at hother
      cases hother
    · rw [Function.update_of_ne heq] at hother
      exact h.exclusive other hother

/-- Every step keeps the invariant. -/
theorem step (h : s.Sound) (hs : s.Step a s') : s'.Sound := by
  cases a with
  | begin id =>
    obtain rfl := Option.some.inj hs
    split
    · exact h
    · rename_i g t hbegin
      exact h.begin hbegin
  | dropFlight g now =>
    simp only [Step, Activity.step] at hs
    split at hs
    · rename_i hg
      obtain rfl := Option.some.inj hs
      exact h.dropFlight hg
    · cases hs
  | setManagedRun id run epoch now =>
    obtain rfl := Option.some.inj hs
    exact h.setManagedRun
  | finishManagedRun id run epoch finishedAt =>
    obtain rfl := Option.some.inj hs
    exact h.finishManagedRun
  | restoreManagedCooldown id finishedAt =>
    obtain rfl := Option.some.inj hs
    unfold Tracker.restoreManagedCooldown
    split
    · exact h
    · exact h.cooldownAt h
  | touchAt id at' =>
    obtain rfl := Option.some.inj hs
    unfold Tracker.touchAt
    split
    · exact h
    · exact h.retrack rfl rfl fun other hother => (h.exclusive other hother).2
  | setPauseAfterSecs secs =>
    obtain rfl := Option.some.inj hs
    exact h.retrack rfl rfl fun other hother => (h.exclusive other hother).2
  | setIdlePolicy policy =>
    obtain rfl := Option.some.inj hs
    exact h.retrack rfl rfl fun other hother => (h.exclusive other hother).2
  | beginIdleTransition id now secs pause =>
    obtain rfl := Option.some.inj hs
    split
    · exact h
    · rename_i t hcommit
      exact h.beginIdleTransition hcommit
  | dropStop id =>
    simp only [Step, Activity.step] at hs
    split at hs
    · obtain rfl := Option.some.inj hs
      exact h.dropStop
    · cases hs
  | remove id =>
    simp only [Step, Activity.step] at hs
    split at hs
    · cases hs
    · rename_i hid
      obtain rfl := Option.some.inj hs
      exact h.remove hid

end Sound

/-- The new tracker is sound. -/
theorem new_sound : new.Sound where
  counted id := by
    intro g hg
    exact absurd hg List.not_mem_nil
  nodup := List.nodup_nil
  stops id := by simp [new, Tracker.new]
  exclusive id hid := ⟨rfl, rfl⟩

/-- A finish releases no hold but the one of the run and the epoch that it names. -/
theorem finish_keeps {t : Tracker} {finishedAt : ℕ} {id' run' : String} {epoch' : ℤ}
    {runs : List (String × ℤ)} (hruns : t.managedRuns id' = some runs)
    (hheld : (run', epoch') ∈ runs) (hother : ¬ (id' = id ∧ run' = run ∧ (run, epoch) ∈ runs)) :
    ∃ rest ∈ (t.finishManagedRun id run epoch finishedAt).2.managedRuns id',
      (run', epoch') ∈ rest := by
  unfold Tracker.finishManagedRun
  split
  · exact ⟨runs, hruns, hheld⟩
  rename_i runs' hruns'
  split
  · exact ⟨runs, hruns, hheld⟩
  rename_i hmem
  have hmem : (run, epoch) ∈ runs' := by simpa using hmem
  dsimp only
  by_cases hid : id' = id
  · subst hid
    obtain rfl : runs = runs' := Option.some.inj (hruns.symm.trans hruns')
    have hkept : (run', epoch') ∈ runs.filter (fun r => r.1 ≠ run) :=
      List.mem_filter.mpr ⟨hheld, decide_eq_true fun hrun => hother ⟨rfl, hrun, hmem⟩⟩
    rw [if_pos (List.ne_nil_of_mem hkept)]
    exact ⟨_, Function.update_self _ _ _, hkept⟩
  · split
    · exact ⟨runs, (Function.update_of_ne hid _ _).trans hruns, hheld⟩
    · exact ⟨runs, (Function.update_of_ne hid _ _).trans hruns, hheld⟩

/-- A run whose admission is accepted holds the id. -/
theorem holds_of_accepted {now : ℕ}
    (hok : (s.tracker.setManagedRun id run epoch now).1 = true) :
    Holds { s with tracker := (s.tracker.setManagedRun id run epoch now).2 } id run epoch := by
  unfold Tracker.setManagedRun at hok ⊢
  split at hok
  · cases hok
  · rename_i hstop
    rw [if_neg hstop]
    exact ⟨_, Function.update_self _ _ _, List.mem_append_right _ List.mem_cons_self⟩

/-- A run is replaced only by its own admission. -/
theorem setManagedRun_keeps {t : Tracker} {now : ℕ} {id' run' : String} {epoch' : ℤ}
    {runs : List (String × ℤ)} (hruns : t.managedRuns id' = some runs)
    (hheld : (run', epoch') ∈ runs) (hother : ¬ (id' = id ∧ run' = run)) :
    ∃ rest ∈ (t.setManagedRun id run epoch now).2.managedRuns id', (run', epoch') ∈ rest := by
  unfold Tracker.setManagedRun
  split
  · exact ⟨runs, hruns, hheld⟩
  dsimp only
  by_cases hid : id' = id
  · subst hid
    refine ⟨_, Function.update_self _ _ _, List.mem_append_left _ ?_⟩
    rw [hruns]
    exact List.mem_filter.mpr ⟨hheld, decide_eq_true fun hrun => hother ⟨rfl, hrun⟩⟩
  · exact ⟨runs, (Function.update_of_ne hid _ _).trans hruns, hheld⟩

/-- Dropping a guard leaves the managed runs alone. -/
theorem dropFlight_managedRuns {t : Tracker} {g : InFlight} {now : ℕ} :
    (t.dropFlight g now).managedRuns = t.managedRuns := by
  unfold Tracker.dropFlight
  split
  · rfl
  split
  · rfl
  dsimp only
  split
  · split
    · rfl
    · rfl
  · rfl

/-- A hold lasts until its run is finished or admitted again, or its id is removed. -/
theorem Step.hold (hs : s.Step a s') (hheld : s.Holds id run epoch) :
    s'.Holds id run epoch ∨ a = .remove id ∨
      (∃ epoch' now, a = .setManagedRun id run epoch' now) ∨
      ∃ epoch' finishedAt, a = .finishManagedRun id run epoch' finishedAt ∧
        s.Holds id run epoch' := by
  obtain ⟨runs, hruns, hmem⟩ := hheld
  have hstay (hsame : s'.tracker.managedRuns = s.tracker.managedRuns) : s'.Holds id run epoch :=
    ⟨runs, (congrFun hsame id).trans hruns, hmem⟩
  cases a with
  | begin other =>
    obtain rfl := Option.some.inj hs
    refine .inl (hstay ?_)
    cases hbegin : s.tracker.begin other with
    | none => rfl
    | some found =>
      unfold Tracker.begin at hbegin
      split at hbegin
      · cases hbegin
      · cases hbegin
        rfl
  | dropFlight g now =>
    simp only [Step, Activity.step] at hs
    split at hs
    · obtain rfl := Option.some.inj hs
      exact .inl (hstay dropFlight_managedRuns)
    · cases hs
  | setManagedRun other run' epoch' now =>
    obtain rfl := Option.some.inj hs
    by_cases hnamed : id = other ∧ run = run'
    · obtain ⟨rfl, rfl⟩ := hnamed
      exact .inr (.inr (.inl ⟨epoch', now, rfl⟩))
    · exact .inl (setManagedRun_keeps hruns hmem hnamed)
  | finishManagedRun other run' epoch' finishedAt =>
    obtain rfl := Option.some.inj hs
    by_cases hnamed : id = other ∧ run = run' ∧ (run', epoch') ∈ runs
    · obtain ⟨rfl, rfl, hfinished⟩ := hnamed
      exact .inr (.inr (.inr ⟨epoch', finishedAt, rfl, runs, hruns, hfinished⟩))
    · exact .inl (finish_keeps hruns hmem hnamed)
  | restoreManagedCooldown other finishedAt =>
    obtain rfl := Option.some.inj hs
    refine .inl (hstay ?_)
    unfold Tracker.restoreManagedCooldown
    split
    · rfl
    · rfl
  | touchAt other at' =>
    obtain rfl := Option.some.inj hs
    refine .inl (hstay ?_)
    unfold Tracker.touchAt
    split
    · rfl
    · rfl
  | setPauseAfterSecs | setIdlePolicy =>
    obtain rfl := Option.some.inj hs
    exact .inl (hstay rfl)
  | beginIdleTransition other now secs pause =>
    obtain rfl := Option.some.inj hs
    refine .inl (hstay ?_)
    cases hcommit : s.tracker.beginIdleTransition other now secs pause with
    | none => rfl
    | some t =>
      obtain ⟨rfl, -⟩ := Sound.commits hcommit
      rfl
  | dropStop other =>
    simp only [Step, Activity.step] at hs
    split at hs
    · obtain rfl := Option.some.inj hs
      exact .inl (hstay rfl)
    · cases hs
  | remove other =>
    simp only [Step, Activity.step] at hs
    split at hs
    · cases hs
    · obtain rfl := Option.some.inj hs
      by_cases hid : id = other
      · exact .inr (.inl (hid ▸ rfl))
      · exact .inl ⟨runs, (Function.update_of_ne hid _ _).trans hruns, hmem⟩

/-- Over whole runs: an outstanding transition coexists neither with guest work nor with a managed
run; a transition commits only on activity older than the threshold in force; a finish releases
only the hold that it names; the tracker counts exactly the outstanding guards, also after each
drop; a run that is accepted holds its id; and it does so until it is finished or admitted again,
or the id is removed. -/
theorem idle_transitions_exclude_guest_work {as : List ActivityAction} {s : Activity}
    (hrun : Trace Step new as s) :
    (∀ id ∈ s.stops, (∀ g ∈ s.flights, g.id ≠ id) ∧ ∀ run epoch, ¬ s.Holds id run epoch) ∧
    (∀ id now secs pause t, s.tracker.beginIdleTransition id now secs pause = some t →
      (pause = true → secs = s.tracker.pauseAfterSecs) ∧
      ∃ at', s.tracker.last id = some at' ∧
        s.tracker.threshold id secs pause * 10 ^ 9 < now - at') ∧
    (∀ id run epoch finishedAt s', s.Step (.finishManagedRun id run epoch finishedAt) s' →
      ∀ id' run' epoch', s.Holds id' run' epoch' →
        s'.Holds id' run' epoch' ∨ id' = id ∧ run' = run ∧ s.Holds id run epoch) ∧
    (∀ id, s.tracker.count id = s.flights.countP (fun g => g.id = id)) ∧
    (∀ g now s', s.Step (.dropFlight g now) s' → ∀ id,
      s'.tracker.count id = s.tracker.count id - if g.id = id then 1 else 0) ∧
    (∀ id run epoch now s', s.Step (.setManagedRun id run epoch now) s' →
      (s.tracker.setManagedRun id run epoch now).1 = true → s'.Holds id run epoch) ∧
    (∀ a s', s.Step a s' → ∀ id run epoch, s.Holds id run epoch → s'.Holds id run epoch ∨
      a = .remove id ∨ (∃ epoch' now, a = .setManagedRun id run epoch' now) ∨
      ∃ epoch' finishedAt, a = .finishManagedRun id run epoch' finishedAt ∧
        s.Holds id run epoch') := by
  have hsound : s.Sound := hrun.invariant new_sound fun hI hstep => hI.step hstep
  refine ⟨fun id hid => ?_, fun id now secs pause t hcommit => ?_, ?_, ?_, ?_, ?_, ?_⟩
  · obtain ⟨hin, hruns⟩ := hsound.exclusive id ((hsound.stops id).mp hid)
    refine ⟨?_, ?_⟩
    · have hcounted := hsound.counted id
      unfold Counted at hcounted
      rwa [hin] at hcounted
    · rintro run epoch ⟨runs, hmem, _⟩
      rw [hruns] at hmem
      cases hmem
  · obtain ⟨_, _, _, _, hpause, hage⟩ := Sound.commits hcommit
    exact ⟨hpause, hage⟩
  · rintro id run epoch finishedAt s' hstep id' run' epoch' ⟨runs, hruns, hheld⟩
    obtain rfl := Option.some.inj hstep
    by_cases hnamed : id' = id ∧ run' = run ∧ (run, epoch) ∈ runs
    · obtain ⟨rfl, rfl, hmem⟩ := hnamed
      exact .inr ⟨rfl, rfl, runs, hruns, hmem⟩
    · exact .inl (finish_keeps hruns hheld hnamed)
  · exact fun id => (hsound.counted id).count_eq
  · intro g now s' hstep id
    have hsound' := hsound.step hstep
    rw [(hsound'.counted id).count_eq, (hsound.counted id).count_eq]
    simp only [Step, Activity.step] at hstep
    split at hstep
    · rename_i hg
      obtain rfl := Option.some.inj hstep
      rw [List.countP_erase]
      simp [hg]
    · cases hstep
  · intro id run epoch now s' hstep hok
    obtain rfl := Option.some.inj hstep
    exact holds_of_accepted hok
  · exact fun a s' hstep id run epoch hheld => hstep.hold hheld

/-- A managed run, guest work that outlives the removal of its id, and a pause. -/
def busyHour : List ActivityAction :=
  [.setManagedRun "vm" "run" 1 0, .begin "vm", .finishManagedRun "vm" "run" 0 5,
    .finishManagedRun "vm" "run" 1 5, .remove "vm", .dropFlight ⟨"vm", 1⟩ 7, .touchAt "vm" 7,
    .setPauseAfterSecs 2, .beginIdleTransition "vm" 3000000007 2 true]

theorem idle_transitions_exclude_guest_work_busyHour :
    ∃ s, Trace Step new busyHour s ∧ s.stops = ["vm"] ∧ ∀ g ∈ s.flights, g.id ≠ "vm" := by
  have hrun : Trace Step new busyHour _ := Trace.of_foldlM rfl
  obtain ⟨hstops, _⟩ := idle_transitions_exclude_guest_work hrun
  exact ⟨_, hrun, rfl, (hstops "vm" (List.mem_singleton_self _)).1⟩

end Activity

end AgentHouse.Daemon
