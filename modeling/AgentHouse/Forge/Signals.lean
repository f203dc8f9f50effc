import AgentHouse.Forge.Manager
import AgentHouse.Lib.Traces
import Mathlib.Tactic.Common

/-!
# Whom a SIGKILL hits

`reap_session` takes the group before it waits for the process, and `kill` and `delete` signal
only what they find under the lifecycle lock. So a number that was given out again is never
signalled: a SIGKILL hits the process of the session it is meant for.
-/

namespace AgentHouse.Forge.Manager

/-- The reaper has not taken the group yet. -/
def Reaping.early : Reaping → Bool
  | .watching | .observed _ => true
  | _ => false

/-- What the place of the reaper says of the process and of the lifecycle. -/
def Child.Ok (c : Child) (pgid : Option ℕ) (exit : Option ℤ) : Prop :=
  match c.reaper with
  | .watching | .observed _ =>
      c.reaped = false ∧ (∀ p, pgid = some p → p = c.pid) ∧ (exit ≠ none → pgid = none)
  | .signalling signal _ => c.reaped = false ∧ pgid = none ∧ ∀ p, signal = some p → p = c.pid
  | .waiting _ => c.reaped = false ∧ pgid = none
  | .polling _ _ | .closing | .ended => pgid = none

variable {s s' : Session} {c c' : Child} {p : ℕ}

theorem Child.Ok.taken {pgid : Option ℕ} {exit exit' : Option ℤ} (h : c.Ok pgid exit) :
    c.Ok none exit' := by
  unfold Child.Ok at h ⊢
  cases hpc : c.reaper <;> simp_all

/-- What the process does by itself changes nothing that is known. -/
theorem Child.Ok.congr {pgid : Option ℕ} {exit : Option ℤ} (h : c.Ok pgid exit)
    (hreaper : c'.reaper = c.reaper) (hreaped : c'.reaped = c.reaped) (hpid : c'.pid = c.pid) :
    c'.Ok pgid exit := by
  unfold Child.Ok at h ⊢
  rw [hreaper, hreaped, hpid]
  exact h

/-- Only `delete` publishes an exit before the reaper has the group, and it takes the group. -/
theorem Child.Ok.gone {pgid : Option ℕ} {exit : Option ℤ} (h : c.Ok pgid exit)
    (hearly : c.reaper.early = true) (hexit : exit ≠ none) : pgid = none := by
  unfold Child.Ok at h
  cases hpc : c.reaper with
  | watching | observed =>
    rw [hpc] at h
    exact h.2.2 hexit
  | _ =>
    rw [hpc] at hearly
    cases hearly

namespace Session

/-- A group that may be signalled is that of a process that is not reaped. -/
def Ok (s : Session) : Prop :=
  match s.child with
  | none => s.pgid = none
  | some c => c.Ok s.pgid s.exit

/-- A session holds the number of a child that has not been reaped. -/
theorem holds_iff : s.holds p = true ↔ ∃ c, s.child = some c ∧ c.pid = p ∧ c.reaped = false := by
  simp [holds, Option.any_eq_true]

/-- The order of a session that has a child. -/
theorem ok_iff (hc : s.child = some c) : s.Ok ↔ c.Ok s.pgid s.exit := by
  simp only [Ok, hc]

theorem setHandle_child (present : Bool) : (s.setHandle present).child = s.child := by
  unfold setHandle
  split <;> rfl

theorem setHandle_exit (present : Bool) : (s.setHandle present).exit = s.exit := by
  unfold setHandle
  split <;> rfl

theorem setHandle_pgid (present : Bool) : (s.setHandle present).pgid = s.pgid := by
  unfold setHandle
  split <;> rfl

theorem setHandle_holds (present : Bool) : (s.setHandle present).holds p = s.holds p := by
  rw [holds, setHandle_child, holds]

/-- A session in order holds the number of its group. -/
theorem Ok.holds (h : s.Ok) (hp : s.pgid = some p) : s.holds p = true := by
  cases hc : s.child with
  | none =>
    rw [Ok, hc] at h
    rw [h] at hp
    cases hp
  | some c =>
    rw [ok_iff hc, Child.Ok] at h
    refine holds_iff.mpr ⟨c, hc, ?_⟩
    split at h
    · exact ⟨(h.2.1 p hp).symm, h.1⟩
    · exact ⟨(h.2.1 p hp).symm, h.1⟩
    · rw [h.2.1] at hp
      cases hp
    · rw [h.2] at hp
      cases hp
    all_goals
      rw [h] at hp
      cases hp

/-- A kill signals that number. -/
theorem Ok.kill (h : s.Ok) {id : String} (hp : (s.kill id).2 = some p) : s.holds p = true := by
  apply h.holds
  unfold Session.kill at hp
  split at hp
  · cases hp
  · split at hp
    · rename_i hpgid
      cases hp
      exact hpgid
    · cases hp

/-- So does a deletion, which gives it up. -/
theorem Ok.delete (h : s.Ok) :
    s.delete.1.Ok ∧ (∀ q, s.delete.1.holds q = true → s.holds q = true) ∧
      ∀ q, s.delete.2 = some q → s.holds q = true := by
  refine ⟨?_, fun q hq => hq, fun q hq => ?_⟩
  · cases hc : s.child with
    | none => simp [Session.delete, Ok, hc]
    | some c =>
      have hc' : s.delete.1.child = some c := hc
      rw [ok_iff hc']
      exact ((ok_iff hc).mp h).taken
  · simp only [Session.delete, Option.ite_none_right_eq_some] at hq
    exact h.holds hq.2

/-- A write leaves the child alone. -/
theorem write_same {i : ℕ} {w w' : Input} {late : Bool} {call : WriteCall}
    (hwrite : s.write i w late call = some (s', w')) :
    s'.child = s.child ∧ s'.pgid = s.pgid ∧ s'.exit = s.exit := by
  unfold Session.write at hwrite
  grind [setHandle_child, setHandle_pgid, setHandle_exit]

theorem Ok.congr (h : s.Ok) (hchild : s'.child = s.child) (hpgid : s'.pgid = s.pgid)
    (hexit : s'.exit = s.exit) : s'.Ok := by
  rw [Ok, hchild, hpgid, hexit]
  exact h

theorem holds_goes (hc : s.child = some c) (reaper : Reaping) :
    (s.goes c reaper).holds p = s.holds p := by
  simp [holds, goes, hc]

theorem no_group (h : none = some p) : s.holds p = true := by cases h

/-- A step of the reaper: the number stays whose it is, and a group that is signalled is that of a
process that is not reaped yet. -/
theorem Ok.reaps (h : s.Ok) {pgid : Option ℕ} (hreap : s.Reaps s' pgid) :
    s'.Ok ∧ (∀ q, s'.holds q = true → s.holds q = true) ∧
      ∀ q, pgid = some q → s.holds q = true := by
  cases hreap with
  | @observe c o hc hpc =>
    refine ⟨?_, fun q hq => holds_goes hc _ ▸ hq, fun q => no_group⟩
    simpa [Ok, Child.Ok, goes, hc, hpc] using h
  | @take c o signal fallback hc hpc hsignal =>
    refine ⟨?_, fun q hq => holds_goes (p := q) hc (.signalling signal fallback) ▸ hq,
      fun q => no_group⟩
    simp only [Ok, Child.Ok, hc, hpc] at h
    simp only [Ok, Child.Ok, goes, h.1, true_and]
    intro q hq
    rcases hsignal with rfl | rfl
    · exact h.2.1 q hq
    · cases hq
  | @signal c _ fallback hc hpc =>
    simp only [Ok, Child.Ok, hc, hpc] at h
    obtain ⟨hreaped, hpgid, hsignal⟩ := h
    refine ⟨?_, fun q hq => holds_goes hc _ ▸ hq, fun q hq => ?_⟩
    · simp [Ok, Child.Ok, goes, hreaped, hpgid]
    · exact holds_iff.mpr ⟨c, hc, (hsignal q hq).symm, hreaped⟩
  | @wait c fallback code reaped hc hpc =>
    simp only [Ok, Child.Ok, hc, hpc] at h
    refine ⟨?_, fun q hq => ?_, fun q => no_group⟩
    · simp [Ok, Child.Ok, goes, h.2]
    · obtain ⟨c', hc', hpid, -⟩ := holds_iff.mp hq
      cases hc'
      exact holds_iff.mpr ⟨c, hc, hpid, h.1⟩
  | @poll c left code hc hpc =>
    refine ⟨?_, fun q hq => holds_goes hc _ ▸ hq, fun q => no_group⟩
    simpa [Ok, Child.Ok, goes, hc, hpc] using h
  | @publish c left code hc hpc =>
    refine ⟨?_, fun q hq => holds_goes (p := q) hc .closing ▸ hq, fun q => no_group⟩
    simpa [Ok, Child.Ok, goes, hc, hpc] using h
  | @close c hc hpc =>
    refine ⟨?_, ?_, fun q => no_group⟩
    · simpa [Ok, Child.Ok, goes, hc, hpc, setHandle_child, setHandle_pgid] using h
    · intro q hq
      rw [setHandle_holds, holds_goes hc] at hq
      exact hq

/-- A reaper that has not taken the group has left the lifecycle as it was. -/
theorem Reaps.early {pgid : Option ℕ} (hreap : s.Reaps s' pgid) (hc' : s'.child = some c')
    (hearly : c'.reaper.early = true) :
    s'.pgid = s.pgid ∧ ∃ c, s.child = some c ∧ c.reaper.early = true ∧ c.pid = c'.pid := by
  cases hreap with
  | @observe c o hc hpc =>
    cases hc'
    exact ⟨rfl, c, hc, by rw [hpc]; rfl, rfl⟩
  | close hc hpc =>
    rw [setHandle_child] at hc'
    cases hc'
    cases hearly
  | _ =>
    cases hc'
    cases hearly

end Session

namespace State

variable {m m' : State} {n : ℕ} {e : Event}

/-- What holds of the processes, their numbers and the signals in every state reached. -/
structure Sound (m : State) : Prop where
  ok : ∀ (n : ℕ) (s : Session), m.objects[n]? = some s → s.Ok
  /-- No number has two owners. -/
  unique : ∀ (n k : ℕ) (s t : Session) (p : ℕ), m.objects[n]? = some s → m.objects[k]? = some t →
    s.holds p = true → t.holds p = true → n = k
  apart : ∀ (n : ℕ) (s : Session) (p : ℕ), m.objects[n]? = some s → s.holds p = true →
    p ∉ m.others
  hits : ∀ x ∈ m.signals, x.hit = some (.leader x.session)
  /-- Only a signal takes the group away from the reaper. -/
  killed : ∀ (n : ℕ) (s : Session) (c : Child), m.objects[n]? = some s → s.child = some c →
    c.reaper.early = true → s.pgid = none → ∃ x ∈ m.signals, x.session = n ∧ x.pgid = c.pid

/-- A free number is held by nobody. -/
theorem holder_eq_none (hfree : m.holder p = none) :
    p ∉ m.others ∧ ∀ (n : ℕ) (s : Session), m.objects[n]? = some s → s.holds p = false := by
  unfold holder at hfree
  split at hfree
  · cases hfree
  · rename_i hothers
    rw [Option.map_eq_none_iff, List.findIdx?_eq_none_iff] at hfree
    exact ⟨hothers, fun n s hs => hfree s (List.mem_of_getElem? hs)⟩

/-- A number that a session holds is the leader's. -/
theorem Sound.holder (h : m.Sound) (hs : m.objects[n]? = some s) (hp : s.holds p = true) :
    m.holder p = some (.leader n) := by
  unfold State.holder
  rw [if_neg (h.apart n s p hs hp)]
  cases hfind : m.objects.findIdx? fun t => t.holds p with
  | none =>
    rw [List.findIdx?_eq_none_iff] at hfind
    rw [hfind s (List.mem_of_getElem? hs)] at hp
    cases hp
  | some k =>
    obtain ⟨hk, hholds, -⟩ := List.findIdx?_eq_some_iff_getElem.mp hfind
    rw [h.unique n k s m.objects[k] p hs (List.getElem?_eq_getElem hk) hp hholds]
    rfl

/-- A signal is an old one or the one just sent. -/
theorem mem_killGroup {x : Signal} {pgid : Option ℕ} (hx : x ∈ m.killGroup n pgid) :
    x ∈ m.signals ∨ ∃ p, pgid = some p ∧ x = ⟨n, p, m.holder p⟩ := by
  rcases List.mem_append.mp hx with hx | hx
  · exact .inl hx
  · obtain ⟨p, hp, rfl⟩ := List.mem_map.mp hx
    exact .inr ⟨p, Option.mem_toList.mp hp, rfl⟩

theorem mem_killGroup_of_mem {x : Signal} {pgid : Option ℕ} (hx : x ∈ m.signals) :
    x ∈ m.killGroup n pgid :=
  List.mem_append_left _ hx

/-- A signal for a group that is known to be its session's hits the session's process. -/
theorem Sound.hits_killGroup (h : m.Sound) {pgid : Option ℕ} (hs : m.objects[n]? = some s)
    (hpgid : ∀ q, pgid = some q → s.holds q = true) :
    ∀ x ∈ m.killGroup n pgid, x.hit = some (.leader x.session) := by
  intro x hx
  rcases mem_killGroup hx with hx | ⟨p, hp, rfl⟩
  · exact h.hits x hx
  · exact h.holder hs (hpgid p hp)

/-- One session changes: it holds no new number, and signals are added only for its own group. -/
theorem Sound.set (h : m.Sound) (hs : m.objects[n]? = some s) (hok : s'.Ok)
    (hholds : ∀ q, s'.holds q = true → s.holds q = true) {pgid : Option ℕ}
    (hpgid : ∀ q, pgid = some q → s.holds q = true)
    (hkilled : ∀ c, s'.child = some c → c.reaper.early = true → s'.pgid = none →
      ∃ x ∈ m.killGroup n pgid, x.session = n ∧ x.pgid = c.pid)
    (hobjects : m'.objects = m.objects.set n s') (hothers : m'.others = m.others)
    (hsignals : m'.signals = m.killGroup n pgid) : m'.Sound := by
  -- Each session of the new state holds no more than its predecessor.
  have hback : ∀ (k : ℕ) (t : Session), m'.objects[k]? = some t →
      ∃ u, m.objects[k]? = some u ∧ ∀ q, t.holds q = true → u.holds q = true := by
    intro k t ht
    rw [hobjects] at ht
    rcases Table.getElem?_replaced ht with ⟨rfl, rfl⟩ | ⟨-, ht⟩
    · exact ⟨s, hs, hholds⟩
    · exact ⟨t, ht, fun q hq => hq⟩
  constructor
  · intro k t ht
    rw [hobjects] at ht
    rcases Table.getElem?_replaced ht with ⟨rfl, rfl⟩ | ⟨-, ht⟩
    · exact hok
    · exact h.ok k t ht
  · intro k l t u p ht hu htp hup
    obtain ⟨t', ht', hheld⟩ := hback k t ht
    obtain ⟨u', hu', hheld'⟩ := hback l u hu
    exact h.unique k l t' u' p ht' hu' (hheld p htp) (hheld' p hup)
  · intro k t p ht htp
    obtain ⟨t', ht', hheld⟩ := hback k t ht
    rw [hothers]
    exact h.apart k t' p ht' (hheld p htp)
  · rw [hsignals]
    exact h.hits_killGroup hs hpgid
  · intro k t c ht hc hearly hnone
    rw [hobjects] at ht
    rw [hsignals]
    rcases Table.getElem?_replaced ht with ⟨rfl, rfl⟩ | ⟨-, ht⟩
    · exact hkilled c hc hearly hnone
    · obtain ⟨x, hx, hsession⟩ := h.killed k t c ht hc hearly hnone
      exact ⟨x, mem_killGroup_of_mem hx, hsession⟩

/-- A step that leaves the lifecycle and the process of a session alone. -/
theorem Sound.congr (h : m.Sound) (hs : m.objects[n]? = some s)
    (hobjects : m'.objects = m.objects.set n s') (hchild : s'.child = s.child)
    (hpgid : s'.pgid = s.pgid) (hexit : s'.exit = s.exit) (hothers : m'.others = m.others)
    (hsignals : m'.signals = m.signals) : m'.Sound := by
  refine h.set hs ((h.ok n s hs).congr hchild hpgid hexit) (fun q hq => ?_)
    (fun q => Session.no_group)
    (fun c hc hearly hnone => ?_) hobjects hothers (by rw [hsignals, killGroup]; simp)
  · rwa [Session.holds, hchild] at hq
  · rw [hchild] at hc
    rw [hpgid] at hnone
    obtain ⟨x, hx, hsession⟩ := h.killed n s c hs hc hearly hnone
    exact ⟨x, mem_killGroup_of_mem hx, hsession⟩

/-- The process of a session does something by itself. -/
theorem Sound.child (h : m.Sound) (hs : m.objects[n]? = some s) (hc : s.child = some c)
    (hobjects : m'.objects = m.objects.set n { s with child := some c' })
    (hreaper : c'.reaper = c.reaper) (hreaped : c'.reaped = c.reaped) (hpid : c'.pid = c.pid)
    (hothers : m'.others = m.others) (hsignals : m'.signals = m.signals) : m'.Sound := by
  have hlife : c.Ok s.pgid s.exit := (Session.ok_iff hc).mp (h.ok n s hs)
  have hok : Session.Ok { s with child := some c' } := hlife.congr hreaper hreaped hpid
  refine h.set hs hok (fun q hq => ?_) (fun q => Session.no_group)
    (fun d hd hearly hnone => ?_) hobjects hothers (by rw [hsignals, killGroup]; simp)
  · obtain ⟨d, hd, hq⟩ := Session.holds_iff.mp hq
    cases hd
    rw [hpid, hreaped] at hq
    exact Session.holds_iff.mpr ⟨c, hc, hq⟩
  · cases hd
    rw [hreaper] at hearly
    obtain ⟨x, hx, hsession⟩ := h.killed n s c hs hc hearly hnone
    rw [hpid]
    exact ⟨x, mem_killGroup_of_mem hx, hsession⟩

/-- A session that holds no number that is taken. -/
theorem Sound.append (h : m.Sound) (hok : s.Ok)
    (hfree : ∀ q, s.holds q = true → m.holder q = none)
    (hgroup : ∀ c, s.child = some c → s.pgid ≠ none)
    (hobjects : m'.objects = m.objects ++ [s]) (hothers : m'.others = m.others)
    (hsignals : m'.signals = m.signals) : m'.Sound := by
  have hcases : ∀ (k : ℕ) (t : Session), m'.objects[k]? = some t →
      m.objects[k]? = some t ∨ k = m.objects.length ∧ t = s := by
    intro k t ht
    rw [hobjects] at ht
    exact Table.getElem?_snoc ht
  have hno : ∀ (k : ℕ) (t : Session) (q : ℕ), m.objects[k]? = some t → t.holds q = true →
      s.holds q = true → False := by
    intro k t q ht htq hsq
    have hheld := (holder_eq_none (hfree q hsq)).2 k t ht
    rw [htq] at hheld
    cases hheld
  constructor
  · intro k t ht
    rcases hcases k t ht with ht | ⟨-, rfl⟩
    · exact h.ok k t ht
    · exact hok
  · intro k l t u p ht hu htp hup
    rcases hcases k t ht with ht | ⟨rfl, rfl⟩
    · rcases hcases l u hu with hu | ⟨rfl, rfl⟩
      · exact h.unique k l t u p ht hu htp hup
      · exact (hno k t p ht htp hup).elim
    · rcases hcases l u hu with hu | ⟨rfl, rfl⟩
      · exact (hno l u p hu hup htp).elim
      · rfl
  · intro k t p ht htp
    rw [hothers]
    rcases hcases k t ht with ht | ⟨-, rfl⟩
    · exact h.apart k t p ht htp
    · exact (holder_eq_none (hfree p htp)).1
  · rw [hsignals]
    exact h.hits
  · intro k t c ht hc hearly hnone
    rw [hsignals]
    rcases hcases k t ht with ht | ⟨-, rfl⟩
    · exact h.killed k t c ht hc hearly hnone
    · exact (hgroup c hc hnone).elim

/-- A step that changes neither the sessions nor the numbers. -/
theorem Sound.same (h : m.Sound) (hobjects : m'.objects = m.objects)
    (hothers : ∀ p, p ∈ m'.others → p ∈ m.others) (hsignals : m'.signals = m.signals) :
    m'.Sound := by
  constructor
  · rw [hobjects]
    exact h.ok
  · rw [hobjects]
    exact h.unique
  · rw [hobjects]
    exact fun k t p ht htp hp => h.apart k t p ht htp (hothers p hp)
  · rw [hsignals]
    exact h.hits
  · rw [hobjects, hsignals]
    exact h.killed

/-- Every step keeps the invariant. -/
theorem Sound.step (h : m.Sound) (hstep : m.Step e m') : m'.Sound := by
  cases hstep.does with
  | create | search | look | spawnFails | list | unlist | kill | delete | input =>
    exact h.same rfl (fun p hp => hp) rfl
  | @reserve i c now hc hpc hready =>
    exact h.append (s := { id := c.id, argv := c.argv, startedAt := now, isPty := c.pty }) rfl
      (by simp [Session.holds]) nofun rfl rfl rfl
  | @spawn i pid c now hc hpc hfree =>
    refine h.append (s := spawned c pid now) ?_ (fun q hq => ?_) (fun _ _ => ?_) rfl rfl rfl
    · simp [Session.Ok, Child.Ok, spawned]
    · obtain ⟨d, hd, hpid, -⟩ := Session.holds_iff.mp hq
      cases hd
      exact hpid ▸ hfree
    · simp [spawned]
  | @killing i k s hk hs hresult =>
    have hkill : ∀ q, (s.kill k.id).2 = some q → s.holds q = true :=
      fun q hq => (h.ok _ s hs).kill hq
    refine ⟨h.ok, h.unique, h.apart, h.hits_killGroup hs hkill, fun n t c ht hc hearly hnone => ?_⟩
    obtain ⟨x, hx, hsession⟩ := h.killed n t c ht hc hearly hnone
    exact ⟨x, mem_killGroup_of_mem hx, hsession⟩
  | @deleting i d s hd hs hpc =>
    obtain ⟨hok, hholds, hsignal⟩ := (h.ok _ s hs).delete
    refine h.set hs hok hholds hsignal (fun c hc hearly _ => ?_) rfl rfl rfl
    have hc' : s.child = some c := hc
    have hlife := (Session.ok_iff hc').mp (h.ok _ s hs)
    -- The group is gone already, or it is signalled now.
    cases hgroup : s.pgid with
    | none =>
      obtain ⟨x, hx, hsession⟩ := h.killed _ s c hs hc' hearly hgroup
      exact ⟨x, mem_killGroup_of_mem hx, hsession⟩
    | some p =>
      have hheld := (h.ok _ s hs).holds hgroup
      obtain ⟨c₁, hc₁, hpid, -⟩ := Session.holds_iff.mp hheld
      have hsame : c₁ = c := Option.some.inj (hc₁.symm.trans hc')
      have hexit : s.exit = none := by
        by_contra hexit
        have hgone := hlife.gone hearly hexit
        rw [hgroup] at hgone
        cases hgone
      refine ⟨⟨d.session, p, m.holder p⟩, List.mem_append_right _ ?_, rfl, ?_⟩
      · simp [Session.delete, hexit, hgroup]
      · exact hpid.symm.trans (congrArg Child.pid hsame)
  | @closing i d s s' pc hd hs hs' =>
    rcases hs' with ⟨-, -, rfl⟩ | ⟨-, -, rfl⟩
    · exact h.congr hs rfl rfl rfl rfl rfl rfl
    · exact h.congr hs rfl rfl rfl rfl rfl rfl
  | @write i late call w w' s s' hw hs hwrite =>
    obtain ⟨hchild, hpgid, hexit⟩ := Session.write_same hwrite
    exact h.congr hs rfl hchild hpgid hexit rfl rfl
  | @reap n failed s s' pgid hs hreap =>
    obtain ⟨hok, hholds, hsignal⟩ := (h.ok n s hs).reaps hreap
    refine h.set hs hok hholds hsignal (fun c' hc' hearly hnone => ?_) rfl rfl rfl
    obtain ⟨hpgid, c, hc, hearly, hpid⟩ := hreap.early hc' hearly
    obtain ⟨x, hx, hsession⟩ := h.killed n s c hs hc hearly (hpgid ▸ hnone)
    rw [← hpid]
    exact ⟨x, mem_killGroup_of_mem hx, hsession⟩
  | @exit n e s c hs hc hstatus => exact h.child hs hc rfl rfl rfl rfl rfl rfl
  | @pumpEnd n s c hs hc hpumps => exact h.child hs hc rfl rfl rfl rfl rfl rfl
  | @other pid hfree =>
    refine ⟨h.ok, h.unique, fun n s p hs hp hmem => ?_, h.hits, h.killed⟩
    rcases List.mem_cons.mp hmem with rfl | hmem
    · have hheld := (holder_eq_none hfree).2 n s hs
      rw [hp] at hheld
      cases hheld
    · exact h.apart n s p hs hp hmem
  | otherEnds => exact h.same rfl (fun p hp => List.mem_of_mem_erase hp) rfl

/-- The empty registry is sound. -/
theorem sound_start (agent : ℕ) : (start agent).Sound := by
  constructor
  · exact fun n s hs => by simp [start] at hs
  · exact fun n k s t p hs => by simp [start] at hs
  · exact fun n s p hs => by simp [start] at hs
  · exact fun x hx => by simp [start] at hx
  · exact fun n s c hs => by simp [start] at hs

/-- By induction on the run, so is every reachable one. -/
theorem sound_of_trace {agent : ℕ} {es : List Event} (h : Trace Step (start agent) es m) :
    m.Sound :=
  h.invariant (sound_start agent) Sound.step

/-- In every run, each SIGKILL hits the process of the session it is sent for, which is not reaped
then, although other processes may get its number at any time after; and a session that counts as
completed before its reaper has taken the group was sent one. -/
theorem signals_hit_leaders {agent : ℕ} {es : List Event} (h : Trace Step (start agent) es m) :
    (∀ x ∈ m.signals, x.hit = some (.leader x.session)) ∧
    (∀ (n p : ℕ), m.holder p = some (.leader n) ↔
      ∃ s, m.objects[n]? = some s ∧ s.holds p = true) ∧
    (∀ (n : ℕ) (s : Session) (c : Child), m.objects[n]? = some s → s.child = some c →
      s.exit ≠ none → c.reaper.early = true → ∃ x ∈ m.signals, x.session = n ∧ x.pgid = c.pid) := by
  have hsound := sound_of_trace h
  refine ⟨hsound.hits, fun n p => ⟨fun hholder => ?_, fun hheld => ?_⟩,
    fun n s c hs hc hexit hearly => ?_⟩
  · unfold holder at hholder
    split at hholder
    · cases hholder
    · obtain ⟨k, hk, hkn⟩ := Option.map_eq_some_iff.mp hholder
      cases hkn
      obtain ⟨hlt, hholds, -⟩ := List.findIdx?_eq_some_iff_getElem.mp hk
      exact ⟨m.objects[n], List.getElem?_eq_getElem hlt, hholds⟩
  · obtain ⟨s, hs, hp⟩ := hheld
    exact hsound.holder hs hp
  · have hlife := (Session.ok_iff hc).mp (hsound.ok n s hs)
    exact hsound.killed n s c hs hc hearly (hlife.gone hearly hexit)

/-- A process ends and is reaped, another one gets its number, and only then comes the kill. -/
def lateKill : List Event :=
  [.create ["sleep"] false, .reserve 0 5, .spawn 0 7 6, .list 0, .kill (sessionId 1 1),
    .exit 1 (.exited 0), .reap 1 false, .reap 1 false, .reap 1 false, .reap 1 false, .other 7,
    .killing 0]

theorem signals_hit_leaders_late : ∃ m, Trace Step (start 1) lateKill m ∧
    m.signals = [⟨1, 7, some (.leader 1)⟩] ∧ m.holder 7 = some .other ∧
    m.kills.map Kill.result = [some (.error "session s-1-1 already reaped")] ∧
    ∀ x ∈ m.signals, x.hit = some (.leader x.session) := by
  have hrun : (lateKill.foldlM next (start 1)).any (fun m =>
      m.signals = [⟨1, 7, some (.leader 1)⟩] ∧ m.holder 7 = some .other ∧
      m.kills.map Kill.result = [some (.error "session s-1-1 already reaped")]) = true := by
    decide +kernel
  obtain ⟨m, hm, hend⟩ := (Option.any_eq_true _ _).mp hrun
  obtain ⟨hsignals, hholder, hkills⟩ := of_decide_eq_true hend
  have htrace : Trace Step (start 1) lateKill m := Trace.of_foldlM hm
  exact ⟨m, htrace, hsignals, hholder, hkills, (signals_hit_leaders htrace).1⟩

end State

end AgentHouse.Forge.Manager
