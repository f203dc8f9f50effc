import AgentHouse.Lib.Outcomes
import AgentHouse.Lib.Triples

/-!
# Pools of programs

Several programs run over one state. Their actions interleave in any order, an action may start
further programs, and the world moves by itself. Each program is verified alone, against what the
others may do to the state. If all of them perform allowed actions only, what the allowed
actions keep holds in every state that is reached.
-/

namespace AgentHouse

/-- Programs that share a state. -/
structure Pool (A : Type → Type 1) (S : Type) where
  /-- What the world does by itself. -/
  env : S → S → Prop
  eff : {β : Type} → A β → S → β → S → Prop
  /-- The programs that an action starts. -/
  starts : {β : Type} → A β → β → List (Prog A Unit)
  /-- The programs that may begin. -/
  begins : S → Prog A Unit → Prop

namespace Pool

variable {A : Type → Type 1} {S : Type} (M : Pool A S)

/-- The world moves, or a program begins, acts or ends. -/
inductive Step : S × List (Prog A Unit) → S × List (Prog A Unit) → Prop
  | env {s s' : S} {ps : List (Prog A Unit)} (h : M.env s s') : Step (s, ps) (s', ps)
  | begins {s : S} {ps : List (Prog A Unit)} {p : Prog A Unit} (h : M.begins s p) :
      Step (s, ps) (s, p :: ps)
  | act {β : Type} {a : A β} {next : β → Prog A Unit} {s s' : S} {b : β}
      {left right : List (Prog A Unit)} (h : M.eff a s b s') :
      Step (s, left ++ .act a next :: right) (s', left ++ next b :: (M.starts a b ++ right))
  | ends {s : S} {u : Unit} {left right : List (Prog A Unit)} :
      Step (s, left ++ .done u :: right) (s, left ++ right)

/-- The states that are reached from `start`. -/
def Reaches (start s : S) : Prop :=
  ∃ ps, Relation.ReflTransGen M.Step (start, []) (s, ps)

/-- A pool has reached its start. -/
theorem Reaches.refl (start : S) : M.Reaches start start := ⟨[], .refl⟩

/-- What the programs of a pool are verified against: the invariant and the moves of the state
that the allowed actions keep, whatever is done between two actions of a program. -/
structure Rely where
  inv : S → Prop
  rel : S → S → Prop
  allowed : {β : Type} → A β → S → Prop
  refl : ∀ s, rel s s
  trans : ∀ {s t u}, rel s t → rel t u → rel s u
  stable : ∀ {β : Type} {a : A β} {s t : S}, allowed a s → rel s t → allowed a t
  env : ∀ {s t : S}, inv s → M.env s t → inv t ∧ rel s t
  act : ∀ {β : Type} {a : A β} {s s' : S} {b : β}, inv s → allowed a s → M.eff a s b s' →
    inv s' ∧ rel s s'

variable {M}

/-- The others move before each action. -/
def Rely.contract (R : M.Rely) : Contract A S where
  does a s b s' := ∃ t, R.rel s t ∧ R.inv t ∧ M.eff a t b s'
  allowed := R.allowed

/-- A program performs allowed actions only, whatever the others do. -/
def Rely.Safe (R : M.Rely) (p : Prog A Unit) (s : S) : Prop :=
  p.Keeps R.contract (fun _ _ => True) s

/-- A safe program may take its next action after what the others did. -/
theorem Rely.Safe.act {R : M.Rely} {β : Type} {a : A β} {next : β → Prog A Unit} {s t s' : S}
    {b : β} (h : R.Safe (.act a next) s) (hrel : R.rel s t) (hinv : R.inv t)
    (heff : M.eff a t b s') : R.allowed a t ∧ R.Safe (next b) s' :=
  ⟨R.stable h.1 hrel, h.2 b s' ⟨t, hrel, hinv, heff⟩⟩

/-- Every program in a pool has been safe in an earlier state. -/
def Rely.Holds (R : M.Rely) (c : S × List (Prog A Unit)) : Prop :=
  R.inv c.1 ∧ ∀ p ∈ c.2, ∃ t, R.rel t c.1 ∧ R.Safe p t

/-- One step of any program keeps the invariant and leaves all programs safe. -/
theorem Rely.holds_step {R : M.Rely}
    (hbegins : ∀ {s p}, R.inv s → M.begins s p → R.Safe p s)
    (hstarts : ∀ {β : Type} {a : A β} {s s' : S} {b : β}, R.inv s → R.allowed a s →
      M.eff a s b s' → ∀ p ∈ M.starts a b, R.Safe p s')
    {c c' : S × List (Prog A Unit)} (hc : R.Holds c) (hstep : M.Step c c') : R.Holds c' := by
  obtain ⟨hinv, hsafe⟩ := hc
  cases hstep with
  | env henv =>
    obtain ⟨hinv', hrel⟩ := R.env hinv henv
    refine ⟨hinv', fun p hp => ?_⟩
    obtain ⟨t, ht, hp⟩ := hsafe p hp
    exact ⟨t, R.trans ht hrel, hp⟩
  | begins hbegin =>
    refine ⟨hinv, fun p hp => ?_⟩
    rcases List.mem_cons.mp hp with rfl | hp
    · exact ⟨_, R.refl _, hbegins hinv hbegin⟩
    · exact hsafe p hp
  | @act _ a next s s' b left right heff =>
    obtain ⟨t, ht, hact⟩ := hsafe (.act a next) (List.mem_append_right _ List.mem_cons_self)
    obtain ⟨hallowed, hnext⟩ := hact.act ht hinv heff
    obtain ⟨hinv', hrel⟩ := R.act hinv hallowed heff
    -- the programs that did not act have been safe before
    have hothers : ∀ p ∈ left ++ right, ∃ t, R.rel t s' ∧ R.Safe p t := by
      intro p hp
      have hmem : p ∈ left ++ .act a next :: right := by
        rcases List.mem_append.mp hp with hp | hp
        · exact List.mem_append_left _ hp
        · exact List.mem_append_right _ (List.mem_cons_of_mem _ hp)
      obtain ⟨t, ht, hp⟩ := hsafe p hmem
      exact ⟨t, R.trans ht hrel, hp⟩
    refine ⟨hinv', fun p hp => ?_⟩
    rcases List.mem_append.mp hp with hp | hp
    · exact hothers p (List.mem_append_left _ hp)
    rcases List.mem_cons.mp hp with rfl | hp
    · exact ⟨s', R.refl _, hnext⟩
    rcases List.mem_append.mp hp with hp | hp
    · exact ⟨s', R.refl _, hstarts hinv hallowed heff p hp⟩
    · exact hothers p (List.mem_append_right _ hp)
  | @ends s u left right =>
    refine ⟨hinv, fun p hp => hsafe p ?_⟩
    rcases List.mem_append.mp hp with hp | hp
    · exact List.mem_append_left _ hp
    · exact List.mem_append_right _ (List.mem_cons_of_mem _ hp)

/-- What the allowed actions keep holds in every state that is reached, if every program that
begins or is started is safe. -/
theorem Reaches.invariant {R : M.Rely} {start s : S} (h : M.Reaches start s)
    (hstart : R.inv start) (hbegins : ∀ {s p}, R.inv s → M.begins s p → R.Safe p s)
    (hstarts : ∀ {β : Type} {a : A β} {s s' : S} {b : β}, R.inv s → R.allowed a s →
      M.eff a s b s' → ∀ p ∈ M.starts a b, R.Safe p s') : R.inv s := by
  obtain ⟨ps, hsteps⟩ := h
  suffices hall : ∀ {c c' : S × List (Prog A Unit)}, Relation.ReflTransGen M.Step c c' →
      R.Holds c → R.Holds c' from
    (hall hsteps ⟨hstart, fun _ hp => absurd hp List.not_mem_nil⟩).1
  intro c c' hsteps hc
  induction hsteps with
  | refl => exact hc
  | tail _ hstep ih => exact Rely.holds_step hbegins hstarts ih hstep

/-- A program that runs alone. -/
def alone (M : Pool A S) : Contract A S where
  does a s b s' := M.eff a s b s'
  allowed _ _ := True

/-- A program may run to its end without the others; what it starts stands where it stood. -/
theorem steps_of_may {p : Prog A Unit} {Q : Unit → S → Prop} {s : S}
    (left right : List (Prog A Unit)) (h : p.May M.alone Q s) :
    ∃ s' new, Q () s' ∧
      Relation.ReflTransGen M.Step (s, left ++ p :: right) (s', left ++ (new ++ right)) := by
  induction p generalizing s right with
  | done u => exact ⟨s, [], h, .single .ends⟩
  | act a next ih =>
    obtain ⟨b, s', heff, h⟩ := h
    obtain ⟨t, new, hQ, hsteps⟩ := ih b (M.starts a b ++ right) h
    refine ⟨t, new ++ M.starts a b, hQ, ?_⟩
    rw [List.append_assoc]
    exact .head (.act heff) hsteps

/-- A state is reached in which a program has `p` left to run. -/
def Pauses (M : Pool A S) (start s : S) (p : Prog A Unit) : Prop :=
  ∃ left right, Relation.ReflTransGen M.Step (start, []) (s, left ++ p :: right)

/-- A program may begin where nobody else is at work. -/
theorem Reaches.begins {p : Prog A Unit} {start s : S} (h : M.Reaches start s)
    (hbegins : M.begins s p) : M.Pauses start s p := by
  obtain ⟨ps, hsteps⟩ := h
  exact ⟨[], ps, hsteps.tail (.begins hbegins)⟩

/-- A program that pauses may take its next action. -/
theorem Pauses.acts {β : Type} {a : A β} {next : β → Prog A Unit} {start s s' : S}
    (h : M.Pauses start s (.act a next)) (b : β) (heff : M.eff a s b s') :
    M.Pauses start s' (next b) := by
  obtain ⟨left, right, hsteps⟩ := h
  exact ⟨left, M.starts a b ++ right, hsteps.tail (.act heff)⟩

/-- What is left of a program may run to its end. -/
theorem Pauses.ends {p : Prog A Unit} {Q : Unit → S → Prop} {start s : S}
    (h : M.Pauses start s p) (hmay : p.May M.alone Q s) : ∃ s', Q () s' ∧ M.Reaches start s' := by
  obtain ⟨left, right, hsteps⟩ := h
  obtain ⟨s', new, hQ, hruns⟩ := steps_of_may left right hmay
  exact ⟨s', hQ, _, hsteps.trans hruns⟩

/-- While a program waits, another one may begin and run to its end. -/
theorem Pauses.runs {p q : Prog A Unit} {Q : Unit → S → Prop} {start s : S}
    (h : M.Pauses start s q) (hbegins : M.begins s p) (hmay : p.May M.alone Q s) :
    ∃ s', Q () s' ∧ M.Pauses start s' q := by
  obtain ⟨left, right, hsteps⟩ := h
  obtain ⟨s', new, hQ, hruns⟩ := steps_of_may [] (left ++ q :: right) hmay
  refine ⟨s', hQ, new ++ left, right, ?_⟩
  rw [List.append_assoc]
  exact hsteps.trans (.head (.begins hbegins) hruns)

/-- A program that may begin in a reached state may run to its end without the others. -/
theorem Reaches.runs {p : Prog A Unit} {Q : Unit → S → Prop} {start s : S}
    (h : M.Reaches start s) (hbegins : M.begins s p) (hmay : p.May M.alone Q s) :
    ∃ s', Q () s' ∧ M.Reaches start s' :=
  (h.begins hbegins).ends hmay

end Pool

end AgentHouse
