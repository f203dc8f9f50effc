import AgentHouse.Lib.Machines

/-!
# What a program may do

`May` is the counterpart of `Keeps`: some answers of the world lead the program to an end
in `Q`. A program that keeps its contract ends in both, so its postcondition holds
of every end that may come about.
-/

namespace AgentHouse

namespace Prog

variable {A : Type → Type 1} {S α γ : Type} {C : Contract A S} {Q R : α → S → Prop}
  {p : Prog A α} {s : S}

/-- Some answers lead to an end in `Q`. -/
def May (C : Contract A S) (Q : α → S → Prop) : Prog A α → S → Prop
  | .done a, s => Q a s
  | .act a next, s => ∃ b s', C.does a s b s' ∧ (next b).May C Q s'

/-- A weaker end. -/
theorem May.mono (h : p.May C Q s) (hQ : ∀ a s', Q a s' → R a s') : p.May C R s := by
  induction p generalizing s with
  | done a => exact hQ a s h
  | act a next ih =>
    obtain ⟨b, s', hdoes, h⟩ := h
    exact ⟨b, s', hdoes, ih b h⟩

/-- A program may go on where the one before it may end. -/
theorem may_bind {f : α → Prog A γ} {Q : γ → S → Prop} :
    (p.bind f).May C Q s ↔ p.May C (fun a s' => (f a).May C Q s') s := by
  induction p generalizing s with
  | done a => rfl
  | act a next ih =>
    constructor
    · rintro ⟨b, s', hdoes, h⟩
      exact ⟨b, s', hdoes, (ih b).mp h⟩
    · rintro ⟨b, s', hdoes, h⟩
      exact ⟨b, s', hdoes, (ih b).mpr h⟩

/-- What every end satisfies holds of an end that may come about. -/
theorem May.keeps (h : p.May C Q s) (hkeeps : p.Keeps C R s) :
    p.May C (fun a s' => Q a s' ∧ R a s') s := by
  induction p generalizing s with
  | done a => exact ⟨h, hkeeps⟩
  | act a next ih =>
    obtain ⟨b, s', hdoes, h⟩ := h
    exact ⟨b, s', hdoes, ih b h (hkeeps.2 b s' hdoes)⟩

/-- What every action preserves holds at an end that may come about. -/
theorem May.preserves {I : S → Prop}
    (hI : ∀ {β : Type} {a : A β} {s s' : S} {b : β}, I s → C.does a s b s' → I s')
    (h : p.May C Q s) (hs : I s) : p.May C (fun a s' => Q a s' ∧ I s') s := by
  induction p generalizing s with
  | done a => exact ⟨h, hs⟩
  | act a next ih =>
    obtain ⟨b, s', hdoes, h⟩ := h
    exact ⟨b, s', hdoes, ih b h (hI hs hdoes)⟩

/-- A program that may end well has an end. -/
theorem May.exists (h : p.May C Q s) : ∃ a s', Q a s' ∧
    p.May C (fun a' t => a' = a ∧ t = s') s := by
  induction p generalizing s with
  | done a => exact ⟨a, s, h, rfl, rfl⟩
  | act a next ih =>
    obtain ⟨b, s', hdoes, h⟩ := h
    obtain ⟨c, t, hQ, hrun⟩ := ih b h
    exact ⟨c, t, hQ, b, s', hdoes, hrun⟩

/-- Run a program on a world that computes its answers. -/
def run (eff : {β : Type} → A β → S → β × S) : Prog A α → S → α × S
  | .done a, s => (a, s)
  | .act a next, s => (next (eff a s).1).run eff (eff a s).2

/-- A run on a world that answers as the contract allows is a way for the program to go. -/
theorem may_run {eff : {β : Type} → A β → S → β × S}
    (heff : ∀ {β : Type} (a : A β) (s : S), C.does a s (eff a s).1 (eff a s).2) :
    p.May C (fun a s' => (a, s') = p.run eff s) s := by
  induction p generalizing s with
  | done a => rfl
  | act a next ih => exact ⟨_, _, heff a s, ih _⟩

end Prog

namespace Op

variable {A : Type → Type 1} {S ε α β : Type} {C : Contract A S} {Q R : Except ε α → S → Prop}
  {p : Op A ε α} {s : S}

/-- `Prog.May` for programs that may fail. -/
def May (C : Contract A S) (Q : Except ε α → S → Prop) (p : Op A ε α) (s : S) : Prop :=
  Prog.May C Q p s

theorem May.mono (h : p.May C Q s) (hQ : ∀ r s', Q r s' → R r s') : p.May C R s :=
  Prog.May.mono h hQ

/-- What every run keeps, the run at hand keeps. -/
theorem May.keeps (h : p.May C Q s) (hkeeps : p.Keeps C R s) :
    p.May C (fun r s' => Q r s' ∧ R r s') s :=
  Prog.May.keeps h hkeeps

/-- The program may end with `r` in `s'`. -/
def Returns (C : Contract A S) (p : Op A ε α) (s : S) (r : Except ε α) (s' : S) : Prop :=
  p.May C (fun r' t => r' = r ∧ t = s') s

theorem Returns.keeps {r : Except ε α} {s' : S} (h : p.Returns C s r s') (hkeeps : p.Keeps C R s) :
    R r s' := by
  obtain ⟨_, _, ⟨⟨rfl, rfl⟩, hR⟩, _⟩ := Prog.May.exists (May.keeps h hkeeps)
  exact hR

/-- The result of such a run. -/
theorem May.returns (h : p.May C Q s) : ∃ r s', Q r s' ∧ p.Returns C s r s' := Prog.May.exists h

/-- A run on a world that answers as the contract allows. -/
theorem returns_run {eff : {β : Type} → A β → S → β × S}
    (heff : ∀ {β : Type} (a : A β) (s : S), C.does a s (eff a s).1 (eff a s).2) :
    p.Returns C s (Prog.run eff p s).1 (Prog.run eff p s).2 := by
  refine Prog.May.mono (Prog.may_run (C := C) heff) fun r s' h => ?_
  rw [← h]
  exact ⟨rfl, rfl⟩

theorem may_pure {a : α} (h : Q (.ok a) s) : (pure a : Op A ε α).May C Q s := h

theorem may_perform {a : A β} {Q : Except ε β → S → Prop} {b : β} {s' : S}
    (hdoes : C.does a s b s') (h : Q (.ok b) s') : (perform a : Op A ε β).May C Q s :=
  ⟨b, s', hdoes, h⟩

theorem may_attempt {a : A (Except ε β)} {Q : Except ε β → S → Prop} {r : Except ε β} {s' : S}
    (hdoes : C.does a s r s') (h : Q r s') : (attempt a).May C Q s :=
  ⟨r, s', hdoes, h⟩

/-- Two programs in a row, the first of which may fail. -/
theorem may_seq {f : α → Op A ε β} {Q : Except ε β → S → Prop}
    (h : p.May C (fun r s' => (∃ a, r = .ok a ∧ (f a).May C Q s') ∨
      ∃ e, r = .error e ∧ Q (.error e) s') s) : (p >>= f).May C Q s := by
  refine Prog.may_bind.mpr (Prog.May.mono h ?_)
  rintro r s' (⟨a, rfl, hf⟩ | ⟨e, rfl, hQ⟩)
  · exact hf
  · exact hQ

/-- The first part may succeed, and the rest may then go on. -/
theorem may_bind {f : α → Op A ε β} {Q : Except ε β → S → Prop}
    (h : p.May C (fun r s' => ∃ a, r = .ok a ∧ (f a).May C Q s') s) : (p >>= f).May C Q s :=
  may_seq (h.mono fun _ _ => .inl)

/-- The first part may fail, and the rest is not run. -/
theorem may_fail {f : α → Op A ε β} {Q : Except ε β → S → Prop}
    (h : p.May C (fun r s' => ∃ e, r = .error e ∧ Q (.error e) s') s) :
    (p >>= f).May C Q s :=
  may_seq (h.mono fun _ _ => .inr)

theorem may_refuse {c : Prop} [Decidable c] {e : ε} {f : Unit → Op A ε α} (hc : ¬ c)
    (h : (f ()).May C Q s) : (refuse c e >>= f).May C Q s := by
  rw [refuse, if_neg hc]
  exact h

theorem may_outcome {Q : Except ε (Except ε α) → S → Prop}
    (h : p.May C (fun r s' => Q (.ok r) s') s) : (outcome p).May C Q s :=
  Prog.may_bind.mpr (Prog.May.mono h fun _ _ hQ => hQ)

end Op

namespace Machine

variable {A : Type → Type 1} {S : Type} {M : Machine A S} {allowed : {β : Type} → A β → S → Prop}
  {start s : S}

/-- No program runs in `s`. -/
def Rests (M : Machine A S) (start s : S) : Prop :=
  Relation.ReflTransGen M.Step (start, none) (s, none)

theorem Rests.reaches (h : M.Rests start s) : M.Reaches start s := ⟨none, h⟩

/-- A program that may end well may be run to its end. -/
theorem steps_of_may {p : Prog A Unit} {Q : Unit → S → Prop}
    (h : p.May (M.contract allowed) Q s) :
    ∃ s', Q () s' ∧ Relation.ReflTransGen M.Step (s, some p) (s', none) := by
  induction p generalizing s with
  | done u => exact ⟨s, h, .single .ends⟩
  | act a next ih =>
    obtain ⟨b, s', ⟨t, henv, heff⟩, h⟩ := h
    obtain ⟨u, hQ, hsteps⟩ := ih b h
    exact ⟨u, hQ, .head (.env henv) (.head (.act heff) hsteps)⟩

/-- A program that may begin runs to an end that may come about. -/
theorem Rests.runs {p : Prog A Unit} {Q : Unit → S → Prop} (h : M.Rests start s)
    (hbegins : M.begins s p) (hmay : p.May (M.contract allowed) Q s) :
    ∃ s', Q () s' ∧ M.Rests start s' := by
  obtain ⟨s', hQ, hsteps⟩ := steps_of_may hmay
  exact ⟨s', hQ, h.trans (.head (.begins hbegins) hsteps)⟩

end Machine

end AgentHouse
