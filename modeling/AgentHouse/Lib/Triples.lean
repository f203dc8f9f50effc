import AgentHouse.Lib.Programs

/-!
# Postconditions for success and for failure

`Yields` gives a program one postcondition for its result and one for its failure. The second
stays the same along a sequence, so a sequence is verified from the front, one step at a time.
-/

namespace AgentHouse.Op

variable {A : Type → Type 1} {S ε α β : Type} {C : Contract A S} {Q R : α → S → Prop}
  {E : ε → S → Prop} {p : Op A ε α} {s : S}

/-- The program keeps its contract, ends in `Q` if it succeeds and in `E` if it fails. -/
def Yields (C : Contract A S) (Q : α → S → Prop) (E : ε → S → Prop) (p : Op A ε α) (s : S) :
    Prop :=
  p.Keeps C (fun
    | .ok a => Q a
    | .error e => E e) s

/-- A weaker end, and a weaker failure. -/
theorem Yields.mono {E' : ε → S → Prop} (h : p.Yields C Q E s) (hQ : ∀ a s', Q a s' → R a s')
    (hE : ∀ e s', E e s' → E' e s') : p.Yields C R E' s := by
  refine Keeps.mono h ?_
  rintro (e | a) s' hs'
  · exact hE e s' hs'
  · exact hQ a s' hs'

/-- The two postconditions as one. -/
theorem Yields.keeps {P : Except ε α → S → Prop} (h : p.Yields C Q E s)
    (hQ : ∀ a s', Q a s' → P (.ok a) s') (hE : ∀ e s', E e s' → P (.error e) s') :
    p.Keeps C P s := by
  refine Keeps.mono h ?_
  rintro (e | a) s' hs'
  · exact hE e s' hs'
  · exact hQ a s' hs'

theorem yields_pure {a : α} (h : Q a s) : (pure a : Op A ε α).Yields C Q E s := h

theorem yields_throw {e : ε} (h : E e s) : (throw e : Op A ε α).Yields C Q E s := h

/-- Two programs in a row. -/
theorem yields_bind {f : α → Op A ε β} {R : β → S → Prop} (h : p.Yields C Q E s)
    (hf : ∀ a s', Q a s' → (f a).Yields C R E s') : (p >>= f).Yields C R E s := by
  refine keeps_bind.mpr (Keeps.mono h ?_)
  rintro (e | a) s' hs'
  · exact hs'
  · exact hf a s' hs'

/-- One action that cannot fail. -/
theorem yields_perform {a : A β} {R : β → S → Prop} (ha : C.allowed a s)
    (h : ∀ b s', C.does a s b s' → R b s') : (perform a : Op A ε β).Yields C R E s :=
  ⟨ha, h⟩

/-- One that can. -/
theorem yields_attempt {a : A (Except ε β)} {R : β → S → Prop} (ha : C.allowed a s)
    (hok : ∀ b s', C.does a s (.ok b) s' → R b s')
    (herror : ∀ e s', C.does a s (.error e) s' → E e s') : (attempt a).Yields C R E s := by
  refine ⟨ha, ?_⟩
  rintro (e | b) s' hdoes
  · exact herror e s' hdoes
  · exact hok b s' hdoes

/-- The outcome of a program as a value is no failure. -/
theorem yields_outcome {E' : ε → S → Prop} (h : p.Yields C Q E s) :
    (outcome p).Yields C (fun r s' => match r with
      | .ok a => Q a s'
      | .error e => E e s') E' s := by
  refine Prog.keeps_bind.mpr (Keeps.mono h ?_)
  rintro (e | a) s' hs'
  · exact hs'
  · exact hs'

/-- A check fails in the state that it is made in. -/
theorem yields_refuse {c : Prop} [Decidable c] {e : ε} {f : Unit → Op A ε α} (hE : c → E e s)
    (h : ¬ c → (f ()).Yields C Q E s) : (refuse c e >>= f).Yields C Q E s := by
  by_cases hc : c
  · rw [refuse, if_pos hc]
    exact hE hc
  · rw [refuse, if_neg hc]
    exact h hc

/-- A choice. -/
theorem yields_ite {c : Prop} [Decidable c] {p q : Op A ε α} (hp : c → p.Yields C Q E s)
    (hq : ¬ c → q.Yields C Q E s) : (if c then p else q).Yields C Q E s := by
  by_cases hc : c
  · rw [if_pos hc]
    exact hp hc
  · rw [if_neg hc]
    exact hq hc

end AgentHouse.Op
