import AgentHouse.Lib.Programs

/-!
# What a program leaves alone

A frame fixes the contract of the actions, an invariant that the allowed actions preserve, and
how the state may move. A program leads in a frame from a state if it performs allowed actions
only and, however it ends, has moved the state as the frame says. If it succeeds, its
postcondition holds as well.
-/

namespace AgentHouse

/-- A contract, an invariant that it preserves, and the moves of the state. -/
structure Frame (A : Type → Type 1) (S : Type) where
  contract : Contract A S
  inv : S → Prop
  kept : contract.Preserves inv
  rel : S → S → Prop
  refl : ∀ s, rel s s
  trans : ∀ {s t u}, rel s t → rel t u → rel s u

namespace Op

variable {A : Type → Type 1} {S ε α β : Type} {F G : Frame A S} {Q : α → S → Prop}
  {p : Op A ε α} {s : S}

/-- The program stays in its frame, and ends in `Q` if it succeeds. -/
def Leads (F : Frame A S) (Q : α → S → Prop) (p : Op A ε α) (s : S) : Prop :=
  p.Keeps F.contract (fun r s' => F.inv s' ∧ F.rel s s' ∧ ∀ a, r = .ok a → Q a s') s

/-- A weaker end. -/
theorem Leads.mono {R : α → S → Prop} (h : p.Leads F Q s)
    (hQ : ∀ a s', F.inv s' → F.rel s s' → Q a s' → R a s') : p.Leads F R s := by
  refine Keeps.mono h fun r s' ⟨hinv, hrel, hok⟩ => ?_
  exact ⟨hinv, hrel, fun a ha => hQ a s' hinv hrel (hok a ha)⟩

/-- A program that stays in a frame stays in every wider one. -/
theorem Leads.wider (h : p.Leads F Q s) (hcontract : F.contract = G.contract)
    (hinv : ∀ s, F.inv s → G.inv s) (hrel : ∀ s', F.rel s s' → G.rel s s') : p.Leads G Q s := by
  have hkeeps : p.Keeps F.contract
      (fun r s' => G.inv s' ∧ G.rel s s' ∧ ∀ a, r = .ok a → Q a s') s :=
    Keeps.mono h fun r s' ⟨hi, hr, hok⟩ => ⟨hinv s' hi, hrel s' hr, hok⟩
  rwa [hcontract] at hkeeps

theorem leads_pure {a : α} (hinv : F.inv s) (ha : Q a s) : (pure a : Op A ε α).Leads F Q s :=
  ⟨hinv, F.refl s, fun _ h => Except.ok.inj h ▸ ha⟩

theorem leads_throw {e : ε} (hinv : F.inv s) : (throw e : Op A ε α).Leads F Q s :=
  ⟨hinv, F.refl s, fun _ h => nomatch h⟩

/-- Two programs in a row. -/
theorem leads_bind {f : α → Op A ε β} {R : β → S → Prop} (hp : p.Leads F Q s)
    (hf : ∀ a s', F.inv s' → F.rel s s' → Q a s' → (f a).Leads F R s') :
    (p >>= f).Leads F R s := by
  refine keeps_bind.mpr (Keeps.mono hp fun r s' ⟨hinv, hrel, hok⟩ => ?_)
  cases r with
  | error e => exact ⟨hinv, hrel, fun _ h => nomatch h⟩
  | ok a =>
    refine Keeps.mono (hf a s' hinv hrel (hok a rfl)) fun r' s'' ⟨hinv', hrel', hok'⟩ => ?_
    exact ⟨hinv', F.trans hrel hrel', hok'⟩

/-- One action that cannot fail. -/
theorem leads_perform {a : A β} {R : β → S → Prop} (hinv : F.inv s)
    (ha : F.contract.allowed a s)
    (hdoes : ∀ b s', F.contract.does a s b s' → F.inv s' → F.rel s s' ∧ R b s') :
    (perform a : Op A ε β).Leads F R s := by
  refine ⟨ha, fun b s' hb => ?_⟩
  have hinv' := F.kept hinv ha hb
  obtain ⟨hrel, hR⟩ := hdoes b s' hb hinv'
  exact ⟨hinv', hrel, fun _ h => Except.ok.inj h ▸ hR⟩

/-- One that can. -/
theorem leads_attempt {a : A (Except ε β)} {R : β → S → Prop} (hinv : F.inv s)
    (ha : F.contract.allowed a s)
    (hdoes : ∀ r s', F.contract.does a s r s' → F.inv s' →
      F.rel s s' ∧ ∀ b, r = .ok b → R b s') :
    (attempt a).Leads F R s := by
  refine ⟨ha, fun r s' hr => ?_⟩
  have hinv' := F.kept hinv ha hr
  exact ⟨hinv', hdoes r s' hr hinv'⟩

/-- A failure that the program looks at. -/
theorem leads_outcome (h : p.Leads F Q s) :
    (outcome p).Leads F (fun r s' => ∀ a, r = .ok a → Q a s') s := by
  refine Prog.keeps_bind.mpr (Keeps.mono h fun r s' ⟨hinv, hrel, hok⟩ => ?_)
  exact ⟨hinv, hrel, fun _ h => Except.ok.inj h ▸ hok⟩

/-- A check that is passed leaves the state as it is. -/
theorem leads_refuse {c : Prop} [Decidable c] {e : ε} {f : Unit → Op A ε α} (hinv : F.inv s)
    (h : ¬ c → (f ()).Leads F Q s) : (refuse c e >>= f).Leads F Q s := by
  by_cases hc : c
  · rw [refuse, if_pos hc]
    exact leads_throw hinv
  · rw [refuse, if_neg hc]
    exact h hc

theorem leads_when {b : Bool} {p : Op A ε Unit} {R : Unit → S → Prop}
    (hp : b = true → p.Leads F R s) (hnot : b = false → F.inv s ∧ R () s) :
    (Op.when b p).Leads F R s := by
  cases b with
  | true => exact hp rfl
  | false => exact leads_pure (hnot rfl).1 (hnot rfl).2

theorem leads_ite {c : Prop} [Decidable c] {p q : Op A ε α} (hp : c → p.Leads F Q s)
    (hq : ¬ c → q.Leads F Q s) : (if c then p else q).Leads F Q s := by
  by_cases hc : c
  · rw [if_pos hc]
    exact hp hc
  · rw [if_neg hc]
    exact hq hc

/-- The program ends in `Q` if it succeeds and in `E` if it fails. -/
def Ensures (C : Contract A S) (I : S → Prop) (Q : α → S → Prop) (E : S → Prop) (p : Op A ε α)
    (s : S) : Prop :=
  p.Keeps C (fun r s' => I s' ∧ match r with
    | .ok a => Q a s'
    | .error _ => E s') s

section Ensures

variable {C : Contract A S} {I E : S → Prop}

/-- What holds of every program of the frame may be added. -/
theorem Leads.ensures (h : p.Leads F Q s) (hE : ∀ s', F.inv s' → F.rel s s' → E s') :
    p.Ensures F.contract F.inv (fun a s' => F.rel s s' ∧ Q a s') E s := by
  refine Keeps.mono h fun r s' ⟨hinv, hrel, hok⟩ => ⟨hinv, ?_⟩
  cases r with
  | error e => exact hE s' hinv hrel
  | ok a => exact ⟨hrel, hok a rfl⟩

/-- The outcome of a program as a value is no failure. -/
theorem ensures_outcome (h : p.Leads F Q s) : (outcome p).Ensures F.contract F.inv
    (fun r s' => F.rel s s' ∧ ∀ a, r = .ok a → Q a s') E s :=
  Prog.keeps_bind.mpr (Keeps.mono h fun _ _ hr => hr)

/-- An action that always succeeds is no failure. -/
theorem ensures_perform {a : A β} {R : β → S → Prop} (h : (perform a : Op A ε β).Leads F R s) :
    (perform a : Op A ε β).Ensures F.contract F.inv (fun b s' => F.rel s s' ∧ R b s') E s := by
  refine ⟨h.1, fun b s' hb => ?_⟩
  obtain ⟨hinv, hrel, hR⟩ := h.2 b s' hb
  exact ⟨hinv, hrel, hR b rfl⟩

/-- A weaker end, and a weaker failure. -/
theorem Ensures.mono {R : α → S → Prop} {E' : S → Prop} (h : p.Ensures C I Q E s)
    (hQ : ∀ a s', I s' → Q a s' → R a s') (hE : ∀ s', I s' → E s' → E' s') :
    p.Ensures C I R E' s := by
  refine Keeps.mono h fun r s' ⟨hinv, hr⟩ => ⟨hinv, ?_⟩
  cases r with
  | error e => exact hE s' hinv hr
  | ok a => exact hQ a s' hinv hr

/-- Two programs in a row. -/
theorem ensures_bind {f : α → Op A ε β} {R : β → S → Prop} (hp : p.Ensures C I Q E s)
    (hf : ∀ a s', I s' → Q a s' → (f a).Ensures C I R E s') : (p >>= f).Ensures C I R E s := by
  refine keeps_bind.mpr (Keeps.mono hp fun r s' ⟨hinv, hr⟩ => ?_)
  cases r with
  | error e => exact ⟨hinv, hr⟩
  | ok a => exact hf a s' hinv hr

theorem ensures_pure {a : α} (hinv : I s) (ha : Q a s) : (pure a : Op A ε α).Ensures C I Q E s :=
  ⟨hinv, ha⟩

theorem ensures_throw {e : ε} (hinv : I s) (hE : E s) : (throw e : Op A ε α).Ensures C I Q E s :=
  ⟨hinv, hE⟩

/-- After a check that did not refuse. -/
theorem ensures_refuse {c : Prop} [Decidable c] {e : ε} {f : Unit → Op A ε α} (hinv : I s)
    (hE : E s) (h : ¬ c → (f ()).Ensures C I Q E s) : (refuse c e >>= f).Ensures C I Q E s := by
  by_cases hc : c
  · rw [refuse, if_pos hc]
    exact ⟨hinv, hE⟩
  · rw [refuse, if_neg hc]
    exact h hc

end Ensures

/-- `I` says what holds after the elements that are done. -/
theorem leads_each {f : β → Op A ε Unit} {bs : List β} {I : List β → S → Prop}
    (hinv : F.inv s) (hs : I [] s)
    (hf : ∀ b ∈ bs, ∀ done s', F.inv s' → I done s' →
      (f b).Leads F (fun _ s'' => I (b :: done) s'') s') :
    (each f bs).Leads F (fun _ s' => I bs.reverse s') s := by
  suffices hall : ∀ done, I done s →
      (each f bs).Leads F (fun _ s' => I (bs.reverse ++ done) s') s by
    simpa only [List.append_nil] using hall [] hs
  clear hs
  intro done hs
  induction bs generalizing done s with
  | nil => exact leads_pure hinv hs
  | cons b bs ih =>
    refine leads_bind (hf b List.mem_cons_self done s hinv hs) fun _ s' hinv' _ hs' => ?_
    refine (ih hinv' (fun c hc => hf c (List.mem_cons_of_mem b hc)) (b :: done) hs').mono ?_
    intro _ s'' _ _ h
    rwa [List.reverse_cons, List.append_assoc]

end Op

end AgentHouse
