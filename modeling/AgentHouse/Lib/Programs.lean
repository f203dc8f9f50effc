import Mathlib.Data.List.Forall2
import Mathlib.Logic.Basic
import Mathlib.Tactic.Common

/-!
# Programs of atomic actions

A program performs one action at a time and goes on with the answer. What the world does
between two actions is not part of it, so a run of several programs interleaves their actions
in any order. A contract says what an action may do to the state that the program owns and
when it may be performed. `Keeps` follows every way a program can go under a contract.
-/

namespace AgentHouse

/-- A successful sequence has a successful first part. -/
theorem bind_ok {ε α β : Type} {x : Except ε α} {f : α → Except ε β} {b : β}
    (h : x >>= f = .ok b) : ∃ a, x = .ok a ∧ f a = .ok b := by
  cases x with
  | error e => cases h
  | ok a => exact ⟨a, rfl, h⟩

/-- A check that does not fail has been passed. -/
theorem refuse_ok {ε β : Type} {c : Prop} [Decidable c] {e : ε} {f : PUnit → Except ε β} {b : β}
    (h : (if c then throw e >>= f else f ⟨⟩) = .ok b) : ¬ c ∧ f ⟨⟩ = .ok b := by
  by_cases hc : c
  · rw [if_pos hc] at h
    cases h
  · rw [if_neg hc] at h
    exact ⟨hc, h⟩

/-- A list is mapped if each of its elements is. -/
theorem mapM_ok {ε β : Type} {α : Type*} {f : α → Except ε β} {as : List α} {bs : List β} :
    as.mapM f = .ok bs ↔ List.Forall₂ (fun a b => f a = .ok b) as bs := by
  induction as generalizing bs with
  | nil =>
    rw [List.mapM_nil, List.forall₂_nil_left_iff]
    exact ⟨fun h => (Except.ok.inj h).symm, fun h => congrArg Except.ok h.symm⟩
  | cons a as ih =>
    rw [List.mapM_cons, List.forall₂_cons_left_iff]
    constructor
    · intro h
      obtain ⟨b, hb, h⟩ := bind_ok h
      obtain ⟨rest, hrest, h⟩ := bind_ok h
      exact ⟨b, rest, hb, ih.mp hrest, (Except.ok.inj h).symm⟩
    · rintro ⟨b, rest, hb, hrest, rfl⟩
      rw [hb, ih.mpr hrest]
      rfl

/-- A program over the actions `A`; an action of `A β` is answered by a value of `β`. -/
inductive Prog (A : Type → Type 1) (α : Type) : Type 1 where
  | done (a : α)
  | act {β : Type} (a : A β) (next : β → Prog A α)

/-- What actions do to a state, and in which states they are allowed. -/
structure Contract (A : Type → Type 1) (S : Type) where
  does : {β : Type} → A β → S → β → S → Prop
  allowed : {β : Type} → A β → S → Prop

/-- The allowed actions preserve `I`. -/
def Contract.Preserves {A : Type → Type 1} {S : Type} (C : Contract A S) (I : S → Prop) : Prop :=
  ∀ {β : Type} {a : A β} {s s' : S} {b : β}, I s → C.allowed a s → C.does a s b s' → I s'

namespace Prog

variable {A : Type → Type 1} {S α β γ : Type} {C : Contract A S}

/-- A program goes on with what another one returned. -/
def bind : Prog A α → (α → Prog A γ) → Prog A γ
  | .done a, f => f a
  | .act a next, f => .act a (fun b => (next b).bind f)

/-- Whatever the answers, the program performs only what is allowed and ends in `Q`. -/
def Keeps (C : Contract A S) (Q : α → S → Prop) : Prog A α → S → Prop
  | .done a, s => Q a s
  | .act a next, s =>
      C.allowed a s ∧ ∀ b s', C.does a s b s' → (next b).Keeps C Q s'

variable {Q R : α → S → Prop} {p : Prog A α} {s : S}

/-- A weaker end. -/
theorem Keeps.mono (h : p.Keeps C Q s) (hQ : ∀ a s', Q a s' → R a s') : p.Keeps C R s := by
  induction p generalizing s with
  | done a => exact hQ a s h
  | act a next ih => exact ⟨h.1, fun b s' hdoes => ih b (h.2 b s' hdoes)⟩

/-- What the allowed actions preserve holds at the end. -/
theorem Keeps.invariant {I : S → Prop} (hI : C.Preserves I) (h : p.Keeps C Q s) (hs : I s) :
    p.Keeps C (fun a s' => I s' ∧ Q a s') s := by
  induction p generalizing s with
  | done a => exact ⟨hs, h⟩
  | act a next ih =>
    refine ⟨h.1, fun b s' hdoes => ?_⟩
    exact ih b (h.2 b s' hdoes) (hI hs h.1 hdoes)

/-- A program in a row with another keeps what the two keep. -/
theorem keeps_bind {Q : γ → S → Prop} {f : α → Prog A γ} :
    (p.bind f).Keeps C Q s ↔ p.Keeps C (fun a s' => (f a).Keeps C Q s') s := by
  induction p generalizing s with
  | done a => rfl
  | act a next ih =>
    constructor
    · intro h
      exact ⟨h.1, fun b s' hdoes => (ih b).mp (h.2 b s' hdoes)⟩
    · intro h
      exact ⟨h.1, fun b s' hdoes => (ih b).mpr (h.2 b s' hdoes)⟩

end Prog

/-- A program that may fail. What it did before it failed stays done. -/
def Op (A : Type → Type 1) (ε α : Type) : Type 1 := Prog A (Except ε α)

namespace Op

variable {A : Type → Type 1} {S ε α β : Type} {C : Contract A S}

/-- A program goes on unless the first one fails. -/
def andThen (p : Op A ε α) (f : α → Op A ε β) : Op A ε β :=
  Prog.bind p fun
    | .ok a => f a
    | .error e => .done (.error e)

instance : Monad (Op A ε) where
  pure a := .done (.ok a)
  bind := andThen

instance : MonadExceptOf ε (Op A ε) where
  throw e := .done (.error e)
  tryCatch p handler := Prog.bind p fun
    | .ok a => .done (.ok a)
    | .error e => handler e

/-- Perform an action that always succeeds. -/
def perform (a : A β) : Op A ε β := .act a fun b => .done (.ok b)

/-- Perform an action that may fail. -/
def attempt (a : A (Except ε β)) : Op A ε β := .act a .done

/-- The outcome of a program as a value. -/
def outcome (p : Op A ε α) : Op A ε (Except ε α) := Prog.bind p fun r => .done (.ok r)

/-- Fail with `e` if `c` holds. -/
def refuse (c : Prop) [Decidable c] (e : ε) : Op A ε Unit := if c then throw e else pure ()

/-- Run `p` only if `c` holds. -/
def when (c : Bool) (p : Op A ε Unit) : Op A ε Unit := if c then p else pure ()

/-- Run `f` on the elements of a list, one after the other, until it fails. -/
def each (f : β → Op A ε Unit) : List β → Op A ε Unit
  | [] => pure ()
  | b :: bs => do
    f b
    each f bs

/-- Run `body` between two actions; the second also runs when `body` fails. -/
def guarded (enter : A Unit) (leave : A Unit) (body : Op A ε α) : Op A ε α := do
  perform enter
  let r ← outcome body
  perform leave
  Prog.done r

/-- `Prog.Keeps` for programs that may fail. -/
def Keeps (C : Contract A S) (Q : Except ε α → S → Prop) (p : Op A ε α) (s : S) : Prop :=
  Prog.Keeps C Q p s

variable {Q R : Except ε α → S → Prop} {p : Op A ε α} {s : S}

theorem Keeps.mono (h : p.Keeps C Q s) (hQ : ∀ a s', Q a s' → R a s') : p.Keeps C R s :=
  Prog.Keeps.mono h hQ

/-- An invariant of the actions holds at the end. -/
theorem Keeps.invariant {I : S → Prop} (hI : C.Preserves I) (h : p.Keeps C Q s) (hs : I s) :
    p.Keeps C (fun a s' => I s' ∧ Q a s') s :=
  Prog.Keeps.invariant hI h hs

@[simp]
theorem keeps_pure {a : α} : (pure a : Op A ε α).Keeps C Q s ↔ Q (.ok a) s := Iff.rfl

@[simp]
theorem keeps_throw {e : ε} : (throw e : Op A ε α).Keeps C Q s ↔ Q (.error e) s := Iff.rfl

@[simp]
theorem keeps_done {r : Except ε α} : Op.Keeps C Q (Prog.done r : Op A ε α) s ↔ Q r s := Iff.rfl

/-- One action that cannot fail. -/
@[simp]
theorem keeps_perform {a : A β} {Q : Except ε β → S → Prop} :
    (perform a : Op A ε β).Keeps C Q s ↔
      C.allowed a s ∧ ∀ b s', C.does a s b s' → Q (.ok b) s' := Iff.rfl

/-- One that can. -/
@[simp]
theorem keeps_attempt {a : A (Except ε β)} {Q : Except ε β → S → Prop} :
    (attempt a).Keeps C Q s ↔
      C.allowed a s ∧ ∀ b s', C.does a s b s' → Q b s' := Iff.rfl

theorem keeps_bind {f : α → Op A ε β} {Q : Except ε β → S → Prop} :
    (p >>= f).Keeps C Q s ↔ p.Keeps C (fun
      | .ok a => (f a).Keeps C Q
      | .error e => Q (.error e)) s := by
  refine Prog.keeps_bind.trans ⟨?_, ?_⟩
  · intro h
    refine Prog.Keeps.mono h ?_
    rintro (e | a) s' h'
    · exact h'
    · exact h'
  · intro h
    refine Prog.Keeps.mono h ?_
    rintro (e | a) s' h'
    · exact h'
    · exact h'

theorem keeps_ite {c : Prop} [Decidable c] {q : Op A ε α} {Q : Except ε α → S → Prop} :
    (if c then p else q).Keeps C Q s ↔ (c → p.Keeps C Q s) ∧ (¬ c → q.Keeps C Q s) := by
  by_cases hc : c
  · simp [hc]
  · simp [hc]

/-- The program keeps its contract, and ends in `Q` if it succeeds. -/
def Ends (C : Contract A S) (Q : α → S → Prop) (p : Op A ε α) (s : S) : Prop :=
  p.Keeps C (fun
    | .ok a => Q a
    | .error _ => fun _ => True) s

section Ends

variable {Q R : α → S → Prop} {e : ε} {c : Prop} [Decidable c]

/-- What is kept in any case is kept by a success. -/
theorem Keeps.ends {Q : Except ε α → S → Prop} (h : p.Keeps C Q s) :
    p.Ends C (fun a => Q (.ok a)) s := by
  refine Keeps.mono h ?_
  rintro (e | a) s' hQ
  · trivial
  · exact hQ

/-- A weaker end. -/
theorem Ends.mono (h : p.Ends C Q s) (hQ : ∀ a s', Q a s' → R a s') : p.Ends C R s := by
  refine Keeps.mono h ?_
  rintro (e | a) s' ha
  · trivial
  · exact hQ a s' ha

/-- An invariant of the actions holds at a success. -/
theorem Ends.invariant {I : S → Prop} (hI : C.Preserves I) (h : p.Ends C Q s) (hs : I s) :
    p.Ends C (fun a s' => I s' ∧ Q a s') s := by
  refine Keeps.mono (Keeps.invariant hI h hs) ?_
  rintro (e | a) s' ha
  · trivial
  · exact ha

@[simp]
theorem ends_pure {a : α} : (pure a : Op A ε α).Ends C Q s ↔ Q a s := Iff.rfl

@[simp]
theorem ends_throw : (throw e : Op A ε α).Ends C Q s ↔ True := Iff.rfl

/-- A success of two programs in a row. -/
@[simp]
theorem ends_bind {f : α → Op A ε β} {Q : β → S → Prop} :
    (p >>= f).Ends C Q s ↔ p.Ends C (fun a => (f a).Ends C Q) s := by
  rw [Ends, keeps_bind, Ends]
  constructor
  · intro h
    refine Keeps.mono h ?_
    rintro (e | a) s' ha
    · trivial
    · exact ha
  · intro h
    refine Keeps.mono h ?_
    rintro (e | a) s' ha
    · trivial
    · exact ha

@[simp]
theorem ends_perform {a : A β} {Q : β → S → Prop} :
    (perform a : Op A ε β).Ends C Q s ↔
      C.allowed a s ∧ ∀ b s', C.does a s b s' → Q b s' := Iff.rfl

@[simp]
theorem ends_refuse {Q : Unit → S → Prop} : (refuse c e).Ends C Q s ↔ (¬ c → Q () s) := by
  by_cases hc : c
  · simp [refuse, hc]
  · simp [refuse, hc]

@[simp]
theorem ends_when {b : Bool} {p : Op A ε Unit} {Q : Unit → S → Prop} :
    (Op.when b p).Ends C Q s ↔ (b = true → p.Ends C Q s) ∧ (b = false → Q () s) := by
  cases b with
  | true => simp [Op.when]
  | false => simp [Op.when]

@[simp]
theorem ends_ite {p q : Op A ε α} :
    (if c then p else q).Ends C Q s ↔ (c → p.Ends C Q s) ∧ (¬ c → q.Ends C Q s) := by
  by_cases hc : c
  · simp [hc]
  · simp [hc]

end Ends

/-- A failure that the program looks at. -/
@[simp]
theorem ends_outcome {Q : Except ε α → S → Prop} : (outcome p).Ends C Q s ↔ p.Keeps C Q s :=
  Prog.keeps_bind

/-- A guarded program keeps its contract if its body does. -/
theorem ends_guarded {enter leave : A Unit} (henter : C.allowed enter s)
    (hbody : ∀ b s', C.does enter s b s' → p.Ends C (fun _ _ => True) s')
    (hleave : ∀ s', C.allowed leave s') :
    (guarded enter leave p).Ends C (fun _ _ => True) s := by
  refine ends_bind.mpr ⟨henter, fun b s' hdoes => ends_bind.mpr (ends_outcome.mpr ?_)⟩
  refine Keeps.mono (hbody b s' hdoes) fun r s'' _ => ?_
  refine ends_bind.mpr ⟨hleave s'', fun _ _ _ => ?_⟩
  cases r with
  | error e => trivial
  | ok a => trivial

end Op

end AgentHouse
