import AgentHouse.Lib.Programs
import Mathlib.Logic.Relation

/-!
# Processes that run programs

A process runs one program at a time. Between two of its actions the world changes by itself, and
at any point the process may halt and lose what it was doing. What the programs keep under
their contract holds in every state that is reached.
-/

namespace AgentHouse

/-- A process and the world around it. -/
structure Machine (A : Type → Type 1) (S : Type) where
  /-- What the world does by itself. -/
  env : S → S → Prop
  eff : {β : Type} → A β → S → β → S → Prop
  /-- The programs that may begin. -/
  begins : S → Prog A Unit → Prop
  halts : S → S → Prop

namespace Machine

variable {A : Type → Type 1} {S : Type} (M : Machine A S)

/-- The world moves before each action. -/
def contract (allowed : {β : Type} → A β → S → Prop) : Contract A S where
  does a s b s' := ∃ t, M.env s t ∧ M.eff a t b s'
  allowed := allowed

/-- The world moves, a program begins, acts or ends, or all of it halts. -/
inductive Step : S × Option (Prog A Unit) → S × Option (Prog A Unit) → Prop
  | env {s s' : S} {p : Option (Prog A Unit)} (h : M.env s s') : Step (s, p) (s', p)
  | begins {s : S} {p : Prog A Unit} (h : M.begins s p) : Step (s, none) (s, some p)
  | act {β : Type} {a : A β} {next : β → Prog A Unit} {s s' : S} {b : β} (h : M.eff a s b s') :
      Step (s, some (.act a next)) (s', some (next b))
  | ends {s : S} {u : Unit} : Step (s, some (.done u)) (s, none)
  | halts {s s' : S} {p : Option (Prog A Unit)} (h : M.halts s s') : Step (s, p) (s', none)

/-- The states of the world that are reached from `start`. -/
def Reaches (start s : S) : Prop :=
  ∃ p, Relation.ReflTransGen M.Step (start, none) (s, p)

variable {M} {I : S → Prop} {allowed : {β : Type} → A β → S → Prop}

/-- What holds at the start and is kept by the world, by halting and by the allowed actions, holds
in every state that is reached, if the programs perform allowed actions only. -/
theorem Reaches.invariant {start s : S} (h : M.Reaches start s) (hstart : I start)
    (hrefl : ∀ s, M.env s s) (htrans : ∀ {s t u}, M.env s t → M.env t u → M.env s u)
    (henv : ∀ {s t}, I s → M.env s t → I t) (hhalts : ∀ {s t}, I s → M.halts s t → I t)
    (hact : (M.contract allowed).Preserves I)
    (hbegins : ∀ {s p}, I s → M.begins s p →
      p.Keeps (M.contract allowed) (fun _ _ => True) s) : I s := by
  obtain ⟨p, h⟩ := h
  suffices hall : ∀ {c c' : S × Option (Prog A Unit)}, Relation.ReflTransGen M.Step c c' →
      (I c.1 ∧ ∀ q, c.2 = some q → ∃ t, I t ∧ M.env t c.1 ∧
        q.Keeps (M.contract allowed) (fun _ _ => True) t) →
      I c'.1 ∧ ∀ q, c'.2 = some q → ∃ t, I t ∧ M.env t c'.1 ∧
        q.Keeps (M.contract allowed) (fun _ _ => True) t from
    (hall h ⟨hstart, fun q hq => nomatch hq⟩).1
  intro c c' hsteps hc
  induction hsteps with
  | refl => exact hc
  | tail _ hstep ih =>
    obtain ⟨hi, hp⟩ := ih
    cases hstep with
    | env henv' =>
      refine ⟨henv hi henv', fun q hq => ?_⟩
      obtain ⟨t, ht, hts, hkeeps⟩ := hp q hq
      exact ⟨t, ht, htrans hts henv', hkeeps⟩
    | begins hbegin =>
      refine ⟨hi, fun q hq => ?_⟩
      obtain rfl := Option.some.inj hq
      exact ⟨_, hi, hrefl _, hbegins hi hbegin⟩
    | act heff =>
      obtain ⟨t, ht, hts, hallowed, hnext⟩ := hp _ rfl
      refine ⟨hact ht hallowed ⟨_, hts, heff⟩, fun q hq => ?_⟩
      obtain rfl := Option.some.inj hq
      exact ⟨_, hact ht hallowed ⟨_, hts, heff⟩, hrefl _, hnext _ _ ⟨_, hts, heff⟩⟩
    | ends => exact ⟨hi, fun q hq => nomatch hq⟩
    | halts hhalt => exact ⟨hhalts hi hhalt, fun q hq => nomatch hq⟩

end Machine

end AgentHouse
