import Mathlib.Data.List.Basic
import Mathlib.Tactic.Common

/-!
# Runs of labelled transition systems

A run remembers the labels of its steps in order. The rules below prove that a run keeps what
each of its steps keeps, and cut a run at a point.
-/

namespace AgentHouse

/-- A run of `step` from `start`. -/
inductive Trace {S : Type*} {L : Type*} (step : S → L → S → Prop) (start : S) : List L → S → Prop
  | nil : Trace step start [] start
  | snoc {ls : List L} {s s' : S} {l : L} (h : Trace step start ls s) (hs : step s l s') :
      Trace step start (ls ++ [l]) s'

namespace Trace

variable {S : Type*} {L : Type*} {step step' : S → L → S → Prop} {a b c : S} {l : L}
  {ls ms : List L}

/-- What holds at the start and is kept by each step holds at the end. -/
theorem invariant {I : S → Prop} (h : Trace step a ls b) (ha : I a)
    (hstep : ∀ {s l s'}, I s → step s l s' → I s') : I b := by
  induction h with
  | nil => exact ha
  | snoc _ hs ih => exact hstep ih hs

/-- A run of a finer system is one of a coarser system. -/
theorem mono (h : Trace step a ls b) (hstep : ∀ {s l s'}, step s l s' → step' s l s') :
    Trace step' a ls b := by
  induction h with
  | nil => exact .nil
  | snoc _ hs ih => exact ih.snoc (hstep hs)

/-- Runs compose. -/
theorem trans (h : Trace step a ls b) (h' : Trace step b ms c) : Trace step a (ls ++ ms) c := by
  induction h' with
  | nil =>
    rw [List.append_nil]
    exact h
  | snoc _ hs ih =>
    rw [← List.append_assoc]
    exact ih.snoc hs

/-- A step in front of a run. -/
theorem cons (hs : step a l b) (h : Trace step b ls c) : Trace step a (l :: ls) c :=
  trans (.snoc .nil hs) h

/-- Two runs of a system in which a step is determined by part of its label. -/
theorem deterministic {K : Type*} {k : L → K} {b₁ b₂ : S} (h₁ : Trace step a ls b₁)
    (hdet : ∀ {s l₁ s₁ l₂ s₂}, step s l₁ s₁ → step s l₂ s₂ → k l₁ = k l₂ → l₁ = l₂ ∧ s₁ = s₂)
    (h₂ : Trace step a ms b₂) (hsame : ls.map k = ms.map k) : ls = ms ∧ b₁ = b₂ := by
  induction h₁ generalizing ms b₂ with
  | nil =>
    cases h₂ with
    | nil => exact ⟨rfl, rfl⟩
    | snoc => simp at hsame
  | snoc h₁ hs₁ ih =>
    cases h₂ with
    | nil => simp at hsame
    | snoc h₂ hs₂ =>
      rw [List.map_append, List.map_append] at hsame
      obtain ⟨hsame, hlast⟩ := List.append_inj' hsame rfl
      obtain ⟨rfl, rfl⟩ := ih h₂ hsame
      obtain ⟨rfl, rfl⟩ := hdet hs₁ hs₂ (List.singleton_inj.mp hlast)
      exact ⟨rfl, rfl⟩

/-- A run of an executable system. -/
theorem of_foldlM {next : S → L → Option S} (h : ls.foldlM next a = some b) :
    Trace (fun s l s' => next s l = some s') a ls b := by
  induction ls generalizing a with
  | nil =>
    obtain rfl := Option.some.inj h
    exact .nil
  | cons l ls ih =>
    rw [List.foldlM_cons] at h
    obtain ⟨s, hs, h⟩ := Option.bind_eq_some_iff.mp h
    exact cons hs (ih h)

end Trace

end AgentHouse
