import Mathlib.Data.Prod.Lex
import Mathlib.Logic.Relation
import Mathlib.Tactic.Common

/-!
# Exclusive ownership of a register

Many parties replace the value of one register. It is created bare and enrolled once; from then on
an epoch and at most one owner stand beside it. An unowned value is claimed for the next epoch, its
owner replaces it and releases it in the end. Retirement is final. Every move leads to an entry of
a higher rank, so that no entry ever comes back.
-/

namespace AgentHouse.Ownership

/-- What the register holds: nothing yet, a bare value, a value with its epoch and its owner, or
the mark of retirement. -/
inductive Entry (V T : Type*) where
  | blank
  | bare (v : V)
  | held (epoch : ℕ) (owner : Option T) (v : V)
  | retired

variable {V T : Type*}

namespace Entry

/-- The epoch and the owner that are recorded. -/
def owner : Entry V T → Option (ℕ × T)
  | held k (some t) _ => some (k, t)
  | _ => none

/-- An owner in the epoch `k` has released the value, or something came after that epoch. -/
def Past (k : ℕ) : Entry V T → Prop
  | held l o _ => k < l ∨ k = l ∧ o = none
  | retired => True
  | _ => False

/-- The order in which entries may follow each other: by kind, by epoch, the owned before the
released, and by the generation of the value. -/
def rank (generation : V → ℕ) : Entry V T → ℕ ×ₗ ℕ ×ₗ ℕ ×ₗ ℕ
  | blank => toLex (0, toLex (0, toLex (0, 0)))
  | bare v => toLex (1, toLex (0, toLex (0, generation v)))
  | held k o v => toLex (2, toLex (k, toLex (if o.isSome then 0 else 1, generation v)))
  | retired => toLex (3, toLex (0, toLex (0, 0)))

/-- An owner holds the entry. -/
theorem owner_eq_some {e : Entry V T} {k : ℕ} {t : T} :
    e.owner = some (k, t) ↔ ∃ v, e = held k (some t) v := by
  constructor
  · intro h
    match e with
    | held _ (some _) v =>
      obtain ⟨rfl, rfl⟩ := Prod.mk.inj (Option.some.inj h)
      exact ⟨v, rfl⟩
  · rintro ⟨v, rfl⟩
    rfl

/-- A generation that is past owns nothing. -/
theorem Past.owner_ne {e : Entry V T} {k : ℕ} (h : e.Past k) (t : T) : e.owner ≠ some (k, t) := by
  intro howner
  obtain ⟨v, rfl⟩ := owner_eq_some.mp howner
  rcases h with h | ⟨-, h⟩
  · omega
  · cases h

end Entry

open AgentHouse.Ownership.Entry

/-- One replacement of the register. -/
inductive Next (generation : V → ℕ) : Entry V T → Entry V T → Prop
  | create {v : V} (h : generation v = 0) : Next generation blank (bare v)
  | commit {v v' : V} (h : generation v' = generation v + 1) : Next generation (bare v) (bare v')
  | enroll (v : V) : Next generation (bare v) (held 1 none v)
  | claim (k : ℕ) (t : T) (v : V) : Next generation (held k none v) (held (k + 1) (some t) v)
  | publish (k : ℕ) (t : T) {v v' : V} (h : generation v' = generation v + 1) :
      Next generation (held k (some t) v) (held k (some t) v')
  | release (k : ℕ) (t : T) (v : V) : Next generation (held k (some t) v) (held k none v)
  | retire {e : Entry V T} (h : e ≠ .retired) : Next generation e .retired

/-- Any number of replacements. -/
abbrev Later (generation : V → ℕ) : Entry V T → Entry V T → Prop :=
  Relation.ReflTransGen (Next generation)

section Rules

variable {generation : V → ℕ} {e e' : Entry V T} {k l : ℕ} {t u : T} {v v' : V} {o o' : Option T}

/-- Each change of an entry raises its rank. -/
theorem Next.rank_lt (h : Next generation e e') : e.rank generation < e'.rank generation := by
  cases h with
  | create => simp [rank, Prod.Lex.toLex_lt_toLex]
  | commit h => simp [rank, Prod.Lex.toLex_lt_toLex, h]
  | enroll => simp [rank, Prod.Lex.toLex_lt_toLex]
  | claim => simp [rank, Prod.Lex.toLex_lt_toLex]
  | publish _ _ h => simp [rank, Prod.Lex.toLex_lt_toLex, h]
  | release => simp [rank, Prod.Lex.toLex_lt_toLex]
  | retire h =>
    cases e with
    | retired => exact absurd rfl h
    | _ => simp [rank, Prod.Lex.toLex_lt_toLex]

/-- So ranks never fall. -/
theorem Later.rank_le (h : Later generation e e') : e.rank generation ≤ e'.rank generation := by
  induction h with
  | refl => exact le_rfl
  | tail _ hnext ih => exact ih.trans hnext.rank_lt.le

/-- Retirement is final. -/
theorem Later.of_retired (h : Later generation .retired e) : e = .retired := by
  induction h with
  | refl => rfl
  | tail _ hnext ih =>
    subst ih
    cases hnext with
    | retire h => exact absurd rfl h

/-- What is past stays past. -/
theorem Next.past (h : Next generation e e') (hpast : e.Past k) : e'.Past k := by
  cases h with
  | create | commit | enroll => exact hpast.elim
  | claim =>
    left
    rcases hpast with hlt | ⟨rfl, -⟩ <;> omega
  | publish =>
    rcases hpast with hlt | ⟨-, hnone⟩
    · exact .inl hlt
    · cases hnone
  | release =>
    rcases hpast with hlt | ⟨-, hnone⟩
    · exact .inl hlt
    · cases hnone
  | retire => trivial

/-- What is past stays past. -/
theorem Later.past (h : Later generation e e') (hpast : e.Past k) : e'.Past k := by
  induction h with
  | refl => exact hpast
  | tail _ hnext ih => exact hnext.past ih

/-- An owned value is replaced by its owner, or the ownership ends. -/
theorem Next.of_owner (h : Next generation e e') (howner : e.owner = some (k, t)) :
    e'.owner = some (k, t) ∨ e'.Past k := by
  obtain ⟨v, rfl⟩ := owner_eq_some.mp howner
  cases h with
  | publish => exact .inl rfl
  | release => exact .inr (.inr ⟨rfl, rfl⟩)
  | retire => exact .inr trivial

/-- Ownership lasts until it is past for good. -/
theorem Later.of_owner (h : Later generation e e') (howner : e.owner = some (k, t)) :
    e'.owner = some (k, t) ∨ e'.Past k := by
  induction h with
  | refl => exact .inl howner
  | tail _ hnext ih => exact ih.elim hnext.of_owner fun hpast => .inr (hnext.past hpast)

/-- An epoch has one owner. -/
theorem Later.owner_unique (h : Later generation e e') (howner : e.owner = some (k, t))
    (howner' : e'.owner = some (k, u)) : t = u := by
  rcases h.of_owner howner with heq | hpast
  · rw [heq] at howner'
    exact (Prod.mk.inj (Option.some.inj howner')).2
  · exact absurd howner' (hpast.owner_ne u)

/-- Epochs never decrease. -/
theorem Later.epoch_le (h : Later generation (held k o v) (held l o' v')) : k ≤ l := by
  have hrank := h.rank_le
  simp only [rank, Prod.Lex.toLex_le_toLex, lt_irrefl, false_or, true_and] at hrank
  omega

end Rules

end AgentHouse.Ownership
