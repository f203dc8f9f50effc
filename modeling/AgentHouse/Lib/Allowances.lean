import Mathlib.Algebra.Order.Sub.Basic
import Mathlib.Algebra.Order.Monoid.Unbundled.MinMax
import Mathlib.Algebra.Order.BigOperators.Group.List
import Mathlib.Algebra.BigOperators.Group.List.Basic

/-!
# Capped allowances

An account is granted amounts up to a cap and spends what it holds. What it spends in a period
is bounded by what it held and was granted, and grants add up as long as nothing is spent.
-/

namespace AgentHouse

/-- An event of an account. -/
inductive Entry (α : Type*) where
  | grant (amount : α)
  | spend (amount : α)

namespace Allowance

variable {α : Type*} [AddCommMonoid α] {cap level : α} {entries rest : List (Entry α)}

/-- The sum of the grants. -/
def granted : List (Entry α) → α
  | [] => 0
  | .grant amount :: entries => amount + granted entries
  | .spend _ :: entries => granted entries

/-- The sum of the expenses. -/
def spent : List (Entry α) → α
  | [] => 0
  | .grant _ :: entries => spent entries
  | .spend amount :: entries => amount + spent entries

/-- Grants add up. -/
theorem granted_grants (amounts : List α) : granted (amounts.map .grant) = amounts.sum := by
  induction amounts with
  | nil => rfl
  | cons x amounts ih => rw [List.map_cons, granted, ih, List.sum_cons]

variable [LinearOrder α]

/-- Two grants, capped once or twice. -/
theorem min_grant [CanonicallyOrderedAdd α] (x y : α) : min (min (level + x) cap + y) cap =
    min (level + x + y) cap := by
  rcases le_total (level + x) cap with h | h
  · rw [min_eq_left h]
  · have hcap : cap ≤ cap + y := le_self_add
    rw [min_eq_right h, min_eq_right hcap, min_eq_right (h.trans le_self_add)]

variable [Sub α]

/-- What the account holds after an event. -/
def post (cap level : α) : Entry α → α
  | .grant amount => min (level + amount) cap
  | .spend amount => level - amount

@[simp] theorem post_grant (amount : α) :
    post cap level (.grant amount) = min (level + amount) cap := rfl

@[simp] theorem post_spend (amount : α) : post cap level (.spend amount) = level - amount := rfl

/-- What the account holds after a period. -/
def balance (cap : α) : α → List (Entry α) → α
  | level, [] => level
  | level, e :: entries => balance cap (post cap level e) entries

/-- Nothing is spent that the account does not hold. -/
def Covered (cap : α) : α → List (Entry α) → Prop
  | _, [] => True
  | level, e :: entries =>
      (∀ amount, e = .spend amount → amount ≤ level) ∧ Covered cap (post cap level e) entries

/-- Covered entries, one stretch after another. -/
theorem covered_append : Covered cap level (entries ++ rest) ↔
    Covered cap level entries ∧ Covered cap (balance cap level entries) rest := by
  induction entries generalizing level with
  | nil => exact (true_and _).symm.to_iff
  | cons e entries ih => exact (and_congr_right' ih).trans and_assoc.symm

variable [CanonicallyOrderedAdd α]

/-- Grants in a row are one grant of their sum. -/
theorem balance_grants (hlevel : level ≤ cap) (amounts : List α) :
    balance cap level (amounts.map .grant) = min (level + amounts.sum) cap := by
  induction amounts generalizing level with
  | nil => simpa [balance] using hlevel
  | cons x amounts ih =>
    have hpost : post cap level (.grant x) ≤ cap := min_le_right _ _
    calc balance cap (post cap level (.grant x)) (amounts.map .grant)
        = min (min (level + x) cap + amounts.sum) cap := ih hpost
      _ = min (level + x + amounts.sum) cap := min_grant x _
      _ = min (level + (x :: amounts).sum) cap := by rw [List.sum_cons, add_assoc]

variable [OrderedSub α]

/-- The level stays below the cap. -/
theorem post_le (h : level ≤ cap) (e : Entry α) : post cap level e ≤ cap := by
  cases e with
  | grant amount => exact min_le_right _ _
  | spend amount => exact tsub_le_self.trans h

variable [IsOrderedAddMonoid α]

/-- What is spent and what is left do not exceed what was held and granted. -/
theorem spent_add_balance_le (h : Covered cap level entries) :
    spent entries + balance cap level entries ≤ level + granted entries := by
  induction entries generalizing level with
  | nil => simp [spent, balance, granted]
  | cons e entries ih =>
    have hrest := ih h.2
    cases e with
    | grant amount =>
      calc spent entries + balance cap (min (level + amount) cap) entries
          ≤ min (level + amount) cap + granted entries := hrest
        _ ≤ level + amount + granted entries := by gcongr; exact min_le_left _ _
        _ = level + (amount + granted entries) := add_assoc _ _ _
    | spend amount =>
      calc amount + spent entries + balance cap (level - amount) entries
          = amount + (spent entries + balance cap (level - amount) entries) := add_assoc _ _ _
        _ ≤ amount + (level - amount + granted entries) := add_le_add_right hrest _
        _ = level + granted entries := by
          rw [← add_assoc, add_tsub_cancel_of_le (h.1 amount rfl)]

/-- The expenses of a period that begins at the cap or below. -/
theorem spent_le (h : Covered cap level entries) (hlevel : level ≤ cap) :
    spent entries ≤ cap + granted entries :=
  calc spent entries ≤ spent entries + balance cap level entries := le_self_add
    _ ≤ level + granted entries := spent_add_balance_le h
    _ ≤ cap + granted entries := by gcongr

end Allowance

end AgentHouse
