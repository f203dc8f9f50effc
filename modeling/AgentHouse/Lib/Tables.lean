import Mathlib.Data.List.Nodup
import Mathlib.Algebra.Order.BigOperators.Group.List
import Mathlib.Algebra.Order.Group.Nat
import Mathlib.Algebra.Ring.Nat

/-!
# Tables with a primary key

A table is the list of its rows. `row key k` selects the row with a key and `revise key k f`
updates it; `Keyed key` says that no two rows share a key. The lemmas say what each
operation does to the selected rows and to the sum of a column.
-/

namespace AgentHouse.Table

variable {α κ : Type*} [DecidableEq κ] {key : α → κ}

/-- The row with a key. -/
def row (key : α → κ) (k : κ) (rows : List α) : Option α :=
  rows.find? (fun r => key r = k)

/-- Update the row with a key. -/
def revise (key : α → κ) (k : κ) (f : α → α) (rows : List α) : List α :=
  rows.map (fun r => if key r = k then f r else r)

/-- No two rows share a key. -/
def Keyed (key : α → κ) (rows : List α) : Prop := (rows.map key).Nodup

variable {rows : List α} {k j : κ} {r : α}

/-- A row that is found is in the table, under its key. -/
theorem row_mem (h : row key k rows = some r) : r ∈ rows ∧ key r = k :=
  ⟨List.mem_of_find?_eq_some h, by simpa using List.find?_some h⟩

/-- No row has a key that is not found. -/
theorem row_eq_none : row key k rows = none ↔ ∀ r ∈ rows, key r ≠ k := by
  simp [row, List.find?_eq_none]

/-- With distinct keys every row is found. -/
theorem Keyed.row_of_mem (h : Keyed key rows) (hr : r ∈ rows) : row key (key r) rows = some r := by
  cases hfind : row key (key r) rows with
  | none => exact absurd rfl (row_eq_none.mp hfind r hr)
  | some s =>
    obtain ⟨hs, hkey⟩ := row_mem hfind
    rw [List.inj_on_of_nodup_map h hs hr hkey]

/-- Exactly one row satisfies what only one row satisfies. -/
theorem countP_eq_one {α : Type*} {rows : List α} {r : α} {p : α → Bool} (h : rows.Nodup)
    (hr : r ∈ rows) (hp : p r = true) (honly : ∀ s ∈ rows, p s = true → s = r) :
    rows.countP p = 1 := by
  classical
  have hcongr : rows.countP p = rows.countP (· == r) := by
    apply List.countP_congr
    intro s hs
    rw [beq_iff_eq]
    exact ⟨honly s hs, fun heq => heq ▸ hp⟩
  rw [hcongr]
  exact List.count_eq_one_of_mem h hr

section Revise

variable {f : α → α}

theorem key_revise (hf : ∀ r, key (f r) = key r) :
    (revise key k f rows).map key = rows.map key := by
  rw [revise, List.map_map]
  apply List.map_congr_left
  intro r _
  simp only [Function.comp_apply]
  split
  · exact hf r
  · rfl

theorem Keyed.revise (h : Keyed key rows) (hf : ∀ r, key (f r) = key r) :
    Keyed key (Table.revise key k f rows) := by
  rw [Keyed, key_revise hf]
  exact h

/-- A revision changes one row. -/
theorem row_revise (hf : ∀ r, key (f r) = key r) :
    row key j (revise key k f rows) =
      if j = k then (row key j rows).map f else row key j rows := by
  induction rows with
  | nil => simp [row, Table.revise]
  | cons r rest ih =>
    have hkey : key (if key r = k then f r else r) = key r := by
      split
      · exact hf r
      · rfl
    simp only [row, revise, List.map_cons, List.find?_cons, hkey] at ih ⊢
    by_cases hrj : key r = j
    · subst hrj
      simp only [decide_true]
      split <;> rfl
    · simp only [hrj, decide_false]
      exact ih

/-- A revision of a row that is not there changes nothing. -/
theorem revise_absent (h : row key k rows = none) : revise key k f rows = rows := by
  rw [revise]
  conv_rhs => rw [← List.map_id rows]
  apply List.map_congr_left
  intro r hr
  rw [if_neg (row_eq_none.mp h r hr), id]

/-- An update changes a sum by what it changes in the one row. -/
theorem sum_revise (h : Keyed key rows) (hr : row key k rows = some r) (g : α → ℕ) :
    ((revise key k f rows).map g).sum + g r = (rows.map g).sum + g (f r) := by
  induction rows with
  | nil => cases hr
  | cons s rest ih =>
    obtain ⟨hfresh, hrest⟩ := List.nodup_cons.mp h
    by_cases hsk : key s = k
    · have hsr : s = r := by simpa [row, List.find?_cons, hsk] using hr
      subst hsr
      have habsent : row key k rest = none := by
        rw [row_eq_none]
        intro t ht htk
        exact hfresh (List.mem_map.mpr ⟨t, ht, htk.trans hsk.symm⟩)
      have hcons : revise key k f (s :: rest) = f s :: revise key k f rest := by
        simp [revise, hsk]
      rw [hcons, revise_absent habsent, List.map_cons, List.map_cons, List.sum_cons,
        List.sum_cons]
      omega
    · have hr' : row key k rest = some r := by
        simpa [row, List.find?_cons, hsk] using hr
      have hcons : revise key k f (s :: rest) = s :: revise key k f rest := by
        simp [revise, hsk]
      have := ih hrest hr'
      rw [hcons, List.map_cons, List.map_cons, List.sum_cons, List.sum_cons]
      omega

/-- An update that makes no row larger does not make a sum larger. -/
theorem sum_revise_le {g : α → ℕ} (hg : ∀ r, g (f r) ≤ g r) :
    ((revise key k f rows).map g).sum ≤ (rows.map g).sum := by
  rw [revise, List.map_map]
  apply List.sum_le_sum
  intro r _
  simp only [Function.comp_apply]
  split
  · exact hg r
  · exact le_rfl

end Revise

section Insert

omit [DecidableEq κ] in
theorem mem_snoc {s : α} : s ∈ rows ++ [r] ↔ s ∈ rows ∨ s = r := by
  rw [List.mem_append, List.mem_singleton]

omit [DecidableEq κ] in
/-- The row at a place after one was added at the end. -/
theorem getElem?_snoc {s : α} {n : ℕ} (h : (rows ++ [r])[n]? = some s) :
    rows[n]? = some s ∨ n = rows.length ∧ s = r := by
  rw [List.getElem?_append, List.getElem?_singleton] at h
  split at h
  · exact .inl h
  · split at h
    · exact .inr ⟨by omega, (Option.some.inj h).symm⟩
    · cases h

omit [DecidableEq κ] in
/-- The row at a place after one was replaced. -/
theorem getElem?_replaced {s : α} {n k : ℕ} (h : (rows.set n r)[k]? = some s) :
    k = n ∧ s = r ∨ k ≠ n ∧ rows[k]? = some s := by
  rw [List.getElem?_set] at h
  split at h
  · rename_i hk
    split at h
    · exact .inl ⟨hk.symm, (Option.some.inj h).symm⟩
    · cases h
  · rename_i hk
    exact .inr ⟨Ne.symm hk, h⟩

/-- A row with a new key may be added. -/
theorem Keyed.append (h : Keyed key rows) (hr : row key (key r) rows = none) :
    Keyed key (rows ++ [r]) := by
  rw [Keyed, List.map_append, List.nodup_append]
  refine ⟨h, List.nodup_singleton _, ?_⟩
  intro a ha b hb
  obtain ⟨s, hs, rfl⟩ := List.mem_map.mp ha
  rw [List.map_singleton, List.mem_singleton] at hb
  subst hb
  exact row_eq_none.mp hr s hs

/-- And is found. -/
theorem row_append (hr : row key (key r) rows = none) :
    row key j (rows ++ [r]) = if j = key r then some r else row key j rows := by
  rw [row, List.find?_append]
  split
  · subst j
    change ((row key (key r) rows).or _) = _
    simp [hr]
  · rename_i hj
    have hne : key r ≠ j := fun he => hj he.symm
    simp [row, hne]

end Insert

section Delete

variable {p : α → Bool}

omit [DecidableEq κ] in
theorem Keyed.filter (h : Keyed key rows) : Keyed key (rows.filter p) :=
  (List.Sublist.map key List.filter_sublist).nodup h

/-- The rows of a filtered table. -/
theorem Keyed.row_filter (h : Keyed key rows) :
    row key j (rows.filter p) = (row key j rows).filter p := by
  cases hrow : row key j rows with
  | none =>
    rw [Option.filter_none, row_eq_none]
    intro r hr
    exact row_eq_none.mp hrow r (List.mem_of_mem_filter hr)
  | some r =>
    obtain ⟨hr, rfl⟩ := row_mem hrow
    by_cases hp : p r
    · rw [Option.filter_some_pos hp]
      exact h.filter.row_of_mem (List.mem_filter.mpr ⟨hr, hp⟩)
    · rw [Option.filter_some_neg (by simpa using hp), row_eq_none]
      intro s hs hkey
      obtain ⟨hsm, hps⟩ := List.mem_filter.mp hs
      have : s = r := List.inj_on_of_nodup_map h hsm hr hkey
      subst this
      exact hp hps

/-- A filter that keeps the rows of a key. -/
theorem row_filter_of (h : ∀ r ∈ rows, key r = k → p r = true) :
    row key k (rows.filter p) = row key k rows := by
  induction rows with
  | nil => rfl
  | cons r rest ih =>
    have ih := ih fun s hs => h s (List.mem_cons_of_mem _ hs)
    unfold row at ih ⊢
    by_cases hkey : key r = k
    · rw [List.filter_cons_of_pos (h r List.mem_cons_self hkey)]
      simp [hkey]
    · rw [List.find?_cons_of_neg (by simpa using hkey), ← ih]
      by_cases hp : p r = true
      · rw [List.filter_cons_of_pos hp, List.find?_cons_of_neg (by simpa using hkey)]
      · rw [List.filter_cons_of_neg hp]

/-- The rows without those of one key. -/
theorem row_filter_ne :
    row key j (rows.filter fun r => key r ≠ k) = if j = k then none else row key j rows := by
  split
  · rename_i hj
    rw [row_eq_none, hj]
    intro r hr
    exact of_decide_eq_true (List.mem_filter.mp hr).2
  · rename_i hj
    unfold row
    rw [List.find?_filter]
    congr 1
    funext r
    by_cases hr : key r = j
    · simp [hr, hj]
    · simp [hr]

/-- A sum without the row of a key. -/
theorem sum_filter_ne (h : Keyed key rows) (hr : row key k rows = some r) (g : α → ℕ) :
    ((rows.filter fun s => decide (key s ≠ k)).map g).sum + g r = (rows.map g).sum := by
  induction rows with
  | nil => cases hr
  | cons s rest ih =>
    obtain ⟨hfresh, hrest⟩ := List.nodup_cons.mp h
    by_cases hsk : key s = k
    · obtain rfl : s = r := by simpa [row, List.find?_cons, hsk] using hr
      have hkept : rest.filter (fun s => decide (key s ≠ k)) = rest :=
        List.filter_eq_self.mpr fun t ht => decide_eq_true fun htk =>
          hfresh (List.mem_map.mpr ⟨t, ht, htk.trans hsk.symm⟩)
      rw [List.filter_cons_of_neg (by simp [hsk]), hkept, List.map_cons, List.sum_cons, add_comm]
    · have hr' : row key k rest = some r := by
        simpa [row, List.find?_cons, hsk] using hr
      have := ih hrest hr'
      rw [List.filter_cons_of_pos (by simp [hsk]), List.map_cons, List.map_cons, List.sum_cons,
        List.sum_cons]
      omega

/-- Deleting rows does not make a sum larger. -/
theorem sum_filter_le (g : α → ℕ) : ((rows.filter p).map g).sum ≤ (rows.map g).sum :=
  (List.Sublist.map g List.filter_sublist).sum_le_sum (fun _ _ => Nat.zero_le _)

end Delete

end AgentHouse.Table
