import Mathlib.Data.List.Basic
import Mathlib.Tactic.Common

/-!
# Lines of a text

A line is complete once its separator has been written. `split` cuts a text into its complete
lines and the rest, and `next` takes off the first line. What has been written stays: the lines
of a text are the first lines of every longer text.
-/

namespace AgentHouse.Lines

variable {α : Type*} [DecidableEq α] (sep : α)

/-- A line with its separator, which stands at the end only. -/
def Complete (line : List α) : Prop := ∃ body, sep ∉ body ∧ line = body ++ [sep]

/-- The complete lines, and what follows them. -/
def split : List α → List (List α) × List α
  | [] => ([], [])
  | a :: text =>
      let (lines, tail) := split text
      if a = sep then ([a] :: lines, tail)
      else
        match lines with
        | [] => ([], a :: tail)
        | line :: lines => ((a :: line) :: lines, tail)

/-- The first complete line, and what follows it. -/
def next : List α → Option (List α × List α)
  | [] => none
  | a :: text =>
      if a = sep then some ([a], text)
      else (next text).map fun (line, rest) => (a :: line, rest)

variable {sep} {text line rest : List α}

omit [DecidableEq α] in
theorem Complete.length_pos (h : Complete sep line) : 0 < line.length := by
  obtain ⟨body, _, rfl⟩ := h
  simp

/-- The first line ends with the separator. -/
theorem next_eq_some (h : next sep text = some (line, rest)) :
    text = line ++ rest ∧ Complete sep line := by
  induction text generalizing line with
  | nil => cases h
  | cons a text ih =>
    rw [next] at h
    split at h
    · rename_i ha
      obtain ⟨rfl, rfl⟩ := Prod.mk.inj (Option.some.inj h)
      exact ⟨rfl, [], List.not_mem_nil, by rw [ha]; rfl⟩
    · rename_i ha
      obtain ⟨⟨line', rest'⟩, hnext, heq⟩ := Option.map_eq_some_iff.mp h
      obtain ⟨rfl, rfl⟩ := Prod.mk.inj heq
      obtain ⟨rfl, body, hbody, rfl⟩ := ih hnext
      refine ⟨rfl, a :: body, ?_, rfl⟩
      rintro (_ | ⟨_, hmem⟩)
      · exact ha rfl
      · exact hbody hmem

/-- There is none without a separator. -/
theorem next_eq_none : next sep text = none ↔ sep ∉ text := by
  induction text with
  | nil => simp [next]
  | cons a text ih =>
    rw [next]
    split
    · rename_i ha
      simp [ha]
    · rename_i ha
      rw [Option.map_eq_none_iff, ih, List.mem_cons, not_or]
      exact ⟨fun h => ⟨fun heq => ha heq.symm, h⟩, And.right⟩

/-- Then all of the text is left. -/
theorem split_of_not_mem (h : sep ∉ text) : split sep text = ([], text) := by
  induction text with
  | nil => rfl
  | cons a text ih =>
    obtain ⟨hne, hmem⟩ := not_or.mp (mt List.mem_cons.mpr h)
    rw [split, ih hmem]
    exact if_neg (Ne.symm hne)

/-- A text that begins with a complete line. -/
theorem split_line (h : Complete sep line) (rest : List α) :
    split sep (line ++ rest) = (line :: (split sep rest).1, (split sep rest).2) := by
  obtain ⟨body, hbody, rfl⟩ := h
  induction body with
  | nil => simp [split]
  | cons a body ih =>
    obtain ⟨hne, hmem⟩ := not_or.mp (mt List.mem_cons.mpr hbody)
    have ih := ih hmem
    rw [List.cons_append, List.cons_append, split, ih]
    exact if_neg (Ne.symm hne)

/-- A text that begins with complete lines. -/
theorem split_lines {lines : List (List α)} (h : ∀ line ∈ lines, Complete sep line)
    (rest : List α) :
    split sep (lines.flatten ++ rest) = (lines ++ (split sep rest).1, (split sep rest).2) := by
  induction lines with
  | nil => rfl
  | cons line lines ih =>
    have ih := ih fun l hl => h l (List.mem_cons_of_mem _ hl)
    rw [List.flatten_cons, List.append_assoc, split_line (h line List.mem_cons_self), ih]
    rfl

/-- A text that begins with no separator has a long line or a long rest. -/
theorem split_long {start : List α} (h : sep ∉ start) (rest : List α) :
    (∃ line ∈ (split sep (start ++ rest)).1, start.length < line.length) ∨
      start.length ≤ (split sep (start ++ rest)).2.length := by
  cases hnext : next sep (start ++ rest) with
  | none =>
    right
    rw [split_of_not_mem (next_eq_none.mp hnext), List.length_append]
    exact Nat.le_add_right _ _
  | some p =>
    left
    obtain ⟨htext, hcomplete⟩ := next_eq_some hnext
    rw [htext, split_line hcomplete]
    refine ⟨p.1, List.mem_cons_self, ?_⟩
    by_contra hle
    rw [Nat.not_lt] at hle
    have hstart : p.1 <+: start :=
      List.prefix_of_prefix_length_le ⟨p.2, htext.symm⟩ ⟨rest, rfl⟩ hle
    obtain ⟨body, -, hline⟩ := hcomplete
    refine h (hstart.subset ?_)
    rw [hline]
    exact List.mem_append_right _ List.mem_cons_self

end AgentHouse.Lines
