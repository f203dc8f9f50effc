import Mathlib.Data.List.Basic
import Mathlib.Data.List.TakeWhile
import Mathlib.Tactic.Common

/-!
# Header fields of messages

A message has any number of values under each field name. Names are kept in lower case, and a
value is a string of bytes that need not be text. Lists in a value are split at a separator.
-/

namespace AgentHouse

namespace Headers

/-- Names and values of headers. -/
abbrev Bytes := List UInt8

/-- The bytes of an ASCII text. -/
def ascii (s : String) : Bytes := s.toList.map fun c => UInt8.ofNat c.toNat

/-- A byte that a value of visible text may have. -/
def isVisible (b : UInt8) : Bool := b == 9 || (decide (32 ≤ b) && decide (b < 127))

/-- A value as a text, if all of its bytes are visible. -/
def toStr (value : Bytes) : Option Bytes := if value.all isVisible then some value else none

/-- A blank of header values. -/
def isBlank (b : UInt8) : Bool := b == 9 || b == 32

/-- The value without its blanks in front. -/
def trimStart (s : Bytes) : Bytes := s.dropWhile isBlank

/-- The value without its blanks on either side. -/
def trim (s : Bytes) : Bytes := (trimStart (trimStart s).reverse).reverse

/-- What stands before and after the first separator. -/
def splitOnce (sep : UInt8) (s : Bytes) : Option (Bytes × Bytes) :=
  if sep ∈ s then some (s.takeWhile (· ≠ sep), (s.dropWhile (· ≠ sep)).tail) else none

/-- The lower case of an ASCII letter. -/
def toLower (b : UInt8) : UInt8 := if 65 ≤ b ∧ b ≤ 90 then b + 32 else b

/-- The lower case of a text. -/
def lowercase (s : Bytes) : Bytes := s.map toLower

/-- A byte of a header name. -/
def isTokenByte (b : UInt8) : Bool :=
  (decide (48 ≤ b) && decide (b ≤ 57)) || (decide (65 ≤ b) && decide (b ≤ 90)) ||
    (decide (97 ≤ b) && decide (b ≤ 122)) || (ascii "!#$%&'*+-.^_`|~").contains b

/-- A field name, in lower case. -/
def parseName (s : Bytes) : Option Bytes :=
  if s ≠ [] ∧ s.all isTokenByte then some (lowercase s) else none

end Headers

/-- The fields of a message, in order. -/
abbrev HeaderMap := List (Headers.Bytes × Headers.Bytes)

namespace HeaderMap

open Headers

variable {m : HeaderMap} {name other value : Bytes}

/-- All values of a name, in their order. -/
def getAll (m : HeaderMap) (name : Bytes) : List Bytes :=
  (m.filter fun f => f.1 = name).map (·.2)

/-- The first value. -/
def first (m : HeaderMap) (name : Bytes) : Option Bytes := (m.getAll name).head?

/-- The name has a value. -/
def has (m : HeaderMap) (name : Bytes) : Bool := m.any fun f => f.1 = name

/-- The headers without a name. -/
def remove (m : HeaderMap) (name : Bytes) : HeaderMap := m.filter fun f => f.1 ≠ name

/-- Another value of a name. -/
def append (m : HeaderMap) (name value : Bytes) : HeaderMap := List.append m [(name, value)]

/-- The only value from now on. -/
def insert (m : HeaderMap) (name value : Bytes) : HeaderMap := (m.remove name).append name value

/-- The headers without several names. -/
def removeAll (m : HeaderMap) (names : List Bytes) : HeaderMap := names.foldl remove m

/-- A removed name has no values. -/
theorem getAll_remove_self : (m.remove name).getAll name = [] := by
  unfold getAll remove
  rw [List.filter_filter, List.filter_eq_nil_iff.mpr, List.map_nil]
  intro f _
  simp

/-- The other names keep theirs. -/
theorem getAll_remove_of_ne (h : other ≠ name) : (m.remove name).getAll other = m.getAll other := by
  unfold getAll remove
  rw [List.filter_filter]
  congr 1
  refine List.filter_congr fun f _ => ?_
  by_cases hf : f.1 = other
  · simp [hf, h]
  · simp [hf]

@[simp] theorem getAll_remove : (m.remove name).getAll other =
    if other = name then [] else m.getAll other := by
  by_cases h : other = name
  · rw [if_pos h, h, getAll_remove_self]
  · rw [if_neg h, getAll_remove_of_ne h]

/-- One value more. -/
@[simp] theorem getAll_append : (m.append name value).getAll other =
    m.getAll other ++ if other = name then [value] else [] := by
  unfold getAll append
  by_cases h : other = name
  · simp [h]
  · simp [h, Ne.symm h]

/-- One value instead of all. -/
@[simp] theorem getAll_insert : (m.insert name value).getAll other =
    if other = name then [value] else m.getAll other := by
  unfold insert
  rw [getAll_append, getAll_remove]
  by_cases h : other = name
  · simp [h]
  · simp [h]

/-- Several names at once. -/
@[simp] theorem getAll_removeAll (names : List Bytes) : (m.removeAll names).getAll other =
    if other ∈ names then [] else m.getAll other := by
  induction names generalizing m with
  | nil => rfl
  | cons name names ih =>
    show ((m.remove name).removeAll names).getAll other = _
    rw [ih, getAll_remove]
    by_cases h : other ∈ names
    · simp [h]
    · by_cases hname : other = name <;> simp [h, hname]

end HeaderMap

namespace Headers

variable {sep : UInt8} {s piece : Bytes} {pieces : List Bytes}

/-- No piece contains the separator. -/
theorem not_mem_of_mem_splitOn (h : piece ∈ s.splitOn sep) : sep ∉ piece := by
  induction s generalizing piece with
  | nil =>
    rw [List.splitOn_nil, List.mem_singleton] at h
    rw [h]
    exact List.not_mem_nil
  | cons b s ih =>
    rw [List.splitOn_cons_eq_if_modifyHead] at h
    by_cases hb : b == sep
    · rw [if_pos hb] at h
      rcases List.mem_cons.mp h with rfl | h
      · exact List.not_mem_nil
      · exact ih h
    · rw [if_neg hb] at h
      obtain ⟨head, tail, hsplit⟩ := List.exists_cons_of_ne_nil (List.splitOn_ne_nil sep s)
      rw [hsplit, List.modifyHead_cons] at h
      rcases List.mem_cons.mp h with rfl | h
      · have hhead := ih (hsplit ▸ List.mem_cons_self)
        intro hmem
        rcases List.mem_cons.mp hmem with rfl | hmem
        · exact hb (beq_self_eq_true _)
        · exact hhead hmem
      · exact ih (hsplit ▸ List.mem_cons_of_mem _ h)

/-- What is left of the pieces is what is read again. -/
theorem splitOn_intercalate_filter (p : Bytes → Bool) (hne : (s.splitOn sep).filter p ≠ []) :
    ([sep].intercalate ((s.splitOn sep).filter p)).splitOn sep = (s.splitOn sep).filter p :=
  List.splitOn_intercalate sep
    (fun _ hpiece => not_mem_of_mem_splitOn (List.mem_of_mem_filter hpiece)) hne

end Headers

end AgentHouse
