import Mathlib.Data.List.Induction
import Mathlib.Tactic.Linarith
import Mathlib.Data.Set.Function

/-!
# Slices of lists and big-endian numbers

The storage formats address fixed windows of byte strings. `slice` reads a window,
`splice` overwrites one. Both are characterized pointwise, and every later fact about
them is read off from the two pointwise lemmas.
-/

namespace AgentHouse

variable {α : Type*}

/-- The window of `n` elements that starts at `a`. -/
def slice (l : List α) (a n : ℕ) : List α := (l.drop a).take n

/-- Overwrite the window at `a` by `b`. -/
def splice (l : List α) (a : ℕ) (b : List α) : List α := l.take a ++ b ++ l.drop (a + b.length)

/-- A slice, element by element. -/
theorem getElem?_slice (l : List α) (a n k : ℕ) :
    (slice l a n)[k]? = if k < n then l[a + k]? else none := by
  unfold slice
  rw [List.getElem?_take]
  split <;> simp

/-- A slice depends on its range only. -/
theorem slice_congr {l l' : List α} {a n : ℕ} (h : ∀ k, a ≤ k → k < a + n → l'[k]? = l[k]?) :
    slice l' a n = slice l a n := by
  apply List.ext_getElem?
  intro k
  rw [getElem?_slice, getElem?_slice]
  split
  · exact h _ (by omega) (by omega)
  · rfl

/-- A splice, element by element. -/
theorem getElem?_splice {l b : List α} {a : ℕ} (h : a + b.length ≤ l.length) (k : ℕ) :
    (splice l a b)[k]? =
      if a ≤ k ∧ k < a + b.length then b[k - a]? else l[k]? := by
  have ha : min a l.length = a := by omega
  unfold splice
  by_cases hk : k < a
  · rw [List.append_assoc, List.getElem?_append_left (by simp; omega), if_neg (by omega),
      List.getElem?_take, if_pos hk]
  · by_cases hb : k < a + b.length
    · rw [if_pos ⟨by omega, hb⟩, List.getElem?_append_left (by simp; omega),
        List.getElem?_append_right (by simp; omega)]
      simp [ha]
    · rw [if_neg (by omega), List.getElem?_append_right (by simp; omega), List.getElem?_drop]
      congr 1
      simp only [List.length_append, List.length_take]
      omega

@[simp] theorem length_slice (l : List α) (a n : ℕ) :
    (slice l a n).length = min n (l.length - a) := by
  simp [slice]

@[simp] theorem length_splice {l b : List α} {a : ℕ} (h : a + b.length ≤ l.length) :
    (splice l a b).length = l.length := by
  simp only [splice, List.length_append, List.length_take, List.length_drop]
  omega

/-- What was spliced in is there. -/
theorem slice_splice_self {l b : List α} {a : ℕ} (h : a + b.length ≤ l.length) :
    slice (splice l a b) a b.length = b := by
  apply List.ext_getElem?
  intro k
  rw [getElem?_slice, getElem?_splice h]
  by_cases hk : k < b.length
  · simp [hk]
  · simp [hk]

/-- A window that is disjoint from the overwritten one keeps its contents. -/
theorem slice_splice_of_disjoint {l b : List α} {a c n : ℕ} (h : a + b.length ≤ l.length)
    (hd : c + n ≤ a ∨ a + b.length ≤ c) : slice (splice l a b) c n = slice l c n := by
  apply List.ext_getElem?
  intro k
  rw [getElem?_slice, getElem?_slice, getElem?_splice h]
  split
  · rw [if_neg (by omega)]
  · rfl

/-- Overwriting inside a window is overwriting in the window's own coordinates. -/
theorem slice_splice_of_within {l b : List α} {a c n : ℕ} (h : c + n ≤ l.length)
    (hc : c ≤ a) (hn : a + b.length ≤ c + n) :
    slice (splice l a b) c n = splice (slice l c n) (a - c) b := by
  have hl : (slice l c n).length = n := by rw [length_slice]; omega
  apply List.ext_getElem?
  intro k
  rw [getElem?_slice, getElem?_splice (by omega), getElem?_splice (by omega), getElem?_slice]
  by_cases hk : k < n
  · simp only [hk, if_true]
    have hiff : (a ≤ c + k ∧ c + k < a + b.length) ↔ (a - c ≤ k ∧ k < a - c + b.length) := by
      omega
    by_cases hin : a ≤ c + k ∧ c + k < a + b.length
    · rw [if_pos hin, if_pos (hiff.mp hin)]
      congr 1
      omega
    · rw [if_neg hin, if_neg (fun hb => hin (hiff.mpr hb))]
  · rw [if_neg hk, if_neg (by omega), if_neg hk]

/-- Overwriting part of a window is overwriting the window by its changed contents. -/
theorem splice_within {l b : List α} {a c n : ℕ} (h : a + n ≤ l.length) (hc : c + b.length ≤ n) :
    splice l (a + c) b = splice l a (splice (slice l a n) c b) := by
  have hl : (slice l a n).length = n := by rw [length_slice]; omega
  have hs : (splice (slice l a n) c b).length = n := by rw [length_splice (by omega), hl]
  apply List.ext_getElem?
  intro k
  rw [getElem?_splice (by omega), getElem?_splice (by omega), hs, getElem?_splice (by omega),
    getElem?_slice]
  by_cases hin : a + c ≤ k ∧ k < a + c + b.length
  · rw [if_pos hin, if_pos (by omega), if_pos (by omega)]
    congr 1
    omega
  · rw [if_neg hin]
    by_cases hk : a ≤ k ∧ k < a + n
    · rw [if_pos hk, if_neg (by omega), if_pos (by omega)]
      congr 1
      omega
    · rw [if_neg hk]

/-- The later of two overwrites of one window counts. -/
theorem splice_splice {l b c : List α} {a : ℕ} (h : a + b.length ≤ l.length)
    (hc : c.length = b.length) : splice (splice l a b) a c = splice l a c := by
  have hs := length_splice h
  apply List.ext_getElem?
  intro k
  rw [getElem?_splice (by omega), getElem?_splice h, getElem?_splice (by omega), hc]
  by_cases hin : a ≤ k ∧ k < a + b.length
  · rw [if_pos hin, if_pos hin]
  · rw [if_neg hin, if_neg hin, if_neg hin]

/-- A slice of a slice. -/
theorem slice_slice {l : List α} {a n c m : ℕ} (h : c + m ≤ n) :
    slice (slice l a n) c m = slice l (a + c) m := by
  apply List.ext_getElem?
  intro k
  rw [getElem?_slice, getElem?_slice, getElem?_slice]
  by_cases hk : k < m
  · simp [hk, show c + k < n by omega, Nat.add_assoc]
  · simp [hk]

theorem slice_eq_self {l : List α} {n : ℕ} (h : l.length = n) : slice l 0 n = l := by
  simp [slice, ← h]

/-- A slice of the left part. -/
theorem slice_append_left {l r : List α} {a n : ℕ} (h : a + n ≤ l.length) :
    slice (l ++ r) a n = slice l a n := by
  apply List.ext_getElem?
  intro k
  rw [getElem?_slice, getElem?_slice]
  by_cases hk : k < n
  · simp only [hk, if_true]
    rw [List.getElem?_append_left (by omega)]
  · simp [hk]

/-- A slice of the right part. -/
theorem slice_append_right {l r : List α} {a n : ℕ} (h : l.length ≤ a) :
    slice (l ++ r) a n = slice r (a - l.length) n := by
  apply List.ext_getElem?
  intro k
  rw [getElem?_slice, getElem?_slice]
  by_cases hk : k < n
  · simp only [hk, if_true]
    rw [List.getElem?_append_right (by omega)]
    congr 1
    omega
  · simp [hk]

/-- The `k`-th of several pieces of one length. -/
theorem slice_flatMap {β : Type*} {l : List β} {g : β → List α} {n : ℕ}
    (hlen : ∀ x ∈ l, (g x).length = n) {k : ℕ} {x : β} (hx : l[k]? = some x) :
    slice (l.flatMap g) (k * n) n = g x := by
  induction l generalizing k with
  | nil => simp at hx
  | cons y l ih =>
    have hy : (g y).length = n := hlen y List.mem_cons_self
    rw [List.flatMap_cons]
    cases k with
    | zero =>
      obtain rfl : y = x := by simpa using hx
      rw [Nat.zero_mul, slice_append_left (by omega), slice_eq_self hy]
    | succ k =>
      rw [slice_append_right (by rw [hy, Nat.succ_mul]; omega), hy, Nat.succ_mul,
        Nat.add_sub_cancel]
      exact ih (fun z hz => hlen z (List.mem_cons_of_mem _ hz)) (by simpa using hx)

theorem length_flatMap_eq {β : Type*} {l : List β} {g : β → List α} {n : ℕ}
    (hlen : ∀ x ∈ l, (g x).length = n) : (l.flatMap g).length = l.length * n := by
  induction l with
  | nil => simp
  | cons y l ih =>
    rw [List.flatMap_cons, List.length_append, hlen y List.mem_cons_self,
      ih (fun z hz => hlen z (List.mem_cons_of_mem _ hz)), List.length_cons, Nat.succ_mul]
    omega

/-- The whole frames of `n` elements at the start of a list. -/
def frames (n : ℕ) (l : List α) : List (List α) :=
  (List.range (l.length / n)).map (fun k => slice l (k * n) n)

/-- Frames written one after another are read back, without an incomplete one at the end. -/
theorem frames_flatMap_append {β : Type*} {l : List β} {g : β → List α} {n : ℕ} (hn : 0 < n)
    (hlen : ∀ x ∈ l, (g x).length = n) {tail : List α} (htail : tail.length < n) :
    frames n (l.flatMap g ++ tail) = l.map g := by
  have hcount : (l.flatMap g ++ tail).length / n = l.length := by
    rw [List.length_append, length_flatMap_eq hlen, Nat.mul_comm, Nat.mul_add_div hn,
      Nat.div_eq_of_lt htail, Nat.add_zero]
  rw [frames, hcount]
  apply List.ext_getElem?
  intro k
  rw [List.getElem?_map, List.getElem?_map]
  by_cases hk : k < l.length
  · obtain ⟨x, hx⟩ : ∃ x, l[k]? = some x := ⟨l[k], List.getElem?_eq_getElem hk⟩
    have hle : k * n + n ≤ (l.flatMap g).length := by
      rw [length_flatMap_eq hlen, ← Nat.succ_mul]
      exact Nat.mul_le_mul_right n hk
    rw [List.getElem?_range hk, hx, Option.map_some, Option.map_some, slice_append_left hle,
      slice_flatMap hlen hx]
  · rw [List.getElem?_eq_none (by simpa using hk), List.getElem?_eq_none (by omega)]
    rfl

/-- Cutting a sequence of frames leaves whole frames and an incomplete one. -/
theorem take_frames {β : Type*} {l : List β} {g : β → List α} {n : ℕ} (hn : 0 < n)
    (hlen : ∀ x ∈ l, (g x).length = n) {tail : List α} (htail : tail.length < n) (k : ℕ) :
    ∃ tail', tail'.length < n ∧
      (l.flatMap g ++ tail).take k = (l.take (k / n)).flatMap g ++ tail' := by
  have hsplit : l.flatMap g ++ tail =
      (l.take (k / n)).flatMap g ++ ((l.drop (k / n)).flatMap g ++ tail) := by
    rw [← List.append_assoc, ← List.flatMap_append, List.take_append_drop]
  have hfirst : ((l.take (k / n)).flatMap g).length = min (k / n) l.length * n := by
    rw [length_flatMap_eq (fun x hx => hlen x (List.mem_of_mem_take hx)), List.length_take]
  have hk := Nat.div_add_mod' k n
  have hmod := Nat.mod_lt k hn
  have hle : min (k / n) l.length * n ≤ k / n * n := Nat.mul_le_mul_right n (min_le_left _ _)
  rw [hsplit, List.take_append, hfirst, List.take_of_length_le (by omega)]
  refine ⟨_, ?_, rfl⟩
  rw [List.length_take]
  by_cases hfit : k / n ≤ l.length
  · rw [min_eq_left hfit]
    omega
  · rw [List.drop_eq_nil_of_le (by omega), List.flatMap_nil, List.nil_append]
    omega

/-- Consecutive groups of at most `n` elements, as `slice::chunks` cuts them. -/
def groupsOf (n : ℕ) (l : List α) : List (List α) :=
  if 0 < n ∧ l ≠ [] then l.take n :: groupsOf n (l.drop n) else []
termination_by l.length
decreasing_by
  rename_i h
  have := List.length_pos_iff.mpr h.2
  simp only [List.length_drop]
  omega

/-- Grouping loses nothing. -/
theorem flatten_groupsOf {n : ℕ} (hn : 0 < n) (l : List α) : (groupsOf n l).flatten = l := by
  induction l using groupsOf.induct n with
  | case1 l h ih => rw [groupsOf, if_pos h, List.flatten_cons, ih, List.take_append_drop]
  | case2 l h =>
    rw [groupsOf, if_neg h]
    have : l = [] := by
      by_contra hne
      exact h ⟨hn, hne⟩
    simp [this]

theorem length_le_of_mem_groupsOf {n : ℕ} {l g : List α} (hg : g ∈ groupsOf n l) :
    g.length ≤ n := by
  induction l using groupsOf.induct n with
  | case1 l h ih =>
    rw [groupsOf, if_pos h, List.mem_cons] at hg
    rcases hg with rfl | hg
    · simp
    · exact ih hg
  | case2 l h =>
    rw [groupsOf, if_neg h] at hg
    simp at hg

/-- Fixed-width big-endian bytes of a number, as `to_be_bytes` writes them. -/
def beBytes : ℕ → ℕ → List UInt8
  | 0, _ => []
  | width + 1, n => beBytes width (n / 256) ++ [UInt8.ofNat (n % 256)]

/-- The number a big-endian byte string denotes, as `from_be_bytes` reads it. -/
def ofBe (l : List UInt8) : ℕ := l.foldl (fun n b => 256 * n + b.toNat) 0

@[simp] theorem length_beBytes (width n : ℕ) : (beBytes width n).length = width := by
  induction width generalizing n with
  | zero => rfl
  | succ width ih => simp [beBytes, ih]

/-- A last byte is the least significant one. -/
theorem ofBe_append_singleton (l : List UInt8) (b : UInt8) :
    ofBe (l ++ [b]) = 256 * ofBe l + b.toNat := by
  simp [ofBe, List.foldl_append]

/-- Reading back what was written, for numbers that fit the width. -/
theorem ofBe_beBytes {width n : ℕ} (h : n < 256 ^ width) : ofBe (beBytes width n) = n := by
  induction width generalizing n with
  | zero =>
    have : n = 0 := by simpa using h
    simp [beBytes, ofBe, this]
  | succ width ih =>
    have hdiv : n / 256 < 256 ^ width := by
      rw [Nat.div_lt_iff_lt_mul (by decide)]
      rwa [pow_succ] at h
    rw [beBytes, ofBe_append_singleton, ih hdiv]
    have hmod : (UInt8.ofNat (n % 256)).toNat = n % 256 := by
      simp
    rw [hmod]
    omega

/-- A byte string denotes a number below the bound of its length. -/
theorem ofBe_lt (l : List UInt8) : ofBe l < 256 ^ l.length := by
  suffices hall : ∀ n, l.foldl (fun n b => 256 * n + b.toNat) n < 256 ^ l.length * (n + 1) by
    simpa [ofBe] using hall 0
  induction l with
  | nil => simp
  | cons b l ih =>
    intro n
    have hb : 256 * n + b.toNat + 1 ≤ 256 * (n + 1) := by
      have := b.toNat_lt
      omega
    calc l.foldl (fun n b => 256 * n + b.toNat) (256 * n + b.toNat)
      _ < 256 ^ l.length * (256 * n + b.toNat + 1) := ih _
      _ ≤ 256 ^ l.length * (256 * (n + 1)) := Nat.mul_le_mul_left _ hb
      _ = 256 ^ (b :: l).length * (n + 1) := by
        rw [List.length_cons, pow_succ, Nat.mul_assoc]

/-- Writing what was read, at the width it was read from. -/
theorem beBytes_ofBe (l : List UInt8) : beBytes l.length (ofBe l) = l := by
  induction l using List.reverseRecOn with
  | nil => rfl
  | append_singleton l b ih =>
    have hb := b.toNat_lt
    have hdiv : (256 * ofBe l + b.toNat) / 256 = ofBe l := by omega
    have hmod : (256 * ofBe l + b.toNat) % 256 = b.toNat := by omega
    rw [List.length_append, List.length_singleton, beBytes, ofBe_append_singleton, hdiv, hmod, ih,
      UInt8.ofNat_toNat]

end AgentHouse
