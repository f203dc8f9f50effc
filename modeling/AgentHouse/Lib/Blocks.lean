import AgentHouse.Lib.Slices
import Mathlib.Data.List.GetD

/-!
# Flat arrays kept in blocks

A byte range of a device is served block by block. `segments` is the schedule of that
loop: which block is visited, where the range starts in it and how much is transferred.
A family of blocks `f : ℕ → List α` denotes the flat array `flat C f`; reading along the
schedule reads the flat array, and overwriting along it overwrites the flat array.
-/

namespace AgentHouse

variable {α : Type*}

/-- One iteration of a block loop: the block `index`, the position `within` it, the number
`done` of elements transferred before and the number `count` transferred now. -/
structure Segment where
  index : ℕ
  within : ℕ
  done : ℕ
  count : ℕ
  deriving DecidableEq, Repr

/-- The iterations of the loop that transfers `len` elements from position `pos` on. -/
def segments (C pos len done : ℕ) : List Segment :=
  if 0 < len ∧ 0 < C then
    ⟨pos / C, pos % C, done, min (C - pos % C) len⟩ ::
      segments C (pos + min (C - pos % C) len) (len - min (C - pos % C) len)
        (done + min (C - pos % C) len)
  else []
termination_by len
decreasing_by
  have := Nat.mod_lt pos (show C > 0 by omega)
  omega

theorem segments_zero (C pos done : ℕ) : segments C pos 0 done = [] := by
  rw [segments, if_neg (by omega)]

/-- The first segment ends with its block. -/
theorem segments_pos {C pos len done : ℕ} (hC : 0 < C) (hlen : 0 < len) :
    segments C pos len done =
      ⟨pos / C, pos % C, done, min (C - pos % C) len⟩ ::
        segments C (pos + min (C - pos % C) len) (len - min (C - pos % C) len)
          (done + min (C - pos % C) len) := by
  rw [segments, if_pos ⟨hlen, hC⟩]

/-- A range within one block is one segment. -/
theorem segments_within {C i w n : ℕ} (hn : 0 < n) (h : w + n ≤ C) :
    segments C (i * C + w) n 0 = [⟨i, w, 0, n⟩] := by
  have hw : w < C := by omega
  have hdiv : (i * C + w) / C = i := by
    rw [Nat.mul_comm, Nat.mul_add_div (by omega), Nat.div_eq_of_lt hw, Nat.add_zero]
  have hmod : (i * C + w) % C = w := by
    rw [Nat.mul_comm, Nat.mul_add_mod, Nat.mod_eq_of_lt hw]
  rw [segments_pos (by omega) hn, hdiv, hmod, min_eq_right (by omega), Nat.sub_self,
    segments_zero]

/-- So is a whole block. -/
theorem segments_whole {C : ℕ} (hC : 0 < C) (i : ℕ) :
    segments C (i * C) C 0 = [⟨i, 0, 0, C⟩] :=
  segments_within (w := 0) hC (Nat.zero_add C).le

/-- The induction the block loop calls for: the first segment, then the rest. -/
theorem segments_induction {C : ℕ} (hC : 0 < C) {motive : ℕ → ℕ → ℕ → Prop}
    (nil : ∀ pos done, motive pos 0 done)
    (cons : ∀ pos len done, 0 < len →
      motive (pos + min (C - pos % C) len) (len - min (C - pos % C) len)
        (done + min (C - pos % C) len) → motive pos len done)
    (pos len done : ℕ) : motive pos len done := by
  induction len using Nat.strongRecOn generalizing pos done with
  | ind len ih =>
    rcases Nat.eq_zero_or_pos len with rfl | hlen
    · exact nil pos done
    · have := Nat.mod_lt pos hC
      exact cons pos len done hlen (ih _ (by omega) _ _)

/-- The arithmetic of one segment of the schedule. -/
structure Segment.Fits (C pos len done : ℕ) (s : Segment) : Prop where
  count_pos : 0 < s.count
  within_le : s.within + s.count ≤ C
  position : s.index * C + s.within + done = pos + s.done
  done_le : done ≤ s.done
  done_count : s.done + s.count ≤ done + len

/-- Each segment lies within one block and within the range. -/
theorem segments_fits {C : ℕ} (hC : 0 < C) (pos len done : ℕ) :
    ∀ s ∈ segments C pos len done, s.Fits C pos len done := by
  refine segments_induction hC (motive := fun pos len done =>
    ∀ s ∈ segments C pos len done, s.Fits C pos len done) ?_ ?_ pos len done
  · intro pos done s hs
    simp [segments_zero] at hs
  · intro pos len done hlen ih s hs
    have hmod := Nat.mod_lt pos hC
    have hdiv := Nat.div_add_mod' pos C
    rw [segments_pos hC hlen, List.mem_cons] at hs
    rcases hs with rfl | hs
    · exact ⟨by simp only; omega, by simp only; omega, by simp only; omega, by simp,
        by simp only; omega⟩
    · have h := ih s hs
      exact ⟨h.count_pos, h.within_le, by have := h.position; omega,
        by have := h.done_le; omega, by have := h.done_count; omega⟩

/-- A segment's block is the block of each position it transfers. -/
theorem Segment.Fits.div_eq {C pos len done : ℕ} {s : Segment} (h : s.Fits C pos len done)
    {k : ℕ} (hk : k < s.count) : (s.index * C + s.within + k) / C = s.index := by
  have hw := h.within_le
  have hC : 0 < C := by omega
  rw [Nat.add_assoc, Nat.mul_comm, Nat.mul_add_div hC, Nat.div_eq_of_lt (by omega), Nat.add_zero]

/-- A segment's block lies in the range of blocks the transfer touches. -/
theorem Segment.Fits.index_le {C pos len done : ℕ} {s : Segment} (h : s.Fits C pos len done) :
    pos / C ≤ s.index ∧ s.index ≤ (pos + len - 1) / C := by
  have hC : 0 < C := by have := h.within_le; have := h.count_pos; omega
  have hpos := h.position
  have hd := h.done_le
  have hdc := h.done_count
  have hcp := h.count_pos
  constructor
  · rw [← h.div_eq h.count_pos]
    exact Nat.div_le_div_right (by omega)
  · rw [← h.div_eq h.count_pos]
    exact Nat.div_le_div_right (by omega)

/-- The blocks are visited in increasing order, so each at most once. -/
theorem segments_sorted {C : ℕ} (hC : 0 < C) (pos len done : ℕ) :
    (segments C pos len done).Pairwise (fun s t => s.index < t.index) := by
  refine segments_induction hC (motive := fun pos len done =>
    (segments C pos len done).Pairwise (fun s t => s.index < t.index)) ?_ ?_ pos len done
  · intro pos done
    simp [segments_zero]
  · intro pos len done hlen ih
    rw [segments_pos hC hlen, List.pairwise_cons]
    refine ⟨fun t ht => ?_, ih⟩
    have h := segments_fits hC _ _ _ t ht
    have hmod := Nat.mod_lt pos hC
    have hcp := h.count_pos
    have hdc := h.done_count
    have hle := h.index_le.1
    have hstep : pos / C * C + pos % C = pos := Nat.div_add_mod' pos C
    have hwhole : pos + min (C - pos % C) len = (pos / C + 1) * C := by
      have := Nat.add_mul (pos / C) 1 C
      have := h.done_le
      omega
    rw [hwhole, Nat.mul_div_cancel _ hC] at hle
    simp only
    omega

/-- Every position of the range is transferred by some segment. -/
theorem segments_cover {C : ℕ} (hC : 0 < C) (pos len done : ℕ) {x : ℕ}
    (hx : pos ≤ x) (hx' : x < pos + len) :
    ∃ s ∈ segments C pos len done, s.index = x / C ∧ s.within ≤ x % C ∧
      x % C < s.within + s.count ∧ s.done + (x % C - s.within) = done + (x - pos) := by
  revert hx hx'
  refine segments_induction hC (motive := fun pos len done => pos ≤ x → x < pos + len →
    ∃ s ∈ segments C pos len done, s.index = x / C ∧ s.within ≤ x % C ∧
      x % C < s.within + s.count ∧ s.done + (x % C - s.within) = done + (x - pos)) ?_ ?_
        pos len done
  · intro pos done h h'
    omega
  · intro pos len done hlen ih h h'
    have hmod := Nat.mod_lt pos hC
    have hstep : pos / C * C + pos % C = pos := Nat.div_add_mod' pos C
    rw [segments_pos hC hlen]
    by_cases hhere : x < pos + min (C - pos % C) len
    · have hsplit : x = C * (pos / C) + (pos % C + (x - pos)) := by
        rw [Nat.mul_comm]
        omega
      have hdivx : x / C = pos / C := by
        conv_lhs => rw [hsplit]
        rw [Nat.mul_add_div hC, Nat.div_eq_of_lt (show pos % C + (x - pos) < C by omega),
          Nat.add_zero]
      have hmodx : x % C = pos % C + (x - pos) := by
        conv_lhs => rw [hsplit]
        rw [Nat.mul_add_mod, Nat.mod_eq_of_lt (by omega)]
      refine ⟨_, List.mem_cons_self, hdivx.symm, ?_, ?_, ?_⟩ <;> simp only <;> omega
    · obtain ⟨s, hs, h1, h2, h3, h4⟩ := ih (by omega) (by omega)
      exact ⟨s, List.mem_cons_of_mem _ hs, h1, h2, h3, by omega⟩

/-- The flat array that a family of blocks of length `C` denotes. -/
def flat [Inhabited α] (C : ℕ) (f : ℕ → List α) (x : ℕ) : α := (f (x / C)).getD (x % C) default

/-- The window `[pos, pos + len)` of a flat array. -/
def window (a : ℕ → α) (pos len : ℕ) : List α := (List.range' pos len).map a

/-- Overwrite a flat array from position `pos` on. -/
def overwrite (a : ℕ → α) (pos : ℕ) (input : List α) (x : ℕ) : α :=
  if pos ≤ x then input.getD (x - pos) (a x) else a x

@[simp] theorem length_window (a : ℕ → α) (pos len : ℕ) : (window a pos len).length = len := by
  simp [window]

/-- Windows side by side. -/
theorem window_append (a : ℕ → α) (pos m n : ℕ) :
    window a pos m ++ window a (pos + m) n = window a pos (m + n) := by
  simp [window, ← List.map_append, List.range'_append_1]

/-- A window depends on its range only. -/
theorem window_congr {a b : ℕ → α} {pos len : ℕ} (h : ∀ x, pos ≤ x → x < pos + len → a x = b x) :
    window a pos len = window b pos len := by
  apply List.map_congr_left
  intro x hx
  rw [List.mem_range'_1] at hx
  exact h x hx.1 hx.2

/-- Outside its range an overwrite changes nothing. -/
theorem overwrite_of_outside {a : ℕ → α} {pos : ℕ} {input : List α} {x : ℕ}
    (h : x < pos ∨ pos + input.length ≤ x) : overwrite a pos input x = a x := by
  unfold overwrite
  split
  · rw [List.getD_eq_default _ _ (by omega)]
  · rfl

theorem overwrite_nil (a : ℕ → α) (pos : ℕ) : overwrite a pos [] = a := by
  funext x
  exact overwrite_of_outside (by simp; omega)

section Flat

variable [Inhabited α] {C : ℕ}

/-- A slice of one block is a window of the flat array. -/
theorem slice_eq_window {f : ℕ → List α} {i w n : ℕ} (hlen : (f i).length = C) (hw : w + n ≤ C) :
    slice (f i) w n = window (flat C f) (i * C + w) n := by
  apply List.ext_getElem?
  intro k
  rw [getElem?_slice]
  by_cases hk : k < n
  · have hC : 0 < C := by omega
    have hdiv : (i * C + w + k) / C = i := by
      rw [Nat.add_assoc, Nat.mul_comm, Nat.mul_add_div hC, Nat.div_eq_of_lt (by omega),
        Nat.add_zero]
    have hmod : (i * C + w + k) % C = w + k := by
      rw [Nat.add_assoc, Nat.mul_comm, Nat.mul_add_mod, Nat.mod_eq_of_lt (by omega)]
    simp only [if_pos hk, window, List.getElem?_map, List.getElem?_range' hk, Option.map_some,
      Nat.one_mul, flat, hdiv, hmod]
    rw [List.getElem?_eq_getElem (by omega), List.getD_eq_getElem _ _ (by omega)]
  · simp [hk, window]

/-- The window of a block is the block. -/
theorem window_block {f : ℕ → List α} {i : ℕ} (hlen : (f i).length = C) :
    window (flat C f) (i * C) C = f i := by
  have hslice := slice_eq_window (w := 0) (n := C) hlen (Nat.zero_add C).le
  rw [Nat.add_zero] at hslice
  rw [← hslice, slice_eq_self hlen]

/-- Reading block by block along the schedule reads the flat array. -/
theorem flatMap_segments {f : ℕ → List α} (hC : 0 < C) (pos len done : ℕ)
    (hlen : ∀ i, pos / C ≤ i → i ≤ (pos + len - 1) / C → (f i).length = C) :
    (segments C pos len done).flatMap (fun s => slice (f s.index) s.within s.count) =
      window (flat C f) pos len := by
  have key : ∀ pos len done, (∀ s ∈ segments C pos len done, (f s.index).length = C) →
      (segments C pos len done).flatMap (fun s => slice (f s.index) s.within s.count) =
        window (flat C f) pos len := by
    refine segments_induction hC ?_ ?_
    · intro pos done _
      simp [segments_zero, window]
    · intro pos len done hlen ih hall
      rw [segments_pos hC hlen] at hall ⊢
      have hmod := Nat.mod_lt pos hC
      rw [List.flatMap_cons, ih (fun s hs => hall s (List.mem_cons_of_mem _ hs)),
        slice_eq_window (hall _ List.mem_cons_self) (by simp only; omega)]
      simp only [Nat.div_add_mod' pos C]
      rw [window_append]
      congr 1
      omega
  refine key pos len done (fun s hs => ?_)
  obtain ⟨h1, h2⟩ := (segments_fits hC pos len done s hs).index_le
  exact hlen s.index h1 h2

/-- A family of blocks that was overwritten along the schedule denotes the overwritten
flat array. -/
theorem flat_overwrite {f g : ℕ → List α} {pos : ℕ} {input : List α} (hC : 0 < C)
    (hlen : ∀ s ∈ segments C pos input.length 0, (f s.index).length = C)
    (hin : ∀ s ∈ segments C pos input.length 0,
      g s.index = splice (f s.index) s.within (slice input s.done s.count))
    (hout : ∀ i, (∀ s ∈ segments C pos input.length 0, s.index ≠ i) → g i = f i) :
    flat C g = overwrite (flat C f) pos input := by
  funext x
  by_cases hx : pos ≤ x ∧ x < pos + input.length
  · obtain ⟨s, hs, hidx, hw, hw', hdone⟩ := segments_cover hC pos input.length 0 hx.1 hx.2
    have hfit := segments_fits hC pos input.length 0 s hs
    have hb : (slice input s.done s.count).length = s.count := by
      rw [length_slice]
      have := hfit.done_count
      omega
    have hl := hlen s hs
    have hwl := hfit.within_le
    unfold flat overwrite
    rw [← hidx, hin s hs, if_pos hx.1, List.getD_eq_getElem?_getD,
      getElem?_splice (by omega), if_pos ⟨hw, by omega⟩, getElem?_slice, if_pos (by omega), hdone,
      Nat.zero_add, List.getD_eq_getElem?_getD, List.getElem?_eq_getElem (by omega)]
    rfl
  · rw [overwrite_of_outside (by omega)]
    unfold flat
    by_cases hex : ∃ s ∈ segments C pos input.length 0, s.index = x / C
    · obtain ⟨s, hs, hidx⟩ := hex
      have hfit := segments_fits hC pos input.length 0 s hs
      have hb : (slice input s.done s.count).length = s.count := by
        rw [length_slice]
        have := hfit.done_count
        omega
      have hl := hlen s hs
      have hwl := hfit.within_le
      rw [← hidx, hin s hs, List.getD_eq_getElem?_getD, getElem?_splice (by omega), if_neg,
        List.getD_eq_getElem?_getD]
      rintro ⟨h1, h2⟩
      have hx' : s.index * C + x % C = x := by rw [hidx]; exact Nat.div_add_mod' x C
      have hp := hfit.position
      have hdc := hfit.done_count
      omega
    · rw [hout (x / C) (fun s hs heq => hex ⟨s, hs, heq⟩)]

end Flat

end AgentHouse
