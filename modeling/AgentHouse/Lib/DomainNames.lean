import AgentHouse.Lib.Slices

/-!
# Compressed domain names

A name is a list of labels. In a message it is written as labels in place, each behind its length,
and ends with an empty label or with a pointer to an earlier name of the message. A pointer
stands for the name it points to, which has to end before the pointer.
-/

namespace AgentHouse.DomainName

variable {message message' : List UInt8} {pos limit limit' steps stop : ℕ}
  {labels : List (List UInt8)}

/-- The offset in a pointer. -/
def offset (high low : UInt8) : ℕ := (high &&& 0x3f).toNat * 256 + low.toNat

/-- The name at `pos` expands to `labels` in `steps` steps. Its part in place ends at `stop`, and
no byte of it lies behind `limit`. -/
inductive Expands (message : List UInt8) :
    (pos limit : ℕ) → (labels : List (List UInt8)) → (steps stop : ℕ) → Prop
  | root {pos limit : ℕ} (hpos : pos < limit) (hzero : message[pos]? = some 0) :
      Expands message pos limit [] 1 (pos + 1)
  | label {pos limit : ℕ} {length : UInt8} {labels : List (List UInt8)} {steps stop : ℕ}
      (hlength : message[pos]? = some length) (hpositive : length ≠ 0) (hshort : length ≤ 63)
      (hfits : pos + 1 + length.toNat ≤ limit)
      (hrest : Expands message (pos + 1 + length.toNat) limit labels steps stop) :
      Expands message pos limit (slice message (pos + 1) length.toNat :: labels) (steps + 1) stop
  | pointer {pos limit : ℕ} {high low : UInt8} {labels : List (List UInt8)} {steps stop : ℕ}
      (hfits : pos + 2 ≤ limit) (hhigh : message[pos]? = some high)
      (hpointer : high &&& 0xc0 = 0xc0) (hlow : message[pos + 1]? = some low)
      (hheader : 12 ≤ offset high low) (hearlier : offset high low < pos)
      (hname : Expands message (offset high low) pos labels steps stop) :
      Expands message pos limit labels (steps + 1) (pos + 2)

/-- The wire form of a name without pointers. -/
def encode : List (List UInt8) → List UInt8
  | [] => [0]
  | label :: labels => UInt8.ofNat label.length :: label ++ encode labels

/-- No label is empty or longer than 63 bytes. -/
def Proper (labels : List (List UInt8)) : Prop :=
  ∀ label ∈ labels, 0 < label.length ∧ label.length ≤ 63

namespace Expands

/-- An expansion reads at least one byte. -/
theorem lt_stop (h : Expands message pos limit labels steps stop) : pos < stop := by
  induction h with
  | root => omega
  | label _ _ _ _ _ ih => omega
  | pointer => omega

/-- And stays below its limit. -/
theorem stop_le (h : Expands message pos limit labels steps stop) : stop ≤ limit := by
  induction h with
  | root hpos => exact hpos
  | label _ _ _ _ _ ih => exact ih
  | pointer hfits => exact hfits

/-- The part in place is no longer than the wire form, but for one byte of a pointer. -/
theorem stop_le_add (h : Expands message pos limit labels steps stop)
    (hlimit : limit ≤ message.length) : stop ≤ pos + (encode labels).length + 1 := by
  induction h with
  | root => simp [encode]
  | label _ _ _ hfits _ ih =>
    have hrest := ih hlimit
    simp only [encode, List.cons_append, List.length_cons, List.length_append, length_slice]
    omega
  | @pointer pos limit high low labels =>
    cases labels with
    | nil => simp [encode]
    | cons label labels =>
      simp only [encode, List.cons_append, List.length_cons, List.length_append]
      omega

/-- The labels that are read are proper ones. -/
theorem proper (h : Expands message pos limit labels steps stop)
    (hlimit : limit ≤ message.length) : Proper labels := by
  induction h with
  | root => exact fun _ hl => (by cases hl)
  | @label pos limit length labels _ _ _ hpositive hshort hfits _ ih =>
    have hpos : 0 < length.toNat := Nat.pos_of_ne_zero fun h0 => hpositive (UInt8.toNat_inj.mp h0)
    have hle : length.toNat ≤ 63 := UInt8.le_iff_toNat_le.mp hshort
    intro l hl
    rcases List.mem_cons.mp hl with rfl | hl
    · rw [length_slice]
      omega
    · exact ih hlimit l hl
  | pointer _ _ _ _ _ hearlier _ ih => exact ih (by omega)

/-- A name is read the same in every message that agrees on its bytes. -/
theorem transfer (h : Expands message pos limit labels steps stop) (hpos : 12 ≤ pos)
    (hsame : ∀ i, 12 ≤ i → i < stop → message'[i]? = message[i]?)
    (hstop : stop ≤ limit') :
    Expands message' pos limit' labels steps stop := by
  induction h generalizing limit' with
  | root _ hzero => exact .root hstop ((hsame _ hpos (by omega)).trans hzero)
  | @label pos limit length labels steps stop hlength hpositive hshort hfits hrest ih =>
    have hlt := hrest.lt_stop
    have hslice : slice message' (pos + 1) length.toNat = slice message (pos + 1) length.toNat :=
      slice_congr fun k hk hlt => hsame k (by omega) (by omega)
    rw [← hslice]
    exact .label ((hsame _ hpos (by omega)).trans hlength) hpositive hshort (by omega)
      (ih (by omega) hsame hstop)
  | pointer hfits hhigh hpointer hlow hheader hearlier hname ih =>
    have hle := hname.stop_le
    exact .pointer hstop ((hsame _ hpos (by omega)).trans hhigh) hpointer
      ((hsame _ (by omega) (by omega)).trans hlow) hheader hearlier
      (ih hheader (fun i hi hlt => hsame i hi (by omega)) hle)

end Expands

@[simp] theorem length_encode_cons (label : List UInt8) :
    (encode (label :: labels)).length = label.length + 1 + (encode labels).length := by
  simp only [encode, List.cons_append, List.length_cons, List.length_append]
  omega

/-- The wire form determines the labels. -/
theorem encode_injective {left right : List (List UInt8)} (hleft : Proper left)
    (hright : Proper right) (h : encode left = encode right) : left = right := by
  have hlength {l : List UInt8} (hl : 0 < l.length ∧ l.length ≤ 63) :
      (UInt8.ofNat l.length).toNat = l.length := UInt8.toNat_ofNat_of_lt' (by
        show l.length < 2 ^ 8
        omega)
  have hzero {l : List UInt8} (hl : 0 < l.length ∧ l.length ≤ 63) : UInt8.ofNat l.length ≠ 0 := by
    intro h0
    have := hlength hl
    rw [h0] at this
    exact hl.1.ne this
  induction left generalizing right with
  | nil =>
    cases right with
    | nil => rfl
    | cons label right =>
      exact absurd (List.cons.inj h).1.symm (hzero (hright label List.mem_cons_self))
  | cons label left ih =>
    cases right with
    | nil => exact absurd (List.cons.inj h).1 (hzero (hleft label List.mem_cons_self))
    | cons label' right =>
      have hl := hleft label List.mem_cons_self
      have hr := hright label' List.mem_cons_self
      have hsize : label.length = label'.length := by
        rw [← hlength hl, ← hlength hr, (List.cons.inj h).1]
      obtain ⟨hlabel, hrest⟩ := List.append_inj (List.cons.inj h).2 hsize
      rw [hlabel, ih (fun l hl => hleft l (List.mem_cons_of_mem _ hl))
        (fun l hl => hright l (List.mem_cons_of_mem _ hl)) hrest]

end AgentHouse.DomainName
