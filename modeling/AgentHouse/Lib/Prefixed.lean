import AgentHouse.Lib.Slices

/-!
# Frames behind their length

A stream of frames carries before each frame its length, in big-endian bytes of a fixed width. A
length outside the bounds of the format ends the stream. What has been read of a stream is a
number of frames and a rest, and the rest begins where the next frame does.
-/

namespace AgentHouse

/-- The width of a length, and the lengths that are allowed. -/
structure Format where
  width : ℕ
  least : ℕ
  most : ℕ
  pos : 0 < width
  fits : most < 256 ^ width

namespace Format

variable (F : Format) {f s t : List UInt8} {fs : List (List UInt8)}

/-- The length at the front of a stream. -/
def size (s : List UInt8) : ℕ := ofBe (s.take F.width)

/-- As many bytes are there as the front of the stream announces. -/
def buffered (s : List UInt8) : Bool :=
  decide (F.width ≤ s.length) && decide (F.width + F.size s ≤ s.length)

/-- A length that a record may have. -/
def Allowed (n : ℕ) : Prop := F.least ≤ n ∧ n ≤ F.most

instance (n : ℕ) : Decidable (F.Allowed n) := inferInstanceAs (Decidable (_ ∧ _))

/-- A frame behind its length. -/
def prefixed (f : List UInt8) : List UInt8 := beBytes F.width f.length ++ f

/-- Records, one after the other. -/
def encode (fs : List (List UInt8)) : List UInt8 := (fs.map F.prefixed).flatten

/-- The frames at the front of a stream that are complete. -/
def frames (s : List UInt8) : List (List UInt8) :=
  if F.buffered s = true ∧ F.Allowed (F.size s) then
    (s.drop F.width).take (F.size s) :: frames (s.drop (F.width + F.size s))
  else []
termination_by s.length
decreasing_by
  rename_i h
  obtain ⟨-, hle⟩ := Bool.and_eq_true_iff.mp h.1
  have hle := of_decide_eq_true hle
  have hpos := F.pos
  rw [List.length_drop]
  omega

variable {F}

/-- A prefixed frame, with the length of its prefix. -/
@[simp] theorem length_prefixed : (F.prefixed f).length = F.width + f.length := by
  rw [prefixed, List.length_append, length_beBytes]

@[simp] theorem encode_nil : F.encode [] = [] := rfl

@[simp] theorem encode_cons : F.encode (f :: fs) = F.prefixed f ++ F.encode fs := rfl

/-- Encodings compose. -/
theorem encode_append (fs gs : List (List UInt8)) :
    F.encode (fs ++ gs) = F.encode fs ++ F.encode gs := by
  rw [encode, List.map_append, List.flatten_append]
  rfl

/-- The size is read from the prefix. -/
theorem size_append (h : F.width ≤ s.length) : F.size (s ++ t) = F.size s := by
  rw [size, size, List.take_append_of_le_length h]

/-- More bytes leave a buffered frame buffered. -/
theorem buffered_append (h : F.buffered s = true) : F.buffered (s ++ t) = true := by
  obtain ⟨hwidth, hle⟩ := Bool.and_eq_true_iff.mp h
  have hwidth := of_decide_eq_true hwidth
  have hle := of_decide_eq_true hle
  rw [buffered, size_append hwidth, List.length_append]
  simp only [Bool.and_eq_true, decide_eq_true_eq]
  omega

/-- The prefix says the size. -/
theorem size_prefixed (h : F.Allowed f.length) : F.size (F.prefixed f ++ t) = f.length := by
  have hfits := h.2.trans_lt F.fits
  rw [size, prefixed, List.append_assoc, List.take_append_of_le_length (length_beBytes _ _).ge,
    List.take_of_length_le (length_beBytes _ _).le, ofBe_beBytes hfits]

theorem buffered_prefixed (h : F.Allowed f.length) : F.buffered (F.prefixed f ++ t) = true := by
  rw [buffered, size_prefixed h, List.length_append, length_prefixed]
  simp only [Bool.and_eq_true, decide_eq_true_eq]
  omega

/-- The bytes up to the end of a buffered frame are that frame. -/
theorem prefixed_take (h : F.buffered s = true) :
    F.prefixed ((s.drop F.width).take (F.size s)) = s.take (F.width + F.size s) := by
  obtain ⟨hwidth, hle⟩ := Bool.and_eq_true_iff.mp h
  have hwidth := of_decide_eq_true hwidth
  have hle := of_decide_eq_true hle
  have htake : (s.take F.width).length = F.width := List.length_take_of_le hwidth
  have hlength : ((s.drop F.width).take (F.size s)).length = F.size s := by
    rw [List.length_take, List.length_drop]
    omega
  have hbe : beBytes F.width (F.size s) = s.take F.width := by
    have hround := beBytes_ofBe (s.take F.width)
    rwa [htake] at hround
  rw [prefixed, hlength, hbe, List.take_add]

/-- No frame is read before it is complete. -/
theorem frames_of_not_buffered (h : F.buffered s = false) : F.frames s = [] := by
  rw [frames, if_neg]
  rintro ⟨hbuffered, -⟩
  rw [h] at hbuffered
  cases hbuffered

/-- A complete frame is read first. -/
theorem frames_prefixed (h : F.Allowed f.length) :
    F.frames (F.prefixed f ++ s) = f :: F.frames s := by
  have hdrop : (F.prefixed f ++ s).drop (F.width + f.length) = s :=
    List.drop_left' length_prefixed
  have hframe : ((F.prefixed f ++ s).drop F.width).take f.length = f := by
    rw [prefixed, List.append_assoc, List.drop_left' (length_beBytes _ _),
      List.take_left' rfl]
  rw [frames, size_prefixed h, if_pos ⟨buffered_prefixed h, h⟩, hdrop, hframe]

/-- A number of frames and a rest are read as these frames and those of the rest. -/
theorem frames_encode (h : ∀ f ∈ fs, F.Allowed f.length) :
    F.frames (F.encode fs ++ s) = fs ++ F.frames s := by
  induction fs with
  | nil => rfl
  | cons f fs ih =>
    rw [encode_cons, List.append_assoc, frames_prefixed (h f List.mem_cons_self),
      ih fun g hg => h g (List.mem_cons_of_mem _ hg), List.cons_append]

end Format

end AgentHouse
