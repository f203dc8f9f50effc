import AgentHouse.Lib.Slices

/-!
# Open files

An open file is its contents with a position. The system decides how each call goes: it moves all
that was asked for or a part, is interrupted, or fails. The loops `readExact` and `writeAll` hide
the parts and the interruptions, so their results depend on the contents alone.
-/

namespace AgentHouse.Files

/-- How a call goes. A part is never empty where something could be moved. -/
inductive Fate where
  | whole
  | part (n : ℕ)
  | interrupted
  | failed
  deriving DecidableEq, Repr

/-- How a call of a file may fail. -/
inductive Failure where
  | interrupted
  | failed
  | unexpectedEof
  deriving DecidableEq, Repr

/-- An open file: its contents, whether it is a regular one, its time of modification where the
platform has one, the position, and how the next calls go; the later ones all go well. -/
structure File where
  data : List UInt8
  regular : Bool
  modified : Option ℕ
  pos : ℕ
  fates : List Fate
  deriving DecidableEq, Repr

namespace File

/-- A call that moves no bytes. -/
def call (f : File) : Except Failure Unit × File :=
  match f.fates with
  | [] => (.ok (), f)
  | .failed :: fates => (.error .failed, { f with fates })
  | .interrupted :: fates => (.error .interrupted, { f with fates })
  | _ :: fates => (.ok (), { f with fates })

/-- How many of `n` bytes the next call moves. -/
def share (f : File) (n : ℕ) : ℕ :=
  match f.fates with
  | .part k :: _ => min n (k + 1)
  | _ => n

/-- The next call starts from here. -/
def seek (f : File) (pos : ℕ) : Except Failure Unit × File :=
  match f.call with
  | (.ok (), g) => (.ok (), { g with pos })
  | failure => failure

/-- One call of `read`, which may return less than was asked for. -/
def read (f : File) (n : ℕ) : Except Failure (List UInt8) × File :=
  match f.call with
  | (.ok (), g) =>
    (.ok (slice f.data f.pos (f.share n)),
      { g with pos := f.pos + (slice f.data f.pos (f.share n)).length })
  | (.error e, g) => (.error e, g)

/-- What `b` at a position makes of the contents: a gap in front of it is filled by zeros. -/
def overwritten (data : List UInt8) (pos : ℕ) (b : List UInt8) : List UInt8 :=
  data.take pos ++ List.replicate (pos - data.length) 0 ++ b ++ data.drop (pos + b.length)

/-- How many bytes were written; each write changes the time of modification. -/
def write (f : File) (b : List UInt8) : Except Failure ℕ × File :=
  match f.call with
  | (.ok (), g) =>
    (.ok (b.take (f.share b.length)).length,
      { g with
        data := overwritten f.data f.pos (b.take (f.share b.length))
        modified := f.modified.map (· + 1)
        pos := f.pos + (b.take (f.share b.length)).length })
  | (.error e, g) => (.error e, g)

/-! ## Single calls -/

theorem call_data (f : File) : f.call.2.data = f.data := by
  unfold call
  split <;> rfl

theorem call_pos (f : File) : f.call.2.pos = f.pos := by
  unfold call
  split <;> rfl

theorem call_regular (f : File) : f.call.2.regular = f.regular := by
  unfold call
  split <;> rfl

theorem call_modified (f : File) : f.call.2.modified = f.modified := by
  unfold call
  split <;> rfl

theorem call_fates_subset (f : File) : f.call.2.fates ⊆ f.fates := by
  unfold call
  split <;> rename_i h <;> simp [h]

/-- An interruption is used up. -/
theorem call_interrupted {f : File} (h : f.call.1 = .error .interrupted) :
    f.call.2.fates.length < f.fates.length := by
  unfold call at h ⊢
  split at h <;> rename_i heq <;> simp_all

/-- A call that fails was interrupted, or met a failure that was to come. -/
theorem call_error {f : File} {e : Failure} (h : f.call.1 = .error e) :
    e = .interrupted ∨ (e = .failed ∧ Fate.failed ∈ f.fates) := by
  unfold call at h
  split at h <;> rename_i heq
  · cases h
  · cases h
    exact .inr ⟨rfl, by simp [heq]⟩
  · cases h
    exact .inl rfl
  · cases h

theorem share_le (f : File) (n : ℕ) : f.share n ≤ n := by
  unfold share
  split <;> omega

/-- A call that goes through moves at least one byte. -/
theorem share_pos (f : File) {n : ℕ} (hn : 0 < n) : 0 < f.share n := by
  unfold share
  split <;> omega

/-- A read gives the bytes at the position, and changes nothing but the position. -/
theorem read_ok {f g : File} {n : ℕ} {bytes : List UInt8} (h : f.read n = (.ok bytes, g)) :
    bytes = slice f.data f.pos (f.share n) ∧ g.data = f.data ∧ g.pos = f.pos + bytes.length ∧
      g.regular = f.regular ∧ g.modified = f.modified ∧ g.fates ⊆ f.fates := by
  have hsub := call_fates_subset f
  unfold read at h
  split at h
  · rename_i g' hcall
    obtain ⟨hbytes, hg⟩ := Prod.mk.inj h
    obtain rfl := Except.ok.inj hbytes
    subst hg
    have hdata := call_data f
    have hregular := call_regular f
    have hmodified := call_modified f
    rw [hcall] at hdata hregular hmodified hsub
    exact ⟨rfl, hdata, rfl, hregular, hmodified, hsub⟩
  · cases h

/-- What is read and what is left make up what was left before. -/
theorem drop_read {f g : File} {n : ℕ} {bytes : List UInt8} (h : f.read n = (.ok bytes, g)) :
    f.data.drop f.pos = bytes ++ g.data.drop g.pos := by
  obtain ⟨hbytes, hdata, hpos, -, -, -⟩ := read_ok h
  rw [hdata, hpos, ← List.drop_drop, hbytes, slice]
  generalize f.data.drop f.pos = rest
  generalize f.share n = m
  rw [List.length_take]
  rcases le_total m rest.length with hle | hle
  · rw [Nat.min_eq_left hle, List.take_append_drop]
  · rw [Nat.min_eq_right hle, List.drop_length, List.append_nil, List.take_of_length_le hle]

theorem read_error {f g : File} {n : ℕ} {e : Failure} (h : f.read n = (.error e, g)) :
    g = f.call.2 ∧ f.call.1 = .error e := by
  unfold read at h
  split at h
  · cases h
  · rename_i e' g' hcall
    cases h
    rw [hcall]
    exact ⟨rfl, rfl⟩

/-- A write overwrites at the position, with a part of what it was given. -/
theorem write_ok {f g : File} {n : ℕ} {b : List UInt8} (h : f.write b = (.ok n, g)) :
    n = (b.take (f.share b.length)).length ∧ g.data = overwritten f.data f.pos (b.take n) ∧
      g.pos = f.pos + n ∧ g.regular = f.regular ∧ g.fates ⊆ f.fates := by
  have hsub := call_fates_subset f
  have hregular := call_regular f
  unfold write at h
  split at h
  · rename_i g' hcall
    obtain ⟨hn, hg⟩ := Prod.mk.inj h
    obtain rfl := Except.ok.inj hn
    subst hg
    rw [hcall] at hsub hregular
    have := share_le f b.length
    have hlen : (b.take (f.share b.length)).length = f.share b.length := by
      rw [List.length_take]
      omega
    refine ⟨rfl, ?_, rfl, hregular, hsub⟩
    rw [hlen]
  · cases h

theorem write_error {f g : File} {b : List UInt8} {e : Failure} (h : f.write b = (.error e, g)) :
    g = f.call.2 := by
  unfold write at h
  split at h
  · cases h
  · rename_i e' g' hcall
    cases h
    rw [hcall]

/-- What is written at the end is appended. -/
theorem overwritten_end (data b : List UInt8) : overwritten data data.length b = data ++ b := by
  simp [overwritten, List.drop_eq_nil_of_le]

/-- Nothing is read at the end only. -/
theorem read_eq_nil {f g : File} {n : ℕ} (hn : 0 < n) (h : f.read n = (.ok [], g)) :
    f.data.length ≤ f.pos := by
  have hslice := congrArg List.length (read_ok h).1
  have := share_pos f hn
  rw [length_slice, List.length_nil] at hslice
  omega

/-! ## Loops -/

/-- `read_exact`. -/
def readExact (f : File) (n : ℕ) : Except Failure (List UInt8) × File :=
  if n = 0 then (.ok [], f)
  else
    match _hread : f.read n with
    | (.error .interrupted, g) => readExact g n
    | (.error e, g) => (.error e, g)
    | (.ok [], g) => (.error .unexpectedEof, g)
    | (.ok (b :: bytes), g) =>
      match readExact g (n - (b :: bytes).length) with
      | (.ok rest, g') => (.ok (b :: bytes ++ rest), g')
      | (.error e, g') => (.error e, g')
termination_by (n, f.fates.length)
decreasing_by
  · obtain ⟨rfl, hcall⟩ := read_error _hread
    exact Prod.Lex.right _ (call_interrupted hcall)
  · refine Prod.Lex.left _ _ ?_
    rw [List.length_cons]
    omega

/-- `write_all`. -/
def writeAll (f : File) (b : List UInt8) : Except Failure Unit × File :=
  if b = [] then (.ok (), f)
  else
    match _hwrite : f.write b with
    | (.error .interrupted, g) => writeAll g b
    | (.error e, g) => (.error e, g)
    | (.ok n, g) => writeAll g (b.drop n)
termination_by (b.length, f.fates.length)
decreasing_by
  · unfold write at _hwrite
    split at _hwrite
    · cases _hwrite
    · rename_i hcall
      cases _hwrite
      have := call_interrupted (f := f) (by rw [hcall])
      rw [hcall] at this
      exact Prod.Lex.right _ this
  · rename_i hb
    refine Prod.Lex.left _ _ ?_
    unfold write at _hwrite
    split at _hwrite
    · cases _hwrite
      have hpos := List.length_pos_iff.mpr hb
      have := share_pos f hpos
      have := share_le f b.length
      simp only [List.length_drop, List.length_take]
      omega
    · cases _hwrite

section

variable {f g g' : File} {n : ℕ} {b bytes rest : List UInt8} {e : Failure}

/-- An interrupted read is made again. -/
theorem readExact_interrupted (hn : n ≠ 0) (h : f.read n = (.error .interrupted, g)) :
    f.readExact n = g.readExact n := by
  rw [readExact, if_neg hn]
  split <;> simp_all

theorem readExact_error (hn : n ≠ 0) (he : e ≠ .interrupted) (h : f.read n = (.error e, g)) :
    f.readExact n = (.error e, g) := by
  rw [readExact, if_neg hn]
  split <;> simp_all

/-- A read at the end is an error. -/
theorem readExact_eof (hn : n ≠ 0) (h : f.read n = (.ok [], g)) :
    f.readExact n = (.error .unexpectedEof, g) := by
  rw [readExact, if_neg hn]
  split <;> simp_all

/-- A short read goes on with the rest. -/
theorem readExact_cons {a : UInt8} (hn : n ≠ 0) (h : f.read n = (.ok (a :: bytes), g)) :
    f.readExact n =
      match g.readExact (n - (a :: bytes).length) with
      | (.ok rest, g') => (.ok (a :: bytes ++ rest), g')
      | (.error e, g') => (.error e, g') := by
  rw [readExact, if_neg hn]
  split <;> simp_all

/-- An interrupted write is made again. -/
theorem writeAll_interrupted (hb : b ≠ []) (h : f.write b = (.error .interrupted, g)) :
    f.writeAll b = g.writeAll b := by
  rw [writeAll, if_neg hb]
  split <;> simp_all

theorem writeAll_error (hb : b ≠ []) (he : e ≠ .interrupted) (h : f.write b = (.error e, g)) :
    f.writeAll b = (.error e, g) := by
  rw [writeAll, if_neg hb]
  split <;> simp_all

/-- A short write goes on with the rest. -/
theorem writeAll_ok_step (hb : b ≠ []) (h : f.write b = (.ok n, g)) :
    f.writeAll b = g.writeAll (b.drop n) := by
  rw [writeAll, if_neg hb]
  split <;> simp_all

end

/-- What `read_exact` returns is the window at the position. -/
theorem readExact_ok {f g : File} {n : ℕ} {bytes : List UInt8}
    (h : f.readExact n = (.ok bytes, g)) :
    bytes = slice f.data f.pos n ∧ bytes.length = n ∧ g.data = f.data ∧
      g.regular = f.regular ∧ g.modified = f.modified ∧ g.fates ⊆ f.fates := by
  induction f, n using readExact.induct generalizing bytes g with
  | case1 f =>
    rw [readExact, if_pos rfl] at h
    cases h
    simp [slice]
  | case2 f n hn g₁ hread ih =>
    rw [readExact_interrupted hn hread] at h
    obtain ⟨hg, -⟩ := read_error hread
    obtain ⟨hbytes, hlen, hdata, hregular, hmodified, hfates⟩ := ih h
    have hpos := call_pos f
    rw [hg] at hbytes hdata hregular hmodified hfates
    rw [call_data, hpos] at hbytes
    exact ⟨hbytes, hlen, hdata.trans (call_data f), hregular.trans (call_regular f),
      hmodified.trans (call_modified f), List.Subset.trans hfates (call_fates_subset f)⟩
  | case3 f n hn e g₁ he hread =>
    rw [readExact_error hn he hread] at h
    cases h
  | case4 f n hn g₁ hread =>
    rw [readExact_eof hn hread] at h
    cases h
  | case5 f n hn a part g₁ hread rest g₂ htail ih =>
    rw [readExact_cons hn hread, htail] at h
    cases h
    obtain ⟨hpart, hdata, hpos, hregular, hmodified, hfates⟩ := read_ok hread
    obtain ⟨hrest, hlen, hdata', hregular', hmodified', hfates'⟩ := ih htail
    have hle : (a :: part).length ≤ n := by
      have := share_le f n
      rw [hpart, length_slice]
      omega
    have hfirst : a :: part = slice f.data f.pos (a :: part).length := by
      rw [hpart, length_slice, slice, slice, List.take_eq_take_iff, List.length_drop]
      omega
    refine ⟨?_, ?_, hdata'.trans hdata, hregular'.trans hregular, hmodified'.trans hmodified,
      List.Subset.trans hfates' hfates⟩
    · rw [hrest, hdata, hpos]
      generalize hk : (a :: part).length = k at *
      rw [hfirst, slice, slice, slice, ← List.drop_drop, ← List.take_add]
      congr 1
      omega
    · rw [List.length_append, hlen]
      omega
  | case6 f n hn a part g₁ hread e g₂ htail ih =>
    rw [readExact_cons hn hread, htail] at h
    cases h

/-- A window that is there is read if no call fails. -/
theorem readExact_whole {f : File} {n : ℕ} (hfates : Fate.failed ∉ f.fates)
    (hlen : f.pos + n ≤ f.data.length) :
    ∃ g, f.readExact n = (.ok (slice f.data f.pos n), g) ∧ g.data = f.data ∧
      g.fates ⊆ f.fates := by
  suffices hok : ∃ bytes g, f.readExact n = (.ok bytes, g) by
    obtain ⟨bytes, g, h⟩ := hok
    obtain ⟨hbytes, -, hdata, -, -, hsub⟩ := readExact_ok h
    exact ⟨g, by rw [h, hbytes], hdata, hsub⟩
  induction f, n using readExact.induct with
  | case1 f => exact ⟨[], f, by rw [readExact, if_pos rfl]⟩
  | case2 f n hn g₁ hread ih =>
    rw [readExact_interrupted hn hread]
    obtain ⟨rfl, -⟩ := read_error hread
    refine ih (fun hmem => hfates (call_fates_subset f hmem)) ?_
    rw [call_pos, call_data]
    exact hlen
  | case3 f n hn e g₁ he hread =>
    obtain ⟨-, hcall⟩ := read_error hread
    rcases call_error hcall with rfl | ⟨-, hmem⟩
    · exact absurd rfl he
    · exact absurd hmem hfates
  | case4 f n hn g₁ hread =>
    have := read_eq_nil (by omega) hread
    omega
  | case5 f n hn a part g₁ hread rest g₂ htail ih =>
    exact ⟨_, g₂, by rw [readExact_cons hn hread, htail]⟩
  | case6 f n hn a part g₁ hread e g₂ htail ih =>
    obtain ⟨hpart, hdata, hpos, -, -, hsub⟩ := read_ok hread
    have hpartlen := congrArg List.length hpart
    have := share_le f n
    rw [length_slice] at hpartlen
    obtain ⟨bytes, g, hok⟩ := ih (fun hmem => hfates (hsub hmem)) (by rw [hpos, hdata]; omega)
    rw [htail] at hok
    cases hok

/-- What `write_all` writes at the end is appended. -/
theorem writeAll_ok {f g : File} {b : List UInt8} (h : f.writeAll b = (.ok (), g))
    (hpos : f.pos = f.data.length) :
    g.data = f.data ++ b ∧ g.regular = f.regular ∧ g.fates ⊆ f.fates := by
  induction f, b using writeAll.induct generalizing g with
  | case1 f =>
    rw [writeAll, if_pos rfl] at h
    cases h
    simp
  | case2 f b hb g₁ hwrite ih =>
    rw [writeAll_interrupted hb hwrite] at h
    rw [write_error hwrite] at ih
    rw [write_error hwrite] at h
    obtain ⟨hdata, hregular, hsub⟩ := ih h (by rw [call_pos, call_data, hpos])
    rw [call_data] at hdata
    rw [call_regular] at hregular
    exact ⟨hdata, hregular, List.Subset.trans hsub (call_fates_subset f)⟩
  | case3 f b hb e g₁ he hwrite =>
    rw [writeAll_error hb he hwrite] at h
    cases h
  | case4 f b hb n g₁ hwrite ih =>
    rw [writeAll_ok_step hb hwrite] at h
    obtain ⟨hn, hdata, hpos₁, hregular, hsub⟩ := write_ok hwrite
    rw [hpos, overwritten_end] at hdata
    have hle : n ≤ b.length := by
      rw [hn, List.length_take]
      exact min_le_right _ _
    have hend : g₁.pos = g₁.data.length := by
      rw [hpos₁, hpos, hdata, List.length_append, List.length_take, Nat.min_eq_left hle]
    obtain ⟨hdata', hregular', hsub'⟩ := ih h hend
    refine ⟨?_, hregular'.trans hregular, List.Subset.trans hsub' hsub⟩
    rw [hdata', hdata, List.append_assoc, List.take_append_drop]

end File

end AgentHouse.Files
