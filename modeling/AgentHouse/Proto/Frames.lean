import AgentHouse.Lib.Slices
import AgentHouse.Lib.Programs
import Mathlib.Data.Fintype.Basic

/-!
# Frames

The wire format of `v2.rs`: a big-endian length of four bytes, a byte with the protocol version
and the type of the message, and the payload. A stream is read in pieces; what `read_frame`
returns depends only on the bytes of the stream and on where it breaks. The length is computed in
32 bits, so a payload from 2^32 bytes on can be written under the length of a shorter one.
-/

namespace AgentHouse.Proto

/-- Payloads and what is sent. -/
abbrev Bytes := List UInt8

/-- `PROTOCOL_VERSION` -/
def protocolVersion : UInt8 := 2

/-- `MAX_FRAME_SIZE` -/
def maxFrameSize : ℕ := 2 ^ 20

/-- `FrameType` -/
inductive FrameType where
  | execReq
  | auth
  | configReq
  | configResp
  | execResp
  | error
  | fileReq
  | fileResp
  | sessionReq
  | sessionResp
  | sessionData
  | forwardReq
  | forwardResp
  | fileData
  | fileCommit
  deriving DecidableEq, Repr

namespace FrameType

/-- The discriminant of a type. -/
def code : FrameType → UInt8
  | execReq => 0x0
  | auth => 0x1
  | configReq => 0x2
  | configResp => 0x3
  | execResp => 0x4
  | error => 0x5
  | fileReq => 0x6
  | fileResp => 0x7
  | sessionReq => 0x8
  | sessionResp => 0x9
  | sessionData => 0xA
  | forwardReq => 0xB
  | forwardResp => 0xC
  | fileData => 0xD
  | fileCommit => 0xE

/-- `FrameType::from_nibble` -/
def fromNibble (n : UInt8) : Option FrameType :=
  match n.toNat with
  | 0x0 => some execReq
  | 0x1 => some auth
  | 0x2 => some configReq
  | 0x3 => some configResp
  | 0x4 => some execResp
  | 0x5 => some error
  | 0x6 => some fileReq
  | 0x7 => some fileResp
  | 0x8 => some sessionReq
  | 0x9 => some sessionResp
  | 0xA => some sessionData
  | 0xB => some forwardReq
  | 0xC => some forwardResp
  | 0xD => some fileData
  | 0xE => some fileCommit
  | _ => none

/-- The byte of the version and the type. -/
def byte (t : FrameType) : UInt8 := protocolVersion <<< 4 ||| t.code

theorem version_byte (t : FrameType) : t.byte >>> 4 = protocolVersion := by
  cases t <;> decide

/-- The type is read back from its byte. -/
theorem fromNibble_byte (t : FrameType) : fromNibble (t.byte &&& 0x0f) = some t := by
  cases t <;> decide

/-- The byte is determined by its two halves. -/
theorem byte_of_nibbles {b : UInt8} {t : FrameType} (hversion : b >>> 4 = protocolVersion)
    (htype : fromNibble (b &&& 0x0f) = some t) : b = t.byte := by
  have hlow : ∀ k : Fin 16, ∀ t, fromNibble (UInt8.ofNat (32 + k.val) &&& 0x0f) = some t →
      UInt8.ofNat (32 + k.val) = t.byte := by
    intro k t htype
    revert htype
    revert t k
    decide
  have hhigh : b.toNat / 16 = 2 := by
    have h := congrArg UInt8.toNat hversion
    simpa [protocolVersion, Nat.shiftRight_eq_div_pow] using h
  have hbyte : UInt8.ofNat (32 + (b.toNat - 32)) = b := by
    rw [show 32 + (b.toNat - 32) = b.toNat by omega, UInt8.ofNat_toNat]
  have h := hlow ⟨b.toNat - 32, by omega⟩ t
  simp only [hbyte] at h
  exact h htype

end FrameType

/-- `Frame` -/
structure Frame where
  msgType : FrameType
  payload : Bytes
  deriving DecidableEq, Repr

/-- The kinds of an I/O error but `Interrupted`. -/
inductive ErrorKind where
  | connectionReset
  | timedOut
  | other
  deriving DecidableEq, Repr

/-- The errors of the protocol, and a panic. -/
inductive Error where
  | io (kind : ErrorKind)
  | cleanEof
  | zeroLength
  | tooLarge (n : ℕ)
  | unknownVersion (v : UInt8)
  | unknownType (t : UInt8)
  | unexpectedEof
  /-- An addition overflowed in a build that checks it. -/
  | panicked
  deriving DecidableEq, Repr

/-! ## Writing -/

/-- `1 + frame.payload.len() as u32`, in a build that checks additions or in one that wraps. -/
def bodyLen (checks : Bool) (payload : Bytes) : Except Error ℕ :=
  if 1 + payload.length % 2 ^ 32 < 2 ^ 32 then .ok (1 + payload.length % 2 ^ 32)
  else if checks then .error .panicked
  else .ok 0

/-- `write_frame`: the bytes that are written, or an error with nothing written. -/
def writeFrame (checks : Bool) (frame : Frame) : Except Error Bytes :=
  match bodyLen checks frame.payload with
  | .error e => .error e
  | .ok bodyLen =>
    if bodyLen > maxFrameSize then .error (.tooLarge bodyLen)
    else .ok (beBytes 4 bodyLen ++ [frame.msgType.byte] ++ frame.payload)

/-! ## Reading -/

/-- What one call of `read` finds: bytes, of which it takes as many as it has room for, or an
error. The end of the stream is that of the list. -/
inductive Piece where
  | bytes (data : Bytes) (h : data ≠ [])
  | interrupted
  | failed (kind : ErrorKind)

/-- What a reader returns, call after call. -/
abbrev Source := List Piece

/-- `read_exact_eof`. -/
def readExactEof : Source → ℕ → Bool → Except Error Bytes × Source
  | src, 0, _ => (.ok [], src)
  | [], _ + 1, gotAny => (.error (if gotAny then .unexpectedEof else .cleanEof), [])
  | .interrupted :: rest, n + 1, gotAny => readExactEof rest (n + 1) gotAny
  | .failed kind :: rest, _ + 1, _ => (.error (.io kind), rest)
  | .bytes data h :: rest, n + 1, _ =>
    if hshort : data.length ≤ n + 1 then
      match readExactEof rest (n + 1 - data.length) true with
      | (.ok tail, rest') => (.ok (data ++ tail), rest')
      | (.error e, rest') => (.error e, rest')
    else
      (.ok (data.take (n + 1)), .bytes (data.drop (n + 1)) (by
        intro hnil
        have hlen := List.length_drop (i := n + 1) (l := data)
        rw [hnil, List.length_nil] at hlen
        omega) :: rest)

/-- The body of a frame, once it has been read. -/
def parseBody : Bytes → Except Error Frame
  | [] => .error .zeroLength
  | first :: payload =>
    if first >>> 4 ≠ protocolVersion then .error (.unknownVersion (first >>> 4))
    else
      match FrameType.fromNibble (first &&& 0x0f) with
      | none => .error (.unknownType first)
      | some msgType => .ok ⟨msgType, payload⟩

/-- `read_frame`: a stream that ends behind the length ends within a frame. -/
def readFrame (src : Source) : Except Error Frame × Source :=
  match readExactEof src 4 false with
  | (.error e, rest) => (.error e, rest)
  | (.ok lenBuf, rest) =>
    if ofBe lenBuf = 0 then (.error .zeroLength, rest)
    else if ofBe lenBuf > maxFrameSize then (.error (.tooLarge (ofBe lenBuf)), rest)
    else
      match readExactEof rest (ofBe lenBuf) false with
      | (.error e, rest') => (.error (if e = .cleanEof then .unexpectedEof else e), rest')
      | (.ok body, rest') => (parseBody body, rest')

/-- Frames that are read one after the other. -/
def readFrames : ℕ → Source → Except Error (List Frame) × Source
  | 0, src => (.ok [], src)
  | n + 1, src =>
    match readFrame src with
    | (.error e, rest) => (.error e, rest)
    | (.ok frame, rest) =>
      match readFrames n rest with
      | (.error e, rest') => (.error e, rest')
      | (.ok frames, rest') => (.ok (frame :: frames), rest')

/-! ## Streams -/

/-- The bytes of a source up to its first failure, and that failure. -/
def Source.stream : Source → Bytes × Option ErrorKind
  | [] => ([], none)
  | .interrupted :: rest => Source.stream rest
  | .failed kind :: _ => ([], some kind)
  | .bytes data _ :: rest => (data ++ (Source.stream rest).1, (Source.stream rest).2)

/-- The error of a stream that ends or breaks too early. -/
def short (gotAny : Bool) : Option ErrorKind → Error
  | none => if gotAny then .unexpectedEof else .cleanEof
  | some kind => .io kind

/-- What has been read depends on the stream alone. -/
theorem readExactEof_stream (src : Source) (n : ℕ) (gotAny : Bool) :
    (n ≤ src.stream.1.length → ∃ rest, readExactEof src n gotAny =
      (.ok (src.stream.1.take n), rest) ∧
      rest.stream = (src.stream.1.drop n, src.stream.2)) ∧
    (src.stream.1.length < n → ∃ rest, readExactEof src n gotAny =
      (.error (short (gotAny || !src.stream.1.isEmpty) src.stream.2), rest)) := by
  induction src generalizing n gotAny with
  | nil =>
    cases n with
    | zero => exact ⟨fun _ => ⟨[], rfl, rfl⟩, fun h => absurd h (Nat.not_lt_zero _)⟩
    | succ n =>
      refine ⟨fun h => absurd h (by simp [Source.stream]), fun _ => ⟨[], ?_⟩⟩
      simp [readExactEof, Source.stream, short]
  | cons piece rest ih =>
    cases n with
    | zero =>
      refine ⟨fun _ => ⟨piece :: rest, by simp [readExactEof], by simp⟩, ?_⟩
      exact fun h => absurd h (Nat.not_lt_zero _)
    | succ n =>
      cases piece with
      | interrupted =>
        simp only [readExactEof, Source.stream]
        exact ih (n + 1) gotAny
      | failed kind =>
        refine ⟨fun h => absurd h (by simp [Source.stream]), fun _ => ⟨rest, ?_⟩⟩
        simp [readExactEof, Source.stream, short]
      | bytes data hne =>
        have hpos : 0 < data.length := List.length_pos_iff.mpr hne
        simp only [readExactEof, Source.stream, List.length_append]
        by_cases hshort : data.length ≤ n + 1
        · rw [dif_pos hshort]
          obtain ⟨hok, herror⟩ := ih (n + 1 - data.length) true
          refine ⟨fun h => ?_, fun h => ?_⟩
          · obtain ⟨rest', hread, hrest⟩ := hok (by omega)
            refine ⟨rest', ?_, ?_⟩
            · rw [hread, List.take_append, List.take_of_length_le hshort]
            · rw [hrest, List.drop_append, List.drop_of_length_le hshort, List.nil_append]
          · obtain ⟨rest', hread⟩ := herror (by omega)
            refine ⟨rest', ?_⟩
            rw [hread]
            cases data with
            | nil => exact absurd rfl hne
            | cons b data => simp
        · rw [dif_neg hshort]
          refine ⟨fun _ => ⟨_, Prod.ext ?_ rfl, ?_⟩, fun h => absurd h (by omega)⟩
          · simp only
            rw [List.take_append_of_le_length (by omega)]
          · simp only [Source.stream]
            rw [List.drop_append_of_le_length (by omega)]

/-- What `read_frame` makes of a stream. -/
def readStream : Bytes × Option ErrorKind → Except Error Frame × (Bytes × Option ErrorKind)
  | (bytes, fail) =>
    if bytes.length < 4 then (.error (short (!bytes.isEmpty) fail), ([], fail))
    else if ofBe (bytes.take 4) = 0 then (.error .zeroLength, (bytes.drop 4, fail))
    else if ofBe (bytes.take 4) > maxFrameSize then
      (.error (.tooLarge (ofBe (bytes.take 4))), (bytes.drop 4, fail))
    else if (bytes.drop 4).length < ofBe (bytes.take 4) then (.error (short true fail), ([], fail))
    else
      (parseBody ((bytes.drop 4).take (ofBe (bytes.take 4))),
        ((bytes.drop 4).drop (ofBe (bytes.take 4)), fail))

/-- A frame that is cut behind its length is cut within. -/
theorem short_body (gotAny : Bool) (fail : Option ErrorKind) :
    (if short gotAny fail = .cleanEof then Error.unexpectedEof else short gotAny fail) =
      short true fail := by
  cases fail <;> cases gotAny <;> simp [short]

/-- The result of `read_frame` is that of the stream, and so is what it leaves after a frame. -/
theorem readFrame_stream (src : Source) :
    (readFrame src).1 = (readStream src.stream).1 ∧
      ∀ frame, (readFrame src).1 = .ok frame →
        (readFrame src).2.stream = (readStream src.stream).2 := by
  rcases hstream : src.stream with ⟨bytes, fail⟩
  obtain ⟨hok, herror⟩ := readExactEof_stream src 4 false
  simp only [hstream, Bool.false_or] at hok herror
  by_cases hlen : bytes.length < 4
  · obtain ⟨rest, hread⟩ := herror hlen
    simp [readFrame, readStream, hread, hlen]
  obtain ⟨rest, hread, hrest⟩ := hok (by omega)
  simp only [readFrame, readStream, hread, if_neg hlen]
  by_cases hzero : ofBe (bytes.take 4) = 0
  · simp [hzero]
  by_cases hlarge : ofBe (bytes.take 4) > maxFrameSize
  · simp [hzero, hlarge]
  simp only [if_neg hzero, if_neg hlarge]
  obtain ⟨hok, herror⟩ := readExactEof_stream rest (ofBe (bytes.take 4)) false
  simp only [hrest, Bool.false_or] at hok herror
  by_cases hbody : (bytes.drop 4).length < ofBe (bytes.take 4)
  · obtain ⟨rest', hread'⟩ := herror hbody
    simp only [hread', if_pos hbody, short_body]
    exact ⟨trivial, by intro frame h; cases h⟩
  · obtain ⟨rest', hread', hrest'⟩ := hok (by omega)
    simp only [hread', if_neg hbody, hrest']
    exact ⟨trivial, fun _ _ => trivial⟩

/-- A body that is parsed is a type and a payload. -/
theorem parseBody_ok {body : Bytes} {frame : Frame} (h : parseBody body = .ok frame) :
    body = frame.msgType.byte :: frame.payload := by
  cases body with
  | nil => cases h
  | cons first payload =>
    by_cases hversion : first >>> 4 ≠ protocolVersion
    · simp [parseBody, hversion] at h
    simp only [parseBody, if_neg hversion] at h
    cases htype : FrameType.fromNibble (first &&& 0x0f) with
    | none => simp [htype] at h
    | some msgType =>
      rw [htype] at h
      cases h
      rw [FrameType.byte_of_nibbles (not_not.mp hversion) htype]

theorem parseBody_ne_cleanEof (body : Bytes) : parseBody body ≠ .error .cleanEof := by
  intro h
  cases body with
  | nil => cases h
  | cons first payload =>
    by_cases hversion : first >>> 4 ≠ protocolVersion
    · simp [parseBody, hversion] at h
    simp only [parseBody, if_neg hversion] at h
    cases htype : FrameType.fromNibble (first &&& 0x0f) <;> simp [htype] at h

/-- A frame of a stream, cut off and rewritten. -/
theorem readStream_ok {bytes rest : Bytes} {fail fail' : Option ErrorKind} {frame : Frame}
    (h : readStream (bytes, fail) = (.ok frame, (rest, fail'))) :
    fail' = fail ∧ frame.payload.length < 2 ^ 20 ∧
      bytes = beBytes 4 (1 + frame.payload.length) ++ [frame.msgType.byte] ++ frame.payload ++
        rest := by
  unfold readStream at h
  by_cases hlen : bytes.length < 4
  · simp [hlen] at h
  by_cases hzero : ofBe (bytes.take 4) = 0
  · simp [hlen, hzero] at h
  by_cases hlarge : ofBe (bytes.take 4) > maxFrameSize
  · simp [hlen, hzero, hlarge] at h
  by_cases hbody : (bytes.drop 4).length < ofBe (bytes.take 4)
  · simp only [if_neg hlen, if_neg hzero, if_neg hlarge, if_pos hbody, Prod.mk.injEq] at h
    cases h.1
  simp only [if_neg hlen, if_neg hzero, if_neg hlarge, if_neg hbody, Prod.mk.injEq] at h
  obtain ⟨hparse, hrest, hfail⟩ := h
  have htake : (bytes.take 4).length = 4 := by
    rw [List.length_take]
    omega
  have hbytes : bytes = bytes.take 4 ++ ((bytes.drop 4).take (ofBe (bytes.take 4)) ++ rest) := by
    rw [← hrest, List.take_append_drop, List.take_append_drop]
  have hbodyLen : ((bytes.drop 4).take (ofBe (bytes.take 4))).length = ofBe (bytes.take 4) := by
    rw [List.length_take]
    omega
  have hcut := parseBody_ok hparse
  rw [hcut] at hbytes hbodyLen
  rw [List.length_cons] at hbodyLen
  have hlength : beBytes 4 (1 + frame.payload.length) = bytes.take 4 := by
    have h := beBytes_ofBe (bytes.take 4)
    rw [htake] at h
    rw [Nat.add_comm, hbodyLen, h]
  refine ⟨hfail.symm, ?_, ?_⟩
  · have : ofBe (bytes.take 4) ≤ 2 ^ 20 := not_lt.mp hlarge
    omega
  · rw [hlength]
    conv_lhs => rw [hbytes]
    simp

/-- What was written under its own length is read back. -/
theorem readStream_written {frame : Frame} (hlen : frame.payload.length < 2 ^ 20) (rest : Bytes)
    (fail : Option ErrorKind) :
    readStream (beBytes 4 (1 + frame.payload.length) ++ [frame.msgType.byte] ++ frame.payload ++
      rest, fail) = (.ok frame, (rest, fail)) := by
  have hbe : (beBytes 4 (1 + frame.payload.length)).length = 4 := length_beBytes _ _
  have hof : ofBe (beBytes 4 (1 + frame.payload.length)) = 1 + frame.payload.length :=
    ofBe_beBytes (by omega)
  simp only [List.append_assoc]
  generalize hhead : beBytes 4 (1 + frame.payload.length) = head at hbe hof ⊢
  have htake : (head ++ ([frame.msgType.byte] ++ (frame.payload ++ rest))).take 4 = head := by
    rw [← hbe, List.take_left]
  have hdrop : (head ++ ([frame.msgType.byte] ++ (frame.payload ++ rest))).drop 4 =
      ([frame.msgType.byte] ++ frame.payload) ++ rest := by
    rw [← hbe, List.drop_left, List.append_assoc]
  have hbody : ([frame.msgType.byte] ++ frame.payload).length = 1 + frame.payload.length := by
    rw [List.length_append, List.length_singleton]
  simp only [readStream, htake, hdrop, hof]
  rw [if_neg (by rw [List.length_append]; omega), if_neg (by omega),
    if_neg (by unfold maxFrameSize; omega), if_neg (by rw [List.length_append, hbody]; omega),
    ← hbody, List.take_left, List.drop_left]
  simp [parseBody, FrameType.version_byte, FrameType.fromNibble_byte]

/-! ## Round trips -/

/-- A frame is faithful when writing it refuses it as too large, with nothing written, or writes
bytes that are read back as the frame, whatever follows them. -/
def Faithful (checks : Bool) (frame : Frame) : Prop :=
  (∃ n, writeFrame checks frame = .error (.tooLarge n)) ∨
    ∃ b, writeFrame checks frame = .ok b ∧ ∀ (src : Source) (rest : Bytes) fail,
      src.stream = (b ++ rest, fail) →
        (readFrame src).1 = .ok frame ∧ (readFrame src).2.stream = (rest, fail)

/-- A payload fits when it is shorter than the largest frame, or when its length as a number of 32
bits is still that of one too large, and can be increased. -/
def Fits (frame : Frame) : Prop :=
  frame.payload.length < 2 ^ 20 ∨
    (2 ^ 20 ≤ frame.payload.length % 2 ^ 32 ∧ frame.payload.length % 2 ^ 32 ≠ 2 ^ 32 - 1)

instance (frame : Frame) : Decidable (Fits frame) := by
  unfold Fits
  infer_instance

/-- A short frame is written in both kinds of build. -/
theorem writeFrame_of_short {frame : Frame} (checks : Bool)
    (hlen : frame.payload.length < 2 ^ 20) :
    writeFrame checks frame =
      .ok (beBytes 4 (1 + frame.payload.length) ++ [frame.msgType.byte] ++ frame.payload) := by
  have hmod : frame.payload.length % 2 ^ 32 = frame.payload.length :=
    Nat.mod_eq_of_lt (by omega)
  have hbody : bodyLen checks frame.payload = .ok (1 + frame.payload.length) := by
    unfold bodyLen
    rw [hmod, if_pos (by omega)]
  unfold writeFrame
  rw [hbody]
  simp only
  rw [if_neg (by unfold maxFrameSize; omega)]

/-- Only a short frame is read at all. -/
theorem short_of_readFrame {src : Source} {frame : Frame} (h : (readFrame src).1 = .ok frame) :
    frame.payload.length < 2 ^ 20 := by
  have hread := (readFrame_stream src).1
  rw [h] at hread
  exact (readStream_ok (Prod.ext hread.symm rfl)).2.1

/-- A frame is written faithfully if and only if it fits. -/
theorem faithful_iff (checks : Bool) (frame : Frame) : Faithful checks frame ↔ Fits frame := by
  constructor
  · rintro (⟨n, hwrite⟩ | ⟨b, hwrite, hread⟩)
    · refine or_iff_not_imp_left.mpr fun hlong => ?_
      unfold writeFrame bodyLen at hwrite
      by_cases hover : 1 + frame.payload.length % 2 ^ 32 < 2 ^ 32
      · rw [if_pos hover] at hwrite
        simp only at hwrite
        split at hwrite
        · rename_i hlarge
          unfold maxFrameSize at hlarge
          exact ⟨by omega, by omega⟩
        · cases hwrite
      · rw [if_neg hover] at hwrite
        cases checks
        · simp [maxFrameSize] at hwrite
        · simp at hwrite
    · cases hb : b with
      | nil =>
        refine .inl (short_of_readFrame (hread [] [] none ?_).1)
        rw [hb]
        rfl
      | cons x l =>
        refine .inl (short_of_readFrame (hread [.bytes b (by simp [hb])] [] none ?_).1)
        rfl
  · rintro (hlen | ⟨hlarge, hnot⟩)
    · refine .inr ⟨_, writeFrame_of_short checks hlen, fun src rest fail hsrc => ?_⟩
      obtain ⟨hresult, hrest⟩ := readFrame_stream src
      rw [hsrc, readStream_written hlen] at hresult hrest
      exact ⟨hresult, hrest frame hresult⟩
    · refine .inl ⟨1 + frame.payload.length % 2 ^ 32, ?_⟩
      unfold writeFrame bodyLen
      rw [if_pos (by omega)]
      simp only
      rw [if_pos (by unfold maxFrameSize; omega)]

/-- Frames written back to back. -/
def writeFrames (checks : Bool) : List Frame → Except Error Bytes
  | [] => .ok []
  | frame :: frames =>
    match writeFrame checks frame, writeFrames checks frames with
    | .ok b, .ok bs => .ok (b ++ bs)
    | .error e, _ => .error e
    | .ok _, .error e => .error e

/-- By induction on the frames, they are read as they were written. -/
theorem readFrames_written {checks : Bool} {frames : List Frame} {b : Bytes}
    (hfits : ∀ frame ∈ frames, Fits frame) (hwrite : writeFrames checks frames = .ok b)
    {src : Source} {rest : Bytes} {fail : Option ErrorKind}
    (hsrc : src.stream = (b ++ rest, fail)) :
    (readFrames frames.length src).1 = .ok frames ∧
      (readFrames frames.length src).2.stream = (rest, fail) := by
  induction frames generalizing b src with
  | nil =>
    cases hwrite
    exact ⟨rfl, hsrc⟩
  | cons frame frames ih =>
    unfold writeFrames at hwrite
    split at hwrite
    · rename_i b₁ b₂ hfirst hothers
      cases hwrite
      obtain hfaithful := (faithful_iff checks frame).mpr (hfits frame List.mem_cons_self)
      rcases hfaithful with ⟨n, herror⟩ | ⟨b', hb', hread⟩
      · rw [hfirst] at herror
        cases herror
      · obtain rfl : b₁ = b' := by
          rw [hfirst] at hb'
          exact Except.ok.inj hb'
        rw [List.append_assoc] at hsrc
        obtain ⟨hone, hrest⟩ := hread src _ fail hsrc
        obtain ⟨hall, hend⟩ := ih (fun f hf => hfits f (List.mem_cons_of_mem _ hf)) hothers hrest
        rcases hread₁ : readFrame src with ⟨r₁, src₁⟩
        rw [hread₁] at hone hrest hall hend
        rcases hread₂ : readFrames frames.length src₁ with ⟨r₂, src₂⟩
        simp only [hread₂] at hone hall hend
        simp only [List.length_cons, readFrames, hread₁, hone, hread₂, hall]
        exact ⟨trivial, hend⟩
    · cases hwrite
    · cases hwrite

theorem writeFrames_snoc {checks : Bool} {frames : List Frame} {frame : Frame} {bs b : Bytes}
    (hframes : writeFrames checks frames = .ok bs) (hframe : writeFrame checks frame = .ok b) :
    writeFrames checks (frames ++ [frame]) = .ok (bs ++ b) := by
  induction frames generalizing bs with
  | nil =>
    cases hframes
    simp [writeFrames, hframe]
  | cons first frames ih =>
    unfold writeFrames at hframes
    split at hframes
    · rename_i b₁ b₂ hfirst hothers
      cases hframes
      simp [writeFrames, hfirst, ih hothers]
    · cases hframes
    · cases hframes

theorem readFrames_snoc {n : ℕ} {src mid rest : Source} {frames : List Frame} {frame : Frame}
    (hframes : readFrames n src = (.ok frames, mid)) (hframe : readFrame mid = (.ok frame, rest)) :
    readFrames (n + 1) src = (.ok (frames ++ [frame]), rest) := by
  induction n generalizing src frames with
  | zero =>
    cases hframes
    simp [readFrames, hframe]
  | succ n ih =>
    unfold readFrames at hframes ⊢
    rcases hfirst : readFrame src with ⟨e | first, src₁⟩
    · simp [hfirst] at hframes
    rcases hothers : readFrames n src₁ with ⟨e | others, src₂⟩
    · simp [hfirst, hothers] at hframes
    · simp only [hfirst, hothers, Prod.mk.injEq, Except.ok.injEq] at hframes
      obtain ⟨rfl, rfl⟩ := hframes
      simp only [ih hothers]
      rfl

/-- Where the length does not wrap, only a short frame is written. -/
theorem short_of_written {checks : Bool} {frame : Frame} {b : Bytes}
    (hlen : 1 + frame.payload.length < 2 ^ 32) (hwrite : writeFrame checks frame = .ok b) :
    frame.payload.length < 2 ^ 20 := by
  have hbody : bodyLen checks frame.payload = .ok (1 + frame.payload.length) := by
    unfold bodyLen
    rw [Nat.mod_eq_of_lt (by omega), if_pos hlen]
  unfold writeFrame at hwrite
  rw [hbody] at hwrite
  simp only at hwrite
  split at hwrite
  · cases hwrite
  · rename_i hsize
    unfold maxFrameSize at hsize
    omega

/-- The end of a stream is clean only in front of a frame. -/
theorem cleanEof_iff (src : Source) :
    (readFrame src).1 = .error .cleanEof ↔ src.stream = ([], none) := by
  rw [(readFrame_stream src).1]
  rcases src.stream with ⟨bytes, fail⟩
  constructor
  · intro h
    by_cases hlen : bytes.length < 4
    · simp only [readStream, if_pos hlen] at h
      cases fail with
      | some kind => cases h
      | none =>
        cases bytes with
        | nil => rfl
        | cons x l => cases h
    · simp only [readStream, if_neg hlen] at h
      split at h
      · cases h
      split at h
      · cases h
      split at h
      · cases fail <;> cases h
      · exact absurd h (parseBody_ne_cleanEof _)
  · intro h
    cases h
    rfl

/-- A frame that was read is written to the bytes it was read from. -/
theorem readFrame_written {src : Source} {frame : Frame} (checks : Bool)
    (h : (readFrame src).1 = .ok frame) :
    ∃ b, writeFrame checks frame = .ok b ∧
      src.stream = (b ++ (readFrame src).2.stream.1, (readFrame src).2.stream.2) := by
  obtain ⟨hresult, hrest⟩ := readFrame_stream src
  rw [h] at hresult
  rw [hrest frame h]
  rcases hstream : src.stream with ⟨bytes, fail⟩
  rw [hstream] at hresult
  obtain ⟨hfail, hlen, hbytes⟩ := readStream_ok (Prod.ext hresult.symm rfl)
  exact ⟨_, writeFrame_of_short checks hlen, Prod.ext hbytes hfail.symm⟩

/-- What the format keeps: a frame that fits is faithful, and only such a frame; frames that fit
are read back as the sequence they were written as; what is read is written to the same bytes; the
cuts of the stream do not matter; the end is clean only in front of a frame. -/
theorem frames_round_trip (checks : Bool) (src : Source) :
    (∀ frame, Faithful checks frame ↔ Fits frame) ∧
    (∀ frames b, (∀ frame ∈ frames, Fits frame) → writeFrames checks frames = .ok b →
      ∀ rest fail, src.stream = (b ++ rest, fail) →
        (readFrames frames.length src).1 = .ok frames ∧
          (readFrames frames.length src).2.stream = (rest, fail)) ∧
    (∀ frame, (readFrame src).1 = .ok frame →
      ∃ b, writeFrame checks frame = .ok b ∧
        src.stream = (b ++ (readFrame src).2.stream.1, (readFrame src).2.stream.2)) ∧
    (∀ src' : Source, src.stream = src'.stream →
      (readFrame src).1 = (readFrame src').1 ∧
        ∀ frame, (readFrame src).1 = .ok frame →
          (readFrame src).2.stream = (readFrame src').2.stream) ∧
    ((readFrame src).1 = .error .cleanEof ↔ src.stream = ([], none)) := by
  refine ⟨faithful_iff checks, fun frames b hfits hwrite rest fail hsrc => ?_,
    fun frame h => readFrame_written checks h, fun src' hsame => ?_, cleanEof_iff src⟩
  · exact readFrames_written hfits hwrite hsrc
  · obtain ⟨hresult, hrest⟩ := readFrame_stream src
    obtain ⟨hresult', hrest'⟩ := readFrame_stream src'
    have heq : (readFrame src).1 = (readFrame src').1 := by rw [hresult, hresult', hsame]
    refine ⟨heq, fun frame h => ?_⟩
    rw [hrest frame h, hrest' frame (heq ▸ h), hsame]

/-- A payload of 2^32 bytes is written in full under the length of an empty one, as which it is
read back. -/
theorem written_as_empty {payload : Bytes} (hlen : payload.length = 2 ^ 32) (t : FrameType) :
    writeFrame false ⟨t, payload⟩ = .ok (beBytes 4 1 ++ [t.byte] ++ payload) ∧
      readStream (beBytes 4 1 ++ [t.byte] ++ payload, none) = (.ok ⟨t, []⟩, (payload, none)) ∧
      ¬ Fits ⟨t, payload⟩ := by
  have hmod : payload.length % 2 ^ 32 = 0 := by rw [hlen, Nat.mod_self]
  refine ⟨?_, ?_, ?_⟩
  · have hbody : bodyLen false payload = .ok 1 := by
      unfold bodyLen
      rw [hmod, if_pos (by norm_num)]
    simp [writeFrame, hbody, maxFrameSize]
  · have h := @readStream_written ⟨t, []⟩ (by simp) payload none
    simpa using h
  · rintro (hshort | ⟨hlarge, -⟩)
    · simp only [hlen] at hshort
      omega
    · simp only [hmod] at hlarge
      omega

theorem written_under_short_length :
    writeFrame false ⟨.execReq, List.replicate (2 ^ 32) 0⟩ =
        .ok (beBytes 4 1 ++ [FrameType.execReq.byte] ++ List.replicate (2 ^ 32) 0) ∧
      readStream (beBytes 4 1 ++ [FrameType.execReq.byte] ++ List.replicate (2 ^ 32) 0, none) =
        (.ok ⟨.execReq, []⟩, (List.replicate (2 ^ 32) 0, none)) ∧
      ¬ ∀ checks frame, Faithful checks frame := by
  have hlen : (List.replicate (2 ^ 32) (0 : UInt8)).length = 2 ^ 32 := List.length_replicate
  have h := written_as_empty hlen .execReq
  exact ⟨h.1, h.2.1, fun hall => h.2.2 ((faithful_iff false _).mp (hall _ _))⟩

end AgentHouse.Proto
