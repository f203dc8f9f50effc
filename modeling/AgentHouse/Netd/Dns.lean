import AgentHouse.Lib.DomainNames

/-!
# Matching of DNS replies

A resolver's reply is forwarded only if it answers the guest's question. The parser indexes
checked, so a panic is an outcome of its own, and it takes 128 steps at most.
-/

namespace AgentHouse.Netd

/-- The bytes of a datagram. -/
abbrev Bytes := List UInt8

/-- How a function ends early: with `None`, or by an index out of range. -/
inductive Stop where
  | none
  | panic
deriving DecidableEq

/-- The parser returns `None`, panics or succeeds. -/
abbrev Checked (α : Type) := Except Stop α

/-- `packet.get(i)?` -/
def get (packet : Bytes) (i : ℕ) : Checked UInt8 :=
  match packet[i]? with
  | some byte => .ok byte
  | none => .error .none

/-- `packet[i]` -/
def index (packet : Bytes) (i : ℕ) : Checked UInt8 :=
  match packet[i]? with
  | some byte => .ok byte
  | none => .error .panic

/-- `packet.get(first..last)?` -/
def getRange (packet : Bytes) (first last : ℕ) : Checked Bytes :=
  if first ≤ last ∧ last ≤ packet.length then .ok (slice packet first (last - first))
  else .error .none

/-- `packet[first..last]` -/
def indexRange (packet : Bytes) (first last : ℕ) : Checked Bytes :=
  if first ≤ last ∧ last ≤ packet.length then .ok (slice packet first (last - first))
  else .error .panic

/-- `u8::to_ascii_lowercase` -/
def toAsciiLowercase (byte : UInt8) : UInt8 :=
  if 65 ≤ byte ∧ byte ≤ 90 then byte + 32 else byte

/-- `Question` -/
structure Question where
  id : Bytes
  opcode : UInt8
  name : Bytes
  kind : Bytes
deriving DecidableEq

namespace Question

/-- The end of the name is reached. -/
def finish (packet name : Bytes) (stop : ℕ) : Checked (Question × ℕ) := do
  let id ← indexRange packet 0 2
  let flags ← index packet 2
  let kind ← getRange packet stop (stop + 4)
  return ({ id, opcode := flags &&& 0x78, name, kind }, stop + 4)

/-- The loop over the parts of the name. -/
def expand (packet : Bytes) : (steps pos : ℕ) → (stop : Option ℕ) → (limit : ℕ) → (name : Bytes) →
    Checked (Question × ℕ)
  | 0, _, _, _, _ => .error .none
  | steps + 1, pos, stop, limit, name =>
      if limit ≤ pos then .error .none
      else do
        let len ← get packet pos
        if len &&& 0xc0 = 0xc0 then
          if limit < pos + 2 then .error .none
          else do
            let low ← get packet (pos + 1)
            let target := ((len &&& 0x3f).toNat <<< 8) ||| low.toNat
            let stop := stop.getD (pos + 2)
            -- A name is never in the fixed header, and it is read up to the pointer only.
            if target < 12 ∨ pos ≤ target then .error .none
            else expand packet steps target (some stop) pos name
        else if len ≤ 63 then
          let pos := pos + 1
          let name := name ++ [len]
          if 255 < name.length + len.toNat ∨ limit < pos + len.toNat then .error .none
          else if len = 0 then finish packet name (stop.getD pos)
          else do
            let label ← getRange packet pos (pos + len.toNat)
            expand packet steps (pos + len.toNat) stop limit (name ++ label.map toAsciiLowercase)
        else .error .none

/-- `parse_question`: exactly one question is read. -/
def parseQuestion (packet : Bytes) : Checked (Question × ℕ) :=
  if packet.length < 12 then .error .none
  else do
    let count ← indexRange packet 4 6
    if count ≠ [0, 1] then .error .none
    else expand packet 128 12 none packet.length []

/-- `Question::parse` -/
def parse (packet : Bytes) : Checked Question := do
  let (question, _) ← parseQuestion packet
  return question

/-- `Question::query`: not the reply bit. -/
def query (packet : Bytes) : Checked Question := do
  let flags ← get packet 2
  if flags &&& 0x80 ≠ 0 then .error .none
  else parse packet

/-- `None` is no failure here. -/
def option {α : Type} : Checked α → Checked (Option α)
  | .ok a => .ok (some a)
  | .error .none => .ok none
  | .error .panic => .error .panic

/-- `Question::matches`: a reply to this question. -/
def «matches» (q : Question) (packet : Bytes) : Checked Bool := do
  let flags ← option (get packet 2)
  if flags.any (fun flags => flags &&& 0x80 ≠ 0) then
    let parsed ← option (parse packet)
    return decide (parsed = some q)
  else return false

/-- `packet[first..last].fill(byte)` -/
def fill (packet : Bytes) (first last : ℕ) (byte : UInt8) : Checked Bytes :=
  if first ≤ last ∧ last ≤ packet.length then
    .ok (splice packet first (List.replicate (last - first) byte))
  else .error .panic

/-- A small reply with the TC bit, in place of one that does not fit into a frame. -/
def truncatedReply (q : Question) (packet : Bytes) : Checked Bytes := do
  if !(← q.matches packet) then .error .none
  else
    let (_, stop) ← parseQuestion packet
    let reply ← indexRange packet 0 stop
    let flags ← index reply 2
    fill (reply.set 2 (flags ||| 2)) 6 12 0

variable {packet name : Bytes} {steps pos limit : ℕ} {stopAt : Option ℕ} {len low : UInt8}
  {labels : List Bytes} {r : Question × ℕ}

open DomainName

theorem ok_bind {α β : Type} (a : α) (f : α → Checked β) : (.ok a >>= f : Checked β) = f a := rfl

theorem error_bind {α β : Type} (e : Stop) (f : α → Checked β) :
    (.error e >>= f : Checked β) = .error e := rfl

/-- A byte that is there is read. -/
theorem get_some {i : ℕ} (h : packet[i]? = some len) : get packet i = .ok len := by
  rw [get, h]

/-- A byte of a pointer is no length of a label. -/
theorem pointer_ge (h : len &&& 0xc0 = 0xc0) : 192 ≤ len.toNat := by
  have hle : len.toNat &&& 192 ≤ len.toNat := Nat.and_le_left
  rwa [show len.toNat &&& 192 = 192 from congrArg UInt8.toNat h] at hle

/-- A short length is no pointer. -/
theorem not_pointer (h : len ≤ 63) : ¬ len &&& 0xc0 = 0xc0 := fun hp => by
  have hlen : len.toNat ≤ 63 := UInt8.le_iff_toNat_le.mp h
  have := pointer_ge hp
  omega

/-- The target of a pointer, in the two ways of writing it. -/
theorem target_eq (len low : UInt8) :
    ((len &&& 0x3f).toNat <<< 8) ||| low.toNat = offset len low := by
  rw [← Nat.shiftLeft_add_eq_or_of_lt (UInt8.toNat_lt low), Nat.shiftLeft_eq]
  rfl

/-- The end of a name. -/
theorem expand_root (hpos : pos < limit) (hzero : packet[pos]? = some 0) :
    expand packet (steps + 1) pos stopAt limit name =
      if 255 < name.length + 1 then .error .none
      else finish packet (name ++ [0]) (stopAt.getD (pos + 1)) := by
  have hsize : (255 < (name ++ [0]).length + (0 : UInt8).toNat ∨
      limit < pos + 1 + (0 : UInt8).toNat) ↔ 255 < name.length + 1 := by
    rw [List.length_append, List.length_singleton]
    have h0 : (0 : UInt8).toNat = 0 := rfl
    omega
  rw [expand, if_neg (by omega), get_some hzero, ok_bind, if_neg (not_pointer (by decide)),
    if_pos (by decide)]
  simp only [hsize, if_true]

/-- A label, folded to lower case. -/
theorem expand_label (hlimit : limit ≤ packet.length) (hpos : pos < limit)
    (hlen : packet[pos]? = some len) (hpositive : len ≠ 0) (hshort : len ≤ 63) :
    expand packet (steps + 1) pos stopAt limit name =
      if 255 < name.length + 1 + len.toNat ∨ limit < pos + 1 + len.toNat then .error .none
      else expand packet steps (pos + 1 + len.toNat) stopAt limit
        (name ++ len :: (slice packet (pos + 1) len.toNat).map toAsciiLowercase) := by
  rw [expand, if_neg (by omega), get_some hlen, ok_bind,
    if_neg (not_pointer hshort), if_pos hshort]
  simp only [List.length_append, List.length_singleton]
  by_cases hfits : 255 < name.length + 1 + len.toNat ∨ limit < pos + 1 + len.toNat
  · rw [if_pos hfits, if_pos hfits]
  · rw [if_neg hfits, if_neg hfits, if_neg hpositive, getRange, if_pos (by omega),
      Nat.add_sub_cancel_left]
    rw [ok_bind, List.append_assoc, List.singleton_append]

/-- A pointer, which must lead back. -/
theorem expand_pointer (hpos : pos < limit)
    (hlen : packet[pos]? = some len) (hpointer : len &&& 0xc0 = 0xc0) :
    expand packet (steps + 1) pos stopAt limit name =
      if limit < pos + 2 then .error .none
      else get packet (pos + 1) >>= fun low =>
        if offset len low < 12 ∨ pos ≤ offset len low then .error .none
        else expand packet steps (offset len low) (some (stopAt.getD (pos + 2))) pos name := by
  rw [expand, if_neg (by omega), get_some hlen, ok_bind, if_pos hpointer]
  simp only [target_eq]

/-- Anything else is no name. -/
theorem expand_other (hpos : pos < limit) (hlen : packet[pos]? = some len)
    (hpointer : ¬ len &&& 0xc0 = 0xc0) (hlong : ¬ len ≤ 63) :
    expand packet (steps + 1) pos stopAt limit name = .error .none := by
  rw [expand, if_neg (by omega), get_some hlen, ok_bind, if_neg hpointer,
    if_neg hlong]

/-- The labels in lower case. -/
def fold (labels : List Bytes) : List Bytes := labels.map (·.map toAsciiLowercase)

theorem encode_fold_cons {label : Bytes} (hlabel : label.length = len.toNat) :
    encode (fold (label :: labels)) =
      len :: label.map toAsciiLowercase ++ encode (fold labels) := by
  have hlen : UInt8.ofNat (label.map toAsciiLowercase).length = len := by
    rw [List.length_map, hlabel, UInt8.ofNat_toNat]
  show UInt8.ofNat (label.map toAsciiLowercase).length :: _ ++ _ = _
  rw [hlen]
  rfl

theorem length_label (hfits : pos + 1 + len.toNat ≤ limit) (hlimit : limit ≤ packet.length) :
    (slice packet (pos + 1) len.toNat).length = len.toNat := by
  rw [length_slice]
  omega

/-- What the loop accepts is a name that expands in the steps left. -/
theorem expand_sound (hlimit : limit ≤ packet.length)
    (h : expand packet steps pos stopAt limit name = .ok r) :
    ∃ labels n stop, Expands packet pos limit labels n stop ∧ n ≤ steps ∧
      name.length + (encode labels).length ≤ 255 ∧
      finish packet (name ++ encode (fold labels)) (stopAt.getD stop) = .ok r := by
  induction steps generalizing pos stopAt limit name with
  | zero => cases h
  | succ steps ih =>
    by_cases hpos : limit ≤ pos
    · rw [expand, if_pos hpos] at h
      cases h
    rw [not_le] at hpos
    obtain ⟨len, hlen⟩ : ∃ len, packet[pos]? = some len :=
      ⟨_, List.getElem?_eq_getElem (hpos.trans_le hlimit)⟩
    by_cases hpointer : len &&& 0xc0 = 0xc0
    · rw [expand_pointer hpos hlen hpointer] at h
      by_cases hfits : limit < pos + 2
      · rw [if_pos hfits] at h
        cases h
      obtain ⟨low, hlow⟩ : ∃ low, packet[pos + 1]? = some low :=
        ⟨_, List.getElem?_eq_getElem (by omega)⟩
      rw [if_neg hfits, get_some hlow, ok_bind] at h
      by_cases htarget : offset len low < 12 ∨ pos ≤ offset len low
      · rw [if_pos htarget] at h
        cases h
      rw [if_neg htarget] at h
      obtain ⟨labels, n, stop, hname, hn, hsize, hfinish⟩ := ih (by omega) h
      refine ⟨labels, n + 1, pos + 2, ?_, by omega, hsize, hfinish⟩
      exact .pointer (by omega) hlen hpointer hlow (by omega) (by omega) hname
    by_cases hshort : len ≤ 63
    · by_cases hzero : len = 0
      · subst hzero
        rw [expand_root hpos hlen] at h
        by_cases hsize : 255 < name.length + 1
        · rw [if_pos hsize] at h
          cases h
        rw [if_neg hsize] at h
        exact ⟨[], 1, pos + 1, .root hpos hlen, by omega, by simpa [encode] using hsize, h⟩
      · rw [expand_label hlimit hpos hlen hzero hshort] at h
        by_cases hsize : 255 < name.length + 1 + len.toNat ∨ limit < pos + 1 + len.toNat
        · rw [if_pos hsize] at h
          cases h
        rw [if_neg hsize] at h
        obtain ⟨labels, n, stop, hrest, hn, hsize', hfinish⟩ := ih hlimit h
        have hlength : (slice packet (pos + 1) len.toNat).length = len.toNat :=
          length_label (by omega) hlimit
        refine ⟨_, n + 1, stop, .label hlen hzero hshort (by omega) hrest, by omega, ?_, ?_⟩
        · rw [length_encode_cons, hlength]
          simp only [List.length_append, List.length_cons, List.length_map, hlength] at hsize'
          omega
        · rw [encode_fold_cons hlength]
          rwa [List.append_assoc] at hfinish
    · rw [expand_other hpos hlen hpointer hshort] at h
      cases h

/-- The loop accepts every name that expands in the steps left. -/
theorem expand_complete {n stop : ℕ} (hlimit : limit ≤ packet.length)
    (h : Expands packet pos limit labels n stop) (hn : n ≤ steps)
    (hsize : name.length + (encode labels).length ≤ 255) :
    expand packet steps pos stopAt limit name =
      finish packet (name ++ encode (fold labels)) (stopAt.getD stop) := by
  induction h generalizing steps stopAt name with
  | root hpos hzero =>
    obtain ⟨steps, rfl⟩ : ∃ k, steps = k + 1 := ⟨steps - 1, by omega⟩
    simp only [encode, List.length_singleton] at hsize
    rw [expand_root hpos hzero, if_neg (by omega)]
    rfl
  | @label pos limit length labels n stop hlength hpositive hshort hfits hrest ih =>
    obtain ⟨steps, rfl⟩ : ∃ k, steps = k + 1 := ⟨steps - 1, by omega⟩
    have hlabel := length_label hfits hlimit
    rw [length_encode_cons, hlabel] at hsize
    rw [expand_label hlimit (by omega) hlength hpositive hshort, if_neg (by omega),
      ih hlimit (by omega) (by simp [hlabel]; omega), encode_fold_cons hlabel]
    simp only [List.append_assoc, List.cons_append]
  | pointer hfits hhigh hpointer hlow hheader hearlier hname ih =>
    obtain ⟨steps, rfl⟩ : ∃ k, steps = k + 1 := ⟨steps - 1, by omega⟩
    rw [expand_pointer (by omega) hhigh hpointer, if_neg (by omega), get_some hlow, ok_bind,
      if_neg (by omega), ih (by omega) (by omega) hsize]
    rfl

/-- The packet asks one question, for the name `labels`, whose part in place ends at `stop`. -/
structure Asks (packet : Bytes) (labels : List Bytes) (stop : ℕ) : Prop where
  header : 12 ≤ packet.length
  count : slice packet 4 2 = [0, 1]
  name : ∃ steps ≤ 128, Expands packet 12 packet.length labels steps stop
  size : (encode labels).length ≤ 255
  kind : stop + 4 ≤ packet.length

/-- The bits of the opcode. -/
def opcodeOf (packet : Bytes) : UInt8 := packet.getD 2 0 &&& 0x78

/-- The question for `labels`. -/
def asked (packet : Bytes) (labels : List Bytes) (stop : ℕ) : Question where
  id := slice packet 0 2
  opcode := opcodeOf packet
  name := encode (fold labels)
  kind := slice packet stop 4

/-- The QR bit is set. -/
def Response (packet : Bytes) : Prop := ∃ flags, packet[2]? = some flags ∧ flags &&& 0x80 ≠ 0

/-- The question after the name. -/
theorem finish_eq (h : 12 ≤ packet.length) (name : Bytes) (stop : ℕ) :
    finish packet name stop =
      if stop + 4 ≤ packet.length then
        .ok (⟨slice packet 0 2, opcodeOf packet, name, slice packet stop 4⟩, stop + 4)
      else .error .none := by
  have hflags : index packet 2 = .ok (packet.getD 2 0) := by
    rw [index, List.getD_eq_getElem?_getD, List.getElem?_eq_getElem (by omega)]
    rfl
  rw [finish, indexRange, if_pos (by omega), ok_bind, hflags, ok_bind, getRange]
  by_cases hkind : stop + 4 ≤ packet.length
  · rw [if_pos ⟨by omega, hkind⟩, ok_bind, if_pos hkind, Nat.add_sub_cancel_left]
    rfl
  · rw [if_neg fun hboth => hkind hboth.2, error_bind, if_neg hkind]

/-- One question is asked for. -/
theorem parseQuestion_eq (h : 12 ≤ packet.length) : parseQuestion packet =
    if slice packet 4 2 ≠ [0, 1] then .error .none
    else expand packet 128 12 none packet.length [] := by
  rw [parseQuestion, if_neg (by omega), indexRange, if_pos (by omega), ok_bind]

/-- The parser accepts the packets with one question, and returns this question. -/
theorem parseQuestion_ok_iff : parseQuestion packet = .ok r ↔
    ∃ labels stop, Asks packet labels stop ∧ r = (asked packet labels stop, stop + 4) := by
  by_cases hheader : 12 ≤ packet.length
  swap
  · rw [parseQuestion, if_pos (by omega)]
    constructor
    · intro h
      cases h
    · rintro ⟨labels, stop, hasks, -⟩
      exact absurd hasks.header hheader
  rw [parseQuestion_eq hheader]
  constructor
  · intro h
    by_cases hcount : slice packet 4 2 ≠ [0, 1]
    · rw [if_pos hcount] at h
      cases h
    rw [if_neg hcount] at h
    obtain ⟨labels, n, stop, hname, hn, hsize, hfinish⟩ := expand_sound le_rfl h
    rw [Option.getD_none, finish_eq hheader] at hfinish
    by_cases hkind : stop + 4 ≤ packet.length
    · rw [if_pos hkind] at hfinish
      exact ⟨labels, stop, ⟨hheader, not_not.mp hcount, ⟨n, hn, hname⟩,
        by simpa using hsize, hkind⟩,
        (Except.ok.inj hfinish).symm⟩
    · rw [if_neg hkind] at hfinish
      cases hfinish
  · rintro ⟨labels, stop, ⟨-, hcount, ⟨n, hn, hname⟩, hsize, hkind⟩, rfl⟩
    rw [if_neg (not_not.mpr hcount), expand_complete le_rfl hname hn (by simpa using hsize),
      Option.getD_none, finish_eq hheader, if_pos hkind]
    rfl

/-- The loop reads within the packet. -/
theorem expand_no_panic (hheader : 12 ≤ packet.length) (hlimit : limit ≤ packet.length) :
    expand packet steps pos stopAt limit name ≠ .error .panic := by
  induction steps generalizing pos stopAt limit name with
  | zero => exact fun h => (by cases h)
  | succ steps ih =>
    by_cases hpos : limit ≤ pos
    · rw [expand, if_pos hpos]
      exact fun h => (by cases h)
    rw [not_le] at hpos
    obtain ⟨len, hlen⟩ : ∃ len, packet[pos]? = some len :=
      ⟨_, List.getElem?_eq_getElem (hpos.trans_le hlimit)⟩
    by_cases hpointer : len &&& 0xc0 = 0xc0
    · rw [expand_pointer hpos hlen hpointer]
      by_cases hfits : limit < pos + 2
      · rw [if_pos hfits]
        exact fun h => (by cases h)
      obtain ⟨low, hlow⟩ : ∃ low, packet[pos + 1]? = some low :=
        ⟨_, List.getElem?_eq_getElem (by omega)⟩
      rw [if_neg hfits, get_some hlow, ok_bind]
      split_ifs with htarget
      · exact fun h => (by cases h)
      · exact ih (by omega)
    by_cases hshort : len ≤ 63
    · by_cases hzero : len = 0
      · subst hzero
        rw [expand_root hpos hlen, finish_eq hheader]
        split_ifs <;> exact fun h => (by cases h)
      · rw [expand_label hlimit hpos hlen hzero hshort]
        split_ifs with hsize
        · exact fun h => (by cases h)
        · exact ih hlimit
    · rw [expand_other hpos hlen hpointer hshort]
      exact fun h => (by cases h)

/-- No packet makes the parser panic. -/
theorem parseQuestion_no_panic : parseQuestion packet ≠ .error .panic := by
  by_cases hheader : 12 ≤ packet.length
  · rw [parseQuestion_eq hheader]
    split_ifs
    · exact fun h => (by cases h)
    · exact expand_no_panic hheader le_rfl
  · rw [parseQuestion, if_pos (by omega)]
    exact fun h => (by cases h)

/-- A packet is parsed if and only if it asks for proper labels. -/
theorem parse_ok_iff {q : Question} : parse packet = .ok q ↔
    ∃ labels stop, Asks packet labels stop ∧ q = asked packet labels stop := by
  rw [parse]
  constructor
  · intro h
    cases hparse : parseQuestion packet with
    | error e =>
      rw [hparse, error_bind] at h
      cases h
    | ok r =>
      rw [hparse, ok_bind] at h
      obtain ⟨labels, stop, hasks, rfl⟩ := parseQuestion_ok_iff.mp hparse
      exact ⟨labels, stop, hasks, (Except.ok.inj h).symm⟩
  · rintro ⟨labels, stop, hasks, rfl⟩
    rw [parseQuestion_ok_iff.mpr ⟨labels, stop, hasks, rfl⟩]
    rfl

/-- Nor does the whole parser. -/
theorem parse_no_panic : parse packet ≠ .error .panic := by
  rw [parse]
  cases hparse : parseQuestion packet with
  | error e =>
    intro h
    exact parseQuestion_no_panic (hparse.trans (congrArg _ (Except.error.inj h)))
  | ok r => exact fun h => (by cases h)

/-- The matcher always answers. -/
theorem matches_ok (q : Question) (packet : Bytes) : ∃ b, q.matches packet = .ok b ∧
    (b = true ↔ Response packet ∧ parse packet = .ok q) := by
  cases hflags : packet[2]? with
  | none =>
    have hget : get packet 2 = .error .none := by rw [get, hflags]
    refine ⟨false, by rw [«matches», hget]; rfl, ?_⟩
    simp [Response, hflags]
  | some flags =>
    have hresponse : Response packet ↔ flags &&& 0x80 ≠ 0 := by
      simp [Response, hflags]
    rw [«matches», get_some hflags, hresponse]
    show ∃ b, (if (decide (flags &&& 0x80 ≠ 0)) = true then _ else _ : Checked Bool) = _ ∧ _
    by_cases hbit : flags &&& 0x80 ≠ 0
    · rw [if_pos (decide_eq_true hbit)]
      cases hparse : parse packet with
      | ok q' =>
        refine ⟨decide (some q' = some q), rfl, ?_⟩
        simp [hbit]
      | error e =>
        cases e with
        | none =>
          refine ⟨decide ((none : Option Question) = some q), rfl, ?_⟩
          simp
        | panic => exact absurd hparse parse_no_panic
    · rw [if_neg (by simpa using hbit)]
      exact ⟨false, rfl, by simp [hbit]⟩

/-- A reply matches if it is a response to the same question. -/
theorem matches_true_iff {q : Question} :
    q.matches packet = .ok true ↔ Response packet ∧ parse packet = .ok q := by
  obtain ⟨b, hb, hiff⟩ := matches_ok q packet
  rw [hb, ← hiff]
  exact ⟨Except.ok.inj, congrArg _⟩

/-- A query is a question of a packet without the QR bit. -/
theorem query_ok {q : Question} (h : query packet = .ok q) : parse packet = .ok q := by
  rw [query] at h
  cases hget : get packet 2 with
  | error e =>
    rw [hget, error_bind] at h
    cases h
  | ok flags =>
    rw [hget, ok_bind] at h
    split_ifs at h with hbit
    exact h

/-- The test of a query does not panic either. -/
theorem query_no_panic : query packet ≠ .error .panic := by
  rw [query, get]
  cases packet[2]? with
  | none => exact fun h => (by cases h)
  | some flags =>
    rw [ok_bind]
    split
    · exact fun h => (by cases h)
    · exact parse_no_panic

theorem proper_fold (h : Proper labels) : Proper (fold labels) := by
  intro label hlabel
  obtain ⟨l, hl, rfl⟩ := List.mem_map.mp hlabel
  rw [List.length_map]
  exact h l hl

/-- The labels of a question are proper. -/
theorem Asks.proper {stop : ℕ} (h : Asks packet labels stop) : Proper labels := by
  obtain ⟨n, -, hname⟩ := h.name
  exact hname.proper le_rfl

/-- Two questions are equal if they agree up to case and compression. -/
theorem asked_eq_iff {packet' : Bytes} {labels' : List Bytes} {stop stop' : ℕ}
    (h : Asks packet labels stop) (h' : Asks packet' labels' stop') :
    asked packet' labels' stop' = asked packet labels stop ↔
      slice packet' 0 2 = slice packet 0 2 ∧ opcodeOf packet' = opcodeOf packet ∧
        fold labels' = fold labels ∧ slice packet' stop' 4 = slice packet stop 4 := by
  rw [asked, asked, Question.mk.injEq]
  refine and_congr_right fun _ => and_congr_right fun _ => and_congr_left fun _ => ?_
  exact ⟨encode_injective (proper_fold h'.proper) (proper_fold h.proper), congrArg _⟩

/-- The packet up to the end of its question, with the TC bit and without answers. -/
def replyOf (packet : Bytes) (stop : ℕ) : Bytes :=
  splice ((slice packet 0 (stop + 4)).set 2 (packet.getD 2 0 ||| 2)) 6 (List.replicate 6 0)

section Reply

variable {stop : ℕ}

theorem Asks.stop_gt (h : Asks packet labels stop) : 12 < stop := by
  obtain ⟨n, -, hname⟩ := h.name
  exact hname.lt_stop

/-- The question and the header fit into 272 bytes. -/
theorem Asks.stop_le (h : Asks packet labels stop) : stop + 4 ≤ 272 := by
  obtain ⟨n, -, hname⟩ := h.name
  have := hname.stop_le_add le_rfl
  have := h.size
  omega

theorem Asks.length_question (h : Asks packet labels stop) :
    ((slice packet 0 (stop + 4)).set 2 (packet.getD 2 0 ||| 2)).length = stop + 4 := by
  have := h.kind
  rw [List.length_set, length_slice]
  omega

/-- The truncated reply ends with the question. -/
theorem Asks.length_replyOf (h : Asks packet labels stop) :
    (replyOf packet stop).length = stop + 4 := by
  have hquestion := h.length_question
  have := h.stop_gt
  have hzeros : (List.replicate 6 (0 : UInt8)).length = 6 := List.length_replicate
  rw [replyOf, length_splice (by omega), hquestion]

/-- It repeats the packet outside its flags and counts. -/
theorem Asks.replyOf_getElem? (h : Asks packet labels stop) {k : ℕ} (hk : k < stop + 4)
    (hflags : k ≠ 2) (hcounts : k < 6 ∨ 12 ≤ k) : (replyOf packet stop)[k]? = packet[k]? := by
  have hquestion := h.length_question
  have := h.stop_gt
  have hzeros : (List.replicate 6 (0 : UInt8)).length = 6 := List.length_replicate
  rw [replyOf, getElem?_splice (by omega), if_neg (by omega), List.getElem?_set_ne (by omega),
    getElem?_slice, if_pos hk, Nat.zero_add]

/-- It is marked as truncated. -/
theorem Asks.replyOf_flags (h : Asks packet labels stop) :
    (replyOf packet stop)[2]? = some (packet.getD 2 0 ||| 2) := by
  have hquestion := h.length_question
  have := h.stop_gt
  have hzeros : (List.replicate 6 (0 : UInt8)).length = 6 := List.length_replicate
  have hlt : 2 < (slice packet 0 (stop + 4)).length := by
    rw [List.length_set] at hquestion
    omega
  rw [replyOf, getElem?_splice (by omega), if_neg (by omega), List.getElem?_set_self hlt]

/-- It has no records. -/
theorem Asks.replyOf_counts (h : Asks packet labels stop) :
    slice (replyOf packet stop) 6 6 = List.replicate 6 0 := by
  have hquestion := h.length_question
  have := h.stop_gt
  have hzeros : (List.replicate 6 (0 : UInt8)).length = 6 := List.length_replicate
  have hself := slice_splice_self (l := (slice packet 0 (stop + 4)).set 2 (packet.getD 2 0 ||| 2))
    (b := List.replicate 6 0) (a := 6) (by omega)
  rwa [hzeros] at hself

/-- The TC bit is no bit of the mask. -/
theorem or_two_and {flags mask : UInt8} (hmask : 2 &&& mask = 0) :
    (flags ||| 2) &&& mask = flags &&& mask := by
  have hbits : (2 : BitVec 8) &&& mask.toBitVec = 0 := congrArg UInt8.toBitVec hmask
  apply UInt8.toBitVec_inj.1
  rw [UInt8.toBitVec_and, UInt8.toBitVec_or, UInt8.toBitVec_and]
  calc (flags.toBitVec ||| 2) &&& mask.toBitVec
      = (flags.toBitVec &&& mask.toBitVec) ||| (2 &&& mask.toBitVec) :=
        BitVec.and_or_distrib_right
    _ = flags.toBitVec &&& mask.toBitVec := by rw [hbits]; exact BitVec.or_zero

theorem or_two_and_two (flags : UInt8) : (flags ||| 2) &&& 2 ≠ 0 := fun h => by
  have hbit := congrArg (fun byte : UInt8 => byte.toBitVec.getLsbD 1) h
  simp at hbit

/-- The reply asks the question of the packet. -/
theorem Asks.replyOf_asks (h : Asks packet labels stop) :
    Asks (replyOf packet stop) labels stop := by
  have hlength := h.length_replyOf
  have hgt := h.stop_gt
  obtain ⟨n, hn, hname⟩ := h.name
  refine ⟨by omega, ?_, ⟨n, hn, ?_⟩, h.size, by omega⟩
  · rw [← h.count]
    exact slice_congr fun k hk hlt => h.replyOf_getElem? (by omega) (by omega) (by omega)
  · exact hname.transfer le_rfl
      (fun k hk hlt => h.replyOf_getElem? (by omega) (by omega) (by omega)) (by omega)

/-- It asks the same question. -/
theorem Asks.replyOf_asked (h : Asks packet labels stop) :
    asked (replyOf packet stop) labels stop = asked packet labels stop := by
  have hgt := h.stop_gt
  rw [asked_eq_iff h h.replyOf_asks]
  refine ⟨?_, ?_, rfl, ?_⟩
  · exact slice_congr fun k hk hlt => h.replyOf_getElem? (by omega) (by omega) (by omega)
  · have hflags : (replyOf packet stop).getD 2 0 = packet.getD 2 0 ||| 2 := by
      rw [List.getD_eq_getElem?_getD, h.replyOf_flags, Option.getD_some]
    rw [opcodeOf, opcodeOf, hflags, or_two_and (by decide)]
  · exact slice_congr fun k hk hlt => h.replyOf_getElem? (by omega) (by omega) (by omega)

/-- It is a response if the packet was. -/
theorem Asks.replyOf_response (h : Asks packet labels stop) (hresponse : Response packet) :
    Response (replyOf packet stop) := by
  obtain ⟨flags, hflags, hbit⟩ := hresponse
  have hget : packet.getD 2 0 = flags := by
    rw [List.getD_eq_getElem?_getD, hflags, Option.getD_some]
  refine ⟨_, h.replyOf_flags, ?_⟩
  rwa [hget, or_two_and (by decide)]

/-- The reply is built if and only if the packet matches. -/
theorem truncatedReply_eq {q : Question} (hmatches : q.matches packet = .ok true)
    (hasks : Asks packet labels stop) : q.truncatedReply packet = .ok (replyOf packet stop) := by
  have hquestion := hasks.length_question
  have hkind := hasks.kind
  have hgt := hasks.stop_gt
  have hheader := hasks.header
  have hflags : index (slice packet 0 (stop + 4)) 2 = .ok (packet.getD 2 0) := by
    rw [index, getElem?_slice, if_pos (by omega), Nat.zero_add, List.getD_eq_getElem?_getD,
      List.getElem?_eq_getElem (by omega)]
    rfl
  rw [truncatedReply, hmatches, ok_bind, if_neg (by decide),
    parseQuestion_ok_iff.mpr ⟨labels, stop, hasks, rfl⟩, ok_bind]
  show (indexRange packet 0 (stop + 4) >>= _ : Checked Bytes) = _
  rw [indexRange, if_pos (by omega), ok_bind, Nat.sub_zero, hflags, ok_bind, fill,
    if_pos (by rw [hquestion]; omega)]
  rfl

end Reply

/-- A packet that does not match has no truncated reply. -/
theorem truncatedReply_of_not_matches {q : Question} (h : q.matches packet ≠ .ok true) :
    q.truncatedReply packet = .error .none := by
  obtain ⟨b, hb, -⟩ := matches_ok q packet
  cases b with
  | true => exact absurd hb h
  | false => rw [truncatedReply, hb]; rfl

/-- The question parser, for every packet: it never indexes out of range, and it accepts exactly
the packets with one question. A query is matched exactly by the responses with its id, opcode
and question, up to case and compression. The truncated reply exists exactly for these,
and is such a response again. -/
theorem question_reading :
    (∀ packet, parseQuestion packet ≠ .error .panic) ∧
    (∀ packet r, parseQuestion packet = .ok r ↔
      ∃ labels stop, Asks packet labels stop ∧ r = (asked packet labels stop, stop + 4)) ∧
    (∀ origin (q : Question) packet, query origin = .ok q → ∃ b, q.matches packet = .ok b ∧
      (b = true ↔ Response packet ∧
        ∃ labels stop labels' stop', Asks origin labels stop ∧ Asks packet labels' stop' ∧
          slice packet 0 2 = slice origin 0 2 ∧ opcodeOf packet = opcodeOf origin ∧
          fold labels' = fold labels ∧ slice packet stop' 4 = slice origin stop 4)) ∧
    ∀ (q : Question) packet, q.truncatedReply packet ≠ .error .panic ∧
      ((∃ reply, q.truncatedReply packet = .ok reply) ↔ q.matches packet = .ok true) ∧
      ∀ reply, q.truncatedReply packet = .ok reply →
        q.matches reply = .ok true ∧ (∃ flags, reply[2]? = some flags ∧ flags &&& 2 ≠ 0) ∧
        slice reply 6 6 = List.replicate 6 0 ∧ reply.length ≤ 273 := by
  refine ⟨fun packet => parseQuestion_no_panic, fun packet r => parseQuestion_ok_iff,
    fun origin q packet hquery => ?_, fun q packet => ?_⟩
  · obtain ⟨b, hb, hiff⟩ := matches_ok q packet
    refine ⟨b, hb, hiff.trans (and_congr_right fun _ => ?_)⟩
    have hparse := query_ok hquery
    constructor
    · intro hpacket
      obtain ⟨labels, stop, hasks, rfl⟩ := parse_ok_iff.mp hparse
      obtain ⟨labels', stop', hasks', heq⟩ := parse_ok_iff.mp hpacket
      exact ⟨labels, stop, labels', stop', hasks, hasks', (asked_eq_iff hasks hasks').mp heq.symm⟩
    · rintro ⟨labels, stop, labels', stop', hasks, hasks', hsame⟩
      have hq : q = asked origin labels stop :=
        Except.ok.inj (hparse.symm.trans (parse_ok_iff.mpr ⟨labels, stop, hasks, rfl⟩))
      have heq := (asked_eq_iff hasks hasks').mpr hsame
      exact parse_ok_iff.mpr ⟨labels', stop', hasks', hq.trans heq.symm⟩
  · by_cases hmatches : q.matches packet = .ok true
    · obtain ⟨hresponse, hparse⟩ := matches_true_iff.mp hmatches
      obtain ⟨labels, stop, hasks, rfl⟩ := parse_ok_iff.mp hparse
      have hreply := truncatedReply_eq hmatches hasks
      rw [hreply]
      refine ⟨fun h => (by cases h), ⟨fun _ => hmatches, fun _ => ⟨_, rfl⟩⟩, fun reply h => ?_⟩
      obtain rfl := Except.ok.inj h
      have hlength := hasks.length_replyOf
      have hle := hasks.stop_le
      refine ⟨?_, ⟨_, hasks.replyOf_flags, or_two_and_two _⟩, hasks.replyOf_counts, by omega⟩
      exact matches_true_iff.mpr ⟨hasks.replyOf_response hresponse,
        parse_ok_iff.mpr ⟨labels, stop, hasks.replyOf_asks, hasks.replyOf_asked.symm⟩⟩
    · rw [truncatedReply_of_not_matches hmatches]
      exact ⟨fun h => (by cases h), ⟨fun ⟨_, h⟩ => (by cases h), fun h => absurd h hmatches⟩,
        fun _ h => (by cases h)⟩

/-- A question for `A`. -/
example : (parseQuestion
    [0, 1, 1, 0, 0, 1, 0, 0, 0, 0, 0, 0, 1, 65, 0, 0, 1, 0, 1]).toOption =
      some (⟨[0, 1], 0, [1, 97, 0], [0, 1, 0, 1]⟩, 19) := by decide

end Question

end AgentHouse.Netd
