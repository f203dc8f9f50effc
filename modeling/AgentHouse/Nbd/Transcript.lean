import AgentHouse.Nbd.Server

/-!
# The transcript of a connection

What a client gets from `serve` is described by a transcript: the opening, one exchange for each
request that was answered, and how the connection ended. A request, an option and an exchange
carry what makes them whole, so the transcript of a log says how its bytes were framed. Every
ending has its reason in the bytes that came, in those that did not, or in a client that took no
more.
-/

namespace AgentHouse.Nbd

open AgentHouse.Volume (Error Result)
open AgentHouse.Op

/-! ## What is on the wire -/

/-- The header of a request, as the server reads its fields. -/
abbrev Header := Block 28

namespace Header

variable (h : Header)

/-- The magic number of a request. -/
def magic : ℕ := ofBe (slice h.val 0 4)

/-- Its flags. -/
def flags : ℕ := ofBe (slice h.val 4 2)

/-- Its command. -/
def command : ℕ := ofBe (slice h.val 6 2)

/-- Its cookie, which the reply repeats. -/
def cookie : Bytes := slice h.val 8 8

/-- Where its range starts. -/
def offset : ℕ := ofBe (slice h.val 16 8)

/-- The length of its range. -/
def length : ℕ := ofBe (slice h.val 24 4)

/-- The number of bytes that follow the header. -/
def payload : ℕ := if h.command = 1 then h.length else 0

/-- A header that is followed by an answer once its payload is there. -/
def Served : Prop := h.magic = 0x25609513 ∧ h.length ≤ maxRequest ∧ h.command ≠ 2

/-- The answer of a flush, or of a write with `FUA`, promises durability. -/
def Durable : Prop := h.command = 3 ∨ h.command = 1 ∧ h.flags &&& 1 ≠ 0

/-- The calls that carry the request out: a read of the range of the header that leaves `data`, a
write of `payload` with a flush behind it for `FUA`, or a flush. -/
def calls (payload data : Bytes) (size size' : ℕ) : List Call :=
  if h.command = 0 then [⟨size, .read h.offset h.length, true, data⟩]
  else if h.command = 1 then
    ⟨size, .write h.offset payload, true, []⟩ ::
      if h.flags &&& 1 ≠ 0 then [⟨size', .flush, true, []⟩] else []
  else [⟨size, .flush, true, []⟩]

end Header

/-- A request with its payload. -/
structure Request where
  header : Header
  payload : Bytes
  served : header.Served
  framed : payload.length = header.payload

/-- What is read of a request: the header, and the data of a write. -/
def Request.pieces (q : Request) : List Bytes :=
  q.header.val :: if q.header.command = 1 then [q.payload] else []

/-- A non-empty range of whole sectors within the disk. -/
def Span (offset length size : ℕ) : Prop :=
  512 ∣ offset ∧ 512 ∣ length ∧ 0 < length ∧ length ≤ maxRequest ∧ offset + length ≤ size

/-- The call stays inside the disk. -/
def Call.InRange (c : Call) : Prop :=
  match c.op with
  | .read offset length => Span offset length c.size
  | .write offset data => Span offset data.length c.size
  | .flush => True

/-- A request, what the disk was asked for it, and the answer. -/
structure Exchange where
  request : Request
  calls : List Call
  errno : ℕ
  data : Bytes
  inRange : ∀ c ∈ calls, c.InRange
  /-- The answer is a success only of a request that was carried out. -/
  succeeded : errno = 0 → request.header.command ∈ [0, 1, 3] ∧
    ∃ size size', calls = request.header.calls request.payload data size size'
  /-- A request fails without a call of the disk, or because a call failed. -/
  failed : errno ≠ 0 → calls = [] ∧ errno = 22 ∨ ∃ c ∈ calls, c.ok = false
  /-- Data follows the answer of a successful read only. -/
  returned : data.length =
    if request.header.command = 0 ∧ errno = 0 then request.header.length else 0

namespace Exchange

/-- What the server takes and calls before it answers. -/
def asked (x : Exchange) : List Event := x.request.pieces.map .took ++ x.calls.map .called

/-- The answer: magic, error, cookie of the request, data. -/
def reply (x : Exchange) : List Bytes :=
  [beBytes 4 0x67446698, beBytes 4 x.errno, x.request.header.cookie] ++
    if x.request.header.command = 0 ∧ x.errno = 0 then [x.data] else []

/-- The events of an exchange. -/
def events (x : Exchange) : List Event := x.asked ++ x.reply.map .sent

/-- A successful write has called the disk with its payload. -/
theorem written {x : Exchange} (herrno : x.errno = 0) (hwrite : x.request.header.command = 1) :
    ∃ c ∈ x.calls, c.op = .write x.request.header.offset x.request.payload := by
  obtain ⟨_, size, size', hcalls⟩ := x.succeeded herrno
  rw [hcalls, Header.calls, if_neg (by omega), if_pos hwrite]
  exact ⟨_, List.mem_cons_self, rfl⟩

/-- The last call of a successful request that promises durability is a flush. -/
theorem flushed {x : Exchange} (herrno : x.errno = 0) (hdurable : x.request.header.Durable) :
    ∃ before size, x.calls = before ++ [⟨size, .flush, true, []⟩] := by
  obtain ⟨_, size, size', hcalls⟩ := x.succeeded herrno
  rw [hcalls, Header.calls]
  obtain hflush | ⟨hwrite, hfua⟩ := hdurable
  · rw [if_neg (by omega), if_neg (by omega)]
    exact ⟨[], size, rfl⟩
  · rw [if_neg (by omega), if_pos hwrite, if_pos hfua]
    exact ⟨[_], size', rfl⟩

end Exchange

/-- An option of the handshake with its data. -/
structure OptionFrame where
  header : Block 16
  data : Bytes
  magic : ofBe (slice header.val 0 8) = optMagic
  framed : data.length = ofBe (slice header.val 12 4)
  bounded : data.length ≤ 4096

namespace OptionFrame

/-- The number of the option. -/
def option (o : OptionFrame) : ℕ := ofBe (slice o.header.val 8 4)

/-- What is read of an option. -/
def pieces (o : OptionFrame) : List Bytes := [o.header.val, o.data]

end OptionFrame

/-- What an option does to the handshake. -/
inductive Verdict where
  | next
  | opened
  | aborted
  | refused
  deriving DecidableEq, Repr

/-- The data of `INFO` and `GO`: a name with its length, and numbers of two bytes up to the end. -/
def InfoFramed (data : Bytes) : Prop :=
  6 ≤ data.length ∧ ofBe (slice data 0 4) ≤ data.length - 6 ∧
    data.length = 6 + ofBe (slice data 0 4) +
      2 * ofBe (slice data (4 + ofBe (slice data 0 4)) 2)

instance (data : Bytes) : Decidable (InfoFramed data) :=
  inferInstanceAs (Decidable (_ ∧ _ ∧ _))

/-- Only the unnamed export is opened, and options that are not known are passed over. -/
def verdict (option : ℕ) (data : Bytes) : Verdict :=
  if option = 1 then if data = [] then .opened else .refused
  else if option = 2 ∧ data = [] then .aborted
  else if option = 6 ∨ option = 7 then
    if ¬ InfoFramed data then .refused
    else if option = 7 ∧ ofBe (slice data 0 4) = 0 then .opened
    else .next
  else .next

/-- How the server answers an option. -/
def OptionFrame.verdict (o : OptionFrame) : Verdict := Nbd.verdict o.option o.data

/-- What the server took. -/
def took : List Event → List Bytes
  | [] => []
  | .took bytes :: log => bytes :: took log
  | _ :: log => took log

theorem took_took (pieces : List Bytes) : took (pieces.map .took) = pieces := by
  induction pieces with
  | nil => rfl
  | cons piece pieces ih => exact congrArg (piece :: ·) ih

theorem took_sent (chunks : List Bytes) : took (chunks.map .sent) = [] := by
  induction chunks with
  | nil => rfl
  | cons chunk chunks ih => exact ih

theorem took_called (calls : List Call) : took (calls.map .called) = [] := by
  induction calls with
  | nil => rfl
  | cons call calls ih => exact ih

/-- What is taken over two stretches. -/
theorem took_append (log log' : List Event) : took (log ++ log') = took log ++ took log' := by
  induction log with
  | nil => rfl
  | cons e log ih =>
    cases e with
    | took bytes => simp [took, ih]
    | sent bytes => simp [took, ih]
    | lost bytes => simp [took, ih]
    | called call => simp [took, ih]

/-- The options that were taken whole, and the header that was not followed by its data. -/
def optionPieces (frames : List OptionFrame) (unread : Option (Block 16)) : List Bytes :=
  frames.flatMap OptionFrame.pieces ++ (unread.map (·.val)).toList

/-- The handshake: it reads flags and options, and calls no disk. -/
structure Opening where
  events : List Event
  client : Option (Block 4)
  frames : List OptionFrame
  unread : Option (Block 16)
  framed : took events = (client.map (·.val)).toList ++ optionPieces frames unread
  ordered : client = none → frames = [] ∧ unread = none
  quiet : ∀ c, .called c ∉ events

/-- The client speaks the fixed newstyle, with flags that the server knows. -/
def Greets (client : Block 4) : Prop :=
  ofBe client.val &&& (2 ^ 32 - 1 - 3) = 0 ∧ ofBe client.val &&& 1 ≠ 0

/-- The last of at most `count` options has the verdict, and the handshake went on after each
before it. -/
def Concluded (count : ℕ) (v : Verdict) (frames : List OptionFrame) : Prop :=
  ∃ earlier last, frames = earlier ++ [last] ∧ earlier.length < count ∧
    (∀ f ∈ earlier, f.verdict = .next) ∧ last.verdict = v

/-- Why the loop over at most `count` options fails, `rest` being the bytes that were not used. -/
inductive Halted (rest : Bytes) (count : ℕ) :
    List OptionFrame → Option (Block 16) → Fault → Prop
  | short {frames : List OptionFrame} (hnext : ∀ f ∈ frames, f.verdict = .next)
      (hcount : frames.length < count) (h : rest.length < 16) :
      Halted rest count frames none .unexpectedEof
  | cut {frames : List OptionFrame} {header : Block 16} (hnext : ∀ f ∈ frames, f.verdict = .next)
      (hcount : frames.length < count) (h : rest.length < ofBe (slice header.val 12 4)) :
      Halted rest count frames (some header) .unexpectedEof
  /-- The header of an option is none, or it announces too much data. -/
  | foreign {frames : List OptionFrame} {header : Block 16}
      (hnext : ∀ f ∈ frames, f.verdict = .next) (hcount : frames.length < count)
      (h : ofBe (slice header.val 0 8) ≠ optMagic ∨ 4096 < ofBe (slice header.val 12 4)) :
      Halted rest count frames (some header) .invalid
  | refused {frames : List OptionFrame} (h : Concluded count .refused frames) :
      Halted rest count frames none .invalid
  /-- There are no more options than `count`. -/
  | spent {frames : List OptionFrame} (hnext : ∀ f ∈ frames, f.verdict = .next)
      (hcount : frames.length = count) : Halted rest count frames none .invalid
  /-- The client does not take the answer to the last option. -/
  | gone {frames : List OptionFrame} {v : Verdict} (h : Concluded count v frames) :
      Halted rest count frames none .gone

/-- Why the handshake with a client fails that took `frames`. -/
def HandshakeFails (rest : Bytes) (frames : List OptionFrame) (unread : Option (Block 16))
    (e : Fault) : Option (Block 4) → Prop
  | none => e = .gone ∨ e = .unexpectedEof ∧ rest.length < 4
  | some client =>
      (¬ Greets client ∧ e = .invalid ∧ frames = [] ∧ unread = none) ∨
        Greets client ∧ Halted rest 32 frames unread e

namespace Opening

/-- The last option of the client has the verdict. -/
def EndsWith (o : Opening) (v : Verdict) : Prop :=
  ∃ client, o.client = some client ∧ Greets client ∧ o.unread = none ∧ Concluded 32 v o.frames

/-- It fails for a reason, and the client is gone only if it left a last write. -/
def Fails (o : Opening) (e : Fault) (rest : Bytes) : Prop :=
  HandshakeFails rest o.frames o.unread e o.client ∧
    (e = .gone → ∃ earlier part, o.events = earlier ++ [.lost part])

end Opening

theorem Exchange.took_asked (x : Exchange) : took x.asked = x.request.pieces := by
  rw [asked, took_append, took_took, took_called, List.append_nil]

/-- An exchange takes its request. -/
theorem Exchange.took_events (x : Exchange) : took x.events = x.request.pieces := by
  rw [events, took_append, took_asked, took_sent, List.append_nil]

/-- What follows the last exchange. -/
inductive Ending where
  | nothing
  /-- A header without an answer. -/
  | header (h : Header)
  /-- An answer that the client did not take as a whole. -/
  | broken (x : Exchange) (whole : List Bytes) (part : Bytes)

namespace Ending

/-- The events of an ending. -/
def events : Ending → List Event
  | .nothing => []
  | .header h => [.took h.val]
  | .broken x whole part => x.asked ++ whole.map .sent ++ [.lost part]

/-- What is read in an ending. -/
def pieces : Ending → List Bytes
  | .nothing => []
  | .header h => [h.val]
  | .broken x _ _ => x.request.pieces

/-- Why the connection ended so, `rest` being the bytes that were not used. -/
def Explains (r : Except Fault Unit) (rest : Bytes) : Ending → Prop
  | .nothing => r = .error .unexpectedEof ∧ rest.length < 28
  | .header h =>
      (r = .ok () ∧ h.magic = 0x25609513 ∧ h.length ≤ maxRequest ∧ h.command = 2) ∨
      (r = .error .invalid ∧ (h.magic ≠ 0x25609513 ∨ maxRequest < h.length)) ∨
      (r = .error .unexpectedEof ∧ h.Served ∧ rest.length < h.payload)
  | .broken x whole part => r = .error .gone ∧ whole.flatten ++ part <+: x.reply.flatten

/-- An ending takes what it was given. -/
theorem took_events (ending : Ending) : took ending.events = ending.pieces := by
  cases ending with
  | nothing => rfl
  | header h => rfl
  | broken x whole part =>
    rw [events, took_append, took_append, x.took_asked, took_sent, List.append_nil]
    exact List.append_nil _

end Ending

/-- The opening of a connection, the requests that were answered, and how it ended. -/
structure Transcript where
  opening : Opening
  exchanges : List Exchange
  ending : Ending

namespace Transcript

/-- All events of a connection. -/
def events (T : Transcript) : List Event :=
  T.opening.events ++ T.exchanges.flatMap Exchange.events ++ T.ending.events

/-- All that is read on a connection, piece by piece. -/
def pieces (T : Transcript) : List Bytes :=
  took T.opening.events ++ T.exchanges.flatMap (·.request.pieces) ++ T.ending.pieces

/-- The export was opened and the ending says why the requests ended, or the client aborted the
handshake, or the handshake failed for a reason. -/
def Explains (T : Transcript) (r : Except Fault Unit) (rest : Bytes) : Prop :=
  (T.opening.EndsWith .opened ∧ T.ending.Explains r rest) ∨
  (T.exchanges = [] ∧ T.ending = .nothing ∧
    (T.opening.EndsWith .aborted ∧ r = .ok () ∨
      ∃ e, r = .error e ∧ T.opening.Fails e rest))

/-- The answer of an exchange that promises durability comes right after a successful flush,
which comes after every write of an exchange up to it. -/
def Durable (T : Transcript) (log : List Event) : Prop :=
  ∀ before x after, T.exchanges = before ++ x :: after → x.errno = 0 →
    x.request.header.Durable → ∃ earlier size later,
      log = earlier ++ [.called ⟨size, .flush, true, []⟩] ++ x.reply.map .sent ++ later ∧
      ∀ w ∈ before ++ [x], w.errno = 0 → w.request.header.command = 1 →
        ∃ c ∈ w.calls, c.op = .write w.request.header.offset w.request.payload ∧
          .called c ∈ earlier

end Transcript

/-! ## Steps of a connection -/

section Steps

variable {σ : Type} {D : Disk σ} {s t u : Conn σ} {α : Type}

/-- The connection went on by `events`, and the bytes that it took came from the input. -/
def Conn.Went (s t : Conn σ) (events : List Event) : Prop :=
  t.log = s.log ++ events ∧ s.input = (took events).flatten ++ t.input

theorem Conn.Went.refl (s : Conn σ) : s.Went s [] := ⟨(List.append_nil _).symm, rfl⟩

/-- Stretches of a connection compose. -/
theorem Conn.Went.trans {events events' : List Event} (h : s.Went t events)
    (h' : t.Went u events') : s.Went u (events ++ events') := by
  refine ⟨?_, ?_⟩
  · rw [h'.1, h.1, List.append_assoc]
  · rw [h.2, h'.2, took_append, List.flatten_append, List.append_assoc]

/-- A buffer is filled, or the input is too short for it. -/
theorem readExact_yields {n : ℕ} {E : Fault → Conn σ → Prop}
    (hE : s.input.length < n → E .unexpectedEof s) :
    (attempt (.readExact n)).Yields (contract D)
      (fun (b : Block n) t => s.Went t [.took b.val]) E s := by
  refine yields_attempt trivial ?_ ?_
  · rintro b t (⟨hle, hb, rfl⟩ | ⟨_, hb, _⟩)
    · obtain rfl := Except.ok.inj hb
      refine ⟨rfl, ?_⟩
      change s.input = (s.input.take n ++ []) ++ s.input.drop n
      rw [List.append_nil, List.take_append_drop]
    · cases hb
  · rintro e t (⟨hle, hb, _⟩ | ⟨hlt, he, rfl⟩)
    · cases hb
    · obtain rfl := Except.error.inj he
      exact hE hlt

theorem flushStream_yields {E : Fault → Conn σ → Prop}
    (hE : ∀ t, s.Went t [.lost []] → E .gone t) :
    (attempt .flushStream).Yields (contract D) (fun (_ : Unit) t => t = s) E s := by
  refine yields_attempt trivial ?_ ?_
  · rintro _ t (⟨_, rfl⟩ | ⟨hr, _⟩)
    · rfl
    · cases hr
  · rintro e t (⟨hr, _⟩ | ⟨he, rfl⟩)
    · cases hr
    · obtain rfl := Except.error.inj he
      exact hE _ ⟨rfl, rfl⟩

/-- Writes in a row: all of them, or a first part of what they would have sent. -/
theorem writeEach_yields {chunks : List Bytes} :
    (writeEach chunks).Yields (contract D) (fun _ t => s.Went t (chunks.map .sent))
      (fun e t => e = .gone ∧ ∃ (whole : List Bytes) (part : Bytes), s.Went t
        (whole.map .sent ++ [.lost part]) ∧
        whole.flatten ++ part <+: chunks.flatten) s := by
  induction chunks generalizing s with
  | nil => exact yields_pure (Conn.Went.refl s)
  | cons chunk chunks ih =>
    refine yields_bind (Q := fun _ t => s.Went t [.sent chunk]) ?_ ?_
    · refine yields_attempt trivial ?_ ?_
      · rintro _ t (⟨_, rfl⟩ | ⟨part, _, hr, _⟩)
        · exact ⟨rfl, rfl⟩
        · cases hr
      · rintro e t (⟨hr, _⟩ | ⟨part, hpart, he, rfl⟩)
        · cases hr
        · refine ⟨Except.error.inj he, [], part, ⟨rfl, rfl⟩, ?_⟩
          exact hpart.trans (List.prefix_append chunk _)
    · intro _ t ht
      refine ih.mono (fun _ u hu => ht.trans hu) ?_
      rintro e u ⟨he, whole, part, hu, hprefix⟩
      refine ⟨he, chunk :: whole, part, ht.trans hu, ?_⟩
      rw [List.flatten_cons, List.flatten_cons, List.append_assoc]
      exact (List.prefix_append_right_inj chunk).mpr hprefix

theorem ofBe_slice_lt (l : Bytes) (start n : ℕ) : ofBe (slice l start n) < 256 ^ n := by
  refine lt_of_lt_of_le (ofBe_lt _) (Nat.pow_le_pow_right (by decide) ?_)
  rw [length_slice]
  exact min_le_left _ _

/-- A number that lies within the bytes is read. -/
theorem yields_numberAt {bytes : Bytes} {n start : ℕ} {f : ℕ → Server α} {Q : α → Conn σ → Prop}
    {E : Fault → Conn σ → Prop} (hlen : start + n ≤ bytes.length) (hlt : bytes.length < 2 ^ 64)
    (h : (f (ofBe (slice bytes start n))).Yields (contract D) Q E s) :
    (numberAt bytes n start >>= f).Yields (contract D) Q E s := by
  have hnumber : numberAt bytes n start = pure (ofBe (slice bytes start n)) := by
    have hstop : add start n = pure (start + n) := if_pos (lt_of_le_of_lt hlen hlt)
    have hwindow : range bytes start (start + n) = pure (slice bytes start n) := by
      rw [range, if_pos ⟨Nat.le_add_right _ _, hlen⟩, Nat.add_sub_cancel_left]
    rw [numberAt, hstop]
    change (range bytes start (start + n) >>= fun window => pure (ofBe window)) = _
    rw [hwindow]
    rfl
  rw [hnumber]
  exact h

end Steps

end AgentHouse.Nbd
