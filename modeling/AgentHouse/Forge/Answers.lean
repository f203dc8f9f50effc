import AgentHouse.Forge.Agent
import AgentHouse.Lib.Traces

/-!
# Responses

Each request is to be answered by one frame that ends its response, in the order of the requests,
unless the connection is closed; and what an upload reads is never a request. The second holds in
every run. The first fails where `send_frame` drops an error of `write_frame`: the loop goes on as
if there had been a response.
-/

namespace AgentHouse.Forge.Agent

open Proto

variable {checks : Bool} {cfg : Config} {P : Parsers} {input : Source}

/-! ## What is to hold -/

/-- A frame that ends the response to a request. -/
def Ends (request response : FrameType) : Prop :=
  response = .error ∨
    match request with
    | .execReq => response = .execResp
    | .fileReq => response = .fileResp
    | .sessionReq => response = .sessionResp ∨ response = .sessionData
    | .forwardReq => response = .forwardResp
    | _ => False

/-- Frames that answer a request: one of them ends the response, and it is the last. -/
def Answer (request : Frame) (group : List (Frame × Bool)) : Prop :=
  ∃ streamed f, group = streamed ++ [(f, true)] ∧ (∀ e ∈ streamed, e.2 = false) ∧
    Ends request.msgType f.msgType

namespace Phase

/-- The type of the request that is being served. -/
def serves : Phase → Option FrameType
  | executing _ => some .execReq
  | serving _ | uploading _ | receiving _ _ => some .fileReq
  | forwarding => some .forwardReq
  | session _ | attaching _ | attached _ => some .sessionReq
  | auth | ready | refusing | closed => none

/-- The connection is used further. -/
def Live : Phase → Prop
  | refusing | closed => False
  | _ => True

end Phase

/-- What is left over once the answered requests are taken off: the request that is served, and the
frames of its response so far. -/
def Pending (p : Phase) (rest : List Frame) (streamed tail : List (Frame × Bool)) : Prop :=
  match p with
  | .auth | .ready => rest = [] ∧ streamed = [] ∧ tail = []
  | .closed => rest.length ≤ 1 ∧ tail.length ≤ 1
  | .refusing => rest.length ≤ 1 ∧ tail = []
  | p => ∃ req, rest = [req] ∧ p.serves = some req.msgType ∧ tail = []

/-- The requests side by side with what was sent: the requests that were answered and their answers,
and what is left over. -/
structure Account where
  answered : List Frame
  rest : List Frame
  groups : List (List (Frame × Bool))
  streamed : List (Frame × Bool)
  tail : List (Frame × Bool)
  bytes : Bytes

namespace Account

/-- What was sent for answers, and for what is being answered. -/
def sent (k : Account) : List (Frame × Bool) := k.groups.flatten ++ k.streamed

/-- The answers stand in the order of the requests, and the peer reads them as they were sent. -/
structure Valid (checks : Bool) (k : Account) (s : Conn) : Prop where
  requests : s.requests = k.answered ++ k.rest
  answers : List.Forall₂ Answer k.answered k.groups
  log : s.log = k.sent ++ k.tail
  streamed : ∀ e ∈ k.streamed, e.2 = false
  short : ∀ e ∈ k.sent, e.1.payload.length < 2 ^ 20
  written : writeFrames checks (k.sent.map (·.1)) = .ok k.bytes
  out : k.bytes <+: s.out
  live : s.phase.Live → k.bytes = s.out
  pending : Pending s.phase k.rest k.streamed k.tail

end Account

namespace Conn

variable {s t s' : Conn} {r : Reply} {io : Io} {a : Act × Io} {f : Frame}

/-- Requests are answered one after the other. -/
def Answered (checks : Bool) (s : Conn) : Prop := ∃ k : Account, k.Valid checks s

/-- The frames that have been read are those of the stream, each of them once: the frame of the
gate, the requests and what an upload has read. -/
structure Apart (cfg : Config) (input : Source) (s : Conn) : Prop where
  read : readFrames s.frames.length input = (.ok s.frames, s.input)
  frames : s.frames = s.gate ++ s.requests ++ s.transfer
  gate : s.gate.length ≤ 1
  needed : s.gate ≠ [] → cfg.token ≠ []
  auth : s.phase = .auth → cfg.token ≠ [] ∧ s.frames = []
  transfer : s.transfer ≠ [] →
    s.phase = .closed ∨ ∃ path bytes, s.phase = .receiving path bytes

/-- A frame that `send_frame` writes, on a connection that is used further, is at most as long as
frames may be, and no write fails. -/
def Delivers (cfg : Config) (P : Parsers) (s : Conn) (a : Act × Io) : Prop :=
  ∀ t f, s.act cfg P a.1 = some (t, .ignored f) → t.phase.Live →
    f.payload.length < 2 ^ 20 ∧ a.2 = .done

/-! ## What a step does -/

/-- What a step reads and where it goes to, before it writes. -/
inductive Move (s : Conn) : Conn → Reply → Prop
  | gate (f : Frame) (rest : Source) (p : Phase) (r : Reply) (hs : s.phase = .auth)
      (hread : readFrame s.input = (.ok f, rest))
      (hr : p = .ready ∧ r = .none ∨ p = .closed ∧ ∃ f, r = .ignored f) :
      Move s { s.read f rest with gate := [f], phase := p } r
  | accepted (f : Frame) (rest : Source) (p : Phase) (hs : s.phase = .ready)
      (hread : readFrame s.input = (.ok f, rest)) (hp : p.serves = some f.msgType)
      (hplain : ∀ path bytes, p ≠ .receiving path bytes) :
      Move s { s.read f rest with requests := s.requests ++ [f], phase := p } .none
  | rejected (f : Frame) (rest : Source) (message : String) (hs : s.phase = .ready)
      (hread : readFrame s.input = (.ok f, rest)) :
      Move s { s.read f rest with requests := s.requests ++ [f], phase := .ready }
        (.ignored (errFrame message))
  | proceeds (t : FrameType) (p : Phase) (r : Reply) (hs : s.phase.serves = some t)
      (hp : p.serves = some t) (hplain : ∀ path bytes, s.phase ≠ .receiving path bytes)
      (hr : r = .none ∨ ∃ f failed, r = .checked f false failed ∧ 1 + f.payload.length < 2 ^ 32 ∧
        (failed = .closed ∨ failed = .refusing)) :
      Move s (s.goto p) r
  | ends (t : FrameType) (f : Frame) (r : Reply) (hs : s.phase.serves = some t)
      (hplain : ∀ path bytes, s.phase ≠ .receiving path bytes) (hf : Ends t f.msgType)
      (hr : r = .ignored f ∨ r = .checked f true .closed ∧ 1 + f.payload.length < 2 ^ 32) :
      Move s (s.goto .ready) r
  | takes (path : String) (bytes : ℕ) (f : Frame) (rest : Source) (p : Phase) (r : Reply)
      (hs : s.phase = .receiving path bytes) (hread : readFrame s.input = (.ok f, rest))
      (hr : (∃ bytes, p = .receiving path bytes) ∧ r = .none ∨
        p = .closed ∧ ∃ f, r = .ignored f) :
      Move s { s.read f rest with transfer := s.transfer ++ [f], phase := p } r
  | leaves (r : Reply) (hs : s.phase ≠ .closed)
      (hr : r = .none ∨ (∃ f, r = .ignored f) ∨ s.phase = .forwarding ∧
        ∃ f, r = .checked f true .refusing ∧ f.payload.length < 2 ^ 20) :
      Move s (s.goto .closed) r

theorem uploadReady_short : uploadReady.payload.length < 2 ^ 20 := by
  decide

/-- A frame at the gate is one move. -/
theorem gateFrame_move (hs : s.phase = .auth) :
    Move s (s.gateFrame cfg P).1 (s.gateFrame cfg P).2 := by
  unfold gateFrame
  rcases hread : readFrame s.input with ⟨e | f, rest⟩
  · exact .leaves _ (by simp [hs]) (.inr (.inl ⟨_, rfl⟩))
  · simp only
    split
    · exact .gate f rest .ready .none hs hread (.inl ⟨rfl, rfl⟩)
    · exact .gate f rest .closed _ hs hread (.inr ⟨rfl, _, rfl⟩)

/-- A request is served, or it is rejected. -/
theorem dispatch_cases (P : Parsers) (s : Conn) (f : Frame) :
    (∃ p, s.dispatch P f = (s.goto p, .none) ∧ p.serves = some f.msgType ∧
      ∀ path bytes, p ≠ .receiving path bytes) ∨
    ∃ message, s.dispatch P f = (s.goto .ready, .ignored (errFrame message)) := by
  unfold dispatch
  split
  case h_1 htype => exact .inl ⟨_, rfl, htype ▸ rfl, by simp⟩
  case h_2 htype =>
    cases P.exec f.payload with
    | ok req => exact .inl ⟨_, rfl, htype ▸ rfl, by simp⟩
    | error e => exact .inr ⟨_, rfl⟩
  case h_3 htype =>
    split
    · exact .inl ⟨_, rfl, htype ▸ rfl, by simp⟩
    · exact .inl ⟨_, rfl, htype ▸ rfl, by simp⟩
    · exact .inr ⟨_, rfl⟩
  case h_4 htype =>
    split
    · exact .inl ⟨_, rfl, htype ▸ rfl, by simp⟩
    · exact .inl ⟨_, rfl, htype ▸ rfl, by simp⟩
    · exact .inr ⟨_, rfl⟩
  case h_5 => exact .inr ⟨_, rfl⟩

/-- So is a request. -/
theorem request_move (hs : s.phase = .ready) : Move s (s.request P).1 (s.request P).2 := by
  unfold request
  rcases hread : readFrame s.input with ⟨e | f, rest⟩
  · cases e with
    | cleanEof => exact .leaves _ (by simp [hs]) (.inl rfl)
    | _ => exact .leaves _ (by simp [hs]) (.inr (.inl ⟨_, rfl⟩))
  · simp only
    rcases dispatch_cases P { s.read f rest with requests := s.requests ++ [f] } f with
      ⟨p, heq, hp, hplain⟩ | ⟨message, heq⟩
    · rw [heq]
      exact .accepted f rest p hs hread hp hplain
    · rw [heq]
      exact .rejected f rest message hs hread

/-- A piece of an upload. -/
theorem piece_move {path : String} {bytes : ℕ} {r : Except String Unit}
    (hs : s.phase = .receiving path bytes) :
    Move s (s.piece P path bytes r).1 (s.piece P path bytes r).2 := by
  unfold piece
  rcases hread : readFrame s.input with ⟨e | f, rest⟩
  · exact .leaves _ (by simp [hs]) (.inr (.inl ⟨_, rfl⟩))
  · have hmove (p : Phase) (r : Reply) := Move.takes path bytes f rest p r hs hread
    simp only
    rcases uploadFrame P bytes f r with message | bytes | bytes
    · exact hmove _ _ (.inr ⟨rfl, _, rfl⟩)
    · exact hmove _ _ (.inl ⟨⟨_, rfl⟩, rfl⟩)
    · exact hmove _ _ (.inr ⟨rfl, _, rfl⟩)

/-- A response that is served. -/
theorem respond_move {t : FrameType} {body : Bytes} {p : FrameType}
    (hs : s.phase.serves = some p) (hplain : ∀ path bytes, s.phase ≠ .receiving path bytes)
    (hends : Ends p t) : Move s (s.respond t body).1 (s.respond t body).2 := by
  unfold respond
  split
  · exact .leaves _ (fun hclosed => by simp [hclosed, Phase.serves] at hs) (.inr (.inl ⟨_, rfl⟩))
  · rename_i hsize
    refine .ends p ⟨t, body⟩ _ hs hplain hends (.inr ⟨rfl, ?_⟩)
    simp only [maxFrameSize] at hsize ⊢
    omega

/-- Every action of a connection is one move. -/
theorem act_move {a : Act} (h : s.act cfg P a = some (t, r)) : Move s t r := by
  have hsome {u : Conn × Reply} (heq : some u = some (t, r)) (hu : Move s u.1 u.2) :
      Move s t r := by
    obtain rfl := Option.some.inj heq
    exact hu
  have hleaves {r' : Reply} (heq : some (s.goto .closed, r') = some (t, r))
      (hs : s.phase ≠ .closed)
      (hr : r' = .none ∨ (∃ f, r' = .ignored f) ∨ s.phase = .forwarding ∧
        ∃ f, r' = .checked f true .refusing ∧ f.payload.length < 2 ^ 20) : Move s t r :=
    hsome heq (.leaves _ hs hr)
  cases hphase : s.phase with
  | auth =>
    cases a <;> simp only [act, hphase, reduceCtorEq] at h
    exact hsome h (gateFrame_move hphase)
  | ready =>
    cases a <;> simp only [act, hphase, reduceCtorEq] at h
    exact hsome h (request_move hphase)
  | executing req =>
    cases a <;> simp only [act, hphase, reduceCtorEq] at h
    case finished res =>
      cases res with
      | ok body =>
        exact hsome h (respond_move (p := .execReq) (by rw [hphase]; rfl) (by simp [hphase])
          (.inr rfl))
      | error message => cases h
  | serving req =>
    have hserves : s.phase.serves = some .fileReq := by rw [hphase]; rfl
    cases a <;> simp only [act, hphase, reduceCtorEq] at h
    case finished res =>
      cases res with
      | ok body => exact hsome h (respond_move hserves (by simp [hphase]) (.inr rfl))
      | error message =>
        exact hsome h (.ends _ (errFrame message) _ hserves (by simp [hphase]) (.inl rfl)
          (.inl rfl))
  | uploading path =>
    have hserves : s.phase.serves = some .fileReq := by rw [hphase]; rfl
    cases a <;> simp only [act, hphase, reduceCtorEq] at h
    case unready message => exact hleaves h (by simp [hphase]) (.inr (.inl ⟨_, rfl⟩))
    case uploadReady =>
      refine hsome h (.proceeds _ (.receiving path 0) _ hserves rfl (by simp [hphase])
        (.inr ⟨_, _, rfl, ?_, .inr rfl⟩))
      have := uploadReady_short
      omega
  | receiving path bytes =>
    cases a <;> simp only [act, hphase, reduceCtorEq] at h
    exact hsome h (piece_move hphase)
  | forwarding =>
    cases a <;> simp only [act, hphase, reduceCtorEq] at h
    case forwarded res =>
      cases res with
      | ok u => exact hleaves h (by simp [hphase]) (.inr (.inr ⟨hphase, _, rfl, by simp⟩))
      | error message => exact hleaves h (by simp [hphase]) (.inr (.inl ⟨_, rfl⟩))
  | refusing =>
    cases a <;> simp only [act, hphase, reduceCtorEq] at h
    exact hleaves h (by simp [hphase]) (.inr (.inl ⟨_, rfl⟩))
  | session req =>
    have hserves : s.phase.serves = some .sessionReq := by rw [hphase]; rfl
    cases a <;> simp only [act, hphase, reduceCtorEq] at h
    case finished res =>
      cases res with
      | ok body =>
        exact hsome h (.ends _ ⟨.sessionResp, body⟩ _ hserves (by simp [hphase])
          (.inr (.inl rfl)) (.inl rfl))
      | error message =>
        exact hsome h (.ends _ (errFrame message) _ hserves (by simp [hphase]) (.inl rfl)
          (.inl rfl))
  | attaching id =>
    have hserves : s.phase.serves = some .sessionReq := by rw [hphase]; rfl
    cases a <;> simp only [act, hphase, reduceCtorEq] at h
    case found there =>
      split at h
      · exact hsome h (.proceeds _ (.attached id) _ hserves rfl (by simp [hphase]) (.inl rfl))
      · exact hsome h (.ends _ (errFrame _) _ hserves (by simp [hphase]) (.inl rfl) (.inl rfl))
  | attached id =>
    have hserves : s.phase.serves = some .sessionReq := by rw [hphase]; rfl
    cases a <;> simp only [act, hphase, reduceCtorEq] at h
    case chunk body eof =>
      split at h
      · rename_i hlen
        cases eof with
        | true =>
          exact hsome h (.ends _ ⟨.sessionData, body⟩ _ hserves (by simp [hphase])
            (.inr (.inr rfl)) (.inr ⟨rfl, hlen⟩))
        | false =>
          exact hsome h (.proceeds _ (.attached id) _ hserves rfl (by simp [hphase])
            (.inr ⟨⟨.sessionData, body⟩, _, rfl, hlen, .inl rfl⟩))
      · cases h
    case expired => exact hleaves h (by simp [hphase]) (.inl rfl)
  | closed => cases a <;> simp only [act, hphase, reduceCtorEq] at h

/-! ## What a step writes -/

/-- Writing changes nothing that has been read. -/
theorem reply_kept (checks : Bool) (t : Conn) (r : Reply) (io : Io) :
    ((t.reply checks r io).input = t.input ∧ (t.reply checks r io).frames = t.frames ∧
      (t.reply checks r io).gate = t.gate) ∧ (t.reply checks r io).requests = t.requests ∧
      (t.reply checks r io).transfer = t.transfer := by
  have hdeliver (f : Frame) (final : Bool) : (((t.deliver checks f final io).1.input = t.input ∧
      (t.deliver checks f final io).1.frames = t.frames ∧
      (t.deliver checks f final io).1.gate = t.gate) ∧
      (t.deliver checks f final io).1.requests = t.requests ∧
      (t.deliver checks f final io).1.transfer = t.transfer) := by
    unfold deliver
    cases writeFrame checks f with
    | error e => simp
    | ok b => cases io <;> simp
  unfold reply
  cases r with
  | none => simp
  | ignored f =>
    simp only
    split
    · simp [goto]
    · exact hdeliver f true
  | checked f final failed =>
    simp only
    have h := hdeliver f final
    split
    · exact h
    · split
      · exact h
      · exact h

/-- A frame that is not too long, with its write done. -/
theorem deliver_short (checks : Bool) (hlen : f.payload.length < 2 ^ 20) (final : Bool) :
    ∃ b, writeFrame checks f = .ok b ∧ t.deliver checks f final .done =
      ({ t with out := t.out ++ b, log := t.log ++ [(f, final)] }, true) := by
  have hwrite := writeFrame_of_short checks hlen
  refine ⟨_, hwrite, ?_⟩
  unfold deliver
  rw [hwrite]

/-- A frame is sent whole and logged, or the connection is over. -/
theorem deliver_cases (checks : Bool) (t : Conn) (f : Frame) (final : Bool) (io : Io) :
    (∃ b, writeFrame checks f = .ok b ∧ t.deliver checks f final io =
      ({ t with out := t.out ++ b, log := t.log ++ [(f, final)] }, true)) ∨
    ∃ b, t.deliver checks f final io = ({ t with out := t.out ++ b }, false) := by
  unfold deliver
  cases hwrite : writeFrame checks f with
  | error e => exact .inr ⟨[], by simp⟩
  | ok b =>
    cases io with
    | done => exact .inl ⟨b, rfl, rfl⟩
    | failed n => exact .inr ⟨b.take n, rfl⟩

/-- What `send_frame` does on a connection that is closed. -/
theorem reply_closing (checks : Bool) (ht : t.phase = .closed) (f : Frame) (io : Io) :
    (t.reply checks (.ignored f) io).phase = .closed ∧
      t.out <+: (t.reply checks (.ignored f) io).out ∧
      ∃ l : List (Frame × Bool), (t.reply checks (.ignored f) io).log = t.log ++ l ∧
        l.length ≤ 1 := by
  unfold reply
  simp only
  split
  · exact ⟨rfl, List.prefix_refl _, [], (List.append_nil _).symm, Nat.zero_le _⟩
  · rcases deliver_cases checks t f true io with ⟨b, -, heq⟩ | ⟨b, heq⟩
    · rw [heq]
      exact ⟨ht, List.prefix_append _ _, [(f, true)], rfl, le_rfl⟩
    · rw [heq]
      exact ⟨ht, List.prefix_append _ _, [], (List.append_nil _).symm, Nat.zero_le _⟩

/-- What a checked write does. -/
theorem reply_checked (checks : Bool) (t : Conn) (f : Frame) (final : Bool) (failed : Phase)
    (io : Io) :
    (∃ b, writeFrame checks f = .ok b ∧ t.reply checks (.checked f final failed) io =
      { t with out := t.out ++ b, log := t.log ++ [(f, final)] }) ∨
    ∃ b p, (p = .closed ∨ p = failed) ∧ t.reply checks (.checked f final failed) io =
      { t with out := t.out ++ b, phase := p } := by
  unfold reply
  simp only
  rcases deliver_cases checks t f final io with ⟨b, hwrite, heq⟩ | ⟨b, heq⟩
  · rw [heq]
    exact .inl ⟨b, hwrite, rfl⟩
  · rw [heq]
    simp only [Bool.false_eq_true, if_false]
    split
    · exact .inr ⟨b, .closed, .inl rfl, rfl⟩
    · exact .inr ⟨b, failed, .inr rfl, rfl⟩

/-- A short reply is sent whole. -/
theorem reply_sent (checks : Bool) (t : Conn) (hlen : f.payload.length < 2 ^ 20) :
    ∃ b, writeFrame checks f = .ok b ∧ t.reply checks (.ignored f) .done =
      { t with out := t.out ++ b, log := t.log ++ [(f, true)] } := by
  obtain ⟨b, hwrite, heq⟩ := deliver_short (t := t) checks hlen true
  refine ⟨b, hwrite, ?_⟩
  have hpanics : panics checks f = false := by
    unfold panics
    rw [hwrite]
    simp
  unfold reply
  simp only [hpanics, heq, Bool.false_eq_true, if_false]

/-! ## What is kept -/

theorem init_apart (cfg : Config) (input : Source) : Apart cfg input (init cfg input) where
  read := rfl
  frames := rfl
  gate := Nat.zero_le _
  needed := fun h => absurd rfl h
  auth := fun h => by
    refine ⟨fun hnil => ?_, rfl⟩
    simp [init, hnil] at h
  transfer := fun h => absurd rfl h

/-- What is read next belongs to one of the three. -/
theorem Apart.move (h : Apart cfg input s) (hm : Move s t r) : Apart cfg input t := by
  have hnext {f : Frame} {rest : Source} (hread : readFrame s.input = (.ok f, rest)) :
      readFrames (s.frames ++ [f]).length input = (.ok (s.frames ++ [f]), rest) := by
    rw [List.length_append]
    exact readFrames_snoc h.read hread
  have hnone (hp : s.phase ≠ .closed) (hr : ∀ path bytes, s.phase ≠ .receiving path bytes) :
      s.transfer = [] := by
    by_contra hne
    rcases h.transfer hne with hclosed | ⟨path, bytes, hreceiving⟩
    · exact hp hclosed
    · exact hr path bytes hreceiving
  cases hm with
  | gate f rest p r hs hread hr =>
    obtain ⟨htoken, hnil⟩ := h.auth hs
    have hparts := h.frames
    rw [hnil] at hparts
    obtain ⟨hfirst, htransfer⟩ := List.append_eq_nil_iff.mp hparts.symm
    have hrequests := (List.append_eq_nil_iff.mp hfirst).2
    have hp : p ≠ .auth := by
      rintro rfl
      rcases hr with ⟨hp, -⟩ | ⟨hp, -⟩ <;> cases hp
    exact
      { read := hnext hread
        frames := by simp [Conn.read, hnil, hrequests, htransfer]
        gate := le_rfl
        needed := fun _ => htoken
        auth := fun hauth => absurd hauth hp
        transfer := fun hne => absurd htransfer hne }
  | accepted f rest p hs hread hp hplain =>
    have htransfer := hnone (by simp [hs]) (by simp [hs])
    exact
      { read := hnext hread
        frames := by
          simp only [Conn.read, h.frames, htransfer, List.append_nil, List.append_assoc]
        gate := h.gate
        needed := h.needed
        auth := by
          rintro rfl
          cases hp
        transfer := fun hne => absurd htransfer hne }
  | rejected f rest message hs hread =>
    have htransfer := hnone (by simp [hs]) (by simp [hs])
    exact
      { read := hnext hread
        frames := by
          simp only [Conn.read, h.frames, htransfer, List.append_nil, List.append_assoc]
        gate := h.gate
        needed := h.needed
        auth := fun hauth => by cases hauth
        transfer := fun hne => absurd htransfer hne }
  | proceeds ty p r hs hp hplain hr =>
    have htransfer := hnone (fun hclosed => by simp [hclosed, Phase.serves] at hs) hplain
    exact
      { h with
        auth := by
          rintro rfl
          cases hp
        transfer := fun hne => absurd htransfer hne }
  | ends ty f r hs hplain hf hr =>
    have htransfer := hnone (fun hclosed => by simp [hclosed, Phase.serves] at hs) hplain
    exact
      { h with
        auth := fun hauth => by cases hauth
        transfer := fun hne => absurd htransfer hne }
  | takes path bytes f rest p r hs hread hr =>
    exact
      { read := hnext hread
        frames := by simp only [Conn.read, h.frames, List.append_assoc]
        gate := h.gate
        needed := h.needed
        auth := by
          rintro rfl
          rcases hr with ⟨⟨_, hp⟩, -⟩ | ⟨hp, -⟩ <;> cases hp
        transfer := fun _ => by
          rcases hr with ⟨⟨bytes', rfl⟩, -⟩ | ⟨rfl, -⟩
          · exact .inr ⟨path, bytes', rfl⟩
          · exact .inl rfl }
  | leaves r hs hr =>
    exact
      { h with
        auth := fun hauth => by cases hauth
        transfer := fun _ => .inl rfl }

/-- A write leads elsewhere only where it closes the connection, or gives up a tunnel or an upload
before anything has been transferred. -/
theorem Move.reply_phase (hm : Move s t r) (checks : Bool) (io : Io) :
    (t.reply checks r io).phase = t.phase ∨ (t.reply checks r io).phase = .closed ∨
      (t.reply checks r io).phase = .refusing ∧ s.phase.serves ≠ none ∧
        (∀ path bytes, s.phase ≠ .receiving path bytes) ∧ t.transfer = s.transfer := by
  have hchecked {f : Frame} {final : Bool} {failed : Phase} (hr : r = .checked f final failed)
      (hfailed : failed = .closed ∨ failed = .refusing)
      (hserves : s.phase.serves ≠ none)
      (hplain : ∀ path bytes, s.phase ≠ .receiving path bytes) (hsame : t.transfer = s.transfer) :
      (t.reply checks r io).phase = t.phase ∨ (t.reply checks r io).phase = .closed ∨
      (t.reply checks r io).phase = .refusing ∧ s.phase.serves ≠ none ∧
        (∀ path bytes, s.phase ≠ .receiving path bytes) ∧ t.transfer = s.transfer := by
    rw [hr]
    rcases reply_checked checks t f final failed io with ⟨b, -, heq⟩ | ⟨b, p, hp, heq⟩
    · rw [heq]
      exact .inl rfl
    · rw [heq]
      rcases hp with rfl | rfl
      · exact .inr (.inl rfl)
      · rcases hfailed with rfl | rfl
        · exact .inr (.inl rfl)
        · exact .inr (.inr ⟨rfl, hserves, hplain, hsame⟩)
  have hignored (f : Frame) : (t.reply checks (.ignored f) io).phase = t.phase ∨
      (t.reply checks (.ignored f) io).phase = .closed := by
    unfold reply
    simp only
    split
    · exact .inr rfl
    · rcases deliver_cases checks t f true io with ⟨b, -, heq⟩ | ⟨b, heq⟩
      · rw [heq]
        exact .inl rfl
      · rw [heq]
        exact .inl rfl
  cases hr : r with
  | none => exact .inl rfl
  | ignored f =>
    rcases hignored f with h | h
    · exact .inl h
    · exact .inr (.inl h)
  | checked f final failed =>
    rw [← hr]
    cases hm with
    | gate f rest p r hs hread hkind =>
      rcases hkind with ⟨-, rfl⟩ | ⟨-, f', rfl⟩ <;> cases hr
    | accepted => cases hr
    | rejected => cases hr
    | proceeds ty p r hs hp hplain hkind =>
      rcases hkind with rfl | ⟨f', failed', rfl, -, hfailed⟩
      · cases hr
      · exact hchecked rfl hfailed (by simp [hs]) hplain rfl
    | ends ty f' r hs hplain hf hkind =>
      rcases hkind with rfl | ⟨rfl, -⟩
      · cases hr
      · exact hchecked rfl (.inl rfl) (by simp [hs]) hplain rfl
    | takes path bytes f rest p r hs hread hkind =>
      rcases hkind with ⟨-, rfl⟩ | ⟨-, f', rfl⟩ <;> cases hr
    | leaves r hs hkind =>
      rcases hkind with rfl | ⟨f', rfl⟩ | ⟨hforwarding, f', rfl, -⟩
      · cases hr
      · cases hr
      · exact hchecked rfl (.inr rfl) (by simp [hforwarding, Phase.serves])
          (by simp [hforwarding]) rfl

/-- No frame is read twice or left out, and what an upload reads is no request. -/
theorem Apart.step (h : Apart cfg input s) (hstep : s.step checks cfg P a = some s') :
    Apart cfg input s' := by
  obtain ⟨⟨t, r⟩, hact, hs'⟩ := Option.map_eq_some_iff.mp hstep
  change t.reply checks r a.2 = s' at hs'
  subst hs'
  have hm := act_move hact
  have ht := h.move hm
  obtain ⟨⟨hinput, hframes, hgate⟩, hrequests, htransfer⟩ :=
    reply_kept checks t r a.2
  have hphase := hm.reply_phase checks a.2
  exact
    { read := by
        rw [hframes, hinput]
        exact ht.read
      frames := by
        rw [hframes, hgate, hrequests, htransfer]
        exact ht.frames
      gate := hgate ▸ ht.gate
      needed := hgate ▸ ht.needed
      auth := fun hauth => by
        rw [hauth] at hphase
        rcases hphase with hsame | hclosed | ⟨hrefusing, -⟩
        · rw [hframes]
          exact ht.auth hsame.symm
        · cases hclosed
        · cases hrefusing
      transfer := fun hne => by
        rw [htransfer] at hne
        rcases hphase with hsame | hclosed | ⟨-, hserves, hplain, hkept⟩
        · rw [hsame]
          exact ht.transfer hne
        · exact .inl hclosed
        · -- a tunnel or an upload is given up before anything is transferred
          rw [hkept] at hne
          rcases h.transfer hne with hclosed | ⟨path, bytes, hreceiving⟩
          · exact absurd (by rw [hclosed]; rfl) hserves
          · exact absurd hreceiving (hplain path bytes) }

/-! ## Answers -/

theorem live_of_serves {p : Phase} {ty : FrameType} (h : p.serves = some ty) : p.Live := by
  cases p with
  | refusing | closed => cases h
  | _ => trivial

/-- While a request is served, it is the only one without an answer. -/
theorem pending_of_serves {p : Phase} {ty : FrameType} (h : p.serves = some ty)
    {rest : List Frame} {streamed tail : List (Frame × Bool)} :
    Pending p rest streamed tail ↔ ∃ req, rest = [req] ∧ ty = req.msgType ∧ tail = [] := by
  cases p with
  | auth | ready | refusing | closed => cases h
  | _ =>
    obtain rfl := Option.some.inj h
    simp [Pending, Phase.serves]

/-- Before the connection is closed, at most one request has no answer. -/
theorem pending_short {p : Phase} {rest : List Frame} {streamed tail : List (Frame × Bool)}
    (h : Pending p rest streamed tail) (hp : p ≠ .closed) : rest.length ≤ 1 ∧ tail = [] := by
  cases p with
  | auth | ready =>
    obtain ⟨rfl, -, rfl⟩ := h
    exact ⟨Nat.zero_le _, rfl⟩
  | refusing => exact h
  | closed => exact absurd rfl hp
  | _ =>
    obtain ⟨req, rfl, -, rfl⟩ := h
    exact ⟨le_rfl, rfl⟩

/-- A new connection has answered every request it has read. -/
theorem init_answered (cfg : Config) (input : Source) :
    Answered checks (init cfg input) :=
  ⟨⟨[], [], [], [], [], []⟩,
    { requests := rfl
      answers := .nil
      log := rfl
      streamed := by simp
      short := by simp [Account.sent]
      written := rfl
      out := List.prefix_refl _
      live := fun _ => rfl
      pending := by
        unfold init
        split
        · exact ⟨rfl, rfl, rfl⟩
        · exact ⟨rfl, rfl, rfl⟩ }⟩

end Conn

namespace Account

variable {k : Account} {s s' : Conn} {f req : Frame} {b : Bytes}

/-- The connection is closed or given up. -/
theorem Valid.leave (h : k.Valid checks s) (hs : s.phase ≠ .closed)
    (hrequests : s'.requests = s.requests) {l : List (Frame × Bool)}
    (hlog : s'.log = s.log ++ l) (hout : s.out <+: s'.out)
    (hphase : s'.phase = .closed ∧ l.length ≤ 1 ∨ s'.phase = .refusing ∧ l = []) :
    s'.Answered checks := by
  obtain ⟨hrest, htail⟩ := Conn.pending_short h.pending hs
  exact ⟨{ k with tail := l },
    { requests := hrequests.trans h.requests
      answers := h.answers
      log := by
        rw [hlog, h.log, htail, List.append_nil]
        rfl
      streamed := h.streamed
      short := h.short
      written := h.written
      out := h.out.trans hout
      live := fun hlive => by
        rcases hphase with ⟨hp, -⟩ | ⟨hp, -⟩
        · rw [hp] at hlive
          exact hlive.elim
        · rw [hp] at hlive
          exact hlive.elim
      pending := by
        rcases hphase with ⟨hp, hl⟩ | ⟨hp, hl⟩
        · rw [hp]
          exact ⟨hrest, hl⟩
        · rw [hp]
          exact ⟨hrest, hl⟩ }⟩

/-- Nothing is written. -/
theorem Valid.quiet (h : k.Valid checks s) (hlive : s.phase.Live) (rest : List Frame)
    (hrequests : s'.requests = k.answered ++ rest) (hlog : s'.log = s.log) (hout : s'.out = s.out)
    (hpending : Pending s'.phase rest k.streamed k.tail) : s'.Answered checks :=
  ⟨{ k with rest := rest },
    { requests := hrequests
      answers := h.answers
      log := hlog.trans h.log
      streamed := h.streamed
      short := h.short
      written := h.written
      out := hout ▸ h.out
      live := fun _ => (h.live hlive).trans hout.symm
      pending := hpending }⟩

/-- A frame of a response is written. -/
theorem Valid.streams (h : k.Valid checks s) {ty : FrameType} (hs : s.phase.serves = some ty)
    (hs' : s'.phase.serves = some ty) (hrequests : s'.requests = s.requests)
    (hwrite : writeFrame checks f = .ok b) (hlen : f.payload.length < 2 ^ 20)
    (hlog : s'.log = s.log ++ [(f, false)]) (hout : s'.out = s.out ++ b) :
    s'.Answered checks := by
  obtain ⟨req, hrest, hty, htail⟩ := (Conn.pending_of_serves hs).mp h.pending
  have hbytes := h.live (Conn.live_of_serves hs)
  have hsent : (Account.sent { k with streamed := k.streamed ++ [(f, false)] }) =
      k.sent ++ [(f, false)] := (List.append_assoc _ _ _).symm
  exact ⟨{ k with streamed := k.streamed ++ [(f, false)], bytes := k.bytes ++ b },
    { requests := hrequests.trans h.requests
      answers := h.answers
      log := by
        rw [hlog, h.log, htail, List.append_nil]
        exact (hsent ▸ (List.append_nil _).symm)
      streamed := by
        intro e he
        rcases List.mem_append.mp he with he | he
        · exact h.streamed e he
        · rw [List.mem_singleton.mp he]
      short := by
        intro e he
        rcases List.mem_append.mp (hsent ▸ he) with he | he
        · exact h.short e he
        · rw [List.mem_singleton.mp he]
          exact hlen
      written := by
        have hmap := writeFrames_snoc h.written hwrite
        show writeFrames checks ((k.groups.flatten ++ (k.streamed ++ [(f, false)])).map (·.1)) = _
        rw [← List.append_assoc, List.map_append]
        exact hmap
      out := by
        rw [hout, hbytes]
      live := fun _ => by rw [hout, hbytes]
      pending := (Conn.pending_of_serves hs').mpr ⟨req, hrest, hty, htail⟩ }⟩

/-- A response ends. -/
theorem Valid.ends (h : k.Valid checks s) (hlive : s.phase.Live) (htail : k.tail = [])
    (hrequests : s'.requests = k.answered ++ [req]) (hends : Ends req.msgType f.msgType)
    (hwrite : writeFrame checks f = .ok b) (hlen : f.payload.length < 2 ^ 20)
    (hlog : s'.log = s.log ++ [(f, true)]) (hout : s'.out = s.out ++ b)
    (hs' : s'.phase = .ready) : s'.Answered checks := by
  have hbytes := h.live hlive
  have hsent : (k.groups ++ [k.streamed ++ [(f, true)]]).flatten = k.sent ++ [(f, true)] := by
    rw [List.flatten_append, List.flatten_singleton, ← List.append_assoc]
    rfl
  have hnew : Account.sent ⟨k.answered ++ [req], [], k.groups ++ [k.streamed ++ [(f, true)]], [],
      [], k.bytes ++ b⟩ = k.sent ++ [(f, true)] := by
    rw [← hsent]
    exact List.append_nil _
  refine ⟨⟨k.answered ++ [req], [], k.groups ++ [k.streamed ++ [(f, true)]], [], [],
    k.bytes ++ b⟩, ?_⟩
  exact
    { requests := by rw [hrequests, List.append_nil]
      answers := List.rel_append h.answers
        (.cons ⟨k.streamed, f, rfl, h.streamed, hends⟩ .nil)
      log := by
        rw [hnew, hlog, h.log, htail]
        simp
      streamed := by simp
      short := by
        intro e he
        rcases List.mem_append.mp (hnew ▸ he) with he | he
        · exact h.short e he
        · rw [List.mem_singleton.mp he]
          exact hlen
      written := by
        rw [hnew, List.map_append]
        exact writeFrames_snoc h.written hwrite
      out := by rw [hout, hbytes]
      live := fun _ => by rw [hout, hbytes]
      pending := by
        rw [hs']
        exact ⟨rfl, rfl, rfl⟩ }

/-- One final frame for each request. -/
theorem count_answers {answered : List Frame} {groups : List (List (Frame × Bool))}
    (h : List.Forall₂ Answer answered groups) :
    groups.flatten.countP (·.2) = answered.length := by
  induction h with
  | nil => rfl
  | cons hanswer _ ih =>
    obtain ⟨streamed, f, rfl, hstreamed, -⟩ := hanswer
    have hnone : streamed.countP (·.2) = 0 :=
      List.countP_eq_zero.mpr fun e he => by simp [hstreamed e he]
    rw [List.flatten_cons, List.countP_append, List.countP_append, hnone, ih, List.length_cons]
    simp [Nat.add_comm]

/-- Where the connection is used further, there are as many responses as answered requests. -/
theorem Valid.count (h : k.Valid checks s) (htail : k.tail = []) :
    s.log.countP (·.2) = k.answered.length := by
  have hnone : k.streamed.countP (·.2) = 0 :=
    List.countP_eq_zero.mpr fun e he => by simp [h.streamed e he]
  rw [h.log, htail, List.append_nil, sent, List.countP_append, hnone,
    count_answers h.answers, Nat.add_zero]

end Account

namespace Conn

variable {s t s' : Conn} {r : Reply} {io : Io} {a : Act × Io}

/-- A step that does not fail to deliver keeps the account. -/
theorem Answered.step (h : s.Answered checks) (hgood : s.Delivers cfg P a)
    (hstep : s.step checks cfg P a = some s') : s'.Answered checks := by
  obtain ⟨k, hk⟩ := h
  obtain ⟨⟨t, r⟩, hact, hs'⟩ := Option.map_eq_some_iff.mp hstep
  change t.reply checks r a.2 = s' at hs'
  subst hs'
  have hdone {f : Frame} (hr : r = .ignored f) (ht : t.phase.Live) :
      f.payload.length < 2 ^ 20 ∧ a.2 = .done := hgood t f (hr ▸ hact) ht
  have hclosing {f : Frame} (hr : r = .ignored f) (ht : t.phase = .closed)
      (hs : s.phase ≠ .closed) (hrequests : t.requests = s.requests) (hlog : t.log = s.log)
      (hout : t.out = s.out) : (t.reply checks r a.2).Answered checks := by
    obtain ⟨hphase, hprefix, l, hl, hshort⟩ := reply_closing checks ht f a.2
    rw [hr]
    refine hk.leave hs ?_ (l := l) (hl.trans (by rw [hlog])) (hout ▸ hprefix)
      (.inl ⟨hphase, hshort⟩)
    exact (reply_kept checks t (.ignored f) a.2).2.1.trans hrequests
  have hm := act_move hact
  cases hm with
  | gate f rest p r hs hread hr =>
    have hpending := hk.pending
    rw [hs] at hpending
    obtain ⟨hrest, hstreamed, htail⟩ := hpending
    rcases hr with ⟨rfl, rfl⟩ | ⟨rfl, f', rfl⟩
    · refine hk.quiet (by rw [hs]; trivial) [] ?_ rfl rfl ⟨rfl, hstreamed, htail⟩
      rw [← hrest]
      exact hk.requests
    · exact hclosing rfl rfl (by simp [hs]) rfl rfl rfl
  | accepted f rest p hs hread hp hplain =>
    have hpending := hk.pending
    rw [hs] at hpending
    obtain ⟨hrest, hstreamed, htail⟩ := hpending
    refine hk.quiet (by rw [hs]; trivial) [f] ?_ rfl rfl
      ((pending_of_serves hp).mpr ⟨f, rfl, rfl, htail⟩)
    show s.requests ++ [f] = _
    rw [hk.requests, hrest, List.append_nil]
  | rejected f rest message hs hread =>
    have hpending := hk.pending
    rw [hs] at hpending
    obtain ⟨hrest, hstreamed, htail⟩ := hpending
    obtain ⟨hlen, hio⟩ := hdone rfl trivial
    rw [hio]
    obtain ⟨b, hwrite, heq⟩ := reply_sent checks
      { s.read f rest with requests := s.requests ++ [f], phase := .ready } hlen
    rw [heq]
    have hrequests : s.requests ++ [f] = k.answered ++ [f] := by
      rw [hk.requests, hrest, List.append_nil]
    exact hk.ends (by rw [hs]; trivial) htail hrequests (.inl rfl) hwrite hlen rfl rfl rfl
  | proceeds ty p r hs hp hplain hr =>
    rcases hr with rfl | ⟨f, failed, rfl, hlen, hfailed⟩
    · obtain ⟨req, hrest, hty, htail⟩ := (pending_of_serves hs).mp hk.pending
      exact hk.quiet (live_of_serves hs) _ hk.requests rfl rfl
        ((pending_of_serves hp).mpr ⟨req, hrest, hty, htail⟩)
    · have hopen : s.phase ≠ .closed := fun hclosed => by simp [hclosed, Phase.serves] at hs
      rcases reply_checked checks (s.goto p) f false failed a.2 with
        ⟨b, hwrite, heq⟩ | ⟨b, q, hq, heq⟩
      · rw [heq]
        exact hk.streams hs hp rfl hwrite (short_of_written hlen hwrite) rfl rfl
      · rw [heq]
        refine hk.leave hopen rfl (List.append_nil _).symm (List.prefix_append _ _) ?_
        rcases hq with rfl | rfl
        · exact .inl ⟨rfl, Nat.zero_le _⟩
        · exact hfailed.imp (fun hq => ⟨hq, Nat.zero_le _⟩) fun hq => ⟨hq, rfl⟩
  | ends ty f r hs hplain hf hr =>
    obtain ⟨req, hrest, hty, htail⟩ := (pending_of_serves hs).mp hk.pending
    have hrequests : s.requests = k.answered ++ [req] := hrest ▸ hk.requests
    have hlive := live_of_serves hs
    have hopen : s.phase ≠ .closed := fun hclosed => by simp [hclosed, Phase.serves] at hs
    rcases hr with rfl | ⟨rfl, hlen⟩
    · obtain ⟨hlen, hio⟩ := hdone rfl trivial
      rw [hio]
      obtain ⟨b, hwrite, heq⟩ := reply_sent checks (s.goto .ready) hlen
      rw [heq]
      exact hk.ends hlive htail hrequests (hty ▸ hf) hwrite hlen rfl rfl rfl
    · rcases reply_checked checks (s.goto .ready) f true .closed a.2 with
        ⟨b, hwrite, heq⟩ | ⟨b, q, hq, heq⟩
      · rw [heq]
        exact hk.ends hlive htail hrequests (hty ▸ hf) hwrite (short_of_written hlen hwrite)
          rfl rfl rfl
      · rw [heq]
        exact hk.leave hopen rfl (List.append_nil _).symm (List.prefix_append _ _)
          (.inl ⟨(or_self_iff.mp hq), Nat.zero_le _⟩)
  | takes path bytes f rest p r hs hread hr =>
    have hserves : s.phase.serves = some .fileReq := by rw [hs]; rfl
    rcases hr with ⟨⟨bytes', rfl⟩, rfl⟩ | ⟨rfl, f', rfl⟩
    · refine hk.quiet (live_of_serves hserves) _ hk.requests rfl rfl ?_
      have hpending := (pending_of_serves hserves).mp hk.pending
      exact (pending_of_serves (p := .receiving path bytes') rfl).mpr hpending
    · exact hclosing rfl rfl (by simp [hs]) rfl rfl rfl
  | leaves r hs hr =>
    rcases hr with rfl | ⟨f, rfl⟩ | ⟨-, f, rfl, hlen⟩
    · exact hk.leave hs rfl (List.append_nil _).symm (List.prefix_refl _)
        (.inl ⟨rfl, Nat.zero_le _⟩)
    · exact hclosing rfl rfl hs rfl rfl rfl
    · rcases reply_checked checks (s.goto .closed) f true .refusing a.2 with
        ⟨b, hwrite, heq⟩ | ⟨b, q, hq, heq⟩
      · rw [heq]
        exact hk.leave hs rfl (l := [(f, true)]) rfl (List.prefix_append _ _)
          (.inl ⟨rfl, le_rfl⟩)
      · rw [heq]
        refine hk.leave hs rfl (List.append_nil _).symm (List.prefix_append _ _) ?_
        exact hq.imp (fun hq => ⟨hq, Nat.zero_le _⟩) fun hq => ⟨hq, rfl⟩

/-- In every run the frames that are read are those of the stream, and a frame of an upload is never
taken for a request. If nothing is dropped on a connection that is used further, every request is
answered by one frame in its turn, or the connection is closed. -/
theorem agent_answers {as : List (Act × Io)}
    (h : Trace (fun s a s' => s.step checks cfg P a = some s') (init cfg input) as s) :
    Apart cfg input s ∧
      (Trace (fun s a s' => s.Delivers cfg P a ∧ s.step checks cfg P a = some s')
        (init cfg input) as s → s.Answered checks) :=
  ⟨h.invariant (init_apart cfg input) fun hs hstep => hs.step hstep,
    fun hgood => hgood.invariant (init_answered cfg input) fun hs hstep =>
      hs.step hstep.1 hstep.2⟩

/-- `Delivers`, decided. -/
def delivers (cfg : Config) (P : Parsers) (s : Conn) (a : Act × Io) : Bool :=
  match s.act cfg P a.1, a.2 with
  | some (_, .ignored f), .done => decide (f.payload.length < 2 ^ 20)
  | some (_, .ignored _), .failed _ => false
  | _, _ => true

/-- The test of a delivered answer, read as a statement. -/
theorem delivers_of_eq_true (h : s.delivers cfg P a = true) : s.Delivers cfg P a := by
  obtain ⟨a, io⟩ := a
  intro t f hact _
  unfold delivers at h
  rw [hact] at h
  cases io with
  | done => exact ⟨of_decide_eq_true h, rfl⟩
  | failed n => cases h

/-- The request that lists the sessions. -/
def listPayload : Bytes := "\x7b\"op\":\"list\"\x7d".toUTF8.data.toList

/-- The answer without a session. -/
def listBody : Bytes :=
  "\x7b\"op\":\"listed\",\"isolated_receipt_pinning\":true,\"sessions\":[]\x7d".toUTF8.data.toList

/-- The request that uploads a file. -/
def uploadPayload : Bytes := "\x7b\"op\":\"upload\",\"path\":\"/tmp/x\"\x7d".toUTF8.data.toList

/-- The sessions are listed, a command without arguments is refused, and a file is uploaded. -/
def uploadFrames : List Frame :=
  [⟨.sessionReq, listPayload⟩, ⟨.execReq, "\x7b\x7d".toUTF8.data.toList⟩,
    ⟨.fileReq, uploadPayload⟩, ⟨.fileData, [1, 2]⟩, ⟨.fileData, [3]⟩,
    ⟨.fileCommit, "3".toUTF8.data.toList⟩]

/-- The frames as the peer sends them. -/
def uploadInput : Source :=
  [.bytes (uploadFrames.flatMap fun f => beBytes 4 (1 + f.payload.length) ++
    [f.msgType.byte] ++ f.payload) (by decide)]

/-- The payloads of `uploadFrames` parse; the others are not needed. -/
def uploadParsers : Parsers where
  auth := fun _ => .error "no token"
  exec := fun _ => .error "missing field `argv` at line 1 column 2"
  file := fun b => if b = uploadPayload then .ok (.upload "/tmp/x") else .error "no request"
  session := fun b => if b = listPayload then .ok .list else .error "no request"
  commit := fun b => if b = "3".toUTF8.data.toList then .ok 3 else .error "no length"
  display := fun _ => "error"

/-- The steps of the connection, with no failed write. -/
def uploadActs : List (Act × Io) :=
  [.received, .finished (.ok listBody), .received, .received, .uploadReady, .piece (.ok ()),
    .piece (.ok ()), .piece (.ok ())].map (·, .done)

theorem agent_answers_uploaded : ∃ s : Conn, s.requests = uploadFrames.take 3 ∧
    s.transfer = uploadFrames.drop 3 ∧
    s.log = [(⟨.sessionResp, listBody⟩, true),
      (badRequest "missing field `argv` at line 1 column 2", true), (uploadReady, false),
      (written 3, true)] ∧
    Apart ⟨[]⟩ uploadInput s ∧ s.Answered true := by
  have hrun : (uploadActs.foldlM (fun (s : Conn) a => if s.delivers ⟨[]⟩ uploadParsers a then
      s.step true ⟨[]⟩ uploadParsers a else none) (init ⟨[]⟩ uploadInput)).any (fun s =>
        s.requests = uploadFrames.take 3 ∧ s.transfer = uploadFrames.drop 3 ∧
        s.log = [(⟨.sessionResp, listBody⟩, true),
          (badRequest "missing field `argv` at line 1 column 2", true), (uploadReady, false),
          (written 3, true)]) = true := by decide +kernel
  obtain ⟨s, hs, hend⟩ := (Option.any_eq_true _ _).mp hrun
  obtain ⟨hrequests, htransfer, hlog⟩ := of_decide_eq_true hend
  have hgood : Trace (fun s a s' => s.Delivers ⟨[]⟩ uploadParsers a ∧
      s.step true ⟨[]⟩ uploadParsers a = some s') (init ⟨[]⟩ uploadInput) uploadActs s := by
    refine (Trace.of_foldlM hs).mono fun {s a s'} hstep => ?_
    split at hstep
    · exact ⟨delivers_of_eq_true ‹_›, hstep⟩
    · cases hstep
  obtain ⟨hapart, hanswered⟩ := agent_answers (hgood.mono fun hstep => hstep.2)
  exact ⟨s, hrequests, htransfer, hlog, hapart, hanswered hgood⟩

/-- The answer to a session request that is longer than a frame may be is dropped, and the
connection goes on without it. -/
theorem session_dropped (h : s.Answered checks) {req : SessionReq} (hs : s.phase = .session req)
    {body : Bytes} (hlen : 2 ^ 20 ≤ body.length) (hwrap : 1 + body.length < 2 ^ 32) (io : Io) :
    s.step checks cfg P (.finished (.ok body), io) = some (s.goto .ready) ∧
      ¬ (s.goto .ready).Answered checks := by
  have hmod : body.length % 2 ^ 32 = body.length := Nat.mod_eq_of_lt (by omega)
  have hlarge : writeFrame checks ⟨.sessionResp, body⟩ = .error (.tooLarge (1 + body.length)) := by
    unfold writeFrame bodyLen
    simp only [hmod, if_pos hwrap]
    rw [if_pos (by unfold maxFrameSize; omega)]
  refine ⟨?_, ?_⟩
  · unfold Conn.step act
    simp only [hs, Option.map_some, reply, panics, deliver, hlarge]
    simp
  · rintro ⟨k', hk'⟩
    obtain ⟨k, hk⟩ := h
    obtain ⟨req', hrest, -, htail⟩ :=
      (pending_of_serves (by rw [hs]; rfl)).mp hk.pending
    obtain ⟨hrest', -, htail'⟩ := hk'.pending
    have hcount := hk.count htail
    have hcount' := hk'.count htail'
    have hrequests := congrArg List.length hk.requests
    have hrequests' := congrArg List.length hk'.requests
    rw [hrest, List.length_append, List.length_singleton] at hrequests
    rw [hrest', List.append_nil] at hrequests'
    simp only [goto] at hcount' hrequests'
    omega

end Conn

end AgentHouse.Forge.Agent
