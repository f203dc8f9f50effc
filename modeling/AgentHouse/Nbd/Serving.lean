import AgentHouse.Lib.Outcomes
import AgentHouse.Nbd.Transcript

/-!
# Every connection has a transcript

The handshake takes whole options and calls no disk. One round of the loop is an exchange, or ends
the connection. By induction on the bound of the loop, every connection has a transcript,
and a bound above the length of the input is never reached.
-/

namespace AgentHouse.Nbd

open AgentHouse.Volume (Error Result)
open AgentHouse.Op

variable {σ : Type} {D : Disk σ} {s t u : Conn σ}

/-! ## The handshake -/

/-- The connection went on without a call of the disk and took `pieces`. -/
def Conn.Chatted (s t : Conn σ) (pieces : List Bytes) : Prop :=
  ∃ events, s.Went t events ∧ took events = pieces ∧ ∀ c, .called c ∉ events

/-- It did so and failed; a client that is gone took part of a last write. -/
def Conn.Broke (s t : Conn σ) (pieces : List Bytes) (e : Fault) : Prop :=
  ∃ events, s.Went t events ∧ took events = pieces ∧ (∀ c, .called c ∉ events) ∧
    (e = .gone → ∃ earlier part, events = earlier ++ [.lost part])

theorem Conn.Chatted.refl (s : Conn σ) : s.Chatted s [] :=
  ⟨[], Conn.Went.refl s, rfl, fun _ => List.not_mem_nil⟩

theorem not_called_append {events events' : List Event} (h : ∀ c, .called c ∉ events)
    (h' : ∀ c, .called c ∉ events') (c : Call) : .called c ∉ events ++ events' := by
  intro hc
  rcases List.mem_append.mp hc with hc | hc
  · exact h c hc
  · exact h' c hc

/-- Two stretches without a call. -/
theorem Conn.Chatted.trans {pieces pieces' : List Bytes} (h : s.Chatted t pieces)
    (h' : t.Chatted u pieces') : s.Chatted u (pieces ++ pieces') := by
  obtain ⟨events, hwent, rfl, hquiet⟩ := h
  obtain ⟨events', hwent', rfl, hquiet'⟩ := h'
  exact ⟨events ++ events', hwent.trans hwent', took_append events events',
    not_called_append hquiet hquiet'⟩

theorem Conn.Chatted.broke {pieces : List Bytes} {e : Fault} (h : s.Chatted t pieces)
    (he : e ≠ .gone) : s.Broke t pieces e := by
  obtain ⟨events, hwent, htook, hquiet⟩ := h
  exact ⟨events, hwent, htook, hquiet, fun hgone => absurd hgone he⟩

/-- The second of which breaks. -/
theorem Conn.Chatted.trans_broke {pieces pieces' : List Bytes} {e : Fault}
    (h : s.Chatted t pieces) (h' : t.Broke u pieces' e) : s.Broke u (pieces ++ pieces') e := by
  obtain ⟨events, hwent, rfl, hquiet⟩ := h
  obtain ⟨events', hwent', rfl, hquiet', hlost⟩ := h'
  refine ⟨events ++ events', hwent.trans hwent', took_append events events',
    not_called_append hquiet hquiet', fun he => ?_⟩
  obtain ⟨earlier, part, rfl⟩ := hlost he
  exact ⟨events ++ earlier, part, (List.append_assoc events earlier _).symm⟩

/-- Replies are no pieces of the input. -/
theorem Conn.Went.sent {chunks : List Bytes} (h : s.Went t (chunks.map .sent)) :
    s.Chatted t [] := by
  refine ⟨_, h, took_sent chunks, fun c hc => ?_⟩
  obtain ⟨chunk, _, hchunk⟩ := List.mem_map.mp hc
  cases hchunk

/-- A reply that is cut off breaks the connection. -/
theorem Conn.Went.lost (whole : List Bytes) {part : Bytes}
    (h : s.Went t (whole.map .sent ++ [.lost part])) : s.Broke t [] .gone := by
  refine ⟨_, h, ?_, not_called_append (fun c hc => ?_) fun c hc => ?_, fun _ => ⟨_, part, rfl⟩⟩
  · rw [took_append, took_sent]
    rfl
  · obtain ⟨chunk, _, hchunk⟩ := List.mem_map.mp hc
    cases hchunk
  · cases List.mem_singleton.mp hc

/-- Bytes that were taken are a piece. -/
theorem Conn.Went.took {bytes : Bytes} (h : s.Went t [.took bytes]) : s.Chatted t [bytes] := by
  refine ⟨_, h, rfl, fun c hc => ?_⟩
  cases List.mem_singleton.mp hc

/-- A failure that is no panic and no end of the bound. -/
def Fault.Ordinary (e : Fault) : Prop := e = .invalid ∨ e = .unexpectedEof ∨ e = .gone

/-- Talking to the client without taking anything, with a result in `P`. It fails if the client is
gone, or as invalid for the reason `F`. -/
def Answers {α : Type} (D : Disk σ) (P : α → Prop) (F : Prop) (p : Server α) (s : Conn σ) : Prop :=
  p.Yields (contract D) (fun a t => P a ∧ s.Chatted t [])
    (fun e t => (e = .gone ∨ e = .invalid ∧ F) ∧ s.Broke t [] e) s

section Answers

variable {α β : Type} {P : α → Prop} {R : β → Prop} {F : Prop}

/-- Two answers in a row. -/
theorem Answers.bind {p : Server α} {f : α → Server β} (h : Answers D P F p s)
    (hf : ∀ a t, Answers D R F (f a) t) : Answers D R F (p >>= f) s := by
  refine yields_bind h fun a t ht => (hf a t).mono (fun _ u hu => ⟨hu.1, ht.2.trans hu.2⟩) ?_
  exact fun e u hu => ⟨hu.1, ht.2.trans_broke hu.2⟩

theorem Answers.pure {a : α} (ha : P a) : Answers D P F (Pure.pure a : Server α) s :=
  yields_pure ⟨ha, Conn.Chatted.refl s⟩

/-- After a check that did not refuse. -/
theorem Answers.refuse {c : Prop} [Decidable c] {f : Unit → Server α} (hc : c → F)
    (h : ¬ c → Answers D P F (f ()) s) : Answers D P F (Op.refuse c .invalid >>= f) s := by
  refine yields_refuse (fun hrefused => ⟨.inr ⟨rfl, hc hrefused⟩, ?_⟩) h
  exact (Conn.Chatted.refl s).broke (by decide)

theorem Answers.ite {c : Prop} [Decidable c] {p q : Server α} (hp : c → Answers D P F p s)
    (hq : ¬ c → Answers D P F q s) : Answers D P F (if c then p else q) s :=
  yields_ite hp hq

/-- By induction on the chunks, all of them are sent or the connection breaks. -/
theorem writeEach_answers (chunks : List Bytes) :
    Answers D (fun _ => True) F (writeEach chunks) s := by
  refine writeEach_yields.mono (fun _ t ht => ⟨trivial, ht.sent⟩) ?_
  rintro e t ⟨rfl, whole, part, ht, _⟩
  exact ⟨.inl rfl, ht.lost whole⟩

theorem flushStream_answers : Answers D (fun _ => True) F (attempt .flushStream) s := by
  refine (flushStream_yields fun t ht => ?_).mono ?_ fun e t ht => ht
  · exact ⟨.inl rfl, Conn.Went.lost [] ht⟩
  · rintro _ t rfl
    exact ⟨trivial, Conn.Chatted.refl t⟩

end Answers

/-- The answer to an option agrees with its verdict. -/
def Announces (v : Verdict) : Option Bool → Prop
  | some true => v = .opened
  | some false => v = .aborted
  | none => v = .next

/-- The answer to an export name. -/
theorem exportName_answers (size flags : ℕ) (data : Bytes) :
    Answers D (Announces (verdict 1 data)) (verdict 1 data = .refused)
      (exportName size flags data) s := by
  unfold verdict
  rw [if_pos rfl]
  refine .refuse (fun hdata => if_neg hdata) fun hdata => ?_
  exact .bind (writeEach_answers _) fun _ _ =>
    .bind flushStream_answers fun _ _ => .pure (if_pos (not_not.mp hdata))

/-- The answer to an information request. -/
theorem info_answers (size : ℕ) {option : ℕ} {data : Bytes} (hdata : data.length ≤ 4096)
    (hinfo : option = 6 ∨ option = 7) :
    Answers D (Announces (verdict option data)) (verdict option data = .refused)
      (info size option data) s := by
  have hlt : data.length < 2 ^ 64 := by omega
  have hverdict : verdict option data = if ¬ InfoFramed data then .refused
      else if option = 7 ∧ ofBe (slice data 0 4) = 0 then .opened else .next := by
    rw [verdict, if_neg (by omega), if_neg (by omega), if_pos hinfo]
  rw [hverdict]
  refine .refuse (fun hshort => if_pos fun h => ?_) fun hshort => yields_numberAt (by omega) hlt ?_
  · exact absurd h.1 (not_le.mpr hshort)
  set nameLen := ofBe (slice data 0 4) with hnameLen
  have hroom : sub data.length 6 = pure (data.length - 6) := if_pos (by omega)
  rw [hroom]
  refine Answers.refuse (fun hname => if_pos fun h => ?_) fun hname => ?_
  · exact absurd h.2.1 (not_le.mpr hname)
  have hstart : add 4 nameLen = pure (4 + nameLen) := if_pos (by omega)
  rw [hstart]
  refine yields_numberAt (by omega) hlt ?_
  set n := ofBe (slice data (4 + nameLen) 2) with hn
  have hnlt : n < 256 ^ 2 := ofBe_slice_lt data (4 + nameLen) 2
  have hnamed : add 6 nameLen = pure (6 + nameLen) := if_pos (by omega)
  have hwhole : add (6 + nameLen) (2 * n) = pure (6 + nameLen + 2 * n) := if_pos (by omega)
  rw [hnamed]
  change Answers D _ _ (add (6 + nameLen) (2 * n) >>= _) s
  rw [hwhole]
  refine Answers.refuse (fun hlength => if_pos fun h => absurd h.2.2 hlength) fun hlength => ?_
  have hframed : InfoFramed data := ⟨not_lt.mp hshort, not_lt.mp hname, not_not.mp hlength⟩
  rw [if_neg (not_not.mpr hframed)]
  refine Answers.ite (fun hnamed => ?_) fun hunnamed => ?_
  · rw [if_neg fun h => hnamed h.2]
    exact .bind (writeEach_answers _) fun _ _ => .bind flushStream_answers fun _ _ => .pure rfl
  · refine .bind (writeEach_answers _) fun _ _ => .bind (writeEach_answers _) fun _ _ => ?_
    refine .bind (writeEach_answers _) fun _ _ => .bind flushStream_answers fun _ _ => ?_
    refine .ite (fun hgo => .pure ?_) fun hgo => ?_
    · exact if_pos ⟨hgo, not_not.mp hunnamed⟩
    · exact .bind flushStream_answers fun _ _ => .pure (if_neg fun h => hgo h.1)

/-- Every option is answered by its verdict. -/
theorem answer_answers (size flags option : ℕ) {data : Bytes} (hdata : data.length ≤ 4096) :
    Answers D (Announces (verdict option data)) (verdict option data = .refused)
      (answer size flags option data) s := by
  refine .ite ?_ fun hname => .ite (fun habort => ?_) fun habort =>
    .ite (fun hinfo => info_answers size hdata hinfo) fun hinfo => ?_
  · rintro rfl
    exact exportName_answers size flags data
  · refine .bind (writeEach_answers _) fun _ _ => .bind flushStream_answers fun _ _ => .pure ?_
    change verdict option data = .aborted
    rw [verdict, if_neg hname, if_pos habort]
  · refine .bind (writeEach_answers _) fun _ _ => .bind flushStream_answers fun _ _ => .pure ?_
    change verdict option data = .next
    rw [verdict, if_neg hname, if_neg habort, if_neg hinfo]

theorem Concluded.single {count : ℕ} {v : Verdict} {frame : OptionFrame}
    (h : frame.verdict = v) : Concluded (count + 1) v [frame] :=
  ⟨[], frame, rfl, Nat.succ_pos count, fun _ hf => absurd hf List.not_mem_nil, h⟩

theorem Concluded.cons {count : ℕ} {v : Verdict} {frame : OptionFrame} {frames : List OptionFrame}
    (h : frame.verdict = .next) (hrest : Concluded count v frames) :
    Concluded (count + 1) v (frame :: frames) := by
  obtain ⟨earlier, last, rfl, hcount, hnext, hlast⟩ := hrest
  exact ⟨frame :: earlier, last, rfl, Nat.succ_lt_succ hcount,
    List.forall_mem_cons.mpr ⟨h, hnext⟩, hlast⟩

theorem Halted.cons {rest : Bytes} {count : ℕ} {frame : OptionFrame} {frames : List OptionFrame}
    {unread : Option (Block 16)} {e : Fault} (h : frame.verdict = .next)
    (hrest : Halted rest count frames unread e) :
    Halted rest (count + 1) (frame :: frames) unread e := by
  cases hrest with
  | short hnext hcount hshort =>
    exact .short (List.forall_mem_cons.mpr ⟨h, hnext⟩) (Nat.succ_lt_succ hcount) hshort
  | cut hnext hcount hshort =>
    exact .cut (List.forall_mem_cons.mpr ⟨h, hnext⟩) (Nat.succ_lt_succ hcount) hshort
  | foreign hnext hcount hheader =>
    exact .foreign (List.forall_mem_cons.mpr ⟨h, hnext⟩) (Nat.succ_lt_succ hcount) hheader
  | refused hconcluded => exact .refused (hconcluded.cons h)
  | spent hnext hcount =>
    exact .spent (List.forall_mem_cons.mpr ⟨h, hnext⟩) (congrArg (· + 1) hcount)
  | gone hconcluded => exact .gone (hconcluded.cons h)

/-- By induction on the options left, the handshake ends with the first final verdict. -/
theorem options_yields (size flags count : ℕ) :
    (options size flags count).Yields (contract D)
      (fun opened t => ∃ frames,
        Concluded count (if opened = true then .opened else .aborted) frames ∧
        s.Chatted t (optionPieces frames none))
      (fun e t => e.Ordinary ∧ ∃ frames unread, Halted t.input count frames unread e ∧
        s.Broke t (optionPieces frames unread) e) s := by
  have hnone : ∀ f ∈ ([] : List OptionFrame), f.verdict = .next :=
    fun _ hf => absurd hf List.not_mem_nil
  induction count generalizing s with
  | zero =>
    exact yields_throw ⟨.inl rfl, [], none, .spent hnone rfl,
      (Conn.Chatted.refl s).broke (by decide)⟩
  | succ count ih =>
    refine yields_bind (readExact_yields fun hshort =>
      ⟨.inr (.inl rfl), [], none, .short hnone (Nat.succ_pos count) hshort,
        (Conn.Chatted.refl s).broke (by decide)⟩) fun header t ht => ?_
    have hlen : header.val.length = 16 := header.property
    refine yields_numberAt (by omega) (by omega) (yields_refuse ?_ fun hmagic => ?_)
    · exact fun hmagic => ⟨.inl rfl, [], some header,
        .foreign hnone (Nat.succ_pos count) (.inl hmagic), ht.took.broke (by decide)⟩
    refine yields_numberAt (by omega) (by omega) (yields_numberAt (by omega) (by omega) ?_)
    refine yields_refuse (fun hlength => ?_) fun hlength => ?_
    · exact ⟨.inl rfl, [], some header, .foreign hnone (Nat.succ_pos count) (.inr hlength),
        ht.took.broke (by decide)⟩
    refine yields_bind (readExact_yields fun hshort => ?_) fun data u hu => ?_
    · exact ⟨.inr (.inl rfl), [], some header, .cut hnone (Nat.succ_pos count) hshort,
        ht.took.broke (by decide)⟩
    have hdata : data.val.length ≤ 4096 := by
      rw [data.property]
      exact not_lt.mp hlength
    let frame : OptionFrame :=
      ⟨header, data.val, not_ne_iff.mp hmagic, data.property, hdata⟩
    have hframe : s.Chatted u frame.pieces := ht.took.trans hu.took
    have hpieces (frames : List OptionFrame) (unread : Option (Block 16)) :
        optionPieces (frame :: frames) unread = frame.pieces ++ optionPieces frames unread := by
      simp [optionPieces]
    have hanswer := answer_answers (D := D) (s := u) size flags frame.option hdata
    refine yields_bind (hanswer.mono (fun _ _ h => h) ?_) ?_
    · rintro e v ⟨he, hbroke⟩
      have hbehind : s.Broke v (optionPieces [frame] none) e := by
        rw [hpieces]
        exact hframe.trans_broke hbroke
      obtain rfl | ⟨rfl, hrefused⟩ := he
      · exact ⟨.inr (.inr rfl), [frame], none, .gone (Concluded.single rfl), hbehind⟩
      · exact ⟨.inl rfl, [frame], none, .refused (Concluded.single hrefused), hbehind⟩
    rintro answered v ⟨hannounced, hv⟩
    cases answered with
    | some opened =>
      refine yields_pure ⟨[frame], Concluded.single ?_, ?_⟩
      · cases opened with
        | true => exact hannounced
        | false => exact hannounced
      · rw [hpieces]
        exact hframe.trans hv
    | none =>
      refine ih.mono ?_ ?_
      · rintro opened w ⟨frames, hconcluded, hw⟩
        refine ⟨frame :: frames, hconcluded.cons hannounced, ?_⟩
        rw [hpieces]
        exact hframe.trans (hv.trans hw)
      · rintro e w ⟨he, frames, unread, hhalted, hw⟩
        refine ⟨he, frame :: frames, unread, hhalted.cons hannounced, ?_⟩
        rw [hpieces]
        exact hframe.trans_broke (hv.trans_broke hw)

/-- A handshake that breaks has an account. -/
theorem Conn.Broke.opening (client : Option (Block 4)) (frames : List OptionFrame)
    (unread : Option (Block 16)) {e : Fault}
    (h : s.Broke t ((client.map (·.val)).toList ++ optionPieces frames unread) e)
    (hordered : client = none → frames = [] ∧ unread = none)
    (hfails : HandshakeFails t.input frames unread e client) :
    ∃ o : Opening, o.Fails e t.input ∧ s.Went t o.events := by
  obtain ⟨events, hwent, htook, hquiet, hlost⟩ := h
  exact ⟨⟨events, client, frames, unread, htook, hordered, hquiet⟩, ⟨hfails, hlost⟩, hwent⟩

/-- The handshake takes the flags and whole options, and calls no disk. It ends with the verdict of
the last option, or fails for a reason. -/
theorem handshake_yields (size : ℕ) :
    (handshake size).Yields (contract D)
      (fun opened t => ∃ o : Opening,
        o.EndsWith (if opened = true then .opened else .aborted) ∧ s.Went t o.events)
      (fun e t => e.Ordinary ∧ ∃ o : Opening, o.Fails e t.input ∧ s.Went t o.events) s := by
  -- before the flags are there
  have hsilent : ∀ {t e}, s.Broke t [] e → (e = .gone ∨ e = .unexpectedEof ∧ t.input.length < 4) →
      ∃ o : Opening, o.Fails e t.input ∧ s.Went t o.events := fun ht he =>
    Conn.Broke.opening none [] none ht (fun _ => ⟨rfl, rfl⟩) he
  refine yields_bind ((writeEach_answers (F := False) _).mono (fun _ _ h => h.2) ?_)
    fun _ t ht => ?_
  · rintro e t ⟨rfl | ⟨_, hfalse⟩, ht⟩
    · exact ⟨.inr (.inr rfl), hsilent ht (.inl rfl)⟩
    · exact hfalse.elim
  refine yields_bind ((flushStream_answers (F := False)).mono (fun _ _ h => h.2) ?_)
    fun _ u hu => ?_
  · rintro e u ⟨rfl | ⟨_, hfalse⟩, hu⟩
    · exact ⟨.inr (.inr rfl), hsilent (ht.trans_broke hu) (.inl rfl)⟩
    · exact hfalse.elim
  have hgreeted : s.Chatted u [] := ht.trans hu
  refine yields_bind (readExact_yields fun hshort => ⟨.inr (.inl rfl), ?_⟩) fun client v hv => ?_
  · exact hsilent (hgreeted.broke (by decide)) (.inr ⟨rfl, hshort⟩)
  have hclient : s.Chatted v [client.val] := hgreeted.trans hv.took
  refine yields_refuse (fun hflags => ⟨.inl rfl, ?_⟩) fun hflags => ?_
  · refine Conn.Broke.opening (some client) [] none (hclient.broke (by decide))
      (fun h => nomatch h) (.inl ⟨?_, rfl, rfl, rfl⟩)
    rintro ⟨hknown, hfixed⟩
    exact hflags.elim (fun h => h hknown) hfixed
  have hgreets : Greets client :=
    ⟨not_not.mp fun h => hflags (.inl h), fun h => hflags (.inr h)⟩
  refine (options_yields size _ 32).mono ?_ ?_
  · rintro opened w ⟨frames, hconcluded, hw⟩
    obtain ⟨events, hwent, htook, hquiet⟩ := hclient.trans hw
    exact ⟨⟨events, some client, frames, none, htook, (fun h => nomatch h), hquiet⟩,
      ⟨client, rfl, hgreets, rfl, hconcluded⟩, hwent⟩
  · rintro e w ⟨he, frames, unread, hhalted, hw⟩
    exact ⟨he, (hclient.trans_broke hw).opening (some client) frames unread
      (fun h => nomatch h) (.inr ⟨hgreets, hhalted⟩)⟩

/-! ## The requests -/

/-- Only reads, writes and flushes are valid. -/
theorem valid_command {flags command offset length size : ℕ}
    (h : valid flags command offset length size = true) :
    command = 0 ∨ command = 1 ∨ command = 3 := by
  by_cases hrw : command = 0 ∨ command = 1
  · exact hrw.imp_right .inl
  · rw [valid, if_neg hrw] at h
    by_cases hflush : command = 3
    · exact .inr (.inr hflush)
    · rw [if_neg hflush] at h
      cases h

/-- A valid read or write lies within the volume. -/
theorem valid_span {flags command offset length size : ℕ} (hrw : command = 0 ∨ command = 1)
    (hmax : length ≤ maxRequest) (h : valid flags command offset length size = true) :
    Span offset length size := by
  rw [valid, if_pos hrw] at h
  simp only [Bool.and_eq_true, decide_eq_true_eq] at h
  obtain ⟨⟨⟨⟨_, hpos⟩, hlength⟩, hoffset⟩, hfits⟩ := h
  refine ⟨Nat.dvd_of_mod_eq_zero hoffset, Nat.dvd_of_mod_eq_zero hlength, hpos, hmax, ?_⟩
  by_cases hlt : offset + length < 2 ^ 64
  · rw [fits, if_pos hlt] at hfits
    exact of_decide_eq_true hfits
  · rw [fits, if_neg hlt] at hfits
    cases hfits

/-- What the disk was asked for the request with header `h` and data `data`. -/
structure Carried (h : Header) (data : Bytes) (result : Result Unit) (filled : Bytes)
    (calls : List Call) : Prop where
  inRange : ∀ c ∈ calls, c.InRange
  succeeded : result = .ok () → h.command ∈ [0, 1, 3] ∧
    ∃ size size', calls = h.calls data filled size size'
  failed : ∀ e, result = .error e → calls = [] ∧ e = .invalidInput ∨ ∃ c ∈ calls, c.ok = false
  filled : filled.length = data.length

/-- The calls for a request that fails. -/
theorem Carried.fails {h : Header} {data filled : Bytes} {calls : List Call} {e : Error}
    (hin : ∀ c ∈ calls, c.InRange) (hlen : filled.length = data.length)
    (hfailed : calls = [] ∧ e = .invalidInput ∨ ∃ c ∈ calls, c.ok = false) :
    Carried h data (.error e) filled calls where
  inRange := hin
  succeeded hr := by cases hr
  failed e he := by
    obtain rfl := Except.error.inj he
    exact hfailed
  filled := hlen

/-- The calls for a request that succeeds. -/
theorem Carried.succeeds {h : Header} {data filled : Bytes} {calls : List Call} (size size' : ℕ)
    (hin : ∀ c ∈ calls, c.InRange) (hlen : filled.length = data.length)
    (hcommand : h.command ∈ [0, 1, 3]) (hcalls : calls = h.calls data filled size size') :
    Carried h data (.ok ()) filled calls where
  inRange := hin
  succeeded _ := ⟨hcommand, size, size', hcalls⟩
  failed e he := by cases he
  filled := hlen

/-- A read is called once and answers with its bytes. -/
theorem read_yields {offset n : ℕ} {E : Fault → Conn σ → Prop} :
    (perform (.read offset n)).Yields (contract D) (fun (r : Result (Block n)) t =>
      s.Went t [.called ⟨D.size s.disk, .read offset n, r.isOk, filledBy r⟩]) E s := by
  refine yields_perform trivial ?_
  rintro r t ⟨_, rfl⟩
  exact ⟨rfl, rfl⟩

/-- A write is called once, with the data. -/
theorem write_yields {offset : ℕ} {data : Bytes} {E : Fault → Conn σ → Prop} :
    (perform (.write offset data)).Yields (contract D) (fun (r : Result Unit) t =>
      s.Went t [.called ⟨D.size s.disk, .write offset data, r.isOk, []⟩]) E s := by
  refine yields_perform trivial ?_
  rintro r t ⟨_, rfl⟩
  exact ⟨rfl, rfl⟩

/-- A flush is called once. -/
theorem flush_yields {E : Fault → Conn σ → Prop} :
    (perform .flush).Yields (contract D) (fun (r : Result Unit) t =>
      s.Went t [.called ⟨D.size s.disk, .flush, r.isOk, []⟩]) E s := by
  refine yields_perform trivial ?_
  rintro r t ⟨_, rfl⟩
  exact ⟨rfl, rfl⟩

section Execute

variable {h : Header} {data : Bytes} {E : Fault → Conn σ → Prop}

/-- The calls for a request, and what they mean for its answer. -/
def Executes (h : Header) (data : Bytes) (s : Conn σ) (r : Result Unit × Bytes) (t : Conn σ) :
    Prop :=
  ∃ calls : List Call, s.Went t (calls.map .called) ∧ Carried h data r.1 r.2 calls

theorem inRange_singleton {c d : Call} (hc : c.InRange) (hd : d ∈ [c]) : d.InRange := by
  obtain rfl := List.mem_singleton.mp hd
  exact hc

theorem inRange_flush (n : ℕ) (ok : Bool) : Call.InRange ⟨n, .flush, ok, []⟩ := trivial

/-- A valid read calls the disk at the span of the request. -/
theorem execute_read (hcommand : h.command = 0) (hdata : data.length = h.length)
    (hspan : Span h.offset data.length (D.size s.disk)) :
    (perform (.read h.offset data.length) >>= fun r => match r with
      | .ok filled => pure (.ok (), filled.val)
      | .error e => pure (.error e, data) : Server (Result Unit × Bytes)).Yields (contract D)
      (Executes h data s) E s := by
  refine yields_bind read_yields ?_
  rintro (e | filled) t ht
  · refine yields_pure ⟨[_], ht, .fails (fun _ => inRange_singleton hspan) rfl (.inr ?_)⟩
    exact ⟨_, List.mem_singleton_self _, rfl⟩
  · refine yields_pure ⟨[_], ht, .succeeds (D.size s.disk) 0
      (fun _ => inRange_singleton hspan) filled.property (by simp [hcommand]) ?_⟩
    rw [Header.calls, if_pos hcommand, ← hdata]
    rfl

/-- A valid write does so with the payload, and flushes if it is asked to. -/
theorem execute_write (hcommand : h.command = 1)
    (hspan : Span h.offset data.length (D.size s.disk)) :
    (perform (.write h.offset data) >>= fun r => match r with
      | .ok () =>
        if h.flags &&& 1 ≠ 0 then do
          let flushed ← perform .flush
          return (flushed, data)
        else pure (.ok (), data)
      | .error e => pure (.error e, data) : Server (Result Unit × Bytes)).Yields (contract D)
      (Executes h data s) E s := by
  have hwritten : h.command ∈ [0, 1, 3] := by simp [hcommand]
  refine yields_bind write_yields ?_
  rintro (e | _) t ht
  · refine yields_pure ⟨[_], ht, .fails (fun _ => inRange_singleton hspan) rfl (.inr ?_)⟩
    exact ⟨_, List.mem_singleton_self _, rfl⟩
  refine yields_ite (fun hfua => ?_) fun hplain => ?_
  · -- `FUA`: the flush follows the write
    refine yields_bind flush_yields fun r u hu => ?_
    have hin : ∀ c ∈ [⟨D.size s.disk, .write h.offset data, true, []⟩,
        (⟨D.size t.disk, .flush, r.isOk, []⟩ : Call)], c.InRange := by
      intro c hc
      rcases List.mem_cons.mp hc with rfl | hc
      · exact hspan
      · exact inRange_singleton (inRange_flush _ _) hc
    refine yields_pure ⟨[_, _], ht.trans hu, ?_⟩
    cases r with
    | error e => exact .fails hin rfl (.inr ⟨_, List.mem_cons_of_mem _ List.mem_cons_self, rfl⟩)
    | ok _ =>
      refine .succeeds (D.size s.disk) (D.size t.disk) hin rfl hwritten ?_
      rw [Header.calls, if_neg (by omega), if_pos hcommand, if_pos hfua]
      rfl
  · refine yields_pure ⟨[_], ht, .succeeds (D.size s.disk) 0
      (fun _ => inRange_singleton hspan) rfl hwritten ?_⟩
    rw [Header.calls, if_neg (by omega), if_pos hcommand, if_neg hplain]
    rfl

/-- A flush. -/
theorem execute_flush (hcommand : h.command = 3) :
    (perform .flush >>= fun flushed => pure (flushed, data) :
      Server (Result Unit × Bytes)).Yields (contract D) (Executes h data s) E s := by
  refine yields_bind flush_yields fun r t ht => yields_pure ⟨[_], ht, ?_⟩
  have hin : ∀ c ∈ [(⟨D.size s.disk, .flush, r.isOk, []⟩ : Call)], c.InRange :=
    fun _ => inRange_singleton (inRange_flush _ _)
  cases r with
  | error e => exact .fails hin rfl (.inr ⟨_, List.mem_singleton_self _, rfl⟩)
  | ok _ =>
    refine .succeeds (D.size s.disk) 0 hin rfl (by simp [hcommand]) ?_
    rw [Header.calls, if_neg (by omega), if_neg (by omega)]
    rfl

/-- Any request calls the disk as its header says, or not at all. -/
theorem execute_yields (hdata : data.length = h.length) (hmax : h.length ≤ maxRequest) :
    (execute h.flags h.command h.offset data (D.size s.disk)).Yields (contract D)
      (Executes h data s) E s := by
  replace hmax : data.length ≤ maxRequest := hdata.trans_le hmax
  refine yields_ite (fun _ => ?_) fun hvalid => ?_
  · exact yields_pure ⟨[], Conn.Went.refl s,
      .fails (fun _ hc => absurd hc List.not_mem_nil) rfl (.inl ⟨rfl, rfl⟩)⟩
  replace hvalid := eq_true_of_ne_false hvalid
  refine yields_ite (fun hread => ?_) fun hread => yields_ite (fun hwrite => ?_) fun hwrite => ?_
  · exact execute_read hread hdata (valid_span (.inl hread) hmax hvalid)
  · exact execute_write hwrite (valid_span (.inr hwrite) hmax hvalid)
  · refine yields_ite execute_flush fun hflush => ?_
    rcases valid_command hvalid with h0 | h1 | h3
    · exact absurd h0 hread
    · exact absurd h1 hwrite
    · exact absurd h3 hflush

end Execute

/-- The payload of a write is taken whole. -/
theorem payload_yields {h : Header} {E : Fault → Conn σ → Prop}
    (hE : h.command = 1 → s.input.length < h.length → E .unexpectedEof s) :
    (payload h.command h.length).Yields (contract D) (fun data t => data.length = h.length ∧
      s.Went t ((if h.command = 1 then [data] else []).map .took)) E s := by
  refine yields_ite (fun hwrite => ?_) fun hother => ?_
  · refine yields_bind (readExact_yields (hE hwrite)) fun data t ht => ?_
    refine yields_pure ⟨data.property, ?_⟩
    rw [if_pos hwrite]
    exact ht
  · refine yields_pure ⟨List.length_replicate, ?_⟩
    rw [if_neg hother]
    exact Conn.Went.refl s

theorem errnoOf_eq_zero {r : Result Unit} : errnoOf r = 0 ↔ r = .ok () := by
  cases r with
  | ok u => exact ⟨fun _ => rfl, fun _ => rfl⟩
  | error e =>
    refine ⟨fun h => ?_, fun h => nomatch h⟩
    cases e <;> cases h

/-- The request of a header and the data that was read for it. -/
def Request.of {h : Header} (hserved : h.Served) {data : Bytes} (hdata : data.length = h.length) :
    Request where
  header := h
  payload := if h.command = 1 then data else []
  served := hserved
  framed := by
    rw [Header.payload]
    by_cases hwrite : h.command = 1
    · rw [if_pos hwrite, if_pos hwrite, hdata]
    · rw [if_neg hwrite, if_neg hwrite, List.length_nil]

/-- The exchange of a request whose calls were carried out. -/
def Exchange.of {h : Header} (hserved : h.Served) {data : Bytes} (hdata : data.length = h.length)
    {result : Result Unit} {filled : Bytes} {calls : List Call}
    (hcarried : Carried h data result filled calls) : Exchange where
  request := .of hserved hdata
  calls := calls
  errno := errnoOf result
  data := if h.command = 0 ∧ errnoOf result = 0 then filled else []
  inRange := hcarried.inRange
  succeeded herrno := by
    replace herrno : errnoOf result = 0 := herrno
    obtain ⟨hcommand, size, size', hcalls⟩ := hcarried.succeeded (errnoOf_eq_zero.mp herrno)
    refine ⟨hcommand, size, size', hcalls.trans ?_⟩
    change h.calls data filled size size' = h.calls (if h.command = 1 then data else [])
      (if h.command = 0 ∧ errnoOf result = 0 then filled else []) size size'
    unfold Header.calls
    by_cases hread : h.command = 0
    · rw [if_pos hread, if_pos hread, if_pos ⟨hread, herrno⟩]
    · rw [if_neg hread, if_neg hread]
      by_cases hwrite : h.command = 1
      · rw [if_pos hwrite, if_pos hwrite, if_pos hwrite]
      · rw [if_neg hwrite, if_neg hwrite]
  failed herrno := by
    cases hresult : result with
    | ok _ => exact absurd (errnoOf_eq_zero.mpr hresult) herrno
    | error e =>
      obtain ⟨hnone, rfl⟩ | hcall := hcarried.failed e hresult
      · exact .inl ⟨hnone, rfl⟩
      · exact .inr hcall
  returned := by
    change _ = if h.command = 0 ∧ errnoOf result = 0 then h.length else 0
    by_cases hread : h.command = 0 ∧ errnoOf result = 0
    · rw [if_pos hread, if_pos hread, hcarried.filled, hdata]
    · rw [if_neg hread, if_neg hread, List.length_nil]

/-- One round of the loop: an exchange, or the end of the connection. -/
theorem request_yields : request.Yields (contract D)
    (fun more t => (more = true ∧ ∃ x : Exchange, s.Went t x.events) ∨
      (more = false ∧ ∃ ending : Ending, s.Went t ending.events ∧
        ending.Explains (.ok ()) t.input))
    (fun e t => e.Ordinary ∧ ∃ ending : Ending, s.Went t ending.events ∧
      ending.Explains (.error e) t.input) s := by
  refine yields_bind (readExact_yields fun hshort =>
    ⟨.inr (.inl rfl), .nothing, Conn.Went.refl s, rfl, hshort⟩) fun (h : Header) t ht => ?_
  have hlen : h.val.length = 28 := h.property
  refine yields_numberAt (by omega) (by omega) (yields_refuse ?_ fun hmagic => ?_)
  · exact fun hmagic => ⟨.inl rfl, .header h, ht, .inr (.inl ⟨rfl, .inl hmagic⟩)⟩
  replace hmagic : h.magic = 0x25609513 := not_ne_iff.mp hmagic
  refine yields_numberAt (by omega) (by omega) (yields_numberAt (by omega) (by omega) ?_)
  refine yields_numberAt (by omega) (by omega) (yields_numberAt (by omega) (by omega) ?_)
  refine yields_refuse ?_ fun hlength => ?_
  · exact fun hlength => ⟨.inl rfl, .header h, ht, .inr (.inl ⟨rfl, .inr hlength⟩)⟩
  replace hlength : h.length ≤ maxRequest := not_lt.mp hlength
  refine yields_ite (fun hdisc => ?_) fun hcommand => ?_
  · exact yields_pure (.inr ⟨rfl, .header h, ht, .inl ⟨rfl, hmagic, hlength, hdisc⟩⟩)
  have hserved : h.Served := ⟨hmagic, hlength, hcommand⟩
  refine yields_bind (payload_yields (h := h) fun hwrite hshort => ?_) ?_
  · refine ⟨.inr (.inl rfl), .header h, ht, .inr (.inr ⟨rfl, hserved, ?_⟩)⟩
    rw [Header.payload, if_pos hwrite]
    exact hshort
  rintro data u ⟨hdata, hu⟩
  refine yields_bind (Q := fun n v => n = D.size u.disk ∧ v = u)
    (yields_perform trivial fun _ _ hv => hv) ?_
  rintro _ _ ⟨rfl, rfl⟩
  refine yields_bind (execute_yields (h := h) hdata hlength) ?_
  rintro ⟨result, filled⟩ v ⟨calls, hv, hcarried⟩
  let x := Exchange.of hserved hdata hcarried
  have hasked : s.Went v x.asked := by
    have hall := (ht.trans hu).trans hv
    have hpieces : x.request.pieces = h.val :: if h.command = 1 then [data] else [] := by
      change (h.val :: if h.command = 1 then [if h.command = 1 then data else []] else []) = _
      by_cases hwrite : h.command = 1
      · rw [if_pos hwrite, if_pos hwrite, if_pos hwrite]
      · rw [if_neg hwrite, if_neg hwrite]
    rw [Exchange.asked, hpieces]
    exact hall
  have hreply : x.reply = [beBytes 4 0x67446698, beBytes 4 (errnoOf result), slice h.val 8 (16 - 8)]
      ++ if h.command = 0 ∧ errnoOf result = 0 then [filled] else [] := by
    change _ ++ (if h.command = 0 ∧ errnoOf result = 0 then
      [if h.command = 0 ∧ errnoOf result = 0 then filled else []] else []) = _
    by_cases hread : h.command = 0 ∧ errnoOf result = 0
    · rw [if_pos hread, if_pos hread, if_pos hread]
      rfl
    · rw [if_neg hread, if_neg hread]
      rfl
  have hcookie : range h.val 8 16 = pure (slice h.val 8 (16 - 8)) := if_pos ⟨by omega, by omega⟩
  simp only
  rw [hcookie]
  change (writeEach (_ ++ if h.command = 0 ∧ errnoOf result = 0 then [filled] else []) >>=
    _).Yields _ _ _ v
  rw [← hreply]
  refine yields_bind (writeEach_yields.mono (fun _ _ hw => hw) ?_) fun _ w hw => ?_
  · rintro e w ⟨rfl, whole, part, hw, hprefix⟩
    refine ⟨.inr (.inr rfl), .broken x whole part, ?_, rfl, hprefix⟩
    rw [Ending.events, List.append_assoc]
    exact hasked.trans hw
  refine yields_bind (flushStream_yields fun w' hw' => ?_) ?_
  · refine ⟨.inr (.inr rfl), .broken x x.reply [], ?_, rfl, ?_⟩
    · exact (hasked.trans hw).trans hw'
    · exact ⟨[], by simp⟩
  · rintro _ _ rfl
    exact yields_pure (.inl ⟨rfl, x, hasked.trans hw⟩)

/-- The exchanges and the ending of a connection whose requests are read from `s` on. -/
def Conn.Answered (s t : Conn σ) (r : Except Fault Unit) : Prop :=
  ∃ (xs : List Exchange) (ending : Ending),
    s.Went t (xs.flatMap Exchange.events ++ ending.events) ∧ ending.Explains r t.input

/-- An exchange takes bytes. -/
theorem Conn.Went.shorter {x : Exchange} (h : s.Went t x.events) :
    t.input.length < s.input.length := by
  have hheader := x.request.header.property
  rw [h.2, x.took_events, Request.pieces, List.flatten_cons, List.length_append, List.length_append]
  omega

/-- The loop: exchanges up to the end of the connection, and a large enough bound is not
reached. -/
theorem requests_yields {bound : ℕ} (hbound : s.input.length < bound) :
    (requests bound).Yields (contract D) (fun _ t => s.Answered t (.ok ()))
      (fun e t => e.Ordinary ∧ s.Answered t (.error e)) s := by
  induction bound generalizing s with
  | zero => exact absurd hbound (Nat.not_lt_zero _)
  | succ bound ih =>
    refine yields_bind (request_yields.mono (fun _ _ h => h) ?_) ?_
    · rintro e t ⟨he, ending, ht, hexplains⟩
      exact ⟨he, [], ending, ht, hexplains⟩
    rintro more t (⟨rfl, x, ht⟩ | ⟨rfl, ending, ht, hexplains⟩)
    · have hshorter := ht.shorter
      have hmore : ∀ {r u}, t.Answered u r → s.Answered u r := by
        rintro r u ⟨xs, ending, hu, hexplains⟩
        refine ⟨x :: xs, ending, ?_, hexplains⟩
        rw [List.flatMap_cons, List.append_assoc]
        exact ht.trans hu
      refine Yields.mono (ih (by omega)) (fun _ u hu => hmore hu) ?_
      exact fun e u hu => ⟨hu.1, hmore hu.2⟩
    · exact yields_pure ⟨[], ending, ht, hexplains⟩

/-! ## The connection -/

theorem Transcript.took_events (T : Transcript) : took T.events = T.pieces := by
  have hexchanges : took (T.exchanges.flatMap Exchange.events) =
      T.exchanges.flatMap (·.request.pieces) := by
    induction T.exchanges with
    | nil => rfl
    | cons x xs ih => rw [List.flatMap_cons, took_append, x.took_events, ih, List.flatMap_cons]
  rw [events, took_append, took_append, hexchanges, T.ending.took_events]
  rfl

theorem Exchange.inRange_of_mem {x : Exchange} {c : Call} (h : .called c ∈ x.asked) :
    c.InRange := by
  rcases List.mem_append.mp h with h | h
  · obtain ⟨piece, _, hpiece⟩ := List.mem_map.mp h
    cases hpiece
  · obtain ⟨d, hd, hcall⟩ := List.mem_map.mp h
    obtain rfl := Event.called.inj hcall
    exact x.inRange d hd

theorem not_called_of_sent {chunks : List Bytes} {c : Call} :
    Event.called c ∉ chunks.map Event.sent := by
  intro h
  obtain ⟨chunk, _, hchunk⟩ := List.mem_map.mp h
  cases hchunk

/-- Every call of a transcript is in range. -/
theorem Transcript.inRange {T : Transcript} {c : Call} (h : .called c ∈ T.events) :
    c.InRange := by
  rcases List.mem_append.mp h with h | h
  · rcases List.mem_append.mp h with h | h
    · exact absurd h (T.opening.quiet c)
    · obtain ⟨x, _, h⟩ := List.mem_flatMap.mp h
      rcases List.mem_append.mp h with h | h
      · exact x.inRange_of_mem h
      · exact absurd h not_called_of_sent
  · cases hending : T.ending with
    | nothing =>
      rw [hending] at h
      exact absurd h List.not_mem_nil
    | header header =>
      rw [hending] at h
      cases List.mem_singleton.mp h
    | broken x whole part =>
      rw [hending] at h
      rcases List.mem_append.mp h with h | h
      · rcases List.mem_append.mp h with h | h
        · exact x.inRange_of_mem h
        · exact absurd h not_called_of_sent
      · cases List.mem_singleton.mp h

theorem Exchange.called_mem {x : Exchange} {c : Call} (h : c ∈ x.calls) : .called c ∈ x.asked :=
  List.mem_append_right _ (List.mem_map_of_mem h)

/-- A flush that was answered covers the writes answered before it. -/
theorem Transcript.durable (T : Transcript) : T.Durable T.events := by
  intro before x after hsplit herrno hdurable
  obtain ⟨calls, size, hcalls⟩ := x.flushed herrno hdurable
  let earlier := T.opening.events ++ before.flatMap Exchange.events ++
    (x.request.pieces.map .took ++ calls.map .called)
  refine ⟨earlier, size, after.flatMap Exchange.events ++ T.ending.events, ?_, ?_⟩
  · rw [events, hsplit, List.flatMap_append, List.flatMap_cons, Exchange.events, Exchange.asked,
      hcalls]
    simp [earlier]
  · intro w hw hok hwrite
    obtain ⟨c, hc, hop⟩ := w.written hok hwrite
    refine ⟨c, hc, hop, ?_⟩
    rcases List.mem_append.mp hw with hw | hw
    · have hevent : .called c ∈ before.flatMap Exchange.events :=
        List.mem_flatMap.mpr ⟨w, hw, List.mem_append_left _ (w.called_mem hc)⟩
      exact List.mem_append_left _ (List.mem_append_right _ hevent)
    · obtain rfl := List.mem_singleton.mp hw
      refine List.mem_append_right _ (List.mem_append_right _ (List.mem_map_of_mem ?_))
      rw [hcalls] at hc
      rcases List.mem_append.mp hc with hc | hc
      · exact hc
      · obtain rfl := List.mem_singleton.mp hc
        cases hop

/-- Every connection has a transcript, whatever the client sends, wherever the stream is cut and
whatever the disk answers. -/
theorem serve_transcribed (D : Disk σ) (disk : σ) (input : Bytes) (spare : ℕ) :
    (serve (input.length + 1 + spare)).Keeps (contract D) (fun r t =>
      r ≠ .error .panic ∧ r ≠ .error .exhausted ∧
      ∃ T : Transcript, t.log = T.events ∧ input = T.pieces.flatten ++ t.input ∧
        T.Explains r t.input ∧ (∀ c, .called c ∈ t.log → c.InRange) ∧ T.Durable t.log)
      ⟨input, disk, []⟩ := by
  set start : Conn σ := ⟨input, disk, []⟩ with hstart
  -- a transcript of the log is all that is left to find
  have hall : ∀ {r : Except Fault Unit} {t : Conn σ} (T : Transcript), start.Went t T.events →
      T.Explains r t.input → ∃ T : Transcript, t.log = T.events ∧
        input = T.pieces.flatten ++ t.input ∧ T.Explains r t.input ∧
        (∀ c, .called c ∈ t.log → c.InRange) ∧ T.Durable t.log := by
    rintro r t T ⟨hlog, hinput⟩ hexplains
    replace hlog : t.log = T.events := hlog
    rw [T.took_events] at hinput
    exact ⟨T, hlog, hinput, hexplains, fun c hc => T.inRange (hlog ▸ hc), hlog ▸ T.durable⟩
  have hclosed : ∀ {r : Except Fault Unit} {t : Conn σ} {o : Opening}, start.Went t o.events →
      (o.EndsWith .aborted ∧ r = .ok () ∨ ∃ e, r = .error e ∧ o.Fails e t.input) →
      start.Went t (Transcript.events ⟨o, [], .nothing⟩) ∧
        Transcript.Explains ⟨o, [], .nothing⟩ r t.input := by
    intro r t o hwent hr
    refine ⟨?_, .inr ⟨rfl, rfl, hr⟩⟩
    simpa [Transcript.events, Ending.events] using hwent
  have hserve : (serve (input.length + 1 + spare)).Yields (contract D)
      (fun _ t => ∃ T : Transcript, start.Went t T.events ∧ T.Explains (.ok ()) t.input)
      (fun e t => e.Ordinary ∧
        ∃ T : Transcript, start.Went t T.events ∧ T.Explains (.error e) t.input) start := by
    refine yields_bind (Q := fun n t => t = start) (yields_perform trivial fun _ _ h => h.2) ?_
    rintro size _ rfl
    refine yields_bind ((handshake_yields size).mono (fun _ _ h => h) ?_) ?_
    · rintro e t ⟨he, o, hfails, ht⟩
      exact ⟨he, _, hclosed ht (.inr ⟨e, rfl, hfails⟩)⟩
    rintro opened t ⟨o, hends, ht⟩
    cases opened with
    | false => exact yields_pure ⟨_, hclosed ht (.inl ⟨hends, rfl⟩)⟩
    | true =>
      have hshorter : t.input.length ≤ input.length := by
        have hinput : input = (took o.events).flatten ++ t.input := ht.2
        rw [hinput, List.length_append]
        omega
      have hgiven : ∀ {r u}, t.Answered u r →
          ∃ T : Transcript, start.Went u T.events ∧ T.Explains r u.input := by
        rintro r u ⟨xs, ending, hu, hexplains⟩
        refine ⟨⟨o, xs, ending⟩, ?_, .inl ⟨hends, hexplains⟩⟩
        have hboth := ht.trans hu
        rwa [← List.append_assoc] at hboth
      refine (requests_yields (by omega)).mono (fun _ u hu => hgiven hu) ?_
      exact fun e u hu => ⟨hu.1, hgiven hu.2⟩
  refine hserve.keeps ?_ ?_
  · rintro _ t ⟨T, hwent, hexplains⟩
    refine ⟨?_, ?_, hall T hwent hexplains⟩ <;>
    · intro h
      cases h
  · rintro e t ⟨he, T, hwent, hexplains⟩
    refine ⟨fun h => ?_, fun h => ?_, hall T hwent hexplains⟩
    · obtain rfl := Except.error.inj h
      rcases he with he | he | he <;> cases he
    · obtain rfl := Except.error.inj h
      rcases he with he | he | he <;> cases he

theorem Conn.length_take {s : Conn σ} {n : ℕ} (h : n ≤ s.input.length) :
    (s.input.take n).length = n := List.length_take_of_le h

/-- A client that takes every byte. -/
def patient (D : Disk σ) : {β : Type} → Action β → Conn σ → β × Conn σ
  | _, .readExact n, s =>
      if h : n ≤ s.input.length then
        (.ok ⟨s.input.take n, s.length_take h⟩,
          { s with input := s.input.drop n }.noted (.took (s.input.take n)))
      else (.error .unexpectedEof, s)
  | _, .writeAll bytes, s => (.ok (), s.noted (.sent bytes))
  | _, .flushStream, s => (.ok (), s)
  | _, .size, s => (D.size s.disk, s)
  | _, .read offset n, s =>
      let r := D.read s.disk offset n
      (r.1, { s with disk := r.2 }.noted
        (.called ⟨D.size s.disk, .read offset n, r.1.isOk, filledBy r.1⟩))
  | _, .write offset data, s =>
      let r := D.write s.disk offset data
      (r.1, { s with disk := r.2 }.noted
        (.called ⟨D.size s.disk, .write offset data, r.1.isOk, []⟩))
  | _, .flush, s =>
      let r := D.flush s.disk
      (r.1, { s with disk := r.2 }.noted (.called ⟨D.size s.disk, .flush, r.1.isOk, []⟩))

/-- The patient peer is one of the contract. -/
theorem patient_does (D : Disk σ) {β : Type} (a : Action β) (s : Conn σ) :
    (contract D).does a s (patient D a s).1 (patient D a s).2 := by
  cases a with
  | readExact n =>
    by_cases h : n ≤ s.input.length
    · rw [patient, dif_pos h]
      exact .inl ⟨h, rfl, rfl⟩
    · rw [patient, dif_neg h]
      exact .inr ⟨not_le.mp h, rfl, rfl⟩
  | writeAll bytes => exact .inl ⟨rfl, rfl⟩
  | flushStream => exact .inl ⟨rfl, rfl⟩
  | size => exact ⟨rfl, rfl⟩
  | read offset n => exact ⟨rfl, rfl⟩
  | write offset data => exact ⟨rfl, rfl⟩
  | flush => exact ⟨rfl, rfl⟩

/-- A disk of 1 GiB that always succeeds. -/
def blank : Disk Unit where
  size _ := 2 ^ 30
  size_lt _ := by decide
  read _ _ n := (.ok ⟨List.replicate n 0, List.length_replicate⟩, ())
  write _ _ _ := (.ok (), ())
  flush _ := (.ok (), ())

/-- A read of 33 MiB at offset 0. -/
def longRead : Header :=
  ⟨beBytes 4 0x25609513 ++ beBytes 2 0 ++ beBytes 2 0 ++ beBytes 8 7 ++ beBytes 8 0 ++
    beBytes 4 (33 * 1024 * 1024), by decide⟩

/-- A client that opens the export by name and sends the long read. -/
def longReader : Bytes :=
  beBytes 4 3 ++ (beBytes 8 optMagic ++ beBytes 4 1 ++ beBytes 4 0) ++ longRead.val

/-- What the server does before it reads the request. -/
def longReaderGreeted : List Event :=
  [.sent (beBytes 8 0x4e42444d41474943), .sent (beBytes 8 optMagic), .sent (beBytes 2 3),
    .took (beBytes 4 3), .took (beBytes 8 optMagic ++ beBytes 4 1 ++ beBytes 4 0), .took [],
    .sent (beBytes 8 (2 ^ 30)), .sent (beBytes 2 exportFlags)]

/-- A request that is longer than `MAX_REQUEST` gets no answer, although it lies within the disk
and the client takes every byte: the connection ends with the header. -/
theorem serve_longRead : ∃ t : Conn Unit,
    (serve (longReader.length + 1)).Returns (contract blank) ⟨longReader, (), []⟩
      (.error .invalid) t ∧
    t.log = longReaderGreeted ++ [.took longRead.val] ∧ (∀ part, .lost part ∉ t.log) ∧
    longRead.magic = 0x25609513 ∧ longRead.command = 0 ∧ longRead.flags = 0 ∧
    0 < longRead.length ∧ 512 ∣ longRead.offset ∧ 512 ∣ longRead.length ∧
    longRead.offset + longRead.length ≤ blank.size () := by
  have hend : Prog.run (patient blank) (serve (longReader.length + 1)) ⟨longReader, (), []⟩ =
      (.error .invalid, ⟨[], (), longReaderGreeted ++ [.took longRead.val]⟩) := by rfl
  have hrun := returns_run (p := serve (longReader.length + 1)) (s := ⟨longReader, (), []⟩)
    (patient_does blank)
  rw [hend] at hrun
  refine ⟨_, hrun, rfl, fun part hpart => ?_, by decide⟩
  simp [longReaderGreeted] at hpart

end AgentHouse.Nbd
