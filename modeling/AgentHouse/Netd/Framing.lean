import AgentHouse.Netd.Link

/-!
# Frames over the link

However reads and writes are cut, however full the queues are and whatever the buckets allow, the
frames taken off are those that the guest sent, and what is written is what was queued. The timer
of a partial frame is another matter: it also runs while a complete frame waits behind a full
queue. It is right if it runs out only where the guest had sent no more.
-/

namespace AgentHouse.Netd

/-- The phases that no step enters without a reason. -/
def Phase.Plain : Phase → Prop
  | .ended .frameSize => False
  | .ended .partialFrame => False
  | _ => True

namespace Link

variable {s s' : Link} {t d : ℕ}

/-! ## What is to hold -/

/-- What has been read. -/
def streamRead (s : Link) : List UInt8 := (s.stream.take s.taken).map (·.1)

/-- The bytes of the frames that were handed on. -/
def position (s : Link) : ℕ := (linkFormat.encode s.history.handed).length

/-- What the guest has sent up to a time. -/
def sentBy (s : Link) (t : ℕ) : List UInt8 :=
  (s.stream.filter fun b => decide (b.2 ≤ t)).map (·.1)

/-- What the guest had sent before a moment. -/
def sentBefore (s : Link) (t : ℕ) : List UInt8 :=
  (s.stream.filter fun b => decide (b.2 < t)).map (·.1)

/-- The frames that were handed on and those that are buffered are the frames that were read, and
the bytes that were written and those that wait are the frames that were queued. -/
structure Framing (s : Link) : Prop where
  handed : s.history.handed ++ linkFormat.frames s.incoming = linkFormat.frames s.streamRead
  complete : linkFormat.buffered s.incoming = false →
    s.history.handed = linkFormat.frames s.streamRead
  consumed : linkFormat.encode s.history.handed ++ s.incoming = s.streamRead
  written : s.history.written ++ s.tx.flatten.drop s.writeOffset = s.history.pushed.flatten

/-- A frame was begun, and more than five seconds later the guest had not sent the rest of it. -/
def Overdue (s : Link) : Prop :=
  ∃ start t, start + partialTimeout < t ∧ t ≤ s.now ∧ s.position < (s.sentBy start).length ∧
    linkFormat.buffered ((s.sentBefore t).drop s.position) = false

/-- If `serve` ends over the size of a frame, a length was out of bounds, and if it ends over a
partial frame, the frame is overdue. All other ends are a closed stream and errors of sockets. -/
structure Justified (s : Link) : Prop where
  frameSize : s.phase = .ended .frameSize → 4 ≤ (s.streamRead.drop s.position).length ∧
    ¬ linkFormat.Allowed (linkFormat.size (s.streamRead.drop s.position))
  partialFrame : s.phase = .ended .partialFrame → s.Overdue

/-- Nothing is left to take off, and the reads of the round found the socket empty when the time
of the partial frame had passed. -/
def Exhausted (s : Link) : Prop :=
  linkFormat.buffered s.incoming = false ∧ ∃ t d, s.frameStarted = some t ∧
    s.history.emptied = some d ∧ t + partialTimeout < d

/-- The timer runs out only where the guest has sent no more. -/
def Prompt (s : Link) (a : Act) : Prop :=
  a = .goOn → s.phase = .checking → s.late = true → s.Exhausted

/-! ## What a step does -/

/-- What a step changes of what was read, taken off, queued and written. -/
inductive Effect (s : Link) (a : Act) : Link → Prop
  | quiet (rx : List Frame) (ingress egress : Bucket) (phase : Phase) (h : phase.Plain) :
      Effect s a { s with rx, ingress, egress, phase }
  | tick (d : ℕ) : Effect s a { s with now := s.now + d }
  | send (bytes : List UInt8) : Effect s a { s with stream := s.stream ++ bytes.map (·, s.now) }
  | drain (n : ℕ) : Effect s a { s with room := s.room + n }
  | fed (n left : ℕ) (ingress : Bucket) (hpos : 0 < n) (hle : n ≤ s.unread.length) :
      Effect s a ((s.fed n ingress).goto (.reading left))
  | emptied (ingress : Bucket) (h : s.unread = []) :
      Effect s a { s with
        ingress
        phase := .parsing 64
        history := { s.history with emptied := some s.now } }
  | took (left : ℕ) (hallowed : linkFormat.Allowed (linkFormat.size s.incoming))
      (hbuffered : linkFormat.buffered s.incoming = true) :
      Effect s a (s.took (linkFormat.size s.incoming) left)
  | badSize (hlength : 4 ≤ s.incoming.length)
      (h : ¬ linkFormat.Allowed (linkFormat.size s.incoming)) :
      Effect s a (s.goto (.ended .frameSize))
  | timeout (ha : a = .goOn) (hphase : s.phase = .checking) (h : s.late = true) :
      Effect s a (s.goto (.ended .partialFrame))
  | push (frame : Frame) (phase : Phase) (h : phase.Plain) : Effect s a ((s.push frame).goto phase)
  | wrote (n left : ℕ) (egress : Bucket) (hne : s.tx ≠ []) (hle : n ≤ s.remaining.length) :
      Effect s a ((s.wrote n egress).goto (.writing left))
  | polled : Effect s a { s with
      phase := .reading 16, history := { s.history with emptied := none } }

/-- A change of the phase alone. -/
theorem goto_effect {a : Act} {p : Phase} (h : p.Plain) : Effect s a (s.goto p) :=
  .quiet s.rx s.ingress s.egress p h

theorem enqueueEcho_effect {a : Act} {p : Phase} (reply : Frame) (h : p.Plain) :
    Effect s a ((s.enqueueEcho reply).goto p) := by
  unfold enqueueEcho
  split_ifs
  · exact .push reply p h
  · exact goto_effect h

/-- What each action does: a read. -/
theorem read_effect {a : Act} {left : ℕ} {r : ReadResult} (h : s.read left r = some s') :
    Effect s a s' := by
  unfold read at h
  simp only at h
  by_cases hstop : maxFrame + 4 ≤ s.incoming.length ∨ s.readLimit.1 = 0
  · rw [if_pos hstop] at h
    cases h
  rw [if_neg hstop] at h
  cases r with
  | closed =>
    simp only at h
    split_ifs at h
    obtain rfl := Option.some.inj h
    exact .quiet s.rx s.readLimit.2 s.egress _ trivial
  | bytes n =>
    simp only at h
    split_ifs at h with hn
    obtain rfl := Option.some.inj h
    exact .fed n left s.readLimit.2 hn.1 hn.2.2
  | wouldBlock =>
    simp only at h
    split_ifs at h with hempty
    obtain rfl := Option.some.inj h
    exact .emptied s.readLimit.2 hempty
  | failed =>
    obtain rfl := Option.some.inj h
    exact .quiet s.rx s.readLimit.2 s.egress _ trivial

/-- A write. -/
theorem write_effect {a : Act} {left : ℕ} {r : WriteResult} (h : s.write left r = some s') :
    Effect s a s' := by
  unfold write at h
  simp only at h
  by_cases hstop : s.tx = [] ∨ s.writeLimit.1 = 0
  · rw [if_pos hstop] at h
    cases h
  rw [if_neg hstop] at h
  cases r with
  | zero =>
    obtain rfl := Option.some.inj h
    exact .quiet s.rx s.ingress s.writeLimit.2 _ trivial
  | bytes n =>
    simp only at h
    split_ifs at h with hn
    obtain rfl := Option.some.inj h
    exact .wrote n left s.writeLimit.2 (fun hnil => hstop (.inl hnil))
      (hn.2.1.trans (min_le_right _ _))
  | wouldBlock =>
    simp only at h
    split_ifs at h
    obtain rfl := Option.some.inj h
    exact .quiet s.rx s.ingress s.writeLimit.2 _ trivial
  | failed =>
    obtain rfl := Option.some.inj h
    exact .quiet s.rx s.ingress s.writeLimit.2 _ trivial

/-- The parse of one frame. -/
theorem parse_effect {a : Act} (left : ℕ) : Effect s a (s.parse left) := by
  unfold parse
  by_cases hstop : s.incoming.length < 4 ∨ 64 ≤ s.rx.length
  · rw [if_pos hstop]
    exact goto_effect trivial
  have hlength : 4 ≤ s.incoming.length := by omega
  rw [if_neg hstop]
  simp only
  by_cases hallowed : 14 ≤ ofBe (s.incoming.take 4) ∧ ofBe (s.incoming.take 4) ≤ maxFrame
  · rw [if_neg (not_not.mpr hallowed)]
    by_cases hshort : s.incoming.length < ofBe (s.incoming.take 4) + 4
    · rw [if_pos hshort]
      exact goto_effect trivial
    · rw [if_neg hshort]
      refine .took left hallowed (Bool.and_eq_true_iff.mpr ⟨decide_eq_true hlength, ?_⟩)
      have hle : 4 + ofBe (s.incoming.take 4) ≤ s.incoming.length := by omega
      exact decide_eq_true hle
  · rw [if_pos hallowed]
    exact .badSize hlength hallowed

/-- The end of a pass. -/
theorem goOn_effect (h : s.goOn = some s') : Effect s .goOn s' := by
  unfold goOn at h
  cases hphase : s.phase with
  | reading left =>
    simp only [hphase, stopReading] at h
    cases left with
    | zero =>
      obtain rfl := Option.some.inj h
      exact goto_effect trivial
    | succ left =>
      simp only at h
      split_ifs at h
      · obtain rfl := Option.some.inj h
        exact goto_effect trivial
      · obtain rfl := Option.some.inj h
        exact .quiet s.rx s.readLimit.2 s.egress _ trivial
  | parsing left =>
    cases left with
    | zero =>
      simp only [hphase] at h
      obtain rfl := Option.some.inj h
      exact goto_effect trivial
    | succ left =>
      simp only [hphase] at h
      obtain rfl := Option.some.inj h
      exact parse_effect left
  | validating left frame =>
    simp only [hphase] at h
    cases h
  | polling left =>
    simp only [hphase] at h
    obtain rfl := Option.some.inj h
    exact goto_effect trivial
  | checking =>
    simp only [hphase] at h
    obtain rfl := Option.some.inj h
    by_cases hlate : s.late = true
    · rw [if_pos hlate]
      exact .timeout rfl hphase hlate
    · rw [if_neg hlate]
      exact goto_effect trivial
  | relaying =>
    simp only [hphase] at h
    obtain rfl := Option.some.inj h
    exact goto_effect trivial
  | writing left =>
    simp only [hphase, stopWriting] at h
    cases left with
    | zero =>
      obtain rfl := Option.some.inj h
      exact goto_effect trivial
    | succ left =>
      simp only at h
      split_ifs at h
      · obtain rfl := Option.some.inj h
        exact goto_effect trivial
      · obtain rfl := Option.some.inj h
        exact .quiet s.rx s.ingress s.writeLimit.2 _ trivial
  | waiting =>
    simp only [hphase] at h
    cases h
  | ended e =>
    simp only [hphase] at h
    cases h

/-- The verdict on a frame. -/
theorem verdict_effect {a : Act} {v : Verdict} (h : s.verdict v = some s') : Effect s a s' := by
  unfold verdict at h
  cases hphase : s.phase with
  | validating left frame =>
    simp only [hphase] at h
    cases v with
    | dropped =>
      obtain rfl := Option.some.inj h
      exact goto_effect trivial
    | echo reply =>
      obtain rfl := Option.some.inj h
      cases reply with
      | none => exact goto_effect trivial
      | some reply => exact enqueueEcho_effect reply trivial
    | queued =>
      obtain rfl := Option.some.inj h
      exact .quiet (s.rx ++ [frame]) s.ingress s.egress _ trivial
  | _ =>
    simp only [hphase] at h
    cases h

theorem plain_of_inStack (h : s.inStack = true) : s.phase.Plain := by
  unfold inStack at h
  cases hphase : s.phase with
  | polling left => trivial
  | relaying => trivial
  | _ =>
    rw [hphase] at h
    cases h

/-- Every step has one of the effects. -/
theorem step_effect {a : Act} (h : s.step a = some s') : Effect s a s' := by
  cases a with
  | tick d =>
    obtain rfl := Option.some.inj h
    exact .tick d
  | send bytes =>
    obtain rfl := Option.some.inj h
    exact .send bytes
  | drain n =>
    obtain rfl := Option.some.inj h
    exact .drain n
  | goOn => exact goOn_effect h
  | read r =>
    unfold step at h
    simp only at h
    split at h
    · exact read_effect h
    · cases h
  | verdict v => exact verdict_effect h
  | receive =>
    unfold step at h
    simp only at h
    split_ifs at h with hstack
    split at h
    · cases h
    · obtain rfl := Option.some.inj h
      exact .quiet _ s.ingress s.egress s.phase (plain_of_inStack hstack.1)
  | transmit frame =>
    unfold step at h
    simp only at h
    split_ifs at h with hstack
    obtain rfl := Option.some.inj h
    exact .push frame s.phase (plain_of_inStack hstack.1)
  | enqueueEcho reply =>
    unfold step at h
    simp only at h
    split at h
    · rename_i hphase
      obtain rfl := Option.some.inj h
      have heffect : Effect s (.enqueueEcho reply) ((s.enqueueEcho reply).goto .relaying) :=
        enqueueEcho_effect reply trivial
      have hsame : (s.enqueueEcho reply).goto .relaying = s.enqueueEcho reply := by
        unfold enqueueEcho
        split_ifs <;> rw [← hphase] <;> rfl
      rwa [hsame] at heffect
    · cases h
  | write r =>
    unfold step at h
    simp only at h
    split at h
    · exact write_effect h
    · cases h
  | ready ingress =>
    unfold step at h
    simp only at h
    split at h
    · rename_i hphase
      have hplain : s.phase.Plain := by rw [hphase]; trivial
      obtain rfl := Option.some.inj h
      cases ingress with
      | true => exact .quiet s.rx (s.ingress.ready s.now).2 s.egress s.phase hplain
      | false => exact .quiet s.rx s.ingress (s.egress.ready s.now).2 s.phase hplain
    · cases h
  | poll ok =>
    unfold step at h
    simp only at h
    split at h
    · split_ifs at h
      · obtain rfl := Option.some.inj h
        exact .polled
      · obtain rfl := Option.some.inj h
        exact goto_effect trivial
    · cases h

/-! ## What holds in every run -/

/-- The times of the bytes do not decrease, the counts agree with the history, and the two times
that are remembered say what had been sent. -/
structure Inv (s : Link) : Prop where
  times : ∀ b ∈ s.stream, b.2 ≤ s.now
  sorted : s.stream.Pairwise fun a b => a.2 ≤ b.2
  taken : s.taken ≤ s.stream.length
  allowed : ∀ f ∈ s.history.handed, linkFormat.Allowed f.length
  consumed : linkFormat.encode s.history.handed ++ s.incoming = s.streamRead
  started : ∀ t, s.frameStarted = some t → s.position < (s.sentBy t).length
  emptied : ∀ d, s.history.emptied = some d → d ≤ s.now ∧ (s.sentBefore d).length ≤ s.taken
  offset : s.writeOffset ≤ (s.tx.headD []).length
  written : s.history.written ++ s.tx.flatten.drop s.writeOffset = s.history.pushed.flatten

/-- The invariant holds at the start. -/
theorem inv_init (limit : Option UInt64) (now room : ℕ) : (init limit now room).Inv where
  times _ hb := absurd hb List.not_mem_nil
  sorted := .nil
  taken := le_rfl
  allowed _ hf := absurd hf List.not_mem_nil
  consumed := rfl
  started _ ht := by cases ht
  emptied _ hd := by cases hd
  offset := le_rfl
  written := rfl

/-- All that was sent was sent by now. -/
theorem Inv.length_sentBy (h : s.Inv) : (s.sentBy s.now).length = s.stream.length := by
  unfold sentBy
  rw [List.length_map, List.filter_eq_self.mpr fun b hb => decide_eq_true (h.times b hb)]

theorem Inv.length_streamRead (h : s.Inv) : s.streamRead.length = s.taken := by
  unfold streamRead
  rw [List.length_map, List.length_take_of_le h.taken]

/-- What was read begins with the frames that were taken off. -/
theorem Inv.drop_position (h : s.Inv) : s.streamRead.drop s.position = s.incoming := by
  rw [← h.consumed, position, List.drop_left]

/-- The position and what is held make up what was taken. -/
theorem Inv.position_le (h : s.Inv) : s.position + s.incoming.length = s.taken := by
  rw [← h.length_streamRead, ← h.consumed, List.length_append]
  rfl

/-- Time may pass. -/
theorem Inv.tick (h : s.Inv) (d : ℕ) : Inv { s with now := s.now + d } where
  times b hb := (h.times b hb).trans (Nat.le_add_right _ _)
  sorted := h.sorted
  taken := h.taken
  allowed := h.allowed
  consumed := h.consumed
  started := h.started
  emptied e he := ⟨(h.emptied e he).1.trans (Nat.le_add_right _ _), (h.emptied e he).2⟩
  offset := h.offset
  written := h.written

/-- What is sent now was not there before. -/
theorem sentBefore_send (bytes : List UInt8) (h : t ≤ s.now) :
    sentBefore { s with stream := s.stream ++ bytes.map (·, s.now) } t = s.sentBefore t := by
  unfold sentBefore
  have hnone : (bytes.map fun b => (b, s.now)).filter (fun b => decide (b.2 < t)) = [] := by
    rw [List.filter_eq_nil_iff]
    intro b hb
    obtain ⟨byte, -, rfl⟩ := List.mem_map.mp hb
    simpa using h
  rw [List.filter_append, hnone, List.append_nil]

theorem length_sentBy_send (bytes : List UInt8) (t : ℕ) : (s.sentBy t).length ≤
    (sentBy { s with stream := s.stream ++ bytes.map (·, s.now) } t).length := by
  unfold sentBy
  rw [List.filter_append, List.map_append, List.length_append]
  exact Nat.le_add_right _ _

theorem streamRead_send (bytes : List UInt8) (h : s.taken ≤ s.stream.length) :
    streamRead { s with stream := s.stream ++ bytes.map (·, s.now) } = s.streamRead := by
  unfold streamRead
  rw [List.take_append_of_le_length h]

/-- The guest may send. -/
theorem Inv.send (h : s.Inv) (bytes : List UInt8) :
    Inv { s with stream := s.stream ++ bytes.map (·, s.now) } where
  times b hb := by
    rcases List.mem_append.mp hb with hb | hb
    · exact h.times b hb
    · obtain ⟨byte, -, rfl⟩ := List.mem_map.mp hb
      exact le_rfl
  sorted := by
    refine List.pairwise_append.mpr ⟨h.sorted, ?_, fun a ha b hb => ?_⟩
    · exact List.pairwise_map.mpr (List.pairwise_of_forall fun _ _ => le_rfl)
    · obtain ⟨byte, -, rfl⟩ := List.mem_map.mp hb
      exact h.times a ha
  taken := h.taken.trans (by rw [List.length_append]; exact Nat.le_add_right _ _)
  allowed := h.allowed
  consumed := by rw [streamRead_send bytes h.taken]; exact h.consumed
  started t ht := (h.started t ht).trans_le (length_sentBy_send bytes t)
  emptied d hd := by
    rw [sentBefore_send bytes (h.emptied d hd).1]
    exact h.emptied d hd
  offset := h.offset
  written := h.written

/-- Bytes may be taken. -/
theorem Inv.fed (h : s.Inv) {n : ℕ} {ingress : Bucket} (hpos : 0 < n) (hle : n ≤ s.unread.length) :
    (s.fed n ingress).Inv where
  times := h.times
  sorted := h.sorted
  taken := by
    have htaken := h.taken
    rw [unread, List.length_drop] at hle
    show s.taken + n ≤ s.stream.length
    omega
  allowed := h.allowed
  consumed := by
    show linkFormat.encode s.history.handed ++ (s.incoming ++ (s.unread.take n).map (·.1)) =
      (s.stream.take (s.taken + n)).map (·.1)
    rw [← List.append_assoc, h.consumed, List.take_add, List.map_append]
    rfl
  started t ht := by
    have hstarted : (if s.incoming = [] then some s.now else s.frameStarted) = some t := ht
    by_cases hempty : s.incoming = []
    · rw [if_pos hempty] at hstarted
      obtain rfl := Option.some.inj hstarted
      have hposition := h.position_le
      rw [hempty, List.length_nil, Nat.add_zero] at hposition
      rw [unread, List.length_drop] at hle
      show s.position < (s.sentBy s.now).length
      rw [h.length_sentBy]
      omega
    · rw [if_neg hempty] at hstarted
      exact h.started t hstarted
  emptied d hd := ⟨(h.emptied d hd).1, (h.emptied d hd).2.trans (Nat.le_add_right _ _)⟩
  offset := h.offset
  written := h.written

/-- The stream may be found empty. -/
theorem Inv.reads_empty (h : s.Inv) (hempty : s.unread = []) :
    Inv { s with history := { s.history with emptied := some s.now } } where
  times := h.times
  sorted := h.sorted
  taken := h.taken
  allowed := h.allowed
  consumed := h.consumed
  started := h.started
  emptied d hd := by
    obtain rfl := Option.some.inj hd
    refine ⟨le_rfl, ?_⟩
    have hall : s.stream.length ≤ s.taken := List.drop_eq_nil_iff.mp hempty
    unfold sentBefore
    rw [List.length_map]
    exact (List.length_filter_le _ _).trans hall
  offset := h.offset
  written := h.written

/-- A frame may be handed over. -/
theorem Inv.took (h : s.Inv) (left : ℕ) (hallowed : linkFormat.Allowed (linkFormat.size s.incoming))
    (hbuffered : linkFormat.buffered s.incoming = true) :
    (s.took (linkFormat.size s.incoming) left).Inv := by
  obtain ⟨n, hn⟩ : ∃ n, n = linkFormat.size s.incoming := ⟨_, rfl⟩
  have hframe : (s.incoming.take (n + 4)).drop 4 = (s.incoming.drop 4).take n := by
    rw [List.drop_take, Nat.add_sub_cancel]
  have hfront : linkFormat.prefixed ((s.incoming.take (n + 4)).drop 4) =
      s.incoming.take (n + 4) := by
    rw [hframe, hn, Nat.add_comm _ 4]
    exact Format.prefixed_take hbuffered
  have hencode : linkFormat.encode (s.history.handed ++ [(s.incoming.take (n + 4)).drop 4]) ++
      s.incoming.drop (n + 4) = s.streamRead := by
    rw [Format.encode_append, Format.encode_cons, Format.encode_nil, List.append_nil, hfront,
      List.append_assoc, List.take_append_drop, h.consumed]
  rw [← hn] at hallowed ⊢
  refine ⟨h.times, h.sorted, h.taken, fun f hf => ?_, hencode, fun t ht => ?_, h.emptied, h.offset,
    h.written⟩
  · rcases List.mem_append.mp hf with hf | hf
    · exact h.allowed f hf
    · obtain ⟨-, hle⟩ := Bool.and_eq_true_iff.mp hbuffered
      have hle : 4 + linkFormat.size s.incoming ≤ s.incoming.length := of_decide_eq_true hle
      have hlength : f.length = n := by
        rw [List.mem_singleton.mp hf, hframe, List.length_take, List.length_drop]
        omega
      rwa [hlength]
  · have hstarted : (if s.incoming.drop (n + 4) = [] then none else some s.now) = some t := ht
    split_ifs at hstarted with hrest
    obtain rfl := Option.some.inj hstarted
    have hlength := congrArg List.length hencode
    rw [List.length_append, h.length_streamRead] at hlength
    have hpos : 0 < (s.incoming.drop (n + 4)).length := List.length_pos_of_ne_nil hrest
    have htaken := h.taken
    show (linkFormat.encode (s.history.handed ++ [(s.incoming.take (n + 4)).drop 4])).length <
      (s.sentBy s.now).length
    rw [h.length_sentBy]
    omega

theorem length_headD_le (l : List (List UInt8)) : (l.headD []).length ≤ l.flatten.length := by
  cases l with
  | nil => exact le_rfl
  | cons front l =>
    rw [List.flatten_cons, List.length_append]
    exact Nat.le_add_right _ _

/-- A frame may be queued. -/
theorem Inv.push (h : s.Inv) (frame : Frame) : (s.push frame).Inv where
  times := h.times
  sorted := h.sorted
  taken := h.taken
  allowed := h.allowed
  consumed := h.consumed
  started := h.started
  emptied := h.emptied
  offset := by
    have hoffset := h.offset
    show s.writeOffset ≤ ((s.tx ++ [framed frame]).headD []).length
    cases htx : s.tx with
    | nil =>
      rw [htx] at hoffset
      exact hoffset.trans (Nat.zero_le _)
    | cons front tx =>
      rw [htx] at hoffset
      exact hoffset
  written := by
    show s.history.written ++ (s.tx ++ [framed frame]).flatten.drop s.writeOffset =
      (s.history.pushed ++ [framed frame]).flatten
    rw [List.flatten_append, List.flatten_append,
      List.drop_append_of_le_length (h.offset.trans (length_headD_le _)), ← List.append_assoc,
      h.written]

/-- Bytes may be written. -/
theorem Inv.wrote (h : s.Inv) {n : ℕ} {egress : Bucket} (hne : s.tx ≠ [])
    (hle : n ≤ s.remaining.length) : (s.wrote n egress).Inv := by
  obtain ⟨front, tx, htx⟩ := List.exists_cons_of_ne_nil hne
  have hoffset := h.offset
  have hwritten := h.written
  unfold remaining at hle
  rw [htx, List.headD_cons, List.length_drop] at hle
  rw [htx, List.headD_cons] at hoffset
  rw [htx, List.flatten_cons, List.drop_append_of_le_length hoffset] at hwritten
  unfold Link.wrote remaining
  simp only [htx, List.headD_cons, List.tail_cons]
  by_cases hdone : s.writeOffset + n = front.length
  · rw [if_pos hdone]
    refine ⟨h.times, h.sorted, h.taken, h.allowed, h.consumed, h.started, h.emptied,
      Nat.zero_le _, ?_⟩
    have hall : (front.drop s.writeOffset).length ≤ n := by
      rw [List.length_drop]
      omega
    show s.history.written ++ (front.drop s.writeOffset).take n ++ tx.flatten.drop 0 = _
    rw [List.take_of_length_le hall, List.drop_zero, List.append_assoc, hwritten]
  · rw [if_neg hdone]
    refine ⟨h.times, h.sorted, h.taken, h.allowed, h.consumed, h.started, h.emptied, ?_, ?_⟩
    · show s.writeOffset + n ≤ front.length
      omega
    · show s.history.written ++ (front.drop s.writeOffset).take n ++
        (front :: tx).flatten.drop (s.writeOffset + n) = _
      have hsplit : (front.drop s.writeOffset).take n ++ front.drop (s.writeOffset + n) =
          front.drop s.writeOffset := by
        rw [← List.drop_drop, List.take_append_drop]
      rw [List.flatten_cons, List.drop_append_of_le_length (by omega), List.append_assoc,
        ← List.append_assoc (List.take _ _), hsplit, hwritten]

/-- The queue of received frames, the buckets and the phase do not matter. -/
theorem Inv.quiet (h : s.Inv) (rx : List Frame) (ingress egress : Bucket) (phase : Phase) :
    Inv { s with rx, ingress, egress, phase } :=
  ⟨h.times, h.sorted, h.taken, h.allowed, h.consumed, h.started, h.emptied, h.offset, h.written⟩

/-- Nor does the room of the socket. -/
theorem Inv.drain (h : s.Inv) (n : ℕ) : Inv { s with room := s.room + n } :=
  ⟨h.times, h.sorted, h.taken, h.allowed, h.consumed, h.started, h.emptied, h.offset, h.written⟩

theorem Inv.goto (h : s.Inv) (phase : Phase) : (s.goto phase).Inv :=
  h.quiet s.rx s.ingress s.egress phase

theorem Inv.polled (h : s.Inv) :
    Inv { s with history := { s.history with emptied := none } } :=
  ⟨h.times, h.sorted, h.taken, h.allowed, h.consumed, h.started, fun _ hd => (by cases hd),
    h.offset,
    h.written⟩

/-- Every step keeps the invariant. -/
theorem Inv.step {a : Act} (h : s.Inv) (hs : s.step a = some s') : s'.Inv := by
  cases step_effect hs with
  | quiet rx ingress egress phase hplain => exact h.quiet rx ingress egress phase
  | tick d => exact h.tick d
  | send bytes => exact h.send bytes
  | drain n => exact h.drain n
  | fed n left ingress hpos hle => exact (h.fed hpos hle).goto _
  | emptied ingress hempty => exact (h.reads_empty hempty).quiet _ _ _ _
  | took left hallowed hbuffered => exact h.took left hallowed hbuffered
  | badSize hlength hsize => exact h.goto _
  | timeout ha hphase hlate => exact h.goto _
  | push frame phase hplain => exact (h.push frame).goto _
  | wrote n left egress hne hle => exact (h.wrote hne hle).goto _
  | polled => exact h.polled.goto _

/-- The invariant says that the frames are exact. -/
theorem Inv.framing (h : s.Inv) : s.Framing := by
  have hframes : s.history.handed ++ linkFormat.frames s.incoming =
      linkFormat.frames s.streamRead := by
    rw [← h.consumed, Format.frames_encode h.allowed]
  refine ⟨hframes, fun hshort => ?_, h.consumed, h.written⟩
  rw [← hframes, Format.frames_of_not_buffered hshort, List.append_nil]

/-! ## How a run ends -/

/-- The bytes sent before a time come first. -/
theorem filter_isPrefix {l : List (UInt8 × ℕ)} (h : l.Pairwise fun a b => a.2 ≤ b.2) (t : ℕ) :
    l.filter (fun b => decide (b.2 < t)) <+: l := by
  induction h with
  | nil => exact List.nil_prefix
  | @cons a l hfirst _ ih =>
    by_cases ha : a.2 < t
    · have hkept : (a :: l).filter (fun b => decide (b.2 < t)) =
          a :: l.filter (fun b => decide (b.2 < t)) := List.filter_cons_of_pos (decide_eq_true ha)
      rw [hkept]
      exact (List.prefix_cons_inj a).mpr ih
    · have hnone : (a :: l).filter (fun b => decide (b.2 < t)) = [] := by
        rw [List.filter_eq_nil_iff]
        intro b hb
        rw [decide_eq_true_eq, Nat.not_lt]
        rcases List.mem_cons.mp hb with rfl | hb
        · exact Nat.not_lt.mp ha
        · exact (Nat.not_lt.mp ha).trans (hfirst b hb)
      rw [hnone]
      exact List.nil_prefix

/-- What the guest had sent before a time at which the socket was empty has been read. -/
theorem Inv.sentBefore_isPrefix (h : s.Inv) (hd : s.history.emptied = some d) :
    s.sentBefore d <+: s.streamRead := by
  have hlength := (h.emptied d hd).2
  unfold sentBefore at hlength ⊢
  rw [List.length_map] at hlength
  refine List.IsPrefix.map _ (List.prefix_take_iff.mpr ⟨filter_isPrefix h.sorted d, hlength⟩)

/-- Where nothing is left to take off, the guest had not sent the rest of its frame. -/
theorem Exhausted.overdue (he : s.Exhausted) (h : s.Inv) : s.Overdue := by
  obtain ⟨hshort, t, d, hstarted, hemptied, hlate⟩ := he
  refine ⟨t, d, hlate, (h.emptied d hemptied).1, h.started t hstarted, ?_⟩
  have hpart : (s.sentBefore d).drop s.position <+: s.incoming := by
    rw [← h.drop_position]
    obtain ⟨later, hlater⟩ := h.sentBefore_isPrefix hemptied
    rw [← hlater, List.drop_append]
    exact List.prefix_append _ _
  obtain ⟨more, hmore⟩ := hpart
  by_contra hbuffered
  have hall := Format.buffered_append (t := more) (Bool.not_eq_false _ ▸ hbuffered)
  rw [hmore, hshort] at hall
  cases hall

/-- Outside its last phase a link needs no justification. -/
theorem justified_of_plain (h : s.phase.Plain) : s.Justified := by
  constructor
  · intro hphase
    rw [hphase] at h
    exact h.elim
  · intro hphase
    rw [hphase] at h
    exact h.elim

/-- Time and the guest go on, and an end stays justified. -/
theorem Justified.tick (hj : s.Justified) (d : ℕ) : Justified { s with now := s.now + d } := by
  refine ⟨hj.frameSize, fun hphase => ?_⟩
  obtain ⟨start, t, hlate, hnow, hbegun, hrest⟩ := hj.partialFrame hphase
  exact ⟨start, t, hlate, hnow.trans (Nat.le_add_right _ _), hbegun, hrest⟩

/-- More input does not take it away. -/
theorem Justified.send (hj : s.Justified) (h : s.Inv) (bytes : List UInt8) :
    Justified { s with stream := s.stream ++ bytes.map (·, s.now) } := by
  refine ⟨fun hphase => ?_, fun hphase => ?_⟩
  · rw [streamRead_send bytes h.taken]
    exact hj.frameSize hphase
  · obtain ⟨start, t, hlate, hnow, hbegun, hrest⟩ := hj.partialFrame hphase
    refine ⟨start, t, hlate, hnow, hbegun.trans_le (length_sentBy_send bytes start), ?_⟩
    rw [sentBefore_send bytes hnow]
    exact hrest

/-- A prompt step keeps a link justified. -/
theorem Justified.step {a : Act} (hj : s.Justified) (h : s.Inv) (hs : s.step a = some s')
    (hprompt : s.Prompt a) : s'.Justified := by
  cases step_effect hs with
  | quiet rx ingress egress phase hplain => exact justified_of_plain hplain
  | tick d => exact hj.tick d
  | send bytes => exact hj.send h bytes
  | drain n => exact ⟨hj.frameSize, hj.partialFrame⟩
  | fed n left ingress hpos hle => exact justified_of_plain trivial
  | emptied ingress hempty => exact justified_of_plain trivial
  | took left hallowed hbuffered => exact justified_of_plain trivial
  | badSize hlength hsize =>
    have hbad : 4 ≤ (s.streamRead.drop s.position).length ∧
        ¬ linkFormat.Allowed (linkFormat.size (s.streamRead.drop s.position)) := by
      rw [h.drop_position]
      exact ⟨hlength, hsize⟩
    exact ⟨fun _ => hbad, fun hp => absurd hp (by simp [Link.goto])⟩
  | timeout ha hphase hlate =>
    exact ⟨fun hp => absurd hp (by simp [Link.goto]), fun _ => (hprompt ha hphase hlate).overdue h⟩
  | push frame phase hplain => exact justified_of_plain hplain
  | wrote n left egress hne hle => exact justified_of_plain trivial
  | polled => exact justified_of_plain trivial

/-- The frames are those of the guest in every run, and a run whose timer is prompt ends with an
error only where it must. -/
theorem link_framing (limit : Option UInt64) (start room : ℕ) {acts : List Act}
    (h : Trace (fun s a s' => s.step a = some s') (init limit start room) acts s) :
    s.Framing ∧ (Trace (fun s a s' => s.step a = some s' ∧ s.Prompt a) (init limit start room) acts
      s → s.Justified) := by
  have hinv := inv_init limit start room
  refine ⟨(h.invariant hinv fun hi hs => hi.step hs).framing, fun hprompt => ?_⟩
  have hinit : (init limit start room).Justified := by
    apply justified_of_plain
    trivial
  have hboth : s.Inv ∧ s.Justified :=
    hprompt.invariant (I := fun s => s.Inv ∧ s.Justified) ⟨hinv, hinit⟩
      fun hi hs => ⟨hi.1.step hs.1, hi.2.step hi.1 hs.1 hs.2⟩
  exact hboth.2

/-! ## A complete frame behind a full queue -/

/-- An ARP request of the guest for the gateway. -/
def arpRequest : Frame :=
  [2, 0, 0, 0, 0, 1, 2, 0, 0, 0, 0, 2, 8, 6, 0, 1, 8, 0, 6, 4, 0, 1, 2, 0, 0, 0, 0, 2,
    100, 64, 0, 2, 0, 0, 0, 0, 0, 0, 100, 64, 0, 1]

/-- A frame of the guest: an ARP reply. -/
def arpReply : Frame :=
  [2, 0, 0, 0, 0, 2, 2, 0, 0, 0, 0, 1, 8, 6, 0, 1, 8, 0, 6, 4, 0, 2, 2, 0, 0, 0, 0, 1,
    100, 64, 0, 1, 2, 0, 0, 0, 0, 2, 100, 64, 0, 2]

/-- The first request of a guest is answered, in two parts since the socket is full at first. -/
def answered : List Act :=
  [.send (framed arpRequest), .read (.bytes 20), .tick 1000, .read (.bytes 26), .read .wouldBlock,
    .goOn, .verdict .queued, .receive, .transmit arpReply, .goOn, .goOn, .goOn, .goOn,
    .write (.bytes 40), .write .wouldBlock, .drain 40, .poll true, .read .wouldBlock, .goOn, .goOn,
    .goOn, .write (.bytes 6), .goOn]

theorem link_framing_answered : ∃ s, Framing s ∧ s.Justified ∧ s.history.handed = [arpRequest] ∧
    s.history.written = framed arpReply := by
  have hrun : ((answered.foldlM (fun (s : Link) a => if s.late then none else s.step a)
      (init none 0 40)).map fun s => (s.history.handed, s.history.written)) =
      some ([arpRequest], framed arpReply) := by
    decide
  obtain ⟨s, hs, hhistory⟩ := Option.map_eq_some_iff.mp hrun
  obtain ⟨hhanded, hwritten⟩ := Prod.mk.inj hhistory
  have hprompt : Trace (fun s a s' => s.step a = some s' ∧ s.Prompt a) (init none 0 40) answered
      s := by
    refine (Trace.of_foldlM hs).mono fun {_ _ _} ht => ?_
    split_ifs at ht with hlate
    exact ⟨ht, fun _ _ h => absurd h hlate⟩
  have hlink := link_framing none 0 40 (hprompt.mono fun ht => ht.1)
  exact ⟨s, hlink.1, hlink.2 hprompt, hhanded, hwritten⟩

/-- The link can get there. -/
def Leads (s s' : Link) : Prop := ∃ acts, Trace (fun s a s' => s.step a = some s') s acts s'

theorem Leads.refl : s.Leads s := ⟨[], .nil⟩

theorem Leads.cons {u : Link} (a : Act) (h : s.step a = some s') (h' : s'.Leads u) : s.Leads u := by
  obtain ⟨acts, htrace⟩ := h'
  exact ⟨a :: acts, .cons h htrace⟩

/-- Runs compose. -/
theorem Leads.trans {u : Link} (h : s.Leads s') (h' : s'.Leads u) : s.Leads u := by
  obtain ⟨acts, htrace⟩ := h
  obtain ⟨acts', htrace'⟩ := h'
  exact ⟨acts ++ acts', htrace.trans htrace'⟩

/-- The bytes of so many requests. -/
def requests (c : ℕ) : List UInt8 := linkFormat.encode (List.replicate c arpRequest)

/-- The guest has sent `c` requests at once or one after another, and they have been read. There are
`k` left to take off, `r` wait for the stack and `q` replies wait for the guest, whose socket takes
`room` bytes. -/
structure Held (s : Link) (c now k r q room : ℕ) (phase : Phase) : Prop where
  now : s.now = now
  stream : s.stream = (requests c).map (·, 0)
  taken : s.taken = s.stream.length
  incoming : s.incoming = requests k
  started : s.frameStarted = if k = 0 then none else some 0
  ingress : s.ingress.rate = none
  egress : s.egress.rate = none
  rx : s.rx.length = r
  tx : s.tx = List.replicate q (framed arpReply)
  offset : s.writeOffset = 0
  room : s.room = room
  phase : s.phase = phase

/-- The requests of the failing input. -/
theorem length_requests (k : ℕ) : (requests k).length = 46 * k := by
  induction k with
  | zero => rfl
  | succ k ih =>
    unfold requests at ih ⊢
    rw [List.replicate_succ, Format.encode_cons, List.length_append, ih, Format.length_prefixed]
    have hlength : linkFormat.width + arpRequest.length = 46 := rfl
    omega

theorem requests_add (c m : ℕ) : requests (c + m) = requests c ++ requests m := by
  unfold requests
  rw [List.replicate_add, Format.encode_append]

variable {c k r q n now room : ℕ} {p : Phase}

theorem allowed_arpRequest : linkFormat.Allowed arpRequest.length := by decide

theorem drop_requests : (requests (k + 1)).drop 46 = requests k := by
  have hlength : (linkFormat.prefixed arpRequest).length = 46 := rfl
  unfold requests
  rw [List.replicate_succ, Format.encode_cons, List.drop_left' hlength]

theorem writeLimit_eq (s : Link) : s.writeLimit =
    (min (s.egress.available s.now).1.toNat s.remaining.length, (s.egress.available s.now).2) :=
  rfl

theorem readLimit_eq (s : Link) : s.readLimit =
    (min (s.ingress.available s.now).1.toNat 16384, (s.ingress.available s.now).2) := rfl

theorem Held.readLimit (h : Held s c now k r q room p) : s.readLimit = (16384, s.ingress) := by
  rw [readLimit_eq, Bucket.available_none h.ingress]
  rfl

theorem Held.length_incoming (h : Held s c now k r q room p) : s.incoming.length = 46 * k := by
  rw [h.incoming, length_requests]

/-- There is nothing to read. -/
theorem Held.empties (h : Held s c now k r q room (.reading (n + 1))) (hk : k ≤ 129) :
    ∃ s', s.Leads s' ∧ Held s' c now k r q room (.parsing 64) := by
  have hunread : s.unread = [] := by rw [unread, h.taken, List.drop_length]
  have hgo : ¬ (maxFrame + 4 ≤ s.incoming.length ∨ (16384 : ℕ) = 0) := by
    rw [h.length_incoming]
    unfold maxFrame
    omega
  have hread : s.step (.read .wouldBlock) = some { s with
      phase := .parsing 64, history := { s.history with emptied := some s.now } } := by
    unfold step
    simp only [h.phase]
    rw [read, h.readLimit]
    simp only [if_neg hgo, if_pos hunread]
  exact ⟨_, .cons _ hread .refl, h.now, h.stream, h.taken, h.incoming, h.started, h.ingress,
    h.egress, h.rx, h.tx, h.offset, h.room, rfl⟩

/-- The guest sends requests, and they are read at once. -/
theorem Held.sends (m : ℕ) (h : Held s c 0 0 r q room (.reading 16)) (hpos : 0 < m)
    (hm : m ≤ 129) : ∃ s', s.Leads s' ∧ Held s' (c + m) 0 m r q room (.parsing 64) := by
  obtain ⟨t, ht⟩ : ∃ t : Link, t = { s with stream := s.stream ++ (requests m).map (·, s.now) } :=
    ⟨_, rfl⟩
  have hsend : s.step (.send (requests m)) = some t := by rw [ht]; rfl
  have hunread : t.unread = (requests m).map (·, 0) := by
    rw [ht]
    show (s.stream ++ (requests m).map (·, s.now)).drop s.taken = _
    rw [h.taken, List.drop_left, h.now]
  have hlimit : t.readLimit = (16384, s.ingress) := by
    rw [ht]
    exact h.readLimit
  have hempty : t.incoming = [] := by
    rw [ht]
    exact h.incoming
  have hphase : t.phase = .reading 16 := by
    rw [ht]
    exact h.phase
  have hread : t.step (.read (.bytes (46 * m))) =
      some ((t.fed (46 * m) s.ingress).goto (.reading 15)) := by
    have hgo : ¬ (maxFrame + 4 ≤ t.incoming.length ∨ (16384 : ℕ) = 0) := by
      rw [hempty]
      decide
    have hfits : 0 < 46 * m ∧ 46 * m ≤ 16384 ∧ 46 * m ≤ t.unread.length := by
      rw [hunread, List.length_map, length_requests]
      omega
    unfold step
    simp only [hphase]
    rw [read, hlimit]
    simp only [if_neg hgo, if_pos hfits]
  obtain ⟨u, hu⟩ : ∃ u, u = (t.fed (46 * m) s.ingress).goto (.reading 15) := ⟨_, rfl⟩
  rw [← hu] at hread
  have hheld : Held u (c + m) 0 m r q room (.reading 15) := by
    have hstream : t.stream = (requests (c + m)).map (·, 0) := by
      rw [ht, requests_add, List.map_append]
      show s.stream ++ (requests m).map (·, s.now) = _
      rw [h.stream, h.now]
    have hcount : t.taken + 46 * m = t.stream.length := by
      rw [hstream, List.length_map, length_requests, ht]
      show s.taken + 46 * m = _
      rw [h.taken, h.stream, List.length_map, length_requests]
      omega
    have hincoming : t.incoming ++ (t.unread.take (46 * m)).map (·.1) = requests m := by
      rw [hempty, hunread, List.take_of_length_le (by rw [List.length_map, length_requests]),
        List.map_map, List.nil_append]
      exact List.map_id _
    have hstarted : (if t.incoming = [] then some t.now else t.frameStarted) =
        if m = 0 then none else some 0 := by
      rw [if_pos hempty, if_neg (by omega), ht]
      exact congrArg some h.now
    have hrate : (s.ingress.consume (.ofNat (46 * m))).rate = none := by
      rw [Bucket.consume, h.ingress]
      exact h.ingress
    rw [hu]
    refine ⟨?_, hstream, hcount, hincoming, hstarted, hrate, ?_, ?_, ?_, ?_, ?_, rfl⟩ <;> rw [ht]
    · exact h.now
    · exact h.egress
    · exact h.rx
    · exact h.tx
    · exact h.offset
    · exact h.room
  obtain ⟨v, huv, hv⟩ := hheld.empties hm
  exact ⟨v, Leads.trans (.cons _ hsend (.cons _ hread .refl)) huv, hv⟩

/-- A request at the front is taken off if there is room for it. -/
theorem Held.took (h : Held s c 0 (k + 1) r q room (.parsing (n + 1))) (hroom : r < 64) :
    s.step .goOn = some (s.took 42 n) ∧
      Held (s.took 42 n) c 0 k r q room (.validating n ((s.incoming.take 46).drop 4)) := by
  have hlength := h.length_incoming
  have hsize : ofBe (s.incoming.take 4) = 42 := by
    have hfirst := Format.size_prefixed (t := requests k) allowed_arpRequest
    rw [h.incoming, requests, List.replicate_succ, Format.encode_cons]
    exact hfirst
  have hrest : s.incoming.drop 46 = requests k := by
    rw [h.incoming, drop_requests]
  constructor
  · have hfull : ¬ (s.incoming.length < 4 ∨ 64 ≤ s.rx.length) := by
      rw [h.rx]
      omega
    have hbounds : 14 ≤ 42 ∧ 42 ≤ maxFrame := by decide
    unfold step
    simp only [goOn, h.phase]
    rw [parse, if_neg hfull]
    simp only
    rw [hsize, if_neg (not_not.mpr hbounds), if_neg (by omega)]
  · refine ⟨h.now, h.stream, h.taken, hrest, ?_, h.ingress, h.egress, h.rx, h.tx, h.offset, h.room,
      rfl⟩
    show (if s.incoming.drop 46 = [] then none else some s.now) = if k = 0 then none else some 0
    have hiff : s.incoming.drop 46 = [] ↔ k = 0 := by
      rw [hrest, ← List.length_eq_zero_iff, length_requests]
      omega
    simp only [hiff, h.now]

/-- A request is answered while there is room for replies. -/
theorem Held.answer (h : Held s c 0 (k + 1) 0 q room (.parsing (n + 1))) (hroom : q < 64) :
    ∃ s', s.Leads s' ∧ Held s' c 0 k 0 (q + 1) room (.parsing n) := by
  obtain ⟨htook, ht⟩ := h.took (by decide)
  obtain ⟨t, hst⟩ : ∃ t, t = s.took 42 n := ⟨_, rfl⟩
  obtain ⟨frame, hframe⟩ : ∃ f, f = (s.incoming.take 46).drop 4 := ⟨_, rfl⟩
  rw [← hst] at htook ht
  rw [← hframe] at ht
  have hrx : t.rx = [] := List.length_eq_zero_iff.mp ht.rx
  have hlength : t.tx.length < 64 := by
    rw [ht.tx, List.length_replicate]
    exact hroom
  have hqueued : t.step (.verdict .queued) =
      some ({ t with rx := t.rx ++ [frame] }.goto (.polling n)) := by
    unfold step verdict
    simp only [ht.phase]
  have hreceive : ({ t with rx := t.rx ++ [frame] }.goto (.polling n)).step .receive =
      some (t.goto (.polling n)) := by
    unfold step
    simp only [goto, hrx, List.nil_append]
    rw [if_pos ⟨rfl, hlength⟩]
  have htransmit : (t.goto (.polling n)).step (.transmit arpReply) =
      some ((t.goto (.polling n)).push arpReply) := by
    unfold step
    exact if_pos ⟨rfl, hlength⟩
  refine ⟨((t.goto (.polling n)).push arpReply).goto (.parsing n), .cons .goOn htook
    (.cons _ hqueued (.cons _ hreceive (.cons _ htransmit (.cons .goOn rfl .refl)))), ?_⟩
  refine ⟨ht.now, ht.stream, ht.taken, ht.incoming, ht.started, ht.ingress, ht.egress, ht.rx, ?_,
    ht.offset, ht.room, rfl⟩
  show t.tx ++ [framed arpReply] = _
  rw [ht.tx, List.replicate_succ']

/-- A request stays in the queue while the replies fill theirs. -/
theorem Held.hold (h : Held s c 0 (k + 1) r q room (.parsing (n + 1))) (hroom : r < 64) :
    ∃ s', s.Leads s' ∧ Held s' c 0 k (r + 1) q room (.parsing n) := by
  obtain ⟨htook, ht⟩ := h.took hroom
  obtain ⟨t, hst⟩ : ∃ t, t = s.took 42 n := ⟨_, rfl⟩
  obtain ⟨frame, hframe⟩ : ∃ f, f = (s.incoming.take 46).drop 4 := ⟨_, rfl⟩
  rw [← hst] at htook ht
  rw [← hframe] at ht
  have hqueued : t.step (.verdict .queued) =
      some ({ t with rx := t.rx ++ [frame] }.goto (.polling n)) := by
    unfold step verdict
    simp only [ht.phase]
  refine ⟨{ t with rx := t.rx ++ [frame] }.goto (.parsing n), .cons .goOn htook
    (.cons _ hqueued (.cons .goOn rfl .refl)), ?_⟩
  refine ⟨ht.now, ht.stream, ht.taken, ht.incoming, ht.started, ht.ingress, ht.egress, ?_, ht.tx,
    ht.offset, ht.room, rfl⟩
  show (t.rx ++ [frame]).length = r + 1
  rw [List.length_append, ht.rx]
  rfl

/-- A run of requests that are answered. -/
theorem Held.answers (m : ℕ) (h : Held s c 0 (k + m) 0 q room (.parsing (n + m)))
    (hroom : q + m ≤ 64) : ∃ s', s.Leads s' ∧ Held s' c 0 k 0 (q + m) room (.parsing n) := by
  induction m generalizing s q with
  | zero => exact ⟨s, .refl, h⟩
  | succ m ih =>
    have hfirst : Held s c 0 (k + m + 1) 0 q room (.parsing (n + m + 1)) := h
    obtain ⟨t, hst, ht⟩ := hfirst.answer (by omega)
    obtain ⟨u, htu, hu⟩ := ih ht (by omega)
    refine ⟨u, hst.trans htu, ?_⟩
    rwa [Nat.add_assoc, Nat.add_comm 1 m] at hu

/-- And one of requests that are held back. -/
theorem Held.holds (m : ℕ) (h : Held s c 0 (k + m) r q room (.parsing (n + m)))
    (hroom : r + m ≤ 64) : ∃ s', s.Leads s' ∧ Held s' c 0 k (r + m) q room (.parsing n) := by
  induction m generalizing s r with
  | zero => exact ⟨s, .refl, h⟩
  | succ m ih =>
    have hfirst : Held s c 0 (k + m + 1) r q room (.parsing (n + m + 1)) := h
    obtain ⟨t, hst, ht⟩ := hfirst.hold (by omega)
    obtain ⟨u, htu, hu⟩ := ih ht (by omega)
    refine ⟨u, hst.trans htu, ?_⟩
    rwa [Nat.add_assoc, Nat.add_comm 1 m] at hu

/-- The timer is checked, and the writes begin. -/
theorem Held.relay (h : Held s c now k r q room .checking) (hnow : now ≤ partialTimeout) :
    ∃ s', s.Leads s' ∧ Held s' c now k r q room (.writing 64) := by
  have hlate : s.late = false := by
    rw [late, h.started, h.now]
    split_ifs
    · rfl
    · exact decide_eq_false (by omega)
  have hcheck : s.step .goOn = some (s.goto .relaying) := by
    unfold step
    simp only [goOn, h.phase]
    rw [hlate]
    rfl
  exact ⟨s.goto (.writing 64), .cons .goOn hcheck (.cons .goOn rfl .refl), h.now, h.stream, h.taken,
    h.incoming, h.started, h.ingress, h.egress, h.rx, h.tx, h.offset, h.room, rfl⟩

/-- A reply in front is written as a whole if the socket takes it. -/
theorem Held.writeLimit (h : Held s c now k r (q + 1) room p) :
    s.tx = framed arpReply :: List.replicate q (framed arpReply) ∧
      s.writeLimit = (46, s.egress) := by
  have htx : s.tx = framed arpReply :: List.replicate q (framed arpReply) := h.tx
  have hremaining : s.remaining.length = 46 := by
    rw [remaining, htx, h.offset]
    rfl
  refine ⟨htx, ?_⟩
  rw [writeLimit_eq, hremaining, Bucket.available_none h.egress]
  rfl

/-- A reply that is written. -/
theorem Held.writes (h : Held s c now k r (q + 1) (room + 46) (.writing (n + 1))) :
    ∃ s', s.Leads s' ∧ Held s' c now k r q room (.writing n) := by
  obtain ⟨htx, hlimit⟩ := h.writeLimit
  have hwrite : s.step (.write (.bytes 46)) = some ((s.wrote 46 s.egress).goto (.writing n)) := by
    have hne : ¬ (s.tx = [] ∨ (46 : ℕ) = 0) := by
      rw [htx]
      rintro (hnil | hzero)
      · cases hnil
      · cases hzero
    have hfits : 0 < 46 ∧ 46 ≤ 46 ∧ 46 ≤ s.room := by
      rw [h.room]
      omega
    unfold step
    simp only [h.phase]
    rw [write, hlimit]
    simp only [if_neg hne, if_pos hfits]
  have hdone : s.writeOffset + 46 = (s.tx.headD []).length := by
    rw [h.offset, htx]
    rfl
  have hrate : (s.egress.consume (.ofNat 46)).rate = none := by
    rw [Bucket.consume, h.egress]
    exact h.egress
  refine ⟨_, .cons _ hwrite .refl, ?_⟩
  rw [wrote, if_pos hdone]
  refine ⟨h.now, h.stream, h.taken, h.incoming, h.started, h.ingress, hrate, h.rx, ?_, rfl, ?_,
    rfl⟩
  · show s.tx.tail = _
    rw [htx, List.tail_cons]
  · show s.room - 46 = room
    rw [h.room, Nat.add_sub_cancel]

/-- A full socket ends the writes. -/
theorem Held.stall (h : Held s c now k r (q + 1) 0 (.writing (n + 1))) :
    ∃ s', s.Leads s' ∧ Held s' c now k r (q + 1) 0 .waiting := by
  obtain ⟨htx, hlimit⟩ := h.writeLimit
  have hwrite : s.step (.write .wouldBlock) = some (s.goto .waiting) := by
    have hne : ¬ (s.tx = [] ∨ (46 : ℕ) = 0) := by
      rw [htx]
      rintro (hnil | hzero)
      · cases hnil
      · cases hzero
    have hfull : s.room < 46 := by
      rw [h.room]
      decide
    unfold step
    simp only [h.phase]
    rw [write, hlimit]
    simp only [if_neg hne, if_pos hfull]
  exact ⟨s.goto .waiting, .cons _ hwrite .refl, h.now, h.stream, h.taken, h.incoming, h.started,
    h.ingress, h.egress, h.rx, h.tx, h.offset, h.room, rfl⟩

/-- The next round begins. -/
theorem Held.round (h : Held s c now k r q room .waiting) :
    ∃ s', s.Leads s' ∧ Held s' c now k r q room (.reading 16) := by
  have hpoll : s.step (.poll true) = some { s with
      phase := .reading 16, history := { s.history with emptied := none } } := by
    unfold step
    simp only [h.phase]
    rw [if_pos trivial]
  exact ⟨_, .cons _ hpoll .refl, h.now, h.stream, h.taken, h.incoming, h.started, h.ingress,
    h.egress, h.rx, h.tx, h.offset, h.room, rfl⟩

/-- With nothing to take off, or with the queue full, or after 64 frames, the parser stops. -/
theorem Held.stops (h : Held s c now k r q room (.parsing n)) (hstop : k = 0 ∨ r = 64 ∨ n = 0) :
    ∃ s', s.Leads s' ∧ Held s' c now k r q room .checking := by
  have hstep : s.step .goOn = some (s.goto .checking) := by
    unfold step
    cases n with
    | zero => simp only [goOn, h.phase]
    | succ n =>
      have hfull : s.incoming.length < 4 ∨ 64 ≤ s.rx.length := by
        rw [h.length_incoming, h.rx]
        omega
      simp only [goOn, h.phase]
      rw [parse, if_pos hfull]
  exact ⟨s.goto .checking, .cons .goOn hstep .refl, h.now, h.stream, h.taken, h.incoming, h.started,
    h.ingress, h.egress, h.rx, h.tx, h.offset, h.room, rfl⟩

theorem Held.tick (h : Held s c now k r q room .waiting) (d : ℕ) :
    ∃ s', s.Leads s' ∧ Held s' c (now + d) k r q room .waiting :=
  ⟨{ s with now := s.now + d }, .cons (.tick d) rfl .refl, congrArg (· + d) h.now, h.stream,
    h.taken, h.incoming, h.started, h.ingress, h.egress, h.rx, h.tx, h.offset, h.room, h.phase⟩

/-- A request is answered, and the socket takes the reply. -/
theorem Held.wave (h : Held s c 0 0 0 0 (room + 46) (.reading 16)) :
    ∃ s', s.Leads s' ∧ Held s' (c + 1) 0 0 0 0 room (.reading 16) := by
  obtain ⟨t₁, hst₁, h₁⟩ := h.sends 1 (by decide) (by decide)
  obtain ⟨t₂, hst₂, h₂⟩ := Held.answer (n := 63) h₁ (by decide)
  obtain ⟨t₃, hst₃, h₃⟩ := h₂.stops (.inl rfl)
  obtain ⟨t₄, hst₄, h₄⟩ := h₃.relay (Nat.zero_le _)
  obtain ⟨t₅, hst₅, h₅⟩ := Held.writes (n := 63) h₄
  have hdone : t₅.step .goOn = some (t₅.goto .waiting) := by
    unfold step
    simp only [goOn, stopWriting, h₅.phase, h₅.tx, List.replicate_zero, if_true]
  have h₆ : Held (t₅.goto .waiting) (c + 1) 0 0 0 0 room .waiting :=
    ⟨h₅.now, h₅.stream, h₅.taken, h₅.incoming, h₅.started, h₅.ingress, h₅.egress, h₅.rx, h₅.tx,
      h₅.offset, h₅.room, rfl⟩
  obtain ⟨u, hst₆, hu⟩ := h₆.round
  exact ⟨u, (hst₁.trans hst₂).trans <| (hst₃.trans hst₄).trans <|
    hst₅.trans (.cons .goOn hdone hst₆), hu⟩

/-- By induction on the replies, all of them are written. -/
theorem Held.waves (m : ℕ) (h : Held s c 0 0 0 0 (46 * m) (.reading 16)) :
    ∃ s', s.Leads s' ∧ Held s' (c + m) 0 0 0 0 0 (.reading 16) := by
  induction m generalizing s c with
  | zero => exact ⟨s, .refl, h⟩
  | succ m ih =>
    have hfirst : Held s c 0 0 0 0 (46 * m + 46) (.reading 16) := h
    obtain ⟨t, hst, ht⟩ := hfirst.wave
    obtain ⟨u, htu, hu⟩ := ih ht
    refine ⟨u, hst.trans htu, ?_⟩
    rwa [Nat.add_assoc, Nat.add_comm 1 m] at hu

/-- A round in which nothing can be done. -/
theorem Held.idles (h : Held s c now 1 64 64 0 .waiting) (hnow : now ≤ partialTimeout) :
    ∃ s', s.Leads s' ∧ Held s' c now 1 64 64 0 .waiting := by
  obtain ⟨t₁, hst₁, h₁⟩ := h.round
  obtain ⟨t₂, hst₂, h₂⟩ := Held.empties (n := 15) h₁ (by decide)
  obtain ⟨t₃, hst₃, h₃⟩ := h₂.stops (.inr (.inl rfl))
  obtain ⟨t₄, hst₄, h₄⟩ := h₃.relay hnow
  obtain ⟨u, htu, hu⟩ := Held.stall (n := 63) h₄
  exact ⟨u, (hst₁.trans hst₂).trans ((hst₃.trans hst₄).trans htu), hu⟩

/-- Such rounds, a tenth of a second each. -/
theorem Held.rounds (m : ℕ) (h : Held s c now 1 64 64 0 .waiting)
    (hnow : now + m * 100000000 ≤ partialTimeout) :
    ∃ s', s.Leads s' ∧ Held s' c (now + m * 100000000) 1 64 64 0 .waiting := by
  induction m generalizing s now with
  | zero => exact ⟨s, .refl, by simpa using h⟩
  | succ m ih =>
    obtain ⟨t₁, hst₁, h₁⟩ := h.tick 100000000
    obtain ⟨t₂, hst₂, h₂⟩ := h₁.idles (by omega)
    obtain ⟨u, htu, hu⟩ := ih h₂ (by omega)
    refine ⟨u, (hst₁.trans hst₂).trans htu, ?_⟩
    have htime : now + 100000000 + m * 100000000 = now + (m + 1) * 100000000 := by omega
    rwa [htime] at hu

/-- A guest whose socket takes `k` replies sends 129 requests more and does not read. -/
theorem held_full (k : ℕ) : ∃ s', (init none 0 (46 * k)).Leads s' ∧
    Held s' (129 + k) 0 1 64 64 0 .waiting := by
  have h₀ : Held (init none 0 (46 * k)) 0 0 0 0 0 (46 * k) (.reading 16) :=
    ⟨rfl, rfl, rfl, rfl, rfl, rfl, rfl, rfl, rfl, rfl, rfl, rfl⟩
  obtain ⟨t₁, hst₁, h₁⟩ := h₀.waves k
  obtain ⟨t₂, hst₂, h₂⟩ := h₁.sends 129 (by decide) (by decide)
  obtain ⟨t₃, hst₃, h₃⟩ := Held.answers (k := 65) (n := 0) 64 h₂ (by decide)
  obtain ⟨t₄, hst₄, h₄⟩ := h₃.stops (.inr (.inr rfl))
  obtain ⟨t₅, hst₅, h₅⟩ := h₄.relay (Nat.zero_le _)
  obtain ⟨t₆, hst₆, h₆⟩ := Held.stall (q := 63) (n := 63) h₅
  obtain ⟨t₇, hst₇, h₇⟩ := h₆.round
  obtain ⟨t₈, hst₈, h₈⟩ := Held.empties (n := 15) h₇ (by decide)
  obtain ⟨t₉, hst₉, h₉⟩ := Held.holds (k := 1) (n := 0) 64 h₈ (by decide)
  obtain ⟨u₁, hsu₁, g₁⟩ := h₉.stops (.inr (.inl rfl))
  obtain ⟨u₂, hsu₂, g₂⟩ := g₁.relay (Nat.zero_le _)
  obtain ⟨u₃, hsu₃, g₃⟩ := Held.stall (q := 63) (n := 63) g₂
  refine ⟨u₃, (hst₁.trans hst₂).trans <| (hst₃.trans hst₄).trans <| (hst₅.trans hst₆).trans <|
    (hst₇.trans hst₈).trans <| (hst₉.trans hsu₁).trans (hsu₂.trans hsu₃), ?_⟩
  rw [Nat.add_comm 129 k, ← Nat.zero_add k]
  exact g₃

/-- However many replies the socket takes: once it and both queues are full, a guest that has sent
complete frames only is cut off for not sending the rest of one. -/
theorem complete_frames_time_out (k : ℕ) : ∃ (acts : List Act) (s : Link),
    Trace (fun s a s' => s.step a = some s') (init none 0 (46 * k)) acts s ∧
      s.stream = (requests (129 + k)).map (·, 0) ∧ s.phase = .ended .partialFrame ∧
      ¬ s.Justified := by
  obtain ⟨t₁, hst₁, h₁⟩ := held_full k
  -- nothing moves for five seconds
  obtain ⟨t₂, hst₂, h₂⟩ := h₁.rounds 50 (by decide)
  obtain ⟨t₃, hst₃, h₃⟩ := h₂.tick 100000000
  obtain ⟨t₄, hst₄, h₄⟩ := h₃.round
  obtain ⟨t₅, hst₅, h₅⟩ := Held.empties (n := 15) h₄ (by decide)
  obtain ⟨u, hu, hheld⟩ := h₅.stops (.inr (.inl rfl))
  have hlate : u.late = true := by
    rw [late, hheld.started, hheld.now]
    decide
  have hend : u.step .goOn = some (u.goto (.ended .partialFrame)) := by
    unfold step
    simp only [goOn, hheld.phase]
    rw [hlate]
    rfl
  obtain ⟨acts, hacts⟩ := (hst₁.trans hst₂).trans <| (hst₃.trans hst₄).trans <|
    (hst₅.trans hu).trans (.cons .goOn hend .refl)
  have hinv : (u.goto (.ended .partialFrame)).Inv :=
    hacts.invariant (inv_init none 0 (46 * k)) fun hi hs => hi.step hs
  refine ⟨acts, _, hacts, hheld.stream, rfl, fun hjustified => ?_⟩
  obtain ⟨start, t, hlong, -, -, hrest⟩ := hjustified.partialFrame rfl
  -- all bytes were sent at the start, so the buffered request is complete
  have hall : (u.goto (.ended .partialFrame)).sentBefore t =
      (u.goto (.ended .partialFrame)).streamRead := by
    have hearly : u.stream.filter (fun b => decide (b.2 < t)) = u.stream := by
      rw [List.filter_eq_self, hheld.stream]
      intro b hb
      obtain ⟨byte, -, rfl⟩ := List.mem_map.mp hb
      exact decide_eq_true (by omega)
    show (u.stream.filter fun b => decide (b.2 < t)).map (·.1) = (u.stream.take u.taken).map (·.1)
    rw [hearly, hheld.taken, List.take_length]
  have hbuffered : linkFormat.buffered u.incoming = true := by
    rw [hheld.incoming]
    exact Format.buffered_prefixed allowed_arpRequest
  rw [hall, hinv.drop_position] at hrest
  exact absurd (hbuffered.symm.trans hrest) (by decide)

/-- A guest sends 600 requests, and the socket takes 471 replies. -/
theorem full_queue_times_out : ∃ (acts : List Act) (s : Link),
    Trace (fun s a s' => s.step a = some s') (init none 0 (46 * 471)) acts s ∧
      s.stream = (requests 600).map (·, 0) ∧ s.phase = .ended .partialFrame ∧
      ¬ s.Justified :=
  complete_frames_time_out 471

end Link

end AgentHouse.Netd
