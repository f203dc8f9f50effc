import AgentHouse.Netd.Gateway

/-!
# Relaying

Between a socket and the host's stream nothing is lost, doubled or reordered, as long as the
connection is not aborted; and the host's side is shut down only once it has got everything. This
rests on what smoltcp documents of its sockets.
-/

namespace AgentHouse.Netd

variable {T : TcpSockets}

namespace Connection

variable {k : Connection T}

/-- What a poll leaves as it is: what was queued, a closed socket, and the end of the guest's
octets. -/
structure Advances (k k' : Connection T) : Prop where
  queued : k'.queued = k.queued
  closed : k.state = .closed → k'.state = .closed
  ended : ¬ k.state.Open → ¬ k'.state.Open
  more : (∃ more, k'.rx = k.rx ++ more ∧ k'.received = k.received ++ more ∧
      (more ≠ [] → k.state.Open)) ∨
    k'.state = .closed ∧ k'.rx = [] ∧ k'.received = k.received

/-- An event of the socket advances the connection. -/
theorem poll_advances (hT : T.Documented) (e : T.Event) (k : Connection T) :
    k.Advances (k.poll e) := by
  have hreceived : (k.poll e).received = k.received ++ (k.poll e).rx.drop k.rx.length := rfl
  refine ⟨rfl, hT.closed e k.socket, fun hended hopen => hended (hT.opened e k.socket hopen), ?_⟩
  rcases hT.arrives e k.socket with ⟨more, hmore, hopen⟩ | ⟨hclosed, hempty⟩
  · have hrx : (k.poll e).rx = k.rx ++ more := hmore
    refine .inl ⟨more, hrx, ?_, hopen⟩
    rw [hreceived, hrx, List.drop_left]
  · have hrx : (k.poll e).rx = [] := hempty
    refine .inr ⟨hclosed, hrx, ?_⟩
    rw [hreceived, hrx, List.drop_nil, List.append_nil]

theorem abort_state (hT : T.Documented) (k : Connection T) : k.abort.state = .closed :=
  (hT.abort k.socket).1

theorem not_open_closed : ¬ TcpState.closed.Open := by
  rintro (h | h | h | h | h) <;> cases h

/-- A closed connection is not open. -/
theorem not_open_of_closed (h : k.state = .closed) : ¬ k.state.Open := by
  rw [h]
  exact not_open_closed

/-- The guest's octets at hand are the first that wait. -/
theorem contiguous_take (hT : T.Documented) (k : Connection T) (n : ℕ) :
    (T.contiguous k.socket).take n = k.rx.take ((T.contiguous k.socket).take n).length := by
  have hprefix : (T.contiguous k.socket).take n <+: k.rx :=
    (List.take_prefix _ _).trans (hT.contiguous k.socket)
  exact List.prefix_iff_eq_take.mp hprefix

/-- What is received is taken from the front. -/
theorem recv_spec (hT : T.Documented) {n : ℕ} (hn : n ≤ (T.contiguous k.socket).length) :
    (k.recv n).state = k.state ∧ (k.recv n).rx = k.rx.drop n :=
  hT.recv k.socket n hn

/-- What is sent leaves the receiving side alone. -/
theorem send_spec (hT : T.Documented) (k : Connection T) (bytes : Bytes) :
    (k.send bytes).state = k.state ∧ (k.send bytes).rx = k.rx :=
  hT.sendSlice k.socket bytes

end Connection

/-- A flow and its socket: what the socket got is what the host was sent and what waits, and the
socket took what the host sent, both in full while the connection stands. The host's side is
shut down once nothing waits and the guest sends no more. -/
structure Flow.Relayed (f : Flow) (k : Connection T) : Prop where
  up : f.toHost ++ k.rx = k.received ∨ k.state = .closed ∧ f.toHost ++ k.rx <+: k.received
  down : f.fromHost = k.queued ∨ k.state = .closed ∧ k.queued <+: f.fromHost
  shut : f.writeEof = true → k.rx = [] ∧ ¬ k.state.Open
  idle : f.host = false →
    f.toHost = [] ∧ f.fromHost = [] ∧ f.readEof = false ∧ f.writeEof = false

namespace Flow

open Connection

variable {f : Flow} {k k' : Connection T}

/-- A new connection. -/
theorem Relayed.new (hT : T.Documented) (hto : f.toHost = []) (hfrom : f.fromHost = [])
    (hread : f.readEof = false) (hwrite : f.writeEof = false) :
    f.Relayed (Connection.new : Connection T) where
  up := by
    rw [hto]
    exact .inl hT.listening
  down := .inl hfrom
  shut := fun heof => by
    rw [hwrite] at heof
    cases heof
  idle := fun _ => ⟨hto, hfrom, hread, hwrite⟩

/-- An advance keeps what was relayed. -/
theorem Relayed.advances (h : f.Relayed k) (ha : k.Advances k') : f.Relayed k' := by
  have hdown : f.fromHost = k'.queued ∨ k'.state = .closed ∧ k'.queued <+: f.fromHost := by
    rw [ha.queued]
    exact h.down.imp_right fun hdown => ⟨ha.closed hdown.1, hdown.2⟩
  rcases ha.more with ⟨more, hrx, hreceived, hopen⟩ | ⟨hclosed, hrx, hreceived⟩
  · have hnone (hended : ¬ k.state.Open) : more = [] := by
      by_contra hne
      exact hended (hopen hne)
    refine ⟨?_, hdown, fun heof => ?_, h.idle⟩
    · rw [hrx, hreceived, ← List.append_assoc]
      refine h.up.imp (congrArg (· ++ more)) fun hup => ⟨ha.closed hup.1, ?_⟩
      rw [hnone (not_open_of_closed hup.1), List.append_nil, List.append_nil]
      exact hup.2
    · obtain ⟨hempty, hended⟩ := h.shut heof
      rw [hrx, hnone hended, hempty]
      exact ⟨rfl, ha.ended hended⟩
  · -- what the socket held is lost, and the connection is over
    refine ⟨.inr ⟨hclosed, ?_⟩, hdown, fun _ => ⟨hrx, not_open_of_closed hclosed⟩, h.idle⟩
    rw [hrx, hreceived, List.append_nil]
    refine (List.prefix_append f.toHost k.rx).trans ?_
    exact h.up.elim (fun heq => heq ▸ List.prefix_refl _) And.right

/-- So does an abort. -/
theorem Relayed.abort (hT : T.Documented) (h : f.Relayed k) : f.Relayed k.abort := by
  have hclosed := abort_state hT k
  have hrx : k.abort.rx <+: k.rx := (hT.abort k.socket).2
  refine ⟨.inr ⟨hclosed, ?_⟩, .inr ⟨hclosed, ?_⟩, fun heof => ⟨?_, not_open_of_closed hclosed⟩,
    h.idle⟩
  · refine ((List.prefix_append_right_inj f.toHost).mpr hrx).trans ?_
    exact h.up.elim (fun heq => heq ▸ List.prefix_refl _) And.right
  · exact h.down.elim (fun heq => heq ▸ List.prefix_refl _) And.right
  · rw [(h.shut heof).1] at hrx
    exact List.prefix_nil.mp hrx

/-- Some of what waits is written to the host. -/
theorem Relayed.recv (hT : T.Documented) (h : f.Relayed k) (hhost : f.host = true) (n now : ℕ) :
    Relayed { f with toHost := f.toHost ++ (T.contiguous k.socket).take n, last := now }
      (k.recv ((T.contiguous k.socket).take n).length) := by
  obtain ⟨hstate, hrx⟩ := recv_spec hT (k := k) (List.length_take_le' n _)
  have hsplit : (T.contiguous k.socket).take n ++
      k.rx.drop ((T.contiguous k.socket).take n).length = k.rx := by
    conv_lhs => enter [1]; rw [contiguous_take hT k n]
    exact List.take_append_drop _ _
  refine ⟨?_, ?_, fun heof => ?_, fun hidle => ?_⟩
  · rw [hstate, hrx, List.append_assoc, hsplit]
    exact h.up
  · rw [hstate]
    exact h.down
  · obtain ⟨hempty, hended⟩ := h.shut heof
    rw [hrx, hempty, List.drop_nil, hstate]
    exact ⟨rfl, hended⟩
  · rw [show f.host = false from hidle] at hhost
    cases hhost

/-- Bytes go to the host as they came. -/
theorem Relayed.upstream (hT : T.Documented) (h : f.Relayed k) (hhost : f.host = true) (now : ℕ)
    (io : FlowIo) :
    (f.upstream k now io).1.Relayed (f.upstream k now io).2 ∧
      (f.upstream k now io).1.host = true := by
  have hnone : f.Relayed (k.recv 0) := by
    have htake := h.recv hT hhost 0 f.last
    rwa [List.take_zero, List.append_nil] at htake
  unfold Flow.upstream
  split
  · exact ⟨h, hhost⟩
  · cases io.write with
    | wouldBlock => exact ⟨hnone, hhost⟩
    | failed => exact ⟨hnone.abort hT, hhost⟩
    | bytes n => exact ⟨h.recv hT hhost n _, hhost⟩

/-- While the guest can be sent something, the connection stands. -/
theorem Relayed.standing (hT : T.Documented) (h : f.Relayed k)
    (hsend : T.canSend k.socket = true) : f.fromHost = k.queued := by
  refine h.down.resolve_right fun hclosed => ?_
  have hstate : k.state = .established ∨ k.state = .closeWait := hT.canSend k.socket hsend
  rw [hclosed.1] at hstate
  rcases hstate with hs | hs <;> cases hs

/-- The host has sent everything. -/
theorem Relayed.close (hT : T.Documented) (h : f.Relayed k) (hhost : f.host = true)
    (hsend : T.canSend k.socket = true) : Relayed { f with readEof := true } k.close := by
  obtain ⟨hrx, hestablished, hwait⟩ := hT.close k.socket
  have hclose : k.close.rx = k.rx := hrx
  have hstate : k.state = .established ∨ k.state = .closeWait := hT.canSend k.socket hsend
  have hstanding := h.standing hT hsend
  have hstands : k.state ≠ .closed := by
    rintro hclosed
    rw [hclosed] at hstate
    rcases hstate with hs | hs <;> cases hs
  refine ⟨.inl ?_, .inl hstanding, fun heof => ?_, fun hidle => ?_⟩
  · rw [hclose]
    exact h.up.resolve_right fun hup => hstands hup.1
  · obtain ⟨hempty, hended⟩ := h.shut heof
    refine ⟨hclose.trans hempty, ?_⟩
    rcases hstate with hs | hs
    · exact absurd (.inr (.inr (.inl hs))) hended
    · have hlast : k.close.state = .lastAck := hwait hs
      rw [hlast]
      rintro (ho | ho | ho | ho | ho) <;> cases ho
  · rw [show f.host = false from hidle] at hhost
    cases hhost

/-- The socket takes all that was read from the host, or is aborted. -/
theorem Relayed.send (hT : T.Documented) (h : f.Relayed k) (hhost : f.host = true)
    (hsend : T.canSend k.socket = true) (data : Bytes) (now : ℕ) :
    (k.accepts data = some data.length →
      Relayed { f with fromHost := f.fromHost ++ data, last := now } (k.send data)) ∧
    Relayed { f with fromHost := f.fromHost ++ data } (k.send data).abort := by
  obtain ⟨hstate, hrx⟩ := send_spec hT k data
  have hstanding := h.standing hT hsend
  have hidle {p : Prop} (hnone : f.host = false) : p := by
    rw [hhost] at hnone
    cases hnone
  have hqueued : (k.send data).queued = k.queued ++ data.take ((k.accepts data).getD 0) := rfl
  have hshut (heof : f.writeEof = true) : (k.send data).rx = [] ∧ ¬ (k.send data).state.Open := by
    rw [hrx, hstate]
    exact h.shut heof
  have hup : f.toHost ++ (k.send data).rx = (k.send data).received ∨
      (k.send data).state = .closed ∧ f.toHost ++ (k.send data).rx <+: (k.send data).received := by
    rw [hrx, hstate]
    exact h.up
  constructor
  · intro hall
    refine ⟨hup, .inl ?_, hshut, fun hnone => hidle hnone⟩
    rw [hqueued, hall, Option.getD_some, List.take_length, ← hstanding]
  · have hclosed := abort_state hT (k.send data)
    have hkept : (k.send data).abort.rx <+: (k.send data).rx := (hT.abort _).2
    refine ⟨.inr ⟨hclosed, ?_⟩, .inr ⟨hclosed, ?_⟩, fun heof => ⟨?_, not_open_of_closed hclosed⟩,
      fun hnone => hidle hnone⟩
    · refine ((List.prefix_append_right_inj f.toHost).mpr hkept).trans ?_
      exact hup.elim (fun heq => heq ▸ List.prefix_refl _) And.right
    · show (k.send data).queued <+: f.fromHost ++ data
      rw [hqueued, hstanding]
      exact (List.prefix_append_right_inj _).mpr (List.take_prefix _ _)
    · rw [(hshut heof).1] at hkept
      exact List.prefix_nil.mp hkept

/-- And back. -/
theorem Relayed.downstream (hT : T.Documented) (h : f.Relayed k) (hhost : f.host = true)
    (now : ℕ) (io : FlowIo) :
    (f.downstream k now io).1.Relayed (f.downstream k now io).2 ∧
      (f.downstream k now io).1.host = true := by
  unfold Flow.downstream
  split
  · exact ⟨h, hhost⟩
  rename_i hskip
  have hsend : T.canSend k.socket = true := by
    simp only [Bool.or_eq_true, Bool.not_eq_true', not_or, Bool.not_eq_false] at hskip
    exact hskip.1
  cases io.read with
  | wouldBlock => exact ⟨h, hhost⟩
  | failed => exact ⟨h.abort hT, hhost⟩
  | bytes data =>
    simp only
    split
    · exact ⟨h.close hT hhost hsend, hhost⟩
    · split
      · rename_i hall
        exact ⟨(h.send hT hhost hsend _ now).1 hall, hhost⟩
      · exact ⟨(h.send hT hhost hsend _ now).2, hhost⟩

/-- Shutting a flow down keeps what it has relayed. -/
theorem Relayed.shutdown (hT : T.Documented) (h : f.Relayed k) (hhost : f.host = true) :
    (f.shutdown k).Relayed k ∧ (f.shutdown k).host = true := by
  unfold Flow.shutdown
  split
  · rename_i hshut
    simp only [Bool.and_eq_true, Bool.not_eq_true', decide_eq_true_eq] at hshut
    obtain ⟨⟨⟨hrecv, -⟩, hlisten⟩, hsyn⟩ := hshut
    have hover : ¬ (k.state = .established ∨ k.state = .finWait1 ∨ k.state = .finWait2 ∨
        k.rx ≠ []) := fun hmay => by
      rw [(hT.mayRecv k.socket).mpr hmay] at hrecv
      cases hrecv
    simp only [not_or, not_not] at hover
    obtain ⟨hest, hwait₁, hwait₂, hempty⟩ := hover
    have hended : ¬ k.state.Open := by
      rintro (hs | hs | hs | hs | hs)
      · exact hlisten hs
      · exact hsyn hs
      · exact hest hs
      · exact hwait₁ hs
      · exact hwait₂ hs
    refine ⟨⟨h.up, h.down, fun _ => ⟨hempty, hended⟩, fun hnone => ?_⟩, hhost⟩
    rw [hhost] at hnone
    cases hnone
  · exact ⟨h, hhost⟩

/-- A pass over a flow keeps its bytes in order. -/
theorem Relayed.relay (hT : T.Documented) (h : f.Relayed k) (hhost : f.host = true) (now : ℕ)
    (io : FlowIo) :
    (f.relay k now io).1.Relayed (f.relay k now io).2 ∧ (f.relay k now io).1.host = true := by
  obtain ⟨h₁, hhost₁⟩ := h.upstream hT hhost now io
  obtain ⟨h₂, hhost₂⟩ := h₁.downstream hT hhost₁ now io
  obtain ⟨h₃, hhost₃⟩ := h₂.shutdown hT hhost₂
  unfold Flow.relay Flow.expire
  simp only
  split
  · exact ⟨h₃.abort hT, hhost₃⟩
  · exact ⟨h₃, hhost₃⟩

/-- A pass changes neither what a flow is nor where it is kept. -/
theorem relay_same (f : Flow) (k : Connection T) (now : ℕ) (io : FlowIo) :
    (f.relay k now io).1.key = f.key ∧ (f.relay k now io).1.handle = f.handle ∧
      (f.relay k now io).1.thread = f.thread := by
  have hup : (f.upstream k now io).1.key = f.key ∧ (f.upstream k now io).1.handle = f.handle ∧
      (f.upstream k now io).1.thread = f.thread := by
    unfold Flow.upstream
    split
    · exact ⟨rfl, rfl, rfl⟩
    · cases io.write <;> exact ⟨rfl, rfl, rfl⟩
  have hdown (f : Flow) (k : Connection T) : (f.downstream k now io).1.key = f.key ∧
      (f.downstream k now io).1.handle = f.handle ∧
      (f.downstream k now io).1.thread = f.thread := by
    unfold Flow.downstream
    split
    · exact ⟨rfl, rfl, rfl⟩
    · cases io.read with
      | bytes data =>
        simp only
        split
        · exact ⟨rfl, rfl, rfl⟩
        · split <;> exact ⟨rfl, rfl, rfl⟩
      | _ => exact ⟨rfl, rfl, rfl⟩
  have hshut (f : Flow) (k : Connection T) : (f.shutdown k).key = f.key ∧
      (f.shutdown k).handle = f.handle ∧ (f.shutdown k).thread = f.thread := by
    unfold Flow.shutdown
    split <;> exact ⟨rfl, rfl, rfl⟩
  unfold Flow.relay
  obtain ⟨hkey₁, hhandle₁, hthread₁⟩ := hup
  obtain ⟨hkey₂, hhandle₂, hthread₂⟩ := hdown (f.upstream k now io).1 (f.upstream k now io).2
  obtain ⟨hkey₃, hhandle₃, hthread₃⟩ := hshut
    ((f.upstream k now io).1.downstream (f.upstream k now io).2 now io).1
    ((f.upstream k now io).1.downstream (f.upstream k now io).2 now io).2
  exact ⟨hkey₃.trans (hkey₂.trans hkey₁), hhandle₃.trans (hhandle₂.trans hhandle₁),
    hthread₃.trans (hthread₂.trans hthread₁)⟩

/-- A pass leaves a closed socket closed. -/
theorem relay_closed (hT : T.Documented) (f : Flow) (k : Connection T) (now : ℕ) (io : FlowIo)
    (h : k.state = .closed) : (f.relay k now io).2.state = .closed := by
  have hup : (f.upstream k now io).2.state = .closed := by
    unfold Flow.upstream
    split
    · exact h
    · cases io.write with
      | wouldBlock => exact (recv_spec hT (Nat.zero_le _)).1.trans h
      | failed => exact abort_state hT _
      | bytes n => exact (recv_spec hT (List.length_take_le' n _)).1.trans h
  have hsilent : T.canSend (f.upstream k now io).2.socket = false := by
    by_contra hsend
    have hstate : (f.upstream k now io).2.state = .established ∨
        (f.upstream k now io).2.state = .closeWait :=
      hT.canSend _ (Bool.eq_true_of_not_eq_false hsend)
    rw [hup] at hstate
    rcases hstate with hs | hs <;> cases hs
  have hskip : (f.upstream k now io).1.downstream (f.upstream k now io).2 now io =
      ((f.upstream k now io).1, (f.upstream k now io).2) := by
    unfold Flow.downstream
    rw [hsilent]
    rfl
  unfold Flow.relay Flow.expire
  simp only [hskip]
  split
  · exact abort_state hT _
  · exact hup

/-- A flow that has just been connected. -/
theorem Relayed.connected (h : f.Relayed k) : f.connected.Relayed k where
  up := h.up
  down := h.down
  shut := h.shut
  idle := fun hnone => by cases hnone

end Flow

end AgentHouse.Netd
