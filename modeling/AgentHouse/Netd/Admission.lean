import AgentHouse.Netd.Gateway

/-!
# Admission of frames

What a frame of the guest can bring about: nothing, a packet for the stack, a ping, or a new flow,
for which an old connection may have to make room.
-/

namespace AgentHouse.Netd

/-- A frame with a TCP segment of the guest. -/
def Carries (W : Smoltcp) (frame : Frame) (ip : Ipv4Packet) (tcp : TcpPacket) : Prop :=
  validate W frame = some (.ipv4 ip) ∧ ip.nextHeader = .tcp ∧ W.tcp ip.payload = some tcp

/-- A connect was asked for by a SYN of the guest, and goes to the resolver in place of the
gateway's own DNS port, to a granted port, or to an address that is public and not the host's. -/
structure Connect.Permitted (W : Smoltcp) (policy : Policy) (c : Connect) : Prop where
  syn : ∃ ip tcp, Carries W c.frame ip tcp ∧ tcp.syn = true ∧ tcp.ack = false ∧
    c.key = ⟨ip.dst, tcp.dstPort, tcp.srcPort⟩
  target : c.target = Gateway.target policy ⟨c.key.dst, c.key.port⟩
  allowed : Gateway.excepted policy ⟨c.key.dst, c.key.port⟩ = true ∨
    ∃ host, c.host = some host ∧ «public» c.key.dst host = true

/-- The stack sees ARP of the guest, TCP for addresses that are public or excepted, and UDP for the
gateway itself. -/
def Passable (W : Smoltcp) (policy : Policy) (frame : Frame) : Prop :=
  validate W frame = some .arp ∨
  (∃ ip tcp, Carries W frame ip tcp ∧ (Gateway.excepted policy ⟨ip.dst, tcp.dstPort⟩ = true ∨
    «public» ip.dst [] = true)) ∨
  ∃ ip, validate W frame = some (.ipv4 ip) ∧ ip.nextHeader = .udp ∧ ip.dst = gw

namespace Gateway

variable {T : TcpSockets} {W : Smoltcp} {policy : Policy} {s s' : Gateway T}

/-- What a frame can bring about. -/
inductive Admits (W : Smoltcp) (policy : Policy) : Gateway T → Gateway T → Prop
  | refused (s : Gateway T) : Admits W policy s s
  | passed (s : Gateway T) (frame : Frame) (h : Passable W policy frame) :
      Admits W policy s (s.pass frame)
  | ping (s : Gateway T) (destination : Ipv4) (bytes : Bytes) (host : Option (List Ipv4))
      (ident : Option UInt16) :
      Admits W policy s { s with pings := s.pings.request W destination bytes host ident }
  | roomed {s s' : Gateway T} {retired : Option Key} (hfull : maxFlows ≤ s.flows.length)
      (hold : s.Oldest retired) (h : Admits W policy (s.retire retired) s') : Admits W policy s s'
  | connected (s : Gateway T) (c : Connect) (handle : ℕ) (hpermitted : c.Permitted W policy)
      (hpass : Passable W policy c.frame) (hnew : s.flow c.key = none)
      (hfree : s.sockets handle = none) (hroom : s.flows.length < maxFlows)
      (hpermit : s.active < maxFlows) : Admits W policy s ((s.connect c handle).pass c.frame)

/-- A flow is admitted to an exception or to a resolved public address. -/
theorem admitFlow_some {frame : Frame} {key : Key} {host : Option (List Ipv4)} {handle : ℕ}
    {listens : Bool} (h : s.admitFlow policy frame key host handle listens = some s') :
    (excepted policy ⟨key.dst, key.port⟩ = true ∨
      ∃ hosts, host = some hosts ∧ «public» key.dst hosts = true) ∧ s.active < maxFlows ∧
    s' = s.connect ⟨frame, key, target policy ⟨key.dst, key.port⟩, host⟩ handle := by
  unfold admitFlow at h
  simp only at h
  split at h
  · cases h
  rename_i hallowed
  split at h
  · cases h
  rename_i hpermit
  split at h
  · cases h
  refine ⟨?_, Nat.lt_of_not_le hpermit, (Option.some.inj h).symm⟩
  simp only [Bool.and_eq_true, Bool.not_eq_true', not_and, Bool.not_eq_false] at hallowed
  cases hexcepted : excepted policy ⟨key.dst, key.port⟩ with
  | true => exact .inl rfl
  | false => exact .inr ((Option.any_eq_true _ _).mp (hallowed hexcepted))

/-- A retirement adds no flow. -/
theorem not_flow_retire {key : Key} {retired : Option Key} (h : s.flow key = none) :
    (s.retire retired).flow key = none := by
  cases retired with
  | none => exact h
  | some k =>
    unfold retire drop
    simp only
    split
    · exact h
    · split
      · exact h
      · exact Table.row_eq_none.mpr fun f hf =>
          Table.row_eq_none.mp h f (List.mem_filter.mp hf).1

/-- A TCP frame admits at most what the policy allows. -/
theorem admitTcp_admits {frame : Frame} {ip : Ipv4Packet} {tcp : TcpPacket}
    {host : Option (List Ipv4)} {handle : ℕ} {listens : Bool} {retired : Option Key}
    (hcarries : Carries W frame ip tcp)
    (h : s.admitTcp policy frame ip tcp host handle listens retired = some s') :
    Admits W policy s s' := by
  unfold admitTcp at h
  split at h
  · obtain rfl := Option.some.inj h
    exact .refused _
  split at h
  · obtain rfl := Option.some.inj h
    exact .refused _
  rename_i hallowed
  have hpass : Passable W policy frame := by
    refine .inr (.inl ⟨ip, tcp, hcarries, ?_⟩)
    simp only [Bool.and_eq_true, Bool.not_eq_true', not_and, Bool.not_eq_false] at hallowed
    cases hexcepted : excepted policy ⟨ip.dst, tcp.dstPort⟩ with
    | true => exact .inl rfl
    | false => exact .inr (hallowed hexcepted)
  simp only at h
  split at h
  · obtain rfl := Option.some.inj h
    exact .passed _ _ hpass
  rename_i hnew
  simp only [isNew, Bool.not_eq_true', Bool.not_eq_false, Bool.and_eq_true,
    Option.isNone_iff_eq_none] at hnew
  obtain ⟨⟨hsyn, hack⟩, hnone⟩ := hnew
  split at h
  · cases h
  rename_i hold
  -- the rest of the way is the same whether room had to be made or not
  have hrest {r : Gateway T} (hr : r.flow ⟨ip.dst, tcp.dstPort, tcp.srcPort⟩ = none)
      (hgo : (if maxFlows ≤ r.flows.length then some (r.pass frame)
        else if (r.sockets handle).isSome then none
        else some (((r.admitFlow policy frame ⟨ip.dst, tcp.dstPort, tcp.srcPort⟩ host handle
          listens).map (·.pass frame)).getD r)) = some s') : Admits W policy r s' := by
    split at hgo
    · obtain rfl := Option.some.inj hgo
      exact .passed _ _ hpass
    rename_i hroom
    split at hgo
    · cases hgo
    rename_i hfree
    obtain rfl := Option.some.inj hgo
    cases hflow : r.admitFlow policy frame ⟨ip.dst, tcp.dstPort, tcp.srcPort⟩ host handle
        listens with
    | none => exact .refused _
    | some r' =>
      obtain ⟨hpermitted, hactive, rfl⟩ := admitFlow_some hflow
      exact .connected r _ handle ⟨⟨ip, tcp, hcarries, hsyn, hack, rfl⟩, rfl, hpermitted⟩ hpass hr
        (by simpa using hfree) (Nat.lt_of_not_le hroom) hactive
  by_cases hfull : maxFlows ≤ s.flows.length
  · rw [if_pos hfull] at h
    refine .roomed hfull ?_ (hrest (not_flow_retire hnone) h)
    exact Decidable.not_not.mp fun hnot => hold ⟨hfull, hnot⟩
  · rw [if_neg hfull] at h
    exact hrest hnone h

/-- So does any frame. -/
theorem admitFrame_admits {frame : Frame} {host : Option (List Ipv4)} {ident : Option UInt16}
    {handle : ℕ} {listens : Bool} {retired : Option Key}
    (h : s.admitFrame W policy frame host ident handle listens retired = some s') :
    Admits W policy s s' := by
  unfold admitFrame at h
  cases hvalid : validate W frame with
  | none =>
    rw [hvalid] at h
    obtain rfl := Option.some.inj h
    exact .refused _
  | some packet =>
    cases packet with
    | arp =>
      rw [hvalid] at h
      obtain rfl := Option.some.inj h
      exact .passed _ _ (.inl hvalid)
    | ipv4 ip =>
      rw [hvalid] at h
      simp only at h
      cases hheader : ip.nextHeader with
      | icmp =>
        rw [hheader] at h
        obtain rfl := Option.some.inj h
        exact .ping _ _ _ _ _
      | tcp =>
        rw [hheader] at h
        simp only at h
        cases htcp : W.tcp ip.payload with
        | none =>
          rw [htcp] at h
          obtain rfl := Option.some.inj h
          exact .refused _
        | some tcp =>
          rw [htcp] at h
          exact admitTcp_admits ⟨hvalid, hheader, htcp⟩ h
      | udp =>
        rw [hheader] at h
        obtain rfl := Option.some.inj h
        by_cases hgw : ip.dst = gw
        · rw [if_pos hgw]
          exact .passed _ _ (.inr (.inr ⟨ip, hvalid, hheader, hgw⟩))
        · rw [if_neg hgw]
          exact .refused _
      | other =>
        rw [hheader] at h
        obtain rfl := Option.some.inj h
        exact .refused _

end Gateway

end AgentHouse.Netd
