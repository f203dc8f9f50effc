import AgentHouse.Netd.Wire
import Mathlib.Algebra.Ring.Nat
import Mathlib.Data.List.Nodup

/-!
# The echo forwarder

A ping of the guest is sent through a socket of the host, and its reply comes back with the guest's
own identifier. The gateway itself answers at once. Requests are paid for with credits: one each
50 ms, twenty at most. The history remembers what was sent and what was answered.
-/

namespace AgentHouse.Netd

/-- `MAX_PENDING` -/
def maxPending : ℕ := 64

/-- Instants and durations are in nanoseconds. -/
def deadline : ℕ := 5 * scale

/-- The credits that a request takes. -/
def interval : ℕ := 50000000

/-- The credits that may be saved up. -/
def burst : ℕ := scale

/-- A request that waits for its reply. Sockets are told apart by a number. -/
structure Echo where
  socket : ℕ
  destination : Ipv4
  hostIdent : UInt16
  request : Bytes
  started : ℕ
deriving DecidableEq

/-- What `recv_from` finds. -/
inductive Recv where
  | packet (source : Ipv4) (bytes : Bytes)
  | otherFamily
  | wouldBlock
  | interrupted
  | failed

/-- `EchoForwarder` -/
structure Forwarder where
  pending : List Echo
  last : ℕ
  credits : ℕ
  reportedSocketError : Bool

namespace Echo

variable (W : Smoltcp) (e : Echo)

/-- The reply of the host's socket is the one to this request. -/
def «matches» (source : Ipv4) (reply : Bytes) : Bool :=
  if source ≠ e.destination ∨ reply.length ≠ e.request.length then false
  else (W.icmp reply).any fun p =>
    decide (p.kind = .echoReply) && p.code == 0 && p.checksum && p.ident == e.hostIdent &&
      decide (reply.drop 6 = e.request.drop 6)

/-- A packet that answers the request, before it is given up. -/
def answer (now : ℕ) (r : Recv) : Option Bytes :=
  if deadline ≤ now - e.started then none
  else
    match r with
    | .packet source reply => if e.matches W source reply then some reply else none
    | _ => none

/-- Whether the request waits further. -/
def waits (now : ℕ) (r : Recv) : Bool :=
  if deadline ≤ now - e.started then false
  else
    match r with
    | .packet source reply => !e.matches W source reply
    | .otherFamily => true
    | .wouldBlock => true
    | .interrupted => true
    | .failed => false

end Echo

namespace Forwarder

/-- `EchoForwarder::new` -/
def new (now : ℕ) : Forwarder := ⟨[], now, burst, false⟩

variable (W : Smoltcp) (s : Forwarder)

/-- The credits at the time of a request. -/
def topUp (now : ℕ) : Forwarder :=
  { s with credits := min (s.credits + (now - s.last)) burst, last := now }

/-- A request has been paid for. -/
def spend (now : ℕ) : Forwarder :=
  { s.topUp now with credits := (s.topUp now).credits - interval }

/-- There is a credit for a request, and room. -/
def accepts (bytes : Bytes) (now : ℕ) : Bool :=
  validEchoRequest W bytes &&
    !(decide ((s.topUp now).credits < interval) || decide (maxPending ≤ s.pending.length))

/-- The host may be asked to send to the destination. `none` is a lookup that fails. -/
def sends (destination : Ipv4) (host : Option (List Ipv4)) : Bool :=
  «public» destination [] && host.any («public» destination)

/-- `request_with`; the identifier of the socket is `none` where it cannot be opened. -/
def request (destination : Ipv4) (bytes : Bytes) (now : ℕ) (host : Option (List Ipv4))
    (opened : Option (ℕ × UInt16)) : Forwarder × Option Frame :=
  if !validEchoRequest W bytes then (s, none)
  else if !s.accepts W bytes now then (s.topUp now, none)
  else if destination = gw then (s.spend now, some (replyFrame W destination bytes))
  else if !sends destination host then (s.spend now, none)
  else
    match opened with
    | some (socket, ident) =>
        ({ s.spend now with pending := s.pending ++ [⟨socket, destination, ident, bytes, now⟩] },
          none)
    | none => ({ s.spend now with reportedSocketError := true }, none)

/-- `poll`, with the frames that it delivers. -/
def poll (now : ℕ) (recv : Echo → Recv) : Forwarder × List Frame :=
  ({ s with pending := s.pending.filter fun e => e.waits W now (recv e) },
    (s.pending.filter fun e => (e.answer W now (recv e)).isSome).map fun e =>
      replyFrame W e.destination e.request)

end Forwarder

/-! ## Runs -/

/-- The forwarder with a clock, and what has been done. -/
structure Pings where
  forwarder : Forwarder
  now : ℕ
  /-- The requests that were paid for. -/
  paid : ℕ
  /-- Where the host was asked to send to, with its addresses at the time. -/
  sent : List (Ipv4 × List Ipv4)
  started : List Echo
  /-- The requests that were answered by the host, with the replies and their times. -/
  answered : List (Echo × Bytes × ℕ)
  /-- The requests that the gateway answered itself. -/
  «local» : List Bytes
  delivered : List Frame

namespace Pings

/-- What happens to the forwarder. -/
inductive Act where
  | tick (d : ℕ)
  | request (destination : Ipv4) (bytes : Bytes) (host : Option (List Ipv4))
      (ident : Option UInt16)
  | poll (recv : Echo → Recv)

/-- A forwarder that has sent nothing. -/
def init (now : ℕ) : Pings := ⟨.new now, now, 0, [], [], [], [], []⟩

variable (W : Smoltcp) (s : Pings)

/-- A request, with what it leaves in the history. -/
def request (destination : Ipv4) (bytes : Bytes) (host : Option (List Ipv4))
    (ident : Option UInt16) : Pings :=
  let (forwarder, reply) := s.forwarder.request W destination bytes s.now host
    (ident.map (s.started.length, ·))
  let accepted := s.forwarder.accepts W bytes s.now
  let sends := accepted && destination != gw && Forwarder.sends destination host
  { s with
    forwarder
    paid := s.paid + accepted.toNat
    sent := if sends then s.sent ++ [(destination, host.getD [])] else s.sent
    started := s.started ++ forwarder.pending.drop s.forwarder.pending.length
    «local» := if reply.isSome then s.local ++ [bytes] else s.local
    delivered := s.delivered ++ reply.toList }

/-- One round over the sockets. -/
def poll (recv : Echo → Recv) : Pings :=
  let (forwarder, frames) := s.forwarder.poll W s.now recv
  { s with
    forwarder
    answered := s.answered ++ s.forwarder.pending.filterMap fun e =>
      (e.answer W s.now (recv e)).map fun reply => (e, reply, s.now)
    delivered := s.delivered ++ frames }

/-- The state after a step. -/
def step : Act → Pings
  | .tick d => { s with now := s.now + d }
  | .request destination bytes host ident => s.request W destination bytes host ident
  | .poll recv => s.poll W recv

/-! ## What is to hold -/

/-- A ping goes to public addresses only, waits at most five seconds with at most 63 others, and is
answered at most once, by what the host received for it. -/
structure Sound (s : Pings) : Prop where
  last : s.forwarder.last ≤ s.now
  credits : s.forwarder.credits ≤ burst
  bounded : s.forwarder.pending.length ≤ maxPending
  sent : ∀ q ∈ s.sent, «public» q.1 q.2 = true
  destinations : ∀ e ∈ s.started, ∃ q ∈ s.sent, q.1 = e.destination
  sockets : s.started.map Echo.socket = List.range s.started.length
  pending : s.forwarder.pending.Sublist s.started
  answered : ∀ a ∈ s.answered, a.1 ∈ s.started ∧ a.1.matches W a.1.destination a.2.1 = true ∧
    a.2.2 < a.1.started + deadline ∧ a.1 ∉ s.forwarder.pending
  once : (s.answered.map (·.1.socket)).Nodup
  delivered : s.delivered.Perm (s.local.map (replyFrame W gw) ++
    s.answered.map fun a => replyFrame W a.1.destination a.1.request)
  paid : s.started.length + s.local.length ≤ s.paid

/-! ## What a step does -/

/-- What a step can do: time passes; a request is refused; it is paid for, and the gateway answers
it, or it may not be sent, or it is sent, without a socket or with one; waiting requests are
answered or given up. -/
inductive Effect (s : Pings) : Pings → Prop
  | tick (d : ℕ) : Effect s { s with now := s.now + d }
  | refused (f : Forwarder) (h : f = s.forwarder ∨ f = s.forwarder.topUp s.now) :
      Effect s { s with forwarder := f }
  | own (bytes : Bytes) (hcredit : interval ≤ (s.forwarder.topUp s.now).credits) :
      Effect s { s with
        forwarder := s.forwarder.spend s.now
        paid := s.paid + 1
        «local» := s.local ++ [bytes]
        delivered := s.delivered ++ [replyFrame W gw bytes] }
  | denied (hcredit : interval ≤ (s.forwarder.topUp s.now).credits) :
      Effect s { s with forwarder := s.forwarder.spend s.now, paid := s.paid + 1 }
  | failed (destination : Ipv4) (host : List Ipv4) (hpublic : «public» destination host = true)
      (hcredit : interval ≤ (s.forwarder.topUp s.now).credits) :
      Effect s { s with
        forwarder := { s.forwarder.spend s.now with reportedSocketError := true }
        paid := s.paid + 1
        sent := s.sent ++ [(destination, host)] }
  | starts (e : Echo) (host : List Ipv4) (hpublic : «public» e.destination host = true)
      (hcredit : interval ≤ (s.forwarder.topUp s.now).credits)
      (hroom : s.forwarder.pending.length < maxPending) (hsocket : e.socket = s.started.length) :
      Effect s { s with
        forwarder := { s.forwarder.spend s.now with pending := s.forwarder.pending ++ [e] }
        paid := s.paid + 1
        sent := s.sent ++ [(e.destination, host)]
        started := s.started ++ [e] }
  | polls (recv : Echo → Recv) : Effect s (s.poll W recv)

variable {W} {s s' : Pings}

/-- What is accepted is valid and has credit. -/
theorem accepts_spec {f : Forwarder} {bytes : Bytes} {now : ℕ}
    (h : f.accepts W bytes now = true) : validEchoRequest W bytes = true ∧
      interval ≤ (f.topUp now).credits ∧ f.pending.length < maxPending := by
  simp only [Forwarder.accepts, Bool.and_eq_true, Bool.not_eq_true', Bool.or_eq_false_iff,
    decide_eq_false_iff_not, not_lt, not_le] at h
  exact h

/-- A request admits at most one echo. -/
theorem request_effect (s : Pings) (destination : Ipv4) (bytes : Bytes)
    (host : Option (List Ipv4)) (ident : Option UInt16) :
    Effect W s (s.request W destination bytes host ident) := by
  have hpending : (s.forwarder.spend s.now).pending = s.forwarder.pending := rfl
  have htopUp : (s.forwarder.topUp s.now).pending = s.forwarder.pending := rfl
  unfold Pings.request Forwarder.request
  cases haccepts : s.forwarder.accepts W bytes s.now with
  | false =>
    cases hvalid : validEchoRequest W bytes with
    | false =>
      have h := Effect.refused (W := W) (s := s) s.forwarder (.inl rfl)
      simpa using h
    | true =>
      have h := Effect.refused (W := W) (s := s) (s.forwarder.topUp s.now) (.inr rfl)
      simpa [htopUp] using h
  | true =>
    obtain ⟨hvalid, hcredit, hroom⟩ := accepts_spec haccepts
    by_cases hgw : destination = gw
    · have h := Effect.own (W := W) (s := s) bytes hcredit
      simpa [hvalid, hgw, hpending] using h
    cases hsends : Forwarder.sends destination host with
    | false =>
      have h := Effect.denied (W := W) (s := s) hcredit
      simpa [hvalid, hgw, hpending] using h
    | true =>
      obtain ⟨hosts, rfl, hpublic⟩ : ∃ hosts, host = some hosts ∧
          «public» destination hosts = true := by
        simp only [Forwarder.sends, Bool.and_eq_true, Option.any_eq_true] at hsends
        exact hsends.2
      cases ident with
      | none =>
        have h := Effect.failed (W := W) destination hosts hpublic hcredit
        simpa [hvalid, hgw, hpending] using h
      | some ident =>
        have h := Effect.starts (W := W) ⟨s.started.length, destination, ident, bytes, s.now⟩
          hosts hpublic hcredit hroom rfl
        simpa [hvalid, hgw] using h

/-- Every step is an effect. -/
theorem step_effect (s : Pings) (a : Act) : Effect W s (s.step W a) := by
  cases a with
  | tick d => exact .tick d
  | request destination bytes host ident => exact request_effect s destination bytes host ident
  | poll recv => exact .polls recv

/-- An answer matches its echo, in time. -/
theorem answer_spec {e : Echo} {now : ℕ} {r : Recv} {reply : Bytes}
    (h : e.answer W now r = some reply) :
    e.matches W e.destination reply = true ∧ now < e.started + deadline ∧
      e.waits W now r = false := by
  unfold Echo.answer at h
  split at h
  · cases h
  · rename_i htime
    cases r with
    | packet source bytes =>
      simp only at h
      split at h
      · rename_i hmatches
        obtain rfl := Option.some.inj h
        have hsource : source = e.destination := by
          by_contra hne
          simp [Echo.matches, hne] at hmatches
        refine ⟨hsource ▸ hmatches, by omega, ?_⟩
        simp [Echo.waits, hmatches]
      · cases h
    | _ => cases h

/-! ## Runs keep it -/

/-- A new forwarder is sound. -/
theorem init_sound (now : ℕ) : Sound W (init now) where
  last := le_rfl
  credits := le_rfl
  bounded := Nat.zero_le _
  sent := by simp [init]
  destinations := by simp [init]
  sockets := rfl
  pending := List.Sublist.refl _
  answered := by simp [init]
  once := List.nodup_nil
  delivered := List.Perm.refl _
  paid := le_rfl

/-- The sockets that were opened are different. -/
theorem Sound.distinct (h : Sound W s) : (s.started.map Echo.socket).Nodup := by
  rw [h.sockets]
  exact List.nodup_range

/-- A request that has been paid for. -/
theorem spend_credits (f : Forwarder) (now : ℕ) : (f.spend now).credits ≤ burst :=
  (Nat.sub_le _ _).trans (min_le_right _ _)

/-- What is answered at one time, seen through the requests. -/
theorem map_filterMap_answered {β : Type*} (l : List Echo) (g : Echo → Option Bytes) (now : ℕ)
    (k : Echo → β) :
    (l.filterMap fun e => (g e).map fun reply => (e, reply, now)).map (fun a => k a.1) =
      (l.filter fun e => (g e).isSome).map k := by
  induction l with
  | nil => rfl
  | cons e l ih =>
    cases hg : g e with
    | none => simp [hg, ih]
    | some reply => simp [hg, ih]

/-- Replies are delivered once and no request that was answered waits any further. -/
theorem Sound.polls (h : Sound W s) (recv : Echo → Recv) : Sound W (s.poll W recv) := by
  have hnodup : s.forwarder.pending.Nodup := h.pending.nodup (List.Nodup.of_map _ h.distinct)
  have hkept : ((s.forwarder.poll W s.now recv).1.pending).Sublist s.forwarder.pending :=
    List.filter_sublist
  exact
    { last := h.last
      credits := h.credits
      bounded := hkept.length_le.trans h.bounded
      sent := h.sent
      destinations := h.destinations
      sockets := h.sockets
      pending := hkept.trans h.pending
      answered := by
        intro a ha
        rcases List.mem_append.mp ha with ha | ha
        · obtain ⟨hstarted, hmatches, htime, hgone⟩ := h.answered a ha
          exact ⟨hstarted, hmatches, htime, fun hmem => hgone (hkept.subset hmem)⟩
        · obtain ⟨e, he, hanswer⟩ := List.mem_filterMap.mp ha
          obtain ⟨reply, hreply, rfl⟩ := Option.map_eq_some_iff.mp hanswer
          obtain ⟨hmatches, htime, hdone⟩ := answer_spec hreply
          refine ⟨h.pending.subset he, hmatches, htime, fun hmem => ?_⟩
          have hwaits := (List.mem_filter.mp hmem).2
          rw [hdone] at hwaits
          cases hwaits
      once := by
        show ((s.answered ++ _).map fun a => a.1.socket).Nodup
        rw [List.map_append, map_filterMap_answered _ _ _ Echo.socket]
        refine List.Nodup.append h.once ?_ ?_
        · exact (List.filter_sublist.map _).nodup ((h.pending.map _).nodup h.distinct)
        · -- a request that is answered now was waiting, and has no answer yet
          intro n hold hnew
          obtain ⟨a, ha, rfl⟩ := List.mem_map.mp hold
          obtain ⟨e, he, hsocket⟩ := List.mem_map.mp hnew
          obtain ⟨hstarted, -, -, hgone⟩ := h.answered a ha
          have hwaiting := (List.mem_filter.mp he).1
          have heq : e = a.1 :=
            List.inj_on_of_nodup_map h.distinct (h.pending.subset hwaiting) hstarted hsocket
          exact hgone (heq ▸ hwaiting)
      delivered := by
        show (s.delivered ++ _).Perm (_ ++ (s.answered ++ _).map _)
        rw [List.map_append, map_filterMap_answered _ _ _ fun e =>
          replyFrame W e.destination e.request, ← List.append_assoc]
        exact h.delivered.append_right _
      paid := h.paid }

/-- An effect keeps it sound. -/
theorem Sound.effect (h : Sound W s) (he : Effect W s s') : Sound W s' := by
  have hpaid := h.paid
  cases he with
  | tick d => exact { h with last := h.last.trans (Nat.le_add_right _ _) }
  | refused f hf =>
    rcases hf with rfl | rfl
    · exact h
    · exact { h with last := le_rfl, credits := min_le_right _ _ }
  | own bytes hcredit =>
    exact
      { h with
        last := le_rfl
        credits := spend_credits s.forwarder s.now
        delivered := by
          rw [List.map_append, List.append_assoc]
          refine (h.delivered.append_right _).trans ?_
          rw [List.append_assoc]
          exact List.perm_append_comm.append_left _
        paid := by
          simp only [List.length_append, List.length_singleton]
          omega }
  | denied hcredit =>
    exact
      { h with
        last := le_rfl
        credits := spend_credits s.forwarder s.now
        paid := Nat.le_succ_of_le h.paid }
  | failed destination host hpublic hcredit =>
    exact
      { h with
        last := le_rfl
        credits := spend_credits s.forwarder s.now
        sent := by
          intro q hq
          rcases List.mem_append.mp hq with hq | hq
          · exact h.sent q hq
          · rw [List.mem_singleton.mp hq]
            exact hpublic
        destinations := fun e he => by
          obtain ⟨q, hq, heq⟩ := h.destinations e he
          exact ⟨q, List.mem_append_left _ hq, heq⟩
        paid := Nat.le_succ_of_le h.paid }
  | starts e host hpublic hcredit hroom hsocket =>
    have hfresh : e ∉ s.started := fun he => by
      have hlt : e.socket ∈ List.range s.started.length :=
        h.sockets ▸ List.mem_map_of_mem he
      rw [hsocket, List.mem_range] at hlt
      exact lt_irrefl _ hlt
    exact
      { last := le_rfl
        credits := spend_credits s.forwarder s.now
        bounded := by
          simp only [List.length_append, List.length_singleton]
          omega
        sent := by
          intro q hq
          rcases List.mem_append.mp hq with hq | hq
          · exact h.sent q hq
          · rw [List.mem_singleton.mp hq]
            exact hpublic
        destinations := by
          intro e' he
          rcases List.mem_append.mp he with he | he
          · obtain ⟨q, hq, heq⟩ := h.destinations e' he
            exact ⟨q, List.mem_append_left _ hq, heq⟩
          · rw [List.mem_singleton.mp he]
            exact ⟨_, List.mem_append_right _ (List.mem_singleton_self _), rfl⟩
        sockets := by
          simp only [List.map_append, h.sockets, List.map_cons, List.map_nil, hsocket,
            List.length_append, List.length_singleton, List.range_succ]
        pending := h.pending.append (List.Sublist.refl _)
        answered := by
          intro a ha
          obtain ⟨hstarted, hmatches, htime, hgone⟩ := h.answered a ha
          refine ⟨List.mem_append_left _ hstarted, hmatches, htime, fun hmem => ?_⟩
          rcases List.mem_append.mp hmem with hmem | hmem
          · exact hgone hmem
          · exact hfresh (List.mem_singleton.mp hmem ▸ hstarted)
        once := h.once
        delivered := h.delivered
        paid := by
          simp only [List.length_append, List.length_singleton]
          omega }
  | polls recv => exact h.polls recv

/-! ## Rates -/

/-- Nothing was paid for since an earlier state, or what was paid for is covered by the most that
the account holds and by the time since. -/
structure Within (start s : Pings) : Prop where
  paid : start.paid ≤ s.paid
  now : start.now ≤ s.now
  last : s.forwarder.last ≤ s.now
  covered : s.paid = start.paid ∨ start.now ≤ s.forwarder.last ∧
    s.forwarder.credits + (s.paid - start.paid) * interval ≤
      burst + (s.forwarder.last - start.now)

theorem Within.refl (hlast : s.forwarder.last ≤ s.now) : Within s s :=
  ⟨le_rfl, le_rfl, hlast, .inl rfl⟩

/-- Credits are added up to the most that the account holds. -/
theorem topUp_credits (f : Forwarder) (now : ℕ) : (f.topUp now).credits ≤ burst ∧
    (f.topUp now).credits ≤ f.credits + (now - f.last) :=
  ⟨min_le_right _ _, min_le_left _ _⟩

/-- A request is paid for. -/
theorem Within.spend {start : Pings} (h : Within start s)
    (hcredit : interval ≤ (s.forwarder.topUp s.now).credits)
    (hlast : s'.forwarder.last = s.now)
    (hcredits : s'.forwarder.credits = (s.forwarder.spend s.now).credits)
    (hpaid : s'.paid = s.paid + 1) (hnow : s'.now = s.now) :
    Within start s' := by
  obtain ⟨hcap, hsum⟩ := topUp_credits s.forwarder s.now
  have hspent : (s.forwarder.spend s.now).credits + interval =
      (s.forwarder.topUp s.now).credits := Nat.sub_add_cancel hcredit
  have hstart := h.now
  have hbefore := h.last
  have hmore := h.paid
  refine ⟨by omega, by omega, by rw [hlast, hnow], .inr ?_⟩
  rw [hlast, hcredits, hpaid, Nat.succ_sub hmore, Nat.succ_mul]
  refine ⟨hstart, ?_⟩
  rcases h.covered with hsame | ⟨hafter, hcovered⟩
  · rw [hsame, Nat.sub_self, Nat.zero_mul]
    omega
  · omega

/-- And within its rate. -/
theorem Within.effect {start : Pings} (h : Within start s) (he : Effect W s s') :
    Within start s' := by
  cases he with
  | tick d =>
    exact ⟨h.paid, h.now.trans (Nat.le_add_right _ _), h.last.trans (Nat.le_add_right _ _),
      h.covered⟩
  | refused f hf =>
    rcases hf with rfl | rfl
    · exact h
    · obtain ⟨-, hsum⟩ := topUp_credits s.forwarder s.now
      have hbefore := h.last
      refine ⟨h.paid, h.now, le_rfl, h.covered.imp id fun hcovered => ⟨h.now, ?_⟩⟩
      obtain ⟨hafter, hcovered⟩ := hcovered
      show (s.forwarder.topUp s.now).credits + (s.paid - start.paid) * interval ≤
        burst + (s.now - start.now)
      omega
  | own bytes hcredit => exact h.spend hcredit rfl rfl rfl rfl
  | denied hcredit => exact h.spend hcredit rfl rfl rfl rfl
  | failed destination host hpublic hcredit => exact h.spend hcredit rfl rfl rfl rfl
  | starts e host hpublic hcredit hroom hsocket => exact h.spend hcredit rfl rfl rfl rfl
  | polls recv => exact ⟨h.paid, h.now, h.last, h.covered⟩

/-- In every run each ping that the host sends goes to a public address that is none of its own, at
most 64 pings wait, each is answered at most once, by a reply to itself within five seconds, and
the guest gets the gateway's replies and these. In any period no more than twenty requests and one
for each 50 ms are paid for. -/
theorem echo_forwarder {now : ℕ} {as bs : List Act} {s s' : Pings}
    (h : Trace (fun s a s' => s.step W a = s') (init now) as s)
    (h' : Trace (fun s a s' => s.step W a = s') s bs s') :
    Sound W s' ∧ (s'.paid - s.paid) * interval ≤ burst + (s'.now - s.now) := by
  have hkeeps : ∀ {s a s'}, Sound W s → Pings.step W s a = s' → Sound W s' := by
    rintro s a _ hs rfl
    exact hs.effect (step_effect s a)
  have hsound := h.invariant (init_sound now) hkeeps
  have hwithin : Within s s' := h'.invariant (Within.refl hsound.last) fun hs hstep => by
    rw [← hstep]
    exact hs.effect (step_effect _ _)
  refine ⟨h'.invariant hsound hkeeps, ?_⟩
  have hbefore := hwithin.last
  rcases hwithin.covered with hsame | ⟨hafter, hcovered⟩
  · rw [hsame, Nat.sub_self, Nat.zero_mul]
    exact Nat.zero_le _
  · omega

/-- A ping that is answered after a millisecond. -/
theorem echo_forwarder_ping : ∃ s' : Pings,
    s'.delivered = [replyFrame .plain ⟨1, 1, 1, 1⟩ ping] ∧ s'.paid = 1 ∧ Sound .plain s' ∧
      (s'.paid - 0) * interval ≤ burst + (s'.now - 0) := by
  have hrun : Trace (fun s a s' => Pings.step .plain s a = s') (init 0)
      [.request ⟨1, 1, 1, 1⟩ ping (some []) (some 9), .tick 1000000,
        .poll fun e =>
          .packet e.destination (fill16 ([0, 0, 0, 0, 0, 9] ++ ping.drop 6) 2)] _ :=
    .snoc (.snoc (.snoc .nil rfl) rfl) rfl
  have h := echo_forwarder (W := .plain) .nil hrun
  exact ⟨_, by decide, by decide, h⟩

end Pings

end AgentHouse.Netd
