import AgentHouse.Lib.Tables
import AgentHouse.Netd.Echo

/-!
# The tables of the gateway

The flows of a guest link with their sockets in the stack, the threads that connect to the host's
side, the pings, and the questions that wait for the resolver. A round of `serve` admits frames,
relays between sockets and host streams, removes what has ended, and answers. Which
packets the guest sends, what the stack makes of them, and what the host's streams and
the resolver do, is given.
-/

namespace AgentHouse.Netd

/-- `MAX_FLOWS` -/
def maxFlows : ℕ := 64

/-- `MAX_QUERIES` -/
def maxQueries : ℕ := 64

/-- A flow or a socket that nothing happens on is given up after two minutes. -/
def idleTimeout : ℕ := 120 * scale

/-- What the host allows: its resolver, and single ports of private addresses. -/
structure Policy where
  resolver : Ipv4
  privateAccess : List Endpoint

/-- The key of a flow. -/
structure Key where
  dst : Ipv4
  port : UInt16
  source : UInt16
deriving DecidableEq

/-! ## Sockets -/

/-- The states of a socket that listens; the gateway's sockets do not connect. -/
inductive TcpState where
  | closed
  | listen
  | synReceived
  | established
  | finWait1
  | finWait2
  | closeWait
  | closing
  | lastAck
  | timeWait
deriving DecidableEq

/-- The guest can still send on the connection, or it is not there yet. -/
def TcpState.Open (state : TcpState) : Prop :=
  state = .listen ∨ state = .synReceived ∨ state = .established ∨ state = .finWait1 ∨
    state = .finWait2

/-- `tcp::Socket` of smoltcp, and what one poll of the interface does to a socket. -/
structure TcpSockets where
  Socket : Type
  /-- What arrives for a socket or expires on it. -/
  Event : Type
  /-- A new socket with its timeout, once it listens. -/
  listening : Socket
  poll : Event → Socket → Socket
  state : Socket → TcpState
  canRecv : Socket → Bool
  mayRecv : Socket → Bool
  canSend : Socket → Bool
  /-- The octets in the receive buffer. -/
  buffered : Socket → Bytes
  /-- Those that `recv` calls its function with. -/
  contiguous : Socket → Bytes
  /-- `recv` with a function that returns this number. -/
  recv : ℕ → Socket → Socket
  sendCapacity : Socket → ℕ
  sendQueue : Socket → ℕ
  sendSlice : Bytes → Socket → Option ℕ × Socket
  close : Socket → Socket
  abort : Socket → Socket

/-- What smoltcp documents of a socket: the halves of a connection in each state, the octets of the
buffers in their order, and that nothing arrives behind a FIN. -/
structure TcpSockets.Documented (T : TcpSockets) : Prop where
  listening : T.buffered T.listening = []
  mayRecv : ∀ k, T.mayRecv k = true ↔ T.state k = .established ∨ T.state k = .finWait1 ∨
    T.state k = .finWait2 ∨ T.buffered k ≠ []
  canSend : ∀ k, T.canSend k = true → T.state k = .established ∨ T.state k = .closeWait
  contiguous : ∀ k, T.contiguous k <+: T.buffered k
  recv : ∀ k n, n ≤ (T.contiguous k).length →
    T.state (T.recv n k) = T.state k ∧ T.buffered (T.recv n k) = (T.buffered k).drop n
  sendSlice : ∀ k bytes, T.state (T.sendSlice bytes k).2 = T.state k ∧
    T.buffered (T.sendSlice bytes k).2 = T.buffered k
  close : ∀ k, T.buffered (T.close k) = T.buffered k ∧
    (T.state k = .established → T.state (T.close k) = .finWait1) ∧
    (T.state k = .closeWait → T.state (T.close k) = .lastAck)
  abort : ∀ k, T.state (T.abort k) = .closed ∧ T.buffered (T.abort k) <+: T.buffered k
  closed : ∀ e k, T.state k = .closed → T.state (T.poll e k) = .closed
  opened : ∀ e k, (T.state (T.poll e k)).Open → (T.state k).Open
  arrives : ∀ e k,
    (∃ more, T.buffered (T.poll e k) = T.buffered k ++ more ∧ (more ≠ [] → (T.state k).Open)) ∨
    T.state (T.poll e k) = .closed ∧ T.buffered (T.poll e k) = []

variable {T : TcpSockets}

/-- A socket, with all octets that it got from the guest and all that it took for the guest. -/
structure Connection (T : TcpSockets) where
  socket : T.Socket
  received : Bytes
  queued : Bytes

namespace Connection

/-- A connection whose socket listens. -/
def new : Connection T := ⟨T.listening, [], []⟩

variable (k : Connection T)

/-- The state of the socket. -/
def state : TcpState := T.state k.socket

/-- The octets that wait for the host. -/
def rx : Bytes := T.buffered k.socket

/-- What the buffer has grown by was received. -/
def poll (e : T.Event) : Connection T :=
  { k with
    socket := T.poll e k.socket
    received := k.received ++ (T.buffered (T.poll e k.socket)).drop k.rx.length }

/-- The socket is aborted. -/
def abort : Connection T := { k with socket := T.abort k.socket }

/-- The guest's side is told that nothing follows. -/
def close : Connection T := { k with socket := T.close k.socket }

/-- Bytes are taken from the guest. -/
def recv (n : ℕ) : Connection T := { k with socket := T.recv n k.socket }

/-- The number of octets that the socket takes. -/
def accepts (bytes : Bytes) : Option ℕ := (T.sendSlice bytes k.socket).1

/-- Bytes are queued for the guest, as far as the socket accepts them. -/
def send (bytes : Bytes) : Connection T :=
  { k with
    socket := (T.sendSlice bytes k.socket).2
    queued := k.queued ++ bytes.take ((k.accepts bytes).getD 0) }

end Connection

/-! ## Flows -/

/-- A flow: its handle in the set of sockets, the thread that connects it, and what its receiver
holds; once connected, all bytes written to the host's stream and read from it. -/
structure Flow where
  key : Key
  handle : ℕ
  thread : ℕ
  connecting : Option Bool
  host : Bool
  last : ℕ
  readEof : Bool
  writeEof : Bool
  toHost : Bytes
  fromHost : Bytes

/-- What a write to the host's stream comes to. -/
inductive WriteOutcome where
  | bytes (n : ℕ)
  | wouldBlock
  | failed

/-- Without bytes the stream is at its end. -/
inductive ReadOutcome where
  | bytes (data : Bytes)
  | wouldBlock
  | failed

/-- What the host's stream does in one pass over a flow. -/
structure FlowIo where
  write : WriteOutcome
  read : ReadOutcome

/-- The gateway's buffer. -/
def bufferSize : ℕ := 16384

namespace Flow

variable (f : Flow) (k : Connection T) (now : ℕ) (io : FlowIo)

/-- From the guest to the host. -/
def upstream : Flow × Connection T :=
  if !T.canRecv k.socket then (f, k)
  else
    match io.write with
    | .bytes n =>
        let data := (T.contiguous k.socket).take n
        ({ f with toHost := f.toHost ++ data, last := if 0 < n then now else f.last },
          k.recv data.length)
    | .wouldBlock => (f, k.recv 0)
    | .failed => (f, (k.recv 0).abort)

/-- From the host to the guest. What has been read cannot be read again. -/
def downstream : Flow × Connection T :=
  if !T.canSend k.socket || f.readEof then (f, k)
  else
    match io.read with
    | .bytes data =>
        let count := min (T.sendCapacity k.socket - T.sendQueue k.socket) bufferSize
        let data := data.take count
        if data = [] then ({ f with readEof := true }, k.close)
        else
          let f := { f with fromHost := f.fromHost ++ data }
          if k.accepts data = some data.length then ({ f with last := now }, k.send data)
          else (f, (k.send data).abort)
    | .wouldBlock => (f, k)
    | .failed => (f, k.abort)

/-- The host's side is shut down for writing once the guest sends no more. -/
def shutdown : Flow :=
  if !T.mayRecv k.socket && !f.writeEof && decide (k.state ≠ .listen) &&
      decide (k.state ≠ .synReceived) then
    { f with writeEof := true }
  else f

/-- A flow that was idle too long is aborted. -/
def expire : Connection T := if idleTimeout < now - f.last then k.abort else k

/-- The stream that a thread has connected is taken over. -/
def connected : Flow := { f with connecting := none, host := true }

/-- One pass over a flow that is connected. -/
def relay : Flow × Connection T :=
  let (f, k) := f.upstream k now io
  let (f, k) := f.downstream k now io
  let f := f.shutdown k
  (f, f.expire k now)

end Flow

/-! ## The gateway -/

/-- A thread that connects to the host's side. It holds a permit until it ends. -/
structure Connector where
  thread : ℕ
  target : Endpoint
  sent : Bool

/-- A connect, with the frame that asked for it and the addresses of the host that were looked up
for it. -/
structure Connect where
  frame : Frame
  key : Key
  target : Endpoint
  host : Option (List Ipv4)

/-- A question that was sent to the resolver for an address of the guest, over a socket of its
own. -/
structure Query where
  socket : ℕ
  client : Endpoint
  question : Question
  started : ℕ

/-- Where the loop is. -/
inductive Round where
  | admitting
  | relaying (todo : List Key)
  | answering
deriving DecidableEq

/-- The gateway, with the record of what it sent and dialled. -/
structure Gateway (T : TcpSockets) where
  now : ℕ
  round : Round
  flows : List Flow
  /-- The TCP sockets in the set. -/
  sockets : ℕ → Option (Connection T)
  connectors : List Connector
  /-- The next thread. -/
  threads : ℕ
  /-- The permits that are taken, by threads of this link and of links that have ended. -/
  active : ℕ
  earlier : ℕ
  /-- The flows that are to be removed in this round. -/
  remove : List Key
  pings : Pings
  queries : List Query
  panicked : Bool
  /-- The frames that the stack was given, the connects, the datagrams for the resolver with their
  clients, each by the number of its socket, the replies to the guest, and what was removed. -/
  passed : List Frame
  connects : List Connect
  asked : List (Endpoint × Bytes)
  replied : List (Query × Bytes)
  removed : List (Flow × Connection T)

/-- What `recv` finds for a question. -/
inductive Answer where
  | datagram (bytes : Bytes)
  | wouldBlock
  | failed

namespace Gateway

/-- What a step is given by the guest, the stack, the threads and the host. -/
inductive Act (T : TcpSockets) where
  | tick (d : ℕ)
  /-- A frame is taken off the link. The addresses of the host are looked up at most once for it;
  the handle and whether `listen` succeeds are those of a new socket, and `retired` is the flow that
  makes room. -/
  | frame (frame : Frame) (host : Option (List Ipv4)) (ident : Option UInt16) (handle : ℕ)
      (listens : Bool) (retired : Option Key)
  | stack (handle : ℕ) (e : T.Event)
  | connected (thread : ℕ) (ok : Bool)
  | ended (thread : ℕ)
  /-- A thread of an earlier link ends. -/
  | earlierEnded
  /-- The flows are relayed, in the order of the map. -/
  | relay (order : List Key)
  | pass (io : FlowIo)
  | reclaim
  /-- A datagram of the guest for the resolver. -/
  | query (client : Endpoint) (datagram : Bytes) (opened sent : Bool)
  | answers (recv : Query → Answer)
  | echoes (recv : Echo → Recv)
  | next

/-- The state at the beginning of a link; threads of earlier links may still hold permits. -/
def init (now earlier : ℕ) : Gateway T where
  now
  round := .admitting
  flows := []
  sockets := fun _ => none
  connectors := []
  threads := 0
  active := earlier
  earlier
  remove := []
  pings := .init now
  queries := []
  panicked := false
  passed := []
  connects := []
  asked := []
  replied := []
  removed := []

variable (W : Smoltcp) (policy : Policy) (s : Gateway T)

/-- The flow of a key. -/
def flow (key : Key) : Option Flow := Table.row Flow.key key s.flows

/-- The flow changes. -/
def setFlow (f : Flow) : Gateway T :=
  { s with flows := Table.revise Flow.key f.key (fun _ => f) s.flows }

/-- The socket of a handle changes. -/
def setSocket (handle : ℕ) (k : Connection T) : Gateway T :=
  { s with sockets := Function.update s.sockets handle (some k) }

/-- The process panics. -/
def panic : Gateway T := { s with panicked := true }

/-- `flows.remove` and `sockets.remove`, which panics over a handle that is not there. -/
def drop (key : Key) : Gateway T :=
  match s.flow key with
  | none => s
  | some f =>
      match s.sockets f.handle with
      | none => s.panic
      | some k =>
          { s with
            flows := s.flows.filter fun g => decide (g.key ≠ key)
            sockets := Function.update s.sockets f.handle none
            removed := s.removed ++ [(f, k)] }

/-- A socket's state in the set. -/
def state (handle : ℕ) : Option TcpState := (s.sockets handle).map Connection.state

/-- The flow that has waited longest in `TIME_WAIT`, if there is one. -/
def Oldest (retired : Option Key) : Prop :=
  match retired with
  | none => ∀ f ∈ s.flows, s.state f.handle ≠ some .timeWait
  | some key => ∃ f ∈ s.flows, f.key = key ∧ s.state f.handle = some .timeWait ∧
      ∀ g ∈ s.flows, s.state g.handle = some .timeWait → f.last ≤ g.last

instance (retired : Option Key) : Decidable (s.Oldest retired) := by
  unfold Oldest
  cases retired <;> infer_instance

/-- Room is made for a flow. -/
def retire (retired : Option Key) : Gateway T :=
  match retired with
  | none => s
  | some key => s.drop key

/-- The exceptions to the rule that an address must be public. -/
def excepted (dst : Endpoint) : Bool :=
  decide (dst = ⟨gw, 53⟩) || decide (dst ∈ policy.privateAccess)

/-- Where a connection to an address of the guest's network is made to. -/
def target (dst : Endpoint) : Endpoint :=
  if dst = ⟨gw, 53⟩ then ⟨policy.resolver, 53⟩ else dst

/-- A permit is taken, a socket listens, and a thread connects. -/
def connect (c : Connect) (handle : ℕ) : Gateway T :=
  { s.setSocket handle .new with
    flows := s.flows ++ [⟨c.key, handle, s.threads, none, false, s.now, false, false, [], []⟩]
    connectors := s.connectors ++ [⟨s.threads, c.target, false⟩]
    threads := s.threads + 1
    active := s.active + 1
    connects := s.connects ++ [c] }

/-- A flow is admitted. `none` is a frame that goes no further. -/
def admitFlow (frame : Frame) (key : Key) (host : Option (List Ipv4)) (handle : ℕ)
    (listens : Bool) : Option (Gateway T) :=
  let dst : Endpoint := ⟨key.dst, key.port⟩
  if !excepted policy dst && !host.any («public» key.dst) then none
  else if maxFlows ≤ s.active then none
  else if !listens then none
  else some (s.connect ⟨frame, key, target policy dst, host⟩ handle)

/-- A frame goes on to the stack. -/
def pass (frame : Frame) : Gateway T := { s with passed := s.passed ++ [frame] }

/-- The segment opens a flow that is not there yet. -/
def isNew (tcp : TcpPacket) (key : Key) : Bool := tcp.syn && !tcp.ack && (s.flow key).isNone

/-- `admit_tcp`: public destinations and those that policy excepts. -/
def admitTcp (frame : Frame) (ip : Ipv4Packet) (tcp : TcpPacket) (host : Option (List Ipv4))
    (handle : ℕ) (listens : Bool) (retired : Option Key) : Option (Gateway T) :=
  if tcp.srcPort = 0 ∨ tcp.dstPort = 0 ∨ (tcp.syn ∧ (tcp.fin ∨ tcp.rst)) then some s
  else if !excepted policy ⟨ip.dst, tcp.dstPort⟩ && !«public» ip.dst [] then some s
  else
    let key : Key := ⟨ip.dst, tcp.dstPort, tcp.srcPort⟩
    if !s.isNew tcp key then some (s.pass frame)
    else if maxFlows ≤ s.flows.length ∧ ¬ s.Oldest retired then none
    else
      let s := if maxFlows ≤ s.flows.length then s.retire retired else s
      if maxFlows ≤ s.flows.length then some (s.pass frame)
      else if (s.sockets handle).isSome then none
      else some (((s.admitFlow policy frame key host handle listens).map (·.pass frame)).getD s)

/-- `admit`: what becomes of a frame that is valid. -/
def admitFrame (frame : Frame) (host : Option (List Ipv4)) (ident : Option UInt16) (handle : ℕ)
    (listens : Bool) (retired : Option Key) : Option (Gateway T) :=
  match validate W frame with
  | none => some s
  | some .arp => some (s.pass frame)
  | some (.ipv4 ip) =>
      match ip.nextHeader with
      | .icmp => some { s with pings := s.pings.request W ip.dst ip.payload host ident }
      | .tcp =>
          match W.tcp ip.payload with
          | none => some s
          | some tcp => s.admitTcp policy frame ip tcp host handle listens retired
      | .udp => some (if ip.dst = gw then s.pass frame else s)
      | .other => some s

/-- The flow and its socket after a pass, and whether the flow is to be removed. -/
def settle (f : Flow) (k : Connection T) : Gateway T :=
  { (s.setFlow f).setSocket f.handle k with
    remove := if k.state = .closed then s.remove ++ [f.key] else s.remove }

/-- A pass over one flow. -/
def passFlow (f : Flow) (io : FlowIo) : Gateway T :=
  match s.sockets f.handle with
  | none => s.panic
  | some k =>
      if f.host then
        let (f, k) := f.relay k s.now io
        s.settle f k
      else
        match f.connecting with
        | none => s
        | some false => s.settle f k.abort
        | some true =>
            let (f, k) := f.connected.relay k s.now io
            s.settle f k

/-- The thread of a flow has connected, or it has failed. -/
def report (thread : ℕ) (ok : Bool) : Gateway T :=
  { s with
    connectors := s.connectors.map fun c => if c.thread = thread then { c with sent := true } else c
    flows := s.flows.map fun f =>
      if f.thread = thread then { f with connecting := some ok } else f }

/-- A question is sent to the host's resolver. -/
def sendQuery (client : Endpoint) (datagram : Bytes) (opened sent : Bool) : Gateway T :=
  if datagram.length < 12 ∨ maxQueries ≤ s.queries.length then s
  else
    match Question.query datagram with
    | .error .none => s
    | .error .panic => s.panic
    | .ok question =>
        if !opened then s
        else { s with
          asked := s.asked ++ [(client, datagram)]
          queries :=
            if sent then s.queries ++ [⟨s.asked.length, client, question, s.now⟩]
            else s.queries }

/-- What one look at a question comes to: it is dropped, it waits, or it is answered. -/
def look (q : Query) (a : Answer) : Checked (Bool × Option Bytes) :=
  if deadline ≤ s.now - q.started then .ok (false, none)
  else
    match a with
    | .wouldBlock => .ok (true, none)
    | .failed => .ok (false, none)
    | .datagram bytes => do
        if !(← q.question.matches bytes) then return (true, none)
        else if 1232 < bytes.length then
          return (false, ← Question.option (q.question.truncatedReply bytes))
        else return (false, some bytes)

/-- Whether a question is kept. -/
def keeps (q : Query) (a : Answer) : Bool := ((s.look q a).map Prod.fst).toOption.getD true

/-- What the guest is sent for a question. -/
def reply (q : Query) (a : Answer) : Option (Query × Bytes) :=
  ((s.look q a).toOption.bind Prod.snd).map (q, ·)

/-- The replies to the questions that wait. -/
def answer (recv : Query → Answer) : Gateway T :=
  { s with
    queries := s.queries.filter fun q => s.keeps q (recv q)
    replied := s.replied ++ s.queries.filterMap fun q => s.reply q (recv q)
    panicked := s.panicked || s.queries.any fun q => (s.look q (recv q)).toOption.isNone }

/-- The state after a step, if that can happen. -/
def step (a : Act T) : Option (Gateway T) :=
  match a, s.round with
  | .tick d, _ => some { s with now := s.now + d, pings := s.pings.step W (.tick d) }
  | .stack handle e, _ => (s.sockets handle).map fun k => s.setSocket handle (k.poll e)
  | .connected thread ok, _ =>
      if s.connectors.any fun c => decide (c.thread = thread) && !c.sent then
        some (s.report thread ok)
      else none
  | .ended thread, _ =>
      if s.connectors.any fun c => decide (c.thread = thread) && c.sent then
        some { s with
          connectors := s.connectors.filter fun c => decide (c.thread ≠ thread)
          active := s.active - 1 }
      else none
  | .earlierEnded, _ =>
      if s.earlier = 0 then none
      else some { s with earlier := s.earlier - 1, active := s.active - 1 }
  | .frame frame host ident handle listens retired, .admitting =>
      s.admitFrame W policy frame host ident handle listens retired
  | .relay order, .admitting =>
      if order.isPerm (s.flows.map Flow.key) then
        some { s with round := .relaying order, remove := [] }
      else none
  | .pass io, .relaying (key :: todo) =>
      match s.flow key with
      | none => none
      | some f => some { s.passFlow f io with round := .relaying todo }
  | .reclaim, .relaying [] =>
      some { s.remove.foldl drop s with remove := [], round := .answering }
  | .query client datagram opened sent, .answering =>
      some (s.sendQuery client datagram opened sent)
  | .answers recv, .answering => some (s.answer recv)
  | .echoes recv, .answering => some { s with pings := s.pings.poll W recv }
  | .next, .answering => some { s with round := .admitting }
  | _, _ => none

end Gateway

end AgentHouse.Netd
