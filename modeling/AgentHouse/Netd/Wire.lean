import AgentHouse.Netd.Addresses
import AgentHouse.Netd.Dns
import AgentHouse.Netd.Link

/-!
# Packets of the guest

What the fields of a packet are is left to the parsers of smoltcp. `validate` decides which frames
are looked at any further: ARP and IPv4 of the guest itself, not fragmented, with correct
checksums.
-/

namespace AgentHouse.Netd

/-- An Ethernet frame, as smoltcp reads it. -/
structure Ethernet where
  src : Bytes
  ethertype : ℕ
  payload : Bytes

/-- The protocols that are told apart. -/
inductive IpProtocol where
  | icmp
  | tcp
  | udp
  | other
deriving DecidableEq

/-- An IPv4 packet, as smoltcp reads it. -/
structure Ipv4Packet where
  version : ℕ
  src : Ipv4
  dst : Ipv4
  checksum : Bool
  moreFrags : Bool
  fragOffset : ℕ
  nextHeader : IpProtocol
  payload : Bytes

/-- A TCP segment, as smoltcp reads it. -/
structure TcpPacket where
  srcPort : UInt16
  dstPort : UInt16
  syn : Bool
  ack : Bool
  fin : Bool
  rst : Bool
  checksum : Ipv4 → Ipv4 → Bool

/-- A UDP datagram, as smoltcp reads it. -/
structure UdpPacket where
  srcPort : UInt16
  dstPort : UInt16
  checksum : Ipv4 → Ipv4 → Bool

/-- The messages that are told apart. -/
inductive IcmpKind where
  | echoRequest
  | echoReply
  | other
deriving DecidableEq

/-- An ICMP packet, as smoltcp reads it. -/
structure IcmpPacket where
  kind : IcmpKind
  code : UInt8
  checksum : Bool
  ident : UInt16

/-- The parsers, `none` where `new_checked` refuses, and what fills in the fields of a reply. -/
structure Smoltcp where
  ethernet : Bytes → Option Ethernet
  ipv4 : Bytes → Option Ipv4Packet
  tcp : Bytes → Option TcpPacket
  udp : Bytes → Option UdpPacket
  icmp : Bytes → Option IcmpPacket
  /-- The checksum of an IPv4 header. -/
  fillIpv4 : Bytes → Bytes
  /-- The message type of a reply, and the checksum of the message. -/
  echoReply : Bytes → Bytes

/-- The gateway's own address. -/
def gw : Ipv4 := ⟨100, 64, 0, 1⟩

/-- The guest's address. -/
def guest : Ipv4 := ⟨100, 64, 0, 2⟩

/-- The guest's hardware address. -/
def mac : Bytes := [2, 0, 0, 0, 0, 2]

/-- The bytes of an address. -/
def octets (ip : Ipv4) : Bytes := [ip.a, ip.b, ip.c, ip.d]

/-- What a frame carries. -/
inductive Packet where
  | arp
  | ipv4 (ip : Ipv4Packet)

variable (W : Smoltcp)

/-- `valid_echo_request` -/
def validEchoRequest (bytes : Bytes) : Bool :=
  decide (8 ≤ bytes.length ∧ bytes.length ≤ 1480) &&
    (W.icmp bytes).any fun p => decide (p.kind = .echoRequest) && p.code == 0 && p.checksum

/-- The checks on what an IPv4 packet carries. -/
def validTransport (ip : Ipv4Packet) : Bool :=
  match ip.nextHeader with
  | .tcp =>
      (W.tcp ip.payload).any fun tcp =>
        !(tcp.srcPort == 0 || tcp.dstPort == 0 || (tcp.syn && (tcp.fin || tcp.rst)) ||
          !tcp.checksum ip.src ip.dst)
  | .udp =>
      decide (ip.dst = gw) && (W.udp ip.payload).any fun udp =>
        !(udp.srcPort == 0 || udp.dstPort != 53 || !udp.checksum ip.src ip.dst)
  | .icmp => validEchoRequest W ip.payload
  | .other => false

/-- `validate`: a frame of the guest that may be handed to the stack. -/
def validate (frame : Frame) : Option Packet :=
  if 1514 < frame.length then none
  else do
    let eth ← W.ethernet frame
    if eth.src ≠ mac then none
    else if eth.ethertype = 0x0806 then
      let p := eth.payload
      if p.length < 28 ∨ slice p 8 6 ≠ mac ∨ slice p 14 4 ≠ octets guest then none
      else some .arp
    else if eth.ethertype = 0x0800 then
      let ip ← W.ipv4 eth.payload
      if ip.version ≠ 4 ∨ ip.src ≠ guest ∨ !ip.checksum ∨ ip.moreFrags ∨ ip.fragOffset ≠ 0 then none
      else if validTransport W ip then some (.ipv4 ip)
      else none
    else none

/-- The frame of an answered echo request. -/
def replyFrame (source : Ipv4) (request : Bytes) : Frame :=
  mac ++ [2, 0, 0, 0, 0, 1] ++ [8, 0] ++
    W.fillIpv4 ([0x45, 0] ++ beBytes 2 (20 + request.length) ++ [0, 0, 0, 0, 64, 1, 0, 0] ++
      octets source ++ octets guest) ++
    W.echoReply request

variable {W} {frame : Frame} {ip : Ipv4Packet}

/-! ## Packets without options -/

/-- The sum of the words of two bytes. -/
def wordSum : Bytes → ℕ
  | a :: b :: rest => 256 * a.toNat + b.toNat + wordSum rest
  | [a] => 256 * a.toNat
  | [] => 0

/-- The words add up to zero, in the arithmetic of the checksum. -/
def verifies (bytes : Bytes) : Bool := wordSum bytes % 65535 == 0

/-- Replace the word at an offset by the checksum. -/
def fill16 (bytes : Bytes) (offset : ℕ) : Bytes :=
  let zeroed := bytes.take offset ++ [0, 0] ++ bytes.drop (offset + 2)
  bytes.take offset ++ beBytes 2 (65535 - wordSum zeroed % 65535) ++ bytes.drop (offset + 2)

/-- The address of four bytes. -/
def address (bytes : Bytes) : Ipv4 :=
  ⟨bytes.getD 0 0, bytes.getD 1 0, bytes.getD 2 0, bytes.getD 3 0⟩

/-- The port at an offset. -/
def port (bytes : Bytes) (offset : ℕ) : UInt16 := .ofNat (ofBe (slice bytes offset 2))

/-- The words of the header that the checksums of TCP and UDP cover besides the segment. -/
def pseudoHeader (src dst : Ipv4) (protocol : UInt8) (segment : Bytes) : Bytes :=
  octets src ++ octets dst ++ [0, protocol] ++ beBytes 2 segment.length ++ segment

/-- What the parsers do with packets that have no options. -/
def Smoltcp.plain : Smoltcp where
  ethernet b :=
    if b.length < 14 then none else some ⟨slice b 6 6, ofBe (slice b 12 2), b.drop 14⟩
  ipv4 b :=
    if b.length < 20 ∨ b.length < ofBe (slice b 2 2) ∨ b.getD 0 0 ≠ 0x45 then none
    else some {
      version := 4
      src := address (slice b 12 4)
      dst := address (slice b 16 4)
      checksum := verifies (b.take 20)
      moreFrags := b.getD 6 0 &&& 0x20 != 0
      fragOffset := ofBe (slice b 6 2) % 8192
      nextHeader :=
        match b.getD 9 0 with
        | 1 => .icmp
        | 6 => .tcp
        | 17 => .udp
        | _ => .other
      payload := slice b 20 (ofBe (slice b 2 2) - 20) }
  tcp b :=
    if b.length < 20 ∨ b.getD 12 0 ≠ 0x50 then none
    else some {
      srcPort := port b 0
      dstPort := port b 2
      syn := b.getD 13 0 &&& 2 != 0
      ack := b.getD 13 0 &&& 16 != 0
      fin := b.getD 13 0 &&& 1 != 0
      rst := b.getD 13 0 &&& 4 != 0
      checksum := fun src dst => verifies (pseudoHeader src dst 6 b) }
  udp b :=
    if b.length < 8 then none
    else some ⟨port b 0, port b 2, fun src dst => verifies (pseudoHeader src dst 17 b)⟩
  icmp b :=
    if b.length < 8 then none
    else some {
      kind :=
        match b.getD 0 0 with
        | 8 => .echoRequest
        | 0 => .echoReply
        | _ => .other
      code := b.getD 1 0
      checksum := verifies b
      ident := port b 4 }
  fillIpv4 b := fill16 b 10
  echoReply b := fill16 (0 :: b.drop 1) 2

/-- An echo request with one byte of data. -/
def ping : Bytes := fill16 [8, 0, 0, 0, 0x12, 0x34, 0, 7, 0x70] 2

example : validEchoRequest .plain ping = true := by decide

/-- A SYN from port 40000 to port 443 of 1.1.1.1. -/
def syn : Frame :=
  let segment : Bytes :=
    [0x9c, 0x40, 0x01, 0xbb] ++ List.replicate 8 0 ++ [0x50, 2] ++ List.replicate 6 0
  [2, 0, 0, 0, 0, 1] ++ mac ++ [8, 0] ++
    fill16 ([0x45, 0, 0, 40, 0, 0, 0, 0, 64, 6, 0, 0] ++ octets guest ++ [1, 1, 1, 1]) 10 ++
    (fill16 (pseudoHeader guest ⟨1, 1, 1, 1⟩ 6 segment) 28).drop 12

example : (validate .plain syn).isSome = true := by decide

end AgentHouse.Netd
