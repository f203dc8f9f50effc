import Mathlib.Algebra.Ring.Nat
import Mathlib.Data.List.Basic
import Mathlib.Tactic.Common

/-!
# Addresses that a guest may reach

The gateway decides by the octets of an address whether it is public. What it means is that the
address lies in none of the blocks that are reserved, and is no address of the host.
-/

namespace AgentHouse.Netd

/-- The octets of an address. -/
structure Ipv4 where
  a : UInt8
  b : UInt8
  c : UInt8
  d : UInt8
deriving DecidableEq, Repr

/-- An address and a port. -/
structure Endpoint where
  ip : Ipv4
  port : UInt16
deriving DecidableEq, Repr

/-- `gateway::public` -/
def «public» (ip : Ipv4) (host : List Ipv4) : Bool :=
  let ⟨a, b, c, _⟩ := ip
  !decide (ip ∈ host) &&
    !(a == 0 || a == 10 || a == 127 || decide (224 ≤ a)) &&
    !(a == 100 && (decide (64 ≤ b) && decide (b ≤ 127))) &&
    !(a == 169 && b == 254) &&
    !(a == 172 && (decide (16 ≤ b) && decide (b ≤ 31))) &&
    !(a == 192 && (b == 168 || b == 0 || (b == 88 && c == 99))) &&
    !(a == 198 && (b == 18 || b == 19 || (b == 51 && c == 100))) &&
    !(a == 203 && b == 0 && c == 113)

/-- `valid_private_endpoint` -/
def validPrivateEndpoint (endpoint : Endpoint) : Bool :=
  let ⟨a, b, _, _⟩ := endpoint.ip
  endpoint.port != 0 &&
    !(a == 0 || decide (224 ≤ a)) &&
    !(a == 169 && b == 254) &&
    !(a == 100 && (decide (64 ≤ b) && decide (b ≤ 127)))

/-! ## Blocks -/

/-- The number of an address. -/
def Ipv4.toNat (ip : Ipv4) : ℕ :=
  ((ip.a.toNat * 256 + ip.b.toNat) * 256 + ip.c.toNat) * 256 + ip.d.toNat

/-- The addresses that share their first bits with the base. -/
structure Block where
  base : Ipv4
  bits : ℕ

/-- The address is in the block. -/
def Block.Contains (block : Block) (ip : Ipv4) : Prop :=
  ip.toNat / 2 ^ (32 - block.bits) = block.base.toNat / 2 ^ (32 - block.bits)

instance (block : Block) (ip : Ipv4) : Decidable (block.Contains ip) := by
  unfold Block.Contains
  infer_instance

/-- No one is reached under these addresses: the network itself, shared addresses of carriers (the
guest's own network is one of them), link-local addresses, multicast and the rest of the space. -/
def unroutable : List Block :=
  [⟨⟨0, 0, 0, 0⟩, 8⟩, ⟨⟨100, 64, 0, 0⟩, 10⟩, ⟨⟨169, 254, 0, 0⟩, 16⟩, ⟨⟨224, 0, 0, 0⟩, 3⟩]

/-- Private networks, the loopback network, and blocks kept for documentation, tests and relays. -/
def reserved : List Block :=
  [⟨⟨10, 0, 0, 0⟩, 8⟩, ⟨⟨127, 0, 0, 0⟩, 8⟩, ⟨⟨172, 16, 0, 0⟩, 12⟩, ⟨⟨192, 168, 0, 0⟩, 16⟩,
    ⟨⟨192, 0, 0, 0⟩, 16⟩, ⟨⟨192, 88, 99, 0⟩, 24⟩, ⟨⟨198, 18, 0, 0⟩, 15⟩, ⟨⟨198, 51, 100, 0⟩, 24⟩,
    ⟨⟨203, 0, 113, 0⟩, 24⟩]

section Octets

variable (ip : Ipv4) (a b c : UInt8)

/-- The octets of an address are its digits. -/
theorem octets_lt : ip.a.toNat < 256 ∧ ip.b.toNat < 256 ∧ ip.c.toNat < 256 ∧ ip.d.toNat < 256 :=
  ⟨ip.a.toNat_lt, ip.b.toNat_lt, ip.c.toNat_lt, ip.d.toNat_lt⟩

/-- A block of one byte, and then the others that the list uses. -/
theorem contains_one : (Block.mk ⟨a, 0, 0, 0⟩ 8).Contains ip ↔ ip.a = a := by
  obtain ⟨ha, hb, hc, hd⟩ := octets_lt ip
  have ha' := a.toNat_lt
  simp only [Block.Contains, Ipv4.toNat, UInt8.toNat_zero, ← UInt8.toNat_inj]
  omega

theorem contains_two : (Block.mk ⟨a, b, 0, 0⟩ 16).Contains ip ↔ ip.a = a ∧ ip.b = b := by
  obtain ⟨ha, hb, hc, hd⟩ := octets_lt ip
  have ha' := a.toNat_lt
  have hb' := b.toNat_lt
  simp only [Block.Contains, Ipv4.toNat, UInt8.toNat_zero, ← UInt8.toNat_inj]
  omega

theorem contains_three :
    (Block.mk ⟨a, b, c, 0⟩ 24).Contains ip ↔ ip.a = a ∧ ip.b = b ∧ ip.c = c := by
  obtain ⟨ha, hb, hc, hd⟩ := octets_lt ip
  have ha' := a.toNat_lt
  have hb' := b.toNat_lt
  have hc' := c.toNat_lt
  simp only [Block.Contains, Ipv4.toNat, UInt8.toNat_zero, ← UInt8.toNat_inj]
  omega

/-- The shared block. -/
theorem contains_shared : (Block.mk ⟨100, 64, 0, 0⟩ 10).Contains ip ↔
    ip.a = 100 ∧ 64 ≤ ip.b ∧ ip.b ≤ 127 := by
  obtain ⟨ha, hb, hc, hd⟩ := octets_lt ip
  simp only [Block.Contains, Ipv4.toNat, UInt8.reduceToNat, UInt8.le_iff_toNat_le,
    ← UInt8.toNat_inj]
  omega

theorem contains_upper : (Block.mk ⟨224, 0, 0, 0⟩ 3).Contains ip ↔ 224 ≤ ip.a := by
  obtain ⟨ha, hb, hc, hd⟩ := octets_lt ip
  simp only [Block.Contains, Ipv4.toNat, UInt8.reduceToNat, UInt8.le_iff_toNat_le]
  omega

/-- The private block of sixteen networks. -/
theorem contains_private : (Block.mk ⟨172, 16, 0, 0⟩ 12).Contains ip ↔
    ip.a = 172 ∧ 16 ≤ ip.b ∧ ip.b ≤ 31 := by
  obtain ⟨ha, hb, hc, hd⟩ := octets_lt ip
  simp only [Block.Contains, Ipv4.toNat, UInt8.reduceToNat, UInt8.le_iff_toNat_le,
    ← UInt8.toNat_inj]
  omega

theorem contains_benchmark : (Block.mk ⟨198, 18, 0, 0⟩ 15).Contains ip ↔
    ip.a = 198 ∧ (ip.b = 18 ∨ ip.b = 19) := by
  obtain ⟨ha, hb, hc, hd⟩ := octets_lt ip
  simp only [Block.Contains, Ipv4.toNat, UInt8.reduceToNat, ← UInt8.toNat_inj]
  omega

end Octets

variable {ip : Ipv4} {host : List Ipv4} {endpoint : Endpoint}

/-- A public address is an address outside the blocks that is not one of the host. -/
theorem public_iff : «public» ip host = true ↔
    ip ∉ host ∧ ∀ block ∈ unroutable ++ reserved, ¬ block.Contains ip := by
  simp only [unroutable, reserved, List.cons_append, List.nil_append, List.forall_mem_cons,
    contains_one, contains_two, contains_three, contains_shared, contains_upper,
    contains_private, contains_benchmark, «public»]
  simp only [Bool.and_eq_true, Bool.not_eq_true', decide_eq_false_iff_not, Bool.and_eq_false_iff,
    Bool.or_eq_false_iff, beq_eq_false_iff_ne]
  grind

/-- A grant is for one port of an address that can be reached. -/
theorem validPrivateEndpoint_iff : validPrivateEndpoint endpoint = true ↔
    endpoint.port ≠ 0 ∧ ∀ block ∈ unroutable, ¬ block.Contains endpoint.ip := by
  simp only [unroutable, List.forall_mem_cons, contains_one, contains_two, contains_shared,
    contains_upper, validPrivateEndpoint]
  simp only [Bool.and_eq_true, Bool.not_eq_true', decide_eq_false_iff_not, Bool.and_eq_false_iff,
    Bool.or_eq_false_iff, beq_eq_false_iff_ne, bne_iff_ne]
  grind

end AgentHouse.Netd
