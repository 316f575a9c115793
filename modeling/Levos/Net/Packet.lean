import Levos.Base.Fields
import Levos.Net.ArpCache
import Levos.Net.Checksum
import Levos.Net.Frame

/-!
# Packets that are sent (`net/packet.c`, `net/eth.c`, `net/ip.c`, `net/udp.c`)

A packet grows from the front, one header after the other; each `realloc`
leaves in the new part what was in its memory. A field in network order is
stored as its bytes, `be16` and `be32`.
-/

namespace Levos.Net

open Levos.Base

/-! ## The functions of the source -/

/-- `packet_t`, with `p_ptr` as an offset from `p_buf`. -/
structure Packet where
  buf : Nat → UInt8
  len : Nat
  ptr : Nat
  ipOffset : Nat
  protoOffset : Nat

/-- What the allocations of a call return, in their order: null, or memory with
these bytes in it. -/
abbrev Alloc := Nat → Option (Nat → UInt8)

def packetAllocate (mem : Option (Nat → UInt8)) : Option Packet :=
  mem.map fun junk => { buf := junk, len := 0, ptr := 0, ipOffset := 0, protoOffset := 0 }

/-- What `realloc` makes of the packet. -/
def Packet.grown (pkt : Packet) (junk : Nat → UInt8) (len : Nat) : Packet :=
  { pkt with buf := fun i => if i < pkt.len then pkt.buf i else junk i,
             ptr := pkt.len, len := pkt.len + len }

def packetGrow (mem : Option (Nat → UInt8)) (pkt : Packet) (len : Nat) : Option Packet :=
  mem.map fun junk => pkt.grown junk len

/-- The bytes of an `eth_addr_t`, and the address in memory. -/
def ethBytes (eth : BitVec 48) : List UInt8 :=
  [⟨eth.extractLsb' 40 8⟩, ⟨eth.extractLsb' 32 8⟩, ⟨eth.extractLsb' 24 8⟩,
    ⟨eth.extractLsb' 16 8⟩, ⟨eth.extractLsb' 8 8⟩, ⟨eth.extractLsb' 0 8⟩]

def ethAt (mem : Nat → UInt8) (a : Nat) : BitVec 48 :=
  (mem a).toBitVec ++ (mem (a + 1)).toBitVec ++ (mem (a + 2)).toBitVec ++
    (mem (a + 3)).toBitVec ++ (mem (a + 4)).toBitVec ++ (mem (a + 5)).toBitVec

def ethNullAddr : BitVec 48 := 0

def ethConstructPacket (mem : Alloc) (src dst : List UInt8) (ethType : BitVec 16) :
    Option Packet := do
  let pkt ← packetAllocate (mem 0)
  let pkt ← packetGrow (mem 1) pkt sizeofEthernetHeader
  let buf := putList pkt.buf 6 src
  let buf := putList buf 0 dst
  some { pkt with buf := putList buf 12 (be16 ethType) }

def ipSetVersion (mem : Nat → UInt8) (ip : Nat) (ver : UInt8) : Nat → UInt8 :=
  Function.update mem ip (mem ip &&& (0x0f : UInt8) ||| ver <<< (4 : UInt8))

def ipSetIhl (mem : Nat → UInt8) (ip : Nat) (ihl : UInt8) : Nat → UInt8 :=
  Function.update mem ip (mem ip &&& (0xf0 : UInt8) ||| ihl &&& (0x0f : UInt8))

def ipSetDscp (mem : Nat → UInt8) (ip : Nat) (dscp : UInt8) : Nat → UInt8 :=
  Function.update mem (ip + 1)
    (mem (ip + 1) &&& ~~~(0xfc : UInt8) ||| (dscp &&& (0x3f : UInt8)) <<< (2 : UInt8))

def ipSetEcn (mem : Nat → UInt8) (ip : Nat) (ecn : UInt8) : Nat → UInt8 :=
  Function.update mem (ip + 1) (mem (ip + 1) &&& (0xfc : UInt8) ||| ecn &&& (0x03 : UInt8))

def ipSetFlags (mem : Nat → UInt8) (ip flags : Nat) : Nat → UInt8 :=
  put16 mem (ip + 6) (le16 mem (ip + 6) &&& 0xe000 ||| (flags &&& 0x3) <<< 13)

/-- The mask is `~0xe000` of 16 bits. -/
def ipSetFrOff (mem : Nat → UInt8) (ip frOff : Nat) : Nat → UInt8 :=
  put16 mem (ip + 6) (le16 mem (ip + 6) &&& 0x1fff ||| frOff &&& 0x1fff)

/-- `ip_chksum` cleared, and then calculated. -/
def ipStoreChecksum (mem : Nat → UInt8) (ip : Nat) : Nat → UInt8 :=
  let mem := put16 mem (ip + ipChksumOffset) 0
  put16 mem (ip + ipChksumOffset) (ipCalculateChecksum mem ip)

def ipSetProto (mem : Nat → UInt8) (ip : Nat) (proto : BitVec 8) : Nat → UInt8 :=
  ipStoreChecksum (Function.update mem (ip + 9) ⟨proto⟩) ip

def ipWriteHeader (mem : Nat → UInt8) (ip : Nat) (src dst : BitVec 32) : Nat → UInt8 :=
  let mem := ipSetVersion mem ip 4
  let mem := ipSetIhl mem ip 5
  let mem := ipSetDscp mem ip 0
  let mem := ipSetEcn mem ip 0
  let mem := putList mem (ip + 2) (be16 20)
  let mem := putList mem (ip + 4) (be16 0)
  let mem := ipSetFlags mem ip 0
  let mem := ipSetFrOff mem ip 0
  let mem := Function.update mem (ip + 8) 64
  let mem := Function.update mem (ip + 9) ⟨ipProtoTcp⟩
  let mem := putList mem (ip + 12) (be32 src)
  let mem := putList mem (ip + 16) (be32 dst)
  ipStoreChecksum mem ip

def ipAddHeader (mem : Option (Nat → UInt8)) (pkt : Packet) (src dst : BitVec 32) :
    Option Packet :=
  (packetGrow mem pkt sizeofIpBaseHeader).map fun pkt =>
    { pkt with buf := ipWriteHeader pkt.buf pkt.ptr src dst }

def ipConstructPacketEthFull (mem : Alloc) (srceth dsteth : List UInt8) (src dst : BitVec 32) :
    Option Packet := do
  let pkt ← ethConstructPacket mem srceth dsteth ethTypeIp4
  let pkt ← ipAddHeader (mem 2) pkt src dst
  some { pkt with ipOffset := pkt.ptr }

def udpWriteHeader (mem : Nat → UInt8) (udp : Nat) (srcport dstport : BitVec 16) : Nat → UInt8 :=
  let mem := putList mem udp (be16 srcport)
  let mem := putList mem (udp + 2) (be16 dstport)
  let mem := putList mem (udp + 4) (be16 8)
  putList mem (udp + 6) [0, 0]

def udpAddHeader (mem : Option (Nat → UInt8)) (pkt : Packet) (srcport dstport : BitVec 16) :
    Option Packet :=
  (packetGrow mem pkt sizeofUdpHeader).map fun pkt =>
    { pkt with buf := udpWriteHeader pkt.buf pkt.ptr srcport dstport }

/-- `udp_construct_packet`, with what the ARP cache says of the address. -/
def udpConstructPacket (mem : Alloc) (arpGetEthAddr : BitVec 32 → Option (BitVec 48))
    (srceth : List UInt8) (srcip : BitVec 32) (srcport : BitVec 16) (dstip : BitVec 32)
    (dstport : BitVec 16) : Option Packet := do
  let dstip := toBe32 dstip
  let dsteth ← arpGetEthAddr dstip
  let pkt ← ipConstructPacketEthFull mem srceth (ethBytes dsteth) srcip dstip
  let pkt := { pkt with buf := ipSetProto pkt.buf pkt.ipOffset ipProtoUdp }
  let pkt ← udpAddHeader (mem 3) pkt srcport dstport
  some { pkt with protoOffset := pkt.ptr }

/-- `udp_set_payload`. -/
def udpSetPayload (mem : Option (Nat → UInt8)) (pkt : Packet) (data : List UInt8) :
    Option Packet :=
  (packetGrow mem pkt data.length).map fun pkt =>
    let buf := putList pkt.buf pkt.ptr data
    let buf := putList buf (pkt.protoOffset + 4)
      (be16 (BitVec.ofNat 16 (sizeofUdpHeader + data.length)))
    let buf := putList buf (pkt.protoOffset + 6) [0, 0]
    { pkt with buf := ipUpdateLength buf pkt.ipOffset (sizeofUdpHeader + data.length) }

/-- What the device sends of a packet. -/
def Packet.bytes (pkt : Packet) : List UInt8 := memBytes pkt.buf 0 pkt.len

/-! ## Fields in network order -/

@[simp] theorem be16_length (x : BitVec 16) : (be16 x).length = 2 := rfl

@[simp] theorem be32_length (x : BitVec 32) : (be32 x).length = 4 := rfl

@[simp] theorem ethBytes_length (eth : BitVec 48) : (ethBytes eth).length = 6 := rfl

/-- The halves of a word that was swapped. -/
theorem swap16_bytes (v : Nat) :
    UInt8.ofNat (swap16 v) = ⟨(BitVec.ofNat 16 v).extractLsb' 8 8⟩ ∧
      UInt8.ofNat (swap16 v / 256) = ⟨(BitVec.ofNat 16 v).extractLsb' 0 8⟩ := by
  have hhigh : v % 65536 / 256 = v / 256 % 256 := by omega
  have hlow : (v / 256 % 256 + 256 * (v % 256)) / 256 = v % 256 := by omega
  constructor
  · apply UInt8.toNat_inj.mp
    rw [UInt8.toNat_ofNat', swap16_eq, UInt8.toNat_ofBitVec, BitVec.extractLsb'_toNat,
      BitVec.toNat_ofNat, Nat.shiftRight_eq_div_pow]
    norm_num [Nat.add_mod, Nat.mul_mod, hhigh]
  · apply UInt8.toNat_inj.mp
    rw [UInt8.toNat_ofNat', swap16_eq, UInt8.toNat_ofBitVec, BitVec.extractLsb'_toNat,
      BitVec.toNat_ofNat, Nat.shiftRight_eq_div_pow, hlow]
    omega

/-- A field that is stored through `to_be_16`. -/
theorem put16_swap16 (mem : Nat → UInt8) (a v : Nat) :
    put16 mem a (swap16 v) = putList mem a (be16 (BitVec.ofNat 16 v)) := by
  obtain ⟨hhigh, hlow⟩ := swap16_bytes v
  rw [be16, putList_cons, putList_cons, putList_nil, ← hhigh, ← hlow]
  funext j
  rw [put16, Function.update_apply, Function.update_apply]
  by_cases h₀ : j = a
  · rw [if_pos h₀, if_neg (by omega), if_pos h₀]
  · rw [if_neg h₀, if_neg h₀]

section Received

variable {f : Frame} {off : Nat}

theorem be32_halves (x : BitVec 32) :
    be32 x = be16 (x.extractLsb' 16 16) ++ be16 (x.extractLsb' 0 16) := by
  rw [← be32_append]
  have hx : x.extractLsb' 16 16 ++ x.extractLsb' 0 16 = x := BitVec.extractLsb'_append_extractLsb'
  exact congrArg be32 hx.symm

theorem field16_of_holds {x : BitVec 16} (h : HoldsAt f.mem off (be16 x)) : f.field16 off = x := by
  simp only [be16, holdsAt_cons, holdsAt_nil, and_true] at h
  rw [Frame.field16, Frame.byte, Frame.byte, h.1, h.2]
  exact BitVec.extractLsb'_append_extractLsb'

theorem field32_of_holds {x : BitVec 32} (h : HoldsAt f.mem off (be32 x)) : f.field32 off = x := by
  rw [be32_halves, holdsAt_append, be16_length] at h
  rw [Frame.field32, field16_of_holds h.1, field16_of_holds h.2]
  exact BitVec.extractLsb'_append_extractLsb'

theorem bytes_of_holds {bytes : List UInt8} (h : HoldsAt f.mem off bytes) :
    f.bytes off bytes.length = bytes :=
  holdsAt_iff_memBytes.mp h

/-- The address that lies there. -/
theorem ethAt_of_holds {mem : Nat → UInt8} {a : Nat} {eth : BitVec 48}
    (h : HoldsAt mem a (ethBytes eth)) : ethAt mem a = eth := by
  simp only [ethBytes, holdsAt_cons, holdsAt_nil, and_true, Nat.add_assoc] at h
  obtain ⟨h0, h1, h2, h3, h4, h5⟩ := h
  rw [ethAt, h0, h1, h2, h3, h4, h5]
  rw [BitVec.extractLsb'_append_extractLsb'_eq_extractLsb' (rfl : 40 = 32 + 8),
    BitVec.extractLsb'_append_extractLsb'_eq_extractLsb' (rfl : 32 = 24 + 8),
    BitVec.extractLsb'_append_extractLsb'_eq_extractLsb' (rfl : 24 = 16 + 8),
    BitVec.extractLsb'_append_extractLsb'_eq_extractLsb' (rfl : 16 = 8 + 8),
    BitVec.extractLsb'_append_extractLsb'_eq_extractLsb' (rfl : 8 = 0 + 8)]
  exact BitVec.extractLsb'_eq_self

end Received

/-! ## Growing -/

section Grow

variable {pkt : Packet} {junk : Nat → UInt8} {n : Nat}

theorem HoldsAt.grown {a : Nat} {l : List UInt8} (h : HoldsAt pkt.buf a l)
    (hle : a + l.length ≤ pkt.len) : HoldsAt (pkt.grown junk n).buf a l :=
  h.congr fun _ _ hj => if_pos (by omega)

theorem packetGrow_some {mem : Option (Nat → UInt8)} {pkt' : Packet}
    (h : packetGrow mem pkt n = some pkt') : ∃ junk, pkt' = pkt.grown junk n := by
  obtain ⟨junk, -, rfl⟩ := Option.map_eq_some_iff.mp h
  exact ⟨junk, rfl⟩

end Grow

/-! ## The header of IP -/

/-- A header of IP lies there, and sums up. -/
structure IpHeaderAt (mem : Nat → UInt8) (ip : Nat) (len : BitVec 16) (proto : BitVec 8)
    (src dst : BitVec 32) : Prop where
  start : HoldsAt mem ip ([0x45, 0] ++ be16 len ++ [0, 0, 0, 0, 64, ⟨proto⟩])
  addrs : HoldsAt mem (ip + 12) (be32 src ++ be32 dst)
  sum : onesSum (words beWord (memBytes mem ip 20)) = 0xffff

section Header

variable {mem mem' : Nat → UInt8} {ip a : Nat} {len : BitVec 16} {proto : BitVec 8}
  {src dst : BitVec 32}

theorem IpHeaderAt.congr (h : IpHeaderAt mem ip len proto src dst)
    (hc : ∀ j, ip ≤ j → j < ip + 20 → mem' j = mem j) : IpHeaderAt mem' ip len proto src dst := by
  refine ⟨h.start.congr fun j hj hlt => hc j hj ?_, h.addrs.congr fun j hj hlt => hc j ?_ ?_, ?_⟩
  · simp at hlt
    omega
  · omega
  · simp at hlt
    omega
  · rw [memBytes_congr fun i hi => hc (ip + i) (by omega) (by omega)]
    exact h.sum

theorem ipStoreChecksum_of_ne (h₁₀ : a ≠ ip + 10) (h₁₁ : a ≠ ip + 11) :
    ipStoreChecksum mem ip a = mem a := by
  rw [ipStoreChecksum, ipChksumOffset, put16_of_ne (by omega), put16_of_ne (by omega)]

theorem swap16_swap16 (w : Nat) : swap16 (swap16 w) = w % 65536 := by
  have hlow : (w / 256 % 256 + 256 * (w % 256)) % 256 = w / 256 % 256 := by omega
  have hhigh : (w / 256 % 256 + 256 * (w % 256)) / 256 % 256 = w % 256 := by omega
  rw [swap16_eq, swap16_eq w, hlow, hhigh]
  omega

theorem swap16_add (w : Nat) : swap16 (w + 65536) = swap16 w := by
  have hlow : (w + 65536) % 256 = w % 256 := by omega
  have hhigh : (w + 65536) / 256 % 256 = w / 256 % 256 := by omega
  rw [swap16_eq, swap16_eq w, hlow, hhigh]

/-- The word that is there already. -/
theorem put16_le16 (mem : Nat → UInt8) (a : Nat) : put16 mem a (le16 mem a) = mem := by
  have hlow : UInt8.ofNat (le16 mem a) = mem a := by
    apply UInt8.toNat_inj.mp
    have := (mem a).toNat_lt
    rw [UInt8.toNat_ofNat', le16]
    omega
  have hhigh : UInt8.ofNat (le16 mem a / 256) = mem (a + 1) := by
    apply UInt8.toNat_inj.mp
    have := (mem a).toNat_lt
    have := (mem (a + 1)).toNat_lt
    rw [UInt8.toNat_ofNat', le16]
    omega
  funext j
  rw [put16, hlow, hhigh]
  by_cases h₀ : j = a
  · rw [if_pos h₀, h₀]
  by_cases h₁ : j = a + 1
  · rw [if_neg h₀, if_pos h₁, h₁]
  · rw [if_neg h₀, if_neg h₁]

/-- The checksum is the one `ip_update_length` stores for the length that is
there. -/
theorem ipStoreChecksum_sum (mem : Nat → UInt8) (ip : Nat) :
    onesSum (words beWord (memBytes (ipStoreChecksum mem ip) ip 20)) = 0xffff := by
  have hsum := ipUpdateLength_sum mem ip (swap16 (le16 mem (ip + 2)) + 65516)
  have hword : swap16 (20 + (swap16 (le16 mem (ip + 2)) + 65516)) = le16 mem (ip + 2) := by
    rw [show 20 + (swap16 (le16 mem (ip + 2)) + 65516) = swap16 (le16 mem (ip + 2)) + 65536 by omega,
      swap16_add, swap16_swap16, Nat.mod_eq_of_lt (le16_lt mem (ip + 2))]
  rwa [ipUpdateLength, ipLenOffset, hword, put16_le16] at hsum

theorem ipStoreChecksum_at
    (hstart : HoldsAt mem ip ([0x45, 0] ++ be16 len ++ [0, 0, 0, 0, 64, ⟨proto⟩]))
    (haddrs : HoldsAt mem (ip + 12) (be32 src ++ be32 dst)) :
    IpHeaderAt (ipStoreChecksum mem ip) ip len proto src dst := by
  refine ⟨hstart.congr fun j hj hlt => ?_, haddrs.congr fun j hj hlt => ?_,
    ipStoreChecksum_sum mem ip⟩
  · simp at hlt
    exact ipStoreChecksum_of_ne (by omega) (by omega)
  · exact ipStoreChecksum_of_ne (by omega) (by omega)

/-- Whatever was in the first byte. -/
theorem ipSetIhl_version (mem : Nat → UInt8) (ip : Nat) :
    ipSetIhl (ipSetVersion mem ip 4) ip 5 = putList mem ip [0x45] := by
  have hbyte : ∀ x : UInt8, ((x &&& (0x0f : UInt8) ||| (4 : UInt8) <<< (4 : UInt8)) &&&
      (0xf0 : UInt8) ||| (5 : UInt8) &&& (0x0f : UInt8)) = 0x45 := fun x => by
    apply UInt8.toBitVec_inj.mp
    apply BitVec.eq_of_getElem_eq
    intro i hi
    interval_cases i <;> simp
  rw [ipSetIhl, ipSetVersion, Function.update_self, Function.update_idem, hbyte, putList_singleton]

/-- Whatever was in the second. -/
theorem ipSetEcn_dscp (mem : Nat → UInt8) (ip : Nat) :
    ipSetEcn (ipSetDscp mem ip 0) ip 0 = putList mem (ip + 1) [0] := by
  have hbyte : ∀ x : UInt8, ((x &&& ~~~(0xfc : UInt8) |||
      ((0 : UInt8) &&& (0x3f : UInt8)) <<< (2 : UInt8)) &&& (0xfc : UInt8) |||
        (0 : UInt8) &&& (0x03 : UInt8)) = 0 := fun x => by
    apply UInt8.toBitVec_inj.mp
    apply BitVec.eq_of_getElem_eq
    intro i hi
    interval_cases i <;> simp
  rw [ipSetEcn, ipSetDscp, Function.update_self, Function.update_idem, hbyte, putList_singleton]

theorem put16_zero_eq (mem : Nat → UInt8) (a : Nat) : put16 mem a 0 = putList mem a [0, 0] := by
  funext j
  rw [putList_cons, putList_singleton, put16, Function.update_apply, Function.update_apply]
  by_cases h₀ : j = a
  · rw [if_pos h₀, if_neg (by omega), if_pos h₀]
    rfl
  · rw [if_neg h₀, if_neg h₀]
    rfl

theorem put16_put16 (mem : Nat → UInt8) (a v w : Nat) :
    put16 (put16 mem a v) a w = put16 mem a w := by
  funext j
  simp only [put16]
  split_ifs <;> rfl

/-- The two masks leave no bit. -/
theorem ipSetFrOff_flags (mem : Nat → UInt8) (ip : Nat) :
    ipSetFrOff (ipSetFlags mem ip 0) ip 0 = putList mem (ip + 6) [0, 0] := by
  have hlt : le16 mem (ip + 6) &&& 0xe000 < 65536 :=
    Nat.and_le_left.trans_lt (le16_lt mem (ip + 6))
  have hmasks : le16 mem (ip + 6) &&& 0xe000 &&& 0x1fff = 0 := by
    rw [Nat.and_assoc]
    exact Nat.and_zero _
  rw [← put16_zero_eq, ipSetFrOff, ipSetFlags]
  simp only [Nat.zero_and, Nat.zero_shiftLeft, Nat.or_zero]
  rw [le16_put16 _ _ hlt, hmasks, put16_put16]

/-- The stores before the checksum are two. -/
theorem ipWriteHeader_eq (mem : Nat → UInt8) (ip : Nat) (src dst : BitVec 32) :
    ipWriteHeader mem ip src dst =
      ipStoreChecksum (putList (putList mem ip
          ([0x45, 0] ++ be16 20 ++ [0, 0, 0, 0, 64, ⟨ipProtoTcp⟩])) (ip + 12)
        (be32 src ++ be32 dst)) ip := by
  have haddrs : ∀ b : Nat → UInt8, putList (putList b (ip + 12) (be32 src)) (ip + 16) (be32 dst) =
      putList b (ip + 12) (be32 src ++ be32 dst) := fun b => putList_append b _ _ (by simp)
  simp only [ipWriteHeader, ipSetIhl_version, ipSetEcn_dscp, ipSetFrOff_flags,
    ← putList_singleton, haddrs]
  rw [putList_append mem _ _ (by simp), putList_append mem _ _ (by simp),
    putList_append mem _ _ (by simp), putList_append mem _ _ (by simp),
    putList_append mem _ _ (by simp), putList_append mem _ _ (by simp)]
  rfl

theorem ipWriteHeader_at (mem : Nat → UInt8) (ip : Nat) (src dst : BitVec 32) :
    IpHeaderAt (ipWriteHeader mem ip src dst) ip 20 ipProtoTcp src dst := by
  rw [ipWriteHeader_eq]
  exact ipStoreChecksum_at ((holdsAt_putList _ _ _).putList (.inl (by simp))) (holdsAt_putList _ _ _)

theorem IpHeaderAt.setProto (h : IpHeaderAt mem ip len proto src dst) (proto' : BitVec 8) :
    IpHeaderAt (ipSetProto mem ip proto') ip len proto' src dst := by
  have hstart := h.start
  rw [show ([0x45, 0] ++ be16 len ++ [0, 0, 0, 0, 64, ⟨proto⟩] : List UInt8) =
    ([0x45, 0] ++ be16 len ++ [0, 0, 0, 0, 64]) ++ [⟨proto⟩] from rfl, holdsAt_append] at hstart
  have hnew : HoldsAt (putList mem (ip + 9) [⟨proto'⟩]) ip
      (([0x45, 0] ++ be16 len ++ [0, 0, 0, 0, 64]) ++ [⟨proto'⟩]) :=
    holdsAt_append.mpr ⟨hstart.1.putList (.inl (by simp)), holdsAt_putList _ _ _⟩
  rw [ipSetProto, ← putList_singleton]
  exact ipStoreChecksum_at hnew (h.addrs.putList (.inr (by simp)))

theorem IpHeaderAt.updateLength (h : IpHeaderAt mem ip len proto src dst) (n : Nat) :
    IpHeaderAt (ipUpdateLength mem ip n) ip (BitVec.ofNat 16 (20 + n)) proto src dst := by
  have hstart := h.start
  rw [holdsAt_append, holdsAt_append] at hstart
  show IpHeaderAt (ipStoreChecksum (put16 mem (ip + ipLenOffset) (swap16 (20 + n))) ip) _ _ _ _ _
  rw [put16_swap16]
  apply ipStoreChecksum_at
  · apply holdsAt_append.mpr
    refine ⟨holdsAt_append.mpr ⟨?_, holdsAt_putList _ _ _⟩, ?_⟩
    · exact hstart.1.1.putList (.inl le_rfl)
    · exact hstart.2.putList (.inr (by simp [ipLenOffset]))
  · exact h.addrs.putList (.inr (by simp [ipLenOffset]))

theorem ipSetProto_of_ne {proto' : BitVec 8} (h₉ : a ≠ ip + 9) (h₁₀ : a ≠ ip + 10)
    (h₁₁ : a ≠ ip + 11) : ipSetProto mem ip proto' a = mem a := by
  rw [ipSetProto, ipStoreChecksum_of_ne h₁₀ h₁₁, Function.update_of_ne h₉]

theorem ipWriteHeader_of_lt (ha : a < ip) : ipWriteHeader mem ip src dst a = mem a := by
  rw [ipWriteHeader_eq, ipStoreChecksum_of_ne (by omega) (by omega), putList, if_neg (by omega),
    putList, if_neg (by omega)]

theorem udpWriteHeader_eq (mem : Nat → UInt8) (udp : Nat) (srcport dstport : BitVec 16) :
    udpWriteHeader mem udp srcport dstport =
      putList mem udp (be16 srcport ++ be16 dstport ++ be16 8 ++ [0, 0]) := by
  rw [udpWriteHeader, putList_append mem _ _ (by simp), putList_append mem _ _ (by simp),
    putList_append mem _ _ (by simp)]

end Header

/-! ## What each function leaves in the packet -/

section Construct

variable {mem : Alloc} {pkt : Packet} {srceth dsteth : List UInt8} {srcip dstip : BitVec 32}
  {srcport dstport : BitVec 16} {arp : BitVec 32 → Option (BitVec 48)}

theorem ethConstructPacket_some {ethType : BitVec 16}
    (h : ethConstructPacket mem srceth dsteth ethType = some pkt) (hsrc : srceth.length = 6)
    (hdst : dsteth.length = 6) :
    pkt.len = 14 ∧ HoldsAt pkt.buf 0 (dsteth ++ srceth ++ be16 ethType) := by
  simp only [ethConstructPacket, Option.bind_eq_bind, Option.bind_eq_some_iff] at h
  obtain ⟨empty, hempty, pkt', hgrow, h⟩ := h
  obtain ⟨junk, -, rfl⟩ := Option.map_eq_some_iff.mp hempty
  obtain ⟨junk', rfl⟩ := packetGrow_some hgrow
  cases h
  refine ⟨rfl, ?_⟩
  dsimp only
  rw [holdsAt_append, holdsAt_append]
  refine ⟨⟨?_, ?_⟩, ?_⟩
  · exact (holdsAt_putList _ _ _).putList (.inl (by omega))
  · rw [hdst]
    exact ((holdsAt_putList _ _ _).putList (.inr (by omega))).putList (.inl (by omega))
  · rw [List.length_append, hsrc, hdst]
    exact holdsAt_putList _ _ _

theorem ipConstructPacketEthFull_some
    (h : ipConstructPacketEthFull mem srceth dsteth srcip dstip = some pkt)
    (hsrc : srceth.length = 6) (hdst : dsteth.length = 6) :
    pkt.len = 34 ∧ pkt.ipOffset = 14 ∧
      HoldsAt pkt.buf 0 (dsteth ++ srceth ++ be16 ethTypeIp4) ∧
      IpHeaderAt pkt.buf 14 20 ipProtoTcp srcip dstip := by
  simp only [ipConstructPacketEthFull, ipAddHeader, Option.bind_eq_bind, Option.bind_eq_some_iff,
    Option.map_eq_some_iff] at h
  obtain ⟨eth, heth, pkt', ⟨grown, hgrow, rfl⟩, h⟩ := h
  obtain ⟨hlen, hholds⟩ := ethConstructPacket_some heth hsrc hdst
  obtain ⟨junk, rfl⟩ := packetGrow_some hgrow
  cases h
  have hptr : (eth.grown junk sizeofIpBaseHeader).ptr = 14 := hlen
  have hlen' : (eth.grown junk sizeofIpBaseHeader).len = 34 := congrArg (· + 20) hlen
  have hsize : (dsteth ++ srceth ++ be16 ethTypeIp4).length = 14 := by
    simp [hsrc, hdst]
  refine ⟨hlen', hptr, ?_, ?_⟩
  · dsimp only
    rw [hptr]
    exact (HoldsAt.grown hholds (by omega)).congr fun j _ hj => ipWriteHeader_of_lt (by omega)
  · dsimp only
    rw [hptr]
    exact ipWriteHeader_at _ _ _ _

theorem udpAddHeader_some {pkt' : Packet} {grow : Option (Nat → UInt8)}
    (h : udpAddHeader grow pkt srcport dstport = some pkt') :
    pkt'.len = pkt.len + 8 ∧ pkt'.ptr = pkt.len ∧ pkt'.ipOffset = pkt.ipOffset ∧
      (∀ j < pkt.len, pkt'.buf j = pkt.buf j) ∧
      HoldsAt pkt'.buf pkt.len (be16 srcport ++ be16 dstport ++ be16 8 ++ [0, 0]) := by
  obtain ⟨grown, hgrow, rfl⟩ := Option.map_eq_some_iff.mp h
  obtain ⟨junk, rfl⟩ := packetGrow_some hgrow
  dsimp only
  rw [udpWriteHeader_eq]
  refine ⟨rfl, rfl, rfl, fun j hj => ?_, holdsAt_putList _ _ _⟩
  rw [Packet.grown, putList, if_neg (not_le.mpr hj)]
  exact if_pos hj

theorem udpConstructPacket_some
    (h : udpConstructPacket mem arp srceth srcip srcport dstip dstport = some pkt)
    (hsrc : srceth.length = 6) :
    ∃ eth, arp (toBe32 dstip) = some eth ∧ pkt.len = 42 ∧ pkt.ipOffset = 14 ∧ pkt.protoOffset = 34 ∧
      HoldsAt pkt.buf 0 (ethBytes eth ++ srceth ++ be16 ethTypeIp4) ∧
      IpHeaderAt pkt.buf 14 20 ipProtoUdp srcip (toBe32 dstip) ∧
      HoldsAt pkt.buf 34 (be16 srcport ++ be16 dstport) := by
  simp only [udpConstructPacket, Option.bind_eq_bind, Option.bind_eq_some_iff] at h
  obtain ⟨eth, harp, ip, hip, udp, hudp, h⟩ := h
  cases h
  obtain ⟨hlen, hoff, hholds, hheader⟩ := ipConstructPacketEthFull_some hip hsrc (ethBytes_length eth)
  obtain ⟨hlen', hptr, hoff', hkept, hports⟩ := udpAddHeader_some hudp
  dsimp only at hlen' hptr hoff' hkept hports
  rw [hlen] at hlen' hptr hkept hports
  rw [hoff] at hoff' hkept
  have hsize : (ethBytes eth ++ srceth ++ be16 ethTypeIp4).length = 14 := by
    simp [hsrc]
  refine ⟨eth, harp, hlen', hoff', hptr, ?_, ?_, ?_⟩
  · refine hholds.congr fun j _ hj => (hkept j (by omega)).trans ?_
    exact ipSetProto_of_ne (by omega) (by omega) (by omega)
  · exact (hheader.setProto ipProtoUdp).congr fun j _ hj => hkept j (by omega)
  · rw [holdsAt_append, holdsAt_append] at hports
    exact hports.1.1

/-- What the payload changes: itself, and the length and checksum fields. -/
theorem udpSetPayload_grown {pkt' : Packet} {grow : Option (Nat → UInt8)} {data : List UInt8}
    (h : udpSetPayload grow pkt data = some pkt') :
    ∃ buf : Nat → UInt8, (∀ j < pkt.len, buf j = pkt.buf j) ∧ HoldsAt buf pkt.len data ∧
      pkt' = { pkt with
        buf := ipUpdateLength (putList buf (pkt.protoOffset + 4)
          (be16 (BitVec.ofNat 16 (8 + data.length)) ++ [0, 0])) pkt.ipOffset (8 + data.length)
        ptr := pkt.len, len := pkt.len + data.length } := by
  obtain ⟨grown, hgrow, rfl⟩ := Option.map_eq_some_iff.mp h
  obtain ⟨junk, rfl⟩ := packetGrow_some hgrow
  refine ⟨putList (pkt.grown junk data.length).buf pkt.len data, fun j hj => ?_,
    holdsAt_putList _ _ _, ?_⟩
  · rw [putList, if_neg (not_le.mpr hj)]
    exact if_pos hj
  · rw [← putList_append _ _ _ rfl]
    rfl

/-- A datagram of UDP in its frame. -/
structure UdpFrameAt (mem : Nat → UInt8) (dsteth srceth : List UInt8) (srcip dstip : BitVec 32)
    (srcport dstport : BitVec 16) (data : List UInt8) : Prop where
  eth : HoldsAt mem 0 (dsteth ++ srceth ++ be16 ethTypeIp4)
  ip : IpHeaderAt mem 14 (BitVec.ofNat 16 (28 + data.length)) ipProtoUdp srcip dstip
  udp : HoldsAt mem 34 (be16 srcport ++ be16 dstport ++
    be16 (BitVec.ofNat 16 (8 + data.length)) ++ [0, 0] ++ data)

/-- **What a write sends.** The packet is the frame of the datagram, and no
byte of it is one the memory happened to hold. -/
theorem udpSetPayload_some {pkt' : Packet} {grow : Option (Nat → UInt8)} {data : List UInt8}
    (h : udpConstructPacket mem arp srceth srcip srcport dstip dstport = some pkt)
    (hset : udpSetPayload grow pkt data = some pkt') (hsrc : srceth.length = 6) :
    ∃ eth, arp (toBe32 dstip) = some eth ∧ pkt'.len = 42 + data.length ∧
      UdpFrameAt pkt'.buf (ethBytes eth) srceth srcip (toBe32 dstip) srcport dstport data := by
  obtain ⟨eth, harp, hlen, hoff, hproto, hholds, hheader, hports⟩ := udpConstructPacket_some h hsrc
  obtain ⟨buf, hkept, hdata, rfl⟩ := udpSetPayload_grown hset
  have hsize : (ethBytes eth ++ srceth ++ be16 ethTypeIp4).length = 14 := by
    simp [hsrc]
  dsimp only
  rw [hlen] at hkept hdata
  rw [hlen, hoff, hproto]
  refine ⟨eth, harp, rfl, ?_, ?_, ?_⟩
  · refine hholds.congr fun j _ hj => ?_
    rw [ipUpdateLength_of_ne (by omega) (by omega) (by omega) (by omega), putList,
      if_neg (by omega), hkept j (by omega)]
  · rw [show 28 + data.length = 20 + (8 + data.length) by omega]
    apply IpHeaderAt.updateLength
    · refine hheader.congr fun j _ hj => ?_
      rw [putList, if_neg (by omega), hkept j (by omega)]
  · have hfields : HoldsAt (putList buf (34 + 4)
        (be16 (BitVec.ofNat 16 (8 + data.length)) ++ [0, 0])) 34 (be16 srcport ++ be16 dstport ++
          (be16 (BitVec.ofNat 16 (8 + data.length)) ++ [0, 0]) ++ data) := by
      rw [holdsAt_append, holdsAt_append]
      refine ⟨⟨?_, holdsAt_putList _ _ _⟩, ?_⟩
      · refine HoldsAt.putList (hports.congr fun j _ hj => hkept j ?_) (.inl (by simp))
        simp at hj
        omega
      · exact hdata.putList (.inr (by simp))
    rw [List.append_assoc (be16 srcport ++ be16 dstport)]
    refine hfields.congr fun j hj _ => ?_
    exact ipUpdateLength_of_ne (by omega) (by omega) (by omega) (by omega)

end Construct

/-! ## The frame as it is received -/

section Datagram

variable {dsteth srceth : List UInt8} {srcip dstip : BitVec 32} {srcport dstport : BitVec 16}
  {data : List UInt8}

theorem UdpFrameAt.of_memBytes {mem mem' : Nat → UInt8} {n : Nat}
    (h : UdpFrameAt mem dsteth srceth srcip dstip srcport dstport data)
    (hm : HoldsAt mem' 0 (memBytes mem 0 n)) (hd : dsteth.length = 6) (hs : srceth.length = 6)
    (hle : 42 + data.length ≤ n) :
    UdpFrameAt mem' dsteth srceth srcip dstip srcport dstport data := by
  refine ⟨h.eth.of_memBytes hm ?_, h.ip.congr fun j _ hj => ?_, h.udp.of_memBytes hm ?_⟩
  · simp [hd, hs]
    omega
  · have := hm j (by rw [memBytes_length]; omega)
    simpa [memBytes] using this
  · simp
    omega

/-- **Round trip.** The receiver reads from the frame what the sender was
given. -/
theorem UdpFrameAt.fields {f : Frame}
    (h : UdpFrameAt f.mem dsteth srceth srcip dstip srcport dstport data)
    (hd : dsteth.length = 6) (hs : srceth.length = 6) (hlen : data.length < 65508) :
    f.bytes 0 6 = dsteth ∧ ethGetProto f = ethTypeIp4 ∧ ipGetVersion f = 4 ∧
      (ipLen f).toNat = 28 + data.length ∧ ipProto f = ipProtoUdp ∧ ipDstaddr f = dstip ∧
      udpSrcPort f = srcport ∧ udpDstPort f = dstport ∧ (udpLen f).toNat = 8 + data.length ∧
      HoldsAt f.mem 42 data := by
  obtain ⟨heth, ⟨hstart, haddrs, -⟩, hudp⟩ := h
  simp only [holdsAt_append, holdsAt_cons, List.length_append, hd, hs, be16_length, be32_length,
    List.length_cons, List.length_nil, Nat.reduceAdd, Nat.zero_add] at heth hstart haddrs hudp
  obtain ⟨⟨hdst, -⟩, htype⟩ := heth
  obtain ⟨⟨⟨hver, -⟩, hiplen⟩, -, -, -, -, -, hproto, -⟩ := hstart
  obtain ⟨⟨⟨⟨hsp, hdp⟩, hudplen⟩, -⟩, hdata⟩ := hudp
  refine ⟨hd ▸ bytes_of_holds hdst, field16_of_holds htype, ?_, ?_, ?_, field32_of_holds haddrs.2,
    field16_of_holds hsp, field16_of_holds hdp, ?_, hdata⟩
  · rw [ipGetVersion, Frame.byte, ipOffset, sizeofEthernetHeader, hver]
    rfl
  · have : ipLen f = _ := field16_of_holds hiplen
    rw [this, BitVec.toNat_ofNat]
    omega
  · rw [ipProto, Frame.byte, ipOffset, sizeofEthernetHeader, hproto]
  · have : udpLen f = _ := field16_of_holds hudplen
    rw [this, BitVec.toNat_ofNat]
    omega

/-- **From `udp_sock_write` to the receiver.** Whatever the memory of the packet
held, whoever receives the frame reads from it the addresses, ports, lengths
and payload it was built for, and its header of IP sums up. -/
theorem udp_frame_round_trip {mem : Alloc} {arp : BitVec 32 → Option (BitVec 48)} {pkt pkt' : Packet}
    {f : Frame} (h : udpConstructPacket mem arp srceth srcip srcport dstip dstport = some pkt)
    (hset : udpSetPayload (mem 4) pkt data = some pkt') (hs : srceth.length = 6)
    (hlen : data.length < 65508) (hf : HoldsAt f.mem 0 pkt'.bytes) :
    ∃ eth, arp (toBe32 dstip) = some eth ∧ pkt'.bytes.length = 42 + data.length ∧
      f.bytes 0 6 = ethBytes eth ∧ f.bytes 6 6 = srceth ∧ ethGetProto f = ethTypeIp4 ∧
      ipGetVersion f = 4 ∧ (ipLen f).toNat = 28 + data.length ∧ ipProto f = ipProtoUdp ∧
      f.field32 26 = srcip ∧ ipDstaddr f = toBe32 dstip ∧
      onesSum (words beWord (memBytes f.mem 14 20)) = 0xffff ∧ udpSrcPort f = srcport ∧
      udpDstPort f = dstport ∧ (udpLen f).toNat = 8 + data.length ∧
      f.bytes 42 data.length = data := by
  obtain ⟨eth, harp, hsize, hframe⟩ := udpSetPayload_some h hset hs
  have hread := hframe.of_memBytes hf (ethBytes_length eth) hs hsize.ge
  obtain ⟨h1, h2, h3, h4, h5, h6, h7, h8, h9, h10⟩ := hread.fields (ethBytes_length eth) hs hlen
  have hsrc : HoldsAt f.mem 6 srceth := by
    have := hread.eth
    rw [holdsAt_append, holdsAt_append] at this
    exact this.1.2
  have h66 : f.bytes 6 srceth.length = srceth := bytes_of_holds hsrc
  rw [hs] at h66
  have hip : HoldsAt f.mem 26 (be32 srcip) := (holdsAt_append.mp hread.ip.addrs).1
  refine ⟨eth, harp, ?_, h1, h66, h2, h3, h4, h5, field32_of_holds hip, h6,
    hread.ip.sum, h7, h8, h9, bytes_of_holds h10⟩
  rw [Packet.bytes, memBytes_length, hsize]

end Datagram

/-- Memory full of ones, and three bytes to send. -/
theorem udp_frame_round_trip_three : ∃ (pkt : Packet) (f : Frame), HoldsAt f.mem 0 pkt.bytes ∧
    ∃ eth, some 0x525400654321 = some eth ∧ pkt.bytes.length = 45 ∧
      f.bytes 0 6 = ethBytes eth ∧ f.bytes 6 6 = ethBytes 0x525400123456 ∧
      ethGetProto f = ethTypeIp4 ∧ ipGetVersion f = 4 ∧ (ipLen f).toNat = 31 ∧
      ipProto f = ipProtoUdp ∧ f.field32 26 = 0xc0a80001 ∧
      ipDstaddr f = toBe32 (toBe32 0xc0a80002) ∧
      onesSum (words beWord (memBytes f.mem 14 20)) = 0xffff ∧ udpSrcPort f = 1024 ∧
      udpDstPort f = 7 ∧ (udpLen f).toNat = 11 ∧ f.bytes 42 3 = [1, 2, 3] := by
  obtain ⟨pkt, hpkt⟩ : ∃ pkt, udpConstructPacket (fun _ => some fun _ => 0xff)
      (fun _ => some 0x525400654321) (ethBytes 0x525400123456) 0xc0a80001 1024 (toBe32 0xc0a80002) 7 =
        some pkt := ⟨_, rfl⟩
  obtain ⟨pkt', hset⟩ : ∃ pkt', udpSetPayload (some fun _ => 0xff) pkt [1, 2, 3] = some pkt' :=
    ⟨_, rfl⟩
  have hbytes : HoldsAt (putList (fun _ => 0) 0 pkt'.bytes) 0 pkt'.bytes := holdsAt_putList _ _ _
  exact ⟨pkt', ⟨putList (fun _ => 0) 0 pkt'.bytes, 0⟩, hbytes,
    udp_frame_round_trip (f := ⟨putList (fun _ => 0) 0 pkt'.bytes, 0⟩) hpkt hset rfl (by decide) hbytes⟩

end Levos.Net
