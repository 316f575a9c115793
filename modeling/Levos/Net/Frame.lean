import Levos.Net.Tcp
import Levos.Net.Udp

/-!
# Received frames (`net/packet.c`, `net/ip.c`, `net/icmp.c`, `net/udp.c`, `net/tcp.c`)

A received frame lies at `p_buf` with its length in `p_len`, which no handler
looks at: the lengths of the payloads come from `ip_len`, `udp_len` and the
data offset alone. A handler is modelled by what it does with the frame: the
lengths it computes from header fields, as `int`s, and the stretches of memory
behind `p_buf` it copies payload from.
-/

namespace Levos.Net

open Levos.Base Levos.Lib

/-! ## Frames -/

/-- The memory from `p_buf` on, and `p_len`. -/
structure Frame where
  mem : Nat → UInt8
  len : Nat

def Frame.byte (f : Frame) (off : Nat) : BitVec 8 := (f.mem off).toBitVec

/-- `to_le_16` of the field at this offset. -/
def Frame.field16 (f : Frame) (off : Nat) : BitVec 16 := f.byte off ++ f.byte (off + 1)

def Frame.field32 (f : Frame) (off : Nat) : BitVec 32 :=
  f.field16 off ++ f.field16 (off + 2)

def Frame.bytes (f : Frame) (off n : Nat) : List UInt8 :=
  (List.range n).map fun i => f.mem (off + i)

/-- The fields of `struct net_info` in use, with `ni_src_ip` as the handlers
compare it. -/
structure NetInfo where
  hwMac : List UInt8
  srcIp : BitVec 32

/-- What the handlers find besides the frame: the socket and the connection of
a port, and which of their allocations succeed. -/
structure NetEnv where
  ni : NetInfo
  udpSock : BitVec 16 → Option UdpSockPriv
  tcpInfo : BitVec 16 → Option TcpInfo
  replyGrows : Bool
  dgramMem : Bool
  bufferMem : Bool

/-- A stretch of memory behind `p_buf`. -/
structure CopyRange where
  start : Nat
  count : Nat
deriving DecidableEq, Repr

structure FrameUse where
  lengths : List Int
  copies : List CopyRange
deriving DecidableEq, Repr

/-- A frame no payload length is computed for. -/
def unusedFrame : FrameUse := { lengths := [], copies := [] }

def sizeofEthernetHeader : Nat := 14
def sizeofIpBaseHeader : Nat := 20
def sizeofIcmpHeader : Nat := 4
def sizeofIcmpEchoPacket : Nat := 4
def sizeofUdpHeader : Nat := 8

/-- `pkt_ip_offset`, and where the protocol's header begins. -/
def ipOffset : Nat := sizeofEthernetHeader
def protoOffset : Nat := ipOffset + sizeofIpBaseHeader

/-! ## The handlers -/

def ethTypeIp4 : BitVec 16 := 0x0800
def ethBroadcastAddr : List UInt8 := List.replicate 6 0xff

def ethShouldDrop (ni : NetInfo) (f : Frame) : Bool :=
  f.bytes 0 6 ≠ ni.hwMac ∧ f.bytes 0 6 ≠ ethBroadcastAddr

def ethGetProto (f : Frame) : BitVec 16 := f.field16 12

def ipGetVersion (f : Frame) : BitVec 8 := f.byte ipOffset >>> 4
def ipLen (f : Frame) : BitVec 16 := f.field16 (ipOffset + 2)
def ipProto (f : Frame) : BitVec 8 := f.byte (ipOffset + 9)
def ipDstaddr (f : Frame) : BitVec 32 := f.field32 (ipOffset + 16)

def ipShouldDrop (ni : NetInfo) (f : Frame) : Bool :=
  ipDstaddr f ≠ ni.srcIp ∧ ipDstaddr f ≠ 0xffffffff

def icmpType (f : Frame) : BitVec 8 := f.byte protoOffset
def icmpCode (f : Frame) : BitVec 8 := f.byte (protoOffset + 1)

/-- `ip_len` less the three headers. -/
def icmpDatasz (f : Frame) : Int :=
  (ipLen f).toNat - (sizeofIpBaseHeader + sizeofIcmpHeader + sizeofIcmpEchoPacket : Nat)

/-- `icmp_send_echo_reply`; nothing is copied where `datasz` is negative. -/
def icmpSendEchoReply (env : NetEnv) (f : Frame) : FrameUse :=
  let dataoff := ipOffset + sizeofIpBaseHeader + sizeofIcmpHeader + sizeofIcmpEchoPacket
  { lengths := [icmpDatasz f]
    copies := if env.replyGrows then [{ start := dataoff, count := (icmpDatasz f).toNat }] else [] }

/-- `icmp_handle_packet`. -/
def icmpHandlePacket (env : NetEnv) (f : Frame) : FrameUse :=
  if icmpType f = 8 ∧ icmpCode f = 0 then icmpSendEchoReply env f else unusedFrame

def udpSrcPort (f : Frame) : BitVec 16 := f.field16 protoOffset
def udpDstPort (f : Frame) : BitVec 16 := f.field16 (protoOffset + 2)
def udpLen (f : Frame) : BitVec 16 := f.field16 (protoOffset + 4)

/-- The frame as `do_udp_handle_packet` takes it, with `p_ptr` behind the
header. -/
def udpPacketOf (env : NetEnv) (f : Frame) : UdpPacket :=
  { dstPort := udpDstPort f, udpLen := udpLen f
    payload := fun i => f.mem (protoOffset + sizeofUdpHeader + i)
    dgramMem := env.dgramMem, bufferMem := env.bufferMem }

/-- `do_udp_handle_packet`. -/
def udpFrameUse (env : NetEnv) (f : Frame) : FrameUse :=
  let pkt := udpPacketOf env f
  let range : CopyRange := { start := protoOffset + sizeofUdpHeader, count := pkt.payloadLen.toNat }
  { lengths := [pkt.payloadLen]
    copies :=
      match env.udpSock pkt.dstPort with
      | none => []
      | some usp => if (udpReceive usp pkt).1 = .handled then [range] else [] }

/-- `udp_handle_packet`; DHCP has its own handler. -/
def udpHandlePacket (env : NetEnv) (f : Frame) : FrameUse :=
  if udpDstPort f = 68 ∧ udpSrcPort f = 67 then unusedFrame else udpFrameUse env f

def tcpHeaderOf (f : Frame) : TcpHeader :=
  { srcPort := f.field16 protoOffset, dstPort := f.field16 (protoOffset + 2)
    seq := f.field32 (protoOffset + 4), ack := f.field32 (protoOffset + 8)
    doffFlags := f.field16 (protoOffset + 12), wsize := f.field16 (protoOffset + 14)
    chksum := f.field16 (protoOffset + 16), urgp := f.field16 (protoOffset + 18) }

/-- The frame as `tcp_handle_packet` takes it; behind the header there is
memory as far as a length of 16 bits can reach. -/
def tcpPacketOf (f : Frame) : TcpPacket :=
  { ipLen := ipLen f, tcp := tcpHeaderOf f, body := f.bytes (protoOffset + 20) 65536 }

/-- The checks of `tcp_handle_packet` lead to `tcp_handle_packet_estab`. -/
def TcpReachesEstab (ti : TcpInfo) (pkt : TcpPacket) : Prop :=
  ti.state = .estab ∧ ti.nextAck ≤ pkt.tcp.seq ∧ (tcpIsSetAck pkt.tcp → ti.unack < pkt.tcp.ack) ∧
    ¬tcpIsSetRst pkt.tcp

instance (ti : TcpInfo) (pkt : TcpPacket) : Decidable (TcpReachesEstab ti pkt) :=
  inferInstanceAs (Decidable (_ ∧ _))

instance (ti : TcpInfo) (pkt : TcpPacket) : Decidable (TcpHasRoom ti pkt) :=
  inferInstanceAs (Decidable (_ < _))

/-- `tcp_handle_packet_estab`: with room for it, the ring takes the whole
payload. -/
def tcpEstabUse (ti : TcpInfo) (pkt : TcpPacket) : FrameUse :=
  let payloadLen := (tcpGetPayloadSize pkt).toInt
  let range : CopyRange :=
    { start := protoOffset + (tcpGetDoff pkt.tcp).toNat * 4, count := payloadLen.toNat }
  { lengths := [payloadLen]
    copies :=
      if tcpIsSetAck pkt.tcp ∧ ¬tcpIsSetSyn pkt.tcp ∧ 0 < payloadLen ∧ TcpHasRoom ti pkt then
        [range]
      else [] }

/-- `tcp_handle_packet`. -/
def tcpFrameUse (env : NetEnv) (f : Frame) : FrameUse :=
  match env.tcpInfo (tcpHeaderOf f).dstPort with
  | none => unusedFrame
  | some ti => if TcpReachesEstab ti (tcpPacketOf f) then tcpEstabUse ti (tcpPacketOf f)
      else unusedFrame

def ipProtoIcmp : BitVec 8 := 0x01
def ipProtoTcp : BitVec 8 := 0x06
def ipProtoUdp : BitVec 8 := 0x11

/-- `ip_handle_packet`. -/
def ipHandlePacket (env : NetEnv) (f : Frame) : FrameUse :=
  if ipGetVersion f ≠ 4 then unusedFrame
  else if ipShouldDrop env.ni f then unusedFrame
  else if ipProto f = ipProtoUdp then udpHandlePacket env f
  else if ipProto f = ipProtoIcmp then icmpHandlePacket env f
  else if ipProto f = ipProtoTcp then tcpFrameUse env f
  else unusedFrame

/-- `do_handle_packet`; ARP frames carry no payload. -/
def doHandlePacket (env : NetEnv) (f : Frame) : FrameUse :=
  if ethShouldDrop env.ni f then unusedFrame
  else if ethGetProto f = ethTypeIp4 then ipHandlePacket env f
  else unusedFrame

/-! ## Bounds -/

/-- The lengths are not negative, and what is copied lies in the frame. -/
structure FrameBounded (f : Frame) (u : FrameUse) : Prop where
  lengths : ∀ n ∈ u.lengths, 0 ≤ n
  copies : ∀ r ∈ u.copies, ∀ i < r.count, r.start + i < f.len

/-- The frame is for us and gets to the handler of its protocol. -/
def FrameDelivered (env : NetEnv) (f : Frame) : Prop :=
  ¬ethShouldDrop env.ni f ∧ ethGetProto f = ethTypeIp4 ∧ ipGetVersion f = 4 ∧
    ¬ipShouldDrop env.ni f

/-- The segment has a payload, and the ring takes it. -/
def TcpStored (ti : TcpInfo) (pkt : TcpPacket) : Prop :=
  tcpIsSetAck pkt.tcp ∧ ¬tcpIsSetSyn pkt.tcp ∧ TcpHasRoom ti pkt ∧
    20 + (tcpGetDoff pkt.tcp).toNat * 4 < pkt.ipLen.toNat

/-- The length fields agree with the frame: they cover their headers, and
where a payload is copied they end inside the frame. -/
structure FrameLengthsOk (env : NetEnv) (f : Frame) : Prop where
  icmp : FrameDelivered env f → ipProto f = ipProtoIcmp → icmpType f = 8 → icmpCode f = 0 →
    28 ≤ (ipLen f).toNat ∧
      (env.replyGrows = true → (ipLen f).toNat = 28 ∨ 14 + (ipLen f).toNat ≤ f.len)
  udp : FrameDelivered env f → ipProto f = ipProtoUdp → ¬(udpDstPort f = 68 ∧ udpSrcPort f = 67) →
    8 ≤ (udpLen f).toNat ∧ ∀ usp, env.udpSock (udpDstPort f) = some usp →
      UdpStored usp (udpPacketOf env f) → (udpLen f).toNat = 8 ∨ 34 + (udpLen f).toNat ≤ f.len
  tcp : FrameDelivered env f → ipProto f = ipProtoTcp →
    ∀ ti, env.tcpInfo (tcpHeaderOf f).dstPort = some ti → TcpReachesEstab ti (tcpPacketOf f) →
      20 + (tcpGetDoff (tcpHeaderOf f)).toNat * 4 ≤ (ipLen f).toNat ∧
        (TcpStored ti (tcpPacketOf f) → 14 + (ipLen f).toNat ≤ f.len)

variable {env : NetEnv} {f : Frame}

theorem unusedFrame_bounded (f : Frame) : FrameBounded f unusedFrame :=
  ⟨(fun _ h => by cases h), (fun _ h => by cases h)⟩

theorem range_bounded {start count len : Nat} :
    (∀ i < count, start + i < len) ↔ count = 0 ∨ start + count ≤ len := by
  constructor
  · intro h
    cases count with
    | zero => exact .inl rfl
    | succ n => exact .inr (h n n.lt_succ_self)
  · rintro (rfl | h) i hi
    · cases hi
    · omega

/-- One length, and at most one stretch. -/
theorem bounded_iff {n : Int} {stored : Prop} [Decidable stored] {r : CopyRange} :
    FrameBounded f { lengths := [n], copies := if stored then [r] else [] } ↔
      0 ≤ n ∧ (stored → r.count = 0 ∨ r.start + r.count ≤ f.len) := by
  constructor
  · rintro ⟨hlen, hcopy⟩
    refine ⟨hlen n List.mem_cons_self, fun hst => range_bounded.mp ?_⟩
    exact hcopy r (by rw [if_pos hst]; exact List.mem_cons_self)
  · rintro ⟨hlen, hcopy⟩
    refine ⟨fun m hm => ?_, fun q hq => ?_⟩
    · rw [List.mem_singleton.mp hm]
      exact hlen
    · by_cases hst : stored
      · rw [if_pos hst] at hq
        rw [List.mem_singleton.mp hq]
        exact range_bounded.mpr (hcopy hst)
      · rw [if_neg hst] at hq
        cases hq

/-! ## ICMP -/

theorem icmp_bounded_iff :
    FrameBounded f (icmpSendEchoReply env f) ↔
      28 ≤ (ipLen f).toNat ∧
        (env.replyGrows = true → (ipLen f).toNat = 28 ∨ 14 + (ipLen f).toNat ≤ f.len) := by
  have hsize : icmpDatasz f = (ipLen f).toNat - 28 := rfl
  have hstart : ipOffset + sizeofIpBaseHeader + sizeofIcmpHeader + sizeofIcmpEchoPacket = 42 := rfl
  rw [icmpSendEchoReply, bounded_iff, hsize, hstart]
  dsimp only
  constructor
  · rintro ⟨hlen, hcopy⟩
    refine ⟨by omega, fun hgrows => ?_⟩
    have := hcopy hgrows
    omega
  · rintro ⟨hlen, hcopy⟩
    refine ⟨by omega, fun hgrows => ?_⟩
    have := hcopy hgrows
    omega

/-! ## UDP -/

theorem udp_bounded_iff :
    FrameBounded f (udpFrameUse env f) ↔
      8 ≤ (udpLen f).toNat ∧ ∀ usp, env.udpSock (udpDstPort f) = some usp →
        UdpStored usp (udpPacketOf env f) →
          (udpLen f).toNat = 8 ∨ 34 + (udpLen f).toNat ≤ f.len := by
  have hpay : (udpPacketOf env f).payloadLen = (udpLen f).toNat - 8 := rfl
  have hstart : protoOffset + sizeofUdpHeader = 42 := rfl
  have hport : (udpPacketOf env f).dstPort = udpDstPort f := rfl
  rw [udpFrameUse, hpay, hstart, hport]
  cases hsock : env.udpSock (udpDstPort f) with
  | none =>
      constructor
      · intro h
        have hlen := h.lengths _ List.mem_cons_self
        exact ⟨by omega, fun usp husp => by cases husp⟩
      · rintro ⟨hlen, -⟩
        refine ⟨fun n hn => ?_, fun r hr => by cases hr⟩
        rw [List.mem_singleton.mp hn]
        omega
  | some usp =>
      dsimp only
      rw [bounded_iff, udpReceive_handled]
      dsimp only
      constructor
      · rintro ⟨hlen, hcopy⟩
        refine ⟨by omega, fun usp' husp hst => ?_⟩
        have := hcopy (Option.some.inj husp ▸ hst)
        omega
      · rintro ⟨hlen, hcopy⟩
        refine ⟨by omega, fun hst => ?_⟩
        have := hcopy usp rfl hst
        omega

/-! ## TCP -/

/-- The payload size as an `int`: what is left of `ip_len`, or how much it is
short. -/
theorem tcpGetPayloadSize_int (pkt : TcpPacket) :
    (tcpGetPayloadSize pkt).toInt = (pkt.ipLen.toNat : Int) - 20 - (tcpGetDoff pkt.tcp).toNat * 4 := by
  have hip := pkt.ipLen.isLt
  have hdoff := (tcpGetDoff pkt.tcp).isLt
  have h20 : (20 : BitVec 32).toNat = 20 := rfl
  have h4 : (4 : BitVec 32).toNat = 4 := rfl
  rw [BitVec.toInt_eq_toNat_cond]
  simp only [tcpGetPayloadSize, BitVec.toNat_sub, BitVec.toNat_mul, h20, h4,
    BitVec.truncate_eq_setWidth, BitVec.toNat_setWidth]
  omega

theorem tcp_bounded_iff {ti : TcpInfo} :
    FrameBounded f (tcpEstabUse ti (tcpPacketOf f)) ↔
      20 + (tcpGetDoff (tcpHeaderOf f)).toNat * 4 ≤ (ipLen f).toNat ∧
        (TcpStored ti (tcpPacketOf f) → 14 + (ipLen f).toNat ≤ f.len) := by
  have hsize := tcpGetPayloadSize_int (tcpPacketOf f)
  have hip : (tcpPacketOf f).ipLen = ipLen f := rfl
  have htcp : (tcpPacketOf f).tcp = tcpHeaderOf f := rfl
  have hproto : protoOffset = 34 := rfl
  rw [tcpEstabUse, bounded_iff, TcpStored, hsize, hip, htcp, hproto]
  dsimp only
  constructor
  · rintro ⟨hlen, hcopy⟩
    refine ⟨by omega, fun ⟨hack, hsyn, hroom, hpay⟩ => ?_⟩
    have := hcopy ⟨hack, hsyn, by omega, hroom⟩
    omega
  · rintro ⟨hlen, hcopy⟩
    refine ⟨by omega, fun ⟨hack, hsyn, hpay, hroom⟩ => ?_⟩
    have := hcopy ⟨hack, hsyn, hroom, by omega⟩
    omega

theorem tcpFrame_bounded_iff :
    FrameBounded f (tcpFrameUse env f) ↔
      ∀ ti, env.tcpInfo (tcpHeaderOf f).dstPort = some ti → TcpReachesEstab ti (tcpPacketOf f) →
        20 + (tcpGetDoff (tcpHeaderOf f)).toNat * 4 ≤ (ipLen f).toNat ∧
          (TcpStored ti (tcpPacketOf f) → 14 + (ipLen f).toNat ≤ f.len) := by
  rw [tcpFrameUse]
  cases hfind : env.tcpInfo (tcpHeaderOf f).dstPort with
  | none => exact ⟨(fun _ ti h => by cases h), fun _ => unusedFrame_bounded f⟩
  | some ti =>
      dsimp only
      by_cases hreach : TcpReachesEstab ti (tcpPacketOf f)
      · rw [if_pos hreach, tcp_bounded_iff]
        exact ⟨fun h ti' hti _ => Option.some.inj hti ▸ h, fun h => h ti rfl hreach⟩
      · rw [if_neg hreach]
        refine ⟨fun _ ti' hti hreach' => ?_, fun _ => unusedFrame_bounded f⟩
        exact (hreach (Option.some.inj hti ▸ hreach')).elim

/-! ### The payload the ring gets -/

theorem bytes_append (f : Frame) (off m n : Nat) :
    f.bytes off m ++ f.bytes (off + m) n = f.bytes off (m + n) := by
  rw [Frame.bytes, Frame.bytes, Frame.bytes, List.range_add, List.map_append, List.map_map]
  congr 1
  exact List.map_congr_left fun i _ => by rw [Function.comp_apply, Nat.add_assoc]

theorem bytes_drop (f : Frame) (off n k : Nat) :
    (f.bytes off n).drop k = f.bytes (off + k) (n - k) := by
  by_cases hk : k ≤ n
  · have hlen : (f.bytes off k).length = k := by rw [Frame.bytes, List.length_map, List.length_range]
    rw [← Nat.add_sub_cancel' hk, ← bytes_append, Nat.add_sub_cancel_left]
    exact List.drop_left' hlen
  · rw [List.drop_eq_nil_of_le (by rw [Frame.bytes, List.length_map, List.length_range]; omega),
      Nat.sub_eq_zero_of_le (by omega)]
    rfl

theorem bytes_take (f : Frame) (off n k : Nat) (hk : k ≤ n) :
    (f.bytes off n).take k = f.bytes off k := by
  have hlen : (f.bytes off k).length = k := by rw [Frame.bytes, List.length_map, List.length_range]
  rw [← Nat.add_sub_cancel' hk, ← bytes_append]
  exact List.take_left' hlen

theorem extractLsb'_append_high (a : BitVec m) (b : BitVec n) (k : Nat) :
    (a ++ b).extractLsb' (n + k) 8 = a.extractLsb' k 8 := by
  apply BitVec.eq_of_getLsbD_eq
  intro i hi
  simp [BitVec.getLsbD_append, Nat.add_assoc]

theorem extractLsb'_append_low (a : BitVec m) (b : BitVec n) (hk : k + 8 ≤ n) :
    (a ++ b).extractLsb' k 8 = b.extractLsb' k 8 := by
  apply BitVec.eq_of_getLsbD_eq
  intro i hi
  have hlt : k + i < n := by omega
  simp [BitVec.getLsbD_append, hlt]

theorem be16_append (a b : BitVec 8) : be16 (a ++ b) = [⟨a⟩, ⟨b⟩] := by
  rw [be16, extractLsb'_append_high a b 0, extractLsb'_append_low a b (Nat.le_refl 8),
    BitVec.extractLsb'_eq_self, BitVec.extractLsb'_eq_self]

theorem be32_append (a b : BitVec 16) : be32 (a ++ b) = be16 a ++ be16 b := by
  rw [be32, extractLsb'_append_high a b 8, extractLsb'_append_high a b 0,
    extractLsb'_append_low a b (by decide), extractLsb'_append_low a b (by decide)]
  rfl

theorem be16_field (f : Frame) (off : Nat) : be16 (f.field16 off) = f.bytes off 2 :=
  be16_append _ _

theorem be32_field (f : Frame) (off : Nat) : be32 (f.field32 off) = f.bytes off 4 := by
  rw [Frame.field32, be32_append, be16_field, be16_field, bytes_append]

theorem tcpHeaderBytes_frame (f : Frame) : tcpHeaderBytes (tcpHeaderOf f) = f.bytes protoOffset 20 := by
  simp only [tcpHeaderBytes, tcpHeaderOf, be16_field, be32_field, bytes_append]

/-- What the ring gets of a stored segment is the memory of the stretch. -/
theorem tcpPayload_frame (f : Frame) :
    tcpPayload (tcpPacketOf f) =
      f.bytes (protoOffset + (tcpGetDoff (tcpHeaderOf f)).toNat * 4)
        (tcpGetPayloadSize (tcpPacketOf f)).toInt.toNat := by
  have hip := (ipLen f).isLt
  have hsize := tcpGetPayloadSize_int (tcpPacketOf f)
  have hdoff := (tcpGetDoff (tcpHeaderOf f)).isLt
  have hbody : (tcpPacketOf f).body = f.bytes (protoOffset + 20) 65536 := by rw [tcpPacketOf]
  have htcp : (tcpPacketOf f).tcp = tcpHeaderOf f := rfl
  have hlen : (tcpPacketOf f).ipLen = ipLen f := rfl
  rw [htcp, hlen] at hsize
  rw [tcpPayload, tcpGetPayload, hbody, htcp, tcpHeaderBytes_frame, bytes_append, bytes_drop]
  exact bytes_take f _ _ _ (by rw [hsize]; omega)

/-! ## Frames of all kinds -/

theorem doHandlePacket_delivered (h : FrameDelivered env f) :
    doHandlePacket env f =
      if ipProto f = ipProtoUdp then udpHandlePacket env f
      else if ipProto f = ipProtoIcmp then icmpHandlePacket env f
      else if ipProto f = ipProtoTcp then tcpFrameUse env f
      else unusedFrame := by
  obtain ⟨heth, htype, hver, hip⟩ := h
  rw [doHandlePacket, if_neg heth, if_pos htype, ipHandlePacket, if_neg (not_not.mpr hver),
    if_neg hip]

theorem doHandlePacket_dropped (h : ¬FrameDelivered env f) : doHandlePacket env f = unusedFrame := by
  rw [doHandlePacket]
  by_cases heth : ethShouldDrop env.ni f = true
  · rw [if_pos heth]
  rw [if_neg heth]
  by_cases htype : ethGetProto f = ethTypeIp4
  · rw [if_pos htype, ipHandlePacket]
    by_cases hver : ipGetVersion f = 4
    · rw [if_neg (not_not.mpr hver)]
      by_cases hip : ipShouldDrop env.ni f = true
      · rw [if_pos hip]
      · exact (h ⟨heth, htype, hver, hip⟩).elim
    · rw [if_pos hver]
  · rw [if_neg htype]

/-- **When received lengths are bounded by the frame.** Whatever frame is
received, of any length and with any contents, and whatever sockets and
connections there are, the lengths its handler computes are not negative and
the payload it copies lies inside the frame, exactly when the length fields
agree with the frame. -/
theorem frame_bounded_iff (env : NetEnv) (f : Frame) :
    FrameBounded f (doHandlePacket env f) ↔ FrameLengthsOk env f := by
  by_cases hdel : FrameDelivered env f
  · have hudp : ipProtoIcmp ≠ ipProtoUdp ∧ ipProtoTcp ≠ ipProtoUdp ∧ ipProtoTcp ≠ ipProtoIcmp := by
      decide
    rw [doHandlePacket_delivered hdel]
    constructor
    · intro hb
      refine ⟨fun _ hproto htype hcode => ?_, fun _ hproto hdhcp => ?_, fun _ hproto => ?_⟩
      · rw [hproto, if_neg hudp.1, if_pos rfl, icmpHandlePacket, if_pos ⟨htype, hcode⟩] at hb
        exact icmp_bounded_iff.mp hb
      · rw [hproto, if_pos rfl, udpHandlePacket, if_neg hdhcp] at hb
        exact udp_bounded_iff.mp hb
      · rw [hproto, if_neg hudp.2.1, if_neg hudp.2.2, if_pos rfl] at hb
        exact tcpFrame_bounded_iff.mp hb
    · intro hok
      by_cases hu : ipProto f = ipProtoUdp
      · rw [if_pos hu, udpHandlePacket]
        by_cases hdhcp : udpDstPort f = 68 ∧ udpSrcPort f = 67
        · rw [if_pos hdhcp]
          exact unusedFrame_bounded f
        · rw [if_neg hdhcp]
          exact udp_bounded_iff.mpr (hok.udp hdel hu hdhcp)
      rw [if_neg hu]
      by_cases hi : ipProto f = ipProtoIcmp
      · rw [if_pos hi, icmpHandlePacket]
        by_cases hecho : icmpType f = 8 ∧ icmpCode f = 0
        · rw [if_pos hecho]
          exact icmp_bounded_iff.mpr (hok.icmp hdel hi hecho.1 hecho.2)
        · rw [if_neg hecho]
          exact unusedFrame_bounded f
      rw [if_neg hi]
      by_cases ht : ipProto f = ipProtoTcp
      · rw [if_pos ht]
        exact tcpFrame_bounded_iff.mpr (hok.tcp hdel ht)
      · rw [if_neg ht]
        exact unusedFrame_bounded f
  · rw [doHandlePacket_dropped hdel]
    exact ⟨fun _ => ⟨fun h => (hdel h).elim, fun h => (hdel h).elim, fun h => (hdel h).elim⟩,
      fun _ => unusedFrame_bounded f⟩

/-- No socket, no connection. -/
def quietEnv : NetEnv :=
  { ni := { hwMac := [0x52, 0x54, 0x00, 0x12, 0x34, 0x56], srcIp := 0xc0a80002 }
    udpSock := fun _ => none, tcpInfo := fun _ => none, replyGrows := true, dgramMem := true
    bufferMem := true }

/-- An echo request of 42 bytes whose `ip_len` says 1500. -/
def longEcho : Frame :=
  { mem := fun i =>
      [0x52, 0x54, 0x00, 0x12, 0x34, 0x56, 0x52, 0x54, 0x00, 0x65, 0x43, 0x21, 0x08, 0x00,
        0x45, 0x00, 0x05, 0xdc, 0x00, 0x00, 0x00, 0x00, 0x40, 0x01, 0x00, 0x00,
        0xc0, 0xa8, 0x00, 0x01, 0xc0, 0xa8, 0x00, 0x02,
        0x08, 0x00, 0x00, 0x00, 0x00, 0x01, 0x00, 0x01].getD i 0
    len := 42 }

/-- The reply to it carries the 1472 bytes of memory behind the frame. -/
theorem frame_long_echo :
    doHandlePacket quietEnv longEcho = { lengths := [1472], copies := [⟨42, 1472⟩] } ∧
      ¬FrameBounded longEcho (doHandlePacket quietEnv longEcho) := by
  have huse : doHandlePacket quietEnv longEcho =
      { lengths := [1472], copies := [⟨42, 1472⟩] } := by
    decide +kernel
  refine ⟨huse, fun h => ?_⟩
  rw [huse] at h
  have := h.copies ⟨42, 1472⟩ List.mem_cons_self 0 (by decide)
  exact absurd this (by decide)

end Levos.Net
