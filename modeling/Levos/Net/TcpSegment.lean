import Levos.Net.Packet

/-!
# Segments that are sent (`net/tcp.c`)

`tcp_new_packet` builds the headers, flags and numbers are stored into the
header of TCP, the payload is put behind it, and `__tcp_send_packet` stores the
sequence number and, through `tcp_finalize_packet`, the checksums and the
length of IP.
-/

namespace Levos.Net

open Levos.Base

/-! ## The functions of the source -/

/-- A field as `to_le_16` gives it. -/
def loadBe16 (mem : Nat → UInt8) (a : Nat) : BitVec 16 :=
  (mem a).toBitVec ++ (mem (a + 1)).toBitVec

def tcpSeqOffset : Nat := 4
def tcpAckOffset : Nat := 8
def tcpDoffFlagsOffset : Nat := 12

def tcpSetDoff (mem : Nat → UInt8) (tcp : Nat) (doff : BitVec 16) : Nat → UInt8 :=
  let field := loadBe16 mem (tcp + tcpDoffFlagsOffset) &&& 0x0fff#16
  putList mem (tcp + tcpDoffFlagsOffset) (be16 (field ||| (doff &&& 0x0f#16) <<< 12))

def tcpFlagsPsh : BitVec 16 := 1 <<< 3

/-- `tcp_set_ack` and its like, for a bit that is 1. -/
def tcpSetFlag (flag : BitVec 16) (mem : Nat → UInt8) (tcp : Nat) : Nat → UInt8 :=
  putList mem (tcp + tcpDoffFlagsOffset)
    (be16 (loadBe16 mem (tcp + tcpDoffFlagsOffset) ||| flag))

def tcpSetAck : (Nat → UInt8) → Nat → Nat → UInt8 := tcpSetFlag tcpFlagsAck
def tcpSetPsh : (Nat → UInt8) → Nat → Nat → UInt8 := tcpSetFlag tcpFlagsPsh

def tcpWriteHeader (mem : Nat → UInt8) (tcp : Nat) (srcport dstport : BitVec 16) : Nat → UInt8 :=
  let mem := putList mem tcp (List.replicate sizeofTcpHeader 0)
  let mem := putList mem tcp (be16 srcport)
  let mem := putList mem (tcp + 2) (be16 dstport)
  let mem := tcpSetDoff mem tcp 5
  putList mem (tcp + 14) [0xff, 0xff]

def tcpAddHeader (mem : Option (Nat → UInt8)) (pkt : Packet) (srcport dstport : BitVec 16) :
    Option Packet :=
  (packetGrow mem pkt sizeofTcpHeader).map fun pkt =>
    { pkt with protoOffset := pkt.ptr, buf := tcpWriteHeader pkt.buf pkt.ptr srcport dstport }

/-- The ends of a connection, as its packets name them. -/
structure TcpEnds where
  srceth : List UInt8
  srcip : BitVec 32
  srcport : BitVec 16
  dstip : BitVec 32
  dstport : BitVec 16
deriving DecidableEq, Repr

/-- `ip_construct_packet_ni`, with what the route says of the address. -/
def ipConstructPacketNi (mem : Alloc) (netRouteTo : BitVec 32 → Option (BitVec 48))
    (ends : TcpEnds) : Option Packet := do
  let desteth ← netRouteTo ends.dstip
  ipConstructPacketEthFull mem ends.srceth (ethBytes desteth) ends.srcip ends.dstip

/-- `tcp_construct_packet`, as `tcp_new_packet` calls it. -/
def tcpNewPacket (mem : Alloc) (netRouteTo : BitVec 32 → Option (BitVec 48)) (ends : TcpEnds) :
    Option Packet := do
  let pkt ← ipConstructPacketNi mem netRouteTo ends
  let pkt := { pkt with buf := ipSetProto pkt.buf pkt.ipOffset ipProtoTcp }
  tcpAddHeader (mem 3) pkt ends.srcport ends.dstport

def tcpSetPayload (mem : Option (Nat → UInt8)) (pkt : Packet) (data : List UInt8) :
    Option Packet :=
  (packetGrow mem pkt data.length).map fun pkt =>
    { pkt with buf := putList pkt.buf pkt.ptr data }

/-- `__tcp_write` up to its call of `tcp_send_packet`. What `tcp_set_payload`
returns is not looked at. -/
def tcpWrite (mem : Alloc) (netRouteTo : BitVec 32 → Option (BitVec 48)) (ends : TcpEnds)
    (ti : TcpInfo) (data : List UInt8) : Option Packet := do
  let pkt ← tcpNewPacket mem netRouteTo ends
  let ntcp := pkt.protoOffset
  let buf := tcpSetAck pkt.buf ntcp
  let buf := tcpSetPsh buf ntcp
  let buf := putList buf (ntcp + tcpSeqOffset) (be32 ti.nextSeq)
  let buf := putList buf (ntcp + tcpAckOffset) (be32 ti.nextAck)
  let pkt := { pkt with buf }
  some ((tcpSetPayload (mem 4) pkt data).getD pkt)

/-- The packet as `__tcp_send_packet` hands it to the device. -/
def tcpSendSegment (nextSeq : BitVec 32) (pkt : Packet) (len : Nat) : Packet :=
  let buf := putList pkt.buf (pkt.protoOffset + tcpSeqOffset) (be32 nextSeq)
  { pkt with buf := tcpFinalizePacket buf pkt.protoOffset len }

/-! ## The header of TCP -/

section Header

variable {mem mem' : Nat → UInt8} {tcp a : Nat} {h : TcpHeader}

@[simp] theorem tcpHeaderBytes_length (h : TcpHeader) : (tcpHeaderBytes h).length = 20 := rfl

theorem loadBe16_of_holds {x : BitVec 16} (hx : HoldsAt mem a (be16 x)) : loadBe16 mem a = x :=
  field16_of_holds (f := ⟨mem, 0⟩) hx

/-- A header of TCP lies there. -/
def TcpHeaderAt (mem : Nat → UInt8) (tcp : Nat) (h : TcpHeader) : Prop :=
  HoldsAt mem tcp (tcpHeaderBytes h)

theorem TcpHeaderAt.storeSeq (hm : TcpHeaderAt mem tcp h) (seq : BitVec 32) :
    TcpHeaderAt (putList mem (tcp + tcpSeqOffset) (be32 seq)) tcp { h with seq := seq } :=
  HoldsAt.store (be16 h.srcPort ++ be16 h.dstPort) (be32 h.seq)
    (be32 h.ack ++ be16 h.doffFlags ++ be16 h.wsize ++ be16 h.chksum ++ be16 h.urgp) hm rfl

theorem TcpHeaderAt.storeAck (hm : TcpHeaderAt mem tcp h) (ack : BitVec 32) :
    TcpHeaderAt (putList mem (tcp + tcpAckOffset) (be32 ack)) tcp { h with ack := ack } :=
  HoldsAt.store (be16 h.srcPort ++ be16 h.dstPort ++ be32 h.seq) (be32 h.ack)
    (be16 h.doffFlags ++ be16 h.wsize ++ be16 h.chksum ++ be16 h.urgp) hm rfl

theorem TcpHeaderAt.storeDoffFlags (hm : TcpHeaderAt mem tcp h) (x : BitVec 16) :
    TcpHeaderAt (putList mem (tcp + tcpDoffFlagsOffset) (be16 x)) tcp { h with doffFlags := x } :=
  HoldsAt.store (be16 h.srcPort ++ be16 h.dstPort ++ be32 h.seq ++ be32 h.ack)
    (be16 h.doffFlags) (be16 h.wsize ++ be16 h.chksum ++ be16 h.urgp) hm rfl

theorem TcpHeaderAt.storeChksum (hm : TcpHeaderAt mem tcp h) (x : BitVec 16) :
    TcpHeaderAt (putList mem (tcp + tcpChksumOffset) (be16 x)) tcp { h with chksum := x } :=
  HoldsAt.store
    (be16 h.srcPort ++ be16 h.dstPort ++ be32 h.seq ++ be32 h.ack ++ be16 h.doffFlags ++
      be16 h.wsize) (be16 h.chksum) (be16 h.urgp) hm rfl

theorem loadBe16_doffFlags (hm : TcpHeaderAt mem tcp h) :
    loadBe16 mem (tcp + tcpDoffFlagsOffset) = h.doffFlags := by
  apply loadBe16_of_holds
  rw [TcpHeaderAt, tcpHeaderBytes, holdsAt_append, holdsAt_append, holdsAt_append,
    holdsAt_append] at hm
  exact hm.1.1.1.2

theorem TcpHeaderAt.setFlag {flag x : BitVec 16} (hm : TcpHeaderAt mem tcp h)
    (hx : h.doffFlags ||| flag = x) :
    TcpHeaderAt (tcpSetFlag flag mem tcp) tcp { h with doffFlags := x } := by
  rw [tcpSetFlag, loadBe16_doffFlags hm, hx]
  exact hm.storeDoffFlags x

theorem TcpHeaderAt.setDoff {doff x : BitVec 16} (hm : TcpHeaderAt mem tcp h)
    (hx : h.doffFlags &&& 0x0fff#16 ||| (doff &&& 0x0f#16) <<< 12 = x) :
    TcpHeaderAt (tcpSetDoff mem tcp doff) tcp { h with doffFlags := x } := by
  rw [tcpSetDoff, loadBe16_doffFlags hm, hx]
  exact hm.storeDoffFlags x

theorem tcpSetFlag_of_lt (flag : BitVec 16) (ha : a < tcp) :
    tcpSetFlag flag mem tcp a = mem a := by
  rw [tcpSetFlag, putList, if_neg (by omega)]

/-- The header as `tcp_write_header` leaves it. -/
def tcpBlank (srcport dstport : BitVec 16) : TcpHeader :=
  { srcPort := srcport, dstPort := dstport, seq := 0, ack := 0, doffFlags := 0x5000
    wsize := 0xffff, chksum := 0, urgp := 0 }

theorem tcpWriteHeader_at (mem : Nat → UInt8) (tcp : Nat) (srcport dstport : BitVec 16) :
    TcpHeaderAt (tcpWriteHeader mem tcp srcport dstport) tcp (tcpBlank srcport dstport) := by
  have hzero : HoldsAt (putList mem tcp (List.replicate sizeofTcpHeader 0)) tcp
      (tcpHeaderBytes ⟨0, 0, 0, 0, 0, 0, 0, 0⟩) := holdsAt_putList _ _ _
  have hsrc := HoldsAt.store [] (be16 0)
    (be16 0 ++ be32 0 ++ be32 0 ++ be16 0 ++ be16 0 ++ be16 0 ++ be16 0) hzero (be16_length srcport)
  have hdst := HoldsAt.store (be16 srcport) (be16 0)
    (be32 0 ++ be32 0 ++ be16 0 ++ be16 0 ++ be16 0 ++ be16 0) hsrc (be16_length dstport)
  have hports : TcpHeaderAt (putList (putList (putList mem tcp (List.replicate sizeofTcpHeader 0))
      tcp (be16 srcport)) (tcp + 2) (be16 dstport)) tcp ⟨srcport, dstport, 0, 0, 0, 0, 0, 0⟩ := hdst
  have hfive : 0#16 &&& 0x0fff#16 ||| (5#16 &&& 0x0f#16) <<< 12 = 0x5000#16 := by decide
  have hdoff := hports.setDoff hfive
  exact HoldsAt.store (be16 srcport ++ be16 dstport ++ be32 0 ++ be32 0 ++ be16 0x5000) (be16 0)
    (be16 0 ++ be16 0) hdoff (be16_length 0xffff)

theorem tcpWriteHeader_of_lt (srcport dstport : BitVec 16) (ha : a < tcp) :
    tcpWriteHeader mem tcp srcport dstport a = mem a := by
  have hbelow : ∀ (b : Nat → UInt8) (k : Nat) (l : List UInt8), tcp ≤ k → putList b k l a = b a :=
    fun b k l hk => if_neg (by omega)
  rw [tcpWriteHeader, hbelow _ _ _ (by omega), tcpSetDoff, hbelow _ _ _ (by omega),
    hbelow _ _ _ (by omega), hbelow _ _ _ le_rfl, hbelow _ _ _ le_rfl]

/-- The receiver reads the header that lies in the frame. -/
theorem tcpHeaderOf_of_holds {f : Frame} (hm : TcpHeaderAt f.mem protoOffset h) :
    tcpHeaderOf f = h := by
  simp only [TcpHeaderAt, tcpHeaderBytes, holdsAt_append, List.length_append, be16_length,
    be32_length, Nat.reduceAdd] at hm
  obtain ⟨⟨⟨⟨⟨⟨⟨hsrc, hdst⟩, hseq⟩, hack⟩, hdoff⟩, hwsize⟩, hchksum⟩, hurgp⟩ := hm
  rw [tcpHeaderOf, field16_of_holds hsrc, field16_of_holds hdst, field32_of_holds hseq,
    field32_of_holds hack, field16_of_holds hdoff, field16_of_holds hwsize,
    field16_of_holds hchksum, field16_of_holds hurgp]

end Header

/-! ## Frames -/

/-- The headers of a segment in its frame. -/
structure TcpFrameAt (mem : Nat → UInt8) (dsteth : BitVec 48) (ends : TcpEnds) (len : BitVec 16)
    (h : TcpHeader) : Prop where
  eth : HoldsAt mem 0 (ethBytes dsteth ++ ends.srceth ++ be16 ethTypeIp4)
  ip : IpHeaderAt mem 14 len ipProtoTcp ends.srcip ends.dstip
  tcp : TcpHeaderAt mem 34 h

section Construct

variable {mem : Alloc} {pkt : Packet} {ends : TcpEnds} {netRouteTo : BitVec 32 → Option (BitVec 48)}
  {dsteth : BitVec 48} {len : BitVec 16} {h h' : TcpHeader} {buf buf' : Nat → UInt8}
  {data : List UInt8}

theorem TcpFrameAt.congr (hf : TcpFrameAt buf dsteth ends len h) (hs : ends.srceth.length = 6)
    (hc : ∀ j < 34, buf' j = buf j) (htcp : TcpHeaderAt buf' 34 h') :
    TcpFrameAt buf' dsteth ends len h' := by
  refine ⟨hf.eth.congr fun j _ hj => hc j ?_, hf.ip.congr fun j _ hj => hc j (by omega), htcp⟩
  simp [hs] at hj
  omega

/-- Stores into the header of TCP or behind it. -/
theorem TcpFrameAt.store {k : Nat} {l : List UInt8} (hf : TcpFrameAt buf dsteth ends len h)
    (hs : ends.srceth.length = 6) (hk : 34 ≤ k)
    (htcp : TcpHeaderAt (putList buf k l) 34 h') :
    TcpFrameAt (putList buf k l) dsteth ends len h' :=
  hf.congr hs (fun j hj => if_neg (by omega)) htcp

theorem TcpFrameAt.setFlag {flag x : BitVec 16} (hf : TcpFrameAt buf dsteth ends len h)
    (hs : ends.srceth.length = 6) (hx : h.doffFlags ||| flag = x) :
    TcpFrameAt (tcpSetFlag flag buf 34) dsteth ends len { h with doffFlags := x } :=
  hf.congr hs (fun _ hj => tcpSetFlag_of_lt flag hj) (hf.tcp.setFlag hx)

theorem tcpNewPacket_some (hp : tcpNewPacket mem netRouteTo ends = some pkt)
    (hs : ends.srceth.length = 6) :
    ∃ eth, netRouteTo ends.dstip = some eth ∧ pkt.len = 54 ∧ pkt.protoOffset = 34 ∧
      TcpFrameAt pkt.buf eth ends 20 (tcpBlank ends.srcport ends.dstport) := by
  simp only [tcpNewPacket, ipConstructPacketNi, tcpAddHeader, Option.bind_eq_bind,
    Option.bind_eq_some_iff, Option.map_eq_some_iff] at hp
  obtain ⟨ip, ⟨eth, hroute, hip⟩, grown, hgrow, rfl⟩ := hp
  obtain ⟨hlen, hoff, hholds, hheader⟩ := ipConstructPacketEthFull_some hip hs (ethBytes_length eth)
  obtain ⟨junk, rfl⟩ := packetGrow_some hgrow
  have hptr : ({ ip with buf := ipSetProto ip.buf ip.ipOffset ipProtoTcp } : Packet).len = 34 :=
    hlen
  refine ⟨eth, hroute, congrArg (· + 20) hlen, hlen, ?_⟩
  have hkept : ∀ j < 34, tcpWriteHeader (({ ip with
      buf := ipSetProto ip.buf ip.ipOffset ipProtoTcp } : Packet).grown junk sizeofTcpHeader).buf
        34 ends.srcport ends.dstport j = ipSetProto ip.buf 14 ipProtoTcp j := fun j hj => by
    rw [tcpWriteHeader_of_lt _ _ hj, Packet.grown, hoff]
    exact if_pos (by rw [hlen]; exact hj)
  dsimp only
  rw [show (({ ip with buf := ipSetProto ip.buf ip.ipOffset ipProtoTcp } : Packet).grown junk
    sizeofTcpHeader).ptr = 34 from hlen]
  refine ⟨hholds.congr fun j _ hj => ?_, (hheader.setProto ipProtoTcp).congr fun j _ hj =>
    hkept j (by omega), tcpWriteHeader_at _ _ _ _⟩
  simp [hs] at hj
  rw [hkept j (by omega), ipSetProto_of_ne (by omega) (by omega) (by omega)]

theorem tcpSetPayload_some {grow : Option (Nat → UInt8)} {pkt' : Packet} (hlen : pkt.len = 54)
    (hset : tcpSetPayload grow pkt data = some pkt') (hs : ends.srceth.length = 6)
    (hf : TcpFrameAt pkt.buf dsteth ends len h) :
    pkt'.len = 54 + data.length ∧ pkt'.protoOffset = pkt.protoOffset ∧
      TcpFrameAt pkt'.buf dsteth ends len h ∧ HoldsAt pkt'.buf 54 data := by
  obtain ⟨grown, hgrow, rfl⟩ := Option.map_eq_some_iff.mp hset
  obtain ⟨junk, rfl⟩ := packetGrow_some hgrow
  have hptr : (pkt.grown junk data.length).ptr = 54 := hlen
  have hgrown : ∀ j < 54, (pkt.grown junk data.length).buf j = pkt.buf j := fun j hj =>
    if_pos (hlen ▸ hj)
  have hkept : ∀ j < 54, putList (pkt.grown junk data.length).buf 54 data j = pkt.buf j :=
    fun j hj => (if_neg (by omega)).trans (hgrown j hj)
  dsimp only
  rw [hptr]
  refine ⟨congrArg (· + data.length) hlen, rfl, ?_, holdsAt_putList _ _ _⟩
  refine hf.congr hs (fun j hj => hkept j (by omega)) (hf.tcp.congr fun j _ hj => hkept j ?_)
  rw [tcpHeaderBytes_length] at hj
  exact hj

/-- The header that `__tcp_write` builds. -/
def tcpWritten (ends : TcpEnds) (ti : TcpInfo) : TcpHeader :=
  { tcpBlank ends.srcport ends.dstport with
    seq := ti.nextSeq, ack := ti.nextAck, doffFlags := 0x5018 }

/-- **What `__tcp_write` builds.** Where there was no memory for the payload,
it is not there. -/
theorem tcpWrite_some {ti : TcpInfo} (hp : tcpWrite mem netRouteTo ends ti data = some pkt)
    (hs : ends.srceth.length = 6) :
    ∃ eth, netRouteTo ends.dstip = some eth ∧ pkt.protoOffset = 34 ∧
      TcpFrameAt pkt.buf eth ends 20 (tcpWritten ends ti) ∧
      (mem 4 = none ∧ pkt.len = 54 ∨ pkt.len = 54 + data.length ∧ HoldsAt pkt.buf 54 data) := by
  simp only [tcpWrite, Option.bind_eq_bind, Option.bind_eq_some_iff] at hp
  obtain ⟨new, hnew, hp⟩ := hp
  obtain ⟨eth, hroute, hlen, hoff, hframe⟩ := tcpNewPacket_some hnew hs
  rw [hoff] at hp
  have hack : (0x5000 : BitVec 16) ||| tcpFlagsAck = 0x5010 := by decide
  have hpsh : (0x5010 : BitVec 16) ||| tcpFlagsPsh = 0x5018 := by decide
  have hflags := (hframe.setFlag hs hack).setFlag hs hpsh
  have hseq := hflags.store hs (by decide) (hflags.tcp.storeSeq ti.nextSeq)
  have hnum := hseq.store hs (by decide) (hseq.tcp.storeAck ti.nextAck)
  refine ⟨eth, hroute, ?_⟩
  cases hset : tcpSetPayload (mem 4) { new with
      buf := putList (putList (tcpSetPsh (tcpSetAck new.buf 34) 34) (34 + tcpSeqOffset)
        (be32 ti.nextSeq)) (34 + tcpAckOffset) (be32 ti.nextAck)
      protoOffset := 34 } data with
  | none =>
      rw [hset] at hp
      cases hp
      exact ⟨rfl, hnum, .inl ⟨Option.map_eq_none_iff.mp (Option.map_eq_none_iff.mp hset), hlen⟩⟩
  | some pkt' =>
      rw [hset] at hp
      cases hp
      obtain ⟨hlen', hoff', hframe', hdata⟩ := tcpSetPayload_some (by exact hlen) hset hs hnum
      exact ⟨hoff', hframe', .inr ⟨hlen', hdata⟩⟩

/-- What `tcp_finalize_packet` changes in the header of TCP is the checksum. -/
theorem tcpFinalizePacket_of_ne {b : Nat → UInt8} {a n : Nat} (h₂ : a ≠ 16) (h₃ : a ≠ 17)
    (h₁₀ : a ≠ 24) (h₁₁ : a ≠ 25) (hsum : a < 50 ∨ 52 ≤ a) : tcpFinalizePacket b 34 n a = b a := by
  rw [tcpFinalizePacket, sizeofIpBaseHeader,
    ipUpdateLength_of_ne (by omega) (by omega) (by omega) (by omega), tcpChksumOffset,
    put16_of_ne (by omega), put16_of_ne (by omega)]

theorem TcpFrameAt.finalize (hf : TcpFrameAt buf dsteth ends len h) (hs : ends.srceth.length = 6)
    (n : Nat) : ∃ chksum, TcpFrameAt (tcpFinalizePacket buf 34 n) dsteth ends
      (BitVec.ofNat 16 (40 + n)) { h with chksum } := by
  generalize hsum : not32 (foldCarries (accumulate (tcpAddends (put16 buf 50 0) 14 34 n))) = sum
  have hstored : tcpFinalizePacket buf 34 n =
      ipUpdateLength (putList (putList buf 50 (be16 0)) 50 (be16 (BitVec.ofNat 16 sum))) 14
        (20 + n) := by
    rw [← put16_swap16, ← hsum, show be16 0 = [0, 0] from rfl, ← put16_zero_eq]
    rfl
  refine ⟨BitVec.ofNat 16 sum, ?_⟩
  rw [hstored]
  have hzero := hf.store hs (by decide) (hf.tcp.storeChksum 0)
  have hdone := hzero.store hs (by decide) (hzero.tcp.storeChksum (BitVec.ofNat 16 sum))
  refine ⟨hdone.eth.congr fun j _ hj => ?_, ?_, hdone.tcp.congr fun j hj _ => ?_⟩
  · simp [hs] at hj
    exact ipUpdateLength_of_ne (by omega) (by omega) (by omega) (by omega)
  · rw [show 40 + n = 20 + (20 + n) by omega]
    exact hdone.ip.updateLength (20 + n)
  · exact ipUpdateLength_of_ne (by omega) (by omega) (by omega) (by omega)

/-- **What `__tcp_send_packet` hands to the device.** -/
theorem tcpSendSegment_some (seq : BitVec 32) (hoff : pkt.protoOffset = 34)
    (hf : TcpFrameAt pkt.buf dsteth ends len h) (hs : ends.srceth.length = 6) (n : Nat) :
    ∃ chksum, TcpFrameAt (tcpSendSegment seq pkt n).buf dsteth ends (BitVec.ofNat 16 (40 + n))
        { h with seq, chksum } ∧
      (tcpSendSegment seq pkt n).len = pkt.len ∧
      ∀ j, 54 ≤ j → (tcpSendSegment seq pkt n).buf j = pkt.buf j := by
  have hseq := hf.store hs (by decide) (hf.tcp.storeSeq seq)
  obtain ⟨chksum, hdone⟩ := hseq.finalize hs n
  refine ⟨chksum, ?_, rfl, fun j hj => ?_⟩
  · rw [tcpSendSegment, hoff]
    exact hdone
  · rw [tcpSendSegment, hoff]
    dsimp only
    rw [tcpFinalizePacket_of_ne (by omega) (by omega) (by omega) (by omega) (by omega)]
    apply putList_of_le
    rw [be32_length, tcpSeqOffset]
    omega

end Construct

/-! ## The segment as it is received -/

section Received

variable {f : Frame} {dsteth : BitVec 48} {ends : TcpEnds} {h : TcpHeader} {data : List UInt8}

theorem TcpFrameAt.of_memBytes {mem mem' : Nat → UInt8} {len : BitVec 16} {n : Nat}
    (hf : TcpFrameAt mem dsteth ends len h) (hm : HoldsAt mem' 0 (memBytes mem 0 n))
    (hs : ends.srceth.length = 6) (hle : 54 ≤ n) : TcpFrameAt mem' dsteth ends len h := by
  have hsame : ∀ j < 54, mem' j = mem j := fun j hj => by
    have := hm j (by rw [memBytes_length]; omega)
    simpa [memBytes] using this
  refine hf.congr hs (fun j hj => hsame j (by omega)) (hf.tcp.congr fun j _ hj => hsame j ?_)
  rw [tcpHeaderBytes_length] at hj
  exact hj

/-- **What the receiver reads of the headers.** -/
theorem TcpFrameAt.fields {n : Nat} (hf : TcpFrameAt f.mem dsteth ends (BitVec.ofNat 16 (40 + n)) h)
    (hs : ends.srceth.length = 6) (hn : 40 + n < 65536) :
    f.bytes 0 6 = ethBytes dsteth ∧ f.bytes 6 6 = ends.srceth ∧ ethGetProto f = ethTypeIp4 ∧
      ipGetVersion f = 4 ∧ (ipLen f).toNat = 40 + n ∧ ipProto f = ipProtoTcp ∧
      f.field32 26 = ends.srcip ∧ ipDstaddr f = ends.dstip ∧ tcpHeaderOf f = h := by
  obtain ⟨heth, ⟨hstart, haddrs, -⟩, htcp⟩ := hf
  simp only [holdsAt_append, holdsAt_cons, List.length_append, ethBytes_length, hs, be16_length,
    be32_length, List.length_cons, List.length_nil, Nat.reduceAdd, Nat.zero_add]
    at heth hstart haddrs
  obtain ⟨⟨hdst, hsrc⟩, htype⟩ := heth
  obtain ⟨⟨⟨hver, -⟩, hiplen⟩, -, -, -, -, -, hproto, -⟩ := hstart
  have hsrc' : f.bytes 6 ends.srceth.length = ends.srceth := bytes_of_holds hsrc
  rw [hs] at hsrc'
  refine ⟨bytes_of_holds hdst, hsrc', field16_of_holds htype, ?_, ?_, ?_,
    field32_of_holds haddrs.1, field32_of_holds haddrs.2, tcpHeaderOf_of_holds htcp⟩
  · rw [ipGetVersion, Frame.byte, ipOffset, sizeofEthernetHeader, hver]
    rfl
  · have : ipLen f = _ := field16_of_holds hiplen
    rw [this, BitVec.toNat_ofNat]
    omega
  · rw [ipProto, Frame.byte, ipOffset, sizeofEthernetHeader, hproto]

/-- The payload that lies behind a header without options. -/
theorem tcpPayload_of_holds (hlen : (ipLen f).toNat = 40 + data.length)
    (hdoff : tcpGetDoff (tcpHeaderOf f) = 5) (hdata : HoldsAt f.mem 54 data) :
    (tcpGetPayloadSize (tcpPacketOf f)).toInt = data.length ∧
      tcpPayload (tcpPacketOf f) = data := by
  have hsize : (tcpGetPayloadSize (tcpPacketOf f)).toInt = data.length := by
    have hint := tcpGetPayloadSize_int (tcpPacketOf f)
    rw [show (tcpPacketOf f).ipLen = ipLen f from rfl,
      show (tcpPacketOf f).tcp = tcpHeaderOf f from rfl, hlen, hdoff] at hint
    rw [hint]
    push_cast
    ring
  refine ⟨hsize, ?_⟩
  rw [tcpPayload_frame, hsize, hdoff, Int.toNat_natCast]
  exact bytes_of_holds hdata

/-- The flags that `__tcp_write` sets, and no others. -/
theorem tcpWritten_flags (hd : (tcpHeaderOf f).doffFlags = 0x5018) :
    tcpGetDoff (tcpHeaderOf f) = 5 ∧ tcpIsSetAck (tcpHeaderOf f) ∧ ¬tcpIsSetSyn (tcpHeaderOf f) ∧
      ¬tcpIsSetFin (tcpHeaderOf f) ∧ ¬tcpIsSetRst (tcpHeaderOf f) := by
  simp only [tcpIsSetAck, tcpIsSetSyn, tcpIsSetFin, tcpIsSetRst, tcpIsSet, tcpGetFlags,
    tcpGetDoff, hd]
  decide

/-- **From `tcp_sock_write` to the receiver.** Whatever the memory of the packet
held and whichever sequence number it goes out with, whoever receives the frame
of a write reads from it the addresses, ports, numbers and payload it was built
for, with just ACK set of the flags that change a connection, and both
checksums sum up. -/
theorem tcp_segment_round_trip {mem : Alloc} {netRouteTo : BitVec 32 → Option (BitVec 48)}
    {pkt : Packet} {ti : TcpInfo} (seq : BitVec 32)
    (h : tcpWrite mem netRouteTo ends ti data = some pkt) (hmem : mem 4 ≠ none)
    (hs : ends.srceth.length = 6) (hlen : data.length ≤ 65495)
    (hf : HoldsAt f.mem 0 (tcpSendSegment seq pkt data.length).bytes) :
    ∃ eth, netRouteTo ends.dstip = some eth ∧
      (tcpSendSegment seq pkt data.length).bytes.length = 54 + data.length ∧
      f.bytes 0 6 = ethBytes eth ∧ f.bytes 6 6 = ends.srceth ∧ ethGetProto f = ethTypeIp4 ∧
      ipGetVersion f = 4 ∧ (ipLen f).toNat = 40 + data.length ∧ ipProto f = ipProtoTcp ∧
      f.field32 26 = ends.srcip ∧ ipDstaddr f = ends.dstip ∧
      onesSum (words beWord (memBytes f.mem 14 20)) = 0xffff ∧
      onesSum (words beWord (pseudoHeader f.mem 14 (data.length + 20) ++
        memBytes f.mem 34 (data.length + 20))) = 0xffff ∧
      (tcpHeaderOf f).srcPort = ends.srcport ∧ (tcpHeaderOf f).dstPort = ends.dstport ∧
      (tcpHeaderOf f).seq = seq ∧ (tcpHeaderOf f).ack = ti.nextAck ∧
      tcpIsSetAck (tcpHeaderOf f) ∧ ¬tcpIsSetSyn (tcpHeaderOf f) ∧ ¬tcpIsSetFin (tcpHeaderOf f) ∧
      ¬tcpIsSetRst (tcpHeaderOf f) ∧ (tcpGetPayloadSize (tcpPacketOf f)).toInt = data.length ∧
      tcpPayload (tcpPacketOf f) = data := by
  obtain ⟨eth, hroute, hoff, hframe, ⟨hnone, -⟩ | ⟨hsize, hdata⟩⟩ := tcpWrite_some h hs
  · exact absurd hnone hmem
  obtain ⟨chksum, hsent, hsentlen, hbehind⟩ :=
    tcpSendSegment_some seq hoff hframe hs data.length
  have hall : (tcpSendSegment seq pkt data.length).len = 54 + data.length := hsentlen.trans hsize
  have hread := hsent.of_memBytes hf hs (by omega)
  obtain ⟨h1, h2, h3, h4, h5, h6, h7, h8, h9⟩ := hread.fields hs (by omega)
  have hpayload : HoldsAt f.mem 54 data :=
    HoldsAt.of_memBytes (hdata.congr fun j hj _ => hbehind j hj) hf (by omega)
  obtain ⟨hdoff, hack, hsyn, hfin, hrst⟩ := tcpWritten_flags (f := f) (by rw [h9]; rfl)
  obtain ⟨hpsize, hp⟩ := tcpPayload_of_holds h5 hdoff hpayload
  have hsum := tcpFinalizePacket_sum (putList pkt.buf (pkt.protoOffset + tcpSeqOffset) (be32 seq))
    14 hlen
  have hmem' : ∀ j < 54 + data.length, f.mem j = (tcpSendSegment seq pkt data.length).buf j :=
    fun j hj => by
      have := hf j (by rw [Packet.bytes, memBytes_length]; omega)
      simpa [Packet.bytes, memBytes] using this
  have hsame : ∀ a n, a + n ≤ 54 + data.length →
      memBytes f.mem a n = memBytes (tcpSendSegment seq pkt data.length).buf a n :=
    fun a n han => memBytes_congr fun i hi => hmem' (a + i) (by omega)
  refine ⟨eth, hroute, ?_, h1, h2, h3, h4, h5, h6, h7, h8, hread.ip.sum, ?_, ?_⟩
  · rw [Packet.bytes, memBytes_length, hall]
  · rw [pseudoHeader, hsame _ _ (by rw [ipSrcaddrOffset]; omega), hsame _ _ (by omega),
      tcpSendSegment, hoff]
    rw [hoff] at hsum
    exact hsum
  · refine ⟨?_, ?_, ?_, ?_, hack, hsyn, hfin, hrst, hpsize, hp⟩ <;> rw [h9] <;> rfl

end Received

/-- Three bytes in a packet whose memory was full of ones. -/
theorem tcp_segment_round_trip_three : ∃ (pkt : Packet) (f : Frame),
    HoldsAt f.mem 0 (tcpSendSegment 7 pkt 3).bytes ∧
    ∃ eth, some 0x525400654321 = some eth ∧ (tcpSendSegment 7 pkt 3).bytes.length = 57 ∧
      f.bytes 0 6 = ethBytes eth ∧ f.bytes 6 6 = ethBytes 0x525400123456 ∧
      ethGetProto f = ethTypeIp4 ∧ ipGetVersion f = 4 ∧ (ipLen f).toNat = 43 ∧
      ipProto f = ipProtoTcp ∧ f.field32 26 = 0xc0a80001 ∧ ipDstaddr f = 0xc0a80002 ∧
      onesSum (words beWord (memBytes f.mem 14 20)) = 0xffff ∧
      onesSum (words beWord (pseudoHeader f.mem 14 23 ++ memBytes f.mem 34 23)) = 0xffff ∧
      (tcpHeaderOf f).srcPort = 1024 ∧ (tcpHeaderOf f).dstPort = 80 ∧ (tcpHeaderOf f).seq = 7 ∧
      (tcpHeaderOf f).ack = 9 ∧ tcpIsSetAck (tcpHeaderOf f) ∧ ¬tcpIsSetSyn (tcpHeaderOf f) ∧
      ¬tcpIsSetFin (tcpHeaderOf f) ∧ ¬tcpIsSetRst (tcpHeaderOf f) ∧
      (tcpGetPayloadSize (tcpPacketOf f)).toInt = 3 ∧ tcpPayload (tcpPacketOf f) = [1, 2, 3] := by
  let ends : TcpEnds := ⟨ethBytes 0x525400123456, 0xc0a80001, 1024, 0xc0a80002, 80⟩
  let ti : TcpInfo := ⟨.estab, 0, 9, 7, 0, false, ⟨0, 0, 0, 0, 0, []⟩, [], []⟩
  obtain ⟨pkt, hpkt⟩ : ∃ pkt, tcpWrite (fun _ => some fun _ => 0xff) (fun _ => some 0x525400654321)
      ends ti [1, 2, 3] = some pkt := ⟨_, rfl⟩
  have hbytes : HoldsAt (putList (fun _ => 0) 0 (tcpSendSegment 7 pkt 3).bytes) 0
      (tcpSendSegment 7 pkt 3).bytes := holdsAt_putList _ _ _
  exact ⟨pkt, ⟨putList (fun _ => 0) 0 (tcpSendSegment 7 pkt 3).bytes, 0⟩, hbytes,
    tcp_segment_round_trip (f := ⟨putList (fun _ => 0) 0 (tcpSendSegment 7 pkt 3).bytes, 0⟩)
      7 hpkt (by simp) rfl (by decide) hbytes⟩

end Levos.Net
