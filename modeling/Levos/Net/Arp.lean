import Levos.Net.ArpCache
import Levos.Net.Packet

/-!
# ARP packets (`net/arp.c`)

How requests and replies are built, and what a received packet makes the host
do. The addresses behind the header are found through `arp_hlen` and
`arp_plen` of the packet itself; a reply is taken for what it says.
-/

namespace Levos.Net

open Levos.Base

/-! ## The functions of the source -/

def ethTypeArp : BitVec 16 := 0x0806
def arpOpcodeRequest : BitVec 16 := 0x0001
def arpOpcodeReply : BitVec 16 := 0x0002
def arpHtypeEthernet : BitVec 16 := 0x0001
def arpHlenEthernet : Nat := 6
def arpPtypeIp : BitVec 16 := 0x0800
def arpPlenIp : Nat := 4
def sizeofArpHeader : Nat := 8

def arpGetPlen (ptype : BitVec 16) : Nat := if ptype = arpPtypeIp then arpPlenIp else 0

def arpGetHlen (htype : BitVec 16) : Nat := if htype = arpHtypeEthernet then arpHlenEthernet else 0

/-- `arp_write_header`; of what is behind each pointer the first `hlen` or
`plen` bytes are copied. -/
def arpWriteHeader (mem : Nat → UInt8) (buf : Nat) (ptype : BitVec 16) (plen : Nat)
    (htype : BitVec 16) (hlen : Nat) (opcode : BitVec 16) (hsrc psrc hdst pdst : List UInt8) :
    Nat → UInt8 :=
  let offset := buf + sizeofArpHeader
  let mem := putList mem (buf + 2) (be16 ptype)
  let mem := putList mem (buf + 5) [UInt8.ofNat plen]
  let mem := putList mem buf (be16 htype)
  let mem := putList mem (buf + 4) [UInt8.ofNat hlen]
  let mem := putList mem (buf + 6) (be16 opcode)
  let mem := putList mem offset (hsrc.take hlen)
  let mem := putList mem (offset + hlen) (psrc.take plen)
  let mem := putList mem (offset + hlen + plen) (hdst.take hlen)
  putList mem (offset + hlen + plen + hlen) (pdst.take plen)

def arpAddHeader (mem : Option (Nat → UInt8)) (pkt : Packet) (htype ptype opcode : BitVec 16)
    (hsrc psrc hdst pdst : List UInt8) : Option Packet :=
  let plen := arpGetPlen ptype
  let hlen := arpGetHlen htype
  (packetGrow mem pkt (sizeofArpHeader + 2 * (plen + hlen))).map fun pkt =>
    { pkt with buf := arpWriteHeader pkt.buf pkt.ptr ptype plen htype hlen opcode hsrc psrc hdst pdst }

def arpConstructPacket (mem : Alloc) (htype ptype opcode : BitVec 16)
    (hsrc psrc hdst pdst : List UInt8) : Option Packet := do
  let pkt ← ethConstructPacket mem hsrc ethBroadcastAddr ethTypeArp
  arpAddHeader (mem 2) pkt htype ptype opcode hsrc psrc hdst pdst

def arpConstructRequest (mem : Alloc) (htype ptype : BitVec 16) (hsrc psrc hdst pdst : List UInt8) :
    Option Packet :=
  arpConstructPacket mem htype ptype arpOpcodeRequest hsrc psrc hdst pdst

def arpConstructRequestEthIp (mem : Alloc) (hsrc : List UInt8) (psrc pdst : BitVec 32) :
    Option Packet :=
  arpConstructRequest mem arpHtypeEthernet arpPtypeIp hsrc (be32 psrc) (ethBytes ethNullAddr)
    (be32 pdst)

/-- Where the header of a received packet begins. -/
def arpOffset : Nat := sizeofEthernetHeader

def arpHlen (f : Frame) : Nat := (f.byte (arpOffset + 4)).toNat
def arpPlen (f : Frame) : Nat := (f.byte (arpOffset + 5)).toNat
def arpOpcode (f : Frame) : BitVec 16 := f.field16 (arpOffset + 6)

/-- The pointers `arp_get_hsrc`, `arp_get_psrc` and `arp_get_pdst`. -/
def arpGetHsrc : Nat := arpOffset + sizeofArpHeader
def arpGetPsrc (f : Frame) : Nat := arpOffset + sizeofArpHeader + arpHlen f
def arpGetPdst (f : Frame) : Nat :=
  arpOffset + sizeofArpHeader + arpHlen f + arpPlen f + arpHlen f

/-- An `ip_addr_t` as it is loaded. -/
def loadIp (mem : Nat → UInt8) (a : Nat) : BitVec 32 := BitVec.ofNat 32 (le32 mem a)

/-- `arp_set_hdst`, with the address to copy at `hdst` of another packet. -/
def arpSetHdst (mem : Nat → UInt8) (arp : Nat) (other : Nat → UInt8) (hdst : Nat) : Nat → UInt8 :=
  let hlen := (mem (arp + 4)).toNat
  let plen := (mem (arp + 5)).toNat
  putList mem (arp + sizeofArpHeader + hlen + plen) (memBytes other hdst hlen)

/-- `arp_send_reply_us`; without memory for the packet a null pointer is
followed. -/
def arpSendReplyUs (mem : Alloc) (ni : NetInfo) (f : Frame) : Option Packet :=
  (arpConstructRequestEthIp mem ni.hwMac ni.srcIp (toBe32 (loadIp f.mem (arpGetPsrc f)))).map
    fun pkt =>
      let buf := putList pkt.buf 0 (f.bytes arpGetHsrc 6)
      let buf := putList buf (pkt.ptr + 6) (be16 arpOpcodeReply)
      { pkt with buf := arpSetHdst buf pkt.ptr f.mem arpGetHsrc }

/-- What a received packet makes the host do. -/
inductive ArpAction : Type where
  | drop
  | insert (ip : BitVec 32) (eth : BitVec 48)
  | reply (pkt : Option Packet)

def arpTryEthIpRequest (mem : Alloc) (ni : NetInfo) (f : Frame) : ArpAction :=
  if loadIp f.mem (arpGetPdst f) = toBe32 ni.srcIp then .reply (arpSendReplyUs mem ni f) else .drop

/-- `arp_handle_request`, with `ni_arp_kick`. -/
def arpHandleRequest (mem : Alloc) (ni : NetInfo) (arpKick : Bool) (f : Frame) : ArpAction :=
  if !arpKick then .drop
  else if arpHlen f = 6 ∧ arpPlen f = 4 then arpTryEthIpRequest mem ni f
  else .drop

def arpHandleReply (f : Frame) : ArpAction :=
  .insert (loadIp f.mem (arpGetPsrc f)) (ethAt f.mem arpGetHsrc)

def arpHandlePacket (mem : Alloc) (ni : NetInfo) (arpKick : Bool) (f : Frame) : ArpAction :=
  if arpOpcode f = arpOpcodeRequest then arpHandleRequest mem ni arpKick f
  else if arpOpcode f = arpOpcodeReply then arpHandleReply f
  else .drop

/-- What a packet can do: nothing, an entry of the cache, or an answer to a
request for our address. -/
theorem arpHandlePacket_cases (mem : Alloc) (ni : NetInfo) (arpKick : Bool) (f : Frame) :
    arpHandlePacket mem ni arpKick f = .drop ∨
    (arpOpcode f = arpOpcodeReply ∧ arpHandlePacket mem ni arpKick f =
      .insert (loadIp f.mem (arpGetPsrc f)) (ethAt f.mem arpGetHsrc)) ∨
    (arpKick = true ∧ arpOpcode f = arpOpcodeRequest ∧ arpHlen f = 6 ∧ arpPlen f = 4 ∧
      loadIp f.mem (arpGetPdst f) = toBe32 ni.srcIp ∧
      arpHandlePacket mem ni arpKick f = .reply (arpSendReplyUs mem ni f)) := by
  rw [arpHandlePacket]
  split
  · next hreq =>
      rw [arpHandleRequest]
      split
      · exact .inl rfl
      · next hkick =>
          split
          · next hlens =>
              rw [arpTryEthIpRequest]
              split
              · next hip => exact .inr (.inr ⟨by simpa using hkick, hreq, hlens.1, hlens.2, hip, rfl⟩)
              · exact .inl rfl
          · exact .inl rfl
  · split
    · next hrep => exact .inr (.inl ⟨hrep, rfl⟩)
    · exact .inl rfl

/-! ## What is sent -/

/-- The frame of an ARP packet for Ethernet and IP. -/
def arpFrame (ethDst ethSrc : List UInt8) (opcode : BitVec 16) (hsrc : List UInt8)
    (psrc : BitVec 32) (hdst : List UInt8) (pdst : BitVec 32) : List UInt8 :=
  ethDst ++ ethSrc ++ be16 ethTypeArp ++
    (be16 arpHtypeEthernet ++ be16 arpPtypeIp ++ [6, 4] ++ be16 opcode ++ hsrc ++ be32 psrc ++
      hdst ++ be32 pdst)

section Sent

variable {mem : Nat → UInt8} {ethDst ethSrc hsrc hdst : List UInt8} {opcode : BitVec 16}
  {psrc pdst : BitVec 32}

theorem arpFrame_length (hd : ethDst.length = 6) (hs : ethSrc.length = 6) (hh : hsrc.length = 6)
    (ht : hdst.length = 6) :
    (arpFrame ethDst ethSrc opcode hsrc psrc hdst pdst).length = 42 := by
  simp [arpFrame, hd, hs, hh, ht]

/-- The pieces of the frame. -/
theorem holdsAt_arpFrame (hd : ethDst.length = 6) (hs : ethSrc.length = 6) (hh : hsrc.length = 6)
    (ht : hdst.length = 6) :
    HoldsAt mem 0 (arpFrame ethDst ethSrc opcode hsrc psrc hdst pdst) ↔
      HoldsAt mem 0 ethDst ∧ HoldsAt mem 6 ethSrc ∧ HoldsAt mem 12 (be16 ethTypeArp) ∧
        HoldsAt mem 14 (be16 arpHtypeEthernet) ∧ HoldsAt mem 16 (be16 arpPtypeIp) ∧
        HoldsAt mem 18 [6] ∧ HoldsAt mem 19 [4] ∧ HoldsAt mem 20 (be16 opcode) ∧
        HoldsAt mem 22 hsrc ∧ HoldsAt mem 28 (be32 psrc) ∧ HoldsAt mem 32 hdst ∧
        HoldsAt mem 38 (be32 pdst) := by
  have hpair : ∀ a, HoldsAt mem a [6, 4] ↔ HoldsAt mem a [6] ∧ HoldsAt mem (a + 1) [4] :=
    fun a => holdsAt_append (l := [6])
  simp only [arpFrame, holdsAt_append, hpair, List.length_append, hd, hs, hh, ht, be16_length,
    be32_length, List.length_cons, List.length_nil, and_assoc]

theorem arpWriteHeader_holds (mem : Nat → UInt8) (buf : Nat) (opcode : BitVec 16)
    (psrc pdst : BitVec 32) (hh : hsrc.length = 6) (ht : hdst.length = 6) :
    let m := arpWriteHeader mem buf arpPtypeIp arpPlenIp arpHtypeEthernet arpHlenEthernet opcode hsrc
      (be32 psrc) hdst (be32 pdst)
    HoldsAt m buf (be16 arpHtypeEthernet) ∧ HoldsAt m (buf + 2) (be16 arpPtypeIp) ∧
      HoldsAt m (buf + 4) [6] ∧ HoldsAt m (buf + 5) [4] ∧ HoldsAt m (buf + 6) (be16 opcode) ∧
      HoldsAt m (buf + 8) hsrc ∧ HoldsAt m (buf + 14) (be32 psrc) ∧ HoldsAt m (buf + 18) hdst ∧
      HoldsAt m (buf + 24) (be32 pdst) ∧ ∀ a < buf, m a = mem a := by
  have hip : ∀ ip : BitVec 32, (be32 ip).take 4 = be32 ip := fun _ => rfl
  have hsix : UInt8.ofNat 6 = 6 := rfl
  have hfour : UInt8.ofNat 4 = 4 := rfl
  simp only [arpWriteHeader, arpHlenEthernet, arpPlenIp, sizeofArpHeader, hip, hsix, hfour,
    List.take_of_length_le hh.le, List.take_of_length_le ht.le, Nat.add_assoc, Nat.reduceAdd]
  simp (disch :=
    (simp only [be16_length, be32_length, List.length_cons, List.length_nil, hh, ht]; omega)) only [holdsAt_putList_iff, holdsAt_putList, true_and]
  intro a ha
  simp only [putList]
  rw [if_neg (by omega), if_neg (by omega), if_neg (by omega), if_neg (by omega), if_neg (by omega),
    if_neg (by omega), if_neg (by omega), if_neg (by omega), if_neg (by omega)]

theorem arpConstructRequestEthIp_some {alloc : Alloc} {pkt : Packet}
    (h : arpConstructRequestEthIp alloc hsrc psrc pdst = some pkt) (hh : hsrc.length = 6) :
    pkt.len = 42 ∧ pkt.ptr = 14 ∧
      HoldsAt pkt.buf 0 (arpFrame ethBroadcastAddr hsrc arpOpcodeRequest hsrc psrc
        (ethBytes ethNullAddr) pdst) := by
  simp only [arpConstructRequestEthIp, arpConstructRequest, arpConstructPacket, arpAddHeader,
    Option.bind_eq_bind, Option.bind_eq_some_iff, Option.map_eq_some_iff] at h
  obtain ⟨eth, heth, grown, hgrow, rfl⟩ := h
  have hbroad : ethBroadcastAddr.length = 6 := rfl
  obtain ⟨hlen, hholds⟩ := ethConstructPacket_some heth hh hbroad
  obtain ⟨junk, rfl⟩ := packetGrow_some hgrow
  have hptr : (eth.grown junk (sizeofArpHeader + 2 * (arpGetPlen arpPtypeIp +
    arpGetHlen arpHtypeEthernet))).ptr = 14 := hlen
  refine ⟨congrArg (· + 28) hlen, hptr, ?_⟩
  dsimp only
  rw [hptr]
  obtain ⟨h1, h2, h3, h4, h5, h6, h7, h8, h9, hkept⟩ := arpWriteHeader_holds
    (eth.grown junk (sizeofArpHeader + 2 * (arpGetPlen arpPtypeIp +
      arpGetHlen arpHtypeEthernet))).buf 14 arpOpcodeRequest psrc pdst hh
      (ethBytes_length ethNullAddr)
  have hsize : (ethBroadcastAddr ++ hsrc ++ be16 ethTypeArp).length = 14 := by
    simp [hh, hbroad]
  have hfront := (HoldsAt.grown hholds (by omega)).congr fun j _ hj => hkept j (by omega)
  rw [holdsAt_append, holdsAt_append, List.length_append, hbroad, hh] at hfront
  rw [holdsAt_arpFrame hbroad hh hh (ethBytes_length _)]
  exact ⟨hfront.1.1, hfront.1.2, hfront.2, h1, h2, h3, h4, h5, h6, h7, h8, h9⟩

/-- **The reply.** It goes to the sender of the request and tells it our own
address. -/
theorem arpSendReplyUs_some {alloc : Alloc} {pkt : Packet} {ni : NetInfo} {f : Frame}
    (h : arpSendReplyUs alloc ni f = some pkt) (hmac : ni.hwMac.length = 6) :
    pkt.len = 42 ∧
      HoldsAt pkt.buf 0 (arpFrame (f.bytes arpGetHsrc 6) ni.hwMac arpOpcodeReply ni.hwMac ni.srcIp
        (f.bytes arpGetHsrc 6) (toBe32 (loadIp f.mem (arpGetPsrc f)))) := by
  obtain ⟨req, hreq, rfl⟩ := Option.map_eq_some_iff.mp h
  obtain ⟨hlen, hptr, hholds⟩ := arpConstructRequestEthIp_some hreq hmac
  have hbroad : ethBroadcastAddr.length = 6 := rfl
  have hbytes : (f.bytes arpGetHsrc 6).length = 6 := by
    simp [Frame.bytes]
  rw [holdsAt_arpFrame hbroad hmac hmac (ethBytes_length _)] at hholds
  obtain ⟨-, h1, h2, h3, h4, h5, h6, -, h7, h8, -, h9⟩ := hholds
  rw [holdsAt_arpFrame hbytes hmac hmac hbytes]
  refine ⟨hlen, ?_⟩
  dsimp only
  rw [hptr]
  generalize hb : putList (putList req.buf 0 (f.bytes arpGetHsrc 6)) (14 + 6)
    (be16 arpOpcodeReply) = buf
  have hkeep : ∀ {a : Nat} {l : List UInt8}, HoldsAt req.buf a l → 6 ≤ a →
      a + l.length ≤ 20 ∨ 22 ≤ a → HoldsAt buf a l := fun hl ha hd => by
    rw [← hb, holdsAt_putList_iff (by rw [be16_length]; omega),
      holdsAt_putList_iff (.inr (by rw [hbytes]; omega))]
    exact hl
  have hhlen : buf (14 + 4) = 6 := (hkeep h5 (by omega) (.inl (by simp))) 0 Nat.one_pos
  have hplen : buf (14 + 5) = 4 := (hkeep h6 (by omega) (.inl (by simp))) 0 Nat.one_pos
  have hset : arpSetHdst buf 14 f.mem arpGetHsrc = putList buf 32 (f.bytes arpGetHsrc 6) := by
    rw [arpSetHdst, hhlen, hplen]
    rfl
  have hcopy : ∀ {a : Nat} {l : List UInt8}, HoldsAt req.buf a l →
      6 ≤ a ∧ (a + l.length ≤ 20 ∨ 22 ≤ a ∧ a + l.length ≤ 32 ∨ 38 ≤ a) →
      HoldsAt (putList buf 32 (f.bytes arpGetHsrc 6)) a l := fun hl hd =>
    (hkeep hl hd.1 (by omega)).putList (by rw [hbytes]; omega)
  have hdst : HoldsAt buf 0 (f.bytes arpGetHsrc 6) := by
    rw [← hb]
    exact (holdsAt_putList _ _ _).putList (.inl (by simp [hbytes]))
  have hop : HoldsAt buf 20 (be16 arpOpcodeReply) := by
    rw [← hb]
    exact holdsAt_putList _ _ _
  rw [hset]
  exact ⟨hdst.putList (.inl (by simp [hbytes])), hcopy h1 (by simp [hmac]), hcopy h2 (by simp),
    hcopy h3 (by simp), hcopy h4 (by simp), hcopy h5 (by simp), hcopy h6 (by simp),
    hop.putList (.inl (by simp)), hcopy h7 (by simp [hmac]), hcopy h8 (by simp),
    holdsAt_putList _ _ _, hcopy h9 (by simp)⟩

end Sent

/-! ## Entries that expire -/

/-- An expiration keeps the cache in order, whichever entry it takes out of the
table. -/
theorem ArpOk.expire_any {s : ArpCache} (hok : ArpOk s) (entry : ArpCacheEntry) (rehashOk : Bool) :
    ArpOk (arpRemoveEntryWork s entry rehashOk) := by
  obtain ⟨htable, hkeyed, hcontents⟩ := hok.expire_contents rehashOk entry
  have hleft : ∀ y ∈ (arpRemoveEntryWork s entry rehashOk).table.contents,
      y ∈ s.table.contents ∧ entry.ip ≠ y.ip := by
    intro y hy
    rcases hcontents with ⟨hnone, hc⟩ | ⟨x, hx, hip, hc⟩
    · rw [hc] at hy
      exact ⟨hy, (hnone y hy).symm⟩
    · rw [hc, Multiset.Nodup.mem_erase_iff hok.table.nodup] at hy
      refine ⟨hy.2, fun heq => hy.1 ?_⟩
      exact hok.unique y hy.2 x hx (heq.symm.trans hip.symm)
  refine ⟨htable, hkeyed, fun x hx y hy => hok.unique x (hleft x hx).1 y (hleft y hy).1,
    fun x hx => ?_, hok.nodup.erase _, fun x hx => ?_⟩
  · refine (List.mem_erase_of_ne ?_).mpr (hok.pending x (hleft x hx).1)
    rintro rfl
    exact (hleft x hx).2 rfl
  · rw [latestEth_expire_of_ne rehashOk (hleft x hx).2]
    exact hok.latest x (hleft x hx).1

/-! ## What is received -/

/-- An address in network order, as it is loaded. -/
theorem loadIp_of_holds {mem : Nat → UInt8} {a : Nat} {ip : BitVec 32} (h : HoldsAt mem a (be32 ip)) :
    loadIp mem a = toBe32 ip := by
  simp only [be32, holdsAt_cons, holdsAt_nil, and_true, Nat.add_assoc, Nat.reduceAdd] at h
  obtain ⟨h0, h1, h2, h3⟩ := h
  apply BitVec.eq_of_getLsbD_eq
  intro k hk
  have hbit : ∀ (b : UInt8) (i : Nat), b.toNat.testBit i = b.toBitVec.getLsbD i :=
    fun b i => BitVec.testBit_toNat b.toBitVec
  rw [loadIp, BitVec.getLsbD_ofNat, le32_testBit mem a hk, hbit]
  interval_cases k <;> simp [h0, h1, h2, h3, toBe32]

section Received

variable {f : Frame} {ethDst ethSrc hsrc hdst : List UInt8} {opcode : BitVec 16}
  {psrc pdst : BitVec 32}

/-- The fields of a received frame are those it was built from. -/
theorem arpFrame_fields (h : HoldsAt f.mem 0 (arpFrame ethDst ethSrc opcode hsrc psrc hdst pdst))
    (hd : ethDst.length = 6) (hs : ethSrc.length = 6) (hh : hsrc.length = 6)
    (ht : hdst.length = 6) :
    f.bytes 0 6 = ethDst ∧ ethGetProto f = ethTypeArp ∧ arpOpcode f = opcode ∧
      arpHlen f = 6 ∧ arpPlen f = 4 ∧ f.bytes arpGetHsrc 6 = hsrc ∧
      loadIp f.mem (arpGetPsrc f) = toBe32 psrc ∧ loadIp f.mem (arpGetPdst f) = toBe32 pdst := by
  rw [holdsAt_arpFrame hd hs hh ht] at h
  obtain ⟨h1, -, h2, -, -, h3, h4, h5, h6, h7, -, h8⟩ := h
  have hhlen : arpHlen f = 6 := congrArg UInt8.toNat (h3 0 Nat.one_pos)
  have hplen : arpPlen f = 4 := congrArg UInt8.toNat (h4 0 Nat.one_pos)
  refine ⟨hd ▸ bytes_of_holds h1, field16_of_holds h2, field16_of_holds h5, hhlen, hplen,
    hh ▸ bytes_of_holds h6, ?_, ?_⟩
  · rw [arpGetPsrc, hhlen]
    exact loadIp_of_holds h7
  · rw [arpGetPdst, hhlen, hplen]
    exact loadIp_of_holds h8

end Received

end Levos.Net
