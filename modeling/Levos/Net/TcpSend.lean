import Levos.Base.Reassembly
import Levos.Base.Run
import Levos.Net.TcpConnect
import Levos.Net.TcpSegment

/-!
# What a TCP socket sends (`net/tcp.c`)

`tcp_sock_write` on a connection that `tcp_conn_start` has opened: each write
builds one packet, waits until no retransmission is pending, schedules its own,
and hands the packet to the device. In between, segments come in, packets are
sent again by the work queue at any time, whether or not they were sent before,
and a retransmission may be given up. One task writes to the socket.

The other end is any receiver that puts together, by their sequence numbers,
the payloads of the frames that reach it.
-/

namespace Levos.Net

open Levos.Base

/-! ## The functions of the source -/

/-- Where the writing task is: outside, in the loop of `tcp_send_packet`, or
before `__tcp_send_packet`. -/
inductive SendPhase : Type where
  | idle
  | built (pkt : Packet) (data : List UInt8)
  | scheduled (work : Bool) (pkt : Packet) (data : List UInt8)

/-- The packet that waits to be sent, and its payload. -/
def SendPhase.pending : SendPhase → Option (Packet × List UInt8)
  | .idle => none
  | .built pkt data => some (pkt, data)
  | .scheduled _ pkt data => some (pkt, data)

/-- The packets in memory that a retransmission was scheduled for, the frames of
writes handed to the device, and the bytes of the writes; and what the receiver
has put together. The segments without payload are in `ti.sent`. -/
structure SendState where
  ti : TcpInfo
  phase : SendPhase
  works : List Packet
  wire : List (List UInt8)
  written : List UInt8
  got : List UInt8

/-- After `tcp_conn_start` has sent the SYN. -/
def sendInit (ti : TcpInfo) : SendState :=
  { ti, phase := .idle, works := [], wire := [], written := [], got := [] }

inductive SendAct : Type where
  | write (mem : Alloc) (netRouteTo : BitVec 32 → Option (BitVec 48)) (data : List UInt8)
  | schedule (workOk : Bool)
  | send
  | receive (ok : Nat → Bool) (pkt : TcpPacket)
  | read (len : Nat)
  | resend (k : Nat)
  | giveUp
  | arrive (k : Nat)

/-- `tcp_sock_write` up to the loop of `tcp_send_packet`. -/
def tcpSockWrite (ends : TcpEnds) (s : SendState) (mem : Alloc)
    (netRouteTo : BitVec 32 → Option (BitVec 48)) (data : List UInt8) : SendState :=
  if s.ti.state ≠ .estab then s
  else if data.length < 536 then
    match tcpWrite mem netRouteTo ends s.ti data with
    | none => s
    | some pkt => { s with phase := .built pkt data }
  else s  -- "MSS is 536"

/-- `tcp_send_packet` up to `__tcp_send_packet`: a round of the loop, or the
call of `packet_schedule_retransmission`. -/
def tcpScheduleSend (s : SendState) (workOk : Bool) (pkt : Packet) (data : List UInt8) :
    SendState :=
  if s.ti.retransmitWork then s
  else
    { s with
      ti := { s.ti with retransmitWork := workOk }
      works := if workOk then s.works ++ [pkt] else s.works
      phase := .scheduled workOk pkt data }

/-- `__tcp_send_packet`. The packet of the retransmission is the same memory. -/
def tcpSendData (s : SendState) (work : Bool) (pkt : Packet) (data : List UInt8) : SendState :=
  let pkt := tcpSendSegment s.ti.nextSeq pkt data.length
  { s with
    ti := { s.ti with nextSeq := s.ti.nextSeq + BitVec.ofNat 32 data.length }
    works := if work then s.works.dropLast ++ [pkt] else s.works
    wire := s.wire ++ [pkt.bytes]
    written := s.written ++ data
    phase := .idle }

/-- The frame of a segment that is as long as its header of IP says: the place
of its payload in the stream, and the payload. -/
def segmentAt (bytes : List UInt8) : Option (Nat × List UInt8) :=
  let f : Frame := ⟨putList (fun _ => 0) 0 bytes, bytes.length⟩
  if 40 ≤ (ipLen f).toNat ∧ 14 + (ipLen f).toNat ≤ bytes.length then
    some (((tcpHeaderOf f).seq - 1).toNat, tcpPayload (tcpPacketOf f))
  else none

/-- A frame reaches the receiver. -/
def takeFrame (got bytes : List UInt8) : List UInt8 :=
  ((segmentAt bytes).map (takePiece got)).getD got

def sendStep (ends : TcpEnds) (s : SendState) : SendAct → Option SendState
  | .write mem netRouteTo data =>
      match s.phase with
      | .idle => some (tcpSockWrite ends s mem netRouteTo data)
      | _ => none
  | .schedule workOk =>
      match s.phase with
      | .built pkt data => some (tcpScheduleSend s workOk pkt data)
      | _ => none
  | .send =>
      match s.phase with
      | .scheduled work pkt data => some (tcpSendData s work pkt data)
      | _ => none
  | .receive ok pkt => (tcpHandlePacket ok s.ti pkt).map fun ti => { s with ti }
  | .read len => (tcpSockRead s.ti len).map fun r => { s with ti := r.1 }
  | .resend k => (s.works[k]?).map fun pkt => { s with wire := s.wire ++ [pkt.bytes] }
  | .giveUp => some { s with ti := tcpNotifyRetransmitFailed s.ti }
  | .arrive k => (s.wire[k]?).map fun bytes => { s with got := takeFrame s.got bytes }

/-- The bytes written so far have distinct sequence numbers, and no SYN reaches
a connection that is established. -/
def SendUse (s : SendState) : SendAct → Prop
  | .send => s.written.length + (s.phase.pending.map (·.2.length)).getD 0 < 2 ^ 32
  | .receive _ pkt => ¬(s.ti.state = .estab ∧ SegmentChecked s.ti pkt ∧ tcpIsSetSyn pkt.tcp)
  | _ => True

instance (s : SendState) : ∀ a, Decidable (SendUse s a)
  | .send => inferInstanceAs (Decidable (_ < _))
  | .receive _ _ => inferInstanceAs (Decidable ¬_)
  | .write _ _ _ | .schedule _ | .read _ | .resend _ | .giveUp | .arrive _ => isTrue trivial

/-! ## Frames and their place in the stream -/

/-- The payload lies in the stream where the sequence number says. -/
def FrameRight (written bytes : List UInt8) : Prop :=
  ∀ p, segmentAt bytes = some p → IsPiece written p.1 p.2

theorem FrameRight.append {written bytes : List UInt8} (h : FrameRight written bytes)
    (data : List UInt8) : FrameRight (written ++ data) bytes :=
  fun p hp => (h p hp).append data

theorem takeFrame_isPrefix {written bytes got : List UInt8} (h : FrameRight written bytes)
    (hgot : got <+: written) : takeFrame got bytes <+: written := by
  rw [takeFrame]
  cases hseg : segmentAt bytes with
  | none => exact hgot
  | some p => exact takePiece_isPrefix (h p hseg) hgot

section Frames

variable {ends : TcpEnds} {pkt : Packet} {ti : TcpInfo} {data : List UInt8} {dsteth : BitVec 48}

/-- What `__tcp_write` leaves for `__tcp_send_packet`. -/
structure PacketBuilt (ends : TcpEnds) (pkt : Packet) (data : List UInt8) : Prop where
  srceth : ends.srceth.length = 6
  offset : pkt.protoOffset = 34
  short : data.length < 536
  headers : ∃ eth h, TcpFrameAt pkt.buf eth ends 20 h ∧ h.doffFlags = 0x5018
  payload : pkt.len = 54 ∨ pkt.len = 54 + data.length ∧ HoldsAt pkt.buf 54 data

theorem packetBuilt_of_write {mem : Alloc} {netRouteTo : BitVec 32 → Option (BitVec 48)}
    (h : tcpWrite mem netRouteTo ends ti data = some pkt) (hs : ends.srceth.length = 6)
    (hdata : data.length < 536) : PacketBuilt ends pkt data := by
  obtain ⟨eth, -, hoff, hframe, hpayload⟩ := tcpWrite_some h hs
  refine ⟨hs, hoff, hdata, ⟨eth, tcpWritten ends ti, hframe, rfl⟩, ?_⟩
  rcases hpayload with ⟨-, hlen⟩ | hpayload
  · exact .inl hlen
  · exact .inr hpayload

theorem PacketBuilt.len_ge (h : PacketBuilt ends pkt data) : 54 ≤ pkt.len := by
  rcases h.payload with hlen | ⟨hlen, -⟩ <;> omega

/-- Before it is sent its header of IP claims no more than that header. -/
theorem PacketBuilt.unsent (h : PacketBuilt ends pkt data) : segmentAt pkt.bytes = none := by
  obtain ⟨eth, hdr, hframe, -⟩ := h.headers
  have hm : HoldsAt (putList (fun _ => 0) 0 pkt.bytes) 0 (memBytes pkt.buf 0 pkt.len) :=
    holdsAt_putList _ _ _
  have hread := hframe.of_memBytes hm h.srceth h.len_ge
  have hlen : ipLen ⟨putList (fun _ => 0) 0 pkt.bytes, pkt.bytes.length⟩ = 20 := by
    have hstart := hread.ip.start
    rw [holdsAt_append, holdsAt_append] at hstart
    exact field16_of_holds hstart.1.2
  rw [segmentAt, hlen]
  exact if_neg fun hle => absurd hle.1 (by decide)

/-- **As it is sent**, the receiver finds its payload, with its number; or it is
too short to be looked at. -/
theorem PacketBuilt.sent (h : PacketBuilt ends pkt data) (seq : BitVec 32) :
    segmentAt (tcpSendSegment seq pkt data.length).bytes = some ((seq - 1).toNat, data) ∨
      pkt.len = 54 ∧ data ≠ [] ∧
        segmentAt (tcpSendSegment seq pkt data.length).bytes = none := by
  obtain ⟨eth, hdr, hframe, hdoff⟩ := h.headers
  obtain ⟨chksum, hsent, hlen, hbehind⟩ :=
    tcpSendSegment_some seq h.offset hframe h.srceth data.length
  have hshort := h.short
  have hge := h.len_ge
  generalize hp : tcpSendSegment seq pkt data.length = sent at hsent hlen hbehind
  have hm : HoldsAt (putList (fun _ => 0) 0 sent.bytes) 0 (memBytes sent.buf 0 sent.len) :=
    holdsAt_putList _ _ _
  have hread := hsent.of_memBytes hm h.srceth (by omega)
  have hfields := TcpFrameAt.fields (f := ⟨putList (fun _ => 0) 0 sent.bytes, sent.bytes.length⟩)
    hread h.srceth (by omega)
  obtain ⟨-, -, -, -, hiplen, -, -, -, hheader⟩ := hfields
  have hbytes : sent.bytes.length = sent.len := memBytes_length _ _ _
  rw [segmentAt, hiplen]
  by_cases hfits : 40 ≤ 40 + data.length ∧ 14 + (40 + data.length) ≤ sent.bytes.length
  · rw [if_pos hfits, hheader]
    have hdata : HoldsAt (putList (fun _ => 0) 0 sent.bytes) 54 data := by
      rcases h.payload with hlen54 | ⟨hfull, hdata⟩
      · obtain rfl : data = [] := List.eq_nil_of_length_eq_zero (by omega)
        exact holdsAt_nil _ _
      · refine HoldsAt.of_memBytes (hdata.congr fun j hj _ => hbehind j hj) hm (by omega)
    obtain ⟨-, hpayload⟩ := tcpPayload_of_holds hiplen
      (tcpWritten_flags (by rw [hheader]; exact hdoff)).1 hdata
    rw [hpayload]
    exact .inl rfl
  · rw [if_neg hfits]
    have hlen54 : pkt.len = 54 := by
      rcases h.payload with hlen54 | ⟨hfull, -⟩
      · exact hlen54
      · omega
    refine .inr ⟨hlen54, ?_, rfl⟩
    rintro rfl
    simp at hfits
    omega

end Frames

/-! ## What a segment does to the numbers -/

section Receive

variable {ok : Nat → Bool} {ti ti' : TcpInfo} {pkt : TcpPacket}

theorem tcpAckPacket_nextSeq (b : Bool) (ti : TcpInfo) (pkt : TcpPacket) :
    (tcpAckPacket b ti pkt).nextSeq = ti.nextSeq := by
  cases b <;> rfl

theorem tcpCondAck_nextSeq (b : Bool) (ti : TcpInfo) (pkt : TcpPacket) :
    (tcpCondAck b ti pkt).nextSeq = ti.nextSeq := by
  unfold tcpCondAck
  split
  · exact tcpAckPacket_nextSeq b ti pkt
  · split
    · exact tcpAckPacket_nextSeq b ti pkt
    · rfl

theorem tcpAckReceived_nextSeq (ti : TcpInfo) (pkt : TcpPacket) :
    (tcpAckReceived ti pkt).nextSeq = ti.nextSeq := by
  unfold tcpAckReceived
  split <;> rfl

theorem tcpResetConnection_nextSeq (b : Bool) (ti : TcpInfo) :
    (tcpResetConnection b ti).nextSeq = ti.nextSeq := by
  cases b <;> rfl

theorem tcpReceivePayload_nextSeq {b : Bool} (h : tcpReceivePayload b ti pkt = some ti') :
    ti'.nextSeq = ti.nextSeq := by
  unfold tcpReceivePayload at h
  dsimp only at h
  split at h
  · split at h
    · cases h
    · rw [← Option.some.inj h]
      exact tcpAckPacket_nextSeq b _ pkt
  · rw [← Option.some.inj h]
    exact tcpAckPacket_nextSeq b ti pkt

theorem tcpReceiveFin_nextSeq (ok : Nat → Bool) (ti : TcpInfo) :
    (tcpReceiveFin ok ti).nextSeq = ti.nextSeq := by
  unfold tcpReceiveFin
  dsimp only
  split
  · split <;> rfl
  · rfl

/-- The first sequence number of the stream is 1. -/
theorem tcpHandlePacketSynsent_nextSeq (ok : Nat → Bool) (ti : TcpInfo) (pkt : TcpPacket) :
    (tcpHandlePacketSynsent ok ti pkt).nextSeq =
      if tcpIsSetSyn pkt.tcp ∧ tcpIsSetAck pkt.tcp then 1 else ti.nextSeq := by
  unfold tcpHandlePacketSynsent
  by_cases hsyn : tcpIsSetSyn pkt.tcp
  · rw [if_pos hsyn]
    by_cases hack : tcpIsSetAck pkt.tcp
    · have hboth : tcpIsSetSyn pkt.tcp = true ∧ tcpIsSetAck pkt.tcp = true := ⟨hsyn, hack⟩
      rw [if_pos hack, if_pos hboth]
      cases ok 0 <;> rfl
    · rw [if_neg hack, if_neg fun h => hack h.2]
      exact tcpResetConnection_nextSeq (ok 0) ti
  · rw [if_neg hsyn, if_neg fun h => hsyn h.1]
    exact tcpResetConnection_nextSeq (ok 0) ti

theorem tcpHandlePacketEstab_nextSeq (hsyn : ¬tcpIsSetSyn pkt.tcp)
    (h : tcpHandlePacketEstab ok ti pkt = some ti') : ti'.nextSeq = ti.nextSeq := by
  rw [tcpHandlePacketEstab, if_neg fun hs => hsyn hs.2, Option.map_eq_some_iff] at h
  obtain ⟨t, ht, rfl⟩ := h
  have hkept : t.nextSeq = ti.nextSeq := by
    split at ht
    · exact tcpReceivePayload_nextSeq ht
    · rw [← Option.some.inj ht]
  by_cases hfin : tcpIsSetFin pkt.tcp
  · rw [if_pos hfin, tcpReceiveFin_nextSeq, hkept]
  · rw [if_neg hfin, hkept]

/-- **The numbers after a segment.** Only the answer to the SYN sets
`ti_next_seq`. -/
theorem tcpHandlePacket_nextSeq (hsent : ti.state ≠ .synSent)
    (hsyn : ¬(ti.state = .estab ∧ SegmentChecked ti pkt ∧ tcpIsSetSyn pkt.tcp))
    (h : tcpHandlePacket ok ti pkt = some ti') : ti'.nextSeq = ti.nextSeq := by
  rcases tcpHandlePacket_cases h with ⟨-, rfl⟩ | ⟨hchecked, hd⟩
  · exact tcpCondAck_nextSeq (ok 0) ti pkt
  · have hstate := (tcpAckReceived_sameState ti pkt).1
    rw [← tcpAckReceived_nextSeq ti pkt]
    rw [tcpDispatch] at hd
    split at hd
    · rw [← Option.some.inj hd]
      rfl
    · cases hcase : (tcpAckReceived ti pkt).state <;> simp only [hcase, Option.some.injEq] at hd
      case synSent => exact absurd (hstate.symm.trans hcase) hsent
      case estab =>
        refine tcpHandlePacketEstab_nextSeq (fun hs => hsyn ⟨?_, hchecked, hs⟩) hd
        exact hstate.symm.trans hcase
      case lastAck =>
        rw [← hd, tcpHandlePacketLastack]
        split
        · rfl
        · exact tcpResetConnection_nextSeq (ok 0) _
      all_goals rw [← hd]

/-- The connection opens with the number 1. -/
theorem tcpHandlePacket_opens (hsent : ti.state = .synSent) (hopen : ti'.state = .estab)
    (h : tcpHandlePacket ok ti pkt = some ti') : ti'.nextSeq = 1 := by
  have hstate : segmentState ok ti pkt = .estab := (tcpHandlePacket_endsIn h).state.symm.trans hopen
  rcases tcpHandlePacket_cases h with ⟨-, rfl⟩ | ⟨-, hd⟩
  · rw [(tcpCondAck_sameState (ok 0) ti pkt).1, hsent] at hopen
    cases hopen
  · have hsame := (tcpAckReceived_sameState ti pkt).1.trans hsent
    rw [tcpDispatch, hsame] at hd
    split at hd
    · rw [← Option.some.inj hd] at hopen
      cases hopen
    · rw [Option.some.injEq] at hd
      rw [← hd, tcpHandlePacketSynsent_nextSeq, if_pos]
      by_contra hnot
      have hend := (tcpHandlePacketSynsent_endsIn ok (tcpAckReceived ti pkt) pkt).state
      rw [if_neg hnot, hd, hopen, hsame] at hend
      split at hend <;> cases hend

/-- Nothing but the answer to the SYN opens a connection. -/
theorem tcpHandlePacket_estab (hsent : ti.state ≠ .synSent)
    (h : tcpHandlePacket ok ti pkt = some ti') :
    ti'.state ≠ .synSent ∧ (ti'.state = .estab → ti.state = .estab) := by
  have hstate := (tcpHandlePacket_endsIn h).state
  rw [hstate, segmentState]
  cases hcase : ti.state <;> simp only [hcase] at hsent ⊢ <;> split_ifs <;> simp_all

end Receive

/-! ## What every step keeps -/

/-- While the connection is opening nothing is written; then `ti_next_seq` is
the number of the next byte, every frame is right, and so is what the receiver
has. -/
structure SendInv (ends : TcpEnds) (s : SendState) : Prop where
  opening : s.ti.state = .synSent → s.phase = .idle ∧ s.written = []
  seq : s.ti.state = .estab ∨ s.phase ≠ .idle ∨ s.written ≠ [] →
    s.ti.nextSeq = BitVec.ofNat 32 (1 + s.written.length)
  pending : ∀ p, s.phase.pending = some p → PacketBuilt ends p.1 p.2
  works : ∀ pkt ∈ s.works, FrameRight s.written pkt.bytes
  wire : ∀ bytes ∈ s.wire, FrameRight s.written bytes
  got : s.got <+: s.written

/-- The place of the next byte. -/
theorem sendOffset {seq : BitVec 32} {n : Nat} (hseq : seq = BitVec.ofNat 32 (1 + n))
    (hn : n < 2 ^ 32) : (seq - 1).toNat = n := by
  rw [hseq, BitVec.toNat_sub, BitVec.toNat_ofNat]
  simp
  omega

section Steps

variable {ends : TcpEnds} {s s' : SendState}

/-- A step that changes the connection, but neither its numbers nor what is
written. -/
theorem SendInv.setInfo (h : SendInv ends s) {ti : TcpInfo}
    (hopen : ti.state = .synSent → s.ti.state = .synSent)
    (hestab : ti.state = .estab → ti.nextSeq = BitVec.ofNat 32 (1 + s.written.length))
    (hkept : s.phase ≠ .idle ∨ s.written ≠ [] → ti.nextSeq = s.ti.nextSeq) :
    SendInv ends { s with ti } := by
  refine ⟨fun hs => h.opening (hopen hs), ?_, h.pending, h.works, h.wire, h.got⟩
  rintro (hs | hbusy)
  · exact hestab hs
  · exact (hkept hbusy).trans (h.seq (.inr hbusy))

theorem SendInv.receive (h : SendInv ends s) {ok : Nat → Bool} {pkt : TcpPacket} {ti : TcpInfo}
    (hsyn : ¬(s.ti.state = .estab ∧ SegmentChecked s.ti pkt ∧ tcpIsSetSyn pkt.tcp))
    (hti : tcpHandlePacket ok s.ti pkt = some ti) : SendInv ends { s with ti } := by
  by_cases hsent : s.ti.state = .synSent
  · obtain ⟨hidle, hnone⟩ := h.opening hsent
    refine h.setInfo (fun _ => hsent) (fun hopen => ?_) fun hbusy => ?_
    · rw [tcpHandlePacket_opens hsent hopen hti, hnone]
      rfl
    · rcases hbusy with hphase | hwritten
      · exact absurd hidle hphase
      · exact absurd hnone hwritten
  · have hseq := tcpHandlePacket_nextSeq hsent hsyn hti
    obtain ⟨hnot, hback⟩ := tcpHandlePacket_estab hsent hti
    refine h.setInfo (fun hs => absurd hs hnot) (fun hestab => ?_) fun _ => hseq
    exact hseq.trans (h.seq (.inl (hback hestab)))

theorem SendInv.read (h : SendInv ends s) {len : Nat} {r : TcpInfo × List UInt8}
    (hr : tcpSockRead s.ti len = some r) : SendInv ends { s with ti := r.1 } := by
  have hsame : r.1.state = s.ti.state ∧ r.1.nextSeq = s.ti.nextSeq := by
    rw [tcpSockRead] at hr
    split at hr
    · cases hr
      exact ⟨rfl, rfl⟩
    · split at hr
      · cases hr
      · obtain ⟨q, -, rfl⟩ := Option.map_eq_some_iff.mp hr
        exact ⟨rfl, rfl⟩
  refine h.setInfo (fun hs => hsame.1.symm.trans hs) (fun hs => ?_) fun _ => hsame.2
  exact hsame.2.trans (h.seq (.inl (hsame.1.symm.trans hs)))

theorem SendInv.write (h : SendInv ends s) (hs : ends.srceth.length = 6) (mem : Alloc)
    (netRouteTo : BitVec 32 → Option (BitVec 48)) (data : List UInt8) :
    SendInv ends (tcpSockWrite ends s mem netRouteTo data) := by
  rw [tcpSockWrite]
  split
  · exact h
  · rename_i hestab
    rw [not_not] at hestab
    split
    · rename_i hdata
      cases hw : tcpWrite mem netRouteTo ends s.ti data with
      | none => exact h
      | some pkt =>
          refine ⟨fun hopen => ?_, fun _ => h.seq (.inl hestab), ?_, h.works, h.wire, h.got⟩
          · rw [hestab] at hopen
            cases hopen
          · rintro p hp
            cases hp
            exact packetBuilt_of_write hw hs hdata
    · exact h

theorem SendInv.schedule (h : SendInv ends s) {pkt : Packet} {data : List UInt8}
    (hphase : s.phase = .built pkt data) (workOk : Bool) :
    SendInv ends (tcpScheduleSend s workOk pkt data) := by
  rw [tcpScheduleSend]
  split
  · exact h
  · have hbuilt := h.pending (pkt, data) (by rw [hphase]; rfl)
    have hbusy : s.phase ≠ .idle := by
      rw [hphase]
      exact SendPhase.noConfusion
    refine ⟨fun hopen => absurd (h.opening hopen).1 hbusy, fun _ => h.seq (.inr (.inl hbusy)),
      ?_, ?_, h.wire, h.got⟩
    · rintro p hp
      cases hp
      exact hbuilt
    · intro q hq
      split at hq
      · rcases List.mem_append.mp hq with hq | hq
        · exact h.works q hq
        · obtain rfl := List.mem_singleton.mp hq
          intro p hp
          rw [hbuilt.unsent] at hp
          cases hp
      · exact h.works q hq

theorem SendInv.send (h : SendInv ends s) {work : Bool} {pkt : Packet} {data : List UInt8}
    (hphase : s.phase = .scheduled work pkt data)
    (hsize : s.written.length + data.length < 2 ^ 32) :
    SendInv ends (tcpSendData s work pkt data) := by
  have hbuilt := h.pending (pkt, data) (by rw [hphase]; rfl)
  have hbusy : s.phase ≠ .idle := by
    rw [hphase]
    exact SendPhase.noConfusion
  have hseq := h.seq (.inr (.inl hbusy))
  have hright : FrameRight (s.written ++ data)
      (tcpSendSegment s.ti.nextSeq pkt data.length).bytes := by
    intro p hp
    rcases hbuilt.sent s.ti.nextSeq with hsent | ⟨-, -, hnone⟩
    · rw [hsent] at hp
      cases hp
      have hoff : (s.ti.nextSeq - 1).toNat = s.written.length := sendOffset hseq (by omega)
      dsimp only
      rw [hoff]
      exact isPiece_end s.written data
    · rw [hnone] at hp
      cases hp
  rw [tcpSendData]
  refine ⟨fun hopen => absurd (h.opening hopen).1 hbusy, fun _ => ?_, ?_, ?_, ?_,
    h.got.trans (List.prefix_append _ _)⟩
  · dsimp only
    rw [hseq, List.length_append, ← BitVec.ofNat_add, Nat.add_assoc]
  · intro p hp
    cases hp
  · intro q hq
    split at hq
    · rcases List.mem_append.mp hq with hq | hq
      · exact (h.works q (List.mem_of_mem_dropLast hq)).append data
      · obtain rfl := List.mem_singleton.mp hq
        exact hright
    · exact (h.works q hq).append data
  · intro bytes hbytes
    rcases List.mem_append.mp hbytes with hold | hnew
    · exact (h.wire bytes hold).append data
    · obtain rfl := List.mem_singleton.mp hnew
      exact hright

theorem SendInv.resend (h : SendInv ends s) {k : Nat} {pkt : Packet} (hk : s.works[k]? = some pkt) :
    SendInv ends { s with wire := s.wire ++ [pkt.bytes] } := by
  refine ⟨h.opening, h.seq, h.pending, h.works, fun bytes hbytes => ?_, h.got⟩
  rcases List.mem_append.mp hbytes with hold | hnew
  · exact h.wire bytes hold
  · obtain rfl := List.mem_singleton.mp hnew
    exact h.works pkt (List.mem_of_getElem? hk)

theorem SendInv.step (hs : ends.srceth.length = 6) (h : SendInv ends s) (a : SendAct)
    (huse : SendUse s a) (hstep : sendStep ends s a = some s') : SendInv ends s' := by
  cases a with
  | write mem netRouteTo data =>
      cases hphase : s.phase <;> simp only [sendStep, hphase, Option.some.injEq] at hstep
      · exact hstep ▸ h.write hs mem netRouteTo data
      all_goals cases hstep
  | schedule workOk =>
      cases hphase : s.phase <;> simp only [sendStep, hphase, Option.some.injEq] at hstep
      case built pkt data => exact hstep ▸ h.schedule hphase workOk
      all_goals cases hstep
  | send =>
      cases hphase : s.phase <;> simp only [sendStep, hphase, Option.some.injEq] at hstep
      case scheduled work pkt data =>
        rw [SendUse, hphase] at huse
        exact hstep ▸ h.send hphase huse
      all_goals cases hstep
  | receive ok pkt =>
      obtain ⟨ti, hti, rfl⟩ := Option.map_eq_some_iff.mp hstep
      exact h.receive huse hti
  | read len =>
      obtain ⟨r, hr, rfl⟩ := Option.map_eq_some_iff.mp hstep
      exact h.read hr
  | resend k =>
      obtain ⟨pkt, hk, rfl⟩ := Option.map_eq_some_iff.mp hstep
      exact h.resend hk
  | giveUp =>
      cases hstep
      refine h.setInfo (fun hs => ?_) (fun hs => ?_) fun _ => rfl <;> cases hs
  | arrive k =>
      obtain ⟨bytes, hk, rfl⟩ := Option.map_eq_some_iff.mp hstep
      exact ⟨h.opening, h.seq, h.pending, h.works, h.wire,
        takeFrame_isPrefix (h.wire bytes (List.mem_of_getElem? hk)) h.got⟩

theorem sendInv_init {ti : TcpInfo} (hti : ti.state = .synSent) : SendInv ends (sendInit ti) where
  opening _ := ⟨rfl, rfl⟩
  seq h := by
    rcases h with hestab | hphase | hwritten
    · rw [sendInit, hti] at hestab
      cases hestab
    · exact absurd rfl hphase
    · exact absurd rfl hwritten
  pending p hp := by cases hp
  works pkt hpkt := by cases hpkt
  wire bytes hbytes := by cases hbytes
  got := List.prefix_refl _

end Steps

/-- A write of three bytes whose packet is lost and sent again. -/
def sentAgain : List SendAct :=
  [.receive (fun _ => true) ⟨40, ⟨80, 1024, 100, 1, 0x5012, 0, 0, 0⟩, []⟩,
    .write (fun _ => some fun _ => 0xff) (fun _ => some 0x525400654321) [1, 2, 3],
    .schedule true, .send, .resend 0, .arrive 1]

def openingInfo : TcpInfo :=
  { state := .synSent, failCode := 0, nextAck := 0, nextSeq := 0, unack := 0
    retransmitWork := true, rb := ⟨0, 0, 0, 0, 0, []⟩, sent := [], stored := [] }

def someEnds : TcpEnds := ⟨ethBytes 0x525400123456, 0xc0a80001, 1024, 0xc0a80002, 80⟩

def SendAct.payloadMem : SendAct → Bool
  | .write mem _ _ => (mem 4).isSome
  | _ => true

/-- As `SendUse`, and there is memory for every payload. -/
def SendWhole (s : SendState) (a : SendAct) : Prop := SendUse s a ∧ a.payloadMem

instance (s : SendState) (a : SendAct) : Decidable (SendWhole s a) :=
  inferInstanceAs (Decidable (_ ∧ _))

/-- The frames on the wire hold what was written, piece after piece. -/
structure SendAll (s : SendState) : Prop where
  pending : ∀ p, s.phase.pending = some p → p.1.len = 54 + p.2.length
  tiles : ∃ ps, Tiled 0 ps ∧ (ps.map (·.2)).flatten = s.written ∧
    ∀ p ∈ ps, ∃ bytes ∈ s.wire, segmentAt bytes = some p

section Complete

variable {ends : TcpEnds} {s s' : SendState}

/-- A step that leaves the writing task where it is. -/
theorem SendAll.mono (h : SendAll s) (hphase : s'.phase = s.phase)
    (hwritten : s'.written = s.written) (hwire : s.wire ⊆ s'.wire) : SendAll s' := by
  obtain ⟨ps, htiled, hflat, hon⟩ := h.tiles
  refine ⟨fun p hp => h.pending p (hphase ▸ hp), ps, htiled, hflat.trans hwritten.symm,
    fun p hp => ?_⟩
  obtain ⟨bytes, hbytes, hseg⟩ := hon p hp
  exact ⟨bytes, hwire hbytes, hseg⟩

theorem SendAll.write (h : SendAll s) (hs : ends.srceth.length = 6) {mem : Alloc}
    (hmem : (mem 4).isSome) (netRouteTo : BitVec 32 → Option (BitVec 48)) (data : List UInt8) :
    SendAll (tcpSockWrite ends s mem netRouteTo data) := by
  rw [tcpSockWrite]
  split
  · exact h
  · split
    · cases hw : tcpWrite mem netRouteTo ends s.ti data with
      | none => exact h
      | some pkt =>
          refine ⟨fun p hp => ?_, h.tiles⟩
          cases hp
          obtain ⟨eth, -, -, -, ⟨hnone, -⟩ | ⟨hlen, -⟩⟩ := tcpWrite_some hw hs
          · rw [hnone] at hmem
            cases hmem
          · exact hlen
    · exact h

theorem SendAll.schedule (h : SendAll s) {pkt : Packet} {data : List UInt8}
    (hphase : s.phase = .built pkt data) (workOk : Bool) :
    SendAll (tcpScheduleSend s workOk pkt data) := by
  rw [tcpScheduleSend]
  split
  · exact h
  · refine ⟨fun p hp => h.pending p ?_, h.tiles⟩
    rw [hphase]
    exact hp

theorem SendAll.send (h : SendAll s) (hinv : SendInv ends s) {work : Bool} {pkt : Packet}
    {data : List UInt8} (hphase : s.phase = .scheduled work pkt data)
    (hsize : s.written.length + data.length < 2 ^ 32) : SendAll (tcpSendData s work pkt data) := by
  have hpend : s.phase.pending = some (pkt, data) := by
    rw [hphase]
    rfl
  have hbusy : s.phase ≠ .idle := by
    rw [hphase]
    exact SendPhase.noConfusion
  have hseq := hinv.seq (.inr (.inl hbusy))
  have hsent : segmentAt (tcpSendSegment s.ti.nextSeq pkt data.length).bytes =
      some (s.written.length, data) := by
    have hoff : (s.ti.nextSeq - 1).toNat = s.written.length := sendOffset hseq (by omega)
    rcases (hinv.pending _ hpend).sent s.ti.nextSeq with hsent | ⟨hshort, hne, -⟩
    · rw [hsent, hoff]
    · have hlen := h.pending (pkt, data) hpend
      have hpos := List.length_pos_of_ne_nil hne
      have hwhole : pkt.len = 54 + data.length := hlen
      omega
  obtain ⟨ps, htiled, hflat, hon⟩ := h.tiles
  refine ⟨?_, ps ++ [(s.written.length, data)], ?_, ?_, fun p hp => ?_⟩
  · intro p hp
    cases hp
  · refine htiled.append ⟨?_, trivial⟩
    rw [hflat, Nat.zero_add]
  · rw [List.map_append, List.flatten_append, hflat]
    simp [tcpSendData]
  · rcases List.mem_append.mp hp with hold | hnew
    · obtain ⟨bytes, hbytes, hseg⟩ := hon p hold
      exact ⟨bytes, List.mem_append_left _ hbytes, hseg⟩
    · obtain rfl := List.mem_singleton.mp hnew
      exact ⟨_, List.mem_append_right _ (List.mem_singleton.mpr rfl), hsent⟩

theorem SendAll.step (hs : ends.srceth.length = 6) (hinv : SendInv ends s) (h : SendAll s)
    (a : SendAct) (huse : SendWhole s a) (hstep : sendStep ends s a = some s') : SendAll s' := by
  obtain ⟨huse, hmem⟩ := huse
  cases a with
  | write mem netRouteTo data =>
      cases hphase : s.phase <;> simp only [sendStep, hphase, Option.some.injEq] at hstep
      · exact hstep ▸ h.write hs hmem netRouteTo data
      all_goals cases hstep
  | schedule workOk =>
      cases hphase : s.phase <;> simp only [sendStep, hphase, Option.some.injEq] at hstep
      case built pkt data => exact hstep ▸ h.schedule hphase workOk
      all_goals cases hstep
  | send =>
      cases hphase : s.phase <;> simp only [sendStep, hphase, Option.some.injEq] at hstep
      case scheduled work pkt data =>
        rw [SendUse, hphase] at huse
        exact hstep ▸ h.send hinv hphase huse
      all_goals cases hstep
  | receive ok pkt =>
      obtain ⟨ti, -, rfl⟩ := Option.map_eq_some_iff.mp hstep
      exact h.mono rfl rfl fun _ hb => hb
  | read len =>
      obtain ⟨r, -, rfl⟩ := Option.map_eq_some_iff.mp hstep
      exact h.mono rfl rfl fun _ hb => hb
  | resend k =>
      obtain ⟨pkt, -, rfl⟩ := Option.map_eq_some_iff.mp hstep
      exact h.mono rfl rfl (List.subset_append_left _ _)
  | giveUp =>
      cases hstep
      exact h.mono rfl rfl fun _ hb => hb
  | arrive k =>
      obtain ⟨bytes, -, rfl⟩ := Option.map_eq_some_iff.mp hstep
      exact h.mono rfl rfl fun _ hb => hb

/-- The pieces can arrive, one after the other. -/
theorem arrivals_run (ends : TcpEnds) {ps : List (Nat × List UInt8)}
    (hon : ∀ p ∈ ps, ∃ bytes ∈ s.wire, segmentAt bytes = some p) :
    ∃ ks : List Nat, runSteps (sendStep ends) s (ks.map .arrive) =
      some { s with got := assemble s.got ps } := by
  induction ps generalizing s with
  | nil => exact ⟨[], rfl⟩
  | cons p ps ih =>
      obtain ⟨bytes, hbytes, hseg⟩ := hon p List.mem_cons_self
      obtain ⟨k, hk⟩ := List.mem_iff_getElem?.mp hbytes
      have htake : takeFrame s.got bytes = takePiece s.got p := by
        rw [takeFrame, hseg]
        rfl
      have hstep : sendStep ends s (.arrive k) = some { s with got := takePiece s.got p } := by
        rw [sendStep, hk, Option.map_some, htake]
      have hrest : ∀ q ∈ ps, ∃ bytes ∈ ({ s with got := takePiece s.got p } : SendState).wire,
          segmentAt bytes = some q := fun q hq => hon q (List.mem_cons_of_mem p hq)
      obtain ⟨ks, hks⟩ := ih hrest
      refine ⟨k :: ks, ?_⟩
      rw [List.map_cons, runSteps, hstep]
      exact hks

end Complete

end Levos.Net
