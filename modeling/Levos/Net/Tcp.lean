import Levos.Base.Run
import Levos.Lib.Ring

/-!
# TCP receive side (`net/tcp.c`)

The state of one connection (`struct tcp_info`) and everything
`tcp_handle_packet` does to it: the sequence and acknowledgement checks, the
handshake, the established state with its receive ring, and the close.

Multi-byte header fields are big endian in memory; here they are the host
values the source gets from `to_le_16`/`to_le_32`. Each `tcp_new_packet` may
fail for want of memory: `ok k` says whether the `k`-th one of a call
succeeds. Two histories are kept besides the C fields: `sent`, the segments
handed to the device, and `stored`, the bytes `ring_buffer_write` accepted
into `ti_rb`. The return code of the handlers, which only tells the
dispatcher what became of the frame, is left out.
-/

namespace Levos.Net

open Levos.Base Levos.Lib

/-! ## Segments -/

/-- The fields of `struct tcp_header`. -/
structure TcpHeader where
  srcPort : BitVec 16
  dstPort : BitVec 16
  seq : BitVec 32
  ack : BitVec 32
  doffFlags : BitVec 16
  wsize : BitVec 16
  chksum : BitVec 16
  urgp : BitVec 16
deriving DecidableEq, Repr

/-- A received packet: the length field of its IP header, its TCP header, and
the bytes of the frame behind the fixed 20 bytes of that header. -/
structure TcpPacket where
  ipLen : BitVec 16
  tcp : TcpHeader
  body : List UInt8
deriving DecidableEq, Repr

def be16 (x : BitVec 16) : List UInt8 :=
  [⟨x.extractLsb' 8 8⟩, ⟨x.extractLsb' 0 8⟩]

def be32 (x : BitVec 32) : List UInt8 :=
  [⟨x.extractLsb' 24 8⟩, ⟨x.extractLsb' 16 8⟩, ⟨x.extractLsb' 8 8⟩, ⟨x.extractLsb' 0 8⟩]

/-- The header as it lies in the frame. -/
def tcpHeaderBytes (tcp : TcpHeader) : List UInt8 :=
  be16 tcp.srcPort ++ be16 tcp.dstPort ++ be32 tcp.seq ++ be32 tcp.ack ++
    be16 tcp.doffFlags ++ be16 tcp.wsize ++ be16 tcp.chksum ++ be16 tcp.urgp

def tcpGetDoff (tcp : TcpHeader) : BitVec 8 := ((tcp.doffFlags &&& 0xf000) >>> 12).truncate 8
def tcpGetFlags (tcp : TcpHeader) : BitVec 16 := tcp.doffFlags &&& 0x1f

def tcpFlagsAck : BitVec 16 := 1 <<< 4
def tcpFlagsRst : BitVec 16 := 1 <<< 2
def tcpFlagsSyn : BitVec 16 := 1 <<< 1
def tcpFlagsFin : BitVec 16 := 1 <<< 0

def tcpIsSet (flag : BitVec 16) (tcp : TcpHeader) : Bool := tcpGetFlags tcp &&& flag ≠ 0

def tcpIsSetAck : TcpHeader → Bool := tcpIsSet tcpFlagsAck
def tcpIsSetRst : TcpHeader → Bool := tcpIsSet tcpFlagsRst
def tcpIsSetSyn : TcpHeader → Bool := tcpIsSet tcpFlagsSyn
def tcpIsSetFin : TcpHeader → Bool := tcpIsSet tcpFlagsFin

/-- `ip_len` less the 20 bytes of the IP header and the TCP header with its
options, in unsigned 32-bit arithmetic. -/
def tcpGetPayloadSize (pkt : TcpPacket) : BitVec 32 :=
  pkt.ipLen.zeroExtend 32 - 20 - (tcpGetDoff pkt.tcp).zeroExtend 32 * 4

/-- The memory from `(void *)tcp + doff * 4` on. -/
def tcpGetPayload (pkt : TcpPacket) : List UInt8 :=
  (tcpHeaderBytes pkt.tcp ++ pkt.body).drop ((tcpGetDoff pkt.tcp).toNat * 4)

/-! ## Connections -/

/-- `TI_STATE_CLOSED` .. `TI_STATE_CLOSING`. -/
inductive TiState : Type where
  | closed | synSent | estab | closeWait | lastAck | listen | synRcvd
  | finWait1 | finWait2 | timeWait | closing
deriving DecidableEq, Repr

/-- A segment handed to the device: sequence and acknowledgement number and
the flags set. -/
structure SentSegment where
  seq : BitVec 32
  ack : BitVec 32
  flags : BitVec 16
deriving DecidableEq, Repr

structure TcpInfo where
  state : TiState
  failCode : Int
  nextAck : BitVec 32           -- how much of the other side we've seen so far
  nextSeq : BitVec 32           -- how much we've sent so far
  unack : BitVec 32             -- oldest unack'ed number
  retransmitWork : Bool         -- `ti_retransmit_work` is pending
  rb : RingBuffer               -- data collected so far
  sent : List SentSegment
  stored : List UInt8
deriving DecidableEq, Repr

def tcpBufferSize : Nat := 16384

def econnreset : Int := 104
def econnrefused : Int := 111

def tcpDoFail (ti : TcpInfo) (errno : Int) : TcpInfo :=
  { ti with state := .closed, failCode := errno }

def tcpCancelRetransmission (ti : TcpInfo) : TcpInfo := { ti with retransmitWork := false }

/-- `__tcp_send_packet` with `len = 0`, the only length the receive side
sends: the sequence number is `ti_next_seq`, which does not move. -/
def tcpSendPacket (ti : TcpInfo) (ack : BitVec 32) (flags : BitVec 16) : TcpInfo :=
  { ti with sent := ti.sent ++ [⟨ti.nextSeq, ack, flags⟩] }

/-- `__tcp_ack_packet`. -/
def tcpAckPacketSize (ok : Bool) (ti : TcpInfo) (tcp : TcpHeader) (psize : BitVec 32) :
    TcpInfo :=
  if ok then tcpSendPacket ti (tcp.seq + psize) tcpFlagsAck else ti

def tcpAckPacket (ok : Bool) (ti : TcpInfo) (pkt : TcpPacket) : TcpInfo :=
  tcpAckPacketSize ok ti pkt.tcp (tcpGetPayloadSize pkt)

def tcpResetConnection (ok : Bool) (ti : TcpInfo) : TcpInfo :=
  if ok then tcpDoFail (tcpSendPacket ti 0 tcpFlagsRst) econnreset else ti

def tcpHandlePacketSynsent (ok : Nat → Bool) (ti : TcpInfo) (pkt : TcpPacket) : TcpInfo :=
  if tcpIsSetSyn pkt.tcp then
    if tcpIsSetAck pkt.tcp then
      let ti := { ti with nextAck := pkt.tcp.seq + 1, unack := 0, nextSeq := 1 }
      if ok 0 then { tcpSendPacket ti ti.nextAck tcpFlagsAck with state := .estab }
      else ti
    else tcpResetConnection (ok 0) ti
  else tcpResetConnection (ok 0) ti

/-- The payload branch of `tcp_handle_packet_estab`: both of its arms
acknowledge the payload and advance `ti_next_ack`; one of them stores it. -/
def tcpReceivePayload (ok : Bool) (ti : TcpInfo) (pkt : TcpPacket) : Option TcpInfo :=
  let size := tcpGetPayloadSize pkt
  let payloadLen := size.toInt
  if (ringBufferSize ti.rb : Int) + payloadLen < tcpBufferSize then
    let payload := (tcpGetPayload pkt).take payloadLen.toNat
    match ringBufferWrite ti.rb payload with
    | none => none
    | some (rb, nWrote) =>
        let ti := { ti with rb := rb, stored := ti.stored ++ payload.take nWrote }
        let ti := tcpAckPacket ok ti pkt
        some { ti with nextAck := ti.nextAck + size }
  else
    -- "dropping a packet because there is no space"
    let ti := tcpAckPacket ok ti pkt
    some { ti with nextAck := ti.nextAck + size }

/-- The FIN branch: acknowledge it, and close our side at once. -/
def tcpReceiveFin (ok : Nat → Bool) (ti : TcpInfo) : TcpInfo :=
  let ti := { ti with nextAck := ti.nextAck + 1 }
  if ok 1 then
    let ti := { tcpSendPacket ti ti.nextAck tcpFlagsAck with state := .closeWait }
    if ok 2 then { tcpSendPacket ti ti.nextAck tcpFlagsFin with state := .lastAck }
    else ti
  else ti

def tcpHandlePacketEstab (ok : Nat → Bool) (ti : TcpInfo) (pkt : TcpPacket) :
    Option TcpInfo :=
  if tcpIsSetAck pkt.tcp ∧ tcpIsSetSyn pkt.tcp then
    some (tcpHandlePacketSynsent ok ti pkt)
  else
    let afterPayload :=
      if tcpIsSetAck pkt.tcp ∧ 0 < (tcpGetPayloadSize pkt).toInt then
        tcpReceivePayload (ok 0) ti pkt
      else some ti
    afterPayload.map fun ti => if tcpIsSetFin pkt.tcp then tcpReceiveFin ok ti else ti

def tcpHandlePacketLastack (ok : Nat → Bool) (ti : TcpInfo) (pkt : TcpPacket) : TcpInfo :=
  if tcpIsSetAck pkt.tcp then ti else tcpResetConnection (ok 0) ti

/-- `tcp_cond_ack`: the payload size is compared unsigned. -/
def tcpCondAck (ok : Bool) (ti : TcpInfo) (pkt : TcpPacket) : TcpInfo :=
  if tcpIsSetFin pkt.tcp ∨ tcpIsSetSyn pkt.tcp then tcpAckPacket ok ti pkt
  else if 0 < tcpGetPayloadSize pkt then tcpAckPacket ok ti pkt
  else ti

/-- The part of `tcp_handle_packet` behind the sequence and acknowledgement
checks. -/
def tcpDispatch (ok : Nat → Bool) (ti : TcpInfo) (pkt : TcpPacket) : Option TcpInfo :=
  if tcpIsSetRst pkt.tcp then
    some (tcpDoFail ti (if ti.state = .synSent then econnrefused else econnreset))
  else
    match ti.state with
    | .closed => some ti
    | .synSent => some (tcpHandlePacketSynsent ok ti pkt)
    | .estab => tcpHandlePacketEstab ok ti pkt
    | .lastAck => some (tcpHandlePacketLastack ok ti pkt)
    | _ => some ti

/-- `tcp_handle_packet` on the connection `tcp_find_info` found. -/
def tcpHandlePacket (ok : Nat → Bool) (ti : TcpInfo) (pkt : TcpPacket) : Option TcpInfo :=
  if ¬ ti.nextAck ≤ pkt.tcp.seq then
    -- still ACK it, maybe the ACK was lost
    some (tcpCondAck (ok 0) ti pkt)
  else if tcpIsSetAck pkt.tcp then
    if ¬ ti.unack < pkt.tcp.ack then some (tcpCondAck (ok 0) ti pkt)
    else
      tcpDispatch ok (tcpCancelRetransmission { ti with unack := pkt.tcp.ack - 1 }) pkt
  else tcpDispatch ok ti pkt

/-- `tcp_sock_read`: the bytes and `n_read`; `none` also while the caller
spins on an empty ring. The caller is told `-ENOTCONN` (nothing read) unless
the connection is established. -/
def tcpSockRead (ti : TcpInfo) (len : Nat) : Option (TcpInfo × List UInt8) :=
  if ti.state ≠ .estab then some (ti, [])
  else if ringBufferSize ti.rb = 0 then none
  else (ringBufferRead ti.rb len).map fun r => ({ ti with rb := r.1 }, r.2.1.take r.2.2)

/-! ## What one segment does -/

/-- The checks a segment passes on its way to the payload branch. -/
def TcpAccepts (ti : TcpInfo) (pkt : TcpPacket) : Prop :=
  ti.state = .estab ∧ ti.nextAck ≤ pkt.tcp.seq ∧ tcpIsSetAck pkt.tcp ∧
    ti.unack < pkt.tcp.ack ∧ ¬ tcpIsSetRst pkt.tcp ∧ ¬ tcpIsSetSyn pkt.tcp ∧
    0 < (tcpGetPayloadSize pkt).toInt

/-- The space check of the payload branch. -/
def TcpHasRoom (ti : TcpInfo) (pkt : TcpPacket) : Prop :=
  (ringBufferSize ti.rb : Int) + (tcpGetPayloadSize pkt).toInt < tcpBufferSize

/-- The bytes the payload branch hands to the ring. -/
def tcpPayload (pkt : TcpPacket) : List UInt8 :=
  (tcpGetPayload pkt).take (tcpGetPayloadSize pkt).toInt.toNat

/-- The connection after its acknowledgement field was looked at. -/
def tcpAckReceived (ti : TcpInfo) (pkt : TcpPacket) : TcpInfo :=
  if tcpIsSetAck pkt.tcp then
    tcpCancelRetransmission { ti with unack := pkt.tcp.ack - 1 }
  else ti

/-- The receive ring and its history are as they were. -/
def SameRing (ti ti' : TcpInfo) : Prop := ti'.rb = ti.rb ∧ ti'.stored = ti.stored

theorem SameRing.trans {a b c : TcpInfo} (h : SameRing a b) (h' : SameRing b c) :
    SameRing a c :=
  ⟨h'.1.trans h.1, h'.2.trans h.2⟩

theorem tcpAckPacket_sameRing (ok : Bool) (ti : TcpInfo) (pkt : TcpPacket) :
    SameRing ti (tcpAckPacket ok ti pkt) := by
  cases ok <;> exact ⟨rfl, rfl⟩

theorem tcpCondAck_sameRing (ok : Bool) (ti : TcpInfo) (pkt : TcpPacket) :
    SameRing ti (tcpCondAck ok ti pkt) := by
  unfold tcpCondAck
  split
  · exact tcpAckPacket_sameRing ok ti pkt
  · split
    · exact tcpAckPacket_sameRing ok ti pkt
    · exact ⟨rfl, rfl⟩

theorem tcpResetConnection_sameRing (ok : Bool) (ti : TcpInfo) :
    SameRing ti (tcpResetConnection ok ti) := by
  cases ok <;> exact ⟨rfl, rfl⟩

theorem tcpHandlePacketSynsent_sameRing (ok : Nat → Bool) (ti : TcpInfo) (pkt : TcpPacket) :
    SameRing ti (tcpHandlePacketSynsent ok ti pkt) := by
  unfold tcpHandlePacketSynsent
  split
  · split
    · dsimp only
      split <;> exact ⟨rfl, rfl⟩
    · exact tcpResetConnection_sameRing (ok 0) ti
  · exact tcpResetConnection_sameRing (ok 0) ti

theorem tcpReceiveFin_sameRing (ok : Nat → Bool) (ti : TcpInfo) :
    SameRing ti (tcpReceiveFin ok ti) := by
  unfold tcpReceiveFin
  dsimp only
  split
  · split <;> exact ⟨rfl, rfl⟩
  · exact ⟨rfl, rfl⟩

theorem tcpHandlePacketLastack_sameRing (ok : Nat → Bool) (ti : TcpInfo) (pkt : TcpPacket) :
    SameRing ti (tcpHandlePacketLastack ok ti pkt) := by
  unfold tcpHandlePacketLastack
  split
  · exact ⟨rfl, rfl⟩
  · exact tcpResetConnection_sameRing (ok 0) ti

/-- The payload branch with room: the ring takes the payload, the
acknowledgement goes out, `ti_next_ack` moves. -/
theorem tcpReceivePayload_room {ok : Bool} {ti ti' : TcpInfo} {pkt : TcpPacket}
    (hroom : TcpHasRoom ti pkt) (h : tcpReceivePayload ok ti pkt = some ti') :
    ∃ n, ringBufferWrite ti.rb (tcpPayload pkt) = some (ti'.rb, n) ∧
      ti'.stored = ti.stored ++ (tcpPayload pkt).take n ∧
      ti'.nextAck = ti.nextAck + tcpGetPayloadSize pkt ∧
      ti'.state = ti.state ∧ ti'.unack = ti.unack := by
  rw [TcpHasRoom] at hroom
  simp only [tcpReceivePayload, if_pos hroom] at h
  split at h
  · exact absurd h (by simp)
  · rename_i rb n hw
    rw [← Option.some.inj h]
    refine ⟨n, ?_⟩
    cases ok <;> exact ⟨hw, rfl, rfl, rfl, rfl⟩

/-- The payload branch without room: the payload is dropped, and still
acknowledged. -/
theorem tcpReceivePayload_full {ok : Bool} {ti ti' : TcpInfo} {pkt : TcpPacket}
    (hfull : ¬ TcpHasRoom ti pkt) (h : tcpReceivePayload ok ti pkt = some ti') :
    SameRing ti ti' ∧ ti'.nextAck = ti.nextAck + tcpGetPayloadSize pkt := by
  rw [TcpHasRoom] at hfull
  simp only [tcpReceivePayload, if_neg hfull] at h
  rw [← Option.some.inj h]
  cases ok <;> exact ⟨⟨rfl, rfl⟩, rfl⟩

/-- A segment is answered at once, or passes the sequence and acknowledgement
checks and is dispatched. -/
theorem tcpHandlePacket_cases {ok : Nat → Bool} {ti ti' : TcpInfo} {pkt : TcpPacket}
    (h : tcpHandlePacket ok ti pkt = some ti') :
    ((¬ ti.nextAck ≤ pkt.tcp.seq ∨ tcpIsSetAck pkt.tcp ∧ ¬ ti.unack < pkt.tcp.ack) ∧
        ti' = tcpCondAck (ok 0) ti pkt) ∨
      (ti.nextAck ≤ pkt.tcp.seq ∧ (tcpIsSetAck pkt.tcp → ti.unack < pkt.tcp.ack)) ∧
        tcpDispatch ok (tcpAckReceived ti pkt) pkt = some ti' := by
  rw [tcpHandlePacket] at h
  by_cases hseq : ti.nextAck ≤ pkt.tcp.seq
  · rw [if_neg (not_not_intro hseq)] at h
    by_cases hack : tcpIsSetAck pkt.tcp
    · rw [if_pos hack] at h
      by_cases hun : ti.unack < pkt.tcp.ack
      · rw [if_neg (not_not_intro hun)] at h
        refine .inr ⟨⟨hseq, fun _ => hun⟩, ?_⟩
        rw [tcpAckReceived, if_pos hack]
        exact h
      · rw [if_pos hun] at h
        exact .inl ⟨.inr ⟨hack, hun⟩, (Option.some.inj h).symm⟩
    · rw [if_neg hack] at h
      refine .inr ⟨⟨hseq, fun ha => absurd ha hack⟩, ?_⟩
      rw [tcpAckReceived, if_neg hack]
      exact h
  · rw [if_pos hseq] at h
    exact .inl ⟨.inl hseq, (Option.some.inj h).symm⟩

theorem tcpAckReceived_frame (ti : TcpInfo) (pkt : TcpPacket) :
    (tcpAckReceived ti pkt).rb = ti.rb ∧ (tcpAckReceived ti pkt).stored = ti.stored ∧
      (tcpAckReceived ti pkt).nextAck = ti.nextAck ∧ (tcpAckReceived ti pkt).sent = ti.sent ∧
      (tcpAckReceived ti pkt).state = ti.state := by
  unfold tcpAckReceived
  split <;> exact ⟨rfl, rfl, rfl, rfl, rfl⟩

/-- What `tcp_handle_packet` can do to an established connection when the
segment carries no SYN. -/
theorem tcpHandlePacket_estab_cases {ok : Nat → Bool} {ti ti' : TcpInfo} {pkt : TcpPacket}
    (hstate : ti.state = .estab) (hsyn : ¬ tcpIsSetSyn pkt.tcp)
    (h : tcpHandlePacket ok ti pkt = some ti') :
    ((¬ ti.nextAck ≤ pkt.tcp.seq ∨ tcpIsSetAck pkt.tcp ∧ ¬ ti.unack < pkt.tcp.ack) ∧
        ti' = tcpCondAck (ok 0) ti pkt) ∨
    ((ti.nextAck ≤ pkt.tcp.seq ∧ (tcpIsSetAck pkt.tcp → ti.unack < pkt.tcp.ack)) ∧
      ((tcpIsSetRst pkt.tcp ∧ ti' = tcpDoFail (tcpAckReceived ti pkt) econnreset) ∨
      (¬ tcpIsSetRst pkt.tcp ∧ ∃ ti₁,
        (if tcpIsSetAck pkt.tcp ∧ 0 < (tcpGetPayloadSize pkt).toInt then
          tcpReceivePayload (ok 0) (tcpAckReceived ti pkt) pkt
        else some (tcpAckReceived ti pkt)) = some ti₁ ∧
        ti' = if tcpIsSetFin pkt.tcp then tcpReceiveFin ok ti₁ else ti₁))) := by
  rcases tcpHandlePacket_cases h with hanswered | ⟨hchecked, hd⟩
  · exact .inl hanswered
  · refine .inr ⟨hchecked, ?_⟩
    have ht : (tcpAckReceived ti pkt).state = .estab :=
      (tcpAckReceived_frame ti pkt).2.2.2.2.trans hstate
    rw [tcpDispatch] at hd
    by_cases hrst : tcpIsSetRst pkt.tcp
    · rw [if_pos hrst, if_neg (by rw [ht]; decide)] at hd
      exact .inl ⟨hrst, (Option.some.inj hd).symm⟩
    · rw [if_neg hrst, ht] at hd
      simp only [tcpHandlePacketEstab] at hd
      rw [if_neg fun hs => hsyn hs.2] at hd
      obtain ⟨ti₁, h₁, h₂⟩ := Option.map_eq_some_iff.mp hd
      exact .inr ⟨hrst, ti₁, h₁, h₂.symm⟩

/-- Outside the established state no segment reaches the ring. -/
theorem tcpHandlePacket_not_estab {ok : Nat → Bool} {ti ti' : TcpInfo} {pkt : TcpPacket}
    (hstate : ti.state ≠ .estab) (h : tcpHandlePacket ok ti pkt = some ti') :
    SameRing ti ti' := by
  rcases tcpHandlePacket_cases h with ⟨-, rfl⟩ | ⟨-, hd⟩
  · exact tcpCondAck_sameRing (ok 0) ti pkt
  · obtain ⟨hrb, hstored, -, -, ht⟩ := tcpAckReceived_frame ti pkt
    refine SameRing.trans ⟨hrb, hstored⟩ ?_
    rw [tcpDispatch] at hd
    split at hd
    · rw [← Option.some.inj hd]
      exact ⟨rfl, rfl⟩
    · split at hd
      all_goals first
        | (rename_i hst; exact absurd (ht.symm.trans hst) hstate)
        | rw [← Option.some.inj hd]
      · exact ⟨rfl, rfl⟩
      · exact tcpHandlePacketSynsent_sameRing ok _ pkt
      · exact tcpHandlePacketLastack_sameRing ok _ pkt
      · exact ⟨rfl, rfl⟩

/-- The ring changes only by taking the payload of a segment that passed
every check and fits. -/
theorem tcpHandlePacket_ring {ok : Nat → Bool} {ti ti' : TcpInfo} {pkt : TcpPacket}
    (hsyn : ¬ tcpIsSetSyn pkt.tcp) (h : tcpHandlePacket ok ti pkt = some ti') :
    SameRing ti ti' ∨
    (TcpAccepts ti pkt ∧ TcpHasRoom ti pkt ∧ ∃ n,
      ringBufferWrite ti.rb (tcpPayload pkt) = some (ti'.rb, n) ∧
      ti'.stored = ti.stored ++ (tcpPayload pkt).take n) := by
  by_cases hstate : ti.state = .estab
  case neg => exact .inl (tcpHandlePacket_not_estab hstate h)
  obtain ⟨hrb, hstored, -⟩ := tcpAckReceived_frame ti pkt
  have hackd : SameRing ti (tcpAckReceived ti pkt) := ⟨hrb, hstored⟩
  obtain ⟨-, rfl⟩ | ⟨⟨hseq, hun⟩, ⟨-, rfl⟩ | ⟨hrst, ti₁, h₁, rfl⟩⟩ :=
    tcpHandlePacket_estab_cases hstate hsyn h
  · exact .inl (tcpCondAck_sameRing (ok 0) ti pkt)
  · exact .inl (hackd.trans ⟨rfl, rfl⟩)
  · have hfin : SameRing ti₁ (if tcpIsSetFin pkt.tcp then tcpReceiveFin ok ti₁ else ti₁) := by
      split
      · exact tcpReceiveFin_sameRing ok ti₁
      · exact ⟨rfl, rfl⟩
    by_cases hpay : tcpIsSetAck pkt.tcp ∧ 0 < (tcpGetPayloadSize pkt).toInt
    · rw [if_pos hpay] at h₁
      have hroom_iff : TcpHasRoom (tcpAckReceived ti pkt) pkt ↔ TcpHasRoom ti pkt := by
        rw [TcpHasRoom, TcpHasRoom, hackd.1]
      by_cases hroom : TcpHasRoom ti pkt
      · obtain ⟨n, hw, hst, -⟩ := tcpReceivePayload_room (hroom_iff.mpr hroom) h₁
        rw [hackd.1] at hw
        refine .inr ⟨⟨hstate, hseq, hpay.1, hun hpay.1, hrst, hsyn, hpay.2⟩, hroom, n, ?_, ?_⟩
        · rw [hfin.1, hw]
        · rw [hfin.2, hst, hackd.2]
      · have hsame := (tcpReceivePayload_full (fun hr => hroom (hroom_iff.mp hr)) h₁).1
        exact .inl (hackd.trans (hsame.trans hfin))
    · rw [if_neg hpay] at h₁
      rw [← Option.some.inj h₁] at hfin ⊢
      exact .inl (hackd.trans hfin)

end Levos.Net
