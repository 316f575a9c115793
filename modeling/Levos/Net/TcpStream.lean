import Levos.Net.Tcp

/-!
# A connection and its peer

`Levos.Net.Tcp` says what one segment does to a connection. Here the other end
is added: a peer with a byte stream, whose segments arrive in whatever order
and number the network chooses, interleaved with reads by the application.

* `tcp_stored_prefix_of_in_order`: the bytes the ring was given are a prefix
  of the stream, if every segment that gets as far as the ring starts where
  the previous one ended. The source does not check that: it takes any
  segment at or above `ti_next_ack` (`tcp_out_of_order_stored`).
* `tcp_acked_kept_of_room`: with segments in order, every acknowledged byte
  was written to the ring, if every payload passes the checks and fits. The
  source acknowledges a payload it drops (`tcp_full_ring_acked`).
-/

namespace Levos.Net

open Levos.Base Levos.Lib

/-! ## The peer and its segments -/

/-- The sequence number of the first byte of the peer's stream, one past its
SYN, and the stream. -/
structure TcpPeer where
  base : BitVec 32
  stream : List UInt8

/-- `pkt` is a segment of the peer's stream that starts at position `off`: a
frame long enough for what its header announces, without SYN. -/
def SegmentAt (peer : TcpPeer) (off : Nat) (pkt : TcpPacket) : Prop :=
  pkt.tcp.seq = peer.base + BitVec.ofNat 32 off ∧
  ¬ tcpIsSetSyn pkt.tcp ∧
  5 ≤ (tcpGetDoff pkt.tcp).toNat ∧
  20 + (tcpGetDoff pkt.tcp).toNat * 4 ≤ pkt.ipLen.toNat ∧
  (tcpGetPayloadSize pkt).toNat ≤ (peer.stream.drop off).length ∧
  (tcpGetPayload pkt).take (tcpGetPayloadSize pkt).toNat =
    (peer.stream.drop off).take (tcpGetPayloadSize pkt).toNat

instance (peer : TcpPeer) (off : Nat) (pkt : TcpPacket) : Decidable (SegmentAt peer off pkt) :=
  inferInstanceAs (Decidable (_ ∧ _))

/-- The network delivers a segment that starts at `off`, or the application
reads. -/
inductive TcpAct : Type where
  | deliver (off : Nat) (pkt : TcpPacket) (ok : Nat → Bool)
  | read (len : Nat)

def tcpStep (peer : TcpPeer) (ti : TcpInfo) : TcpAct → Option TcpInfo
  | .deliver off pkt ok => if SegmentAt peer off pkt then tcpHandlePacket ok ti pkt else none
  | .read len => (tcpSockRead ti len).map (·.1)

/-- The receive ring as `tcp_conn_start` sets it up, and as every later
operation leaves it. -/
def TcpRingWf (rb : RingBuffer) : Prop :=
  RingWf rb ∧ rb.capacity = tcpBufferSize ∧ rb.flags &&& rbFlagNonblock ≠ 0

/-- A connection right after the handshake: nothing received, and the peer's
first byte expected. -/
def TcpEstablished (peer : TcpPeer) (ti : TcpInfo) : Prop :=
  ti.state = .estab ∧ ti.nextAck = peer.base ∧ ti.stored = [] ∧
  ∃ rb mem, mem.length = tcpBufferSize ∧ ti.rb = ringBufferNonblock rb mem tcpBufferSize

theorem TcpEstablished.ring {peer : TcpPeer} {ti : TcpInfo} (h : TcpEstablished peer ti) :
    TcpRingWf ti.rb ∧ ringContents ti.rb = [] := by
  obtain ⟨-, -, -, rb, mem, hmem, hrb⟩ := h
  obtain ⟨hwf, hflag, hempty⟩ :=
    ringBufferNonblock_wf rb (show 0 < tcpBufferSize by decide) hmem
  rw [hrb]
  exact ⟨⟨hwf, rfl, hflag⟩, hempty⟩

/-! ## Sizes -/

theorem tcpGetPayloadSize_toNat {peer : TcpPeer} {off : Nat} {pkt : TcpPacket}
    (h : SegmentAt peer off pkt) :
    (tcpGetPayloadSize pkt).toNat =
      pkt.ipLen.toNat - (20 + (tcpGetDoff pkt.tcp).toNat * 4) := by
  obtain ⟨-, -, -, hlen, -, -⟩ := h
  have hip := pkt.ipLen.isLt
  have hdoff := (tcpGetDoff pkt.tcp).isLt
  have h20 : (20 : BitVec 32).toNat = 20 := rfl
  have h4 : (4 : BitVec 32).toNat = 4 := rfl
  simp only [tcpGetPayloadSize, BitVec.toNat_sub, BitVec.toNat_mul, h20, h4,
    BitVec.truncate_eq_setWidth, BitVec.toNat_setWidth]
  omega

/-- A segment's payload size is small enough for `int`. -/
theorem tcpGetPayloadSize_toInt {peer : TcpPeer} {off : Nat} {pkt : TcpPacket}
    (h : SegmentAt peer off pkt) :
    (tcpGetPayloadSize pkt).toInt = ((tcpGetPayloadSize pkt).toNat : Int) ∧
      (tcpGetPayloadSize pkt).toNat < 2 ^ 16 := by
  have hn := tcpGetPayloadSize_toNat h
  have hip := pkt.ipLen.isLt
  refine ⟨?_, by omega⟩
  rw [BitVec.toInt_eq_toNat_of_lt (by omega)]

theorem tcpPayload_eq {peer : TcpPeer} {off : Nat} {pkt : TcpPacket}
    (h : SegmentAt peer off pkt) :
    tcpPayload pkt = (peer.stream.drop off).take (tcpGetPayloadSize pkt).toNat ∧
      (tcpPayload pkt).length = (tcpGetPayloadSize pkt).toNat := by
  have hint := (tcpGetPayloadSize_toInt h).1
  obtain ⟨-, -, -, -, hin, hpay⟩ := h
  have heq : tcpPayload pkt = (peer.stream.drop off).take (tcpGetPayloadSize pkt).toNat := by
    rw [tcpPayload, hint, Int.toNat_natCast, hpay]
  exact ⟨heq, by rw [heq, List.length_take, min_eq_left hin]⟩

/-- Where the payload fits, the ring takes all of it. -/
theorem ringBufferWrite_of_room {peer : TcpPeer} {off : Nat} {pkt : TcpPacket} {ti : TcpInfo}
    (hseg : SegmentAt peer off pkt) (hwf : TcpRingWf ti.rb) (hroom : TcpHasRoom ti pkt) :
    ∃ rb, ringBufferWrite ti.rb (tcpPayload pkt) =
        some (rb, (tcpGetPayloadSize pkt).toNat) ∧ TcpRingWf rb ∧
      ringContents rb = ringContents ti.rb ++ tcpPayload pkt := by
  obtain ⟨hring, hcap, hflag⟩ := hwf
  obtain ⟨rb, hw, hring', hflag', hcap', hcon⟩ :=
    ringBufferWrite_spec (tcpPayload pkt) hring hflag
  have hlen := (tcpPayload_eq hseg).2
  have hfit : (tcpGetPayloadSize pkt).toNat ≤ ti.rb.capacity - ti.rb.size := by
    rw [TcpHasRoom, (tcpGetPayloadSize_toInt hseg).1, ringBufferSize] at hroom
    omega
  rw [hlen, min_eq_left hfit] at hw hcon
  refine ⟨rb, hw, ⟨hring', hcap'.trans hcap, hflag' ▸ hflag⟩, ?_⟩
  rw [hcon, ← hlen, List.take_length]

theorem tcpSockRead_some {ti ti' : TcpInfo} {len : Nat} {out : List UInt8}
    (hwf : TcpRingWf ti.rb) (h : tcpSockRead ti len = some (ti', out)) :
    TcpRingWf ti'.rb ∧ ringContents ti'.rb <:+ ringContents ti.rb ∧
      ti' = { ti with rb := ti'.rb } := by
  obtain ⟨hring, hcap, hflag⟩ := hwf
  rw [tcpSockRead] at h
  split at h
  · cases h
    exact ⟨⟨hring, hcap, hflag⟩, List.suffix_rfl, rfl⟩
  · split at h
    · exact absurd h (by simp)
    · obtain ⟨rb, hr, hring', hflag', hcap', hcon⟩ := ringBufferRead_spec len hring hflag
      rw [hr] at h
      cases h
      exact ⟨⟨hring', hcap'.trans hcap, hflag' ▸ hflag⟩, hcon ▸ List.drop_suffix _ _, rfl⟩

/-! ## Any delivery order -/

/-- What a step keeps whatever the network does: the ring is well formed and
holds the unread tail of what was stored. -/
def TcpTail (ti : TcpInfo) : Prop :=
  TcpRingWf ti.rb ∧ ringContents ti.rb <:+ ti.stored

/-- A step leaves `stored` alone, or appends to it the payload of a segment
that passed the checks and fits. -/
theorem tcpStep_stored {peer : TcpPeer} {ti ti' : TcpInfo} {a : TcpAct}
    (hinv : TcpTail ti) (h : tcpStep peer ti a = some ti') :
    TcpTail ti' ∧ (ti'.stored = ti.stored ∨
      ∃ off pkt ok, a = .deliver off pkt ok ∧ SegmentAt peer off pkt ∧
        TcpAccepts ti pkt ∧ TcpHasRoom ti pkt ∧
        ti'.stored = ti.stored ++ (peer.stream.drop off).take (tcpGetPayloadSize pkt).toNat) := by
  obtain ⟨hwf, htail⟩ := hinv
  cases a with
  | read len =>
      obtain ⟨⟨t, out⟩, hr, rfl⟩ := Option.map_eq_some_iff.mp h
      obtain ⟨hwf', hsuf, hti⟩ := tcpSockRead_some hwf hr
      have hst : t.stored = ti.stored := by rw [hti]
      refine ⟨⟨hwf', ?_⟩, .inl hst⟩
      rw [hst]
      exact hsuf.trans htail
  | deliver off pkt ok =>
      rw [tcpStep] at h
      split at h
      case isFalse => exact absurd h (by simp)
      rename_i hseg
      obtain ⟨hrb, hst⟩ | ⟨hacc, hroom, n, hw, hst⟩ := tcpHandlePacket_ring hseg.2.1 h
      · exact ⟨⟨hrb ▸ hwf, hrb ▸ hst ▸ htail⟩, .inl hst⟩
      · obtain ⟨rb, hw', hwf', hcon⟩ := ringBufferWrite_of_room hseg hwf hroom
        obtain ⟨hpay, hlen⟩ := tcpPayload_eq hseg
        rw [hw', Option.some.injEq, Prod.mk.injEq] at hw
        obtain ⟨rfl, rfl⟩ := hw
        rw [← hlen, List.take_length] at hst
        refine ⟨⟨hwf', ?_⟩, .inr ⟨off, pkt, ok, rfl, hseg, hacc, hroom, hpay ▸ hst⟩⟩
        obtain ⟨read, hread⟩ := htail
        exact ⟨read, by rw [hcon, hst, ← hread, List.append_assoc]⟩

/-- The segment that gets as far as the ring starts where the stored bytes
end. -/
def TcpInOrder (ti : TcpInfo) : TcpAct → Prop
  | .deliver off pkt _ => TcpAccepts ti pkt → TcpHasRoom ti pkt → off = ti.stored.length
  | .read _ => True

/-- A prefix extended by the bytes that follow it is a prefix. -/
theorem prefix_append_next {s : List UInt8} {stream : List UInt8} (n : Nat)
    (h : s <+: stream) : s ++ (stream.drop s.length).take n <+: stream := by
  obtain ⟨rest, rfl⟩ := h
  rw [List.drop_left]
  exact (List.prefix_append_right_inj s).mpr (List.take_prefix n rest)

/-- **Stream integrity, in order.** Along every run whose accepted segments
each start where the stored bytes end, the bytes given to the receive ring
are a prefix of the peer's stream, and the ring holds the unread rest of
them. -/
theorem tcp_stored_prefix_of_in_order (peer : TcpPeer) (ti₀ ti : TcpInfo)
    (acts : List TcpAct) (hinit : TcpEstablished peer ti₀)
    (hmeet : StepsMeet (tcpStep peer) TcpInOrder ti₀ acts)
    (hrun : runSteps (tcpStep peer) ti₀ acts = some ti) :
    ti.stored <+: peer.stream ∧ ringContents ti.rb <:+ ti.stored := by
  have hstep : ∀ s a s', (TcpTail s ∧ s.stored <+: peer.stream) → TcpInOrder s a →
      tcpStep peer s a = some s' → TcpTail s' ∧ s'.stored <+: peer.stream := by
    intro s a s' hs horder h
    obtain ⟨htail, hst | ⟨off, pkt, ok, rfl, -, hacc, hroom, hst⟩⟩ := tcpStep_stored hs.1 h
    · exact ⟨htail, hst ▸ hs.2⟩
    · refine ⟨htail, ?_⟩
      rw [hst, horder hacc hroom]
      exact prefix_append_next _ hs.2
  obtain ⟨hwf, hempty⟩ := hinit.ring
  have hnil : ti₀.stored = [] := hinit.2.2.1
  have h₀ : TcpTail ti₀ ∧ ti₀.stored <+: peer.stream :=
    ⟨⟨hwf, by rw [hempty, hnil]⟩, hnil ▸ List.nil_prefix⟩
  obtain ⟨⟨-, htail⟩, hpre⟩ := runSteps_invariant_of_meet hstep h₀ hmeet hrun
  exact ⟨hpre, htail⟩

/-- A segment as a plain peer builds it: no options, ACK the only flag. -/
def peerSegment (peer : TcpPeer) (off len : Nat) (ack : BitVec 32) : TcpPacket :=
  { ipLen := BitVec.ofNat 16 (40 + len)
    tcp := { srcPort := 80, dstPort := 1337, seq := peer.base + BitVec.ofNat 32 off, ack := ack,
             doffFlags := 0x5010, wsize := 1024, chksum := 0, urgp := 0 }
    body := (peer.stream.drop off).take len }

/-- A connection to that peer right after the handshake. -/
def freshConnection (peer : TcpPeer) : TcpInfo :=
  { state := .estab, failCode := 0, nextAck := peer.base, nextSeq := 1, unack := 0,
    retransmitWork := false,
    rb := ringBufferNonblock ⟨0, 0, 0, 0, 0, []⟩ (List.replicate tcpBufferSize 0) tcpBufferSize,
    sent := [], stored := [] }

theorem freshConnection_established (peer : TcpPeer) :
    TcpEstablished peer (freshConnection peer) :=
  ⟨rfl, rfl, rfl, _, _, List.length_replicate, rfl⟩

/-- A peer that says `"ab"`. -/
def abPeer : TcpPeer := ⟨1000, [0x61, 0x62]⟩

/-- `"ab"` in one segment, and a read of its first byte. -/
theorem tcp_stored_prefix_of_in_order_ab :
    ∃ ti, runSteps (tcpStep abPeer) (freshConnection abPeer)
        [.deliver 0 (peerSegment abPeer 0 2 1) (fun _ => true), .read 1] = some ti ∧
      ti.stored <+: abPeer.stream ∧ ringContents ti.rb <:+ ti.stored := by
  have hrun : (runSteps (tcpStep abPeer) (freshConnection abPeer)
      [.deliver 0 (peerSegment abPeer 0 2 1) (fun _ => true), .read 1]).isSome := rfl
  obtain ⟨ti, hti⟩ := Option.isSome_iff_exists.mp hrun
  refine ⟨ti, hti, tcp_stored_prefix_of_in_order abPeer _ ti _
    (freshConnection_established abPeer) ?_ hti⟩
  exact ⟨fun _ _ => rfl, fun _ _ => ⟨trivial, fun _ _ => trivial⟩⟩

/-- The second byte of `"ab"` alone, the first one lost: it is stored, and
what the ring was given is no prefix of the stream. -/
theorem tcp_out_of_order_stored :
    TcpEstablished abPeer (freshConnection abPeer) ∧
    ∃ ti, runSteps (tcpStep abPeer) (freshConnection abPeer)
        [.deliver 1 (peerSegment abPeer 1 1 1) (fun _ => true)] = some ti ∧
      ti.stored = [0x62] ∧ ¬ ti.stored <+: abPeer.stream := by
  refine ⟨freshConnection_established _, _, rfl, rfl, ?_⟩
  decide

/-! ## Delivery in order -/

/-- A connection whose peer's segments arrive in order, with what the peer has
sent so far and what became of it. -/
structure OrderedConn where
  ti : TcpInfo
  pos : Nat              -- payload bytes the peer has sent
  fin : Bool             -- its FIN was sent
  written : List Nat     -- stream positions written to `ti_rb`
  acked : List Nat       -- stream position of each acknowledgement sent

/-- The peer's next sequence number, counted from `base`; the FIN takes one. -/
def OrderedConn.next (s : OrderedConn) : Nat := s.pos + s.fin.toNat

/-- The stream position an acknowledgement number stands for: the last one at
or before `next` that has this number modulo `2^32`. -/
def ackPosition (base : BitVec 32) (next : Nat) (ack : BitVec 32) : Nat :=
  next - (base + BitVec.ofNat 32 next - ack).toNat

/-- The positions of the acknowledgements among the segments sent. -/
def ackPositions (base : BitVec 32) (next : Nat) (sent : List SentSegment) : List Nat :=
  (sent.filter fun p => p.flags &&& tcpFlagsAck ≠ 0).map fun p => ackPosition base next p.ack

/-- The connection after the handler made `ti` of it on the segment `pkt`. -/
def OrderedConn.received (peer : TcpPeer) (s : OrderedConn) (pkt : TcpPacket) (ti : TcpInfo) :
    OrderedConn :=
  let pos := s.pos + (tcpGetPayloadSize pkt).toNat
  let fin := s.fin || tcpIsSetFin pkt.tcp
  { ti := ti, pos := pos, fin := fin
    written := s.written ++ List.range' s.pos (ti.stored.length - s.ti.stored.length)
    acked := s.acked ++
      ackPositions peer.base (pos + fin.toNat) (ti.sent.drop s.ti.sent.length) }

/-- The next segment in order arrives (after its FIN the peer sends no more
payload), or the application reads. The connection is established. -/
def orderedStep (peer : TcpPeer) (s : OrderedConn) : TcpAct → Option OrderedConn
  | .deliver off pkt ok =>
      if s.ti.state = .estab ∧ off = s.next ∧ SegmentAt peer off pkt ∧
          (s.fin → tcpGetPayloadSize pkt = 0 ∧ ¬ tcpIsSetFin pkt.tcp) then
        (tcpHandlePacket ok s.ti pkt).map (s.received peer pkt)
      else none
  | .read len => (tcpSockRead s.ti len).map fun r => { s with ti := r.1 }

/-- Every payload byte before an acknowledgement sent, or before
`ti_next_ack`, was written to the ring. -/
def AckedKept (peer : TcpPeer) (s : OrderedConn) : Prop :=
  (∀ c ∈ s.acked, ∀ i, i < c → i < s.pos → i ∈ s.written) ∧
  ∀ i, i < ackPosition peer.base s.next s.ti.nextAck → i < s.pos → i ∈ s.written

/-- A payload comes with an acknowledgement number the connection takes, and
unless the segment resets the connection, it has the ACK flag and fits. -/
def TcpKeepable (s : OrderedConn) : TcpAct → Prop
  | .deliver _ pkt _ =>
      0 < (tcpGetPayloadSize pkt).toInt →
        (tcpIsSetAck pkt.tcp → s.ti.unack < pkt.tcp.ack) ∧
        (¬ tcpIsSetRst pkt.tcp → tcpIsSetAck pkt.tcp ∧ TcpHasRoom s.ti pkt)
  | .read _ => True

/-- The invariant: while the connection is established everything the peer
sent is written, and `ti_next_ack` is the next byte. -/
structure OrderedInv (peer : TcpPeer) (s : OrderedConn) : Prop where
  ring : TcpRingWf s.ti.rb
  kept : AckedKept peer s
  acked_le : ∀ c ∈ s.acked, c ≤ s.next
  estab : s.ti.state = .estab → (∀ i < s.pos, i ∈ s.written) ∧
    (s.fin = false → s.ti.nextAck = peer.base + BitVec.ofNat 32 s.pos)

theorem ackPositions_le {base : BitVec 32} {next : Nat} {sent : List SentSegment} :
    ∀ c ∈ ackPositions base next sent, c ≤ next := by
  intro c hc
  obtain ⟨p, -, rfl⟩ := List.mem_map.mp hc
  exact Nat.sub_le _ _

/-- Where everything sent is written, every acknowledgement is kept. -/
theorem AckedKept.of_all {peer : TcpPeer} {s : OrderedConn} (h : ∀ i < s.pos, i ∈ s.written) :
    AckedKept peer s :=
  ⟨fun _ _ i _ hi => h i hi, fun i _ hi => h i hi⟩

/-- `n` sequence numbers before the next one. -/
theorem ackPosition_back (base : BitVec 32) (pos n : Nat) (hn : n < 2 ^ 32) :
    ackPosition base (pos + n) (base + BitVec.ofNat 32 pos) = pos := by
  have hsub : base + BitVec.ofNat 32 (pos + n) - (base + BitVec.ofNat 32 pos) =
      BitVec.ofNat 32 n := by
    rw [BitVec.ofNat_add]
    bv_omega
  rw [ackPosition, hsub, BitVec.toNat_ofNat, Nat.mod_eq_of_lt hn]
  omega

theorem tcpCondAck_nextAck (ok : Bool) (ti : TcpInfo) (pkt : TcpPacket) :
    (tcpCondAck ok ti pkt).nextAck = ti.nextAck := by
  have hack : (tcpAckPacket ok ti pkt).nextAck = ti.nextAck := by
    cases ok <;> rfl
  unfold tcpCondAck
  split
  · exact hack
  · split
    · exact hack
    · rfl

/-- A segment without payload and FIN does not move `ti_next_ack`. -/
theorem tcpHandlePacket_nextAck_empty {ok : Nat → Bool} {ti ti' : TcpInfo} {pkt : TcpPacket}
    (hstate : ti.state = .estab) (hsyn : ¬ tcpIsSetSyn pkt.tcp)
    (hempty : ¬ 0 < (tcpGetPayloadSize pkt).toInt) (hfin : ¬ tcpIsSetFin pkt.tcp)
    (h : tcpHandlePacket ok ti pkt = some ti') : ti'.nextAck = ti.nextAck := by
  have hackd := (tcpAckReceived_frame ti pkt).2.2.1
  obtain ⟨-, rfl⟩ | ⟨-, ⟨-, rfl⟩ | ⟨-, ti₁, h₁, rfl⟩⟩ :=
    tcpHandlePacket_estab_cases hstate hsyn h
  · exact tcpCondAck_nextAck (ok 0) ti pkt
  · exact hackd
  · rw [if_neg fun hp => hempty hp.2] at h₁
    rw [if_neg hfin, ← Option.some.inj h₁]
    exact hackd

/-- A segment at `ti_next_ack` with a payload the connection can keep: it
resets the connection, or its payload is stored. -/
theorem tcpHandlePacket_payload {peer : TcpPeer} {off : Nat} {ok : Nat → Bool}
    {ti ti' : TcpInfo} {pkt : TcpPacket} (hstate : ti.state = .estab)
    (hseg : SegmentAt peer off pkt) (hseq : ti.nextAck = pkt.tcp.seq) (hwf : TcpRingWf ti.rb)
    (hpos : 0 < (tcpGetPayloadSize pkt).toInt)
    (hun : tcpIsSetAck pkt.tcp → ti.unack < pkt.tcp.ack)
    (hkeep : ¬ tcpIsSetRst pkt.tcp → tcpIsSetAck pkt.tcp ∧ TcpHasRoom ti pkt)
    (h : tcpHandlePacket ok ti pkt = some ti') :
    (ti' = tcpDoFail (tcpAckReceived ti pkt) econnreset) ∨
    (ti'.stored = ti.stored ++ tcpPayload pkt ∧ TcpRingWf ti'.rb ∧
      (¬ tcpIsSetFin pkt.tcp → ti'.nextAck = ti.nextAck + tcpGetPayloadSize pkt)) := by
  obtain ⟨hrb, hst, hnext, -⟩ := tcpAckReceived_frame ti pkt
  obtain ⟨hdrop, -⟩ | ⟨-, ⟨-, rfl⟩ | ⟨hrst, ti₁, h₁, rfl⟩⟩ :=
    tcpHandlePacket_estab_cases hstate hseg.2.1 h
  · -- neither check fails: the sequence number is the one expected
    rcases hdrop with hd | ⟨ha, hd⟩
    · exact absurd (hseq ▸ BitVec.le_refl _) hd
    · exact absurd (hun ha) hd
  · exact .inl rfl
  · obtain ⟨hack, hroom⟩ := hkeep hrst
    rw [if_pos ⟨hack, hpos⟩] at h₁
    obtain ⟨n, hw, hst₁, hna₁, -, -⟩ := tcpReceivePayload_room
      (by rw [TcpHasRoom, hrb]; exact hroom) h₁
    obtain ⟨rb, hw', hwf', -⟩ := ringBufferWrite_of_room hseg hwf hroom
    rw [hrb, hw', Option.some.injEq, Prod.mk.injEq] at hw
    obtain ⟨rfl, rfl⟩ := hw
    rw [← (tcpPayload_eq hseg).2, List.take_length, hst] at hst₁
    rw [hnext] at hna₁
    right
    split
    · rename_i hfin
      obtain ⟨hrb', hst'⟩ := tcpReceiveFin_sameRing ok ti₁
      exact ⟨hst'.trans hst₁, hrb' ▸ hwf', fun hn => absurd hfin hn⟩
    · exact ⟨hst₁, hwf', fun _ => hna₁⟩

theorem received_next (peer : TcpPeer) (s : OrderedConn) (pkt : TcpPacket) (ti : TcpInfo) :
    s.next + (tcpGetPayloadSize pkt).toNat ≤ (s.received peer pkt ti).next := by
  have : s.fin.toNat ≤ (s.fin || tcpIsSetFin pkt.tcp).toNat := by
    cases s.fin <;> cases tcpIsSetFin pkt.tcp <;> decide
  simp only [OrderedConn.received, OrderedConn.next]
  omega

theorem received_acked_le {peer : TcpPeer} {s : OrderedConn} (pkt : TcpPacket) (ti : TcpInfo)
    (h : ∀ c ∈ s.acked, c ≤ s.next) :
    ∀ c ∈ (s.received peer pkt ti).acked, c ≤ (s.received peer pkt ti).next := by
  intro c hc
  rcases List.mem_append.mp hc with hc | hc
  · have := h c hc
    have := received_next peer s pkt ti
    omega
  · exact ackPositions_le c hc

/-- The invariant after a segment all of whose payload was written. -/
theorem received_inv_of_written {peer : TcpPeer} {s : OrderedConn} {pkt : TcpPacket}
    {ti : TcpInfo} (hinv : OrderedInv peer s) (hall : ∀ i < s.pos, i ∈ s.written)
    (hring : TcpRingWf ti.rb)
    (hst : s.ti.stored.length + (tcpGetPayloadSize pkt).toNat ≤ ti.stored.length)
    (hnext : (s.received peer pkt ti).fin = false →
      ti.nextAck = peer.base + BitVec.ofNat 32 (s.received peer pkt ti).pos) :
    OrderedInv peer (s.received peer pkt ti) := by
  have hwritten : ∀ i < (s.received peer pkt ti).pos, i ∈ (s.received peer pkt ti).written := by
    intro i hi
    by_cases hold : i < s.pos
    · exact List.mem_append_left _ (hall i hold)
    · refine List.mem_append_right _ (List.mem_range'_1.mpr ⟨Nat.le_of_not_lt hold, ?_⟩)
      have hi' : i < s.pos + (tcpGetPayloadSize pkt).toNat := hi
      omega
  exact ⟨hring, AckedKept.of_all hwritten, received_acked_le pkt ti hinv.acked_le,
    fun _ => ⟨hwritten, hnext⟩⟩

/-- The invariant after a segment that resets the connection: it is not
acknowledged, and nothing moves. -/
theorem received_inv_of_reset {peer : TcpPeer} {s : OrderedConn} {pkt : TcpPacket}
    (hinv : OrderedInv peer s) (hseg : SegmentAt peer s.next pkt)
    (hstate : s.ti.state = .estab) (hfin : s.fin = false) :
    OrderedInv peer (s.received peer pkt (tcpDoFail (tcpAckReceived s.ti pkt) econnreset)) := by
  obtain ⟨hrb, hst, hna, hsent, -⟩ := tcpAckReceived_frame s.ti pkt
  obtain ⟨hall, hnext⟩ := hinv.estab hstate
  have hsmall := (tcpGetPayloadSize_toInt hseg).2
  refine ⟨hrb ▸ hinv.ring, ⟨?_, ?_⟩, received_acked_le pkt _ hinv.acked_le, ?_⟩
  · -- no segment was sent, and the earlier acknowledgements end at `pos`
    intro c hc i hic _
    have hnone : (tcpDoFail (tcpAckReceived s.ti pkt) econnreset).sent.drop
        s.ti.sent.length = [] := by
      show (tcpAckReceived s.ti pkt).sent.drop s.ti.sent.length = []
      rw [hsent, List.drop_length]
    simp only [OrderedConn.received, hnone, ackPositions, List.filter_nil, List.map_nil,
      List.append_nil] at hc
    have hcle := hinv.acked_le c hc
    rw [OrderedConn.next, hfin, Bool.toNat_false] at hcle
    exact List.mem_append_left _ (hall i (by omega))
  · intro i hi _
    have hback : ackPosition peer.base
        (s.received peer pkt (tcpDoFail (tcpAckReceived s.ti pkt) econnreset)).next
        (tcpDoFail (tcpAckReceived s.ti pkt) econnreset).nextAck = s.pos := by
      have hbit : (s.fin || tcpIsSetFin pkt.tcp).toNat ≤ 1 := Bool.toNat_le _
      simp only [OrderedConn.received, OrderedConn.next, tcpDoFail, hna, hnext hfin,
        Nat.add_assoc]
      exact ackPosition_back peer.base s.pos _ (by omega)
    have hlt : i < s.pos := hback ▸ hi
    exact List.mem_append_left _ (hall i hlt)
  · intro hclosed
    exact absurd hclosed (by simp [OrderedConn.received, tcpDoFail])

/-- A handler call keeps the ring well formed and never takes bytes out of its
history. -/
theorem tcpHandlePacket_ringWf {peer : TcpPeer} {off : Nat} {ok : Nat → Bool}
    {ti ti' : TcpInfo} {pkt : TcpPacket} (hseg : SegmentAt peer off pkt)
    (hwf : TcpRingWf ti.rb) (h : tcpHandlePacket ok ti pkt = some ti') :
    TcpRingWf ti'.rb ∧ ti.stored.length ≤ ti'.stored.length := by
  obtain ⟨hrb, hst⟩ | ⟨-, hroom, n, hw, hst⟩ := tcpHandlePacket_ring hseg.2.1 h
  · exact ⟨hrb ▸ hwf, by rw [hst]⟩
  · obtain ⟨rb, hw', hwf', -⟩ := ringBufferWrite_of_room hseg hwf hroom
    rw [hw', Option.some.injEq, Prod.mk.injEq] at hw
    exact ⟨hw.1 ▸ hwf', by rw [hst, List.length_append]; omega⟩

/-- One step keeps the invariant. -/
theorem orderedStep_inv {peer : TcpPeer} {s s' : OrderedConn} {a : TcpAct}
    (hinv : OrderedInv peer s) (hkeep : TcpKeepable s a) (h : orderedStep peer s a = some s') :
    OrderedInv peer s' := by
  cases a with
  | read len =>
      obtain ⟨⟨ti, out⟩, hr, rfl⟩ := Option.map_eq_some_iff.mp h
      obtain ⟨hwf, -, hti⟩ := tcpSockRead_some hinv.ring hr
      have hnext : ti.nextAck = s.ti.nextAck := by rw [hti]
      have hstate : ti.state = s.ti.state := by rw [hti]
      refine ⟨hwf, ⟨hinv.kept.1, ?_⟩, hinv.acked_le, ?_⟩
      · show ∀ i, i < ackPosition peer.base s.next ti.nextAck → i < s.pos → i ∈ s.written
        rw [hnext]
        exact hinv.kept.2
      · show ti.state = .estab → (∀ i < s.pos, i ∈ s.written) ∧
          (s.fin = false → ti.nextAck = peer.base + BitVec.ofNat 32 s.pos)
        rw [hstate, hnext]
        exact hinv.estab
  | deliver off pkt ok =>
      simp only [orderedStep] at h
      split at h
      case isFalse => exact absurd h (by simp)
      rename_i hguard
      obtain ⟨hstate, rfl, hseg, hafter⟩ := hguard
      obtain ⟨ti, hti, rfl⟩ := Option.map_eq_some_iff.mp h
      obtain ⟨hall, hnext⟩ := hinv.estab hstate
      have hint := (tcpGetPayloadSize_toInt hseg).1
      by_cases hpos : 0 < (tcpGetPayloadSize pkt).toInt
      · -- a payload: the peer has sent no FIN yet, and the segment is the one expected
        have hfin : s.fin = false := by
          by_contra hf
          rw [(hafter (by simpa using hf)).1] at hpos
          exact absurd hpos (by decide)
        have hseq : s.ti.nextAck = pkt.tcp.seq := by
          rw [hnext hfin, hseg.1, OrderedConn.next, hfin]
          rfl
        obtain ⟨hun, hroom⟩ := hkeep hpos
        obtain rfl | ⟨hst, hwf, hna⟩ :=
          tcpHandlePacket_payload hstate hseg hseq hinv.ring hpos hun hroom hti
        · exact received_inv_of_reset hinv hseg hstate hfin
        · refine received_inv_of_written hinv hall hwf ?_ ?_
          · rw [hst, List.length_append, (tcpPayload_eq hseg).2]
          · intro hf
            have hnofin : ¬ tcpIsSetFin pkt.tcp := by
              simp only [OrderedConn.received, hfin, Bool.false_or] at hf
              simp [hf]
            simp only [OrderedConn.received]
            rw [hna hnofin, hnext hfin, BitVec.ofNat_add, BitVec.ofNat_toNat,
              BitVec.setWidth_eq, BitVec.add_assoc]
      · -- no payload: nothing is written, and nothing was sent to be written
        have hzero : (tcpGetPayloadSize pkt).toNat = 0 := by omega
        obtain ⟨hwf, hst⟩ := tcpHandlePacket_ringWf hseg hinv.ring hti
        refine received_inv_of_written hinv hall hwf (by omega) ?_
        intro hf
        simp only [OrderedConn.received, Bool.or_eq_false_iff] at hf
        simp only [OrderedConn.received, hzero, Nat.add_zero]
        rw [tcpHandlePacket_nextAck_empty hstate hseg.2.1 hpos (by simp [hf.2]) hti,
          hnext hf.1]

/-- **Only what is kept is acknowledged, if it fits.** With segments in order
and reads in between: along every run in which each payload carries an
acceptable acknowledgement number and fits into the ring when it arrives (or
resets the connection), every payload byte covered by an acknowledgement sent
or by `ti_next_ack` has been written to the ring. -/
theorem tcp_acked_kept_of_room (peer : TcpPeer) (ti₀ : TcpInfo) (acts : List TcpAct)
    (s : OrderedConn) (hinit : TcpEstablished peer ti₀)
    (hmeet : StepsMeet (orderedStep peer) TcpKeepable ⟨ti₀, 0, false, [], []⟩ acts)
    (hrun : runSteps (orderedStep peer) ⟨ti₀, 0, false, [], []⟩ acts = some s) :
    AckedKept peer s := by
  have h₀ : OrderedInv peer ⟨ti₀, 0, false, [], []⟩ := by
    refine ⟨hinit.ring.1, AckedKept.of_all (fun i hi => absurd hi (Nat.not_lt_zero i)), ?_, ?_⟩
    · exact fun c hc => absurd hc List.not_mem_nil
    · refine fun _ => ⟨fun i hi => absurd hi (Nat.not_lt_zero i), fun _ => ?_⟩
      rw [show ti₀.nextAck = peer.base from hinit.2.1]
      simp
  exact (runSteps_invariant_of_meet (fun _ _ _ hs hk h => orderedStep_inv hs hk h)
    h₀ hmeet hrun).kept

/-- `"ab"` in one segment, and a read of its first byte. -/
theorem tcp_acked_kept_of_room_ab :
    ∃ s, runSteps (orderedStep abPeer) ⟨freshConnection abPeer, 0, false, [], []⟩
        [.deliver 0 (peerSegment abPeer 0 2 1) (fun _ => true), .read 1] = some s ∧
      s.acked = [2] ∧ AckedKept abPeer s := by
  have hrun : ((runSteps (orderedStep abPeer) ⟨freshConnection abPeer, 0, false, [], []⟩
      [.deliver 0 (peerSegment abPeer 0 2 1) (fun _ => true), .read 1]).map (·.acked)) =
        some [2] := rfl
  obtain ⟨s, hs, hacked⟩ := Option.map_eq_some_iff.mp hrun
  refine ⟨s, hs, hacked, tcp_acked_kept_of_room abPeer _ _ s
    (freshConnection_established abPeer) ?_ hs⟩
  refine ⟨fun _ => ⟨fun _ => ?_, fun _ => ⟨rfl, ?_⟩⟩, fun _ _ => ⟨trivial, fun _ _ => trivial⟩⟩
  · decide
  · show (0 : Int) + 2 < 16384
    decide

/-! ## A reader that does not keep up -/

/-- Data offset 5, and of the flags ACK alone. -/
theorem peerSegment_flags (peer : TcpPeer) (off len : Nat) (ack : BitVec 32) :
    tcpGetDoff (peerSegment peer off len ack).tcp = 5 ∧
    tcpIsSetAck (peerSegment peer off len ack).tcp = true ∧
    tcpIsSetRst (peerSegment peer off len ack).tcp = false ∧
    tcpIsSetSyn (peerSegment peer off len ack).tcp = false ∧
    tcpIsSetFin (peerSegment peer off len ack).tcp = false := by
  simp [peerSegment, tcpGetDoff, tcpIsSetAck, tcpIsSetRst, tcpIsSetSyn, tcpIsSetFin, tcpIsSet,
    tcpGetFlags, tcpFlagsAck, tcpFlagsRst, tcpFlagsSyn, tcpFlagsFin]

theorem tcpGetPayload_peerSegment (peer : TcpPeer) (off len : Nat) (ack : BitVec 32) :
    tcpGetPayload (peerSegment peer off len ack) = (peer.stream.drop off).take len := by
  have hdoff : (tcpGetDoff (peerSegment peer off len ack).tcp).toNat * 4 =
      (tcpHeaderBytes (peerSegment peer off len ack).tcp).length := by
    rw [(peerSegment_flags peer off len ack).1]
    rfl
  rw [tcpGetPayload, hdoff, List.drop_left]
  rfl

/-- A plain data segment that passes the checks goes straight to the payload
branch. -/
theorem tcpHandlePacket_data {pkt : TcpPacket} {ti : TcpInfo} (ok : Nat → Bool)
    (hacc : TcpAccepts ti pkt) (hfin : tcpIsSetFin pkt.tcp = false) :
    tcpHandlePacket ok ti pkt = tcpReceivePayload (ok 0) (tcpAckReceived ti pkt) pkt := by
  obtain ⟨hstate, hseq, hack, hun, hrst, hsyn, hpos⟩ := hacc
  have hestab : (tcpCancelRetransmission { ti with unack := pkt.tcp.ack - 1 }).state = .estab :=
    hstate
  rw [tcpHandlePacket, if_neg (not_not_intro hseq), if_pos hack, if_neg (not_not_intro hun),
    tcpAckReceived, if_pos hack, tcpDispatch, if_neg hrst, hestab]
  simp only [tcpHandlePacketEstab, hsyn, hack, hfin, hpos, Bool.false_eq_true, and_false,
    and_self, if_false, if_true, Option.map_id']

/-- A peer with twelve full segments to say. -/
def longPeer : TcpPeer := ⟨1000, List.replicate (12 * 1460) 0⟩

/-- Its `k`-th segment, of 1460 bytes. -/
def longSegment (k : Nat) : TcpPacket := peerSegment longPeer (1460 * k) 1460 1

theorem longSegment_size (k : Nat) : tcpGetPayloadSize (longSegment k) = 1460 := by
  rw [tcpGetPayloadSize, longSegment, (peerSegment_flags _ _ _ _).1]
  show (BitVec.ofNat 16 1500).zeroExtend 32 - 20 - (5 : BitVec 8).zeroExtend 32 * 4 = 1460
  decide

theorem longSegment_at {k : Nat} (hk : k < 12) :
    SegmentAt longPeer (1460 * k) (longSegment k) := by
  obtain ⟨hdoff, -, -, hsyn, -⟩ := peerSegment_flags longPeer (1460 * k) 1460 1
  rw [← longSegment] at hdoff hsyn
  refine ⟨rfl, by rw [hsyn]; decide, by rw [hdoff]; decide, ?_, ?_, ?_⟩
  · rw [hdoff]
    show 20 + 5 * 4 ≤ 1500
    decide
  · rw [longSegment_size]
    simp only [longPeer, List.length_drop, List.length_replicate]
    show 1460 ≤ _
    omega
  · rw [longSegment, tcpGetPayload_peerSegment, ← longSegment, longSegment_size, List.take_take]
    rfl

/-- The first `k` segments have arrived and nobody has read. -/
structure Unread (k : Nat) (s : OrderedConn) : Prop where
  state : s.ti.state = .estab
  nextAck : s.ti.nextAck = longPeer.base + BitVec.ofNat 32 (1460 * k)
  unack : s.ti.unack = 0
  ring : TcpRingWf s.ti.rb
  size : s.ti.rb.size = 1460 * k
  pos : s.pos = 1460 * k
  fin : s.fin = false
  written : ∀ i ∈ s.written, i < 1460 * k

theorem Unread.accepts {k : Nat} {s : OrderedConn} (h : Unread k s) :
    TcpAccepts s.ti (longSegment k) := by
  obtain ⟨-, hack, hrst, hsyn, -⟩ := peerSegment_flags longPeer (1460 * k) 1460 1
  refine ⟨h.state, ?_, hack, ?_, by rw [longSegment, hrst]; decide,
    by rw [longSegment, hsyn]; decide, by rw [longSegment_size]; decide⟩
  · rw [h.nextAck]
    exact BitVec.le_refl _
  · rw [h.unack]
    show (0 : BitVec 32) < 1
    decide

/-- The next segment arrives: the handler call the step makes. -/
theorem Unread.deliver {k : Nat} {s : OrderedConn} (h : Unread k s) (hk : k < 12) :
    orderedStep longPeer s (.deliver (1460 * k) (longSegment k) fun _ => true) =
      (tcpReceivePayload true (tcpAckReceived s.ti (longSegment k)) (longSegment k)).map
        (s.received longPeer (longSegment k)) := by
  have hnext : 1460 * k = s.next := by
    rw [OrderedConn.next, h.pos, h.fin]
    rfl
  have hfin : s.fin → tcpGetPayloadSize (longSegment k) = 0 ∧
      ¬ tcpIsSetFin (longSegment k).tcp := by
    intro hf
    rw [h.fin] at hf
    exact absurd hf Bool.false_ne_true
  simp only [orderedStep]
  rw [if_pos ⟨h.state, hnext, longSegment_at hk, hfin⟩,
    tcpHandlePacket_data (fun _ => true) h.accepts (peerSegment_flags _ _ _ _).2.2.2.2]

/-- The space check on the next segment. -/
theorem Unread.room {k : Nat} {s : OrderedConn} (h : Unread k s) :
    TcpHasRoom (tcpAckReceived s.ti (longSegment k)) (longSegment k) ↔ k < 11 := by
  have hsize : (1460 : BitVec 32).toInt = 1460 := by decide
  rw [TcpHasRoom, (tcpAckReceived_frame s.ti _).1, ringBufferSize, h.size, longSegment_size,
    hsize, tcpBufferSize]
  omega

theorem longSegment_nextAck (k : Nat) :
    longPeer.base + BitVec.ofNat 32 (1460 * k) + 1460 =
      longPeer.base + BitVec.ofNat 32 (1460 * (k + 1)) := by
  rw [Nat.mul_succ, BitVec.ofNat_add, BitVec.add_assoc]
  rfl

/-- While there is room, another segment is stored. -/
theorem Unread.step {k : Nat} {s : OrderedConn} (h : Unread k s) (hk : k < 11) :
    ∃ s', orderedStep longPeer s (.deliver (1460 * k) (longSegment k) fun _ => true) =
      some s' ∧ Unread (k + 1) s' := by
  obtain ⟨hrb, hst, hna, -, hstate⟩ := tcpAckReceived_frame s.ti (longSegment k)
  have hseg := longSegment_at (show k < 12 by omega)
  have hroom := h.room.mpr hk
  obtain ⟨rb, hw, hwf, hcon⟩ := ringBufferWrite_of_room hseg (hrb ▸ h.ring) hroom
  have hlen := (tcpPayload_eq hseg).2
  have hn : (tcpGetPayloadSize (longSegment k)).toNat = 1460 := by
    rw [longSegment_size]
    decide
  have hpay : ∃ ti, tcpReceivePayload true (tcpAckReceived s.ti (longSegment k))
      (longSegment k) = some ti := by
    rw [TcpHasRoom] at hroom
    rw [tcpPayload] at hw
    simp only [tcpReceivePayload, if_pos hroom, hw]
    exact ⟨_, rfl⟩
  obtain ⟨ti, hti⟩ := hpay
  refine ⟨s.received longPeer (longSegment k) ti, ?_, ?_⟩
  · rw [h.deliver (by omega), hti]
    rfl
  · obtain ⟨n, hw', hst', hna', hstate', hun'⟩ := tcpReceivePayload_room hroom hti
    rw [hw, Option.some.injEq, Prod.mk.injEq] at hw'
    obtain ⟨rfl, rfl⟩ := hw'
    rw [hst, ← hlen, List.take_length] at hst'
    rw [hna, h.nextAck, longSegment_size, longSegment_nextAck] at hna'
    have hack : tcpIsSetAck (longSegment k).tcp = true := (peerSegment_flags _ _ _ _).2.1
    rw [hstate, h.state] at hstate'
    rw [tcpAckReceived, if_pos hack] at hun'
    refine ⟨hstate', hna', hun'.trans ?_, hwf, ?_, ?_, ?_, ?_⟩
    · show (1 : BitVec 32) - 1 = 0
      decide
    · have hsize := congrArg List.length hcon
      rw [List.length_append, ringContents_length, ringContents_length, hrb, h.size, hlen,
        hn] at hsize
      rw [Nat.mul_succ]
      exact hsize
    · show s.pos + (tcpGetPayloadSize (longSegment k)).toNat = _
      rw [h.pos, hn, Nat.mul_succ]
    · show (s.fin || tcpIsSetFin (longSegment k).tcp) = false
      rw [h.fin, longSegment, (peerSegment_flags _ _ _ _).2.2.2.2]
      rfl
    · intro i hi
      rcases List.mem_append.mp hi with hi | hi
      · have := h.written i hi
        omega
      · have hlast := (List.mem_range'_1.mp hi).2
        rw [hst', List.length_append, h.pos, hlen, hn] at hlast
        omega

/-- The twelfth segment finds no room: it is dropped, and `ti_next_ack` and
the acknowledgement move past it. -/
theorem Unread.full {s : OrderedConn} (h : Unread 11 s) :
    ∃ s', orderedStep longPeer s (.deliver (1460 * 11) (longSegment 11) fun _ => true) =
      some s' ∧ ¬ AckedKept longPeer s' := by
  obtain ⟨-, hst, hna, -⟩ := tcpAckReceived_frame s.ti (longSegment 11)
  have hfull : ¬ TcpHasRoom (tcpAckReceived s.ti (longSegment 11)) (longSegment 11) :=
    fun hroom => absurd (h.room.mp hroom) (by decide)
  have hpay : ∃ ti, tcpReceivePayload true (tcpAckReceived s.ti (longSegment 11))
      (longSegment 11) = some ti := by
    rw [TcpHasRoom] at hfull
    simp only [tcpReceivePayload, if_neg hfull]
    exact ⟨_, rfl⟩
  obtain ⟨ti, hti⟩ := hpay
  refine ⟨s.received longPeer (longSegment 11) ti, ?_, ?_⟩
  · rw [h.deliver (by decide), hti]
    rfl
  · obtain ⟨⟨-, hst'⟩, hna'⟩ := tcpReceivePayload_full hfull hti
    have hnext : (s.received longPeer (longSegment 11) ti).next = 17520 := by
      show s.pos + (tcpGetPayloadSize (longSegment 11)).toNat +
        (s.fin || tcpIsSetFin (longSegment 11).tcp).toNat = 17520
      rw [h.pos, h.fin, longSegment_size, longSegment, (peerSegment_flags _ _ _ _).2.2.2.2]
      rfl
    have hack : ti.nextAck = longPeer.base + BitVec.ofNat 32 17520 := by
      rw [hna', hna, h.nextAck, longSegment_size, longSegment_nextAck]
    have hstored : ti.stored.length - s.ti.stored.length = 0 := by
      rw [hst', hst, Nat.sub_self]
    -- position 16060 is the first byte that was dropped
    intro hkept
    have hmem : 16060 ∈ (s.received longPeer (longSegment 11) ti).written := by
      refine hkept.2 16060 ?_ ?_
      · rw [hnext]
        show 16060 < ackPosition longPeer.base 17520 ti.nextAck
        rw [hack, show 17520 = 17520 + 0 from rfl, ackPosition_back _ _ _ (by decide)]
        decide
      · show 16060 < s.pos + (tcpGetPayloadSize (longSegment 11)).toNat
        rw [h.pos, longSegment_size]
        decide
    have hold : 16060 ∈ s.written := by
      rcases List.mem_append.mp hmem with hm | hm
      · exact hm
      · rw [hstored] at hm
        exact absurd hm (by simp)
    exact absurd (h.written 16060 hold) (by decide)

theorem Unread.run : ∀ (m : Nat) {k : Nat} {s : OrderedConn}, k + m = 11 → Unread k s →
    ∃ s', runSteps (orderedStep longPeer) s ((List.range' k (m + 1)).map fun k =>
        .deliver (1460 * k) (longSegment k) fun _ => true) = some s' ∧
      ¬ AckedKept longPeer s'
  | 0, k, s, hk, h => by
      obtain rfl : k = 11 := by omega
      obtain ⟨s', hs', hbad⟩ := h.full
      exact ⟨s', by simp [runSteps, hs'], hbad⟩
  | m + 1, k, s, hk, h => by
      obtain ⟨s₁, hs₁, h₁⟩ := h.step (by omega)
      obtain ⟨s', hs', hbad⟩ := Unread.run m (show k + 1 + m = 11 by omega) h₁
      refine ⟨s', ?_, hbad⟩
      rw [List.range'_succ, List.map_cons, runSteps, hs₁]
      exact hs'

/-- Twelve segments of 1460 bytes in order to an application that does not
read: the ring takes eleven, and the twelfth is acknowledged without having
been written. -/
theorem tcp_full_ring_acked :
    TcpEstablished longPeer (freshConnection longPeer) ∧
    ∃ s, runSteps (orderedStep longPeer) ⟨freshConnection longPeer, 0, false, [], []⟩
        ((List.range' 0 12).map fun k =>
          .deliver (1460 * k) (longSegment k) fun _ => true) = some s ∧
      ¬ AckedKept longPeer s := by
  have hinit := freshConnection_established longPeer
  refine ⟨hinit, Unread.run 11 (show 0 + 11 = 11 from rfl) ?_⟩
  exact ⟨rfl, rfl, rfl, hinit.ring.1, rfl, rfl, rfl, fun i hi => absurd hi List.not_mem_nil⟩

end Levos.Net
