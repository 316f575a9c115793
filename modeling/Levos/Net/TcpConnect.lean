import Levos.Net.Demux
import Levos.Net.Tcp
import Levos.Net.TcpSock

/-!
# The result of a connect (`net/tcp.c`)

`tcp_conn_start` puts a connection into the table, sends its SYN and waits in a
loop, while segments come in and the retransmission of the SYN may give up.
Here the wait is a run: segments, timeouts, and the steps of the connecting
task, in any order.

The table is the one of `tcp_find_info`; segments and timeouts that find
another connection do nothing to this one. `reached` records whether the
connection has been established.
-/

namespace Levos.Net

open Levos.Base Levos.Lib

/-! ## The call and what happens meanwhile -/

def etimedout : Int := -110

/-- Where `tcp_conn_start` is: before its SYN, in the loop, behind the loop, or
back at its caller. -/
inductive ConnectPhase : Type where
  | created
  | waiting
  | leaving
  | returned (rc : Int)
deriving DecidableEq, Repr

/-- The connection that `tcp_conn_start` makes; `ti` means nothing where there
was no memory for it. -/
structure Connecting where
  table : HashTable SockEntry
  entry : SockEntry
  ti : TcpInfo
  phase : ConnectPhase
  reached : Bool

/-- The fields `tcp_conn_start` sets; `ti_fail_code` is not among them. -/
def tcpConnSetup (ti : TcpInfo) (rbMem : Option (List UInt8)) : TcpInfo :=
  { ti with
    rb := ringBufferSetFlags (ringBufferInit ti.rb rbMem tcpBufferSize) rbFlagNonblock
    nextAck := 0
    nextSeq := 0
    state := .closed
    unack := 0
    retransmitWork := false }

/-- `tcp_conn_start` as far as the insertion. `ti` is what the memory held. -/
def tcpConnBegin (table : HashTable SockEntry) (srcPort : BitVec 16) (mem : Option Nat)
    (rehashOk : Bool) (ti : TcpInfo) (rbMem : Option (List UInt8)) : Connecting :=
  match mem with
  | none => { table, entry := ⟨0, srcPort⟩, ti, phase := .returned enomem, reached := false }
  | some p =>
      let entry : SockEntry := ⟨p, srcPort⟩
      if (tcpFindInfo table srcPort).isSome then
        { table, entry, ti, phase := .returned eaddrinuse, reached := false }
      else
        { table := (hashInsert rehashOk table entry).2, entry, ti := tcpConnSetup ti rbMem,
          phase := .created, reached := false }

/-- `tcp_send_packet` of the SYN; `workOk` says whether there is memory for its
retransmission. -/
def tcpSendSyn (workOk : Bool) (ti : TcpInfo) : TcpInfo :=
  tcpSendPacket { ti with state := .synSent, retransmitWork := workOk } 0 tcpFlagsSyn

def tcpNotifyRetransmitFailed (ti : TcpInfo) : TcpInfo :=
  { ti with retransmitWork := false, failCode := etimedout, state := .closed }

/-- `ok` is the memory of `tcp_handle_packet`, `packetOk` and `workOk` are that
of the connecting task. -/
inductive ConnectEvent : Type where
  | segment (ok : Nat → Bool) (pkt : TcpPacket)
  | timeout (srcPort : BitVec 16)
  | task (packetOk workOk : Bool)

def Connecting.setInfo (st : Connecting) (ti : TcpInfo) : Connecting :=
  { st with ti, reached := st.reached || ti.state = .estab }

@[simp] theorem Connecting.setInfo_ti (st : Connecting) (ti : TcpInfo) :
    (st.setInfo ti).ti = ti := rfl

@[simp] theorem Connecting.setInfo_phase (st : Connecting) (ti : TcpInfo) :
    (st.setInfo ti).phase = st.phase := rfl

@[simp] theorem Connecting.setInfo_reached (st : Connecting) (ti : TcpInfo) :
    (st.setInfo ti).reached = (st.reached || decide (ti.state = .estab)) := rfl

/-- The next step of the connecting task. -/
def connectTask (st : Connecting) (packetOk workOk : Bool) : Option Connecting :=
  match st.phase with
  | .created =>
      -- the connection is freed here, and stays in the table
      if !packetOk then some { st with phase := .returned enomem }
      else some { st with ti := tcpSendSyn workOk st.ti, phase := .waiting }
  | .waiting =>
      if st.ti.state ≠ .estab ∧ st.ti.state ≠ .closed then some st
      else some { st with phase := .leaving }
  | .leaving =>
      some { st with phase := .returned (if st.ti.state = .closed then st.ti.failCode else 0) }
  | .returned _ => none

def ConnectPhase.isReturned : ConnectPhase → Bool
  | .returned _ => true
  | _ => false

/-- What a run of `tcp_conn_start` is made of; it ends when the call returns. -/
def connectStep (st : Connecting) (ev : ConnectEvent) : Option Connecting :=
  if st.phase.isReturned then none
  else
    match ev with
    | .segment ok pkt =>
        if tcpFindInfo st.table pkt.tcp.dstPort = some st.entry then
          (tcpHandlePacket ok st.ti pkt).map st.setInfo
        else some st
    | .timeout srcPort =>
        if tcpFindInfo st.table srcPort = some st.entry then
          some (st.setInfo (tcpNotifyRetransmitFailed st.ti))
        else some st
    | .task packetOk workOk => connectTask st packetOk workOk

/-! ## What is said of the result -/

/-- No entry has the port. -/
def PortUnused (table : HashTable SockEntry) (port : BitVec 16) : Prop :=
  ∀ x ∈ table.contents, x.srcPort ≠ port

/-- 0 exactly if the connection was established, a negative error otherwise,
and then no entry for the port. -/
structure ConnectRight (st : Connecting) (rc : Int) : Prop where
  established : rc = 0 ↔ st.reached = true
  negative : rc ≠ 0 → rc < 0
  removed : rc ≠ 0 → PortUnused st.table st.entry.srcPort

/-- The segment passes the checks of `tcp_handle_packet`. -/
def SegmentChecked (ti : TcpInfo) (pkt : TcpPacket) : Prop :=
  ti.nextAck ≤ pkt.tcp.seq ∧ (tcpIsSetAck pkt.tcp → ti.unack < pkt.tcp.ack)

instance (ti : TcpInfo) (pkt : TcpPacket) : Decidable (SegmentChecked ti pkt) :=
  inferInstanceAs (Decidable (_ ∧ (_ → _)))

/-- The segment resets or refuses the connection, is answered with a reset, or
closes it before the loop has seen it established. -/
def SegmentSpoils (ok : Nat → Bool) (phase : ConnectPhase) (ti : TcpInfo) (pkt : TcpPacket) :
    Prop :=
  SegmentChecked ti pkt ∧
    (tcpIsSetRst pkt.tcp ∨
      ti.state = .synSent ∧ ¬(tcpIsSetSyn pkt.tcp ∧ tcpIsSetAck pkt.tcp) ∧ ok 0 ∨
      ti.state = .lastAck ∧ ¬tcpIsSetAck pkt.tcp ∧ ok 0 ∨
      phase = .waiting ∧ ti.state = .estab ∧ tcpIsSetFin pkt.tcp ∧
        ¬(tcpIsSetSyn pkt.tcp ∧ tcpIsSetAck pkt.tcp) ∧ ok 1)

/-- There is memory for the SYN, and once it is sent no timeout and no segment
that spoils the connection finds it. -/
def ConnectKeeps (st : Connecting) : ConnectEvent → Prop
  | .segment ok pkt =>
      st.phase ≠ .created → tcpFindInfo st.table pkt.tcp.dstPort = some st.entry →
        ¬SegmentSpoils ok st.phase st.ti pkt
  | .timeout srcPort => st.phase ≠ .created → tcpFindInfo st.table srcPort ≠ some st.entry
  | .task packetOk _ => st.phase = .created → packetOk

instance (ok : Nat → Bool) (phase : ConnectPhase) (ti : TcpInfo) (pkt : TcpPacket) :
    Decidable (SegmentSpoils ok phase ti pkt) :=
  inferInstanceAs (Decidable (_ ∧ (_ ∨ _ ∨ _ ∨ _)))

instance (st : Connecting) : ∀ ev, Decidable (ConnectKeeps st ev)
  | .segment _ _ => inferInstanceAs (Decidable (_ → _ → _))
  | .timeout _ => inferInstanceAs (Decidable (_ → _))
  | .task _ _ => inferInstanceAs (Decidable (_ → _))

/-! ## The state after a segment -/

/-- The part of `tcp_handle_packet` that decides the state. -/
def segmentState (ok : Nat → Bool) (ti : TcpInfo) (pkt : TcpPacket) : TiState :=
  if SegmentChecked ti pkt then
    if tcpIsSetRst pkt.tcp then .closed
    else
      match ti.state with
      | .synSent =>
          if tcpIsSetSyn pkt.tcp ∧ tcpIsSetAck pkt.tcp then if ok 0 then .estab else .synSent
          else if ok 0 then .closed else .synSent
      | .estab =>
          if tcpIsSetSyn pkt.tcp ∧ tcpIsSetAck pkt.tcp then .estab
          else if tcpIsSetFin pkt.tcp ∧ ok 1 then if ok 2 then .lastAck else .closeWait
          else .estab
      | .lastAck => if ¬tcpIsSetAck pkt.tcp ∧ ok 0 then .closed else .lastAck
      | s => s
  else ti.state

variable {ok : Nat → Bool} {ti t ti' : TcpInfo} {pkt : TcpPacket}

/-- The connection is in the state `s`, and has a fail code if it was closed
just now. -/
structure EndsIn (s : TiState) (ti ti' : TcpInfo) : Prop where
  state : ti'.state = s
  failed : s = .closed → ti'.failCode ≠ 0 ∨ ti.state = .closed ∧ ti'.failCode = ti.failCode

/-- Neither the state nor the fail code changes. -/
def SameState (ti ti' : TcpInfo) : Prop := ti'.state = ti.state ∧ ti'.failCode = ti.failCode

theorem SameState.endsIn (h : SameState ti ti') : EndsIn ti.state ti ti' :=
  ⟨h.1, fun hs => .inr ⟨hs, h.2⟩⟩

theorem SameState.trans_endsIn {s : TiState} (h : SameState ti t) (h' : EndsIn s t ti') :
    EndsIn s ti ti' := by
  refine ⟨h'.state, fun hs => ?_⟩
  rcases h'.failed hs with hfail | ⟨hclosed, hsame⟩
  · exact .inl hfail
  · exact .inr ⟨h.1.symm.trans hclosed, hsame.trans h.2⟩

theorem tcpAckPacket_sameState (b : Bool) (ti : TcpInfo) (pkt : TcpPacket) :
    SameState ti (tcpAckPacket b ti pkt) := by
  cases b <;> exact ⟨rfl, rfl⟩

theorem tcpAckReceived_sameState (ti : TcpInfo) (pkt : TcpPacket) :
    SameState ti (tcpAckReceived ti pkt) := by
  unfold tcpAckReceived
  split <;> exact ⟨rfl, rfl⟩

theorem tcpCondAck_sameState (b : Bool) (ti : TcpInfo) (pkt : TcpPacket) :
    SameState ti (tcpCondAck b ti pkt) := by
  unfold tcpCondAck
  split
  · exact tcpAckPacket_sameState b ti pkt
  · split
    · exact tcpAckPacket_sameState b ti pkt
    · exact ⟨rfl, rfl⟩

theorem tcpReceivePayload_sameState {b : Bool} (h : tcpReceivePayload b ti pkt = some ti') :
    SameState ti ti' := by
  unfold tcpReceivePayload at h
  dsimp only at h
  split at h
  · split at h
    · cases h
    · rw [← Option.some.inj h]
      cases b <;> exact ⟨rfl, rfl⟩
  · rw [← Option.some.inj h]
    cases b <;> exact ⟨rfl, rfl⟩

theorem tcpResetConnection_endsIn (b : Bool) (ti : TcpInfo) :
    EndsIn (if b then .closed else ti.state) ti (tcpResetConnection b ti) := by
  cases b with
  | false => exact SameState.endsIn ⟨rfl, rfl⟩
  | true => exact ⟨rfl, fun _ => .inl (show econnreset ≠ 0 by decide)⟩

theorem tcpHandlePacketSynsent_endsIn (ok : Nat → Bool) (ti : TcpInfo) (pkt : TcpPacket) :
    EndsIn (if tcpIsSetSyn pkt.tcp ∧ tcpIsSetAck pkt.tcp then if ok 0 then .estab else ti.state
      else if ok 0 then .closed else ti.state) ti (tcpHandlePacketSynsent ok ti pkt) := by
  unfold tcpHandlePacketSynsent
  by_cases hsyn : tcpIsSetSyn pkt.tcp
  · rw [if_pos hsyn]
    by_cases hack : tcpIsSetAck pkt.tcp
    · rw [if_pos hack, if_pos ⟨hsyn, hack⟩]
      dsimp only
      split
      · exact ⟨rfl, fun h => by cases h⟩
      · exact SameState.endsIn ⟨rfl, rfl⟩
    · rw [if_neg hack, if_neg fun h => hack h.2]
      exact tcpResetConnection_endsIn (ok 0) ti
  · rw [if_neg hsyn, if_neg fun h => hsyn h.1]
    exact tcpResetConnection_endsIn (ok 0) ti

theorem tcpReceiveFin_state (ok : Nat → Bool) (ti : TcpInfo) :
    (tcpReceiveFin ok ti).state =
      if ok 1 then if ok 2 then .lastAck else .closeWait else ti.state := by
  unfold tcpReceiveFin
  dsimp only
  split
  · split <;> rfl
  · rfl

theorem tcpHandlePacketEstab_endsIn (hstate : ti.state = .estab)
    (h : tcpHandlePacketEstab ok ti pkt = some ti') :
    EndsIn (if tcpIsSetSyn pkt.tcp ∧ tcpIsSetAck pkt.tcp then .estab
      else if tcpIsSetFin pkt.tcp ∧ ok 1 then if ok 2 then .lastAck else .closeWait
      else .estab) ti ti' := by
  rw [tcpHandlePacketEstab] at h
  by_cases hboth : tcpIsSetSyn pkt.tcp ∧ tcpIsSetAck pkt.tcp
  · rw [if_pos ⟨hboth.2, hboth.1⟩, Option.some.injEq] at h
    have hend := tcpHandlePacketSynsent_endsIn ok ti pkt
    rw [if_pos hboth, hstate, ite_self, h] at hend
    rw [if_pos hboth]
    exact hend
  · rw [if_neg fun hs => hboth ⟨hs.2, hs.1⟩, Option.map_eq_some_iff] at h
    rw [if_neg hboth]
    obtain ⟨t, ht, rfl⟩ := h
    have hsame : SameState ti t := by
      split at ht
      · exact tcpReceivePayload_sameState ht
      · rw [← Option.some.inj ht]
        exact ⟨rfl, rfl⟩
    have hestab : t.state = .estab := hsame.1.trans hstate
    by_cases hfin : tcpIsSetFin pkt.tcp
    · rw [if_pos hfin]
      refine ⟨?_, fun hs => ?_⟩
      · rw [tcpReceiveFin_state, hestab]
        simp only [hfin, true_and]
      · split at hs
        · split at hs <;> cases hs
        · cases hs
    · rw [if_neg hfin, if_neg fun hs => hfin hs.1, ← hstate]
      exact hsame.endsIn

theorem tcpHandlePacketLastack_endsIn (hstate : ti.state = .lastAck) :
    EndsIn (if ¬tcpIsSetAck pkt.tcp ∧ ok 0 then .closed else .lastAck) ti
      (tcpHandlePacketLastack ok ti pkt) := by
  unfold tcpHandlePacketLastack
  by_cases hack : tcpIsSetAck pkt.tcp
  · rw [if_pos hack, if_neg fun h => h.1 hack, ← hstate]
    exact SameState.endsIn ⟨rfl, rfl⟩
  · rw [if_neg hack]
    have hend := tcpResetConnection_endsIn (ok 0) ti
    rw [hstate] at hend
    by_cases hok : ok 0
    · rw [if_pos ⟨hack, hok⟩]
      rwa [if_pos hok] at hend
    · rw [if_neg fun h => hok h.2]
      rwa [if_neg hok] at hend

/-- **The state after a segment.** -/
theorem tcpHandlePacket_endsIn (h : tcpHandlePacket ok ti pkt = some ti') :
    EndsIn (segmentState ok ti pkt) ti ti' := by
  rcases tcpHandlePacket_cases h with ⟨hanswered, rfl⟩ | ⟨hchecked, hd⟩
  · have hnot : ¬SegmentChecked ti pkt := by
      rintro ⟨hseq, hun⟩
      rcases hanswered with hold | ⟨hack, hacked⟩
      · exact hold hseq
      · exact hacked (hun hack)
    rw [segmentState, if_neg hnot]
    exact (tcpCondAck_sameState _ _ _).endsIn
  · have hsame := tcpAckReceived_sameState ti pkt
    rw [segmentState, if_pos (show SegmentChecked ti pkt from hchecked)]
    rw [tcpDispatch] at hd
    by_cases hrst : tcpIsSetRst pkt.tcp
    · rw [if_pos hrst, Option.some.injEq] at hd
      rw [if_pos hrst, ← hd]
      refine ⟨rfl, fun _ => .inl ?_⟩
      show (if (tcpAckReceived ti pkt).state = .synSent then econnrefused else econnreset) ≠ 0
      split <;> decide
    · rw [if_neg hrst] at hd
      rw [if_neg hrst, ← hsame.1]
      cases hstate : (tcpAckReceived ti pkt).state <;>
        simp only [hstate, Option.some.injEq] at hd ⊢
      case synSent =>
        rw [← hd]
        have hend := tcpHandlePacketSynsent_endsIn ok (tcpAckReceived ti pkt) pkt
        rw [hstate] at hend
        exact hsame.trans_endsIn hend
      case estab => exact hsame.trans_endsIn (tcpHandlePacketEstab_endsIn hstate hd)
      case lastAck =>
        rw [← hd]
        exact hsame.trans_endsIn (tcpHandlePacketLastack_endsIn hstate)
      all_goals
        rw [← hd, ← hstate]
        exact hsame.trans_endsIn (SameState.endsIn ⟨rfl, rfl⟩)

theorem segmentState_closed (ok : Nat → Bool) (pkt : TcpPacket) (hstate : ti.state = .closed) :
    segmentState ok ti pkt = .closed := by
  rw [segmentState, hstate]
  split
  · split <;> rfl
  · rfl

theorem segmentState_spoils {phase : ConnectPhase} (h : SegmentSpoils ok phase ti pkt) :
    segmentState ok ti pkt = .closed ∨ phase = .waiting ∧ ti.state = .estab ∧
      (segmentState ok ti pkt = .closeWait ∨ segmentState ok ti pkt = .lastAck) := by
  obtain ⟨hchecked, hspoils⟩ := h
  rw [segmentState, if_pos hchecked]
  by_cases hrst : tcpIsSetRst pkt.tcp
  · exact .inl (if_pos hrst)
  · rw [if_neg hrst]
    rcases hspoils with hr | ⟨hstate, hnot, hok⟩ | ⟨hstate, hnot, hok⟩ |
      ⟨hphase, hstate, hfin, hnot, hok⟩
    · exact (hrst hr).elim
    · simp only [hstate]
      rw [if_neg hnot, if_pos hok]
      exact .inl rfl
    · simp only [hstate]
      rw [if_pos ⟨hnot, hok⟩]
      exact .inl rfl
    · simp only [hstate]
      rw [if_neg hnot, if_pos ⟨hfin, hok⟩]
      refine .inr ⟨hphase, trivial, ?_⟩
      split
      · exact .inr rfl
      · exact .inl rfl

section Keeps

variable {phase : ConnectPhase}

theorem segmentState_synSent (h : ¬SegmentSpoils ok phase ti pkt)
    (hstate : ti.state = .synSent) :
    segmentState ok ti pkt = .synSent ∨ segmentState ok ti pkt = .estab := by
  rw [segmentState]
  split
  case isFalse => exact .inl hstate
  case isTrue hchecked =>
    rw [if_neg fun hrst => h ⟨hchecked, .inl hrst⟩]
    simp only [hstate]
    by_cases hboth : tcpIsSetSyn pkt.tcp ∧ tcpIsSetAck pkt.tcp
    · rw [if_pos hboth]
      split
      · exact .inr rfl
      · exact .inl rfl
    · rw [if_neg hboth, if_neg fun hok => h ⟨hchecked, .inr (.inl ⟨hstate, hboth, hok⟩)⟩]
      exact .inl rfl

theorem segmentState_estab (h : ¬SegmentSpoils ok phase ti pkt)
    (hstate : ti.state = .estab) :
    segmentState ok ti pkt = .estab ∨ phase ≠ .waiting ∧
      (segmentState ok ti pkt = .closeWait ∨ segmentState ok ti pkt = .lastAck) := by
  rw [segmentState]
  split
  case isFalse => exact .inl hstate
  case isTrue hchecked =>
    rw [if_neg fun hrst => h ⟨hchecked, .inl hrst⟩]
    simp only [hstate]
    by_cases hboth : tcpIsSetSyn pkt.tcp ∧ tcpIsSetAck pkt.tcp
    · exact .inl (if_pos hboth)
    · rw [if_neg hboth]
      by_cases hfin : tcpIsSetFin pkt.tcp ∧ ok 1
      · rw [if_pos hfin]
        refine .inr ⟨fun hphase => ?_, ?_⟩
        · exact h ⟨hchecked, .inr (.inr (.inr ⟨hphase, hstate, hfin.1, hboth, hfin.2⟩))⟩
        · split
          · exact .inr rfl
          · exact .inl rfl
      · exact .inl (if_neg hfin)

theorem segmentState_closing (h : ¬SegmentSpoils ok phase ti pkt)
    (hstate : ti.state = .closeWait ∨ ti.state = .lastAck) :
    segmentState ok ti pkt = ti.state := by
  rw [segmentState]
  split
  case isFalse => rfl
  case isTrue hchecked =>
    rw [if_neg fun hrst => h ⟨hchecked, .inl hrst⟩]
    rcases hstate with hstate | hstate
    · simp only [hstate]
    · simp only [hstate]
      rw [if_neg fun hs => h ⟨hchecked, .inr (.inr (.inl ⟨hstate, hs.1, hs.2⟩))⟩]

end Keeps

/-- A connection that is closing is closed by a segment or goes on closing. -/
theorem segmentState_closing_or (ok : Nat → Bool) (pkt : TcpPacket)
    (hstate : ti.state = .closeWait ∨ ti.state = .lastAck) :
    segmentState ok ti pkt = .closed ∨ segmentState ok ti pkt = ti.state := by
  by_cases h : SegmentSpoils ok .leaving ti pkt
  · rcases segmentState_spoils h with hclosed | ⟨hphase, -⟩
    · exact .inl hclosed
    · cases hphase
  · exact .inr (segmentState_closing h hstate)

/-! ## Steps -/

/-- The connection is on its way to be established, or the call has returned
what it should. -/
def ConnectGood (st : Connecting) : Prop :=
  match st.phase with
  | .created => st.ti.state = .closed ∧ st.reached = false
  | .waiting =>
      st.ti.state = .synSent ∧ st.reached = false ∨ st.ti.state = .estab ∧ st.reached = true
  | .leaving =>
      st.reached = true ∧
        (st.ti.state = .estab ∨ st.ti.state = .closeWait ∨ st.ti.state = .lastAck)
  | .returned rc => ConnectRight st rc

/-- The call waits for ever, or returns an error and leaves its entry behind. -/
def ConnectDoomed (st : Connecting) : Prop :=
  match st.phase with
  | .created => False
  | .waiting =>
      st.ti.state = .closed ∧ st.ti.failCode ≠ 0 ∨
        (st.ti.state = .closeWait ∨ st.ti.state = .lastAck)
  | .leaving => st.ti.state = .closed ∧ st.ti.failCode ≠ 0
  | .returned rc => rc ≠ 0

variable {st st' : Connecting} {ev : ConnectEvent}

theorem connectStep_frame (h : connectStep st ev = some st') :
    st'.table = st.table ∧ st'.entry = st.entry := by
  unfold connectStep at h
  split at h
  · cases h
  · cases ev with
    | segment ok pkt =>
        dsimp only at h
        split at h
        · obtain ⟨ti, -, rfl⟩ := Option.map_eq_some_iff.mp h
          exact ⟨rfl, rfl⟩
        · rw [← Option.some.inj h]
          exact ⟨rfl, rfl⟩
    | timeout srcPort =>
        dsimp only at h
        split at h <;> rw [← Option.some.inj h] <;> exact ⟨rfl, rfl⟩
    | task packetOk workOk =>
        dsimp only [connectTask] at h
        split at h
        · split at h <;> rw [← Option.some.inj h] <;> exact ⟨rfl, rfl⟩
        · split at h <;> rw [← Option.some.inj h] <;> exact ⟨rfl, rfl⟩
        · rw [← Option.some.inj h]
          exact ⟨rfl, rfl⟩
        · cases h

theorem connectStep_segment {pkt : TcpPacket} (h : connectStep st (.segment ok pkt) = some st') :
    (tcpFindInfo st.table pkt.tcp.dstPort = some st.entry ∧
      ∃ ti', st' = st.setInfo ti' ∧ EndsIn (segmentState ok st.ti pkt) st.ti ti') ∨
    (tcpFindInfo st.table pkt.tcp.dstPort ≠ some st.entry ∧ st' = st) := by
  unfold connectStep at h
  split at h
  · cases h
  · dsimp only at h
    split at h
    case isTrue hfound =>
      obtain ⟨ti', hti', rfl⟩ := Option.map_eq_some_iff.mp h
      exact .inl ⟨hfound, ti', rfl, tcpHandlePacket_endsIn hti'⟩
    case isFalse hnot => exact .inr ⟨hnot, (Option.some.inj h).symm⟩

theorem connectStep_timeout {srcPort : BitVec 16}
    (h : connectStep st (.timeout srcPort) = some st') :
    (tcpFindInfo st.table srcPort = some st.entry ∧
      ∃ ti', st' = st.setInfo ti' ∧ ti'.state = .closed ∧ ti'.failCode ≠ 0) ∨
    (tcpFindInfo st.table srcPort ≠ some st.entry ∧ st' = st) := by
  unfold connectStep at h
  split at h
  · cases h
  · dsimp only at h
    split at h
    case isTrue hfound =>
      refine .inl ⟨hfound, _, (Option.some.inj h).symm, rfl, ?_⟩
      show etimedout ≠ 0
      decide
    case isFalse hnot => exact .inr ⟨hnot, (Option.some.inj h).symm⟩

/-- The call is not back yet when a step is taken. -/
theorem connectStep_running (h : connectStep st ev = some st') (rc : Int) :
    st.phase ≠ .returned rc := by
  intro hphase
  unfold connectStep at h
  rw [hphase, if_pos (show (ConnectPhase.returned rc).isReturned = true from rfl)] at h
  cases h

theorem connectStep_task (packetOk workOk : Bool)
    (h : connectStep st (.task packetOk workOk) = some st') :
    connectTask st packetOk workOk = some st' := by
  unfold connectStep at h
  split at h
  · cases h
  · exact h

theorem connectStep_good (hgood : ConnectGood st) (hkeeps : ConnectKeeps st ev)
    (h : connectStep st ev = some st') : ConnectGood st' := by
  cases ev with
  | task packetOk workOk =>
      replace h := connectStep_task packetOk workOk h
      unfold connectTask at h
      unfold ConnectGood at hgood
      cases hphase : st.phase <;> simp only [hphase] at h hgood
      case created =>
        rw [if_neg (by simp [hkeeps hphase]), Option.some.injEq] at h
        subst h
        exact .inl ⟨rfl, hgood.2⟩
      case waiting =>
        rcases hgood with ⟨hstate, hreached⟩ | ⟨hstate, hreached⟩
        · rw [if_pos (by rw [hstate]; decide), Option.some.injEq] at h
          subst h
          simp only [ConnectGood, hphase]
          exact .inl ⟨hstate, hreached⟩
        · rw [if_neg (by rw [hstate]; decide), Option.some.injEq] at h
          subst h
          exact ⟨hreached, .inl hstate⟩
      case leaving =>
        obtain ⟨hreached, hstate⟩ := hgood
        have hopen : st.ti.state ≠ .closed := by
          rcases hstate with hs | hs | hs <;> rw [hs] <;> decide
        rw [if_neg hopen, Option.some.injEq] at h
        subst h
        exact ⟨iff_of_true rfl hreached, fun hrc => (hrc rfl).elim, fun hrc => (hrc rfl).elim⟩
      case returned rc => cases h
  | segment ok pkt =>
      rcases connectStep_segment h with ⟨hfound, ti', rfl, hend⟩ | ⟨-, rfl⟩
      · have hspoils : st.phase ≠ .created → ¬SegmentSpoils ok st.phase st.ti pkt := fun hp =>
          hkeeps hp hfound
        unfold ConnectGood at hgood ⊢
        cases hphase : st.phase <;>
          simp only [hphase, Connecting.setInfo_phase, Connecting.setInfo_ti,
            Connecting.setInfo_reached, hend.state] at hgood hspoils ⊢
        case created =>
          rw [segmentState_closed ok pkt hgood.1, hgood.2]
          exact ⟨rfl, rfl⟩
        case waiting =>
          have hkept := hspoils (by decide)
          rcases hgood with ⟨hstate, hreached⟩ | ⟨hstate, hreached⟩
          · rcases segmentState_synSent hkept hstate with hs | hs
            · exact .inl ⟨hs, by rw [hs, hreached]; rfl⟩
            · exact .inr ⟨hs, by rw [hs]; simp⟩
          · rcases segmentState_estab hkept hstate with hs | ⟨hne, -⟩
            · exact .inr ⟨hs, by rw [hs]; simp⟩
            · exact (hne rfl).elim
        case leaving =>
          have hkept := hspoils (by decide)
          obtain ⟨hreached, hstate | hstate⟩ := hgood
          · refine ⟨by rw [hreached]; rfl, ?_⟩
            rcases segmentState_estab hkept hstate with hs | ⟨-, hs⟩
            · exact .inl hs
            · exact .inr hs
          · refine ⟨by rw [hreached]; rfl, .inr ?_⟩
            rw [segmentState_closing hkept hstate]
            exact hstate
        case returned rc => exact (connectStep_running h rc hphase).elim
      · exact hgood
  | timeout srcPort =>
      rcases connectStep_timeout h with ⟨hfound, ti', rfl, hclosed, -⟩ | ⟨-, rfl⟩
      · by_cases hphase : st.phase = .created
        · unfold ConnectGood at hgood ⊢
          simp only [hphase, Connecting.setInfo_phase, Connecting.setInfo_ti,
            Connecting.setInfo_reached] at hgood ⊢
          rw [hclosed, hgood.2]
          exact ⟨rfl, rfl⟩
        · exact (hkeeps hphase hfound).elim
      · exact hgood

theorem connectStep_spoiled (hgood : ConnectGood st) (hspoiled : ¬ConnectKeeps st ev)
    (h : connectStep st ev = some st') : ConnectDoomed st' := by
  cases ev with
  | task packetOk workOk =>
      rw [ConnectKeeps] at hspoiled
      push Not at hspoiled
      obtain ⟨hphase, hpacket⟩ := hspoiled
      replace h := connectStep_task packetOk workOk h
      unfold connectTask at h
      simp only [hphase, hpacket] at h
      rw [← Option.some.inj h]
      show enomem ≠ 0
      decide
  | segment ok pkt =>
      rw [ConnectKeeps] at hspoiled
      push Not at hspoiled
      obtain ⟨hne, hfound, hspoils⟩ := hspoiled
      rcases connectStep_segment h with ⟨-, ti', rfl, hend⟩ | ⟨hnot, -⟩
      · -- a connection closed just now has got its fail code
        have hfail : st.ti.state ≠ .closed → segmentState ok st.ti pkt = .closed →
            ti'.state = .closed ∧ ti'.failCode ≠ 0 := fun hopen hclosed => by
          refine ⟨hend.state.trans hclosed, ?_⟩
          rcases hend.failed hclosed with hf | ⟨hc, -⟩
          · exact hf
          · exact (hopen hc).elim
        unfold ConnectGood at hgood
        unfold ConnectDoomed
        cases hphase : st.phase <;>
          simp only [hphase, Connecting.setInfo_phase, Connecting.setInfo_ti] at hgood hspoils hne ⊢
        case created => exact hne rfl
        case waiting =>
          have hopen : st.ti.state ≠ .closed := by
            rcases hgood with ⟨hs, -⟩ | ⟨hs, -⟩ <;> rw [hs] <;> decide
          rcases segmentState_spoils hspoils with hclosed | ⟨-, -, hs⟩
          · exact .inl (hfail hopen hclosed)
          · rw [hend.state]
            exact .inr hs
        case leaving =>
          have hopen : st.ti.state ≠ .closed := by
            rcases hgood.2 with hs | hs | hs <;> rw [hs] <;> decide
          rcases segmentState_spoils hspoils with hclosed | ⟨hwait, -⟩
          · exact hfail hopen hclosed
          · cases hwait
        case returned rc => exact (connectStep_running h rc hphase).elim
      · exact (hnot hfound).elim
  | timeout srcPort =>
      rw [ConnectKeeps] at hspoiled
      push Not at hspoiled
      obtain ⟨hne, hfound⟩ := hspoiled
      rcases connectStep_timeout h with ⟨-, ti', rfl, hclosed⟩ | ⟨hnot, -⟩
      · unfold ConnectDoomed
        cases hphase : st.phase <;>
          simp only [hphase, Connecting.setInfo_phase, Connecting.setInfo_ti] at hne ⊢
        case created => exact hne rfl
        case waiting => exact .inl hclosed
        case leaving => exact hclosed
        case returned rc => exact (connectStep_running h rc hphase).elim
      · exact (hnot hfound).elim

theorem connectStep_doomed (hdoomed : ConnectDoomed st) (h : connectStep st ev = some st') :
    ConnectDoomed st' := by
  cases ev with
  | task packetOk workOk =>
      replace h := connectStep_task packetOk workOk h
      unfold connectTask at h
      unfold ConnectDoomed at hdoomed
      cases hphase : st.phase <;> simp only [hphase] at h hdoomed
      case waiting =>
        rcases hdoomed with ⟨hstate, hcode⟩ | hstate
        · rw [if_neg (by rw [hstate]; decide), Option.some.injEq] at h
          subst h
          exact ⟨hstate, hcode⟩
        · rw [if_pos (by rcases hstate with hs | hs <;> rw [hs] <;> decide),
            Option.some.injEq] at h
          subst h
          simp only [ConnectDoomed, hphase]
          exact .inr hstate
      case leaving =>
        rw [if_pos hdoomed.1, Option.some.injEq] at h
        subst h
        exact hdoomed.2
      case returned rc => cases h
  | segment ok pkt =>
      rcases connectStep_segment h with ⟨-, ti', rfl, hend⟩ | ⟨-, rfl⟩
      · have hclosed : st.ti.state = .closed ∧ st.ti.failCode ≠ 0 →
            ti'.state = .closed ∧ ti'.failCode ≠ 0 := by
          rintro ⟨hstate, hcode⟩
          have hafter := segmentState_closed ok pkt hstate
          refine ⟨hend.state.trans hafter, ?_⟩
          rcases hend.failed hafter with hf | ⟨-, hsame⟩
          · exact hf
          · rwa [hsame]
        unfold ConnectDoomed at hdoomed ⊢
        cases hphase : st.phase <;>
          simp only [hphase, Connecting.setInfo_phase, Connecting.setInfo_ti] at hdoomed ⊢
        case waiting =>
          rcases hdoomed with hstate | hstate
          · exact .inl (hclosed hstate)
          · rcases segmentState_closing_or ok pkt hstate with hafter | hafter
            · refine .inl ⟨hend.state.trans hafter, ?_⟩
              rcases hend.failed hafter with hf | ⟨hc, -⟩
              · exact hf
              · rcases hstate with hs | hs <;> rw [hs] at hc <;> cases hc
            · rw [hend.state, hafter]
              exact .inr hstate
        case leaving => exact hclosed hdoomed
        case returned rc => exact hdoomed
      · exact hdoomed
  | timeout srcPort =>
      rcases connectStep_timeout h with ⟨-, ti', rfl, hclosed⟩ | ⟨-, rfl⟩
      · unfold ConnectDoomed at hdoomed ⊢
        cases hphase : st.phase <;>
          simp only [hphase, Connecting.setInfo_phase, Connecting.setInfo_ti] at hdoomed ⊢
        case waiting => exact .inl hclosed
        case leaving => exact hclosed
        case returned rc => exact hdoomed
      · exact hdoomed

/-! ## Runs -/

theorem connectRun_frame {evs : List ConnectEvent} (h : runSteps connectStep st evs = some st') :
    st'.table = st.table ∧ st'.entry = st.entry :=
  runSteps_invariant (I := fun s => s.table = st.table ∧ s.entry = st.entry)
    (fun _ _ _ hs hstep =>
      ⟨(connectStep_frame hstep).1.trans hs.1, (connectStep_frame hstep).2.trans hs.2⟩)
    ⟨rfl, rfl⟩ h

/-- Nothing happens to a call that is back. -/
theorem connectRun_returned {rc : Int} {evs : List ConnectEvent} (hphase : st.phase = .returned rc)
    (h : runSteps connectStep st evs = some st') : evs = [] ∧ st' = st := by
  cases evs with
  | nil => exact ⟨rfl, (Option.some.inj h).symm⟩
  | cons ev evs =>
      obtain ⟨s, hs, -⟩ := runSteps_cons_some h
      exact (connectStep_running hs rc hphase).elim

/-- **The result of a call that got as far as the table.** -/
theorem connectRun_right_iff {evs : List ConnectEvent} {rc : Int} (hgood : ConnectGood st)
    (hentry : ¬PortUnused st.table st.entry.srcPort)
    (hrun : runSteps connectStep st evs = some st') (hret : st'.phase = .returned rc) :
    ConnectRight st' rc ↔ StepsMeet connectStep ConnectKeeps st evs := by
  obtain ⟨htable, hsame⟩ := connectRun_frame hrun
  rcases runSteps_good_or_spoiled (fun _ _ _ => connectStep_good) (fun _ _ _ => connectStep_spoiled)
    (fun _ _ _ => connectStep_doomed) hgood hrun with ⟨hmeet, hend⟩ | ⟨hmeet, hend⟩
  · simp only [ConnectGood, hret] at hend
    exact iff_of_true hend hmeet
  · simp only [ConnectDoomed, hret] at hend
    refine iff_of_false (fun hright => hentry ?_) hmeet
    rw [← htable, ← hsame]
    exact hright.removed hend

/-- A call comes back at once with an error and changes nothing, or gets its
entry into the table. -/
theorem tcpConnBegin_cases {table : HashTable SockEntry} (htable : PortTable table)
    (srcPort : BitVec 16) (mem : Option Nat) (rehashOk : Bool) (ti : TcpInfo)
    (rbMem : Option (List UInt8)) (hst : tcpConnBegin table srcPort mem rehashOk ti rbMem = st) :
    (∃ rc < 0, st.phase = .returned rc ∧ st.reached = false ∧ st.table = table ∧
        st.entry.srcPort = srcPort) ∨
      ConnectGood st ∧ ¬PortUnused st.table st.entry.srcPort ∧ PortUnused table srcPort := by
  unfold tcpConnBegin at hst
  cases mem with
  | none => exact .inl ⟨enomem, by decide, by subst hst; exact ⟨rfl, rfl, rfl, rfl⟩⟩
  | some p =>
      dsimp only at hst
      cases hfind : tcpFindInfo table srcPort with
      | some e =>
          rw [hfind, if_pos (show (some e).isSome = true from rfl)] at hst
          exact .inl ⟨eaddrinuse, by decide, by subst hst; exact ⟨rfl, rfl, rfl, rfl⟩⟩
      | none =>
          rw [hfind, if_neg (by decide)] at hst
          have hfree : hashFind table ⟨p, srcPort⟩ = none := (htable.find_port _).trans hfind
          subst hst
          refine .inr ⟨⟨rfl, rfl⟩, fun hunused => ?_, fun x hx hport => ?_⟩
          · refine hunused ⟨p, srcPort⟩ ?_ rfl
            dsimp only
            rw [(htable.insert_free rehashOk hfree).2.2]
            exact Multiset.mem_cons_self _ _
          · exact htable.find_none.mp hfree x hx (by rw [hport])

/-- A call that comes back is one of the connects of `tcpConnStart`. -/
theorem connectRun_refines {tst : TcpState} {ni : Nat} {srcPort : BitVec 16} {mem : Option Nat}
    {rehashOk : Bool} {rbMem : Option (List UInt8)} {evs : List ConnectEvent} {rc : Int}
    (hrun : runSteps connectStep (tcpConnBegin (tst.tables ni) srcPort mem rehashOk ti rbMem) evs =
      some st) (hret : st.phase = .returned rc) (addr : SockAddrIn) :
    ∃ packetOk closed, ∃ tst',
      tcpConnStart tst ni srcPort ⟨addr, mem, rehashOk, packetOk, closed⟩ = (rc, tst') ∧
        tst'.tables ni = st.table := by
  cases mem with
  | none =>
      obtain ⟨-, rfl⟩ := connectRun_returned rfl hrun
      obtain rfl := ConnectPhase.returned.inj hret
      exact ⟨true, none, tst, rfl, rfl⟩
  | some p =>
      cases hfind : tcpFindInfo (tst.tables ni) srcPort with
      | some e =>
          have htaken : (some e).isSome = true := rfl
          unfold tcpConnBegin at hrun
          simp only [hfind, if_pos htaken] at hrun
          obtain ⟨-, rfl⟩ := connectRun_returned rfl hrun
          obtain rfl := ConnectPhase.returned.inj hret
          refine ⟨true, none, tst, ?_, rfl⟩
          rw [tcpConnStart]
          simp only [hfind, if_pos htaken]
      | none =>
          obtain ⟨htable, -⟩ := connectRun_frame hrun
          refine ⟨true, some rc, (tst.setInfo p (some srcPort)).setTable ni
            (hashInsert rehashOk (tst.tables ni) ⟨p, srcPort⟩).2, ?_, ?_⟩
          · rw [tcpConnStart]
            simp [hfind, TcpState.setInfo]
          · rw [htable]
            unfold tcpConnBegin
            simp [hfind, TcpState.setTable]

/-- The connecting task returns 0 within its next two steps. -/
def ReturnsZero (st : Connecting) : Prop :=
  ∃ n ≤ 2, ∃ st', runSteps connectStep st (List.replicate n (.task true true)) = some st' ∧
    st'.phase = .returned 0

theorem ConnectGood.returnsZero (hgood : ConnectGood st) (hreached : st.reached = true)
    (hrunning : st.phase.isReturned = false) : ReturnsZero st := by
  have hlast : ∀ {s : Connecting}, s.phase = .leaving → s.ti.state ≠ .closed →
      runSteps connectStep s [.task true true] = some { s with phase := .returned 0 } := by
    intro s hphase hopen
    rw [runSteps]
    unfold connectStep connectTask
    simp [hphase, hopen, ConnectPhase.isReturned, runSteps]
  unfold ConnectGood at hgood
  cases hphase : st.phase <;> simp only [hphase] at hgood
  case created =>
    rw [hgood.2] at hreached
    cases hreached
  case waiting =>
    rcases hgood with ⟨-, hnot⟩ | ⟨hstate, -⟩
    · rw [hnot] at hreached
      cases hreached
    · refine ⟨2, le_rfl, { st with phase := .returned 0 }, ?_, rfl⟩
      have hopen : st.ti.state ≠ .closed := by
        rw [hstate]
        decide
      have hseen : connectStep st (.task true true) = some { st with phase := .leaving } := by
        unfold connectStep connectTask
        simp [hphase, hstate, ConnectPhase.isReturned]
      show (connectStep st (.task true true)).bind
        (fun s => runSteps connectStep s [.task true true]) = _
      rw [hseen]
      exact hlast (s := { st with phase := .leaving }) rfl hopen
  case leaving =>
    refine ⟨1, by decide, { st with phase := .returned 0 }, hlast hphase ?_, rfl⟩
    rcases hgood.2 with hs | hs | hs <;> rw [hs] <;> decide
  case returned rc =>
    rw [hphase] at hrunning
    cases hrunning

/-- **When a connect reports its result.** In every run of segments, timeouts
and steps of the connecting task, a call that comes back returns 0 exactly if
the connection was established, a negative error otherwise, and then leaves no
entry for the port, exactly when the port had no entry before and every step
meets `ConnectKeeps`. In such a run an established connection makes the call
return 0. -/
theorem tcpConnStart_result_iff {ops : List DemuxOp} {d : Demux}
    (htable : runSteps demuxStep ⟨[], niTcpInfos⟩ ops = some d) (srcPort : BitVec 16)
    (mem : Option Nat) (rehashOk : Bool) (ti : TcpInfo) (rbMem : Option (List UInt8))
    {evs : List ConnectEvent}
    (hrun : runSteps connectStep (tcpConnBegin d.table srcPort mem rehashOk ti rbMem) evs =
      some st) :
    (∀ rc, st.phase = .returned rc →
      (ConnectRight st rc ↔ PortUnused d.table srcPort ∧ StepsMeet connectStep ConnectKeeps
        (tcpConnBegin d.table srcPort mem rehashOk ti rbMem) evs)) ∧
    (StepsMeet connectStep ConnectKeeps (tcpConnBegin d.table srcPort mem rehashOk ti rbMem) evs →
      st.reached = true → st.phase.isReturned = false → ReturnsZero st) := by
  have hports : PortTable d.table := runSteps_invariant (I := fun d => PortTable d.table)
    (fun d op d' hd hstep => by
      rw [demuxStep, Option.some.injEq] at hstep
      exact hstep ▸ demuxOp_table hd op) niTcpInfos_ok.1 htable
  rcases tcpConnBegin_cases hports srcPort mem rehashOk ti rbMem rfl with
    ⟨rc₀, hneg, hphase, hreached, hsame, hentry⟩ | ⟨hgood, hentry, hunused⟩
  · obtain ⟨rfl, rfl⟩ := connectRun_returned hphase hrun
    refine ⟨fun rc hret => ?_, fun _ hr => ?_⟩
    · have hrc : rc₀ = rc := ConnectPhase.returned.inj (hphase.symm.trans hret)
      rw [← hrc]
      constructor
      · intro hright
        have hremoved := hright.removed hneg.ne
        rw [hsame, hentry] at hremoved
        exact ⟨hremoved, trivial⟩
      · rintro ⟨hunused, -⟩
        refine ⟨iff_of_false hneg.ne (by rw [hreached]; decide), fun _ => hneg, fun _ => ?_⟩
        rw [hsame, hentry]
        exact hunused
    · rw [hreached] at hr
      cases hr
  · refine ⟨fun rc hret => ?_, fun hmeet hreached hrunning => ?_⟩
    · rw [connectRun_right_iff hgood hentry hrun hret, and_iff_right hunused]
    · refine ConnectGood.returnsZero ?_ hreached hrunning
      exact runSteps_invariant_of_meet (fun _ _ _ => connectStep_good) hgood hmeet hrun

/-- What the memory of a `struct tcp_info` may hold. -/
def staleInfo : TcpInfo :=
  { state := .estab, failCode := 0, nextAck := 5, nextSeq := 5, unack := 5, retransmitWork := true,
    rb := ⟨0, 0, 0, 0, 0, []⟩, sent := [], stored := [] }

/-- A segment for port 1000 with a header of five words. -/
def connectReply (flags : BitVec 16) : TcpPacket :=
  { ipLen := 40, tcp := ⟨7548, 1000, 0, 1, 0x5000 ||| flags, 0, 0, 0⟩, body := [] }

/-- A SYN and ACK comes in, and the call returns 0. -/
theorem tcpConnStart_result_accepted :
    ∃ st, runSteps connectStep (tcpConnBegin niTcpInfos 1000 (some 1) true staleInfo none)
        [.task true true, .segment (fun _ => true) (connectReply (tcpFlagsSyn ||| tcpFlagsAck)),
          .task true true, .task true true] = some st ∧
      st.phase = .returned 0 ∧ ConnectRight st 0 := by
  obtain ⟨st, hrun, hphase⟩ : ∃ st, runSteps connectStep
      (tcpConnBegin niTcpInfos 1000 (some 1) true staleInfo none)
      [.task true true, .segment (fun _ => true) (connectReply (tcpFlagsSyn ||| tcpFlagsAck)),
        .task true true, .task true true] = some st ∧ st.phase = .returned 0 := ⟨_, rfl, rfl⟩
  have hexact := (tcpConnStart_result_iff
    (show runSteps demuxStep ⟨[], niTcpInfos⟩ [] = some ⟨[], niTcpInfos⟩ from rfl) 1000 (some 1)
    true staleInfo none hrun).1 0 hphase
  refine ⟨st, hrun, hphase, hexact.mpr ⟨fun x hx => ?_, ?_⟩⟩
  · rw [niTcpInfos_ok.2] at hx
    cases hx
  · decide +kernel

/-- The other side refuses the connection: the call returns 111, and the entry
stays. -/
theorem tcpConnStart_refused :
    ∃ st, runSteps connectStep (tcpConnBegin niTcpInfos 1000 (some 1) true staleInfo none)
        [.task true true, .segment (fun _ => true) (connectReply (tcpFlagsRst ||| tcpFlagsAck)),
          .task true true, .task true true] = some st ∧
      st.phase = .returned 111 ∧ ¬ConnectRight st 111 := by
  refine ⟨_, rfl, rfl, fun hright => ?_⟩
  have hneg := hright.negative (by decide)
  exact absurd hneg (by decide)

end Levos.Net
