import Levos.Net.ArpCache
import Levos.Net.Frame

/-!
# DHCP (`net/dhcp.c`, `include/levos/dhcp.h`)

An offer and an acknowledgement have the same `dhcp_op`, and the handlers
look at nothing else to tell messages apart. The state after any history is
therefore a function of the replies in it and of the timeouts before the first
of them (`dhcpRun_state`), whatever kind of message the replies are.
-/

namespace Levos.Net

open Levos.Base Levos.Lib

/-! ## Messages -/

def toBe16 (nb : BitVec 16) : BitVec 16 := (nb >>> 8) ||| (nb <<< 8)

def dhcpLevosXid : BitVec 32 := 0x13377331
def dhcpMagicCookie : BitVec 32 := 0x63825363
def dhcpOpDiscover : BitVec 8 := 0x01
def dhcpOpOffer : BitVec 8 := 0x02
def dhcpOpRequest : BitVec 8 := 0x01
def dhcpOpAck : BitVec 8 := 0x02

/-- `struct dhcp_packet` with the options behind it; the fields that stay zero
are left out. -/
structure DhcpPacket where
  op : BitVec 8
  htype : BitVec 8
  hlen : BitVec 8
  hops : BitVec 8
  xid : BitVec 32
  secs : BitVec 16
  flags : BitVec 16
  ciaddr : BitVec 32
  yiaddr : BitVec 32
  siaddr : BitVec 32
  giaddr : BitVec 32
  chaddr : BitVec 48
  cookie : BitVec 32
  options : List UInt8
deriving DecidableEq, Repr

/-- The bytes `dhcp_write_option` leaves for one option: `val` as it lies in
memory. -/
def dhcpWriteOption (optcode optsz : UInt8) (val : BitVec 32) : List UInt8 :=
  if optcode = 255 then [255] else optcode :: optsz :: (be32 val).reverse.take optsz.toNat

def dhcpWriteDiscoverHeader (hwMac : BitVec 48) : DhcpPacket :=
  { op := dhcpOpDiscover, htype := 1, hlen := 6, hops := 0, xid := dhcpLevosXid, secs := 0
    flags := toBe16 0x8000, ciaddr := 0, yiaddr := 0, siaddr := 0, giaddr := 0, chaddr := hwMac
    cookie := toBe32 dhcpMagicCookie, options := [] }

def dhcpWriteRequestHeader (hwMac : BitVec 48) (serverIp : BitVec 32) : DhcpPacket :=
  { op := dhcpOpRequest, htype := 1, hlen := 6, hops := 0, xid := dhcpLevosXid, secs := 0
    flags := toBe16 0x8000, ciaddr := 0, yiaddr := 0, siaddr := serverIp, giaddr := 0
    chaddr := hwMac, cookie := toBe32 dhcpMagicCookie, options := [] }

def dhcpCreateDiscoverPacket (hwMac : BitVec 48) : DhcpPacket :=
  { dhcpWriteDiscoverHeader hwMac with
    options := dhcpWriteOption 53 1 1 ++ dhcpWriteOption 255 0 0 }

def dhcpCreateRequestPacket (hwMac : BitVec 48) (ourIp serverIp : BitVec 32) : DhcpPacket :=
  { dhcpWriteRequestHeader hwMac serverIp with
    options := dhcpWriteOption 53 1 3 ++ dhcpWriteOption 50 4 ourIp ++
      dhcpWriteOption 54 4 serverIp ++ dhcpWriteOption 255 0 0 }

/-! ### What a message says -/

/-- The contents of the first option with this code. -/
def dhcpOptionIn (code : UInt8) : Nat → List UInt8 → Option (List UInt8)
  | 0, _ => none
  | _ + 1, [] => none
  | fuel + 1, c :: rest =>
      if c = 0 then dhcpOptionIn code fuel rest
      else if c = 255 then none
      else match rest with
        | [] => none
        | n :: body =>
            if body.length < n.toNat then none
            else if c = code then some (body.take n.toNat)
            else dhcpOptionIn code fuel (body.drop n.toNat)

def DhcpPacket.option (dhcp : DhcpPacket) (code : UInt8) : Option (List UInt8) :=
  if dhcp.cookie = toBe32 dhcpMagicCookie then
    dhcpOptionIn code dhcp.options.length dhcp.options
  else none

/-- A server's answer to us, of whatever kind. -/
def DhcpPacket.isReply (dhcp : DhcpPacket) : Bool :=
  dhcp.xid = dhcpLevosXid ∧ dhcp.op = dhcpOpAck

def DhcpPacket.isOffer (dhcp : DhcpPacket) : Bool := dhcp.isReply ∧ dhcp.option 53 = some [2]

def DhcpPacket.isAck (dhcp : DhcpPacket) : Bool := dhcp.isReply ∧ dhcp.option 53 = some [5]

/-! ## The interface -/

/-- `NI_DHCP_STATE_*`. -/
inductive DhcpState : Type where
  | null
  | discover
  | offer
  | valid
deriving DecidableEq, Repr

structure Route where
  base : BitVec 32
  netmask : BitVec 32
  gateway : BitVec 32
deriving DecidableEq, Repr

/-- What DHCP uses of a `net_device`, with the routing table and the ARP cache.
`sent` is what went out and `scheduled` the delays of the items of work made so
far, the latest first. -/
structure DhcpDev where
  hwMac : BitVec 48
  srcIp : BitVec 32
  state : DhcpState
  tries : Int
  arpKick : Bool
  routes : List Route
  arp : ArpCache
  sent : List DhcpPacket
  scheduled : List Nat

/-- Which allocations of `dhcp_handle_offer` succeed. -/
structure DhcpMem where
  gatewayRoute : Bool
  netRoute : Bool
  arpEntry : Option Nat
  arpRehash : Bool
deriving DecidableEq, Repr

def netAddRoute (ok : Bool) (routes : List Route) (base netmask gateway : BitVec 32) :
    List Route :=
  if ok then { base, netmask, gateway } :: routes else routes

/-- `dhcp_handle_offer`; `srcMac` is what lies at `p_buf + 6`. -/
def dhcpHandleOffer (ndev : DhcpDev) (dhcp : DhcpPacket) (srcMac : BitVec 48) (mem : DhcpMem) :
    PacketResult × DhcpDev :=
  if ndev.state ≠ .discover then (.drop, ndev)
  else
    let ourIp := dhcp.yiaddr
    let serverIp := dhcp.siaddr
    (.handled,
      { ndev with
        state := .offer
        srcIp := toBe32 ourIp
        routes := netAddRoute mem.netRoute
          (netAddRoute mem.gatewayRoute ndev.routes 0 0 (toBe32 serverIp))
          (toBe32 ourIp) 0xffffff00 0
        arp := match mem.arpEntry with
          | none => ndev.arp
          | some p => arpCacheInsert ndev.arp p serverIp srcMac mem.arpRehash
        arpKick := true
        sent := dhcpCreateRequestPacket ndev.hwMac ourIp serverIp :: ndev.sent })

/-- `dhcp_handle_ack`. -/
def dhcpHandleAck (ndev : DhcpDev) : PacketResult × DhcpDev :=
  if ndev.state ≠ .offer then (.drop, ndev) else (.handled, { ndev with state := .valid })

/-- `dhcp_do_handle_packet`. -/
def dhcpDoHandlePacket (ndev : DhcpDev) (dhcp : DhcpPacket) (srcMac : BitVec 48) (mem : DhcpMem) :
    PacketResult × DhcpDev :=
  if dhcp.xid = dhcpLevosXid then
    if ndev.state = .discover ∧ dhcp.op = dhcpOpOffer then dhcpHandleOffer ndev dhcp srcMac mem
    else if dhcp.op = dhcpOpAck then dhcpHandleAck ndev
    else (.drop, ndev)
  else (.drop, ndev)

/-- `IP(169, 254, 13, 37)`. -/
def linkLocalIp : BitVec 32 := 0xa9fe0d25

/-- `send_dhcp_disco`. -/
def sendDhcpDisco (ndev : DhcpDev) : DhcpDev :=
  if ndev.state ≠ .discover then ndev
  else if ndev.tries = 0 then
    { ndev with state := .valid, srcIp := linkLocalIp, arpKick := true }
  else
    { ndev with
      tries := ndev.tries - 1
      sent := dhcpCreateDiscoverPacket ndev.hwMac :: ndev.sent
      scheduled := 1000 :: ndev.scheduled }

/-- `dhcp_start_discovery`. -/
def dhcpStartDiscovery (ndev : DhcpDev) : DhcpDev :=
  { ndev with state := .discover, tries := 3, scheduled := 200 :: ndev.scheduled }

/-! ## Histories -/

/-- A DHCP packet arrives, or the item of work of the discovery runs. -/
inductive DhcpEvent : Type where
  | packet (dhcp : DhcpPacket) (srcMac : BitVec 48) (mem : DhcpMem)
  | timeout
deriving DecidableEq, Repr

def dhcpStep (ndev : DhcpDev) : DhcpEvent → DhcpDev
  | .packet dhcp srcMac mem => (dhcpDoHandlePacket ndev dhcp srcMac mem).2
  | .timeout => sendDhcpDisco ndev

/-- The interface after the history, from the start of the discovery. -/
def dhcpRun (ndev : DhcpDev) (events : List DhcpEvent) : DhcpDev :=
  events.foldl dhcpStep (dhcpStartDiscovery ndev)

/-- The reply an event brings. -/
def DhcpEvent.reply : DhcpEvent → Option DhcpPacket
  | .packet dhcp _ _ => if dhcp.isReply then some dhcp else none
  | .timeout => none

def replies (events : List DhcpEvent) : List DhcpPacket := events.filterMap DhcpEvent.reply

/-- The timeouts before the first reply. -/
def timeoutsBefore : List DhcpEvent → Nat
  | [] => 0
  | e :: es =>
      if e.reply.isSome then 0 else (if e = .timeout then 1 else 0) + timeoutsBefore es

/-- The discovery takes `offer` in `pre`, and `ack` acknowledges its address
later. -/
def AckedOffer (ndev : DhcpDev) (events : List DhcpEvent) : Prop :=
  ∃ pre offer mac mem mid ack mac' mem' post,
    events = pre ++ .packet offer mac mem :: mid ++ .packet ack mac' mem' :: post ∧
      (dhcpRun ndev pre).state = .discover ∧
      (dhcpRun ndev (pre ++ [.packet offer mac mem])).state = .offer ∧
      offer.isOffer ∧ ack.isAck ∧ ack.yiaddr = offer.yiaddr

/-- The state becomes valid only after an acknowledgement of the address in
the offer taken, or by a timeout with no tries left. -/
def BindsRight (ndev : DhcpDev) (events : List DhcpEvent) : Prop :=
  ∀ pre e, pre ++ [e] <+: events →
    (dhcpRun ndev pre).state ≠ .valid → (dhcpRun ndev (pre ++ [e])).state = .valid →
      AckedOffer ndev (pre ++ [e]) ∨ e = .timeout ∧ (dhcpRun ndev pre).tries = 0

/-- If the first reply comes within the tries, it is an offer, and the second
one acknowledges its address. -/
def RepliesRight (events : List DhcpEvent) : Prop :=
  timeoutsBefore events ≤ 3 → ∀ offer ack rest, replies events = offer :: ack :: rest →
    offer.isOffer ∧ ack.isAck ∧ ack.yiaddr = offer.yiaddr

/-! ## The state as a function of the history -/

theorem replies_append_one (es : List DhcpEvent) (e : DhcpEvent) :
    replies (es ++ [e]) = replies es ++ e.reply.toList := by
  rw [replies, List.filterMap_append, ← replies]
  cases h : e.reply <;> simp [h]

/-- Once a reply has come, timeouts no longer count. -/
theorem timeoutsBefore_append_one (es : List DhcpEvent) (e : DhcpEvent) :
    timeoutsBefore (es ++ [e]) =
      timeoutsBefore es + if replies es = [] ∧ e = .timeout then 1 else 0 := by
  induction es with
  | nil =>
      cases e with
      | packet dhcp mac mem => simp [timeoutsBefore]
      | timeout => simp [timeoutsBefore, replies, DhcpEvent.reply]
  | cons a es ih =>
      cases ha : a.reply with
      | some p => simp [timeoutsBefore, replies, ha]
      | none =>
          rw [List.cons_append, timeoutsBefore, timeoutsBefore, ih, ha]
          simp only [replies, List.filterMap_cons, ha]
          simp [Nat.add_assoc]

/-- The state after a history, whatever the interface. -/
def stateAfter (events : List DhcpEvent) : DhcpState :=
  if 3 < timeoutsBefore events then .valid
  else match replies events with
    | [] => .discover
    | [_] => .offer
    | _ => .valid

def addressAfter (ndev : DhcpDev) (events : List DhcpEvent) : BitVec 32 :=
  if 3 < timeoutsBefore events then linkLocalIp
  else match replies events with
    | [] => ndev.srcIp
    | offer :: _ => toBe32 offer.yiaddr

structure DhcpAfter (ndev : DhcpDev) (events : List DhcpEvent) (s : DhcpDev) : Prop where
  state : s.state = stateAfter events
  tries : s.state = .discover → s.tries = 3 - (timeoutsBefore events : Int)
  srcIp : s.srcIp = addressAfter ndev events

variable {ndev s : DhcpDev} {events pre : List DhcpEvent} {e : DhcpEvent} {dhcp : DhcpPacket}
  {mac : BitVec 48} {mem : DhcpMem}

theorem reply_eq_some : e.reply = some dhcp ↔
    ∃ mac mem, e = .packet dhcp mac mem ∧ dhcp.isReply := by
  cases e with
  | packet d mac mem =>
      rw [DhcpEvent.reply]
      constructor
      · intro h
        by_cases hd : d.isReply
        · rw [if_pos hd] at h
          exact ⟨mac, mem, by rw [Option.some.inj h], Option.some.inj h ▸ hd⟩
        · rw [if_neg hd] at h
          cases h
      · rintro ⟨_, _, heq, hd⟩
        cases heq
        exact if_pos hd
  | timeout => simp [DhcpEvent.reply]

/-- All packets but replies are dropped. -/
theorem dhcpStep_other (hnone : e.reply = none) (hne : e ≠ .timeout) (s : DhcpDev) :
    dhcpStep s e = s := by
  cases e with
  | timeout => exact (hne rfl).elim
  | packet dhcp mac mem =>
      have hno : ¬dhcp.isReply := fun h => by
        rw [DhcpEvent.reply, if_pos h] at hnone
        cases hnone
      simp only [DhcpPacket.isReply, decide_eq_true_eq, not_and] at hno
      rw [dhcpStep, dhcpDoHandlePacket]
      by_cases hxid : dhcp.xid = dhcpLevosXid
      · rw [if_pos hxid, if_neg (fun h => hno hxid h.2), if_neg (hno hxid)]
      · rw [if_neg hxid]

theorem dhcpStep_reply (hreply : dhcp.isReply) (s : DhcpDev) (mac : BitVec 48) (mem : DhcpMem) :
    dhcpStep s (.packet dhcp mac mem) =
      if s.state = .discover then (dhcpHandleOffer s dhcp mac mem).2 else (dhcpHandleAck s).2 := by
  simp only [DhcpPacket.isReply, decide_eq_true_eq] at hreply
  rw [dhcpStep, dhcpDoHandlePacket, if_pos hreply.1]
  by_cases hs : s.state = .discover
  · rw [if_pos ⟨hs, hreply.2⟩, if_pos hs]
  · rw [if_neg (fun h => hs h.1), if_pos hreply.2, if_neg hs]

/-- Nothing changes a valid configuration. -/
theorem dhcpStep_valid (hs : s.state = .valid) (e : DhcpEvent) : dhcpStep s e = s := by
  have hne : s.state ≠ .discover := by rw [hs]; decide
  cases hreply : e.reply with
  | some dhcp =>
      obtain ⟨mac, mem, rfl, hd⟩ := reply_eq_some.mp hreply
      rw [dhcpStep_reply hd, if_neg hne, dhcpHandleAck, if_pos (by rw [hs]; decide)]
  | none =>
      by_cases ht : e = .timeout
      · rw [ht, dhcpStep, sendDhcpDisco, if_pos hne]
      · exact dhcpStep_other hreply ht s

theorem dhcpAfter_start (ndev : DhcpDev) : DhcpAfter ndev [] (dhcpStartDiscovery ndev) :=
  ⟨rfl, fun _ => rfl, rfl⟩

theorem DhcpAfter.reply (hs : DhcpAfter ndev events s) (hreply : dhcp.isReply) (mac : BitVec 48)
    (mem : DhcpMem) :
    DhcpAfter ndev (events ++ [.packet dhcp mac mem]) (dhcpStep s (.packet dhcp mac mem)) := by
  have hsome := reply_eq_some.mpr ⟨mac, mem, rfl, hreply⟩
  have htime : timeoutsBefore (events ++ [.packet dhcp mac mem]) = timeoutsBefore events := by
    rw [timeoutsBefore_append_one, if_neg (fun h => by cases h.2), Nat.add_zero]
  have hreps : replies (events ++ [.packet dhcp mac mem]) = replies events ++ [dhcp] := by
    rw [replies_append_one, hsome]
    rfl
  have hstate := hs.state
  have haddr := hs.srcIp
  rw [stateAfter] at hstate
  rw [addressAfter] at haddr
  by_cases hfall : 3 < timeoutsBefore events
  · rw [if_pos hfall] at hstate haddr
    rw [dhcpStep_valid hstate]
    refine ⟨?_, fun h => ?_, ?_⟩
    · rw [stateAfter, htime, if_pos hfall, hstate]
    · rw [hstate] at h
      cases h
    · rw [addressAfter, htime, if_pos hfall, haddr]
  · rw [if_neg hfall] at hstate haddr
    cases hr : replies events with
    | nil =>
        rw [hr] at hstate
        rw [dhcpStep_reply hreply, if_pos hstate, dhcpHandleOffer, if_neg (not_not.mpr hstate)]
        refine ⟨?_, (fun h => by cases h), ?_⟩
        · rw [stateAfter, htime, if_neg hfall, hreps, hr]
          rfl
        · rw [addressAfter, htime, if_neg hfall, hreps, hr]
          rfl
    | cons offer rest =>
        rw [hr] at haddr
        have hvalid : stateAfter (events ++ [.packet dhcp mac mem]) = .valid := by
          rw [stateAfter, htime, if_neg hfall, hreps, hr]
          cases rest <;> rfl
        have haddr' : addressAfter ndev (events ++ [.packet dhcp mac mem]) = toBe32 offer.yiaddr := by
          rw [addressAfter, htime, if_neg hfall, hreps, hr]
          rfl
        cases rest with
        | nil =>
            rw [hr] at hstate
            have hoffer : s.state = .offer := hstate
            rw [dhcpStep_reply hreply, if_neg (by rw [hoffer]; decide), dhcpHandleAck,
              if_neg (not_not.mpr hoffer)]
            exact ⟨hvalid.symm, (fun h => by cases h), haddr.trans haddr'.symm⟩
        | cons ack rest =>
            rw [hr] at hstate
            rw [dhcpStep_valid hstate]
            refine ⟨hstate.trans hvalid.symm, fun h => ?_, haddr.trans haddr'.symm⟩
            rw [hstate] at h
            cases h

theorem DhcpAfter.timeout (hs : DhcpAfter ndev events s) :
    DhcpAfter ndev (events ++ [.timeout]) (dhcpStep s .timeout) := by
  have hreps : replies (events ++ [.timeout]) = replies events := by
    rw [replies_append_one]
    exact List.append_nil _
  have hstate := hs.state
  have haddr := hs.srcIp
  by_cases hdisc : s.state = .discover
  · have htries := hs.tries hdisc
    rw [hdisc, stateAfter] at hstate
    rw [addressAfter] at haddr
    by_cases hfall : 3 < timeoutsBefore events
    · rw [if_pos hfall] at hstate
      cases hstate
    rw [if_neg hfall] at hstate haddr
    have hr : replies events = [] := by
      cases hr : replies events with
      | nil => rfl
      | cons offer rest => cases rest <;> rw [hr] at hstate <;> cases hstate
    have htime : timeoutsBefore (events ++ [.timeout]) = timeoutsBefore events + 1 := by
      rw [timeoutsBefore_append_one, if_pos ⟨hr, rfl⟩]
    rw [hr] at haddr
    rw [dhcpStep, sendDhcpDisco, if_neg (not_not.mpr hdisc)]
    by_cases hzero : s.tries = 0
    · have hlt : 3 < timeoutsBefore (events ++ [.timeout]) := by omega
      rw [if_pos hzero]
      refine ⟨?_, (fun h => by cases h), ?_⟩
      · rw [stateAfter, if_pos hlt]
      · rw [addressAfter, if_pos hlt]
    · have hle : ¬3 < timeoutsBefore (events ++ [.timeout]) := by omega
      rw [if_neg hzero]
      refine ⟨?_, fun _ => ?_, ?_⟩
      · rw [stateAfter, if_neg hle, hreps, hr, hdisc]
      · rw [htries, htime]
        push_cast
        ring
      · rw [addressAfter, if_neg hle, hreps, hr, haddr]
  · have hfall : 3 < timeoutsBefore (events ++ [.timeout]) ↔ 3 < timeoutsBefore events := by
      rw [timeoutsBefore_append_one]
      by_cases hr : replies events = []
      · have hlt : 3 < timeoutsBefore events := by
          by_contra hle
          rw [stateAfter, if_neg hle, hr] at hstate
          exact hdisc hstate
        omega
      · rw [if_neg (fun h => hr h.1), Nat.add_zero]
    rw [dhcpStep, sendDhcpDisco, if_pos hdisc]
    refine ⟨?_, fun h => (hdisc h).elim, ?_⟩
    · simp only [hstate, stateAfter, hfall, hreps]
    · simp only [haddr, addressAfter, hfall, hreps]

theorem DhcpAfter.step (hs : DhcpAfter ndev events s) (e : DhcpEvent) :
    DhcpAfter ndev (events ++ [e]) (dhcpStep s e) := by
  by_cases ht : e = .timeout
  · rw [ht]
    exact hs.timeout
  cases hreply : e.reply with
  | some dhcp =>
      obtain ⟨mac, mem, rfl, hd⟩ := reply_eq_some.mp hreply
      exact hs.reply hd mac mem
  | none =>
      have htime : timeoutsBefore (events ++ [e]) = timeoutsBefore events := by
        rw [timeoutsBefore_append_one, if_neg (fun h => ht h.2), Nat.add_zero]
      have hreps : replies (events ++ [e]) = replies events := by
        rw [replies_append_one, hreply]
        exact List.append_nil _
      rw [dhcpStep_other hreply ht]
      refine ⟨?_, ?_, ?_⟩
      · rw [hs.state, stateAfter, stateAfter, htime, hreps]
      · rw [htime]
        exact hs.tries
      · rw [hs.srcIp, addressAfter, addressAfter, htime, hreps]

/-- **The discovery as a function of its history.** The state, the tries left
and the address depend on the replies and on the timeouts before the first of
them, and on nothing else that a message says. -/
theorem dhcpRun_after (ndev : DhcpDev) (events : List DhcpEvent) :
    DhcpAfter ndev events (dhcpRun ndev events) := by
  induction events using List.reverseRecOn with
  | nil => exact dhcpAfter_start ndev
  | append_singleton es e ih =>
      rw [dhcpRun, List.foldl_append]
      exact ih.step e

/-! ## When the state becomes valid -/

theorem stateAfter_offer (hle : timeoutsBefore events ≤ 3) (hr : replies events = [dhcp]) :
    stateAfter events = .offer := by
  rw [stateAfter, if_neg (Nat.not_lt.mpr hle), hr]

theorem timeoutsBefore_append_le (pre es : List DhcpEvent) :
    timeoutsBefore pre ≤ timeoutsBefore (pre ++ es) := by
  induction pre with
  | nil => exact Nat.zero_le _
  | cons a pre ih =>
      rw [List.cons_append, timeoutsBefore, timeoutsBefore]
      split
      · exact Nat.le_refl 0
      · exact Nat.add_le_add_left ih _

theorem timeoutsBefore_append (h : replies pre ≠ []) (es : List DhcpEvent) :
    timeoutsBefore (pre ++ es) = timeoutsBefore pre := by
  induction es using List.reverseRecOn with
  | nil => rw [List.append_nil]
  | append_singleton es e ih =>
      have hne : replies (pre ++ es) ≠ [] := by
        rw [replies, List.filterMap_append]
        exact List.append_ne_nil_of_left_ne_nil h _
      rw [← List.append_assoc, timeoutsBefore_append_one, if_neg (fun hnil => hne hnil.1), ih,
        Nat.add_zero]

/-- The place of the first reply. -/
theorem replies_split (h : replies events = dhcp :: rest) :
    ∃ pre mac mem post, events = pre ++ .packet dhcp mac mem :: post ∧ dhcp.isReply ∧
      replies pre = [] ∧ replies post = rest := by
  obtain ⟨pre, a, post, rfl, hpre, ha, hpost⟩ := List.filterMap_eq_cons_iff.mp h
  obtain ⟨mac, mem, rfl, hd⟩ := reply_eq_some.mp ha
  exact ⟨pre, mac, mem, post, rfl, hd, List.filterMap_eq_nil_iff.mpr hpre, hpost⟩

theorem replies_append (es fs : List DhcpEvent) : replies (es ++ fs) = replies es ++ replies fs :=
  List.filterMap_append

theorem replies_cons (hreply : dhcp.isReply) (mac : BitVec 48) (mem : DhcpMem)
    (es : List DhcpEvent) : replies (.packet dhcp mac mem :: es) = dhcp :: replies es := by
  rw [replies, List.filterMap_cons, reply_eq_some.mpr ⟨mac, mem, rfl, hreply⟩]
  rfl

theorem isReply_of_isOffer (h : dhcp.isOffer) : dhcp.isReply := by
  simp only [DhcpPacket.isOffer, decide_eq_true_eq] at h
  exact h.1

theorem isReply_of_isAck (h : dhcp.isAck) : dhcp.isReply := by
  simp only [DhcpPacket.isAck, decide_eq_true_eq] at h
  exact h.1

theorem pair_eq_append {α : Type} {a b x y : α} {l m n : List α}
    (h : [a, b] = l ++ x :: (m ++ y :: n)) : x = a ∧ y = b := by
  have hlen := congrArg List.length h
  simp only [List.length_append, List.length_cons, List.length_nil] at hlen
  have hl : l = [] := List.eq_nil_of_length_eq_zero (by omega)
  have hm : m = [] := List.eq_nil_of_length_eq_zero (by omega)
  rw [hl, hm, List.nil_append, List.nil_append] at h
  injection h with hx htail
  injection htail with hy _
  exact ⟨hx.symm, hy.symm⟩

/-- In a history of two replies these are the offer and the acknowledgement. -/
theorem AckedOffer.replies_eq (h : AckedOffer ndev events) {p q : DhcpPacket}
    (hr : replies events = [p, q]) : p.isOffer ∧ q.isAck ∧ q.yiaddr = p.yiaddr := by
  obtain ⟨pre, offer, mac, mem, mid, ack, mac', mem', post, rfl, -, -, hoffer, hack, haddr⟩ := h
  rw [List.append_assoc, List.cons_append, replies_append, replies_cons (isReply_of_isOffer hoffer),
    replies_append, replies_cons (isReply_of_isAck hack)] at hr
  obtain ⟨rfl, rfl⟩ := pair_eq_append hr.symm
  exact ⟨hoffer, hack, haddr⟩

/-- The converse, for a history whose second reply is its last event. -/
theorem ackedOffer_of_replies {p q : DhcpPacket} (hle : timeoutsBefore pre ≤ 3)
    (hr : replies pre = [p]) (hp : p.isOffer) (hq : q.isAck) (haddr : q.yiaddr = p.yiaddr)
    (mac : BitVec 48) (mem : DhcpMem) : AckedOffer ndev (pre ++ [.packet q mac mem]) := by
  obtain ⟨first, mac₁, mem₁, mid, rfl, hreply, hfirst, -⟩ := replies_split hr
  have hle' : timeoutsBefore (first ++ [.packet p mac₁ mem₁]) ≤ 3 := by
    refine (timeoutsBefore_append_le _ mid).trans ?_
    rw [List.append_assoc]
    exact hle
  refine ⟨first, p, mac₁, mem₁, mid, q, mac, mem, [], rfl, ?_, ?_, hp, hq, haddr⟩
  · have hle₀ := (timeoutsBefore_append_le first [.packet p mac₁ mem₁]).trans hle'
    rw [(dhcpRun_after ndev first).state, stateAfter, if_neg (Nat.not_lt.mpr hle₀), hfirst]
  · rw [(dhcpRun_after ndev _).state]
    have hone : replies (first ++ [.packet p mac₁ mem₁]) = [p] := by
      rw [replies_append, hfirst, replies_cons hreply]
      rfl
    exact stateAfter_offer hle' hone

/-- An interface before the discovery. -/
def bareDev : DhcpDev :=
  { hwMac := 0x525400123456, srcIp := 0, state := .null, tries := 0, arpKick := false, routes := []
    arp := arpCacheInit, sent := [], scheduled := [] }

/-- The offer of an address `10.0.2.x` by the server `10.0.2.2`. -/
def offerOf (x : BitVec 32) : DhcpPacket :=
  { dhcpWriteRequestHeader bareDev.hwMac 0x0202000a with
    op := dhcpOpOffer, yiaddr := 0x02000a + (x <<< 24)
    options := dhcpWriteOption 53 1 2 ++ dhcpWriteOption 255 0 0 }

/-- Two servers answer the first discovery, and the second offer binds the
address of the first. -/
def twoOffers : List DhcpEvent :=
  let mem : DhcpMem := { gatewayRoute := true, netRoute := true, arpEntry := none, arpRehash := true }
  [.timeout, .packet (offerOf 15) 0x525400654321 mem] ++
    [.packet (offerOf 16) 0x525400abcdef mem]

end Levos.Net
