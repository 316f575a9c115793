import Levos.Net.Arp
import Levos.Net.UdpTable

/-!
# Hosts on one Ethernet

Hosts that run this code, each with one interface, and the frames that were
ever sent: a frame may be received by any host, any number of times, late, out
of order, or never. Stations of other kinds may send frames of other protocols
and ARP requests of their own.
-/

namespace Levos.Net

open Levos.Base Levos.Lib

/-! ## The system -/

/-- The addresses of a host. -/
structure HostAddr where
  mac : BitVec 48
  ip : BitVec 32

/-- A host: whether it has not crashed, `ni_arp_kick`, the ARP cache and the
sockets of UDP. -/
structure LanHost where
  up : Bool
  arpKick : Bool
  cache : ArpCache
  udp : UdpState

/-- A datagram a host has sent; kept for the statements. -/
structure SentDgram where
  dstIp : BitVec 32
  dstPort : BitVec 16
  data : List UInt8
deriving DecidableEq

structure LanState (H : Type) where
  host : H → LanHost
  wire : List (List UInt8)
  sent : List SentDgram

/-- What a host that receives a frame finds: the memory behind it, and the
results of its allocations. -/
structure Receipt where
  behind : Nat → UInt8
  mem : Alloc
  entry : Option Nat
  rehashOk : Bool
  dgramMem : Bool
  bufferMem : Bool

/-- The longest frame the Ethernet carries. -/
def ethMaxFrame : Nat := 1514

inductive LanOp (H : Type) : Type where
  | kick (h : H)
  | socket (h : H) (op : UdpOp)
  | resolve (h : H) (ip : BitVec 32) (mem : Alloc)
  | expire (h : H) (entry : ArpCacheEntry) (rehashOk : Bool)
  | write (h : H) (s : Nat) (data : List UInt8) (mem : Alloc)
  | receive (h : H) (frame : List UInt8) (r : Receipt)
  | foreign (frame : List UInt8)

/-- A frame as it lies in the memory of the host that receives it. -/
def receivedFrame (frame : List UInt8) (behind : Nat → UInt8) : Frame :=
  { mem := putList behind 0 frame, len := frame.length }

/-- The headers are there, and the frame is neither a reply of ARP nor a
datagram of UDP. -/
def isForeign (frame : List UInt8) : Bool :=
  let f := receivedFrame frame fun _ => 0
  42 ≤ frame.length ∧ ¬(ethGetProto f = ethTypeArp ∧ arpOpcode f = arpOpcodeReply) ∧
    ¬(ethGetProto f = ethTypeIp4 ∧ ipProto f = ipProtoUdp)

variable {H : Type} (addr : H → HostAddr)

def netInfoOf (h : H) : NetInfo := { hwMac := ethBytes (addr h).mac, srcIp := (addr h).ip }

/-- `send_packet`. -/
def LanState.send (s : LanState H) (pkt : Packet) : LanState H :=
  if pkt.len ≤ ethMaxFrame then { s with wire := pkt.bytes :: s.wire } else s

/-- No host knows another, and nothing was sent. -/
def lanInit : LanState H :=
  { host := fun _ => { up := true, arpKick := false, cache := arpCacheInit, udp := udpInit }
    wire := [], sent := [] }

/-- `udp_sock_write` once the address is in the cache. `none` where it is not,
and where the payload gets no memory: the null buffer is sent all the same. -/
def udpSockWrite (s : LanState H) (h : H) (sock : Socket) (data : List UInt8) (mem : Alloc) :
    Option (LanState H) :=
  match sock.priv with
  | none => some s
  | some p => do
      let usp ← (s.host h).udp.priv p
      -- `usp_dstip` is the address of the connect, swapped
      let pkt ← udpConstructPacket mem (arpGetEthAddr (s.host h).cache) (ethBytes (addr h).mac)
        (addr h).ip usp.srcPort (toBe32 usp.dstIp) usp.dstPort
      let pkt ← udpSetPayload (mem 4) pkt data
      let dgram : SentDgram := { dstIp := usp.dstIp, dstPort := usp.dstPort, data }
      some ({ s with sent := dgram :: s.sent }.send pkt)

section Steps

variable [DecidableEq H]

def LanState.setHost (s : LanState H) (h : H) (v : LanHost) : LanState H :=
  { s with host := Function.update s.host h v }

@[simp] theorem LanState.setHost_sent (s : LanState H) (h : H) (v : LanHost) :
    (s.setHost h v).sent = s.sent := rfl

@[simp] theorem LanState.setHost_self (s : LanState H) (h : H) (v : LanHost) :
    (s.setHost h v).host h = v := by
  simp [setHost]

@[simp] theorem LanState.setHost_of_ne (s : LanState H) {g h : H} (hne : g ≠ h) (v : LanHost) :
    (s.setHost h v).host g = s.host g := by
  simp [setHost, hne]

def LanState.crash (s : LanState H) (h : H) : LanState H :=
  s.setHost h { s.host h with up := false }

/-- What the sockets see of the network: its interface, and no routes but the
one. -/
def receiptEnv (h : H) (r : Receipt) : NetEnv :=
  { ni := netInfoOf addr h, udpSock := fun _ => none, tcpInfo := fun _ => none, replyGrows := true,
    dgramMem := r.dgramMem, bufferMem := r.bufferMem }

def oneRoute (_ : BitVec 32) : Nat := 0

/-- `arp_handle_packet` and what it does to the host. -/
def receiveArp (s : LanState H) (h : H) (r : Receipt) (f : Frame) : Option (LanState H) :=
  match arpHandlePacket r.mem (netInfoOf addr h) (s.host h).arpKick f with
  | .drop => some s
  | .insert ip eth =>
      (arpStep (s.host h).cache (.insert ip eth r.entry r.rehashOk)).map fun cache =>
        s.setHost h { s.host h with cache }
  | .reply none => some (s.crash h)
  | .reply (some pkt) => some (s.send pkt)

/-- `udp_handle_packet`; with its address settled, a host ignores DHCP. -/
def receiveUdp (s : LanState H) (h : H) (r : Receipt) (f : Frame) : Option (LanState H) :=
  if udpDstPort f = 68 ∧ udpSrcPort f = 67 then some s
  else
    (udpStep oneRoute (s.host h).udp (.packet 0 (udpPacketOf (receiptEnv addr h r) f))).map
      fun udp => s.setHost h { s.host h with udp }

/-- `do_handle_packet` and `ip_handle_packet`, of ARP and UDP; what the other
protocols send in answer is foreign. -/
def receiveFrame (s : LanState H) (h : H) (r : Receipt) (f : Frame) : Option (LanState H) :=
  if ethShouldDrop (netInfoOf addr h) f then some s
  else if ethGetProto f = ethTypeIp4 then
    if ipGetVersion f ≠ 4 then some s
    else if ipShouldDrop (netInfoOf addr h) f then some s
    else if ipProto f = ipProtoUdp then receiveUdp addr s h r f
    else some s
  else if ethGetProto f = ethTypeArp then receiveArp addr s h r f
  else some s

/-- The sockets' own operations; packets come from the network. -/
def UdpOp.isLocal : UdpOp → Bool
  | .packet _ _ => false
  | _ => true

/-- One step of a host that is up, or a frame of another station. -/
def lanStep (s : LanState H) : LanOp H → Option (LanState H)
  | .kick h =>
      if (s.host h).up then some (s.setHost h { s.host h with arpKick := true }) else none
  | .socket h op =>
      if (s.host h).up ∧ op.isLocal then
        (udpStep oneRoute (s.host h).udp op).map fun udp => s.setHost h { s.host h with udp }
      else none
  | .resolve h ip mem =>
      -- `arp_do_request_eth`, after a miss
      if (s.host h).up ∧ arpGetEthAddr (s.host h).cache ip = none then
        match arpConstructRequestEthIp mem (ethBytes (addr h).mac) (addr h).ip ip with
        | none => some s
        | some pkt => some (s.send pkt)
      else none
  | .expire h entry rehashOk =>
      if (s.host h).up then
        (arpStep (s.host h).cache (.expire entry rehashOk)).map fun cache =>
          s.setHost h { s.host h with cache }
      else none
  | .write h sk data mem =>
      if (s.host h).up then
        ((s.host h).udp.sock sk).bind fun sock => udpSockWrite addr s h sock data mem
      else none
  | .receive h frame r =>
      if (s.host h).up ∧ frame ∈ s.wire then receiveFrame addr s h r (receivedFrame frame r.behind)
      else none
  | .foreign frame =>
      if isForeign frame then some { s with wire := frame :: s.wire } else none

end Steps

/-! ## What is true of a state -/

/-- What the frame says is so, whatever lies behind it: a reply gives the
address of the host that has the IP address, and a datagram was sent. -/
structure FrameTrue (sent : List SentDgram) (frame : List UInt8) : Prop where
  arp : ∀ f : Frame, HoldsAt f.mem 0 frame → ethGetProto f = ethTypeArp →
    arpOpcode f = arpOpcodeReply → ∃ g, loadIp f.mem (arpGetPsrc f) = toBe32 (addr g).ip ∧
      ethAt f.mem arpGetHsrc = (addr g).mac
  udp : ∀ f : Frame, HoldsAt f.mem 0 frame → ethGetProto f = ethTypeIp4 →
    ipProto f = ipProtoUdp → ∃ w ∈ sent, ipDstaddr f = w.dstIp ∧ udpDstPort f = w.dstPort ∧
      (udpLen f).toNat = 8 + w.data.length ∧ HoldsAt f.mem 42 w.data

/-- A datagram in a queue was sent to this address, or to all. -/
def DgramTrue (sent : List SentDgram) (ip : BitVec 32) (d : UdpDgram) : Prop :=
  ∃ w ∈ sent, (w.dstIp = ip ∨ w.dstIp = 0xffffffff) ∧ d.len = w.data.length ∧
    HoldsAt d.buffer 0 w.data

/-- Every datagram in a queue is as it should be. -/
def DgramsAre (P : UdpDgram → Prop) (st : UdpState) : Prop :=
  ∀ p usp, st.priv p = some usp → ∀ d ∈ usp.dgrams, P d

/-- An entry has the address of the host that has the IP address. -/
def EntryTrue (e : ArpCacheEntry) : Prop := ∃ g, e.ip = toBe32 (addr g).ip ∧ e.eth = (addr g).mac

structure LanTrue (s : LanState H) : Prop where
  wire : ∀ frame ∈ s.wire, FrameTrue addr s.sent frame
  cache : ∀ h, ∀ e ∈ (s.host h).cache.pending, EntryTrue addr e
  dgrams : ∀ h, DgramsAre (DgramTrue s.sent (addr h).ip) (s.host h).udp

variable {addr} {s s' : LanState H}

theorem DgramTrue.cons {sent : List SentDgram} {ip : BitVec 32} {d : UdpDgram}
    (h : DgramTrue sent ip d) (w : SentDgram) : DgramTrue (w :: sent) ip d := by
  obtain ⟨v, hv, htrue⟩ := h
  exact ⟨v, List.mem_cons_of_mem w hv, htrue⟩

theorem FrameTrue.cons {sent : List SentDgram} {frame : List UInt8}
    (h : FrameTrue addr sent frame) (w : SentDgram) : FrameTrue addr (w :: sent) frame := by
  refine ⟨h.arp, fun f hf hproto hudp => ?_⟩
  obtain ⟨v, hv, htrue⟩ := h.udp f hf hproto hudp
  exact ⟨v, List.mem_cons_of_mem w hv, htrue⟩

theorem lanInit_true (addr : H → HostAddr) : LanTrue addr lanInit := by
  refine ⟨fun _ h => ?_, fun _ _ h => ?_, fun _ _ _ h => ?_⟩
  · cases h
  · cases h
  · cases h

theorem LanTrue.send (hs : LanTrue addr s) {pkt : Packet}
    (hpkt : pkt.len ≤ ethMaxFrame → FrameTrue addr s.sent pkt.bytes) : LanTrue addr (s.send pkt) := by
  rw [LanState.send]
  split
  · next hlen =>
      refine ⟨fun frame hf => ?_, hs.cache, hs.dgrams⟩
      rcases List.mem_cons.mp hf with rfl | hf
      · exact hpkt hlen
      · exact hs.wire frame hf
  · exact hs

/-! ## The frames that are sent -/

theorem request_true {mem : Alloc} {h : H} {ip : BitVec 32} {pkt : Packet} (sent : List SentDgram)
    (hreq : arpConstructRequestEthIp mem (ethBytes (addr h).mac) (addr h).ip ip = some pkt) :
    FrameTrue addr sent pkt.bytes := by
  obtain ⟨hlen, -, hholds⟩ := arpConstructRequestEthIp_some hreq (ethBytes_length _)
  have hfields : ∀ f : Frame, HoldsAt f.mem 0 pkt.bytes →
      ethGetProto f = ethTypeArp ∧ arpOpcode f = arpOpcodeRequest := fun f hf => by
    have hframe := hholds.of_memBytes hf (by rw [arpFrame_length rfl rfl rfl rfl, hlen])
    obtain ⟨-, hproto, hop, -⟩ := arpFrame_fields hframe rfl rfl rfl rfl
    exact ⟨hproto, hop⟩
  refine ⟨fun f hf _ hop => ?_, fun f hf hproto => ?_⟩
  · rw [(hfields f hf).2] at hop
    exact absurd hop (by decide)
  · rw [(hfields f hf).1] at hproto
    exact absurd hproto (by decide)

theorem reply_true {mem : Alloc} {h : H} {f : Frame} {pkt : Packet} (sent : List SentDgram)
    (hreply : arpSendReplyUs mem (netInfoOf addr h) f = some pkt) :
    FrameTrue addr sent pkt.bytes := by
  obtain ⟨hlen, hholds⟩ := arpSendReplyUs_some hreply (ethBytes_length _)
  have hsix : (f.bytes arpGetHsrc 6).length = 6 := by simp [Frame.bytes]
  have hframe : ∀ g : Frame, HoldsAt g.mem 0 pkt.bytes → _ := fun g hg =>
    hholds.of_memBytes hg (by rw [arpFrame_length hsix rfl rfl hsix, hlen])
  refine ⟨fun g hg _ _ => ⟨h, ?_⟩, fun g hg hproto => ?_⟩
  · obtain ⟨-, -, -, -, -, hsrc, hip, -⟩ := arpFrame_fields (hframe g hg) hsix rfl rfl hsix
    refine ⟨hip, ethAt_of_holds (holdsAt_iff_memBytes.mpr hsrc)⟩
  · obtain ⟨-, hproto', -⟩ := arpFrame_fields (hframe g hg) hsix rfl rfl hsix
    rw [hproto'] at hproto
    exact absurd hproto (by decide)

theorem datagram_true {srceth dsteth : List UInt8} {srcip : BitVec 32} {srcport : BitVec 16}
    {pkt : Packet} {w : SentDgram} (sent : List SentDgram) (hs : srceth.length = 6)
    (hd : dsteth.length = 6) (hlen : pkt.len = 42 + w.data.length) (hmax : pkt.len ≤ ethMaxFrame)
    (hframe : UdpFrameAt pkt.buf dsteth srceth srcip w.dstIp srcport w.dstPort w.data) :
    FrameTrue addr (w :: sent) pkt.bytes := by
  have hshort : w.data.length < 65508 := by
    rw [ethMaxFrame] at hmax
    omega
  have hfields : ∀ f : Frame, HoldsAt f.mem 0 pkt.bytes → _ := fun f hf =>
    (hframe.of_memBytes hf hd hs (by rw [hlen])).fields hd hs hshort
  refine ⟨fun f hf hproto => ?_, fun f hf _ _ => ⟨w, List.mem_cons_self, ?_⟩⟩
  · rw [(hfields f hf).2.1] at hproto
    exact absurd hproto (by decide)
  · obtain ⟨-, -, -, -, -, hdst, -, hport, hudp, hdata⟩ := hfields f hf
    exact ⟨hdst, hport, hudp, hdata⟩

/-- The fields that make a frame foreign are in its first bytes. -/
theorem foreign_true {frame : List UInt8} (sent : List SentDgram) (hf : isForeign frame) :
    FrameTrue addr sent frame := by
  simp only [isForeign, decide_eq_true_eq] at hf
  obtain ⟨hlen, harp, hudp⟩ := hf
  have hbyte : ∀ f : Frame, HoldsAt f.mem 0 frame → ∀ a < 42,
      f.mem a = (receivedFrame frame fun _ => 0).mem a := fun f h a ha => by
    have h1 := h a (by omega)
    have h2 := holdsAt_putList (fun _ => 0) 0 frame a (by omega)
    rw [Nat.zero_add] at h1 h2
    exact h1.trans h2.symm
  have hfield : ∀ f : Frame, HoldsAt f.mem 0 frame → ∀ a, a + 1 < 42 →
      f.field16 a = (receivedFrame frame fun _ => 0).field16 a := fun f h a ha => by
    rw [Frame.field16, Frame.field16, Frame.byte, Frame.byte, Frame.byte, Frame.byte,
      hbyte f h a (by omega), hbyte f h (a + 1) ha]
  refine ⟨fun f h hproto hop => (harp ⟨?_, ?_⟩).elim, fun f h hproto hp => (hudp ⟨?_, ?_⟩).elim⟩
  · rw [ethGetProto, ← hfield f h 12 (by omega)]
    exact hproto
  · rw [arpOpcode, ← hfield f h (arpOffset + 6) (by decide)]
    exact hop
  · rw [ethGetProto, ← hfield f h 12 (by omega)]
    exact hproto
  · rw [ipProto, Frame.byte, ← hbyte f h (ipOffset + 9) (by decide)]
    exact hp

/-! ## Steps of the sockets -/

theorem DgramsAre.setPriv {P : UdpDgram → Prop} {st : UdpState} (h : DgramsAre P st) {p : Nat}
    {v : Option UdpSockPriv} (hv : ∀ usp, v = some usp → ∀ d ∈ usp.dgrams, P d) :
    DgramsAre P (st.setPriv p v) := by
  intro q usp hq
  by_cases hp : q = p
  · subst hp
    exact hv usp (by simpa [UdpState.setPriv] using hq)
  · exact h q usp (by simpa [UdpState.setPriv, hp] using hq)

theorem udpSockRead_some {st : UdpState} {sock : Socket} {len : Int} {r : UdpRead × UdpState}
    (h : udpSockRead st sock len = some r) :
    ∃ p, sock.priv = some p ∧ ∃ usp, st.priv p = some usp ∧ ∃ q, udpRead usp len = some q ∧
      r = (q.1, st.setPriv p (some q.2)) := by
  obtain ⟨p, hp, h⟩ := Option.bind_eq_some_iff.mp h
  obtain ⟨usp, husp, h⟩ := Option.bind_eq_some_iff.mp h
  obtain ⟨q, hq, rfl⟩ := Option.map_eq_some_iff.mp h
  exact ⟨p, hp, usp, husp, q, hq, rfl⟩

theorem udpRead_some {usp : UdpSockPriv} {len : Int} {q : UdpRead × UdpSockPriv}
    (h : udpRead usp len = some q) :
    ∃ udg rest, usp.dgrams = udg :: rest ∧ q.2.dgrams = rest ∧
      q.1 = { count := min len udg.len, copied := (min len udg.len).toNat, bytes := udg.buffer } := by
  cases hd : usp.dgrams with
  | nil =>
      rw [udpRead, udpPopDgram, hd] at h
      cases h
  | cons udg rest =>
      rw [udpRead_cons hd] at h
      obtain rfl := Option.some.inj h
      exact ⟨udg, rest, rfl, rfl, rfl⟩

/-- What one operation can add to a queue: the datagram of its packet. -/
theorem udpStep_dgrams {route : BitVec 32 → Nat} {P : UdpDgram → Prop} {st st' : UdpState}
    {op : UdpOp} (h : DgramsAre P st) (hstep : udpStep route st op = some st')
    (hpkt : ∀ ni pkt, op = .packet ni pkt → P { buffer := pkt.payload, len := pkt.payloadLen }) :
    DgramsAre P st' := by
  cases op with
  | create s ni =>
      rw [udpStep] at hstep
      split at hstep
      · exact Option.some.inj hstep ▸ h
      · cases hstep
  | connect s c =>
      rw [udpStep] at hstep
      split at hstep
      · cases hstep
      split at hstep
      · obtain rfl := Option.some.inj hstep
        rw [udpSockConnect]
        split
        · exact h
        · exact DgramsAre.setPriv h fun usp husp d hd => by
            obtain rfl := Option.some.inj husp
            cases hd
      · cases hstep
  | destroy s =>
      obtain ⟨sock, -, rfl⟩ := Option.map_eq_some_iff.mp hstep
      rw [udpSockDestroy]
      split
      · exact h
      split
      · exact h
      · exact DgramsAre.setPriv h fun usp husp => by cases husp
  | packet ni pkt =>
      obtain ⟨r, hr, rfl⟩ := Option.map_eq_some_iff.mp hstep
      rw [doUdpHandlePacket] at hr
      split at hr
      · obtain rfl := Option.some.inj hr
        exact h
      · obtain ⟨usp, husp, rfl⟩ := Option.map_eq_some_iff.mp hr
        refine DgramsAre.setPriv h fun usp' husp' d hd => ?_
        obtain rfl := Option.some.inj husp'
        by_cases hst : UdpStored usp pkt
        · rw [udpReceive_stored hst, UdpSockPriv.queued, List.mem_append, List.mem_singleton] at hd
          rcases hd with hd | rfl
          · exact h _ usp husp d hd
          · exact hpkt ni pkt rfl
        · rw [udpReceive_dropped hst] at hd
          exact h _ usp husp d hd
  | read s len =>
      obtain ⟨sock, -, hread⟩ := Option.bind_eq_some_iff.mp hstep
      obtain ⟨r, hr, rfl⟩ := Option.map_eq_some_iff.mp hread
      obtain ⟨p, -, usp, husp, ⟨read, usp'⟩, hpop, rfl⟩ := udpSockRead_some hr
      refine DgramsAre.setPriv h fun usp'' husp'' d hd => ?_
      obtain rfl := Option.some.inj husp''
      obtain ⟨udg, rest, hdgrams, hrest, -⟩ := udpRead_some hpop
      rw [hrest] at hd
      exact h p usp husp d (hdgrams ▸ List.mem_cons_of_mem udg hd)

/-! ## Steps of the network -/

/-- What a write changes: one more datagram was sent, and its frame is there. -/
theorem udpSockWrite_some {h : H} {sock : Socket} {data : List UInt8} {mem : Alloc}
    (hwrite : udpSockWrite addr s h sock data mem = some s') :
    (sock.priv = none ∧ s' = s) ∨
    ∃ p usp eth pkt, sock.priv = some p ∧ (s.host h).udp.priv p = some usp ∧
      arpGetEthAddr (s.host h).cache usp.dstIp = some eth ∧ pkt.len = 42 + data.length ∧
      UdpFrameAt pkt.buf (ethBytes eth) (ethBytes (addr h).mac) (addr h).ip usp.dstIp usp.srcPort
        usp.dstPort data ∧
      s' = { s with sent := ⟨usp.dstIp, usp.dstPort, data⟩ :: s.sent }.send pkt := by
  rw [udpSockWrite] at hwrite
  split at hwrite
  · next hpriv => exact .inl ⟨hpriv, (Option.some.inj hwrite).symm⟩
  · next p hpriv =>
      simp only [Option.bind_eq_bind, Option.bind_eq_some_iff] at hwrite
      obtain ⟨usp, husp, pkt, hpkt, pkt', hset, hs'⟩ := hwrite
      obtain ⟨eth, heth, hlen, hframe⟩ := udpSetPayload_some hpkt hset (ethBytes_length _)
      rw [toBe32_toBe32] at heth hframe
      exact .inr ⟨p, usp, eth, pkt', hpriv, husp, heth, hlen, hframe, (Option.some.inj hs').symm⟩

/-- Two entries for one address agree. -/
theorem EntryTrue.eth_eq (hinj : Function.Injective fun h => (addr h).ip) {e e' : ArpCacheEntry}
    (h : EntryTrue addr e) (h' : EntryTrue addr e') (hip : e.ip = e'.ip) : e.eth = e'.eth := by
  obtain ⟨g, hg, heth⟩ := h
  obtain ⟨g', hg', heth'⟩ := h'
  have hsame : (addr g).ip = (addr g').ip := by
    rw [← toBe32_toBe32 (addr g).ip, ← hg, hip, hg', toBe32_toBe32]
  rw [heth, heth', hinj hsame]

/-- A received frame, as it was sent. -/
structure Received (s : LanState H) (frame : List UInt8) (f : Frame) : Prop where
  mem : frame ∈ s.wire
  holds : HoldsAt f.mem 0 frame

/-- What a reply puts into the cache is true. -/
theorem LanTrue.learn (hs : LanTrue addr s) {h : H} {r : Receipt} {frame : List UInt8} {f : Frame}
    (hrecv : Received s frame f) (hproto : ethGetProto f = ethTypeArp)
    (hop : arpOpcode f = arpOpcodeReply) {cache : ArpCache}
    (hcache : arpStep (s.host h).cache (.insert (loadIp f.mem (arpGetPsrc f))
      (ethAt f.mem arpGetHsrc) r.entry r.rehashOk) = some cache) :
    ∀ e ∈ cache.pending, EntryTrue addr e := by
  cases hentry : r.entry with
  | none =>
      rw [hentry, arpStep, Option.some.injEq] at hcache
      exact hcache ▸ hs.cache h
  | some p =>
      rw [hentry] at hcache
      obtain ⟨-, rfl⟩ := arpStep_insert hcache
      intro e he
      rcases List.mem_cons.mp he with rfl | he
      · exact (hs.wire frame hrecv.mem).arp f hrecv.holds hproto hop
      · exact hs.cache h e he

/-- What a received datagram puts into a queue was sent. -/
theorem LanTrue.datagram (hs : LanTrue addr s) {h : H} {r : Receipt} {frame : List UInt8} {f : Frame}
    (hrecv : Received s frame f) (hproto : ethGetProto f = ethTypeIp4)
    (hp : ipProto f = ipProtoUdp)
    (hus : ipDstaddr f = (addr h).ip ∨ ipDstaddr f = 0xffffffff) :
    DgramTrue s.sent (addr h).ip
      { buffer := (udpPacketOf (receiptEnv addr h r) f).payload
        len := (udpPacketOf (receiptEnv addr h r) f).payloadLen } := by
  obtain ⟨w, hw, hdst, -, hlen, hdata⟩ := (hs.wire frame hrecv.mem).udp f hrecv.holds hproto hp
  rw [hdst] at hus
  refine ⟨w, hw, hus, ?_, holdsAt_shift.mpr hdata⟩
  show ((udpLen f).toNat : Int) - 8 = w.data.length
  omega

theorem arpStep_true (hinj : Function.Injective fun h => (addr h).ip) {cache cache' : ArpCache}
    {op : ArpOp} (hok : ArpOk cache) (hstep : arpStep cache op = some cache')
    (hafter : ∀ e ∈ cache'.pending, EntryTrue addr e) : ArpOk cache' := by
  cases op with
  | insert ip eth mem rehashOk =>
      cases mem with
      | none =>
          rw [arpStep, Option.some.injEq] at hstep
          exact hstep ▸ hok
      | some p =>
          obtain ⟨hfresh, rfl⟩ := arpStep_insert hstep
          have hnew : EntryTrue addr ⟨p, eth, ip⟩ := hafter _ List.mem_cons_self
          refine hok.insert rehashOk hfresh fun x hx hip => ?_
          have hold := hafter x (List.mem_cons_of_mem _ (hok.pending x hx))
          exact hold.eth_eq hinj hnew hip
  | expire entry rehashOk =>
      obtain ⟨-, rfl⟩ := arpStep_expire hstep
      exact hok.expire_any entry rehashOk

/-- Everything is true, and each cache in order. -/
structure LanOk (addr : H → HostAddr) (s : LanState H) : Prop extends LanTrue addr s where
  caches : ∀ h, ArpOk (s.host h).cache

/-- A hit gives the Ethernet address of the host that has the IP address. -/
theorem LanOk.hit (hs : LanOk addr s) {h : H} {ip : BitVec 32} {eth : BitVec 48}
    (hhit : arpGetEthAddr (s.host h).cache ip = some eth) :
    ∃ g, (addr g).ip = ip ∧ (addr g).mac = eth := by
  obtain ⟨x, hfind, rfl⟩ := Option.map_eq_some_iff.mp hhit
  obtain ⟨hx, hip⟩ := (hs.caches h).find_iff.mp hfind
  obtain ⟨g, hg, heth⟩ := hs.cache h x ((hs.caches h).pending x hx)
  refine ⟨g, ?_, heth.symm⟩
  rw [← toBe32_toBe32 (addr g).ip, ← hg, hip]
  exact toBe32_toBe32 ip

section Run

variable [DecidableEq H]

/-- What one step can do. -/
inductive LanStepped (addr : H → HostAddr) (s : LanState H) : LanState H → Prop where
  | idle : LanStepped addr s s
  | flags (h : H) (up arpKick : Bool) :
      LanStepped addr s (s.setHost h { s.host h with up, arpKick })
  | sends {pkt : Packet} (hpkt : FrameTrue addr s.sent pkt.bytes) : LanStepped addr s (s.send pkt)
  | foreign {frame : List UInt8} (hf : isForeign frame) :
      LanStepped addr s { s with wire := frame :: s.wire }
  | expire {h : H} {entry : ArpCacheEntry} {rehashOk : Bool} {cache : ArpCache}
      (hcache : arpStep (s.host h).cache (.expire entry rehashOk) = some cache) :
      LanStepped addr s (s.setHost h { s.host h with cache })
  | learn {h : H} {r : Receipt} {frame : List UInt8} {f : Frame} (hrecv : Received s frame f)
      (hproto : ethGetProto f = ethTypeArp) (hop : arpOpcode f = arpOpcodeReply) {cache : ArpCache}
      (hcache : arpStep (s.host h).cache (.insert (loadIp f.mem (arpGetPsrc f))
        (ethAt f.mem arpGetHsrc) r.entry r.rehashOk) = some cache) :
      LanStepped addr s (s.setHost h { s.host h with cache })
  | socket {h : H} {op : UdpOp} (hlocal : op.isLocal) {udp : UdpState}
      (hudp : udpStep oneRoute (s.host h).udp op = some udp) :
      LanStepped addr s (s.setHost h { s.host h with udp })
  | datagram {h : H} {r : Receipt} {frame : List UInt8} {f : Frame} (hrecv : Received s frame f)
      (hproto : ethGetProto f = ethTypeIp4) (hp : ipProto f = ipProtoUdp)
      (hus : ipDstaddr f = (addr h).ip ∨ ipDstaddr f = 0xffffffff) {udp : UdpState}
      (hudp : udpStep oneRoute (s.host h).udp
        (.packet 0 (udpPacketOf (receiptEnv addr h r) f)) = some udp) :
      LanStepped addr s (s.setHost h { s.host h with udp })
  | write {w : SentDgram} {pkt : Packet}
      (hpkt : pkt.len ≤ ethMaxFrame → FrameTrue addr (w :: s.sent) pkt.bytes) :
      LanStepped addr s ({ s with sent := w :: s.sent }.send pkt)

theorem receiveArp_stepped {h : H} {r : Receipt} {frame : List UInt8} {f : Frame}
    (hrecv : Received s frame f) (hproto : ethGetProto f = ethTypeArp)
    (hstep : receiveArp addr s h r f = some s') : LanStepped addr s s' := by
  rw [receiveArp] at hstep
  rcases arpHandlePacket_cases r.mem (netInfoOf addr h) (s.host h).arpKick f with
    hact | ⟨hop, hact⟩ | ⟨-, -, -, -, -, hact⟩
  · rw [hact] at hstep
    exact Option.some.inj hstep ▸ .idle
  · rw [hact] at hstep
    obtain ⟨cache, hcache, rfl⟩ := Option.map_eq_some_iff.mp hstep
    exact .learn hrecv hproto hop hcache
  · rw [hact] at hstep
    cases hreply : arpSendReplyUs r.mem (netInfoOf addr h) f with
    | none =>
        rw [hreply] at hstep
        exact Option.some.inj hstep ▸ .flags h false (s.host h).arpKick
    | some pkt =>
        rw [hreply] at hstep
        exact Option.some.inj hstep ▸ .sends (reply_true _ hreply)

theorem receiveFrame_stepped {h : H} {r : Receipt} {frame : List UInt8} {f : Frame}
    (hrecv : Received s frame f) (hstep : receiveFrame addr s h r f = some s') :
    LanStepped addr s s' := by
  rw [receiveFrame] at hstep
  split at hstep
  · exact Option.some.inj hstep ▸ .idle
  split at hstep
  · next hip4 =>
      split at hstep
      · exact Option.some.inj hstep ▸ .idle
      split at hstep
      · exact Option.some.inj hstep ▸ .idle
      next hus =>
      split at hstep
      · next hp =>
          rw [receiveUdp] at hstep
          split at hstep
          · exact Option.some.inj hstep ▸ .idle
          · obtain ⟨udp, hudp, rfl⟩ := Option.map_eq_some_iff.mp hstep
            refine .datagram hrecv hip4 hp ?_ hudp
            rw [or_iff_not_imp_left]
            intro hne
            by_contra hbroad
            exact hus (decide_eq_true ⟨hne, hbroad⟩)
      · exact Option.some.inj hstep ▸ .idle
  split at hstep
  · next harp => exact receiveArp_stepped hrecv harp hstep
  · exact Option.some.inj hstep ▸ .idle

theorem lanStep_stepped {op : LanOp H} (hstep : lanStep addr s op = some s') :
    LanStepped addr s s' := by
  cases op with
  | kick h =>
      rw [lanStep] at hstep
      split at hstep
      · exact Option.some.inj hstep ▸ .flags h (s.host h).up true
      · cases hstep
  | socket h op =>
      rw [lanStep] at hstep
      split at hstep
      · next hlocal =>
          obtain ⟨udp, hudp, rfl⟩ := Option.map_eq_some_iff.mp hstep
          exact .socket hlocal.2 hudp
      · cases hstep
  | resolve h ip mem =>
      rw [lanStep] at hstep
      split at hstep
      · split at hstep
        · exact Option.some.inj hstep ▸ .idle
        · next hreq => exact Option.some.inj hstep ▸ .sends (request_true _ hreq)
      · cases hstep
  | expire h entry rehashOk =>
      rw [lanStep] at hstep
      split at hstep
      · obtain ⟨cache, hcache, rfl⟩ := Option.map_eq_some_iff.mp hstep
        exact .expire hcache
      · cases hstep
  | write h sk data mem =>
      rw [lanStep] at hstep
      split at hstep
      · obtain ⟨sock, -, hwrite⟩ := Option.bind_eq_some_iff.mp hstep
        rcases udpSockWrite_some hwrite with ⟨-, rfl⟩ | ⟨p, usp, eth, pkt, -, -, -, hlen, hframe, rfl⟩
        · exact .idle
        · exact .write fun hmax =>
            datagram_true s.sent (ethBytes_length _) (ethBytes_length _) hlen hmax hframe
      · cases hstep
  | receive h frame r =>
      rw [lanStep] at hstep
      split at hstep
      · next hmem => exact receiveFrame_stepped ⟨hmem.2, holdsAt_putList r.behind 0 frame⟩ hstep
      · cases hstep
  | foreign frame =>
      rw [lanStep] at hstep
      split at hstep
      · next hf => exact Option.some.inj hstep ▸ .foreign hf
      · cases hstep

/-! ## Every state is true -/

theorem LanTrue.setHost (hs : LanTrue addr s) {h : H} {v : LanHost}
    (hcache : ∀ e ∈ v.cache.pending, EntryTrue addr e)
    (hdgrams : DgramsAre (DgramTrue s.sent (addr h).ip) v.udp) : LanTrue addr (s.setHost h v) := by
  refine ⟨hs.wire, fun g => ?_, fun g => ?_⟩
  · by_cases hg : g = h
    · subst hg
      simpa using hcache
    · simpa [hg] using hs.cache g
  · by_cases hg : g = h
    · subst hg
      simpa using hdgrams
    · simpa [hg] using hs.dgrams g

theorem LanTrue.step (hs : LanTrue addr s) (hstep : LanStepped addr s s') : LanTrue addr s' := by
  cases hstep with
  | idle => exact hs
  | flags h up arpKick => exact hs.setHost (hs.cache h) (hs.dgrams h)
  | sends hpkt => exact hs.send fun _ => hpkt
  | foreign hf =>
      refine ⟨fun g hg => ?_, hs.cache, hs.dgrams⟩
      rcases List.mem_cons.mp hg with rfl | hg
      · exact foreign_true _ hf
      · exact hs.wire g hg
  | @expire h _ _ _ hcache =>
      obtain ⟨-, rfl⟩ := arpStep_expire hcache
      exact hs.setHost (fun e he => hs.cache h e (List.mem_of_mem_erase he)) (hs.dgrams h)
  | @learn h _ _ _ hrecv hproto hop _ hcache =>
      exact hs.setHost (hs.learn hrecv hproto hop hcache) (hs.dgrams h)
  | @socket h _ hlocal _ hudp =>
      refine hs.setHost (hs.cache h) (udpStep_dgrams (hs.dgrams h) hudp ?_)
      rintro ni pkt rfl
      cases hlocal
  | @datagram h r _ f hrecv hproto hp hus _ hudp =>
      refine hs.setHost (hs.cache h) (udpStep_dgrams (hs.dgrams h) hudp ?_)
      rintro ni pkt hpkt
      cases hpkt
      exact hs.datagram hrecv hproto hp hus
  | @write w _ hpkt =>
      have hmore : LanTrue addr { s with sent := w :: s.sent } :=
        ⟨fun frame hf => (hs.wire frame hf).cons w, hs.cache,
          fun g p usp husp d hd => (hs.dgrams g p usp husp d hd).cons w⟩
      exact hmore.send hpkt

/-! ## The caches -/

/-- The cache of a host after a step: as it was, or after one of its own
steps. -/
theorem LanStepped.cache (hstep : LanStepped addr s s') (g : H) :
    (s'.host g).cache = (s.host g).cache ∨
      ∃ op, arpStep (s.host g).cache op = some (s'.host g).cache := by
  have hset : ∀ (h : H) (v : LanHost), (v.cache = (s.host h).cache ∨
      ∃ op, arpStep (s.host h).cache op = some v.cache) →
      ((s.setHost h v).host g).cache = (s.host g).cache ∨
        ∃ op, arpStep (s.host g).cache op = some ((s.setHost h v).host g).cache := by
    intro h v hv
    by_cases hg : g = h
    · subst hg
      simpa [LanState.setHost] using hv
    · simp [LanState.setHost, hg]
  have hsend : ∀ (t : LanState H) (pkt : Packet), (t.send pkt).host = t.host := by
    intro t pkt
    rw [LanState.send]
    split <;> rfl
  cases hstep with
  | idle => exact .inl rfl
  | flags h up arpKick => exact hset h _ (.inl rfl)
  | sends hpkt =>
      rw [hsend]
      exact .inl rfl
  | foreign hf => exact .inl rfl
  | expire hcache => exact hset _ _ (.inr ⟨_, hcache⟩)
  | learn hrecv hproto hop hcache => exact hset _ _ (.inr ⟨_, hcache⟩)
  | socket hlocal hudp => exact hset _ _ (.inl rfl)
  | datagram hrecv hproto hp hus hudp => exact hset _ _ (.inl rfl)
  | write hpkt =>
      rw [hsend]
      exact .inl rfl

theorem lanRun_true {ops : List (LanOp H)} (hrun : runSteps (lanStep addr) lanInit ops = some s) :
    LanTrue addr s :=
  runSteps_invariant (I := LanTrue addr) (fun _ _ _ hs hstep => hs.step (lanStep_stepped hstep))
    (lanInit_true addr) hrun

theorem LanOk.run (hinj : Function.Injective fun h => (addr h).ip) (hs : LanOk addr s)
    {ops : List (LanOp H)} (hrun : runSteps (lanStep addr) s ops = some s') : LanOk addr s' := by
  refine runSteps_invariant (I := LanOk addr) (fun t op t' ht hstep => ?_) hs hrun
  have hstepped := lanStep_stepped hstep
  have htrue := ht.toLanTrue.step hstepped
  refine ⟨htrue, fun h => ?_⟩
  rcases hstepped.cache h with hsame | ⟨a, ha⟩
  · exact hsame ▸ ht.caches h
  · exact arpStep_true hinj (ht.caches h) ha (htrue.cache h)

theorem lanRun_ok (hinj : Function.Injective fun h => (addr h).ip) {ops : List (LanOp H)}
    (hrun : runSteps (lanStep addr) lanInit ops = some s) : LanOk addr s :=
  LanOk.run hinj ⟨lanInit_true addr, fun _ => arpInit_ok⟩ hrun

/-- **The ARP caches are true.** Whatever frames are lost, repeated, late or out
of order, whichever allocations fail, entries expire and hosts crash: what a
host finds in its cache is the Ethernet address of the host with that IP
address. -/
theorem arp_hits_true (hinj : Function.Injective fun h => (addr h).ip) {ops : List (LanOp H)}
    (hrun : runSteps (lanStep addr) lanInit ops = some s) {h : H} {ip : BitVec 32}
    {eth : BitVec 48} (hhit : arpGetEthAddr (s.host h).cache ip = some eth) :
    ∃ g, (addr g).ip = ip ∧ (addr g).mac = eth :=
  (lanRun_ok hinj hrun).hit hhit

end Run

/-! ## Two hosts -/

def twoHosts (h : Bool) : HostAddr :=
  if h then { mac := 0x525400654321, ip := 0xc0a80002 }
  else { mac := 0x525400123456, ip := 0xc0a80001 }

theorem twoHosts_injective : Function.Injective fun h => (twoHosts h).ip := by decide

/-- Every allocation succeeds, with the cache entry at `p`. -/
def easyReceipt (p : Nat) : Receipt :=
  { behind := fun _ => 0, mem := fun _ => some fun _ => 0, entry := some p, rehashOk := true
    dgramMem := true, bufferMem := true }

/-- One host asks for the other, which answers. -/
def resolveRun : List (LanOp Bool) :=
  let mac : BitVec 48 := 0x525400123456
  let mac' : BitVec 48 := 0x525400654321
  [.kick true, .resolve false 0xc0a80002 (easyReceipt 0).mem,
    .receive true (arpFrame ethBroadcastAddr (ethBytes mac) arpOpcodeRequest (ethBytes mac) 0xc0a80001
      (ethBytes 0) 0xc0a80002) (easyReceipt 0),
    .receive false (arpFrame (ethBytes mac) (ethBytes mac') arpOpcodeReply (ethBytes mac') 0xc0a80002
      (ethBytes mac) 0xc0a80001) (easyReceipt 7)]

theorem arp_hits_true_two : ∃ g, (twoHosts g).ip = 0xc0a80002 ∧ (twoHosts g).mac = 0x525400654321 := by
  have hsome : (runSteps (lanStep twoHosts) lanInit resolveRun).isSome = true := by decide +kernel
  have hhit : (runSteps (lanStep twoHosts) lanInit resolveRun).map
      (fun s => arpGetEthAddr (s.host false).cache 0xc0a80002) = some (some 0x525400654321) := by
    decide +kernel
  obtain ⟨s, hs⟩ := Option.isSome_iff_exists.mp hsome
  rw [hs, Option.map_some] at hhit
  exact arp_hits_true twoHosts_injective hs (Option.some.inj hhit)

end Levos.Net
