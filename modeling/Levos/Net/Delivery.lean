import Levos.Net.Network

/-!
# Datagrams that get through

Whatever has happened before, a host that is up can come to know another one
and send it a datagram: the steps of both, one after the other.
-/

namespace Levos.Net

open Levos.Base Levos.Lib

variable {H : Type} {addr : H → HostAddr} {s s' : LanState H}

theorem send_short (s : LanState H) {pkt : Packet} (h : pkt.len ≤ ethMaxFrame) :
    s.send pkt = { s with wire := pkt.bytes :: s.wire } := if_pos h

/-- A frame for one address, or for all, is not dropped. -/
theorem ethShouldDrop_false {ni : NetInfo} {f : Frame}
    (h : f.bytes 0 6 = ni.hwMac ∨ f.bytes 0 6 = ethBroadcastAddr) : ethShouldDrop ni f = false := by
  refine decide_eq_false fun hne => ?_
  rcases h with hown | hall
  · exact hne.1 hown
  · exact hne.2 hall

/-- The frame is one of ARP, with these fields, however it is received. -/
def IsArp (frame ethDst ethSrc : List UInt8) (opcode : BitVec 16) (hsrc : List UInt8)
    (psrc : BitVec 32) (hdst : List UInt8) (pdst : BitVec 32) : Prop :=
  ∀ f : Frame, HoldsAt f.mem 0 frame →
    HoldsAt f.mem 0 (arpFrame ethDst ethSrc opcode hsrc psrc hdst pdst)

section Through

variable [DecidableEq H] {h g : H} {p : Nat} {frame : List UInt8}

theorem lanStep_resolve {ip : BitVec 32} (hup : (s.host h).up = true)
    (hmiss : arpGetEthAddr (s.host h).cache ip = none) :
    ∃ frame, lanStep addr s (.resolve h ip (easyReceipt 0).mem) =
        some { s with wire := frame :: s.wire } ∧
      IsArp frame ethBroadcastAddr (ethBytes (addr h).mac) arpOpcodeRequest (ethBytes (addr h).mac)
        (addr h).ip (ethBytes ethNullAddr) ip := by
  obtain ⟨pkt, hpkt⟩ : ∃ pkt, arpConstructRequestEthIp (easyReceipt 0).mem (ethBytes (addr h).mac)
      (addr h).ip ip = some pkt := ⟨_, rfl⟩
  obtain ⟨hlen, -, hholds⟩ := arpConstructRequestEthIp_some hpkt (ethBytes_length _)
  refine ⟨pkt.bytes, ?_, fun f hf => hholds.of_memBytes hf ?_⟩
  · rw [lanStep, if_pos ⟨hup, hmiss⟩, hpkt]
    dsimp only
    rw [send_short s (by rw [hlen, ethMaxFrame]; decide)]
  · rw [arpFrame_length rfl rfl rfl rfl, hlen]

/-- A frame that is received, and what is in it. -/
theorem lanStep_receive {r : Receipt} (hup : (s.host h).up = true) (hmem : frame ∈ s.wire) :
    lanStep addr s (.receive h frame r) =
      receiveFrame addr s h r (receivedFrame frame r.behind) :=
  if_pos ⟨hup, hmem⟩

theorem receiveFrame_arp {r : Receipt} {f : Frame}
    (hdst : f.bytes 0 6 = ethBytes (addr h).mac ∨ f.bytes 0 6 = ethBroadcastAddr)
    (hproto : ethGetProto f = ethTypeArp) :
    receiveFrame addr s h r f = receiveArp addr s h r f := by
  have hne : ¬ethTypeArp = ethTypeIp4 := by decide
  rw [receiveFrame, ethShouldDrop_false hdst, hproto, if_neg (by decide), if_neg hne, if_pos rfl]

theorem lanStep_answer (hup : (s.host g).up = true) (hkick : (s.host g).arpKick = true)
    (hmem : frame ∈ s.wire)
    (hreq : IsArp frame ethBroadcastAddr (ethBytes (addr h).mac) arpOpcodeRequest
      (ethBytes (addr h).mac) (addr h).ip (ethBytes ethNullAddr) (addr g).ip) :
    ∃ reply, lanStep addr s (.receive g frame (easyReceipt 0)) =
        some { s with wire := reply :: s.wire } ∧
      IsArp reply (ethBytes (addr h).mac) (ethBytes (addr g).mac) arpOpcodeReply
        (ethBytes (addr g).mac) (addr g).ip (ethBytes (addr h).mac) (addr h).ip := by
  rw [lanStep_receive hup hmem]
  have hholds := hreq (receivedFrame frame (easyReceipt 0).behind) (holdsAt_putList _ 0 frame)
  generalize receivedFrame frame (easyReceipt 0).behind = f at *
  obtain ⟨hdst, hproto, hop, hhlen, hplen, hsrc, hpsrc, hpdst⟩ := arpFrame_fields hholds rfl rfl rfl rfl
  obtain ⟨pkt, hpkt⟩ : ∃ pkt, arpSendReplyUs (easyReceipt 0).mem (netInfoOf addr g) f = some pkt :=
    ⟨_, rfl⟩
  have hact : arpHandlePacket (easyReceipt 0).mem (netInfoOf addr g) (s.host g).arpKick f =
      .reply (some pkt) := by
    rw [arpHandlePacket, if_pos hop, arpHandleRequest, hkick, if_neg (by decide),
      if_pos ⟨hhlen, hplen⟩, arpTryEthIpRequest, hpkt]
    exact if_pos hpdst
  obtain ⟨hlen, hframe⟩ := arpSendReplyUs_some hpkt (ethBytes_length _)
  rw [hsrc, hpsrc, toBe32_toBe32] at hframe
  refine ⟨pkt.bytes, ?_, fun f' hf' => hframe.of_memBytes hf' ?_⟩
  · rw [receiveFrame_arp (.inr hdst) hproto, receiveArp, hact]
    dsimp only
    rw [send_short s (by rw [hlen, ethMaxFrame]; decide)]
  · rw [arpFrame_length rfl rfl rfl rfl, hlen]

theorem lanStep_learn (hup : (s.host h).up = true) (hfresh : ∀ e ∈ (s.host h).cache.pending, e.ptr ≠ p)
    (hmem : frame ∈ s.wire)
    (hreply : IsArp frame (ethBytes (addr h).mac) (ethBytes (addr g).mac) arpOpcodeReply
      (ethBytes (addr g).mac) (addr g).ip (ethBytes (addr h).mac) (addr h).ip) :
    lanStep addr s (.receive h frame (easyReceipt p)) = some (s.setHost h { s.host h with
      cache := arpCacheInsert (s.host h).cache p (toBe32 (addr g).ip) (addr g).mac true }) := by
  rw [lanStep_receive hup hmem]
  have hholds := hreply (receivedFrame frame (easyReceipt p).behind) (holdsAt_putList _ 0 frame)
  generalize receivedFrame frame (easyReceipt p).behind = f at *
  obtain ⟨hdst, hproto, hop, -, -, hsrc, hpsrc, -⟩ := arpFrame_fields hholds rfl rfl rfl rfl
  have heth : ethAt f.mem arpGetHsrc = (addr g).mac :=
    ethAt_of_holds (holdsAt_iff_memBytes.mpr hsrc)
  have hnot : ¬arpOpcodeReply = arpOpcodeRequest := by decide
  have hany : ¬((s.host h).cache.pending.any fun e => e.ptr = p) = true := fun hany => by
    obtain ⟨e, he, hp⟩ := List.any_eq_true.mp hany
    exact hfresh e he (by simpa using hp)
  have hact : arpHandlePacket (easyReceipt p).mem (netInfoOf addr h) (s.host h).arpKick f =
      .insert (toBe32 (addr g).ip) (addr g).mac := by
    rw [arpHandlePacket, hop, if_neg hnot, if_pos rfl, arpHandleReply, hpsrc, heth]
  rw [receiveFrame_arp (.inl hdst) hproto, receiveArp, hact]
  dsimp only [easyReceipt]
  rw [arpStep, if_neg hany, Option.map_some]

/-- After an entry for it was inserted, an address is found. -/
theorem ArpOk.insert_found {cache : ArpCache} (hok : ArpOk cache) (p : Nat) (ip : BitVec 32)
    (eth : BitVec 48) (hok' : ArpOk (arpCacheInsert cache p (toBe32 ip) eth true)) :
    ∃ eth', arpGetEthAddr (arpCacheInsert cache p (toBe32 ip) eth true) ip = some eth' := by
  obtain ⟨-, -, hcontents⟩ := hok.insert_table true p (toBe32 ip) eth
  obtain ⟨x, hx, hip⟩ : ∃ x ∈ (arpCacheInsert cache p (toBe32 ip) eth true).table.contents,
      x.ip = toBe32 ip := by
    rcases hcontents with ⟨⟨x, hx, hip⟩, hc⟩ | ⟨-, hc⟩
    · exact ⟨x, hc ▸ hx, hip⟩
    · exact ⟨⟨p, eth, toBe32 ip⟩, by rw [hc]; exact Multiset.mem_cons_self _ _, rfl⟩
  exact ⟨x.eth, congrArg (Option.map ArpCacheEntry.eth) (hok'.find_iff.mpr ⟨hx, hip⟩)⟩

/-- A host that is up comes to know another one: it asks, and is answered. -/
theorem arp_resolves (hinj : Function.Injective fun h => (addr h).ip) (hs : LanOk addr s)
    (hup : (s.host h).up = true) (hup' : (s.host g).up = true)
    (hkick : (s.host g).arpKick = true) :
    ∃ ops t, runSteps (lanStep addr) s ops = some t ∧
      arpGetEthAddr (t.host h).cache (addr g).ip = some (addr g).mac ∧ LanOk addr t ∧
      t.sent = s.sent ∧ ∀ x, (t.host x).udp = (s.host x).udp ∧ (t.host x).up = (s.host x).up := by
  have hmac : ∀ {t : LanState H}, LanOk addr t → ∀ {eth : BitVec 48},
      arpGetEthAddr (t.host h).cache (addr g).ip = some eth → eth = (addr g).mac := by
    intro t ht eth heth
    obtain ⟨g', hip, rfl⟩ := ht.hit heth
    rw [hinj hip]
  cases hhit : arpGetEthAddr (s.host h).cache (addr g).ip with
  | some eth =>
      obtain rfl := hmac hs hhit
      exact ⟨[], s, rfl, hhit, hs, rfl, fun x => ⟨rfl, rfl⟩⟩
  | none =>
      obtain ⟨req, hask, hreq⟩ := lanStep_resolve hup hhit
      obtain ⟨reply, hanswer, hreply⟩ := lanStep_answer (s := { s with wire := req :: s.wire }) hup'
        hkick List.mem_cons_self hreq
      obtain ⟨p, hp⟩ := Infinite.exists_notMem_finset
        ((s.host h).cache.pending.map ArpCacheEntry.ptr).toFinset
      have hfresh : ∀ e ∈ (s.host h).cache.pending, e.ptr ≠ p := fun e he hep =>
        hp (List.mem_toFinset.mpr (List.mem_map.mpr ⟨e, he, hep⟩))
      have hlearn := lanStep_learn (s := { s with wire := reply :: req :: s.wire }) hup hfresh
        List.mem_cons_self hreply
      obtain ⟨t, ht⟩ : ∃ t, t = ({ s with wire := reply :: req :: s.wire } : LanState H).setHost h
          { s.host h with
            cache := arpCacheInsert (s.host h).cache p (toBe32 (addr g).ip) (addr g).mac true } :=
        ⟨_, rfl⟩
      have hrun : runSteps (lanStep addr) s [.resolve h (addr g).ip (easyReceipt 0).mem,
          .receive g req (easyReceipt 0), .receive h reply (easyReceipt p)] = some t := by
        rw [runSteps, hask, Option.bind_some, runSteps, hanswer, Option.bind_some, runSteps, hlearn,
          Option.bind_some, runSteps, ht]
      have hok := LanOk.run hinj hs hrun
      have hcache : (t.host h).cache =
          arpCacheInsert (s.host h).cache p (toBe32 (addr g).ip) (addr g).mac true := by
        rw [ht, LanState.setHost_self]
      obtain ⟨eth, heth⟩ := ArpOk.insert_found (hs.caches h) p (addr g).ip (addr g).mac
        (hcache ▸ hok.caches h)
      rw [← hcache] at heth
      obtain rfl := hmac hok heth
      refine ⟨_, t, hrun, heth, hok, by rw [ht]; rfl, fun x => ?_⟩
      rw [ht]
      by_cases hx : x = h
      · subst hx
        rw [LanState.setHost_self]
        exact ⟨rfl, rfl⟩
      · rw [LanState.setHost_of_ne _ hx]
        exact ⟨rfl, rfl⟩

/-- A datagram that is received by the host it is for, whose socket has room,
is queued. -/
theorem lanStep_deliver {srcmac : BitVec 48} {srcip : BitVec 32} {srcport dstport : BitVec 16}
    {data : List UInt8} (hup : (s.host g).up = true) (hmem : frame ∈ s.wire)
    (hframe : ∀ f : Frame, HoldsAt f.mem 0 frame → UdpFrameAt f.mem (ethBytes (addr g).mac)
      (ethBytes srcmac) srcip (addr g).ip srcport dstport data)
    (hlen : data.length ≤ 1472) (hdhcp : ¬(dstport = 68 ∧ srcport = 67)) {e : SockEntry}
    (hfind : udpFindSock ((s.host g).udp.tables 0) dstport = some e) {usp : UdpSockPriv}
    (husp : (s.host g).udp.priv e.ptr = some usp) (hopen : usp.flags &&& uspBlock = 0)
    (hroom : int32 (usp.bufferLen + data.length) < udpBufferSize) :
    ∃ (t : LanState H) (d : UdpDgram),
      lanStep addr s (.receive g frame (easyReceipt 0)) = some t ∧
      (∃ usp', (t.host g).udp.priv e.ptr = some usp' ∧ usp'.dgrams = usp.dgrams ++ [d]) ∧
      d.len = data.length ∧ HoldsAt d.buffer 0 data := by
  rw [lanStep_receive hup hmem]
  have hholds := hframe (receivedFrame frame (easyReceipt 0).behind) (holdsAt_putList _ 0 frame)
  generalize receivedFrame frame (easyReceipt 0).behind = f at *
  obtain ⟨hdst, hproto, hver, -, hp, hip, hsp, hdp, hudplen, hdata⟩ :=
    hholds.fields (ethBytes_length _) (ethBytes_length _) (by omega)
  have hpay : (udpPacketOf (receiptEnv addr g (easyReceipt 0)) f).payloadLen = data.length := by
    show ((udpLen f).toNat : Int) - 8 = data.length
    rw [hudplen]
    omega
  have hport : (udpPacketOf (receiptEnv addr g (easyReceipt 0)) f).dstPort = dstport := hdp
  have hstored : UdpStored usp (udpPacketOf (receiptEnv addr g (easyReceipt 0)) f) :=
    ⟨hopen, by rw [hpay]; exact hroom, rfl, rfl⟩
  have hus : ipShouldDrop (netInfoOf addr g) f = false := decide_eq_false fun hne => hne.1 hip
  have hudp : udpStep oneRoute (s.host g).udp
      (.packet 0 (udpPacketOf (receiptEnv addr g (easyReceipt 0)) f)) =
        some ((s.host g).udp.setPriv e.ptr
          (some (usp.queued (udpPacketOf (receiptEnv addr g (easyReceipt 0)) f)))) := by
    rw [udpStep, doUdpHandlePacket, hport, hfind]
    simp only [husp, Option.map_some, udpReceive_stored hstored]
  have hrecv : receiveFrame addr s g (easyReceipt 0) f = some (s.setHost g { s.host g with
      udp := (s.host g).udp.setPriv e.ptr
        (some (usp.queued (udpPacketOf (receiptEnv addr g (easyReceipt 0)) f))) }) := by
    rw [receiveFrame, ethShouldDrop_false (.inl hdst), if_neg (by decide), if_pos hproto,
      if_neg (not_not.mpr hver), hus, if_neg (by decide), if_pos hp, receiveUdp,
      if_neg (by rw [hdp, hsp]; exact hdhcp), hudp, Option.map_some]
  refine ⟨_, { buffer := (udpPacketOf (receiptEnv addr g (easyReceipt 0)) f).payload
               len := data.length }, hrecv, ?_, rfl, holdsAt_shift.mpr hdata⟩
  refine ⟨usp.queued (udpPacketOf (receiptEnv addr g (easyReceipt 0)) f), ?_, ?_⟩
  · simp [UdpState.setPriv]
  · rw [UdpSockPriv.queued, hpay]

/-- A write to an address in the cache puts the frame of the datagram on the
wire. -/
theorem lanStep_write {sk : Nat} {sock : Socket} {usp : UdpSockPriv} {data : List UInt8}
    (hup : (s.host h).up = true) (hsock : (s.host h).udp.sock sk = some sock)
    (hpriv : sock.priv = some p) (husp : (s.host h).udp.priv p = some usp) {eth : BitVec 48}
    (heth : arpGetEthAddr (s.host h).cache usp.dstIp = some eth) (hlen : data.length ≤ 1472) :
    ∃ frame, lanStep addr s (.write h sk data (easyReceipt 0).mem) =
        some { s with wire := frame :: s.wire, sent := ⟨usp.dstIp, usp.dstPort, data⟩ :: s.sent } ∧
      ∀ f : Frame, HoldsAt f.mem 0 frame → UdpFrameAt f.mem (ethBytes eth) (ethBytes (addr h).mac)
        (addr h).ip usp.dstIp usp.srcPort usp.dstPort data := by
  obtain ⟨pkt, hpkt⟩ : ∃ pkt, udpConstructPacket (easyReceipt 0).mem
      (arpGetEthAddr (s.host h).cache) (ethBytes (addr h).mac) (addr h).ip usp.srcPort
      (toBe32 usp.dstIp) usp.dstPort = some pkt := by
    rw [udpConstructPacket, toBe32_toBe32, heth]
    exact ⟨_, rfl⟩
  obtain ⟨pkt', hset⟩ : ∃ pkt', udpSetPayload ((easyReceipt 0).mem 4) pkt data = some pkt' :=
    ⟨_, rfl⟩
  obtain ⟨eth', heth', hsize, hframe⟩ := udpSetPayload_some hpkt hset (ethBytes_length _)
  rw [toBe32_toBe32] at heth' hframe
  obtain rfl := Option.some.inj (heth'.symm.trans heth)
  refine ⟨pkt'.bytes, ?_, fun f hf =>
    hframe.of_memBytes hf (ethBytes_length _) (ethBytes_length _) hsize.ge⟩
  have hwrite : udpSockWrite addr s h sock data (easyReceipt 0).mem =
      some ({ s with sent := ⟨usp.dstIp, usp.dstPort, data⟩ :: s.sent }.send pkt') := by
    rw [udpSockWrite, hpriv]
    dsimp only [Option.bind_eq_bind]
    rw [husp, Option.bind_some, hpkt, Option.bind_some, hset, Option.bind_some]
  rw [lanStep, if_pos hup, hsock, Option.bind_some, hwrite,
    send_short _ (by rw [hsize, ethMaxFrame]; omega)]

/-- A socket can send to another one that has room. -/
theorem LanOk.delivers (hinj : Function.Injective fun h => (addr h).ip) (hs : LanOk addr s) {sk : Nat} {sock : Socket}
    {usp usp' : UdpSockPriv} {e : SockEntry} {data : List UInt8}
    (hup : (s.host h).up = true) (hup' : (s.host g).up = true)
    (hkick : (s.host g).arpKick = true) (hsock : (s.host h).udp.sock sk = some sock)
    (hpriv : sock.priv = some p) (husp : (s.host h).udp.priv p = some usp)
    (hdst : usp.dstIp = (addr g).ip) (hdhcp : ¬(usp.dstPort = 68 ∧ usp.srcPort = 67))
    (hfind : udpFindSock ((s.host g).udp.tables 0) usp.dstPort = some e)
    (husp' : (s.host g).udp.priv e.ptr = some usp') (hopen : usp'.flags &&& uspBlock = 0)
    (hlen : data.length ≤ 1472) (hroom : int32 (usp'.bufferLen + data.length) < udpBufferSize) :
    ∃ (more : List (LanOp H)) (t : LanState H) (d : UdpDgram),
      runSteps (lanStep addr) s more = some t ∧
      (∃ usp'', (t.host g).udp.priv e.ptr = some usp'' ∧ usp''.dgrams = usp'.dgrams ++ [d]) ∧
      d.len = data.length ∧ HoldsAt d.buffer 0 data := by
  obtain ⟨asks, u, hasks, heth, hok, -, hsame⟩ :=
    arp_resolves hinj hs hup hup' hkick
  rw [← (hsame h).2] at hup
  rw [← (hsame g).2] at hup'
  rw [← (hsame h).1] at hsock husp
  rw [← (hsame g).1] at hfind husp'
  rw [← hdst] at heth
  obtain ⟨frame, hwrite, hframe⟩ := lanStep_write hup hsock hpriv husp heth hlen
  rw [hdst] at hframe
  obtain ⟨t, d, hdeliver, hqueued, hdlen, hdata⟩ := lanStep_deliver
    (s := { u with wire := frame :: u.wire, sent := ⟨(addr g).ip, usp.dstPort, data⟩ :: u.sent })
    hup' List.mem_cons_self hframe hlen hdhcp hfind husp' hopen hroom
  rw [hdst] at hwrite
  refine ⟨asks ++ [.write h sk data (easyReceipt 0).mem, .receive g frame (easyReceipt 0)], t, d, ?_,
    hqueued, hdlen, hdata⟩
  rw [runSteps_append, hasks, Option.bind_some, runSteps, hwrite, Option.bind_some, runSteps,
    hdeliver, Option.bind_some, runSteps]

end Through

/-! ## Two sockets -/

def connectTo (ip : BitVec 32) (port : BitVec 16) : UdpOp :=
  .connect 0 { addr := { port, addr := ip }, mem := some 1, junk := 0, rehashOk := true }

/-- Each host connects a socket to this port of the other. -/
def connectRun (port : BitVec 16) : List (LanOp Bool) :=
  [.kick true, .socket false (.create 0 0), .socket true (.create 0 0),
    .socket false (connectTo 0xc0a80002 port), .socket true (connectTo 0xc0a80001 port)]

/-- The socket, with the port that was allocated for it. -/
def firstSock (ip : BitVec 32) (port src : BitVec 16) : UdpSockPriv :=
  { dstIp := ip, dstPort := port, srcPort := src, flags := 0, bufferLen := 0, dgrams := [] }

/-- Two hosts with these ports in use. -/
def twoInit (ports : Bitmap) : LanState Bool :=
  { host := fun _ => { up := true, arpKick := false, cache := arpCacheInit, udp := { udpInit with ports } }
    wire := [], sent := [] }

/-- What the two sockets are then; the ports stay as the allocation gives
them. -/
theorem connectRun_some (ports : Bitmap) (port : BitVec 16) :
    ∃ s, runSteps (lanStep twoHosts) (twoInit ports) (connectRun port) = some s ∧
      (s.host false).up = true ∧ (s.host true).up = true ∧ (s.host true).arpKick = true ∧
      (s.host false).udp.sock 0 = some ⟨0, some 1⟩ ∧
      (s.host false).udp.priv 1 =
        some (firstSock 0xc0a80002 port (netAllocatePort ports).1) ∧
      (s.host true).udp.sock 0 = some ⟨0, some 1⟩ ∧
      (s.host true).udp.priv 1 =
        some (firstSock 0xc0a80001 port (netAllocatePort ports).1) ∧
      (s.host true).udp.tables 0 =
        (hashInsert true niUdpSockets ⟨1, (netAllocatePort ports).1⟩).2 :=
  ⟨_, rfl, rfl, rfl, rfl, rfl, rfl, rfl, rfl, rfl⟩

theorem twoInit_netInit : twoInit netInitPorts = lanInit := rfl

theorem udpFindSock_first (q : BitVec 16) :
    udpFindSock (hashInsert true niUdpSockets ⟨1, q⟩).2 q = some ⟨1, q⟩ := by
  obtain ⟨htable, hempty⟩ := niUdpSockets_ok
  have hnone : hashFind niUdpSockets ⟨1, q⟩ = none := htable.find_none.mpr fun x hx => by
    rw [hempty] at hx
    cases hx
  obtain ⟨-, htable', hc⟩ := htable.insert_free true hnone
  refine htable'.find_iff.mpr ⟨?_, rfl⟩
  rw [hc]
  exact Multiset.mem_cons_self _ _

/-- The first port that is allocated is not a reserved one. -/
theorem netAllocatePort_first {ports : Bitmap} (hports : ports = netInitPorts) :
    1000 ≤ (netAllocatePort ports).1.toNat := by
  have hcnt : ports.bitCnt = portCount := by rw [hports, netInitPorts_bitCnt]
  have hmarked := portMarked_init
  rw [← hports] at hmarked
  clear hports
  rcases netAllocatePort_spec hcnt with ⟨hfree, -⟩ | ⟨-, hall, -⟩
  · rw [hmarked] at hfree
    simpa using hfree
  · rw [hall]
    exact (by decide : 1000 ≤ portCount)

/-- What the two sockets are, with the port they both have. -/
theorem connected_hosts : ∃ s q, runSteps (lanStep twoHosts) lanInit (connectRun q) = some s ∧
    q ≠ 68 ∧ (s.host false).up = true ∧ (s.host true).up = true ∧ (s.host true).arpKick = true ∧
    (s.host false).udp.sock 0 = some ⟨0, some 1⟩ ∧
    (s.host false).udp.priv 1 = some (firstSock 0xc0a80002 q q) ∧
    (s.host true).udp.sock 0 = some ⟨0, some 1⟩ ∧
    (s.host true).udp.priv 1 = some (firstSock 0xc0a80001 q q) ∧
    udpFindSock ((s.host true).udp.tables 0) q = some ⟨1, q⟩ := by
  -- the ports stay a variable: there are too many of them to be counted out
  obtain ⟨ports, hports⟩ : ∃ ports, ports = netInitPorts := ⟨_, rfl⟩
  have hge := netAllocatePort_first hports
  rw [← twoInit_netInit, ← hports]
  clear hports
  obtain ⟨s, hrun, hup, hup', hkick, hsock, hpriv, hsock', hpriv', htable⟩ :=
    connectRun_some ports (netAllocatePort ports).1
  generalize (netAllocatePort ports).1 = q at *
  refine ⟨s, q, hrun, ?_, hup, hup', hkick, hsock, hpriv, hsock', hpriv', ?_⟩
  · rintro rfl
    exact absurd hge (by decide)
  · rw [htable]
    exact udpFindSock_first q

/-- `hello` -/
def hello : List UInt8 := [104, 101, 108, 108, 111]

end Levos.Net
