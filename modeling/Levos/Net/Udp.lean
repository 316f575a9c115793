import Levos.Base.Word
import Levos.Net.Demux
import Levos.Net.Ports

/-!
# UDP sockets (`net/udp.c`)

The private structures of the connected sockets, their queues of received
datagrams, and the table the packets find them in. Header fields are host
values, as `to_be_16` gives them; a `size_t` is an `int` here, and a length may
be negative. The bytes of a buffer are the memory from its start on, however
long the code takes it to be.

The addresses `malloc` returns are arguments of the steps: any address not in
use, or null.
-/

namespace Levos.Net

open Levos.Base Levos.Lib

/-! ## Datagrams -/

structure UdpDgram where
  buffer : Nat → UInt8
  len : Int

structure UdpSockPriv where
  dstIp : BitVec 32
  dstPort : BitVec 16
  srcPort : BitVec 16
  flags : BitVec 32
  bufferLen : Int
  dgrams : List UdpDgram

def uspBlock : BitVec 32 := 1 <<< 0
def udpBufferSize : Int := 4096

/-- `PACKET_HANDLED` and `PACKET_DROP`. -/
inductive PacketResult : Type where
  | handled
  | drop
deriving DecidableEq, Repr

/-- What `do_udp_handle_packet` uses of a packet: the two header fields, the
memory from `p_ptr` on, and whether its two allocations succeed. -/
structure UdpPacket where
  dstPort : BitVec 16
  udpLen : BitVec 16
  payload : Nat → UInt8
  dgramMem : Bool
  bufferMem : Bool

/-- `to_be_16(udp->udp_len) - sizeof(struct udp_header)`. -/
def UdpPacket.payloadLen (pkt : UdpPacket) : Int := pkt.udpLen.toNat - 8

/-- `do_udp_handle_packet` once the socket is found. -/
def udpReceive (usp : UdpSockPriv) (pkt : UdpPacket) : PacketResult × UdpSockPriv :=
  if usp.flags &&& uspBlock ≠ 0 then (.drop, usp)
  else if udpBufferSize ≤ int32 (usp.bufferLen + pkt.payloadLen) then (.drop, usp)
  else if !pkt.dgramMem then (.drop, usp)
  else if !pkt.bufferMem then (.drop, usp)
  else
    let dgram : UdpDgram := { buffer := pkt.payload, len := pkt.payloadLen }
    (.handled, { usp with bufferLen := int32 (usp.bufferLen + pkt.payloadLen),
                          dgrams := usp.dgrams ++ [dgram] })

/-- `none` while the queue is empty: the caller waits. -/
def udpPopDgram (usp : UdpSockPriv) : Option (UdpDgram × UdpSockPriv) :=
  match usp.dgrams with
  | [] => none
  | udg :: rest =>
      some (udg, { usp with bufferLen := int32 (usp.bufferLen - udg.len), dgrams := rest })

/-- What a read gives its caller: the count it returns, and the bytes it has
copied, so many from this memory. -/
structure UdpRead where
  count : Int
  copied : Nat
  bytes : Nat → UInt8

/-- `udp_sock_read` with `sock_priv` as given; `memcpy` copies nothing where
the count is negative. -/
def udpRead (usp : UdpSockPriv) (len : Int) : Option (UdpRead × UdpSockPriv) :=
  (udpPopDgram usp).map fun (udg, usp) =>
    let alen := if udg.len < len then udg.len else len
    ({ count := alen, copied := alen.toNat, bytes := udg.buffer }, usp)

/-! ## Sockets -/

structure SockAddrIn where
  port : BitVec 16
  addr : BitVec 32
deriving DecidableEq, Repr

/-- The fields of `struct socket` that change: `sock_ni` as a number, and
`sock_priv`. -/
structure Socket where
  ni : Nat
  priv : Option Nat
deriving DecidableEq, Repr

/-- The sockets by their addresses, what `malloc` has given out for private
structures, the table of each interface, and the ports of the family. -/
structure UdpState where
  sock : Nat → Option Socket
  priv : Nat → Option UdpSockPriv
  tables : Nat → HashTable SockEntry
  ports : Bitmap

def UdpState.setSock (st : UdpState) (s : Nat) (v : Option Socket) : UdpState :=
  { st with sock := Function.update st.sock s v }

def UdpState.setPriv (st : UdpState) (p : Nat) (v : Option UdpSockPriv) : UdpState :=
  { st with priv := Function.update st.priv p v }

def UdpState.setTable (st : UdpState) (ni : Nat) (t : HashTable SockEntry) : UdpState :=
  { st with tables := Function.update st.tables ni t }

/-- What a connect finds: where it is to go, the result of its `malloc` with
the word that lies where `usp_flags` will be, and whether `rehash` can
allocate. -/
structure UdpConnect where
  addr : SockAddrIn
  mem : Option Nat
  junk : BitVec 32
  rehashOk : Bool

section Connecting

-- `route_find_ni_for_dst`
variable (route : BitVec 32 → Nat)

/-- `do_udp_inet_sock_connect`; `usp_flags` keeps what `malloc` left there. -/
def doUdpInetSockConnect (st : UdpState) (s p : Nat) (c : UdpConnect) : UdpState :=
  let ni := route c.addr.addr
  let r := netAllocatePort st.ports
  let priv : UdpSockPriv :=
    { dstIp := c.addr.addr, dstPort := c.addr.port, srcPort := r.1, flags := c.junk,
      bufferLen := 0, dgrams := [] }
  let st := { st with ports := r.2 }
  let st := st.setSock s (some { ni, priv := some p })
  let st := st.setPriv p (some priv)
  st.setTable ni (hashInsert c.rehashOk (st.tables ni) ⟨p, r.1⟩).2

def enomem : Int := -12

/-- `udp_sock_connect` of an `AF_INET` socket, the only kind there is. -/
def udpSockConnect (st : UdpState) (s : Nat) (sock : Socket) (c : UdpConnect) : Int × UdpState :=
  match c.mem with
  | none => (enomem, st.setSock s (some { sock with priv := none }))
  | some p => (0, doUdpInetSockConnect route st s p c)

end Connecting

/-- `udp_sock_destroy`, and `free(sock)` of `socket_destroy` after it. -/
def udpSockDestroy (st : UdpState) (s : Nat) (sock : Socket) : UdpState :=
  match sock.priv with
  | none => st.setSock s none
  | some p =>
      match st.priv p with
      | none => st.setSock s none
      | some usp =>
          let st := { st with ports := netFreePort st.ports usp.srcPort }
          (st.setPriv p none).setSock s none

/-- `none` where the entry found is in freed memory. -/
def doUdpHandlePacket (st : UdpState) (ni : Nat) (pkt : UdpPacket) :
    Option (PacketResult × UdpState) :=
  match udpFindSock (st.tables ni) pkt.dstPort with
  | none => some (.drop, st)
  | some e =>
      (st.priv e.ptr).map fun usp =>
        let r := udpReceive usp pkt
        (r.1, st.setPriv e.ptr (some r.2))

/-- `udp_sock_read`; `none` where `sock_priv` is null, or nothing has come
yet. -/
def udpSockRead (st : UdpState) (sock : Socket) (len : Int) : Option (UdpRead × UdpState) :=
  sock.priv.bind fun p =>
    (st.priv p).bind fun usp =>
      (udpRead usp len).map fun r => (r.1, st.setPriv p (some r.2))

/-- `malloc` does not return an address that is in use. -/
def FreshMem {α : Type} (alloc : Nat → Option α) (mem : Option Nat) : Prop :=
  ∀ p, mem = some p → alloc p = none

instance decidableFreshMem {α : Type} (alloc : Nat → Option α) (mem : Option Nat) :
    Decidable (FreshMem alloc mem) :=
  match h : mem with
  | none => isTrue fun p hp => by cases hp
  | some p =>
      match hp : alloc p with
      | none => isTrue fun q hq => by rw [← Option.some.inj hq, hp]
      | some a => isFalse fun hfree => by rw [hfree p rfl] at hp; cases hp

/-! ## The queue of one socket -/

inductive UdpQueueOp : Type where
  | datagram (pkt : UdpPacket)
  | read (len : Int)

/-- A datagram for the socket arrives, or the socket is read. -/
def udpQueueStep (usp : UdpSockPriv) : UdpQueueOp → Option UdpSockPriv
  | .datagram pkt => some (udpReceive usp pkt).2
  | .read len => (udpRead usp len).map Prod.snd

/-- The socket as a connect leaves it, whatever is in `usp_flags`. -/
def freshUsp (usp : UdpSockPriv) : Prop := usp.bufferLen = 0 ∧ usp.dgrams = []

/-- The running total is right and in its bounds. -/
structure UdpQueueSound (usp : UdpSockPriv) : Prop where
  total : usp.bufferLen = (usp.dgrams.map UdpDgram.len).sum
  nonneg : 0 ≤ usp.bufferLen
  bound : usp.bufferLen < udpBufferSize

/-- A read returns the start of the oldest datagram, and a count. -/
def UdpReadRight (usp : UdpSockPriv) : UdpQueueOp → Prop
  | .datagram _ => True
  | .read len =>
      ∀ udg rest r usp', usp.dgrams = udg :: rest → udpRead usp len = some (r, usp') →
        r.count = min len udg.len ∧ 0 ≤ r.count ∧ r.copied = r.count ∧ r.bytes = udg.buffer ∧
          usp'.dgrams = rest

/-- The queue is sound in every state, and every read right. -/
def UdpQueueRight (usp : UdpSockPriv) (ops : List UdpQueueOp) : Prop :=
  RunRight udpQueueStep UdpQueueSound UdpReadRight usp ops

/-- The datagram is queued: its socket is not blocked, and the code takes it
to fit. -/
def UdpStored (usp : UdpSockPriv) (pkt : UdpPacket) : Prop :=
  usp.flags &&& uspBlock = 0 ∧ int32 (usp.bufferLen + pkt.payloadLen) < udpBufferSize ∧
    pkt.dgramMem = true ∧ pkt.bufferMem = true

/-- A datagram that is queued does not take the total below 0 by being shorter
than its own header; a read is not for a negative number of bytes, and finds a
datagram that was not, and is not longer than all are together. -/
def UdpLengthOk (usp : UdpSockPriv) : UdpQueueOp → Prop
  | .datagram pkt => UdpStored usp pkt → 8 ≤ usp.bufferLen + pkt.udpLen.toNat
  | .read len => ∀ udg ∈ usp.dgrams.head?, 0 ≤ len ∧ 0 ≤ udg.len ∧ udg.len ≤ usp.bufferLen

variable {usp usp' : UdpSockPriv} {pkt : UdpPacket}

/-- What the socket is once the datagram is queued. -/
def UdpSockPriv.queued (usp : UdpSockPriv) (pkt : UdpPacket) : UdpSockPriv :=
  { usp with bufferLen := int32 (usp.bufferLen + pkt.payloadLen),
             dgrams := usp.dgrams ++ [{ buffer := pkt.payload, len := pkt.payloadLen }] }

theorem udpReceive_stored (h : UdpStored usp pkt) :
    udpReceive usp pkt = (.handled, usp.queued pkt) := by
  obtain ⟨hflag, hfits, hdgram, hbuffer⟩ := h
  rw [udpReceive, if_neg (not_not.mpr hflag), if_neg (not_le.mpr hfits), hdgram, hbuffer,
    if_neg (by decide), if_neg (by decide), UdpSockPriv.queued]

theorem udpReceive_dropped (h : ¬UdpStored usp pkt) : udpReceive usp pkt = (.drop, usp) := by
  rw [udpReceive]
  split
  · rfl
  rename_i hflag
  split
  · rfl
  rename_i hfits
  split
  · rfl
  rename_i hdgram
  split
  · rfl
  rename_i hbuffer
  refine absurd ⟨not_not.mp hflag, not_le.mp hfits, ?_, ?_⟩ h
  · simpa using hdgram
  · simpa using hbuffer

theorem udpReceive_handled : (udpReceive usp pkt).1 = .handled ↔ UdpStored usp pkt := by
  by_cases h : UdpStored usp pkt
  · rw [udpReceive_stored h]
    exact iff_of_true rfl h
  · rw [udpReceive_dropped h]
    exact iff_of_false (fun heq => by cases heq) h

theorem udpRead_cons {udg : UdpDgram} {rest : List UdpDgram} (hd : usp.dgrams = udg :: rest)
    (len : Int) :
    udpRead usp len =
      some ({ count := min len udg.len, copied := (min len udg.len).toNat, bytes := udg.buffer },
        { usp with bufferLen := int32 (usp.bufferLen - udg.len), dgrams := rest }) := by
  have hmin : (if udg.len < len then udg.len else len) = min len udg.len := by
    split
    · omega
    · omega
  rw [udpRead, udpPopDgram]
  simp only [hd, Option.map_some, hmin]

/-- A length field of 16 bits. -/
theorem payloadLen_range (pkt : UdpPacket) : -8 ≤ pkt.payloadLen ∧ pkt.payloadLen < 65536 := by
  have := pkt.udpLen.isLt
  rw [UdpPacket.payloadLen]
  omega

/-- A datagram keeps the queue sound unless it takes the total below 0. -/
theorem datagram_sound_iff (hq : UdpQueueSound usp) :
    UdpQueueSound (udpReceive usp pkt).2 ↔ UdpLengthOk usp (.datagram pkt) := by
  obtain ⟨htotal, hnonneg, hbound⟩ := hq
  have hrange := payloadLen_range pkt
  have hlen : pkt.payloadLen = pkt.udpLen.toNat - 8 := rfl
  rw [udpBufferSize] at hbound
  by_cases hst : UdpStored usp pkt
  · have hsum : int32 (usp.bufferLen + pkt.payloadLen) = usp.bufferLen + pkt.payloadLen :=
      int32_of_range (by omega) (by omega)
    have hfits := hst.2.1
    rw [udpReceive_stored hst, UdpSockPriv.queued, hsum]
    rw [hsum] at hfits
    constructor
    · intro h _
      have hpos : 0 ≤ usp.bufferLen + pkt.payloadLen := h.nonneg
      omega
    · intro h
      have hmany := h hst
      refine ⟨?_, ?_, hfits⟩
      · show usp.bufferLen + pkt.payloadLen = _
        rw [List.map_append, List.sum_append, ← htotal, List.map_singleton, List.sum_singleton]
      · show 0 ≤ usp.bufferLen + pkt.payloadLen
        omega
  · rw [udpReceive_dropped hst]
    exact iff_of_true ⟨htotal, hnonneg, hbound⟩ fun h => absurd h hst

/-- A read of a sound queue is right, and leaves it sound, exactly then. -/
theorem read_right_iff (hq : UdpQueueSound usp) (len : Int) :
    (UdpReadRight usp (.read len) ∧
      ∀ usp', udpQueueStep usp (.read len) = some usp' → UdpQueueSound usp') ↔
        UdpLengthOk usp (.read len) := by
  obtain ⟨htotal, hnonneg, hbound⟩ := hq
  have hbound' : usp.bufferLen < 4096 := hbound
  cases hd : usp.dgrams with
  | nil =>
      have hnone : udpQueueStep usp (.read len) = none := by
        rw [udpQueueStep, udpRead, udpPopDgram, hd]
        rfl
      refine iff_of_true ⟨?_, ?_⟩ ?_
      · intro udg rest r usp' hcons
        rw [hd] at hcons
        cases hcons
      · intro usp' h
        rw [hnone] at h
        cases h
      · intro udg hmem
        rw [hd] at hmem
        cases hmem
  | cons udg rest =>
      have hread := udpRead_cons hd len
      have hnext : udpQueueStep usp (.read len) =
          some { usp with bufferLen := int32 (usp.bufferLen - udg.len), dgrams := rest } := by
        rw [udpQueueStep, hread]
        rfl
      have hrest : (rest.map UdpDgram.len).sum = usp.bufferLen - udg.len := by
        rw [htotal, hd, List.map_cons, List.sum_cons]
        omega
      constructor
      · rintro ⟨hright, hsound⟩ udg' hmem
        rw [hd] at hmem
        obtain rfl := Option.some.inj hmem
        have hcount : 0 ≤ min len udg.len := (hright udg rest _ _ hd hread).2.1
        obtain ⟨htotal', hnonneg', -⟩ := hsound _ hnext
        rw [hrest] at htotal'
        have hpos : 0 ≤ int32 (usp.bufferLen - udg.len) := hnonneg'
        have hsame : int32 (usp.bufferLen - udg.len) = usp.bufferLen - udg.len := htotal'
        omega
      · intro hok
        obtain ⟨hlen, hudg, hle⟩ := hok udg (by rw [hd]; rfl)
        refine ⟨?_, ?_⟩
        · intro udg' rest' r usp' hcons hr
          rw [hd] at hcons
          obtain ⟨rfl, rfl⟩ := List.cons.inj hcons
          rw [hread] at hr
          obtain ⟨rfl, rfl⟩ := Prod.mk.inj (Option.some.inj hr)
          have hmin : 0 ≤ min len udg.len := le_min hlen hudg
          exact ⟨rfl, hmin, Int.toNat_of_nonneg hmin, rfl, rfl⟩
        · intro usp' h
          rw [hnext] at h
          obtain rfl := Option.some.inj h
          have hsub : int32 (usp.bufferLen - udg.len) = usp.bufferLen - udg.len :=
            int32_of_range (by omega) (by omega)
          rw [hsub]
          refine ⟨hrest.symm, ?_, ?_⟩
          · show 0 ≤ usp.bufferLen - udg.len
            omega
          · show usp.bufferLen - udg.len < 4096
            omega

/-- **When the receive queue is sound.** Along every sequence of datagrams and
reads of a connected socket, total and bounds are right in every state, and
every read is, exactly when all of them meet the condition. -/
theorem udp_queue_iff {usp : UdpSockPriv} (hfresh : freshUsp usp) (ops : List UdpQueueOp) :
    UdpQueueRight usp ops ↔ StepsMeet udpQueueStep UdpLengthOk usp ops := by
  refine runRight_iff_stepsMeet (J := UdpQueueSound) (fun _ h => h) ?_ ?_ ?_
  · intro usp op hq hok
    cases op with
    | datagram pkt =>
        refine ⟨trivial, fun usp' h => ?_⟩
        obtain rfl := Option.some.inj h
        exact (datagram_sound_iff hq).mpr hok
    | read len => exact (read_right_iff hq len).mpr hok
  · intro usp op hq hright hsound
    cases op with
    | datagram pkt => exact (datagram_sound_iff hq).mp (hsound _ rfl)
    | read len => exact (read_right_iff hq len).mp ⟨hright, hsound⟩
  · obtain ⟨hlen, hd⟩ := hfresh
    refine ⟨?_, hlen.ge, ?_⟩
    · rw [hlen, hd]
      rfl
    · rw [hlen]
      decide

def connectedUsp : UdpSockPriv :=
  { dstIp := 0xc0a80089, dstPort := 7548, srcPort := 1000, flags := 0, bufferLen := 0,
    dgrams := [] }

def zeroDatagram (udpLen : BitVec 16) : UdpPacket :=
  { dstPort := 1000, udpLen, payload := fun _ => 0, dgramMem := true, bufferMem := true }

/-- A datagram of fifteen bytes, and a read. -/
theorem udp_queue_iff_fifteen :
    UdpQueueRight connectedUsp [.datagram (zeroDatagram 23), .read 4] := by
  refine (udp_queue_iff ⟨rfl, rfl⟩ _).mpr ⟨fun _ => by decide, fun usp' h => ?_⟩
  obtain rfl := Option.some.inj h
  refine ⟨fun udg hudg => ?_, fun _ _ => trivial⟩
  obtain rfl := Option.some.inj hudg
  decide

/-- A datagram with length field zero: the total goes below 0. -/
theorem udp_queue_negative :
    ¬UdpQueueRight connectedUsp [.datagram (zeroDatagram 0)] := by
  intro h
  have hsound := h.states [.datagram (zeroDatagram 0)] _ List.prefix_rfl rfl
  have hnonneg := hsound.nonneg
  revert hnonneg
  decide

end Levos.Net
