import Levos.Net.Tcp
import Levos.Net.UdpTable
import Levos.Net.TcpSock

/-!
# Who has which port

A port of a family is reserved, or some live socket's, or free; the bitmap is
to say so exactly. An allocation gives one socket a free port, a release takes
it back; an allocation whose port no socket gets, and a socket that lets go of
its port without a release, leave a mark that nobody owns.
-/

namespace Levos.Net

open Levos.Base Levos.Lib

/-! ## Live ports and marks -/

/-- The live sockets of a family have different ports above the reserved ones,
and exactly these and the reserved ones are marked. -/
structure PortsOk (live : Nat → Option (BitVec 16)) (ports : Bitmap) : Prop where
  bitCnt : ports.bitCnt = portCount
  distinct : ∀ s t port, live s = some port → live t = some port → s = t
  range : ∀ s port, live s = some port → reservedPorts ≤ port.toNat ∧ port.toNat < portCount
  marked : ∀ p < portCount, portMarked ports p = true ↔
    p < reservedPorts ∨ ∃ s port, live s = some port ∧ port.toNat = p

section Marks

variable {live live' : Nat → Option (BitVec 16)} {ports : Bitmap}

theorem portsOk_init : PortsOk (fun _ => none) netInitPorts := by
  refine ⟨netInitPorts_bitCnt, (fun _ _ _ h => by cases h), (fun _ _ h => by cases h),
    fun p _ => ?_⟩
  rw [portMarked_init, reservedPorts]
  simp

/-- The port of a live socket is not allocated again. -/
theorem PortsOk.fresh (hok : PortsOk live ports) (hroom : ¬portsFull ports) :
    let r := netAllocatePort ports
    portMarked ports r.1.toNat = false ∧ reservedPorts ≤ r.1.toNat ∧ r.1.toNat < portCount ∧
      r.2.bitCnt = portCount ∧
      (∀ p, portMarked r.2 p = (portMarked ports p || decide (p = r.1.toNat))) ∧
      ∀ s, live s ≠ some r.1 := by
  rcases netAllocatePort_spec hok.bitCnt with ⟨hfree, hlt, -, hcnt, hmark⟩ | ⟨hfull, -⟩
  · have hnot := mt (hok.marked _ hlt).mpr (by rw [hfree]; decide)
    push Not at hnot
    refine ⟨hfree, hnot.1, hlt, hcnt, hmark, fun s hs => ?_⟩
    exact hnot.2 s _ hs rfl
  · exact (hroom hfull).elim

theorem netAllocatePort_full (hcnt : ports.bitCnt = portCount) (hfull : portsFull ports) :
    (netAllocatePort ports).1.toNat = portCount ∧ (netAllocatePort ports).2 = ports := by
  rcases netAllocatePort_spec hcnt with ⟨-, -, hroom, -⟩ | ⟨-, h⟩
  · exact (hroom hfull).elim
  · exact h

/-- A socket without a port gets the one allocated. -/
theorem PortsOk.allocate (hok : PortsOk live ports) (hroom : ¬portsFull ports) {s : Nat}
    (hs : live s = none) :
    PortsOk (Function.update live s (some (netAllocatePort ports).1)) (netAllocatePort ports).2 := by
  obtain ⟨-, hge, hlt, hcnt, hmark, hnone⟩ := hok.fresh hroom
  have hlive : ∀ t port, Function.update live s (some (netAllocatePort ports).1) t = some port ↔
      (t = s ∧ port = (netAllocatePort ports).1) ∨ live t = some port := by
    intro t port
    by_cases hts : t = s
    · subst hts
      rw [Function.update_self, hs]
      simp [eq_comm]
    · rw [Function.update_of_ne hts]
      simp [hts]
  refine ⟨hcnt, fun t u port ht hu => ?_, fun t port ht => ?_, fun p hp => ?_⟩
  · rcases (hlive t port).mp ht with ⟨rfl, rfl⟩ | ht
    · rcases (hlive u _).mp hu with ⟨rfl, -⟩ | hu
      · rfl
      · exact (hnone u hu).elim
    · rcases (hlive u _).mp hu with ⟨-, rfl⟩ | hu
      · exact (hnone t ht).elim
      · exact hok.distinct t u port ht hu
  · rcases (hlive t port).mp ht with ⟨-, rfl⟩ | ht
    · exact ⟨hge, hlt⟩
    · exact hok.range t port ht
  · rw [hmark, Bool.or_eq_true, hok.marked p hp, decide_eq_true_eq]
    constructor
    · rintro ((hres | ⟨t, port, ht, hpt⟩) | hnew)
      · exact .inl hres
      · exact .inr ⟨t, port, (hlive t port).mpr (.inr ht), hpt⟩
      · exact .inr ⟨s, _, (hlive s _).mpr (.inl ⟨rfl, rfl⟩), hnew.symm⟩
    · rintro (hres | ⟨t, port, ht, hpt⟩)
      · exact .inl (.inl hres)
      · rcases (hlive t port).mp ht with ⟨-, rfl⟩ | ht
        · exact .inr hpt.symm
        · exact .inl (.inr ⟨t, port, ht, hpt⟩)

/-- A live socket gives its port back. -/
theorem PortsOk.release (hok : PortsOk live ports) {s : Nat} {port : BitVec 16}
    (hs : live s = some port) : PortsOk (Function.update live s none) (netFreePort ports port) := by
  have hlive : ∀ t q, Function.update live s none t = some q ↔ t ≠ s ∧ live t = some q := by
    intro t q
    by_cases hts : t = s
    · rw [hts, Function.update_self]
      simp
    · rw [Function.update_of_ne hts]
      simp [hts]
  refine ⟨(netFreePort_bitCnt _ _).trans hok.bitCnt, fun t u q ht hu => ?_, fun t q ht => ?_,
    fun p hp => ?_⟩
  · exact hok.distinct t u q ((hlive t q).mp ht).2 ((hlive u q).mp hu).2
  · exact hok.range t q ((hlive t q).mp ht).2
  · rw [portMarked_free, Bool.and_eq_true, hok.marked p hp, decide_eq_true_eq]
    constructor
    · rintro ⟨hne, hres | ⟨t, q, ht, hpt⟩⟩
      · exact .inl hres
      · refine .inr ⟨t, q, (hlive t q).mpr ⟨?_, ht⟩, hpt⟩
        rintro rfl
        rw [hs, Option.some.injEq] at ht
        exact hne (by rw [← hpt, ht])
    · rintro (hres | ⟨t, q, ht, hpt⟩)
      · have := (hok.range s port hs).1
        exact ⟨by omega, .inl hres⟩
      · obtain ⟨hts, ht⟩ := (hlive t q).mp ht
        refine ⟨fun hpp => hts ?_, .inr ⟨t, q, ht, hpt⟩⟩
        obtain rfl : q = port := BitVec.eq_of_toNat_eq (hpt.trans hpp)
        exact hok.distinct t s q ht hs

/-- A marked port above the reserved ones that no live socket has. -/
theorem not_portsOk_of_mark {port : BitVec 16} (hge : reservedPorts ≤ port.toNat)
    (hlt : port.toNat < portCount) (hmark : portMarked ports port.toNat = true)
    (hnone : ∀ s, live s ≠ some port) : ¬PortsOk live ports := by
  intro hok
  rcases (hok.marked _ hlt).mp hmark with hres | ⟨s, q, hs, hq⟩
  · omega
  · exact hnone s (by rw [hs, BitVec.eq_of_toNat_eq hq])

/-- The port allocated goes to no socket. -/
theorem PortsOk.leak (hok : PortsOk live ports) (hroom : ¬portsFull ports) :
    ¬PortsOk live (netAllocatePort ports).2 := by
  obtain ⟨-, hge, hlt, -, hmark, hnone⟩ := hok.fresh hroom
  refine not_portsOk_of_mark hge hlt ?_ hnone
  rw [hmark]
  simp

/-- A socket lets go of its port, which stays marked. -/
theorem PortsOk.lose (hok : PortsOk live ports) {s : Nat} {port : BitVec 16}
    (hs : live s = some port) {ports' : Bitmap}
    (hkept : portMarked ports port.toNat = true → portMarked ports' port.toNat = true)
    (hnone : ∀ t, live' t ≠ some port) : ¬PortsOk live' ports' := by
  obtain ⟨hge, hlt⟩ := hok.range s port hs
  exact not_portsOk_of_mark hge hlt
    (hkept ((hok.marked _ hlt).mpr (.inr ⟨s, port, hs, rfl⟩))) hnone

/-- A socket gets a second port in place of its first. -/
theorem PortsOk.replace (hok : PortsOk live ports) {s : Nat} {port : BitVec 16}
    (hs : live s = some port) {ports' : Bitmap}
    (hlive : live' = Function.update live s (some (netAllocatePort ports).1))
    (hports : ports' = (netAllocatePort ports).2) : ¬PortsOk live' ports' := by
  subst hports
  refine hok.lose hs (fun hmark => ?_) fun t ht => ?_
  · rcases netAllocatePort_spec hok.bitCnt with ⟨-, -, -, -, hall⟩ | ⟨-, -, hsame⟩
    · rw [hall, hmark, Bool.true_or]
    · rw [hsame]
      exact hmark
  · rw [hlive] at ht
    by_cases hts : t = s
    · rw [hts, Function.update_self, Option.some.injEq] at ht
      by_cases hfull : portsFull ports
      · have hlt := (hok.range s port hs).2
        rw [← ht, (netAllocatePort_full hok.bitCnt hfull).1] at hlt
        exact lt_irrefl _ hlt
      · exact (hok.fresh hfull).2.2.2.2.2 s (ht ▸ hs)
    · rw [Function.update_of_ne hts] at ht
      exact hts (hok.distinct t s port ht hs)

/-- A socket gets the error value for a port, or a second port. -/
theorem PortsOk.give_wrong (hok : PortsOk live ports) {s : Nat} {ports' : Bitmap}
    (hlive : live' = Function.update live s (some (netAllocatePort ports).1))
    (hports : ports' = (netAllocatePort ports).2) (hbad : portsFull ports ∨ live s ≠ none) :
    ¬PortsOk live' ports' := by
  rcases hbad with hfull | hsome
  · intro hok'
    have hlt := (hok'.range s (netAllocatePort ports).1 (by rw [hlive, Function.update_self])).2
    rw [(netAllocatePort_full hok.bitCnt hfull).1] at hlt
    exact lt_irrefl _ hlt
  · obtain ⟨port, hs⟩ := Option.ne_none_iff_exists'.mp hsome
    exact hok.replace hs hlive hports

end Marks

/-! ## The two families -/

/-- The source port of a live connected socket. -/
def udpLivePort (st : UdpState) (s : Nat) : Option (BitVec 16) :=
  (st.sock s).bind fun sock => sock.priv.bind fun p => (st.priv p).map UdpSockPriv.srcPort

def tcpLivePort (st : TcpState) (s : Nat) : Option (BitVec 16) :=
  (st.sock s).bind fun sock => sock.priv.bind st.info

/-- No entry of the tables has a port that the bitmap does not have, as the
error value of `net_allocate_port` would be. -/
def PortsNamed (tables : Nat → HashTable SockEntry) : Prop :=
  ∀ ni, ∀ e ∈ (tables ni).contents, e.srcPort.toNat < portCount

structure NetState where
  udp : UdpState
  tcp : TcpState

inductive NetOp : Type where
  | udp (op : UdpOp)
  | tcp (op : TcpOp)

def netStep (route : BitVec 32 → Nat) (st : NetState) : NetOp → Option NetState
  | .udp op => (udpStep route st.udp op).map fun udp => { st with udp }
  | .tcp op => (tcpSockStep route st.tcp op).map fun tcp => { st with tcp }

def netInit : NetState := { udp := udpInit, tcp := tcpInit }

/-- Each family's ports are the live sockets', and no error value is in use as
a port. -/
structure PortsRight (st : NetState) : Prop where
  udp : PortsOk (udpLivePort st.udp) st.udp.ports
  tcp : PortsOk (tcpLivePort st.tcp) st.tcp.ports
  udpNamed : PortsNamed st.udp.tables
  tcpNamed : PortsNamed st.tcp.tables

/-- A UDP socket is connected once, and while there is a port. -/
def UdpPortUse (st : UdpState) : UdpOp → Prop
  | .connect s c =>
      ∀ sock, st.sock s = some sock → FreshMem st.priv c.mem →
        sock.priv = none ∧ (c.mem ≠ none → ¬portsFull st.ports)
  | _ => True

/-- A TCP socket is connected once and never destroyed, its connect gets the
connection while there is a port, and comes to nothing before the port is
used when there is none. -/
def TcpPortUse (route : BitVec 32 → Nat) (st : TcpState) : TcpOp → Prop
  | .create _ _ => True
  | .connect s c =>
      ∀ sock, st.sock s = some sock → FreshMem st.info c.mem →
        (¬portsFull st.ports →
          sock.priv = none ∧ TcpAccepted route st (netAllocatePort st.ports).1 c) ∧
        (portsFull st.ports →
          c.mem = none ∨
            tcpFindInfo (st.tables (route c.addr.addr)) (netAllocatePort st.ports).1 ≠ none)
  | .destroy s _ => ∀ sock, st.sock s = some sock → sock.priv = none

def PortUse (route : BitVec 32 → Nat) (st : NetState) : NetOp → Prop
  | .udp op => UdpPortUse st.udp op
  | .tcp op => TcpPortUse route st.tcp op

/-! ## UDP -/

/-- Every entry of the table after an insertion. -/
theorem PortTable.mem_insert_iff {h : HashTable SockEntry} (ht : PortTable h) {ok : Bool}
    {x e : SockEntry} (hx : x ∈ (hashInsert ok h e).2.contents) : x = e ∨ x ∈ h.contents := by
  cases hfind : hashFind h e with
  | none =>
      rw [(ht.insert_free ok hfind).2.2] at hx
      exact Multiset.mem_cons.mp hx
  | some y =>
      rw [ht.insert_taken ok hfind] at hx
      exact .inr hx

theorem PortTable.insert {h : HashTable SockEntry} (ht : PortTable h) (ok : Bool)
    (e : SockEntry) : PortTable (hashInsert ok h e).2 := by
  cases hfind : hashFind h e with
  | none => exact (ht.insert_free ok hfind).2.1
  | some y => exact (ht.insert_taken ok hfind).symm ▸ ht

/-- An entry that has a port goes into one of the tables: they keep their
ports and their chains. -/
theorem tables_insert {tables tables' : Nat → HashTable SockEntry} {ok : Bool} {k : Nat}
    {e : SockEntry}
    (htables : ∀ ni, tables' ni = if ni = k then (hashInsert ok (tables ni) e).2 else tables ni)
    (hnamed : PortsNamed tables) (htable : ∀ ni, PortTable (tables ni))
    (he : e.srcPort.toNat < portCount) :
    PortsNamed tables' ∧ ∀ ni, PortTable (tables' ni) := by
  refine ⟨fun ni x hx => ?_, fun ni => ?_⟩
  · rw [htables] at hx
    by_cases hni : ni = k
    · rw [if_pos hni] at hx
      rcases (htable ni).mem_insert_iff hx with rfl | hx
      · exact he
      · exact hnamed ni x hx
    · rw [if_neg hni] at hx
      exact hnamed ni x hx
  · rw [htables]
    by_cases hni : ni = k
    · rw [if_pos hni]
      exact (htable ni).insert _ _
    · rw [if_neg hni]
      exact htable ni

structure UdpPortsOk (st : UdpState) : Prop where
  ports : PortsOk (udpLivePort st) st.ports
  named : PortsNamed st.tables
  table : ∀ ni, PortTable (st.tables ni)
  owned : ∀ s sock p, st.sock s = some sock → sock.priv = some p → ∃ usp, st.priv p = some usp

section Udp

variable {route : BitVec 32 → Nat} {st : UdpState}

theorem udpLivePort_idle {s : Nat} {sock : Socket} (hs : st.sock s = some sock)
    (hidle : sock.priv = none) : udpLivePort st s = none := by
  rw [udpLivePort, hs, Option.bind_some, hidle]
  rfl

theorem udpLivePort_dead {s : Nat} (hs : st.sock s = none) : udpLivePort st s = none := by
  rw [udpLivePort, hs]
  rfl

theorem udpLivePort_of {s p : Nat} {sock : Socket} {usp : UdpSockPriv}
    (hs : st.sock s = some sock) (hp : sock.priv = some p) (husp : st.priv p = some usp) :
    udpLivePort st s = some usp.srcPort := by
  rw [udpLivePort, hs, Option.bind_some, hp, Option.bind_some, husp]
  rfl

/-- A live socket's entry in `sock` changes to one without a connection; so
does its port. -/
theorem udpLivePort_setSock {s : Nat} {v : Option Socket}
    (hv : ∀ sock, v = some sock → sock.priv = none) :
    udpLivePort (st.setSock s v) = Function.update (udpLivePort st) s none := by
  funext t
  by_cases hts : t = s
  · subst hts
    rw [Function.update_self]
    cases hcase : v with
    | none => exact udpLivePort_dead (by simp [UdpState.setSock])
    | some sock => exact udpLivePort_idle (by simp [UdpState.setSock]) (hv sock hcase)
  · rw [Function.update_of_ne hts]
    simp only [udpLivePort, UdpState.setSock, Function.update_of_ne hts]

theorem UdpPortsOk.setSock_idle (hok : UdpPortsOk st) {s : Nat} {v : Option Socket}
    (hs : udpLivePort st s = none) (hv : ∀ sock, v = some sock → sock.priv = none) :
    UdpPortsOk (st.setSock s v) := by
  refine ⟨?_, hok.named, hok.table, fun t sock p ht hp => ?_⟩
  · rw [udpLivePort_setSock hv, ← hs, Function.update_eq_self]
    exact hok.ports
  · by_cases hts : t = s
    · subst hts
      have hsock : v = some sock := by simpa [UdpState.setSock] using ht
      rw [hv sock hsock] at hp
      cases hp
    · exact hok.owned t sock p (by simpa [UdpState.setSock, hts] using ht) hp

theorem UdpPortsOk.setPriv_same (hok : UdpPortsOk st) {p : Nat} {usp usp' : UdpSockPriv}
    (hp : st.priv p = some usp) (hport : usp'.srcPort = usp.srcPort) :
    UdpPortsOk (st.setPriv p (some usp')) := by
  have hpriv : ∀ q, ((st.setPriv p (some usp')).priv q).map UdpSockPriv.srcPort =
      (st.priv q).map UdpSockPriv.srcPort := by
    intro q
    by_cases hqp : q = p
    · subst hqp
      simp [UdpState.setPriv, hp, hport]
    · simp [UdpState.setPriv, hqp]
  refine ⟨?_, hok.named, hok.table, fun t sock q ht hq => ?_⟩
  · have hlive : udpLivePort (st.setPriv p (some usp')) = udpLivePort st := by
      funext t
      rw [udpLivePort, udpLivePort]
      simp only [hpriv]
      rfl
    rw [hlive]
    exact hok.ports
  · by_cases hqp : q = p
    · exact ⟨usp', by simp [UdpState.setPriv, hqp]⟩
    · obtain ⟨u, hu⟩ := hok.owned t sock q ht hq
      exact ⟨u, by simpa [UdpState.setPriv, hqp] using hu⟩

/-- After a connect the socket has the port allocated, and the others have
theirs. -/
theorem UdpPortsOk.livePort_connect (hok : UdpPortsOk st) (route : BitVec 32 → Nat) (s : Nat)
    (c : UdpConnect) {p : Nat} (hp : st.priv p = none) :
    udpLivePort (doUdpInetSockConnect route st s p c) =
      Function.update (udpLivePort st) s (some (netAllocatePort st.ports).1) := by
  funext t
  by_cases hts : t = s
  · obtain ⟨new, hnew, hport⟩ := connect_priv_self route st s p c
    have hsock : (doUdpInetSockConnect route st s p c).sock t =
        some { ni := route c.addr.addr, priv := some p } := by
      rw [connect_sock, if_pos hts]
    rw [udpLivePort_of hsock rfl hnew, hport, hts, Function.update_self, newEntry]
  · rw [Function.update_of_ne hts, udpLivePort, udpLivePort, connect_sock, if_neg hts]
    cases hsock : st.sock t with
    | none => rfl
    | some sock =>
        cases hq : sock.priv with
        | none => simp [hq]
        | some q =>
            have hqp : q ≠ p := by
              rintro rfl
              obtain ⟨u, hu⟩ := hok.owned t sock q hsock hq
              rw [hp] at hu
              cases hu
            simp [hq, connect_priv_of_ne hqp]

theorem connect_ports {s p : Nat} {c : UdpConnect} :
    (doUdpInetSockConnect route st s p c).ports = (netAllocatePort st.ports).2 := rfl

theorem UdpPortsOk.connect (hok : UdpPortsOk st) {s p : Nat} {c : UdpConnect}
    (hp : st.priv p = none) (hs : udpLivePort st s = none) (hroom : ¬portsFull st.ports) :
    UdpPortsOk (doUdpInetSockConnect route st s p c) := by
  obtain ⟨-, -, hlt, -⟩ := hok.ports.fresh hroom
  obtain ⟨hnamed, htable⟩ := tables_insert connect_tables hok.named hok.table hlt
  refine ⟨?_, hnamed, htable, fun t sock q ht hq => ?_⟩
  · rw [hok.livePort_connect route s c hp, connect_ports]
    exact hok.ports.allocate hroom hs
  · exact connect_owned hok.owned ht hq

theorem UdpPortsOk.destroy (hok : UdpPortsOk st) {s : Nat} {sock : Socket}
    (hs : st.sock s = some sock) : UdpPortsOk (udpSockDestroy st s sock) := by
  cases hpriv : sock.priv with
  | none =>
      rw [udpSockDestroy, hpriv]
      exact hok.setSock_idle (udpLivePort_idle hs hpriv) fun _ h => by cases h
  | some p =>
      obtain ⟨usp, husp⟩ := hok.owned s sock p hs hpriv
      have hdestroy : udpSockDestroy st s sock =
          ((({ st with ports := netFreePort st.ports usp.srcPort }).setPriv p none).setSock s
            none) := by
        rw [udpSockDestroy, hpriv]
        simp only [husp]
      have hlives := udpLivePort_of hs hpriv husp
      have hother : ∀ t k q, t ≠ s → st.sock t = some k → k.priv = some q → q ≠ p := by
        rintro t k q hts ht hq rfl
        exact hts (hok.ports.distinct t s _ (udpLivePort_of ht hq husp) hlives)
      have hlive : udpLivePort (udpSockDestroy st s sock) =
          Function.update (udpLivePort st) s none := by
        rw [hdestroy, udpLivePort_setSock fun _ h => by cases h]
        funext t
        by_cases hts : t = s
        · rw [hts, Function.update_self, Function.update_self]
        · rw [Function.update_of_ne hts, Function.update_of_ne hts, udpLivePort, udpLivePort]
          cases ht : st.sock t with
          | none => simp [UdpState.setPriv, ht]
          | some k =>
              cases hq : k.priv with
              | none => simp [UdpState.setPriv, ht, hq]
              | some q => simp [UdpState.setPriv, ht, hq, hother t k q hts ht hq]
      refine ⟨?_, ?_, ?_, ?_⟩
      · rw [hlive, hdestroy]
        exact hok.ports.release hlives
      · rw [hdestroy]
        exact hok.named
      · rw [hdestroy]
        exact hok.table
      · rw [hdestroy]
        intro t k q ht hq
        by_cases hts : t = s
        · rw [hts] at ht
          simp [UdpState.setSock] at ht
        · have htk : st.sock t = some k := by
            simpa [UdpState.setSock, UdpState.setPriv, hts] using ht
          obtain ⟨u, hu⟩ := hok.owned t k q htk hq
          exact ⟨u, by simpa [UdpState.setSock, UdpState.setPriv, hother t k q hts htk hq] using hu⟩

theorem udpStep_portsOk {st' : UdpState} {op : UdpOp} (hok : UdpPortsOk st)
    (huse : UdpPortUse st op) (hstep : udpStep route st op = some st') : UdpPortsOk st' := by
  cases udpStep_some hstep with
  | create hs =>
      exact hok.setSock_idle (udpLivePort_dead hs) fun sock h => by rw [← Option.some.inj h]
  | @connect s c sock hs hfree =>
      obtain ⟨hidle, hroom⟩ := huse sock hs hfree
      have hlive := udpLivePort_idle hs hidle
      cases hmem : c.mem with
      | none =>
          rw [udpSockConnect, hmem]
          exact hok.setSock_idle hlive fun k hk => by rw [← Option.some.inj hk]
      | some p =>
          rw [udpSockConnect, hmem]
          exact hok.connect (hfree p hmem) hlive (hroom (by rw [hmem]; simp))
  | destroy hs => exact hok.destroy hs
  | ignored => exact hok
  | buffered husp hport => exact hok.setPriv_same husp hport

/-- Every other step leaves a port marked that nobody has, or the error value
in use. -/
theorem udpStep_portsWrong (route : BitVec 32 → Nat) {op : UdpOp} (hok : UdpPortsOk st)
    (hbad : ¬UdpPortUse st op) :
    ∃ st', udpStep route st op = some st' ∧ ¬PortsOk (udpLivePort st') st'.ports := by
  cases op with
  | create s ni => exact (hbad trivial).elim
  | destroy s => exact (hbad trivial).elim
  | packet ni pkt => exact (hbad trivial).elim
  | read s len => exact (hbad trivial).elim
  | connect s c =>
      rw [UdpPortUse] at hbad
      push Not at hbad
      obtain ⟨sock, hs, hfree, hbad⟩ := hbad
      refine ⟨_, by rw [udpStep, hs]; exact if_pos hfree, ?_⟩
      cases hpriv : sock.priv with
      | some q =>
          obtain ⟨usp, husp⟩ := hok.owned s sock q hs hpriv
          have hlive := udpLivePort_of hs hpriv husp
          cases hmem : c.mem with
          | none =>
              rw [udpSockConnect, hmem]
              refine hok.ports.lose hlive (fun h => h) fun t ht => ?_
              rw [udpLivePort_setSock fun k hk => by rw [← Option.some.inj hk]] at ht
              by_cases hts : t = s
              · rw [hts, Function.update_self] at ht
                cases ht
              · rw [Function.update_of_ne hts] at ht
                exact hts (hok.ports.distinct t s _ ht hlive)
          | some p =>
              rw [udpSockConnect, hmem]
              exact hok.ports.give_wrong (hok.livePort_connect route s c (hfree p hmem))
                connect_ports (.inr (by rw [hlive]; exact Option.some_ne_none _))
      | none =>
          obtain ⟨hmem, hfull⟩ := hbad hpriv
          obtain ⟨p, hmem⟩ := Option.ne_none_iff_exists'.mp hmem
          rw [udpSockConnect, hmem]
          exact hok.ports.give_wrong (hok.livePort_connect route s c (hfree p hmem))
            connect_ports (.inl hfull)

end Udp

/-! ## TCP -/

structure TcpPortsOk (st : TcpState) : Prop where
  ports : PortsOk (tcpLivePort st) st.ports
  named : PortsNamed st.tables
  table : ∀ ni, PortTable (st.tables ni)
  owned : ∀ s sock p, st.sock s = some sock → sock.priv = some p → ∃ port, st.info p = some port

section Tcp

variable {route : BitVec 32 → Nat} {st : TcpState}

theorem tcpLivePort_idle {s : Nat} {sock : Socket} (hs : st.sock s = some sock)
    (hidle : sock.priv = none) : tcpLivePort st s = none := by
  rw [tcpLivePort, hs, Option.bind_some, hidle]
  rfl

theorem tcpLivePort_dead {s : Nat} (hs : st.sock s = none) : tcpLivePort st s = none := by
  rw [tcpLivePort, hs]
  rfl

theorem tcpLivePort_of {s p : Nat} {sock : Socket} (hs : st.sock s = some sock)
    (hp : sock.priv = some p) : tcpLivePort st s = st.info p := by
  rw [tcpLivePort, hs, Option.bind_some, hp, Option.bind_some]

theorem TcpPortsOk.setSock_idle (hok : TcpPortsOk st) {s : Nat} {v : Option Socket}
    (hs : tcpLivePort st s = none) (hv : ∀ sock, v = some sock → sock.priv = none) :
    TcpPortsOk (st.setSock s v) := by
  have hlive : tcpLivePort (st.setSock s v) = tcpLivePort st := by
    funext t
    by_cases hts : t = s
    · subst hts
      rw [hs]
      cases hcase : v with
      | none => exact tcpLivePort_dead (by simp [TcpState.setSock])
      | some sock => exact tcpLivePort_idle (by simp [TcpState.setSock]) (hv sock hcase)
    · simp only [tcpLivePort, TcpState.setSock, Function.update_of_ne hts]
  refine ⟨?_, hok.named, hok.table, fun t sock p ht hp => ?_⟩
  · rw [hlive]
    exact hok.ports
  · by_cases hts : t = s
    · subst hts
      have hsock : v = some sock := by simpa [TcpState.setSock] using ht
      rw [hv sock hsock] at hp
      cases hp
    · exact hok.owned t sock p (by simpa [TcpState.setSock, hts] using ht) hp

/-- Nobody has the address that `malloc` returns. -/
theorem TcpPortsOk.not_priv (hok : TcpPortsOk st) {p : Nat} (hp : st.info p = none) {t : Nat}
    {sock : Socket} (ht : st.sock t = some sock) : sock.priv ≠ some p := by
  intro hq
  obtain ⟨port, hport⟩ := hok.owned t sock p ht hq
  rw [hp] at hport
  cases hport

/-! ### A connect that gets its connection -/

section Accepted

variable {s p : Nat} {c : TcpConnect}

/-- The state after such a connect. -/
def acceptedState (route : BitVec 32 → Nat) (st : TcpState) (s p : Nat) (c : TcpConnect) :
    TcpState :=
  (({ st with ports := (netAllocatePort st.ports).2 }).withEntry (route c.addr.addr) p
    (netAllocatePort st.ports).1 c.rehashOk).setSock s
      (some { ni := route c.addr.addr, priv := some p })

theorem acceptedState_sock (t : Nat) :
    (acceptedState route st s p c).sock t =
      if t = s then some { ni := route c.addr.addr, priv := some p } else st.sock t := by
  by_cases ht : t = s
  · simp [acceptedState, TcpState.setSock, ht]
  · simp [acceptedState, TcpState.setSock, TcpState.withEntry, TcpState.setInfo,
      TcpState.setTable, ht]

theorem acceptedState_info (q : Nat) :
    (acceptedState route st s p c).info q =
      if q = p then some (netAllocatePort st.ports).1 else st.info q := by
  by_cases hq : q = p
  · simp [acceptedState, TcpState.setSock, TcpState.withEntry, TcpState.setInfo,
      TcpState.setTable, hq]
  · simp [acceptedState, TcpState.setSock, TcpState.withEntry, TcpState.setInfo,
      TcpState.setTable, hq]

theorem acceptedState_tables (ni : Nat) :
    (acceptedState route st s p c).tables ni =
      if ni = route c.addr.addr then
        (hashInsert c.rehashOk (st.tables ni) ⟨p, (netAllocatePort st.ports).1⟩).2
      else st.tables ni := by
  by_cases hni : ni = route c.addr.addr
  · simp [acceptedState, TcpState.setSock, TcpState.withEntry, TcpState.setInfo,
      TcpState.setTable, hni]
  · simp [acceptedState, TcpState.setSock, TcpState.withEntry, TcpState.setInfo,
      TcpState.setTable, hni]

theorem TcpPortsOk.livePort_accepted (hok : TcpPortsOk st) (route : BitVec 32 → Nat) (s : Nat)
    (c : TcpConnect) (hp : st.info p = none) :
    tcpLivePort (acceptedState route st s p c) =
      Function.update (tcpLivePort st) s (some (netAllocatePort st.ports).1) := by
  funext t
  by_cases hts : t = s
  · rw [hts, Function.update_self,
      tcpLivePort_of (p := p) (by rw [acceptedState_sock, if_pos rfl]) rfl, acceptedState_info,
      if_pos rfl]
  · rw [Function.update_of_ne hts, tcpLivePort, tcpLivePort, acceptedState_sock, if_neg hts]
    cases hsock : st.sock t with
    | none => rfl
    | some sock =>
        cases hq : sock.priv with
        | none => simp [hq]
        | some q =>
            have hqp : q ≠ p := fun hqp => hok.not_priv hp hsock (hqp ▸ hq)
            simp [hq, acceptedState_info, hqp]

theorem TcpPortsOk.accepted (hok : TcpPortsOk st) (hp : st.info p = none)
    (hs : tcpLivePort st s = none) (hroom : ¬portsFull st.ports) :
    TcpPortsOk (acceptedState route st s p c) := by
  obtain ⟨-, -, hlt, -⟩ := hok.ports.fresh hroom
  obtain ⟨hnamed, htable⟩ := tables_insert acceptedState_tables hok.named hok.table hlt
  refine ⟨?_, hnamed, htable, fun t sock q ht hq => ?_⟩
  · rw [hok.livePort_accepted route s c hp]
    exact hok.ports.allocate hroom hs
  · rw [acceptedState_info]
    by_cases hqp : q = p
    · exact ⟨_, if_pos hqp⟩
    · rw [if_neg hqp]
      rw [acceptedState_sock] at ht
      by_cases hts : t = s
      · rw [if_pos hts, Option.some.injEq] at ht
        subst ht
        exact (hqp (Option.some.inj hq).symm).elim
      · rw [if_neg hts] at ht
        exact hok.owned t sock q ht hq

/-- A connection that gets the error value for a port, or comes to a socket that
has one. -/
theorem TcpPortsOk.accepted_wrong (hok : TcpPortsOk st) (hp : st.info p = none) {sock : Socket}
    (hs : st.sock s = some sock) (hbad : portsFull st.ports ∨ sock.priv ≠ none) :
    ¬PortsOk (tcpLivePort (acceptedState route st s p c)) (netAllocatePort st.ports).2 := by
  refine hok.ports.give_wrong (hok.livePort_accepted route s c hp) rfl (hbad.imp_right ?_)
  intro hconn
  obtain ⟨q, hq⟩ := Option.ne_none_iff_exists'.mp hconn
  obtain ⟨port, hport⟩ := hok.owned s sock q hs hq
  rw [(tcpLivePort_of hs hq).trans hport]
  exact Option.some_ne_none port

end Accepted

/-! ### A connect that fails -/

section Refused

variable {st' : TcpState} {s : Nat} {sock : Socket} {c : TcpConnect}

/-- The sockets keep the ports they had. -/
theorem TcpPortsOk.livePort_refused (hok : TcpPortsOk st) (hs : st.sock s = some sock)
    (hfree : FreshMem st.info c.mem) (href : TcpRefused route st st' s sock c) :
    tcpLivePort st' = tcpLivePort st := by
  have hinfo : ∀ t k q, st.sock t = some k → k.priv = some q → st'.info q = st.info q :=
    fun t k q ht hq => href.info q fun hmem => hok.not_priv (hfree q hmem) ht hq
  funext t
  rw [tcpLivePort, tcpLivePort, href.sock]
  by_cases hts : t = s
  · rw [hts, Function.update_self, hs, Option.bind_some, Option.bind_some]
    cases hq : sock.priv with
    | none => rfl
    | some q => exact hinfo s sock q hs hq
  · rw [Function.update_of_ne hts]
    cases ht : st.sock t with
    | none => rfl
    | some k =>
        cases hq : k.priv with
        | none => simp [hq]
        | some q => simp [hq, hinfo t k q ht hq]

theorem TcpPortsOk.refused (hok : TcpPortsOk st) (hs : st.sock s = some sock)
    (hfree : FreshMem st.info c.mem) (href : TcpRefused route st st' s sock c)
    (hfull : portsFull st.ports)
    (hearly : c.mem = none ∨
      tcpFindInfo (st.tables (route c.addr.addr)) (netAllocatePort st.ports).1 ≠ none) :
    TcpPortsOk st' := by
  have htables : st'.tables = st.tables := by
    rcases href.tables with ⟨h, -⟩ | ⟨p, hmem, hfind, -⟩
    · exact h
    · rcases hearly with h | h
      · rw [h] at hmem
        cases hmem
      · exact (h hfind).elim
  refine ⟨?_, htables ▸ hok.named, htables ▸ hok.table, fun t k q ht hq => ?_⟩
  · rw [hok.livePort_refused hs hfree href, href.ports,
      (netAllocatePort_full hok.ports.bitCnt hfull).2]
    exact hok.ports
  · have hold : ∃ k', st.sock t = some k' ∧ k'.priv = some q := by
      rw [href.sock] at ht
      by_cases hts : t = s
      · rw [hts, Function.update_self, Option.some.injEq] at ht
        exact ⟨sock, hts ▸ hs, by rw [← ht] at hq; exact hq⟩
      · rw [Function.update_of_ne hts] at ht
        exact ⟨k, ht, hq⟩
    obtain ⟨k', hk', hq'⟩ := hold
    obtain ⟨port, hport⟩ := hok.owned t k' q hk' hq'
    exact ⟨port, by rw [href.info q fun hmem => hok.not_priv (hfree q hmem) hk' hq', hport]⟩

/-- A connection that comes to nothing keeps its port, or, when there is none,
leaves an entry without a port in the table. -/
theorem TcpPortsOk.refused_wrong (hok : TcpPortsOk st) (hs : st.sock s = some sock)
    (hfree : FreshMem st.info c.mem) (href : TcpRefused route st st' s sock c)
    (hlate : portsFull st.ports → c.mem ≠ none ∧
      tcpFindInfo (st.tables (route c.addr.addr)) (netAllocatePort st.ports).1 = none) :
    ¬(PortsOk (tcpLivePort st') st'.ports ∧ PortsNamed st'.tables) := by
  rintro ⟨hports, hnamed⟩
  by_cases hfull : portsFull st.ports
  · obtain ⟨hsome, hnone⟩ := hlate hfull
    rcases href.tables with ⟨-, hearly⟩ | ⟨p, hmem, hfind, htables⟩
    · rcases hearly with h | h
      · exact hsome h
      · exact h hnone
    · have hchain : hashFind (st.tables (route c.addr.addr))
          ⟨p, (netAllocatePort st.ports).1⟩ = none :=
        ((hok.table _).find_port _).trans hfind
      have hmem' : (⟨p, (netAllocatePort st.ports).1⟩ : SockEntry) ∈
          (st'.tables (route c.addr.addr)).contents := by
        rw [htables, Function.update_self,
          ((hok.table _).insert_free c.rehashOk hchain).2.2]
        exact Multiset.mem_cons_self _ _
      have hlt := hnamed _ _ hmem'
      rw [(netAllocatePort_full hok.ports.bitCnt hfull).1] at hlt
      exact lt_irrefl _ hlt
  · refine hok.ports.leak hfull ?_
    rw [← hok.livePort_refused hs hfree href, ← href.ports]
    exact hports

end Refused

/-! ### The steps -/

theorem tcpSockStep_portsOk {st' : TcpState} {op : TcpOp} (hok : TcpPortsOk st)
    (huse : TcpPortUse route st op) (hstep : tcpSockStep route st op = some st') :
    TcpPortsOk st' := by
  cases op with
  | create s ni =>
      rw [tcpSockStep] at hstep
      cases hs : st.sock s with
      | some sock => simp [hs] at hstep
      | none =>
          simp only [hs, Option.some.injEq] at hstep
          subst hstep
          exact hok.setSock_idle (tcpLivePort_dead hs) fun sock h => by rw [← Option.some.inj h]
  | destroy s rehashOk =>
      rw [tcpSockStep, Option.map_eq_some_iff] at hstep
      obtain ⟨sock, hs, rfl⟩ := hstep
      have hidle := huse sock hs
      rw [tcpSockDestroy, hidle]
      exact hok.setSock_idle (tcpLivePort_idle hs hidle) fun _ h => by cases h
  | connect s c =>
      rw [tcpSockStep] at hstep
      cases hs : st.sock s with
      | none => simp [hs] at hstep
      | some sock =>
          by_cases hfree : FreshMem st.info c.mem
          · simp only [hs, if_pos hfree] at hstep
            obtain ⟨hopen, hshut⟩ := huse sock hs hfree
            by_cases hfull : portsFull st.ports
            · have hnot : ¬TcpAccepted route st (netAllocatePort st.ports).1 c := by
                rintro ⟨hmem, hfind, -⟩
                rcases hshut hfull with h | h
                · exact hmem h
                · exact h hfind
              obtain ⟨rc, st'', -, hconn, href⟩ :=
                tcpSockConnect_refused s sock hnot
              rw [hconn, Option.map_some, Option.some.injEq] at hstep
              exact hstep ▸ hok.refused hs hfree href hfull (hshut hfull)
            · obtain ⟨hidle, hacc⟩ := hopen hfull
              obtain ⟨p, hmem⟩ := Option.ne_none_iff_exists'.mp hacc.1
              rw [tcpSockConnect_accepted hmem (hok.table _) hacc, Option.map_some,
                Option.some.injEq] at hstep
              exact hstep ▸ hok.accepted (hfree p hmem) (tcpLivePort_idle hs hidle) hfull
          · simp [hs, hfree] at hstep

/-- A connection that is destroyed loses its port. -/
theorem TcpPortsOk.destroy_wrong (hok : TcpPortsOk st) {s p : Nat} {sock : Socket}
    (hs : st.sock s = some sock) (hp : sock.priv = some p) (rehashOk : Bool) :
    ¬PortsOk (tcpLivePort (tcpSockDestroy st s sock rehashOk))
      (tcpSockDestroy st s sock rehashOk).ports := by
  obtain ⟨port, hport⟩ := hok.owned s sock p hs hp
  have hlive := (tcpLivePort_of hs hp).trans hport
  have hdestroy : tcpSockDestroy st s sock rehashOk =
      (((st.setTable sock.ni (hashDelete rehashOk (st.tables sock.ni) ⟨p, port⟩).2).setInfo p
        none).setSock s none) := by
    rw [tcpSockDestroy, hp]
    simp only [hport]
  rw [hdestroy]
  refine hok.ports.lose hlive (fun h => h) fun t ht => ?_
  by_cases hts : t = s
  · rw [hts, tcpLivePort_dead (by simp [TcpState.setSock])] at ht
    cases ht
  · refine hts (hok.ports.distinct t s port ?_ hlive)
    rw [tcpLivePort] at ht ⊢
    simp only [TcpState.setSock, TcpState.setInfo, TcpState.setTable,
      Function.update_of_ne hts] at ht
    rw [Option.bind_eq_some_iff] at ht ⊢
    obtain ⟨k, hk, hq⟩ := ht
    refine ⟨k, hk, ?_⟩
    rw [Option.bind_eq_some_iff] at hq ⊢
    obtain ⟨q, hkq, hq⟩ := hq
    refine ⟨q, hkq, ?_⟩
    by_cases hqp : q = p
    · rw [hqp, Function.update_self] at hq
      cases hq
    · rwa [Function.update_of_ne hqp] at hq

/-- Every other step leaves a port marked that nobody has, or the error value
in use. -/
theorem tcpSockStep_portsWrong (route : BitVec 32 → Nat) {op : TcpOp} (hok : TcpPortsOk st)
    (hbad : ¬TcpPortUse route st op) :
    ∃ st', tcpSockStep route st op = some st' ∧
      ¬(PortsOk (tcpLivePort st') st'.ports ∧ PortsNamed st'.tables) := by
  cases op with
  | create s ni => exact (hbad trivial).elim
  | destroy s rehashOk =>
      rw [TcpPortUse] at hbad
      push Not at hbad
      obtain ⟨sock, hs, hconn⟩ := hbad
      obtain ⟨p, hp⟩ := Option.ne_none_iff_exists'.mp hconn
      refine ⟨_, by rw [tcpSockStep, hs]; rfl, fun hright => ?_⟩
      exact hok.destroy_wrong hs hp rehashOk hright.1
  | connect s c =>
      rw [TcpPortUse] at hbad
      push Not at hbad
      obtain ⟨sock, hs, hfree, hbad⟩ := hbad
      have hstep : ∀ st', tcpSockConnect route st s sock c = some st' →
          tcpSockStep route st (.connect s c) = some st'.2 := fun st' h => by
        rw [tcpSockStep]
        simp only [hs]
        rw [if_pos hfree, h]
        rfl
      by_cases hacc : TcpAccepted route st (netAllocatePort st.ports).1 c
      · obtain ⟨p, hmem⟩ := Option.ne_none_iff_exists'.mp hacc.1
        refine ⟨_, hstep _ (tcpSockConnect_accepted hmem (hok.table _) hacc), fun hright => ?_⟩
        have hwrong : portsFull st.ports ∨ sock.priv ≠ none := by
          by_contra hnot
          rw [not_or, not_ne_iff] at hnot
          exact hnot.1 (hbad fun _ => ⟨hnot.2, hacc⟩).1
        exact hok.accepted_wrong (hfree p hmem) hs hwrong hright.1
      · obtain ⟨rc, st', -, hconn, href⟩ := tcpSockConnect_refused s sock hacc
        refine ⟨_, hstep _ hconn, hok.refused_wrong hs hfree href fun hfull => ?_⟩
        exact (hbad fun hroom => (hroom hfull).elim).2

end Tcp

/-! ## Both families -/

theorem netInit_ok : UdpPortsOk netInit.udp ∧ TcpPortsOk netInit.tcp := by
  have hempty : ∀ e, e ∉ (0 : Multiset SockEntry) := Multiset.notMem_zero
  have hudp : udpLivePort netInit.udp = fun _ => none := rfl
  have htcp : tcpLivePort netInit.tcp = fun _ => none := rfl
  refine ⟨⟨?_, fun ni e he => ?_, fun _ => niUdpSockets_ok.1, fun _ _ _ h => ?_⟩,
    ⟨?_, fun ni e he => ?_, fun _ => niTcpInfos_ok.1, fun _ _ _ h => ?_⟩⟩
  · rw [hudp]
    exact portsOk_init
  · exact (hempty e (niUdpSockets_ok.2 ▸ he)).elim
  · cases h
  · rw [htcp]
    exact portsOk_init
  · exact (hempty e (niTcpInfos_ok.2 ▸ he)).elim
  · cases h

/-- **When ports are accounted for.** In every run of connects and closes of
UDP and TCP sockets, the live sockets of each family have different ports from
1000 on, exactly these and the reserved ones are marked, and no error value is
used as a port, in every state, exactly when every step meets `PortUse`. -/
theorem net_ports_iff (route : BitVec 32 → Nat) (ops : List NetOp) :
    (∀ pre st, pre <+: ops → runSteps (netStep route) netInit pre = some st → PortsRight st) ↔
      StepsMeet (netStep route) (PortUse route) netInit ops := by
  refine reaches_iff_stepsMeet (J := fun st => UdpPortsOk st.udp ∧ TcpPortsOk st.tcp)
    (fun st hok => ⟨hok.1.ports, hok.2.ports, hok.1.named, hok.2.named⟩)
    (fun st op st' hok huse hstep => ?_) (fun st op hok hbad => ?_) netInit_ok
  · cases op with
    | udp op =>
        rw [netStep, Option.map_eq_some_iff] at hstep
        obtain ⟨udp, hudp, rfl⟩ := hstep
        exact ⟨udpStep_portsOk hok.1 huse hudp, hok.2⟩
    | tcp op =>
        rw [netStep, Option.map_eq_some_iff] at hstep
        obtain ⟨tcp, htcp, rfl⟩ := hstep
        exact ⟨hok.1, tcpSockStep_portsOk hok.2 huse htcp⟩
  · cases op with
    | udp op =>
        obtain ⟨udp, hudp, hwrong⟩ := udpStep_portsWrong route hok.1 hbad
        exact ⟨_, by rw [netStep, hudp, Option.map_some], fun hright => hwrong hright.udp⟩
    | tcp op =>
        obtain ⟨tcp, htcp, hwrong⟩ := tcpSockStep_portsWrong route hok.2 hbad
        exact ⟨_, by rw [netStep, htcp, Option.map_some],
          fun hright => hwrong ⟨hright.tcp, hright.tcpNamed⟩⟩

def refusedConnect : TcpConnect :=
  { addr := ⟨7548, 0xc0a80089⟩, mem := some 1, rehashOk := true, packetOk := true,
    closed := some econnrefused }

/-- The other side refuses the first connection of a socket, whose port stays
marked. -/
theorem net_ports_leak :
    ∃ st, runSteps (netStep fun _ => 0) netInit
        [.tcp (.create 1 0), .tcp (.connect 1 refusedConnect)] = some st ∧ ¬PortsRight st := by
  have hcreated : TcpPortsOk (tcpInit.setSock 1 (some ⟨0, none⟩)) :=
    netInit_ok.2.setSock_idle rfl fun sock h => by rw [← Option.some.inj h]
  have hroom : ¬portsFull netInitPorts := fun hfull => by
    have := hfull 1000 (by rw [netInitPorts_bitCnt]; decide)
    rw [portMarked_init] at this
    cases this
  have hrefused : ¬TcpPortUse (fun _ => 0) (tcpInit.setSock 1 (some ⟨0, none⟩))
      (.connect 1 refusedConnect) := fun huse => by
    obtain ⟨-, -, -, -, hclosed⟩ := (huse ⟨0, none⟩ rfl fun _ _ => rfl).1 hroom
    revert hclosed
    decide
  obtain ⟨tcp, htcp, hwrong⟩ := tcpSockStep_portsWrong _ hcreated hrefused
  refine ⟨{ netInit with tcp }, ?_, fun hright => hwrong ⟨hright.tcp, hright.tcpNamed⟩⟩
  show ((tcpSockStep (fun _ => 0) (tcpInit.setSock 1 (some ⟨0, none⟩))
      (.connect 1 refusedConnect)).map fun tcp => { netInit with tcp }).bind
        (fun s' => runSteps (netStep fun _ => 0) s' []) = some { netInit with tcp }
  rw [htcp]
  rfl

end Levos.Net
