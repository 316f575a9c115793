import Levos.Net.Udp

/-!
# The table of UDP sockets

`udp_sock_connect` puts the private structure of a socket into the table of
its interface; nothing ever takes one out. The table is right as long as no
connected socket is destroyed or connected again, and the ports of the
connected sockets fall into different chains.
-/

namespace Levos.Net

open Levos.Base Levos.Lib

/-! ## Runs -/

inductive UdpOp : Type where
  | create (s ni : Nat)
  | connect (s : Nat) (c : UdpConnect)
  | destroy (s : Nat)
  | packet (ni : Nat) (pkt : UdpPacket)
  | read (s : Nat) (len : Int)

section Steps

variable (route : BitVec 32 → Nat)

/-- `none` where the operation cannot happen or does not come to an end. -/
def udpStep (st : UdpState) : UdpOp → Option UdpState
  | .create s ni =>
      match st.sock s with
      | none => some (st.setSock s (some { ni, priv := none }))
      | some _ => none
  | .connect s c =>
      match st.sock s with
      | none => none
      | some sock => if FreshMem st.priv c.mem then some (udpSockConnect route st s sock c).2 else none
  | .destroy s => (st.sock s).map fun sock => udpSockDestroy st s sock
  | .packet ni pkt => (doUdpHandlePacket st ni pkt).map Prod.snd
  | .read s len => (st.sock s).bind fun sock => (udpSockRead st sock len).map Prod.snd

def udpInit : UdpState :=
  { sock := fun _ => none, priv := fun _ => none, tables := fun _ => niUdpSockets,
    ports := netInitPorts }

/-! ## What is said of the table -/

/-- A live socket is connected through the interface, with this private
structure. -/
def Connected (st : UdpState) (ni : Nat) (e : SockEntry) : Prop :=
  ∃ s sock usp, st.sock s = some sock ∧ sock.ni = ni ∧ sock.priv = some e.ptr ∧
    st.priv e.ptr = some usp ∧ usp.srcPort = e.srcPort

/-- The table of each interface has one entry for each connected socket, and
no other. -/
def UdpTableRight (st : UdpState) : Prop :=
  ∀ ni, (st.tables ni).contents.Nodup ∧ ∀ e, e ∈ (st.tables ni).contents ↔ Connected st ni e

/-- The steps that keep the table right: only sockets that are not connected
are connected or destroyed, and the next free port must have a chain of its
own. -/
def UdpTableUse (st : UdpState) : UdpOp → Prop
  | .connect s c =>
      ∀ sock, st.sock s = some sock → FreshMem st.priv c.mem →
        sock.priv = none ∧
          (c.mem ≠ none → ∀ e, Connected st (route c.addr.addr) e →
            portBucket e.srcPort ≠ portBucket (netAllocatePort st.ports).1)
  | .destroy s => ∀ sock, st.sock s = some sock → sock.priv = none
  | _ => True

structure UdpTableOk (st : UdpState) : Prop where
  held : ∀ ni e, e ∈ (st.tables ni).contents ↔ Connected st ni e
  table : ∀ ni, PortTable (st.tables ni)
  owned : ∀ s sock p, st.sock s = some sock → sock.priv = some p → ∃ usp, st.priv p = some usp
  own : ∀ s t sock sock' p, st.sock s = some sock → st.sock t = some sock' →
    sock.priv = some p → sock'.priv = some p → s = t

variable {route} {st : UdpState}

theorem UdpTableOk.right (hok : UdpTableOk st) : UdpTableRight st :=
  fun ni => ⟨(hok.table ni).nodup, hok.held ni⟩

theorem udpInit_ok : UdpTableOk udpInit := by
  refine ⟨fun ni e => ?_, fun _ => niUdpSockets_ok.1, (fun _ _ _ h => by cases h),
    (fun _ _ _ _ _ h => by cases h)⟩
  have hempty : (udpInit.tables ni).contents = 0 := niUdpSockets_ok.2
  rw [hempty]
  constructor
  · intro he
    cases he
  · rintro ⟨s, sock, usp, hs, -⟩
    cases hs

/-! ## Steps that leave the connections alone -/

theorem connected_setSock_idle {s : Nat} {v : Option Socket}
    (hold : ∀ sock, st.sock s = some sock → sock.priv = none)
    (hnew : ∀ sock, v = some sock → sock.priv = none) (ni : Nat) (e : SockEntry) :
    Connected (st.setSock s v) ni e ↔ Connected st ni e := by
  constructor
  · rintro ⟨t, sock, usp, ht, hni, hpriv, husp, hport⟩
    by_cases hts : t = s
    · subst hts
      have hv : v = some sock := by simpa [UdpState.setSock] using ht
      rw [hnew sock hv] at hpriv
      cases hpriv
    · refine ⟨t, sock, usp, ?_, hni, hpriv, husp, hport⟩
      simpa [UdpState.setSock, hts] using ht
  · rintro ⟨t, sock, usp, ht, hni, hpriv, husp, hport⟩
    have hts : t ≠ s := by
      rintro rfl
      rw [hold sock ht] at hpriv
      cases hpriv
    refine ⟨t, sock, usp, ?_, hni, hpriv, husp, hport⟩
    simpa [UdpState.setSock, hts] using ht

theorem UdpTableOk.setSock_idle (hok : UdpTableOk st) {s : Nat} {v : Option Socket}
    (hold : ∀ sock, st.sock s = some sock → sock.priv = none)
    (hnew : ∀ sock, v = some sock → sock.priv = none) : UdpTableOk (st.setSock s v) := by
  have hsame : ∀ t sock p, (st.setSock s v).sock t = some sock → sock.priv = some p →
      st.sock t = some sock := by
    intro t sock p ht hpriv
    by_cases hts : t = s
    · subst hts
      have hv : v = some sock := by simpa [UdpState.setSock] using ht
      rw [hnew sock hv] at hpriv
      cases hpriv
    · simpa [UdpState.setSock, hts] using ht
  refine ⟨fun ni e => ?_, hok.table, fun t sock p ht hpriv => ?_,
    fun t u sock sock' p ht hu hpt hpu => ?_⟩
  · exact (hok.held ni e).trans (connected_setSock_idle hold hnew ni e).symm
  · exact hok.owned t sock p (hsame t sock p ht hpriv) hpriv
  · exact hok.own t u sock sock' p (hsame t sock p ht hpt) (hsame u sock' p hu hpu) hpt hpu

/-- A private structure whose port stays may change. -/
theorem UdpTableOk.setPriv_same (hok : UdpTableOk st) {p : Nat} {usp usp' : UdpSockPriv}
    (hp : st.priv p = some usp) (hport : usp'.srcPort = usp.srcPort) :
    UdpTableOk (st.setPriv p (some usp')) := by
  have hiff : ∀ ni e, Connected (st.setPriv p (some usp')) ni e ↔ Connected st ni e := by
    intro ni e
    constructor
    · rintro ⟨t, sock, u, ht, hni, hpriv, hu, huport⟩
      by_cases hep : e.ptr = p
      · have husp : u = usp' := by simpa [UdpState.setPriv, hep] using hu.symm
        exact ⟨t, sock, usp, ht, hni, hpriv, hep ▸ hp, by rw [← hport, ← husp, huport]⟩
      · exact ⟨t, sock, u, ht, hni, hpriv, by simpa [UdpState.setPriv, hep] using hu, huport⟩
    · rintro ⟨t, sock, u, ht, hni, hpriv, hu, huport⟩
      by_cases hep : e.ptr = p
      · rw [hep, hp, Option.some.injEq] at hu
        exact ⟨t, sock, usp', ht, hni, hpriv, by simp [UdpState.setPriv, hep],
          by rw [hport, hu, huport]⟩
      · exact ⟨t, sock, u, ht, hni, hpriv, by simpa [UdpState.setPriv, hep] using hu, huport⟩
  refine ⟨fun ni e => (hok.held ni e).trans (hiff ni e).symm, hok.table, ?_, hok.own⟩
  intro t sock q ht hq
  by_cases hqp : q = p
  · exact ⟨usp', by simp [UdpState.setPriv, hqp]⟩
  · obtain ⟨u, hu⟩ := hok.owned t sock q ht hq
    exact ⟨u, by simpa [UdpState.setPriv, hqp] using hu⟩

theorem udpReceive_srcPort (usp : UdpSockPriv) (pkt : UdpPacket) :
    (udpReceive usp pkt).2.srcPort = usp.srcPort := by
  by_cases h : UdpStored usp pkt
  · rw [udpReceive_stored h, UdpSockPriv.queued]
  · rw [udpReceive_dropped h]

theorem udpRead_srcPort {usp usp' : UdpSockPriv} {len : Int} {r : UdpRead}
    (h : udpRead usp len = some (r, usp')) : usp'.srcPort = usp.srcPort := by
  cases hd : usp.dgrams with
  | nil =>
      rw [udpRead, udpPopDgram, hd] at h
      cases h
  | cons udg rest =>
      rw [udpRead_cons hd] at h
      obtain ⟨-, rfl⟩ := Prod.mk.inj (Option.some.inj h)
      rfl

/-- A read changes the private structure of its socket, and not the port. -/
theorem udpStep_read {st' : UdpState} {s : Nat} {len : Int}
    (hstep : udpStep route st (.read s len) = some st') :
    ∃ p usp usp', st.priv p = some usp ∧ usp'.srcPort = usp.srcPort ∧
      st' = st.setPriv p (some usp') := by
  rw [udpStep, Option.bind_eq_some_iff] at hstep
  obtain ⟨sock, hs, hread⟩ := hstep
  rw [Option.map_eq_some_iff] at hread
  obtain ⟨⟨r, st''⟩, hread, rfl⟩ := hread
  rw [udpSockRead, Option.bind_eq_some_iff] at hread
  obtain ⟨p, -, hread⟩ := hread
  rw [Option.bind_eq_some_iff] at hread
  obtain ⟨usp, husp, hread⟩ := hread
  rw [Option.map_eq_some_iff] at hread
  obtain ⟨⟨r', usp'⟩, hread, heq⟩ := hread
  obtain ⟨rfl, rfl⟩ := Prod.mk.inj heq
  exact ⟨p, usp, usp', husp, udpRead_srcPort hread, rfl⟩

/-- What one operation can do: make a socket, connect one, take one away, or
leave every structure with its port. -/
inductive UdpStepped (route : BitVec 32 → Nat) (st : UdpState) : UdpOp → UdpState → Prop where
  | create {s ni : Nat} (hs : st.sock s = none) :
      UdpStepped route st (.create s ni) (st.setSock s (some { ni, priv := none }))
  | connect {s : Nat} {c : UdpConnect} {sock : Socket} (hs : st.sock s = some sock)
      (hfree : FreshMem st.priv c.mem) :
      UdpStepped route st (.connect s c) (udpSockConnect route st s sock c).2
  | destroy {s : Nat} {sock : Socket} (hs : st.sock s = some sock) :
      UdpStepped route st (.destroy s) (udpSockDestroy st s sock)
  | ignored {ni : Nat} {pkt : UdpPacket} : UdpStepped route st (.packet ni pkt) st
  | buffered {op : UdpOp} {p : Nat} {usp usp' : UdpSockPriv} (husp : st.priv p = some usp)
      (hport : usp'.srcPort = usp.srcPort) : UdpStepped route st op (st.setPriv p (some usp'))

theorem udpStep_some {st' : UdpState} {op : UdpOp} (hstep : udpStep route st op = some st') :
    UdpStepped route st op st' := by
  cases op with
  | create s ni =>
      rw [udpStep] at hstep
      split at hstep
      · next hs => exact Option.some.inj hstep ▸ .create hs
      · cases hstep
  | connect s c =>
      rw [udpStep] at hstep
      split at hstep
      · cases hstep
      · next hs =>
          split at hstep
          · next hfree => exact Option.some.inj hstep ▸ .connect hs hfree
          · cases hstep
  | destroy s =>
      obtain ⟨sock, hs, rfl⟩ := Option.map_eq_some_iff.mp hstep
      exact .destroy hs
  | packet ni pkt =>
      rw [udpStep, doUdpHandlePacket] at hstep
      cases hfind : udpFindSock (st.tables ni) pkt.dstPort with
      | none =>
          simp only [hfind, Option.map_some, Option.some.injEq] at hstep
          exact hstep ▸ .ignored
      | some e =>
          simp only [hfind, Option.map_map, Option.map_eq_some_iff] at hstep
          obtain ⟨usp, husp, rfl⟩ := hstep
          exact .buffered husp (udpReceive_srcPort usp pkt)
  | read s len =>
      obtain ⟨p, usp, usp', husp, hport, rfl⟩ := udpStep_read hstep
      exact .buffered husp hport

/-! ## Connecting a socket -/

section Connect

variable {s p : Nat} {c : UdpConnect}

/-- The entry a connect makes. -/
def newEntry (st : UdpState) (p : Nat) : SockEntry := ⟨p, (netAllocatePort st.ports).1⟩

theorem connect_sock (t : Nat) :
    (doUdpInetSockConnect route st s p c).sock t =
      if t = s then some { ni := route c.addr.addr, priv := some p } else st.sock t := by
  by_cases ht : t = s
  · simp [doUdpInetSockConnect, UdpState.setSock, UdpState.setPriv, UdpState.setTable, ht]
  · simp [doUdpInetSockConnect, UdpState.setSock, UdpState.setPriv, UdpState.setTable, ht]

theorem connect_priv_self (route : BitVec 32 → Nat) (st : UdpState) (s p : Nat)
    (c : UdpConnect) : ∃ usp, (doUdpInetSockConnect route st s p c).priv p = some usp ∧
    usp.srcPort = (newEntry st p).srcPort :=
  ⟨_, Function.update_self .., rfl⟩

theorem connect_priv_of_ne {q : Nat} (hq : q ≠ p) :
    (doUdpInetSockConnect route st s p c).priv q = st.priv q := Function.update_of_ne hq _ _

theorem connect_tables (ni : Nat) :
    (doUdpInetSockConnect route st s p c).tables ni =
      if ni = route c.addr.addr then
        (hashInsert c.rehashOk (st.tables ni) (newEntry st p)).2 else st.tables ni := by
  by_cases hni : ni = route c.addr.addr
  · simp [doUdpInetSockConnect, UdpState.setSock, UdpState.setPriv, UdpState.setTable, hni,
      newEntry]
  · simp [doUdpInetSockConnect, UdpState.setSock, UdpState.setPriv, UdpState.setTable, hni]

/-- Every socket has its structure after a connect when it had it before. -/
theorem connect_owned
    (h : ∀ t sock q, st.sock t = some sock → sock.priv = some q → ∃ usp, st.priv q = some usp)
    {t q : Nat} {sock : Socket} (ht : (doUdpInetSockConnect route st s p c).sock t = some sock)
    (hq : sock.priv = some q) : ∃ usp, (doUdpInetSockConnect route st s p c).priv q = some usp := by
  by_cases hqp : q = p
  · obtain ⟨new, hnew, -⟩ := connect_priv_self route st s p c
    exact ⟨new, hqp ▸ hnew⟩
  · rw [connect_sock] at ht
    by_cases hts : t = s
    · rw [if_pos hts, Option.some.injEq] at ht
      subst ht
      exact (hqp (Option.some.inj hq).symm).elim
    · rw [if_neg hts] at ht
      rw [connect_priv_of_ne hqp]
      exact h t sock q ht hq

/-- The connections after a connect with fresh memory: the new one, and those
of the other sockets. -/
theorem connected_connect (hok : UdpTableOk st) (hp : st.priv p = none) (ni : Nat) (e : SockEntry) :
    Connected (doUdpInetSockConnect route st s p c) ni e ↔
      (ni = route c.addr.addr ∧ e = newEntry st p) ∨
        ∃ t sock usp, t ≠ s ∧ st.sock t = some sock ∧ sock.ni = ni ∧ sock.priv = some e.ptr ∧
          st.priv e.ptr = some usp ∧ usp.srcPort = e.srcPort := by
  obtain ⟨new, hnew, hport⟩ := connect_priv_self route st s p c
  constructor
  · rintro ⟨t, sock, usp, ht, hni, hpriv, husp, huport⟩
    rw [connect_sock] at ht
    by_cases hts : t = s
    · left
      rw [if_pos hts, Option.some.injEq] at ht
      subst ht
      obtain rfl : p = e.ptr := Option.some.inj hpriv
      rw [hnew, Option.some.injEq] at husp
      refine ⟨hni.symm, ?_⟩
      rw [newEntry, SockEntry.mk.injEq]
      exact ⟨rfl, by rw [← huport, ← husp, hport]; rfl⟩
    · right
      rw [if_neg hts] at ht
      by_cases hep : e.ptr = p
      · obtain ⟨u, hu⟩ := hok.owned t sock p ht (hep ▸ hpriv)
        rw [hp] at hu
        cases hu
      · rw [connect_priv_of_ne hep] at husp
        exact ⟨t, sock, usp, hts, ht, hni, hpriv, husp, huport⟩
  · rintro (⟨rfl, rfl⟩ | ⟨t, sock, usp, hts, ht, hni, hpriv, husp, huport⟩)
    · exact ⟨s, ⟨_, some p⟩, new, by rw [connect_sock, if_pos rfl], rfl, rfl, hnew, hport⟩
    · have hep : e.ptr ≠ p := by
        rintro hep
        rw [hep, hp] at husp
        cases husp
      exact ⟨t, sock, usp, by rw [connect_sock, if_neg hts, ht], hni, hpriv,
        by rw [connect_priv_of_ne hep, husp], huport⟩

/-- A socket without a connection is connected, and its chain is free. -/
theorem UdpTableOk.connect (hok : UdpTableOk st) (hp : st.priv p = none)
    (hidle : ∀ sock, st.sock s = some sock → sock.priv = none)
    (hfree : ∀ e, Connected st (route c.addr.addr) e →
      portBucket e.srcPort ≠ portBucket (netAllocatePort st.ports).1) :
    UdpTableOk (doUdpInetSockConnect route st s p c) := by
  have hfind : hashFind (st.tables (route c.addr.addr)) (newEntry st p) = none :=
    (hok.table _).find_none.mpr fun x hx => hfree x ((hok.held _ x).mp hx)
  obtain ⟨-, htable, hcontents⟩ := (hok.table _).insert_free c.rehashOk hfind
  have hother : ∀ ni e, Connected st ni e ↔
      ∃ t sock usp, t ≠ s ∧ st.sock t = some sock ∧ sock.ni = ni ∧ sock.priv = some e.ptr ∧
        st.priv e.ptr = some usp ∧ usp.srcPort = e.srcPort := by
    intro ni e
    constructor
    · rintro ⟨t, sock, usp, ht, hni, hpriv, husp, huport⟩
      refine ⟨t, sock, usp, ?_, ht, hni, hpriv, husp, huport⟩
      rintro rfl
      rw [hidle sock ht] at hpriv
      cases hpriv
    · rintro ⟨t, sock, usp, -, ht, hni, hpriv, husp, huport⟩
      exact ⟨t, sock, usp, ht, hni, hpriv, husp, huport⟩
  refine ⟨fun ni e => ?_, fun ni => ?_, fun t sock q ht hq => ?_,
    fun t u sock sock' q ht hu hqt hqu => ?_⟩
  · rw [connected_connect hok hp, ← hother, connect_tables]
    by_cases hni : ni = route c.addr.addr
    · subst hni
      rw [if_pos rfl, hcontents, Multiset.mem_cons, hok.held]
      simp
    · rw [if_neg hni, hok.held]
      simp [hni]
  · rw [connect_tables]
    by_cases hni : ni = route c.addr.addr
    · rw [if_pos hni, hni]
      exact htable
    · rw [if_neg hni]
      exact hok.table ni
  · exact connect_owned hok.owned ht hq
  · -- the memory of the new structure belonged to nobody
    have hnot : ∀ t sock, st.sock t = some sock → sock.priv ≠ some p := by
      intro t sock ht hpriv
      obtain ⟨u, hu⟩ := hok.owned t sock p ht hpriv
      rw [hp] at hu
      cases hu
    rw [connect_sock] at ht hu
    by_cases hts : t = s
    · by_cases hus : u = s
      · rw [hts, hus]
      · rw [if_pos hts, Option.some.injEq] at ht
        rw [if_neg hus] at hu
        subst ht
        exact (hnot u sock' hu (hqu.trans hqt.symm)).elim
    · rw [if_neg hts] at ht
      by_cases hus : u = s
      · rw [if_pos hus, Option.some.injEq] at hu
        subst hu
        exact (hnot t sock ht (hqt.trans hqu.symm)).elim
      · rw [if_neg hus] at hu
        exact hok.own t u sock sock' q ht hu hqt hqu

end Connect

/-! ## The steps -/

theorem udpStep_ok {st' : UdpState} {op : UdpOp} (hok : UdpTableOk st)
    (huse : UdpTableUse route st op) (hstep : udpStep route st op = some st') :
    UdpTableOk st' := by
  cases udpStep_some hstep with
  | create hs =>
      refine hok.setSock_idle (fun sock h => ?_) (fun sock h => ?_)
      · rw [hs] at h
        cases h
      · rw [← Option.some.inj h]
  | @connect s c sock hs hfree =>
      obtain ⟨hidle, hchain⟩ := huse sock hs hfree
      have hold : ∀ k, st.sock s = some k → k.priv = none := fun k hk => by
        rw [hs, Option.some.injEq] at hk
        exact hk ▸ hidle
      cases hmem : c.mem with
      | none =>
          rw [udpSockConnect, hmem]
          exact hok.setSock_idle hold fun k hk => by rw [← Option.some.inj hk]
      | some p =>
          rw [udpSockConnect, hmem]
          exact hok.connect (hfree p hmem) hold (hchain (by rw [hmem]; simp))
  | @destroy s sock hs =>
      have hidle := huse sock hs
      rw [udpSockDestroy, hidle]
      refine hok.setSock_idle (fun k hk => ?_) (fun k hk => by cases hk)
      rw [hs, Option.some.injEq] at hk
      exact hk ▸ hidle
  | ignored => exact hok
  | buffered husp hport => exact hok.setPriv_same husp hport

/-- An entry whose structure no socket has any more. -/
theorem not_right_of_stale {st : UdpState} (ni : Nat) (e : SockEntry)
    (hmem : e ∈ (st.tables ni).contents)
    (hnone : ∀ t sock, st.sock t = some sock → sock.priv ≠ some e.ptr) : ¬UdpTableRight st := by
  intro hright
  obtain ⟨t, sock, -, ht, -, hpriv, -⟩ := ((hright ni).2 e).mp hmem
  exact hnone t sock ht hpriv

/-- The entry of a connected socket. -/
theorem UdpTableOk.entry (hok : UdpTableOk st) {s q : Nat} {sock : Socket}
    (hs : st.sock s = some sock) (hq : sock.priv = some q) :
    ∃ e, e.ptr = q ∧ e ∈ (st.tables sock.ni).contents := by
  obtain ⟨usp, husp⟩ := hok.owned s sock q hs hq
  exact ⟨⟨q, usp.srcPort⟩, rfl, (hok.held _ _).mpr ⟨s, sock, usp, hs, rfl, hq, husp, rfl⟩⟩

/-- Inserting does not take anything out. -/
theorem PortTable.mem_insert {h : HashTable SockEntry} (ht : PortTable h) (ok : Bool)
    {x e : SockEntry} (hx : x ∈ h.contents) : x ∈ (hashInsert ok h e).2.contents := by
  cases hfind : hashFind h e with
  | none =>
      rw [(ht.insert_free ok hfind).2.2]
      exact Multiset.mem_cons_of_mem hx
  | some y =>
      rw [ht.insert_taken ok hfind]
      exact hx

/-- A connection is destroyed and stays in the table. -/
theorem UdpTableOk.destroy_wrong (hok : UdpTableOk st) {s q : Nat} {sock : Socket}
    (hs : st.sock s = some sock) (hq : sock.priv = some q) :
    ¬UdpTableRight (udpSockDestroy st s sock) := by
  obtain ⟨usp, husp⟩ := hok.owned s sock q hs hq
  obtain ⟨e, rfl, he⟩ := hok.entry hs hq
  have htables : (udpSockDestroy st s sock).tables = st.tables := by
    rw [udpSockDestroy, hq]
    simp only [husp]
    rfl
  have hsock : (udpSockDestroy st s sock).sock = Function.update st.sock s none := by
    rw [udpSockDestroy, hq]
    simp only [husp]
    rfl
  refine not_right_of_stale sock.ni e (htables ▸ he) fun t k hk hpriv => ?_
  rw [hsock] at hk
  by_cases hts : t = s
  · rw [hts, Function.update_self] at hk
    cases hk
  · rw [Function.update_of_ne hts] at hk
    exact hts (hok.own t s k sock e.ptr hk hs hpriv hq)

/-- A socket is connected again, and the structure of its old connection is still
in the table. -/
theorem UdpTableOk.reconnect_wrong (hok : UdpTableOk st) (route : BitVec 32 → Nat) {s q : Nat}
    {sock : Socket} {c : UdpConnect} (hs : st.sock s = some sock) (hpriv : sock.priv = some q)
    (hfree : FreshMem st.priv c.mem) : ¬UdpTableRight (udpSockConnect route st s sock c).2 := by
  obtain ⟨e, rfl, he⟩ := hok.entry hs hpriv
  cases hmem : c.mem with
  | none =>
      rw [udpSockConnect, hmem]
      refine not_right_of_stale sock.ni e he fun t k hk hkp => ?_
      by_cases hts : t = s
      · rw [hts] at hk
        simp only [UdpState.setSock, Function.update_self, Option.some.injEq] at hk
        rw [← hk] at hkp
        cases hkp
      · simp only [UdpState.setSock, Function.update_of_ne hts] at hk
        exact hts (hok.own t s k sock e.ptr hk hs hkp hpriv)
  | some p =>
      rw [udpSockConnect, hmem]
      have hp := hfree p hmem
      have hne : e.ptr ≠ p := by
        intro hep
        obtain ⟨usp, husp⟩ := hok.owned s sock e.ptr hs hpriv
        rw [hep, hp] at husp
        cases husp
      refine not_right_of_stale sock.ni e ?_ fun t k hk hkp => ?_
      · rw [connect_tables]
        by_cases hni : sock.ni = route c.addr.addr
        · rw [if_pos hni]
          exact (hok.table _).mem_insert _ he
        · rw [if_neg hni]
          exact he
      · rw [connect_sock] at hk
        by_cases hts : t = s
        · rw [if_pos hts, Option.some.injEq] at hk
          rw [← hk] at hkp
          exact hne (Option.some.inj hkp).symm
        · rw [if_neg hts] at hk
          exact hts (hok.own t s k sock e.ptr hk hs hkp hpriv)

/-- The table takes a new structure for that of another socket. -/
theorem UdpTableOk.collision_wrong (hok : UdpTableOk st) {s p : Nat} {c : UdpConnect}
    {e : SockEntry} (hp : st.priv p = none) (he : Connected st (route c.addr.addr) e)
    (hchain : portBucket e.srcPort = portBucket (netAllocatePort st.ports).1) :
    ¬UdpTableRight (doUdpInetSockConnect route st s p c) := by
  intro hright
  have hfind : hashFind (st.tables (route c.addr.addr)) (newEntry st p) = some e :=
    (hok.table _).find_iff.mpr ⟨(hok.held _ _).mpr he, hchain⟩
  have hnew := ((hright (route c.addr.addr)).2 (newEntry st p)).mpr
    ((connected_connect hok hp _ _).mpr (.inl ⟨rfl, rfl⟩))
  rw [connect_tables, if_pos rfl, (hok.table _).insert_taken _ hfind, hok.held] at hnew
  obtain ⟨t, k, usp, ht, -, hk, husp, -⟩ := hnew
  rw [show (newEntry st p).ptr = p from rfl, hp] at husp
  cases husp

/-- Every other step leaves a table with an entry too many or too few. -/
theorem udpStep_wrong {op : UdpOp} (hok : UdpTableOk st) (hbad : ¬UdpTableUse route st op) :
    ∃ st', udpStep route st op = some st' ∧ ¬UdpTableRight st' := by
  cases op with
  | create s ni => exact (hbad trivial).elim
  | packet ni pkt => exact (hbad trivial).elim
  | read s len => exact (hbad trivial).elim
  | destroy s =>
      rw [UdpTableUse] at hbad
      push Not at hbad
      obtain ⟨sock, hs, hconn⟩ := hbad
      obtain ⟨q, hq⟩ := Option.ne_none_iff_exists'.mp hconn
      exact ⟨_, by rw [udpStep, hs]; rfl, hok.destroy_wrong hs hq⟩
  | connect s c =>
      rw [UdpTableUse] at hbad
      push Not at hbad
      obtain ⟨sock, hs, hfree, hbad⟩ := hbad
      refine ⟨_, by rw [udpStep, hs]; exact if_pos hfree, ?_⟩
      cases hpriv : sock.priv with
      | some q => exact hok.reconnect_wrong route hs hpriv hfree
      | none =>
          obtain ⟨hmem, e, he, hchain⟩ := hbad hpriv
          obtain ⟨p, hmem⟩ := Option.ne_none_iff_exists'.mp hmem
          rw [udpSockConnect, hmem]
          exact hok.collision_wrong (hfree p hmem) he hchain

/-- **When the table holds the live sockets.** In every run of UDP sockets,
with packets and reads in between, the table of each interface has exactly one
entry for each connected socket in every state, exactly when no connected
socket is destroyed or connected again, and no socket is connected while
another one of the interface has the chain of the next free port. -/
theorem udp_table_iff (route : BitVec 32 → Nat) (ops : List UdpOp) :
    (∀ pre st, pre <+: ops → runSteps (udpStep route) udpInit pre = some st → UdpTableRight st) ↔
      StepsMeet (udpStep route) (UdpTableUse route) udpInit ops :=
  reaches_iff_stepsMeet (J := UdpTableOk) (fun _ hok => hok.right)
    (fun _ _ _ hok huse hstep => udpStep_ok hok huse hstep)
    (fun _ _ hok hbad => udpStep_wrong hok hbad) udpInit_ok

end Steps

def firstConnect : UdpConnect :=
  { addr := ⟨7548, 0xc0a80089⟩, mem := some 1, junk := 0, rehashOk := true }

/-- A socket is connected and destroyed; its freed structure stays in the
table. -/
theorem udp_table_stale :
    ∃ st, runSteps (udpStep fun _ => 0) udpInit
        [.create 1 0, .connect 1 firstConnect, .destroy 1] = some st ∧ ¬UdpTableRight st := by
  have hcreated : UdpTableOk (udpInit.setSock 1 (some ⟨0, none⟩)) :=
    udpInit_ok.setSock_idle (fun _ h => by cases h) fun sock h => by rw [← Option.some.inj h]
  have hconnected : UdpTableOk (doUdpInetSockConnect (fun _ => 0)
      (udpInit.setSock 1 (some ⟨0, none⟩)) 1 1 firstConnect) := by
    refine hcreated.connect rfl (fun sock h => ?_) fun e he => ?_
    · simp only [UdpState.setSock, Function.update_self, Option.some.injEq] at h
      rw [← h]
    · have hnone : e ∈ (0 : Multiset SockEntry) := niUdpSockets_ok.2 ▸ (hcreated.held 0 e).mpr he
      cases hnone
  have hdestroyed : ¬UdpTableUse (fun _ => 0) (doUdpInetSockConnect (fun _ => 0)
      (udpInit.setSock 1 (some ⟨0, none⟩)) 1 1 firstConnect) (.destroy 1) := fun huse => by
    have := huse ⟨0, some 1⟩ (by rw [connect_sock, if_pos rfl])
    cases this
  obtain ⟨st, hst, hwrong⟩ := udpStep_wrong hconnected hdestroyed
  refine ⟨st, ?_, hwrong⟩
  show (udpStep (fun _ => 0) (doUdpInetSockConnect (fun _ => 0)
      (udpInit.setSock 1 (some ⟨0, none⟩)) 1 1 firstConnect) (.destroy 1)).bind
        (fun s' => runSteps (udpStep fun _ => 0) s' []) = some st
  rw [hst]
  rfl

end Levos.Net
