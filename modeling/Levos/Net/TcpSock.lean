import Levos.Net.Udp

/-!
# TCP sockets (`net/tcp.c`)

What connecting and destroying a TCP socket does to the table of connections
and to the ports of the family. Of a `struct tcp_info` only the source port
counts here. The replies of the other side, and which allocations fail, are
arguments of the connect; a connect that waits for a reply forever is not a
step.
-/

namespace Levos.Net

open Levos.Base Levos.Lib

structure TcpState where
  sock : Nat → Option Socket
  info : Nat → Option (BitVec 16)
  tables : Nat → HashTable SockEntry
  ports : Bitmap

def TcpState.setSock (st : TcpState) (s : Nat) (v : Option Socket) : TcpState :=
  { st with sock := Function.update st.sock s v }

def TcpState.setInfo (st : TcpState) (p : Nat) (v : Option (BitVec 16)) : TcpState :=
  { st with info := Function.update st.info p v }

def TcpState.setTable (st : TcpState) (ni : Nat) (t : HashTable SockEntry) : TcpState :=
  { st with tables := Function.update st.tables ni t }

/-- What a connect finds: where it is to go, the memory for its
`struct tcp_info`, whether `rehash` can allocate, whether there is memory for
the SYN, and the fail code of a connection that was closed instead of
established. -/
structure TcpConnect where
  addr : SockAddrIn
  mem : Option Nat
  rehashOk : Bool
  packetOk : Bool
  closed : Option Int
deriving DecidableEq, Repr

def eaddrinuse : Int := -98

/-- `tcp_conn_start`. The `tcp_info` is freed again where the port is in use
or the SYN cannot be made; in the second case it is already in the table. -/
def tcpConnStart (st : TcpState) (ni : Nat) (srcPort : BitVec 16) (c : TcpConnect) :
    Int × TcpState :=
  match c.mem with
  | none => (enomem, st)
  | some p =>
      if (tcpFindInfo (st.tables ni) srcPort).isSome then (eaddrinuse, st)
      else
        let st := st.setInfo p (some srcPort)
        let st := st.setTable ni (hashInsert c.rehashOk (st.tables ni) ⟨p, srcPort⟩).2
        if !c.packetOk then (enomem, st.setInfo p none)
        else (c.closed.getD 0, st)

section Connecting

-- `route_find_ni_for_dst`
variable (route : BitVec 32 → Nat)

/-- `tcp_sock_connect`; `none` is the panic over a missing `tcp_info`. -/
def tcpSockConnect (st : TcpState) (s : Nat) (sock : Socket) (c : TcpConnect) :
    Option (Int × TcpState) :=
  let ni := route c.addr.addr
  let st := st.setSock s (some { sock with ni })
  let r := netAllocatePort st.ports
  let st := { st with ports := r.2 }
  let (rc, st) := tcpConnStart st ni r.1 c
  if rc ≠ 0 then some (rc, st)
  else
    (tcpFindInfo (st.tables ni) r.1).map fun ti =>
      (0, st.setSock s (some { ni, priv := some ti.ptr }))

end Connecting

/-- `tcp_sock_destroy`, and `free(sock)` of `socket_destroy` after it. -/
def tcpSockDestroy (st : TcpState) (s : Nat) (sock : Socket) (rehashOk : Bool) : TcpState :=
  match sock.priv with
  | none => st.setSock s none
  | some p =>
      match st.info p with
      | none => st.setSock s none
      | some port =>
          let st := st.setTable sock.ni
            (hashDelete rehashOk (st.tables sock.ni) ⟨p, port⟩).2
          (st.setInfo p none).setSock s none

/-! ## Runs -/

inductive TcpOp : Type where
  | create (s ni : Nat)
  | connect (s : Nat) (c : TcpConnect)
  | destroy (s : Nat) (rehashOk : Bool)

/-- `none` where the operation cannot happen, or panics. -/
def tcpSockStep (route : BitVec 32 → Nat) (st : TcpState) : TcpOp → Option TcpState
  | .create s ni =>
      match st.sock s with
      | none => some (st.setSock s (some { ni, priv := none }))
      | some _ => none
  | .connect s c =>
      match st.sock s with
      | none => none
      | some sock =>
          if FreshMem st.info c.mem then (tcpSockConnect route st s sock c).map Prod.snd else none
  | .destroy s rehashOk => (st.sock s).map fun sock => tcpSockDestroy st s sock rehashOk

def tcpInit : TcpState :=
  { sock := fun _ => none, info := fun _ => none, tables := fun _ => niTcpInfos,
    ports := netInitPorts }

/-! ## What a connect does -/

variable {route : BitVec 32 → Nat} {st : TcpState} {s : Nat} {sock : Socket} {c : TcpConnect}

/-- The connect gets its connection. -/
def TcpAccepted (route : BitVec 32 → Nat) (st : TcpState) (port : BitVec 16) (c : TcpConnect) :
    Prop :=
  c.mem ≠ none ∧ tcpFindInfo (st.tables (route c.addr.addr)) port = none ∧ c.packetOk = true ∧
    c.closed.getD 0 = 0

/-- The table entry of a new connection. -/
def TcpState.withEntry (st : TcpState) (ni p : Nat) (port : BitVec 16) (rehashOk : Bool) :
    TcpState :=
  (st.setInfo p (some port)).setTable ni (hashInsert rehashOk (st.tables ni) ⟨p, port⟩).2

/-- A connect that gets its connection leaves the socket with a `tcp_info` of
its own. -/
theorem tcpSockConnect_accepted {p : Nat} (hmem : c.mem = some p)
    (htable : PortTable (st.tables (route c.addr.addr)))
    (hacc : TcpAccepted route st (netAllocatePort st.ports).1 c) :
    tcpSockConnect route st s sock c =
      some (0, (({ st with ports := (netAllocatePort st.ports).2 }).withEntry
        (route c.addr.addr) p (netAllocatePort st.ports).1 c.rehashOk).setSock s
          (some { ni := route c.addr.addr, priv := some p })) := by
  obtain ⟨-, hfind, hpacket, hclosed⟩ := hacc
  have hown : tcpFindInfo (hashInsert c.rehashOk (st.tables (route c.addr.addr))
      ⟨p, (netAllocatePort st.ports).1⟩).2 (netAllocatePort st.ports).1 =
        some ⟨p, (netAllocatePort st.ports).1⟩ := by
    obtain ⟨-, hnew, hcontents⟩ := htable.insert_free c.rehashOk
      (e := ⟨p, (netAllocatePort st.ports).1⟩) ((htable.find_port _).trans hfind)
    refine hnew.find_iff.mpr ⟨?_, rfl⟩
    rw [hcontents]
    exact Multiset.mem_cons_self _ _
  rw [tcpSockConnect, tcpConnStart, hmem]
  simp only [TcpState.setSock, hfind, Option.isSome_none, Bool.false_eq_true, if_false, hpacket,
    Bool.not_true, hclosed, TcpState.setInfo, TcpState.setTable, ne_eq, not_true_eq_false,
    Function.update_self, hown, Option.map_some, TcpState.withEntry, Function.update_idem]

/-- What a connect that fails leaves: the port is taken all the same, the
socket keeps its connection, and the table may have a new entry with the
port. -/
structure TcpRefused (route : BitVec 32 → Nat) (st st' : TcpState) (s : Nat) (sock : Socket)
    (c : TcpConnect) : Prop where
  ports : st'.ports = (netAllocatePort st.ports).2
  sock : st'.sock = Function.update st.sock s (some { sock with ni := route c.addr.addr })
  info : ∀ q, c.mem ≠ some q → st'.info q = st.info q
  tables : st'.tables = st.tables ∧
      (c.mem = none ∨
        tcpFindInfo (st.tables (route c.addr.addr)) (netAllocatePort st.ports).1 ≠ none) ∨
    ∃ p, c.mem = some p ∧
      tcpFindInfo (st.tables (route c.addr.addr)) (netAllocatePort st.ports).1 = none ∧
      st'.tables = Function.update st.tables (route c.addr.addr)
        (hashInsert c.rehashOk (st.tables (route c.addr.addr))
          ⟨p, (netAllocatePort st.ports).1⟩).2

theorem tcpSockConnect_refused (s : Nat) (sock : Socket)
    (hnot : ¬TcpAccepted route st (netAllocatePort st.ports).1 c) :
    ∃ rc st', rc ≠ 0 ∧ tcpSockConnect route st s sock c = some (rc, st') ∧
      TcpRefused route st st' s sock c := by
  cases hmem : c.mem with
  | none =>
      refine ⟨enomem, { st.setSock s (some { sock with ni := route c.addr.addr }) with
        ports := (netAllocatePort st.ports).2 }, by decide, ?_, ?_⟩
      · rw [tcpSockConnect, tcpConnStart, hmem]
        rfl
      · exact ⟨rfl, rfl, fun _ _ => rfl, .inl ⟨rfl, .inl hmem⟩⟩
  | some p =>
      cases hfind : tcpFindInfo (st.tables (route c.addr.addr)) (netAllocatePort st.ports).1 with
      | some e =>
          refine ⟨eaddrinuse, { st.setSock s (some { sock with ni := route c.addr.addr }) with
            ports := (netAllocatePort st.ports).2 }, by decide, ?_, ?_⟩
          · rw [tcpSockConnect, tcpConnStart, hmem]
            simp only [TcpState.setSock, hfind, Option.isSome_some, if_true]
            rw [if_pos (by decide)]
          · exact ⟨rfl, rfl, fun _ _ => rfl, .inl ⟨rfl, .inr (by rw [hfind]; simp)⟩⟩
      | none =>
          have hinfo : ∀ v : Option (BitVec 16), ∀ q, c.mem ≠ some q →
              Function.update st.info p v q = st.info q := fun v q hq =>
            Function.update_of_ne (fun hqp => hq (by rw [hqp]; exact hmem)) _ _
          cases hpacket : c.packetOk with
          | false =>
              refine ⟨enomem, ((({ st.setSock s (some { sock with ni := route c.addr.addr }) with
                ports := (netAllocatePort st.ports).2 }).withEntry (route c.addr.addr) p
                  (netAllocatePort st.ports).1 c.rehashOk).setInfo p none), by decide, ?_, ?_⟩
              · rw [tcpSockConnect, tcpConnStart, hmem]
                simp only [TcpState.setSock, hfind, Option.isSome_none, Bool.false_eq_true, if_false,
                  hpacket, Bool.not_false, if_true]
                rw [if_pos (by decide)]
                rfl
              · refine ⟨rfl, rfl, fun q hq => ?_, .inr ⟨p, hmem, hfind, rfl⟩⟩
                simp only [TcpState.setInfo, TcpState.withEntry, TcpState.setTable,
                  Function.update_idem]
                exact hinfo none q hq
          | true =>
              have hclosed : c.closed.getD 0 ≠ 0 := fun hzero =>
                hnot ⟨by rw [hmem]; simp, hfind, hpacket, hzero⟩
              refine ⟨c.closed.getD 0, ({ st.setSock s (some { sock with ni := route c.addr.addr })
                with ports := (netAllocatePort st.ports).2 }).withEntry (route c.addr.addr) p
                  (netAllocatePort st.ports).1 c.rehashOk, hclosed, ?_, ?_⟩
              · rw [tcpSockConnect, tcpConnStart, hmem]
                simp only [TcpState.setSock, hfind, Option.isSome_none, Bool.false_eq_true, if_false,
                  hpacket, Bool.not_true]
                rw [if_pos hclosed]
                rfl
              · exact ⟨rfl, rfl, fun q hq => hinfo _ q hq, .inr ⟨p, hmem, hfind, rfl⟩⟩

end Levos.Net
