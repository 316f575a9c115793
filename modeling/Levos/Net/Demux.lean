import Levos.Base.Run
import Levos.Lib.HashTable

/-!
# Finding a connection by its port (`net/tcp.c`, `net/udp.c`)

`ni_tcp_infos` and `ni_udp_sockets` are hash tables keyed by the source port.
Both comparison callbacks compare the port of their first argument with
itself, so to the table every two entries of a chain are equal: a chain never
gets a second entry, the table never grows beyond its first four chains, and a
lookup answers with whoever has the chain of the port.
-/

namespace Levos.Net

open Levos.Base Levos.Lib

/-! ## The tables -/

/-- The address of a `struct tcp_info` or a `struct udp_sock_priv`, and the
source port stored there. -/
structure SockEntry where
  ptr : Nat
  srcPort : BitVec 16
deriving DecidableEq, Repr

def portHash (port : BitVec 16) : BitVec 32 := hashInt (port.zeroExtend 32)

def tcpHashTcpInfo (e : SockEntry) : BitVec 32 := portHash e.srcPort

/-- `ta->ti_src_port < ta->ti_src_port`. -/
def tcpLessTcpInfo (a _b : SockEntry) : Bool := a.srcPort < a.srcPort

def udpHashUsp (e : SockEntry) : BitVec 32 := portHash e.srcPort

/-- `ta->usp_srcport < ta->usp_srcport`. -/
def udpLessUsp (a _b : SockEntry) : Bool := a.srcPort < a.srcPort

/-- `net_info_init`. -/
def niTcpInfos : HashTable SockEntry := hashInit tcpHashTcpInfo tcpLessTcpInfo
def niUdpSockets : HashTable SockEntry := hashInit udpHashUsp udpLessUsp

/-- The element on the stack that a lookup compares with; only its port is
set. -/
def searcher (port : BitVec 16) : SockEntry := ⟨0, port⟩

/-- `__tcp_find_info`. -/
def tcpFindInfo (table : HashTable SockEntry) (srcPort : BitVec 16) : Option SockEntry :=
  hashFind table (searcher srcPort)

/-- The lookup of `do_udp_handle_packet`. -/
def udpFindSock (table : HashTable SockEntry) (dstPort : BitVec 16) : Option SockEntry :=
  hashFind table (searcher dstPort)

/-! ## What the tables can hold -/

/-- The chain of a port among the first four. -/
def portBucket (port : BitVec 16) : Nat := (portHash port).toNat &&& 3

/-- A table of ports with the four chains it was made with, none of which has
two entries. -/
structure PortTable (h : HashTable SockEntry) : Prop extends TableOk h where
  hash : ∀ e, h.hash e = portHash e.srcPort
  less : ∀ a b, h.less a b = false
  four : h.bucketCnt = 4
  lone : ∀ x ∈ h.contents, ∀ y ∈ h.contents, findBucket h x = findBucket h y → x = y

variable {h : HashTable SockEntry}

theorem PortTable.same (ht : PortTable h) (x e : SockEntry) : h.same x e = true := by
  rw [HashTable.same, ht.less, ht.less]
  rfl

theorem PortTable.bucket (ht : PortTable h) (e : SockEntry) :
    findBucket h e = portBucket e.srcPort := by
  rw [findBucket, ht.hash, ht.four, portBucket]

/-- **The lookup answers with whoever has the chain.** -/
theorem PortTable.find_iff (ht : PortTable h) {e x : SockEntry} :
    hashFind h e = some x ↔ x ∈ h.contents ∧ portBucket x.srcPort = portBucket e.srcPort := by
  rw [← ht.bucket, ← ht.bucket]
  constructor
  · intro hx
    obtain ⟨hmem, hb, -⟩ := ht.find_some hx
    exact ⟨hmem, hb⟩
  · rintro ⟨hmem, hb⟩
    cases hfind : hashFind h e with
    | none =>
        have := ht.find_none.mp hfind x hmem hb
        rw [ht.same] at this
        cases this
    | some y =>
        obtain ⟨hy, hby, -⟩ := ht.find_some hfind
        rw [ht.lone y hy x hmem (hby.trans hb.symm)]

theorem PortTable.find_none (ht : PortTable h) {e : SockEntry} :
    hashFind h e = none ↔ ∀ x ∈ h.contents, portBucket x.srcPort ≠ portBucket e.srcPort := by
  rw [Option.eq_none_iff_forall_ne_some]
  constructor
  · exact fun hne x hx hb => hne x (ht.find_iff.mpr ⟨hx, hb⟩)
  · intro hall x hx
    obtain ⟨hmem, hb⟩ := ht.find_iff.mp hx
    exact hall x hmem hb

/-- Only the port is looked at. -/
theorem PortTable.find_port (ht : PortTable h) (e : SockEntry) :
    hashFind h e = hashFind h (searcher e.srcPort) := by
  refine Option.ext fun x => ?_
  rw [ht.find_iff, ht.find_iff, searcher]

/-- At most one entry for each chain. -/
theorem PortTable.card_le (ht : PortTable h) : Multiset.card h.contents ≤ 4 := by
  have hinj : Set.InjOn (findBucket h) h.contents.toFinset := fun x hx y hy =>
    ht.lone x (by simpa using hx) y (by simpa using hy)
  have hmap : Set.MapsTo (findBucket h) h.contents.toFinset (Finset.range 4) := fun x _ => by
    have := findBucket_lt ht.pow x
    rw [ht.four] at this
    simpa using this
  have := Finset.card_le_card_of_injOn (findBucket h) hmap hinj
  rw [Finset.card_range, Multiset.toFinset_card_of_nodup ht.nodup] at this
  exact this

/-- So few entries never change the number of chains. -/
theorem rehash_few (ok : Bool) (hfour : h.bucketCnt = 4) (hcnt : h.elemCnt < 16) :
    rehash ok h = h :=
  rehash_of_eq ok (by rw [newBucketCnt_of_lt hcnt, hfour])

theorem PortTable.rehash (ok : Bool) (ht : PortTable h) : rehash ok h = h := by
  refine rehash_few ok ht.four ?_
  have := ht.card_le
  rw [ht.count]
  omega

theorem portTable_init {hash : SockEntry → BitVec 32} {less : SockEntry → SockEntry → Bool}
    (hhash : ∀ e, hash e = portHash e.srcPort) (hless : ∀ a b, less a b = false) :
    PortTable (hashInit hash less) ∧ (hashInit hash less).contents = 0 := by
  obtain ⟨hok, hc⟩ := hashInit_ok hash less fun e => hless e e
  refine ⟨⟨hok, hhash, hless, rfl, fun x hx => ?_⟩, hc⟩
  rw [hc] at hx
  cases hx

theorem niTcpInfos_ok : PortTable niTcpInfos ∧ niTcpInfos.contents = 0 :=
  portTable_init (fun _ => rfl) fun _ _ => by simp [tcpLessTcpInfo]

theorem niUdpSockets_ok : PortTable niUdpSockets ∧ niUdpSockets.contents = 0 :=
  portTable_init (fun _ => rfl) fun _ _ => by simp [udpLessUsp]

/-! ## The operations -/

/-- An entry whose chain is free goes in. -/
theorem PortTable.insert_free (ht : PortTable h) (ok : Bool) {e : SockEntry}
    (hfree : hashFind h e = none) :
    (hashInsert ok h e).1 = none ∧ PortTable (hashInsert ok h e).2 ∧
      (hashInsert ok h e).2.contents = e ::ₘ h.contents := by
  obtain ⟨heq, hok, hc⟩ := ht.insert_none ok hfree
  have hcnt := ht.card_le
  have hplain : hashInsert ok h e = (none, insertElem h (findBucket h e) e) := by
    have hkeep : Lib.rehash ok (insertElem h (findBucket h e) e) =
        insertElem h (findBucket h e) e := by
      refine rehash_few ok ht.four ?_
      show h.elemCnt + 1 < 16
      rw [ht.count]
      omega
    rw [heq, hkeep]
  refine ⟨by rw [heq], ⟨hok, ?_, ?_, ?_, ?_⟩, hc⟩
  · rw [hplain]
    exact ht.hash
  · rw [hplain]
    exact ht.less
  · rw [hplain]
    exact ht.four
  · have hother := ht.toTableOk.find_none.mp hfree
    have hnot : ∀ x ∈ h.contents, findBucket h x ≠ findBucket h e := fun x hx hb => by
      have := hother x hx hb
      rw [ht.same] at this
      cases this
    have hb : ∀ x, findBucket (hashInsert ok h e).2 x = findBucket h x := fun x => by
      rw [hplain]
      rfl
    rw [hc]
    intro x hx y hy hxy
    rw [hb, hb] at hxy
    rcases Multiset.mem_cons.mp hx with hxe | hx
    · rcases Multiset.mem_cons.mp hy with hye | hy
      · rw [hxe, hye]
      · exact (hnot y hy (hxe ▸ hxy.symm)).elim
    · rcases Multiset.mem_cons.mp hy with hye | hy
      · exact (hnot x hx (hye ▸ hxy)).elim
      · exact ht.lone x hx y hy hxy

/-- An entry whose chain is taken stays out. -/
theorem PortTable.insert_taken (ht : PortTable h) (ok : Bool) {e x : SockEntry}
    (hx : hashFind h e = some x) : hashInsert ok h e = (some x, h) := by
  rw [(ht.insert_some ok hx).1, ht.rehash]

/-- Deleting takes out whoever has the chain. -/
theorem PortTable.delete_found (ht : PortTable h) (ok : Bool) {e x : SockEntry}
    (hx : hashFind h e = some x) :
    (hashDelete ok h e).1 = some x ∧ PortTable (hashDelete ok h e).2 ∧
      (hashDelete ok h e).2.contents = h.contents.erase x := by
  obtain ⟨heq, hok, hc⟩ := ht.delete_some ok hx
  have hcnt := ht.card_le
  have hplain : hashDelete ok h e = (some x, removeElem h x) := by
    have hkeep : Lib.rehash ok (removeElem h x) = removeElem h x := by
      refine rehash_few ok ht.four ?_
      show h.elemCnt - 1 < 16
      rw [ht.count]
      omega
    rw [heq, hkeep]
  refine ⟨by rw [heq], ⟨hok, ?_, ?_, ?_, ?_⟩, hc⟩
  · rw [hplain]
    exact ht.hash
  · rw [hplain]
    exact ht.less
  · rw [hplain]
    exact ht.four
  · have hb : ∀ y, findBucket (hashDelete ok h e).2 y = findBucket h y := fun y => by
      rw [hplain]
      rfl
    rw [hc]
    intro y hy z hz hyz
    rw [hb, hb] at hyz
    exact ht.lone y (Multiset.mem_of_mem_erase hy) z (Multiset.mem_of_mem_erase hz) hyz

/-! ## Runs -/

/-- What is done with a table of connections. `ok` is whether `rehash` can
allocate. -/
inductive DemuxOp : Type where
  | find (port : BitVec 16)
  | insert (ok : Bool) (e : SockEntry)
  | delete (ok : Bool) (e : SockEntry)
deriving DecidableEq, Repr

/-- The operation on the table: what it answers, and the table after it. -/
def demuxOp (h : HashTable SockEntry) : DemuxOp → Option SockEntry × HashTable SockEntry
  | .find port => (tcpFindInfo h port, h)
  | .insert ok e => hashInsert ok h e
  | .delete ok e => hashDelete ok h e

/-- The operation on the open connections, as it is meant: a port finds the
entry with that port, an entry with an unused port goes in, and an entry is
deleted itself. -/
def openOp (opened : List SockEntry) : DemuxOp → Option SockEntry × List SockEntry
  | .find port => (opened.find? fun x => x.srcPort = port, opened)
  | .insert _ e =>
      match opened.find? fun x => x.srcPort = e.srcPort with
      | none => (none, e :: opened)
      | some x => (some x, opened)
  | .delete _ e => if e ∈ opened then (some e, opened.erase e) else (none, opened)

/-- The open connections beside the table of one protocol. -/
structure Demux where
  opened : List SockEntry
  table : HashTable SockEntry

def demuxStep (d : Demux) (op : DemuxOp) : Option Demux :=
  some { opened := (openOp d.opened op).2, table := (demuxOp d.table op).2 }

/-- The operation answers as it is meant to, and leaves in the table exactly
the open connections. -/
def DemuxRight (d : Demux) (op : DemuxOp) : Prop :=
  (demuxOp d.table op).1 = (openOp d.opened op).1 ∧
    (demuxOp d.table op).2.contents = (openOp d.opened op).2

/-- No other open connection has a port of the same chain. -/
def ChainFree (d : Demux) : DemuxOp → Prop
  | .find port => ∀ x ∈ d.opened, portBucket x.srcPort = portBucket port → x.srcPort = port
  | .insert _ e =>
      ∀ x ∈ d.opened, portBucket x.srcPort = portBucket e.srcPort → x.srcPort = e.srcPort
  | .delete _ e => ∀ x ∈ d.opened, portBucket x.srcPort = portBucket e.srcPort → x = e

/-- The table holds the open connections. -/
structure DemuxOk (d : Demux) : Prop where
  table : PortTable d.table
  held : d.table.contents = d.opened

variable {d : Demux}

theorem DemuxOk.find_iff (hd : DemuxOk d) {e x : SockEntry} :
    hashFind d.table e = some x ↔
      x ∈ d.opened ∧ portBucket x.srcPort = portBucket e.srcPort := by
  rw [hd.table.find_iff, hd.held, Multiset.mem_coe]

/-- The table finds the entry of a port exactly when no other port has its
chain. -/
theorem DemuxOk.find_right (hd : DemuxOk d) (e : SockEntry) :
    hashFind d.table e = (d.opened.find? fun x => x.srcPort = e.srcPort) ↔
      ∀ x ∈ d.opened, portBucket x.srcPort = portBucket e.srcPort → x.srcPort = e.srcPort := by
  constructor
  · intro heq x hx hb
    rw [hd.find_iff.mpr ⟨hx, hb⟩] at heq
    simpa using List.find?_some heq.symm
  · intro hfree
    cases hfind : d.opened.find? fun x => x.srcPort = e.srcPort with
    | none =>
        rw [hd.table.find_none]
        intro x hx hb
        rw [hd.held, Multiset.mem_coe] at hx
        have := List.find?_eq_none.mp hfind x hx
        exact this (by simpa using hfree x hx hb)
    | some x =>
        have hport : x.srcPort = e.srcPort := by simpa using List.find?_some hfind
        exact hd.find_iff.mpr ⟨List.mem_of_find?_eq_some hfind, by rw [hport]⟩

theorem DemuxOk.delete_right (hd : DemuxOk d) (e : SockEntry) :
    hashFind d.table e = (if e ∈ d.opened then some e else none) ↔
      ∀ x ∈ d.opened, portBucket x.srcPort = portBucket e.srcPort → x = e := by
  constructor
  · intro heq x hx hb
    rw [hd.find_iff.mpr ⟨hx, hb⟩] at heq
    by_cases he : e ∈ d.opened
    · rw [if_pos he] at heq
      exact Option.some.inj heq
    · rw [if_neg he] at heq
      cases heq
  · intro hfree
    by_cases he : e ∈ d.opened
    · rw [if_pos he]
      exact hd.find_iff.mpr ⟨he, rfl⟩
    · rw [if_neg he, hd.table.find_none]
      intro x hx hb
      rw [hd.held, Multiset.mem_coe] at hx
      exact he (hfree x hx hb ▸ hx)

/-- An operation does as it is meant to exactly when no other open connection
has its chain. -/
theorem DemuxOk.right_iff (hd : DemuxOk d) (op : DemuxOp) : DemuxRight d op ↔ ChainFree d op := by
  cases op with
  | find port =>
      refine Iff.trans ?_ (hd.find_right (searcher port))
      exact ⟨fun h => h.1, fun h => ⟨h, hd.held⟩⟩
  | insert ok e =>
      refine Iff.trans ?_ (hd.find_right e)
      rw [DemuxRight, demuxOp, openOp]
      cases hfind : hashFind d.table e with
      | none =>
          obtain ⟨hnone, -, hc⟩ := hd.table.insert_free ok hfind
          rw [hnone, hc, hd.held]
          cases d.opened.find? fun x => x.srcPort = e.srcPort with
          | none => exact ⟨fun _ => rfl, fun _ => ⟨rfl, rfl⟩⟩
          | some y => exact ⟨fun h => h.1, fun h => by cases h⟩
      | some x =>
          rw [hd.table.insert_taken ok hfind]
          cases d.opened.find? fun x => x.srcPort = e.srcPort with
          | none => exact ⟨fun h => h.1, fun h => by cases h⟩
          | some y => exact ⟨fun h => h.1, fun h => ⟨h, hd.held⟩⟩
  | delete ok e =>
      refine Iff.trans ?_ (hd.delete_right e)
      rw [DemuxRight, demuxOp, openOp]
      cases hfind : hashFind d.table e with
      | none =>
          rw [hashDelete_none ok hfind]
          by_cases he : e ∈ d.opened
          · rw [if_pos he, if_pos he]
            exact ⟨fun h => h.1, fun h => by cases h⟩
          · rw [if_neg he, if_neg he]
            exact ⟨fun h => h.1, fun h => ⟨h, hd.held⟩⟩
      | some x =>
          obtain ⟨hsome, -, hc⟩ := hd.table.delete_found ok hfind
          rw [hsome, hc, hd.held]
          by_cases he : e ∈ d.opened
          · rw [if_pos he, if_pos he]
            refine ⟨fun h => h.1, fun h => ⟨h, ?_⟩⟩
            rw [Option.some.inj h, Multiset.coe_erase]
          · rw [if_neg he, if_neg he]
            exact ⟨fun h => h.1, fun h => by cases h⟩

theorem demuxOp_table (ht : PortTable d.table) (op : DemuxOp) :
    PortTable (demuxOp d.table op).2 := by
  cases op with
  | find port => exact ht
  | insert ok e =>
      rw [demuxOp]
      cases hfind : hashFind d.table e with
      | none => exact (ht.insert_free ok hfind).2.1
      | some x => exact (ht.insert_taken ok hfind).symm ▸ ht
  | delete ok e =>
      rw [demuxOp]
      cases hfind : hashFind d.table e with
      | none => exact (hashDelete_none ok hfind).symm ▸ ht
      | some x => exact (ht.delete_found ok hfind).2.1

theorem demuxStep_ok {d' : Demux} {op : DemuxOp} (hd : DemuxOk d) (hright : DemuxRight d op)
    (hstep : demuxStep d op = some d') : DemuxOk d' := by
  rw [demuxStep, Option.some.injEq] at hstep
  subst hstep
  exact ⟨demuxOp_table hd.table op, hright.2⟩

/-- **When connections are found by their ports.** In every run of insertions,
deletions and lookups on a table of TCP connections or of UDP sockets, all
steps answer and act as they are meant to exactly when at every step no other
open connection has a source port of the same one of the table's four
chains. -/
theorem demux_iff (ops : List DemuxOp) :
    (StepsMeet demuxStep DemuxRight ⟨[], niTcpInfos⟩ ops ↔
        StepsMeet demuxStep ChainFree ⟨[], niTcpInfos⟩ ops) ∧
      (StepsMeet demuxStep DemuxRight ⟨[], niUdpSockets⟩ ops ↔
        StepsMeet demuxStep ChainFree ⟨[], niUdpSockets⟩ ops) := by
  have hall : ∀ d : Demux, DemuxOk d →
      (StepsMeet demuxStep DemuxRight d ops ↔ StepsMeet demuxStep ChainFree d ops) :=
    fun d hd => stepsMeet_congr (I := DemuxOk) (fun d op hd => hd.right_iff op)
      (fun _ _ _ hd hright hstep => demuxStep_ok hd hright hstep) hd
  exact ⟨hall _ ⟨niTcpInfos_ok.1, niTcpInfos_ok.2⟩, hall _ ⟨niUdpSockets_ok.1, niUdpSockets_ok.2⟩⟩

/-- Ports 1000 and 1004 share a chain: with the first open, the second is
answered with the first, and its own connection does not get into the
table. -/
theorem demux_wrong_connection :
    ¬StepsMeet demuxStep DemuxRight ⟨[], niTcpInfos⟩
        [.insert true ⟨1, 1000⟩, .insert true ⟨2, 1004⟩] ∧
      ¬StepsMeet demuxStep DemuxRight ⟨[], niUdpSockets⟩ [.insert true ⟨1, 1000⟩, .find 1004] := by
  refine ⟨fun h => ?_, fun h => ?_⟩
  · have hsecond := (h.2 _ rfl).1.1
    revert hsecond
    decide +kernel
  · have hsecond := (h.2 _ rfl).1.1
    revert hsecond
    decide +kernel

end Levos.Net
