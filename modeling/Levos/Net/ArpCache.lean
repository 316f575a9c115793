import Levos.Base.Run
import Levos.Lib.HashTable

/-!
# The ARP cache (`net/arpcache.c`)

A hash table of entries by address, each with an item of work that is to take
it out again. `hash_insert` leaves an entry out of the table when its address
is already there, and the item of work deletes by address whatever entry it
then finds; `arp_cache_iff` says for which sequences of insertions and
expirations that makes no difference.
-/

namespace Levos.Net

open Levos.Base Levos.Lib

/-! ## The functions of the source -/

/-- `struct arp_cache_entry` at its address. -/
structure ArpCacheEntry where
  ptr : Nat
  eth : BitVec 48
  ip : BitVec 32
deriving DecidableEq, Repr

def arpHashIpLess (a b : ArpCacheEntry) : Bool := a.ip.ult b.ip

def arpHashIp (a : ArpCacheEntry) : BitVec 32 := hashInt a.ip

/-- `to_be_32`. -/
def toBe32 (nb : BitVec 32) : BitVec 32 :=
  (nb >>> 24) &&& 0xff ||| (nb <<< 8) &&& 0xff0000 ||| (nb >>> 8) &&& 0xff00 |||
    (nb <<< 24) &&& 0xff000000

/-- The table, and the entries whose items of work are still to run, the
latest first: these are the entries that are allocated. -/
structure ArpCache where
  table : HashTable ArpCacheEntry
  pending : List ArpCacheEntry

/-- `arp_cache_init`. -/
def arpCacheInit : ArpCache := { table := hashInit arpHashIp arpHashIpLess, pending := [] }

/-- `arp_cache_insert`, with the memory its `malloc` found at `p`. -/
def arpCacheInsert (s : ArpCache) (p : Nat) (ip : BitVec 32) (eth : BitVec 48) (rehashOk : Bool) :
    ArpCache :=
  let entry : ArpCacheEntry := { ptr := p, eth, ip }
  { table := (hashInsert rehashOk s.table entry).2, pending := entry :: s.pending }

/-- `arp_remove_entry_work`. -/
def arpRemoveEntryWork (s : ArpCache) (entry : ArpCacheEntry) (rehashOk : Bool) : ArpCache :=
  { table := (hashDelete rehashOk s.table entry).2, pending := s.pending.erase entry }

/-- The entry on the stack that a lookup compares with. -/
def arpSearcher (ip : BitVec 32) : ArpCacheEntry := { ptr := 0, eth := 0, ip }

/-- `arp_get_eth_addr` on a hit. -/
def arpGetEthAddr (s : ArpCache) (ip : BitVec 32) : Option (BitVec 48) :=
  (hashFind s.table (arpSearcher (toBe32 ip))).map ArpCacheEntry.eth

/-! ## Runs -/

/-- An insertion, with the result of its `malloc`, or the expiration of an
entry. -/
inductive ArpOp : Type where
  | insert (ip : BitVec 32) (eth : BitVec 48) (mem : Option Nat) (rehashOk : Bool)
  | expire (entry : ArpCacheEntry) (rehashOk : Bool)
deriving DecidableEq, Repr

/-- `malloc` gives out no address in use, and only pending work runs. -/
def arpStep (s : ArpCache) : ArpOp → Option ArpCache
  | .insert _ _ none _ => some s
  | .insert ip eth (some p) rehashOk =>
      if s.pending.any fun e => e.ptr = p then none
      else some (arpCacheInsert s p ip eth rehashOk)
  | .expire entry rehashOk =>
      if entry ∈ s.pending then some (arpRemoveEntryWork s entry rehashOk) else none

/-- The address of the latest insertion for `ip` that has not expired. -/
def latestEth (s : ArpCache) (ip : BitVec 32) : Option (BitVec 48) :=
  (s.pending.find? fun e => e.ip = ip).map ArpCacheEntry.eth

/-- Hits are answered with the latest insertion. -/
def HitsRight (s : ArpCache) : Prop :=
  ∀ ip eth, arpGetEthAddr s ip = some eth → latestEth s (toBe32 ip) = some eth

/-- After the step hits are right, and an expiration has taken out and freed
its own entry and no other. -/
def ArpRight (s : ArpCache) (op : ArpOp) : Prop :=
  ∀ s', arpStep s op = some s' → HitsRight s' ∧
    ∀ entry rehashOk, op = .expire entry rehashOk →
      s'.table.contents = s.table.contents.erase entry ∧ s'.pending = s.pending.erase entry

/-- An address in the table is inserted again with the same Ethernet address
only, and no entry expires while another one for its address is in the
table. -/
def ArpUse (s : ArpCache) (op : ArpOp) : Prop :=
  match op with
  | .insert ip eth (some p) _ =>
      (∀ e ∈ s.pending, e.ptr ≠ p) → ∀ x ∈ s.table.contents, x.ip = ip → x.eth = eth
  | .insert _ _ none _ => True
  | .expire entry _ => entry ∈ s.pending → ∀ x ∈ s.table.contents, x.ip = entry.ip → x = entry

/-! ## The invariant -/

structure ArpOk (s : ArpCache) : Prop where
  table : TableOk s.table
  keyed : KeyedBy s.table ArpCacheEntry.ip
  unique : ∀ x ∈ s.table.contents, ∀ y ∈ s.table.contents, x.ip = y.ip → x = y
  pending : ∀ x ∈ s.table.contents, x ∈ s.pending
  nodup : s.pending.Nodup
  latest : ∀ x ∈ s.table.contents, latestEth s x.ip = some x.eth

variable {s s' : ArpCache}

theorem toBe32_toBe32 (ip : BitVec 32) : toBe32 (toBe32 ip) = ip := by
  refine BitVec.eq_of_getElem_eq fun i hi => ?_
  simp only [toBe32]
  interval_cases i <;> simp

theorem arpKeyed : KeyedBy (hashInit arpHashIp arpHashIpLess) ArpCacheEntry.ip := by
  refine ⟨fun x e => ?_, fun x e h => ?_⟩
  · simp only [HashTable.same, hashInit, arpHashIpLess, BitVec.ult, Bool.and_eq_true,
      Bool.not_eq_true', decide_eq_false_iff_not, not_lt]
    rw [← BitVec.toNat_inj]
    exact ⟨fun h => le_antisymm h.2 h.1, fun h => ⟨h.ge, h.le⟩⟩
  · show hashInt x.ip = hashInt e.ip
    rw [h]

theorem arpInit_ok : ArpOk arpCacheInit := by
  have hirr : ∀ e, arpHashIpLess e e = false := fun e => by simp [arpHashIpLess, BitVec.ult]
  obtain ⟨htable, hc⟩ := hashInit_ok arpHashIp arpHashIpLess hirr
  have hempty : ∀ x, x ∉ arpCacheInit.table.contents := fun x hx => by
    rw [arpCacheInit, hc] at hx
    cases hx
  exact ⟨htable, arpKeyed, fun x hx => (hempty x hx).elim, fun x hx => (hempty x hx).elim,
    List.nodup_nil, fun x hx => (hempty x hx).elim⟩

/-- What a lookup finds. -/
theorem ArpOk.find_iff (hok : ArpOk s) {e x : ArpCacheEntry} :
    hashFind s.table e = some x ↔ x ∈ s.table.contents ∧ x.ip = e.ip := by
  constructor
  · exact hok.table.find_key hok.keyed
  · rintro ⟨hx, hip⟩
    cases hfind : hashFind s.table e with
    | none => exact ((hok.table.find_none_key hok.keyed).mp hfind x hx hip).elim
    | some y =>
        obtain ⟨hy, hyip⟩ := hok.table.find_key hok.keyed hfind
        rw [hok.unique y hy x hx (hyip.trans hip.symm)]

theorem ArpOk.hits (hok : ArpOk s) : HitsRight s := by
  intro ip eth hhit
  rw [arpGetEthAddr, Option.map_eq_some_iff] at hhit
  obtain ⟨x, hfind, rfl⟩ := hhit
  obtain ⟨hx, hip⟩ := hok.find_iff.mp hfind
  rw [show toBe32 ip = x.ip from hip.symm]
  exact hok.latest x hx

theorem latestEth_insert (s : ArpCache) (p : Nat) (ip : BitVec 32) (eth : BitVec 48)
    (rehashOk : Bool) (q : BitVec 32) :
    latestEth (arpCacheInsert s p ip eth rehashOk) q =
      if ip = q then some eth else latestEth s q := by
  rw [latestEth, latestEth, arpCacheInsert]
  by_cases hip : ip = q
  · simp [hip]
  · simp [hip]

/-! ## Insertions -/

section Insert

variable {p : Nat} {ip : BitVec 32} {eth : BitVec 48} (rehashOk : Bool)

/-- The table after an insertion: as before where the address was there, with
the new entry where it was not. -/
theorem ArpOk.insert_table (hok : ArpOk s) (p : Nat) (ip : BitVec 32) (eth : BitVec 48) :
    let s' := arpCacheInsert s p ip eth rehashOk
    TableOk s'.table ∧ KeyedBy s'.table ArpCacheEntry.ip ∧
      ((∃ x ∈ s.table.contents, x.ip = ip) ∧ s'.table.contents = s.table.contents ∨
        (∀ x ∈ s.table.contents, x.ip ≠ ip) ∧
          s'.table.contents = ⟨p, eth, ip⟩ ::ₘ s.table.contents) := by
  have hkeyed := hok.table.insert_keyed hok.keyed rehashOk ⟨p, eth, ip⟩
  cases hfind : hashFind s.table ⟨p, eth, ip⟩ with
  | none =>
      obtain ⟨-, htable, hc⟩ := hok.table.insert_none rehashOk hfind
      exact ⟨htable, hkeyed, .inr ⟨(hok.table.find_none_key hok.keyed).mp hfind, hc⟩⟩
  | some x =>
      obtain ⟨-, htable, hc⟩ := hok.table.insert_some rehashOk hfind
      obtain ⟨hx, hip⟩ := hok.table.find_key hok.keyed hfind
      exact ⟨htable, hkeyed, .inl ⟨⟨x, hx, hip⟩, hc⟩⟩

theorem ArpOk.insert (hok : ArpOk s) (hfresh : ∀ e ∈ s.pending, e.ptr ≠ p)
    (hsame : ∀ x ∈ s.table.contents, x.ip = ip → x.eth = eth) :
    ArpOk (arpCacheInsert s p ip eth rehashOk) := by
  have hnew : (⟨p, eth, ip⟩ : ArpCacheEntry) ∉ s.pending := fun h => hfresh _ h rfl
  obtain ⟨htable, hkeyed, hcontents⟩ := hok.insert_table rehashOk p ip eth
  have hlatest : ∀ x ∈ s.table.contents,
      latestEth (arpCacheInsert s p ip eth rehashOk) x.ip = some x.eth := by
    intro x hx
    rw [latestEth_insert]
    by_cases hip : ip = x.ip
    · rw [if_pos hip, hsame x hx hip.symm]
    · rw [if_neg hip]
      exact hok.latest x hx
  rcases hcontents with ⟨-, hc⟩ | ⟨hnone, hc⟩
  · refine ⟨htable, hkeyed, ?_, ?_, List.nodup_cons.mpr ⟨hnew, hok.nodup⟩, ?_⟩
    · rw [hc]
      exact hok.unique
    · rw [hc]
      exact fun x hx => List.mem_cons_of_mem _ (hok.pending x hx)
    · rw [hc]
      exact hlatest
  · refine ⟨htable, hkeyed, ?_, ?_, List.nodup_cons.mpr ⟨hnew, hok.nodup⟩, ?_⟩
    · rw [hc]
      intro x hx y hy hip
      rcases Multiset.mem_cons.mp hx with rfl | hx
      · rcases Multiset.mem_cons.mp hy with rfl | hy
        · rfl
        · exact (hnone y hy hip.symm).elim
      · rcases Multiset.mem_cons.mp hy with rfl | hy
        · exact (hnone x hx hip).elim
        · exact hok.unique x hx y hy hip
    · rw [hc]
      intro x hx
      rcases Multiset.mem_cons.mp hx with rfl | hx
      · exact List.mem_cons_self
      · exact List.mem_cons_of_mem _ (hok.pending x hx)
    · rw [hc]
      intro x hx
      rcases Multiset.mem_cons.mp hx with rfl | hx
      · rw [latestEth_insert, if_pos rfl]
      · exact hlatest x hx

/-- A hit is not the latest insertion once its address was inserted with
another Ethernet address. -/
theorem ArpOk.insert_wrong (hok : ArpOk s) {x : ArpCacheEntry} (hx : x ∈ s.table.contents)
    (hip : x.ip = ip) (hne : x.eth ≠ eth) : ¬HitsRight (arpCacheInsert s p ip eth rehashOk) := by
  intro hright
  obtain ⟨htable, hkeyed, hcontents⟩ := hok.insert_table rehashOk p ip eth
  rcases hcontents with ⟨-, hc⟩ | ⟨hnone, -⟩
  · have hhit : arpGetEthAddr (arpCacheInsert s p ip eth rehashOk) (toBe32 ip) = some x.eth := by
      rw [arpGetEthAddr, toBe32_toBe32]
      cases hfind : hashFind (arpCacheInsert s p ip eth rehashOk).table (arpSearcher ip) with
      | none =>
          have hmem : x ∈ (arpCacheInsert s p ip eth rehashOk).table.contents := hc ▸ hx
          exact ((htable.find_none_key hkeyed).mp hfind x hmem hip).elim
      | some y =>
          obtain ⟨hy, hyip⟩ := htable.find_key hkeyed hfind
          rw [hok.unique y (hc ▸ hy) x hx (hyip.trans hip.symm)]
          rfl
    have hlatest := hright _ _ hhit
    rw [toBe32_toBe32, latestEth_insert, if_pos rfl] at hlatest
    exact hne (Option.some.inj hlatest).symm
  · exact hnone x hx hip

end Insert

/-! ## Expirations -/

section Expire

variable {entry : ArpCacheEntry} (rehashOk : Bool)

/-- What an expiration takes out of the table: the entry found for its
address. -/
theorem ArpOk.expire_contents (hok : ArpOk s) (entry : ArpCacheEntry) :
    let s' := arpRemoveEntryWork s entry rehashOk
    TableOk s'.table ∧ KeyedBy s'.table ArpCacheEntry.ip ∧
      ((∀ x ∈ s.table.contents, x.ip ≠ entry.ip) ∧ s'.table.contents = s.table.contents ∨
        ∃ x ∈ s.table.contents, x.ip = entry.ip ∧
          s'.table.contents = s.table.contents.erase x) := by
  have hkeyed := hok.table.delete_keyed hok.keyed rehashOk entry
  cases hfind : hashFind s.table entry with
  | none =>
      have hsame : (hashDelete rehashOk s.table entry).2 = s.table := by
        rw [hashDelete_none rehashOk hfind]
      refine ⟨?_, hkeyed, .inl ⟨(hok.table.find_none_key hok.keyed).mp hfind, ?_⟩⟩
      · rw [arpRemoveEntryWork, hsame]
        exact hok.table
      · rw [arpRemoveEntryWork, hsame]
  | some x =>
      obtain ⟨-, htable, hc⟩ := hok.table.delete_some rehashOk hfind
      obtain ⟨hx, hip⟩ := hok.table.find_key hok.keyed hfind
      exact ⟨htable, hkeyed, .inr ⟨x, hx, hip, hc⟩⟩

theorem latestEth_expire_of_ne {q : BitVec 32} (hq : entry.ip ≠ q) :
    latestEth (arpRemoveEntryWork s entry rehashOk) q = latestEth s q := by
  have hkeep : ∀ l : List ArpCacheEntry,
      (l.erase entry).find? (fun e => e.ip = q) = l.find? fun e => e.ip = q := by
    intro l
    induction l with
    | nil => rfl
    | cons e l ih =>
        by_cases he : e = entry
        · subst he
          rw [List.erase_cons_head, List.find?_cons_of_neg (by simpa using hq)]
        · rw [List.erase_cons_tail (by simpa using he)]
          by_cases hip : e.ip = q
          · rw [List.find?_cons_of_pos (by simpa using hip),
              List.find?_cons_of_pos (by simpa using hip)]
          · rw [List.find?_cons_of_neg (by simpa using hip),
              List.find?_cons_of_neg (by simpa using hip), ih]
  rw [latestEth, latestEth, arpRemoveEntryWork, hkeep]

theorem ArpOk.expire (hok : ArpOk s)
    (hown : ∀ x ∈ s.table.contents, x.ip = entry.ip → x = entry) :
    ArpOk (arpRemoveEntryWork s entry rehashOk) ∧
      (arpRemoveEntryWork s entry rehashOk).table.contents = s.table.contents.erase entry := by
  obtain ⟨htable, hkeyed, hcontents⟩ := hok.expire_contents rehashOk entry
  have hc : (arpRemoveEntryWork s entry rehashOk).table.contents =
      s.table.contents.erase entry := by
    rcases hcontents with ⟨hnone, hc⟩ | ⟨x, hx, hip, hc⟩
    · rw [hc, Multiset.erase_of_notMem fun hmem => hnone entry hmem rfl]
    · rw [hc, hown x hx hip]
  -- what is left in the table has other addresses
  have hleft : ∀ x ∈ s.table.contents.erase entry, x ∈ s.table.contents ∧ entry.ip ≠ x.ip := by
    intro x hx
    have hmem := Multiset.mem_of_mem_erase hx
    refine ⟨hmem, fun hip => ?_⟩
    rw [hown x hmem hip.symm] at hx
    exact (Multiset.Nodup.mem_erase_iff hok.table.nodup).mp hx |>.1 rfl
  refine ⟨⟨htable, hkeyed, ?_, ?_, hok.nodup.erase _, ?_⟩, hc⟩
  · rw [hc]
    exact fun x hx y hy => hok.unique x (hleft x hx).1 y (hleft y hy).1
  · rw [hc]
    intro x hx
    obtain ⟨hmem, hip⟩ := hleft x hx
    refine (List.mem_erase_of_ne ?_).mpr (hok.pending x hmem)
    rintro rfl
    exact hip rfl
  · rw [hc]
    intro x hx
    obtain ⟨hmem, hip⟩ := hleft x hx
    rw [latestEth_expire_of_ne rehashOk hip]
    exact hok.latest x hmem

/-- An expiration takes another entry for its address out of the table. -/
theorem ArpOk.expire_wrong (hok : ArpOk s) {x : ArpCacheEntry} (hx : x ∈ s.table.contents)
    (hip : x.ip = entry.ip) (hne : x ≠ entry) :
    (arpRemoveEntryWork s entry rehashOk).table.contents ≠ s.table.contents.erase entry := by
  obtain ⟨-, -, hcontents⟩ := hok.expire_contents rehashOk entry
  intro heq
  rcases hcontents with ⟨hnone, -⟩ | ⟨y, hy, hyip, hc⟩
  · exact hnone x hx hip
  · obtain rfl := hok.unique y hy x hx (hyip.trans hip.symm)
    have hkept : y ∈ s.table.contents.erase entry := (Multiset.mem_erase_of_ne hne).mpr hx
    rw [← heq, hc] at hkept
    exact (Multiset.Nodup.mem_erase_iff hok.table.nodup).mp hkept |>.1 rfl

end Expire

/-! ## Runs -/

theorem arpStep_insert {p : Nat} {ip : BitVec 32} {eth : BitVec 48} {rehashOk : Bool}
    (h : arpStep s (.insert ip eth (some p) rehashOk) = some s') :
    (∀ e ∈ s.pending, e.ptr ≠ p) ∧ s' = arpCacheInsert s p ip eth rehashOk := by
  rw [arpStep] at h
  by_cases hany : (s.pending.any fun e => e.ptr = p) = true
  · rw [if_pos hany] at h
    cases h
  · rw [if_neg hany, Option.some.injEq] at h
    refine ⟨fun e he hp => hany ?_, h.symm⟩
    exact List.any_eq_true.mpr ⟨e, he, by simpa using hp⟩

theorem arpStep_expire {entry : ArpCacheEntry} {rehashOk : Bool}
    (h : arpStep s (.expire entry rehashOk) = some s') :
    entry ∈ s.pending ∧ s' = arpRemoveEntryWork s entry rehashOk := by
  rw [arpStep] at h
  by_cases hmem : entry ∈ s.pending
  · rw [if_pos hmem, Option.some.injEq] at h
    exact ⟨hmem, h.symm⟩
  · rw [if_neg hmem] at h
    cases h

theorem arpStep_ok {op : ArpOp} (hok : ArpOk s) (huse : ArpUse s op)
    (hstep : arpStep s op = some s') : ArpOk s' := by
  cases op with
  | insert ip eth mem rehashOk =>
      cases mem with
      | none =>
          rw [arpStep, Option.some.injEq] at hstep
          exact hstep ▸ hok
      | some p =>
          obtain ⟨hfresh, rfl⟩ := arpStep_insert hstep
          exact hok.insert rehashOk hfresh (huse hfresh)
  | expire entry rehashOk =>
      obtain ⟨hmem, rfl⟩ := arpStep_expire hstep
      exact (hok.expire rehashOk (huse hmem)).1

/-- A step is right exactly when it meets the condition. -/
theorem ArpOk.right_iff (hok : ArpOk s) (op : ArpOp) : ArpRight s op ↔ ArpUse s op := by
  constructor
  · intro hright
    cases op with
    | insert ip eth mem rehashOk =>
        cases mem with
        | none => trivial
        | some p =>
            intro hfresh x hx hip
            by_contra hne
            have hany : ¬(s.pending.any fun e => e.ptr = p) = true := fun hany => by
              obtain ⟨e, he, hp⟩ := List.any_eq_true.mp hany
              exact hfresh e he (by simpa using hp)
            exact hok.insert_wrong rehashOk hx hip hne
              (hright _ (by rw [arpStep, if_neg hany])).1
    | expire entry rehashOk =>
        intro hmem x hx hip
        by_contra hne
        exact hok.expire_wrong rehashOk hx hip hne
          ((hright _ (by rw [arpStep, if_pos hmem])).2 entry rehashOk rfl).1
  · intro huse s' hstep
    refine ⟨(arpStep_ok hok huse hstep).hits, ?_⟩
    rintro entry rehashOk rfl
    obtain ⟨hmem, rfl⟩ := arpStep_expire hstep
    exact ⟨(hok.expire rehashOk (huse hmem)).2, rfl⟩

/-- **When the ARP cache is right.** Along every sequence of insertions and
expirations, every hit is answered with the latest insertion that has not
expired and every expiration removes its own entry and no other, exactly when
every step meets `ArpUse`. -/
theorem arp_cache_iff (ops : List ArpOp) :
    StepsMeet arpStep ArpRight arpCacheInit ops ↔ StepsMeet arpStep ArpUse arpCacheInit ops :=
  stepsMeet_congr (I := ArpOk) (fun _ op hok => hok.right_iff op)
    (fun _ op _ hok hright hstep => arpStep_ok hok ((hok.right_iff op).mp hright) hstep) arpInit_ok

/-- A host changes its Ethernet address: the cache goes on with the old one.
-/
theorem arp_cache_stale :
    ¬StepsMeet arpStep ArpRight arpCacheInit
      [.insert 0x0100a8c0 0x525400123456 (some 1) true,
        .insert 0x0100a8c0 0x525400abcdef (some 2) true] := by
  intro h
  have hsecond := ((h.2 _ rfl).1 _ rfl).1 0xc0a80001 0x525400123456
  revert hsecond
  decide +kernel

end Levos.Net
