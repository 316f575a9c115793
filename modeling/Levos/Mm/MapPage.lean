import Levos.Mm.KernelHalf
import Levos.Mm.ForkStatus

/-!
# `map_page` as an update of a page map (`mm/page.c`)

A directory and its tables stand for a map from page numbers to frames. On a
directory whose entries point to tables of their own, `map_page` changes this
map at one page, and `get_page_from_pgd`, `page_mapped` and the processor agree
on all the others: `map_page_refines`.
-/

namespace Levos.Mm

open Levos.Base

variable {A : Allocators}

/-! ## The page map -/

/-- The number of the page of an address. -/
def pageNumber (v : BitVec 32) : Fin (2 ^ 20) := ⟨v.toNat / 4096, by omega⟩

abbrev PageMap : Type := Fin (2 ^ 20) → Option (BitVec 32)

/-- What `get_page_from_pgd` points to, 0 where it returns NULL. -/
def foundEntry (s : Memory) (pgd : BitVec 32) (vaddr : Nat) : PageEntry :=
  match getPageFromPgd s pgd vaddr with
  | none => 0
  | some (ptes, ipte) => s.heap ptes ipte

/-- The map a directory stands for. -/
def pageMap (s : Memory) (pgd : BitVec 32) : PageMap := fun page =>
  if ptePresent (foundEntry s pgd (page.val * 4096)) then
    some (entryAddr (foundEntry s pgd (page.val * 4096)))
  else none

/-- The directory is a page in use, and its entries that are not 0 point to
page tables of their own, which are pages in use. No table lies at the
physical address 0, the one `get_page_from_pgd` takes for no table. -/
structure DirOk (s : Memory) (pgd : BitVec 32) : Prop where
  used : pgd ∈ s.heapUsed
  addr : ∀ i < 1024, s.heap pgd i ≠ 0 → entryAddr (s.heap pgd i) ≠ 0
  tables : ∀ i < 1024, s.heap pgd i ≠ 0 →
    tableOf (s.heap pgd i) ∈ s.heapUsed ∧ tableOf (s.heap pgd i) ≠ pgd
  distinct : ∀ i < 1024, ∀ j < 1024, s.heap pgd i ≠ 0 → s.heap pgd j ≠ 0 →
    tableOf (s.heap pgd i) = tableOf (s.heap pgd j) → i = j

/-- The frame of `phys` is mapped at `virt`, and nothing changed elsewhere. -/
structure PageMappedAt (s s' : Memory) (pgd phys virt : BitVec 32) : Prop where
  entry : ∃ ptes ipte, getPageFromPgd s' pgd virt.toNat = some (ptes, ipte) ∧
    ptePresent (s'.heap ptes ipte) = true ∧
    (entryAddr (s'.heap ptes ipte)).toNat = pgRndDown phys.toNat
  mapped : pageMapped s' pgd virt.toNat = true
  kept : ∀ v : BitVec 32, pageNumber v ≠ pageNumber virt →
    foundEntry s' pgd v.toNat = foundEntry s pgd v.toNat ∧
    pageMapped s' pgd v.toNat = pageMapped s pgd v.toNat ∧
    ∀ mode write, walk s' pgd mode write v.toNat = walk s pgd mode write v.toNat
  map : pageMap s' pgd = Function.update (pageMap s pgd) (pageNumber virt) (some (entryAddr phys))

/-! ## Entries -/

theorem createPte_permOf (f : BitVec 32) (user : Bool) :
    createPte f (permOf user) 1 = createPde f (permOf user) 1 := by
  cases user with
  | false =>
      simp [createPte, createPde, permOf, ptePresentShift, pteRwShift, pteUserShift,
        pteWritethruShift, pteCacheShift, pteAccessShift, pteDirtyShift, pteGlobShift]
  | true => exact (createPde_eq_createPte f).symm

theorem entryAddr_createPde_permOf (f : BitVec 32) (user : Bool) :
    entryAddr (createPde f (permOf user) 1) = entryAddr f := by
  have hflags : entryAddr (if user then 15#32 else 11#32) = 0#32 := by
    cases user with
    | false => decide
    | true => decide
  rw [createPde_permOf, entryAddr_or, entryAddr_idem, hflags, BitVec.zero_or]

theorem ptePresent_createPde_permOf (f : BitVec 32) (user : Bool) :
    ptePresent (createPde f (permOf user) 1) = true := by
  rw [ptePresent_eq, createPde_permOf, BitVec.getLsbD_or]
  cases user with
  | false => rfl
  | true => rfl

theorem pdeIndex_lt_dir (v : BitVec 32) : pdeIndex v.toNat < 1024 := by
  have := v.isLt
  rw [pdeIndex]
  omega

/-! ## Agreement of the three functions -/

/-- `get_page_from_pgd` and `page_mapped` look at the same entry. -/
theorem DirOk.foundEntry_eq {s : Memory} {pgd : BitVec 32} (h : DirOk s pgd) (v : BitVec 32) :
    foundEntry s pgd v.toNat = entryAt s pgd v.toNat := by
  unfold foundEntry getPageFromPgd entryAt
  dsimp only
  by_cases hzero : s.heap pgd (pdeIndex v.toNat) = 0
  · have haddr : entryAddr (s.heap pgd (pdeIndex v.toNat)) = 0 := by
      rw [hzero]
      decide
    rw [if_pos haddr, if_pos hzero]
  · rw [if_neg (h.addr _ (pdeIndex_lt_dir v) hzero), if_neg hzero]
    rfl

theorem entryAllows_zero (mode : Mode) (write : Bool) :
    entryAllows mode write (0 : PageEntry) = false := by
  have habsent : ptePresent (0 : PageEntry) = false := by decide
  rw [entryAllows, habsent, Bool.false_and, Bool.false_and]

/-- The processor reads that entry too, after the one of the directory. -/
theorem walk_eq (s : Memory) (pgd : BitVec 32) (mode : Mode) (write : Bool) (addr : Nat) :
    walk s pgd mode write addr =
      if entryAllows mode write (s.heap pgd (pdeIndex addr)) &&
          entryAllows mode write (entryAt s pgd addr) then
        some (entryAddr (entryAt s pgd addr))
      else none := by
  unfold walk entryAt
  by_cases hzero : s.heap pgd (pdeIndex addr) = 0
  · simp only [hzero, entryAllows_zero, Bool.false_and, Bool.false_eq_true, if_false]
  · simp only [if_neg hzero]

/-! ## The two branches -/

/-- The entry of one page was set, in a table that was there or in a new one;
other slots of the directory are as they were, and the slot of the page was
either left alone or free and has an entry for a table now. -/
structure EntryWritten (s s' : Memory) (pgd : BitVec 32) (virt : BitVec 32) (e : PageEntry) :
    Prop where
  ok : DirOk s' pgd
  slots : ∀ i, s'.heap pgd i = s.heap pgd i ∨
    s.heap pgd i = 0 ∧ ∃ f user, s'.heap pgd i = createPde f (permOf user) 1
  entries : ∀ v : BitVec 32, entryAt s' pgd v.toNat =
    if pageNumber v = pageNumber virt then e else entryAt s pgd v.toNat

theorem pageNumber_eq_iff (v w : BitVec 32) :
    pageNumber v = pageNumber w ↔
      pdeIndex v.toNat = pdeIndex w.toNat ∧ pteIndex v.toNat = pteIndex w.toNat := by
  constructor
  · intro h
    have hpage : v.toNat / 4096 = w.toNat / 4096 := congrArg Fin.val h
    rw [pdeIndex_eq, pdeIndex_eq, pteIndex, pteIndex, hpage]
    exact ⟨rfl, rfl⟩
  · rintro ⟨hpde, hpte⟩
    exact Fin.ext (page_eq_of_index hpde hpte)

/-- The table is there. -/
theorem DirOk.setEntry_written {s : Memory} {pgd : BitVec 32} (h : DirOk s pgd) (virt : BitVec 32)
    (hpde : s.heap pgd (pdeIndex virt.toNat) ≠ 0) (e : PageEntry) :
    EntryWritten s (setEntry s (tableOf (s.heap pgd (pdeIndex virt.toNat)))
      (pteIndex virt.toNat) e) pgd virt e := by
  obtain ⟨-, hne⟩ := h.tables _ (pdeIndex_lt_dir virt) hpde
  have hdir : (setEntry s (tableOf (s.heap pgd (pdeIndex virt.toNat)))
      (pteIndex virt.toNat) e).heap pgd = s.heap pgd := by
    rw [setEntry_heap, Function.update_of_ne hne.symm]
  refine ⟨⟨h.used, ?_, ?_, ?_⟩, fun i => .inl (congrFun hdir i), ?_⟩
  · rw [hdir]
    exact h.addr
  · rw [hdir]
    exact h.tables
  · rw [hdir]
    exact h.distinct
  · intro v
    unfold entryAt
    rw [hdir]
    by_cases hslot : pdeIndex v.toNat = pdeIndex virt.toNat
    · -- the same table: only the index tells the pages apart
      rw [hslot, if_neg hpde, if_neg hpde, setEntry_heap, Function.update_self]
      by_cases hindex : pteIndex v.toNat = pteIndex virt.toNat
      · rw [if_pos ((pageNumber_eq_iff v virt).mpr ⟨hslot, hindex⟩), hindex, Function.update_self]
      · rw [if_neg fun hpage => hindex ((pageNumber_eq_iff v virt).mp hpage).2,
          Function.update_of_ne hindex]
    · rw [if_neg fun hpage => hslot ((pageNumber_eq_iff v virt).mp hpage).1]
      by_cases hzero : s.heap pgd (pdeIndex v.toNat) = 0
      · rw [if_pos hzero, if_pos hzero]
      · have htable : tableOf (s.heap pgd (pdeIndex v.toNat)) ≠
            tableOf (s.heap pgd (pdeIndex virt.toNat)) := fun heq =>
          hslot (h.distinct _ (pdeIndex_lt_dir v) _ (pdeIndex_lt_dir virt) hzero hpde heq)
        rw [if_neg hzero, if_neg hzero, setEntry_heap, Function.update_of_ne htable]

/-- A new table for a slot that was free. -/
theorem DirOk.newTable_written {s : Memory} {pgd : BitVec 32} (h : DirOk s pgd) (virt : BitVec 32)
    (hpde : s.heap pgd (pdeIndex virt.toNat) = 0) {pgt : BitVec 32}
    (hpgt : A.naMalloc s = some pgt) (user : Bool) (e : PageEntry) :
    EntryWritten s
      (setEntry (setEntry (setTable { s with heapUsed := pgt :: s.heapUsed } pgt fun _ => 0) pgt
        (pteIndex virt.toNat) e) pgd (pdeIndex virt.toNat)
        (createPde (kv2p pgt) (permOf user) 1)) pgd virt e := by
  have hfresh := A.naMalloc_unused s pgt hpgt
  have haligned := A.naMalloc_aligned s pgt hpgt
  have hused_ne : ∀ a ∈ s.heapUsed, a ≠ pgt := by
    rintro a ha rfl
    exact hfresh ha
  have hpgd := hused_ne pgd h.used
  have htable : tableOf (createPde (kv2p pgt) (permOf user) 1) = pgt :=
    tableOf_createPde_permOf haligned user
  have hpresent : createPde (kv2p pgt) (permOf user) 1 ≠ 0 :=
    ne_zero_of_present (ptePresent_createPde_permOf _ user)
  have haddr : entryAddr (createPde (kv2p pgt) (permOf user) 1) ≠ 0 := by
    rw [entryAddr_createPde_permOf, ← entryAddr_createPte, ← createPde_eq_createPte]
    exact entryAddr_createPde_ne_zero haligned (A.naMalloc_window s pgt hpgt).1
  have hmade : ∃ f user', createPde (kv2p pgt) (permOf user) 1 = createPde f (permOf user') 1 :=
    ⟨_, _, rfl⟩
  have hadd := newTable_added s hpgd (pdeIndex virt.toNat) (pteIndex virt.toNat)
    (createPde (kv2p pgt) (permOf user) 1) e
  generalize createPde (kv2p pgt) (permOf user) 1 = pde at *
  generalize setEntry (setEntry (setTable { s with heapUsed := pgt :: s.heapUsed } pgt
    fun _ => 0) pgt (pteIndex virt.toNat) e) pgd (pdeIndex virt.toNat) pde = s' at hadd ⊢
  -- a slot of the new directory is the new one or an old one
  have hslot : ∀ i, i ≠ pdeIndex virt.toNat → s'.heap pgd i = s.heap pgd i := by
    intro i hi
    rw [hadd.dir, if_neg hi]
  have hself : s'.heap pgd (pdeIndex virt.toNat) = pde := by
    rw [hadd.dir, if_pos rfl]
  refine ⟨⟨?_, ?_, ?_, ?_⟩, ?_, ?_⟩
  · exact hadd.mem pgd h.used
  · intro i hi hne
    by_cases hi' : i = pdeIndex virt.toNat
    · rw [hi', hself]
      exact haddr
    · rw [hslot i hi'] at hne ⊢
      exact h.addr i hi hne
  · intro i hi hne
    by_cases hi' : i = pdeIndex virt.toNat
    · rw [hi', hself, htable, hadd.used]
      exact ⟨List.mem_cons_self, hpgd.symm⟩
    · rw [hslot i hi'] at hne ⊢
      obtain ⟨hmem, hdiff⟩ := h.tables i hi hne
      exact ⟨hadd.mem _ hmem, hdiff⟩
  · intro i hi j hj hnei hnej heq
    have hother : ∀ k < 1024, k ≠ pdeIndex virt.toNat → s'.heap pgd k ≠ 0 →
        tableOf (s'.heap pgd k) ≠ pgt := by
      intro k hk hk' hnek
      rw [hslot k hk'] at hnek ⊢
      exact hused_ne _ (h.tables k hk hnek).1
    by_cases hi' : i = pdeIndex virt.toNat
    · by_cases hj' : j = pdeIndex virt.toNat
      · rw [hi', hj']
      · rw [hi', hself, htable] at heq
        exact absurd heq.symm (hother j hj hj' hnej)
    · by_cases hj' : j = pdeIndex virt.toNat
      · rw [hj', hself, htable] at heq
        exact absurd heq (hother i hi hi' hnei)
      · rw [hslot i hi'] at hnei heq
        rw [hslot j hj'] at hnej heq
        exact h.distinct i hi j hj hnei hnej heq
  · intro i
    by_cases hi' : i = pdeIndex virt.toNat
    · obtain ⟨f, user', hmade⟩ := hmade
      refine .inr ⟨hi' ▸ hpde, f, user', ?_⟩
      rw [hi', hself]
      exact hmade
    · exact .inl (hslot i hi')
  · intro v
    unfold entryAt
    by_cases hv : pdeIndex v.toNat = pdeIndex virt.toNat
    · rw [hv, hself, if_neg hpresent, htable, hadd.table, if_pos hpde]
      by_cases hindex : pteIndex v.toNat = pteIndex virt.toNat
      · rw [if_pos ((pageNumber_eq_iff v virt).mpr ⟨hv, hindex⟩), hindex, Function.update_self]
      · rw [if_neg fun hpage => hindex ((pageNumber_eq_iff v virt).mp hpage).2,
          Function.update_of_ne hindex]
    · rw [if_neg fun hpage => hv ((pageNumber_eq_iff v virt).mp hpage).1, hslot _ hv]
      by_cases hzero : s.heap pgd (pdeIndex v.toNat) = 0
      · rw [if_pos hzero, if_pos hzero]
      · obtain ⟨hmem, hdiff⟩ := h.tables _ (pdeIndex_lt_dir v) hzero
        rw [if_neg hzero, if_neg hzero, hadd.old _ hdiff (hused_ne _ hmem)]

/-- `map_page` returns when a table is there or can be made, and then it wrote
one entry. -/
theorem DirOk.mapPage_written {s : Memory} {pgd : BitVec 32} (h : DirOk s pgd)
    (phys virt : BitVec 32) (user : Bool)
    (hfresh : s.heap pgd (pdeIndex virt.toNat) = 0 → ∃ pgt, A.naMalloc s = some pgt) :
    ∃ s', mapPage A s pgd phys virt.toNat (permOf user) = some s' ∧
      EntryWritten s s' pgd virt (createPte phys (permOf user) 1) := by
  unfold mapPage
  dsimp only
  by_cases hpde : s.heap pgd (pdeIndex virt.toNat) = 0
  · obtain ⟨pgt, hpgt⟩ := hfresh hpde
    rw [if_neg (not_not.mpr hpde), naMallocPage, hpgt]
    exact ⟨_, rfl, h.newTable_written virt hpde hpgt user _⟩
  · rw [if_pos hpde, sshiftRight_eq_entryAddr]
    exact ⟨_, rfl, h.setEntry_written virt hpde _⟩

/-- What it wrote, when it returned. -/
theorem DirOk.written_of_mapPage {s s' : Memory} {pgd : BitVec 32} (h : DirOk s pgd)
    {phys virt : BitVec 32} {user : Bool}
    (hmap : mapPage A s pgd phys virt.toNat (permOf user) = some s') :
    EntryWritten s s' pgd virt (createPte phys (permOf user) 1) := by
  have hfresh : s.heap pgd (pdeIndex virt.toNat) = 0 → ∃ pgt, A.naMalloc s = some pgt := by
    intro hzero
    unfold mapPage at hmap
    dsimp only at hmap
    rw [if_neg (not_not.mpr hzero)] at hmap
    obtain ⟨⟨pgt, s₁⟩, hmalloc, -⟩ := Option.map_eq_some_iff.mp hmap
    exact ⟨pgt, (naMallocPage_some hmalloc).1⟩
  obtain ⟨s'', hmap', hw⟩ := h.mapPage_written phys virt user hfresh
  rw [hmap] at hmap'
  obtain rfl := Option.some.inj hmap'
  exact hw

/-! ## The refinement -/

theorem EntryWritten.walk_kept {s s' : Memory} {pgd virt : BitVec 32} {e : PageEntry}
    (hw : EntryWritten s s' pgd virt e) {v : BitVec 32} (hv : pageNumber v ≠ pageNumber virt)
    (mode : Mode) (write : Bool) :
    walk s' pgd mode write v.toNat = walk s pgd mode write v.toNat := by
  have hentry : entryAt s' pgd v.toNat = entryAt s pgd v.toNat := by
    rw [hw.entries v, if_neg hv]
  rw [walk_eq, walk_eq, hentry]
  rcases hw.slots (pdeIndex v.toNat) with hsame | ⟨hzero, -⟩
  · rw [hsame]
  · -- there was no table, and the new one has no entry for this page
    have hnone : entryAt s pgd v.toNat = 0 := by rw [entryAt, if_pos hzero]
    rw [hnone, entryAllows_zero, Bool.and_false, Bool.and_false]

theorem EntryWritten.pageMap_eq {s s' : Memory} {pgd virt phys : BitVec 32} {user : Bool}
    (h : DirOk s pgd) (hw : EntryWritten s s' pgd virt (createPte phys (permOf user) 1)) :
    pageMap s' pgd =
      Function.update (pageMap s pgd) (pageNumber virt) (some (entryAddr phys)) := by
  ext1 page
  -- the address of the page
  obtain ⟨v, hv, hpage⟩ : ∃ v : BitVec 32, v.toNat = page.val * 4096 ∧ pageNumber v = page := by
    have hlt := page.isLt
    have hv : (BitVec.ofNat 32 (page.val * 4096)).toNat = page.val * 4096 := by
      rw [BitVec.toNat_ofNat, Nat.mod_eq_of_lt (by omega)]
    refine ⟨BitVec.ofNat 32 (page.val * 4096), hv, Fin.ext ?_⟩
    change (BitVec.ofNat 32 (page.val * 4096)).toNat / 4096 = page.val
    rw [hv, Nat.mul_div_cancel _ (by decide)]
  unfold pageMap
  rw [← hv, hw.ok.foundEntry_eq v, hw.entries v, hpage]
  by_cases hsame : page = pageNumber virt
  · rw [if_pos hsame, hsame, Function.update_self, createPte_permOf, entryAddr_createPde_permOf,
      if_pos (ptePresent_createPde_permOf phys user)]
  · rw [if_neg hsame, Function.update_of_ne hsame, ← hv, h.foundEntry_eq v]

/-- **A directory as a page map.** On a directory whose entries point to page
tables of their own, with a new table to be had where one is missing,
`map_page` returns and maps the frame of `phys` at the page of `virt`; every
other page keeps its entry, its answer from `page_mapped` and its
translation. -/
theorem map_page_refines (A : Allocators) (s : Memory) (pgd phys virt : BitVec 32) (user : Bool)
    (hdir : DirOk s pgd)
    (hfresh : s.heap pgd (pdeIndex virt.toNat) = 0 → ∃ pgt, A.naMalloc s = some pgt) :
    ∃ s', mapPage A s pgd phys virt.toNat (permOf user) = some s' ∧
      PageMappedAt s s' pgd phys virt := by
  obtain ⟨s', hmap, hw⟩ := hdir.mapPage_written phys virt user hfresh
  have hself : entryAt s' pgd virt.toNat = createPde phys (permOf user) 1 := by
    rw [hw.entries virt, if_pos rfl, createPte_permOf]
  have hpresent := ptePresent_createPde_permOf phys user
  refine ⟨s', hmap, ?_, ?_, ?_, hw.pageMap_eq hdir⟩
  · have hfound := hw.ok.foundEntry_eq virt
    rw [hself, foundEntry] at hfound
    rcases hget : getPageFromPgd s' pgd virt.toNat with _ | ⟨ptes, ipte⟩
    · rw [hget] at hfound
      exact absurd hfound.symm (ne_zero_of_present hpresent)
    · rw [hget] at hfound
      change s'.heap ptes ipte = createPde phys (permOf user) 1 at hfound
      refine ⟨ptes, ipte, rfl, ?_, ?_⟩
      · rw [hfound]
        exact hpresent
      · rw [hfound, entryAddr_createPde_permOf, entryAddr_toNat]
        rfl
  · rw [pageMapped_eq, hself, decide_eq_true_eq]
    exact ne_zero_of_present hpresent
  · intro v hv
    have hentry : entryAt s' pgd v.toNat = entryAt s pgd v.toNat := by
      rw [hw.entries v, if_neg hv]
    refine ⟨?_, ?_, hw.walk_kept hv⟩
    · rw [hw.ok.foundEntry_eq, hdir.foundEntry_eq, hentry]
    · rw [pageMapped_eq, pageMapped_eq, hentry]

/-- The slots of `kernel_pgd` that `paging_init` fills. -/
theorem bootPgd_slots {i : Nat} (h : bootPgd i ≠ 0) :
    i ∈ [pdeIndex virtBase, pdeIndex (virtBase + 4 * 1024 * 1024),
      pdeIndex (virtBase + 8 * 1024 * 1024), pdeIndex (virtBase + 16 * 10124 * 1024)] := by
  by_contra hnot
  simp only [List.mem_cons, List.not_mem_nil, or_false, not_or] at hnot
  obtain ⟨h1, h2, h3, h4⟩ := hnot
  rw [bootPgd, if_neg h1, if_neg h2, if_neg h3, if_neg h4] at h
  exact h rfl

theorem pagingInit_dir (i : Nat) :
    pagingInit.mem.heap pagingInit.kernelPgd i = bootPgd i := by
  simp [pagingInit]

theorem pagingInit_dirOk : DirOk pagingInit.mem pagingInit.kernelPgd where
  used := List.mem_cons_self
  addr i _ hne := by
    have hslots : ∀ k ∈ [pdeIndex virtBase, pdeIndex (virtBase + 4 * 1024 * 1024),
        pdeIndex (virtBase + 8 * 1024 * 1024), pdeIndex (virtBase + 16 * 10124 * 1024)],
        entryAddr (bootPgd k) ≠ 0 := by decide
    rw [pagingInit_dir] at hne ⊢
    exact hslots i (bootPgd_slots hne)
  tables i _ hne := pagingInit_tables i hne
  distinct i _ j _ hi hj heq := by
    have hslots : ∀ k ∈ [pdeIndex virtBase, pdeIndex (virtBase + 4 * 1024 * 1024),
        pdeIndex (virtBase + 8 * 1024 * 1024), pdeIndex (virtBase + 16 * 10124 * 1024)],
        ∀ l ∈ [pdeIndex virtBase, pdeIndex (virtBase + 4 * 1024 * 1024),
          pdeIndex (virtBase + 8 * 1024 * 1024), pdeIndex (virtBase + 16 * 10124 * 1024)],
        tableOf (bootPgd k) = tableOf (bootPgd l) → k = l := by decide
    rw [pagingInit_dir] at hi hj
    rw [pagingInit_dir, pagingInit_dir] at heq
    exact hslots i (bootPgd_slots hi) j (bootPgd_slots hj) heq

/-- A first user page in `kernel_pgd`, which has no table for it. -/
theorem map_page_refines_boot :
    pagingInit.mem.heap pagingInit.kernelPgd (pdeIndex (0x08048000 : BitVec 32).toNat) = 0 ∧
    ∃ s', mapPage firstFit pagingInit.mem pagingInit.kernelPgd 0x2001234
        (0x08048000 : BitVec 32).toNat (permOf true) = some s' ∧
      PageMappedAt pagingInit.mem s' pagingInit.kernelPgd 0x2001234 0x08048000 := by
  refine ⟨by decide, map_page_refines firstFit pagingInit.mem pagingInit.kernelPgd 0x2001234
    0x08048000 true pagingInit_dirOk ?_⟩
  intro _
  exact ⟨0xC0403000, by decide +kernel⟩

end Levos.Mm
