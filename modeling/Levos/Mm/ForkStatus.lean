import Levos.Mm.Cow

/-!
# What a fork does to the status of pages (`mark_all_user_pages_cow`)

A fork marks the pages of both directories copy-on-write. The marking loop
passes the address of each table to `pde_mark_writeable`, which sets a bit in
the table's first entry, mapped or not; and it marks every page that is
present, also one that was read-only for good.

`fork_page_status` gives the condition under which no page changes its status:
every table has its first entry in use, and every page that is present is
writable or copy-on-write already.
-/

namespace Levos.Mm

open Levos.Base

variable {A : Allocators}

/-! ## Status -/

/-- `page_mapped`. -/
def pageMapped (s : Memory) (pgd : BitVec 32) (virtAddr : Nat) : Bool :=
  let pgt := s.heap pgd (pdeIndex virtAddr)
  if pgt ≠ 0 then s.heap (pgt.sshiftRight pteAddrShift <<< 12 + virtBaseAddr) (pteIndex virtAddr) ≠ 0
  else false

theorem pageMapped_eq (s : Memory) (pgd : BitVec 32) (a : Nat) :
    pageMapped s pgd a = decide (entryAt s pgd a ≠ 0) := by
  unfold pageMapped entryAt
  dsimp only
  rw [sshiftRight_eq_entryAddr]
  by_cases hpde : s.heap pgd (pdeIndex a) = 0
  · simp [hpde]
  · simp only [if_pos hpde, if_neg hpde]
    rfl

/-- After a fork of `parent`, in parent and child: an entry is 0 exactly where
it was 0 before, `page_mapped` answers as before, and no write fault gives
write access to a page that was neither writable nor copy-on-write. -/
def PageStatusKept (A : Allocators) (s s' : Memory) (parent child : Nat) : Prop :=
  ∀ t q t', s.tasks parent = some t → q = parent ∨ q = child → s'.tasks q = some t' →
    ∀ a < virtBase,
      (entryAt s' t'.mm a = 0 ↔ entryAt s t.mm a = 0) ∧
      pageMapped s' t'.mm a = pageMapped s t.mm a ∧
      (ptePresent (entryAt s t.mm a) = true → pteWriteable (entryAt s t.mm a) = false →
        pteIsCow (entryAt s t.mm a) = false → ∀ mode s'',
          handlePagefault A s' q t' mode true a = some s'' →
            pteWriteable (entryAt s'' t'.mm a) = false)

/-- No table has its first entry free, and no page is read-only for good. -/
def StatusSafe (s : Memory) (parent : Nat) : Prop :=
  ∀ t, s.tasks parent = some t →
    (∀ i < 768, s.heap t.mm i ≠ 0 → s.heap (tableOf (s.heap t.mm i)) 0 ≠ 0) ∧
    ∀ a < virtBase, ptePresent (entryAt s t.mm a) = true →
      pteWriteable (entryAt s t.mm a) = true ∨ pteIsCow (entryAt s t.mm a) = true

/-- The frames of a task are frames `palloc_get_page` hands out. -/
def FramesLow (s : Memory) (pid : Nat) : Prop :=
  ∀ t, s.tasks pid = some t → ∀ a < virtBase, ptePresent (entryAt s t.mm a) = true →
    (entryAddr (entryAt s t.mm a)).toNat < 2 ^ 31

/-! ## Marked entries -/

theorem pteIsCow_eq (p : PageEntry) : pteIsCow p = p.getLsbD 9 := flag_eq_getLsbD p (by decide)

theorem pteIsCow_pteMarkCow (p : PageEntry) : pteIsCow (pteMarkCow p) = true := by
  rw [pteIsCow_eq, pteMarkCow, BitVec.getLsbD_or]
  exact Bool.or_true _

theorem ne_zero_of_cow {p : PageEntry} (h : pteIsCow p = true) : p ≠ 0 := by
  rintro rfl
  exact absurd h (by decide)

theorem ne_zero_of_present {p : PageEntry} (h : ptePresent p = true) : p ≠ 0 := by
  rintro rfl
  exact absurd h (by decide)

theorem markCow_eq_zero_iff (p : PageEntry) : markCow p = 0 ↔ p = 0 := by
  rw [markCow]
  split
  · exact Iff.rfl
  · rename_i hpresent
    have hp : ptePresent p = true := by simpa using hpresent
    constructor
    · exact fun hzero => absurd hzero (ne_zero_of_cow (pteIsCow_pteMarkCow _))
    · exact fun hzero => absurd hzero (ne_zero_of_present hp)

theorem pdeMarkWriteable_ne_zero (p : PageEntry) : pdeMarkWriteable p ≠ 0 := by
  intro hzero
  have hbit : pteWriteable (pdeMarkWriteable p) = true := by
    rw [pteWriteable_eq, pdeMarkWriteable, BitVec.getLsbD_or]
    exact Bool.or_true _
  rw [hzero] at hbit
  exact absurd hbit (by decide)

theorem markedTable_eq_zero_iff (es : Nat → PageEntry) {j : Nat} (hj : j < 1024) :
    markedTable es j = 0 ↔ j ≠ 0 ∧ es j = 0 := by
  rw [markedTable, if_pos hj, markCow_eq_zero_iff]
  split
  · rename_i hzero
    exact ⟨fun h => absurd h (pdeMarkWriteable_ne_zero _), fun h => absurd hzero h.1⟩
  · rename_i hzero
    exact ⟨fun h => ⟨hzero, h⟩, fun h => h.2⟩

/-- A page that was present is marked copy-on-write. -/
theorem markedTable_cow (es : Nat → PageEntry) {j : Nat} (hj : j < 1024)
    (hpresent : ptePresent (es j) = true) :
    pteIsCow (markedTable es j) = true ∧ ptePresent (markedTable es j) = true ∧
      entryAddr (markedTable es j) = entryAddr (es j) := by
  have hcell := cellOf_markedTable es hj
  rw [cellOf, cellOf, if_pos hpresent] at hcell
  have hmarked : ptePresent (markedTable es j) = true := by
    by_contra hnot
    rw [if_neg hnot] at hcell
    cases hcell
  rw [if_pos hmarked, Option.map_some, Option.some.injEq, Prod.mk.injEq] at hcell
  refine ⟨?_, hmarked, hcell.1⟩
  have hsrc : ptePresent (if j = 0 then pdeMarkWriteable (es 0) else es j) = true := by
    split
    · rename_i hzero
      rw [ptePresent_pdeMarkWriteable, ← hzero, hpresent]
    · exact hpresent
  rw [markedTable, if_pos hj, markCow, if_neg (not_not_intro hsrc)]
  exact pteIsCow_pteMarkCow _

/-! ## Entries after a fork -/

/-- The entry a fork leaves in both directories. -/
def forkedEntry (s : Memory) (pgd : BitVec 32) (a : Nat) : PageEntry :=
  if s.heap pgd (pdeIndex a) = 0 then 0
  else markedTable (s.heap (tableOf (s.heap pgd (pdeIndex a)))) (pteIndex a)

theorem DirForked.entry {s s₂ : Memory} {t : TaskMm} {ret : BitVec 32}
    (hd : DirForked s s₂ t.mm ret) (hs : TablesOk s) {p : Nat} (ht : s.tasks p = some t)
    {a : Nat} (ha : a < virtBase) {m : BitVec 32} (hm : m = t.mm ∨ m = ret) :
    entryAt s₂ m a = forkedEntry s t.mm a := by
  have hi := pdeIndex_lt ha
  have hdir : s₂.heap t.mm = s.heap t.mm :=
    hd.other t.mm (hs.used _ _ (pageOf_dir ht)) (ownTables_of_task hs ht).ne_dir
  unfold forkedEntry
  by_cases hzero : s.heap t.mm (pdeIndex a) = 0
  · rw [if_pos hzero, entryAt, if_pos]
    rcases hm with rfl | rfl
    · rw [hdir, hzero]
    · exact hd.zero _ hi hzero
  · rw [if_neg hzero]
    rcases hm with rfl | rfl
    · rw [entryAt, hdir, if_neg hzero, hd.table _ hi hzero]
    · rw [entryAt, if_neg (hd.pde _ hi hzero), hd.new_table _ hi hzero]

/-- The tables after a fork, entry by entry. -/
structure ForkedEntries (s s' : Memory) (child : Nat) (t t' : TaskMm) : Prop where
  ok : TablesOk s'
  tasks : s'.tasks = Function.update s.tasks child (some t')
  entry : ∀ a < virtBase, ∀ m, m = t.mm ∨ m = t'.mm → entryAt s' m a = forkedEntry s t.mm a

theorem DirForked.entries {s s₂ : Memory} {t t' : TaskMm} {ret : BitVec 32}
    (hd : DirForked s s₂ t.mm ret) (hs : TablesOk s) {p c : Nat} (ht : s.tasks p = some t)
    (hc : s.tasks c = none) (ht' : t'.mm = ret) :
    ForkedEntries s (record (setTask s₂ c t') (.forked p c)) c t t' := by
  have hforked := hd.forked hs ht hc ht'
  refine ⟨hforked.ok, hforked.tasks, fun a ha m hm => ?_⟩
  have hview : entryAt (record (setTask s₂ c t') (.forked p c)) m a = entryAt s₂ m a := rfl
  rw [hview]
  exact hd.entry hs ht ha (ht' ▸ hm)

theorem createUserTaskFork_entries {s s' : Memory} (hs : TablesOk s) {p c : Nat}
    (h : createUserTaskFork A s p c = some s') :
    ∃ t t', s.tasks p = some t ∧ s.tasks c = none ∧ ForkedEntries s s' c t t' := by
  unfold createUserTaskFork at h
  obtain ⟨t, ht, h⟩ := Option.bind_eq_some_iff.mp h
  split at h
  · cases h
  · rename_i hc
    rw [Option.not_isSome_iff_eq_none] at hc
    obtain ⟨⟨ret, s₁⟩, hcopy, h⟩ := Option.bind_eq_some_iff.mp h
    obtain ⟨areas, -, rfl⟩ := Option.map_eq_some_iff.mp h
    have hd := copyPageDir_mark hcopy (hs.used _ _ (pageOf_dir ht))
      (fun i hi hne => hs.used _ _ (pageOf_table ht hi hne)) (ownTables_of_task hs ht)
    exact ⟨t, _, ht, hc, hd.entries hs ht hc rfl⟩

theorem pteIndex_lt (a : Nat) : pteIndex a < 1024 := Nat.mod_lt _ (by norm_num)

/-- An entry stays 0 unless it is the first one of a table. -/
theorem forkedEntry_eq_zero_iff (s : Memory) (pgd : BitVec 32) (a : Nat) :
    forkedEntry s pgd a = 0 ↔
      entryAt s pgd a = 0 ∧ (s.heap pgd (pdeIndex a) = 0 ∨ pteIndex a ≠ 0) := by
  unfold forkedEntry entryAt
  by_cases hzero : s.heap pgd (pdeIndex a) = 0
  · simp [hzero]
  · simp only [if_neg hzero, markedTable_eq_zero_iff _ (pteIndex_lt a)]
    exact ⟨fun h => ⟨h.2, .inr h.1⟩, fun h => ⟨h.2.resolve_left hzero, h.1⟩⟩

/-- A page that is present is copy-on-write after the fork, in its old frame. -/
theorem forkedEntry_cow {s : Memory} {pgd : BitVec 32} {a : Nat}
    (hpresent : ptePresent (entryAt s pgd a) = true) :
    s.heap pgd (pdeIndex a) ≠ 0 ∧ pteIsCow (forkedEntry s pgd a) = true ∧
      ptePresent (forkedEntry s pgd a) = true ∧
      entryAddr (forkedEntry s pgd a) = entryAddr (entryAt s pgd a) := by
  have hpde : s.heap pgd (pdeIndex a) ≠ 0 := by
    intro hzero
    rw [entryAt, if_pos hzero] at hpresent
    exact absurd hpresent (by decide)
  rw [entryAt, if_neg hpde] at hpresent ⊢
  rw [forkedEntry, if_neg hpde]
  exact ⟨hpde, markedTable_cow _ (pteIndex_lt a) hpresent⟩

theorem entryAt_fillPage (s : Memory) (pgd m : BitVec 32) (addr a : Nat) (content : Page) :
    entryAt (fillPage s pgd addr content) m a = entryAt s m a := rfl

/-- A write fault on a present copy-on-write page makes it writable. -/
theorem handlePagefault_cow {s : Memory} (hs : TablesOk s) {p a : Nat} {t : TaskMm}
    (ht : s.tasks p = some t) (ha : a < virtBase) (hcow : pteIsCow (entryAt s t.mm a) = true)
    (hpresent : ptePresent (entryAt s t.mm a) = true)
    (hlow : (entryAddr (entryAt s t.mm a)).toNat < 2 ^ 31) (hmem : A.palloc s ≠ none) :
    ∃ s', handlePagefault A s p t .user true a = some s' ∧
      pteWriteable (entryAt s' t.mm a) = true := by
  have hdown := pgRndDown_lt_virtBase ha
  have hpage : pgRndDown a / 4096 = a / 4096 := by
    rw [pgRndDown]
    omega
  have hsame : entryAt s t.mm (pgRndDown a) = entryAt s t.mm a := entryAt_congr s t.mm hpage
  rw [← hsame] at hcow hpresent hlow
  obtain ⟨f, hf⟩ := Option.ne_none_iff_exists'.mp hmem
  have hpde : s.heap t.mm (pdeIndex (pgRndDown a)) ≠ 0 := by
    intro hzero
    rw [entryAt, if_pos hzero] at hpresent
    exact absurd hpresent (by decide)
  have hentry : entryAt s t.mm (pgRndDown a) =
      s.heap (tableOf (s.heap t.mm (pdeIndex (pgRndDown a)))) (pteIndex (pgRndDown a)) := by
    rw [entryAt, if_neg hpde]
  have hset := setEntry_entrySet hs ht hdown hpde (createPte f 1 1)
  -- the frame is below two gigabytes, so that nothing is freed
  have hheap : ¬ (entryAt s t.mm (pgRndDown a) - virtBaseAddr).toNat < 14 * 1024 * 1024 := by
    rw [entryAddr_toNat] at hlow
    rw [BitVec.toNat_sub, show virtBaseAddr.toNat = 0xC0000000 from rfl]
    omega
  have hserved : handlePagefault A s p t .user true a =
      some (fillPage (setEntry s (tableOf (s.heap t.mm (pdeIndex (pgRndDown a))))
        (pteIndex (pgRndDown a)) (createPte f 1 1)) t.mm (pgRndDown a)
        (s.frames (entryAddr (entryAt s t.mm (pgRndDown a))))) := by
    unfold handlePagefault doCow
    dsimp only
    rw [getPageFromPgd_eq hs ht hdown, if_neg hpde]
    simp only [Option.any_some, Option.bind_some, ← hentry, hcow, hf, Option.map_some,
      if_neg hheap, hpresent, Bool.and_self, if_true, not_true_eq_false, if_false]
  refine ⟨_, hserved, ?_⟩
  have hnew := hset.entry p t a ht ha
  rw [if_pos ⟨rfl, hpage.symm⟩] at hnew
  rw [entryAt_fillPage, hnew]
  exact pteWriteable_createPte f

/-- **A fork keeps the status of pages** exactly if no table of the parent has
its first entry free and no page is read-only for good: that is enough in any
case, and it is needed when there is memory left for a copy. -/
theorem fork_page_status {s s' : Memory} {p c : Nat} (hs : TablesOk s)
    (hfork : createUserTaskFork A s p c = some s') :
    (StatusSafe s p → PageStatusKept A s s' p c) ∧
    (FramesLow s p → A.palloc s' ≠ none → PageStatusKept A s s' p c → StatusSafe s p) := by
  obtain ⟨t, tc, ht, hc, hok, htasks, hentry⟩ := createUserTaskFork_entries hs hfork
  have hpc : p ≠ c := by
    rintro rfl
    rw [ht] at hc
    cases hc
  have htp : s'.tasks p = some t := by rw [htasks, Function.update_of_ne hpc, ht]
  constructor
  · intro hsafe t₀ q t' ht₀ hq ht' a ha
    obtain rfl : t = t₀ := Option.some.inj (ht.symm.trans ht₀)
    obtain ⟨hfirst, hpages⟩ := hsafe t ht
    have hm : t'.mm = t.mm ∨ t'.mm = tc.mm := by
      rcases hq with rfl | rfl
      · rw [htp, Option.some.injEq] at ht'
        exact .inl (ht' ▸ rfl)
      · rw [htasks, Function.update_self, Option.some.injEq] at ht'
        exact .inr (ht' ▸ rfl)
    have hzero : entryAt s' t'.mm a = 0 ↔ entryAt s t.mm a = 0 := by
      rw [hentry a ha _ hm, forkedEntry_eq_zero_iff]
      refine ⟨fun h => h.1, fun h => ⟨h, ?_⟩⟩
      by_contra hnot
      rw [not_or, not_not] at hnot
      rw [entryAt, if_neg hnot.1, hnot.2] at h
      exact hfirst _ (pdeIndex_lt ha) hnot.1 h
    refine ⟨hzero, ?_, ?_⟩
    · rw [pageMapped_eq, pageMapped_eq]
      exact decide_eq_decide.mpr (not_congr hzero)
    · intro hpresent hro hncow
      rcases hpages a ha hpresent with hw | hcow
      · rw [hro] at hw
        cases hw
      · rw [hncow] at hcow
        cases hcow
  · intro hlow hmem hkept t₀ ht₀
    obtain rfl : t = t₀ := Option.some.inj (ht.symm.trans ht₀)
    have hstatus := hkept t p t ht (.inl rfl) htp
    constructor
    · -- the first page of the table would have become non-zero
      intro i hi hpde hfree
      have ha : i * 2 ^ 22 < virtBase := by
        rw [virtBase]
        omega
      have hidx : pdeIndex (i * 2 ^ 22) = i := by
        rw [pdeIndex]
        omega
      have hpte : pteIndex (i * 2 ^ 22) = 0 := by
        rw [pteIndex]
        omega
      have hbefore : entryAt s t.mm (i * 2 ^ 22) = 0 := by
        rw [entryAt, hidx, hpte, if_neg hpde, hfree]
      have hafter := (hstatus _ ha).1.mpr hbefore
      rw [hentry _ ha _ (.inl rfl), forkedEntry_eq_zero_iff, hidx, hpte] at hafter
      rcases hafter.2 with hzero | hne
      · exact hpde hzero
      · exact hne rfl
    · intro a ha hpresent
      by_contra hnot
      rw [not_or, Bool.not_eq_true, Bool.not_eq_true] at hnot
      obtain ⟨-, hcow, hpresent', haddr⟩ := forkedEntry_cow hpresent
      rw [← hentry a ha _ (.inl rfl)] at hcow hpresent' haddr
      obtain ⟨s'', hserved, hw⟩ := handlePagefault_cow hok htp ha hcow hpresent'
        (haddr ▸ hlow t ht a ha hpresent) hmem
      have hro := (hstatus a ha).2.2 hpresent hnot.1 hnot.2 .user s'' hserved
      rw [hw] at hro
      cases hro

/-- A task with one writable page, the first one of a table. -/
def firstPage : Memory where
  heap a i :=
    if a = 0xC0401000 ∧ i = 32 then createPde (kv2p 0xC0402000) 1 1
    else if a = 0xC0402000 ∧ i = 0 then createPte 0x1000000 1 1 else 0
  heapUsed := [0xC0401000, 0xC0402000]
  frames _ _ := 7
  tasks p := if p = 1 then some ⟨0xC0401000, [stackVma], 0x8050000, 0x8050000⟩ else none
  history := []

theorem firstPage_task {p : Nat} {t : TaskMm} (h : firstPage.tasks p = some t) :
    p = 1 ∧ t.mm = 0xC0401000 := by
  simp only [firstPage] at h
  split at h
  · rename_i hp
    exact ⟨hp, (Option.some.inj h) ▸ rfl⟩
  · cases h

theorem firstPage_pde {i : Nat} (h : firstPage.heap 0xC0401000 i ≠ 0) : i = 32 := by
  by_contra hi
  simp [firstPage, hi] at h

theorem firstPage_pageOf {o : Nat × Option Nat} {a : BitVec 32} (h : pageOf firstPage o = some a) :
    (o = (1, none) ∧ a = 0xC0401000) ∨ (o = (1, some 32) ∧ a = 0xC0402000) := by
  obtain ⟨p, o⟩ := o
  cases o with
  | none =>
      obtain ⟨t, ht, rfl⟩ := Option.map_eq_some_iff.mp h
      obtain ⟨rfl, hmm⟩ := firstPage_task ht
      exact .inl ⟨rfl, hmm⟩
  | some i =>
      obtain ⟨t, ht, htab⟩ := Option.bind_eq_some_iff.mp h
      obtain ⟨rfl, hmm⟩ := firstPage_task ht
      rw [hmm] at htab
      split at htab
      · rename_i hi
        obtain rfl := firstPage_pde hi.2
        have htable : tableOf (firstPage.heap 0xC0401000 32) = 0xC0402000 := by decide
        rw [htable, Option.some.injEq] at htab
        exact .inr ⟨rfl, htab.symm⟩
      · cases htab

theorem firstPage_tables : TablesOk firstPage := by
  refine ⟨?_, ?_, ?_⟩
  · intro o a h
    rcases firstPage_pageOf h with ⟨-, rfl⟩ | ⟨-, rfl⟩
    · exact List.mem_cons_self
    · exact List.mem_cons_of_mem _ List.mem_cons_self
  · intro o o' a h h'
    rcases firstPage_pageOf h with ⟨rfl, rfl⟩ | ⟨rfl, rfl⟩
    · rcases firstPage_pageOf h' with ⟨rfl, -⟩ | ⟨-, hne⟩
      · rfl
      · exact absurd hne (by decide)
    · rcases firstPage_pageOf h' with ⟨-, hne⟩ | ⟨rfl, -⟩
      · exact absurd hne (by decide)
      · rfl
  · intro p t i ht _ hne
    rw [(firstPage_task ht).2] at hne ⊢
    obtain rfl := firstPage_pde hne
    decide

theorem firstPage_safe : StatusSafe firstPage 1 := by
  intro t ht
  rw [(firstPage_task ht).2]
  constructor
  · intro i _ hne
    obtain rfl := firstPage_pde hne
    decide
  · intro a _ hpresent
    left
    by_cases hpde : firstPage.heap 0xC0401000 (pdeIndex a) = 0
    · rw [entryAt, if_pos hpde] at hpresent
      exact absurd hpresent (by decide)
    · have hidx := firstPage_pde hpde
      have htable : tableOf (firstPage.heap 0xC0401000 32) = 0xC0402000 := by decide
      rw [entryAt, if_neg hpde, hidx, htable] at hpresent ⊢
      by_cases hpte : pteIndex a = 0
      · rw [hpte]
        decide
      · simp [firstPage, hpte, ptePresent] at hpresent

theorem fork_page_status_first_page :
    ∃ s', createUserTaskFork firstFit firstPage 1 2 = some s' ∧
      PageStatusKept firstFit firstPage s' 1 2 := by
  have hsome : (createUserTaskFork firstFit firstPage 1 2).isSome := by
    decide +kernel
  obtain ⟨s', hfork⟩ := Option.isSome_iff_exists.mp hsome
  exact ⟨s', hfork, (fork_page_status firstPage_tables hfork).1 firstPage_safe⟩

/-- The table of the stack has its first entry free. After the fork the entry
is 2, and `page_mapped` says that something is mapped there. -/
theorem fork_maps_free_entry :
    TablesOk oneTask ∧ entryAt oneTask 0xC0401000 0xBFC00000 = 0 ∧
    ∃ s', createUserTaskFork firstFit oneTask 1 2 = some s' ∧
      entryAt s' 0xC0401000 0xBFC00000 = 2 ∧ pageMapped s' 0xC0401000 0xBFC00000 = true ∧
      ¬ PageStatusKept firstFit oneTask s' 1 2 := by
  have hsome : (createUserTaskFork firstFit oneTask 1 2).isSome := by
    decide +kernel
  obtain ⟨s', hfork⟩ := Option.isSome_iff_exists.mp hsome
  obtain ⟨t, tc, ht, hc, hforked⟩ := createUserTaskFork_entries oneTask_start.tables hfork
  obtain ⟨-, hmm⟩ := oneTask_task ht
  have hfree : entryAt oneTask 0xC0401000 0xBFC00000 = 0 := by decide +kernel
  have hentry : entryAt s' 0xC0401000 0xBFC00000 = 2 := by
    rw [hforked.entry _ (by decide) _ (.inl hmm.symm), hmm]
    decide +kernel
  refine ⟨oneTask_start.tables, hfree, s', hfork, hentry, ?_, ?_⟩
  · rw [pageMapped_eq, hentry]
    decide
  · intro hkept
    have ht' : s'.tasks 1 = some t := by
      rw [hforked.tasks, Function.update_of_ne (by decide), ht]
    have hzero := (hkept t 1 t ht (.inl rfl) ht' 0xBFC00000 (by decide)).1
    rw [hmm, hentry, hfree] at hzero
    exact absurd (hzero.mpr rfl) (by decide)

end Levos.Mm
