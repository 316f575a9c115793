import Levos.Mm.PageFault

/-!
# The tables of all tasks

Directories and tables are separate pages for every task (`TablesOk`), and the
functions that change them change what they are meant to: `map_page` one entry
(`mapPage_entrySet`), a fork the entries of the parent and of the new child
(`createUserTaskFork_forked`).
-/

namespace Levos.Mm

open Levos.Base

variable {A : Allocators}

/-! ## Tables -/

/-- The heap page of a task's directory, or of its table `i`. -/
def pageOf (s : Memory) : Nat × Option Nat → Option (BitVec 32)
  | (p, none) => (s.tasks p).map TaskMm.mm
  | (p, some i) =>
      (s.tasks p).bind fun t =>
        if i < 768 ∧ s.heap t.mm i ≠ 0 then some (tableOf (s.heap t.mm i)) else none

/-- Directories and tables are in use, are all different pages, and an entry
that is not 0 has an address. -/
structure TablesOk (s : Memory) : Prop where
  used : ∀ o a, pageOf s o = some a → a ∈ s.heapUsed
  distinct : ∀ o o' a, pageOf s o = some a → pageOf s o' = some a → o = o'
  addr : ∀ p t i, s.tasks p = some t → i < 768 → s.heap t.mm i ≠ 0 →
    entryAddr (s.heap t.mm i) ≠ 0

theorem pageOf_dir {s : Memory} {p : Nat} {t : TaskMm} (h : s.tasks p = some t) :
    pageOf s (p, none) = some t.mm := by
  simp [pageOf, h]

theorem pageOf_table {s : Memory} {p i : Nat} {t : TaskMm} (h : s.tasks p = some t)
    (hi : i < 768) (hne : s.heap t.mm i ≠ 0) :
    pageOf s (p, some i) = some (tableOf (s.heap t.mm i)) := by
  simp only [pageOf, h, Option.bind_some]
  exact if_pos ⟨hi, hne⟩

theorem pdeIndex_lt {addr : Nat} (h : addr < virtBase) : pdeIndex addr < 768 := by
  rw [virtBase] at h
  rw [pdeIndex]
  omega

theorem pdeIndex_eq (addr : Nat) : pdeIndex addr = addr / 4096 / 1024 := by
  rw [pdeIndex]
  omega

/-- Two user pages share table and index only if they are the same. -/
theorem page_eq_of_index {a b : Nat} (hpde : pdeIndex a = pdeIndex b)
    (hpte : pteIndex a = pteIndex b) : a / 4096 = b / 4096 := by
  rw [pdeIndex_eq, pdeIndex_eq] at hpde
  rw [pteIndex, pteIndex] at hpte
  omega

theorem entryAt_congr (s : Memory) (pgd : BitVec 32) {a b : Nat} (h : a / 4096 = b / 4096) :
    entryAt s pgd a = entryAt s pgd b := by
  rw [entryAt, entryAt, pdeIndex_eq, pdeIndex_eq, pteIndex, pteIndex, h]

/-- The directories keep their entries for user memory, and the pages in use
stay so. -/
structure SameDirs (s s' : Memory) : Prop where
  tasks : s'.tasks = s.tasks
  dirs : ∀ p t i, s.tasks p = some t → i < 768 → s'.heap t.mm i = s.heap t.mm i
  used : ∀ a ∈ s.heapUsed, a ∈ s'.heapUsed

theorem SameDirs.pageOf_eq {s s' : Memory} (h : SameDirs s s') : pageOf s' = pageOf s := by
  ext1 ⟨p, o⟩
  cases o with
  | none => simp only [pageOf, h.tasks]
  | some i =>
    simp only [pageOf, h.tasks]
    refine Option.bind_congr fun t ht => ?_
    by_cases hi : i < 768
    · rw [h.dirs p t i ht hi]
    · rw [if_neg (fun hc => hi hc.1), if_neg (fun hc => hi hc.1)]

theorem SameDirs.tablesOk {s s' : Memory} (h : SameDirs s s') (hs : TablesOk s) : TablesOk s' where
  used o a ha := h.used a (hs.used o a (h.pageOf_eq ▸ ha))
  distinct o o' a ha ha' := hs.distinct o o' a (h.pageOf_eq ▸ ha) (h.pageOf_eq ▸ ha')
  addr p t i ht hi hne := by
    have ht' : s.tasks p = some t := h.tasks ▸ ht
    rw [h.dirs p t i ht' hi] at hne ⊢
    exact hs.addr p t i ht' hi hne

/-! ## One entry changes -/

/-- Only the entry of one user page changes. -/
structure EntrySet (s s' : Memory) (pid page : Nat) (e : PageEntry) : Prop where
  ok : TablesOk s'
  tasks : s'.tasks = s.tasks
  frames : s'.frames = s.frames
  history : s'.history = s.history
  entry : ∀ q u a, s.tasks q = some u → a < virtBase →
    entryAt s' u.mm a = if q = pid ∧ a / 4096 = page then e else entryAt s u.mm a

/-- Writing to an entry of an existing table. -/
theorem setEntry_entrySet {s : Memory} (hs : TablesOk s) {p addr : Nat} {t : TaskMm}
    (ht : s.tasks p = some t) (haddr : addr < virtBase) (hpde : s.heap t.mm (pdeIndex addr) ≠ 0)
    (e : PageEntry) :
    EntrySet s (setEntry s (tableOf (s.heap t.mm (pdeIndex addr))) (pteIndex addr) e) p
      (addr / 4096) e := by
  have htable := pageOf_table ht (pdeIndex_lt haddr) hpde
  -- the table is no directory
  have hdir : ∀ q u, s.tasks q = some u → u.mm ≠ tableOf (s.heap t.mm (pdeIndex addr)) := by
    intro q u hu heq
    have := hs.distinct _ _ _ (heq ▸ pageOf_dir hu) htable
    simp at this
  have hdirs : ∀ q u i, s.tasks q = some u →
      (setEntry s (tableOf (s.heap t.mm (pdeIndex addr))) (pteIndex addr) e).heap u.mm i =
        s.heap u.mm i := by
    intro q u i hu
    rw [setEntry_heap, Function.update_of_ne (hdir q u hu)]
  have hsame : SameDirs s (setEntry s (tableOf (s.heap t.mm (pdeIndex addr))) (pteIndex addr) e) :=
    ⟨rfl, fun q u i hu _ => hdirs q u i hu, fun a ha => ha⟩
  refine ⟨hsame.tablesOk hs, rfl, rfl, rfl, fun q u a hu ha => ?_⟩
  rw [entryAt, hdirs q u _ hu]
  by_cases hzero : s.heap u.mm (pdeIndex a) = 0
  · rw [if_pos hzero, if_neg, entryAt, if_pos hzero]
    rintro ⟨rfl, hpage⟩
    rw [hu] at ht
    obtain rfl := Option.some.inj ht
    rw [pdeIndex_eq, ← hpage, ← pdeIndex_eq] at hpde
    exact hpde hzero
  · rw [if_neg hzero]
    by_cases hsametable : tableOf (s.heap u.mm (pdeIndex a)) = tableOf (s.heap t.mm (pdeIndex addr))
    · have hown := hs.distinct _ _ _ (hsametable ▸ pageOf_table hu (pdeIndex_lt ha) hzero) htable
      obtain ⟨rfl, hidx⟩ := Prod.mk.inj hown
      have hidx' : pdeIndex a = pdeIndex addr := Option.some.inj hidx
      rw [hsametable, setEntry_heap, Function.update_self, Function.update_apply]
      by_cases hpte : pteIndex a = pteIndex addr
      · rw [if_pos hpte, if_pos ⟨rfl, page_eq_of_index hidx' hpte⟩]
      · rw [if_neg hpte, if_neg, entryAt, if_neg hzero, hsametable]
        rintro ⟨-, hpage⟩
        exact hpte (by rw [pteIndex, pteIndex, hpage])
    · rw [setEntry_heap, Function.update_of_ne hsametable, if_neg, entryAt, if_neg hzero]
      rintro ⟨rfl, hpage⟩
      rw [hu] at ht
      obtain rfl := Option.some.inj ht
      exact hsametable (by rw [pdeIndex_eq, pdeIndex_eq, hpage])

/-- `get_page_from_pgd` finds the entry of a user page that has a table. -/
theorem getPageFromPgd_eq {s : Memory} (hs : TablesOk s) {p addr : Nat} {t : TaskMm}
    (ht : s.tasks p = some t) (haddr : addr < virtBase) :
    getPageFromPgd s t.mm addr =
      if s.heap t.mm (pdeIndex addr) = 0 then none
      else some (tableOf (s.heap t.mm (pdeIndex addr)), pteIndex addr) := by
  unfold getPageFromPgd
  dsimp only
  by_cases hzero : s.heap t.mm (pdeIndex addr) = 0
  · rw [if_pos hzero, hzero]
    exact if_pos (by decide)
  · rw [if_neg hzero, if_neg (hs.addr p t _ ht (pdeIndex_lt haddr) hzero)]
    rfl

theorem naMallocPage_some {s s' : Memory} {t : BitVec 32} (h : naMallocPage A s = some (t, s')) :
    A.naMalloc s = some t ∧ s' = { s with heapUsed := t :: s.heapUsed } := by
  unfold naMallocPage at h
  obtain ⟨t', ht', heq⟩ := Option.map_eq_some_iff.mp h
  obtain ⟨rfl, rfl⟩ := Prod.mk.inj heq
  exact ⟨ht', rfl⟩

/-- A directory has a new table in slot `i`. -/
structure TableAdded (s s' : Memory) (pgd pgt : BitVec 32) (i : Nat) (pde : PageEntry)
    (entries : Nat → PageEntry) : Prop where
  tasks : s'.tasks = s.tasks
  frames : s'.frames = s.frames
  history : s'.history = s.history
  used : s'.heapUsed = pgt :: s.heapUsed
  dir : ∀ j, s'.heap pgd j = if j = i then pde else s.heap pgd j
  table : s'.heap pgt = entries
  old : ∀ a, a ≠ pgd → a ≠ pgt → s'.heap a = s.heap a

section Added

variable {s s' : Memory} {pgd pgt : BitVec 32} {i : Nat} {pde : PageEntry}
  {entries : Nat → PageEntry}

/-- The writes of `map_page`. -/
theorem newTable_added (s : Memory) (hne : pgd ≠ pgt) (i j : Nat) (pde e : PageEntry) :
    TableAdded s
      (setEntry (setEntry (setTable { s with heapUsed := pgt :: s.heapUsed } pgt fun _ => 0) pgt j
        e) pgd i pde) pgd pgt i pde (Function.update (fun _ => 0) j e) := by
  refine ⟨rfl, rfl, rfl, rfl, fun k => ?_, ?_, fun a ha ha' => ?_⟩
  · simp [hne, Function.update_apply]
  · simp [hne.symm]
  · simp [ha, ha']

/-- Those of `copy_page_dir`, for one slot. -/
theorem copiedTable_added (s : Memory) (hne : pgd ≠ pgt) (i : Nat) (pde : PageEntry)
    (entries : Nat → PageEntry) :
    TableAdded s
      (setEntry (setTable { s with heapUsed := pgt :: s.heapUsed } pgt entries) pgd i pde) pgd pgt
      i pde entries := by
  refine ⟨rfl, rfl, rfl, rfl, fun k => ?_, ?_, fun a ha ha' => ?_⟩
  · simp [hne, Function.update_apply]
  · simp [hne.symm]
  · simp [ha, ha']

theorem TableAdded.mem (h : TableAdded s s' pgd pgt i pde entries) :
    ∀ a ∈ s.heapUsed, a ∈ s'.heapUsed := fun _ ha => h.used ▸ List.mem_cons_of_mem _ ha

/-- The entries of any directory. -/
theorem TableAdded.row (h : TableAdded s s' pgd pgt i pde entries) {d : BitVec 32} (hd : d ≠ pgt)
    (j : Nat) : s'.heap d j = if d = pgd ∧ j = i then pde else s.heap d j := by
  by_cases hpgd : d = pgd
  · subst hpgd
    simp only [h.dir, true_and]
  · rw [h.old d hpgd hd, if_neg fun hc => hpgd hc.1]

end Added

section NewTable

variable {s s' : Memory} {p : Nat} {t : TaskMm} {pgt : BitVec 32} {i : Nat} {pde : PageEntry}
  {entries : Nat → PageEntry}

/-- A new table in the directory of one task changes nobody else's. -/
theorem TableAdded.task_dir (hadd : TableAdded s s' t.mm pgt i pde entries) (hs : TablesOk s)
    (ht : s.tasks p = some t) (hfresh : ∀ o, pageOf s o ≠ some pgt) {q : Nat} {u : TaskMm}
    (hu : s.tasks q = some u) (j : Nat) :
    s'.heap u.mm j = if q = p ∧ j = i then pde else s.heap u.mm j := by
  have hne : u.mm ≠ pgt := fun heq => hfresh _ (heq ▸ pageOf_dir hu)
  have howner : u.mm = t.mm ↔ q = p := by
    constructor
    · exact fun heq =>
        (Prod.mk.inj (hs.distinct _ _ _ (heq ▸ pageOf_dir hu) (pageOf_dir ht))).1
    · rintro rfl
      rw [Option.some.inj (hu.symm.trans ht)]
  rw [hadd.row hne]
  simp only [howner]

theorem TableAdded.tablesOk (hadd : TableAdded s s' t.mm pgt i pde entries) (hs : TablesOk s)
    (ht : s.tasks p = some t) (hfresh : ∀ o, pageOf s o ≠ some pgt) (htable : tableOf pde = pgt)
    (haddr : entryAddr pde ≠ 0) : TablesOk s' := by
  have hpage : ∀ o a, pageOf s' o = some a →
      (o = (p, some i) ∧ a = pgt) ∨ pageOf s o = some a := by
    rintro ⟨q, o⟩ a ha
    cases o with
    | none =>
      refine .inr ?_
      simpa only [pageOf, hadd.tasks] using ha
    | some j =>
      simp only [pageOf, hadd.tasks] at ha ⊢
      obtain ⟨u, hu, ha⟩ := Option.bind_eq_some_iff.mp ha
      rw [hadd.task_dir hs ht hfresh hu] at ha
      by_cases hj : q = p ∧ j = i
      · rw [if_pos hj] at ha
        split at ha
        · rw [htable] at ha
          exact .inl ⟨by rw [hj.1, hj.2], (Option.some.inj ha).symm⟩
        · cases ha
      · rw [if_neg hj] at ha
        rw [hu]
        exact .inr ha
  refine ⟨?_, ?_, ?_⟩
  · intro o a ho
    rcases hpage o a ho with ⟨-, rfl⟩ | hold
    · rw [hadd.used]
      exact List.mem_cons_self
    · exact hadd.mem a (hs.used o a hold)
  · intro o o' a ho ho'
    rcases hpage o a ho with ⟨rfl, rfl⟩ | hold
    · rcases hpage o' a ho' with ⟨rfl, -⟩ | hold'
      · rfl
      · exact absurd hold' (hfresh o')
    · rcases hpage o' a ho' with ⟨-, rfl⟩ | hold'
      · exact absurd hold (hfresh o)
      · exact hs.distinct o o' a hold hold'
  · intro q u j hu hj hne
    rw [hadd.tasks] at hu
    rw [hadd.task_dir hs ht hfresh hu] at hne ⊢
    split
    · exact haddr
    next hother =>
      rw [if_neg hother] at hne
      exact hs.addr q u j hu hj hne

end NewTable

/-- A directory entry that was 0 gets a new table with one entry. -/
theorem newTable_entrySet {s : Memory} (hs : TablesOk s) {p addr : Nat} {t : TaskMm}
    (ht : s.tasks p = some t) (hpde : s.heap t.mm (pdeIndex addr) = 0)
    {pgt : BitVec 32} (hpgt : A.naMalloc s = some pgt) (e : PageEntry) :
    EntrySet s
      (setEntry (setEntry (setTable { s with heapUsed := pgt :: s.heapUsed } pgt fun _ => 0) pgt
        (pteIndex addr) e) t.mm (pdeIndex addr) (createPde (kv2p pgt) 1 1)) p (addr / 4096) e := by
  have hfresh : ∀ o, pageOf s o ≠ some pgt := fun o ho =>
    A.naMalloc_unused s pgt hpgt (hs.used o pgt ho)
  have hmm : t.mm ≠ pgt := fun heq => hfresh _ (heq ▸ pageOf_dir ht)
  have htable : tableOf (createPde (kv2p pgt) 1 1) = pgt :=
    tableOf_createPde (A.naMalloc_aligned s pgt hpgt)
  have hadd := newTable_added s hmm (pdeIndex addr) (pteIndex addr) (createPde (kv2p pgt) 1 1) e
  generalize setEntry (setEntry (setTable { s with heapUsed := pgt :: s.heapUsed } pgt
    fun _ => 0) pgt (pteIndex addr) e) t.mm (pdeIndex addr) (createPde (kv2p pgt) 1 1) = s'
    at hadd ⊢
  refine ⟨hadd.tablesOk hs ht hfresh htable ?_, hadd.tasks, hadd.frames, hadd.history,
    fun q u a hu ha => ?_⟩
  · exact entryAddr_createPde_ne_zero (A.naMalloc_aligned s pgt hpgt)
      (A.naMalloc_window s pgt hpgt).1
  · have hpd := hadd.task_dir hs ht hfresh hu (pdeIndex a)
    by_cases hi : q = p ∧ pdeIndex a = pdeIndex addr
    · rw [if_pos hi] at hpd
      obtain ⟨rfl, hidx⟩ := hi
      obtain rfl := Option.some.inj (hu.symm.trans ht)
      have hold : entryAt s u.mm a = 0 := by rw [entryAt, if_pos (hidx ▸ hpde)]
      rw [hold, entryAt, hpd, if_neg (createPde_ne_zero _), htable, hadd.table,
        Function.update_apply]
      by_cases hpte : pteIndex a = pteIndex addr
      · rw [if_pos hpte, if_pos ⟨rfl, page_eq_of_index hidx hpte⟩]
      · rw [if_neg hpte, if_neg]
        rintro ⟨-, hpg⟩
        exact hpte (by rw [pteIndex, pteIndex, hpg])
    · have hnot : ¬ (q = p ∧ a / 4096 = addr / 4096) := by
        rintro ⟨hq, hpg⟩
        exact hi ⟨hq, by rw [pdeIndex_eq, pdeIndex_eq, hpg]⟩
      rw [if_neg hi] at hpd
      rw [if_neg hnot, entryAt, entryAt, hpd]
      by_cases hzero : s.heap u.mm (pdeIndex a) = 0
      · rw [if_pos hzero, if_pos hzero]
      · have hin := pageOf_table hu (pdeIndex_lt ha) hzero
        rw [if_neg hzero, if_neg hzero, hadd.old]
        · intro heq
          have := hs.distinct _ _ _ (heq ▸ hin) (pageOf_dir ht)
          simp at this
        · exact fun heq => hfresh _ (heq ▸ hin)

/-- `map_page` at a user address. -/
theorem mapPage_entrySet {s s' : Memory} (hs : TablesOk s) {p addr : Nat} {t : TaskMm}
    (ht : s.tasks p = some t) (haddr : addr < virtBase) {phys : BitVec 32}
    (h : mapPage A s t.mm phys addr 1 = some s') :
    EntrySet s s' p (addr / 4096) (createPte phys 1 1) := by
  unfold mapPage at h
  dsimp only at h
  split at h
  next hpde =>
    rw [sshiftRight_eq_entryAddr] at h
    rw [← Option.some.inj h]
    exact setEntry_entrySet hs ht haddr hpde _
  next hpde =>
    obtain ⟨⟨pgt, s₁⟩, hmalloc, rfl⟩ := Option.map_eq_some_iff.mp h
    obtain ⟨hpgt, rfl⟩ := naMallocPage_some hmalloc
    exact newTable_entrySet hs ht (not_not.mp hpde) hpgt _

/-! ## fork -/

/-- What the inner loop leaves of a table. -/
def markedTable (es : Nat → PageEntry) : Nat → PageEntry := fun j =>
  if j < 1024 then markCow (if j = 0 then pdeMarkWriteable (es 0) else es j) else es j

/-- The inner loop treats every entry once. -/
theorem markEntries_heap (s : Memory) (table : BitVec 32) (n : Nat) :
    ((List.range n).foldl (fun s j => setEntry s table j (markCow (s.heap table j))) s).heap =
      Function.update s.heap table fun j =>
        if j < n then markCow (s.heap table j) else s.heap table j := by
  induction n with
  | zero => simp
  | succ n ih =>
    rw [List.range_succ, List.foldl_append, List.foldl_cons, List.foldl_nil, setEntry_heap, ih]
    simp only [Function.update_self, Function.update_idem]
    congr 1
    ext1 j
    rw [Function.update_apply]
    by_cases hj : j = n
    · subst hj
      rw [if_pos rfl, if_neg (lt_irrefl j), if_pos (Nat.lt_succ_self j)]
    · rw [if_neg hj]
      refine if_congr ?_ rfl rfl
      omega

theorem markTableCow_heap (s : Memory) (table : BitVec 32) :
    (markTableCow s table).heap =
      Function.update s.heap table (markedTable (s.heap table)) := by
  rw [markTableCow, markEntries_heap]
  simp only [setEntry_heap, Function.update_self, Function.update_idem]
  congr 1
  ext1 j
  simp only [markedTable, Function.update_apply]
  split
  · rfl
  · rw [if_neg (by omega)]

/-- The tables of a directory are pages of their own. -/
structure OwnTables (s : Memory) (pgd : BitVec 32) : Prop where
  ne_dir : ∀ i < 768, s.heap pgd i ≠ 0 → tableOf (s.heap pgd i) ≠ pgd
  inj : ∀ i < 768, ∀ j < 768, s.heap pgd i ≠ 0 → s.heap pgd j ≠ 0 →
    tableOf (s.heap pgd i) = tableOf (s.heap pgd j) → i = j

/-- The page is one of the first `n` tables of the directory. -/
def IsTable (s : Memory) (pgd : BitVec 32) (n : Nat) (a : BitVec 32) : Prop :=
  ∃ i < n, s.heap pgd i ≠ 0 ∧ tableOf (s.heap pgd i) = a

open Classical in
theorem markTables_heap {s : Memory} {pgd : BitVec 32} (h : OwnTables s pgd) {n : Nat}
    (hn : n ≤ 768) (a : BitVec 32) :
    ((List.range n).foldl
      (fun s i => if s.heap pgd i ≠ 0 then markTableCow s (tableOf (s.heap pgd i)) else s) s).heap a =
      if IsTable s pgd n a then markedTable (s.heap a) else s.heap a := by
  induction n generalizing a with
  | zero =>
    rw [if_neg]
    · rfl
    · rintro ⟨i, hi, -⟩
      exact absurd hi (Nat.not_lt_zero i)
  | succ n ih =>
    have ih := ih (by omega)
    rw [List.range_succ, List.foldl_append, List.foldl_cons, List.foldl_nil]
    generalize (List.range n).foldl _ s = s₁ at ih ⊢
    have hdir : s₁.heap pgd = s.heap pgd := by
      rw [ih, if_neg]
      rintro ⟨i, hi, hne, heq⟩
      exact h.ne_dir i (by omega) hne heq
    rw [hdir]
    by_cases hzero : s.heap pgd n = 0
    · rw [if_neg (not_not_intro hzero), ih]
      refine if_congr ⟨?_, ?_⟩ rfl rfl
      · rintro ⟨i, hi, hrest⟩
        exact ⟨i, by omega, hrest⟩
      · rintro ⟨i, hi, hne, heq⟩
        rcases Nat.lt_succ_iff_lt_or_eq.mp hi with hlt | rfl
        · exact ⟨i, hlt, hne, heq⟩
        · exact absurd hzero hne
    · rw [if_pos hzero, markTableCow_heap, Function.update_apply]
      by_cases ha : a = tableOf (s.heap pgd n)
      · have hnew : ¬ IsTable s pgd n a := by
          rintro ⟨i, hi, hne, heq⟩
          have := h.inj i (by omega) n (by omega) hne hzero (heq.trans ha)
          omega
        have hold := ih a
        rw [if_neg hnew] at hold
        rw [if_pos ha, ← ha, hold, if_pos ⟨n, Nat.lt_succ_self n, hzero, ha.symm⟩]
      · rw [if_neg ha, ih]
        refine if_congr ⟨?_, ?_⟩ rfl rfl
        · rintro ⟨i, hi, hrest⟩
          exact ⟨i, by omega, hrest⟩
        · rintro ⟨i, hi, hne, heq⟩
          rcases Nat.lt_succ_iff_lt_or_eq.mp hi with hlt | rfl
          · exact ⟨i, hlt, hne, heq⟩
          · exact absurd heq.symm ha

open Classical in
/-- `mark_all_user_pages_cow` marks the tables of the directory, each once. -/
theorem markAllUserPagesCow_heap {s : Memory} {pgd : BitVec 32} (h : OwnTables s pgd)
    (a : BitVec 32) :
    (markAllUserPagesCow s pgd).heap a =
      if IsTable s pgd 768 a then markedTable (s.heap a) else s.heap a := by
  unfold markAllUserPagesCow
  rw [markTables_heap h (Nat.le_refl _) a]

/-- Marking changes nothing but the heap. -/
theorem markAllUserPagesCow_frame (s : Memory) (pgd : BitVec 32) :
    (markAllUserPagesCow s pgd).tasks = s.tasks ∧ (markAllUserPagesCow s pgd).frames = s.frames ∧
      (markAllUserPagesCow s pgd).history = s.history ∧
      (markAllUserPagesCow s pgd).heapUsed = s.heapUsed := by
  let Same (s₁ : Memory) : Prop := s₁.tasks = s.tasks ∧ s₁.frames = s.frames ∧
    s₁.history = s.history ∧ s₁.heapUsed = s.heapUsed
  have hentry : ∀ t (js : List Nat) s₁, Same s₁ →
      Same (js.foldl (fun s j => setEntry s t j (markCow (s.heap t j))) s₁) := by
    intro t js
    induction js with
    | nil => exact fun s₁ hs₁ => hs₁
    | cons j js ih => exact fun s₁ hs₁ => ih _ hs₁
  have htable : ∀ (is : List Nat) s₁, Same s₁ → Same (is.foldl
      (fun s i => if s.heap pgd i ≠ 0 then markTableCow s (tableOf (s.heap pgd i)) else s) s₁) := by
    intro is
    induction is with
    | nil => exact fun s₁ hs₁ => hs₁
    | cons i is ih =>
      intro s₁ hs₁
      rw [List.foldl_cons]
      apply ih
      split
      · exact hentry _ _ _ hs₁
      · exact hs₁
  exact htable _ s ⟨rfl, rfl, rfl, rfl⟩

/-- The directory entry `i` of `ret` now has a new table, a copy of `table`. -/
structure TableCopied (s s' : Memory) (ret : BitVec 32) (i : Nat) (table : BitVec 32) : Prop where
  pde : s'.heap ret i ≠ 0
  addr : entryAddr (s'.heap ret i) ≠ 0
  fresh : tableOf (s'.heap ret i) ∉ s.heapUsed
  used : tableOf (s'.heap ret i) ∈ s'.heapUsed
  content : s'.heap (tableOf (s'.heap ret i)) = s.heap table

/-- The loop of `copy_page_dir` over the indices `is`. -/
structure TablesCopied (s s' : Memory) (ret : BitVec 32) (is : List Nat) : Prop where
  tasks : s'.tasks = s.tasks
  frames : s'.frames = s.frames
  history : s'.history = s.history
  used : ∀ a ∈ s.heapUsed, a ∈ s'.heapUsed
  old : ∀ a ∈ s.heapUsed, a ≠ ret → s'.heap a = s.heap a
  other : ∀ i, i ∉ is → s'.heap ret i = s.heap ret i
  zero : ∀ i ∈ is, s.heap ret i = 0 → s'.heap ret i = 0
  copied : ∀ i ∈ is, s.heap ret i ≠ 0 → TableCopied s s' ret i (tableOf (s.heap ret i))
  inj : ∀ i ∈ is, ∀ j ∈ is, s.heap ret i ≠ 0 → s.heap ret j ≠ 0 →
    tableOf (s'.heap ret i) = tableOf (s'.heap ret j) → i = j

theorem copyPt_some {s s' : Memory} {orig e : PageEntry} (h : copyPt A s orig = some (e, s')) :
    ∃ new, A.naMalloc s = some new ∧ e = createPde (kv2p new) 1 1 ∧
      s' = setTable { s with heapUsed := new :: s.heapUsed } new (s.heap (tableOf orig)) := by
  unfold copyPt at h
  obtain ⟨⟨new, s₁⟩, hmalloc, heq⟩ := Option.map_eq_some_iff.mp h
  obtain ⟨hnew, rfl⟩ := naMallocPage_some hmalloc
  obtain ⟨rfl, rfl⟩ := Prod.mk.inj heq
  exact ⟨new, hnew, rfl, rfl⟩

/-- A slot without a table is left as it is. -/
theorem TablesCopied.cons_zero {s s' : Memory} {ret : BitVec 32} {i : Nat} {is : List Nat}
    (h : TablesCopied s s' ret is) (hi : i ∉ is) (hpde : s.heap ret i = 0) :
    TablesCopied s s' ret (i :: is) := by
  have hhead : s'.heap ret i = 0 := (h.other i hi).trans hpde
  refine ⟨h.tasks, h.frames, h.history, h.used, h.old, ?_, ?_, ?_, ?_⟩
  · intro j hj
    exact h.other j fun hmem => hj (List.mem_cons_of_mem _ hmem)
  · intro j hj hzero
    rcases List.mem_cons.mp hj with rfl | hj
    · exact hhead
    · exact h.zero j hj hzero
  · intro j hj hne
    rcases List.mem_cons.mp hj with rfl | hj
    · exact absurd hpde hne
    · exact h.copied j hj hne
  · intro j hj k hk hjne hkne heq
    rcases List.mem_cons.mp hj with rfl | hj
    · exact absurd hpde hjne
    · rcases List.mem_cons.mp hk with rfl | hk
      · exact absurd hpde hkne
      · exact h.inj j hj k hk hjne hkne heq

/-- A slot with a table gets a new one, with the same entries. -/
theorem TablesCopied.cons_added {s s₂ s' : Memory} {ret new : BitVec 32} {i : Nat} {is : List Nat}
    (h : TablesCopied s₂ s' ret is) (hi : i ∉ is) (hret : ret ∈ s.heapUsed)
    (hnew : A.naMalloc s = some new) (hpde : s.heap ret i ≠ 0)
    (hadd : TableAdded s s₂ ret new i (createPde (kv2p new) 1 1)
      (s.heap (tableOf (s.heap ret i))))
    (hsrc : ∀ j ∈ is, s.heap ret j ≠ 0 →
      tableOf (s.heap ret j) ∈ s.heapUsed ∧ tableOf (s.heap ret j) ≠ ret) :
    TablesCopied s s' ret (i :: is) := by
  have hfresh := A.naMalloc_unused s new hnew
  have haligned := A.naMalloc_aligned s new hnew
  have hnew_ret : new ≠ ret := fun heq => hfresh (heq ▸ hret)
  have hold : ∀ a ∈ s.heapUsed, a ≠ ret → s₂.heap a = s.heap a := fun a ha hne =>
    hadd.old a hne fun heq => hfresh (heq ▸ ha)
  have hrest : ∀ j ∈ is, s₂.heap ret j = s.heap ret j := fun j hj => by
    rw [hadd.dir, if_neg fun heq : j = i => hi (heq ▸ hj)]
  have hhead : s'.heap ret i = createPde (kv2p new) 1 1 := by
    rw [h.other i hi, hadd.dir, if_pos rfl]
  have htable : tableOf (s'.heap ret i) = new := by rw [hhead, tableOf_createPde haligned]
  have hnew_used : new ∈ s₂.heapUsed := hadd.used ▸ List.mem_cons_self
  refine ⟨h.tasks.trans hadd.tasks, h.frames.trans hadd.frames, h.history.trans hadd.history,
    fun a ha => h.used a (hadd.mem a ha), ?_, ?_, ?_, ?_, ?_⟩
  · intro a ha hne
    rw [h.old a (hadd.mem a ha) hne, hold a ha hne]
  · intro j hj
    rw [List.mem_cons, not_or] at hj
    rw [h.other j hj.2, hadd.dir, if_neg hj.1]
  · intro j hj hzero
    rcases List.mem_cons.mp hj with rfl | hj
    · exact absurd hzero hpde
    · exact h.zero j hj ((hrest j hj).trans hzero)
  · intro j hj hne
    rcases List.mem_cons.mp hj with rfl | hj
    · refine ⟨hhead ▸ createPde_ne_zero _, ?_, htable ▸ hfresh, ?_, ?_⟩
      · rw [hhead]
        exact entryAddr_createPde_ne_zero haligned (A.naMalloc_window s new hnew).1
      · rw [htable]
        exact h.used new hnew_used
      · rw [htable, h.old new hnew_used hnew_ret, hadd.table]
    · have hj' := h.copied j hj (by rw [hrest j hj]; exact hne)
      obtain ⟨hju, hjn⟩ := hsrc j hj hne
      refine ⟨hj'.pde, hj'.addr, fun hmem => hj'.fresh (hadd.mem _ hmem), hj'.used, ?_⟩
      rw [hj'.content, hrest j hj, hold _ hju hjn]
  · -- the new table of `i` was in use when the others were made
    have hcross : ∀ j ∈ is, s.heap ret j ≠ 0 →
        tableOf (s'.heap ret i) ≠ tableOf (s'.heap ret j) := by
      intro j hj hne heq
      have hj' := h.copied j hj (by rw [hrest j hj]; exact hne)
      rw [htable] at heq
      exact hj'.fresh (heq ▸ hnew_used)
    intro j hj k hk hjne hkne heq
    rcases List.mem_cons.mp hj with rfl | hjs
    · rcases List.mem_cons.mp hk with rfl | hks
      · rfl
      · exact absurd heq (hcross k hks hkne)
    · rcases List.mem_cons.mp hk with rfl | hks
      · exact absurd heq.symm (hcross j hjs hjne)
      · exact h.inj j hjs k hks (by rw [hrest j hjs]; exact hjne)
          (by rw [hrest k hks]; exact hkne) heq

theorem copyTables_spec {ret : BitVec 32} {is : List Nat} {s s' : Memory}
    (h : copyTables A ret is s = some s') (hnodup : is.Nodup) (hret : ret ∈ s.heapUsed)
    (hsrc : ∀ i ∈ is, s.heap ret i ≠ 0 →
      tableOf (s.heap ret i) ∈ s.heapUsed ∧ tableOf (s.heap ret i) ≠ ret) :
    TablesCopied s s' ret is := by
  induction is generalizing s with
  | nil =>
    obtain rfl := Option.some.inj h
    exact ⟨rfl, rfl, rfl, fun _ ha => ha, fun _ _ _ => rfl, fun _ _ => rfl, by simp, by simp,
      by simp⟩
  | cons i is ih =>
    obtain ⟨hi, hnodup⟩ := List.nodup_cons.mp hnodup
    have hsrc' : ∀ j ∈ is, s.heap ret j ≠ 0 →
        tableOf (s.heap ret j) ∈ s.heapUsed ∧ tableOf (s.heap ret j) ≠ ret := fun j hj =>
      hsrc j (List.mem_cons_of_mem _ hj)
    unfold copyTables at h
    split at h
    next hpde =>
      obtain ⟨⟨e, s₁⟩, hcopy, h⟩ := Option.bind_eq_some_iff.mp h
      obtain ⟨new, hnew, rfl, rfl⟩ := copyPt_some hcopy
      have hret_new : ret ≠ new := fun heq => A.naMalloc_unused s new hnew (heq ▸ hret)
      have hadd := copiedTable_added s hret_new i (createPde (kv2p new) 1 1)
        (s.heap (tableOf (s.heap ret i)))
      -- the state the rest of the loop starts from
      generalize setEntry (setTable { s with heapUsed := new :: s.heapUsed } new
        (s.heap (tableOf (s.heap ret i)))) ret i (createPde (kv2p new) 1 1) = s₂ at h hadd
      have hcopied := ih h hnodup (hadd.mem ret hret) (by
        intro j hj hne
        rw [hadd.dir, if_neg fun heq : j = i => hi (heq ▸ hj)] at hne ⊢
        obtain ⟨hju, hjn⟩ := hsrc' j hj hne
        exact ⟨hadd.mem _ hju, hjn⟩)
      exact hcopied.cons_added hi hret hnew hpde hadd hsrc'
    next hpde => exact (ih h hnodup hret hsrc').cons_zero hi (not_not.mp hpde)

/-- A new directory, with new tables for those of `orig` below `VIRT_BASE`. -/
structure PageDirCopied (s s' : Memory) (orig ret : BitVec 32) : Prop where
  tasks : s'.tasks = s.tasks
  frames : s'.frames = s.frames
  history : s'.history = s.history
  fresh : ret ∉ s.heapUsed
  ret_used : ret ∈ s'.heapUsed
  used : ∀ a ∈ s.heapUsed, a ∈ s'.heapUsed
  old : ∀ a ∈ s.heapUsed, s'.heap a = s.heap a
  zero : ∀ i < 768, s.heap orig i = 0 → s'.heap ret i = 0
  copied : ∀ i < 768, s.heap orig i ≠ 0 → TableCopied s s' ret i (tableOf (s.heap orig i))
  ne_dir : ∀ i < 768, s.heap orig i ≠ 0 → tableOf (s'.heap ret i) ≠ ret
  inj : ∀ i < 768, ∀ j < 768, s.heap orig i ≠ 0 → s.heap orig j ≠ 0 →
    tableOf (s'.heap ret i) = tableOf (s'.heap ret j) → i = j

/-- What `copy_page_dir` makes of a directory whose tables are in use. -/
theorem copyPageDir_spec {s s' : Memory} {orig ret : BitVec 32}
    (h : copyPageDir A s orig = some (ret, s')) (horig : orig ∈ s.heapUsed)
    (htables : ∀ i < 768, s.heap orig i ≠ 0 → tableOf (s.heap orig i) ∈ s.heapUsed) :
    PageDirCopied s s' orig ret := by
  unfold copyPageDir at h
  obtain ⟨⟨ret', s₁⟩, hmalloc, h⟩ := Option.bind_eq_some_iff.mp h
  obtain ⟨hret, rfl⟩ := naMallocPage_some hmalloc
  obtain ⟨s₂, hcopy, heq⟩ := Option.map_eq_some_iff.mp h
  obtain ⟨rfl, rfl⟩ := Prod.mk.inj heq
  have hfresh := A.naMalloc_unused s ret' hret
  have hne : ∀ a ∈ s.heapUsed, a ≠ ret' := fun a ha heq => hfresh (heq ▸ ha)
  -- the state that the loop over the tables starts from
  have hstart : setTable (setTable { s with heapUsed := ret' :: s.heapUsed } ret' fun _ => 0) ret'
      ((setTable { s with heapUsed := ret' :: s.heapUsed } ret' fun _ => 0).heap orig) =
        setTable { s with heapUsed := ret' :: s.heapUsed } ret' (s.heap orig) := by
    simp only [setTable, Function.update_idem, Function.update_of_ne (hne orig horig)]
  dsimp only at hcopy
  rw [hstart] at hcopy
  have hframe : ∀ s₀ : Memory, setTable { s with heapUsed := ret' :: s.heapUsed } ret'
      (s.heap orig) = s₀ → s₀.tasks = s.tasks ∧ s₀.frames = s.frames ∧ s₀.history = s.history ∧
        s₀.heapUsed = ret' :: s.heapUsed ∧ s₀.heap ret' = s.heap orig ∧
          ∀ a ∈ s.heapUsed, s₀.heap a = s.heap a := by
    rintro s₀ rfl
    refine ⟨rfl, rfl, rfl, rfl, Function.update_self .., fun a ha => ?_⟩
    rw [setTable_heap, Function.update_of_ne (hne a ha)]
  generalize hs₀ : setTable { s with heapUsed := ret' :: s.heapUsed } ret' (s.heap orig) = s₀
    at hcopy
  obtain ⟨htasks, hframes, hhistory, hused, hrow, hheap⟩ := hframe s₀ hs₀
  have hmem : ∀ a ∈ s.heapUsed, a ∈ s₀.heapUsed := fun a ha => hused ▸ List.mem_cons_of_mem _ ha
  have hret_mem : ret' ∈ s₀.heapUsed := hused ▸ List.mem_cons_self
  have hspec := copyTables_spec hcopy List.nodup_range hret_mem (by
    intro i hi hpde
    rw [List.mem_range] at hi
    rw [hrow] at hpde ⊢
    have hin := htables i hi hpde
    exact ⟨hmem _ hin, hne _ hin⟩)
  have hcopied : ∀ i < 768, s.heap orig i ≠ 0 →
      TableCopied s₀ s₂ ret' i (tableOf (s.heap orig i)) := fun i hi hpde => by
    have hslot := hspec.copied i (List.mem_range.mpr hi) (by rwa [hrow])
    rwa [hrow] at hslot
  constructor
  case tasks => exact hspec.tasks.trans htasks
  case frames => exact hspec.frames.trans hframes
  case history => exact hspec.history.trans hhistory
  case fresh => exact hfresh
  case ret_used => exact hspec.used ret' hret_mem
  case used => exact fun a ha => hspec.used a (hmem a ha)
  case old => exact fun a ha => (hspec.old a (hmem a ha) (hne a ha)).trans (hheap a ha)
  case zero => exact fun i hi hpde => hspec.zero i (List.mem_range.mpr hi) (by rwa [hrow])
  case copied =>
    intro i hi hpde
    obtain ⟨hne₀, haddr, hnew, hin, hcontent⟩ := hcopied i hi hpde
    exact ⟨hne₀, haddr, fun ha => hnew (hmem _ ha), hin,
      hcontent.trans (hheap _ (htables i hi hpde))⟩
  case ne_dir => exact fun i hi hpde heq => (hcopied i hi hpde).fresh (heq ▸ hret_mem)
  case inj =>
    intro i hi j hj hpi hpj heq
    exact hspec.inj i (List.mem_range.mpr hi) j (List.mem_range.mpr hj) (by rwa [hrow])
      (by rwa [hrow]) heq

theorem cellOf_markedTable (es : Nat → PageEntry) {j : Nat} (hj : j < 1024) :
    cellOf (markedTable es j) = (cellOf (es j)).map fun e => (e.1, false) := by
  rw [markedTable, if_pos hj]
  split
  next hzero => rw [cellOf_markCow_pdeMarkWriteable, hzero]
  next => rw [cellOf_markCow]

/-- The heap after `copy_page_dir` and the marking of both directories. -/
structure DirForked (s s' : Memory) (orig ret : BitVec 32) : Prop where
  tasks : s'.tasks = s.tasks
  frames : s'.frames = s.frames
  history : s'.history = s.history
  used : ∀ a ∈ s.heapUsed, a ∈ s'.heapUsed
  ret_fresh : ret ∉ s.heapUsed
  ret_used : ret ∈ s'.heapUsed
  table : ∀ i < 768, s.heap orig i ≠ 0 →
    s'.heap (tableOf (s.heap orig i)) = markedTable (s.heap (tableOf (s.heap orig i)))
  other : ∀ a ∈ s.heapUsed, (∀ i < 768, s.heap orig i ≠ 0 → tableOf (s.heap orig i) ≠ a) →
    s'.heap a = s.heap a
  zero : ∀ i < 768, s.heap orig i = 0 → s'.heap ret i = 0
  pde : ∀ i < 768, s.heap orig i ≠ 0 → s'.heap ret i ≠ 0
  addr : ∀ i < 768, s.heap orig i ≠ 0 → entryAddr (s'.heap ret i) ≠ 0
  new_fresh : ∀ i < 768, s.heap orig i ≠ 0 →
    tableOf (s'.heap ret i) ∉ s.heapUsed ∧ tableOf (s'.heap ret i) ≠ ret
  new_used : ∀ i < 768, s.heap orig i ≠ 0 → tableOf (s'.heap ret i) ∈ s'.heapUsed
  new_table : ∀ i < 768, s.heap orig i ≠ 0 →
    s'.heap (tableOf (s'.heap ret i)) = markedTable (s.heap (tableOf (s.heap orig i)))
  new_inj : ∀ i < 768, ∀ j < 768, s.heap orig i ≠ 0 → s.heap orig j ≠ 0 →
    tableOf (s'.heap ret i) = tableOf (s'.heap ret j) → i = j

theorem copyPageDir_mark {s s' : Memory} {orig ret : BitVec 32}
    (h : copyPageDir A s orig = some (ret, s')) (horig : orig ∈ s.heapUsed)
    (htables : ∀ i < 768, s.heap orig i ≠ 0 → tableOf (s.heap orig i) ∈ s.heapUsed)
    (hown : OwnTables s orig) :
    DirForked s (markAllUserPagesCow (markAllUserPagesCow s' orig) ret) orig ret := by
  have hd := copyPageDir_spec h horig htables
  have hpde_iff : ∀ i < 768, s'.heap ret i ≠ 0 → s.heap orig i ≠ 0 :=
    fun i hi hne hz => hne (hd.zero i hi hz)
  have hnew : ∀ i < 768, s.heap orig i ≠ 0 →
      tableOf (s'.heap ret i) ∉ s.heapUsed ∧ tableOf (s'.heap ret i) ≠ ret :=
    fun i hi hpde => ⟨(hd.copied i hi hpde).fresh, hd.ne_dir i hi hpde⟩
  -- the first marking
  have hown₁ : OwnTables s' orig := by
    constructor
    · rw [hd.old orig horig]
      exact hown.ne_dir
    · rw [hd.old orig horig]
      exact hown.inj
  generalize hs₁ : markAllUserPagesCow s' orig = s₁
  have hheap₁ := markAllUserPagesCow_heap hown₁
  obtain ⟨htasks₁, hframes₁, hhist₁, hused₁⟩ := markAllUserPagesCow_frame s' orig
  rw [hs₁] at hheap₁ htasks₁ hframes₁ hhist₁ hused₁
  have hisTable : ∀ a, IsTable s' orig 768 a → a ∈ s.heapUsed := by
    rintro a ⟨i, hi, hpde, rfl⟩
    rw [hd.old orig horig] at hpde ⊢
    exact htables i hi hpde
  have hkeep₁ : ∀ a, a ∉ s.heapUsed → s₁.heap a = s'.heap a := by
    intro a ha
    rw [hheap₁, if_neg fun hc => ha (hisTable a hc)]
  -- the second marking
  have hown₂ : OwnTables s₁ ret := by
    constructor
    · rw [hkeep₁ ret hd.fresh]
      exact fun i hi hpde => (hnew i hi (hpde_iff i hi hpde)).2
    · rw [hkeep₁ ret hd.fresh]
      intro i hi j hj hpi hpj heq
      exact hd.inj i hi j hj (hpde_iff i hi hpi) (hpde_iff j hj hpj) heq
  have hheap₂ := markAllUserPagesCow_heap hown₂
  obtain ⟨htasks₂, hframes₂, hhist₂, hused₂⟩ := markAllUserPagesCow_frame s₁ ret
  generalize markAllUserPagesCow s₁ ret = s₂ at hheap₂ htasks₂ hframes₂ hhist₂ hused₂
  have hisNew : ∀ a, IsTable s₁ ret 768 a → a ∉ s.heapUsed ∧ a ≠ ret := by
    rintro a ⟨i, hi, hpde, rfl⟩
    rw [hkeep₁ ret hd.fresh] at hpde ⊢
    exact hnew i hi (hpde_iff i hi hpde)
  have hkeep₂ : ∀ a ∈ s.heapUsed, s₂.heap a = s₁.heap a := by
    intro a ha
    rw [hheap₂, if_neg fun hc => (hisNew a hc).1 ha]
  have hret₂ : s₂.heap ret = s'.heap ret := by
    rw [hheap₂, if_neg fun hc => (hisNew ret hc).2 rfl, hkeep₁ ret hd.fresh]
  constructor
  case tasks => rw [htasks₂, htasks₁, hd.tasks]
  case frames => rw [hframes₂, hframes₁, hd.frames]
  case history => rw [hhist₂, hhist₁, hd.history]
  case used =>
    rw [hused₂, hused₁]
    exact hd.used
  case ret_fresh => exact hd.fresh
  case ret_used =>
    rw [hused₂, hused₁]
    exact hd.ret_used
  case table =>
    intro i hi hpde
    have hmem := htables i hi hpde
    rw [hkeep₂ _ hmem, hheap₁, if_pos, hd.old _ hmem]
    exact ⟨i, hi, by rw [hd.old orig horig]; exact hpde, by rw [hd.old orig horig]⟩
  case other =>
    intro a ha hnot
    rw [hkeep₂ a ha, hheap₁, if_neg, hd.old a ha]
    rintro ⟨i, hi, hpde, heq⟩
    rw [hd.old orig horig] at hpde heq
    exact hnot i hi hpde heq
  case zero =>
    rw [hret₂]
    exact hd.zero
  case pde =>
    rw [hret₂]
    exact fun i hi hpde => (hd.copied i hi hpde).pde
  case addr =>
    rw [hret₂]
    exact fun i hi hpde => (hd.copied i hi hpde).addr
  case new_fresh =>
    rw [hret₂]
    exact hnew
  case new_used =>
    rw [hret₂, hused₂, hused₁]
    exact fun i hi hpde => (hd.copied i hi hpde).used
  case new_table =>
    intro i hi hpde
    have htable : IsTable s₁ ret 768 (tableOf (s'.heap ret i)) := by
      refine ⟨i, hi, ?_⟩
      rw [hkeep₁ ret hd.fresh]
      exact ⟨(hd.copied i hi hpde).pde, rfl⟩
    rw [hret₂, hheap₂, if_pos htable, hkeep₁ _ (hnew i hi hpde).1, (hd.copied i hi hpde).content]
  case new_inj =>
    rw [hret₂]
    exact hd.inj

/-- The effect of a fork on the tables: the child gets its own directory and
tables, and both have the parent's frames without write access. -/
structure Forked (s s' : Memory) (parent child : Nat) (t t' : TaskMm) : Prop where
  ok : TablesOk s'
  tasks : s'.tasks = Function.update s.tasks child (some t')
  frames : s'.frames = s.frames
  history : s'.history = .forked parent child :: s.history
  other : ∀ q u a, s.tasks q = some u → q ≠ parent → a < virtBase →
    entryAt s' u.mm a = entryAt s u.mm a
  both : ∀ a < virtBase, ∀ m, m = t.mm ∨ m = t'.mm →
    cellOf (entryAt s' m a) = (cellOf (entryAt s t.mm a)).map fun e => (e.1, false)

theorem ownTables_of_task {s : Memory} (hs : TablesOk s) {p : Nat} {t : TaskMm}
    (ht : s.tasks p = some t) : OwnTables s t.mm := by
  constructor
  · intro i hi hne heq
    have := hs.distinct _ _ _ (heq ▸ pageOf_table ht hi hne) (pageOf_dir ht)
    simp at this
  · intro i hi j hj hpi hpj heq
    have := hs.distinct _ _ _ (heq ▸ pageOf_table ht hi hpi) (pageOf_table ht hj hpj)
    exact Option.some.inj (Prod.mk.inj this).2

/-- The tables after the child has been put in its place. -/
theorem DirForked.forked {s s₂ : Memory} {t t' : TaskMm} {ret : BitVec 32}
    (hd : DirForked s s₂ t.mm ret) (hs : TablesOk s) {p c : Nat} (ht : s.tasks p = some t)
    (hc : s.tasks c = none) (ht' : t'.mm = ret) :
    Forked s (record (setTask s₂ c t') (.forked p c)) p c t t' := by
  -- directories of the old tasks are no tables of the parent
  have hdir : ∀ q u, s.tasks q = some u → s₂.heap u.mm = s.heap u.mm := by
    intro q u hu
    refine hd.other u.mm (hs.used _ _ (pageOf_dir hu)) fun i hi hne heq => ?_
    have := hs.distinct _ _ _ (heq ▸ pageOf_table ht hi hne) (pageOf_dir hu)
    simp at this
  have hret_pde : ∀ i < 768, s₂.heap ret i ≠ 0 → s.heap t.mm i ≠ 0 :=
    fun i hi hne hz => hne (hd.zero i hi hz)
  generalize hs' : record (setTask s₂ c t') (.forked p c) = s'
  have hheap : s'.heap = s₂.heap := by
    subst hs'
    rfl
  have hused : s'.heapUsed = s₂.heapUsed := by
    subst hs'
    rfl
  have htasks : s'.tasks = Function.update s.tasks c (some t') := by
    subst hs'
    exact congrArg (fun f => Function.update f c (some t')) hd.tasks
  have hpage : ∀ o a, pageOf s' o = some a → pageOf s o = some a ∨ (o = (c, none) ∧ a = ret) ∨
      ∃ i < 768, s.heap t.mm i ≠ 0 ∧ o = (c, some i) ∧ a = tableOf (s₂.heap ret i) := by
    rintro ⟨q, o⟩ a ha
    by_cases hq : q = c
    · subst hq
      cases o with
      | none =>
        simp only [pageOf, htasks, Function.update_self, Option.map_some, ht'] at ha
        exact .inr (.inl ⟨rfl, (Option.some.inj ha).symm⟩)
      | some i =>
        simp only [pageOf, htasks, Function.update_self, Option.bind_some, ht', hheap] at ha
        split at ha
        next hi =>
          exact .inr (.inr ⟨i, hi.1, hret_pde i hi.1 hi.2, rfl, (Option.some.inj ha).symm⟩)
        next => cases ha
    · refine .inl ?_
      cases o with
      | none => simpa only [pageOf, htasks, Function.update_of_ne hq] using ha
      | some i =>
        simp only [pageOf, htasks, Function.update_of_ne hq, hheap] at ha ⊢
        obtain ⟨u, hu, ha⟩ := Option.bind_eq_some_iff.mp ha
        rw [hdir q u hu] at ha
        rw [hu]
        exact ha
  refine ⟨⟨?_, ?_, ?_⟩, htasks, by subst hs'; exact hd.frames,
    by subst hs'; exact congrArg _ hd.history, ?_, ?_⟩
  · intro o a ho
    rw [hused]
    rcases hpage o a ho with hold | ⟨-, rfl⟩ | ⟨i, hi, hne, -, rfl⟩
    · exact hd.used a (hs.used o a hold)
    · exact hd.ret_used
    · exact hd.new_used i hi hne
  · intro o o' a ho ho'
    rcases hpage o a ho with hold | ⟨rfl, rfl⟩ | ⟨i, hi, hne, rfl, rfl⟩
    · rcases hpage o' a ho' with hold' | ⟨-, rfl⟩ | ⟨j, hj, hne', -, rfl⟩
      · exact hs.distinct o o' a hold hold'
      · exact absurd (hs.used o _ hold) hd.ret_fresh
      · exact absurd (hs.used o _ hold) (hd.new_fresh j hj hne').1
    · rcases hpage o' a ho' with hold' | ⟨rfl, -⟩ | ⟨j, hj, hne', -, heq⟩
      · exact absurd (hs.used o' _ hold') hd.ret_fresh
      · rfl
      · exact absurd heq.symm (hd.new_fresh j hj hne').2
    · rcases hpage o' _ ho' with hold' | ⟨-, heq⟩ | ⟨j, hj, hne', rfl, heq⟩
      · exact absurd (hs.used o' _ hold') (hd.new_fresh i hi hne).1
      · exact absurd heq (hd.new_fresh i hi hne).2
      · rw [hd.new_inj i hi j hj hne hne' heq]
  · intro q u i hu hi hne
    rw [htasks, Function.update_apply] at hu
    rw [hheap] at hne ⊢
    split at hu
    next =>
      obtain rfl := Option.some.inj hu
      rw [ht'] at hne ⊢
      exact hd.addr i hi (hret_pde i hi hne)
    next =>
      rw [hdir q u hu] at hne ⊢
      exact hs.addr q u i hu hi hne
  · intro q u a hu hq ha
    rw [entryAt, entryAt, hheap, hdir q u hu]
    by_cases hzero : s.heap u.mm (pdeIndex a) = 0
    · rw [if_pos hzero, if_pos hzero]
    · rw [if_neg hzero, if_neg hzero]
      have htable := pageOf_table hu (pdeIndex_lt ha) hzero
      rw [hd.other _ (hs.used _ _ htable) fun i hi hne heq => ?_]
      exact hq (Prod.mk.inj (hs.distinct _ _ _ htable (heq ▸ pageOf_table ht hi hne))).1
  · have hj : ∀ a, pteIndex a < 1024 := fun a => Nat.mod_lt _ (by norm_num)
    rintro a ha m (rfl | rfl)
    · rw [entryAt, entryAt, hheap, hdir p t ht]
      by_cases hzero : s.heap t.mm (pdeIndex a) = 0
      · rw [if_pos hzero, if_pos hzero]
        rfl
      · rw [if_neg hzero, if_neg hzero, hd.table _ (pdeIndex_lt ha) hzero,
          cellOf_markedTable _ (hj a)]
    · rw [ht', entryAt, entryAt, hheap]
      by_cases hzero : s.heap t.mm (pdeIndex a) = 0
      · rw [if_pos hzero, if_pos (hd.zero _ (pdeIndex_lt ha) hzero)]
        rfl
      · rw [if_neg hzero, if_neg (hd.pde _ (pdeIndex_lt ha) hzero),
          hd.new_table _ (pdeIndex_lt ha) hzero, cellOf_markedTable _ (hj a)]

theorem createUserTaskFork_forked {s s' : Memory} (hs : TablesOk s) {p c : Nat}
    (h : createUserTaskFork A s p c = some s') :
    ∃ t t', s.tasks p = some t ∧ s.tasks c = none ∧ Forked s s' p c t t' := by
  unfold createUserTaskFork at h
  obtain ⟨t, ht, h⟩ := Option.bind_eq_some_iff.mp h
  split at h
  · cases h
  next hc =>
    rw [Option.not_isSome_iff_eq_none] at hc
    obtain ⟨⟨ret, s₁⟩, hcopy, h⟩ := Option.bind_eq_some_iff.mp h
    obtain ⟨areas, -, rfl⟩ := Option.map_eq_some_iff.mp h
    have hd := copyPageDir_mark hcopy (hs.used _ _ (pageOf_dir ht))
      (fun i hi hne => hs.used _ _ (pageOf_table ht hi hne)) (ownTables_of_task hs ht)
    exact ⟨t, _, ht, hc, hd.forked hs ht hc rfl⟩

end Levos.Mm
