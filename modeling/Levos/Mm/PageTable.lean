import Levos.Base.Sharing
import Levos.Mm.Vma

/-!
# Page tables (`mm/page.c`)

Directories and tables are pages of the kernel heap, found by their kernel
address; a directory entry holds the physical address of a table, a table
entry the one of a frame, both with flags in the low twelve bits. User frames
come from `palloc_get_page`, heap pages from `na_malloc`, and the two never
overlap, so the model keeps them apart.

The model is about user addresses, those below `VIRT_BASE`: the entries of a
directory from 768 on are the kernel's, and `copy_page_dir` copies them as they
are.
-/

namespace Levos.Mm

open Levos.Base

/-! ## Entries -/

abbrev PageEntry : Type := BitVec 32

/-- Addresses of pages are looked for in lists of them. -/
instance lawfulBEq_addr : LawfulBEq (BitVec 32) := inferInstance

def virtBaseAddr : BitVec 32 := 0xC0000000

def ptePresentShift : Nat := 0
def pteRwShift : Nat := 1
def pteUserShift : Nat := 2
def pteWritethruShift : Nat := 3
def pteCacheShift : Nat := 4
def pteAccessShift : Nat := 5
def pteDirtyShift : Nat := 6
def pteZeroMask : BitVec 32 := ~~~((1 : BitVec 32) <<< 7)
def pteGlobShift : Nat := 8
def pteCowShift : Nat := 9
def pteAvailMask : BitVec 32 := ~~~(((1 : BitVec 32) <<< 9) ||| (1 <<< 10) ||| (1 <<< 11))
def pteAddrShift : Nat := 12

/-- `create_pte`. In C `&` binds tighter than `|`, so the masks only meet the
zeros in front of them. -/
def createPte (physAddr user rw : BitVec 32) : PageEntry :=
  (0 : BitVec 32) ||| (1 <<< ptePresentShift) ||| (rw <<< pteRwShift) |||
    (user <<< pteUserShift) ||| (1 <<< pteWritethruShift) ||| (0 <<< pteCacheShift) |||
    (0 <<< pteAccessShift) ||| ((0 <<< pteDirtyShift) &&& pteZeroMask) |||
    ((0 <<< pteGlobShift) &&& pteAvailMask) ||| ((physAddr >>> 12) <<< pteAddrShift)

/-- `create_pde`: the flags it sets are those of `create_pte`. -/
def createPde (physAddr user rw : BitVec 32) : PageEntry :=
  (0 : BitVec 32) ||| (1 <<< ptePresentShift) ||| (rw <<< pteRwShift) |||
    (user <<< pteUserShift) ||| (1 <<< pteWritethruShift) ||| (0 <<< pteCacheShift) |||
    (0 <<< pteAccessShift) ||| (0 <<< 6) ||| (0 <<< 7) ||| ((0 <<< 8) &&& pteAvailMask) |||
    ((physAddr >>> 12) <<< pteAddrShift)

def ptePresent (p : PageEntry) : Bool := p &&& ((1 : BitVec 32) <<< ptePresentShift) ≠ 0
def pteMarkReadOnly (p : PageEntry) : PageEntry := p &&& ~~~((1 : BitVec 32) <<< pteRwShift)
def pteWriteable (p : PageEntry) : Bool := p &&& ((1 : BitVec 32) <<< pteRwShift) ≠ 0
def pteMarkCow (p : PageEntry) : PageEntry := p ||| ((1 : BitVec 32) <<< pteCowShift)
def pteIsCow (p : PageEntry) : Bool := p &&& ((1 : BitVec 32) <<< pteCowShift) ≠ 0
def pdeMarkWriteable (p : PageEntry) : PageEntry := p ||| ((1 : BitVec 32) <<< pteRwShift)

/-- The user flag, which only the processor looks at. -/
def pteUser (p : PageEntry) : Bool := p &&& ((1 : BitVec 32) <<< pteUserShift) ≠ 0

/-- The address in an entry, a multiple of the page size. -/
def entryAddr (p : PageEntry) : BitVec 32 := (p >>> pteAddrShift) <<< 12

/-- The kernel address of the table of a directory entry. -/
def tableOf (pde : PageEntry) : BitVec 32 := entryAddr pde + virtBaseAddr

def kv2p (a : BitVec 32) : BitVec 32 := a - virtBaseAddr

def pdeIndex (addr : Nat) : Nat := addr / 2 ^ 22
def pteIndex (addr : Nat) : Nat := addr / 4096 % 1024

/-! ## The state -/

/-- What happened to user memory so far: a byte written by a task, a page
mapped for a task with the given content, a fork. Nothing reads it. -/
inductive MemEvent where
  | wrote (pid addr : Nat) (b : UInt8)
  | mapped (pid page : Nat) (content : Page)
  | forked (parent child : Nat)

/-- What `struct task` has on its memory. -/
structure TaskMm where
  mm : BitVec 32
  areas : List VmArea
  logicalBrk : Nat
  actualBrk : Nat

/-- The heap pages used for page tables, those in use, the frames, the tasks
and the events, the last one first. -/
structure Memory where
  heap : BitVec 32 → Nat → PageEntry
  heapUsed : List (BitVec 32)
  frames : BitVec 32 → Page
  tasks : Nat → Option TaskMm
  history : List MemEvent

/-- The entry at `index` of the table at `table` becomes `entry`. -/
def setEntry (s : Memory) (table : BitVec 32) (index : Nat) (entry : PageEntry) : Memory :=
  { s with heap := Function.update s.heap table (Function.update (s.heap table) index entry) }

/-- A whole table is overwritten. -/
def setTable (s : Memory) (table : BitVec 32) (entries : Nat → PageEntry) : Memory :=
  { s with heap := Function.update s.heap table entries }

@[simp] theorem setEntry_heap (s : Memory) (t : BitVec 32) (i : Nat) (e : PageEntry) :
    (setEntry s t i e).heap = Function.update s.heap t (Function.update (s.heap t) i e) := rfl

@[simp] theorem setTable_heap (s : Memory) (t : BitVec 32) (es : Nat → PageEntry) :
    (setTable s t es).heap = Function.update s.heap t es := rfl

def record (s : Memory) (e : MemEvent) : Memory := { s with history := e :: s.history }

/-- The entry for a user address in a directory, 0 without a table. -/
def entryAt (s : Memory) (pgd : BitVec 32) (addr : Nat) : PageEntry :=
  if s.heap pgd (pdeIndex addr) = 0 then 0
  else s.heap (tableOf (s.heap pgd (pdeIndex addr))) (pteIndex addr)

/-! ## The allocators -/

/-- A frame no task maps below `VIRT_BASE`. -/
def FrameFree (s : Memory) (f : BitVec 32) : Prop :=
  ∀ pid t addr, s.tasks pid = some t → addr < virtBase → ptePresent (entryAt s t.mm addr) →
    entryAddr (entryAt s t.mm addr) ≠ f

/-- The two allocators, as functions of the state; `none` is the panic when
memory is exhausted. `palloc_get_page` returns whole pages below two gigabytes
(its bitmap is sized by an `int` number of bytes) that are mapped nowhere,
`na_malloc` aligned pages of the heap window that are not in use. -/
structure Allocators where
  palloc : Memory → Option (BitVec 32)
  naMalloc : Memory → Option (BitVec 32)
  palloc_aligned : ∀ s f, palloc s = some f → entryAddr f = f
  palloc_low : ∀ s f, palloc s = some f → f.toNat < 2 ^ 31
  palloc_free : ∀ s f, palloc s = some f → FrameFree s f
  naMalloc_aligned : ∀ s t, naMalloc s = some t → entryAddr t = t
  naMalloc_window : ∀ s t, naMalloc s = some t →
    virtBase + 4 * 1024 * 1024 ≤ t.toNat ∧ t.toNat < virtBase + 12 * 1024 * 1024
  naMalloc_unused : ∀ s t, naMalloc s = some t → t ∉ s.heapUsed

variable (A : Allocators)

/-- `na_malloc(0x1000, 0x1000)`. -/
def naMallocPage (s : Memory) : Option (BitVec 32 × Memory) :=
  (A.naMalloc s).map fun t => (t, { s with heapUsed := t :: s.heapUsed })

/-! ## The functions of the source -/

/-- `get_page_from_pgd`: where the entry is, NULL without a table. -/
def getPageFromPgd (s : Memory) (pgd : BitVec 32) (vaddr : Nat) : Option (BitVec 32 × Nat) :=
  let pde := entryAddr (s.heap pgd (pdeIndex vaddr))
  if pde = 0 then none else some (pde + virtBaseAddr, pteIndex vaddr)

/-- `map_page`. In the first branch the entry is shifted as an `int`. -/
def mapPage (s : Memory) (pgd physAddr : BitVec 32) (virtAddr : Nat) (perm : BitVec 32) :
    Option Memory :=
  let pde := s.heap pgd (pdeIndex virtAddr)
  if pde ≠ 0 then
    let pgt := (pde.sshiftRight pteAddrShift <<< 12) + virtBaseAddr
    some (setEntry s pgt (pteIndex virtAddr) (createPte physAddr perm 1))
  else
    (naMallocPage A s).map fun r =>
      let s := setTable r.2 r.1 fun _ => 0
      let s := setEntry s r.1 (pteIndex virtAddr) (createPte physAddr perm 1)
      setEntry s pgd (pdeIndex virtAddr) (createPde (kv2p r.1) perm 1)

/-- `__copy_pt`: the new entry. -/
def copyPt (s : Memory) (orig : PageEntry) : Option (PageEntry × Memory) :=
  (naMallocPage A s).map fun r =>
    (createPde (kv2p r.1) 1 1, setTable r.2 r.1 (r.2.heap (tableOf orig)))

/-- The loop of `copy_page_dir` over the given indices. -/
def copyTables (ret : BitVec 32) : List Nat → Memory → Option Memory
  | [], s => some s
  | i :: is, s =>
      if s.heap ret i ≠ 0 then
        (copyPt A s (s.heap ret i)).bind fun r => copyTables ret is (setEntry r.2 ret i r.1)
      else copyTables ret is s

/-- `copy_page_dir`. -/
def copyPageDir (s : Memory) (orig : BitVec 32) : Option (BitVec 32 × Memory) :=
  (naMallocPage A s).bind fun r =>
    let s := setTable r.2 r.1 fun _ => 0
    let s := setTable s r.1 (s.heap orig)
    (copyTables A r.1 (List.range 768) s).map fun s => (r.1, s)

/-- The body of the inner loop of `mark_all_user_pages_cow`, on one entry. -/
def markCow (p : PageEntry) : PageEntry :=
  if ¬ ptePresent p then p else pteMarkCow (pteMarkReadOnly p)

/-- What `mark_all_user_pages_cow` does to a table: `pde_mark_writeable` gets
the address of the table and so hits its first entry. -/
def markTableCow (s : Memory) (table : BitVec 32) : Memory :=
  let s := setEntry s table 0 (pdeMarkWriteable (s.heap table 0))
  (List.range 1024).foldl (fun s j => setEntry s table j (markCow (s.heap table j))) s

/-- `mark_all_user_pages_cow`. -/
def markAllUserPagesCow (s : Memory) (pgd : BitVec 32) : Memory :=
  (List.range 768).foldl
    (fun s i => if s.heap pgd i ≠ 0 then markTableCow s (tableOf (s.heap pgd i)) else s) s

/-! ## Facts on entries -/

theorem flag_eq_getLsbD (p : BitVec 32) {k : Nat} (hk : k < 32) :
    decide (p &&& ((1 : BitVec 32) <<< k) ≠ 0) = p.getLsbD k := by
  have hbit : p &&& ((1 : BitVec 32) <<< k) = if p.getLsbD k then BitVec.twoPow 32 k else 0#32 :=
    BitVec.and_twoPow p k
  have hne : BitVec.twoPow 32 k ≠ 0#32 := by
    intro hzero
    have := congrArg (BitVec.getLsbD · k) hzero
    simp [hk] at this
  rw [hbit]
  cases hp : p.getLsbD k
  · simp
  · simpa using hne

theorem ptePresent_eq (p : PageEntry) : ptePresent p = p.getLsbD 0 := flag_eq_getLsbD p (by decide)

theorem pteWriteable_eq (p : PageEntry) : pteWriteable p = p.getLsbD 1 :=
  flag_eq_getLsbD p (by decide)

theorem entryAddr_or (a b : BitVec 32) : entryAddr (a ||| b) = entryAddr a ||| entryAddr b := by
  ext i hi
  simp only [entryAddr, BitVec.getElem_or, BitVec.getElem_shiftLeft, BitVec.getElem_ushiftRight,
    BitVec.getLsbD_or]
  grind

theorem entryAddr_and (a b : BitVec 32) : entryAddr (a &&& b) = entryAddr a &&& entryAddr b := by
  ext i hi
  simp only [entryAddr, BitVec.getElem_and, BitVec.getElem_shiftLeft, BitVec.getElem_ushiftRight,
    BitVec.getLsbD_and]
  grind

theorem entryAddr_idem (a : BitVec 32) : entryAddr (entryAddr a) = entryAddr a := by
  ext i hi
  simp only [entryAddr, pteAddrShift, BitVec.getElem_shiftLeft, BitVec.getElem_ushiftRight,
    BitVec.getLsbD_shiftLeft, BitVec.getLsbD_ushiftRight]
  by_cases h : i < 12
  · simp [h]
  · simp [h]
    omega

/-- The arithmetic shift of `map_page` is undone by the shift back. -/
theorem sshiftRight_eq_entryAddr (a : BitVec 32) :
    a.sshiftRight pteAddrShift <<< 12 = entryAddr a := by
  ext i hi
  simp only [entryAddr, pteAddrShift, BitVec.getElem_shiftLeft, BitVec.getElem_ushiftRight,
    BitVec.getElem_sshiftRight]
  by_cases h : i < 12
  · simp [h]
  · simp [h, show 12 + (i - 12) < 32 by omega]

theorem createPte_eq (f : BitVec 32) : createPte f 1 1 = 15#32 ||| entryAddr f := by
  simp [createPte, entryAddr, pteAddrShift, ptePresentShift, pteRwShift, pteUserShift, pteWritethruShift,
    pteCacheShift, pteAccessShift, pteDirtyShift, pteGlobShift]

theorem createPde_eq_createPte (f : BitVec 32) : createPde f 1 1 = createPte f 1 1 := by
  simp [createPte, createPde, ptePresentShift, pteRwShift, pteUserShift, pteWritethruShift,
    pteCacheShift, pteAccessShift, pteDirtyShift, pteGlobShift]

theorem entryAddr_createPte (f : BitVec 32) : entryAddr (createPte f 1 1) = entryAddr f := by
  rw [createPte_eq, entryAddr_or, entryAddr_idem, show entryAddr 15#32 = 0#32 from by decide,
    BitVec.zero_or]

theorem ptePresent_createPte (f : BitVec 32) : ptePresent (createPte f 1 1) = true := by
  rw [ptePresent_eq, createPte_eq, BitVec.getLsbD_or]
  rfl

theorem pteWriteable_createPte (f : BitVec 32) : pteWriteable (createPte f 1 1) = true := by
  rw [pteWriteable_eq, createPte_eq, BitVec.getLsbD_or]
  rfl

theorem ptePresent_pdeMarkWriteable (p : PageEntry) :
    ptePresent (pdeMarkWriteable p) = ptePresent p := by
  rw [ptePresent_eq, ptePresent_eq, pdeMarkWriteable, BitVec.getLsbD_or]
  exact Bool.or_false _

theorem entryAddr_pdeMarkWriteable (p : PageEntry) :
    entryAddr (pdeMarkWriteable p) = entryAddr p := by
  rw [pdeMarkWriteable, entryAddr_or]
  exact BitVec.or_zero

theorem entryAddr_pteMarkReadOnly (p : PageEntry) :
    entryAddr (pteMarkReadOnly p) = entryAddr p := by
  have hmask : entryAddr (~~~((1 : BitVec 32) <<< pteRwShift)) = entryAddr (BitVec.allOnes 32) := by
    decide
  rw [pteMarkReadOnly, entryAddr_and, hmask, ← entryAddr_and, BitVec.and_allOnes]

theorem ptePresent_pteMarkReadOnly (p : PageEntry) :
    ptePresent (pteMarkReadOnly p) = ptePresent p := by
  rw [ptePresent_eq, ptePresent_eq, pteMarkReadOnly, BitVec.getLsbD_and]
  exact Bool.and_true _

theorem pteWriteable_pteMarkReadOnly (p : PageEntry) :
    pteWriteable (pteMarkReadOnly p) = false := by
  rw [pteWriteable_eq, pteMarkReadOnly, BitVec.getLsbD_and]
  exact Bool.and_false _

/-- The frame of an entry that is present, and whether it may be written. -/
def cellOf (p : PageEntry) : Option (BitVec 32 × Bool) :=
  if ptePresent p then some (entryAddr p, pteWriteable p) else none

theorem cellOf_createPte {f : BitVec 32} (hf : entryAddr f = f) :
    cellOf (createPte f 1 1) = some (f, true) := by
  rw [cellOf, if_pos (ptePresent_createPte f), entryAddr_createPte, pteWriteable_createPte, hf]

theorem cellOf_pteMarkReadOnly (p : PageEntry) :
    cellOf (pteMarkReadOnly p) = (cellOf p).map fun e => (e.1, false) := by
  rw [cellOf, cellOf, ptePresent_pteMarkReadOnly, entryAddr_pteMarkReadOnly,
    pteWriteable_pteMarkReadOnly]
  split <;> rfl

theorem cellOf_pteMarkCow (p : PageEntry) : cellOf (pteMarkCow p) = cellOf p := by
  have hpresent : ptePresent (pteMarkCow p) = ptePresent p := by
    rw [ptePresent_eq, ptePresent_eq, pteMarkCow, BitVec.getLsbD_or]
    exact Bool.or_false _
  have hwriteable : pteWriteable (pteMarkCow p) = pteWriteable p := by
    rw [pteWriteable_eq, pteWriteable_eq, pteMarkCow, BitVec.getLsbD_or]
    exact Bool.or_false _
  have haddr : entryAddr (pteMarkCow p) = entryAddr p := by
    rw [pteMarkCow, entryAddr_or]
    exact BitVec.or_zero
  rw [cellOf, cellOf, hpresent, hwriteable, haddr]

/-- Marking takes write access away from an entry that is present. -/
theorem cellOf_markCow (p : PageEntry) :
    cellOf (markCow p) = (cellOf p).map fun e => (e.1, false) := by
  rw [markCow]
  split
  next hnot => rw [cellOf, if_neg hnot, Option.map_none]
  next => rw [cellOf_pteMarkCow, cellOf_pteMarkReadOnly]

/-- The stray `pde_mark_writeable` on the first entry does not survive the
marking. -/
theorem cellOf_markCow_pdeMarkWriteable (p : PageEntry) :
    cellOf (markCow (pdeMarkWriteable p)) = (cellOf p).map fun e => (e.1, false) := by
  rw [cellOf_markCow, cellOf, cellOf, ptePresent_pdeMarkWriteable, entryAddr_pdeMarkWriteable]
  split <;> rfl

theorem createPde_ne_zero (f : BitVec 32) : createPde f 1 1 ≠ 0 := by
  intro hzero
  have hpresent := ptePresent_createPte f
  rw [← createPde_eq_createPte, hzero] at hpresent
  exact absurd hpresent (by decide)

theorem entryAddr_toNat (p : BitVec 32) : (entryAddr p).toNat = p.toNat / 4096 * 4096 := by
  have hp := p.isLt
  rw [entryAddr, BitVec.toNat_shiftLeft, BitVec.toNat_ushiftRight, Nat.shiftLeft_eq,
    Nat.shiftRight_eq_div_pow, pteAddrShift]
  omega

theorem kv2p_toNat (t : BitVec 32) : (kv2p t).toNat = (0x40000000 + t.toNat) % 2 ^ 32 := by
  rw [kv2p, BitVec.toNat_sub]
  rfl

theorem entryAddr_kv2p {t : BitVec 32} (ht : entryAddr t = t) : entryAddr (kv2p t) = kv2p t := by
  have hnat := congrArg BitVec.toNat ht
  have hleft := entryAddr_toNat (kv2p t)
  have hright := kv2p_toNat t
  simp only [entryAddr_toNat] at hnat
  refine BitVec.eq_of_toNat_eq ?_
  omega

/-- `__copy_pt` and `map_page` find the table they made an entry for. -/
theorem tableOf_createPde {t : BitVec 32} (ht : entryAddr t = t) :
    tableOf (createPde (kv2p t) 1 1) = t := by
  rw [tableOf, createPde_eq_createPte, entryAddr_createPte, entryAddr_kv2p ht, kv2p,
    BitVec.sub_add_cancel]

/-- An entry for a heap page has an address in it. -/
theorem entryAddr_createPde_ne_zero {t : BitVec 32} (ht : entryAddr t = t)
    (hlow : virtBase + 4 * 1024 * 1024 ≤ t.toNat) : entryAddr (createPde (kv2p t) 1 1) ≠ 0 := by
  rw [createPde_eq_createPte, entryAddr_createPte, entryAddr_kv2p ht]
  intro hzero
  have hnat : (kv2p t).toNat = 0 := congrArg BitVec.toNat hzero
  have hlt := t.isLt
  rw [kv2p_toNat] at hnat
  rw [virtBase] at hlow
  omega

end Levos.Mm
