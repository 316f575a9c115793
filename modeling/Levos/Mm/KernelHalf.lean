import Levos.Mm.Cow

/-!
# The kernel's half of the directories (`mm/page.c`, `mm/virt.c`)

`copy_page_dir` copies the entries of a directory from `VIRT_BASE` on by value,
so all directories share the kernel's page tables. A later `map_page_kernel`
writes into a shared table, or, when the slot of 4 MiB was not in use, puts a
new table into `kernel_pgd` alone.

`kernel_half_agrees` says that every directory translates the kernel's half as
`kernel_pgd` does while new tables are made only before there are processes.
At boot `paging_init` installs a table for the kmap window at
`VIRT_BASE + 16 * 10124 * 1024` where 1024 is meant, so that the first
`kmap_map_page` needs a new table: `kernel_half_disagrees`.
-/

namespace Levos.Mm

open Levos.Base

variable (A : Allocators)

/-! ## The system -/

/-- The page tables with the address of `kernel_pgd`, the directories made so
far, and `last_kmap_addr`. -/
structure KernelSpace where
  mem : Memory
  kernelPgd : BitVec 32
  dirs : List (BitVec 32)
  lastKmapAddr : Nat

/-- `perm`: every call passes 0 or 1. -/
def permOf (user : Bool) : BitVec 32 := if user then 1 else 0

def mapPageKernel (s : KernelSpace) (p : BitVec 32) (v : Nat) (perm : BitVec 32) :
    Option KernelSpace :=
  (mapPage A s.mem s.kernelPgd p v perm).map fun mem => { s with mem := mem }

/-- `kmap_get_free_address`: the address, and the counter moved on. -/
def kmapGetFreeAddress (s : KernelSpace) : Nat × KernelSpace :=
  let s := { s with lastKmapAddr := u32 (s.lastKmapAddr + 0x1000) }
  (u32Sub s.lastKmapAddr 0x1000, s)

theorem kmapGetFreeAddress_snd (s : KernelSpace) :
    (kmapGetFreeAddress s).2 = { s with lastKmapAddr := u32 (s.lastKmapAddr + 0x1000) } := rfl

def kmapMapPage (s : KernelSpace) (phys : BitVec 32) : Option KernelSpace :=
  mapPageKernel A (kmapGetFreeAddress s).2 phys (kmapGetFreeAddress s).1 1

/-- A copy of `orig` becomes the directory of a process. -/
def copyDirectory (s : KernelSpace) (orig : BitVec 32) : Option KernelSpace :=
  (copyPageDir A s.mem orig).map fun r => { s with mem := r.2, dirs := r.1 :: s.dirs }

def newPageDirectory (s : KernelSpace) : Option KernelSpace := copyDirectory A s s.kernelPgd

inductive KernelOp : Type where
  | newPageDirectory
  | copyPageDir (orig : BitVec 32)
  | mapPageKernel (p v : BitVec 32) (user : Bool)
  | kmapMapPage (phys : BitVec 32)
deriving DecidableEq, Repr

def kernelStep (s : KernelSpace) : KernelOp → Option KernelSpace
  | .newPageDirectory => newPageDirectory A s
  | .copyPageDir orig => if orig ∈ s.dirs then copyDirectory A s orig else none
  | .mapPageKernel p v user => mapPageKernel A s p v.toNat (permOf user)
  | .kmapMapPage phys => kmapMapPage A s phys

/-- Every directory translates the addresses from `VIRT_BASE` on as
`kernel_pgd` does. -/
def KernelHalfAgrees (s : KernelSpace) : Prop :=
  ∀ d ∈ s.dirs, ∀ addr, virtBase ≤ addr → addr < 2 ^ 32 → ∀ mode write,
    walk s.mem d mode write addr = walk s.mem s.kernelPgd mode write addr

/-- A kernel mapping at `v` finds its page table in `kernel_pgd`, or no
directory was made yet. -/
def TableReady (s : KernelSpace) (v : Nat) : Prop :=
  virtBase ≤ v → s.mem.heap s.kernelPgd (pdeIndex v) = 0 → s.dirs = []

def SlotReady (s : KernelSpace) : KernelOp → Prop
  | .mapPageKernel _ v _ => TableReady s v.toNat
  | .kmapMapPage _ => TableReady s (kmapGetFreeAddress s).1
  | _ => True

/-! ## Directory entries -/

theorem createPde_permOf (f : BitVec 32) (user : Bool) :
    createPde f (permOf user) 1 = (if user then 15#32 else 11#32) ||| entryAddr f := by
  cases user with
  | false =>
      simp [createPde, permOf, entryAddr, pteAddrShift, ptePresentShift, pteRwShift, pteUserShift,
        pteWritethruShift, pteCacheShift, pteAccessShift]
  | true =>
      simp [createPde, permOf, entryAddr, pteAddrShift, ptePresentShift, pteRwShift, pteUserShift,
        pteWritethruShift, pteCacheShift, pteAccessShift]

/-- `map_page` finds the table it made an entry for, with either permission. -/
theorem tableOf_createPde_permOf {t : BitVec 32} (ht : entryAddr t = t) (user : Bool) :
    tableOf (createPde (kv2p t) (permOf user) 1) = t := by
  have hflags : entryAddr (if user then 15#32 else 11#32) = 0#32 := by
    cases user with
    | false => decide
    | true => decide
  rw [tableOf, createPde_permOf, entryAddr_or, entryAddr_idem, hflags, BitVec.zero_or,
    entryAddr_kv2p ht, kv2p, BitVec.sub_add_cancel]

/-! ## What the functions leave alone -/

variable {A}

/-- The loop of `copy_page_dir` writes to `ret`, at the given indices, and to
pages that were not in use. -/
theorem copyTables_frame {ret : BitVec 32} {is : List Nat} {s s' : Memory}
    (h : copyTables A ret is s = some s') (hret : ret ∈ s.heapUsed) :
    (∀ a ∈ s.heapUsed, a ∈ s'.heapUsed) ∧
    (∀ a ∈ s.heapUsed, a ≠ ret → s'.heap a = s.heap a) ∧
    ∀ i, i ∉ is → s'.heap ret i = s.heap ret i := by
  induction is generalizing s with
  | nil =>
      obtain rfl := Option.some.inj h
      exact ⟨fun _ ha => ha, fun _ _ _ => rfl, fun _ _ => rfl⟩
  | cons i is ih =>
      unfold copyTables at h
      split at h
      · obtain ⟨⟨e, s₁⟩, hcopy, h⟩ := Option.bind_eq_some_iff.mp h
        obtain ⟨⟨new, s₂⟩, hmalloc, heq⟩ := Option.map_eq_some_iff.mp hcopy
        obtain ⟨t, ht, heq'⟩ := Option.map_eq_some_iff.mp hmalloc
        obtain ⟨rfl, rfl⟩ := Prod.mk.inj heq'
        obtain ⟨rfl, rfl⟩ := Prod.mk.inj heq
        have hfresh : ∀ a ∈ s.heapUsed, a ≠ t := by
          rintro a ha rfl
          exact A.naMalloc_unused s a ht ha
        obtain ⟨hused, hrest, hidx⟩ := ih h (List.mem_cons_of_mem _ hret)
        refine ⟨fun a ha => hused a (List.mem_cons_of_mem _ ha), ?_, ?_⟩
        · intro a ha hne
          rw [hrest a (List.mem_cons_of_mem _ ha) hne]
          simp [hne, hfresh a ha]
        · intro j hj
          obtain ⟨hji, hjis⟩ : j ≠ i ∧ j ∉ is := by simpa using hj
          rw [hidx j hjis]
          simp [hji, hfresh ret hret]
      · obtain ⟨hused, hrest, hidx⟩ := ih h hret
        exact ⟨hused, hrest, fun j hj => hidx j fun hjis => hj (List.mem_cons_of_mem _ hjis)⟩

/-- `copy_page_dir` gives a page that was not in use, with the kernel's half of
the original, and changes no page in use. -/
theorem copyPageDir_frame {s s' : Memory} {orig ret : BitVec 32}
    (h : copyPageDir A s orig = some (ret, s')) (horig : orig ∈ s.heapUsed) :
    ret ∉ s.heapUsed ∧ ret ∈ s'.heapUsed ∧ (∀ a ∈ s.heapUsed, a ∈ s'.heapUsed) ∧
    (∀ a ∈ s.heapUsed, s'.heap a = s.heap a) ∧
    ∀ i, 768 ≤ i → s'.heap ret i = s.heap orig i := by
  obtain ⟨⟨t, s₁⟩, hmalloc, h⟩ := Option.bind_eq_some_iff.mp h
  obtain ⟨t', ht, heq⟩ := Option.map_eq_some_iff.mp hmalloc
  obtain ⟨rfl, rfl⟩ := Prod.mk.inj heq
  obtain ⟨s₂, hcopy, heq⟩ := Option.map_eq_some_iff.mp h
  obtain ⟨rfl, rfl⟩ := Prod.mk.inj heq
  have hfresh := A.naMalloc_unused s t' ht
  have hne : ∀ a ∈ s.heapUsed, a ≠ t' := by
    rintro a ha rfl
    exact hfresh ha
  obtain ⟨hused, hrest, hidx⟩ := copyTables_frame hcopy List.mem_cons_self
  refine ⟨hfresh, hused _ List.mem_cons_self, fun a ha => hused a (List.mem_cons_of_mem _ ha),
    ?_, ?_⟩
  · intro a ha
    rw [hrest a (List.mem_cons_of_mem _ ha) (hne a ha)]
    simp [hne a ha]
  · intro i hi
    rw [hidx i (by simpa using hi)]
    simp [hne orig horig]

/-! ## The invariant -/

/-- Directories and the kernel's tables are pages in use; no table is a
directory; the kernel's half is the same in all directories. -/
structure KernelInv (s : KernelSpace) : Prop where
  kernel_used : s.kernelPgd ∈ s.mem.heapUsed
  dirs_used : ∀ d ∈ s.dirs, d ∈ s.mem.heapUsed ∧ d ≠ s.kernelPgd
  tables : ∀ i, s.mem.heap s.kernelPgd i ≠ 0 →
    tableOf (s.mem.heap s.kernelPgd i) ∈ s.mem.heapUsed ∧
      tableOf (s.mem.heap s.kernelPgd i) ≠ s.kernelPgd ∧
      tableOf (s.mem.heap s.kernelPgd i) ∉ s.dirs
  agree : ∀ d ∈ s.dirs, ∀ i, 768 ≤ i → s.mem.heap d i = s.mem.heap s.kernelPgd i

theorem copyDirectory_inv {s s' : KernelSpace} {orig : BitVec 32} (hinv : KernelInv s)
    (horig : orig = s.kernelPgd ∨ orig ∈ s.dirs) (h : copyDirectory A s orig = some s') :
    KernelInv s' := by
  obtain ⟨⟨ret, mem⟩, hcopy, rfl⟩ := Option.map_eq_some_iff.mp h
  have horig_used : orig ∈ s.mem.heapUsed := by
    rcases horig with rfl | horig
    · exact hinv.kernel_used
    · exact (hinv.dirs_used orig horig).1
  have horig_half : ∀ i, 768 ≤ i → s.mem.heap orig i = s.mem.heap s.kernelPgd i := by
    rcases horig with rfl | horig
    · exact fun _ _ => rfl
    · exact hinv.agree orig horig
  obtain ⟨hfresh, hret, hused, hsame, hhalf⟩ := copyPageDir_frame hcopy horig_used
  have hkernel := hsame _ hinv.kernel_used
  refine ⟨hused _ hinv.kernel_used, ?_, ?_, ?_⟩
  · intro d hd
    rcases List.mem_cons.mp hd with rfl | hd
    · exact ⟨hret, fun heq => hfresh (heq ▸ hinv.kernel_used)⟩
    · exact ⟨hused d (hinv.dirs_used d hd).1, (hinv.dirs_used d hd).2⟩
  · intro i hi
    simp only [hkernel] at hi ⊢
    obtain ⟨htable, hne, hdirs⟩ := hinv.tables i hi
    refine ⟨hused _ htable, hne, ?_⟩
    intro hm
    rcases List.mem_cons.mp hm with heq | hm
    · exact hfresh (heq ▸ htable)
    · exact hdirs hm
  · intro d hd i hi
    simp only [hkernel]
    rcases List.mem_cons.mp hd with rfl | hd
    · rw [hhalf i hi, horig_half i hi]
    · rw [hsame d (hinv.dirs_used d hd).1]
      exact hinv.agree d hd i hi

/-- A write that misses all directories. -/
theorem KernelInv.of_same {s : KernelSpace} (hinv : KernelInv s) {mem : Memory}
    (hused : mem.heapUsed = s.mem.heapUsed)
    (hkernel : mem.heap s.kernelPgd = s.mem.heap s.kernelPgd)
    (hdirs : ∀ d ∈ s.dirs, mem.heap d = s.mem.heap d) : KernelInv { s with mem := mem } := by
  refine ⟨?_, ?_, ?_, ?_⟩
  · exact hused ▸ hinv.kernel_used
  · exact fun d hd => ⟨hused ▸ (hinv.dirs_used d hd).1, (hinv.dirs_used d hd).2⟩
  · intro i hi
    simp only [hkernel, hused] at hi ⊢
    exact hinv.tables i hi
  · intro d hd i hi
    simp only [hkernel, hdirs d hd]
    exact hinv.agree d hd i hi

/-- A new table goes into `kernel_pgd`. -/
theorem KernelInv.of_newTable {s : KernelSpace} (hinv : KernelInv s) {mem : Memory}
    {pgt : BitVec 32} (idx : Nat) {pde : PageEntry} (hfresh : pgt ∉ s.mem.heapUsed)
    (hpde : tableOf pde = pgt) (hready : 768 ≤ idx → s.dirs = [])
    (hused : mem.heapUsed = pgt :: s.mem.heapUsed)
    (hkernel : mem.heap s.kernelPgd = Function.update (s.mem.heap s.kernelPgd) idx pde)
    (hdirs : ∀ d ∈ s.dirs, mem.heap d = s.mem.heap d) : KernelInv { s with mem := mem } := by
  have hgrow : ∀ a ∈ s.mem.heapUsed, a ∈ mem.heapUsed := by
    intro a ha
    rw [hused]
    exact List.mem_cons_of_mem _ ha
  refine ⟨hgrow _ hinv.kernel_used, ?_, ?_, ?_⟩
  · exact fun d hd => ⟨hgrow d (hinv.dirs_used d hd).1, (hinv.dirs_used d hd).2⟩
  · intro i hi
    simp only [hkernel] at hi ⊢
    by_cases hidx : i = idx
    · subst hidx
      rw [Function.update_self, hpde]
      refine ⟨hused ▸ List.mem_cons_self, fun heq => hfresh (heq ▸ hinv.kernel_used), ?_⟩
      exact fun hm => hfresh (hinv.dirs_used _ hm).1
    · rw [Function.update_of_ne hidx] at hi ⊢
      obtain ⟨htable, hne, hnot⟩ := hinv.tables i hi
      exact ⟨hgrow _ htable, hne, hnot⟩
  · intro d hd i hi
    have hidx : i ≠ idx := by
      rintro rfl
      rw [hready hi] at hd
      exact absurd hd List.not_mem_nil
    simp only [hkernel, hdirs d hd, Function.update_of_ne hidx]
    exact hinv.agree d hd i hi

theorem mapPageKernel_inv {s s' : KernelSpace} {p : BitVec 32} {v : Nat} {user : Bool}
    (hinv : KernelInv s) (hready : TableReady s v)
    (h : mapPageKernel A s p v (permOf user) = some s') : KernelInv s' := by
  obtain ⟨mem, hmap, rfl⟩ := Option.map_eq_some_iff.mp h
  unfold mapPage at hmap
  dsimp only at hmap
  split at hmap
  · -- the table is there: no directory is written to
    rename_i hpde
    rw [sshiftRight_eq_entryAddr] at hmap
    obtain rfl := Option.some.inj hmap
    obtain ⟨-, hne, hdirs⟩ := hinv.tables _ hpde
    refine hinv.of_same rfl ?_ ?_
    · rw [setEntry_heap]
      exact Function.update_of_ne (Ne.symm hne) _ _
    · intro d hd
      have hd' : d ≠ entryAddr (s.mem.heap s.kernelPgd (pdeIndex v)) + virtBaseAddr := by
        rintro rfl
        exact hdirs hd
      rw [setEntry_heap]
      exact Function.update_of_ne hd' _ _
  · rename_i hpde
    obtain ⟨⟨pgt, mem₁⟩, hmalloc, rfl⟩ := Option.map_eq_some_iff.mp hmap
    obtain ⟨t, ht, heq⟩ := Option.map_eq_some_iff.mp hmalloc
    obtain ⟨rfl, rfl⟩ := Prod.mk.inj heq
    have hfresh := A.naMalloc_unused s.mem t ht
    have hne : ∀ a ∈ s.mem.heapUsed, a ≠ t := by
      rintro a ha rfl
      exact hfresh ha
    refine hinv.of_newTable (pdeIndex v) hfresh
      (tableOf_createPde_permOf (A.naMalloc_aligned s.mem t ht) user) ?_ rfl ?_ ?_
    · intro hidx
      refine hready ?_ (not_not.mp hpde)
      rw [pdeIndex] at hidx
      rw [virtBase]
      omega
    · simp [hne _ hinv.kernel_used]
    · intro d hd
      obtain ⟨hd_used, hd_ne⟩ := hinv.dirs_used d hd
      simp [hd_ne, hne d hd_used]

theorem kernelStep_inv {s s' : KernelSpace} {op : KernelOp} (hinv : KernelInv s)
    (hready : SlotReady s op) (h : kernelStep A s op = some s') : KernelInv s' := by
  cases op with
  | newPageDirectory => exact copyDirectory_inv hinv (.inl rfl) h
  | copyPageDir orig =>
      rw [kernelStep] at h
      split at h
      · rename_i hmem
        exact copyDirectory_inv hinv (.inr hmem) h
      · cases h
  | mapPageKernel p v user => exact mapPageKernel_inv hinv hready h
  | kmapMapPage phys =>
      have hready : TableReady s (kmapGetFreeAddress s).1 := hready
      rw [kernelStep, kmapMapPage, show (1 : BitVec 32) = permOf true from rfl,
        kmapGetFreeAddress_snd] at h
      generalize (kmapGetFreeAddress s).1 = v at h hready
      generalize u32 (s.lastKmapAddr + 0x1000) = last at h
      have hinv' : KernelInv { s with lastKmapAddr := last } :=
        ⟨hinv.kernel_used, hinv.dirs_used, hinv.tables, hinv.agree⟩
      exact mapPageKernel_inv hinv' hready h

theorem KernelInv.agrees {s : KernelSpace} (hinv : KernelInv s) : KernelHalfAgrees s := by
  intro d hd addr hlow _ mode write
  have hidx : 768 ≤ pdeIndex addr := by
    rw [pdeIndex]
    rw [virtBase] at hlow
    omega
  simp only [walk, hinv.agree d hd _ hidx]

/-- **Kernel half agreement.** In every run of address-space creations and
kernel mappings in which a page table for the kernel's half is made only while
there is no directory of a process yet, every directory translates every
address from `VIRT_BASE` on exactly as `kernel_pgd` does. -/
theorem kernel_half_agrees (s₀ s : KernelSpace) (ops : List KernelOp)
    (hdirs : s₀.dirs = []) (hkernel : s₀.kernelPgd ∈ s₀.mem.heapUsed)
    (htables : ∀ i, s₀.mem.heap s₀.kernelPgd i ≠ 0 →
      tableOf (s₀.mem.heap s₀.kernelPgd i) ∈ s₀.mem.heapUsed ∧
        tableOf (s₀.mem.heap s₀.kernelPgd i) ≠ s₀.kernelPgd)
    (hmeet : StepsMeet (kernelStep A) SlotReady s₀ ops)
    (hrun : runSteps (kernelStep A) s₀ ops = some s) : KernelHalfAgrees s := by
  have hstart : KernelInv s₀ := by
    refine ⟨hkernel, ?_, ?_, ?_⟩
    · simp [hdirs]
    · intro i hi
      obtain ⟨hused, hne⟩ := htables i hi
      exact ⟨hused, hne, by simp [hdirs]⟩
    · simp [hdirs]
  have hinv : KernelInv s :=
    runSteps_invariant_of_meet (fun _ _ _ hs hc hstep => kernelStep_inv hs hc hstep)
      hstart hmeet hrun
  exact hinv.agrees

/-! ## Boot -/

instance (s : KernelSpace) (v : Nat) : Decidable (TableReady s v) :=
  inferInstanceAs (Decidable (_ → _ → _))

instance (s : KernelSpace) (op : KernelOp) : Decidable (SlotReady s op) :=
  match op with
  | .newPageDirectory | .copyPageDir _ => isTrue trivial
  | .mapPageKernel _ v _ => inferInstanceAs (Decidable (TableReady s v.toNat))
  | .kmapMapPage _ => inferInstanceAs (Decidable (TableReady s (kmapGetFreeAddress s).1))

/-- The directory `paging_init` builds, with the kernel's static tables at some
addresses of the kernel image. -/
def bootPgd (i : Nat) : PageEntry :=
  if i = pdeIndex virtBase then createPde (kv2p 0xC0111000) 0 1
  else if i = pdeIndex (virtBase + 4 * 1024 * 1024) then createPde (kv2p 0xC0112000) 0 1
  else if i = pdeIndex (virtBase + 8 * 1024 * 1024) then createPde (kv2p 0xC0113000) 0 1
  else if i = pdeIndex (virtBase + 16 * 10124 * 1024) then createPde (kv2p 0xC0114000) 0 1
  else 0

/-- The state after `paging_init` and `virt_kmap_init`. -/
def pagingInit : KernelSpace where
  mem :=
    { heap := fun a i =>
        if a = 0xC0110000 then bootPgd i
        else if a = 0xC0111000 then createPte (BitVec.ofNat 32 (i * 4096)) 0 1
        else if a = 0xC0112000 then createPte (BitVec.ofNat 32 (4 * 1024 * 1024 + i * 4096)) 0 1
        else if a = 0xC0113000 then createPte (BitVec.ofNat 32 (8 * 1024 * 1024 + i * 4096)) 0 1
        else 0
      heapUsed := [0xC0110000, 0xC0111000, 0xC0112000, 0xC0113000, 0xC0114000]
      frames := fun _ _ => 0
      tasks := fun _ => none
      history := [] }
  kernelPgd := 0xC0110000
  dirs := []
  lastKmapAddr := virtBase + 16 * 1024 * 1024

theorem pagingInit_tables (i : Nat) (hi : pagingInit.mem.heap pagingInit.kernelPgd i ≠ 0) :
    tableOf (pagingInit.mem.heap pagingInit.kernelPgd i) ∈ pagingInit.mem.heapUsed ∧
      tableOf (pagingInit.mem.heap pagingInit.kernelPgd i) ≠ pagingInit.kernelPgd := by
  have hpgd : pagingInit.mem.heap pagingInit.kernelPgd i = bootPgd i := by
    simp [pagingInit]
  rw [hpgd] at hi ⊢
  unfold bootPgd at hi ⊢
  split
  · decide
  · split
    · decide
    · split
      · decide
      · split
        · decide
        · rename_i h1 h2 h3 h4
          simp only [if_neg h1, if_neg h2, if_neg h3, if_neg h4] at hi
          exact absurd rfl hi

/-- The kmap window is used once before the first directory is made, and again
after it. -/
theorem kernel_half_agrees_kmap_first :
    ∃ s, runSteps (kernelStep firstFit) pagingInit
        [.kmapMapPage 0x2000000, .newPageDirectory, .kmapMapPage 0x2001000] = some s ∧
      s.dirs = [0xC0404000] ∧ KernelHalfAgrees s := by
  have hrun : (runSteps (kernelStep firstFit) pagingInit
      [.kmapMapPage 0x2000000, .newPageDirectory, .kmapMapPage 0x2001000]).map (·.dirs) =
        some [0xC0404000] := by
    decide +kernel
  obtain ⟨s, hs, hdirs⟩ := Option.map_eq_some_iff.mp hrun
  refine ⟨s, hs, hdirs, kernel_half_agrees pagingInit s _ rfl List.mem_cons_self
    pagingInit_tables ?_ hs⟩
  decide +kernel

/-- The first page is mapped into the kmap window when there is a directory
already: `kernel_pgd` translates its address, the directory does not. -/
theorem kernel_half_disagrees :
    pagingInit.dirs = [] ∧ pagingInit.kernelPgd ∈ pagingInit.mem.heapUsed ∧
    (∀ i, pagingInit.mem.heap pagingInit.kernelPgd i ≠ 0 →
      tableOf (pagingInit.mem.heap pagingInit.kernelPgd i) ∈ pagingInit.mem.heapUsed ∧
        tableOf (pagingInit.mem.heap pagingInit.kernelPgd i) ≠ pagingInit.kernelPgd) ∧
    ∃ s, runSteps (kernelStep firstFit) pagingInit
        [.newPageDirectory, .kmapMapPage 0x2000000] = some s ∧
      walk s.mem s.kernelPgd .user false 0xC1000000 = some 0x2000000 ∧
      walk s.mem 0xC0403000 .user false 0xC1000000 = none ∧ ¬ KernelHalfAgrees s := by
  have hrun : (runSteps (kernelStep firstFit) pagingInit
      [.newPageDirectory, .kmapMapPage 0x2000000]).map (fun s =>
        (s.dirs, walk s.mem s.kernelPgd .user false 0xC1000000,
          walk s.mem 0xC0403000 .user false 0xC1000000)) =
        some ([0xC0403000], some 0x2000000, none) := by
    decide +kernel
  obtain ⟨s, hs, hfacts⟩ := Option.map_eq_some_iff.mp hrun
  simp only [Prod.mk.injEq] at hfacts
  obtain ⟨hdirs, hkernel, hdir⟩ := hfacts
  refine ⟨rfl, List.mem_cons_self, pagingInit_tables, s, hs, hkernel, hdir, ?_⟩
  intro hagree
  have hwalk := hagree 0xC0403000 (by rw [hdirs]; exact List.mem_cons_self) 0xC1000000
    (by decide) (by decide) .user false
  rw [hkernel, hdir] at hwalk
  cases hwalk

end Levos.Mm
