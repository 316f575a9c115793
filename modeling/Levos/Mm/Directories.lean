import Levos.Mm.MapPage

/-!
# Page directories made by the kernel (`mm/page.c`)

The directory of a program comes from `copy_page_dir`, of `kernel_pgd` for the
first one and of the parent's for the others. Its tables below `VIRT_BASE` are
new, the others are those of the original. `map_page` puts new tables into it,
`execve` gives those below `VIRT_BASE` back, `mm_destroy` the directory as well.

`directories_ok` says that after any of this every directory has tables in use
and of its own, and lets the kernel write through.
-/

namespace Levos.Mm

open Levos.Base

variable (A : Allocators)

/-! ## The functions of the source -/

/-- `na_free(0x1000, t)`. -/
def naFreePage (s : Memory) (t : BitVec 32) : Memory :=
  { s with heapUsed := s.heapUsed.filter (· ≠ t) }

@[simp] theorem naFreePage_heap (s : Memory) (t : BitVec 32) : (naFreePage s t).heap = s.heap := rfl

/-- The body of the loop of `map_unload_user_pages`. -/
def unloadSlot (pgd : BitVec 32) (s : Memory) (i : Nat) : Memory :=
  if s.heap pgd i ≠ 0 then setEntry (naFreePage s (tableOf (s.heap pgd i))) pgd i 0 else s

/-- `map_unload_user_pages`. -/
def mapUnloadUserPages (s : Memory) (pgd : BitVec 32) : Memory :=
  (List.range 768).foldl (unloadSlot pgd) s

/-- `mm_destroy`. -/
def mmDestroy (s : Memory) (pgd : BitVec 32) : Memory :=
  naFreePage (mapUnloadUserPages s pgd) pgd

/-! ## The system -/

/-- The memory, and the directories made so far. -/
structure Directories where
  mem : Memory
  dirs : List (BitVec 32)

/-- `setPage` is a store to the entry `j` of the table in slot `i`, as
`replace_page` and `mark_all_user_pages_cow` make it. -/
inductive DirOp where
  | copyPageDir (orig : BitVec 32)
  | mapPage (pgd phys virt : BitVec 32) (user : Bool)
  | setPage (pgd : BitVec 32) (i j : Nat) (e : PageEntry)
  | mapUnloadUserPages (pgd : BitVec 32)
  | mmDestroy (pgd : BitVec 32)

def dirStep (s : Directories) : DirOp → Option Directories
  | .copyPageDir orig =>
      if orig ∈ s.dirs then (copyPageDir A s.mem orig).map fun r => ⟨r.2, r.1 :: s.dirs⟩
      else none
  | .mapPage pgd phys virt user =>
      if pgd ∈ s.dirs then
        (mapPage A s.mem pgd phys virt.toNat (permOf user)).map fun mem => ⟨mem, s.dirs⟩
      else none
  | .setPage pgd i j e =>
      if pgd ∈ s.dirs ∧ i < 1024 ∧ s.mem.heap pgd i ≠ 0 then
        some ⟨setEntry s.mem (tableOf (s.mem.heap pgd i)) j e, s.dirs⟩
      else none
  | .mapUnloadUserPages pgd =>
      if pgd ∈ s.dirs then some ⟨mapUnloadUserPages s.mem pgd, s.dirs⟩ else none
  | .mmDestroy pgd =>
      if pgd ∈ s.dirs then some ⟨mmDestroy s.mem pgd, s.dirs.filter (· ≠ pgd)⟩ else none

/-- After `paging_init`. -/
def firstDirectory : Directories := ⟨pagingInit.mem, [pagingInit.kernelPgd]⟩

/-! ## Entries of a directory -/

/-- The entries of a directory let the kernel through, to write too. -/
def SlotsOk (s : Memory) (pgd : BitVec 32) : Prop :=
  ∀ i < 1024, s.heap pgd i ≠ 0 → entryAllows (.kernel false) true (s.heap pgd i) = true

theorem pteWriteable_createPde_permOf (f : BitVec 32) (user : Bool) :
    pteWriteable (createPde f (permOf user) 1) = true := by
  rw [pteWriteable_eq, createPde_permOf, BitVec.getLsbD_or]
  cases user with
  | false => rfl
  | true => rfl

theorem entryAllows_createPde_permOf (f : BitVec 32) (user : Bool) :
    entryAllows (.kernel false) true (createPde f (permOf user) 1) = true := by
  rw [entryAllows, ptePresent_createPde_permOf, pteWriteable_createPde_permOf]
  rfl

variable {A}

/-- `map_page` makes no entry that keeps the kernel out. -/
theorem EntryWritten.slotsOk {s s' : Memory} {pgd virt : BitVec 32} {e : PageEntry}
    (hw : EntryWritten s s' pgd virt e) (h : SlotsOk s pgd) : SlotsOk s' pgd := by
  intro i hi hne
  rcases hw.slots i with hsame | ⟨-, f, user, hmade⟩
  · rw [hsame] at hne ⊢
    exact h i hi hne
  · rw [hmade]
    exact entryAllows_createPde_permOf f user

/-- The loop of `copy_page_dir` leaves a slot as it was, or puts a new table in
the place of an old one. -/
theorem copyTables_slots {ret : BitVec 32} {is : List Nat} {s s' : Memory}
    (h : copyTables A ret is s = some s') (hret : ret ∈ s.heapUsed) (i : Nat) :
    s'.heap ret i = s.heap ret i ∨ s.heap ret i ≠ 0 ∧ ∃ f, s'.heap ret i = createPde f 1 1 := by
  induction is generalizing s with
  | nil =>
      obtain rfl := Option.some.inj h
      exact .inl rfl
  | cons k is ih =>
      unfold copyTables at h
      split at h
      next hne =>
        obtain ⟨⟨e, s₁⟩, hcopy, h⟩ := Option.bind_eq_some_iff.mp h
        obtain ⟨new, hnew, rfl, rfl⟩ := copyPt_some hcopy
        have hret_ne : ret ≠ new := fun heq => A.naMalloc_unused s new hnew (heq ▸ hret)
        have hadd := copiedTable_added s hret_ne k (createPde (kv2p new) 1 1)
          (s.heap (tableOf (s.heap ret k)))
        have hstep := ih h (hadd.mem ret hret)
        rw [hadd.dir] at hstep
        by_cases hik : i = k
        · subst hik
          rw [if_pos rfl] at hstep
          rcases hstep with hsame | ⟨-, hmade⟩
          · exact .inr ⟨hne, _, hsame⟩
          · exact .inr ⟨hne, hmade⟩
        · rw [if_neg hik] at hstep
          exact hstep
      next => exact ih h hret

theorem copyPageDir_slots {s s' : Memory} {orig ret : BitVec 32}
    (h : copyPageDir A s orig = some (ret, s')) (horig : orig ∈ s.heapUsed) (i : Nat) :
    s'.heap ret i = s.heap orig i ∨ s.heap orig i ≠ 0 ∧ ∃ f, s'.heap ret i = createPde f 1 1 := by
  obtain ⟨⟨t, s₁⟩, hmalloc, hbody⟩ := Option.bind_eq_some_iff.mp h
  obtain ⟨hnew, rfl⟩ := naMallocPage_some hmalloc
  obtain ⟨s₂, hloop, heq⟩ := Option.map_eq_some_iff.mp hbody
  obtain ⟨rfl, rfl⟩ := Prod.mk.inj heq
  have hne : orig ≠ t := fun heq => A.naMalloc_unused s t hnew (heq ▸ horig)
  have hslots := copyTables_slots hloop List.mem_cons_self i
  simp only [setTable_heap, Function.update_self, Function.update_of_ne hne] at hslots
  exact hslots

/-- **A copy.** The new directory has new tables below `VIRT_BASE` and shares
the others with the original. -/
structure DirCopied (s s' : Memory) (orig ret : BitVec 32) : Prop where
  fresh : ret ∉ s.heapUsed
  used : ∀ a ∈ s.heapUsed, a ∈ s'.heapUsed
  old : ∀ a ∈ s.heapUsed, s'.heap a = s.heap a
  dir : DirOk s' ret
  slots : SlotsOk s orig → SlotsOk s' ret
  tables : ∀ i < 1024, s'.heap ret i ≠ 0 →
    tableOf (s'.heap ret i) ∉ s.heapUsed ∨ 768 ≤ i ∧ s'.heap ret i = s.heap orig i

theorem copyPageDir_copied {s s' : Memory} {orig ret : BitVec 32} (hdir : DirOk s orig)
    (h : copyPageDir A s orig = some (ret, s')) : DirCopied s s' orig ret := by
  obtain ⟨-, -, -, -, hhalf⟩ := copyPageDir_frame h hdir.used
  have hd := copyPageDir_spec h hdir.used fun i hi hne => (hdir.tables i (by omega) hne).1
  -- what is in a slot: nothing, a new table, or the one of the original
  have hslot : ∀ i < 1024, s'.heap ret i ≠ 0 → s.heap orig i ≠ 0 ∧
      (i < 768 ∧ TableCopied s s' ret i (tableOf (s.heap orig i)) ∨
        768 ≤ i ∧ s'.heap ret i = s.heap orig i) := by
    intro i hi hne
    by_cases hlow : i < 768
    · have horig : s.heap orig i ≠ 0 := fun hzero => hne (hd.zero i hlow hzero)
      exact ⟨horig, .inl ⟨hlow, hd.copied i hlow horig⟩⟩
    · rw [hhalf i (by omega)] at hne
      exact ⟨hne, .inr ⟨by omega, hhalf i (by omega)⟩⟩
  refine ⟨hd.fresh, hd.used, hd.old, ⟨hd.ret_used, ?_, ?_, ?_⟩, ?_, ?_⟩
  · intro i hi hne
    obtain ⟨horig, ⟨-, hcopy⟩ | ⟨-, hsame⟩⟩ := hslot i hi hne
    · exact hcopy.addr
    · rw [hsame]
      exact hdir.addr i hi horig
  · intro i hi hne
    obtain ⟨horig, ⟨hlow, hcopy⟩ | ⟨-, hsame⟩⟩ := hslot i hi hne
    · exact ⟨hcopy.used, hd.ne_dir i hlow horig⟩
    · obtain ⟨hmem, -⟩ := hdir.tables i hi horig
      rw [hsame]
      exact ⟨hd.used _ hmem, fun heq => hd.fresh (heq ▸ hmem)⟩
  · intro i hi j hj hnei hnej heq
    obtain ⟨horigi, ⟨hlowi, hcopyi⟩ | ⟨hhighi, hsamei⟩⟩ := hslot i hi hnei
    · obtain ⟨horigj, ⟨hlowj, hcopyj⟩ | ⟨hhighj, hsamej⟩⟩ := hslot j hj hnej
      · exact hd.inj i hlowi j hlowj horigi horigj heq
      · rw [hsamej] at heq
        refine absurd ?_ hcopyi.fresh
        rw [heq]
        exact (hdir.tables j hj horigj).1
    · obtain ⟨horigj, ⟨hlowj, hcopyj⟩ | ⟨hhighj, hsamej⟩⟩ := hslot j hj hnej
      · rw [hsamei] at heq
        refine absurd ?_ hcopyj.fresh
        rw [← heq]
        exact (hdir.tables i hi horigi).1
      · rw [hsamei, hsamej] at heq
        exact hdir.distinct i hi j hj horigi horigj heq
  · intro hslots i hi hne
    obtain ⟨horig, -⟩ := hslot i hi hne
    rcases copyPageDir_slots h hdir.used i with hsame | ⟨-, f, hmade⟩
    · rw [hsame]
      exact hslots i hi horig
    · rw [hmade]
      exact entryAllows_createPde_permOf f true
  · intro i hi hne
    obtain ⟨-, ⟨-, hcopy⟩ | hshared⟩ := hslot i hi hne
    · exact .inl hcopy.fresh
    · exact .inr hshared

/-! ## The invariant -/

/-- No table of a directory is itself a directory, and those below `VIRT_BASE`
belong to one directory only. -/
structure DirsInv (s : Directories) : Prop where
  dir : ∀ d ∈ s.dirs, DirOk s.mem d
  slots : ∀ d ∈ s.dirs, SlotsOk s.mem d
  apart : ∀ d ∈ s.dirs, ∀ i < 1024, s.mem.heap d i ≠ 0 → tableOf (s.mem.heap d i) ∉ s.dirs
  own : ∀ d ∈ s.dirs, ∀ i < 768, s.mem.heap d i ≠ 0 → ∀ d' ∈ s.dirs, ∀ j < 1024,
    s.mem.heap d' j ≠ 0 → tableOf (s.mem.heap d i) = tableOf (s.mem.heap d' j) → d = d'

/-- Slots are emptied, directories go away; what is left stays in use. -/
theorem DirsInv.shrink {s : Directories} (hs : DirsInv s) {mem : Memory} {dirs : List (BitVec 32)}
    (hdirs : ∀ d ∈ dirs, d ∈ s.dirs)
    (hrow : ∀ d ∈ dirs, ∀ i, mem.heap d i ≠ 0 → mem.heap d i = s.mem.heap d i)
    (hused : ∀ d ∈ dirs, d ∈ mem.heapUsed)
    (htables : ∀ d ∈ dirs, ∀ i < 1024, mem.heap d i ≠ 0 →
      tableOf (mem.heap d i) ∈ mem.heapUsed) : DirsInv ⟨mem, dirs⟩ := by
  have hold : ∀ d ∈ dirs, ∀ i, mem.heap d i ≠ 0 → s.mem.heap d i ≠ 0 := by
    intro d hd i hne
    rw [← hrow d hd i hne]
    exact hne
  refine ⟨fun d hd => ⟨hused d hd, ?_, ?_, ?_⟩, ?_, ?_, ?_⟩
  · intro i hi hne
    rw [hrow d hd i hne]
    exact (hs.dir d (hdirs d hd)).addr i hi (hold d hd i hne)
  · intro i hi hne
    refine ⟨htables d hd i hi hne, ?_⟩
    rw [hrow d hd i hne]
    exact ((hs.dir d (hdirs d hd)).tables i hi (hold d hd i hne)).2
  · intro i hi j hj hnei hnej heq
    rw [hrow d hd i hnei, hrow d hd j hnej] at heq
    exact (hs.dir d (hdirs d hd)).distinct i hi j hj (hold d hd i hnei) (hold d hd j hnej) heq
  · intro d hd i hi (hne : mem.heap d i ≠ 0)
    show entryAllows (.kernel false) true (mem.heap d i) = true
    rw [hrow d hd i hne]
    exact hs.slots d (hdirs d hd) i hi (hold d hd i hne)
  · intro d hd i hi hne hmem
    refine hs.apart d (hdirs d hd) i hi (hold d hd i hne) ?_
    rw [← hrow d hd i hne]
    exact hdirs _ hmem
  · intro d hd i hi hne d' hd' j hj hne' heq
    dsimp only at hne hne' heq
    rw [hrow d hd i hne, hrow d' hd' j hne'] at heq
    exact hs.own d (hdirs d hd) i hi (hold d hd i hne) d' (hdirs d' hd') j hj (hold d' hd' j hne')
      heq

/-- A store to a page table. -/
theorem DirsInv.setPage {s : Directories} (hs : DirsInv s) {t : BitVec 32} (ht : t ∉ s.dirs)
    (j : Nat) (e : PageEntry) : DirsInv ⟨setEntry s.mem t j e, s.dirs⟩ := by
  have hrow : ∀ d ∈ s.dirs, (setEntry s.mem t j e).heap d = s.mem.heap d := by
    intro d hd
    rw [setEntry_heap, Function.update_of_ne fun heq : d = t => ht (heq ▸ hd)]
  refine hs.shrink (fun d hd => hd) (fun d hd i _ => congrFun (hrow d hd) i)
    (fun d hd => (hs.dir d hd).used) fun d hd i hi hne => ?_
  rw [hrow d hd] at hne ⊢
  exact ((hs.dir d hd).tables i hi hne).1

/-- A table below `VIRT_BASE` is given back. -/
theorem DirsInv.unloadSlot {s : Directories} (hs : DirsInv s) {pgd : BitVec 32}
    (hpgd : pgd ∈ s.dirs) {i : Nat} (hi : i < 768) :
    DirsInv ⟨unloadSlot pgd s.mem i, s.dirs⟩ := by
  unfold Mm.unloadSlot
  split
  swap
  · exact hs
  rename_i hne
  have hrow : ∀ d k, (setEntry (naFreePage s.mem (tableOf (s.mem.heap pgd i))) pgd i 0).heap d k =
      if d = pgd ∧ k = i then 0 else s.mem.heap d k := by
    intro d k
    rw [setEntry_heap]
    by_cases hd : d = pgd
    · subst hd
      rw [Function.update_self, Function.update_apply]
      simp only [true_and]
      rfl
    · rw [Function.update_of_ne hd, if_neg fun h => hd h.1]
      rfl
  have hkept : ∀ a ∈ s.mem.heapUsed, a ≠ tableOf (s.mem.heap pgd i) →
      a ∈ (setEntry (naFreePage s.mem (tableOf (s.mem.heap pgd i))) pgd i 0).heapUsed := by
    intro a ha hdiff
    exact List.mem_filter.mpr ⟨ha, decide_eq_true hdiff⟩
  refine hs.shrink (fun d hd => hd) (fun d hd k hnz => ?_) (fun d hd => ?_)
    fun d hd k hk hnz => ?_
  · rw [hrow] at hnz ⊢
    split at hnz
    · exact absurd rfl hnz
    · rename_i hnot
      exact if_neg hnot
  · exact hkept d (hs.dir d hd).used fun heq => hs.apart pgd hpgd i (by omega) hne (heq ▸ hd)
  · rw [hrow] at hnz ⊢
    split at hnz
    · exact absurd rfl hnz
    rename_i hnot
    rw [if_neg hnot]
    refine hkept _ ((hs.dir d hd).tables k hk hnz).1 fun heq => hnot ?_
    -- a table below `VIRT_BASE` is in one slot of one directory
    obtain rfl := hs.own pgd hpgd i hi hne d hd k hk hnz heq.symm
    exact ⟨rfl, (hs.dir pgd hpgd).distinct k hk i (by omega) hnz hne heq⟩

theorem DirsInv.mapUnloadUserPages {s : Directories} (hs : DirsInv s) {pgd : BitVec 32}
    (hpgd : pgd ∈ s.dirs) : DirsInv ⟨mapUnloadUserPages s.mem pgd, s.dirs⟩ := by
  have hloop : ∀ (is : List Nat) (mem : Memory), (∀ i ∈ is, i < 768) → DirsInv ⟨mem, s.dirs⟩ →
      DirsInv ⟨is.foldl (Mm.unloadSlot pgd) mem, s.dirs⟩ := by
    intro is
    induction is with
    | nil => exact fun mem _ h => h
    | cons i is ih =>
        intro mem his h
        refine ih _ (fun k hk => his k (List.mem_cons_of_mem i hk)) ?_
        exact h.unloadSlot (s := ⟨mem, s.dirs⟩) hpgd (his i List.mem_cons_self)
  exact hloop _ _ (fun i hi => List.mem_range.mp hi) hs

/-- A directory is given back. -/
theorem DirsInv.freeDir {mem : Memory} {dirs : List (BitVec 32)} (hs : DirsInv ⟨mem, dirs⟩)
    {pgd : BitVec 32} (hpgd : pgd ∈ dirs) :
    DirsInv ⟨naFreePage mem pgd, dirs.filter (· ≠ pgd)⟩ := by
  have hleft : ∀ d ∈ dirs.filter (· ≠ pgd), d ∈ dirs ∧ d ≠ pgd := by
    intro d hd
    obtain ⟨hmem, hne⟩ := List.mem_filter.mp hd
    exact ⟨hmem, of_decide_eq_true hne⟩
  refine hs.shrink (fun d hd => (hleft d hd).1) (fun d hd i hne => ?_) (fun d hd => ?_)
    fun d hd i hi hne => ?_
  · rw [naFreePage_heap]
  · exact List.mem_filter.mpr ⟨(hs.dir d (hleft d hd).1).used, decide_eq_true (hleft d hd).2⟩
  · rw [naFreePage_heap] at hne ⊢
    refine List.mem_filter.mpr ⟨((hs.dir d (hleft d hd).1).tables i hi hne).1, ?_⟩
    exact decide_eq_true fun heq => hs.apart d (hleft d hd).1 i hi hne (heq ▸ hpgd)

/-- Stores outside of a directory. -/
theorem DirOk.of_row {s s' : Memory} {pgd : BitVec 32} (h : DirOk s pgd)
    (hused : ∀ a ∈ s.heapUsed, a ∈ s'.heapUsed) (hrow : s'.heap pgd = s.heap pgd) :
    DirOk s' pgd := by
  refine ⟨hused _ h.used, ?_, ?_, ?_⟩
  · rw [hrow]
    exact h.addr
  · rw [hrow]
    exact fun i hi hne => ⟨hused _ (h.tables i hi hne).1, (h.tables i hi hne).2⟩
  · rw [hrow]
    exact h.distinct

theorem SlotsOk.of_row {s s' : Memory} {pgd : BitVec 32} (h : SlotsOk s pgd)
    (hrow : s'.heap pgd = s.heap pgd) : SlotsOk s' pgd := by
  unfold SlotsOk
  rw [hrow]
  exact h

theorem DirsInv.copyPageDir {s : Directories} (hs : DirsInv s) {orig ret : BitVec 32}
    {mem : Memory} (horig : orig ∈ s.dirs) (h : DirCopied s.mem mem orig ret) :
    DirsInv ⟨mem, ret :: s.dirs⟩ := by
  have hrow : ∀ d ∈ s.dirs, mem.heap d = s.mem.heap d := fun d hd => h.old d (hs.dir d hd).used
  have hused : ∀ d ∈ s.dirs, ∀ i < 1024, s.mem.heap d i ≠ 0 →
      tableOf (s.mem.heap d i) ∈ s.mem.heapUsed := fun d hd i hi hnz =>
    ((hs.dir d hd).tables i hi hnz).1
  have hnone : ∀ d ∈ s.dirs, ∀ i < 1024, s.mem.heap d i ≠ 0 →
      tableOf (s.mem.heap d i) ∉ ret :: s.dirs := by
    intro d hd i hi hnz hmem
    rcases List.mem_cons.mp hmem with heq | hmem
    · exact h.fresh (heq ▸ hused d hd i hi hnz)
    · exact hs.apart d hd i hi hnz hmem
  refine ⟨fun d hd => ?_, fun d hd => ?_, fun d hd i hi hnz => ?_,
    fun d hd i hi hnz d' hd' j hj hnz' heq => ?_⟩
  · rcases List.mem_cons.mp hd with rfl | hin
    · exact h.dir
    · exact (hs.dir d hin).of_row h.used (hrow d hin)
  · rcases List.mem_cons.mp hd with rfl | hin
    · exact h.slots (hs.slots orig horig)
    · exact (hs.slots d hin).of_row (hrow d hin)
  · dsimp only at hnz ⊢
    rcases List.mem_cons.mp hd with rfl | hin
    · rcases h.tables i hi hnz with hnew | ⟨-, hsame⟩
      · intro hmem
        rcases List.mem_cons.mp hmem with heq | hmem
        · exact (h.dir.tables i hi hnz).2 heq
        · exact hnew (hs.dir _ hmem).used
      · rw [hsame] at hnz ⊢
        exact hnone orig horig i hi hnz
    · rw [hrow d hin] at hnz ⊢
      exact hnone d hin i hi hnz
  · dsimp only at hnz hnz' heq
    rcases List.mem_cons.mp hd with rfl | hin
    · rcases List.mem_cons.mp hd' with rfl | hin'
      · rfl
      · -- the tables of the copy are new
        rcases h.tables i (by omega) hnz with hnew | ⟨hhigh, -⟩
        · rw [hrow d' hin'] at hnz' heq
          rw [heq] at hnew
          exact absurd (hused d' hin' j hj hnz') hnew
        · omega
    · rw [hrow d hin] at hnz heq
      rcases List.mem_cons.mp hd' with rfl | hin'
      · rcases h.tables j hj hnz' with hnew | ⟨hhigh, hsame⟩
        · rw [← heq] at hnew
          exact absurd (hused d hin i (by omega) hnz) hnew
        · -- a shared table is in a slot above `VIRT_BASE`
          rw [hsame] at hnz' heq
          obtain rfl := hs.own d hin i hi hnz orig horig j hj hnz' heq
          have := (hs.dir d hin).distinct i (by omega) j hj hnz hnz' heq
          omega
      · rw [hrow d' hin'] at hnz' heq
        exact hs.own d hin i hi hnz d' hin' j hj hnz' heq

/-- A new table is in use from now on, and is no directory. -/
theorem DirsInv.newTable {s : Directories} (hs : DirsInv s) {pgd virt pgt : BitVec 32}
    (hpgd : pgd ∈ s.dirs) (hpde : s.mem.heap pgd (pdeIndex virt.toNat) = 0)
    (hpgt : A.naMalloc s.mem = some pgt) (user : Bool) (e : PageEntry) :
    DirsInv ⟨setEntry (setEntry (setTable { s.mem with heapUsed := pgt :: s.mem.heapUsed } pgt
      fun _ => 0) pgt (pteIndex virt.toNat) e) pgd (pdeIndex virt.toNat)
        (createPde (kv2p pgt) (permOf user) 1), s.dirs⟩ := by
  have hw := (hs.dir pgd hpgd).newTable_written virt hpde hpgt user e
  have hfresh := A.naMalloc_unused s.mem pgt hpgt
  have htable := tableOf_createPde_permOf (A.naMalloc_aligned s.mem pgt hpgt) user
  have hnodir : pgt ∉ s.dirs := fun hd => hfresh (hs.dir pgt hd).used
  have hne : pgd ≠ pgt := fun heq => hnodir (heq ▸ hpgd)
  have hadd := newTable_added s.mem hne (pdeIndex virt.toNat) (pteIndex virt.toNat)
    (createPde (kv2p pgt) (permOf user) 1) e
  generalize createPde (kv2p pgt) (permOf user) 1 = pde at *
  generalize setEntry (setEntry (setTable { s.mem with heapUsed := pgt :: s.mem.heapUsed }
    pgt fun _ => 0) pgt (pteIndex virt.toNat) e) pgd (pdeIndex virt.toNat) pde = mem at *
  have hslot : ∀ d ∈ s.dirs, ∀ k, mem.heap d k =
      if d = pgd ∧ k = pdeIndex virt.toNat then pde else s.mem.heap d k :=
    fun d hd k => hadd.row (fun heq => hnodir (heq ▸ hd)) k
  -- the new slot has the new table, the others have tables that were in use
  have hold : ∀ d ∈ s.dirs, ∀ k < 1024, mem.heap d k ≠ 0 →
      ¬(d = pgd ∧ k = pdeIndex virt.toNat) → mem.heap d k = s.mem.heap d k ∧
        s.mem.heap d k ≠ 0 ∧ tableOf (s.mem.heap d k) ≠ pgt := by
    intro d hd k hk hnz hnot
    rw [hslot d hd, if_neg hnot] at hnz ⊢
    exact ⟨rfl, hnz, fun heq => hfresh (heq ▸ ((hs.dir d hd).tables k hk hnz).1)⟩
  have hnew : ∀ d ∈ s.dirs, ∀ k, d = pgd ∧ k = pdeIndex virt.toNat →
      tableOf (mem.heap d k) = pgt := by
    intro d hd k hself
    rw [hslot d hd, if_pos hself, htable]
  refine ⟨fun d hd => ?_, fun d hd => ?_, fun d hd i hi hnz => ?_,
    fun d hd i hi hnz d' hd' j hj hnz' heq => ?_⟩
  · by_cases hd' : d = pgd
    · exact hd' ▸ hw.ok
    · refine (hs.dir d hd).of_row hadd.mem (funext fun k => ?_)
      rw [hslot d hd, if_neg fun h => hd' h.1]
  · by_cases hd' : d = pgd
    · exact hd' ▸ hw.slotsOk (hs.slots pgd hpgd)
    · refine (hs.slots d hd).of_row (funext fun k => ?_)
      rw [hslot d hd, if_neg fun h => hd' h.1]
  · dsimp only at hnz ⊢
    by_cases hself : d = pgd ∧ i = pdeIndex virt.toNat
    · rw [hnew d hd i hself]
      exact hnodir
    · obtain ⟨hsame, hnz', -⟩ := hold d hd i hi hnz hself
      rw [hsame]
      exact hs.apart d hd i hi hnz'
  · dsimp only at hnz hnz' heq
    by_cases hself : d = pgd ∧ i = pdeIndex virt.toNat
    · by_cases hself' : d' = pgd ∧ j = pdeIndex virt.toNat
      · rw [hself.1, hself'.1]
      · obtain ⟨hsame, -, hdiff⟩ := hold d' hd' j hj hnz' hself'
        rw [hnew d hd i hself, hsame] at heq
        exact absurd heq.symm hdiff
    · obtain ⟨hsame, hnzd, hdiff⟩ := hold d hd i (by omega) hnz hself
      by_cases hself' : d' = pgd ∧ j = pdeIndex virt.toNat
      · rw [hnew d' hd' j hself', hsame] at heq
        exact absurd heq hdiff
      · obtain ⟨hsame', hnzd', -⟩ := hold d' hd' j hj hnz' hself'
        rw [hsame, hsame'] at heq
        exact hs.own d hd i hi hnzd d' hd' j hj hnzd' heq

theorem DirsInv.mapPage {s : Directories} (hs : DirsInv s) {pgd phys virt : BitVec 32}
    {user : Bool} {mem : Memory} (hpgd : pgd ∈ s.dirs)
    (h : mapPage A s.mem pgd phys virt.toNat (permOf user) = some mem) :
    DirsInv ⟨mem, s.dirs⟩ := by
  unfold Mm.mapPage at h
  dsimp only at h
  by_cases hpde : s.mem.heap pgd (pdeIndex virt.toNat) = 0
  · rw [if_neg (not_not.mpr hpde)] at h
    obtain ⟨⟨pgt, s₁⟩, hmalloc, rfl⟩ := Option.map_eq_some_iff.mp h
    obtain ⟨hpgt, rfl⟩ := naMallocPage_some hmalloc
    exact hs.newTable hpgd hpde hpgt user _
  · rw [if_pos hpde, sshiftRight_eq_entryAddr] at h
    obtain rfl := Option.some.inj h
    exact hs.setPage (hs.apart pgd hpgd _ (pdeIndex_lt_dir virt) hpde) _ _

theorem dirStep_inv {s s' : Directories} {op : DirOp} (hs : DirsInv s)
    (h : dirStep A s op = some s') : DirsInv s' := by
  unfold dirStep at h
  cases op with
  | copyPageDir orig =>
      dsimp only at h
      split at h
      · rename_i horig
        obtain ⟨⟨ret, mem⟩, hcopy, rfl⟩ := Option.map_eq_some_iff.mp h
        exact hs.copyPageDir horig (copyPageDir_copied (hs.dir orig horig) hcopy)
      · cases h
  | mapPage pgd phys virt user =>
      dsimp only at h
      split at h
      · rename_i hpgd
        obtain ⟨mem, hmap, rfl⟩ := Option.map_eq_some_iff.mp h
        exact hs.mapPage hpgd hmap
      · cases h
  | setPage pgd i j e =>
      dsimp only at h
      split at h
      · rename_i hset
        obtain rfl := Option.some.inj h
        exact hs.setPage (hs.apart pgd hset.1 i hset.2.1 hset.2.2) j e
      · cases h
  | mapUnloadUserPages pgd =>
      dsimp only at h
      split at h
      · rename_i hpgd
        obtain rfl := Option.some.inj h
        exact hs.mapUnloadUserPages hpgd
      · cases h
  | mmDestroy pgd =>
      dsimp only at h
      split at h
      · rename_i hpgd
        obtain rfl := Option.some.inj h
        exact (hs.mapUnloadUserPages hpgd).freeDir hpgd
      · cases h

theorem pagingInit_slotsOk : SlotsOk pagingInit.mem pagingInit.kernelPgd := by
  intro i _ hne
  have hslots : ∀ k ∈ [pdeIndex virtBase, pdeIndex (virtBase + 4 * 1024 * 1024),
      pdeIndex (virtBase + 8 * 1024 * 1024), pdeIndex (virtBase + 16 * 10124 * 1024)],
      entryAllows (.kernel false) true (bootPgd k) = true := by decide
  rw [pagingInit_dir] at hne ⊢
  exact hslots i (bootPgd_slots hne)

theorem firstDirectory_inv : DirsInv firstDirectory := by
  refine ⟨fun d hd => ?_, fun d hd => ?_, fun d hd i _ hnz hmem => ?_,
    fun d hd i _ _ d' hd' _ _ _ _ => ?_⟩
  · obtain rfl := List.mem_singleton.mp hd
    exact pagingInit_dirOk
  · obtain rfl := List.mem_singleton.mp hd
    exact pagingInit_slotsOk
  · obtain rfl := List.mem_singleton.mp hd
    exact (pagingInit_tables i hnz).2 (List.mem_singleton.mp hmem)
  · rw [List.mem_singleton.mp hd, List.mem_singleton.mp hd']

/-- **Directories.** Whatever directories are copied, emptied and destroyed,
pages mapped and entries of tables stored to after `paging_init`, every
directory has tables of its own, and lets the kernel write through. -/
theorem directories_ok (A : Allocators) (ops : List DirOp) (s : Directories)
    (h : runSteps (dirStep A) firstDirectory ops = some s) :
    ∀ d ∈ s.dirs, DirOk s.mem d ∧ SlotsOk s.mem d := by
  have hinv : DirsInv s :=
    runSteps_invariant (fun _ _ _ hs hstep => dirStep_inv hs hstep) firstDirectory_inv h
  exact fun d hd => ⟨hinv.dir d hd, hinv.slots d hd⟩

end Levos.Mm
