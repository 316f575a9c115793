import Levos.Base.Run
import Levos.Kernel.Elf
import Levos.Mm.Mmap
import Levos.Mm.PageFault

/-!
# The lifetime of mappings (`mm/mapping.c`, `mm/vma.c`)

A mapping is made for a VMA by `mmap` or by `load_elf`, shared with the VMAs of
children by `copy_vmas`, and given up VMA by VMA by `vma_unload_all`. Beside
the content of its mapping (`VmArea.mapping`) a VMA here has the identity of
it, so that a mapping and its count can be told from another on the same file.

`mapping_lifetime` says that the count is the number of VMAs, in every task,
at every moment of every run.
-/

namespace Levos.Mm

open Levos.Base Levos.Kernel

/-! ## The state -/

/-- `struct mapping`. Its backing file is the copy `dup_file` made for it,
which nothing else points to; `backingClosed` and `freed` record what
`mapping_destroy` did. -/
structure Mapping where
  refc : Int
  backingRefc : Int
  backingClosed : Bool
  freed : Bool
deriving DecidableEq, Repr

/-- `struct vm_area` with the identity of its mapping: mappings are numbered as
they are made. -/
structure TaskVma where
  area : VmArea
  map : Option Nat
deriving DecidableEq, Repr

structure VmState where
  vmas : Nat → List TaskVma
  nTasks : Nat
  maps : Nat → Mapping
  nextMap : Nat

def VmState.init : VmState :=
  { vmas := fun _ => [], nTasks := 0, maps := fun _ => ⟨0, 0, false, false⟩, nextMap := 0 }

def VmState.areas (s : VmState) (p : Nat) : List VmArea := (s.vmas p).map TaskVma.area

def VmState.setVmas (s : VmState) (p : Nat) (l : List TaskVma) : VmState :=
  { s with vmas := Function.update s.vmas p l }

def VmState.setMap (s : VmState) (m : Nat) (mp : Mapping) : VmState :=
  { s with maps := Function.update s.maps m mp }

/-! ## Making areas -/

/-- The place of an area, as in `insertPoint`. -/
def taskInsertPoint (vma : TaskVma) (vmas : List TaskVma) : List TaskVma × List TaskVma :=
  (vmas.takeWhile fun e => ¬ vmAreaLess vma.area e.area,
    vmas.dropWhile fun e => ¬ vmAreaLess vma.area e.area)

/-- `vm_area_create_insert`, with the allocation succeeding. -/
def insertTaskVma (vma : TaskVma) (vmas : List TaskVma) : Option (Option (List TaskVma)) :=
  (vmAreaCreateInsert true vma.area (vmas.map TaskVma.area)).map fun areas =>
    areas.map fun _ => (taskInsertPoint vma vmas).1 ++ vma :: (taskInsertPoint vma vmas).2

/-- `mapping_find_or_create`. -/
def mappingFindOrCreate (s : VmState) : Nat × VmState :=
  (s.nextMap,
    { s.setMap s.nextMap ⟨1, 1, false, false⟩ with nextMap := s.nextMap + 1 })

/-- `vm_area_create_insert`, then `vma_set_mapping` with the file of the area
if it has one. -/
def createArea (s : VmState) (p : Nat) (vma : VmArea) : Option (Option VmState) :=
  match vma.mapping with
  | none => (insertTaskVma ⟨vma, none⟩ (s.vmas p)).map fun r => r.map fun l => s.setVmas p l
  | some _ =>
      let (m, s') := mappingFindOrCreate s
      (insertTaskVma ⟨vma, some m⟩ (s.vmas p)).map fun r => r.map fun l => s'.setVmas p l

/-- `vma_init`. -/
def vmaInit (s : VmState) (p : Nat) : Option VmState :=
  (createArea (s.setVmas p []) p stackVma).map fun r => r.getD (s.setVmas p [])

/-- `do_mmap`; the result is the address or the error. -/
def doMmap (s : VmState) (p : Nat) (f : Option (List UInt8)) (addr len : Nat)
    (prot flags : BitVec 32) (offset : Nat) : Option (Int × VmState) :=
  match mmapAddr (s.areas p) addr len flags with
  | .error e => some (e, s)
  | .ok base =>
      (createArea s p (applyProt prot flags
        (vmaSetMapping (mmapArea base len) f offset len))).map fun r =>
          match r with
          | none => (-enomem, s)
          | some s' => (base, s')

/-- The loop of `load_elf` over the program headers. -/
def loadSegmentsTask (content : List UInt8) (p : Nat) :
    VmState → Nat → List ProgramHeader → Option (Int × VmState × Nat)
  | s, lastPage, [] => some (0, s, lastPage)
  | s, lastPage, ph :: phs =>
      if ph.pType = ptLoad then
        (createArea s p (segmentVma content ph)).bind fun made =>
          match made with
          | none => some (-einval, s, lastPage)
          | some s' => loadSegmentsTask content p s' (raiseLastPage ph lastPage) phs
      else loadSegmentsTask content p s lastPage phs

/-- `load_elf`, as `loadElf` with the task's VMAs. -/
def loadElfTask (s : VmState) (p : Nat) (junk : Nat → Page) (content : List UInt8) :
    Option (Int × VmState) :=
  let magic := readBuf (junk 0) content 0 4
  if ¬ (magic 0 = 0x7F ∧ magic 1 = 0x45 ∧ magic 2 = 0x4C ∧ magic 3 = 0x46) then
    some (-enoexec, s)
  else if le16 (readBuf (junk 1) content 0 52) 16 ≠ 2 then some (-enoexec, s)
  else
    match loadSegmentsTask content p s 0 (programHeaders junk content) with
    | none => none
    | some (rc, s', lastPage) =>
        if rc ≠ 0 then some (rc, s')
        else
          match createArea s' p (brkVma (pgRndUp lastPage)) with
          | none => none
          | some none => some (0, s')
          | some (some s'') => some (0, s'')

/-! ## Sharing and giving up -/

/-- `mapping_copy`: the count of a mapping that is copied. -/
def mappingCopy (s : VmState) (map : Option Nat) : VmState :=
  match map with
  | none => s
  | some m => s.setMap m { s.maps m with refc := (s.maps m).refc + 1 }

/-- What `copy_vmas` makes of an area, field by field. -/
def copiedVma (vma : TaskVma) : TaskVma :=
  { area :=
      { start := vma.area.start, offset := vma.area.offset, stop := vma.area.stop
        mappingOffset := vma.area.mappingOffset, mappingLength := vma.area.mappingLength
        mapping := vma.area.mapping, flags := vma.area.flags }
    map := vma.map }

/-- The loop of `copy_vmas`; where no area is returned, the code writes through
NULL. -/
def copyVmasLoop (child : Nat) : List TaskVma → VmState → Option VmState
  | [], s => some s
  | vma :: rest, s =>
      (insertTaskVma (copiedVma vma) (s.vmas child)).bind fun made =>
        made.bind fun l => copyVmasLoop child rest (mappingCopy (s.setVmas child l) vma.map)

/-- `copy_vmas`, as `copyVmas` with the mappings. -/
def copyTaskVmas (s : VmState) (child parent : Nat) : Option VmState :=
  copyVmasLoop child (s.vmas parent) (s.setVmas child [])

/-- `vfs_close` on a backing file. -/
def vfsCloseBacking (mp : Mapping) : Mapping :=
  let mp := { mp with backingRefc := mp.backingRefc - 1 }
  if mp.backingRefc = 0 then { mp with backingClosed := true } else mp

/-- `mapping_destroy`. -/
def mappingDestroy (mp : Mapping) : Mapping :=
  if mp.refc > 1 then { mp with refc := mp.refc - 1 }
  else { vfsCloseBacking mp with freed := true }

/-- `vma_destroy`, on the mapping. -/
def vmaDestroy (s : VmState) (vma : TaskVma) : VmState :=
  match vma.map with
  | none => s
  | some m => s.setMap m (mappingDestroy (s.maps m))

/-- One round of the loop in `vma_unload_all`. The links of the freed area are
still read; `free` leaves them in place. -/
def vmaUnloadStep (p : Nat) (s : VmState) : VmState :=
  match s.vmas p with
  | [] => s
  | vma :: rest => (vmaDestroy s vma).setVmas p rest

/-- `vma_unload_all`. -/
def vmaUnloadAll (s : VmState) (p : Nat) : VmState := (vmaUnloadStep p)^[(s.vmas p).length] s

/-! ## Runs -/

/-- A new task, with the stack area of `create_user_task_withmm`. -/
def createTask (s : VmState) : Option VmState :=
  vmaInit { s with nTasks := s.nTasks + 1 } s.nTasks

/-- `create_user_task_fork`, on the areas. -/
def forkTask (s : VmState) (p : Nat) : Option VmState :=
  (createTask s).bind fun s' => copyTaskVmas s' s.nTasks p

inductive VmAct : Type where
  | create
  | mmap (p : Nat) (f : Option (List UInt8)) (addr len : Nat) (prot flags : BitVec 32)
      (offset : Nat)
  | loadElf (p : Nat) (junk : Nat → Page) (content : List UInt8)
  | execve (p : Nat) (junk : Nat → Page) (content : List UInt8)
  | fork (p : Nat)
  | unloadAll (p : Nat)

/-- One call by some task; `none` where no such task is, or where the kernel
panics. `execve` unloads the areas and starts again from the stack. -/
def vmStep (s : VmState) : VmAct → Option VmState
  | .create => createTask s
  | .mmap p f addr len prot flags offset =>
      if p < s.nTasks then (doMmap s p f addr len prot flags offset).map Prod.snd else none
  | .loadElf p junk content =>
      if p < s.nTasks then (loadElfTask s p junk content).map Prod.snd else none
  | .execve p junk content =>
      if p < s.nTasks then
        (vmaInit (vmaUnloadAll s p) p).bind fun s' =>
          (loadElfTask s' p junk content).map Prod.snd
      else none
  | .fork p => if p < s.nTasks then forkTask s p else none
  | .unloadAll p => if p < s.nTasks then some (vmaUnloadAll s p) else none

/-! ## The invariant -/

/-- The number of VMAs of a list that point to a mapping. -/
def pointersIn (l : List TaskVma) (m : Nat) : Nat := (l.map TaskVma.map).count (some m)

/-- The number of VMAs, in all tasks, that point to a mapping. -/
def pointers (s : VmState) (m : Nat) : Nat :=
  ∑ p ∈ Finset.range s.nTasks, pointersIn (s.vmas p) m

/-- A mapping some VMAs point to: the count is right, and it and its backing
file are in use. Without a VMA the file is closed and the mapping freed. -/
def MapOk (mp : Mapping) (n : Nat) : Prop :=
  (0 < n → mp = ⟨n, 1, false, false⟩) ∧
    (n = 0 → mp.freed = true ∧ mp.backingClosed = true ∧ mp.backingRefc = 0)

/-- What `vm_area_create_insert` keeps of a list, also where an end wraps to
zero. -/
structure AreasOk (areas : List VmArea) : Prop where
  sorted : areas.Pairwise fun a b => a.start ≤ b.start
  apart : areas.IsChain fun a b => a.stop ≤ b.start
  pages : ∀ a ∈ areas, u32 (a.start + 4096) ≤ a.stop

structure VmInv (s : VmState) : Prop where
  areasOk : ∀ p, AreasOk (s.areas p)
  absent : ∀ p, s.nTasks ≤ p → s.vmas p = []
  mapOk : ∀ m < s.nextMap, MapOk (s.maps m) (pointers s m)
  fresh : ∀ m, s.nextMap ≤ m → pointers s m = 0

/-! ## One mapping -/

theorem MapOk.create : MapOk ⟨1, 1, false, false⟩ 1 := by
  simp [MapOk]

theorem MapOk.copy {mp : Mapping} {n : Nat} (h : MapOk mp n) (hn : 0 < n) :
    MapOk { mp with refc := mp.refc + 1 } (n + 1) := by
  constructor
  · intro _
    rw [h.1 hn]
    simp
  · simp

/-- The last VMA closes the file, and no other one does. -/
theorem MapOk.destroy {mp : Mapping} {n : Nat} (h : MapOk mp (n + 1)) :
    MapOk (mappingDestroy mp) n := by
  rw [h.1 (Nat.succ_pos n)]
  unfold mappingDestroy
  rcases Nat.eq_zero_or_pos n with rfl | hn
  · simp [MapOk, vfsCloseBacking]
  · rw [if_pos (by push_cast; omega)]
    constructor
    · intro _
      simp
    · intro hz
      exact absurd hz hn.ne'

/-! ## Lists of areas -/

theorem AreasOk.nil : AreasOk [] := ⟨List.Pairwise.nil, by simp, by simp⟩

theorem AreasOk.insert {vma : VmArea} {areas areas' : List VmArea} (h : AreasOk areas)
    (hins : vmAreaCreateInsert true vma areas = some (some areas')) : AreasOk areas' := by
  have hmem := mem_vmAreaCreateInsert hins
  obtain ⟨hpage, -, hover, heq⟩ := vmAreaCreateInsert_some.mp hins
  obtain ⟨hlast, hhead⟩ := vmAreaOverlaps_eq_false.mp hover
  have happ := insertPoint_append vma areas
  have hsorted := h.sorted
  have hapart := h.apart
  rw [← happ, List.pairwise_append] at hsorted
  rw [← happ, List.isChain_append] at hapart
  refine ⟨?_, ?_, fun a ha => ?_⟩
  · rw [heq, List.pairwise_append, List.pairwise_cons]
    refine ⟨hsorted.1, ⟨fun a ha => (insertPoint_after h.sorted a ha).le, hsorted.2.1⟩, ?_⟩
    intro a ha b hb
    rcases List.mem_cons.mp hb with rfl | hb
    · exact insertPoint_before a ha
    · exact hsorted.2.2 a ha b hb
  · rw [heq, List.isChain_append, List.isChain_cons]
    exact ⟨hapart.1, ⟨hhead, hapart.2.1⟩, fun a ha b hb => by
      cases hb
      exact hlast a ha⟩
  · rcases (hmem a).mp ha with rfl | ha
    · exact hpage
    · exact h.pages a ha

/-- An area of such a list goes behind those before it. -/
theorem AreasOk.insert_last {vma : VmArea} {before rest : List VmArea}
    (h : AreasOk (before ++ vma :: rest)) :
    insertPoint vma before = (before, []) ∧
      vmAreaCreateInsert true vma before = some (some (before ++ [vma])) := by
  have hstart : ∀ a ∈ before, (¬ vmAreaLess vma a : Bool) = true := by
    intro a ha
    have := (List.pairwise_append.mp h.sorted).2.2 a ha vma (by simp)
    simpa [vmAreaLess] using this
  have hplace : insertPoint vma before = (before, []) :=
    Prod.ext (List.takeWhile_eq_self_iff.mpr hstart) (List.dropWhile_eq_nil_iff.mpr hstart)
  have hfree : vmAreaOverlaps vma before [] = false := by
    refine vmAreaOverlaps_eq_false.mpr ⟨fun a ha => ?_, by simp⟩
    exact (List.isChain_append.mp h.apart).2.2 a ha vma (by simp)
  refine ⟨hplace, vmAreaCreateInsert_some.mpr ⟨h.pages vma (by simp), rfl, ?_, ?_⟩⟩
  · rw [hplace]
    exact hfree
  · rw [hplace]

/-- So the areas come out of `copy_vmas` as they went in. -/
theorem AreasOk.copyVmas {areas : List VmArea} (h : AreasOk areas) :
    copyVmas areas = some areas := by
  have hcopy : ∀ (rest before : List VmArea), AreasOk (before ++ rest) →
      (rest.foldlM (fun acc vma => (vmAreaCreateInsert true vma acc).join) before) =
        some (before ++ rest) := by
    intro rest
    induction rest with
    | nil => simp
    | cons vma rest ih =>
        intro before hok
        have hnext : AreasOk ((before ++ [vma]) ++ rest) := by simpa using hok
        rw [List.foldlM_cons, hok.insert_last.2]
        simpa using ih (before ++ [vma]) hnext
  exact hcopy areas [] h

theorem taskInsertPoint_map (vma : TaskVma) (vmas : List TaskVma) :
    ((taskInsertPoint vma vmas).1.map TaskVma.area, (taskInsertPoint vma vmas).2.map TaskVma.area) =
      insertPoint vma.area (vmas.map TaskVma.area) := by
  rw [insertPoint, List.takeWhile_map, List.dropWhile_map]
  rfl

theorem insertTaskVma_some {vma : TaskVma} {l l' : List TaskVma} :
    insertTaskVma vma l = some (some l') ↔
      (∃ areas, vmAreaCreateInsert true vma.area (l.map TaskVma.area) = some (some areas)) ∧
        l' = (taskInsertPoint vma l).1 ++ vma :: (taskInsertPoint vma l).2 := by
  unfold insertTaskVma
  cases vmAreaCreateInsert true vma.area (l.map TaskVma.area) with
  | none => simp
  | some r => cases r <;> simp [eq_comm]

/-- Identities aside, it is `vm_area_create_insert`. -/
theorem insertTaskVma_map (vma : TaskVma) (l : List TaskVma) :
    ((insertTaskVma vma l).map fun r => r.map fun l' => l'.map TaskVma.area) =
      vmAreaCreateInsert true vma.area (l.map TaskVma.area) := by
  unfold insertTaskVma
  cases hins : vmAreaCreateInsert true vma.area (l.map TaskVma.area) with
  | none => rfl
  | some r =>
      cases r with
      | none => rfl
      | some areas =>
          obtain ⟨-, -, -, heq⟩ := vmAreaCreateInsert_some.mp hins
          rw [heq, ← taskInsertPoint_map]
          simp

theorem insertTaskVma_areas {vma : TaskVma} {l l' : List TaskVma}
    (h : insertTaskVma vma l = some (some l')) :
    vmAreaCreateInsert true vma.area (l.map TaskVma.area) =
      some (some (l'.map TaskVma.area)) := by
  rw [← insertTaskVma_map, h]
  rfl

theorem insertTaskVma_perm {vma : TaskVma} {l l' : List TaskVma}
    (h : insertTaskVma vma l = some (some l')) : l'.Perm (vma :: l) := by
  obtain ⟨-, rfl⟩ := insertTaskVma_some.mp h
  refine List.perm_middle.trans (List.Perm.cons vma ?_)
  rw [taskInsertPoint, List.takeWhile_append_dropWhile]

/-! ## Counting -/

theorem pointersIn_cons (vma : TaskVma) (l : List TaskVma) (m : Nat) :
    pointersIn (vma :: l) m = pointersIn l m + if vma.map = some m then 1 else 0 := by
  simp [pointersIn, List.count_cons]

theorem pointersIn_perm {l l' : List TaskVma} (h : l.Perm l') (m : Nat) :
    pointersIn l m = pointersIn l' m := (h.map TaskVma.map).count_eq (some m)

/-- One task's list changes. -/
theorem pointers_setVmas {s : VmState} {p : Nat} (hp : p < s.nTasks) (l : List TaskVma)
    (m : Nat) :
    pointers (s.setVmas p l) m + pointersIn (s.vmas p) m = pointers s m + pointersIn l m := by
  have hmem : p ∈ Finset.range s.nTasks := Finset.mem_range.mpr hp
  have hrest : ∑ q ∈ (Finset.range s.nTasks).erase p, pointersIn ((s.setVmas p l).vmas q) m =
      ∑ q ∈ (Finset.range s.nTasks).erase p, pointersIn (s.vmas q) m := by
    refine Finset.sum_congr rfl fun q hq => ?_
    simp [VmState.setVmas, Finset.ne_of_mem_erase hq]
  have hself : (s.setVmas p l).vmas p = l := Function.update_self ..
  have hnew := Finset.add_sum_erase (Finset.range s.nTasks)
    (fun q => pointersIn ((s.setVmas p l).vmas q) m) hmem
  have hold := Finset.add_sum_erase (Finset.range s.nTasks)
    (fun q => pointersIn (s.vmas q) m) hmem
  simp only [hself, hrest] at hnew
  have hnew : pointersIn l m + _ = pointers (s.setVmas p l) m := hnew
  have hold : pointersIn (s.vmas p) m + _ = pointers s m := hold
  omega

theorem pointersIn_le {s : VmState} {p : Nat} (hp : p < s.nTasks) (m : Nat) :
    pointersIn (s.vmas p) m ≤ pointers s m :=
  Finset.single_le_sum (f := fun q => pointersIn (s.vmas q) m) (fun _ _ => Nat.zero_le _)
    (Finset.mem_range.mpr hp)

/-! ## Steps -/

@[simp] theorem setVmas_vmas (s : VmState) (p : Nat) (l : List TaskVma) (q : Nat) :
    (s.setVmas p l).vmas q = if q = p then l else s.vmas q := by
  simp [VmState.setVmas, Function.update_apply]

@[simp] theorem setMap_maps (s : VmState) (m : Nat) (mp : Mapping) (k : Nat) :
    (s.setMap m mp).maps k = if k = m then mp else s.maps k := by
  simp [VmState.setMap, Function.update_apply]

/-- A list changes to one as good, and every count with it. -/
theorem VmInv.setVmas {s : VmState} (hinv : VmInv s) {p : Nat} (hp : p < s.nTasks)
    {l : List TaskVma} (hl : AreasOk (l.map TaskVma.area)) :
    (∀ q, AreasOk ((s.setVmas p l).areas q)) ∧
      ∀ q, s.nTasks ≤ q → (s.setVmas p l).vmas q = [] := by
  constructor
  · intro q
    rw [VmState.areas, setVmas_vmas]
    split
    · exact hl
    · exact hinv.areasOk q
  · intro q hq
    rw [setVmas_vmas, if_neg (by omega)]
    exact hinv.absent q hq

/-- Inserting an area counts one pointer to its mapping. -/
theorem pointers_insert {s : VmState} {p : Nat} (hp : p < s.nTasks) {vma : TaskVma}
    {l : List TaskVma} (h : insertTaskVma vma (s.vmas p) = some (some l)) (m : Nat) :
    pointers (s.setVmas p l) m = pointers s m + if vma.map = some m then 1 else 0 := by
  have hset := pointers_setVmas hp l m
  rw [pointersIn_perm (insertTaskVma_perm h), pointersIn_cons] at hset
  omega

theorem VmInv.insertAreas {s : VmState} (hinv : VmInv s) {p : Nat} {vma : TaskVma}
    {l : List TaskVma} (h : insertTaskVma vma (s.vmas p) = some (some l)) :
    AreasOk (l.map TaskVma.area) := (hinv.areasOk p).insert (insertTaskVma_areas h)

/-- A new area, with a mapping of its own if it has a file. -/
theorem createArea_inv {s s' : VmState} (hinv : VmInv s) {p : Nat} (hp : p < s.nTasks)
    {vma : VmArea} (h : createArea s p vma = some (some s')) :
    VmInv s' ∧ s'.nTasks = s.nTasks := by
  unfold createArea at h
  split at h
  · simp only [Option.map_eq_some_iff] at h
    obtain ⟨_, hins, l, rfl, rfl⟩ := h
    obtain ⟨hareas, habsent⟩ := hinv.setVmas hp (hinv.insertAreas hins)
    have hcount : ∀ m, pointers (s.setVmas p l) m = pointers s m := by
      intro m
      simp [pointers_insert hp hins m]
    refine ⟨⟨hareas, habsent, fun m hm => ?_, fun m hm => ?_⟩, rfl⟩
    · rw [hcount]
      exact hinv.mapOk m hm
    · rw [hcount]
      exact hinv.fresh m hm
  · simp only [mappingFindOrCreate, Option.map_eq_some_iff] at h
    obtain ⟨_, hins, l, rfl, rfl⟩ := h
    obtain ⟨hareas, habsent⟩ := hinv.setVmas hp (hinv.insertAreas hins)
    have hcount : ∀ m, pointers (s.setVmas p l) m =
        pointers s m + if s.nextMap = m then 1 else 0 := by
      intro m
      simp [pointers_insert hp hins m]
    refine ⟨⟨hareas, habsent, fun m hm => ?_, fun m hm => ?_⟩, rfl⟩
    · show MapOk (Function.update s.maps s.nextMap ⟨1, 1, false, false⟩ m)
        (pointers (s.setVmas p l) m)
      rw [hcount, Function.update_apply]
      by_cases hnew : m = s.nextMap
      · rw [if_pos hnew, if_pos hnew.symm, hinv.fresh m hnew.ge]
        exact MapOk.create
      · rw [if_neg hnew, if_neg (Ne.symm hnew)]
        exact hinv.mapOk m (lt_of_le_of_ne (Nat.lt_succ_iff.mp hm) hnew)
    · show pointers (s.setVmas p l) m = 0
      have hm : s.nextMap + 1 ≤ m := hm
      rw [hcount, if_neg (by omega), hinv.fresh m (by omega)]

theorem createArea_anonymous {s : VmState} {p : Nat} {vma : VmArea} (h : vma.mapping = none) :
    createArea s p vma =
      (insertTaskVma ⟨vma, none⟩ (s.vmas p)).map fun r => r.map fun l => s.setVmas p l := by
  unfold createArea
  rw [h]

/-- `vma_init` on a task without areas puts in the stack area alone. -/
theorem vmaInit_eq {s : VmState} {p : Nat} (hempty : s.vmas p = []) :
    ∃ s', createArea s p stackVma = some (some s') ∧ vmaInit s p = some s' ∧
      s' = s.setVmas p [⟨stackVma, none⟩] := by
  have hset : s.setVmas p [] = s := by
    rw [VmState.setVmas, Function.update_eq_self_iff.mpr hempty.symm]
  have hins : insertTaskVma ⟨stackVma, none⟩ [] = some (some [⟨stackVma, none⟩]) := by
    decide +kernel
  have hcreate : createArea s p stackVma = some (some (s.setVmas p [⟨stackVma, none⟩])) := by
    rw [createArea_anonymous rfl, hempty, hins]
    rfl
  refine ⟨_, hcreate, ?_, rfl⟩
  rw [vmaInit, hset, hcreate]
  rfl

theorem vmaInit_inv {s s' : VmState} (hinv : VmInv s) {p : Nat} (hp : p < s.nTasks)
    (hempty : s.vmas p = []) (h : vmaInit s p = some s') :
    VmInv s' ∧ s'.nTasks = s.nTasks := by
  obtain ⟨s'', hcreate, hinit, -⟩ := vmaInit_eq hempty
  rw [hinit] at h
  exact Option.some.inj h ▸ createArea_inv hinv hp hcreate

theorem createTask_inv {s s' : VmState} (hinv : VmInv s) (h : createTask s = some s') :
    VmInv s' ∧ s'.nTasks = s.nTasks + 1 ∧
      ∀ q, s'.vmas q = if q = s.nTasks then [⟨stackVma, none⟩] else s.vmas q := by
  have hgrown : VmInv { s with nTasks := s.nTasks + 1 } := by
    have hcount : ∀ m, pointers { s with nTasks := s.nTasks + 1 } m = pointers s m := by
      intro m
      show ∑ q ∈ Finset.range (s.nTasks + 1), pointersIn (s.vmas q) m = pointers s m
      rw [Finset.sum_range_succ, hinv.absent s.nTasks le_rfl]
      rfl
    refine ⟨hinv.areasOk, fun q hq => hinv.absent q (Nat.le_of_succ_le hq), ?_, ?_⟩
    · intro m hm
      rw [hcount]
      exact hinv.mapOk m hm
    · intro m hm
      rw [hcount]
      exact hinv.fresh m hm
  have hempty : s.vmas s.nTasks = [] := hinv.absent s.nTasks le_rfl
  obtain ⟨s'', hcreate, hinit, heq⟩ :=
    vmaInit_eq (s := { s with nTasks := s.nTasks + 1 }) (p := s.nTasks) hempty
  rw [createTask, hinit] at h
  cases h
  obtain ⟨hinv', hn⟩ := createArea_inv hgrown (Nat.lt_succ_self s.nTasks) hcreate
  refine ⟨hinv', hn, fun q => ?_⟩
  rw [heq, setVmas_vmas]

theorem doMmap_inv {s s' : VmState} (hinv : VmInv s) {p : Nat} (hp : p < s.nTasks)
    {f : Option (List UInt8)} {addr len : Nat} {prot flags : BitVec 32} {offset : Nat} {r : Int}
    (h : doMmap s p f addr len prot flags offset = some (r, s')) : VmInv s' := by
  unfold doMmap at h
  split at h
  · cases h
    exact hinv
  · rw [Option.map_eq_some_iff] at h
    obtain ⟨made, hmade, h⟩ := h
    cases made with
    | none =>
        cases h
        exact hinv
    | some s'' =>
        cases h
        exact (createArea_inv hinv hp hmade).1

theorem loadSegmentsTask_inv {content : List UInt8} {p : Nat} (phs : List ProgramHeader) :
    ∀ {s s' : VmState} {lastPage lastPage' : Nat} {rc : Int}, VmInv s → p < s.nTasks →
      loadSegmentsTask content p s lastPage phs = some (rc, s', lastPage') →
      VmInv s' ∧ s'.nTasks = s.nTasks := by
  induction phs with
  | nil =>
      intro s s' lastPage lastPage' rc hinv _ h
      simp only [loadSegmentsTask, Option.some.injEq, Prod.mk.injEq] at h
      obtain ⟨-, rfl, -⟩ := h
      exact ⟨hinv, rfl⟩
  | cons ph phs ih =>
      intro s s' lastPage lastPage' rc hinv hp h
      unfold loadSegmentsTask at h
      split at h
      · obtain ⟨made, hmade, h⟩ := Option.bind_eq_some_iff.mp h
        cases made with
        | none =>
            cases h
            exact ⟨hinv, rfl⟩
        | some s'' =>
            obtain ⟨hinv', hn⟩ := createArea_inv hinv hp hmade
            obtain ⟨hinv'', hn'⟩ := ih hinv' (hn ▸ hp) h
            exact ⟨hinv'', hn'.trans hn⟩
      · exact ih hinv hp h

theorem loadElfTask_inv {s s' : VmState} (hinv : VmInv s) {p : Nat} (hp : p < s.nTasks)
    {junk : Nat → Page} {content : List UInt8} {r : Int}
    (h : loadElfTask s p junk content = some (r, s')) : VmInv s' := by
  unfold loadElfTask at h
  dsimp only at h
  split at h
  · cases h
    exact hinv
  split at h
  · cases h
    exact hinv
  split at h
  · cases h
  rename_i rc s₁ lastPage hload
  obtain ⟨hinv₁, hn⟩ := loadSegmentsTask_inv _ hinv hp hload
  split at h
  · cases h
    exact hinv₁
  split at h
  · cases h
  · cases h
    exact hinv₁
  · rename_i s₂ hbrk
    cases h
    exact (createArea_inv hinv₁ (hn ▸ hp) hbrk).1

/-! ## `copy_vmas` -/

/-- Counting a copy changes the one mapping only. -/
theorem mappingCopy_spec (s : VmState) (map : Option Nat) :
    (mappingCopy s map).vmas = s.vmas ∧ (mappingCopy s map).nTasks = s.nTasks ∧
      (mappingCopy s map).nextMap = s.nextMap ∧
      ∀ m, (mappingCopy s map).maps m =
        if map = some m then { s.maps m with refc := (s.maps m).refc + 1 } else s.maps m := by
  unfold mappingCopy
  cases map with
  | none => simp
  | some k =>
      refine ⟨rfl, rfl, rfl, fun m => ?_⟩
      by_cases hm : m = k
      · simp [hm]
      · simp [hm, Ne.symm hm]

@[simp] theorem copiedVma_eq (vma : TaskVma) : copiedVma vma = vma := rfl

/-- The rest of the parent's list goes behind what was copied of it. -/
theorem copyVmasLoop_spec {child parent : Nat} (hne : parent ≠ child) (rest : List TaskVma) :
    ∀ {s : VmState}, VmInv s → child < s.nTasks → parent < s.nTasks →
      s.vmas parent = s.vmas child ++ rest →
      ∃ s', copyVmasLoop child rest s = some s' ∧ VmInv s' ∧ s'.nTasks = s.nTasks ∧
        s'.vmas child = s.vmas parent ∧ ∀ q, q ≠ child → s'.vmas q = s.vmas q := by
  induction rest with
  | nil =>
      intro s hinv _ _ heq
      rw [List.append_nil] at heq
      exact ⟨s, rfl, hinv, rfl, heq.symm, fun _ _ => rfl⟩
  | cons vma rest ih =>
      intro s hinv hc hp heq
      have hok : AreasOk (s.areas child ++ vma.area :: rest.map TaskVma.area) := by
        have := hinv.areasOk parent
        rwa [VmState.areas, heq, List.map_append, List.map_cons] at this
      obtain ⟨hplace, hcreate⟩ := hok.insert_last
      have hins : insertTaskVma vma (s.vmas child) = some (some (s.vmas child ++ [vma])) := by
        refine insertTaskVma_some.mpr ⟨⟨_, hcreate⟩, ?_⟩
        have hmap := (taskInsertPoint_map vma (s.vmas child)).trans hplace
        have hlen := congrArg (fun x => x.2.length) hmap
        have hnil : (taskInsertPoint vma (s.vmas child)).2 = [] := by
          simpa using hlen
        have happ : (taskInsertPoint vma (s.vmas child)).1 ++ (taskInsertPoint vma
            (s.vmas child)).2 = s.vmas child := List.takeWhile_append_dropWhile
        rw [hnil, List.append_nil] at happ
        rw [hnil, happ]
      set s₁ := mappingCopy (s.setVmas child (s.vmas child ++ [vma])) vma.map with hs₁
      obtain ⟨hcopy, hn, hnext, hmaps⟩ :=
        mappingCopy_spec (s.setVmas child (s.vmas child ++ [vma])) vma.map
      rw [← hs₁] at hcopy hn hnext hmaps
      have hvmas : ∀ q, s₁.vmas q = if q = child then s.vmas child ++ [vma] else s.vmas q := by
        intro q
        rw [hcopy, setVmas_vmas]
      have hcount : ∀ m, pointers s₁ m = pointers s m + if vma.map = some m then 1 else 0 := by
        intro m
        rw [← pointers_insert hc hins m]
        unfold pointers
        rw [hcopy, hn]
      obtain ⟨hareas, habsent⟩ := hinv.setVmas hc (hinv.insertAreas hins)
      have hinv₁ : VmInv s₁ := by
        refine ⟨fun q => ?_, fun q hq => ?_, fun m hm => ?_, fun m hm => ?_⟩
        · have := hareas q
          rwa [VmState.areas, setVmas_vmas, ← hvmas] at this
        · rw [hvmas, ← setVmas_vmas]
          exact habsent q (hn ▸ hq)
        · rw [hcount, hmaps]
          have hold := hinv.mapOk m (hnext ▸ hm)
          by_cases hself : vma.map = some m
          · -- the parent has a pointer to it
            have hpos : 0 < pointers s m := by
              refine lt_of_lt_of_le ?_ (pointersIn_le hp m)
              rw [heq, pointersIn, List.count_pos_iff, List.mem_map]
              exact ⟨vma, by simp, hself⟩
            rw [if_pos hself, if_pos hself]
            exact hold.copy hpos
          · rw [if_neg hself, if_neg hself]
            exact hold
        · rw [hcount]
          have hzero := hinv.fresh m (hnext ▸ hm)
          rw [hzero, if_neg]
          intro hself
          have hle := pointersIn_le hp m
          rw [hzero, heq, Nat.le_zero, pointersIn, List.count_eq_zero] at hle
          exact hle (List.mem_map.mpr ⟨vma, by simp, hself⟩)
      have heq₁ : s₁.vmas parent = s₁.vmas child ++ rest := by
        rw [hvmas, hvmas, if_neg hne, if_pos rfl, heq, List.append_assoc]
        rfl
      obtain ⟨s', hloop, hinv', hn', hchild, hothers⟩ :=
        ih hinv₁ (hn ▸ hc) (hn ▸ hp) heq₁
      refine ⟨s', ?_, hinv', hn'.trans hn, ?_, fun q hq => ?_⟩
      · rw [copyVmasLoop, copiedVma_eq, hins, Option.bind_some, Option.bind_some]
        exact hloop
      · rw [hchild, hvmas, if_neg hne]
      · rw [hothers q hq, hvmas, if_neg hq]

/-- `copy_vmas` gives the child the parent's list, mappings included. -/
theorem forkTask_spec {s : VmState} (hinv : VmInv s) {p : Nat} (hp : p < s.nTasks) :
    ∃ s', forkTask s p = some s' ∧ VmInv s' ∧ s'.vmas s.nTasks = s.vmas p ∧
      ∀ q, q ≠ s.nTasks → s'.vmas q = s.vmas q := by
  have hne : p ≠ s.nTasks := hp.ne
  obtain ⟨s₁, -, hinit, -⟩ := vmaInit_eq (s := { s with nTasks := s.nTasks + 1 })
    (p := s.nTasks) (hinv.absent s.nTasks le_rfl)
  obtain ⟨hinv₁, hn, hvmas⟩ := createTask_inv hinv hinit
  have hchild : s.nTasks < s₁.nTasks := by omega
  -- `list_init` drops the stack area, which has no mapping
  have hreset : VmInv (s₁.setVmas s.nTasks []) := by
    obtain ⟨hareas, habsent⟩ := hinv₁.setVmas hchild (l := []) AreasOk.nil
    have hcount : ∀ m, pointers (s₁.setVmas s.nTasks []) m = pointers s₁ m := by
      intro m
      have hset := pointers_setVmas hchild [] m
      have hstack : pointersIn (s₁.vmas s.nTasks) m = 0 := by
        rw [hvmas, if_pos rfl]
        simp [pointersIn]
      have hnil : pointersIn [] m = 0 := rfl
      omega
    refine ⟨hareas, habsent, fun m hm => ?_, fun m hm => ?_⟩
    · rw [hcount]
      exact hinv₁.mapOk m hm
    · rw [hcount]
      exact hinv₁.fresh m hm
  have hparent : (s₁.setVmas s.nTasks []).vmas p = s.vmas p := by
    rw [setVmas_vmas, if_neg hne, hvmas, if_neg hne]
  obtain ⟨s', hloop, hinv', -, hlist, hothers⟩ :=
    copyVmasLoop_spec hne (s.vmas p) hreset hchild (by omega : p < s₁.nTasks) (by
      rw [hparent, setVmas_vmas, if_pos rfl]
      rfl)
  refine ⟨s', ?_, hinv', hlist.trans hparent, fun q hq => ?_⟩
  · have hcreate : createTask s = some s₁ := hinit
    have hp₁ : s₁.vmas p = s.vmas p := by rw [hvmas, if_neg hne]
    rw [forkTask, hcreate, Option.bind_some, copyTaskVmas, hp₁]
    exact hloop
  · rw [hothers q hq, setVmas_vmas, if_neg hq, hvmas, if_neg hq]

/-! ## `vma_unload_all` -/

theorem AreasOk.tail {a : VmArea} {areas : List VmArea} (h : AreasOk (a :: areas)) :
    AreasOk areas :=
  ⟨(List.pairwise_cons.mp h.sorted).2, (List.isChain_cons.mp h.apart).2,
    fun b hb => h.pages b (List.mem_cons_of_mem a hb)⟩

/-- Destroying an area changes the one mapping only. -/
theorem vmaDestroy_spec (s : VmState) (vma : TaskVma) :
    (vmaDestroy s vma).vmas = s.vmas ∧ (vmaDestroy s vma).nTasks = s.nTasks ∧
      (vmaDestroy s vma).nextMap = s.nextMap ∧
      ∀ m, (vmaDestroy s vma).maps m =
        if vma.map = some m then mappingDestroy (s.maps m) else s.maps m := by
  unfold vmaDestroy
  cases vma.map with
  | none => simp
  | some k =>
      refine ⟨rfl, rfl, rfl, fun m => ?_⟩
      by_cases hm : m = k
      · simp [hm]
      · simp [hm, Ne.symm hm]

/-- One round of the loop keeps the counts, and closes what has lost its last
area. -/
theorem vmaUnloadStep_inv {s : VmState} (hinv : VmInv s) (p : Nat) :
    VmInv (vmaUnloadStep p s) ∧ (vmaUnloadStep p s).nTasks = s.nTasks ∧
      (vmaUnloadStep p s).nextMap = s.nextMap := by
  unfold vmaUnloadStep
  split
  · exact ⟨hinv, rfl, rfl⟩
  · rename_i vma rest hlist
    have hp : p < s.nTasks := by
      by_contra hge
      rw [hinv.absent p (Nat.le_of_not_lt hge)] at hlist
      cases hlist
    have hrest : AreasOk (rest.map TaskVma.area) := by
      have := hinv.areasOk p
      rw [VmState.areas, hlist, List.map_cons] at this
      exact this.tail
    obtain ⟨hvmas, hn, hnext, hmaps⟩ := vmaDestroy_spec s vma
    have hcount : ∀ m, pointers ((vmaDestroy s vma).setVmas p rest) m +
        (if vma.map = some m then 1 else 0) = pointers s m := by
      intro m
      have hset := pointers_setVmas (s := s) hp rest m
      rw [hlist, pointersIn_cons] at hset
      have hsame : pointers ((vmaDestroy s vma).setVmas p rest) m =
          pointers (s.setVmas p rest) m := by
        unfold pointers VmState.setVmas
        rw [hvmas, hn]
      omega
    obtain ⟨hareas, habsent⟩ := hinv.setVmas hp hrest
    refine ⟨⟨fun q => ?_, fun q hq => ?_, fun m hm => ?_, fun m hm => ?_⟩, hn, hnext⟩
    · have := hareas q
      rwa [VmState.areas, setVmas_vmas, ← hvmas, ← setVmas_vmas] at this
    · rw [setVmas_vmas, hvmas, ← setVmas_vmas]
      exact habsent q (hn ▸ hq)
    · have hold := hinv.mapOk m (hnext ▸ hm)
      rw [← hcount m] at hold
      show MapOk ((vmaDestroy s vma).maps m) _
      rw [hmaps]
      by_cases hself : vma.map = some m
      · rw [if_pos hself] at hold ⊢
        exact hold.destroy
      · rw [if_neg hself] at hold ⊢
        exact hold
    · have := hcount m
      have := hinv.fresh m (hnext ▸ hm)
      omega

theorem vmaUnloadStep_vmas (s : VmState) (p : Nat) :
    (vmaUnloadStep p s).vmas p = (s.vmas p).tail := by
  unfold vmaUnloadStep
  split
  · rename_i hlist
    rw [hlist]
    rfl
  · rename_i vma rest hlist
    rw [setVmas_vmas, if_pos rfl, hlist]
    rfl

theorem unloadSteps_inv {s : VmState} (hinv : VmInv s) (p k : Nat) :
    VmInv ((vmaUnloadStep p)^[k] s) ∧ ((vmaUnloadStep p)^[k] s).nTasks = s.nTasks ∧
      ((vmaUnloadStep p)^[k] s).vmas p = (s.vmas p).drop k := by
  induction k with
  | zero => exact ⟨hinv, rfl, rfl⟩
  | succ k ih =>
      obtain ⟨hinv', hn, hdrop⟩ := ih
      obtain ⟨hinv'', hn', -⟩ := vmaUnloadStep_inv hinv' p
      rw [Function.iterate_succ_apply']
      refine ⟨hinv'', hn'.trans hn, ?_⟩
      rw [vmaUnloadStep_vmas, hdrop, List.tail_drop]

/-- The loop ends with no area left. -/
theorem vmaUnloadAll_inv {s : VmState} (hinv : VmInv s) (p : Nat) :
    VmInv (vmaUnloadAll s p) ∧ (vmaUnloadAll s p).nTasks = s.nTasks ∧
      (vmaUnloadAll s p).vmas p = [] := by
  obtain ⟨hinv', hn, hdrop⟩ := unloadSteps_inv hinv p (s.vmas p).length
  exact ⟨hinv', hn, hdrop.trans List.drop_length⟩

/-! ## `load_elf` on the task's areas -/

theorem createArea_areas (s : VmState) (p : Nat) (vma : VmArea) :
    ((createArea s p vma).map fun r => r.map fun s' => s'.areas p) =
      vmAreaCreateInsert true vma (s.areas p) := by
  have hset : ∀ (s' : VmState) l, (s'.setVmas p l).areas p = l.map TaskVma.area := by
    intro s' l
    rw [VmState.areas, setVmas_vmas, if_pos rfl]
  have hmap : ∀ s' map,
      (((insertTaskVma ⟨vma, map⟩ (s.vmas p)).map fun r => r.map fun l =>
        VmState.setVmas s' p l).map fun r => r.map fun t => t.areas p) =
      vmAreaCreateInsert true vma (s.areas p) := by
    intro s' map
    rw [VmState.areas, ← insertTaskVma_map ⟨vma, map⟩, Option.map_map]
    congr 1
    funext r
    cases r <;> simp [hset]
  unfold createArea
  split
  · exact hmap s none
  · exact hmap (mappingFindOrCreate s).2 _

theorem loadSegmentsTask_areas (content : List UInt8) (p : Nat) (phs : List ProgramHeader) :
    ∀ (s : VmState) (lastPage k : Nat),
      ((loadSegmentsTask content p s lastPage phs).map fun r =>
        (r.1, (⟨r.2.1.areas p, r.2.2⟩ : ElfState))) =
      loadSegments (fun _ => true) content k ⟨s.areas p, lastPage⟩ phs := by
  induction phs with
  | nil =>
      intro s lastPage k
      rfl
  | cons ph phs ih =>
      intro s lastPage k
      rw [loadSegmentsTask, loadSegments]
      split
      · rw [← createArea_areas]
        cases createArea s p (segmentVma content ph) with
        | none => rfl
        | some made =>
            cases made with
            | none => rfl
            | some s' => exact ih s' (raiseLastPage ph lastPage) (k + 1)
      · exact ih s lastPage (k + 1)

/-- Identities aside, it is `load_elf` with the allocations succeeding. -/
theorem loadElfTask_areas (s : VmState) (p : Nat) (junk : Nat → Page) (content : List UInt8) :
    ((loadElfTask s p junk content).map fun r => (r.1, r.2.areas p)) =
      loadElf (fun _ => true) junk content (s.areas p) := by
  unfold loadElfTask loadElf
  dsimp only
  split
  · rfl
  split
  · rfl
  rw [if_neg (by decide), ← loadSegmentsTask_areas content p _ s 0 1]
  cases loadSegmentsTask content p s 0 (programHeaders junk content) with
  | none => rfl
  | some r =>
      obtain ⟨rc, s', lastPage⟩ := r
      dsimp only [Option.map_some]
      split
      · rfl
      · rw [← createArea_areas]
        cases createArea s' p (brkVma (pgRndUp lastPage)) with
        | none => rfl
        | some made => cases made <;> rfl

/-! ## Runs -/

theorem VmInv.init : VmInv VmState.init := by
  have hzero : ∀ m, pointers VmState.init m = 0 := fun m => rfl
  refine ⟨fun p => AreasOk.nil, fun p _ => rfl, fun m hm => ?_, fun m _ => hzero m⟩
  exact absurd hm (Nat.not_lt_zero m)

theorem vmStep_inv (s : VmState) (a : VmAct) (s' : VmState) (hinv : VmInv s)
    (h : vmStep s a = some s') : VmInv s' := by
  cases a with
  | create => exact (createTask_inv hinv h).1
  | mmap p f addr len prot flags offset =>
      obtain ⟨hp, h⟩ := Option.ite_none_right_eq_some.mp h
      obtain ⟨r, hr, rfl⟩ := Option.map_eq_some_iff.mp h
      exact doMmap_inv hinv hp hr
  | loadElf p junk content =>
      obtain ⟨hp, h⟩ := Option.ite_none_right_eq_some.mp h
      obtain ⟨r, hr, rfl⟩ := Option.map_eq_some_iff.mp h
      exact loadElfTask_inv hinv hp hr
  | execve p junk content =>
      obtain ⟨hp, h⟩ := Option.ite_none_right_eq_some.mp h
      obtain ⟨s₁, hinit, h⟩ := Option.bind_eq_some_iff.mp h
      obtain ⟨r, hr, rfl⟩ := Option.map_eq_some_iff.mp h
      obtain ⟨hinv', hn, hempty⟩ := vmaUnloadAll_inv hinv p
      obtain ⟨hinv₁, hn₁⟩ := vmaInit_inv hinv' (hn ▸ hp) hempty hinit
      exact loadElfTask_inv hinv₁ (hn₁ ▸ hn ▸ hp) hr
  | fork p =>
      obtain ⟨hp, h⟩ := Option.ite_none_right_eq_some.mp h
      obtain ⟨s'', hfork, hinv', -⟩ := forkTask_spec hinv hp
      rw [hfork] at h
      exact Option.some.inj h ▸ hinv'
  | unloadAll p =>
      obtain ⟨hp, h⟩ := Option.ite_none_right_eq_some.mp h
      exact Option.some.inj h ▸ (vmaUnloadAll_inv hinv p).1

/-- The count of every mapping is the number of VMAs that point to it, and the
mapping is freed and its file closed exactly when there are none. -/
def CountsExact (s : VmState) : Prop :=
  ∀ m < s.nextMap,
    (0 < pointers s m → (s.maps m).refc = pointers s m) ∧
      ((s.maps m).freed = true ↔ pointers s m = 0) ∧
      ((s.maps m).backingClosed = true ↔ pointers s m = 0) ∧
      (s.maps m).backingRefc = if pointers s m = 0 then 0 else 1

theorem VmInv.countsExact {s : VmState} (hinv : VmInv s) : CountsExact s := by
  intro m hm
  obtain ⟨hpos, hzero⟩ := hinv.mapOk m hm
  rcases Nat.eq_zero_or_pos (pointers s m) with hn | hn
  · obtain ⟨hfreed, hclosed, hrefc⟩ := hzero hn
    simp [hn, hfreed, hclosed, hrefc]
  · simp [hpos hn, hn.ne']

/-- **Mappings live as long as their areas.** After every run, and after every
round of `vma_unload_all` in any task, the counts are exact; and a fork then
gives the child the list of its parent, mappings included, and changes no
other list. -/
theorem mapping_lifetime (acts : List VmAct) (s : VmState)
    (hrun : runSteps vmStep VmState.init acts = some s) :
    CountsExact s ∧ (∀ p k, CountsExact ((vmaUnloadStep p)^[k] s)) ∧
      (∀ m, s.nextMap ≤ m → pointers s m = 0) ∧
      ∀ p < s.nTasks, ∃ s', forkTask s p = some s' ∧ CountsExact s' ∧
        s'.vmas s.nTasks = s.vmas p ∧ copyVmas (s.areas p) = some (s'.areas s.nTasks) ∧
        ∀ q, q ≠ s.nTasks → s'.vmas q = s.vmas q := by
  have hinv : VmInv s := runSteps_invariant vmStep_inv VmInv.init hrun
  refine ⟨hinv.countsExact, fun p k => (unloadSteps_inv hinv p k).1.countsExact,
    hinv.fresh, fun p hp => ?_⟩
  obtain ⟨s', hfork, hinv', hchild, hothers⟩ := forkTask_spec hinv hp
  refine ⟨s', hfork, hinv'.countsExact, hchild, ?_, hothers⟩
  have hareas : s'.areas s.nTasks = s.areas p := by rw [VmState.areas, hchild, VmState.areas]
  rw [hareas]
  exact (hinv.areasOk p).copyVmas

/-- A file is mapped, the task forks, and then gives its areas up. -/
def sharedRun : List VmAct :=
  [.create, .mmap 0 (some [1, 2, 3]) 0x10000 0x2000 protRead mapFixed 0, .fork 0, .unloadAll 0]

theorem mapping_lifetime_sharedRun :
    ∃ s, runSteps vmStep VmState.init sharedRun = some s ∧ pointers s 0 = 1 ∧
      (s.maps 0).refc = 1 ∧ (s.maps 0).backingClosed = false := by
  have hvalues : ((runSteps vmStep VmState.init sharedRun).map fun s =>
      (s.nextMap, pointers s 0)) = some (1, 1) := by decide +kernel
  obtain ⟨s, hrun, heq⟩ := Option.map_eq_some_iff.mp hvalues
  obtain ⟨hnext, hone⟩ := Prod.mk.inj heq
  obtain ⟨hrefc, -, hclosed, -⟩ :=
    (mapping_lifetime sharedRun s hrun).1 0 (by rw [hnext]; exact Nat.one_pos)
  refine ⟨s, hrun, hone, ?_, ?_⟩
  · rw [hrefc (by rw [hone]; exact Nat.one_pos), hone]
    rfl
  · rw [← Bool.not_eq_true, hclosed, hone]
    exact Nat.one_ne_zero

end Levos.Mm
