import Levos.Mm.MmapSafe

/-!
# Faulting in what was mapped (`mm/vma.c`)

`vma_handle_pagefault` rounds the address down and looks the page up, while
`do_mmap` lets an area start anywhere: at the address a fixed request names, or
at the end of another area. `load_elf` rounds both ends of its areas to pages.
`fault_in_iff` says that the two fit together exactly as long as every request
is placed at the start of a page.
-/

namespace Levos.Mm

open Levos.Base Levos.Kernel

/-! ## The fault handler with its assertions -/

/-- The assertions of `vma_load` and `mapping_load`; `read_bytes` and
`zero_bytes` are added to the start in `uint32_t`. -/
def vmaLoadAsserts (vma : VmArea) (addr : Nat) : Bool :=
  let mapBegin := u32 (vma.mappingOffset + u32Sub addr vma.start)
  let mapEnd := u32 (vma.mappingOffset + vma.mappingLength)
  let zeroBytes := u32Sub (u32Sub vma.stop vma.mappingLength) vma.start
  addr % 4096 = 0 ∧ (vma.mapping.isSome → mapBegin < pgRndUp mapEnd →
    addr ≥ vma.start ∧ addr ≤ u32 (u32 (vma.start + vma.mappingLength) + zeroBytes))

/-- The return value of `vma_handle_pagefault`, with frames available; `none`
is a failed assertion. `vma_load` and `mapping_load` return 0. -/
def vmaHandlePagefaultRc (areas : List VmArea) (reqAddr : Nat) : Option Nat :=
  match vmaFind areas (pgRndDown reqAddr) with
  | none => some 1
  | some vma =>
      if vma.flags &&& vmaReserved ≠ 0 then some 1
      else if vmaLoadAsserts vma (pgRndDown reqAddr) then some 0
      else none

/-- Both descriptions of the handler agree on when a page is loaded. -/
theorem vmaHandlePagefaultRc_zero {areas : List VmArea} {addr : Nat}
    (h : vmaHandlePagefaultRc areas addr = some 0) :
    ∃ vma, vmaFind areas (pgRndDown addr) = some vma ∧
      vmaHandlePagefault areas addr = some (vmaLoad vma (pgRndDown addr)) := by
  unfold vmaHandlePagefaultRc at h
  split at h
  · cases h
  · rename_i vma hfind
    refine ⟨vma, hfind, ?_⟩
    rw [vmaHandlePagefault, hfind]
    by_cases hres : vma.flags &&& vmaReserved = 0
    · simp [hres]
    · rw [if_pos hres] at h
      cases h

/-! ## What is asked of a list -/

def VmArea.Reserved (vma : VmArea) : Prop := vma.flags &&& vmaReserved ≠ 0

instance (vma : VmArea) : Decidable vma.Reserved := inferInstanceAs (Decidable (_ ≠ _))

/-- The handler finds the area and loads the page of the address from it. -/
def FaultsIn (areas : List VmArea) (vma : VmArea) (addr : Nat) : Prop :=
  vmaFind areas (pgRndDown addr) = some vma ∧ vmaHandlePagefaultRc areas addr = some 0

/-- Every address of an area that is not reserved can be faulted in. -/
def AllFaultIn (areas : List VmArea) : Prop :=
  ∀ vma ∈ areas, ¬vma.Reserved → ∀ addr ∈ vma.range, FaultsIn areas vma addr

/-- Where an area begins a page begins; an area without addresses is of no
account. -/
def StartsAligned (vma : VmArea) : Prop := vma.start < vma.stop → vma.start % 4096 = 0

instance (vma : VmArea) : Decidable (StartsAligned vma) :=
  inferInstanceAs (Decidable (_ → _))

/-- The bound the assertion compares with is the end of the area. -/
theorem vmaLoadAsserts_of_mem {vma : VmArea} {addr : Nat} (hpage : addr % 4096 = 0)
    (hstop : vma.stop < 2 ^ 32) (h : addr ∈ vma.range) :
    vmaLoadAsserts vma addr = true := by
  have hin : vma.start ≤ addr ∧ addr < vma.stop := h
  have hend : u32 (u32 (vma.start + vma.mappingLength) +
      u32Sub (u32Sub vma.stop vma.mappingLength) vma.start) = vma.stop := by
    rw [u32, u32, u32Sub, u32Sub]
    omega
  unfold vmaLoadAsserts
  dsimp only
  rw [hend]
  simp only [decide_eq_true_eq]
  exact ⟨hpage, fun _ _ => ⟨hin.1, hin.2.le⟩⟩

/-- An address in an area that begins with a page has its page begin there
too. -/
theorem AreaList.faultsIn (l : AreaList) {vma : VmArea} (hmem : vma ∈ l.areas)
    (hres : ¬vma.Reserved) {addr : Nat} (hpage : vma.start % 4096 = 0) (h : addr ∈ vma.range) :
    FaultsIn l.areas vma addr := by
  have hin : vma.start ≤ addr ∧ addr < vma.stop := h
  have hdown : pgRndDown addr ∈ vma.range := by
    refine ⟨?_, (pgRndDown_le addr).trans_lt hin.2⟩
    rw [pgRndDown]
    omega
  have hfind : vmaFind l.areas (pgRndDown addr) = some vma := by
    cases hf : vmaFind l.areas (pgRndDown addr) with
    | none => exact absurd hdown (VmaList.vmaFind_eq_none.mp hf vma hmem)
    | some other =>
        rw [l.ok.laid.unique (List.mem_of_find?_eq_some hf) hmem
          (VmaList.mem_range_of_vmaFind hf) hdown]
  refine ⟨hfind, ?_⟩
  rw [vmaHandlePagefaultRc, hfind]
  dsimp only
  rw [if_neg (show ¬vma.flags &&& vmaReserved ≠ 0 from hres),
    if_pos (vmaLoadAsserts_of_mem (pgRndDown_mod addr) (l.words vma hmem).2 hdown)]

/-- On a list, the handler serves every address exactly when the areas begin
with pages. -/
theorem AreaList.allFaultIn_iff (l : AreaList) :
    AllFaultIn l.areas ↔ ∀ vma ∈ l.areas, ¬vma.Reserved → StartsAligned vma := by
  constructor
  · intro hall vma hmem hres hlt
    have hfirst : vma.start ∈ vma.range := ⟨le_rfl, hlt⟩
    have hfind := (hall vma hmem hres vma.start hfirst).1
    have hle : vma.start ≤ pgRndDown vma.start := (VmaList.mem_range_of_vmaFind hfind).1
    rw [pgRndDown] at hle
    omega
  · intro halign vma hmem hres addr h
    have hin : vma.start ≤ addr ∧ addr < vma.stop := h
    exact l.faultsIn hmem hres (halign vma hmem hres (by omega)) h

/-! ## Runs of requests -/

/-- A call of `do_mmap`: the file, if any, beside the argument. -/
structure MmapCall where
  file : Option (List UInt8)
  arg : MmapArgStruct

/-- A successful call, on the list. -/
def mmapStep (areas : List VmArea) (call : MmapCall) : Option (List VmArea) :=
  match doMmapAreas true areas call.arg.addr call.arg.len call.arg.prot call.arg.flags
      call.file call.arg.offset with
  | none => none
  | some (ret, areas') => if ret < 0 then none else some areas'

/-- The request goes to the start of a page, or its end wraps. -/
def PlacedAligned (areas : List VmArea) (call : MmapCall) : Prop :=
  ∀ base, GoesTo areas call.arg base → base % 4096 = 0 ∨ u32 (base + call.arg.len) ≤ base

/-- A list as `vma_init` and `load_elf` leave it: its areas begin with
pages. -/
structure LoadedAreas extends AreaList where
  aligned : ∀ vma ∈ areas, StartsAligned vma

theorem requestArea_flags (arg : MmapArgStruct) (f : Option (List UInt8)) (base : Nat) :
    ¬(requestArea arg f base).Reserved := by
  unfold requestArea VmArea.Reserved applyProt vmaSetMapping mmapArea
  cases f with
  | none => dsimp only; split_ifs <;> decide
  | some content => dsimp only; split_ifs <;> decide

/-- What a successful call does. -/
theorem mmapStep_some {l : AreaList} {call : MmapCall} {areas' : List VmArea}
    (h : mmapStep l.areas call = some areas') :
    ∃ base, GoesTo l.areas call.arg base ∧
      vmAreaCreateInsert true (requestArea call.arg call.file base) l.areas =
        some (some areas') := by
  unfold mmapStep doMmapAreas at h
  cases haddr : mmapAddr l.areas call.arg.addr call.arg.len call.arg.flags with
  | error e =>
      rw [haddr] at h
      dsimp only at h
      rw [if_pos (mmapAddr_error haddr)] at h
      cases h
  | ok base =>
      rw [haddr] at h
      refine ⟨base, (mmapAddr_eq_ok l call.arg base).mp haddr, ?_⟩
      dsimp only at h
      rw [requestArea]
      cases hins : vmAreaCreateInsert true (applyProt call.arg.prot call.arg.flags
          (vmaSetMapping (mmapArea base call.arg.len) call.file call.arg.offset
            call.arg.len)) l.areas with
      | none =>
          rw [hins] at h
          cases h
      | some made =>
          rw [hins] at h
          cases made with
          | none =>
              simp only [Option.map_some] at h
              rw [if_pos (by decide)] at h
              cases h
          | some areas₁ =>
              simp only [Option.map_some] at h
              rw [if_neg (by omega)] at h
              rw [Option.some.inj h]

theorem GoesTo.lt {l : AreaList} {arg : MmapArgStruct} {base : Nat}
    (h : GoesTo l.areas arg base) : base < 2 ^ 32 := by
  have hplace := h.2
  split at hplace
  · rw [hplace.1]
    exact arg.addr_lt
  · obtain ⟨before, x, y, after, heq, rfl, -⟩ := hplace
    exact (l.words x (by simp [heq])).2

/-- A call keeps the list in order and adds one area. -/
theorem mmapStep_areaList {l : AreaList} {call : MmapCall} {areas' : List VmArea}
    (h : mmapStep l.areas call = some areas') :
    ∃ base, GoesTo l.areas call.arg base ∧
      (∀ v, v ∈ areas' ↔ v = requestArea call.arg call.file base ∨ v ∈ l.areas) ∧
      ∃ l' : AreaList, l'.areas = areas' := by
  obtain ⟨base, hgoes, hins⟩ := mmapStep_some h
  have hmem := mem_vmAreaCreateInsert hins
  refine ⟨base, hgoes, hmem, ⟨areas', l.ok.insert hins, fun v hv => ?_⟩, rfl⟩
  rcases (hmem v).mp hv with rfl | hv
  · rw [requestArea_start, requestArea_stop]
    exact ⟨hgoes.lt, u32_lt _⟩
  · exact l.words v hv

theorem GoesTo.unique {l : AreaList} {arg : MmapArgStruct} {base base' : Nat}
    (h : GoesTo l.areas arg base) (h' : GoesTo l.areas arg base') : base = base' := by
  have hbase := (mmapAddr_eq_ok l arg base).mpr h
  rw [(mmapAddr_eq_ok l arg base').mpr h', Except.ok.injEq] at hbase
  exact hbase.symm

/-- The new area begins with a page exactly when the request was placed so. -/
theorem placedAligned_iff {l : AreaList} {call : MmapCall} {base : Nat}
    (hgoes : GoesTo l.areas call.arg base) :
    PlacedAligned l.areas call ↔ StartsAligned (requestArea call.arg call.file base) := by
  rw [StartsAligned, requestArea_start, requestArea_stop]
  constructor
  · intro h hlt
    rcases h base hgoes with hpage | hwrap
    · exact hpage
    · omega
  · intro h base' hgoes'
    rw [← hgoes.unique hgoes']
    by_cases hlt : base < u32 (base + call.arg.len)
    · exact .inl (h hlt)
    · exact .inr (not_lt.mp hlt)

/-- Along a run of calls the areas that are not reserved begin with pages
exactly when the first ones do and every request is placed so. -/
theorem run_startsAligned_iff {calls : List MmapCall} {l : AreaList} {areas' : List VmArea}
    (h : runSteps mmapStep l.areas calls = some areas') :
    (∃ l' : AreaList, l'.areas = areas') ∧
      ((∀ vma ∈ areas', ¬vma.Reserved → StartsAligned vma) ↔
        (∀ vma ∈ l.areas, ¬vma.Reserved → StartsAligned vma) ∧
          StepsMeet mmapStep PlacedAligned l.areas calls) := by
  induction calls generalizing l with
  | nil =>
      rw [runSteps, Option.some.injEq] at h
      subst h
      exact ⟨⟨l, rfl⟩, by simp [StepsMeet]⟩
  | cons call calls ih =>
      obtain ⟨areas₁, hstep, hrun⟩ := runSteps_cons_some h
      obtain ⟨base, hgoes, hmem, l₁, rfl⟩ := mmapStep_areaList hstep
      obtain ⟨hlist, hiff⟩ := ih hrun
      refine ⟨hlist, ?_⟩
      rw [hiff, stepsMeet_cons_some hstep, placedAligned_iff hgoes]
      have hnew := requestArea_flags call.arg call.file base
      constructor
      · rintro ⟨hall, hrest⟩
        refine ⟨fun vma hv => hall vma ((hmem vma).mpr (.inr hv)), ?_, hrest⟩
        exact hall _ ((hmem _).mpr (.inl rfl)) hnew
      · rintro ⟨hold, hreq, hrest⟩
        refine ⟨fun vma hv hres => ?_, hrest⟩
        rcases (hmem vma).mp hv with rfl | hv
        · exact hreq
        · exact hold vma hv hres

/-- **Faulting in.** After any successful calls of `do_mmap`, every address of
an area that is not reserved can be faulted in exactly when every call placed
its area at the start of a page. -/
theorem fault_in_iff (l : LoadedAreas) (calls : List MmapCall) (areas' : List VmArea)
    (h : runSteps mmapStep l.areas calls = some areas') :
    AllFaultIn areas' ↔ StepsMeet mmapStep PlacedAligned l.areas calls := by
  obtain ⟨⟨l', hl'⟩, hiff⟩ := run_startsAligned_iff (l := l.toAreaList) h
  rw [← hl', l'.allFaultIn_iff, hl', hiff]
  exact and_iff_right fun vma hv _ => l.aligned vma hv

/-- The list of a new task. -/
def stackLoaded : LoadedAreas := ⟨stackOnly, by decide⟩

theorem onePage_lt : 0x1000 < 2 ^ 32 := by decide

/-- A fixed anonymous mapping of one page of bytes at `addr`. -/
def pageAt (addr : Nat) (h : addr < 2 ^ 32) : MmapCall :=
  { file := none
    arg :=
      { addr := addr, len := 0x1000, prot := protWrite ||| protRead
        flags := mapFixed ||| mapAnonymous, fd := -1, offset := 0, addr_lt := h
        len_lt := onePage_lt } }

/-- The area of such a call. -/
def pageArea (addr : Nat) : VmArea :=
  { start := addr, offset := 0, stop := addr + 0x1000, mappingOffset := 0, mappingLength := 0
    mapping := none, flags := vmaMmap ||| vmaAnonymous ||| vmaWriteable }

theorem fault_in_iff_page : AllFaultIn [pageArea 0x2000, stackVma] := by
  have hrun : runSteps mmapStep stackLoaded.areas [pageAt 0x2000 (by decide)] =
      some [pageArea 0x2000, stackVma] := by decide +kernel
  refine (fault_in_iff stackLoaded _ _ hrun).mpr ⟨?_, fun _ _ => trivial⟩
  rintro base ⟨-, hplace⟩
  rw [if_pos (by decide)] at hplace
  left
  rw [hplace.1]
  decide

/-- A page of bytes from the middle of a page on: its first byte lies on a page
the handler finds no area for. -/
theorem fault_in_unaligned :
    ¬∀ (l : LoadedAreas) (calls : List MmapCall) (areas' : List VmArea),
      runSteps mmapStep l.areas calls = some areas' → AllFaultIn areas' := by
  intro hall
  have hrun : runSteps mmapStep stackLoaded.areas [pageAt 0x1800 (by decide)] =
      some [pageArea 0x1800, stackVma] := by decide +kernel
  have hrc := (hall stackLoaded _ _ hrun (pageArea 0x1800) (by simp) (by decide) 0x1800
    ⟨by decide, by decide⟩).2
  revert hrc
  decide +kernel

end Levos.Mm
