import Levos.Kernel.Task
import Levos.Mm.VmaList

/-!
# Placing a mapping (`mm/vma.c`)

`do_mmap` without `MAP_FIXED` takes its address from `vma_find_free_region`,
which walks the list with the previous area at hand and compares unsigned
differences, and gives it to `do_mmap_fixed`, which tests for overlap once
more by `vm_area_overlaps`. On a sorted and disjoint list the two agree.
-/

namespace Levos.Mm

open Levos.Base Levos.Kernel

def protWrite : BitVec 32 := 1 <<< 1
def protRead : BitVec 32 := 1 <<< 2
def mapShared : BitVec 32 := 1 <<< 0
def mapFixed : BitVec 32 := 1 <<< 2
def vmaMmap : BitVec 32 := 1 <<< 3
def vmaNoread : BitVec 32 := 1 <<< 4
def vmaShared : BitVec 32 := 1 <<< 5

/-- The -1 of `vma_find_free_region`. -/
def noRegion : Nat := 0xFFFFFFFF

/-- The loop of `vma_find_free_region`. -/
def freeRegionFrom (len : Nat) : Option VmArea → List VmArea → Nat
  | _, [] => noRegion
  | none, vma :: rest => freeRegionFrom len (some vma) rest
  | some prev, vma :: rest =>
      if u32Sub vma.start prev.stop > len then prev.stop else freeRegionFrom len (some vma) rest

def vmaFindFreeRegion (areas : List VmArea) (len : Nat) : Nat := freeRegionFrom len none areas

/-- `vma_set_mapping`, on an area without a mapping. -/
def vmaSetMapping (vma : VmArea) (f : Option (List UInt8)) (offset len : Nat) : VmArea :=
  match f with
  | none => { vma with flags := vma.flags ||| vmaAnonymous, mapping := none }
  | some content =>
      { vma with
        flags := vma.flags &&& ~~~vmaAnonymous, mapping := some content
        mappingOffset := offset, mappingLength := len }

/-- The area `do_mmap_fixed` creates. -/
def mmapArea (addr len : Nat) : VmArea :=
  { start := addr, offset := 0, stop := u32 (addr + len), mappingOffset := 0
    mappingLength := 0, mapping := none, flags := vmaMmap }

/-- `do_mmap_fixed`. The mapping is set after the insertion, whose place does
not depend on it. -/
def doMmapFixed (ok : Bool) (f : Option (List UInt8)) (addr len offset : Nat)
    (areas : List VmArea) : Option (Option (List VmArea)) :=
  vmAreaCreateInsert ok (vmaSetMapping (mmapArea addr len) f offset len) areas

/-- The address `do_mmap` decides on, or its error. -/
def mmapAddr (areas : List VmArea) (addr len : Nat) (flags : BitVec 32) : Except Int Nat :=
  if flags &&& mapFixed ≠ 0 ∧ addr = 0 then .error (-einval)
  else if len = 0 then .error (-einval)
  else if flags &&& mapFixed ≠ 0 then .ok addr
  else if vmaFindFreeRegion areas len = noRegion then .error (-enomem)
  else .ok (vmaFindFreeRegion areas len)

/-- The flags `do_mmap` adds at its end. -/
def applyProt (prot flags : BitVec 32) (vma : VmArea) : VmArea :=
  let writeable := if prot &&& protWrite ≠ 0 then vma.flags ||| vmaWriteable else vma.flags
  let noread := if prot &&& protRead = 0 then writeable ||| vmaNoread else writeable
  { vma with flags := if flags &&& mapShared ≠ 0 then noread ||| vmaShared else noread }

/-! ## The search -/

@[simp] theorem vmaSetMapping_range (vma : VmArea) (f : Option (List UInt8)) (offset len : Nat) :
    (vmaSetMapping vma f offset len).start = vma.start ∧
      (vmaSetMapping vma f offset len).stop = vma.stop := by
  cases f <;> exact ⟨rfl, rfl⟩

/-- The comparison of `vma_find_free_region`. -/
def WiderThan (len : Nat) (prev vma : VmArea) : Prop := u32Sub vma.start prev.stop > len

instance (len : Nat) : DecidableRel (WiderThan len) :=
  fun _ _ => inferInstanceAs (Decidable (_ > _))

/-- The loop looks for the first wide gap. -/
theorem freeRegionFrom_eq (len : Nat) (prev : VmArea) (areas : List VmArea) :
    freeRegionFrom len (some prev) areas =
      ((firstGap (WiderThan len) (prev :: areas)).map VmArea.stop).getD noRegion := by
  induction areas generalizing prev with
  | nil => rfl
  | cons vma rest ih =>
      rw [freeRegionFrom, firstGap, ih]
      by_cases hwide : WiderThan len prev vma
      · rw [if_pos hwide, if_pos (show u32Sub vma.start prev.stop > len from hwide)]
        rfl
      · rw [if_neg hwide, if_neg (show ¬u32Sub vma.start prev.stop > len from hwide)]

theorem vmaFindFreeRegion_eq (areas : List VmArea) (len : Nat) :
    vmaFindFreeRegion areas len =
      ((firstGap (WiderThan len) areas).map VmArea.stop).getD noRegion := by
  cases areas with
  | nil => rfl
  | cons vma rest => exact freeRegionFrom_eq len vma rest

namespace VmaList

/-- Below `VIRT_BASE` the difference is the length of the gap. -/
theorem widerThan_iff {len : Nat} {prev vma : VmArea} (hle : prev.stop ≤ vma.start)
    (hword : vma.start < 2 ^ 32) : WiderThan len prev vma ↔ len < vma.start - prev.stop := by
  rw [WiderThan, u32Sub_of_le hle hword, gt_iff_lt]

theorem start_lt {l : VmaList} (hend : ∀ a ∈ l.areas, a.stop ≤ virtBase) :
    ∀ a ∈ l.areas, a.start < virtBase :=
  fun a ha => (l.nonempty a ha).trans_le (hend a ha)

/-- Neighbours of a list do not overlap. -/
theorem neighbours (l : VmaList) : l.areas.IsChain fun a b => a.stop ≤ b.start :=
  l.laid.isChain

theorem start_word {l : VmaList} (hend : ∀ a ∈ l.areas, a.stop ≤ virtBase) :
    ∀ a ∈ l.areas, a.start < 2 ^ 32 :=
  fun a ha => (start_lt hend a ha).trans (by decide)

/-- The tests of the loop, as lengths of gaps. -/
theorem chain_widerThan_iff {len : Nat} {areas : List VmArea}
    (hchain : areas.IsChain fun a b => a.stop ≤ b.start)
    (hwords : ∀ a ∈ areas, a.start < 2 ^ 32) :
    areas.IsChain (fun a b => ¬WiderThan len a b) ↔
      areas.IsChain fun a b => b.start - a.stop ≤ len := by
  induction areas with
  | nil => simp
  | cons a areas ih =>
      cases areas with
      | nil => simp
      | cons b areas =>
          rw [List.isChain_cons_cons] at hchain
          rw [List.isChain_cons_cons, List.isChain_cons_cons,
            ih hchain.2 fun c hc => hwords c (List.mem_cons_of_mem a hc),
            widerThan_iff hchain.1 (hwords b (by simp)), not_lt]

/-- A gap wider than the request has room for it. -/
theorem doMmapFixed_gap (l : VmaList) {before after : List VmArea} {x y : VmArea}
    (heq : l.areas = before ++ x :: y :: after) {len : Nat} (hlen : 4096 ≤ len)
    (hgap : len < y.start - x.stop) (hbase : y.start < virtBase) (f : Option (List UInt8))
    (offset : Nat) :
    (∀ a ∈ l.areas, Disjoint a.range (Set.Ico x.stop (x.stop + len))) ∧
      ∃ l' : VmaList, doMmapFixed true f x.stop len offset l.areas = some (some l'.areas) := by
  have hapart : ∀ a ∈ l.areas, a.stop ≤ x.stop ∨ x.stop + len ≤ a.start := by
    rw [heq]
    exact (heq ▸ l.laid).gap (heq ▸ l.nonempty) le_rfl (by omega)
  have hdisj : ∀ a ∈ l.areas, Disjoint a.range (Set.Ico x.stop (x.stop + len)) := by
    intro a ha
    rw [VmArea.range, extent, Set.Ico_disjoint_Ico]
    have := hapart a ha
    omega
  have hstop : u32 (x.stop + len) = x.stop + len := by
    rw [virtBase] at hbase
    exact u32_of_lt (by omega)
  set vma := vmaSetMapping (mmapArea x.stop len) f offset len with hvma
  have hstart : vma.start = x.stop := (vmaSetMapping_range _ f offset len).1
  have hend : vma.stop = x.stop + len :=
    (vmaSetMapping_range (mmapArea x.stop len) f offset len).2.trans hstop
  have hv : vma.start < vma.stop := by omega
  have hfree : ∀ a ∈ l.areas, Disjoint a.range vma.range := by
    intro a ha
    rw [VmArea.range, VmArea.range, extent, extent, hstart, hend]
    exact hdisj a ha
  refine ⟨hdisj, ?_⟩
  obtain ⟨l', hl'⟩ := l.insert hv hfree
  refine ⟨l', ?_⟩
  have hover : vmAreaOverlaps vma (insertPoint vma l.areas).1 (insertPoint vma l.areas).2 =
      false := by
    rw [← Bool.not_eq_true, l.overlaps_iff hv]
    rintro ⟨a, ha, hnot⟩
    exact hnot (hfree a ha)
  have hcheck : u32 (vma.start + 4096) ≤ vma.stop := by
    rw [hstart, hend, u32_of_lt (by rw [virtBase] at hbase; omega)]
    omega
  exact vmAreaCreateInsert_some.mpr ⟨hcheck, rfl, hover, hl'⟩

/-- **Free regions.** What `vma_find_free_region` returns is the end of the
first area with a gap behind it wider than the request, is free for its whole
length, and `do_mmap_fixed` succeeds there; -1 means that there is no such
gap. -/
theorem vma_find_free_region_sound (l : VmaList) (hend : ∀ a ∈ l.areas, a.stop ≤ virtBase)
    (len : Nat) (hlen : 4096 ≤ len) (f : Option (List UInt8)) (offset : Nat) :
    (∀ addr, vmaFindFreeRegion l.areas len = addr → addr ≠ noRegion →
      (∀ a ∈ l.areas, Disjoint a.range (Set.Ico addr (addr + len))) ∧
      (∃ l' : VmaList, doMmapFixed true f addr len offset l.areas = some (some l'.areas)) ∧
      ∃ before x y after, l.areas = before ++ x :: y :: after ∧ addr = x.stop ∧
        len < y.start - x.stop ∧
        (before ++ [x]).IsChain fun a b => b.start - a.stop ≤ len) ∧
    (vmaFindFreeRegion l.areas len = noRegion →
      l.areas.IsChain fun a b => b.start - a.stop ≤ len) := by
  rw [vmaFindFreeRegion_eq]
  cases hgap : firstGap (WiderThan len) l.areas with
  | none =>
      refine ⟨fun addr h hne => absurd h.symm hne, fun _ => ?_⟩
      exact (chain_widerThan_iff l.neighbours (start_word hend)).mp (firstGap_eq_none.mp hgap)
  | some x =>
      obtain ⟨before, y, after, heq, hwide, hchain⟩ := firstGap_eq_some.mp hgap
      have hx : x ∈ l.areas := by simp [heq]
      have hy : y ∈ l.areas := by simp [heq]
      have hsplit : l.areas = (before ++ [x]) ++ y :: after := by simp [heq]
      have hneigh := l.neighbours
      rw [hsplit, List.isChain_append] at hneigh
      have hle : x.stop ≤ y.start := hneigh.2.2 x (by simp) y (by simp)
      have hybase := start_lt hend y hy
      have hlt := (widerThan_iff hle (start_word hend y hy)).mp hwide
      constructor
      · intro addr haddr _
        have haddr : x.stop = addr := haddr
        subst haddr
        obtain ⟨hdisj, hfixed⟩ := l.doMmapFixed_gap heq hlen hlt hybase f offset
        refine ⟨hdisj, hfixed, before, x, y, after, heq, rfl, hlt, ?_⟩
        refine (chain_widerThan_iff hneigh.1 fun a ha => start_word hend a ?_).mp hchain
        rw [hsplit]
        exact List.mem_append_left _ ha
      · -- an area does not end at -1
        intro hno
        have hno : x.stop = noRegion := hno
        have := hend x hx
        rw [hno] at this
        exact absurd this (by decide)

/-- A gap of one page and one of three below the stack. -/
def threeAreas : VmaList :=
  ofLaid [firstPages, { firstPages with start := 0x4000, stop := 0x5000 },
      { firstPages with start := 0x8000, stop := 0x9000 }]
    (by decide) (by simp [Laid, firstPages])

theorem vma_find_free_region_sound_threeAreas :
    vmaFindFreeRegion threeAreas.areas 0x2000 = 0x5000 ∧
      ∃ l' : VmaList,
        doMmapFixed true none 0x5000 0x2000 0 threeAreas.areas = some (some l'.areas) := by
  have h := vma_find_free_region_sound threeAreas (by decide) 0x2000 (by decide) none 0
  have hr : vmaFindFreeRegion threeAreas.areas 0x2000 = 0x5000 := by decide +kernel
  exact ⟨hr, (h.1 0x5000 hr (by decide)).2.1⟩

end VmaList

end Levos.Mm
