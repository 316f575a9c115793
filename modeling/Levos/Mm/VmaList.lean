import Mathlib.Data.List.TakeWhile
import Levos.Base.Intervals
import Levos.Mm.Vma

/-!
# The list of areas as an invariant (`mm/vma.c`)

A task's areas are sorted by start and pairwise disjoint. `vm_area_less` and
the two comparisons of `vm_area_overlaps` keep them so: the neighbours of the
place where an area goes decide whether it overlaps any area of the list
(`Laid.fits_iff`), and so `vma_find` has one answer at most.
-/

namespace Levos.Mm

open Levos.Base

/-- The addresses of an area. -/
def VmArea.range (vma : VmArea) : Set Nat := extent VmArea.start VmArea.stop vma

/-- A list of areas, sorted by start and pairwise disjoint. An area is at least
a page long; that it is not empty is all that matters here. -/
structure VmaList where
  areas : List VmArea
  nonempty : ∀ a ∈ areas, a.start < a.stop
  sorted : areas.Pairwise fun a b => a.start ≤ b.start
  disjoint : areas.Pairwise fun a b => Disjoint a.range b.range

/-- `vm_area_create_insert`, with the list as it is left: the area is put in,
and taken out again when it overlaps a neighbour. The result is whether the
new area is returned. -/
def vmAreaCreateInsertList (ok : Bool) (vma : VmArea) (areas : List VmArea) :
    Option (Bool × List VmArea) :=
  if ¬ u32 (vma.start + 4096) ≤ vma.stop then none
  else if ¬ ok then some (false, areas)
  else
    let place := insertPoint vma areas
    let inserted := place.1 ++ vma :: place.2
    if vmAreaOverlaps vma place.1 place.2 then some (false, inserted.eraseIdx place.1.length)
    else some (true, inserted)

/-! ## The place of an area -/

theorem insertPoint_append (vma : VmArea) (areas : List VmArea) :
    (insertPoint vma areas).1 ++ (insertPoint vma areas).2 = areas :=
  List.takeWhile_append_dropWhile

/-- No area before the place starts behind the new one. -/
theorem insertPoint_before {vma : VmArea} {areas : List VmArea} :
    ∀ a ∈ (insertPoint vma areas).1, a.start ≤ vma.start := by
  intro a ha
  simpa [vmAreaLess] using List.mem_takeWhile_imp ha

/-- In a sorted list, all areas from the place on start behind the new one. -/
theorem insertPoint_after {vma : VmArea} {areas : List VmArea}
    (hsorted : areas.Pairwise fun a b => a.start ≤ b.start) :
    ∀ a ∈ (insertPoint vma areas).2, vma.start < a.start := by
  intro a ha
  have hpair : (insertPoint vma areas).2.Pairwise fun a b => a.start ≤ b.start :=
    hsorted.sublist (List.dropWhile_sublist _)
  cases hrest : (insertPoint vma areas).2 with
  | nil =>
      rw [hrest] at ha
      cases ha
  | cons b rest =>
      have hb : vma.start < b.start := by
        have := List.head?_dropWhile_not (fun e => ¬ vmAreaLess vma e) areas
        rw [show areas.dropWhile (fun e => ¬ vmAreaLess vma e) = b :: rest from hrest] at this
        simpa [vmAreaLess] using this
      rw [hrest] at ha hpair
      rcases List.mem_cons.mp ha with rfl | ha
      · exact hb
      · exact hb.trans_le ((List.pairwise_cons.mp hpair).1 a ha)

theorem vmAreaOverlaps_eq_false {vma : VmArea} {before after : List VmArea} :
    vmAreaOverlaps vma before after = false ↔
      (∀ a ∈ before.getLast?, a.stop ≤ vma.start) ∧ ∀ a ∈ after.head?, vma.stop ≤ a.start := by
  unfold vmAreaOverlaps vmAreaCheckOverlap
  cases before.getLast? <;> cases after.head? <;> simp

/-- What an insertion that returns an area has tested and done. -/
theorem vmAreaCreateInsert_some {ok : Bool} {vma : VmArea} {areas areas' : List VmArea} :
    vmAreaCreateInsert ok vma areas = some (some areas') ↔
      u32 (vma.start + 4096) ≤ vma.stop ∧ ok = true ∧
        vmAreaOverlaps vma (insertPoint vma areas).1 (insertPoint vma areas).2 = false ∧
        areas' = (insertPoint vma areas).1 ++ vma :: (insertPoint vma areas).2 := by
  rw [vmAreaCreateInsert]
  by_cases hpage : u32 (vma.start + 4096) ≤ vma.stop
  · rw [if_neg (not_not_intro hpage)]
    cases ok with
    | false => simp
    | true =>
        dsimp only
        cases vmAreaOverlaps vma (insertPoint vma areas).1 (insertPoint vma areas).2 with
        | true => simp
        | false => simp [hpage, eq_comm]
  · simp [hpage]

/-- The list after the insertion is the one `vmAreaCreateInsert` gives, or the
old one. -/
theorem vmAreaCreateInsertList_eq (ok : Bool) (vma : VmArea) (areas : List VmArea) :
    vmAreaCreateInsertList ok vma areas =
      (vmAreaCreateInsert ok vma areas).map fun r => (r.isSome, r.getD areas) := by
  unfold vmAreaCreateInsertList vmAreaCreateInsert
  split
  · rfl
  split
  · rfl
  dsimp only
  split
  · have hback : ((insertPoint vma areas).1 ++ vma :: (insertPoint vma areas).2).eraseIdx
        (insertPoint vma areas).1.length = areas := by
      rw [List.eraseIdx_append_of_length_le le_rfl, Nat.sub_self, List.eraseIdx_cons_zero,
        insertPoint_append]
    rw [hback]
    rfl
  · rfl

namespace VmaList

theorem laid (l : VmaList) : Laid VmArea.start VmArea.stop l.areas :=
  (laid_iff_sorted_disjoint l.nonempty).mpr ⟨l.sorted, l.disjoint⟩

/-- A list laid out in order is one. -/
def ofLaid (areas : List VmArea) (hpos : ∀ a ∈ areas, a.start < a.stop)
    (hlaid : Laid VmArea.start VmArea.stop areas) : VmaList :=
  ⟨areas, hpos, ((laid_iff_sorted_disjoint hpos).mp hlaid).1,
    ((laid_iff_sorted_disjoint hpos).mp hlaid).2⟩

/-- The neighbours are asked, the whole list answers. -/
theorem overlaps_iff (l : VmaList) {vma : VmArea} (hv : vma.start < vma.stop) :
    vmAreaOverlaps vma (insertPoint vma l.areas).1 (insertPoint vma l.areas).2 = true ↔
      ∃ a ∈ l.areas, ¬Disjoint a.range vma.range := by
  have happ := insertPoint_append vma l.areas
  have hfits := Laid.fits_iff (happ.symm ▸ l.laid) (happ.symm ▸ l.nonempty) hv
    insertPoint_before (insertPoint_after l.sorted)
  rw [happ, ← vmAreaOverlaps_eq_false] at hfits
  rw [← Bool.not_eq_false, ← hfits]
  simp only [not_forall, VmArea.range, exists_prop]

theorem insertPoint_perm (vma : VmArea) (areas : List VmArea) :
    ((insertPoint vma areas).1 ++ vma :: (insertPoint vma areas).2).Perm (vma :: areas) := by
  refine List.perm_middle.trans (List.Perm.cons vma ?_)
  rw [insertPoint_append]

/-- An area that overlaps none goes in, and the list stays one. -/
theorem insert (l : VmaList) {vma : VmArea} (hv : vma.start < vma.stop)
    (hfree : ∀ a ∈ l.areas, Disjoint a.range vma.range) :
    ∃ l' : VmaList,
      l'.areas = (insertPoint vma l.areas).1 ++ vma :: (insertPoint vma l.areas).2 := by
  have happ := insertPoint_append vma l.areas
  have hlaid : Laid VmArea.start VmArea.stop
      ((insertPoint vma l.areas).1 ++ (insertPoint vma l.areas).2) := happ.symm ▸ l.laid
  have hpos : ∀ a ∈ (insertPoint vma l.areas).1 ++ (insertPoint vma l.areas).2,
      a.start < a.stop := happ.symm ▸ l.nonempty
  obtain ⟨hlast, hhead⟩ := (Laid.fits_iff hlaid hpos hv insertPoint_before
    (insertPoint_after l.sorted)).mp (by rw [happ]; exact hfree)
  refine ⟨ofLaid _ ?_ (hlaid.insert hpos hlast hhead), rfl⟩
  intro a ha
  rcases List.mem_cons.mp ((insertPoint_perm vma l.areas).mem_iff.mp ha) with rfl | ha
  · exact hv
  · exact l.nonempty a ha

/-! ## `vma_find` -/

theorem vmaFind_eq_none {areas : List VmArea} {addr : Nat} :
    vmaFind areas addr = none ↔ ∀ a ∈ areas, addr ∉ a.range := by
  simp [vmaFind, VmArea.range, mem_extent]

theorem mem_range_of_vmaFind {areas : List VmArea} {addr : Nat} {vma : VmArea}
    (h : vmaFind areas addr = some vma) : addr ∈ vma.range := by
  have := List.find?_some h
  simpa [VmArea.range, mem_extent] using this

/-- Of a list of disjoint areas, the one that contains the address. -/
theorem vmaFind_eq_some (l : VmaList) {addr : Nat} {vma : VmArea} :
    vmaFind l.areas addr = some vma ↔ vma ∈ l.areas ∧ addr ∈ vma.range := by
  constructor
  · intro h
    exact ⟨List.mem_of_find?_eq_some h, mem_range_of_vmaFind h⟩
  · rintro ⟨hmem, hin⟩
    cases hf : vmaFind l.areas addr with
    | none => exact absurd hin (vmaFind_eq_none.mp hf vma hmem)
    | some other =>
        rw [l.laid.unique (List.mem_of_find?_eq_some hf) hmem (mem_range_of_vmaFind hf) hin]

/-- **Insertion and lookup.** `vm_area_create_insert` returns NULL exactly when
the new area overlaps one of the list, and leaves the list as it was; else the
list stays sorted and disjoint and has the new area besides the old ones.
`vma_find` gives the only area that contains the address, or none. -/
theorem vm_area_create_insert_find (l : VmaList) (vma : VmArea)
    (hpage : vma.start + 4096 ≤ vma.stop) (hword : vma.stop < 2 ^ 32) :
    (∃ inserted areas, vmAreaCreateInsertList true vma l.areas = some (inserted, areas) ∧
      (inserted = false ↔ ∃ a ∈ l.areas, (a.range ∩ vma.range).Nonempty) ∧
      (inserted = false → areas = l.areas) ∧
      (inserted = true → (∃ l' : VmaList, l'.areas = areas) ∧ areas.Perm (vma :: l.areas))) ∧
    ∀ addr,
      (∀ v, vmaFind l.areas addr = some v ↔
        (v ∈ l.areas ∧ addr ∈ v.range) ∧ ∀ w ∈ l.areas, addr ∈ w.range → w = v) ∧
      (vmaFind l.areas addr = none ↔ ∀ a ∈ l.areas, addr ∉ a.range) := by
  have hv : vma.start < vma.stop := by omega
  have hcheck : u32 (vma.start + 4096) ≤ vma.stop := by
    rw [u32_of_lt (by omega)]
    exact hpage
  refine ⟨?_, fun addr => ⟨fun v => ?_, vmaFind_eq_none⟩⟩
  · rw [vmAreaCreateInsertList_eq, vmAreaCreateInsert, if_neg (not_not_intro hcheck),
      if_neg (by decide)]
    dsimp only
    have hiff := l.overlaps_iff hv
    split
    · rename_i hover
      refine ⟨false, l.areas, rfl, ?_, fun _ => rfl, by simp⟩
      simpa [Set.not_disjoint_iff_nonempty_inter] using hiff.mp hover
    · rename_i hover
      have hfree : ∀ a ∈ l.areas, Disjoint a.range vma.range := by
        simpa using fun h => hover (hiff.mpr h)
      refine ⟨true, _, rfl, ?_, by simp, fun _ => ⟨l.insert hv hfree, insertPoint_perm _ _⟩⟩
      simpa [Set.disjoint_iff_inter_eq_empty, Set.not_nonempty_iff_eq_empty] using hfree
  · rw [l.vmaFind_eq_some]
    refine ⟨fun h => ⟨h, fun w hw hin => ?_⟩, fun h => h.1⟩
    exact l.laid.unique hw h.1 hin h.2

/-- The list `vma_init` makes. -/
def initial : VmaList :=
  ofLaid [stackVma] (by decide) (List.pairwise_singleton _ _)

/-- An area below the stack. -/
def firstPages : VmArea :=
  { start := 0x1000, offset := 0, stop := 0x3000, mappingOffset := 0, mappingLength := 0
    mapping := none, flags := 0 }

theorem vm_area_create_insert_find_initial :
    vmAreaCreateInsertList true firstPages initial.areas = some (true, [firstPages, stackVma]) ∧
      vmaFind initial.areas 0xBFFFFFFF = some stackVma := by
  have h := vm_area_create_insert_find initial firstPages (by decide) (by decide)
  refine ⟨by decide +kernel, ((h.2 0xBFFFFFFF).1 stackVma).mpr ⟨?_, ?_⟩⟩
  · exact ⟨List.mem_singleton_self _, by decide, by decide⟩
  · exact fun w hw _ => List.mem_singleton.mp hw

end VmaList

end Levos.Mm
