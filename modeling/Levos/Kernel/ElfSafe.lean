import Levos.Mm.FaultIn

/-!
# What a file can do to `load_elf` (`kernel/binfmt_elf.c`)

The addresses and lengths of the segments go from the file into the assertion
of `vm_area_create_insert` unchecked; an area that overlaps another one is an
error instead. So which segments come to the assertion depends on those before
them. `load_elf_safe_iff` gives the files `load_elf` takes without harm, and
`load_elf_empty_segment_panics` a file of 84 bytes it does not.
-/

namespace Levos.Kernel

open Levos.Base Levos.Mm

/-! ## What is owed, and when it is given -/

def BelowBase (vma : VmArea) : Prop := vma.start < virtBase ∧ vma.stop ≤ virtBase

/-- The file is loaded, or refused with an error; what was made for a loaded
file lies below `VIRT_BASE`. The list of areas is the one `vma_init` made. -/
def LoadElfSafe (ok : Nat → Bool) (junk : Nat → Page) (content : List UInt8) : Prop :=
  ∃ rc areas, loadElf ok junk content [stackVma] = some (rc, areas) ∧ rc ≤ 0 ∧
    (rc = 0 → ∀ v ∈ areas, v = stackVma ∨ BelowBase v)

/-- The magic number, the type, and memory for the program headers. -/
def HeaderOk (ok : Nat → Bool) (junk : Nat → Page) (content : List UInt8) : Prop :=
  let magic := readBuf (junk 0) content 0 4
  (magic 0 = 0x7F ∧ magic 1 = 0x45 ∧ magic 2 = 0x4C ∧ magic 3 = 0x46) ∧
    le16 (readBuf (junk 1) content 0 52) 16 = 2 ∧ ok 0 = true

/-- The end of the last page of the `p_memsz` bytes at `p_vaddr`, in 32 bits. -/
def segmentStop (ph : ProgramHeader) : Nat :=
  u32 (pgRndDown ph.pVaddr + pgRndUp (u32 (pgOffs ph + ph.pMemsz)))

/-- The bytes of the file cancel out: `mem_end` does not depend on
`p_filesz`. -/
theorem memEnd_eq_segmentStop (ph : ProgramHeader) : memEnd ph = segmentStop ph := by
  rw [memEnd, segmentStop, zeroBytes, readBytes]
  split
  · generalize pgRndUp (u32 (pgOffs ph + ph.pMemsz)) = pages
    simp only [u32, u32Sub]
    omega
  · rw [Nat.add_zero]

/-- The areas of the segments among the first `i` headers. -/
def segmentsBefore (content : List UInt8) (phs : List ProgramHeader) (i : Nat) : List VmArea :=
  ((phs.take i).filter fun ph => ph.pType = ptLoad).map (segmentVma content)

section
variable (ok : Nat → Bool) (content : List UInt8) (k : Nat) (placed : List VmArea)
  (phs : List ProgramHeader)

/-- The header `i`, if it is that of a segment, gets memory for an area, in a
place that neither the areas of before nor the segments before it take.
Allocations are counted from `k`. -/
def Lands (i : Nat) : Prop :=
  ∀ ph, phs[i]? = some ph → ph.pType = ptLoad →
    ok (k + i) = true ∧
      ¬Taken (placed ++ segmentsBefore content phs i) (pgRndDown ph.pVaddr) (segmentStop ph)

/-- The loop comes to header `i`. -/
def Reached (i : Nat) : Prop := ∀ j < i, Lands ok content k placed phs j

/-- The segment looks at least a page long: its end is at or behind the next
page, in 32 bits. -/
def PageLong (ph : ProgramHeader) : Prop := u32 (pgRndDown ph.pVaddr + 4096) ≤ segmentStop ph

instance (ph : ProgramHeader) : Decidable (PageLong ph) := Nat.decLe _ _

/-- Every segment the loop comes to looks at least a page long. -/
def ReachedPageLong : Prop :=
  ∀ i ph, phs[i]? = some ph → ph.pType = ptLoad → Reached ok content k placed phs i →
    PageLong ph

/-- Moreover, where all segments get their place, all are below `VIRT_BASE`. -/
def SegmentsFit : Prop :=
  ReachedPageLong ok content k placed phs ∧
    (Reached ok content k placed phs phs.length →
      ∀ ph ∈ phs, ph.pType = ptLoad →
        pgRndDown ph.pVaddr < virtBase ∧ segmentStop ph ≤ virtBase)

end

/-! ## The first header and the others -/

variable {ok : Nat → Bool} {content : List UInt8} {k : Nat} {placed : List VmArea}
  {ph : ProgramHeader} {phs : List ProgramHeader}

/-- The areas there are after a header that landed. -/
def placedAfter (content : List UInt8) (placed : List VmArea) (ph : ProgramHeader) :
    List VmArea :=
  if ph.pType = ptLoad then placed ++ [segmentVma content ph] else placed

theorem segmentsBefore_succ (placed : List VmArea) (i : Nat) :
    placed ++ segmentsBefore content (ph :: phs) (i + 1) =
      placedAfter content placed ph ++ segmentsBefore content phs i := by
  unfold segmentsBefore placedAfter
  rw [List.take_succ_cons, List.filter_cons]
  by_cases hload : ph.pType = ptLoad
  · rw [if_pos hload, if_pos (by simpa using hload), List.map_cons, List.append_assoc]
    rfl
  · rw [if_neg hload, if_neg (by simpa using hload)]

theorem lands_succ (i : Nat) :
    Lands ok content k placed (ph :: phs) (i + 1) ↔
      Lands ok content (k + 1) (placedAfter content placed ph) phs i := by
  unfold Lands
  rw [List.getElem?_cons_succ, segmentsBefore_succ, Nat.add_right_comm k 1 i, Nat.add_assoc k i 1]

theorem lands_zero :
    Lands ok content k placed (ph :: phs) 0 ↔
      (ph.pType = ptLoad →
        ok k = true ∧ ¬Taken placed (pgRndDown ph.pVaddr) (segmentStop ph)) := by
  unfold Lands
  rw [List.getElem?_cons_zero]
  simp [segmentsBefore]

theorem reached_succ (i : Nat) :
    Reached ok content k placed (ph :: phs) (i + 1) ↔
      Lands ok content k placed (ph :: phs) 0 ∧
        Reached ok content (k + 1) (placedAfter content placed ph) phs i := by
  unfold Reached
  constructor
  · intro h
    exact ⟨h 0 (Nat.succ_pos i), fun j hj => (lands_succ j).mp (h (j + 1) (by omega))⟩
  · rintro ⟨hzero, hrest⟩ j hj
    cases j with
    | zero => exact hzero
    | succ j => exact (lands_succ j).mpr (hrest j (by omega))

theorem reachedPageLong_cons :
    ReachedPageLong ok content k placed (ph :: phs) ↔
      (ph.pType = ptLoad → PageLong ph) ∧
        (Lands ok content k placed (ph :: phs) 0 →
          ReachedPageLong ok content (k + 1) (placedAfter content placed ph) phs) := by
  unfold ReachedPageLong
  constructor
  · intro h
    refine ⟨fun hload => h 0 ph rfl hload fun j hj => absurd hj (Nat.not_lt_zero j), ?_⟩
    intro hzero i q hq hload hreach
    exact h (i + 1) q (by rwa [List.getElem?_cons_succ]) hload
      ((reached_succ i).mpr ⟨hzero, hreach⟩)
  · rintro ⟨hfirst, hrest⟩ i q hq hload hreach
    cases i with
    | zero =>
        obtain rfl : ph = q := by simpa using hq
        exact hfirst hload
    | succ i =>
        obtain ⟨hzero, hreach⟩ := (reached_succ i).mp hreach
        exact hrest hzero i q (by rwa [List.getElem?_cons_succ] at hq) hload hreach

/-! ## The loop -/

/-- How the loop over the headers ends: in the assertion, with an error at a
segment that has no place, or at the end of the table. -/
inductive SegmentsOutcome (ok : Nat → Bool) (content : List UInt8) (k : Nat)
    (placed : List VmArea) (phs : List ProgramHeader) : Option (Int × ElfState) → Prop
  | panic (hshort : ¬ReachedPageLong ok content k placed phs) :
      SegmentsOutcome ok content k placed phs none
  | refused (st : ElfState) (hlong : ReachedPageLong ok content k placed phs)
      (hplace : ¬Reached ok content k placed phs phs.length) :
      SegmentsOutcome ok content k placed phs (some (-einval, st))
  | done (st : ElfState) (hlong : ReachedPageLong ok content k placed phs)
      (hplace : Reached ok content k placed phs phs.length) (hareas : AreasOk st.areas) :
      SegmentsOutcome ok content k placed phs (some (0, st))

theorem Taken.congr {areas placed : List VmArea} (h : ∀ v, v ∈ areas ↔ v ∈ placed)
    (start stop : Nat) : Taken areas start stop ↔ Taken placed start stop := by
  unfold Taken
  exact exists_congr fun a => and_congr_left fun _ => h a

/-- A header whose place is taken or without memory, or which is of another
type, hands its outcome on to the rest of the table. -/
theorem SegmentsOutcome.cons {r : Option (Int × ElfState)}
    (hlong : ph.pType = ptLoad → PageLong ph) (hzero : Lands ok content k placed (ph :: phs) 0)
    (h : SegmentsOutcome ok content (k + 1) (placedAfter content placed ph) phs r) :
    SegmentsOutcome ok content k placed (ph :: phs) r := by
  have hall : ReachedPageLong ok content k placed (ph :: phs) ↔
      ReachedPageLong ok content (k + 1) (placedAfter content placed ph) phs := by
    rw [reachedPageLong_cons]
    exact ⟨fun h => h.2 hzero, fun h => ⟨hlong, fun _ => h⟩⟩
  have hend : Reached ok content k placed (ph :: phs) (ph :: phs).length ↔
      Reached ok content (k + 1) (placedAfter content placed ph) phs phs.length := by
    rw [List.length_cons, reached_succ]
    exact and_iff_right hzero
  cases h with
  | panic hshort => exact .panic fun h => hshort (hall.mp h)
  | refused st hl hp => exact .refused st (hall.mpr hl) fun h => hp (hend.mp h)
  | done st hl hp hareas => exact .done st (hall.mpr hl) (hend.mpr hp) hareas

/-- The insertion of a segment, in these words. -/
theorem create_segment {areas : List VmArea} (h : AreasOk areas) (ok : Bool) (content : List UInt8)
    (ph : ProgramHeader) :
    vmAreaCreateInsert ok (segmentVma content ph) areas =
      if ¬PageLong ph then none
      else if ok = false ∨ Taken areas (pgRndDown ph.pVaddr) (segmentStop ph) then some none
      else some (some ((insertPoint (segmentVma content ph) areas).1 ++
        segmentVma content ph :: (insertPoint (segmentVma content ph) areas).2)) := by
  simp only [PageLong, ← memEnd_eq_segmentStop]
  exact h.create_insert ok (segmentVma content ph)

theorem loadSegments_outcome (phs : List ProgramHeader) :
    ∀ (k : Nat) (st : ElfState) (placed : List VmArea), AreasOk st.areas →
      (∀ v, v ∈ st.areas ↔ v ∈ placed) →
      SegmentsOutcome ok content k placed phs (loadSegments ok content k st phs) := by
  induction phs with
  | nil =>
      intro k st placed hareas _
      refine .done st (fun i q hq => ?_) (fun j hj => absurd hj (Nat.not_lt_zero j)) hareas
      simp at hq
  | cons ph phs ih =>
      intro k st placed hareas hmem
      rw [loadSegments]
      by_cases hload : ph.pType = ptLoad
      · have hins := create_segment hareas (ok k) content ph
        have htaken := Taken.congr hmem (pgRndDown ph.pVaddr) (segmentStop ph)
        rw [if_pos hload]
        by_cases hlong : PageLong ph
        · rw [if_neg (not_not_intro hlong)] at hins
          by_cases hno : ok k = false ∨ Taken st.areas (pgRndDown ph.pVaddr) (segmentStop ph)
          · -- no memory, or no room
            rw [if_pos hno] at hins
            rw [hins]
            have hzero : ¬Lands ok content k placed (ph :: phs) 0 := by
              rw [lands_zero]
              intro h
              obtain ⟨hok, hfree⟩ := h hload
              rcases hno with hno | hno
              · rw [hok] at hno
                cases hno
              · exact hfree (htaken.mp hno)
            refine .refused st ?_ ?_
            · rw [reachedPageLong_cons]
              exact ⟨fun _ => hlong, fun h => absurd h hzero⟩
            · rw [List.length_cons, reached_succ]
              exact fun h => hzero h.1
          · rw [if_neg hno] at hins
            rw [hins]
            push Not at hno
            have hok : ok k = true := by simpa using hno.1
            refine (ih (k + 1) _ (placedAfter content placed ph) ?_ ?_).cons (fun _ => hlong) ?_
            · rw [hok] at hins
              exact hareas.insert hins
            · intro v
              refine (mem_vmAreaCreateInsert hins v).trans ?_
              rw [placedAfter, if_pos hload, List.mem_append, List.mem_singleton, ← hmem]
              exact or_comm
            · rw [lands_zero]
              exact fun _ => ⟨hok, fun h => hno.2 (htaken.mpr h)⟩
        · rw [if_pos hlong] at hins
          rw [hins]
          refine .panic ?_
          rw [reachedPageLong_cons]
          exact fun h => hlong (h.1 hload)
      · rw [if_neg hload]
        refine (ih (k + 1) st (placedAfter content placed ph) hareas ?_).cons
          (fun h => absurd h hload) ?_
        · rwa [placedAfter, if_neg hload]
        · rw [lands_zero]
          exact fun h => absurd h hload

/-! ## The area for brk -/

/-- Behind segments below the stack there is room for 128 MiB without a wrap,
and where it is not free the stack is in the way. -/
theorem brk_outcome {areas : List VmArea} (hareas : AreasOk areas) (hstack : stackVma ∈ areas)
    (ok : Bool) {lastPage : Nat} (hlast : lastPage ≤ stackVma.start) :
    vmAreaCreateInsert ok (brkVma (pgRndUp lastPage)) areas = some none ∨
      ∃ areas', vmAreaCreateInsert ok (brkVma (pgRndUp lastPage)) areas = some (some areas') ∧
        BelowBase (brkVma (pgRndUp lastPage)) ∧
        ∀ v, v ∈ areas' ↔ v = brkVma (pgRndUp lastPage) ∨ v ∈ areas := by
  have hup : pgRndUp lastPage ≤ 0xBFC18000 := by
    rw [stackVma_start] at hlast
    rw [pgRndUp, u32_of_lt (by omega)]
    omega
  set start := pgRndUp lastPage with hstart
  have hstop : (brkVma start).stop = start + 0x8000000 := u32_of_lt (by omega)
  have hins := hareas.create_insert ok (brkVma start)
  rw [hstop, show (brkVma start).start = start from rfl, u32_of_lt (by omega),
    if_neg (by omega)] at hins
  by_cases hno : ok = false ∨ Taken areas start (start + 0x8000000)
  · rw [if_pos hno] at hins
    exact .inl hins
  · rw [if_neg hno] at hins
    refine .inr ⟨_, hins, ?_, mem_vmAreaCreateInsert hins⟩
    have hfree : ¬(stackVma.start ≤ start ∧ start < virtBase) ∧
        ¬(start < stackVma.start ∧ stackVma.start < start + 0x8000000) := by
      constructor
      · exact fun h => hno (.inr ⟨stackVma, hstack, .inl h⟩)
      · exact fun h => hno (.inr ⟨stackVma, hstack, .inr h⟩)
    rw [stackVma_start, virtBase] at hfree
    rw [BelowBase, hstop, show (brkVma start).start = start from rfl, virtBase]
    omega

/-! ## The whole file -/

/-- Apart from the stack, below `VIRT_BASE` means below the stack. -/
theorem segment_below_stack {areas : List VmArea} (hareas : AreasOk areas)
    (hstack : stackVma ∈ areas) {vma : VmArea} (hmem : vma ∈ areas) (hne : vma ≠ stackVma)
    (hbelow : BelowBase vma) : vma.stop ≤ stackVma.start := by
  have hpair := hareas.laid
  rw [Laid, List.pairwise_iff_getElem] at hpair
  obtain ⟨i, hi, rfl⟩ := List.getElem_of_mem hmem
  obtain ⟨j, hj, hstackj⟩ := List.getElem_of_mem hstack
  rcases Nat.lt_trichotomy i j with hlt | heq | hgt
  · exact hstackj ▸ hpair i j hi hj hlt
  · subst heq
    exact absurd hstackj hne
  · have hle : stackVma.stop ≤ areas[i].start := hstackj ▸ hpair j i hj hi hgt
    exact absurd hle (not_le.mpr hbelow.1)

theorem segmentVma_ne_stack (content : List UInt8) (ph : ProgramHeader) :
    segmentVma content ph ≠ stackVma := by
  intro h
  have := congrArg VmArea.mapping h
  cases this

theorem insert_loaded (l : LoadedAreas) {ok : Bool} {vma : VmArea} {areas : List VmArea}
    (hins : vmAreaCreateInsert ok vma l.areas = some (some areas))
    (hword : vma.start < 2 ^ 32 ∧ vma.stop < 2 ^ 32) (halign : vma.start % 4096 = 0) :
    ∃ l' : LoadedAreas, l'.areas = areas := by
  have hmem := mem_vmAreaCreateInsert hins
  obtain ⟨-, rfl, -⟩ := vmAreaCreateInsert_some.mp hins
  refine ⟨⟨⟨areas, l.ok.insert hins, fun v hv => ?_⟩, fun v hv => ?_⟩, rfl⟩
  · rcases (hmem v).mp hv with rfl | hv
    · exact hword
    · exact l.words v hv
  · rcases (hmem v).mp hv with rfl | hv
    · exact fun _ => halign
    · exact l.aligned v hv

theorem loadSegments_loaded {phs : List ProgramHeader} (hword : ∀ ph ∈ phs, ph.pVaddr < 2 ^ 32) :
    ∀ {k : Nat} {st st' : ElfState} {rc : Int}, (∃ l : LoadedAreas, l.areas = st.areas) →
      loadSegments ok content k st phs = some (rc, st') →
      ∃ l : LoadedAreas, l.areas = st'.areas := by
  induction phs with
  | nil =>
      intro k st st' rc hl h
      obtain ⟨-, rfl⟩ := Prod.mk.inj (Option.some.inj h)
      exact hl
  | cons ph phs ih =>
      intro k st st' rc hl h
      have hrest : ∀ q ∈ phs, q.pVaddr < 2 ^ 32 := fun q hq => hword q (List.mem_cons_of_mem ph hq)
      rw [loadSegments] at h
      split at h
      · cases hins : vmAreaCreateInsert (ok k) (segmentVma content ph) st.areas with
        | none =>
            rw [hins] at h
            cases h
        | some made =>
            rw [hins] at h
            cases made with
            | none =>
                obtain ⟨-, rfl⟩ := Prod.mk.inj (Option.some.inj h)
                exact hl
            | some areas =>
                obtain ⟨l, hl⟩ := hl
                rw [← hl] at hins
                have hdown := pgRndDown_le ph.pVaddr
                have hvaddr := hword ph List.mem_cons_self
                exact ih hrest (insert_loaded l hins
                  ⟨hdown.trans_lt hvaddr, u32_lt _⟩ (pgRndDown_mod ph.pVaddr)) h
      · exact ih hrest hl h

/-- `load_elf` leaves a list whose areas begin with pages, in order. -/
theorem loadElf_loaded {junk : Nat → Page} {rc : Int} {areas : List VmArea}
    (h : loadElf ok junk content [stackVma] = some (rc, areas)) :
    ∃ l : LoadedAreas, l.areas = areas := by
  unfold loadElf at h
  dsimp only at h
  split at h
  · cases h
    exact ⟨stackLoaded, rfl⟩
  split at h
  · cases h
    exact ⟨stackLoaded, rfl⟩
  split at h
  · cases h
    exact ⟨stackLoaded, rfl⟩
  split at h
  · cases h
  rename_i r rc' st hload
  have hword : ∀ ph ∈ programHeaders junk content, ph.pVaddr < 2 ^ 32 := by
    intro ph hph
    obtain ⟨i, -, rfl⟩ := List.mem_map.mp hph
    exact le32_lt _ _
  obtain ⟨l, hl⟩ := loadSegments_loaded hword ⟨stackLoaded, rfl⟩ hload
  split at h
  · cases h
    exact ⟨l, hl⟩
  split at h
  · cases h
  · cases h
    exact ⟨l, hl⟩
  · rename_i areas' hins
    cases h
    rw [← hl] at hins
    refine insert_loaded l hins ⟨?_, u32_lt _⟩ ?_
    · show pgRndUp st.lastPage < 2 ^ 32
      have := u32_lt (st.lastPage + 4095)
      rw [pgRndUp]
      omega
    · show pgRndUp st.lastPage % 4096 = 0
      rw [pgRndUp]
      omega

end Levos.Kernel
