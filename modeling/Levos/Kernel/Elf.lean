import Levos.Base.Bytes
import Levos.Mm.Vma

/-!
# Loading ELF files (`kernel/binfmt_elf.c`)

`load_elf` only records, in a VMA for each `PT_LOAD` segment, which part of
the file belongs where; the bytes come in page by page when the program
touches them. The loader it replaces, still in the source under `#if 0`,
copied every segment at once.

`demand_paging_eager_iff` says exactly when the two agree: `vma_load` keeps
the number of bytes left in the file part of a segment in an `int`, so a page
two gigabytes or more away from the end of that part is filled wrongly
(`demand_paging_huge_segment`).
-/

namespace Levos.Kernel

open Levos.Base Levos.Mm

/-! ## The functions of the source -/

/-- `elf_program_header_t`, without the two fields the loader ignores. -/
structure ProgramHeader where
  pType : Nat
  pOffset : Nat
  pVaddr : Nat
  pFilesz : Nat
  pMemsz : Nat
  pFlags : BitVec 32
deriving DecidableEq, Repr

/-- `elf_program_header_t` number `k` of the table in `buf`. -/
def programHeader (buf : Page) (k : Nat) : ProgramHeader :=
  { pType := le32 buf (32 * k), pOffset := le32 buf (32 * k + 4)
    pVaddr := le32 buf (32 * k + 8), pFilesz := le32 buf (32 * k + 16)
    pMemsz := le32 buf (32 * k + 20), pFlags := BitVec.ofNat 32 (le32 buf (32 * k + 24)) }

def ptLoad : Nat := 1
def pfW : BitVec 32 := 2

/-- A read into a buffer that held `junk`. -/
def readBuf (junk : Page) (content : List UInt8) (pos len : Nat) : Page :=
  overlay (fileRead content pos len) junk

def pgOffs (ph : ProgramHeader) : Nat := ph.pVaddr % 4096

/-- `read_bytes`. -/
def readBytes (ph : ProgramHeader) : Nat :=
  if ph.pFilesz > 0 then u32 (pgOffs ph + ph.pFilesz) else 0

/-- `zero_bytes`. -/
def zeroBytes (ph : ProgramHeader) : Nat :=
  if ph.pFilesz > 0 then u32Sub (pgRndUp (u32 (pgOffs ph + ph.pMemsz))) (readBytes ph)
  else pgRndUp (u32 (pgOffs ph + ph.pMemsz))

/-- `mem_end`. -/
def memEnd (ph : ProgramHeader) : Nat := u32 (pgRndDown ph.pVaddr + readBytes ph + zeroBytes ph)

/-- The VMA of a segment, with its mapping set. -/
def segmentVma (content : List UInt8) (ph : ProgramHeader) : VmArea :=
  { start := pgRndDown ph.pVaddr, offset := pgOffs ph, stop := memEnd ph
    mappingOffset := pgRndDown ph.pOffset, mappingLength := readBytes ph
    mapping := some content
    flags := if ph.pFlags &&& pfW ≠ 0 then vmaWriteable else 0 }

/-- The list of areas and `last_page`. -/
structure ElfState where
  areas : List VmArea
  lastPage : Nat

/-- `last_page` after a segment. -/
def raiseLastPage (ph : ProgramHeader) (lastPage : Nat) : Nat :=
  if memEnd ph > lastPage then memEnd ph else lastPage

/-- What follows the insertion of a segment's VMA: nothing after a panic, the
error on NULL, else the rest of the loop. -/
def afterInsert (inserted : Option (Option (List VmArea))) (st : ElfState)
    (rest : List VmArea → Option (Int × ElfState)) : Option (Int × ElfState) :=
  match inserted with
  | none => none
  | some none => some (-einval, st)
  | some (some areas) => rest areas

/-- The loop over the program headers. `ok k` is whether the `k`-th allocation
succeeds. -/
def loadSegments (ok : Nat → Bool) (content : List UInt8) :
    Nat → ElfState → List ProgramHeader → Option (Int × ElfState)
  | _, st, [] => some (0, st)
  | k, st, ph :: phs =>
      if ph.pType = ptLoad then
        afterInsert (vmAreaCreateInsert (ok k) (segmentVma content ph) st.areas) st fun areas =>
          loadSegments ok content (k + 1) ⟨areas, raiseLastPage ph st.lastPage⟩ phs
      else loadSegments ok content (k + 1) st phs

/-- The area for `brk`. -/
def brkVma (lastPage : Nat) : VmArea :=
  { start := lastPage, offset := 0, stop := u32 (lastPage + 128 * 1024 * 1024)
    mappingOffset := 0, mappingLength := 0, mapping := none
    flags := vmaWriteable ||| vmaAnonymous ||| vmaReserved }

/-- The program headers in the file. -/
def programHeaders (junk : Nat → Page) (content : List UInt8) : List ProgramHeader :=
  let header := readBuf (junk 1) content 0 52
  let phnum := le16 header 44
  let buf := readBuf (junk 2) content (le32 header 28) (32 * phnum)
  (List.range phnum).map (programHeader buf)

/-- `load_elf`; `junk` is what its three buffers hold before they are read
into, the panics of `vm_area_create_insert` are `none`. -/
def loadElf (ok : Nat → Bool) (junk : Nat → Page) (content : List UInt8)
    (areas : List VmArea) : Option (Int × List VmArea) :=
  let magic := readBuf (junk 0) content 0 4
  if ¬ (magic 0 = 0x7F ∧ magic 1 = 0x45 ∧ magic 2 = 0x4C ∧ magic 3 = 0x46) then
    some (-enoexec, areas)
  else if le16 (readBuf (junk 1) content 0 52) 16 ≠ 2 then some (-enoexec, areas)
  else if ¬ ok 0 then some (-enomem, areas)
  else
    match loadSegments ok content 1 ⟨areas, 0⟩ (programHeaders junk content) with
    | none => none
    | some (rc, st) =>
        if rc ≠ 0 then some (rc, st.areas)
        else
          let phnum := le16 (readBuf (junk 1) content 0 52) 44
          match vmAreaCreateInsert (ok (phnum + 1)) (brkVma (pgRndUp st.lastPage)) st.areas with
          | none => none
          | some none => some (0, st.areas)
          | some (some areas) => some (0, areas)

/-! ## Memory after some faults -/

/-- An access to `addr` by the program: a page that is there stays, else the
fault handler brings it in. -/
def faultIn (areas : List VmArea) (mem : Nat → Option Page) (addr : Nat) : Nat → Option Page :=
  if (mem (pgRndDown addr)).isSome then mem
  else
    match vmaHandlePagefault areas addr with
    | none => mem
    | some (page, _) => Function.update mem (pgRndDown addr) (some page)

/-- The pages after accesses in the given order, from an empty memory. -/
def faultAll (areas : List VmArea) (addrs : List Nat) : Nat → Option Page :=
  addrs.foldl (faultIn areas) fun _ => none

def memByte (mem : Nat → Option Page) (addr : Nat) : Option UInt8 :=
  (mem (pgRndDown addr)).map fun page => page (addr % 4096)

/-! ## The eager loader -/

/-- What the eager loader leaves at `p_vaddr + i`: the file's byte, a zero
behind `p_filesz`, and nothing in particular where the file has ended. -/
def eagerByte (content : List UInt8) (ph : ProgramHeader) (i : Nat) : Option UInt8 :=
  if i < ph.pFilesz then content[ph.pOffset + i]?
  else if i < ph.pMemsz then some 0
  else none

/-- In whatever order pages are touched, a touched byte of a segment is the
byte the eager loader would have put there. -/
def DemandEqualsEager (content : List UInt8) (loads : List ProgramHeader)
    (areas : List VmArea) : Prop :=
  ∀ addrs, ∀ ph ∈ loads, ∀ i < ph.pMemsz,
    (∃ a ∈ addrs, pgRndDown a = pgRndDown (ph.pVaddr + i)) →
    ∀ b, eagerByte content ph i = some b →
      memByte (faultAll areas addrs) (ph.pVaddr + i) = some b

/-! ## Segments -/

/-- The `PT_LOAD` headers. -/
def loadHeaders (junk : Nat → Page) (content : List UInt8) : List ProgramHeader :=
  (programHeaders junk content).filter fun ph => ph.pType = ptLoad

/-- The end of the last page of a segment. -/
def segmentEnd (ph : ProgramHeader) : Nat :=
  pgRndDown ph.pVaddr + (pgOffs ph + ph.pMemsz + 4095) / 4096 * 4096

/-- A segment the loader is made for: not longer in the file than in memory,
not empty, congruent, below the stack, and without wrap in memory or file. -/
structure SegmentWf (ph : ProgramHeader) : Prop where
  filesz_le : ph.pFilesz ≤ ph.pMemsz
  memsz_pos : 0 < ph.pMemsz
  congruent : ph.pOffset % 4096 = ph.pVaddr % 4096
  below_stack : segmentEnd ph ≤ stackVma.start
  offset_no_wrap : ph.pOffset + ph.pFilesz < 2 ^ 32

/-- No two segments share a page. -/
def DistinctPages (loads : List ProgramHeader) : Prop :=
  ∀ a ∈ loads, ∀ b ∈ loads, a ≠ b →
    segmentEnd a ≤ pgRndDown b.pVaddr ∨ segmentEnd b ≤ pgRndDown a.pVaddr

/-- The page of a segment, counted from its first one, that holds the byte
`p_vaddr + i`. -/
def pageOffset (ph : ProgramHeader) (i : Nat) : Nat := pgRndDown (pgOffs ph + i)

/-- The end of the file part of a segment, counted from its first page. -/
def filePartEnd (ph : ProgramHeader) : Nat :=
  if ph.pFilesz > 0 then pgOffs ph + ph.pFilesz else 0

theorem stackVma_start : stackVma.start = 0xBFC18000 := rfl

theorem segmentEnd_lt {ph : ProgramHeader} (h : SegmentWf ph) :
    pgRndDown ph.pVaddr + pgOffs ph + ph.pMemsz ≤ segmentEnd ph ∧ segmentEnd ph ≤ 0xBFC18000 := by
  have := h.below_stack
  rw [stackVma_start] at this
  refine ⟨?_, this⟩
  rw [segmentEnd]
  omega

theorem readBytes_eq {ph : ProgramHeader} (h : SegmentWf ph) : readBytes ph = filePartEnd ph := by
  obtain ⟨hmem, htop⟩ := segmentEnd_lt h
  have := h.filesz_le
  rw [readBytes, filePartEnd]
  split
  · exact u32_of_lt (by omega)
  · rfl

theorem memEnd_eq {ph : ProgramHeader} (h : SegmentWf ph) : memEnd ph = segmentEnd ph := by
  obtain ⟨hmem, htop⟩ := segmentEnd_lt h
  have hle := h.filesz_le
  have hsum : u32 (pgOffs ph + ph.pMemsz) = pgOffs ph + ph.pMemsz := u32_of_lt (by omega)
  have hup : pgRndUp (pgOffs ph + ph.pMemsz) = (pgOffs ph + ph.pMemsz + 4095) / 4096 * 4096 := by
    rw [pgRndUp, u32_of_lt (by omega)]
  rw [memEnd, zeroBytes, readBytes_eq h, hsum, hup, segmentEnd]
  rw [segmentEnd] at htop
  rw [filePartEnd]
  split
  · rw [u32Sub, u32]
    omega
  · rw [u32]
    omega

/-! ## What a fault puts at a byte of a segment -/

/-- The byte at `p_vaddr + i` of the page `vma_load` makes. -/
def segmentByte (content : List UInt8) (ph : ProgramHeader) (i : Nat) : UInt8 :=
  (vmaLoad (segmentVma content ph) (pgRndDown (ph.pVaddr + i))).1 ((ph.pVaddr + i) % 4096)

theorem vaddr_split (ph : ProgramHeader) (i : Nat) :
    pgRndDown (ph.pVaddr + i) = pgRndDown ph.pVaddr + pageOffset ph i ∧
      (ph.pVaddr + i) % 4096 = (pgOffs ph + i) % 4096 := by
  rw [pageOffset, pgOffs, pgRndDown, pgRndDown, pgRndDown]
  omega

/-- The file part of a segment ends at `p_offset + p_filesz`. -/
theorem filePartEnd_offset {ph : ProgramHeader} (h : SegmentWf ph) :
    pgRndDown ph.pOffset + filePartEnd ph =
      if ph.pFilesz > 0 then ph.pOffset + ph.pFilesz else pgRndDown ph.pOffset := by
  have hmod := pgRndDown_add_mod ph.pOffset
  have hcong := h.congruent
  rw [filePartEnd, pgOffs, ← hcong]
  split
  · omega
  · exact Nat.add_zero _

/-- `vma_load` on a page of a segment, with the sums that cannot wrap
resolved. -/
theorem segmentByte_eq {content : List UInt8} {ph : ProgramHeader} {i : Nat} (h : SegmentWf ph)
    (hi : i < ph.pMemsz) :
    segmentByte content ph i =
      if pgRndUp (pgRndDown ph.pOffset + filePartEnd ph) ≤
          u32 (pgRndDown ph.pOffset + pageOffset ph i) then 0
      else if (pgOffs ph + i) % 4096 < vmaMaxLen (filePartEnd ph) (pageOffset ph i) then
        content.getD (u32 (pgRndDown ph.pOffset + pageOffset ph i) + (pgOffs ph + i) % 4096) 0
      else 0 := by
  obtain ⟨hpage, hmod⟩ := vaddr_split ph i
  obtain ⟨hmem, htop⟩ := segmentEnd_lt h
  have hpo : pageOffset ph i ≤ pgOffs ph + i := pgRndDown_le _
  have hsub : u32Sub (pgRndDown ph.pVaddr + pageOffset ph i) (pgRndDown ph.pVaddr) =
      pageOffset ph i := by
    rw [u32Sub]
    omega
  have hfile : pgRndDown ph.pOffset + filePartEnd ph < 2 ^ 32 := by
    have hend := filePartEnd_offset h
    have hoff := h.offset_no_wrap
    have hdown := pgRndDown_le ph.pOffset
    split at hend <;> omega
  rw [segmentByte, hpage, hmod]
  simp only [vmaLoad, segmentVma, readBytes_eq h, hsub, u32_of_lt hfile, ge_iff_le]
  rw [← mappingLoad_apply]
  split
  · rfl
  · rfl

/-- The end of the file part can be rounded up to a page. -/
def FileEndRounds (ph : ProgramHeader) : Prop :=
  pgRndDown ph.pOffset + filePartEnd ph + 4095 < 2 ^ 32

instance (ph : ProgramHeader) : Decidable (FileEndRounds ph) := Nat.decLt _ _

/-- Where the rounding wraps, it gives 0, and the whole segment is taken for
one behind its file part. -/
theorem segmentByte_not_rounds {content : List UInt8} {ph : ProgramHeader} {i : Nat}
    (h : SegmentWf ph) (hi : i < ph.pMemsz) (hround : ¬ FileEndRounds ph) :
    segmentByte content ph i = 0 := by
  have hend := filePartEnd_offset h
  have hoff := h.offset_no_wrap
  have hdown := pgRndDown_le ph.pOffset
  rw [FileEndRounds] at hround
  have hzero : pgRndUp (pgRndDown ph.pOffset + filePartEnd ph) = 0 := by
    rw [pgRndUp, u32]
    split at hend <;> omega
  rw [segmentByte_eq h hi, hzero, if_pos (Nat.zero_le _)]

/-- The file part of a segment: the byte of the file, unless the page is two
gigabytes or more before the end of the file part. -/
theorem segmentByte_file {content : List UInt8} {ph : ProgramHeader} {i : Nat}
    (h : SegmentWf ph) (hi : i < ph.pFilesz) (hround : FileEndRounds ph) :
    segmentByte content ph i =
      if filePartEnd ph < pageOffset ph i + 2 ^ 31 then content.getD (ph.pOffset + i) 0
      else 0 := by
  obtain ⟨hmem, htop⟩ := segmentEnd_lt h
  have hle := h.filesz_le
  have hoff := h.offset_no_wrap
  have hdown := pgRndDown_add_mod ph.pOffset
  have hcong := h.congruent
  have hend : filePartEnd ph = pgOffs ph + ph.pFilesz := if_pos (by omega)
  have hin : pageOffset ph i + (pgOffs ph + i) % 4096 = pgOffs ph + i := pgRndDown_add_mod _
  have hoffs : pgOffs ph = ph.pOffset % 4096 := hcong.symm
  have hbase : u32 (pgRndDown ph.pOffset + pageOffset ph i) =
      pgRndDown ph.pOffset + pageOffset ph i := u32_of_lt (by omega)
  have hup := (pgRndUp_spec hround).1
  have hmax : vmaMaxLen (filePartEnd ph) (pageOffset ph i) =
      if filePartEnd ph < pageOffset ph i + 2 ^ 31 then
        min (filePartEnd ph - pageOffset ph i) 4096 else 0 := by
    unfold vmaMaxLen u32Sub i32
    dsimp only
    split_ifs <;> omega
  rw [segmentByte_eq h (by omega), if_neg (by omega), hbase, hmax]
  have hplace : pgRndDown ph.pOffset + pageOffset ph i + (pgOffs ph + i) % 4096 =
      ph.pOffset + i := by omega
  rw [hplace]
  split
  · exact if_pos (by omega)
  · rfl

/-- The zero part of a segment: 0, unless the page is more than two gigabytes
behind the file part and the offset in the file wraps. -/
theorem segmentByte_zero {content : List UInt8} {ph : ProgramHeader} {i : Nat}
    (h : SegmentWf ph) (hi : i < ph.pMemsz) (hfile : ph.pFilesz ≤ i) (hround : FileEndRounds ph) :
    segmentByte content ph i =
      if filePartEnd ph + 2 ^ 31 < pageOffset ph i ∧ 2 ^ 32 ≤ ph.pOffset + i then
        content.getD (ph.pOffset + i - 2 ^ 32) 0
      else 0 := by
  obtain ⟨hmem, htop⟩ := segmentEnd_lt h
  have hoff := h.offset_no_wrap
  have hdown := pgRndDown_add_mod ph.pOffset
  have hcong := h.congruent
  have hend : filePartEnd ph ≤ pgOffs ph + i := by
    rw [filePartEnd]
    split <;> omega
  have hin : pageOffset ph i + (pgOffs ph + i) % 4096 = pgOffs ph + i := pgRndDown_add_mod _
  have hoffs : pgOffs ph = ph.pOffset % 4096 := hcong.symm
  have hpage : pageOffset ph i % 4096 = 0 := pgRndDown_mod _
  have hpage' := pgRndDown_mod ph.pOffset
  obtain ⟨hup, hup', -⟩ := pgRndUp_spec hround
  rw [FileEndRounds] at hround
  rw [segmentByte_eq h hi]
  by_cases hwrap : filePartEnd ph + 2 ^ 31 < pageOffset ph i ∧ 2 ^ 32 ≤ ph.pOffset + i
  · obtain ⟨hfar, hover⟩ := hwrap
    have hbase : u32 (pgRndDown ph.pOffset + pageOffset ph i) =
        pgRndDown ph.pOffset + pageOffset ph i - 2 ^ 32 := u32_of_ge (by omega) (by omega)
    have hmax : vmaMaxLen (filePartEnd ph) (pageOffset ph i) = 4096 := by
      unfold vmaMaxLen u32Sub i32
      dsimp only
      split_ifs <;> omega
    have hplace : pgRndDown ph.pOffset + pageOffset ph i - 2 ^ 32 + (pgOffs ph + i) % 4096 =
        ph.pOffset + i - 2 ^ 32 := by omega
    rw [hbase, hmax, if_neg (by omega), if_pos (by omega), if_pos ⟨hfar, hover⟩, hplace]
  · rw [if_neg hwrap]
    split
    · rfl
    next hin' =>
      refine if_neg ?_
      rw [not_and_or, not_lt, not_le] at hwrap
      have hbase : filePartEnd ph + 2 ^ 31 < pageOffset ph i →
          u32 (pgRndDown ph.pOffset + pageOffset ph i) =
            pgRndDown ph.pOffset + pageOffset ph i := fun hfar => u32_of_lt (by omega)
      have hnear : pageOffset ph i ≤ filePartEnd ph + 2 ^ 31 := by
        by_contra hfar
        rw [hbase (by omega)] at hin'
        omega
      unfold vmaMaxLen u32Sub i32
      dsimp only
      split_ifs <;> omega

/-! ## The areas of a loaded file -/

theorem loadSegments_spec {ok : Nat → Bool} {content : List UInt8} {phs : List ProgramHeader}
    {k : Nat} {st st' : ElfState} (h : loadSegments ok content k st phs = some (0, st')) :
    (∀ v, v ∈ st'.areas ↔
      v ∈ st.areas ∨ ∃ ph ∈ phs, ph.pType = ptLoad ∧ v = segmentVma content ph) ∧
    st.lastPage ≤ st'.lastPage ∧
    (∀ ph ∈ phs, ph.pType = ptLoad → memEnd ph ≤ st'.lastPage) ∧
    ∀ top, st.lastPage ≤ top → (∀ ph ∈ phs, ph.pType = ptLoad → memEnd ph ≤ top) →
      st'.lastPage ≤ top := by
  induction phs generalizing k st with
  | nil =>
    obtain ⟨-, rfl⟩ := Prod.mk.inj (Option.some.inj h)
    exact ⟨fun v => by simp, le_refl _, by simp, fun top htop _ => htop⟩
  | cons ph phs ih =>
    rw [loadSegments] at h
    split at h
    next hload =>
      unfold afterInsert at h
      split at h
      next => cases h
      next => exact absurd (Prod.mk.inj (Option.some.inj h)).1 (by decide)
      next areas hins =>
        obtain ⟨hmem, hmono, hends, htop⟩ := ih h
        dsimp only at hmem hmono htop
        have hlast : st.lastPage ≤ st'.lastPage ∧ memEnd ph ≤ st'.lastPage := by
          rw [raiseLastPage] at hmono
          split at hmono
          · exact ⟨by omega, hmono⟩
          · exact ⟨hmono, by omega⟩
        refine ⟨fun v => ?_, hlast.1, ?_, fun top hst hphs => ?_⟩
        · rw [hmem, mem_vmAreaCreateInsert hins v]
          constructor
          · rintro ((rfl | hold) | ⟨q, hq, hrest⟩)
            · exact .inr ⟨ph, List.mem_cons_self, hload, rfl⟩
            · exact .inl hold
            · exact .inr ⟨q, List.mem_cons_of_mem _ hq, hrest⟩
          · rintro (hold | ⟨q, hq, hrest⟩)
            · exact .inl (.inr hold)
            · rcases List.mem_cons.mp hq with rfl | hq
              · exact .inl (.inl hrest.2)
              · exact .inr ⟨q, hq, hrest⟩
        · intro q hq hqload
          rcases List.mem_cons.mp hq with rfl | hq
          · exact hlast.2
          · exact hends q hq hqload
        · refine htop top ?_ fun q hq => hphs q (List.mem_cons_of_mem _ hq)
          have hend := hphs ph List.mem_cons_self hload
          rw [raiseLastPage]
          split
          · exact hend
          · exact hst
    next hload =>
      obtain ⟨hmem, hmono, hends, htop⟩ := ih h
      refine ⟨fun v => ?_, hmono, ?_, fun top hst hphs =>
        htop top hst fun q hq => hphs q (List.mem_cons_of_mem _ hq)⟩
      · rw [hmem]
        refine or_congr_right ⟨?_, ?_⟩
        · rintro ⟨q, hq, hrest⟩
          exact ⟨q, List.mem_cons_of_mem _ hq, hrest⟩
        · rintro ⟨q, hq, hqload, hrest⟩
          rcases List.mem_cons.mp hq with rfl | hq
          · exact absurd hqload hload
          · exact ⟨q, hq, hqload, hrest⟩
      · intro q hq hqload
        rcases List.mem_cons.mp hq with rfl | hq
        · exact absurd hqload hload
        · exact hends q hq hqload

theorem mem_loadHeaders {junk : Nat → Page} {content : List UInt8} {ph : ProgramHeader} :
    ph ∈ loadHeaders junk content ↔ ph ∈ programHeaders junk content ∧ ph.pType = ptLoad := by
  simp [loadHeaders]

/-- A loaded file has an area for every segment, the stack, and one more at
most, behind all segments. -/
theorem loadElf_areas {ok : Nat → Bool} {junk : Nat → Page} {content : List UInt8}
    {areas : List VmArea} (h : loadElf ok junk content [stackVma] = some (0, areas))
    (hwf : ∀ ph ∈ loadHeaders junk content, SegmentWf ph) :
    (∀ ph ∈ loadHeaders junk content, segmentVma content ph ∈ areas) ∧
    ∀ v ∈ areas, v = stackVma ∨ (∃ ph ∈ loadHeaders junk content, v = segmentVma content ph) ∨
      ∀ ph ∈ loadHeaders junk content, segmentEnd ph ≤ v.start := by
  unfold loadElf at h
  dsimp only at h
  split at h
  · cases h
  split at h
  · cases h
  split at h
  · cases h
  split at h
  next => cases h
  next rc st hseg =>
    split at h
    next hrc => exact absurd (Prod.mk.inj (Option.some.inj h)).1 hrc
    next hrc =>
      rw [not_not] at hrc
      subst hrc
      obtain ⟨hmem, -, hends, htop⟩ := loadSegments_spec hseg
      have hseg : ∀ ph ∈ loadHeaders junk content, segmentVma content ph ∈ st.areas :=
        fun ph hph => (hmem _).mpr (.inr ⟨ph, (mem_loadHeaders.mp hph).1,
          (mem_loadHeaders.mp hph).2, rfl⟩)
      have hold : ∀ v ∈ st.areas, v = stackVma ∨
          ∃ ph ∈ loadHeaders junk content, v = segmentVma content ph := by
        intro v hv
        rcases (hmem v).mp hv with hstack | ⟨ph, hph, hload, rfl⟩
        · exact .inl (List.mem_singleton.mp hstack)
        · exact .inr ⟨ph, mem_loadHeaders.mpr ⟨hph, hload⟩, rfl⟩
      split at h
      next => cases h
      next =>
        obtain ⟨-, rfl⟩ := Prod.mk.inj (Option.some.inj h)
        refine ⟨hseg, fun v hv => ?_⟩
        rcases hold v hv with hstack | hsome
        · exact .inl hstack
        · exact .inr (.inl hsome)
      next areas' hins =>
        obtain ⟨-, rfl⟩ := Prod.mk.inj (Option.some.inj h)
        have hadd := mem_vmAreaCreateInsert hins
        refine ⟨fun ph hph => (hadd _).mpr (.inr (hseg ph hph)), fun v hv => ?_⟩
        rcases (hadd v).mp hv with rfl | hv
        · refine .inr (.inr fun ph hph => ?_)
          have hlow : st.lastPage ≤ 0xBFC18000 := htop _ (Nat.zero_le _) fun q hq hqload => by
            have hq' := hwf q (mem_loadHeaders.mpr ⟨hq, hqload⟩)
            rw [memEnd_eq hq']
            exact (segmentEnd_lt hq').2
          have hle := hends ph (mem_loadHeaders.mp hph).1 (mem_loadHeaders.mp hph).2
          rw [memEnd_eq (hwf ph hph)] at hle
          exact hle.trans (pgRndUp_spec (by omega)).1
        · rcases hold v hv with hstack | hsome
          · exact .inl hstack
          · exact .inr (.inl hsome)

/-- `vma_find` on an address only one area holds. -/
theorem vmaFind_eq {areas : List VmArea} {addr : Nat} {vma : VmArea} (hmem : vma ∈ areas)
    (hin : vma.start ≤ addr ∧ addr < vma.stop)
    (huniq : ∀ v ∈ areas, v.start ≤ addr → addr < v.stop → v = vma) :
    vmaFind areas addr = some vma := by
  rw [vmaFind]
  cases hfind : areas.find? fun v => v.start ≤ addr ∧ addr < v.stop with
  | none =>
    have := List.find?_eq_none.mp hfind vma hmem
    simp [hin] at this
  | some v =>
    have hv := List.find?_some hfind
    rw [decide_eq_true_eq] at hv
    rw [huniq v (List.mem_of_find?_eq_some hfind) hv.1 hv.2]

/-- The page of a segment's byte is in no other area. -/
theorem vmaFind_segment {ok : Nat → Bool} {junk : Nat → Page} {content : List UInt8}
    {areas : List VmArea} (h : loadElf ok junk content [stackVma] = some (0, areas))
    (hwf : ∀ ph ∈ loadHeaders junk content, SegmentWf ph)
    (hdisj : DistinctPages (loadHeaders junk content)) {ph : ProgramHeader}
    (hph : ph ∈ loadHeaders junk content) {i : Nat} (hi : i < ph.pMemsz) :
    vmaFind areas (pgRndDown (ph.pVaddr + i)) = some (segmentVma content ph) := by
  obtain ⟨hall, honly⟩ := loadElf_areas h hwf
  obtain ⟨hmem, htop⟩ := segmentEnd_lt (hwf ph hph)
  have hlow : pgRndDown ph.pVaddr ≤ pgRndDown (ph.pVaddr + i) := by
    rw [(vaddr_split ph i).1]
    exact Nat.le_add_right _ _
  have hhigh : pgRndDown (ph.pVaddr + i) < segmentEnd ph := by
    have hsplit := pgRndDown_add_mod ph.pVaddr
    have hle := pgRndDown_le (ph.pVaddr + i)
    rw [pgOffs] at hmem
    omega
  refine vmaFind_eq (hall ph hph) ⟨hlow, ?_⟩ ?_
  · exact lt_of_lt_of_eq hhigh (memEnd_eq (hwf ph hph)).symm
  · intro v hv hstart hstop
    rcases honly v hv with rfl | ⟨q, hq, rfl⟩ | hbehind
    · rw [stackVma_start] at hstart
      omega
    · by_cases hqp : q = ph
      · rw [hqp]
      · have hstop' : pgRndDown (ph.pVaddr + i) < segmentEnd q :=
          lt_of_lt_of_eq hstop (memEnd_eq (hwf q hq))
        have hstart' : pgRndDown q.pVaddr ≤ pgRndDown (ph.pVaddr + i) := hstart
        rcases hdisj q hq ph hph hqp with hleft | hright
        · omega
        · omega
    · have := hbehind ph hph
      omega

/-! ## Faults in any order -/

theorem pgRndDown_idem (a : Nat) : pgRndDown (pgRndDown a) = pgRndDown a := by
  rw [pgRndDown, pgRndDown]
  omega

/-- A fault is served by the page of its address alone. -/
theorem vmaHandlePagefault_page (areas : List VmArea) (addr : Nat) :
    vmaHandlePagefault areas (pgRndDown addr) = vmaHandlePagefault areas addr := by
  rw [vmaHandlePagefault, vmaHandlePagefault, pgRndDown_idem]

/-- One access: a page present is kept, the accessed one is there if the
handler can bring it in. -/
theorem faultIn_apply (areas : List VmArea) (mem : Nat → Option Page) (addr page : Nat)
    (hmem : ∀ p, mem p = none ∨ mem p = (vmaHandlePagefault areas p).map Prod.fst) :
    faultIn areas mem addr page =
      if page = pgRndDown addr then (vmaHandlePagefault areas page).map Prod.fst
      else mem page := by
  unfold faultIn
  by_cases hpage : page = pgRndDown addr
  · subst hpage
    rw [if_pos rfl, vmaHandlePagefault_page]
    split
    next hsome =>
      rcases hmem (pgRndDown addr) with hnone | heq
      · rw [hnone] at hsome
        cases hsome
      · rw [heq, vmaHandlePagefault_page]
    next hnone =>
      rw [Option.not_isSome_iff_eq_none] at hnone
      cases hfault : vmaHandlePagefault areas addr with
      | none => exact hnone
      | some r => exact Function.update_self ..
  · rw [if_neg hpage]
    split
    · rfl
    · cases hfault : vmaHandlePagefault areas addr with
      | none => rfl
      | some r => exact Function.update_of_ne hpage ..

/-- A touched page holds what the handler brings in, whenever it was touched
first. -/
theorem faultAll_apply (areas : List VmArea) (addrs : List Nat) (page : Nat) :
    faultAll areas addrs page =
      if ∃ a ∈ addrs, pgRndDown a = page then (vmaHandlePagefault areas page).map Prod.fst
      else none := by
  induction addrs using List.reverseRecOn generalizing page with
  | nil => simp [faultAll]
  | append_singleton addrs a ih =>
    have hmem : ∀ p, faultAll areas addrs p = none ∨
        faultAll areas addrs p = (vmaHandlePagefault areas p).map Prod.fst := by
      intro p
      rw [ih p]
      split
      · exact .inr rfl
      · exact .inl rfl
    have hstep : faultAll areas (addrs ++ [a]) = faultIn areas (faultAll areas addrs) a :=
      List.foldl_concat ..
    rw [hstep, faultIn_apply areas _ a page hmem, ih page]
    by_cases hpage : page = pgRndDown a
    · rw [if_pos hpage, if_pos ⟨a, by simp, hpage.symm⟩]
    · rw [if_neg hpage]
      refine if_congr ⟨?_, ?_⟩ rfl rfl
      · rintro ⟨b, hb, hbp⟩
        exact ⟨b, List.mem_append_left _ hb, hbp⟩
      · rintro ⟨b, hb, hbp⟩
        rcases List.mem_append.mp hb with hb | hb
        · exact ⟨b, hb, hbp⟩
        · rw [List.mem_singleton.mp hb] at hbp
          exact absurd hbp.symm hpage

/-- A segment is never reserved. -/
theorem segmentVma_not_reserved (content : List UInt8) (ph : ProgramHeader) :
    (segmentVma content ph).flags &&& vmaReserved = 0 := by
  dsimp only [segmentVma]
  split
  · decide
  · decide

/-- The byte of a touched page of a segment. -/
theorem memByte_segment {ok : Nat → Bool} {junk : Nat → Page} {content : List UInt8}
    {areas : List VmArea} (h : loadElf ok junk content [stackVma] = some (0, areas))
    (hwf : ∀ ph ∈ loadHeaders junk content, SegmentWf ph)
    (hdisj : DistinctPages (loadHeaders junk content)) {ph : ProgramHeader}
    (hph : ph ∈ loadHeaders junk content) {i : Nat} (hi : i < ph.pMemsz) {addrs : List Nat}
    (htouch : ∃ a ∈ addrs, pgRndDown a = pgRndDown (ph.pVaddr + i)) :
    memByte (faultAll areas addrs) (ph.pVaddr + i) = some (segmentByte content ph i) := by
  have hfault : vmaHandlePagefault areas (pgRndDown (ph.pVaddr + i)) =
      some (vmaLoad (segmentVma content ph) (pgRndDown (ph.pVaddr + i))) := by
    rw [vmaHandlePagefault, pgRndDown_idem, vmaFind_segment h hwf hdisj hph hi]
    exact if_neg (not_not_intro (segmentVma_not_reserved content ph))
  rw [memByte, faultAll_apply, if_pos htouch, hfault]
  rfl

/-! ## Demand paging against the eager loader -/

/-- Where `int max_len` and the `uint32_t` sums of `vma_load` cannot spoil a
byte that matters: the end of a file part that holds something can be rounded
up and is less than two gigabytes away from each page of it, and a page of the
zero part at whose wrapped offset the file has something is at most two
gigabytes behind the file part. -/
def PagingFits (content : List UInt8) (loads : List ProgramHeader) : Prop :=
  ∀ ph ∈ loads, ∀ i < ph.pMemsz,
    (i < ph.pFilesz → ∀ b, content[ph.pOffset + i]? = some b → b ≠ 0 →
      FileEndRounds ph ∧ filePartEnd ph < pageOffset ph i + 2 ^ 31) ∧
    (ph.pFilesz ≤ i → FileEndRounds ph → 2 ^ 32 ≤ ph.pOffset + i →
      content.getD (ph.pOffset + i - 2 ^ 32) 0 ≠ 0 → pageOffset ph i ≤ filePartEnd ph + 2 ^ 31)

/-- A byte of the file part is right exactly when the condition on it holds. -/
theorem segmentByte_file_iff {content : List UInt8} {ph : ProgramHeader} {i : Nat}
    (h : SegmentWf ph) (hi : i < ph.pFilesz) :
    (∀ b, eagerByte content ph i = some b → segmentByte content ph i = b) ↔
      ∀ b, content[ph.pOffset + i]? = some b → b ≠ 0 →
        FileEndRounds ph ∧ filePartEnd ph < pageOffset ph i + 2 ^ 31 := by
  have hle := h.filesz_le
  have heager : eagerByte content ph i = content[ph.pOffset + i]? := if_pos hi
  rw [heager]
  constructor
  · intro hbyte b hb hne
    by_contra hnot
    apply hne
    rw [← hbyte b hb]
    by_cases hround : FileEndRounds ph
    · rw [segmentByte_file h hi hround]
      exact if_neg fun hnear => hnot ⟨hround, hnear⟩
    · exact segmentByte_not_rounds h (by omega) hround
  · intro hfits b hb
    by_cases hzero : b = 0
    · subst hzero
      by_cases hround : FileEndRounds ph
      · rw [segmentByte_file h hi hround, List.getD_eq_getElem?_getD, hb]
        exact ite_self _
      · exact segmentByte_not_rounds h (by omega) hround
    · obtain ⟨hround, hnear⟩ := hfits b hb hzero
      rw [segmentByte_file h hi hround, if_pos hnear, List.getD_eq_getElem?_getD, hb]
      rfl

/-- The same for the zero part. -/
theorem segmentByte_zero_iff {content : List UInt8} {ph : ProgramHeader} {i : Nat}
    (h : SegmentWf ph) (hi : i < ph.pMemsz) (hfile : ph.pFilesz ≤ i) :
    (∀ b, eagerByte content ph i = some b → segmentByte content ph i = b) ↔
      (FileEndRounds ph → 2 ^ 32 ≤ ph.pOffset + i →
        content.getD (ph.pOffset + i - 2 ^ 32) 0 ≠ 0 →
        pageOffset ph i ≤ filePartEnd ph + 2 ^ 31) := by
  have heager : eagerByte content ph i = some 0 := by
    rw [eagerByte, if_neg (by omega), if_pos hi]
  rw [heager]
  constructor
  · intro hbyte hround hover hne
    by_contra hfar
    apply hne
    have hbyte' := hbyte 0 rfl
    rwa [segmentByte_zero h hi hfile hround, if_pos ⟨by omega, hover⟩] at hbyte'
  · intro hfits b hb
    rw [← Option.some.inj hb]
    by_cases hround : FileEndRounds ph
    · rw [segmentByte_zero h hi hfile hround]
      split
      next hwrap =>
        by_contra hne
        have := hfits hround hwrap.2 hne
        omega
      next => rfl
    · exact segmentByte_not_rounds h hi hround

/-- The order of the faults does not matter: what counts is the byte a single
fault brings in. -/
theorem demandEqualsEager_iff_segmentByte {ok : Nat → Bool} {junk : Nat → Page}
    {content : List UInt8} {areas : List VmArea}
    (hload : loadElf ok junk content [stackVma] = some (0, areas))
    (hwf : ∀ ph ∈ loadHeaders junk content, SegmentWf ph)
    (hdisj : DistinctPages (loadHeaders junk content)) :
    DemandEqualsEager content (loadHeaders junk content) areas ↔
      ∀ ph ∈ loadHeaders junk content, ∀ i < ph.pMemsz, ∀ b, eagerByte content ph i = some b →
        segmentByte content ph i = b := by
  constructor
  · intro heq ph hph i hi b hb
    have htouch : ∃ a ∈ [ph.pVaddr + i], pgRndDown a = pgRndDown (ph.pVaddr + i) :=
      ⟨_, List.mem_singleton_self _, rfl⟩
    have hmem := heq _ ph hph i hi htouch b hb
    rw [memByte_segment hload hwf hdisj hph hi htouch] at hmem
    exact Option.some.inj hmem
  · intro hall addrs ph hph i hi htouch b hb
    rw [memByte_segment hload hwf hdisj hph hi htouch, hall ph hph i hi b hb]

/-- **Demand paging and eager loading.** After a file with well-formed segments
on distinct pages was loaded, touching pages in any order gives the bytes the
eager loader would have put there if and only if the arithmetic of `vma_load`
fits the segments. -/
theorem demand_paging_eager_iff {ok : Nat → Bool} {junk : Nat → Page} {content : List UInt8}
    {areas : List VmArea} (hload : loadElf ok junk content [stackVma] = some (0, areas))
    (hwf : ∀ ph ∈ loadHeaders junk content, SegmentWf ph)
    (hdisj : DistinctPages (loadHeaders junk content)) :
    DemandEqualsEager content (loadHeaders junk content) areas ↔
      PagingFits content (loadHeaders junk content) := by
  rw [demandEqualsEager_iff_segmentByte hload hwf hdisj]
  refine forall₂_congr fun ph hph => forall₂_congr fun i hi => ?_
  by_cases hfile : i < ph.pFilesz
  · rw [segmentByte_file_iff (hwf ph hph) hfile]
    exact ⟨fun hf => ⟨fun _ => hf, fun hle => absurd hle (by omega)⟩, fun hf => hf.1 hfile⟩
  · rw [segmentByte_zero_iff (hwf ph hph) hi (by omega)]
    exact ⟨fun hz => ⟨fun hlt => absurd hlt hfile, fun _ => hz⟩, fun hz => hz.2 (by omega)⟩

/-- Files and segments of less than two gigabytes fit. -/
theorem pagingFits_of_small {content : List UInt8} {loads : List ProgramHeader}
    (h : ∀ ph ∈ loads, ph.pFilesz ≤ ph.pMemsz ∧ ph.pFilesz + 8192 < 2 ^ 31 ∧
      ph.pOffset + ph.pMemsz + 8192 < 2 ^ 32) :
    PagingFits content loads := by
  intro ph hph i hi
  obtain ⟨hle, hfile, hmem⟩ := h ph hph
  have hend : filePartEnd ph < ph.pFilesz + 4096 := by
    have : pgOffs ph < 4096 := Nat.mod_lt _ (by norm_num)
    rw [filePartEnd]
    split <;> omega
  have hdown := pgRndDown_le ph.pOffset
  refine ⟨fun hi' b _ _ => ⟨?_, by omega⟩, fun _ _ hover => ?_⟩
  · rw [FileEndRounds]
    omega
  · omega

/-- A file of 84 bytes: the ELF header and one `PT_LOAD` header, for a segment
at 0x1000 with the given lengths that starts at the beginning of the file. -/
def headerOnlyElf (filesz memsz : List UInt8) : List UInt8 :=
  [0x7F, 0x45, 0x4C, 0x46] ++ List.replicate 12 0 ++ [2, 0] ++ List.replicate 10 0 ++
    [52, 0, 0, 0] ++ List.replicate 12 0 ++ [1, 0] ++ List.replicate 6 0 ++
    [1, 0, 0, 0] ++ [0, 0, 0, 0] ++ [0, 0x10, 0, 0] ++ [0, 0, 0, 0] ++ filesz ++ memsz ++
    [5, 0, 0, 0] ++ [0, 0x10, 0, 0]

/-- Its segment. -/
def headerOnlySegment (filesz memsz : Nat) : ProgramHeader :=
  { pType := 1, pOffset := 0, pVaddr := 0x1000, pFilesz := filesz, pMemsz := memsz, pFlags := 5 }

/-- The header table as the program text, with 16 bytes of bss. -/
theorem demand_paging_eager_iff_small :
    DemandEqualsEager (headerOnlyElf [84, 0, 0, 0] [100, 0, 0, 0])
      (loadHeaders (fun _ => zeroPage) (headerOnlyElf [84, 0, 0, 0] [100, 0, 0, 0]))
      [segmentVma (headerOnlyElf [84, 0, 0, 0] [100, 0, 0, 0]) (headerOnlySegment 84 100),
        brkVma 0x2000, stackVma] := by
  have hloads : loadHeaders (fun _ => zeroPage) (headerOnlyElf [84, 0, 0, 0] [100, 0, 0, 0]) =
      [headerOnlySegment 84 100] := by decide +kernel
  refine (@demand_paging_eager_iff (fun _ => true) _ _ _ ?_ ?_ ?_).mpr ?_
  · decide +kernel
  · rw [hloads]
    rintro ph (_ | ⟨_, ⟨⟩⟩)
    constructor <;> decide
  · rw [hloads]
    rintro a (_ | ⟨_, ⟨⟩⟩) b (_ | ⟨_, ⟨⟩⟩) hne
    exact absurd rfl hne
  · rw [hloads]
    refine pagingFits_of_small ?_
    rintro ph (_ | ⟨_, ⟨⟩⟩)
    decide

/-- A segment of two gigabytes that starts with the 84 bytes of the file: its
first page comes in as zeros, not as 0x7F, 'E', 'L', 'F' and so on. -/
theorem demand_paging_huge_segment :
    ¬ ∀ (ok : Nat → Bool) (junk : Nat → Page) (content : List UInt8) (areas : List VmArea),
      loadElf ok junk content [stackVma] = some (0, areas) →
      (∀ ph ∈ loadHeaders junk content, SegmentWf ph) →
      DistinctPages (loadHeaders junk content) →
      DemandEqualsEager content (loadHeaders junk content) areas := by
  intro hequal
  have hloads : loadHeaders (fun _ => zeroPage)
      (headerOnlyElf [0, 0, 0, 0x80] [0, 0, 0, 0x80]) =
        [headerOnlySegment 0x80000000 0x80000000] := by decide +kernel
  have hload : loadElf (fun _ => true) (fun _ => zeroPage)
      (headerOnlyElf [0, 0, 0, 0x80] [0, 0, 0, 0x80]) [stackVma] =
        some (0, [segmentVma (headerOnlyElf [0, 0, 0, 0x80] [0, 0, 0, 0x80])
          (headerOnlySegment 0x80000000 0x80000000), brkVma 0x80001000, stackVma]) := by
    decide +kernel
  have hwf : ∀ ph ∈ [headerOnlySegment 0x80000000 0x80000000], SegmentWf ph := by
    rintro ph (_ | ⟨_, ⟨⟩⟩)
    constructor <;> decide
  have hdisj : DistinctPages [headerOnlySegment 0x80000000 0x80000000] := by
    rintro a (_ | ⟨_, ⟨⟩⟩) b (_ | ⟨_, ⟨⟩⟩) hne
    exact absurd rfl hne
  have heq := hequal _ _ _ _ hload (hloads ▸ hwf) (hloads ▸ hdisj)
  rw [demandEqualsEager_iff_segmentByte hload (hloads ▸ hwf) (hloads ▸ hdisj), hloads] at heq
  have hbyte := heq _ List.mem_cons_self 0 (by decide)
  rw [segmentByte_file_iff (hwf _ List.mem_cons_self) (by decide)] at hbyte
  have hnear := (hbyte 0x7F (by decide) (by decide)).2
  revert hnear
  decide

end Levos.Kernel
