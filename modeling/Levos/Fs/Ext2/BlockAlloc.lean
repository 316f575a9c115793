import Levos.Fs.Ext2.Alloc
import Levos.Fs.Ext2.Layout

/-!
# `ext2_alloc_block` keeps its promise

On a consistent filesystem the allocator is one that the code for files can
rely on: `ext2BlockAllocator` is a `BlockAllocator`, with the bits of the block
bitmaps for the blocks in use, and the counters of the groups for the room
that is left.
-/

namespace Levos.Fs

open Levos.Base Levos.Kernel

variable {groups : Nat} {fs : Ext2Fs}

/-! ## What the allocators depend on -/

/-- The superblock, the descriptors and the bitmaps. -/
def allocMetadata (groups : Nat) (fs : Ext2Fs) : Set Nat :=
  {a | (1024 ≤ a ∧ a < 3072) ∨ ∃ k, ∃ g < groups, a / 1024 = bitmapBlock fs k g}

section Frame

variable {d : Nat → UInt8} (hc : Ext2Consistent groups fs)
  (hd : ∀ a ∈ allocMetadata groups fs, d a = fs.disk a)

include hc hd

theorem bitmapBlock_frame (k : AllocKind) {g : Nat} (hg : g < groups) :
    bitmapBlock (setDisk fs d) k g = bitmapBlock fs k g := by
  obtain ⟨h₀, h₁, h₂, h₃⟩ := descAt_bound hc hg k
  apply le32_congr
  intro j hj
  exact hd _ (.inl ⟨by omega, by omega⟩)

theorem groupCounter_frame (k : AllocKind) {g : Nat} (hg : g < groups) :
    groupCounter (setDisk fs d) k g = groupCounter fs k g := by
  obtain ⟨h₀, h₁, h₂, h₃⟩ := descAt_bound hc hg k
  apply le16_congr
  · exact hd _ (.inl ⟨by omega, by omega⟩)
  · exact hd _ (.inl ⟨by omega, by omega⟩)

theorem groupBit_frame (k : AllocKind) {g i : Nat} (hg : g < groups) (hi : i < 8 * 1024) :
    groupBit (setDisk fs d) k g i = groupBit fs k g i := by
  have hbyte : (1024 * bitmapBlock fs k g + i / 8) / 1024 = bitmapBlock fs k g :=
    block_div (by omega)
  rw [groupBit, groupBit, bitmapBlock_frame hc hd k hg, bitOf, bitOf]
  dsimp only [setDisk]
  rw [hd _ (.inr ⟨k, g, hg, hbyte⟩)]

omit hc in
theorem sbField_frame {field : Nat} (hf : field + 4 ≤ 1024) :
    le32 (setDisk fs d).disk (1024 + field) = le32 fs.disk (1024 + field) := by
  apply le32_congr
  intro j hj
  exact hd _ (.inl ⟨by omega, by omega⟩)

theorem Ext2Consistent.frame : Ext2Consistent groups (setDisk fs d) := by
  have hblock := fun k g (hg : g < groups) => bitmapBlock_frame hc hd k hg
  have hper : ∀ k, perGroup (setDisk fs d) k = perGroup fs k := fun k =>
    sbField_frame hd (sbField_bound k).2
  refine ⟨hc.sectors, hc.firstBgd, hc.number, hc.fit, ?_, ?_, ?_, ?_, ?_, ?_⟩
  · intro j hj
    exact (hc.sb j hj).trans (hd _ (.inl ⟨by omega, by omega⟩)).symm
  · intro k
    rw [hper]
    exact hc.bits k
  · intro k g hg
    rw [hblock k g hg]
    exact hc.place k g hg
  · intro k k' g hg g' hg' heq
    rw [hblock k g hg, hblock k' g' hg'] at heq
    exact hc.distinct k k' g hg g' hg' heq
  · intro k g hg
    rw [groupCounter_frame hc hd k hg, hper, hc.counter k g hg]
    refine clearBits_congr fun i hi => ?_
    exact (groupBit_frame hc hd k hg (hi.trans_le (hc.bits k))).symm
  · intro k
    have hcount : sbCounter (setDisk fs d) k = sbCounter fs k :=
      sbField_frame hd (by have := sbField_bound k; omega)
    rw [hcount, hc.total k]
    refine Finset.sum_congr rfl fun g hg => ?_
    exact (groupCounter_frame hc hd k (Finset.mem_range.mp hg)).symm

end Frame

/-! ## Free blocks and room -/

/-- A block whose bit is clear. -/
def FreeBlock (fs : Ext2Fs) (x : Nat) : Prop :=
  ∃ g bit, g < fs.numberOfBgs ∧ bit < perGroup fs .block ∧ x = g * perGroup fs .block + bit + 1 ∧
    groupBit fs .block g bit = false

/-- The free blocks of all groups. -/
def freeBlocks (fs : Ext2Fs) : Nat := ∑ g ∈ Finset.range fs.numberOfBgs, groupCounter fs .block g

/-- A consistent filesystem with the bitmaps of `fs₀` and `n` free blocks. -/
structure AllocRoom (groups : Nat) (fs₀ : Ext2Fs) (n : Nat) (fs : Ext2Fs) : Prop where
  consistent : Ext2Consistent groups fs
  blocksize : fs.blocksize = 1024
  bitmaps : ∀ k, ∀ g < groups, bitmapBlock fs k g = bitmapBlock fs₀ k g
  free : n ≤ freeBlocks fs

theorem AllocRoom.metadata_eq {fs₀ : Ext2Fs} {n : Nat} (h : AllocRoom groups fs₀ n fs) :
    allocMetadata groups fs = allocMetadata groups fs₀ := by
  ext a
  refine or_congr_right (exists_congr fun k => exists_congr fun g => and_congr_right fun hg => ?_)
  rw [h.bitmaps k g hg]

/-- The allocator with memory for its buffers. -/
def allocBlock (fs : Ext2Fs) : Int × Ext2Fs := (ext2AllocBlock (fun _ => true) fs).getD (-1, fs)

/-! ## A call -/

/-- What `ext2_mount` computed stays. -/
theorem allocLoop_mount {k : AllocKind} {ok : Nat → Bool} {blockBuf : Nat → UInt8} {n i : Nat}
    {r : Int} {fs' : Ext2Fs} (h : allocLoop k ok fs blockBuf n i = some (r, fs')) :
    fs'.blocksize = fs.blocksize ∧ fs'.inodesize = fs.inodesize ∧
      fs'.inodesPerBlock = fs.inodesPerBlock := by
  induction n generalizing i with
  | zero =>
    obtain ⟨-, rfl⟩ := Prod.mk.inj (Option.some.inj h)
    exact ⟨rfl, rfl, rfl⟩
  | succ n ih =>
    unfold allocLoop at h
    split at h
    · split at h
      · obtain ⟨-, rfl⟩ := Prod.mk.inj (Option.some.inj h)
        exact ⟨rfl, rfl, rfl⟩
      · dsimp only at h
        split at h
        next found bm _ =>
          obtain ⟨-, rfl⟩ := Prod.mk.inj (Option.some.inj h)
          exact ⟨rfl, rfl, rfl⟩
        next =>
          cases k with
          | block => cases h
          | inode => exact ih h
    · exact ih h

variable {fs₀ fs' : Ext2Fs} {k : AllocKind} {n g bit : Nat}

/-- Taking a bit leaves one free block less. -/
theorem Allocated.freeBlocks_eq (hA : Allocated .block g bit fs fs') (hc : Ext2Consistent groups fs)
    (hg : g < fs.numberOfBgs) (hbit : bit < perGroup fs .block) :
    freeBlocks fs' + 1 = freeBlocks fs := by
  have hg' : g < groups := hg.trans_le hc.number
  have hmem : g ∈ Finset.range fs.numberOfBgs := Finset.mem_range.mpr hg
  have hrest : ∑ x ∈ (Finset.range fs.numberOfBgs).erase g, groupCounter fs' .block x =
      ∑ x ∈ (Finset.range fs.numberOfBgs).erase g, groupCounter fs .block x := by
    refine Finset.sum_congr rfl fun x hx => ?_
    obtain ⟨hxg, hx⟩ := Finset.mem_erase.mp hx
    exact hA.groupCounter_of_ne hc hg' hbit ((Finset.mem_range.mp hx).trans_le hc.number)
      fun h => hxg h.2
  have hcount := hA.counter
  rw [freeBlocks, freeBlocks, hA.numberOfBgs, ← Finset.add_sum_erase _ _ hmem,
    ← Finset.add_sum_erase _ _ hmem, hrest]
  omega

/-- A block that is free after an allocation was free before, and is not the
one that was allocated. -/
theorem Allocated.freeBlock (hA : Allocated .block g bit fs fs') (hc : Ext2Consistent groups fs)
    (hg : g < fs.numberOfBgs) (hbit : bit < perGroup fs .block) {x : Nat} (hx : FreeBlock fs' x) :
    FreeBlock fs x ∧ x ≠ g * perGroup fs .block + bit + 1 := by
  obtain ⟨g', bit', hg', hbit', rfl, hclear⟩ := hx
  have hgg : g < groups := hg.trans_le hc.number
  rw [hA.numberOfBgs] at hg'
  rw [hA.perGroup_eq hc hgg hbit] at hbit' ⊢
  rw [hA.groupBit_eq hc hgg hbit .block (hg'.trans_le hc.number) (hbit'.trans_le (hc.bits _)),
    Bool.or_eq_false_iff, decide_eq_false_iff_not] at hclear
  refine ⟨⟨g', bit', hg', hbit', rfl, hclear.1⟩, fun heq => hclear.2 ?_⟩
  obtain ⟨rfl, rfl⟩ := id_inj hbit' hbit (by exact_mod_cast heq)
  exact ⟨rfl, rfl, rfl⟩

/-- The descriptors' inode tables are not counters. -/
theorem Allocated.tables (hA : Allocated k g bit fs fs') (hc : Ext2Consistent groups fs)
    (hg : g < groups) (hbit : bit < perGroup fs k) {i j : Nat} (hi : 32 * i + 32 ≤ 1024)
    (hj : j < 4) : fs'.disk (2048 + (32 * i + bgdInodeTable) + j) =
      fs.disk (2048 + (32 * i + bgdInodeTable) + j) := by
  have hsb := sbField_bound k
  obtain ⟨h₀, h₁, h₂, h₃⟩ := descAt_bound hc hg k
  obtain ⟨-, hf₀, hf₁⟩ := descField_bound k
  rw [bgdSize] at hf₁
  refine hA.meta hc hg hbit (by omega) (by rw [bgdInodeTable]; omega) ?_ (by omega)
  rw [descAt, bgdSize, bgdInodeTable]
  omega

theorem Allocated.outside (hA : Allocated k g bit fs fs') (hc : Ext2Consistent groups fs)
    (hg : g < groups) (hbit : bit < perGroup fs k) {a : Nat}
    (ha : a ∉ allocMetadata groups fs) : fs'.disk a = fs.disk a := by
  have hsb := sbField_bound k
  have hbits := hc.bits k
  obtain ⟨h₀, h₁, h₂, h₃⟩ := descAt_bound hc hg k
  have hlow : ¬ (1024 ≤ a ∧ a < 3072) := fun h => ha (.inl h)
  refine hA.other a (fun heq => ha (.inr ⟨k, g, hg, ?_⟩)) (by omega) (by omega)
  rw [heq]
  exact block_div (by omega)

/-- What an allocation of either kind leaves as it was. -/
structure AllocKept (groups : Nat) (fs₀ fs fs' : Ext2Fs) : Prop where
  geometry : SameGeometry fs fs'
  disk : ∀ a, a ∉ allocMetadata groups fs₀ → fs'.disk a = fs.disk a
  tables : ∀ ino, 32 * ((ino - 1) / le32 fs.sb sbInodesInBlockgroup) + 32 ≤ fs.blocksize →
    ∀ j < 4, fs'.disk (tableField fs ino + j) = fs.disk (tableField fs ino + j)
  room : ∀ m ≤ freeBlocks fs', AllocRoom groups fs₀ m fs'

theorem AllocRoom.kept (h : AllocRoom groups fs₀ n fs) {k : AllocKind}
    (hA : Allocated k g bit fs fs') (hg : g < groups) (hbit : bit < perGroup fs k)
    (hclear : groupBit fs k g bit = false)
    (hmount : fs'.blocksize = fs.blocksize ∧ fs'.inodesize = fs.inodesize ∧
      fs'.inodesPerBlock = fs.inodesPerBlock) : AllocKept groups fs₀ fs fs' := by
  have hc := h.consistent
  have hok := hA.consistent hc hg hbit hclear
  have hsectors : fs.sectorsPerBlock = 2 := hc.sectors
  have hperI : le32 fs'.sb sbInodesInBlockgroup = le32 fs.sb sbInodesInBlockgroup := by
    rw [le32_sb hok (by decide), le32_sb hc (by decide)]
    exact hA.perGroup_eq hc hg hbit .inode
  refine ⟨⟨hA.firstBgd, hmount.1, hmount.2.1, hA.sectors, hmount.2.2, hperI⟩, ?_, ?_, ?_⟩
  · intro a ha
    rw [← h.metadata_eq] at ha
    exact hA.outside hc hg hbit ha
  · intro ino hino j hj
    rw [h.blocksize] at hino
    rw [tableField, hc.firstBgd, blockAddr_of_two hsectors (by norm_num)]
    exact hA.tables hc hg hbit hino hj
  · intro m hm
    refine ⟨hok, hmount.1.trans h.blocksize, fun k' g' hg' => ?_, hm⟩
    rw [hA.bitmapBlock_eq hc hg hbit k' hg']
    exact h.bitmaps k' g' hg'

theorem allocBlock_spec (h : AllocRoom groups fs₀ (n + 1) fs) :
    ∃ r : Nat, (allocBlock fs).1 = r ∧
      FreshBlock (allocMetadata groups fs₀) (fun fs x => ¬ FreeBlock fs x) fs (allocBlock fs).2 r ∧
      AllocRoom groups fs₀ n (allocBlock fs).2 := by
  have hc := h.consistent
  obtain ⟨r, fs', heq, hout, hfull⟩ := ext2Alloc_spec hc .block fun _ => true
  have hmount := allocLoop_mount heq
  rw [allocBlock, ext2AllocBlock, heq, Option.getD_some]
  rcases hout with ⟨hneg, rfl⟩ | ⟨g, bit, hg, hbit, hclear, rfl, hA⟩
  · -- there is a free block, so some group is not full
    exfalso
    have hzero : freeBlocks fs' = 0 := by
      refine Finset.sum_eq_zero fun g hg => ?_
      exact hfull (fun _ => rfl) hneg g (Finset.mem_range.mp hg)
    have := h.free
    omega
  · have hgg : g < groups := hg.trans_le hc.number
    have hkept := h.kept hA hgg hbit hclear hmount
    have hid : g * perGroup fs .block + bit + 1 < 2 ^ 31 := by
      have hfits := id_fits hc .block hgg hbit
      have hlt := u32_lt (g * perGroup fs .block + bit + 1)
      rw [i32] at hfits
      split at hfits <;> omega
    refine ⟨g * perGroup fs .block + bit + 1, by push_cast; rfl, ?_, ?_⟩
    · have hsectors : fs.sectorsPerBlock = 2 := hc.sectors
      refine ⟨Nat.succ_pos _, by rw [hsectors]; omega, ?_, ?_, ?_, hkept.geometry, hkept.disk,
        hkept.tables⟩
      · exact not_not_intro ⟨g, bit, hg, hbit, rfl, hclear⟩
      · exact fun hfree => (hA.freeBlock hc hg hbit hfree).2 rfl
      · exact fun x hx hfree => hx (hA.freeBlock hc hg hbit hfree).1
    · have hfree := hA.freeBlocks_eq hc hg hbit
      have hroom := h.free
      exact hkept.room n (by omega)

/-- `ext2_alloc_block` on the filesystems with the bitmaps of `fs₀`. -/
def ext2BlockAllocator (groups : Nat) (fs₀ : Ext2Fs) : BlockAllocator where
  alloc := allocBlock
  metadata := allocMetadata groups fs₀
  used := fun fs x => ¬ FreeBlock fs x
  room := AllocRoom groups fs₀
  alloc_fresh := allocBlock_spec
  room_mono := fun h => { h with free := (Nat.le_succ _).trans h.free }
  frame := by
    intro n fs d h hd
    rw [← h.metadata_eq] at hd
    have hc := h.consistent
    have hper : perGroup (setDisk fs d) .block = perGroup fs .block :=
      sbField_frame hd (by decide)
    refine ⟨⟨hc.frame hd, h.blocksize, fun k g hg => ?_, ?_⟩, ?_⟩
    · rw [bitmapBlock_frame hc hd k hg]
      exact h.bitmaps k g hg
    · have hfree : freeBlocks (setDisk fs d) = freeBlocks fs := by
        refine Finset.sum_congr rfl fun g hg => ?_
        exact groupCounter_frame hc hd .block ((Finset.mem_range.mp hg).trans_le hc.number)
      rw [hfree]
      exact h.free
    · rintro x hx ⟨g, bit, hg, hbit, rfl, hclear⟩
      rw [hper] at hbit
      rw [groupBit_frame hc hd .block (hg.trans_le hc.number) (hbit.trans_le (hc.bits _))] at hclear
      exact hx ⟨g, bit, hg, hbit, by rw [hper], hclear⟩

end Levos.Fs
