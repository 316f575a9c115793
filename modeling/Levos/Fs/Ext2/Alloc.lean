import Levos.Base.Run
import Levos.Fs.Ext2.Disk
import Levos.Lib.Bitmap

/-!
# The allocators of ext2 (`fs/ext2/block.c`, `fs/ext2/inode.c`)

`ext2_alloc_block` and `ext2_alloc_inode` look for a group with a free block or
inode, take the first clear bit of its bitmap, and write back three things:
the bitmap, the superblock and the group descriptors. `Ext2Consistent` is what
ties the three together, `ext2Alloc_spec` says what one call does to the disk,
and `ext2_alloc_sound` what holds after every sequence of calls.
-/

namespace Levos.Fs

open Levos.Base Levos.Kernel Levos.Lib

/-! ## The functions of the source -/

/-- The two kinds of things to allocate. -/
inductive AllocKind where
  | block
  | inode
deriving DecidableEq, Repr

/-- `block_of_block_usage_bitmap` or `block_of_inode_usage_bitmap` in
`struct ext2_block_group_desc`. -/
def AllocKind.bitmapField : AllocKind → Nat
  | .block => 0
  | .inode => 4

/-- `num_of_unalloc_block` or `num_of_unalloc_inode`. -/
def AllocKind.counterField : AllocKind → Nat
  | .block => 12
  | .inode => 14

/-- `unallocatedblocks` or `unallocatedinodes` in the superblock. -/
def AllocKind.sbCounterField : AllocKind → Nat
  | .block => sbUnallocatedblocks
  | .inode => sbUnallocatedinodes

/-- `blocks_in_blockgroup` or `inodes_in_blockgroup`. -/
def AllocKind.sbPerGroupField : AllocKind → Nat
  | .block => sbBlocksInBlockgroup
  | .inode => sbInodesInBlockgroup

/-- `sizeof(struct ext2_block_group_desc)`. -/
def bgdSize : Nat := 32

/-- What follows the scan of a group's bitmap: commit the bitmap, the
superblock and the descriptors, and return the id. -/
def allocCommit (k : AllocKind) (fs : Ext2Fs) (blockBuf : Nat → UInt8) (i found : Nat)
    (bits : Nat → UInt8) : Int × Ext2Fs :=
  let fs := ext2WriteBlock fs bits (le32 blockBuf (bgdSize * i + k.bitmapField))
  let fs := setSb fs (put32 fs.sb k.sbCounterField (u32Sub (le32 fs.sb k.sbCounterField) 1))
  let fs := ext2WriteSuperblock fs
  let counter := bgdSize * i + k.counterField
  let blockBuf := put16 blockBuf counter (le16 blockBuf counter - 1)
  let fs := ext2WriteBlock fs blockBuf fs.firstBgd
  (i32 (u32 (i * le32 fs.sb k.sbPerGroupField + found + 1)), fs)

/-- The loop over the `n` groups from `i` on. `ok` says which calls of `malloc`
succeed. A group whose counter promises what its bitmap does not have is
skipped; `ext2_alloc_block` frees the descriptors there and still goes on with
them, and nothing is said about what it then does (`none`). -/
def allocLoop (k : AllocKind) (ok : Nat → Bool) (fs : Ext2Fs) (blockBuf : Nat → UInt8) :
    Nat → Nat → Option (Int × Ext2Fs)
  | 0, _ => some (-1, fs)
  | n + 1, i =>
      if le16 blockBuf (bgdSize * i + k.counterField) > 0 then
        if ¬ ok (i + 1) then some (-enomem, fs)
        else
          let buffer := ext2ReadBlock fs (le32 blockBuf (bgdSize * i + k.bitmapField))
          match bitmapScanAndFlip ⟨le32 fs.sb k.sbPerGroupField, buffer⟩ 0 1 false with
          | (some found, bm) => some (allocCommit k fs blockBuf i found bm.bits)
          | (none, _) =>
              match k with
              | .block => none
              | .inode => allocLoop k ok fs blockBuf n (i + 1)
      else allocLoop k ok fs blockBuf n (i + 1)

/-- What the two functions have in common. -/
def ext2Alloc (k : AllocKind) (ok : Nat → Bool) (fs : Ext2Fs) : Option (Int × Ext2Fs) :=
  if ¬ ok 0 then some (-enomem, fs)
  else allocLoop k ok fs (ext2ReadBlock fs fs.firstBgd) fs.numberOfBgs 0

/-- `ext2_alloc_block`. -/
def ext2AllocBlock (ok : Nat → Bool) (fs : Ext2Fs) : Option (Int × Ext2Fs) := ext2Alloc .block ok fs

/-- `ext2_alloc_inode`. -/
def ext2AllocInode (ok : Nat → Bool) (fs : Ext2Fs) : Option (Int × Ext2Fs) := ext2Alloc .inode ok fs

/-! ## Consistency -/

/-- The byte of a field of a group descriptor. -/
def descAt (g field : Nat) : Nat := 2048 + (bgdSize * g + field)

/-- The bitmap's block of a group. -/
def bitmapBlock (fs : Ext2Fs) (k : AllocKind) (g : Nat) : Nat := le32 fs.disk (descAt g k.bitmapField)

/-- The counter of a group. -/
def groupCounter (fs : Ext2Fs) (k : AllocKind) (g : Nat) : Nat :=
  le16 fs.disk (descAt g k.counterField)

/-- Bit `i` of a group's bitmap. -/
def groupBit (fs : Ext2Fs) (k : AllocKind) (g i : Nat) : Bool :=
  bitOf (fun j => fs.disk (1024 * bitmapBlock fs k g + j)) i

/-- The counter in the superblock. -/
def sbCounter (fs : Ext2Fs) (k : AllocKind) : Nat := le32 fs.disk (1024 + k.sbCounterField)

/-- The number of blocks or inodes of a group. -/
def perGroup (fs : Ext2Fs) (k : AllocKind) : Nat := le32 fs.disk (1024 + k.sbPerGroupField)

/-- A mounted filesystem with blocks of one kibibyte whose descriptors fit in
block 2: the superblock in memory is the one on the disk, every bitmap has a
block of its own, and every counter counts the clear bits. `groups` may be one
more than the number of groups that `ext2_mount` takes into account. -/
structure Ext2Consistent (groups : Nat) (fs : Ext2Fs) : Prop where
  sectors : fs.sectorsPerBlock = 2
  firstBgd : fs.firstBgd = 2
  number : fs.numberOfBgs ≤ groups
  fit : bgdSize * groups ≤ 1024
  sb : ∀ j < 1024, fs.sb j = fs.disk (1024 + j)
  bits : ∀ k, perGroup fs k ≤ 8 * 1024
  place : ∀ k, ∀ g < groups,
    bitmapBlock fs k g < 2 ^ 31 ∧ bitmapBlock fs k g ≠ 1 ∧ bitmapBlock fs k g ≠ 2
  distinct : ∀ k k', ∀ g < groups, ∀ g' < groups, bitmapBlock fs k g = bitmapBlock fs k' g' →
    k = k' ∧ g = g'
  counter : ∀ k, ∀ g < groups, groupCounter fs k g = clearBits (groupBit fs k g) (perGroup fs k)
  total : ∀ k, sbCounter fs k = ∑ g ∈ Finset.range groups, groupCounter fs k g

/-! ## One allocation -/

/-- The disk after a bit was taken: the bit, the two counters, and no other
byte. -/
structure Allocated (k : AllocKind) (g bit : Nat) (fs fs' : Ext2Fs) : Prop where
  byte : fs'.disk (1024 * bitmapBlock fs k g + bit / 8) =
    fs.disk (1024 * bitmapBlock fs k g + bit / 8) ||| UInt8.ofNat (2 ^ (bit % 8))
  counter : groupCounter fs' k g + 1 = groupCounter fs k g
  total : sbCounter fs' k + 1 = sbCounter fs k
  other : ∀ a, a ≠ 1024 * bitmapBlock fs k g + bit / 8 →
    (a < descAt g k.counterField ∨ descAt g k.counterField + 2 ≤ a) →
    (a < 1024 + k.sbCounterField ∨ 1024 + k.sbCounterField + 4 ≤ a) → fs'.disk a = fs.disk a
  sb : ∀ j < 1024, fs'.sb j = fs'.disk (1024 + j)
  firstBgd : fs'.firstBgd = fs.firstBgd
  numberOfBgs : fs'.numberOfBgs = fs.numberOfBgs
  sectors : fs'.sectorsPerBlock = fs.sectorsPerBlock

section Commit

variable {groups : Nat} {fs : Ext2Fs} {k : AllocKind} {g bit : Nat}

theorem descAt_bound (hc : Ext2Consistent groups fs) (hg : g < groups) (k : AllocKind) :
    2048 ≤ descAt g k.bitmapField ∧ descAt g k.bitmapField + 4 ≤ descAt g 12 ∧
      descAt g 12 ≤ descAt g k.counterField ∧ descAt g k.counterField + 2 ≤ 3072 := by
  have hfit := hc.fit
  rw [bgdSize] at hfit
  cases k <;>
    simp only [descAt, bgdSize, AllocKind.bitmapField, AllocKind.counterField] <;> omega

theorem descField_bound (k : AllocKind) :
    k.bitmapField + 4 ≤ 12 ∧ 12 ≤ k.counterField ∧ k.counterField + 2 ≤ bgdSize := by
  cases k <;> decide

theorem sbField_bound (k : AllocKind) :
    k.sbCounterField + 4 ≤ k.sbPerGroupField ∧ k.sbPerGroupField + 4 ≤ 1024 := by
  cases k <;> decide

theorem sbField_disjoint (k k' : AllocKind) :
    k.sbCounterField + 4 ≤ k'.sbPerGroupField ∧ k'.sbPerGroupField + 4 ≤ 1024 ∧
      (k = k' ∨ k.sbCounterField + 4 ≤ k'.sbCounterField ∨
        k'.sbCounterField + 4 ≤ k.sbCounterField) := by
  cases k <;> cases k' <;> decide

theorem ext2ReadBlock_bgd (hc : Ext2Consistent groups fs) (j : Nat) :
    ext2ReadBlock fs fs.firstBgd j = fs.disk (2048 + j) := by
  rw [ext2ReadBlock, hc.firstBgd, blockAddr_of_two hc.sectors (by norm_num)]

theorem le32_desc (hc : Ext2Consistent groups fs) (g field : Nat) :
    le32 (ext2ReadBlock fs fs.firstBgd) (bgdSize * g + field) = le32 fs.disk (descAt g field) :=
  le32_congr fun j _ => by rw [ext2ReadBlock_bgd hc, descAt, ← Nat.add_assoc 2048]

theorem le16_desc (hc : Ext2Consistent groups fs) (g field : Nat) :
    le16 (ext2ReadBlock fs fs.firstBgd) (bgdSize * g + field) = le16 fs.disk (descAt g field) := by
  apply le16_congr
  · rw [ext2ReadBlock_bgd hc, descAt]
  · rw [ext2ReadBlock_bgd hc, descAt, ← Nat.add_assoc 2048]

theorem le32_sb (hc : Ext2Consistent groups fs) {field : Nat} (h : field + 4 ≤ 1024) :
    le32 fs.sb field = le32 fs.disk (1024 + field) :=
  le32_congr fun j hj => by rw [hc.sb _ (by omega), Nat.add_assoc]

theorem ext2ReadBlock_bitmap (hc : Ext2Consistent groups fs) (hg : g < groups) (j : Nat) :
    ext2ReadBlock fs (bitmapBlock fs k g) j = fs.disk (1024 * bitmapBlock fs k g + j) := by
  rw [ext2ReadBlock, blockAddr_of_two hc.sectors (hc.place k g hg).1]

/-- The three writes of `allocCommit`. -/
theorem allocCommit_disk (hc : Ext2Consistent groups fs) (hg : g < groups)
    (bits : Nat → UInt8) :
    (allocCommit k fs (ext2ReadBlock fs fs.firstBgd) g bit bits).2.disk =
      writeBytes
        (writeBytes (writeBytes fs.disk (1024 * bitmapBlock fs k g) 1024 bits) 1024 1024
          (put32 fs.sb k.sbCounterField (u32Sub (le32 fs.sb k.sbCounterField) 1)))
        2048 1024
        (put16 (ext2ReadBlock fs fs.firstBgd) (bgdSize * g + k.counterField)
          (groupCounter fs k g - 1)) := by
  have hbitmap : blockAddr fs (bitmapBlock fs k g) = 1024 * bitmapBlock fs k g :=
    blockAddr_of_two hc.sectors (hc.place k g hg).1
  have hbgd : blockAddr fs fs.firstBgd = 2048 := by
    rw [hc.firstBgd, blockAddr_of_two hc.sectors (by norm_num)]
  have hspb : spbOf fs * 512 = 1024 := by rw [spbOf, hc.sectors]; rfl
  have hfield := le32_desc hc g k.bitmapField
  have hcount := le16_desc hc g k.counterField
  rw [← bitmapBlock] at hfield
  rw [← groupCounter] at hcount
  unfold allocCommit
  dsimp only
  rw [hfield, hcount]
  generalize hfs₁ : ext2WriteBlock fs bits (bitmapBlock fs k g) = fs₁
  have hsb₁ : fs₁.sb = fs.sb := hfs₁ ▸ rfl
  have hdisk₁ : fs₁.disk = writeBytes fs.disk (1024 * bitmapBlock fs k g) 1024 bits := by
    rw [← hfs₁, ext2WriteBlock_disk, hbitmap, hspb]
  generalize hfs₂ : ext2WriteSuperblock (setSb fs₁ (put32 fs₁.sb k.sbCounterField
    (u32Sub (le32 fs₁.sb k.sbCounterField) 1))) = fs₂
  have hdisk₂ : fs₂.disk = writeBytes fs₁.disk 1024 1024
      (put32 fs.sb k.sbCounterField (u32Sub (le32 fs.sb k.sbCounterField) 1)) := by
    rw [← hfs₂, ext2WriteSuperblock_disk, ← hsb₁]
    rfl
  have hfirst₂ : fs₂.firstBgd = fs.firstBgd := hfs₂ ▸ hfs₁ ▸ rfl
  have hsect₂ : fs₂.sectorsPerBlock = fs.sectorsPerBlock := hfs₂ ▸ hfs₁ ▸ rfl
  rw [ext2WriteBlock_disk, hfirst₂, blockAddr_congr hsect₂, spbOf_congr hsect₂, hbgd, hspb, hdisk₂,
    hdisk₁]

theorem allocCommit_allocated (hc : Ext2Consistent groups fs) (hg : g < groups)
    (hbit : bit < perGroup fs k) (hclear : groupBit fs k g bit = false) :
    Allocated k g bit fs (allocCommit k fs (ext2ReadBlock fs fs.firstBgd) g bit
      (setBit (ext2ReadBlock fs (bitmapBlock fs k g)) bit)).2 := by
  have hdisk : (allocCommit k fs (ext2ReadBlock fs fs.firstBgd) g bit
      (setBit (ext2ReadBlock fs (bitmapBlock fs k g)) bit)).2.disk = _ := allocCommit_disk hc hg _
  obtain ⟨hplace, hne₁, hne₂⟩ := hc.place k g hg
  obtain ⟨hd₀, hd₁, hd₂, hd₃⟩ := descAt_bound hc hg k
  obtain ⟨hs₀, hs₁⟩ := sbField_bound k
  have hbyte : bit / 8 < 1024 := by
    have := hc.bits k
    omega
  -- the counters are positive
  have hcpos : 0 < groupCounter fs k g := by
    rw [hc.counter k g hg]
    exact clearBits_pos.mpr ⟨bit, hbit, hclear⟩
  have htotal : groupCounter fs k g ≤ sbCounter fs k := by
    rw [hc.total k]
    exact Finset.single_le_sum (fun i _ => Nat.zero_le _) (Finset.mem_range.mpr hg)
  have hsbc : le32 fs.sb k.sbCounterField = sbCounter fs k := le32_sb hc (by omega)
  have hsub : u32Sub (le32 fs.sb k.sbCounterField) 1 = sbCounter fs k - 1 := by
    have := le32_lt fs.sb k.sbCounterField
    rw [hsbc] at this ⊢
    rw [u32Sub]
    omega
  rw [hsub] at hdisk
  have hdesc : descAt g k.counterField = 2048 + (bgdSize * g + k.counterField) := rfl
  generalize hfs' : (allocCommit k fs (ext2ReadBlock fs fs.firstBgd) g bit
    (setBit (ext2ReadBlock fs (bitmapBlock fs k g)) bit)).2 = fs' at hdisk
  have hsb' : fs'.sb = put32 fs.sb k.sbCounterField (sbCounter fs k - 1) := by
    rw [← hfs', ← hsub]
    rfl
  refine ⟨?_, ?_, ?_, ?_, ?_, by rw [← hfs']; rfl, by rw [← hfs']; rfl, by rw [← hfs']; rfl⟩
  · rw [hdisk, writeBytes_of_not_mem (by omega), writeBytes_of_not_mem (by omega),
      writeBytes_of_mem (by omega), Nat.add_sub_cancel_left, setBit, if_pos rfl,
      ext2ReadBlock_bitmap hc hg]
  · have hfield : groupCounter fs' k g = groupCounter fs k g - 1 := by
      have hlt := le16_lt fs.disk (descAt g k.counterField)
      rw [← groupCounter] at hlt
      rw [groupCounter, ← le16_put16 (ext2ReadBlock fs fs.firstBgd)
        (bgdSize * g + k.counterField) (show groupCounter fs k g - 1 < 65536 by omega)]
      apply le16_congr
      · rw [hdisk, hdesc, writeBytes_of_mem (by omega), Nat.add_sub_cancel_left]
      · rw [hdisk, hdesc, writeBytes_of_mem (by omega), Nat.add_assoc, Nat.add_sub_cancel_left]
    omega
  · have hfield : sbCounter fs' k = sbCounter fs k - 1 := by
      have hlt := le32_lt fs.disk (1024 + k.sbCounterField)
      rw [← sbCounter] at hlt
      rw [sbCounter, ← le32_put32 fs.sb k.sbCounterField
        (show sbCounter fs k - 1 < 2 ^ 32 by omega)]
      apply le32_congr
      intro j hj
      rw [hdisk, writeBytes_of_not_mem (by omega), writeBytes_of_mem (by omega), Nat.add_assoc,
        Nat.add_sub_cancel_left]
    omega
  · intro a hbyte hcnt hsbc
    rw [hdisk]
    by_cases h₂ : 2048 ≤ a ∧ a < 2048 + 1024
    · rw [writeBytes_of_mem h₂, put16_of_ne (by omega), ext2ReadBlock_bgd hc,
        Nat.add_sub_cancel' h₂.1]
    · rw [writeBytes_of_not_mem (by omega)]
      by_cases h₁ : 1024 ≤ a ∧ a < 1024 + 1024
      · rw [writeBytes_of_mem h₁, put32_of_ne (by omega), hc.sb _ (by omega),
          Nat.add_sub_cancel' h₁.1]
      · rw [writeBytes_of_not_mem (by omega)]
        by_cases h₀ : 1024 * bitmapBlock fs k g ≤ a ∧ a < 1024 * bitmapBlock fs k g + 1024
        · rw [writeBytes_of_mem h₀, setBit_of_ne (by omega), ext2ReadBlock_bitmap hc hg,
            Nat.add_sub_cancel' h₀.1]
        · rw [writeBytes_of_not_mem (by omega)]
  · intro j hj
    rw [hsb', hdisk, writeBytes_of_not_mem (by omega), writeBytes_of_mem (by omega),
      Nat.add_sub_cancel_left]

/-! ## Consistency is kept -/

variable {fs' : Ext2Fs}

/-- The bytes of superblock and descriptors, apart from the two counters. -/
theorem Allocated.meta (hA : Allocated k g bit fs fs') (hc : Ext2Consistent groups fs)
    (hg : g < groups) (hbit : bit < perGroup fs k) {a : Nat} (h₀ : 1024 ≤ a) (h₁ : a < 3072)
    (hcnt : a < descAt g k.counterField ∨ descAt g k.counterField + 2 ≤ a)
    (hsbc : a < 1024 + k.sbCounterField ∨ 1024 + k.sbCounterField + 4 ≤ a) :
    fs'.disk a = fs.disk a := by
  obtain ⟨-, hne₁, hne₂⟩ := hc.place k g hg
  have hbits := hc.bits k
  exact hA.other a (by omega) hcnt hsbc

theorem Allocated.bitmapBlock_eq (hA : Allocated k g bit fs fs') (hc : Ext2Consistent groups fs)
    (hg : g < groups) (hbit : bit < perGroup fs k) (k' : AllocKind) {g' : Nat}
    (hg' : g' < groups) : bitmapBlock fs' k' g' = bitmapBlock fs k' g' := by
  obtain ⟨hd₀, hd₁, hd₂, hd₃⟩ := descAt_bound hc hg' k'
  obtain ⟨he₀, he₁, he₂, he₃⟩ := descAt_bound hc hg k
  have hsbc := sbField_bound k
  obtain ⟨hf, -, -⟩ := descField_bound k'
  obtain ⟨-, hf₁, hf₂⟩ := descField_bound k
  apply le32_congr
  intro j hj
  refine hA.meta hc hg hbit (by omega) (by omega) ?_ (by omega)
  rw [bgdSize] at hf₂
  rw [descAt, descAt, bgdSize]
  omega

theorem Allocated.perGroup_eq (hA : Allocated k g bit fs fs') (hc : Ext2Consistent groups fs)
    (hg : g < groups) (hbit : bit < perGroup fs k) (k' : AllocKind) :
    perGroup fs' k' = perGroup fs k' := by
  obtain ⟨hd₀, hd₁, hd₂, hd₃⟩ := descAt_bound hc hg k
  obtain ⟨hs₀, hs₁, -⟩ := sbField_disjoint k k'
  apply le32_congr
  intro j hj
  exact hA.meta hc hg hbit (by omega) (by omega) (by omega) (by omega)

theorem Allocated.groupCounter_of_ne (hA : Allocated k g bit fs fs')
    (hc : Ext2Consistent groups fs) (hg : g < groups) (hbit : bit < perGroup fs k)
    {k' : AllocKind} {g' : Nat} (hg' : g' < groups) (hne : ¬ (k' = k ∧ g' = g)) :
    groupCounter fs' k' g' = groupCounter fs k' g' := by
  obtain ⟨hd₀, hd₁, hd₂, hd₃⟩ := descAt_bound hc hg' k'
  have hsbc := sbField_bound k
  have hapart : descAt g' k'.counterField + 2 ≤ descAt g k.counterField ∨
      descAt g k.counterField + 2 ≤ descAt g' k'.counterField := by
    cases k <;> cases k' <;>
      simp only [descAt, bgdSize, AllocKind.counterField, true_and, reduceCtorEq, false_and,
        not_false_eq_true] at hne ⊢ <;> omega
  apply le16_congr
  · exact hA.meta hc hg hbit (by omega) (by omega) (by omega) (by omega)
  · exact hA.meta hc hg hbit (by omega) (by omega) (by omega) (by omega)

theorem Allocated.sbCounter_of_ne (hA : Allocated k g bit fs fs') (hc : Ext2Consistent groups fs)
    (hg : g < groups) (hbit : bit < perGroup fs k) {k' : AllocKind} (hne : k' ≠ k) :
    sbCounter fs' k' = sbCounter fs k' := by
  obtain ⟨hd₀, hd₁, hd₂, hd₃⟩ := descAt_bound hc hg k
  obtain ⟨hs₀, hs₁, hs₂⟩ := sbField_disjoint k k'
  obtain ⟨ht₀, ht₁⟩ := sbField_bound k'
  have hapart := hs₂.resolve_left (Ne.symm hne)
  apply le32_congr
  intro j hj
  exact hA.meta hc hg hbit (by omega) (by omega) (by omega) (by omega)

/-- Exactly one bit of all bitmaps changes. -/
theorem Allocated.groupBit_eq (hA : Allocated k g bit fs fs') (hc : Ext2Consistent groups fs)
    (hg : g < groups) (hbit : bit < perGroup fs k) (k' : AllocKind) {g' i : Nat}
    (hg' : g' < groups) (hi : i < 8 * 1024) :
    groupBit fs' k' g' i = (groupBit fs k' g' i || decide (k' = k ∧ g' = g ∧ i = bit)) := by
  obtain ⟨hp₀, hp₁, hp₂⟩ := hc.place k g hg
  obtain ⟨hq₀, hq₁, hq₂⟩ := hc.place k' g' hg'
  obtain ⟨hd₀, hd₁, hd₂, hd₃⟩ := descAt_bound hc hg k
  have hsbc := sbField_bound k
  have hbits := hc.bits k
  rw [groupBit, hA.bitmapBlock_eq hc hg hbit k' hg']
  by_cases hsame : k' = k ∧ g' = g
  · obtain ⟨rfl, rfl⟩ := hsame
    have hset : ∀ j < 1024, fs'.disk (1024 * bitmapBlock fs k' g' + j) =
        setBit (fun j => fs.disk (1024 * bitmapBlock fs k' g' + j)) bit j := by
      intro j hj
      rw [setBit]
      split
      next hjb => rw [hjb, hA.byte]
      next hjb => exact hA.other _ (by omega) (by omega) (by omega)
    rw [bitOf, hset _ (by omega), ← bitOf, bitOf_setBit, groupBit]
    simp
  · have hblock : bitmapBlock fs k' g' ≠ bitmapBlock fs k g := fun heq =>
      hsame (hc.distinct k' k g' hg' g hg heq)
    have hfalse : decide (k' = k ∧ g' = g ∧ i = bit) = false := by
      rw [decide_eq_false_iff_not]
      rintro ⟨hk, hgg, -⟩
      exact hsame ⟨hk, hgg⟩
    rw [hfalse, Bool.or_false, groupBit, bitOf, bitOf]
    rw [hA.other _ (by omega) (by omega) (by omega)]

theorem Allocated.consistent (hA : Allocated k g bit fs fs') (hc : Ext2Consistent groups fs)
    (hg : g < groups) (hbit : bit < perGroup fs k) (hclear : groupBit fs k g bit = false) :
    Ext2Consistent groups fs' := by
  have hblock := fun k' g' (hg' : g' < groups) => hA.bitmapBlock_eq hc hg hbit k' hg'
  have hper := hA.perGroup_eq hc hg hbit
  refine ⟨hA.sectors.trans hc.sectors, hA.firstBgd.trans hc.firstBgd,
    hA.numberOfBgs.trans_le hc.number, hc.fit, hA.sb, ?_, ?_, ?_, ?_, ?_⟩
  · intro k'
    rw [hper]
    exact hc.bits k'
  · intro k' g' hg'
    rw [hblock k' g' hg']
    exact hc.place k' g' hg'
  · intro k₁ k₂ g₁ hg₁ g₂ hg₂ heq
    rw [hblock k₁ g₁ hg₁, hblock k₂ g₂ hg₂] at heq
    exact hc.distinct k₁ k₂ g₁ hg₁ g₂ hg₂ heq
  · intro k' g' hg'
    have hbits : ∀ i < perGroup fs k', groupBit fs' k' g' i =
        (groupBit fs k' g' i || decide (k' = k ∧ g' = g ∧ i = bit)) := fun i hi =>
      hA.groupBit_eq hc hg hbit k' hg' (lt_of_lt_of_le hi (hc.bits k'))
    rw [hper, clearBits_congr hbits]
    by_cases hsame : k' = k ∧ g' = g
    · obtain ⟨rfl, rfl⟩ := hsame
      have hcount := clearBits_set hbit hclear
      rw [← hc.counter k' g' hg', ← hA.counter] at hcount
      simp only [true_and]
      omega
    · rw [hA.groupCounter_of_ne hc hg hbit hg' hsame, hc.counter k' g' hg']
      refine clearBits_congr fun i _ => ?_
      have hfalse : decide (k' = k ∧ g' = g ∧ i = bit) = false := by
        rw [decide_eq_false_iff_not]
        rintro ⟨hk, hgg, -⟩
        exact hsame ⟨hk, hgg⟩
      rw [hfalse, Bool.or_false]
  · intro k'
    by_cases hk : k' = k
    · subst hk
      have hmem : g ∈ Finset.range groups := Finset.mem_range.mpr hg
      have hrest : ∑ x ∈ (Finset.range groups).erase g, groupCounter fs' k' x =
          ∑ x ∈ (Finset.range groups).erase g, groupCounter fs k' x := by
        refine Finset.sum_congr rfl fun x hx => ?_
        obtain ⟨hxg, hx⟩ := Finset.mem_erase.mp hx
        exact hA.groupCounter_of_ne hc hg hbit (Finset.mem_range.mp hx) fun h => hxg h.2
      have hold := hc.total k'
      rw [← Finset.add_sum_erase _ _ hmem] at hold ⊢
      have hcnt := hA.counter
      have htot := hA.total
      omega
    · rw [hA.sbCounter_of_ne hc hg hbit hk, hc.total k']
      refine Finset.sum_congr rfl fun x hx => ?_
      exact (hA.groupCounter_of_ne hc hg hbit (Finset.mem_range.mp hx) fun h => hk h.1).symm

end Commit

/-! ## A call -/

/-- What a call does: it fails and changes nothing, or it takes a clear bit and
returns its number, counted from 1 over all groups. -/
def AllocOutcome (k : AllocKind) (fs : Ext2Fs) (r : Int) (fs' : Ext2Fs) : Prop :=
  (r < 0 ∧ fs' = fs) ∨
    ∃ g bit : Nat, g < fs.numberOfBgs ∧ bit < perGroup fs k ∧ groupBit fs k g bit = false ∧
      r = g * perGroup fs k + bit + 1 ∧ Allocated k g bit fs fs'

/-- The id of a bit fits an `int`. -/
theorem id_fits {groups : Nat} {fs : Ext2Fs} (hc : Ext2Consistent groups fs) (k : AllocKind)
    {g bit : Nat} (hg : g < groups) (hbit : bit < perGroup fs k) :
    i32 (u32 (g * perGroup fs k + bit + 1)) = g * perGroup fs k + bit + 1 := by
  have hper := hc.bits k
  have hfit := hc.fit
  rw [bgdSize] at hfit
  have hmul : g * perGroup fs k ≤ 31 * (8 * 1024) := Nat.mul_le_mul (by omega) hper
  rw [u32_of_lt (by omega), i32, if_pos (by omega)]
  push_cast
  rfl

/-- The superblock's field for the size of a group is not the counter. -/
theorem allocCommit_id {groups : Nat} {fs : Ext2Fs} (hc : Ext2Consistent groups fs)
    (k : AllocKind) {g bit : Nat} (hg : g < groups) (hbit : bit < perGroup fs k)
    (bits : Nat → UInt8) :
    (allocCommit k fs (ext2ReadBlock fs fs.firstBgd) g bit bits).1 =
      g * perGroup fs k + bit + 1 := by
  obtain ⟨hs₀, hs₁⟩ := sbField_bound k
  have hfield : le32 (put32 fs.sb k.sbCounterField (u32Sub (le32 fs.sb k.sbCounterField) 1))
      k.sbPerGroupField = perGroup fs k := by
    rw [perGroup, ← le32_sb hc (by omega)]
    apply le32_congr
    intro j hj
    exact put32_of_ne (by omega)
  rw [← id_fits hc k hg hbit, ← hfield]
  rfl

theorem allocLoop_spec {groups : Nat} {fs : Ext2Fs} (hc : Ext2Consistent groups fs)
    (k : AllocKind) (ok : Nat → Bool) {n i : Nat} (hi : i + n = fs.numberOfBgs) :
    ∃ r fs', allocLoop k ok fs (ext2ReadBlock fs fs.firstBgd) n i = some (r, fs') ∧
      AllocOutcome k fs r fs' ∧
      ((∀ j, ok j = true) → r < 0 → ∀ g, i ≤ g → g < i + n → groupCounter fs k g = 0) := by
  induction n generalizing i with
  | zero =>
    refine ⟨-1, fs, rfl, .inl ⟨by decide, rfl⟩, fun _ _ g hg hlt => ?_⟩
    omega
  | succ n ih =>
    have hg : i < groups := lt_of_lt_of_le (by omega) hc.number
    have hcount := le16_desc hc i k.counterField
    have hblock := le32_desc hc i k.bitmapField
    rw [← groupCounter] at hcount
    rw [← bitmapBlock] at hblock
    have hper : le32 fs.sb k.sbPerGroupField = perGroup fs k := le32_sb hc (sbField_bound k).2
    unfold allocLoop
    rw [hcount]
    by_cases hpos : groupCounter fs k i > 0
    · rw [if_pos hpos]
      by_cases hok : ok (i + 1) = true
      · rw [if_neg (not_not_intro hok), hblock, hper]
        dsimp only
        split
        next found bm hscan =>
          obtain ⟨hbit, hclear, rfl⟩ := bitmapScanAndFlip_some hscan
          dsimp only at hbit hclear ⊢
          have hclear' : groupBit fs k i found = false := by
            rw [groupBit, ← hclear]
            simp only [bitOf, ext2ReadBlock_bitmap hc hg]
          have hid := allocCommit_id hc k hg hbit
            (setBit (ext2ReadBlock fs (bitmapBlock fs k i)) found)
          have hA := allocCommit_allocated hc hg hbit hclear'
          generalize allocCommit k fs (ext2ReadBlock fs fs.firstBgd) i found
            (setBit (ext2ReadBlock fs (bitmapBlock fs k i)) found) = res at hid hA
          refine ⟨res.1, res.2, rfl, .inr ⟨i, found, by omega, hbit, hclear', hid, hA⟩,
            fun _ hneg => ?_⟩
          rw [hid] at hneg
          exact absurd hneg (not_lt.mpr (by positivity))
        next bm hscan =>
          -- the counter is the number of clear bits, so there is one
          have hfull := bitmapScanAndFlip_none hscan
          dsimp only at hfull
          rw [hc.counter k i hg] at hpos
          obtain ⟨j, hj, hclear⟩ := clearBits_pos.mp hpos
          have hset := hfull j hj
          simp only [bitOf, ext2ReadBlock_bitmap hc hg] at hset
          rw [groupBit, bitOf, hset] at hclear
          cases hclear
      · rw [if_pos hok]
        exact ⟨-enomem, fs, rfl, .inl ⟨by decide, rfl⟩, fun hall => absurd (hall (i + 1)) hok⟩
    · rw [if_neg hpos]
      obtain ⟨r, fs', heq, hout, hfull⟩ := ih (show i + 1 + n = fs.numberOfBgs by omega)
      refine ⟨r, fs', heq, hout, fun hall hneg g hle hlt => ?_⟩
      rcases Nat.eq_or_lt_of_le hle with rfl | hlt'
      · exact Nat.eq_zero_of_not_pos hpos
      · exact hfull hall hneg g hlt' (by omega)

/-- One call, on a consistent filesystem; with memory for the buffers it only
fails when every group is full. -/
theorem ext2Alloc_spec {groups : Nat} {fs : Ext2Fs} (hc : Ext2Consistent groups fs)
    (k : AllocKind) (ok : Nat → Bool) :
    ∃ r fs', ext2Alloc k ok fs = some (r, fs') ∧ AllocOutcome k fs r fs' ∧
      ((∀ j, ok j = true) → r < 0 → ∀ g < fs.numberOfBgs, groupCounter fs k g = 0) := by
  rw [ext2Alloc]
  by_cases hok : ok 0 = true
  · rw [if_neg (not_not_intro hok)]
    obtain ⟨r, fs', heq, hout, hfull⟩ := allocLoop_spec hc k ok (Nat.zero_add _)
    exact ⟨r, fs', heq, hout, fun hall hneg g hg =>
      hfull hall hneg g (Nat.zero_le _) (by omega)⟩
  · rw [if_pos hok]
    exact ⟨-enomem, fs, rfl, .inl ⟨by decide, rfl⟩, fun hall => absurd (hall 0) hok⟩

/-! ## Sequences of calls -/

/-- A filesystem and the ids handed out so far. -/
structure AllocState where
  fs : Ext2Fs
  ids : List (AllocKind × Int)

/-- A call of one of the two functions. -/
def allocCall (k : AllocKind) (ok : Nat → Bool) (fs : Ext2Fs) : Option (Int × Ext2Fs) :=
  match k with
  | .block => ext2AllocBlock ok fs
  | .inode => ext2AllocInode ok fs

/-- A call in a sequence; a negative result is no id. -/
def allocStep (s : AllocState) (op : AllocKind × (Nat → Bool)) : Option AllocState :=
  (allocCall op.1 op.2 s.fs).map fun r =>
    ⟨r.2, if r.1 < 0 then s.ids else (op.1, r.1) :: s.ids⟩

/-- The invariant of every sequence of calls: the bits of the ids handed out
are set, so none is handed out again. -/
structure AllocInv (groups : Nat) (s : AllocState) : Prop where
  consistent : Ext2Consistent groups s.fs
  taken : ∀ k r, (k, r) ∈ s.ids → ∃ g bit : Nat, g < groups ∧ bit < perGroup s.fs k ∧
    r = g * perGroup s.fs k + bit + 1 ∧ groupBit s.fs k g bit = true
  nodup : s.ids.Nodup

theorem allocCall_eq (k : AllocKind) (ok : Nat → Bool) (fs : Ext2Fs) :
    allocCall k ok fs = ext2Alloc k ok fs := by
  cases k <;> rfl

/-- Group and bit can be read off the id. -/
theorem id_inj {per g g' bit bit' : Nat} (hbit : bit < per) (hbit' : bit' < per)
    (h : (g * per + bit + 1 : Int) = g' * per + bit' + 1) : g = g' ∧ bit = bit' := by
  have hnat : bit + per * g = bit' + per * g' := by
    have : ((bit + per * g : Nat) : Int) = ((bit' + per * g' : Nat) : Int) := by
      push_cast
      linarith
    exact_mod_cast this
  have hpos : 0 < per := by omega
  have hdiv := congrArg (· / per) hnat
  have hmod := congrArg (· % per) hnat
  simp only [Nat.add_mul_div_left _ _ hpos, Nat.div_eq_of_lt hbit, Nat.div_eq_of_lt hbit',
    Nat.zero_add] at hdiv
  simp only [Nat.add_mul_mod_self_left, Nat.mod_eq_of_lt hbit, Nat.mod_eq_of_lt hbit'] at hmod
  exact ⟨hdiv, hmod⟩

theorem allocStep_inv {groups : Nat} {s s' : AllocState} {op : AllocKind × (Nat → Bool)}
    (hs : AllocInv groups s) (h : allocStep s op = some s') : AllocInv groups s' := by
  obtain ⟨k, ok⟩ := op
  obtain ⟨r, fs', hcall, hout, -⟩ := ext2Alloc_spec hs.consistent k ok
  rw [allocStep, allocCall_eq, hcall, Option.map_some] at h
  obtain rfl := Option.some.inj h
  rcases hout with ⟨hneg, rfl⟩ | ⟨g, bit, hg, hbit, hclear, hid, hA⟩
  · dsimp only
    rw [if_pos hneg]
    exact hs
  · have hg' : g < groups := lt_of_lt_of_le hg hs.consistent.number
    have hnonneg : ¬ r < 0 := by
      rw [hid, not_lt]
      positivity
    have hper := hA.perGroup_eq hs.consistent hg' hbit
    have hbits := hs.consistent.bits
    refine ⟨hA.consistent hs.consistent hg' hbit hclear, ?_, ?_⟩
    · intro k' r' hmem
      dsimp only at hmem ⊢
      rw [if_neg hnonneg, List.mem_cons] at hmem
      rw [hper k']
      rcases hmem with heq | hold
      · obtain ⟨rfl, rfl⟩ := Prod.mk.inj heq
        refine ⟨g, bit, hg', hbit, hid, ?_⟩
        rw [hA.groupBit_eq hs.consistent hg' hbit k' hg' (lt_of_lt_of_le hbit (hbits k'))]
        simp
      · obtain ⟨g₁, bit₁, hg₁, hbit₁, hid₁, hset⟩ := hs.taken k' r' hold
        refine ⟨g₁, bit₁, hg₁, hbit₁, hid₁, ?_⟩
        rw [hA.groupBit_eq hs.consistent hg' hbit k' hg₁ (lt_of_lt_of_le hbit₁ (hbits k')), hset]
        rfl
    · dsimp only
      rw [if_neg hnonneg, List.nodup_cons]
      refine ⟨fun hmem => ?_, hs.nodup⟩
      obtain ⟨g₁, bit₁, hg₁, hbit₁, hid₁, hset⟩ := hs.taken k r hmem
      obtain ⟨rfl, rfl⟩ := id_inj hbit hbit₁ (hid.symm.trans hid₁)
      rw [hclear] at hset
      cases hset

/-- **Allocation.** After every sequence of `ext2_alloc_block` and
`ext2_alloc_inode` calls on a consistent filesystem, the filesystem is
consistent, no id was returned twice, and the next call, whichever it is,
either fails and changes nothing, or returns the id of a bit that was clear,
sets exactly this bit, takes one off the two counters and changes no other
byte of the disk. -/
theorem ext2_alloc_sound {groups : Nat} {fs : Ext2Fs} {s : AllocState}
    {ops : List (AllocKind × (Nat → Bool))} (hc : Ext2Consistent groups fs)
    (hrun : runSteps allocStep ⟨fs, []⟩ ops = some s) :
    Ext2Consistent groups s.fs ∧ s.ids.Nodup ∧
      ∀ k ok, ∃ r fs', allocCall k ok s.fs = some (r, fs') ∧ AllocOutcome k s.fs r fs' := by
  have hstart : AllocInv groups ⟨fs, []⟩ := ⟨hc, fun k r h => absurd h List.not_mem_nil, List.nodup_nil⟩
  have hinv := runSteps_invariant (fun _ _ _ => allocStep_inv) hstart hrun
  refine ⟨hinv.consistent, hinv.nodup, fun k ok => ?_⟩
  obtain ⟨r, fs', hcall, hout, -⟩ := ext2Alloc_spec hinv.consistent k ok
  rw [allocCall_eq]
  exact ⟨r, fs', hcall, hout⟩

/-- A mount of a filesystem with blocks of one kibibyte that starts at
block 1. -/
theorem ext2Mount_geometry {disk : Nat → UInt8} {fs : Ext2Fs} (h : ext2Mount disk = some fs)
    (hhint : le32 disk (1024 + sbBlocksizeHint) = 0) (hid : le32 disk (1024 + sbSuperblockId) = 1) :
    fs.sectorsPerBlock = 2 ∧ fs.firstBgd = 2 ∧ fs.disk = disk ∧
      ∀ j < 1024, fs.sb j = fs.disk (1024 + j) := by
  have hshift : ∀ field, le32 (fun j => disk (1024 + j)) field = le32 disk (1024 + field) :=
    fun field => le32_congr fun j _ => by rw [Nat.add_assoc]
  unfold ext2Mount at h
  dsimp only at h
  split at h
  · cases h
  · obtain rfl := Option.some.inj h
    refine ⟨?_, ?_, rfl, fun j _ => rfl⟩
    · dsimp only
      rw [hshift, hhint]
      rfl
    · dsimp only
      rw [hshift, hshift, hhint, hid]
      rfl

/-- A filesystem of one group with 16 blocks, 10 of them free, and 8 inodes, 6
of them free. -/
def smallDisk : Nat → UInt8 :=
  let sb := put32 (put32 (put32 (put32 (fun _ => 0) 1028 16) 1036 10) 1040 6) 1044 1
  let sb := put16 (put32 (put32 sb 1056 16) 1064 8) 1080 ext2Signature
  let bgd := put16 (put16 (put32 (put32 sb 2048 3) 2052 4) 2060 10) 2062 6
  put16 (put16 bgd 3072 0x3F) 4096 3

theorem smallDisk_mount : (ext2Mount smallDisk).isSome := by decide +kernel

/-- Its mount. -/
def smallFs : Ext2Fs := (ext2Mount smallDisk).get smallDisk_mount

theorem smallFs_consistent : Ext2Consistent 1 smallFs := by
  obtain ⟨hsect, hfirst, hdisk, hsb⟩ := ext2Mount_geometry
    (Option.some_get smallDisk_mount).symm (by decide +kernel) (by decide +kernel)
  refine ⟨hsect, hfirst, by decide +kernel, by decide, hsb, ?_, ?_, ?_, ?_, ?_⟩
  · rintro (_ | _) <;> decide +kernel
  · rintro (_ | _) <;> decide +kernel
  · rintro (_ | _) (_ | _) <;> decide +kernel
  · rintro (_ | _) <;> decide +kernel
  · rintro (_ | _) <;> decide +kernel

/-- Two blocks and an inode, with memory for every buffer. -/
theorem ext2_alloc_sound_small :
    ∃ s, runSteps allocStep ⟨smallFs, []⟩
        [(.block, fun _ => true), (.inode, fun _ => true), (.block, fun _ => true)] = some s ∧
      s.ids = [(.block, 8), (.inode, 3), (.block, 7)] ∧ Ext2Consistent 1 s.fs ∧ s.ids.Nodup ∧
      ∀ k ok, ∃ r fs', allocCall k ok s.fs = some (r, fs') ∧ AllocOutcome k s.fs r fs' := by
  have hids : (runSteps allocStep ⟨smallFs, []⟩ [(.block, fun _ => true), (.inode, fun _ => true),
      (.block, fun _ => true)]).map AllocState.ids =
        some [(.block, 8), (.inode, 3), (.block, 7)] := by decide +kernel
  obtain ⟨s, hrun, hs⟩ := Option.map_eq_some_iff.mp hids
  exact ⟨s, hrun, hs, ext2_alloc_sound smallFs_consistent hrun⟩

end Levos.Fs
