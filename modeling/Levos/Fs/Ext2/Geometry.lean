import Levos.Base.Blocks
import Levos.Fs.Ext2.Alloc
import Levos.Fs.Ext2.Inode

/-!
# Where the groups of a filesystem are (`fs/ext2/super.c`)

The descriptors of the block groups start in the block after the superblock,
32 bytes each, and group `g` has the blocks from `superblock_id + g *
blocks_in_blockgroup` on. What `ext2_mount` computes agrees with this for some
images only (`ext2_geometry`).
-/

namespace Levos.Fs

open Levos.Base Levos.Kernel Levos.Lib

/-! ## Images -/

/-- A field of the superblock of an image. -/
def imageField (disk : Nat → UInt8) (field : Nat) : Nat := le32 disk (1024 + field)

def imageBlocks (disk : Nat → UInt8) : Nat := imageField disk sbBlocks

def imageFirst (disk : Nat → UInt8) : Nat := imageField disk sbSuperblockId

def imagePerGroup (disk : Nat → UInt8) : Nat := imageField disk sbBlocksInBlockgroup

def imageBlocksize (disk : Nat → UInt8) : Nat := 1024 * 2 ^ imageField disk sbBlocksizeHint

/-- The number of block groups, the last of which may be partial. -/
def groupCount (disk : Nat → UInt8) : Nat :=
  (imageBlocks disk - imageFirst disk + imagePerGroup disk - 1) / imagePerGroup disk

/-- The superblock of a well-formed image: blocks of 1 to 64 KiB, the first
data block is the one with the superblock, and a group's bitmap fits in a
block. -/
structure WfImage (disk : Nat → UInt8) : Prop where
  hint : imageField disk sbBlocksizeHint ≤ 6
  first : imageFirst disk = if imageField disk sbBlocksizeHint = 0 then 1 else 0
  perGroup : 0 < imagePerGroup disk ∧ imagePerGroup disk ≤ 8 * imageBlocksize disk
  blocks : imageFirst disk < imageBlocks disk

/-! ## What the code uses -/

/-- The byte of the disk where the code has the descriptor of a group: `bgd ++`
from the start of block `first_bgd`. -/
def descUsed (fs : Ext2Fs) (g : Nat) : Nat := blockAddr fs fs.firstBgd + bgdSize * g

/-- `ext2_read_inode` and the allocators read a descriptor's fields there. -/
theorem le32_descUsed (fs : Ext2Fs) (g field : Nat) :
    le32 (ext2ReadBlock fs fs.firstBgd) (bgdSize * g + field) =
      le32 fs.disk (descUsed fs g + field) := by
  apply le32_congr
  intro k _
  rw [ext2ReadBlock, descUsed, Nat.add_assoc, Nat.add_assoc, Nat.add_assoc]

/-- An allocation that does not fail takes a clear bit of a group among the
`n` it looks at. -/
theorem allocLoop_cases {k : AllocKind} {ok : Nat → Bool} {fs : Ext2Fs} {blockBuf : Nat → UInt8}
    {n i : Nat} {r : Int × Ext2Fs} (h : allocLoop k ok fs blockBuf n i = some r) :
    r = (-1, fs) ∨ r = (-enomem, fs) ∨ ∃ g found bits, i ≤ g ∧ g < i + n ∧
      found < le32 fs.sb k.sbPerGroupField ∧
      bitOf (ext2ReadBlock fs (le32 blockBuf (bgdSize * g + k.bitmapField))) found = false ∧
      r = allocCommit k fs blockBuf g found bits := by
  induction n generalizing i with
  | zero =>
      obtain rfl := Option.some.inj h
      exact .inl rfl
  | succ n ih =>
      have hrest : allocLoop k ok fs blockBuf n (i + 1) = some r →
          r = (-1, fs) ∨ r = (-enomem, fs) ∨ ∃ g found bits, i ≤ g ∧ g < i + (n + 1) ∧
            found < le32 fs.sb k.sbPerGroupField ∧
            bitOf (ext2ReadBlock fs (le32 blockBuf (bgdSize * g + k.bitmapField))) found = false ∧
            r = allocCommit k fs blockBuf g found bits := by
        intro hloop
        rcases ih hloop with hfail | hfail | ⟨g, found, bits, hlo, hhi, hrest⟩
        · exact .inl hfail
        · exact .inr (.inl hfail)
        · exact .inr (.inr ⟨g, found, bits, by omega, by omega, hrest⟩)
      unfold allocLoop at h
      split at h
      · split at h
        · obtain rfl := Option.some.inj h
          exact .inr (.inl rfl)
        · dsimp only at h
          split at h
          · next found bm hscan =>
              obtain rfl := Option.some.inj h
              obtain ⟨hlt, hclear, -⟩ := bitmapScanAndFlip_some hscan
              exact .inr (.inr ⟨i, found, bm.bits, le_rfl, by omega, hlt, hclear, rfl⟩)
          · cases k with
            | block => cases h
            | inode => exact hrest h
      · exact hrest h

/-- The descriptor, the bit and the number of a block that is handed out. -/
theorem ext2AllocBlock_cases {ok : Nat → Bool} {fs : Ext2Fs} {r : Int × Ext2Fs}
    (h : ext2AllocBlock ok fs = some r) :
    r = (-1, fs) ∨ r = (-enomem, fs) ∨ ∃ g found bits, g < fs.numberOfBgs ∧
      found < le32 fs.sb sbBlocksInBlockgroup ∧
      bitOf (ext2ReadBlock fs (le32 fs.disk (descUsed fs g + AllocKind.block.bitmapField))) found =
        false ∧
      r = allocCommit .block fs (ext2ReadBlock fs fs.firstBgd) g found bits := by
  rw [ext2AllocBlock, ext2Alloc] at h
  split at h
  · obtain rfl := Option.some.inj h
    exact .inr (.inl rfl)
  · rcases allocLoop_cases h with hfail | hfail | ⟨g, found, bits, -, hlt, hfound, hclear, hr⟩
    · exact .inl hfail
    · exact .inr (.inl hfail)
    · have hfield := le32_descUsed fs g AllocKind.block.bitmapField
      rw [hfield] at hclear
      exact .inr (.inr ⟨g, found, bits, by omega, hfound, hclear, hr⟩)

/-- The code agrees with the image: descriptors are read where they are and
from inside the buffer of one block, bits of the block bitmaps stand for the
blocks whose numbers are returned, and all groups are looked at. -/
structure GeometryOk (disk : Nat → UInt8) (fs : Ext2Fs) : Prop where
  desc : ∀ g < groupCount disk,
    descUsed fs g = (imageFirst disk + 1) * imageBlocksize disk + 32 * g ∧
      bgdSize * g + bgdSize ≤ fs.blocksize
  number : ∀ g j blockBuf bits, j < imagePerGroup disk →
    imageFirst disk + g * imagePerGroup disk + j < imageBlocks disk →
    (allocCommit .block fs blockBuf g j bits).1 =
      i32 (imageFirst disk + g * imagePerGroup disk + j)
  groups : ∀ g < groupCount disk, g < fs.numberOfBgs

/-- Blocks of one kibibyte, descriptors that fit in one block, and a last group
that is full, lacks one block, or is the only one. -/
structure SmallImage (disk : Nat → UInt8) : Prop where
  hint : imageField disk sbBlocksizeHint = 0
  fit : bgdSize * groupCount disk ≤ 1024
  last : imageBlocks disk - 1 < imagePerGroup disk ∨
    (imageBlocks disk - 1) % imagePerGroup disk = 0 ∨
    (imageBlocks disk - 1) % imagePerGroup disk + 1 = imagePerGroup disk

/-! ## When they agree -/

/-- What `ext2_mount` computes from a well-formed image. -/
structure Mounted (disk : Nat → UInt8) (fs : Ext2Fs) : Prop where
  blocksize : fs.blocksize = imageBlocksize disk
  sectors : fs.sectorsPerBlock = 2 * 2 ^ imageField disk sbBlocksizeHint
  firstBgd : fs.firstBgd = if imageField disk sbBlocksizeHint = 0 then 2 else 0
  number : fs.numberOfBgs = max 1 (imageBlocks disk / imagePerGroup disk)
  perGroup : le32 fs.sb sbBlocksInBlockgroup = imagePerGroup disk

theorem le32_imageField (disk : Nat → UInt8) (field : Nat) :
    le32 (fun j => disk (1024 + j)) field = imageField disk field :=
  le32_congr fun k _ => by rw [Nat.add_assoc]

theorem ext2Mount_mounted {disk : Nat → UInt8} {fs : Ext2Fs} (hwf : WfImage disk)
    (h : ext2Mount disk = some fs) : Mounted disk fs := by
  have hsize : u32 (1024 <<< imageField disk sbBlocksizeHint) = imageBlocksize disk := by
    have hpow : 2 ^ imageField disk sbBlocksizeHint ≤ 2 ^ 6 :=
      Nat.pow_le_pow_right (by norm_num) hwf.hint
    rw [Nat.shiftLeft_eq, u32_of_lt (by omega), imageBlocksize]
  rw [ext2Mount] at h
  split at h
  · cases h
  · simp only [le32_imageField, hsize, Option.some.injEq] at h
    have hgroups : ∀ n : Nat, (if n = 0 then 1 else n) = max 1 n := by
      intro n
      split <;> omega
    have hfirst := hwf.first
    rw [imageFirst] at hfirst
    subst h
    refine ⟨rfl, ?_, ?_, hgroups _, le32_imageField disk _⟩
    · show imageBlocksize disk / 512 = _
      rw [imageBlocksize]
      omega
    · show u32 (imageField disk sbSuperblockId + superblockSize / imageBlocksize disk) = _
      rw [hfirst, imageBlocksize, superblockSize]
      split
      · next hzero =>
          rw [hzero]
          rfl
      · next hpos =>
          have hpow : 2 ^ 1 ≤ 2 ^ imageField disk sbBlocksizeHint :=
            Nat.pow_le_pow_right (by norm_num) (Nat.pos_of_ne_zero hpos)
          rw [Nat.div_eq_of_lt (by omega)]
          rfl

/-- Rounding up. -/
theorem add_sub_one_div {n b : Nat} (hb : 0 < b) :
    (n + b - 1) / b = n / b + if n % b = 0 then 0 else 1 := by
  have hsplit := Nat.div_add_mod n b
  have hmod := Nat.mod_lt n hb
  split
  · next hzero =>
      apply Nat.div_eq_of_lt_le
      · simp only [Nat.add_zero, Nat.mul_comm _ b]
        omega
      · simp only [Nat.add_zero, Nat.mul_comm _ b, Nat.mul_add]
        omega
  · next hpos =>
      apply Nat.div_eq_of_lt_le
      · rw [Nat.mul_comm, Nat.mul_add]
        omega
      · rw [Nat.mul_comm, Nat.mul_add, Nat.mul_add]
        omega

theorem succ_div_eq {n b : Nat} (hb : 0 < b) :
    (n + 1) / b = n / b + if n % b + 1 = b then 1 else 0 := by
  have hsplit := Nat.div_add_mod n b
  have hmod := Nat.mod_lt n hb
  split
  · next hlast =>
      apply Nat.div_eq_of_lt_le
      · rw [Nat.mul_comm, Nat.mul_add]
        omega
      · rw [Nat.mul_comm, Nat.mul_add, Nat.mul_add]
        omega
  · next hnot =>
      apply Nat.div_eq_of_lt_le
      · simp only [Nat.add_zero, Nat.mul_comm _ b]
        omega
      · simp only [Nat.add_zero, Nat.mul_comm _ b, Nat.mul_add]
        omega

/-- When the blocks after the first one are cut into as many groups as the code
counts with the first one among them. -/
theorem roundUp_le_iff {n b : Nat} (hb : 0 < b) :
    (n + b - 1) / b ≤ max 1 ((n + 1) / b) ↔ n < b ∨ n % b = 0 ∨ n % b + 1 = b := by
  have hsmall : n < b ↔ n / b = 0 := by
    rw [Nat.div_eq_zero_iff_lt hb]
  have hmod := Nat.mod_lt n hb
  rw [add_sub_one_div hb, succ_div_eq hb, hsmall]
  generalize n / b = q
  split_ifs <;> omega

theorem groupCount_eq {disk : Nat → UInt8} (h : imageFirst disk = 1) :
    groupCount disk = (imageBlocks disk - 1 + imagePerGroup disk - 1) / imagePerGroup disk := by
  rw [groupCount, h]

/-- **The geometry.** For a well-formed image the code uses the right
descriptors, returns the right block numbers and looks at all groups exactly
when the image is one of the small ones. -/
theorem ext2_geometry {disk : Nat → UInt8} {fs : Ext2Fs} (hwf : WfImage disk)
    (hmount : ext2Mount disk = some fs) : GeometryOk disk fs ↔ SmallImage disk := by
  have hm := ext2Mount_mounted hwf hmount
  have hper := hwf.perGroup.1
  have hblocks := hwf.blocks
  have hpos : 0 < groupCount disk := by
    rw [groupCount]
    exact Nat.div_pos (by omega) hper
  constructor
  · intro h
    have hhint : imageField disk sbBlocksizeHint = 0 := by
      by_contra hne
      -- `first_bgd` is 0, the block of the superblock itself
      have hdesc := (h.desc 0 hpos).1
      rw [descUsed, hm.firstBgd, if_neg hne, blockAddr, Nat.zero_mul, imageBlocksize] at hdesc
      have := Nat.two_pow_pos (imageField disk sbBlocksizeHint)
      have hzero : u32 0 = 0 := rfl
      rw [hzero] at hdesc
      nlinarith
    have hone : imageFirst disk = 1 := by rw [hwf.first, if_pos hhint]
    refine ⟨hhint, ?_, ?_⟩
    · have hlast := (h.desc (groupCount disk - 1) (by omega)).2
      rw [hm.blocksize, imageBlocksize, hhint] at hlast
      rw [bgdSize] at hlast ⊢
      omega
    · have hall := h.groups (groupCount disk - 1) (by omega)
      rw [hm.number] at hall
      rw [← roundUp_le_iff hper, Nat.sub_add_cancel (by omega), ← groupCount_eq hone]
      omega
  · intro h
    have hone : imageFirst disk = 1 := by rw [hwf.first, if_pos h.hint]
    have hbs : imageBlocksize disk = 1024 := by rw [imageBlocksize, h.hint]; rfl
    constructor
    · intro g hg
      have hfit := h.fit
      rw [bgdSize] at hfit
      have hbgd : blockAddr fs fs.firstBgd = 2048 := by
        rw [hm.firstBgd, if_pos h.hint, blockAddr_of_two (by rw [hm.sectors, h.hint]; rfl)
          (by norm_num)]
      rw [descUsed, hbgd, hm.blocksize, hbs, hone, bgdSize]
      omega
    · intro g j blockBuf bits _ hlt
      show i32 (u32 (g * le32 fs.sb sbBlocksInBlockgroup + j + 1)) = _
      have hbound : imageBlocks disk < 2 ^ 32 := le32_lt _ _
      rw [hone] at hlt ⊢
      rw [hm.perGroup, u32_of_lt (by omega)]
      congr 1
      omega
    · intro g hg
      have hle := (roundUp_le_iff hper).mpr h.last
      rw [Nat.sub_add_cancel (by omega), ← groupCount_eq hone] at hle
      rw [hm.number]
      omega

theorem ext2Mount_some (disk : Nat → UInt8)
    (h : le16 (fun j => disk (1024 + j)) sbExt2Sig = ext2Signature) :
    ∃ fs, ext2Mount disk = some fs := by
  rw [ext2Mount]
  exact ⟨_, if_neg (not_not.mpr h)⟩

/-- The superblock of an image, and nothing else. -/
def image (hint first blocks perGroup : Nat) : Nat → UInt8 :=
  let disk := put16 (fun _ => 0) (1024 + sbExt2Sig) ext2Signature
  let disk := put32 disk (1024 + sbBlocksizeHint) hint
  let disk := put32 disk (1024 + sbSuperblockId) first
  let disk := put32 disk (1024 + sbBlocks) blocks
  put32 disk (1024 + sbBlocksInBlockgroup) perGroup

/-- Two full groups. -/
theorem ext2_geometry_two_groups : ∃ fs, ext2Mount (image 0 1 16385 8192) = some fs ∧
    GeometryOk (image 0 1 16385 8192) fs := by
  have hwf : WfImage (image 0 1 16385 8192) := ⟨by decide, by decide, by decide, by decide⟩
  have hsmall : SmallImage (image 0 1 16385 8192) := ⟨by decide, by decide, by decide⟩
  obtain ⟨fs, hfs⟩ := ext2Mount_some (image 0 1 16385 8192) (by decide)
  exact ⟨fs, hfs, (ext2_geometry hwf hfs).mpr hsmall⟩

/-- With blocks of four kibibytes the superblock is taken for the descriptors,
and with a partial second group the blocks of that group are never handed
out. -/
theorem ext2_geometry_others :
    (WfImage (image 2 0 32768 32768) ∧ ∃ fs, ext2Mount (image 2 0 32768 32768) = some fs ∧
      descUsed fs 0 = 0 ∧ ¬ GeometryOk (image 2 0 32768 32768) fs) ∧
    (WfImage (image 0 1 12289 8192) ∧ ∃ fs, ext2Mount (image 0 1 12289 8192) = some fs ∧
      groupCount (image 0 1 12289 8192) = 2 ∧ fs.numberOfBgs = 1 ∧
      ¬ GeometryOk (image 0 1 12289 8192) fs) := by
  constructor
  · have hwf : WfImage (image 2 0 32768 32768) := ⟨by decide, by decide, by decide, by decide⟩
    obtain ⟨fs, hfs⟩ := ext2Mount_some (image 2 0 32768 32768) (by decide)
    have hused : descUsed fs 0 = 0 := by
      rw [descUsed, (ext2Mount_mounted hwf hfs).firstBgd, if_neg (by decide), blockAddr,
        Nat.zero_mul]
      rfl
    refine ⟨hwf, fs, hfs, hused, fun h => ?_⟩
    have hdesc := (h.desc 0 (by decide)).1
    rw [hused] at hdesc
    exact absurd hdesc (by decide)
  · have hwf : WfImage (image 0 1 12289 8192) := ⟨by decide, by decide, by decide, by decide⟩
    obtain ⟨fs, hfs⟩ := ext2Mount_some (image 0 1 12289 8192) (by decide)
    have hcount : groupCount (image 0 1 12289 8192) = 2 := by decide
    have hnumber : fs.numberOfBgs = 1 := by
      rw [(ext2Mount_mounted hwf hfs).number]
      decide
    refine ⟨hwf, fs, hfs, hcount, hnumber, fun h => ?_⟩
    have hlast := h.groups 1 (by rw [hcount]; norm_num)
    rw [hnumber] at hlast
    exact absurd hlast (by decide)

end Levos.Fs
