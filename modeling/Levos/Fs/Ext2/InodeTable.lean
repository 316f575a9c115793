import Levos.Fs.Ext2.Geometry

/-!
# The inode tables (`fs/ext2/inode.c`, `fs/ext2/super.c`)

An inode is kept in the table of its group, at a multiple of the inode size.
`ext2_read_inode` and `ext2_write_inode` find the table through a group
descriptor, its block and its place in the block by three divisions. Whether
this is where the image has the inode depends on the block that `ext2_mount`
takes for the descriptors.
-/

namespace Levos.Fs

open Levos.Base Levos.Kernel

/-! ## The image -/

def sbInodes : Nat := 0

def imageInodes (disk : Nat → UInt8) : Nat := imageField disk sbInodes

def imageInodesPerGroup (disk : Nat → UInt8) : Nat := imageField disk sbInodesInBlockgroup

def imageInodesize (disk : Nat → UInt8) : Nat :=
  if imageField disk sbInodeSize = 0 then inodeSize else imageField disk sbInodeSize

def inodeGroup (disk : Nat → UInt8) (n : Nat) : Nat := (n - 1) / imageInodesPerGroup disk

def inodeIndex (disk : Nat → UInt8) (n : Nat) : Nat := (n - 1) % imageInodesPerGroup disk

/-- The first block of a group's inode table. -/
def tableAt (disk : Nat → UInt8) (g : Nat) : Nat :=
  le32 disk ((imageFirst disk + 1) * imageBlocksize disk + 32 * g + bgdInodeTable)

/-- The blocks of an inode table. -/
def tableBlocks (disk : Nat → UInt8) : Nat :=
  (imageInodesPerGroup disk * imageInodesize disk + imageBlocksize disk - 1) / imageBlocksize disk

/-- Where an inode starts. -/
def inodeAddr (disk : Nat → UInt8) (n : Nat) : Nat :=
  imageBlocksize disk * tableAt disk (inodeGroup disk n) + inodeIndex disk n * imageInodesize disk

def ValidInode (disk : Nat → UInt8) (n : Nat) : Prop := 0 < n ∧ n ≤ imageInodes disk

/-- The groups and their inode tables: one block of descriptors behind the
superblock, and behind that tables for all inodes, one for each group, that do
not overlap. -/
structure WfTables (disk : Nat → UInt8) : Prop extends WfImage disk where
  sectors : imageBlocks disk * (2 * 2 ^ imageField disk sbBlocksizeHint) ≤ 2 ^ 32
  inodesPerGroup : 0 < imageInodesPerGroup disk
  inodes : imageInodes disk ≤ groupCount disk * imageInodesPerGroup disk
  fit : 32 * groupCount disk ≤ imageBlocksize disk
  dvd : imageInodesize disk ∣ imageBlocksize disk
  behind : ∀ g < groupCount disk, imageFirst disk + 1 < tableAt disk g
  inside : ∀ g < groupCount disk, tableAt disk g + tableBlocks disk ≤ imageBlocks disk
  apart : ∀ g < groupCount disk, ∀ h < groupCount disk, g ≠ h →
    tableAt disk g + tableBlocks disk ≤ tableAt disk h ∨
      tableAt disk h + tableBlocks disk ≤ tableAt disk g

/-! ## The code -/

/-- Where the code reads and writes an inode. -/
def inodeUsed (fs : Ext2Fs) (n : Nat) : Nat := blockAddr fs (inodeBlock fs n) + inodeOffset fs n

/-- What the inodes of a mounted image are for: numbers stand for disjoint
bytes, what is written is read again, and nothing else changes. -/
structure InodesKept (disk : Nat → UInt8) (fs : Ext2Fs) : Prop where
  apart : ∀ n m, ValidInode disk n → ValidInode disk m → n ≠ m →
    inodeUsed fs n + fs.inodesize ≤ inodeUsed fs m ∨ inodeUsed fs m + fs.inodesize ≤ inodeUsed fs n
  same : ∀ n, ValidInode disk n → ∀ v buf : Nat → UInt8,
    ext2ReadInode (ext2WriteInode fs v n) buf n = some (writeBytes buf 0 fs.inodesize v)
  other : ∀ n m, ValidInode disk n → ValidInode disk m → n ≠ m → ∀ v buf : Nat → UInt8,
    ext2ReadInode (ext2WriteInode fs v n) buf m = ext2ReadInode fs buf m
  frame : ∀ n, ValidInode disk n → ∀ (v : Nat → UInt8) (a : Nat),
    a < inodeAddr disk n ∨ inodeAddr disk n + imageInodesize disk ≤ a →
      (ext2WriteInode fs v n).disk a = disk a

/-- The descriptors that the code reads name the tables of the image, and no
offset in a table wraps around. -/
structure TablesFound (disk : Nat → UInt8) (fs : Ext2Fs) : Prop where
  table : ∀ n, ValidInode disk n →
    blockAddr fs (le32 disk (descUsed fs (inodeGroup disk n) + bgdInodeTable)) =
      imageBlocksize disk * tableAt disk (inodeGroup disk n)
  small : ∀ n, ValidInode disk n → inodeIndex disk n * imageInodesize disk < 2 ^ 32

/-! ## Reading and writing where the code does -/

section Used

variable {fs : Ext2Fs} {n : Nat}

theorem writeBytes_congr {disk buf buf' : Nat → UInt8} {start len : Nat}
    (h : ∀ j < len, buf j = buf' j) :
    writeBytes disk start len buf = writeBytes disk start len buf' := by
  funext a
  by_cases ha : start ≤ a ∧ a < start + len
  · rw [writeBytes_of_mem ha, writeBytes_of_mem ha, h _ (by omega)]
  · rw [writeBytes_of_not_mem (by omega), writeBytes_of_not_mem (by omega)]

theorem ext2ReadInode_used (hn : n ≠ 0) (buf : Nat → UInt8) :
    ext2ReadInode fs buf n =
      some (writeBytes buf 0 fs.inodesize fun j => fs.disk (inodeUsed fs n + j)) := by
  have hbytes : (fun j => ext2ReadBlock fs (inodeBlock fs n) (inodeOffset fs n + j)) =
      fun j => fs.disk (inodeUsed fs n + j) := by
    funext j
    rw [ext2ReadBlock, inodeUsed, Nat.add_assoc]
  rw [← hbytes, ext2ReadInode, if_neg hn]

/-- The rest of the block is written as it was read. -/
theorem ext2WriteInode_disk (hfit : inodeOffset fs n + fs.inodesize ≤ spbOf fs * 512)
    (v : Nat → UInt8) :
    (ext2WriteInode fs v n).disk = writeBytes fs.disk (inodeUsed fs n) fs.inodesize v := by
  rw [ext2WriteInode, ext2WriteBlock_disk]
  funext a
  by_cases hblock : blockAddr fs (inodeBlock fs n) ≤ a ∧
      a < blockAddr fs (inodeBlock fs n) + spbOf fs * 512
  · obtain ⟨k, rfl⟩ := Nat.exists_eq_add_of_le hblock.1
    rw [writeBytes_of_mem hblock, Nat.add_sub_cancel_left]
    by_cases hin : inodeOffset fs n ≤ k ∧ k < inodeOffset fs n + fs.inodesize
    · rw [writeBytes_of_mem hin, writeBytes_of_mem (by rw [inodeUsed]; omega), inodeUsed,
        Nat.add_sub_add_left]
    · rw [writeBytes_of_not_mem (by omega), writeBytes_of_not_mem (by rw [inodeUsed]; omega),
        ext2ReadBlock]
  · rw [writeBytes_of_not_mem (by omega), writeBytes_of_not_mem (by rw [inodeUsed]; omega)]

/-- The place of an inode depends on one word of the descriptors. -/
theorem inodeUsed_congr {d : Nat → UInt8}
    (h : ∀ k < 4, d (descUsed fs ((n - 1) / le32 fs.sb sbInodesInBlockgroup) + bgdInodeTable + k) =
      fs.disk (descUsed fs ((n - 1) / le32 fs.sb sbInodesInBlockgroup) + bgdInodeTable + k)) :
    inodeUsed { fs with disk := d } n = inodeUsed fs n := by
  have htable : ∀ gs : Ext2Fs, le32 (ext2ReadBlock gs gs.firstBgd)
      (32 * ((n - 1) / le32 gs.sb sbInodesInBlockgroup) + bgdInodeTable) =
        le32 gs.disk (descUsed gs ((n - 1) / le32 gs.sb sbInodesInBlockgroup) + bgdInodeTable) :=
    fun gs => le32_descUsed gs _ _
  have hword := le32_congr h
  have hblock : inodeBlock { fs with disk := d } n = inodeBlock fs n := by
    rw [inodeBlock, inodeBlock, htable, htable]
    exact congrArg (fun t => u32 (t + _)) hword
  rw [inodeUsed, inodeUsed, hblock]
  rfl

end Used

/-! ## A mounted image -/

/-- What `ext2_mount` computes for the inodes. -/
structure InodesMounted (disk : Nat → UInt8) (fs : Ext2Fs) : Prop extends Mounted disk fs where
  bytes : fs.disk = disk
  inodesPerGroup : le32 fs.sb sbInodesInBlockgroup = imageInodesPerGroup disk
  inodesize : fs.inodesize = imageInodesize disk
  perBlock : fs.inodesPerBlock = imageBlocksize disk / imageInodesize disk

theorem ext2Mount_inodes {disk : Nat → UInt8} {fs : Ext2Fs} (hwf : WfImage disk)
    (h : ext2Mount disk = some fs) : InodesMounted disk fs := by
  have hm := ext2Mount_mounted hwf h
  have hbs := hm.blocksize
  rw [ext2Mount] at h
  split at h
  · cases h
  · simp only [le32_imageField, Option.some.injEq] at h
    have hdisk : fs.disk = disk := by rw [← h]
    have hgroup : le32 fs.sb sbInodesInBlockgroup = imageInodesPerGroup disk := by
      rw [← h]
      exact le32_imageField disk _
    have hsize : fs.inodesize = imageInodesize disk := by
      rw [← h]
      rfl
    have hper : fs.inodesPerBlock = fs.blocksize / fs.inodesize := by rw [← h]
    rw [hbs, hsize] at hper
    exact ⟨hm, hdisk, hgroup, hsize, hper⟩

section Image

variable {disk : Nat → UInt8} {fs : Ext2Fs} {n m : Nat}

/-- Blocks in sectors. -/
theorem imageBlocksize_eq (disk : Nat → UInt8) :
    imageBlocksize disk = 512 * (2 * 2 ^ imageField disk sbBlocksizeHint) := by
  rw [imageBlocksize]
  omega

theorem imageBlocksize_pos (disk : Nat → UInt8) : 0 < imageBlocksize disk :=
  Nat.mul_pos (by norm_num) (Nat.two_pow_pos _)

theorem WfTables.inodesize_pos (h : WfTables disk) : 0 < imageInodesize disk :=
  Nat.pos_of_dvd_of_pos h.dvd (imageBlocksize_pos disk)

theorem WfTables.group_lt (h : WfTables disk) (hn : ValidInode disk n) :
    inodeGroup disk n < groupCount disk := by
  have hall := h.inodes
  rw [inodeGroup, Nat.div_lt_iff_lt_mul h.inodesPerGroup]
  exact lt_of_lt_of_le (by have := hn.1; have := hn.2; omega) hall

theorem WfTables.index_lt (h : WfTables disk) : inodeIndex disk n < imageInodesPerGroup disk :=
  Nat.mod_lt _ h.inodesPerGroup

/-- The end of an inode is in its table. -/
theorem WfTables.index_le (h : WfTables disk) :
    inodeIndex disk n * imageInodesize disk + imageInodesize disk ≤
      imageBlocksize disk * tableBlocks disk := by
  have hle := Nat.mul_le_mul_right (imageInodesize disk) (Nat.succ_le_of_lt (h.index_lt (n := n)))
  have hpos := imageBlocksize_pos disk
  have hsplit := Nat.div_add_mod
    (imageInodesPerGroup disk * imageInodesize disk + imageBlocksize disk - 1) (imageBlocksize disk)
  have hmod := Nat.mod_lt
    (imageInodesPerGroup disk * imageInodesize disk + imageBlocksize disk - 1) hpos
  rw [Nat.succ_mul] at hle
  rw [tableBlocks]
  omega

/-- Different inodes of an image are in different places. -/
theorem WfTables.addr_apart (h : WfTables disk) (hn : ValidInode disk n) (hm : ValidInode disk m)
    (hne : n ≠ m) :
    inodeAddr disk n + imageInodesize disk ≤ inodeAddr disk m ∨
      inodeAddr disk m + imageInodesize disk ≤ inodeAddr disk n := by
  rw [inodeAddr, inodeAddr]
  by_cases hgroup : inodeGroup disk n = inodeGroup disk m
  · have hindex : inodeIndex disk n ≠ inodeIndex disk m := fun hindex => hne (by
      have hsplit := Nat.div_add_mod (n - 1) (imageInodesPerGroup disk)
      have hsplit' := Nat.div_add_mod (m - 1) (imageInodesPerGroup disk)
      rw [inodeGroup, inodeGroup] at hgroup
      rw [inodeIndex, inodeIndex] at hindex
      rw [hgroup, hindex] at hsplit
      have := hn.1
      have := hm.1
      omega)
    rw [hgroup]
    rcases Nat.lt_or_gt_of_ne hindex with hlt | hlt
    · have hle := Nat.mul_le_mul_right (imageInodesize disk) (Nat.succ_le_of_lt hlt)
      rw [Nat.succ_mul] at hle
      exact .inl (by omega)
    · have hle := Nat.mul_le_mul_right (imageInodesize disk) (Nat.succ_le_of_lt hlt)
      rw [Nat.succ_mul] at hle
      exact .inr (by omega)
  · have hend := h.index_le (n := n)
    have hend' := h.index_le (n := m)
    rcases h.apart _ (h.group_lt hn) _ (h.group_lt hm) hgroup with hle | hle
    · have hblocks := Nat.mul_le_mul_left (imageBlocksize disk) hle
      rw [Nat.mul_add] at hblocks
      exact .inl (by omega)
    · have hblocks := Nat.mul_le_mul_left (imageBlocksize disk) hle
      rw [Nat.mul_add] at hblocks
      exact .inr (by omega)

theorem Mounted.spbOf_eq (hm : Mounted disk fs) :
    spbOf fs = 2 * 2 ^ imageField disk sbBlocksizeHint := by
  have hpos := Nat.two_pow_pos (imageField disk sbBlocksizeHint)
  rw [spbOf, hm.sectors, if_neg (by omega)]

theorem Mounted.block_bytes (hm : Mounted disk fs) : spbOf fs * 512 = imageBlocksize disk := by
  rw [hm.spbOf_eq, imageBlocksize_eq, Nat.mul_comm]

/-- The offset in the block. -/
theorem InodesMounted.offset_eq (hm : InodesMounted disk fs) (h : WfTables disk) (n : Nat) :
    inodeOffset fs n = inodeIndex disk n * imageInodesize disk % imageBlocksize disk := by
  have hmul := Nat.div_mul_cancel h.dvd
  have hmod := Nat.mul_mod_mul_right (imageInodesize disk) (inodeIndex disk n)
    (imageBlocksize disk / imageInodesize disk)
  rw [hmul] at hmod
  rw [hmod, inodeOffset, hm.inodesPerGroup, hm.perBlock, hm.inodesize]
  rfl

theorem InodesMounted.fits (hm : InodesMounted disk fs) (h : WfTables disk) (n : Nat) :
    inodeOffset fs n + fs.inodesize ≤ spbOf fs * 512 := by
  have hpos := Nat.div_pos (Nat.le_of_dvd (imageBlocksize_pos disk) h.dvd) h.inodesize_pos
  have hlt := Nat.mod_lt (inodeIndex disk n) hpos
  have hle := Nat.mul_le_mul_right (imageInodesize disk) (Nat.succ_le_of_lt hlt)
  rw [Nat.div_mul_cancel h.dvd, Nat.succ_mul] at hle
  rw [hm.block_bytes, inodeOffset, hm.inodesPerGroup, hm.perBlock, hm.inodesize]
  exact hle

/-- The block as the code computes it. -/
theorem InodesMounted.block_eq (hm : InodesMounted disk fs) (n : Nat) :
    inodeBlock fs n = u32 (le32 disk (descUsed fs (inodeGroup disk n) + bgdInodeTable) +
      u32 (inodeIndex disk n * imageInodesize disk) / imageBlocksize disk) := by
  have hword : le32 (ext2ReadBlock fs fs.firstBgd) (32 * inodeGroup disk n + bgdInodeTable) =
      le32 fs.disk (descUsed fs (inodeGroup disk n) + bgdInodeTable) := le32_descUsed fs _ _
  rw [hm.bytes] at hword
  rw [← hword, inodeBlock, hm.inodesPerGroup, hm.inodesize, hm.blocksize]
  rfl

/-- A block of a table, counted from a block number that leads to its start. -/
theorem blockAddr_table {spb table t k : Nat} (hspb : spbOf fs = spb)
    (ht : blockAddr fs t = 512 * spb * table) (hk : (table + k) * spb < 2 ^ 32) :
    blockAddr fs (u32 (t + k)) = 512 * spb * (table + k) := by
  rw [blockAddr, hspb] at ht ⊢
  have hstart : u32 (t * spb) = table * spb := by
    rw [Nat.mul_comm table]
    apply Nat.eq_of_mul_eq_mul_right (by norm_num : 0 < 512)
    rw [ht]
    ring
  have hwrap : u32 (u32 (t + k) * spb) = u32 (u32 (t * spb) + k * spb) := by
    rw [u32, u32, u32, u32, Nat.mod_mul_mod, Nat.add_mul, Nat.mod_add_mod]
  rw [hwrap, hstart, ← Nat.add_mul, u32_of_lt hk]
  ring

/-- The blocks of a table are on the disk. -/
theorem WfTables.block_lt (h : WfTables disk) (hn : ValidInode disk n) :
    (tableAt disk (inodeGroup disk n) +
      inodeIndex disk n * imageInodesize disk / imageBlocksize disk) *
        (2 * 2 ^ imageField disk sbBlocksizeHint) < 2 ^ 32 := by
  have hpos := Nat.two_pow_pos (imageField disk sbBlocksizeHint)
  have hin := h.inside _ (h.group_lt hn)
  have hlt : inodeIndex disk n * imageInodesize disk / imageBlocksize disk < tableBlocks disk :=
    div_lt_blocks (imageBlocksize_pos disk)
      (Nat.mul_lt_mul_of_pos_right h.index_lt h.inodesize_pos)
  exact lt_of_lt_of_le (Nat.mul_lt_mul_of_pos_right (by omega) (by omega)) h.sectors

theorem WfImage.blocksize_dvd (h : WfImage disk) : imageBlocksize disk ∣ 2 ^ 32 := by
  have hpow : imageBlocksize disk = 2 ^ (10 + imageField disk sbBlocksizeHint) := by
    rw [imageBlocksize, pow_add]
    norm_num
  rw [hpow]
  exact pow_dvd_pow 2 (by have := h.hint; omega)

/-- The first inode of a group. -/
theorem WfTables.first_of_group (h : WfTables disk) (hn : ValidInode disk n) :
    ∃ m, ValidInode disk m ∧ inodeGroup disk m = inodeGroup disk n ∧ inodeIndex disk m = 0 := by
  have hle := Nat.mul_div_le (n - 1) (imageInodesPerGroup disk)
  have hone := hn.1
  have hall := hn.2
  refine ⟨imageInodesPerGroup disk * inodeGroup disk n + 1, ⟨Nat.succ_pos _, ?_⟩, ?_, ?_⟩
  · rw [inodeGroup]
    omega
  · rw [inodeGroup, Nat.add_sub_cancel, Nat.mul_div_cancel_left _ h.inodesPerGroup]
  · rw [inodeIndex, Nat.add_sub_cancel, Nat.mul_mod_right]

/-- When the code has the inodes where the image has them. -/
theorem inodeUsed_eq_iff (hm : InodesMounted disk fs) (h : WfTables disk) :
    (∀ n, ValidInode disk n → inodeUsed fs n = inodeAddr disk n) ↔ TablesFound disk fs := by
  have hbs := imageBlocksize_eq disk
  have hpos := imageBlocksize_pos disk
  constructor
  · intro hused
    have htable : ∀ n, ValidInode disk n →
        blockAddr fs (le32 disk (descUsed fs (inodeGroup disk n) + bgdInodeTable)) =
          imageBlocksize disk * tableAt disk (inodeGroup disk n) := fun n hn => by
      obtain ⟨m, hvalid, hgroup, hindex⟩ := h.first_of_group hn
      have hfirst := hused m hvalid
      have hzero : u32 0 = 0 := rfl
      rw [inodeUsed, inodeAddr, hm.offset_eq h, hm.block_eq, hgroup, hindex, Nat.zero_mul,
        Nat.zero_mod, hzero, Nat.zero_div, Nat.add_zero, Nat.add_zero, Nat.add_zero,
        u32_of_lt (le32_lt _ _)] at hfirst
      exact hfirst
    refine ⟨htable, fun n hn => ?_⟩
    have hlt := h.block_lt hn
    have hbase := htable n hn
    have hplace := hused n hn
    rw [inodeUsed, inodeAddr, hm.offset_eq h, hm.block_eq] at hplace
    generalize inodeIndex disk n * imageInodesize disk = x at hlt hplace ⊢
    have hdiv : u32 x / imageBlocksize disk ≤ x / imageBlocksize disk :=
      Nat.div_le_div_right (Nat.mod_le _ _)
    rw [hbs] at hbase
    rw [blockAddr_table hm.spbOf_eq hbase (lt_of_le_of_lt (Nat.mul_le_mul_right _ (by omega)) hlt),
      ← hbs] at hplace
    have hsplit := Nat.div_add_mod x (imageBlocksize disk)
    have hsplit' := Nat.div_add_mod (u32 x) (imageBlocksize disk)
    have hmod : u32 x % imageBlocksize disk = x % imageBlocksize disk :=
      Nat.mod_mod_of_dvd x h.blocksize_dvd
    have hx : u32 x = x := by
      rw [Nat.mul_add] at hplace
      omega
    exact hx ▸ u32_lt x
  · intro hfound n hn
    have hbase := hfound.table n hn
    have hsplit := Nat.div_add_mod (inodeIndex disk n * imageInodesize disk) (imageBlocksize disk)
    rw [hbs] at hbase
    rw [inodeUsed, inodeAddr, hm.offset_eq h, hm.block_eq, u32_of_lt (hfound.small n hn),
      blockAddr_table hm.spbOf_eq hbase (h.block_lt hn), ← hbs, Nat.mul_add, Nat.add_assoc, hsplit]

/-! ## What is written is read -/

/-- The descriptors that the code uses are in front of all tables. -/
theorem InodesMounted.desc_lt (hm : InodesMounted disk fs) (h : WfTables disk)
    (hn : ValidInode disk n) (hv : ValidInode disk m) :
    descUsed fs (inodeGroup disk m) + bgdInodeTable + 4 ≤ inodeAddr disk n := by
  have hbehind := Nat.mul_le_mul_left (imageBlocksize disk) (h.behind _ (h.group_lt hn))
  have hgroup := h.group_lt hv
  have hfit := h.fit
  have hfirst : blockAddr fs fs.firstBgd ≤ imageBlocksize disk * (imageFirst disk + 1) := by
    rw [blockAddr, hm.spbOf_eq, hm.firstBgd, h.first, imageBlocksize_eq]
    split
    · next hzero =>
        rw [hzero]
        decide
    · rw [Nat.zero_mul]
      exact Nat.zero_le _
  rw [Nat.succ_eq_add_one, Nat.mul_add] at hbehind
  rw [descUsed, inodeAddr, bgdSize, bgdInodeTable]
  omega

/-- What is written to an inode, in bytes of the disk. -/
theorem InodesMounted.write_disk (hm : InodesMounted disk fs) (h : WfTables disk)
    (hused : inodeUsed fs n = inodeAddr disk n) (v : Nat → UInt8) :
    (ext2WriteInode fs v n).disk =
      writeBytes fs.disk (inodeAddr disk n) (imageInodesize disk) v := by
  rw [ext2WriteInode_disk (hm.fits h n), hused, hm.inodesize]

/-- The descriptors stay as they are, and with them the places of inodes. -/
theorem InodesMounted.used_write (hm : InodesMounted disk fs) (h : WfTables disk)
    (hn : ValidInode disk n) (hv : ValidInode disk m) (hused : inodeUsed fs n = inodeAddr disk n)
    (v : Nat → UInt8) : inodeUsed (ext2WriteInode fs v n) m = inodeUsed fs m := by
  have hlt := hm.desc_lt h hn hv
  apply inodeUsed_congr
  intro k hk
  rw [hm.inodesPerGroup]
  have hout : descUsed fs ((m - 1) / imageInodesPerGroup disk) + bgdInodeTable + k <
      inodeAddr disk n := lt_of_lt_of_le (Nat.add_lt_add_left hk _) hlt
  exact (congrFun (hm.write_disk h hused v) _).trans (writeBytes_of_not_mem (.inl hout))

theorem InodesMounted.read_write (hm : InodesMounted disk fs) (h : WfTables disk)
    (hn : ValidInode disk n) (hv : ValidInode disk m) (hused : inodeUsed fs n = inodeAddr disk n)
    (v buf : Nat → UInt8) :
    ext2ReadInode (ext2WriteInode fs v n) buf m = some (writeBytes buf 0 fs.inodesize fun j =>
      writeBytes fs.disk (inodeAddr disk n) (imageInodesize disk) v (inodeUsed fs m + j)) := by
  rw [ext2ReadInode_used hv.1.ne', hm.used_write h hn hv hused v, hm.write_disk h hused v]
  rfl

/-- Where inodes have their own bytes, they are kept. -/
theorem InodesMounted.kept (hm : InodesMounted disk fs) (h : WfTables disk)
    (hused : ∀ n, ValidInode disk n → inodeUsed fs n = inodeAddr disk n) : InodesKept disk fs := by
  constructor
  case apart =>
    intro n m hn hv hne
    rw [hused n hn, hused m hv, hm.inodesize]
    exact h.addr_apart hn hv hne
  case same =>
    intro n hn v buf
    rw [hm.read_write h hn hn (hused n hn), hused n hn]
    refine congrArg some (writeBytes_congr fun j hj => ?_)
    rw [hm.inodesize] at hj
    rw [writeBytes_of_mem (by omega), Nat.add_sub_cancel_left]
  case other =>
    intro n m hn hv hne v buf
    rw [hm.read_write h hn hv (hused n hn), ext2ReadInode_used hv.1.ne', hused m hv]
    refine congrArg some (writeBytes_congr fun j hj => ?_)
    have hapart := h.addr_apart hn hv hne
    rw [hm.inodesize] at hj
    exact writeBytes_of_not_mem (by omega)
  case frame =>
    intro n hn v a ha
    rw [hm.write_disk h (hused n hn) v, writeBytes_of_not_mem ha, hm.bytes]

/-- Where nothing else changes, every byte that is written is in the inode's
range. -/
theorem InodesMounted.used_of_kept (hm : InodesMounted disk fs) (h : WfTables disk)
    (hkept : InodesKept disk fs) (hn : ValidInode disk n) : inodeUsed fs n = inodeAddr disk n := by
  have hisize := h.inodesize_pos
  -- every byte is changed
  have hframe := hkept.frame n hn fun j => fs.disk (inodeUsed fs n + j) + 1
  have hdisk := ext2WriteInode_disk (hm.fits h n) fun j => fs.disk (inodeUsed fs n + j) + 1
  have hin : ∀ j < imageInodesize disk, inodeAddr disk n ≤ inodeUsed fs n + j ∧
      inodeUsed fs n + j < inodeAddr disk n + imageInodesize disk := fun j hj => by
    by_contra hout
    have hsame := hframe (inodeUsed fs n + j) (by omega)
    rw [hdisk, hm.inodesize, writeBytes_of_mem (by omega), Nat.add_sub_cancel_left, hm.bytes]
      at hsame
    simp at hsame
  have hlow := hin 0 hisize
  have hhigh := hin (imageInodesize disk - 1) (by omega)
  omega

/-- **The inode tables.** On a mounted image, inodes are kept exactly when the
descriptors that the code reads name the tables of the image and no offset in a
table wraps around. -/
theorem ext2_inodes_kept (hwf : WfTables disk) (hmount : ext2Mount disk = some fs) :
    InodesKept disk fs ↔ TablesFound disk fs := by
  have hm := ext2Mount_inodes hwf.toWfImage hmount
  rw [← inodeUsed_eq_iff hm hwf]
  exact ⟨fun h n hn => hm.used_of_kept hwf h hn, fun hused => hm.kept hwf hused⟩

/-- With blocks of one kibibyte it takes offsets that do not wrap around. -/
theorem tablesFound_of_small (hwf : WfTables disk) (hmount : ext2Mount disk = some fs)
    (hhint : imageField disk sbBlocksizeHint = 0)
    (hsmall : imageInodesPerGroup disk * imageInodesize disk ≤ 2 ^ 32) : TablesFound disk fs := by
  have hm := ext2Mount_inodes hwf.toWfImage hmount
  have hisize := hwf.inodesize_pos
  have hfirst : imageFirst disk = 1 := by rw [hwf.first, if_pos hhint]
  have hbs : imageBlocksize disk = 1024 := by
    rw [imageBlocksize, hhint]
    rfl
  have hspb : spbOf fs = 2 := by rw [hm.spbOf_eq, hhint, pow_zero, Nat.mul_one]
  refine ⟨fun n hn => ?_, fun n _ => ?_⟩
  · have hlt := hwf.block_lt hn
    rw [hhint, pow_zero, Nat.mul_one, Nat.add_mul] at hlt
    have hdesc : descUsed fs (inodeGroup disk n) = 2048 + 32 * inodeGroup disk n := by
      rw [descUsed, hm.firstBgd, if_pos hhint, blockAddr, hspb]
      rfl
    have htable : le32 disk (descUsed fs (inodeGroup disk n) + bgdInodeTable) =
        tableAt disk (inodeGroup disk n) := by
      rw [hdesc, tableAt, hfirst, hbs]
    rw [htable, blockAddr, hspb, u32_of_lt (Nat.lt_of_add_right_lt hlt), hbs]
    omega
  · exact lt_of_lt_of_le (Nat.mul_lt_mul_of_pos_right hwf.index_lt hisize) hsmall

end Image

/-- The superblock of an image with 16 inodes in two groups, and the
descriptors of the groups. -/
def tableImage (hint first blocks perGroup desc table table' : Nat) : Nat → UInt8 :=
  let disk := image hint first blocks perGroup
  let disk := put32 disk (1024 + sbInodes) 16
  let disk := put32 disk (1024 + sbInodesInBlockgroup) 8
  let disk := put32 disk (desc + bgdInodeTable) table
  put32 disk (desc + 32 + bgdInodeTable) table'

theorem tableImage_small : WfTables (tableImage 0 1 16385 8192 2048 5 8197) :=
  ⟨⟨by decide, by decide, by decide, by decide⟩, by decide, by decide, by decide, by decide,
    by decide, by decide, by decide, by decide⟩

theorem ext2_inodes_kept_small : ∃ fs,
    ext2Mount (tableImage 0 1 16385 8192 2048 5 8197) = some fs ∧
      InodesKept (tableImage 0 1 16385 8192 2048 5 8197) fs := by
  obtain ⟨fs, hfs⟩ := ext2Mount_some (tableImage 0 1 16385 8192 2048 5 8197) (by decide)
  refine ⟨fs, hfs, (ext2_inodes_kept tableImage_small hfs).mpr ?_⟩
  exact tablesFound_of_small tableImage_small hfs (by decide) (by decide)

/-- With blocks of four kibibytes, inodes 1 and 9 are both at the start of the
disk, because the descriptors are taken from block 0. -/
theorem ext2_inodes_collide : WfTables (tableImage 2 0 65536 32768 4096 10 32778) ∧
    ∃ fs, ext2Mount (tableImage 2 0 65536 32768 4096 10 32778) = some fs ∧
      inodeUsed fs 1 = 0 ∧ inodeUsed fs 9 = 0 ∧
      ¬ InodesKept (tableImage 2 0 65536 32768 4096 10 32778) fs := by
  have hwf : WfTables (tableImage 2 0 65536 32768 4096 10 32778) :=
    ⟨⟨by decide, by decide, by decide, by decide⟩, by decide, by decide, by decide, by decide,
      by decide, by decide, by decide, by decide⟩
  obtain ⟨fs, hfs⟩ := ext2Mount_some (tableImage 2 0 65536 32768 4096 10 32778) (by decide)
  have hm := ext2Mount_inodes hwf.toWfImage hfs
  have hfirst : blockAddr fs fs.firstBgd = 0 := by
    rw [hm.firstBgd, if_neg (by decide), blockAddr, Nat.zero_mul]
    rfl
  have hused : ∀ n, n = 1 ∨ n = 9 → inodeUsed fs n = 0 := by
    rintro n (rfl | rfl)
    all_goals
      rw [inodeUsed, hm.offset_eq hwf, hm.block_eq, descUsed, hfirst, blockAddr, hm.spbOf_eq]
      decide
  refine ⟨hwf, fs, hfs, hused 1 (.inl rfl), hused 9 (.inr rfl), fun h => ?_⟩
  have hapart := h.apart 1 9 ⟨by decide, by decide⟩ ⟨by decide, by decide⟩ (by norm_num)
  have hsize : fs.inodesize = 128 := by
    rw [hm.inodesize]
    decide
  rw [hused 1 (.inl rfl), hused 9 (.inr rfl), hsize] at hapart
  omega

end Levos.Fs
