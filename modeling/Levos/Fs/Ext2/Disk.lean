import Levos.Base.Bytes
import Levos.Base.Word
import Levos.Kernel.Task

/-!
# The disk under ext2 (`fs/ext2/super.c`, `fs/ext2/block.c`)

A mounted filesystem: the bytes of the block device, the copy of the
superblock in memory, and what `ext2_mount` computes from it. The device reads
and writes whole sectors of 512 bytes, without errors.
-/

namespace Levos.Fs

open Levos.Base

/-- `struct filesystem` with its `struct ext2_priv_data`. -/
structure Ext2Fs where
  disk : Nat → UInt8
  sb : Nat → UInt8
  firstBgd : Nat
  numberOfBgs : Nat
  blocksize : Nat
  inodesize : Nat
  sectorsPerBlock : Nat
  inodesPerBlock : Nat

/-! ## Fields of `struct ext2_superblock` -/

def sbBlocks : Nat := 4
def sbUnallocatedblocks : Nat := 12
def sbUnallocatedinodes : Nat := 16
def sbSuperblockId : Nat := 20
def sbBlocksizeHint : Nat := 24
def sbBlocksInBlockgroup : Nat := 32
def sbInodesInBlockgroup : Nat := 40
def sbExt2Sig : Nat := 56
def sbInodeSize : Nat := 88

def ext2Signature : Nat := 0xEF53

/-- `sizeof(struct ext2_superblock)`. -/
def superblockSize : Nat := 1024

/-- `sizeof(struct ext2_inode)`. -/
def inodeSize : Nat := 128

/-! ## Blocks -/

/-- The sectors of a block, at least one. -/
def spbOf (fs : Ext2Fs) : Nat := if fs.sectorsPerBlock = 0 then 1 else fs.sectorsPerBlock

/-- The first byte of a block on the device; the sector number is a
`uint32_t`. -/
def blockAddr (fs : Ext2Fs) (block : Nat) : Nat := u32 (block * spbOf fs) * 512

/-- `ext2_read_block`: the bytes that get into the buffer. -/
def ext2ReadBlock (fs : Ext2Fs) (block : Nat) : Nat → UInt8 := fun j => fs.disk (blockAddr fs block + j)

/-- The device writes `len` bytes of a buffer at `start`. -/
def writeBytes (disk : Nat → UInt8) (start len : Nat) (buf : Nat → UInt8) : Nat → UInt8 := fun a =>
  if start ≤ a ∧ a < start + len then buf (a - start) else disk a

/-- `ext2_write_block`. -/
def ext2WriteBlock (fs : Ext2Fs) (buf : Nat → UInt8) (block : Nat) : Ext2Fs :=
  { fs with disk := writeBytes fs.disk (blockAddr fs block) (spbOf fs * 512) buf }

/-- `ext2_write_superblock`: sectors 2 and 3. -/
def ext2WriteSuperblock (fs : Ext2Fs) : Ext2Fs :=
  { fs with disk := writeBytes fs.disk 1024 1024 fs.sb }

/-- A change of the superblock in memory. -/
def setSb (fs : Ext2Fs) (sb : Nat → UInt8) : Ext2Fs := { fs with sb := sb }

/-- `ext2_mount`. -/
def ext2Mount (disk : Nat → UInt8) : Option Ext2Fs :=
  let sb : Nat → UInt8 := fun j => disk (1024 + j)
  if le16 sb sbExt2Sig ≠ ext2Signature then none
  else
    let blocksize := u32 (1024 <<< le32 sb sbBlocksizeHint)
    let inodesize := if le32 sb sbInodeSize = 0 then inodeSize else le32 sb sbInodeSize
    let groups := le32 sb sbBlocks / le32 sb sbBlocksInBlockgroup
    some
      { disk := disk, sb := sb, blocksize := blocksize, inodesize := inodesize
        inodesPerBlock := blocksize / inodesize, sectorsPerBlock := blocksize / 512
        numberOfBgs := if groups = 0 then 1 else groups
        firstBgd := u32 (le32 sb sbSuperblockId + superblockSize / blocksize) }

/-! ## Basic facts -/

/-- Addresses only depend on the size of a block. -/
theorem blockAddr_congr {fs fs' : Ext2Fs} (h : fs'.sectorsPerBlock = fs.sectorsPerBlock)
    (block : Nat) : blockAddr fs' block = blockAddr fs block := by
  rw [blockAddr, blockAddr, spbOf, spbOf, h]

theorem spbOf_congr {fs fs' : Ext2Fs} (h : fs'.sectorsPerBlock = fs.sectorsPerBlock) :
    spbOf fs' = spbOf fs := by
  rw [spbOf, spbOf, h]

theorem ext2WriteBlock_disk (fs : Ext2Fs) (buf : Nat → UInt8) (block : Nat) :
    (ext2WriteBlock fs buf block).disk =
      writeBytes fs.disk (blockAddr fs block) (spbOf fs * 512) buf := rfl

theorem ext2WriteSuperblock_disk (fs : Ext2Fs) :
    (ext2WriteSuperblock fs).disk = writeBytes fs.disk 1024 1024 fs.sb := rfl

theorem writeBytes_of_mem {disk buf : Nat → UInt8} {start len a : Nat}
    (h : start ≤ a ∧ a < start + len) : writeBytes disk start len buf a = buf (a - start) :=
  if_pos h

theorem writeBytes_of_not_mem {disk buf : Nat → UInt8} {start len a : Nat}
    (h : a < start ∨ start + len ≤ a) : writeBytes disk start len buf a = disk a :=
  if_neg (by omega)

/-- Blocks of one kibibyte. -/
theorem blockAddr_of_two {fs : Ext2Fs} (h : fs.sectorsPerBlock = 2) {block : Nat}
    (hb : block < 2 ^ 31) : blockAddr fs block = 1024 * block := by
  rw [blockAddr, spbOf, h, u32_of_lt (by norm_num; omega)]
  norm_num
  omega

end Levos.Fs
