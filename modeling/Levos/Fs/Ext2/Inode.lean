import Levos.Fs.Ext2.Disk

/-!
# Inodes and their blocks (`fs/ext2/inode.c`)

Reading and writing an inode in its table, finding the block behind a logical
block number, and adding blocks to an inode on demand, through the singly and
the doubly indirect block.

`ext2_alloc_block` is a parameter: a function that returns the number of a
block, or something negative, and the filesystem after it. `malloc` ends in a
panic when memory is exhausted, so that none of the checks for NULL fires.
-/

namespace Levos.Fs

open Levos.Base Levos.Kernel

/-! ## Fields of `struct ext2_inode` -/

def inoSize : Nat := 4
def inoDiskSectors : Nat := 28
def inoDbp : Nat := 40
def inoSinglyBlock : Nat := 88
def inoDoublyBlock : Nat := 92

/-- `block_of_inode_table` in `struct ext2_block_group_desc`. -/
def bgdInodeTable : Nat := 8

/-! ## Reading and writing inodes -/

/-- The block of the inode table that holds an inode. -/
def inodeBlock (fs : Ext2Fs) (ino : Nat) : Nat :=
  let perGroup := le32 fs.sb sbInodesInBlockgroup
  let bg := (ino - 1) / perGroup
  let index := (ino - 1) % perGroup
  let table := le32 (ext2ReadBlock fs fs.firstBgd) (32 * bg + bgdInodeTable)
  u32 (table + u32 (index * fs.inodesize) / fs.blocksize)

/-- Where the inode is in its block. -/
def inodeOffset (fs : Ext2Fs) (ino : Nat) : Nat :=
  (ino - 1) % le32 fs.sb sbInodesInBlockgroup % fs.inodesPerBlock * fs.inodesize

/-- `ext2_read_inode`, into a buffer; `none` is the failure on inode 0. -/
def ext2ReadInode (fs : Ext2Fs) (buf : Nat → UInt8) (ino : Nat) : Option (Nat → UInt8) :=
  if ino = 0 then none
  else
    let blockBuf := ext2ReadBlock fs (inodeBlock fs ino)
    some (writeBytes buf 0 fs.inodesize fun j => blockBuf (inodeOffset fs ino + j))

/-- The same where the result is not looked at. -/
def reReadInode (fs : Ext2Fs) (buf : Nat → UInt8) (ino : Nat) : Nat → UInt8 :=
  (ext2ReadInode fs buf ino).getD buf

/-- `ext2_write_inode`. -/
def ext2WriteInode (fs : Ext2Fs) (buf : Nat → UInt8) (ino : Nat) : Ext2Fs :=
  let blockBuf := ext2ReadBlock fs (inodeBlock fs ino)
  let blockBuf := writeBytes blockBuf (inodeOffset fs ino) fs.inodesize buf
  ext2WriteBlock fs blockBuf (inodeBlock fs ino)

/-- The block numbers in an indirect block. -/
def ptrsPerBlock (fs : Ext2Fs) : Nat := fs.blocksize / 4

/-- `ext2_inode_get_block`. In the doubly indirect branch the buffer is freed
before its last word is read. -/
def ext2InodeGetBlock (fs : Ext2Fs) (inode : Nat → UInt8) (b : Nat) : Int :=
  let p := ptrsPerBlock fs
  if b < 12 then i32 (le32 inode (inoDbp + 4 * b))
  else if b < 12 + p then
    i32 (le32 (ext2ReadBlock fs (le32 inode inoSinglyBlock)) (4 * (b - 12)))
  else if b < 12 + p + p * p then
    let nblock := le32 (ext2ReadBlock fs (le32 inode inoDoublyBlock)) (4 * ((b - 12 - p) / p))
    if nblock = 0 then -1 else i32 (le32 (ext2ReadBlock fs nblock) (4 * ((b - 12 - p) % p)))
  else -enosys

/-! ## Adding blocks -/

variable (alloc : Ext2Fs → Int × Ext2Fs)

/-- The number of a new block, as the `unsigned int` it is kept in. -/
def allocBlockNo (fs : Ext2Fs) : Nat × Ext2Fs := (((alloc fs).1 % 2 ^ 32).toNat, (alloc fs).2)

/-- A block of zeros. -/
def zeroBlock : Nat → UInt8 := fun _ => 0

/-- A missing singly indirect block is made before it gets an entry; `none` is
the return of `-ENOSPC`. -/
def makeSingly (fs : Ext2Fs) (inode : Nat → UInt8) (ino : Nat) :
    Option (Ext2Fs × (Nat → UInt8)) :=
  if le32 inode inoSinglyBlock = 0 then
    let r := allocBlockNo alloc fs
    if r.1 = 0 then none
    else
      let inode := put32 inode inoSinglyBlock r.1
      let fs := ext2WriteInode r.2 inode ino
      some (ext2WriteBlock fs zeroBlock r.1, inode)
  else some (fs, inode)

/-- `set_block_number`; its result is not looked at. `none` is the panic on
triply indirect blocks. -/
def setBlockNumber (fs : Ext2Fs) (inode : Nat → UInt8) (ino iblock rblock : Nat) :
    Option (Ext2Fs × (Nat → UInt8)) :=
  let p := ptrsPerBlock fs
  if iblock < 12 then
    let inode := put32 inode (inoDbp + 4 * iblock) rblock
    some (ext2WriteInode fs inode ino, inode)
  else if iblock < 12 + p then
    match makeSingly alloc fs inode ino with
    | none => some ((allocBlockNo alloc fs).2, inode)
    | some (fs, inode) =>
        let tmp := ext2ReadBlock fs (le32 inode inoSinglyBlock)
        let tmp := put32 tmp (4 * (iblock - 12)) rblock
        some (ext2WriteBlock fs tmp (le32 inode inoSinglyBlock), inode)
  else if iblock < 12 + p + p * p then
    let c := (iblock - 12 - p) / p
    let d := (iblock - 12 - p) % p
    let made : Option (Ext2Fs × (Nat → UInt8)) :=
      if le32 inode inoDoublyBlock = 0 then
        let r := allocBlockNo alloc fs
        if r.1 = 0 then none
        else
          let inode := put32 inode inoDoublyBlock r.1
          some (ext2WriteInode r.2 inode ino, inode)
      else some (fs, inode)
    match made with
    | none => some ((allocBlockNo alloc fs).2, inode)
    | some (fs, inode) =>
        let tmp := ext2ReadBlock fs (le32 inode inoDoublyBlock)
        if le32 tmp (4 * c) = 0 then
          let r := allocBlockNo alloc fs
          if r.1 = 0 then some (r.2, inode)
          else
            let tmp := put32 tmp (4 * c) r.1
            let fs := ext2WriteBlock r.2 tmp (le32 inode inoDoublyBlock)
            let tmp := put32 (ext2ReadBlock fs r.1) (4 * d) rblock
            some (ext2WriteBlock fs tmp r.1, inode)
        else
          let nblock := le32 tmp (4 * c)
          let tmp := put32 (ext2ReadBlock fs nblock) (4 * d) rblock
          some (ext2WriteBlock fs tmp nblock, inode)
  else none

/-- What `allocate_inode_block` and those that call it leave: the result, the
filesystem and the inode in memory. -/
structure BlockResult where
  ret : Int
  fs : Ext2Fs
  inode : Nat → UInt8

/-- `allocate_inode_block`. -/
def allocateInodeBlock (fs : Ext2Fs) (inode : Nat → UInt8) (ino block : Nat) :
    Option BlockResult :=
  let r := allocBlockNo alloc fs
  if r.1 = 0 then some ⟨-enospc, r.2, inode⟩
  else
    (setBlockNumber alloc r.2 inode ino block r.1).map fun s =>
      let fs := ext2WriteBlock s.1 zeroBlock r.1
      let inode := reReadInode fs s.2 ino
      let t := u32 ((block + 1) * (fs.blocksize / 512))
      let inode := if le32 inode inoDiskSectors < t then put32 inode inoDiskSectors t else inode
      ⟨i32 r.1, ext2WriteInode fs inode ino, inode⟩

/-- The loop of `ext2_inode_add_block` over the `n` blocks from `i` on. -/
def addBlocks (ino : Nat) : Nat → Nat → Ext2Fs × (Nat → UInt8) → Option (Ext2Fs × (Nat → UInt8))
  | _, 0, s => some s
  | i, n + 1, s =>
      (allocateInodeBlock alloc s.1 s.2 ino i).bind fun r => addBlocks ino (i + 1) n (r.fs, r.inode)

/-- `ext2_inode_add_block` for a given block. -/
def ext2InodeAddBlock (fs : Ext2Fs) (min ino : Nat) (inode : Nat → UInt8) : Option BlockResult :=
  let rblock := le32 inode inoDiskSectors / (fs.blocksize / 512)
  (addBlocks alloc ino rblock (min - 1 - rblock) (fs, inode)).bind fun s =>
    allocateInodeBlock alloc s.1 s.2 ino min

/-- `ext2_inode_read_or_create`; the buffer is not touched when the block is
new. -/
def ext2InodeReadOrCreate (fs : Ext2Fs) (ino : Nat) (inode : Nat → UInt8) (b : Nat)
    (buf : Nat → UInt8) : Option (BlockResult × (Nat → UInt8)) :=
  let inode := reReadInode fs inode ino
  let theBlock := ext2InodeGetBlock fs inode b
  if theBlock ≤ 0 then (ext2InodeAddBlock alloc fs b ino inode).map fun r => (r, buf)
  else
    some (⟨theBlock, fs, inode⟩,
      writeBytes buf 0 fs.blocksize (ext2ReadBlock fs theBlock.toNat))

end Levos.Fs
