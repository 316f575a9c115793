import Levos.Fs.Ext2.Inode

/-!
# Writing to files (`fs/ext2/file.c`)

`ext2_write_file` cuts a write into a first block, whole blocks and a last
block, each of which is read or created, changed in one scratch buffer and
written back.
-/

namespace Levos.Fs

open Levos.Base Levos.Kernel

variable (alloc : Ext2Fs → Int × Ext2Fs)

/-- What `struct file` has on a file of ext2. -/
structure Ext2File where
  inodeNo : Int
  fpos : Nat
  length : Nat

/-- The variables of `ext2_write_file` that change from block to block. -/
structure WriteState where
  fs : Ext2Fs
  inode : Nat → UInt8
  buffer : Nat → UInt8
  total : Nat

/-- One block: read or create it, copy `len` bytes of the caller's from `src`
on to `at` in the buffer, write it. The left result is an early return. -/
def writeOneBlock (ino : Nat) (buf : Nat → UInt8) (st : WriteState) (b dst src len : Nat) :
    Option (Int × Ext2Fs ⊕ WriteState) :=
  (ext2InodeReadOrCreate alloc st.fs ino st.inode b st.buffer).map fun r =>
    if r.1.ret < 0 then .inl (r.1.ret, r.1.fs)
    else
      let buffer := writeBytes r.2 dst len fun j => buf (src + j)
      .inr ⟨ext2WriteBlock r.1.fs buffer r.1.ret.toNat, r.1.inode, buffer, st.total + len⟩

/-- The loop over the blocks before the last one; `blocksRead` of them are
done and `n` are left. -/
def writeLoop (ino bs startBlock coff : Nat) (buf : Nat → UInt8) :
    Nat → Nat → WriteState → Option (Int × Ext2Fs ⊕ WriteState)
  | _, 0, st => some (.inr st)
  | blocksRead, n + 1, st =>
      let one :=
        if blocksRead = 0 then writeOneBlock alloc ino buf st startBlock coff 0 (bs - coff)
        else
          writeOneBlock alloc ino buf st (startBlock + blocksRead) 0 (bs * blocksRead - coff) bs
      one.bind fun r =>
        match r with
        | .inl e => some (.inl e)
        | .inr st => writeLoop ino bs startBlock coff buf (blocksRead + 1) n st

/-- What is left to do after the blocks: the inode's size, `length` and
`fpos`. -/
def writeDone (ino fileEnd : Nat) (f : Ext2File) (st : WriteState) : Int × Ext2Fs × Ext2File :=
  let inode := reReadInode st.fs st.inode ino
  let r :=
    if fileEnd > le32 inode inoSize then
      let inode := put32 inode inoSize fileEnd
      (ext2WriteInode st.fs inode ino, { f with length := fileEnd })
    else (st.fs, f)
  (st.total, r.1, { r.2 with fpos := r.2.fpos + st.total })

/-- The blocks of a write from `fpos` to `fileEnd`: a single one, or all but
the last and, if anything is left, the last. -/
def writeBlocks (ino bs fpos fileEnd : Nat) (buf : Nat → UInt8) (st : WriteState) :
    Option (Int × Ext2Fs ⊕ WriteState) :=
  let coff := fpos % bs
  let startBlock := fpos / bs
  let endBlock := fileEnd / bs
  let endSize := fileEnd - endBlock * bs
  let sizeToRead := fileEnd - fpos
  if startBlock = endBlock then writeOneBlock alloc ino buf st startBlock coff 0 sizeToRead
  else
    (writeLoop alloc ino bs startBlock coff buf 0 (endBlock - startBlock) st).bind fun r =>
      match r with
      | .inl e => some (.inl e)
      | .inr st =>
          if endSize ≠ 0 then
            writeOneBlock alloc ino buf st endBlock 0 (bs * (endBlock - startBlock) - coff) endSize
          else some (.inr st)

/-- `ext2_write_file`; `junk` is what the two buffers it allocates hold. -/
def ext2WriteFile (junk : Nat → Nat → UInt8) (fs : Ext2Fs) (f : Ext2File) (buf : Nat → UInt8)
    (count : Nat) : Option (Int × Ext2Fs × Ext2File) :=
  if count = 0 then some (0, fs, f)
  else if f.inodeNo < 0 then some (f.inodeNo, fs, f)
  else
    let ino := f.inodeNo.toNat
    match ext2ReadInode fs (junk 0) ino with
    | none => some (-enomem, fs, f)
    | some inode =>
        let fileEnd := u32 (f.fpos + count)
        let st : WriteState := ⟨fs, inode, junk 1, 0⟩
        (writeBlocks alloc ino fs.blocksize f.fpos fileEnd buf st).map fun r =>
          match r with
          | .inl e => (e.1, e.2, f)
          | .inr st => writeDone ino fileEnd f st

end Levos.Fs
