import Levos.Base.Blocks
import Levos.Base.IndexTree
import Levos.Fs.Ext2.File

/-!
# Reading files (`fs/ext2/file.c`)

`ext2_read_file` cuts a read into a first block, whole blocks and a last one,
like `ext2_write_file`. `ext2_file_read_block` goes from the inode through the
index blocks to the block it reads, and looks at none of the block numbers on
the way: a 0 leads it to block 0. Beside it stands the map that ext2 has,
`ext2Block`, in which a 0 means that there is no block.

Blocks have 1 to 64 KiB, so that no product of two counts of block numbers
wraps around.
-/

namespace Levos.Fs

open Levos.Base Levos.Kernel

/-! ## The code -/

/-- `triply_block` in `struct ext2_inode`. -/
def inoTriplyBlock : Nat := 96

/-- An entry of an index block. -/
def tableEntry (fs : Ext2Fs) (x i : Nat) : Nat := le32 (ext2ReadBlock fs x) (4 * i)

/-- `ext2_file_read_block`: its result, and the buffer after it. -/
def ext2FileReadBlock (fs : Ext2Fs) (ino : Int) (ibuf buf : Nat → UInt8) (b : Nat) :
    Int × (Nat → UInt8) :=
  let p := ptrsPerBlock fs
  let read := fun x => (0, writeBytes buf 0 fs.blocksize (ext2ReadBlock fs x))
  if ino < 0 then (ino, buf)
  else if b < 12 then read (le32 ibuf (inoDbp + 4 * b))
  else if b < 12 + p then read (tableEntry fs (le32 ibuf inoSinglyBlock) (b - 12))
  else if b < 12 + p + p * p then
    let B := b - 12 - p
    let C := B / p
    let D := B - C * p
    let nblock := tableEntry fs (le32 ibuf inoDoublyBlock) C
    read (tableEntry fs nblock D)
  else if b < 12 + p + p * p + p then
    let c := b - 12 - p - p * p
    let d := c / (p * p)
    let e := c - d * (p * p)
    let f := e / p
    let g := e - f * p
    let nblock := tableEntry fs (le32 ibuf inoTriplyBlock) d
    let nblock := tableEntry fs nblock f
    read (tableEntry fs nblock g)
  else (0, buf)

/-- The variables of `ext2_read_file` that change from block to block. -/
structure ReadState where
  buffer : Nat → UInt8
  out : Nat → UInt8
  total : Nat

/-- One block: read it, copy `len` bytes from `src` on in the buffer to `dst`
in the caller's. -/
def readOneBlock (fs : Ext2Fs) (ino : Int) (inode : Nat → UInt8) (st : ReadState)
    (b src dst len : Nat) : ReadState :=
  let buffer := (ext2FileReadBlock fs ino inode st.buffer b).2
  ⟨buffer, writeBytes st.out dst len fun j => buffer (src + j), st.total + len⟩

/-- The loop over the blocks before the last one; `blocksRead` of them are done
and `n` are left. -/
def readLoop (fs : Ext2Fs) (ino : Int) (inode : Nat → UInt8) (bs startBlock coff : Nat) :
    Nat → Nat → ReadState → ReadState
  | _, 0, st => st
  | blocksRead, n + 1, st =>
      let st :=
        if blocksRead = 0 then readOneBlock fs ino inode st startBlock coff 0 (bs - coff)
        else
          readOneBlock fs ino inode st (startBlock + blocksRead) 0 (bs * blocksRead - coff) bs
      readLoop fs ino inode bs startBlock coff (blocksRead + 1) n st

/-- The blocks of a read from `fpos` to `fileEnd`; `none` where it copies to
memory before the caller's buffer, or without end. -/
def readBlocks (fs : Ext2Fs) (ino : Int) (inode : Nat → UInt8) (bs fpos fileEnd : Nat)
    (st : ReadState) : Option ReadState :=
  let coff := fpos % bs
  let startBlock := fpos / bs
  let endBlock := fileEnd / bs
  let endSize := fileEnd - endBlock * bs
  if startBlock = endBlock then
    if fileEnd < fpos then none
    else some (readOneBlock fs ino inode st startBlock coff 0 (fileEnd - fpos))
  else
    let st := readLoop fs ino inode bs startBlock coff 0 (endBlock - startBlock) st
    if endSize = 0 then some st
    else if bs * (endBlock - startBlock) < coff then none
    else
      some (readOneBlock fs ino inode st endBlock 0 (bs * (endBlock - startBlock) - coff) endSize)

/-- `ext2_read_file`; `junk` is what the two buffers it allocates hold, and the
result has the caller's buffer after the call. -/
def ext2ReadFile (junk : Nat → Nat → UInt8) (fs : Ext2Fs) (f : Ext2File) (buf : Nat → UInt8)
    (count : Nat) : Option (Int × (Nat → UInt8) × Ext2File) :=
  if count = 0 then some (0, buf, f)
  else if f.inodeNo < 0 then some (f.inodeNo, buf, f)
  else
    let theinode := reReadInode fs (junk 0) f.inodeNo.toNat
    if f.fpos ≥ le32 theinode inoSize then some (0, buf, f)
    else
      let fileEnd := min (u32 (f.fpos + count)) (le32 theinode inoSize)
      let st : ReadState := ⟨junk 1, buf, 0⟩
      (readBlocks fs f.inodeNo theinode fs.blocksize f.fpos fileEnd st).map fun st =>
        (st.total, st.out, { f with fpos := f.fpos + st.total })

/-! ## The file that an inode describes -/

/-- The sizes that `ext2_mount` finds, with the block sizes of ext2. -/
structure SizesOk (fs : Ext2Fs) : Prop where
  blocksize : ∃ k ≤ 6, fs.blocksize = 1024 * 2 ^ k
  sectors : fs.sectorsPerBlock = fs.blocksize / 512

/-- Where a logical block is found: in the inode, or down one of the three
trees, by a given way of following the indices. -/
def logicalBlock (walk : Nat → List Nat → Nat) (p : Nat) (inode : Nat → UInt8) (b : Nat) : Nat :=
  if b < 12 then le32 inode (inoDbp + 4 * b)
  else if b < 12 + p then walk (le32 inode inoSinglyBlock) (indexPath p 1 (b - 12))
  else if b < 12 + p + p * p then walk (le32 inode inoDoublyBlock) (indexPath p 2 (b - 12 - p))
  else walk (le32 inode inoTriplyBlock) (indexPath p 3 (b - 12 - p - p * p))

/-- The block behind a logical block, as ext2 has it; 0 where there is none. -/
def ext2Block (fs : Ext2Fs) (inode : Nat → UInt8) (b : Nat) : Nat :=
  logicalBlock (descend (tableEntry fs)) (ptrsPerBlock fs) inode b

/-- The block that the numbers lead to when no 0 among them is noticed. -/
def rawBlock (fs : Ext2Fs) (inode : Nat → UInt8) (b : Nat) : Nat :=
  logicalBlock (chase (tableEntry fs)) (ptrsPerBlock fs) inode b

/-- The bytes of a block of a file; zeros where there is no block. -/
def blockByte (fs : Ext2Fs) (x j : Nat) : UInt8 := if x = 0 then 0 else ext2ReadBlock fs x j

/-- A byte of the file. -/
def fileByte (fs : Ext2Fs) (inode : Nat → UInt8) (o : Nat) : UInt8 :=
  blockByte fs (ext2Block fs inode (o / fs.blocksize)) (o % fs.blocksize)

section Read

variable {fs : Ext2Fs} {ino : Int} {inode buf : Nat → UInt8} {b : Nat}

theorem SizesOk.pos (h : SizesOk fs) : 0 < fs.blocksize := by
  obtain ⟨k, -, hk⟩ := h.blocksize
  rw [hk]
  exact Nat.mul_pos (by norm_num) (Nat.two_pow_pos k)

theorem rawBlock_of_ne (h : ext2Block fs inode b ≠ 0) :
    rawBlock fs inode b = ext2Block fs inode b := by
  unfold rawBlock
  unfold ext2Block logicalBlock at h ⊢
  split_ifs at h ⊢
  · rfl
  all_goals exact chase_of_descend _ h

/-- As far as the code goes, every branch reads the block that the numbers lead
to. -/
theorem ext2FileReadBlock_eq (hino : 0 ≤ ino)
    (hb : b < 12 + ptrsPerBlock fs + ptrsPerBlock fs * ptrsPerBlock fs + ptrsPerBlock fs) :
    ext2FileReadBlock fs ino inode buf b =
      (0, writeBytes buf 0 fs.blocksize (ext2ReadBlock fs (rawBlock fs inode b))) := by
  unfold ext2FileReadBlock rawBlock logicalBlock
  dsimp only
  rw [if_neg (not_lt.mpr hino)]
  split_ifs
  · rfl
  · rw [indexPath_one]
    rfl
  · rw [indexPath_two, ← Nat.mod_eq_sub_div_mul]
    rfl
  · rw [indexPath_three, ← Nat.mod_eq_sub_div_mul, ← Nat.mod_eq_sub_div_mul]
    rfl

theorem ext2FileReadBlock_byte (hino : 0 ≤ ino)
    (hb : b < 12 + ptrsPerBlock fs + ptrsPerBlock fs * ptrsPerBlock fs)
    (hmap : ext2Block fs inode b ≠ 0) {j : Nat} (hj : j < fs.blocksize) :
    (ext2FileReadBlock fs ino inode buf b).2 j = fileByte fs inode (fs.blocksize * b + j) := by
  have hread : ext2FileReadBlock fs ino inode buf b = _ :=
    ext2FileReadBlock_eq hino (Nat.lt_add_right _ hb)
  rw [hread]
  dsimp only
  rw [rawBlock_of_ne hmap, writeBytes_of_mem (by omega), Nat.sub_zero, fileByte, block_div hj,
    block_mod hj, blockByte, if_neg hmap]

/-! ## The parts of a read -/

/-- The bytes from `fpos` to `lo` are in the caller's buffer, and nothing else
of it has changed. -/
structure ReadTo (fs : Ext2Fs) (inode buf : Nat → UInt8) (fpos lo : Nat) (st : ReadState) :
    Prop where
  le : fpos ≤ lo
  total : st.total = lo - fpos
  bytes : ∀ k, st.out k = if k < lo - fpos then fileByte fs inode (fpos + k) else buf k

/-- The first `n` blocks are there, and the code gets to them. -/
structure Mapped (fs : Ext2Fs) (inode : Nat → UInt8) (n : Nat) : Prop where
  le : n ≤ 12 + ptrsPerBlock fs + ptrsPerBlock fs * ptrsPerBlock fs
  block : ∀ b < n, ext2Block fs inode b ≠ 0

variable {n fpos : Nat} {st : ReadState}

theorem ReadTo.next (src dst len : Nat) (hino : 0 ≤ ino) (hmap : Mapped fs inode n) (hb : b < n)
    (hfit : src + len ≤ fs.blocksize) (hst : ReadTo fs inode buf fpos (fs.blocksize * b + src) st)
    (hdst : dst = fs.blocksize * b + src - fpos) :
    ReadTo fs inode buf fpos (fs.blocksize * b + src + len)
      (readOneBlock fs ino inode st b src dst len) := by
  have hle := hst.le
  have hreach := hmap.le
  subst hdst
  refine ⟨by omega, ?_, fun k => ?_⟩
  · rw [readOneBlock]
    dsimp only
    rw [hst.total]
    omega
  · rw [readOneBlock]
    dsimp only
    by_cases hin : fs.blocksize * b + src - fpos ≤ k ∧ k < fs.blocksize * b + src - fpos + len
    · obtain ⟨i, rfl⟩ := Nat.exists_eq_add_of_le hin.1
      have hpos : fpos + (fs.blocksize * b + src - fpos + i) = fs.blocksize * b + (src + i) := by
        omega
      rw [writeBytes_of_mem hin, if_pos (by omega), Nat.add_sub_cancel_left,
        ext2FileReadBlock_byte hino (by omega) (hmap.block b hb) (by omega), hpos]
    · rw [writeBytes_of_not_mem (by omega), hst.bytes]
      by_cases hk : k < fs.blocksize * b + src - fpos
      · rw [if_pos hk, if_pos (by omega)]
      · rw [if_neg hk, if_neg (by omega)]

/-- The loop, from the border of a block on. -/
theorem readLoop_spec {m r : Nat} (hino : 0 ≤ ino) (hmap : Mapped fs inode n)
    (hb : fpos / fs.blocksize + r + m ≤ n) (hr : 0 < r)
    (hst : ReadTo fs inode buf fpos (fs.blocksize * (fpos / fs.blocksize + r)) st) :
    ReadTo fs inode buf fpos (fs.blocksize * (fpos / fs.blocksize + r + m))
      (readLoop fs ino inode fs.blocksize (fpos / fs.blocksize) (fpos % fs.blocksize) r m st) := by
  induction m generalizing r st with
  | zero => exact hst
  | succ m ih =>
    have hsplit := Nat.div_add_mod fpos fs.blocksize
    have hmul : fs.blocksize * (fpos / fs.blocksize + r) =
        fs.blocksize * (fpos / fs.blocksize) + fs.blocksize * r := Nat.mul_add _ _ _
    have hone := ReadTo.next 0 (fs.blocksize * r - fpos % fs.blocksize) fs.blocksize hino hmap
      (by omega) (by omega) hst (by omega)
    have hrest := ih (r := r + 1) (by omega) (Nat.succ_pos r) hone
    rw [readLoop, if_neg hr.ne', show fpos / fs.blocksize + r + (m + 1) =
      fpos / fs.blocksize + (r + 1) + m by omega]
    exact hrest

/-- The number of blocks of a file. -/
def blockCount (fs : Ext2Fs) (size : Nat) : Nat := (size + fs.blocksize - 1) / fs.blocksize

theorem readBlocks_spec {fileEnd size : Nat} (junk buf : Nat → UInt8) (hbs : 0 < fs.blocksize)
    (hino : 0 ≤ ino) (hmap : Mapped fs inode (blockCount fs size)) (hlt : fpos < fileEnd)
    (hend : fileEnd ≤ size) :
    ∃ st, readBlocks fs ino inode fs.blocksize fpos fileEnd ⟨junk, buf, 0⟩ = some st ∧
      ReadTo fs inode buf fpos fileEnd st := by
  have hsplit := Nat.div_add_mod fpos fs.blocksize
  have hsplit' := Nat.div_add_mod fileEnd fs.blocksize
  have hmod := Nat.mod_lt fpos hbs
  have hmod' := Nat.mod_lt fileEnd hbs
  have hstart : fpos / fs.blocksize < blockCount fs size :=
    div_lt_blocks hbs (hlt.trans_le hend)
  have hlast : fileEnd - fileEnd / fs.blocksize * fs.blocksize = fileEnd % fs.blocksize :=
    (Nat.mod_eq_sub_div_mul).symm
  have hzero : ReadTo fs inode buf fpos (fs.blocksize * (fpos / fs.blocksize) +
      fpos % fs.blocksize) ⟨junk, buf, 0⟩ :=
    ⟨hsplit.ge, (Nat.sub_eq_zero_of_le hsplit.le).symm, fun k => by rw [if_neg (by omega)]⟩
  unfold readBlocks
  dsimp only
  rw [hlast]
  by_cases hsame : fpos / fs.blocksize = fileEnd / fs.blocksize
  · rw [if_pos hsame, if_neg (by omega)]
    rw [← hsame] at hsplit'
    have hone := hzero.next (fpos % fs.blocksize) 0 (fileEnd - fpos) hino hmap hstart
      (by omega) (by omega)
    rw [hsplit, Nat.add_sub_cancel' hlt.le] at hone
    exact ⟨_, rfl, hone⟩
  · have hdiv : fpos / fs.blocksize ≤ fileEnd / fs.blocksize := Nat.div_le_div_right hlt.le
    obtain ⟨m, hm⟩ : ∃ m, fileEnd / fs.blocksize = fpos / fs.blocksize + 1 + m :=
      Nat.exists_eq_add_of_le (by omega)
    have hreach : fpos / fs.blocksize + 1 + m ≤ blockCount fs size := by
      rw [← hm, blockCount]
      exact Nat.div_le_div_right (by omega)
    have hcount : fileEnd / fs.blocksize - fpos / fs.blocksize = m + 1 := by omega
    -- the first block ends at the border of the next one
    have hfst := hzero.next (fpos % fs.blocksize) 0 (fs.blocksize - fpos % fs.blocksize) hino hmap
      hstart (by omega) (by omega)
    rw [Nat.add_assoc, Nat.add_sub_cancel' hmod.le, ← Nat.mul_succ] at hfst
    have hloop := readLoop_spec hino hmap hreach Nat.one_pos hfst
    rw [if_neg hsame, hcount, readLoop, if_pos rfl]
    rw [← hm] at hloop
    by_cases hwhole : fileEnd % fs.blocksize = 0
    · rw [if_pos hwhole]
      rw [hwhole, Nat.add_zero] at hsplit'
      rw [hsplit'] at hloop
      exact ⟨_, rfl, hloop⟩
    · have hmul : fs.blocksize * (fileEnd / fs.blocksize) =
          fs.blocksize * (fpos / fs.blocksize) + fs.blocksize * (m + 1) := by
        rw [hm, ← Nat.mul_add, Nat.add_assoc, Nat.add_comm 1]
      have hle : fs.blocksize ≤ fs.blocksize * (m + 1) :=
        Nat.le_mul_of_pos_right _ (Nat.succ_pos m)
      have hlt' : fileEnd / fs.blocksize < blockCount fs size := by
        have hin := div_lt_blocks hbs (by omega : fileEnd - 1 < size)
        have hdiv' : (fileEnd - 1) / fs.blocksize = fileEnd / fs.blocksize := by
          rw [← hsplit', Nat.add_sub_assoc (Nat.pos_of_ne_zero hwhole), block_div (by omega)]
          exact (block_div hmod').symm
        rwa [hdiv'] at hin
      have hone := ReadTo.next 0 (fs.blocksize * (m + 1) - fpos % fs.blocksize)
        (fileEnd % fs.blocksize) hino hmap hlt' (by omega) hloop (by omega)
      rw [Nat.add_zero, hsplit'] at hone
      rw [if_neg hwhole, if_neg (by omega)]
      exact ⟨_, rfl, hone⟩

/-- **Reading.** A read returns as many of the bytes it is asked for as there
are up to the end of the file, puts just these into the caller's buffer, and
moves on behind them. -/
theorem ext2_read_file_bytes (f : Ext2File) (junk : Nat → Nat → UInt8) (buf : Nat → UInt8)
    (count : Nat) (hsizes : SizesOk fs) (hino : 0 ≤ f.inodeNo)
    (hinode : inode = reReadInode fs (junk 0) f.inodeNo.toNat)
    (hsize : le32 inode inoSize ≤
      (12 + ptrsPerBlock fs + ptrsPerBlock fs * ptrsPerBlock fs) * fs.blocksize)
    (hmap : ∀ b < blockCount fs (le32 inode inoSize), ext2Block fs inode b ≠ 0)
    (hcount : 0 < count) (hover : f.fpos + count < 2 ^ 31) :
    ∃ (n : Nat) (out : Nat → UInt8), n = min count (le32 inode inoSize - f.fpos) ∧
      ext2ReadFile junk fs f buf count = some ((n : Int), out, { f with fpos := f.fpos + n }) ∧
      ∀ k, out k = if k < n then fileByte fs inode (f.fpos + k) else buf k := by
  have hpos := hsizes.pos
  have hmapped : Mapped fs inode (blockCount fs (le32 inode inoSize)) := by
    refine ⟨?_, hmap⟩
    rw [blockCount, ← Nat.lt_succ_iff, Nat.div_lt_iff_lt_mul hpos, Nat.succ_mul]
    omega
  have hread : ext2ReadFile junk fs f buf count =
      if le32 inode inoSize ≤ f.fpos then some (0, buf, f)
      else
        (readBlocks fs f.inodeNo inode fs.blocksize f.fpos
          (min (f.fpos + count) (le32 inode inoSize)) ⟨junk 1, buf, 0⟩).map fun st =>
            ((st.total : Int), st.out, { f with fpos := f.fpos + st.total }) := by
    rw [ext2ReadFile, if_neg hcount.ne', if_neg (not_lt.mpr hino), ← hinode,
      u32_of_lt (by omega)]
  rw [hread]
  by_cases hend : le32 inode inoSize ≤ f.fpos
  · refine ⟨0, buf, by omega, ?_, fun k => (if_neg (Nat.not_lt_zero k)).symm⟩
    rw [if_pos hend]
    rfl
  · obtain ⟨st, hblocks, hst⟩ := readBlocks_spec (junk 1) buf hpos hino hmapped
      (by omega : f.fpos < min (f.fpos + count) (le32 inode inoSize)) (Nat.min_le_right _ _)
    have hn : min (f.fpos + count) (le32 inode inoSize) - f.fpos =
        min count (le32 inode inoSize - f.fpos) := by omega
    refine ⟨_, st.out, hn, ?_, hst.bytes⟩
    rw [if_neg hend, hblocks, Option.map_some, hst.total]

/-- A file of three bytes, in block 6, behind inode 1. -/
def tinyDisk : Nat → UInt8 := fun a =>
  if a = 2056 then 5 else if a = 5124 then 3 else if a = 5160 then 6
  else if a = 6144 then 104 else if a = 6145 then 105 else if a = 6146 then 33 else 0

def tinyFs : Ext2Fs :=
  { disk := tinyDisk, sb := fun j => if j = sbInodesInBlockgroup then 8 else 0, firstBgd := 2
    numberOfBgs := 1, blocksize := 1024, inodesize := 128, sectorsPerBlock := 2
    inodesPerBlock := 8 }

theorem tinyFs_sizes : SizesOk tinyFs := ⟨⟨0, by decide, rfl⟩, rfl⟩

/-- A read that wants more than there is. -/
theorem ext2_read_file_bytes_tiny : ∃ (n : Nat) (out : Nat → UInt8), n = 2 ∧
    ext2ReadFile (fun _ _ => 0) tinyFs ⟨1, 1, 3⟩ (fun _ => 0) 5 =
      some ((n : Int), out, ⟨1, 1 + n, 3⟩) ∧
    out 0 = 105 ∧ out 1 = 33 := by
  have hmap : ∀ b < blockCount tinyFs (le32 (reReadInode tinyFs (fun _ => 0) 1) inoSize),
      ext2Block tinyFs (reReadInode tinyFs (fun _ => 0) 1) b ≠ 0 := by
    intro b hb
    have hone : blockCount tinyFs (le32 (reReadInode tinyFs (fun _ => 0) 1) inoSize) = 1 := by
      decide
    rw [hone, Nat.lt_one_iff] at hb
    subst hb
    decide
  obtain ⟨n, out, hn, hread, hout⟩ := ext2_read_file_bytes ⟨1, 1, 3⟩ (fun _ _ => 0) (fun _ => 0) 5
    tinyFs_sizes (by decide) rfl (by decide) hmap (by decide) (by decide)
  obtain rfl : n = 2 := hn.trans (by decide)
  exact ⟨2, out, rfl, hread, (hout 0).trans (by decide), (hout 1).trans (by decide)⟩

/-! ## Blocks behind the triply indirect one -/

/-- What a read of one block is for: it fails, or the buffer has the bytes of
the block. -/
def ReadsBlock (fs : Ext2Fs) (ino : Int) (inode : Nat → UInt8) (b : Nat) : Prop :=
  ∀ buf, (ext2FileReadBlock fs ino inode buf b).1 < 0 ∨
    ∀ j < fs.blocksize, (ext2FileReadBlock fs ino inode buf b).2 j =
      blockByte fs (ext2Block fs inode b) j

/-- Where the code stops, it says that all is well. -/
theorem ext2FileReadBlock_far (hino : 0 ≤ ino)
    (hb : 12 + ptrsPerBlock fs + ptrsPerBlock fs * ptrsPerBlock fs + ptrsPerBlock fs ≤ b) :
    ext2FileReadBlock fs ino inode buf b = (0, buf) := by
  unfold ext2FileReadBlock
  dsimp only
  rw [if_neg (not_lt.mpr hino), if_neg (by omega), if_neg (by omega), if_neg (by omega),
    if_neg (by omega)]

/-- **Large files.** Of the `p ^ 3` blocks behind the triply indirect one, the
code reads the first `p`. -/
theorem ext2_file_read_block_iff (hsizes : SizesOk fs) :
    ReadsBlock fs ino inode b ↔ ino < 0 ∨
      b < 12 + ptrsPerBlock fs + ptrsPerBlock fs * ptrsPerBlock fs + ptrsPerBlock fs ∧
        (ext2Block fs inode b ≠ 0 ∨
          ∀ j < fs.blocksize, ext2ReadBlock fs (rawBlock fs inode b) j = 0) := by
  by_cases hino : ino < 0
  · have hfail : ∀ buf, ext2FileReadBlock fs ino inode buf b = (ino, buf) := fun buf => by
      rw [ext2FileReadBlock]
      exact if_pos hino
    exact iff_of_true (fun buf => .inl (by rw [hfail]; exact hino)) (.inl hino)
  rw [not_lt] at hino
  by_cases hb : b < 12 + ptrsPerBlock fs + ptrsPerBlock fs * ptrsPerBlock fs + ptrsPerBlock fs
  · -- the buffer has the block that the numbers lead to
    have hraw : ReadsBlock fs ino inode b ↔ ∀ j < fs.blocksize,
        ext2ReadBlock fs (rawBlock fs inode b) j = blockByte fs (ext2Block fs inode b) j := by
      have hbyte : ∀ buf, ∀ j < fs.blocksize, (ext2FileReadBlock fs ino inode buf b).2 j =
          ext2ReadBlock fs (rawBlock fs inode b) j := fun buf j hj => by
        rw [ext2FileReadBlock_eq hino hb]
        exact writeBytes_of_mem (by omega)
      constructor
      · intro h j hj
        rcases h (fun _ => 0) with hfail | hfill
        · rw [ext2FileReadBlock_eq hino hb] at hfail
          exact absurd hfail (lt_irrefl 0)
        · rw [← hbyte _ j hj, hfill j hj]
      · intro h buf
        exact .inr fun j hj => by rw [hbyte buf j hj, h j hj]
    rw [hraw, or_iff_right (not_lt.mpr hino), and_iff_right hb]
    by_cases h0 : ext2Block fs inode b = 0
    · rw [or_iff_right (not_not.mpr h0), h0]
      exact Iff.rfl
    · rw [rawBlock_of_ne h0]
      refine iff_of_true (fun j _ => ?_) (.inl h0)
      rw [blockByte, if_neg h0]
  · refine iff_of_false (fun h => ?_) (by omega)
    -- a buffer whose first byte is not the one of the block
    have hpos := hsizes.pos
    rcases h (fun _ => blockByte fs (ext2Block fs inode b) 0 + 1) with hfail | hfill
    · rw [ext2FileReadBlock_far hino (not_lt.mp hb)] at hfail
      exact absurd hfail (lt_irrefl 0)
    · have hfirst := hfill 0 hpos
      rw [ext2FileReadBlock_far hino (not_lt.mp hb)] at hfirst
      simp at hfirst

/-- Blocks 6 to 9 are one branch of a triply indirect tree. -/
def largeDisk : Nat → UInt8 := fun a =>
  if a = 6144 then 7 else if a = 7168 then 8 else if a = 7172 then 8
  else if a = 8192 then 9 else if a = 9216 then 1 else 0

def largeFs : Ext2Fs := { tinyFs with disk := largeDisk }

def largeInode : Nat → UInt8 := fun j => if j = inoTriplyBlock then 6 else 0

theorem largeFs_sizes : SizesOk largeFs := ⟨⟨0, by decide, rfl⟩, rfl⟩

/-- The first block behind the triply indirect one. -/
theorem ext2_file_read_block_iff_first : ReadsBlock largeFs 1 largeInode (12 + 256 + 256 * 256) :=
  (ext2_file_read_block_iff largeFs_sizes).mpr (.inr ⟨by decide, .inl (by decide)⟩)

/-- Block `p` behind the triply indirect one is on the disk, and the buffer is
left as it is. -/
theorem ext2_file_read_block_unfilled :
    ext2Block largeFs largeInode (12 + 256 + 256 * 256 + 256) = 9 ∧
      ext2ReadBlock largeFs 9 0 = 1 ∧
      ext2FileReadBlock largeFs 1 largeInode (fun _ => 0) (12 + 256 + 256 * 256 + 256) =
        (0, fun _ => 0) ∧
      ¬ ReadsBlock largeFs 1 largeInode (12 + 256 + 256 * 256 + 256) := by
  have hfar : ext2FileReadBlock largeFs 1 largeInode (fun _ => 0) (12 + 256 + 256 * 256 + 256) =
      (0, fun _ => 0) := ext2FileReadBlock_far (by decide) (by decide)
  have hblock : ext2Block largeFs largeInode (12 + 256 + 256 * 256 + 256) = 9 := by decide
  have hbyte : ext2ReadBlock largeFs 9 0 = 1 := by decide
  refine ⟨hblock, hbyte, hfar, fun h => ?_⟩
  rcases h (fun _ => 0) with hfail | hfill
  · rw [hfar] at hfail
    exact absurd hfail (lt_irrefl 0)
  · have hfirst := hfill 0 (by decide)
    rw [hfar, hblock, blockByte, if_neg (by decide), hbyte] at hfirst
    exact absurd hfirst (by decide)

end Read

end Levos.Fs
