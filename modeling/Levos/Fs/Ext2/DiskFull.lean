import Levos.Fs.Ext2.BlockAlloc
import Levos.Fs.Ext2.File
import Levos.Fs.Ext2.Geometry

/-!
# A full disk (`fs/ext2/block.c`, `fs/ext2/inode.c`, `fs/ext2/file.c`)

`ext2_alloc_block` fails with -1. Its callers keep the result in an `unsigned
int` and compare it with 0 (`block_no < 0` is never true), so that no failure is
noticed: 0xFFFFFFFF is taken for the number of a block, stored in the inode and
written to. `AllocFails` says which calls of the allocator an operation makes
and where one of them fails; `ext2_disk_full` that the operation is then never
what it should be.
-/

namespace Levos.Fs

open Levos.Base Levos.Kernel

variable (alloc : Ext2Fs → Int × Ext2Fs)

/-! ## The operations -/

/-- The result of `set_block_number`; `-ENOSYS` stands for the panic. -/
def setBlockNumberRet (fs : Ext2Fs) (inode : Nat → UInt8) (ino iblock : Nat) : Int :=
  let p := ptrsPerBlock fs
  if iblock < 12 then 0
  else if iblock < 12 + p then
    if le32 inode inoSinglyBlock = 0 ∧ (allocBlockNo alloc fs).1 = 0 then -enospc else 0
  else if iblock < 12 + p + p * p then
    if le32 inode inoDoublyBlock = 0 then
      let r := allocBlockNo alloc fs
      if r.1 = 0 then -enospc
      else
        let fs := ext2WriteInode r.2 (put32 inode inoDoublyBlock r.1) ino
        let tmp := ext2ReadBlock fs r.1
        if le32 tmp (4 * ((iblock - 12 - p) / p)) = 0 ∧ (allocBlockNo alloc fs).1 = 0 then -enospc
        else 0
    else
      let tmp := ext2ReadBlock fs (le32 inode inoDoublyBlock)
      if le32 tmp (4 * ((iblock - 12 - p) / p)) = 0 ∧ (allocBlockNo alloc fs).1 = 0 then -enospc
      else 0
  else -enosys

/-- A call of one of the four functions. -/
inductive BlockOp : Type where
  | setNumber (fs : Ext2Fs) (inode : Nat → UInt8) (ino iblock rblock : Nat)
  | allocate (fs : Ext2Fs) (inode : Nat → UInt8) (ino block : Nat)
  | addBlock (fs : Ext2Fs) (min ino : Nat) (inode : Nat → UInt8)
  | write (junk : Nat → Nat → UInt8) (fs : Ext2Fs) (f : Ext2File) (buf : Nat → UInt8)
      (count : Nat)

/-- The filesystem before the call. -/
def BlockOp.fs : BlockOp → Ext2Fs
  | .setNumber fs _ _ _ _ => fs
  | .allocate fs _ _ _ => fs
  | .addBlock fs _ _ _ => fs
  | .write _ fs _ _ _ => fs

/-- The result, and the filesystem after the call. -/
def BlockOp.outcome : BlockOp → Option (Int × Ext2Fs)
  | .setNumber fs inode ino iblock rblock =>
      (setBlockNumber alloc fs inode ino iblock rblock).map fun r =>
        (setBlockNumberRet alloc fs inode ino iblock, r.1)
  | .allocate fs inode ino block =>
      (allocateInodeBlock alloc fs inode ino block).map fun r => (r.ret, r.fs)
  | .addBlock fs min ino inode =>
      (ext2InodeAddBlock alloc fs min ino inode).map fun r => (r.ret, r.fs)
  | .write junk fs f buf count =>
      (ext2WriteFile alloc junk fs f buf count).map fun r => (r.1, r.2.1)

/-! ## Where the allocator is called -/

/-- `ext2_write_file` comes to a block with the given variables. -/
inductive WriteReaches (ino bs fpos fileEnd : Nat) (buf : Nat → UInt8) (st : WriteState) :
    Nat → WriteState → Prop where
  | single : fpos / bs = fileEnd / bs → WriteReaches ino bs fpos fileEnd buf st (fpos / bs) st
  | loop {k : Nat} {st' : WriteState} : k < fileEnd / bs - fpos / bs →
      writeLoop alloc ino bs (fpos / bs) (fpos % bs) buf 0 k st = some (.inr st') →
      WriteReaches ino bs fpos fileEnd buf st (fpos / bs + k) st'
  | last {st' : WriteState} : fpos / bs ≠ fileEnd / bs → fileEnd - fileEnd / bs * bs ≠ 0 →
      writeLoop alloc ino bs (fpos / bs) (fpos % bs) buf 0 (fileEnd / bs - fpos / bs) st =
        some (.inr st') →
      WriteReaches ino bs fpos fileEnd buf st (fileEnd / bs) st'

/-- A call of `ext2_alloc_block` inside the operation fails, and leaves the
given filesystem. -/
inductive AllocFails : BlockOp → Ext2Fs → Prop where
  | singly {fs inode ino iblock rblock} : 12 ≤ iblock → iblock < 12 + ptrsPerBlock fs →
      le32 inode inoSinglyBlock = 0 → (alloc fs).1 < 0 →
      AllocFails (.setNumber fs inode ino iblock rblock) (alloc fs).2
  | doubly {fs inode ino iblock rblock} : 12 + ptrsPerBlock fs ≤ iblock →
      iblock < 12 + ptrsPerBlock fs + ptrsPerBlock fs * ptrsPerBlock fs →
      le32 inode inoDoublyBlock = 0 → (alloc fs).1 < 0 →
      AllocFails (.setNumber fs inode ino iblock rblock) (alloc fs).2
  | behindNew {fs fs' inode ino iblock rblock} : 12 + ptrsPerBlock fs ≤ iblock →
      iblock < 12 + ptrsPerBlock fs + ptrsPerBlock fs * ptrsPerBlock fs →
      le32 inode inoDoublyBlock = 0 → (allocBlockNo alloc fs).1 ≠ 0 →
      fs' = ext2WriteInode (alloc fs).2 (put32 inode inoDoublyBlock (allocBlockNo alloc fs).1) ino →
      le32 (ext2ReadBlock fs' (allocBlockNo alloc fs).1)
        (4 * ((iblock - 12 - ptrsPerBlock fs) / ptrsPerBlock fs)) = 0 → (alloc fs').1 < 0 →
      AllocFails (.setNumber fs inode ino iblock rblock) (alloc fs').2
  | behind {fs inode ino iblock rblock} : 12 + ptrsPerBlock fs ≤ iblock →
      iblock < 12 + ptrsPerBlock fs + ptrsPerBlock fs * ptrsPerBlock fs →
      le32 inode inoDoublyBlock ≠ 0 →
      le32 (ext2ReadBlock fs (le32 inode inoDoublyBlock))
        (4 * ((iblock - 12 - ptrsPerBlock fs) / ptrsPerBlock fs)) = 0 → (alloc fs).1 < 0 →
      AllocFails (.setNumber fs inode ino iblock rblock) (alloc fs).2
  | data {fs inode ino block} : (alloc fs).1 < 0 →
      AllocFails (.allocate fs inode ino block) (alloc fs).2
  | pointer {fs inode ino block f} : (allocBlockNo alloc fs).1 ≠ 0 →
      AllocFails (.setNumber (alloc fs).2 inode ino block (allocBlockNo alloc fs).1) f →
      AllocFails (.allocate fs inode ino block) f
  | gap {fs inode ino min rblock k s f} :
      rblock = le32 inode inoDiskSectors / (fs.blocksize / 512) → k < min - 1 - rblock →
      addBlocks alloc ino rblock k (fs, inode) = some s →
      AllocFails (.allocate s.1 s.2 ino (rblock + k)) f →
      AllocFails (.addBlock fs min ino inode) f
  | added {fs inode ino min rblock s f} :
      rblock = le32 inode inoDiskSectors / (fs.blocksize / 512) →
      addBlocks alloc ino rblock (min - 1 - rblock) (fs, inode) = some s →
      AllocFails (.allocate s.1 s.2 ino min) f →
      AllocFails (.addBlock fs min ino inode) f
  | write {junk fs inode f buf count b st g} : count ≠ 0 → 0 ≤ f.inodeNo →
      ext2ReadInode fs (junk 0) f.inodeNo.toNat = some inode →
      WriteReaches alloc f.inodeNo.toNat fs.blocksize f.fpos (u32 (f.fpos + count)) buf
        ⟨fs, inode, junk 1, 0⟩ b st →
      ext2InodeGetBlock st.fs (reReadInode st.fs st.inode f.inodeNo.toNat) b ≤ 0 →
      AllocFails (.addBlock st.fs b f.inodeNo.toNat
        (reReadInode st.fs st.inode f.inodeNo.toNat)) g →
      AllocFails (.write junk fs f buf count) g

/-- What should come of a failure: the operation returns `-ENOSPC`, and nothing
has been written since. -/
def DiskFullSafe (op : BlockOp) (failed : Ext2Fs) : Prop :=
  ∃ fs', op.outcome alloc = some (-enospc, fs') ∧ fs'.disk = failed.disk

/-! ## No operation returns `-ENOSPC` -/

/-- What `ext2_alloc_block` returns: -1, `-ENOMEM` or the number of a block,
which is a positive `int`. `Ok` is kept by allocations and by writing. -/
structure AllocCodes (Ok : Ext2Fs → Prop) : Prop where
  code : ∀ fs, Ok fs → (alloc fs).1 = -1 ∨ (alloc fs).1 = -enomem ∨
    0 < (alloc fs).1 ∧ (alloc fs).1 < 2 ^ 31
  keeps : ∀ fs, Ok fs → Ok (alloc fs).2
  frame : ∀ fs d, Ok fs → Ok (setDisk fs d)

section Codes

variable {alloc} {Ok : Ext2Fs → Prop} (h : AllocCodes alloc Ok)

include h

/-- No result is taken for a failure, and as an `int` it is still what the
allocator returned. -/
theorem AllocCodes.no_zero {fs : Ext2Fs} (hok : Ok fs) :
    (allocBlockNo alloc fs).1 ≠ 0 ∧ i32 (allocBlockNo alloc fs).1 = (alloc fs).1 := by
  rw [allocBlockNo]
  rcases h.code fs hok with heq | heq | ⟨hpos, hlt⟩
  · rw [heq]
    show ((-1 : Int) % 2 ^ 32).toNat ≠ 0 ∧ i32 ((-1 : Int) % 2 ^ 32).toNat = -1
    decide
  · rw [heq]
    show (-enomem % 2 ^ 32).toNat ≠ 0 ∧ i32 (-enomem % 2 ^ 32).toNat = -enomem
    decide
  · have hmod : (alloc fs).1 % 2 ^ 32 = (alloc fs).1 := Int.emod_eq_of_lt hpos.le (by omega)
    rw [hmod, i32, if_pos (by omega)]
    omega

theorem AllocCodes.ne_enospc {fs : Ext2Fs} (hok : Ok fs) : (alloc fs).1 ≠ -enospc := by
  have hcode := h.code fs hok
  rw [enomem] at hcode
  rw [enospc]
  omega

theorem AllocCodes.writeBlock {fs : Ext2Fs} (hok : Ok fs) (buf : Nat → UInt8) (b : Nat) :
    Ok (ext2WriteBlock fs buf b) := h.frame fs _ hok

theorem AllocCodes.writeInode {fs : Ext2Fs} (hok : Ok fs) (buf : Nat → UInt8) (ino : Nat) :
    Ok (ext2WriteInode fs buf ino) := h.frame fs _ hok

theorem setBlockNumberRet_ne {fs : Ext2Fs} (hok : Ok fs) (inode : Nat → UInt8) (ino iblock : Nat) :
    setBlockNumberRet alloc fs inode ino iblock ≠ -enospc := by
  have hfirst := (h.no_zero hok).1
  have hwrite : ∀ buf, (allocBlockNo alloc (ext2WriteInode (alloc fs).2 buf ino)).1 ≠ 0 :=
    fun buf => (h.no_zero (h.writeInode (h.keeps fs hok) buf ino)).1
  rw [setBlockNumberRet]
  dsimp only
  split
  · decide
  · split
    · rw [if_neg fun hboth => hfirst hboth.2]
      decide
    · split
      · split
        · split
          · next hboth => exact absurd hboth.2 (hwrite _)
          · decide
        · rw [if_neg fun hboth => hfirst hboth.2]
          decide
      · decide

end Codes

section Outcome

variable {alloc} {Ok : Ext2Fs → Prop} (h : AllocCodes alloc Ok)

include h

/-- `set_block_number` writes and allocates. -/
theorem setBlockNumber_ok {fs : Ext2Fs} {inode : Nat → UInt8} {ino iblock rblock : Nat}
    {r : Ext2Fs × (Nat → UInt8)} (hok : Ok fs)
    (hr : setBlockNumber alloc fs inode ino iblock rblock = some r) : Ok r.1 := by
  have hkeeps : ∀ {fs : Ext2Fs}, Ok fs → Ok (allocBlockNo alloc fs).2 := fun hok => h.keeps _ hok
  unfold setBlockNumber at hr
  dsimp only at hr
  split at hr
  · obtain rfl := Option.some.inj hr
    exact h.writeInode hok _ _
  · split at hr
    · -- the singly indirect block
      rw [makeSingly] at hr
      split at hr
      · obtain rfl := Option.some.inj hr
        exact hkeeps hok
      · next fs' inode' hmade =>
          obtain rfl := Option.some.inj hr
          have hmid : Ok fs' := by
            dsimp only at hmade
            split at hmade
            · split at hmade
              · cases hmade
              · obtain ⟨rfl, -⟩ := Prod.mk.inj (Option.some.inj hmade)
                exact h.writeBlock (h.writeInode (hkeeps hok) _ _) _ _
            · obtain ⟨rfl, -⟩ := Prod.mk.inj (Option.some.inj hmade)
              exact hok
          exact h.writeBlock hmid _ _
    · split at hr
      · split at hr
        · obtain rfl := Option.some.inj hr
          exact hkeeps hok
        · next fs' inode' hmade =>
            have hmid : Ok fs' := by
              split at hmade
              · split at hmade
                · cases hmade
                · obtain ⟨rfl, -⟩ := Prod.mk.inj (Option.some.inj hmade)
                  exact h.writeInode (hkeeps hok) _ _
              · obtain ⟨rfl, -⟩ := Prod.mk.inj (Option.some.inj hmade)
                exact hok
            split at hr
            · split at hr
              · obtain rfl := Option.some.inj hr
                exact hkeeps hmid
              · obtain rfl := Option.some.inj hr
                exact h.writeBlock (h.writeBlock (hkeeps hmid) _ _) _ _
            · obtain rfl := Option.some.inj hr
              exact h.writeBlock hmid _ _
      · cases hr

/-- `allocate_inode_block` returns what the allocator did. -/
theorem allocateInodeBlock_ret {fs : Ext2Fs} {inode : Nat → UInt8} {ino block : Nat}
    {r : BlockResult} (hok : Ok fs) (hr : allocateInodeBlock alloc fs inode ino block = some r) :
    r.ret = (alloc fs).1 ∧ Ok r.fs := by
  rw [allocateInodeBlock] at hr
  dsimp only at hr
  rw [if_neg (h.no_zero hok).1] at hr
  obtain ⟨s, hs, rfl⟩ := Option.map_eq_some_iff.mp hr
  have hset := setBlockNumber_ok h (h.keeps fs hok) hs
  exact ⟨(h.no_zero hok).2, h.writeInode (h.writeBlock hset _ _) _ _⟩

theorem addBlocks_ok {ino : Nat} {n i : Nat} {s t : Ext2Fs × (Nat → UInt8)} (hok : Ok s.1)
    (ht : addBlocks alloc ino i n s = some t) : Ok t.1 := by
  induction n generalizing i s with
  | zero =>
      obtain rfl := Option.some.inj ht
      exact hok
  | succ n ih =>
      obtain ⟨r, hr, hrest⟩ := Option.bind_eq_some_iff.mp ht
      exact ih (allocateInodeBlock_ret h hok hr).2 hrest

theorem ext2InodeAddBlock_ret {fs : Ext2Fs} {inode : Nat → UInt8} {ino min : Nat}
    {r : BlockResult} (hok : Ok fs) (hr : ext2InodeAddBlock alloc fs min ino inode = some r) :
    r.ret ≠ -enospc ∧ Ok r.fs := by
  obtain ⟨s, hs, hlast⟩ := Option.bind_eq_some_iff.mp hr
  have hmid := addBlocks_ok h hok hs
  obtain ⟨hret, hfs⟩ := allocateInodeBlock_ret h hmid hlast
  exact ⟨hret ▸ h.ne_enospc hmid, hfs⟩

/-- What a block of a write leaves. -/
def StepOk (Ok : Ext2Fs → Prop) : Int × Ext2Fs ⊕ WriteState → Prop
  | .inl e => e.1 ≠ -enospc
  | .inr st => Ok st.fs

theorem writeOneBlock_ok {ino b dst src len : Nat} {buf : Nat → UInt8} {st : WriteState}
    {r : Int × Ext2Fs ⊕ WriteState} (hok : Ok st.fs)
    (hr : writeOneBlock alloc ino buf st b dst src len = some r) : StepOk Ok r := by
  obtain ⟨x, hx, rfl⟩ := Option.map_eq_some_iff.mp hr
  have hcreate : x.1.ret ≠ -enospc ∧ Ok x.1.fs ∨ 0 ≤ x.1.ret ∧ Ok x.1.fs := by
    rw [ext2InodeReadOrCreate] at hx
    split at hx
    · obtain ⟨y, hy, rfl⟩ := Option.map_eq_some_iff.mp hx
      exact .inl (ext2InodeAddBlock_ret h hok hy)
    · next hpos =>
        obtain rfl := Option.some.inj hx
        exact .inr ⟨(not_le.mp hpos).le, hok⟩
  split
  · next hneg =>
      rcases hcreate with ⟨hne, -⟩ | ⟨hpos, -⟩
      · exact hne
      · exact absurd hneg (not_lt.mpr hpos)
  · have hfs : Ok x.1.fs := hcreate.elim And.right And.right
    exact h.writeBlock hfs _ _

theorem writeLoop_ok {ino bs startBlock coff n k : Nat} {buf : Nat → UInt8} {st : WriteState}
    {r : Int × Ext2Fs ⊕ WriteState} (hok : Ok st.fs)
    (hr : writeLoop alloc ino bs startBlock coff buf k n st = some r) : StepOk Ok r := by
  induction n generalizing k st with
  | zero =>
      obtain rfl := Option.some.inj hr
      exact hok
  | succ n ih =>
      rw [writeLoop] at hr
      obtain ⟨x, hx, hrest⟩ := Option.bind_eq_some_iff.mp hr
      have hone : StepOk Ok x := by
        split at hx <;> exact writeOneBlock_ok h hok hx
      cases x with
      | inl e =>
          obtain rfl := Option.some.inj hrest
          exact hone
      | inr st' => exact ih hone hrest

theorem writeBlocks_ok {ino bs fpos fileEnd : Nat} {buf : Nat → UInt8} {st : WriteState}
    {r : Int × Ext2Fs ⊕ WriteState} (hok : Ok st.fs)
    (hr : writeBlocks alloc ino bs fpos fileEnd buf st = some r) : StepOk Ok r := by
  rw [writeBlocks] at hr
  split at hr
  · exact writeOneBlock_ok h hok hr
  · obtain ⟨x, hx, hrest⟩ := Option.bind_eq_some_iff.mp hr
    have hloop := writeLoop_ok h hok hx
    cases x with
    | inl e =>
        obtain rfl := Option.some.inj hrest
        exact hloop
    | inr st' =>
        dsimp only at hrest
        split at hrest
        · exact writeOneBlock_ok h hloop hrest
        · obtain rfl := Option.some.inj hrest
          exact hloop

end Outcome

/-- **A full disk.** Whenever a call of the allocator fails inside one of the
four functions, the function does not do what it should: none of them ever
returns `-ENOSPC`. -/
theorem ext2_disk_full {Ok : Ext2Fs → Prop} {op : BlockOp} {failed : Ext2Fs}
    (h : AllocCodes alloc Ok) (hok : Ok op.fs) (hfails : AllocFails alloc op failed) :
    ¬ DiskFullSafe alloc op failed := by
  rintro ⟨fs', hout, -⟩
  cases op with
  | setNumber fs inode ino iblock rblock =>
      obtain ⟨r, -, heq⟩ := Option.map_eq_some_iff.mp hout
      exact setBlockNumberRet_ne h hok inode ino iblock (Prod.mk.inj heq).1
  | allocate fs inode ino block =>
      obtain ⟨r, hr, heq⟩ := Option.map_eq_some_iff.mp hout
      have hret := (allocateInodeBlock_ret h hok hr).1
      exact h.ne_enospc hok (hret.symm.trans (Prod.mk.inj heq).1)
  | addBlock fs min ino inode =>
      obtain ⟨r, hr, heq⟩ := Option.map_eq_some_iff.mp hout
      exact (ext2InodeAddBlock_ret h hok hr).1 (Prod.mk.inj heq).1
  | write junk fs f buf count =>
      obtain ⟨r, hr, heq⟩ := Option.map_eq_some_iff.mp hout
      cases hfails with
      | write hcount hino hread _ _ _ =>
          rw [ext2WriteFile, if_neg hcount, if_neg (not_lt.mpr hino)] at hr
          dsimp only at hr
          rw [hread] at hr
          obtain ⟨x, hx, rfl⟩ := Option.map_eq_some_iff.mp hr
          have hblocks := writeBlocks_ok h hok hx
          cases x with
          | inl e => exact hblocks (Prod.mk.inj heq).1
          | inr st =>
              have htotal : ((st.total : Nat) : Int) = -enospc := (Prod.mk.inj heq).1
              rw [enospc] at htotal
              omega

/-! ## The allocator of the code -/

/-- All block numbers are positive as `int`. -/
def NumbersFit (fs : Ext2Fs) : Prop := fs.numberOfBgs * le32 fs.sb sbBlocksInBlockgroup < 2 ^ 31

theorem allocBlock_codes : AllocCodes allocBlock NumbersFit := by
  have hcases : ∀ fs, allocBlock fs = (-1, fs) ∨ allocBlock fs = (-enomem, fs) ∨
      ∃ g found bits, g < fs.numberOfBgs ∧ found < le32 fs.sb sbBlocksInBlockgroup ∧
        allocBlock fs = allocCommit .block fs (ext2ReadBlock fs fs.firstBgd) g found bits := by
    intro fs
    rw [allocBlock]
    cases halloc : ext2AllocBlock (fun _ => true) fs with
    | none => exact .inl rfl
    | some r =>
        rw [Option.getD_some]
        rcases ext2AllocBlock_cases halloc with hr | hr | ⟨g, found, bits, hg, hfound, -, hr⟩
        · exact .inl hr
        · exact .inr (.inl hr)
        · exact .inr (.inr ⟨g, found, bits, hg, hfound, hr⟩)
  constructor
  · intro fs hfit
    rcases hcases fs with heq | heq | ⟨g, found, bits, hg, hfound, heq⟩
    · exact .inl (congrArg Prod.fst heq)
    · exact .inr (.inl (congrArg Prod.fst heq))
    · right
      right
      have hle : (g + 1) * le32 fs.sb sbBlocksInBlockgroup ≤
          fs.numberOfBgs * le32 fs.sb sbBlocksInBlockgroup := Nat.mul_le_mul_right _ hg
      rw [NumbersFit] at hfit
      rw [Nat.add_mul, Nat.one_mul] at hle
      have hret : (allocBlock fs).1 =
          i32 (u32 (g * le32 fs.sb sbBlocksInBlockgroup + found + 1)) := congrArg Prod.fst heq
      rw [hret, u32_of_lt (by omega), i32, if_pos (by omega)]
      omega
  · intro fs hfit
    rcases hcases fs with heq | heq | ⟨g, found, bits, -, -, heq⟩
    · rw [heq]
      exact hfit
    · rw [heq]
      exact hfit
    · have hper : le32 (put32 fs.sb sbUnallocatedblocks
          (u32Sub (le32 fs.sb sbUnallocatedblocks) 1)) sbBlocksInBlockgroup =
          le32 fs.sb sbBlocksInBlockgroup := le32_put32_of_ne (by decide)
      rw [heq]
      show fs.numberOfBgs * le32 (put32 fs.sb sbUnallocatedblocks
          (u32Sub (le32 fs.sb sbUnallocatedblocks) 1)) sbBlocksInBlockgroup < 2 ^ 31
      rw [hper]
      exact hfit
  · exact fun fs d hfit => hfit

/-- A filesystem without a free block, where the inode table is in block 5. -/
def fullFs : Ext2Fs where
  disk := put32 (fun _ => 0) (2048 + bgdInodeTable) 5
  sb := put32 (put32 (fun _ => 0) sbInodesInBlockgroup 16) sbBlocksInBlockgroup 64
  firstBgd := 2
  numberOfBgs := 1
  blocksize := 1024
  inodesize := 128
  sectorsPerBlock := 2
  inodesPerBlock := 8

/-- One byte for the empty file of inode 12. -/
def writeFull : BlockOp := .write (fun _ _ => 0) fullFs ⟨12, 0, 0⟩ (fun _ => 7) 1

theorem writeFull_fails : AllocFails allocBlock writeFull fullFs := by
  have halloc : allocBlock fullFs = (-1, fullFs) := rfl
  have hfails : (allocBlock fullFs).1 < 0 := by
    rw [halloc]
    decide
  have hdata : AllocFails allocBlock
      (.allocate fullFs (reReadInode fullFs (reReadInode fullFs (fun _ => 0) 12) 12) 12 0)
      (allocBlock fullFs).2 := .data hfails
  rw [halloc] at hdata
  refine .write (by decide) (by decide) rfl (.single (by decide)) (by decide +kernel) ?_
  exact .added rfl rfl hdata

theorem ext2_disk_full_write : ¬ DiskFullSafe allocBlock writeFull fullFs :=
  ext2_disk_full allocBlock allocBlock_codes (by rw [NumbersFit]; decide) writeFull_fails

/-- The write returns -1, and the inode's first block is then 0xFFFFFFFF. -/
theorem ext2_disk_full_pointer : AllocFails allocBlock writeFull fullFs ∧
    ∃ fs', writeFull.outcome allocBlock = some (-1, fs') ∧
      le32 fullFs.disk (1024 * 6 + 384 + inoDbp) = 0 ∧
      le32 fs'.disk (1024 * 6 + 384 + inoDbp) = 0xFFFFFFFF ∧
      ¬ DiskFullSafe allocBlock writeFull fullFs := by
  have hrun : (writeFull.outcome allocBlock).map
      (fun r => decide (r.1 = -1 ∧ le32 r.2.disk (1024 * 6 + 384 + inoDbp) = 0xFFFFFFFF)) =
      some true := by decide +kernel
  obtain ⟨⟨ret, fs'⟩, hout, hall⟩ := Option.map_eq_some_iff.mp hrun
  obtain ⟨hret, hpointer⟩ := of_decide_eq_true hall
  obtain rfl : ret = -1 := hret
  refine ⟨writeFull_fails, fs', hout, by decide, hpointer, ?_⟩
  rintro ⟨fs'', hsafe, -⟩
  have hcode := (Prod.mk.inj (Option.some.inj (hout.symm.trans hsafe))).1
  exact absurd hcode (by decide)

end Levos.Fs
