import Levos.Base.Run
import Levos.Fs.Ext2.File
import Levos.Kernel.FileTable
import Mathlib.Data.BitVec
import Mathlib.Tactic

/-!
# File positions (`kernel/syscall.c`, `fs/ext2/file.c`)

`sys_lseek` moves `fpos` in `int` arithmetic, which wraps around, and
`ext2_read_file` and `ext2_write_file` move it by the bytes they transfer. For
`SEEK_END` the check adds the offset to `fpos`, the assignment to `length`.

`positions_safe_iff` says in which runs every seek does the right thing and no
position gets negative.
-/

namespace Levos.Kernel

open Levos.Base

/-! ## Data model -/

def seekSet : Int := 0
def seekCur : Int := 1
def seekEnd : Int := 2
def fileTypePipe : Int := 3
def espipe : Int := 29

/-- What `struct file` has for positions. -/
structure SeekFile where
  fpos : BitVec 32
  length : BitVec 32
  type : Int
deriving DecidableEq, Repr

/-! ## `sys_lseek` -/

/-- `sys_lseek` on the file. -/
def seekFile (f : SeekFile) (off : BitVec 32) (whence : Int) : Int × SeekFile :=
  if (whence = seekSet ∧ off.toInt < 0) ∨
      (whence = seekCur ∧ (f.fpos + off).toInt < 0) ∨
      (whence = seekEnd ∧ (f.fpos + off).toInt < 0) then (-einval, f)
  else
    let f :=
      if whence = seekSet then { f with fpos := off }
      else if whence = seekCur then { f with fpos := f.fpos + off }
      else if whence = seekEnd then { f with fpos := f.length + off }
      else f
    (f.fpos.toInt, f)

/-- `sys_lseek`; `files` are the open files that slots of the table point to. -/
def sysLseek (t : FdTask) (files : Nat → SeekFile) (fd : Int) (off : BitVec 32) (whence : Int) :
    Int × (Nat → SeekFile) :=
  match fdLookup t fd with
  | none => (-ebadf, files)
  | some (_, k) =>
      if (files k).type = fileTypePipe then (-espipe, files)
      else
        ((seekFile (files k) off whence).1,
          Function.update files k (seekFile (files k) off whence).2)

/-! ## Reading and writing -/

/-- `total` after so many rounds of the loop over the blocks before the last. -/
def loopTotal (bs coff : BitVec 32) : Nat → BitVec 32
  | 0 => 0
  | 1 => bs - coff
  | n + 2 => loopTotal bs coff (n + 1) + bs

/-- What `ext2_read_file` and `ext2_write_file` count up in `total` between
`fpos` and `end`. -/
def transferTotal (bs fpos fileEnd : BitVec 32) : BitVec 32 :=
  let startBlock := fpos.sdiv bs
  let endBlock := fileEnd / bs
  let endSize := fileEnd - endBlock * bs
  if startBlock = endBlock then fileEnd - fpos
  else
    let total := loopTotal bs (fpos.srem bs) (endBlock.toNat - startBlock.toNat)
    if endSize ≠ 0 then total + endSize else total

/-- `end` in `ext2_read_file`; `size` is that of the inode. -/
def readEnd (f : SeekFile) (count size : BitVec 32) : BitVec 32 :=
  if (f.fpos + count).toNat > size.toNat then size else f.fpos + count

/-- What `ext2_read_file` does to the file; `ok` is whether it gets its inode
and buffers. -/
def ext2ReadPos (bs : BitVec 32) (f : SeekFile) (count size : BitVec 32) (ok : Bool) : SeekFile :=
  if count = 0 ∨ ¬ok ∨ f.fpos.toNat ≥ size.toNat then f
  else { f with fpos := f.fpos + transferTotal bs f.fpos (readEnd f count size) }

/-- What `ext2_write_file` does to the file; `ok` is whether it gets its inode,
its buffer and all its blocks. -/
def ext2WritePos (bs : BitVec 32) (f : SeekFile) (count size : BitVec 32) (ok : Bool) : SeekFile :=
  if count = 0 ∨ ¬ok then f
  else
    { f with
      length := if (f.fpos + count).toNat > size.toNat then f.fpos + count else f.length
      fpos := f.fpos + transferTotal bs f.fpos (f.fpos + count) }

/-! ## Runs -/

/-- A seek through a descriptor, or a transfer on a file of ext2, with the size
of the inode then. -/
inductive PosOp : Type where
  | lseek (fd : Int) (off : BitVec 32) (whence : Int)
  | read (k : Nat) (count size : BitVec 32) (ok : Bool)
  | write (k : Nat) (count size : BitVec 32) (ok : Bool)

variable (t : FdTask) (bs : BitVec 32)

def posStep (files : Nat → SeekFile) : PosOp → Option (Nat → SeekFile)
  | .lseek fd off whence => some (sysLseek t files fd off whence).2
  | .read k count size ok =>
      some (Function.update files k (ext2ReadPos bs (files k) count size ok))
  | .write k count size ok =>
      some (Function.update files k (ext2WritePos bs (files k) count size ok))

/-- The value fits in an `int` and is not negative. -/
def Position (x : Int) : Prop := 0 ≤ x ∧ x < 2 ^ 31

instance (x : Int) : Decidable (Position x) := inferInstanceAs (Decidable (_ ∧ _))

/-- What an offset is added to. -/
def seekBase (f : SeekFile) (whence : Int) : Option Int :=
  if whence = seekSet then some 0
  else if whence = seekCur then some f.fpos.toInt
  else if whence = seekEnd then some f.length.toInt
  else none

/-- The seek sets the position to the sum, or is refused when that is no
position. -/
def SeekRight (f : SeekFile) (off : BitVec 32) (whence : Int) (r : Int × SeekFile) : Prop :=
  match seekBase f whence with
  | some base =>
      if Position (base + off.toInt) then
        r = (base + off.toInt, { f with fpos := BitVec.ofInt 32 (base + off.toInt) })
      else r = (-einval, f)
  | none => r = (-einval, f)

/-- A seek on a seekable file is right, and leaves the other files alone. -/
def StepRight (files : Nat → SeekFile) : PosOp → Prop
  | .lseek fd off whence =>
      ∀ x ∈ fdLookup t fd, (files x.2).type ≠ fileTypePipe →
        ∃ r, SeekRight (files x.2) off whence r ∧
          sysLseek t files fd off whence = (r.1, Function.update files x.2 r.2)
  | _ => True

/-- In a run, every seek is right and no file has a negative position at any
time. -/
def PositionsSafe (files : Nat → SeekFile) (ops : List PosOp) : Prop :=
  RunRight (posStep t bs) (fun files => ∀ k, 0 ≤ (files k).fpos.toInt) (StepRight t) files ops

/-! ## When it is so -/

/-- For `SEEK_END`, the sum with the length is a position where the one with
`fpos` is. -/
def SeekFits (f : SeekFile) (off : BitVec 32) (whence : Int) : Prop :=
  whence = seekSet ∨ whence = seekCur ∨
    whence = seekEnd ∧
      (Position (f.length.toInt + off.toInt) ↔ Position (f.fpos.toInt + off.toInt))

/-- The transfer ends below 2 GiB. With a negative count it may end in a block
before the first; then the part of that block is added to `fpos`. -/
def TransferFits (fpos fileEnd : Nat) : Prop :=
  if fpos / bs.toNat ≤ fileEnd / bs.toNat then fileEnd < 2 ^ 31
  else fpos + fileEnd % bs.toNat < 2 ^ 31

instance (f : SeekFile) (off : BitVec 32) (whence : Int) : Decidable (SeekFits f off whence) :=
  inferInstanceAs (Decidable (_ ∨ _))

instance (fpos fileEnd : Nat) : Decidable (TransferFits bs fpos fileEnd) :=
  inferInstanceAs (Decidable (ite ..))

/-- The condition on an operation. -/
def OpFits (files : Nat → SeekFile) : PosOp → Prop
  | .lseek fd off whence =>
      ∀ x ∈ fdLookup t fd, (files x.2).type ≠ fileTypePipe → SeekFits (files x.2) off whence
  | .read k count size ok =>
      count = 0 ∨ ok = false ∨ size.toNat ≤ (files k).fpos.toNat ∨
        TransferFits bs (files k).fpos.toNat (readEnd (files k) count size).toNat
  | .write k count _ ok =>
      count = 0 ∨ ok = false ∨
        TransferFits bs (files k).fpos.toNat ((files k).fpos + count).toNat

instance (files : Nat → SeekFile) : ∀ op, Decidable (OpFits t bs files op)
  | .lseek fd _ _ => inferInstanceAs (Decidable (∀ x ∈ fdLookup t fd, _))
  | .read _ _ _ _ => inferInstanceAs (Decidable (_ ∨ _))
  | .write _ _ _ _ => inferInstanceAs (Decidable (_ ∨ _))

/-! ## Seeks -/

/-- Addition in `int`. -/
theorem toInt_add_cases (x y : BitVec 32) :
    (x + y).toInt =
      if x.toInt + y.toInt < -2 ^ 31 then x.toInt + y.toInt + 2 ^ 32
      else if x.toInt + y.toInt < 2 ^ 31 then x.toInt + y.toInt
      else x.toInt + y.toInt - 2 ^ 32 := by
  have hx := BitVec.le_toInt x
  have hx' := BitVec.toInt_lt (x := x)
  have hy := BitVec.le_toInt y
  have hy' := BitVec.toInt_lt (x := y)
  rw [BitVec.toInt_add, Int.bmod]
  omega

/-- From a position, the sum is a position or gets negative. -/
theorem toInt_add_neg_iff {x y : BitVec 32} (hx : 0 ≤ x.toInt) :
    (x + y).toInt < 0 ↔ ¬Position (x.toInt + y.toInt) := by
  have hx' := BitVec.toInt_lt (x := x)
  have hy := BitVec.le_toInt y
  have hy' := BitVec.toInt_lt (x := y)
  rw [toInt_add_cases, Position]
  omega

theorem toInt_add_of_position {x y : BitVec 32} (h : Position (x.toInt + y.toInt)) :
    (x + y).toInt = x.toInt + y.toInt := by
  obtain ⟨hlo, hhi⟩ := h
  rw [toInt_add_cases]
  omega

theorem ofInt_add_toInt (x y : BitVec 32) : BitVec.ofInt 32 (x.toInt + y.toInt) = x + y := by
  rw [BitVec.ofInt_add, BitVec.ofInt_toInt, BitVec.ofInt_toInt]

theorem seekFile_set (f : SeekFile) (off : BitVec 32) :
    SeekRight f off seekSet (seekFile f off seekSet) := by
  have hoff := BitVec.toInt_lt (x := off)
  have hbase : seekBase f seekSet = some 0 := rfl
  rw [SeekRight, hbase]
  dsimp only
  rw [Int.zero_add, BitVec.ofInt_toInt]
  unfold seekFile
  by_cases hneg : off.toInt < 0
  · rw [if_neg fun hpos => absurd hpos.1 (not_le.mpr hneg), if_pos (Or.inl ⟨rfl, hneg⟩)]
  · rw [if_pos ⟨not_lt.mp hneg, hoff⟩, if_neg (by simp [hneg, seekSet, seekCur, seekEnd])]
    rfl

theorem seekFile_cur {f : SeekFile} (hf : 0 ≤ f.fpos.toInt) (off : BitVec 32) :
    SeekRight f off seekCur (seekFile f off seekCur) := by
  have hbase : seekBase f seekCur = some f.fpos.toInt := rfl
  rw [SeekRight, hbase]
  dsimp only
  unfold seekFile
  by_cases hpos : Position (f.fpos.toInt + off.toInt)
  · have hsum := toInt_add_of_position hpos
    rw [if_pos hpos, ofInt_add_toInt, if_neg]
    · rw [← hsum]
      rfl
    · rw [toInt_add_neg_iff hf]
      simp [hpos, seekSet, seekCur, seekEnd]
  · rw [if_neg hpos, if_pos (Or.inr (Or.inl ⟨rfl, (toInt_add_neg_iff hf).mpr hpos⟩))]

/-- The check looks at one sum, the assignment at another. -/
theorem seekFile_end {f : SeekFile} (hf : 0 ≤ f.fpos.toInt) (off : BitVec 32) :
    SeekRight f off seekEnd (seekFile f off seekEnd) ↔
      (Position (f.length.toInt + off.toInt) ↔ Position (f.fpos.toInt + off.toInt)) := by
  have hbase : seekBase f seekEnd = some f.length.toInt := rfl
  rw [SeekRight, hbase]
  dsimp only
  by_cases hcheck : Position (f.fpos.toInt + off.toInt)
  · have hset : seekFile f off seekEnd =
        ((f.length + off).toInt, { f with fpos := f.length + off }) := by
      unfold seekFile
      rw [if_neg]
      · rfl
      · rw [toInt_add_neg_iff hf]
        simp [hcheck, seekSet, seekCur, seekEnd]
    rw [hset]
    by_cases hpos : Position (f.length.toInt + off.toInt)
    · rw [if_pos hpos, toInt_add_of_position hpos, ofInt_add_toInt]
      exact iff_of_true rfl (iff_of_true hpos hcheck)
    · -- the file keeps its position only if it is set to what it was
      rw [if_neg hpos]
      refine iff_of_false (fun heq => ?_) (fun h => hpos (h.mpr hcheck))
      have hret : (f.length + off).toInt = -einval := congrArg Prod.fst heq
      have hsame : f.length + off = f.fpos := congrArg (fun r => r.2.fpos) heq
      rw [hsame, einval] at hret
      omega
  · have hrefused : seekFile f off seekEnd = (-einval, f) := by
      unfold seekFile
      rw [if_pos (Or.inr (Or.inr ⟨rfl, (toInt_add_neg_iff hf).mpr hcheck⟩))]
    rw [hrefused]
    by_cases hpos : Position (f.length.toInt + off.toInt)
    · rw [if_pos hpos]
      refine iff_of_false (fun heq => ?_) (fun h => hcheck (h.mp hpos))
      have hret : -einval = f.length.toInt + off.toInt := congrArg Prod.fst heq
      have hnonneg := hpos.1
      rw [einval] at hret
      omega
    · rw [if_neg hpos]
      exact iff_of_true rfl (iff_of_false hpos hcheck)

/-- Another `whence` has no base, and is not refused. -/
theorem seekFile_other {f : SeekFile} (hf : 0 ≤ f.fpos.toInt) (off : BitVec 32) {whence : Int}
    (hset : whence ≠ seekSet) (hcur : whence ≠ seekCur) (hend : whence ≠ seekEnd) :
    ¬SeekRight f off whence (seekFile f off whence) := by
  have hbase : seekBase f whence = none := by
    rw [seekBase, if_neg hset, if_neg hcur, if_neg hend]
  have hseek : seekFile f off whence = (f.fpos.toInt, f) := by
    unfold seekFile
    rw [if_neg (by simp [hset, hcur, hend]), if_neg hset, if_neg hcur, if_neg hend]
  rw [SeekRight, hbase, hseek]
  intro heq
  have hret : f.fpos.toInt = -einval := congrArg Prod.fst heq
  rw [einval] at hret
  omega

/-- **One seek.** -/
theorem seekRight_iff {f : SeekFile} (hf : 0 ≤ f.fpos.toInt) (off : BitVec 32) (whence : Int) :
    SeekRight f off whence (seekFile f off whence) ↔ SeekFits f off whence := by
  unfold SeekFits
  by_cases hset : whence = seekSet
  · rw [hset]
    exact iff_of_true (seekFile_set f off) (Or.inl rfl)
  by_cases hcur : whence = seekCur
  · rw [hcur]
    exact iff_of_true (seekFile_cur hf off) (Or.inr (Or.inl rfl))
  by_cases hend : whence = seekEnd
  · rw [hend, seekFile_end hf]
    constructor
    · exact fun h => Or.inr (Or.inr ⟨rfl, h⟩)
    · rintro (h | h | h)
      · cases h
      · cases h
      · exact h.2
  · refine iff_of_false (seekFile_other hf off hset hcur hend) ?_
    rintro (h | h | h)
    · exact hset h
    · exact hcur h
    · exact hend h.1

/-- A seek that is right keeps positions. -/
theorem SeekRight.nonneg {f : SeekFile} {off : BitVec 32} {whence : Int} {r : Int × SeekFile}
    (hf : 0 ≤ f.fpos.toInt) (h : SeekRight f off whence r) : 0 ≤ r.2.fpos.toInt := by
  unfold SeekRight at h
  split at h
  · rename_i base _
    split at h
    · rename_i hpos
      obtain ⟨hlo, hhi⟩ := hpos
      rw [h]
      show 0 ≤ (BitVec.ofInt 32 (base + off.toInt)).toInt
      rw [BitVec.toInt_ofInt_eq_self (by decide) (by omega) (by omega)]
      exact hlo
    · rw [h]
      exact hf
  · rw [h]
    exact hf

/-! ## Transfers -/

theorem loopTotal_succ (bs coff : BitVec 32) (n : Nat) :
    loopTotal bs coff (n + 1) = BitVec.ofNat 32 (n + 1) * bs - coff := by
  induction n with
  | zero =>
      rw [loopTotal]
      show bs - coff = 1#32 * bs - coff
      rw [BitVec.one_mul]
  | succ n ih =>
      rw [loopTotal, ih, BitVec.ofNat_add (n + 1) 1]
      show _ = (BitVec.ofNat 32 (n + 1) + 1) * bs - coff
      ring

theorem udiv_mul_add_umod (x y : BitVec 32) : x / y * y + x % y = x := by
  have hle : x.toNat / y.toNat * y.toNat ≤ x.toNat := Nat.div_mul_le_self _ _
  apply BitVec.eq_of_toNat_eq
  rw [BitVec.toNat_add, BitVec.toNat_mul, BitVec.toNat_udiv, BitVec.toNat_umod,
    Nat.mod_eq_of_lt (hle.trans_lt x.isLt), Nat.div_add_mod', Nat.mod_eq_of_lt x.isLt]

theorem msb_of_nonneg {x : BitVec 32} (h : 0 ≤ x.toInt) : x.msb = false := by
  rw [BitVec.msb_eq_toInt]
  exact decide_eq_false (not_lt.mpr h)

variable {bs}

/-- `total` in closed form, on a position. -/
theorem transferTotal_eq {fpos : BitVec 32} (hf : 0 ≤ fpos.toInt) (hbs : 0 ≤ bs.toInt)
    (fileEnd : BitVec 32) :
    transferTotal bs fpos fileEnd =
      if fpos / bs = fileEnd / bs then fileEnd - fpos
      else
        loopTotal bs (fpos % bs) ((fileEnd / bs).toNat - (fpos / bs).toNat) + fileEnd % bs := by
  have hsize : fileEnd - fileEnd / bs * bs = fileEnd % bs :=
    sub_eq_of_eq_add' (udiv_mul_add_umod fileEnd bs).symm
  unfold transferTotal
  rw [BitVec.sdiv_eq, BitVec.srem_eq, msb_of_nonneg hf, msb_of_nonneg hbs]
  dsimp only
  rw [BitVec.udiv_eq, hsize]
  by_cases hzero : fileEnd % bs = 0
  · rw [if_neg (not_not.mpr hzero), hzero]
    simp
  · rw [if_pos hzero]

/-- **Where a transfer leaves the position.** -/
theorem transfer_pos {fpos : BitVec 32} (hf : 0 ≤ fpos.toInt) (hbs : 0 ≤ bs.toInt)
    (fileEnd : BitVec 32) :
    fpos + transferTotal bs fpos fileEnd =
      if fpos.toNat / bs.toNat ≤ fileEnd.toNat / bs.toNat then fileEnd
      else fpos + fileEnd % bs := by
  rw [transferTotal_eq hf hbs, ← BitVec.toNat_udiv, ← BitVec.toNat_udiv]
  by_cases heq : fpos / bs = fileEnd / bs
  · rw [if_pos heq, if_pos (congrArg BitVec.toNat heq).le]
    ring
  · have hne : (fpos / bs).toNat ≠ (fileEnd / bs).toNat := fun h =>
      heq (BitVec.eq_of_toNat_eq h)
    rw [if_neg heq]
    by_cases hle : (fpos / bs).toNat ≤ (fileEnd / bs).toNat
    · obtain ⟨n, hn⟩ : ∃ n, (fileEnd / bs).toNat - (fpos / bs).toNat = n + 1 :=
        Nat.exists_eq_succ_of_ne_zero (by omega)
      have hblocks : BitVec.ofNat 32 (n + 1) = fileEnd / bs - fpos / bs := by
        rw [← hn, ← BitVec.ofNat_sub_ofNat_of_le _ _ (BitVec.isLt _) hle, BitVec.ofNat_toNat,
          BitVec.ofNat_toNat, BitVec.setWidth_eq, BitVec.setWidth_eq]
      rw [if_pos hle, hn, loopTotal_succ, hblocks]
      -- the blocks before `fpos` and the bytes of its own block make up `fpos`
      calc fpos + ((fileEnd / bs - fpos / bs) * bs - fpos % bs + fileEnd % bs)
          = fpos - (fpos / bs * bs + fpos % bs) + (fileEnd / bs * bs + fileEnd % bs) := by ring
        _ = fileEnd := by
            rw [udiv_mul_add_umod, udiv_mul_add_umod]
            ring
    · rw [if_neg hle, Nat.sub_eq_zero_of_le (by omega), loopTotal]
      ring

theorem transfer_nonneg_iff {fpos : BitVec 32} (hf : 0 ≤ fpos.toInt) (hbs : 0 ≤ bs.toInt)
    (fileEnd : BitVec 32) :
    0 ≤ (fpos + transferTotal bs fpos fileEnd).toInt ↔
      TransferFits bs fpos.toNat fileEnd.toNat := by
  have hnonneg : ∀ x : BitVec 32, 0 ≤ x.toInt ↔ x.toNat < 2 ^ 31 := by
    intro x
    have := x.isLt
    rw [BitVec.toInt_eq_toNat_cond]
    omega
  have hfpos := (hnonneg fpos).mp hf
  rw [transfer_pos hf hbs, TransferFits, hnonneg]
  split
  · rfl
  · rename_i hback
    have hpos : 0 < bs.toNat := by
      by_contra hzero
      rw [Nat.eq_zero_of_not_pos hzero, Nat.div_zero, Nat.div_zero] at hback
      exact hback le_rfl
    have hmod : fileEnd.toNat % bs.toNat < 2 ^ 31 :=
      (Nat.mod_lt _ hpos).trans ((hnonneg bs).mp hbs)
    rw [BitVec.toNat_add, BitVec.toNat_umod, Nat.mod_eq_of_lt (by omega)]

/-! ## The model of the data

`Fs.ext2WriteFile` writes the blocks, with positions as natural numbers. -/

section Ext2

open Levos.Fs

variable {alloc : Ext2Fs → Int × Ext2Fs} {ino blocksize : Nat} {buf : Nat → UInt8}

theorem writeOneBlock_total {st st' : WriteState} {b dst src len : Nat}
    (h : writeOneBlock alloc ino buf st b dst src len = some (.inr st')) :
    st'.total = st.total + len := by
  obtain ⟨r, -, hr⟩ := Option.map_eq_some_iff.mp h
  split at hr
  · cases hr
  · obtain rfl := Sum.inr.inj hr
    rfl

/-- The rounds after the first are whole blocks. -/
theorem writeLoop_total {startBlock coff n : Nat} :
    ∀ {k : Nat} {st st' : WriteState}, 0 < k →
      writeLoop alloc ino blocksize startBlock coff buf k n st = some (.inr st') →
      st'.total = st.total + n * blocksize := by
  induction n with
  | zero =>
      intro k st st' _ h
      obtain rfl := Sum.inr.inj (Option.some.inj h)
      omega
  | succ n ih =>
      intro k st st' hk h
      rw [writeLoop, if_neg (by omega)] at h
      obtain ⟨r, hone, h⟩ := Option.bind_eq_some_iff.mp h
      cases r with
      | inl e => cases h
      | inr st₁ =>
          rw [ih (Nat.succ_pos k) h, writeOneBlock_total hone]
          ring

theorem writeBlocks_total {fpos fileEnd : Nat} {st st' : WriteState} (hle : fpos ≤ fileEnd)
    (h : writeBlocks alloc ino blocksize fpos fileEnd buf st = some (.inr st')) :
    st'.total = st.total + (fileEnd - fpos) := by
  have hfpos := Nat.div_add_mod' fpos blocksize
  have hfileEnd := Nat.div_add_mod' fileEnd blocksize
  unfold writeBlocks at h
  dsimp only at h
  split at h
  · exact writeOneBlock_total h
  · rename_i hne
    have hdiv : fpos / blocksize ≤ fileEnd / blocksize := Nat.div_le_div_right hle
    obtain ⟨n, hn⟩ : ∃ n, fileEnd / blocksize - fpos / blocksize = n + 1 :=
      Nat.exists_eq_succ_of_ne_zero (by omega)
    have hblocks : fileEnd / blocksize * blocksize =
        fpos / blocksize * blocksize + n * blocksize + blocksize := by
      rw [show fileEnd / blocksize = fpos / blocksize + n + 1 by omega]
      ring
    have hcoff : fpos % blocksize ≤ blocksize := by
      rcases Nat.eq_zero_or_pos blocksize with hzero | hpos
      · rw [hzero, Nat.div_zero, Nat.div_zero] at hne
        exact absurd rfl hne
      · exact (Nat.mod_lt _ hpos).le
    obtain ⟨r, hloop, h⟩ := Option.bind_eq_some_iff.mp h
    cases r with
    | inl e => cases h
    | inr st₁ =>
        rw [hn, writeLoop, if_pos rfl] at hloop
        obtain ⟨r, hone, hloop⟩ := Option.bind_eq_some_iff.mp hloop
        cases r with
        | inl e => cases hloop
        | inr st₂ =>
            have hfirst := writeOneBlock_total hone
            have hrest := writeLoop_total Nat.zero_lt_one hloop
            dsimp only at h
            split at h
            · have hlast := writeOneBlock_total h
              omega
            · obtain rfl := Sum.inr.inj (Option.some.inj h)
              omega

/-- What `ext2_write_file` does to the file at the end. -/
theorem writeDone_file (ino fileEnd : Nat) (f : Ext2File) (st : WriteState) :
    (writeDone ino fileEnd f st).2.2 =
      { f with
        length := if fileEnd > le32 (reReadInode st.fs st.inode ino) inoSize then fileEnd
          else f.length
        fpos := f.fpos + st.total } := by
  unfold writeDone
  dsimp only
  split
  · rfl
  · rfl

/-- The position part of a file of the data model. -/
def posOf (type : Int) (f : Ext2File) : SeekFile where
  fpos := BitVec.ofNat 32 f.fpos
  length := BitVec.ofNat 32 f.length
  type := type

theorem ofNat_toInt_nonneg {n : Nat} (h : n < 2 ^ 31) : 0 ≤ (BitVec.ofNat 32 n).toInt := by
  rw [BitVec.toInt_eq_toNat_cond, BitVec.toNat_ofNat, Nat.mod_eq_of_lt (by omega),
    if_pos (by omega)]
  omega

/-- **The two models of `ext2_write_file` agree** on the file, below 2 GiB. -/
theorem ext2WriteFile_pos {junk : Nat → Nat → UInt8} {fs : Ext2Fs} {f : Ext2File} {count : Nat}
    {r : Int × Ext2Fs × Ext2File} (hbs : fs.blocksize < 2 ^ 31) (hend : f.fpos + count < 2 ^ 31)
    (h : ext2WriteFile alloc junk fs f buf count = some r) (type : Int) :
    ∃ size ok, posOf type r.2.2 =
      ext2WritePos (BitVec.ofNat 32 fs.blocksize) (posOf type f) (BitVec.ofNat 32 count) size
        ok := by
  have hunmoved : r.2.2 = f → ∃ size ok, posOf type r.2.2 = ext2WritePos
      (BitVec.ofNat 32 fs.blocksize) (posOf type f) (BitVec.ofNat 32 count) size ok := by
    intro hf
    exact ⟨0, false, by rw [hf, ext2WritePos, if_pos (Or.inr Bool.false_ne_true)]⟩
  unfold ext2WriteFile at h
  split at h
  · obtain rfl := Option.some.inj h
    exact hunmoved rfl
  rename_i hcount
  split at h
  · obtain rfl := Option.some.inj h
    exact hunmoved rfl
  dsimp only at h
  split at h
  · obtain rfl := Option.some.inj h
    exact hunmoved rfl
  obtain ⟨s, hblocks, rfl⟩ := Option.map_eq_some_iff.mp h
  cases s with
  | inl e => exact hunmoved rfl
  | inr st =>
      have hword : u32 (f.fpos + count) = f.fpos + count := u32_of_lt (by omega)
      rw [hword] at hblocks ⊢
      have htotal : st.total = count := by
        rw [writeBlocks_total (Nat.le_add_right _ _) hblocks, Nat.zero_add,
          Nat.add_sub_cancel_left]
      have hmoved : BitVec.ofNat 32 f.fpos + BitVec.ofNat 32 count =
          BitVec.ofNat 32 (f.fpos + count) := (BitVec.ofNat_add _ _).symm
      have hval : ∀ n < 2 ^ 31, (BitVec.ofNat 32 n).toNat = n := fun n hn =>
        (BitVec.toNat_ofNat n 32).trans (Nat.mod_eq_of_lt (by omega))
      have hpos : BitVec.ofNat 32 f.fpos + transferTotal (BitVec.ofNat 32 fs.blocksize)
          (BitVec.ofNat 32 f.fpos) (BitVec.ofNat 32 (f.fpos + count)) =
            BitVec.ofNat 32 (f.fpos + count) := by
        rw [transfer_pos (ofNat_toInt_nonneg (by omega)) (ofNat_toInt_nonneg hbs),
          hval _ (by omega), hval _ hbs, hval _ hend, if_pos]
        exact Nat.div_le_div_right (Nat.le_add_right _ _)
      have hsome : ¬(BitVec.ofNat 32 count = 0 ∨ ¬true) := by
        rintro (hzero | htrue)
        · have hnat := congrArg BitVec.toNat hzero
          rw [hval _ (by omega)] at hnat
          exact hcount hnat
        · exact htrue rfl
      refine ⟨BitVec.ofNat 32 (le32 (reReadInode st.fs st.inode f.inodeNo.toNat) inoSize), true,
        ?_⟩
      rw [ext2WritePos, if_neg hsome]
      dsimp only
      rw [writeDone_file, htotal]
      refine (SeekFile.mk.injEq ..).mpr ⟨?_, ?_, rfl⟩
      · show _ = BitVec.ofNat 32 f.fpos + transferTotal _ (BitVec.ofNat 32 f.fpos)
          (BitVec.ofNat 32 f.fpos + BitVec.ofNat 32 count)
        rw [hmoved, hpos]
      · show BitVec.ofNat 32 (ite ..) =
          if (BitVec.ofNat 32 f.fpos + BitVec.ofNat 32 count).toNat > _ then
            BitVec.ofNat 32 f.fpos + BitVec.ofNat 32 count
          else BitVec.ofNat 32 f.length
        rw [hmoved, hval _ hend, BitVec.toNat_ofNat, Nat.mod_eq_of_lt (le32_lt _ _),
          apply_ite (BitVec.ofNat 32)]

end Ext2

/-! ## Operations -/

theorem sysLseek_seekable {t : FdTask} {files : Nat → SeekFile} {fd : Int}
    {x : Fin fdMax × Nat} (hfd : x ∈ fdLookup t fd)
    (hseekable : (files x.2).type ≠ fileTypePipe) (off : BitVec 32) (whence : Int) :
    sysLseek t files fd off whence =
      ((seekFile (files x.2) off whence).1,
        Function.update files x.2 (seekFile (files x.2) off whence).2) := by
  unfold sysLseek
  rw [Option.mem_def.mp hfd]
  dsimp only
  rw [if_neg hseekable]

theorem stepRight_lseek {t : FdTask} {files : Nat → SeekFile}
    (hfiles : ∀ k, 0 ≤ (files k).fpos.toInt) (fd : Int) (off : BitVec 32) (whence : Int) :
    StepRight t files (.lseek fd off whence) ↔ OpFits t bs files (.lseek fd off whence) := by
  constructor
  · intro h x hfd hseekable
    obtain ⟨r, hright, heq⟩ := h x hfd hseekable
    rw [sysLseek_seekable hfd hseekable] at heq
    obtain ⟨hret, hupdate⟩ := Prod.mk.inj heq
    rw [← Prod.ext hret (Function.update_injective files x.2 hupdate)] at hright
    exact (seekRight_iff (hfiles x.2) off whence).mp hright
  · intro h x hfd hseekable
    exact ⟨_, (seekRight_iff (hfiles x.2) off whence).mpr (h x hfd hseekable),
      sysLseek_seekable hfd hseekable off whence⟩

/-- A file is put in the place of another. -/
theorem update_nonneg {files : Nat → SeekFile} (hfiles : ∀ k, 0 ≤ (files k).fpos.toInt) (k : Nat)
    (f : SeekFile) :
    (∀ j, 0 ≤ (Function.update files k f j).fpos.toInt) ↔ 0 ≤ f.fpos.toInt := by
  constructor
  · intro h
    have hk := h k
    rw [Function.update_self] at hk
    exact hk
  · intro h j
    by_cases hj : j = k
    · rw [hj, Function.update_self]
      exact h
    · rw [Function.update_of_ne hj]
      exact hfiles j

theorem posStep_some (t : FdTask) (bs : BitVec 32) (files : Nat → SeekFile) (op : PosOp) :
    ∃ files', posStep t bs files op = some files' := by
  cases op with
  | lseek fd off whence => exact ⟨_, rfl⟩
  | read k count size ok => exact ⟨_, rfl⟩
  | write k count size ok => exact ⟨_, rfl⟩

/-- **One operation.** -/
theorem opFits_iff {t : FdTask} {files files' : Nat → SeekFile} {op : PosOp} (hbs : 0 < bs.toInt)
    (hfiles : ∀ k, 0 ≤ (files k).fpos.toInt) (h : posStep t bs files op = some files') :
    OpFits t bs files op ↔ StepRight t files op ∧ ∀ k, 0 ≤ (files' k).fpos.toInt := by
  cases op with
  | lseek fd off whence =>
      obtain rfl := Option.some.inj h
      rw [← stepRight_lseek hfiles]
      refine (and_iff_left_of_imp fun hright => ?_).symm
      show ∀ k, 0 ≤ ((sysLseek t files fd off whence).2 k).fpos.toInt
      cases hfd : fdLookup t fd with
      | none =>
          unfold sysLseek
          rw [hfd]
          exact hfiles
      | some x =>
          by_cases hpipe : (files x.2).type = fileTypePipe
          · unfold sysLseek
            rw [hfd]
            dsimp only
            rw [if_pos hpipe]
            exact hfiles
          · obtain ⟨r, hr, heq⟩ := hright x hfd hpipe
            rw [heq]
            exact (update_nonneg hfiles x.2 r.2).mpr (hr.nonneg (hfiles x.2))
  | read k count size ok =>
      obtain rfl := Option.some.inj h
      show _ ↔ True ∧ ∀ j, 0 ≤ (Function.update files k _ j).fpos.toInt
      rw [update_nonneg hfiles, true_and, ext2ReadPos, OpFits]
      by_cases hnone : count = 0 ∨ ¬ok ∨ (files k).fpos.toNat ≥ size.toNat
      · rw [if_pos hnone]
        refine iff_of_true ?_ (hfiles k)
        simp only [Bool.not_eq_true] at hnone
        tauto
      · rw [if_neg hnone, transfer_nonneg_iff (hfiles k) hbs.le]
        simp only [Bool.not_eq_true] at hnone
        tauto
  | write k count size ok =>
      obtain rfl := Option.some.inj h
      show _ ↔ True ∧ ∀ j, 0 ≤ (Function.update files k _ j).fpos.toInt
      rw [update_nonneg hfiles, true_and, ext2WritePos, OpFits]
      by_cases hnone : count = 0 ∨ ¬ok
      · rw [if_pos hnone]
        refine iff_of_true ?_ (hfiles k)
        simp only [Bool.not_eq_true] at hnone
        tauto
      · rw [if_neg hnone, transfer_nonneg_iff (hfiles k) hbs.le]
        simp only [Bool.not_eq_true] at hnone
        tauto

/-! ## The result -/

/-- **Positions.** Whatever the files, on which no position is negative: along
a run, every seek is right and no position gets negative exactly when all
operations meet the condition. -/
theorem positions_safe_iff (t : FdTask) (bs : BitVec 32) (hbs : 0 < bs.toInt) (ops : List PosOp)
    (files : Nat → SeekFile) (hfiles : ∀ k, 0 ≤ (files k).fpos.toInt) :
    PositionsSafe t bs files ops ↔ StepsMeet (posStep t bs) (OpFits t bs) files ops := by
  refine runRight_iff_stepsMeet (J := fun files : Nat → SeekFile => ∀ k, 0 ≤ (files k).fpos.toInt)
    (fun _ h => h) ?_ ?_ hfiles
  · intro files op hfiles hfits
    refine ⟨?_, fun files' h => ((opFits_iff hbs hfiles h).mp hfits).2⟩
    obtain ⟨files', h⟩ := posStep_some t bs files op
    exact ((opFits_iff hbs hfiles h).mp hfits).1
  · intro files op hfiles hright hnonneg
    obtain ⟨files', h⟩ := posStep_some t bs files op
    exact (opFits_iff hbs hfiles h).mpr ⟨hright, hnonneg files' h⟩

/-- Descriptor 3 is a file. -/
def oneFile : FdTask where
  fileTable i := if i.val = 3 then some 0 else none
  fileTableFlags _ := 0

/-- A file of 100 bytes that was just opened. -/
def freshFile (_ : Nat) : SeekFile where
  fpos := 0
  length := 100
  type := 0

/-- Some bytes are read, and a seek goes back from the end. -/
theorem positions_safe_read :
    PositionsSafe oneFile 1024 freshFile
      [.read 0 30 100 true, .lseek 3 (-20) seekEnd, .write 0 50 100 true] := by
  rw [positions_safe_iff oneFile 1024 (by decide) _ freshFile fun _ => le_rfl]
  decide

/-- From behind the end, a seek to before the beginning passes the check. -/
theorem positions_safe_seek_end :
    ¬PositionsSafe oneFile 1024 freshFile
      [.lseek 3 200 seekSet, .lseek 3 (-150) seekEnd] := by
  intro h
  obtain ⟨files, hrun⟩ : ∃ files, runSteps (posStep oneFile 1024) freshFile
      [.lseek 3 200 seekSet, .lseek 3 (-150) seekEnd] = some files := ⟨_, rfl⟩
  have hpos := h.states _ files List.prefix_rfl hrun 0
  obtain rfl := Option.some.inj hrun
  revert hpos
  decide

end Levos.Kernel
