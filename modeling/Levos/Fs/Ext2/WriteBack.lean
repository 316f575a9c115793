import Levos.Fs.Ext2.BlockAlloc
import Levos.Fs.Ext2.WriteFile

/-!
# Sequences of writes to a file

`specSize` and `specByte` say what a file is after a sequence of writes, as a
sequence of bytes. `ext2_write_file_writes` says that `ext2_write_file` makes
it so on the disk, whatever the sequence, and that it leaves everything else
alone.
-/

namespace Levos.Fs

open Levos.Base Levos.Kernel

/-! ## Writes and what they mean -/

/-- A call of `ext2_write_file` at a position; `junk` is what `malloc` gives. -/
structure WriteReq where
  pos : Nat
  buf : Nat → UInt8
  count : Nat
  junk : Nat → Nat → UInt8

/-- One call after the other, with what each of them returns. -/
def writeAll (alloc : Ext2Fs → Int × Ext2Fs) :
    List WriteReq → Ext2Fs → Ext2File → Option (List Int × Ext2Fs × Ext2File)
  | [], fs, f => some ([], fs, f)
  | w :: ws, fs, f =>
      (ext2WriteFile alloc w.junk fs { f with fpos := w.pos } w.buf w.count).bind fun r =>
        (writeAll alloc ws r.2.1 r.2.2).map fun s => (r.1 :: s.1, s.2)

/-- The size after a sequence of writes. -/
def specSize (size : Nat) (ws : List WriteReq) : Nat :=
  ws.foldl (fun s w => max s (w.pos + w.count)) size

/-- The bytes after one write. -/
def splice (content : Nat → UInt8) (w : WriteReq) : Nat → UInt8 := fun o =>
  if w.pos ≤ o ∧ o < w.pos + w.count then w.buf (o - w.pos) else content o

/-- The bytes after a sequence of writes. -/
def specByte (content : Nat → UInt8) (ws : List WriteReq) : Nat → UInt8 := ws.foldl splice content

/-- The position after a sequence of writes. -/
def specPos (pos : Nat) (ws : List WriteReq) : Nat :=
  ws.foldl (fun _ w => w.pos + w.count) pos

/-- Every write starts in the file or at its end, writes something, and stays
in the blocks before the doubly indirect ones. -/
def WritesFit (P : InodePlace) : Nat → List WriteReq → Prop
  | _, [] => True
  | size, w :: ws =>
      w.pos ≤ size ∧ 0 < w.count ∧ w.pos + w.count < 2 ^ 31 ∧
        w.pos + w.count ≤ P.bs * P.near ∧ WritesFit P (max size (w.pos + w.count)) ws

/-- The blocks that a write may need, two for each of its own. -/
def blocksFor (P : InodePlace) (w : WriteReq) : Nat :=
  2 * ((w.pos + w.count) / P.bs - w.pos / P.bs + 1)

/-- The blocks that a sequence of writes may need. -/
def roomFor (P : InodePlace) (ws : List WriteReq) : Nat := (ws.map (blocksFor P)).sum

variable {A : BlockAllocator} {P : InodePlace}

/-- Only the bytes of the file matter. -/
theorem specByte_congr {size : Nat} {ws : List WriteReq} (hfit : WritesFit P size ws)
    {c c' : Nat → UInt8} (hc : ∀ o < size, o / P.bs < P.reach → c o = c' o) :
    ∀ o < specSize size ws, o / P.bs < P.reach → specByte c ws o = specByte c' ws o := by
  induction ws generalizing size c c' with
  | nil => exact hc
  | cons w ws ih =>
    obtain ⟨hpos, -, -, -, hrest⟩ := hfit
    refine ih hrest fun o ho hreach => ?_
    rw [splice, splice]
    split
    · rfl
    · exact hc o (by omega) hreach

/-! ## The main result -/

/-- What a sequence of writes did to the file and to the disk. -/
structure FileWrites (A : BlockAllocator) (P : InodePlace) (fs fs' : Ext2Fs)
    (ws : List WriteReq) : Prop where
  size : P.size fs'.disk = specSize (P.size fs.disk) ws
  content : ∀ o < P.size fs'.disk, o / P.bs < P.reach →
    P.byte fs'.disk o = specByte (P.byte fs.disk) ws o
  used : ∀ x, A.used fs x → A.used fs' x
  blocks : ∀ c < P.reach, KeptOrNew A fs (P.ptr fs.disk c) (P.ptr fs'.disk c)
  singly : KeptOrNew A fs (P.singly fs.disk) (P.singly fs'.disk)
  frame : ∀ a, a ∉ A.metadata → a / P.bs ≠ P.block → ¬ P.Near fs'.disk (a / P.bs) →
    fs'.disk a = fs.disk a

/-- A write and the sequence after it. -/
theorem FileWritten.cons {fs fs₁ fs' : Ext2Fs} {w : WriteReq} {ws : List WriteReq}
    (h : FileWritten A P fs fs₁ w.pos w.count w.buf) (h' : FileWrites A P fs₁ fs' ws)
    (hfit : WritesFit P (P.size fs₁.disk) ws) : FileWrites A P fs fs' (w :: ws) := by
  have hsize : specSize (P.size fs₁.disk) ws = specSize (P.size fs.disk) (w :: ws) := by
    rw [h.size]
    rfl
  have hnear : ∀ x, P.Near fs₁.disk x → P.Near fs'.disk x := by
    rintro x ⟨hx0, rfl | ⟨c, hc, rfl⟩⟩
    · exact ⟨hx0, .inl (h'.singly.eq hx0).symm⟩
    · exact ⟨hx0, .inr ⟨c, hc, ((h'.blocks c (hc.trans_le P.near_le_reach)).eq hx0).symm⟩⟩
  refine ⟨h'.size.trans hsize, fun o ho hreach => ?_, fun x hx => h'.used x (h.used x hx),
    fun c hc => (h.blocks c hc).trans (h'.blocks c hc) h.used, h.singly.trans h'.singly h.used, ?_⟩
  · rw [h'.content o ho hreach]
    rw [h'.size] at ho
    exact specByte_congr hfit h.content o ho hreach
  · intro a hmeta hinode hfar
    rw [h'.frame a hmeta hinode hfar]
    exact h.frame a hmeta hinode fun hx => hfar (hnear _ hx)

/-- **Write and read back.** On a file that can be written to, every sequence
of `ext2_write_file` calls returns the counts it was given, the file is then
the old one with each write's bytes put in place, its size the largest end, and
`fpos` is after the last write. Blocks of the file are kept, and where there
were none they are new; every other byte of the disk outside the inode's block
and the allocation metadata is unchanged; and the file can be written to
again. -/
theorem ext2_write_file_writes {n : Nat} {ws : List WriteReq} {fs : Ext2Fs} {f : Ext2File}
    (hino : 0 < f.inodeNo) (h : FileOk A P (n + roomFor P ws) fs f.inodeNo.toNat)
    (hfit : WritesFit P (P.size fs.disk) ws) :
    ∃ fs' f', writeAll A.alloc ws fs f = some (ws.map fun w => (w.count : Int), fs', f') ∧
      FileOk A P n fs' f.inodeNo.toNat ∧ FileWrites A P fs fs' ws ∧
      f'.fpos = specPos f.fpos ws ∧ f'.inodeNo = f.inodeNo := by
  induction ws generalizing fs f with
  | nil =>
    exact ⟨fs, f, rfl, h, ⟨rfl, fun _ _ _ => rfl, fun _ hx => hx, fun _ _ => .inl rfl, .inl rfl,
      fun _ _ _ _ => rfl⟩, rfl, rfl⟩
  | cons w ws ih =>
    obtain ⟨hpos, hcount, hend, hnear, hrest⟩ := hfit
    have hroom : n + roomFor P (w :: ws) = n + roomFor P ws + blocksFor P w := by
      rw [roomFor, roomFor, List.map_cons, List.sum_cons]
      omega
    rw [hroom] at h
    obtain ⟨fs₁, f₁, heq₁, h₁, hw₁, hpos₁, hino₁⟩ :=
      ext2WriteFile_spec (f := { f with fpos := w.pos }) hino h hpos hcount hend hnear
    dsimp only at hino₁
    rw [← hw₁.size] at hrest
    rw [← hino₁] at h₁ hino
    obtain ⟨fs', f', heq', h', hw', hpos', hino'⟩ := ih hino h₁ hrest
    refine ⟨fs', f', ?_, hino₁ ▸ h', hw₁.cons hw' hrest, ?_, hino'.trans hino₁⟩
    · rw [writeAll, heq₁, Option.bind_some]
      dsimp only
      rw [heq', Option.map_some]
      rfl
    · rw [hpos', hpos₁]
      rfl

/-! ## A small filesystem -/

/-- A file without blocks. -/
theorem FsOk.emptyFile {n ino : Nat} {fs : Ext2Fs} (h : FsOk A P n fs ino)
    (hsize : P.size fs.disk = 0) (hdirect : ∀ c < 12, P.field fs.disk (inoDbp + 4 * c) = 0)
    (hsingly : P.singly fs.disk = 0) (hdoubly : P.doubly fs.disk = 0) : FileOk A P n fs ino := by
  have hptr : ∀ c, P.ptr fs.disk c = 0 := by
    intro c
    rw [InodePlace.ptr, hsingly, hdoubly]
    split
    next hc => exact hdirect c hc
    next => split <;> rfl
  have hnear : ∀ x, ¬ P.Near fs.disk x := by
    rintro x ⟨hx0, rfl | ⟨c, hc, rfl⟩⟩
    · exact hx0 hsingly
    · exact hx0 (hptr c)
  have hdeep : ∀ x, ¬ P.Deep fs.disk x := by
    rintro x ⟨hx0, rfl | ⟨c, hc, rfl⟩ | ⟨c, -, -, rfl⟩⟩
    · exact hx0 hdoubly
    · exact hx0 (by rw [hdoubly]; rfl)
    · exact hx0 (hptr c)
  refine { h with
    mapped := fun b _ hb => absurd hb (by omega)
    nearData := fun x hx => absurd hx (hnear x)
    nearInj := fun b _ c _ h0 => absurd (hptr b) h0
    nearSingly := fun b _ h0 => absurd (hptr b) h0
    deepData := fun x hx => absurd hx (hdeep x)
    covered := fun b _ h0 => absurd (hptr b) h0 }

/-- Sixteen blocks of one kibibyte, with the superblock, the descriptors, the
two bitmaps and the inode table in blocks 1 to 5 and block 10 taken. -/
def tableDisk : Nat → UInt8 :=
  let sb := put32 (put32 (put32 (put32 (fun _ => 0) 1028 16) 1036 10) 1040 6) 1044 1
  let sb := put16 (put32 (put32 sb 1056 16) 1064 8) 1080 ext2Signature
  let bgd := put16 (put16 (put32 (put32 (put32 sb 2048 3) 2052 4) 2056 5) 2060 10) 2062 6
  put16 (put16 bgd 3072 0x21F) 4096 3

theorem tableDisk_mount : (ext2Mount tableDisk).isSome := by decide +kernel

/-- Its mount. -/
def tableFs : Ext2Fs := (ext2Mount tableDisk).get tableDisk_mount

/-- The place of inode 3. -/
def tablePlace : InodePlace where
  spb := 2
  inodesize := 128
  block := 5
  offset := 256
  table := 2056
  two_le_spb := by decide
  size_lt := by decide
  inodesize_le := by decide
  fits := by decide
  block_pos := by decide
  block_lt := by decide
  table_ne := by decide

/-- The places of the eight inodes of `tableFs`. -/
def smallPlace (k : Nat) : InodePlace where
  spb := 2
  inodesize := 128
  block := 5
  offset := 128 * ((k - 1) % 8)
  table := 2056
  two_le_spb := by decide
  size_lt := by decide
  inodesize_le := by decide
  fits := by omega
  block_pos := by decide
  block_lt := by decide
  table_ne := by decide

/-- What the small filesystem has on its disk. -/
theorem tableFs_values :
    Ext2Consistent 1 tableFs ∧ InodeAt tablePlace tableFs 3 ∧
      (tableFs.numberOfBgs = 1 ∧ perGroup tableFs .inode = 8 ∧ tableFs.blocksize = 1024 ∧
        10 ≤ freeBlocks tableFs) ∧
      (∀ bit, bit < 5 ∨ bit = 9 → groupBit tableFs .block 0 bit = true) ∧
      (∀ k, bitmapBlock tableFs k 0 = 3 ∨ bitmapBlock tableFs k 0 = 4) ∧
      (∀ a < 1024, tableFs.disk a = 0) ∧
      tablePlace.size tableFs.disk = 0 ∧ (∀ c < 12, tablePlace.field tableFs.disk (inoDbp + 4 * c) = 0) ∧
        tablePlace.singly tableFs.disk = 0 ∧ tablePlace.doubly tableFs.disk = 0 := by
  refine ⟨?consistent, ?place, by decide +kernel, ?taken, ?bitmaps, by decide +kernel,
    by decide +kernel⟩
  case consistent =>
    obtain ⟨hsect, hfirst, hdisk, hsb⟩ := ext2Mount_geometry
      (Option.some_get tableDisk_mount).symm (by decide +kernel) (by decide +kernel)
    refine ⟨hsect, hfirst, by decide +kernel, by decide, hsb, ?_, ?_, ?_, ?_, ?_⟩
    · rintro (_ | _) <;> decide +kernel
    · rintro (_ | _) <;> decide +kernel
    · rintro (_ | _) (_ | _) <;> decide +kernel
    · rintro (_ | _) <;> decide +kernel
    · rintro (_ | _) <;> decide +kernel
  case place => constructor <;> decide +kernel
  case taken =>
    have hbits : ∀ bit ∈ [0, 1, 2, 3, 4, 9], groupBit tableFs .block 0 bit = true := by decide +kernel
    refine fun bit hbit => hbits bit ?_
    simp only [List.mem_cons, List.not_mem_nil, or_false]
    omega
  case bitmaps => rintro (_ | _) <;> decide +kernel

theorem tableFs_used {x : Nat} (hx : x < 6) : ¬ FreeBlock tableFs x := by
  obtain ⟨-, -, ⟨hgroups, -⟩, hbits, -⟩ := tableFs_values
  rintro ⟨g, bit, hg, -, rfl, hclear⟩
  obtain rfl : g = 0 := by omega
  rw [hbits bit (.inl (by omega))] at hclear
  cases hclear

theorem tableFs_metadata {a : Nat} (ha : a ∈ allocMetadata 1 tableFs) :
    1 ≤ a / 1024 ∧ a / 1024 < 5 := by
  obtain ⟨-, -, -, -, hbitmaps, -⟩ := tableFs_values
  rcases ha with ha | ⟨k, g, hg, ha⟩
  · omega
  · obtain rfl : g = 0 := by omega
    have := hbitmaps k
    omega

theorem tableFs_fsOk : FsOk (ext2BlockAllocator 1 tableFs) tablePlace 10 tableFs 3 := by
  obtain ⟨hconsistent, hplace, ⟨-, -, hsize, hfree⟩, -, -, hboot, -⟩ := tableFs_values
  refine ⟨hplace, ⟨hconsistent, hsize, fun _ _ _ => rfl, hfree⟩, hboot, ?_, ?_, ?_, ?_, ?_⟩
  · intro a ha
    have := tableFs_metadata ha
    omega
  · intro a ha
    exact tableFs_used ((tableFs_metadata ha).2.trans (by norm_num))
  · intro a ha
    exact (tableFs_metadata ha).2.ne
  · intro j hj
    have hblock : (2056 + j) / 1024 = 2 := by omega
    show ¬ FreeBlock tableFs ((2056 + j) / 1024)
    rw [hblock]
    exact tableFs_used (by norm_num)
  · exact tableFs_used (by decide)

/-- Inode 3, which is empty. -/
def tableFile : Ext2File := ⟨3, 0, 0⟩

/-- Three bytes at the start, and then four from the second on. -/
def twoWrites : List WriteReq :=
  [⟨0, fun j => UInt8.ofNat (97 + j), 3, fun _ _ => 0xCC⟩,
    ⟨1, fun j => UInt8.ofNat (65 + j), 4, fun _ _ => 0xCC⟩]

theorem ext2_write_file_writes_empty :
    ∃ fs' f', writeAll (ext2BlockAllocator 1 tableFs).alloc twoWrites tableFs tableFile =
        some ([3, 4], fs', f') ∧
      FileOk (ext2BlockAllocator 1 tableFs) tablePlace 6 fs' 3 ∧
      FileWrites (ext2BlockAllocator 1 tableFs) tablePlace tableFs fs' twoWrites ∧
      f'.fpos = 5 ∧ f'.inodeNo = 3 := by
  obtain ⟨-, -, -, -, -, -, hsize, hdirect, hsingly, hdoubly⟩ := tableFs_values
  have hempty : FileOk (ext2BlockAllocator 1 tableFs) tablePlace 10 tableFs 3 :=
    tableFs_fsOk.emptyFile hsize hdirect hsingly hdoubly
  have hroom : roomFor tablePlace twoWrites = 4 := by decide
  have hfit : WritesFit tablePlace (tablePlace.size tableFs.disk) twoWrites := by
    rw [hsize, twoWrites]
    simp only [WritesFit, and_true]
    decide
  exact ext2_write_file_writes (n := 6) (f := tableFile) (by decide) (hroom ▸ hempty) hfit

/-! ## Blocks beyond the end -/

/-- What is asked of a file when only its blocks below its size count. -/
structure BelowSizeOk (A : BlockAllocator) (P : InodePlace) (n : Nat) (fs : Ext2Fs) (ino : Nat) :
    Prop extends FsOk A P n fs ino where
  mapped : ∀ b < P.reach, P.bs * b < P.size fs.disk →
    DataBlock A P fs (P.ptr fs.disk b) ∧ P.ptr fs.disk b ≠ P.singly fs.disk
  inj : ∀ b < P.reach, ∀ c < P.reach, P.bs * b < P.size fs.disk → P.bs * c < P.size fs.disk →
    P.ptr fs.disk b = P.ptr fs.disk c → b = c
  covered : ∀ b < P.reach, P.bs * b < P.size fs.disk → (b + 1) * P.spb ≤ P.sectors fs.disk

/-- Inode 3 with block 10 as its first and as its second block, beyond its
end. -/
def staleFs : Ext2Fs :=
  setDisk tableFs (put32 (put32 tableFs.disk (tablePlace.addr + 40) 10) (tablePlace.addr + 44) 10)

theorem staleFs_belowSizeOk : BelowSizeOk (ext2BlockAllocator 1 tableFs) tablePlace 10 staleFs 3 := by
  have hsize : tablePlace.size staleFs.disk = 0 := by
    obtain ⟨-, -, -, -, -, -, hsize, -⟩ := tableFs_values
    rw [← hsize]
    exact (tablePlace.field_put32_of_ne _ (.inr (by decide))).trans
      (tablePlace.field_put32_of_ne _ (.inr (by decide)))
  have hout : ∀ a, a / tablePlace.bs ≠ tablePlace.block →
      put32 (put32 tableFs.disk (tablePlace.addr + 40) 10) (tablePlace.addr + 44) 10 a =
        tableFs.disk a := fun a ha => by
    rw [put32_field_of_ne (by decide) ha, put32_field_of_ne (by decide) ha]
  have hok := (tableFs_fsOk.write tableFs_fsOk.writable_inode hout).1
  have hend : ∀ b, ¬ tablePlace.bs * b < tablePlace.size staleFs.disk := fun b => by
    rw [hsize]
    exact Nat.not_lt_zero _
  exact { hok with
    mapped := fun b _ hb => absurd hb (hend b)
    inj := fun b _ c _ hb => absurd hb (hend b)
    covered := fun b _ hb => absurd hb (hend b) }

/-- Blocks behind an empty file that are one and the same: the second kibibyte
of a write lands on the first. -/
theorem ext2_write_file_stale_blocks :
    BelowSizeOk (ext2BlockAllocator 1 tableFs) tablePlace 10 staleFs 3 ∧
      ∃ fs' f', ext2WriteFile (ext2BlockAllocator 1 tableFs).alloc (fun _ _ => 0) staleFs tableFile
          (fun j => if j < 1024 then 1 else 2) 2048 = some (2048, fs', f') ∧
        tablePlace.size fs'.disk = 2048 ∧ tablePlace.byte fs'.disk 0 = 2 := by
  refine ⟨staleFs_belowSizeOk, ?_⟩
  have heval : (ext2WriteFile allocBlock (fun _ _ => 0) staleFs tableFile
      (fun j => if j < 1024 then 1 else 2) 2048).map (fun r =>
        (r.1, tablePlace.size r.2.1.disk, tablePlace.byte r.2.1.disk 0)) = some (2048, 2048, 2) := by
    decide +kernel
  obtain ⟨⟨r, fs', f'⟩, hrun, hres⟩ := Option.map_eq_some_iff.mp heval
  obtain ⟨rfl, hsize, hbyte⟩ : r = 2048 ∧ tablePlace.size fs'.disk = 2048 ∧
      tablePlace.byte fs'.disk 0 = 2 := by
    simpa using hres
  exact ⟨fs', f', hrun, hsize, hbyte⟩

end Levos.Fs
