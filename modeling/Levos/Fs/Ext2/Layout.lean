import Levos.Base.Blocks
import Levos.Fs.Ext2.Inode

/-!
# A file as the disk has it

Where an inode is, which block of the disk is behind each of its logical
blocks, and what has to hold of a file so that it can be written to.
`InodePlace` has the numbers that never change; everything else is read from
the bytes of the disk. `FileOk` is the invariant of `ext2_write_file`.
-/

namespace Levos.Fs

open Levos.Base Levos.Kernel

/-! ## Places -/

/-- The byte of the group descriptor that has the block of the inode table. -/
def tableField (fs : Ext2Fs) (ino : Nat) : Nat :=
  blockAddr fs fs.firstBgd + (32 * ((ino - 1) / le32 fs.sb sbInodesInBlockgroup) + bgdInodeTable)

/-- The place of an inode: sizes of the filesystem, the block of the inode
table with the offset in it, and the byte of the descriptor that names the
table. -/
structure InodePlace where
  spb : Nat
  inodesize : Nat
  block : Nat
  offset : Nat
  table : Nat
  two_le_spb : 2 ≤ spb
  size_lt : 512 * spb < 2 ^ 31
  inodesize_le : 128 ≤ inodesize
  fits : offset + inodesize ≤ 512 * spb
  block_pos : 0 < block
  block_lt : block * spb < 2 ^ 32
  table_ne : ∀ j < 4, (table + j) / (512 * spb) ≠ block

namespace InodePlace

variable (P : InodePlace)

/-- The size of a block. -/
def bs : Nat := 512 * P.spb

/-- The block numbers in a block. -/
def ppb : Nat := P.bs / 4

/-- The blocks reached without the doubly indirect block. -/
def near : Nat := 12 + P.ppb

/-- All blocks that the code can reach. -/
def reach : Nat := P.near + P.ppb * P.ppb

/-- The first byte of the inode. -/
def addr : Nat := P.bs * P.block + P.offset

/-! ## The file on a disk -/

variable (d : Nat → UInt8)

def field (f : Nat) : Nat := le32 d (P.addr + f)

def size : Nat := P.field d inoSize

def sectors : Nat := P.field d inoDiskSectors

def singly : Nat := P.field d inoSinglyBlock

def doubly : Nat := P.field d inoDoublyBlock

/-- Entry `k` of an indirect block; there are none in block 0. -/
def follow (x k : Nat) : Nat := if x = 0 then 0 else le32 d (P.bs * x + 4 * k)

/-- The block behind a logical block; 0 when there is none. -/
def ptr (b : Nat) : Nat :=
  if b < 12 then P.field d (inoDbp + 4 * b)
  else if b < P.near then P.follow d (P.singly d) (b - 12)
  else
    P.follow d (P.follow d (P.doubly d) ((b - P.near) / P.ppb)) ((b - P.near) % P.ppb)

/-- A byte of the file. -/
def byte (o : Nat) : UInt8 := d (P.bs * P.ptr d (o / P.bs) + o % P.bs)

/-- The blocks of the file that a write can change. -/
def Near (x : Nat) : Prop := x ≠ 0 ∧ (x = P.singly d ∨ ∃ b < P.near, x = P.ptr d b)

/-- The blocks behind the doubly indirect one, and those that lead there. -/
def Deep (x : Nat) : Prop :=
  x ≠ 0 ∧ (x = P.doubly d ∨ (∃ c < P.ppb, x = P.follow d (P.doubly d) c) ∨
    ∃ b, P.near ≤ b ∧ b < P.reach ∧ x = P.ptr d b)

end InodePlace

/-- The inode `ino` of a filesystem is at `P`. -/
structure InodeAt (P : InodePlace) (fs : Ext2Fs) (ino : Nat) : Prop where
  inoPos : ino ≠ 0
  sectors : fs.sectorsPerBlock = P.spb
  blocksize : fs.blocksize = P.bs
  inodesize : fs.inodesize = P.inodesize
  perGroup : 0 < le32 fs.sb sbInodesInBlockgroup
  group : 32 * ((ino - 1) / le32 fs.sb sbInodesInBlockgroup) + 32 ≤ P.bs
  table : tableField fs ino = P.table
  block : inodeBlock fs ino = P.block
  offset : inodeOffset fs ino = P.offset

/-! ## What the allocator promises -/

/-- What no allocation changes. -/
structure SameGeometry (fs fs' : Ext2Fs) : Prop where
  firstBgd : fs'.firstBgd = fs.firstBgd
  blocksize : fs'.blocksize = fs.blocksize
  inodesize : fs'.inodesize = fs.inodesize
  sectorsPerBlock : fs'.sectorsPerBlock = fs.sectorsPerBlock
  inodesPerBlock : fs'.inodesPerBlock = fs.inodesPerBlock
  perGroup : le32 fs'.sb sbInodesInBlockgroup = le32 fs.sb sbInodesInBlockgroup

/-- The same filesystem with other bytes on the disk. -/
def setDisk (fs : Ext2Fs) (d : Nat → UInt8) : Ext2Fs := { fs with disk := d }

/-- What a call of the allocator does when it gives block `r`. -/
structure FreshBlock (metadata : Set Nat) (used : Ext2Fs → Nat → Prop) (fs fs' : Ext2Fs) (r : Nat) :
    Prop where
  pos : 0 < r
  lt : r * fs.sectorsPerBlock < 2 ^ 32
  unused : ¬ used fs r
  taken : used fs' r
  keeps : ∀ x, used fs x → used fs' x
  geometry : SameGeometry fs fs'
  disk : ∀ a, a ∉ metadata → fs'.disk a = fs.disk a
  tables : ∀ ino, 32 * ((ino - 1) / le32 fs.sb sbInodesInBlockgroup) + 32 ≤ fs.blocksize →
    ∀ j < 4, fs'.disk (tableField fs ino + j) = fs.disk (tableField fs ino + j)

/-- `ext2_alloc_block` as the code for files relies on it: as long as there is
room, it returns a block that no inode and no metadata uses, and changes only
the bytes of the allocation metadata, among them no descriptor's inode table.
`room n` says that `n` calls succeed. -/
structure BlockAllocator where
  alloc : Ext2Fs → Int × Ext2Fs
  metadata : Set Nat
  used : Ext2Fs → Nat → Prop
  room : Nat → Ext2Fs → Prop
  alloc_fresh : ∀ {n fs}, room (n + 1) fs → ∃ r : Nat, (alloc fs).1 = r ∧
    FreshBlock metadata used fs (alloc fs).2 r ∧ room n (alloc fs).2
  room_mono : ∀ {n fs}, room (n + 1) fs → room n fs
  frame : ∀ {n fs d}, room n fs → (∀ a ∈ metadata, d a = fs.disk a) →
    room n (setDisk fs d) ∧ ∀ x, used fs x → used (setDisk fs d) x

/-! ## Files that can be written to -/

variable (A : BlockAllocator) (P : InodePlace)

/-- A block outside the allocation metadata and the group descriptor. -/
structure Writable (x : Nat) : Prop where
  pos : 0 < x
  lt : x * P.spb < 2 ^ 32
  notMeta : ∀ a ∈ A.metadata, a / P.bs ≠ x
  notTable : ∀ j < 4, (P.table + j) / P.bs ≠ x

/-- A block for data, in use. -/
structure DataBlock (fs : Ext2Fs) (x : Nat) : Prop where
  writable : Writable A P x
  notInode : x ≠ P.block
  used : A.used fs x

/-- The filesystem around a file: the boot block is empty, and the metadata is
where neither the inode nor anything unused is. -/
structure FsOk (n : Nat) (fs : Ext2Fs) (ino : Nat) : Prop where
  inodeAt : InodeAt P fs ino
  room : A.room n fs
  boot : ∀ a < 1024, fs.disk a = 0
  metaBoot : ∀ a ∈ A.metadata, 1024 ≤ a
  metaUsed : ∀ a ∈ A.metadata, A.used fs (a / P.bs)
  metaInode : ∀ a ∈ A.metadata, a / P.bs ≠ P.block
  tableUsed : ∀ j < 4, A.used fs ((P.table + j) / P.bs)
  inodeUsed : A.used fs P.block

/-- A file that can be written to: every logical block below its size is
mapped, the blocks it is mapped to are data blocks, pairwise different and
different from its indirect blocks, and `disk_sectors` covers them. -/
structure FileOk (n : Nat) (fs : Ext2Fs) (ino : Nat) : Prop extends FsOk A P n fs ino where
  mapped : ∀ b < P.reach, P.bs * b < P.size fs.disk → P.ptr fs.disk b ≠ 0
  nearData : ∀ x, P.Near fs.disk x → DataBlock A P fs x
  nearInj : ∀ b < P.near, ∀ c < P.near, P.ptr fs.disk b ≠ 0 → P.ptr fs.disk b = P.ptr fs.disk c →
    b = c
  nearSingly : ∀ b < P.near, P.ptr fs.disk b ≠ 0 → P.ptr fs.disk b ≠ P.singly fs.disk
  deepData : ∀ x, P.Deep fs.disk x → DataBlock A P fs x ∧ ¬ P.Near fs.disk x
  covered : ∀ b < P.near, P.ptr fs.disk b ≠ 0 → (b + 1) * P.spb ≤ P.sectors fs.disk

/-! ## Reading and writing at a place -/

section Place

variable {P : InodePlace} {fs fs' : Ext2Fs} {ino : Nat}

/-- The inode in memory is the one on the disk. -/
def Synced (P : InodePlace) (d inode : Nat → UInt8) : Prop :=
  ∀ j < P.inodesize, inode j = d (P.addr + j)

theorem InodePlace.bs_ge (P : InodePlace) : 1024 ≤ P.bs := by
  have := P.two_le_spb
  rw [InodePlace.bs]
  omega

theorem InodeAt.spbOf_eq (h : InodeAt P fs ino) : spbOf fs = P.spb := by
  have := P.two_le_spb
  rw [spbOf, h.sectors, if_neg (by omega)]

theorem InodeAt.blockAddr_eq (h : InodeAt P fs ino) {x : Nat} (hx : x * P.spb < 2 ^ 32) :
    blockAddr fs x = P.bs * x := by
  rw [blockAddr, h.spbOf_eq, u32_of_lt hx, InodePlace.bs]
  ring

theorem InodeAt.readBlock_eq (h : InodeAt P fs ino) {x : Nat} (hx : x * P.spb < 2 ^ 32) :
    ext2ReadBlock fs x = fun j => fs.disk (P.bs * x + j) := by
  funext j
  rw [ext2ReadBlock, h.blockAddr_eq hx]

theorem InodeAt.writeBlock_eq (h : InodeAt P fs ino) {x : Nat} (hx : x * P.spb < 2 ^ 32)
    (buf : Nat → UInt8) :
    ext2WriteBlock fs buf x = setDisk fs (setBlock fs.disk P.bs x buf) := by
  have hbs : spbOf fs * 512 = P.bs := by
    rw [h.spbOf_eq, InodePlace.bs, Nat.mul_comm]
  have hpos : 0 < P.bs := lt_of_lt_of_le (by norm_num) P.bs_ge
  rw [ext2WriteBlock, setDisk, h.blockAddr_eq hx, hbs]
  congr 1
  funext a
  by_cases ha : a / P.bs = x
  · have hin : P.bs * x ≤ a ∧ a < P.bs * x + P.bs := by
      rw [← ha]
      exact ⟨Nat.mul_div_le _ _, Nat.lt_mul_div_succ a hpos⟩
    rw [writeBytes_of_mem hin, setBlock, if_pos ha, ← ha, Nat.mod_eq_sub_mul_div]
  · rw [setBlock_of_ne ha]
    apply writeBytes_of_not_mem
    by_contra hin
    rw [not_or, not_lt, not_le] at hin
    apply ha
    obtain ⟨k, rfl⟩ := Nat.exists_eq_add_of_le hin.1
    exact block_div (by omega)

theorem InodeAt.synced_reRead (h : InodeAt P fs ino) (buf : Nat → UInt8) :
    Synced P fs.disk (reReadInode fs buf ino) := by
  intro j hj
  rw [reReadInode, ext2ReadInode, if_neg h.inoPos, Option.getD_some, h.inodesize,
    writeBytes_of_mem ⟨Nat.zero_le _, by omega⟩, h.block, h.offset, h.readBlock_eq P.block_lt,
    InodePlace.addr, Nat.sub_zero, Nat.add_assoc]

theorem InodeAt.writeInode_eq (h : InodeAt P fs ino) (buf : Nat → UInt8) :
    ext2WriteInode fs buf ino = setDisk fs (writeBytes fs.disk P.addr P.inodesize buf) := by
  have hfits := P.fits
  rw [← InodePlace.bs] at hfits
  rw [ext2WriteInode, h.block, h.offset, h.inodesize, h.writeBlock_eq P.block_lt, h.readBlock_eq P.block_lt]
  congr 1
  funext a
  by_cases ha : a / P.bs = P.block
  · obtain ⟨k, hk, rfl⟩ : ∃ k < P.bs, a = P.bs * P.block + k :=
      ⟨a % P.bs, Nat.mod_lt _ (by have := P.bs_ge; omega), by rw [← ha, Nat.div_add_mod]⟩
    rw [setBlock_apply hk, writeBytes, writeBytes, InodePlace.addr]
    by_cases hin : P.offset ≤ k ∧ k < P.offset + P.inodesize
    · rw [if_pos hin, if_pos (by omega)]
      congr 1
      omega
    · rw [if_neg hin, if_neg (by omega)]
  · rw [setBlock_of_ne ha, writeBytes_of_not_mem]
    by_contra hin
    rw [not_or, not_lt, not_le, InodePlace.addr] at hin
    apply ha
    obtain ⟨k, rfl⟩ : ∃ k, a = P.bs * P.block + k := Nat.exists_eq_add_of_le (by omega)
    exact block_div (by omega)

/-- Storing a field in an inode and writing it changes this field on the disk,
and nothing else. -/
theorem InodeAt.writeInode_put32 (h : InodeAt P fs ino) {inode : Nat → UInt8}
    (hs : Synced P fs.disk inode) {f : Nat} (hf : f + 4 ≤ 128) (v : Nat) :
    ext2WriteInode fs (put32 inode f v) ino = setDisk fs (put32 fs.disk (P.addr + f) v) := by
  have hsize := P.inodesize_le
  rw [h.writeInode_eq]
  congr 1
  funext a
  by_cases hin : P.addr ≤ a ∧ a < P.addr + P.inodesize
  · obtain ⟨k, rfl⟩ := Nat.exists_eq_add_of_le hin.1
    rw [writeBytes_of_mem hin, Nat.add_sub_cancel_left, put32_shift (hs k (by omega))]
  · rw [writeBytes_of_not_mem (by omega), put32_of_ne (by omega)]

theorem InodeAt.writeInode_same (h : InodeAt P fs ino) {inode : Nat → UInt8}
    (hs : Synced P fs.disk inode) : ext2WriteInode fs inode ino = fs := by
  have hsame : writeBytes fs.disk P.addr P.inodesize inode = fs.disk := by
    funext a
    by_cases hin : P.addr ≤ a ∧ a < P.addr + P.inodesize
    · rw [writeBytes_of_mem hin, hs _ (by omega), Nat.add_sub_cancel' hin.1]
    · rw [writeBytes_of_not_mem (by omega)]
  rw [h.writeInode_eq, hsame]
  rfl

theorem Synced.put32 {d inode : Nat → UInt8} (hs : Synced P d inode) (f v : Nat) :
    Synced P (put32 d (P.addr + f) v) (put32 inode f v) := fun j hj => put32_shift (hs j hj) f v

theorem Synced.field {d inode : Nat → UInt8} (hs : Synced P d inode) {f : Nat} (hf : f + 4 ≤ 128) :
    le32 inode f = P.field d f := by
  have hsize := P.inodesize_le
  apply le32_congr
  intro k hk
  rw [hs _ (by omega), Nat.add_assoc]

theorem Synced.of_same {d d' inode : Nat → UInt8} (hs : Synced P d inode)
    (h : SameBlock P.bs d d' P.block) : Synced P d' inode := by
  have hfits := P.fits
  rw [← InodePlace.bs] at hfits
  intro j hj
  rw [hs j hj, InodePlace.addr, Nat.add_assoc, h.byte (by omega)]

/-- The place only depends on the sizes and on the descriptor. -/
theorem InodeAt.congr (h : InodeAt P fs ino) (hg : SameGeometry fs fs')
    (ht : ∀ j < 4, fs'.disk (P.table + j) = fs.disk (P.table + j)) : InodeAt P fs' ino := by
  have hfield : tableField fs' ino = tableField fs ino := by
    rw [tableField, tableField, hg.perGroup, hg.firstBgd, blockAddr_congr hg.sectorsPerBlock]
  have htable : ∀ gs : Ext2Fs, le32 (ext2ReadBlock gs gs.firstBgd)
      (32 * ((ino - 1) / le32 gs.sb sbInodesInBlockgroup) + bgdInodeTable) =
        le32 gs.disk (tableField gs ino) := by
    intro gs
    apply le32_congr
    intro k _
    rw [ext2ReadBlock, tableField, Nat.add_assoc (blockAddr gs gs.firstBgd)]
  have hread : le32 fs'.disk (tableField fs' ino) = le32 fs.disk (tableField fs ino) := by
    rw [hfield, h.table]
    exact le32_congr ht
  refine ⟨h.inoPos, hg.sectorsPerBlock.trans h.sectors, hg.blocksize.trans h.blocksize,
    hg.inodesize.trans h.inodesize, hg.perGroup ▸ h.perGroup, hg.perGroup ▸ h.group,
    hfield.trans h.table, ?_, ?_⟩
  · rw [← h.block, inodeBlock, inodeBlock, htable, htable, hread, hg.perGroup, hg.inodesize, hg.blocksize]
  · rw [← h.offset, inodeOffset, inodeOffset, hg.perGroup, hg.inodesPerBlock, hg.inodesize]

end Place

/-! ## What the file depends on -/

namespace InodePlace

variable {P : InodePlace} {d d' : Nat → UInt8}

theorem field_same (h : SameBlock P.bs d d' P.block) {f : Nat} (hf : f + 4 ≤ 128) :
    P.field d' f = P.field d f := by
  have hfits := P.fits
  have hsize := P.inodesize_le
  rw [← InodePlace.bs] at hfits
  rw [field, field, addr, Nat.add_assoc, h.le32 (by omega)]

/-- An inode does not leave its block. -/
theorem div_of_mem {a : Nat} (h : P.addr ≤ a) (h' : a < P.addr + P.inodesize) : a / P.bs = P.block := by
  have hfits := P.fits
  rw [← InodePlace.bs] at hfits
  rw [addr] at h h'
  obtain ⟨j, rfl⟩ : ∃ j, a = P.bs * P.block + j := Nat.exists_eq_add_of_le (by omega)
  exact block_div (by omega)

theorem field_put32 (P : InodePlace) (d : Nat → UInt8) (f : Nat) {v : Nat} (hv : v < 2 ^ 32) :
    P.field (put32 d (P.addr + f) v) f = v := le32_put32 _ _ hv

theorem field_put32_of_ne (P : InodePlace) (d : Nat → UInt8) {f g v : Nat}
    (h : f + 4 ≤ g ∨ g + 4 ≤ f) : P.field (put32 d (P.addr + f) v) g = P.field d g :=
  le32_put32_of_ne (by omega)

/-- A field of the inode is in the inode's block. -/
theorem sameBlock_put32_field {f v x : Nat} (hf : f + 4 ≤ 128) (hx : x ≠ P.block) :
    SameBlock P.bs d (put32 d (P.addr + f) v) x := by
  have hfits := P.fits
  have hsize := P.inodesize_le
  rw [← InodePlace.bs] at hfits
  rw [addr, Nat.add_assoc]
  exact SameBlock.put32 (by omega) hx

theorem follow_same {x k : Nat} (h : x ≠ 0 → SameBlock P.bs d d' x) (hk : k < P.ppb) :
    P.follow d' x k = P.follow d x k := by
  rw [follow, follow]
  split
  · rfl
  · next hx =>
    rw [ppb] at hk
    exact (h hx).le32 (by omega)

theorem ptr_direct {b : Nat} (hb : b < 12) : P.ptr d b = P.field d (inoDbp + 4 * b) := if_pos hb

theorem ptr_singly {b : Nat} (hb : 12 ≤ b) (hn : b < P.near) :
    P.ptr d b = P.follow d (P.singly d) (b - 12) := by
  rw [ptr, if_neg (by omega), if_pos hn]

theorem ptr_doubly {b : Nat} (hb : P.near ≤ b) :
    P.ptr d b = P.follow d (P.follow d (P.doubly d) ((b - P.near) / P.ppb))
      ((b - P.near) % P.ppb) := by
  have : 12 ≤ P.near := Nat.le_add_right _ _
  rw [ptr, if_neg (by omega), if_neg (by omega)]

/-- The near blocks are in the inode and in the indirect block. -/
theorem ptr_near_same (hinode : SameBlock P.bs d d' P.block)
    (hsingly : P.singly d ≠ 0 → SameBlock P.bs d d' (P.singly d)) {b : Nat} (hb : b < P.near) :
    P.ptr d' b = P.ptr d b := by
  by_cases h : b < 12
  · rw [ptr_direct h, ptr_direct h, field_same hinode (by rw [inoDbp]; omega)]
  · have heq : P.singly d' = P.singly d := field_same hinode (by decide)
    rw [near] at hb
    rw [ptr_singly (by omega) hb, ptr_singly (by omega) hb, heq, follow_same hsingly (by omega)]

/-- The deep blocks only depend on themselves. -/
theorem ptr_deep_same (hdoubly : P.doubly d' = P.doubly d)
    (h : ∀ x, P.Deep d x → SameBlock P.bs d d' x) {b : Nat} (hb : P.near ≤ b) (hr : b < P.reach) :
    P.ptr d' b = P.ptr d b := by
  have hlt : b - P.near < P.ppb * P.ppb := by
    rw [reach] at hr
    omega
  have hpos : 0 < P.ppb := Nat.pos_of_mul_pos_right (Nat.zero_lt_of_lt hlt)
  have hc : (b - P.near) / P.ppb < P.ppb := Nat.div_lt_of_lt_mul hlt
  have hnext : P.follow d' (P.doubly d') ((b - P.near) / P.ppb) =
      P.follow d (P.doubly d) ((b - P.near) / P.ppb) := by
    rw [hdoubly]
    exact follow_same (fun hx => h _ ⟨hx, .inl rfl⟩) hc
  rw [ptr_doubly hb, ptr_doubly hb, hnext]
  exact follow_same (fun hx => h _ ⟨hx, .inr (.inl ⟨_, hc, rfl⟩)⟩) (Nat.mod_lt _ hpos)

theorem deep_same (hdoubly : P.doubly d' = P.doubly d)
    (h : ∀ x, P.Deep d x → SameBlock P.bs d d' x) (x : Nat) : P.Deep d' x ↔ P.Deep d x := by
  have hnext : ∀ c < P.ppb, P.follow d' (P.doubly d) c = P.follow d (P.doubly d) c := fun c hc =>
    follow_same (fun hx => h _ ⟨hx, .inl rfl⟩) hc
  rw [Deep, Deep, hdoubly]
  refine and_congr_right fun _ => or_congr_right (or_congr ?_ ?_)
  · exact exists_congr fun c => and_congr_right fun hc => by rw [hnext c hc]
  · exact exists_congr fun b => and_congr_right fun hb => and_congr_right fun hr => by
      rw [ptr_deep_same hdoubly h hb hr]

end InodePlace

end Levos.Fs
