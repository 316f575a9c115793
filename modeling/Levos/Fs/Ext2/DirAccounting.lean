import Levos.Fs.Ext2.DirAtomic

/-!
# Sizes and links of new inodes (`fs/ext2/dir.c`, `fs/ext2/file.c`)

The end of `__ext2_place_dirent` counts a link of the inode that the entry is
for. It also adds a block to the size of that inode when it has not as many
sectors as the directory of the entry had, where it should have asked whether
the directory has more sectors than before. A new file, without sectors, gets
the size of a block in this way; and so does each of the two directories of
`ext2_mkdir` when the parent has not exactly one block.
-/

namespace Levos.Fs

open Levos.Base Levos.Kernel

namespace InodePlace

variable (P : InodePlace)

/-- The link count. -/
def links (d : Nat → UInt8) : Nat := le16 d (P.addr + inoHardlinks)

/-- The number of its blocks. -/
def blocks (d : Nat → UInt8) : Nat := ((Finset.range P.reach).filter fun b => P.ptr d b ≠ 0).card

/-- The logical blocks depend on the numbers in the inode and on the indirect
blocks. -/
theorem ptr_of_fields {P : InodePlace} {d d' : Nat → UInt8}
    (hfield : ∀ f, inoDbp ≤ f → f + 4 ≤ 128 → P.field d' f = P.field d f)
    (hsingly : P.singly d ≠ 0 → SameBlock P.bs d d' (P.singly d))
    (hdeep : ∀ x, P.Deep d x → SameBlock P.bs d d' x) {b : Nat} (hb : b < P.reach) :
    P.ptr d' b = P.ptr d b := by
  rcases Nat.lt_or_ge b P.near with hn | hn
  · by_cases h12 : b < 12
    · rw [ptr_direct h12, ptr_direct h12]
      exact hfield _ (Nat.le_add_right _ _) (by rw [inoDbp]; omega)
    · have hs : P.singly d' = P.singly d := hfield _ (by decide) (by decide)
      rw [ptr_singly (by omega) hn, ptr_singly (by omega) hn, hs]
      rw [near] at hn
      exact follow_same hsingly (by omega)
  · exact ptr_deep_same (hfield _ (by decide) (by decide)) hdeep hn hb

theorem blocks_congr {P : InodePlace} {d d' : Nat → UInt8}
    (h : ∀ b < P.reach, P.ptr d' b = P.ptr d b) : P.blocks d' = P.blocks d := by
  rw [blocks, blocks]
  congr 1
  refine Finset.filter_congr fun b hb => ?_
  rw [h b (Finset.mem_range.mp hb)]

end InodePlace

/-! ## The link -/

section Link

variable {P : InodePlace} {d : Nat → UInt8} {oldSecs : Nat}

theorem linkedDisk_links : P.links (linkedDisk P d oldSecs) = (P.links d + 1) % 65536 := by
  have hput : P.links (put16 d (P.addr + inoHardlinks) (P.links d + 1)) = (P.links d + 1) % 65536 :=
    le16_put16_mod _ _ _
  rw [linkedDisk]
  split
  · rw [← hput]
    apply le16_congr
    · exact put32_of_ne (by rw [inoSize, inoHardlinks]; omega)
    · exact put32_of_ne (by rw [inoSize, inoHardlinks]; omega)
  · exact hput

theorem linkedDisk_size : P.size (linkedDisk P d oldSecs) =
    if P.sectors d ≠ oldSecs then (P.size d + P.bs) % 2 ^ 32 else P.size d := by
  rw [linkedDisk]
  split
  · exact le32_put32_mod _ _ _
  · refine le32_congr fun k hk => ?_
    exact put16_of_ne (by rw [inoSize, inoHardlinks]; omega)

end Link

section After

variable {count ino target x : Nat} {place : Nat → InodePlace} {fs : Ext2Fs}

/-- What the entry's inode is after the entry was placed. -/
theorem afterPlace_target (heap dirent : Nat → UInt8) (last size : Nat)
    (h : InodeTable count place fs) (hino : 0 < ino ∧ ino ≤ count)
    (htarget : 0 < target ∧ target ≤ count) (hx : TableFree count place x) :
    (place target).links (afterPlace place heap fs ino target x last size dirent) =
        ((place target).links fs.disk + 1) % 65536 ∧
      (place target).size (afterPlace place heap fs ino target x last size dirent) =
        if (place target).sectors fs.disk ≠ (place ino).sectors fs.disk then
          ((place target).size fs.disk + (place target).bs) % 2 ^ 32
        else (place target).size fs.disk := by
  have hsame : SameBlock (place target).bs fs.disk
      (placedDisk (place ino) heap fs x dirent last size) (place target).block := by
    rw [h.bs_eq htarget.1 htarget.2 hino.1 hino.2]
    exact placedDisk_same (hx.notInode target htarget.1 htarget.2).symm
  have hsectors : (place target).sectors (placedDisk (place ino) heap fs x dirent last size) =
      (place target).sectors fs.disk := InodePlace.field_same hsame (by decide)
  have hsize : (place target).size (placedDisk (place ino) heap fs x dirent last size) =
      (place target).size fs.disk := InodePlace.field_same hsame (by decide)
  have hfits := (place target).fits
  have hlen := (place target).inodesize_le
  rw [← InodePlace.bs] at hfits
  have hlinks : (place target).links (placedDisk (place ino) heap fs x dirent last size) =
      (place target).links fs.disk := by
    rw [InodePlace.links, InodePlace.links, InodePlace.addr, Nat.add_assoc]
    apply le16_congr
    · exact hsame.byte (by rw [inoHardlinks]; omega)
    · rw [Nat.add_assoc]
      exact hsame.byte (by rw [inoHardlinks]; omega)
  rw [afterPlace, linkedDisk_links, linkedDisk_size, hsectors, hsize, hlinks]
  exact ⟨rfl, rfl⟩

end After

/-! ## The first block of a directory -/

section First

variable {A : BlockAllocator} {I : InodeAllocator A} {P : InodePlace} {n ino r : Nat}
  {fs fs' : Ext2Fs} {heap dirent : Nat → UInt8}

/-- The disk when an inode without blocks got block `r`. -/
def firstMapped (P : InodePlace) (d : Nat → UInt8) (r : Nat) : Nat → UInt8 :=
  put32 (setBlock (put32 d (P.addr + inoDbp) r) P.bs r zeroBlock) (P.addr + inoDiskSectors) P.spb

theorem firstMapped_of_ne {d : Nat → UInt8} {a : Nat} (ha : a / P.bs ≠ P.block) (hr : a / P.bs ≠ r) :
    firstMapped P d r a = d a := by
  have hsec : firstMapped P d r a = setBlock (put32 d (P.addr + inoDbp) r) P.bs r zeroBlock a :=
    put32_field_of_ne (by decide) ha
  rw [hsec, setBlock_of_ne hr]
  exact put32_field_of_ne (by decide) ha

theorem ext2InodeAppendBlock_first (h : FsOk A P (n + 1) fs ino) {inode : Nat → UInt8}
    (hsync : Synced P fs.disk inode) (hsec : P.sectors fs.disk = 0) :
    ∃ r fs₁ inode', FreshBlock A.metadata A.used fs fs₁ r ∧ A.room n fs₁ ∧
      ext2InodeAppendBlock A.alloc fs ino inode =
        some ⟨(r : Int), setDisk fs₁ (firstMapped P fs₁.disk r), inode'⟩ := by
  obtain ⟨r, fs₁, heq, hfresh, hfs₁, hsame⟩ := h.alloc
  have hdata := h.fresh_data hfresh
  have hspb := P.two_le_spb
  have hbs := P.size_lt
  have hlt := hdata.writable.lt_two_pow
  have hsync₁ := hsync.of_same (hsame _ h.writable_inode)
  have hzero : le32 inode inoDiskSectors = 0 := (hsync.field (by decide)).trans hsec
  -- the block number, the zeros, and the sectors, one write after the other
  obtain ⟨hfs₂, -⟩ := hfs₁.setField (f := inoDbp) (by decide) r
  have hset : setBlockNumber A.alloc fs₁ inode ino 0 r =
      some (setDisk fs₁ (put32 fs₁.disk (P.addr + inoDbp) r), put32 inode inoDbp r) := by
    rw [setBlockNumber]
    dsimp only
    rw [if_pos (by norm_num)]
    exact congrArg (fun fs => some (fs, put32 inode inoDbp r))
      (hfs₁.inodeAt.writeInode_put32 hsync₁ (by decide) r)
  obtain ⟨d₃, hd₃⟩ : ∃ d, d = setBlock (put32 fs₁.disk (P.addr + inoDbp) r) P.bs r zeroBlock := ⟨_, rfl⟩
  have hwrite : ext2WriteBlock (setDisk fs₁ (put32 fs₁.disk (P.addr + inoDbp) r)) zeroBlock r =
      setDisk fs₁ d₃ := by
    rw [hfs₂.inodeAt.writeBlock_eq hdata.writable.lt, hd₃]
    rfl
  have hfs₃ : FsOk A P n (setDisk fs₁ d₃) ino :=
    (hfs₂.write hdata.writable fun a ha => by rw [hd₃, setBlock_of_ne ha]; rfl).1
  have hsync₃ := hfs₃.inodeAt.synced_reRead (put32 inode inoDbp r)
  have hsec₃ : P.sectors d₃ = 0 :=
    calc P.sectors d₃ = P.sectors (put32 fs₁.disk (P.addr + inoDbp) r) := by
          rw [hd₃]
          exact InodePlace.field_same (SameBlock.setBlock hdata.notInode.symm) (by decide)
      _ = P.sectors fs₁.disk := P.field_put32_of_ne _ (by decide)
      _ = P.sectors fs.disk := InodePlace.field_same (hsame _ h.writable_inode) (by decide)
      _ = 0 := hsec
  have hblocks : (setDisk fs₁ d₃).blocksize / 512 = P.spb := by
    rw [hfs₃.inodeAt.blocksize, InodePlace.bs, Nat.mul_div_cancel_left _ (by norm_num)]
  unfold ext2InodeAppendBlock allocateInodeBlock
  rw [heq, hzero, Nat.zero_div]
  dsimp only
  rw [if_neg hfresh.pos.ne', hset, Option.map_some]
  dsimp only
  rw [hwrite, hblocks]
  generalize reReadInode (setDisk fs₁ d₃) (put32 inode inoDbp r) ino = inode₃ at hsync₃
  have hfield₃ : le32 inode₃ inoDiskSectors = 0 := (hsync₃.field (by decide)).trans hsec₃
  rw [hfield₃, Nat.zero_add, Nat.one_mul, u32_of_lt (by omega), if_pos (by omega),
    hfs₃.inodeAt.writeInode_put32 hsync₃ (by decide), i32, if_pos hlt]
  refine ⟨r, fs₁, put32 inode₃ inoDiskSectors P.spb, hfresh, hfs₁.room, ?_⟩
  rw [firstMapped, ← hd₃]
  rfl

/-- The disk when it has its first entry as well. -/
def firstPlaced (P : InodePlace) (d : Nat → UInt8) (r : Nat) (dirent : Nat → UInt8) : Nat → UInt8 :=
  linkedDisk P (setBlock (firstMapped P d r) P.bs r (firstBlock P.bs dirent)) 0

/-- Only the inode and the block change. -/
theorem firstPlaced_outside {d : Nat → UInt8} {a : Nat}
    (ha : a < P.addr ∨ P.addr + P.inodesize ≤ a) (hr : a / P.bs ≠ r) :
    firstPlaced P d r dirent a = d a := by
  have hsize := P.inodesize_le
  rw [firstPlaced, linkedDisk_outside P _ _ (by rw [inoSize, inoHardlinks]; omega),
    setBlock_of_ne hr, firstMapped, put32_of_ne (by rw [inoDiskSectors]; omega), setBlock_of_ne hr,
    put32_of_ne (by rw [inoDbp]; omega)]

theorem firstPlaced_block {d : Nat → UInt8} (hr : r ≠ P.block) {j : Nat} (hj : j < P.bs) :
    blockBytes P (firstPlaced P d r dirent) r j = firstBlock P.bs dirent j := by
  have hsame : SameBlock P.bs (setBlock (firstMapped P d r) P.bs r (firstBlock P.bs dirent))
      (firstPlaced P d r dirent) r := linkedDisk_same _ _ hr
  exact (hsame.byte hj).trans (setBlock_apply hj)

/-- The fields of the inode before the link is counted. -/
theorem firstMapped_field {d : Nat → UInt8} (hr : r ≠ P.block) {f : Nat} (hf : f + 4 ≤ 128) :
    P.field (setBlock (firstMapped P d r) P.bs r (firstBlock P.bs dirent)) f =
      P.field (put32 (put32 d (P.addr + inoDbp) r) (P.addr + inoDiskSectors) P.spb) f := by
  have hlast : P.field (setBlock (firstMapped P d r) P.bs r (firstBlock P.bs dirent)) f =
      P.field (firstMapped P d r) f := InodePlace.field_same (SameBlock.setBlock hr.symm) hf
  rw [hlast, firstMapped]
  refine InodePlace.field_same (fun a ha => ?_) hf
  have hset : setBlock (put32 d (P.addr + inoDbp) r) P.bs r zeroBlock a =
      put32 d (P.addr + inoDbp) r a := setBlock_of_ne (ha ▸ hr.symm)
  generalize put32 d (P.addr + inoDbp) r = d₁ at hset ⊢
  simp only [put32, put16, hset]

/-- One block, and its size. -/
theorem firstPlaced_inode (dirent : Nat → UInt8) {d : Nat → UInt8} (hr : r ≠ P.block) (hlt : r < 2 ^ 32) :
    P.ptr (firstPlaced P d r dirent) 0 = r ∧ P.sectors (firstPlaced P d r dirent) = P.spb ∧
      P.size (firstPlaced P d r dirent) = (P.size d + P.bs) % 2 ^ 32 ∧
      ∀ f, inoDbp + 4 ≤ f → f + 4 ≤ 128 →
        P.field (firstPlaced P d r dirent) f = P.field d f := by
  have hspb := P.two_le_spb
  have hsmall := P.size_lt
  have hsec : P.sectors (setBlock (firstMapped P d r) P.bs r (firstBlock P.bs dirent)) = P.spb :=
    (firstMapped_field hr (by decide)).trans (P.field_put32 _ _ (by omega))
  have hsize : P.size (setBlock (firstMapped P d r) P.bs r (firstBlock P.bs dirent)) = P.size d :=
    (firstMapped_field hr (by decide)).trans
      ((P.field_put32_of_ne _ (by decide)).trans (P.field_put32_of_ne _ (by decide)))
  have hlinked : ∀ f, inoHardlinks + 2 ≤ f → f + 4 ≤ 128 →
      P.field (firstPlaced P d r dirent) f =
        P.field (setBlock (firstMapped P d r) P.bs r (firstBlock P.bs dirent)) f := fun f hf _ =>
    le32_congr fun k _ => linkedDisk_outside P _ _ (.inr (by rw [inoHardlinks] at hf ⊢; omega))
  refine ⟨?_, ?_, ?_, fun f hf hf' => ?_⟩
  · rw [InodePlace.ptr_direct (by norm_num), Nat.mul_zero, hlinked _ (by decide) (by decide),
      firstMapped_field hr (by decide)]
    exact (P.field_put32_of_ne _ (by decide)).trans (P.field_put32 _ _ hlt)
  · exact (hlinked _ (by decide) (by decide)).trans hsec
  · rw [firstPlaced, linkedDisk_size, hsec, hsize, if_pos (by omega)]
  · rw [hlinked f (by rw [inoHardlinks, inoDbp] at *; omega) hf', firstMapped_field hr hf']
    exact (P.field_put32_of_ne _ (by rw [inoDiskSectors, inoDbp] at *; omega)).trans
      (P.field_put32_of_ne _ (.inl hf))

/-- The first entry of a directory, "." -/
theorem ext2PlaceDirent_empty (heap : Nat → UInt8) (h : FsOk A P (n + 1) fs ino) (hsec : P.sectors fs.disk = 0)
    (hptr : P.ptr fs.disk 0 = 0) (hd : entInode dirent 0 = ino) :
    ∃ r fs₁, FreshBlock A.metadata A.used fs fs₁ r ∧ A.room n fs₁ ∧
      ext2PlaceDirent A.alloc heap fs ino dirent =
        some (0, setDisk fs₁ (firstPlaced P fs₁.disk r dirent)) := by
  have hsync : Synced P fs.disk (reReadInode fs heap ino) := h.inodeAt.synced_reRead heap
  obtain ⟨r, fs₁, inode', hfresh, hroom, happend⟩ := ext2InodeAppendBlock_first h hsync hsec
  have hdata := h.fresh_data hfresh
  have hlt := hdata.writable.lt_two_pow
  have htables : ∀ j < 4, fs₁.disk (P.table + j) = fs.disk (P.table + j) := by
    rw [← h.inodeAt.table]
    exact hfresh.tables ino (h.inodeAt.blocksize ▸ h.inodeAt.group)
  have hat₁ : InodeAt P fs₁ ino := h.inodeAt.congr hfresh.geometry htables
  have hmapped : InodeAt P (setDisk fs₁ (firstMapped P fs₁.disk r)) ino := by
    refine hat₁.congr ⟨rfl, rfl, rfl, rfl, rfl, rfl⟩ fun j hj => ?_
    have hout := hdata.writable.notTable j hj
    have hinode := P.table_ne j hj
    rw [← InodePlace.bs] at hinode
    exact firstMapped_of_ne hinode hout
  have hplaced : InodeAt P (setDisk fs₁
      (setBlock (firstMapped P fs₁.disk r) P.bs r (firstBlock P.bs dirent))) ino :=
    hmapped.congr ⟨rfl, rfl, rfl, rfl, rfl, rfl⟩ fun j hj =>
      setBlock_of_ne (hdata.writable.notTable j hj)
  have hzero : le32 (reReadInode fs heap ino) (inoDbp + 4 * 0) = 0 := by
    rw [hsync.field (by decide), ← InodePlace.ptr_direct (by norm_num), hptr]
  have hsectors : le32 (reReadInode fs heap ino) inoDiskSectors = 0 :=
    (hsync.field (by decide)).trans hsec
  have hno : inoOf (r : Int) = r := by
    rw [inoOf]
    omega
  refine ⟨r, fs₁, hfresh, hroom, ?_⟩
  rw [ext2PlaceDirent, readNewInode, if_pos h.inodeAt.hasDescriptor, Option.bind_some]
  unfold placeLoop
  dsimp only
  rw [if_pos hzero, happend, Option.map_some, Option.bind_some]
  dsimp only
  rw [hno, h.inodeAt.blocksize, hmapped.writeBlock_eq hdata.writable.lt, hsectors, hd]
  have hlink := @linkInode_eq _ _ _ heap hplaced 0
  exact congrArg (fun o => o.map fun fs => ((0 : Int), fs)) hlink

end First

/-! ## `ext2_mkdir`, step by step -/

section Steps

variable {A : BlockAllocator} {I : InodeAllocator A} {count n k l p r x y : Nat}
  {place : Nat → InodePlace} {fs fs' : Ext2Fs} {heap dirent : Nat → UInt8}

/-- The directory after its first entry. -/
structure DotPlaced (A : BlockAllocator) (count : Nat) (place : Nat → InodePlace) (k r : Nat)
    (dirent : Nat → UInt8) (fs fs' : Ext2Fs) : Prop where
  table : InodeTable count place fs'
  free : TableFree count place r
  pos : 0 < r
  unused : ¬ A.used fs r
  disk : ∀ a, a ∉ A.metadata → (a < (place k).addr ∨ (place k).addr + (place k).inodesize ≤ a) →
    a / (place k).bs ≠ r → fs'.disk a = fs.disk a
  ptr : (place k).ptr fs'.disk 0 = r
  sectors : (place k).sectors fs'.disk = (place k).spb
  size : (place k).size fs'.disk = ((place k).size fs.disk + (place k).bs) % 2 ^ 32
  fields : ∀ f, inoDbp + 4 ≤ f → f + 4 ≤ 128 → (place k).field fs'.disk f = (place k).field fs.disk f
  block : ∀ j < (place k).bs,
    blockBytes (place k) fs'.disk r j = firstBlock (place k).bs dirent j
  firstBgd : fs'.firstBgd = fs.firstBgd

theorem ext2PlaceDirent_dot (heap : Nat → UInt8) (h : FsWf A I count place (n + 1) fs) (hk : 0 < k ∧ k ≤ count)
    (hsec : (place k).sectors fs.disk = 0) (hptr : (place k).ptr fs.disk 0 = 0)
    (hd : entInode dirent 0 = k) :
    ∃ r fs', ext2PlaceDirent A.alloc heap fs k dirent = some (0, fs') ∧
      DotPlaced A count place k r dirent fs fs' := by
  have hok := h.ok k hk.1 hk.2
  obtain ⟨r, fs₁, hfresh, -, hrun⟩ := ext2PlaceDirent_empty heap hok hsec hptr hd
  have hdata : ∀ l, 0 < l → l ≤ count → DataBlock A (place l) fs₁ r := fun l hl hle =>
    (h.ok l hl hle).fresh_data hfresh
  have hfree : TableFree count place r :=
    ⟨fun l hl hle => (hdata l hl hle).writable.lt, fun l hl hle => (hdata l hl hle).notInode,
      fun l hl hle => (hdata l hl hle).writable.notTable⟩
  have hne := hfree.notInode k hk.1 hk.2
  have hlt := (hdata k hk.1 hk.2).writable.lt_two_pow
  have hinode : SameBlock (place k).bs fs.disk fs₁.disk (place k).block := fun a ha =>
    hfresh.disk a fun hmem => hok.metaInode a hmem ha
  have htable : InodeTable count place fs₁ := by
    refine ⟨h.table.count_lt, fun l hl hle => ?_, h.table.apart⟩
    have hat := h.table.inodeAt l hl hle
    refine hat.congr hfresh.geometry ?_
    rw [← hat.table]
    exact hfresh.tables l (hat.blocksize ▸ hat.group)
  obtain ⟨hptr', hsec', hsize', hfields'⟩ :=
    firstPlaced_inode dirent (d := fs₁.disk) hne (by omega : r < 2 ^ 32)
  refine ⟨r, _, hrun, htable.changed fun l hl hle j hj => ?_, hfree, hfresh.pos, hfresh.unused, ?_,
    hptr', hsec', ?_, ?_, fun j hj => firstPlaced_block hne hj, hfresh.geometry.firstBgd⟩
  · -- the descriptors are in no block of inodes
    have hcross := h.cross l k hl hle hk.1 hk.2 j hj
    have hout := hfree.notTable l hl hle j hj
    rw [h.table.bs_eq hl hle hk.1 hk.2] at hcross hout
    refine firstPlaced_outside ?_ hout
    by_contra hin
    rw [not_or, not_lt, not_le] at hin
    exact hcross (InodePlace.div_of_mem hin.1 hin.2)
  · intro a hmeta ha hr
    exact (firstPlaced_outside ha hr).trans (hfresh.disk a hmeta)
  · have hsame : (place k).size fs₁.disk = (place k).size fs.disk :=
      InodePlace.field_same hinode (by decide)
    exact hsize'.trans (by rw [hsame])
  · intro f hf hf'
    exact (hfields' f hf hf').trans (InodePlace.field_same hinode hf')

/-- The other inodes are what they were. -/
theorem DotPlaced.field_same (hd : DotPlaced A count place k r dirent fs fs')
    (h : FsWf A I count place n fs) (hk : 0 < k ∧ k ≤ count) (hl : 0 < l ∧ l ≤ count) (hne : l ≠ k)
    {f : Nat} (hf : f + 4 ≤ 128) : (place l).field fs'.disk f = (place l).field fs.disk f := by
  have hsize := (place l).inodesize_le
  have hapart := h.table.apart l k hl.1 hl.2 hk.1 hk.2 hne
  refine le32_congr fun j hj => ?_
  have hdiv : ((place l).addr + f + j) / (place l).bs = (place l).block :=
    InodePlace.div_of_mem (by omega) (by omega)
  refine hd.disk _ (fun hmem => (h.ok l hl.1 hl.2).metaInode _ hmem hdiv) (by omega) ?_
  rw [← h.table.bs_eq hl.1 hl.2 hk.1 hk.2, hdiv]
  exact (hd.free.notInode l hl.1 hl.2).symm

/-- Data blocks are what they were. -/
theorem DotPlaced.data_same (hd : DotPlaced A count place k r dirent fs fs') (hk : 0 < k ∧ k ≤ count)
    (hy : DataForAll A count place fs y) :
    SameBlock (place k).bs fs.disk fs'.disk y := by
  have hdata := hy k hk.1 hk.2
  intro a ha
  refine hd.disk a (fun hmem => hdata.writable.notMeta a hmem ha) ?_ fun hr => ?_
  · by_contra hin
    rw [not_or, not_lt, not_le] at hin
    exact hdata.notInode (ha.symm.trans (InodePlace.div_of_mem hin.1 hin.2))
  · exact hd.unused (hr ▸ ha ▸ hdata.used)

theorem DotPlaced.header (hd : DotPlaced A count place k r dirent fs fs') :
    entSize (blockBytes (place k) fs'.disk r) 0 = (place k).bs % 65536 ∧
      direntMinLength (blockBytes (place k) fs'.disk r) 0 = direntMinLength dirent 0 := by
  have hge := (place k).bs_ge
  obtain ⟨hsize, hlen⟩ := firstBlock_header (place k).bs dirent
  constructor
  · rw [← hsize]
    exact entSize_congr (hd.block _ (by omega)) (hd.block _ (by omega))
  · rw [← hlen, direntMinLength, direntMinLength, entNamelength, entNamelength, hd.block _ (by omega)]

/-- The first entry fills the block, if its size can be stored. -/
theorem DotPlaced.first (hd : DotPlaced A count place k r dirent fs fs') (hk : 0 < k ∧ k ≤ count)
    (hbs : (place k).bs < 65536) : FirstBlock (place k) fs'.disk r [] 0 := by
  have hge := (place k).bs_ge
  have hmin := direntMinLength_lt dirent 0
  obtain ⟨hsize, hlen⟩ := hd.header
  rw [Nat.mod_eq_of_lt hbs] at hsize
  refine ⟨hd.ptr, hd.pos.ne', hd.free.lt k hk.1 hk.2, rfl, ?_, ?_⟩
  · rw [hlen, hsize]
    omega
  · rw [Nat.zero_add, hsize]

/-- A first entry without a size is a panic. -/
theorem ext2PlaceDirent_panic {P : InodePlace} (alloc : Ext2Fs → Int × Ext2Fs)
    (heap : Nat → UInt8) (h : InodeAt P fs k) (hptr : P.ptr fs.disk 0 = x) (hx : x ≠ 0)
    (hlt : x * P.spb < 2 ^ 32) (hsize : entSize (blockBytes P fs.disk x) 0 = 0) :
    ext2PlaceDirent alloc heap fs k dirent = none := by
  have hge := P.bs_ge
  have hdbp : le32 (reReadInode fs heap k) (inoDbp + 4 * 0) = x := by
    rw [(h.synced_reRead heap).field (by decide), ← hptr, InodePlace.ptr_direct (by norm_num)]
  have hbyte : ∀ j < P.bs, readNewBlock heap fs x j = blockBytes P fs.disk x j := fun _ hj =>
    readNewBlock_apply h hlt hj
  have hbuffer : entSize (readNewBlock heap fs x) 0 = 0 :=
    (entSize_congr (hbyte 4 (by omega)) (hbyte 5 (by omega))).trans hsize
  have hpanic : ∀ bs, 0 < bs → placeInBlock bs (readNewBlock heap fs x) dirent = none := by
    intro bs hpos
    obtain ⟨m, rfl⟩ := Nat.exists_eq_succ_of_ne_zero hpos.ne'
    rw [placeInBlock, findLargestSpace, if_pos hpos, if_pos hbuffer]
    rfl
  rw [ext2PlaceDirent, readNewInode, if_pos h.hasDescriptor, Option.bind_some]
  unfold placeLoop
  dsimp only
  rw [hdbp, if_neg hx, hpanic _ (by rw [h.blocksize]; omega)]
  rfl

/-! ### The group descriptor -/

/-- The block of the descriptors has the fields that name the inode tables. -/
theorem InodeAt.firstBgd_eq {P : InodePlace} (h : InodeAt P fs k)
    (hfirst : fs.firstBgd * P.spb < 2 ^ 32) : P.table / P.bs = fs.firstBgd := by
  have hgroup := h.group
  rw [← h.table, tableField, h.blockAddr_eq hfirst]
  exact block_div (by rw [bgdInodeTable]; omega)

theorem countDirectory_same {P : InodePlace} (h : InodeAt P fs k)
    (hfirst : fs.firstBgd * P.spb < 2 ^ 32) (hy : y ≠ fs.firstBgd) :
    SameBlock P.bs fs.disk (countDirectory fs k).disk y := by
  rw [countDirectory, h.writeBlock_eq hfirst]
  exact SameBlock.setBlock hy

end Steps

/-! ## The sizes at the end -/

/-- A directory: in use, with entries in its first block, and a size that is
that of its blocks. The blocks that lead to others are data as well. -/
structure DirWf (A : BlockAllocator) (I : InodeAllocator A) (count : Nat) (place : Nat → InodePlace)
    (fs : Ext2Fs) (p : Nat) : Prop extends InodeInUse A I count place fs p where
  first : ∃ init last, FirstBlock (place p) fs.disk ((place p).ptr fs.disk 0) init last
  singly : (place p).singly fs.disk ≠ 0 →
    DataForAll A count place fs ((place p).singly fs.disk) ∧
      (place p).singly fs.disk ≠ (place p).ptr fs.disk 0
  deep : ∀ y, (place p).Deep fs.disk y →
    DataForAll A count place fs y ∧ y ≠ (place p).ptr fs.disk 0
  sectors : (place p).sectors fs.disk ≠ 0
  size : (place p).size fs.disk = (place p).bs * (place p).blocks fs.disk

section Sizes

variable {A : BlockAllocator} {I : InodeAllocator A} {count n k p : Nat}
  {place : Nat → InodePlace} {fs fs' fs₀ : Ext2Fs} {heap rec : Nat → UInt8}

theorem newDirInode_field {f : Nat} (hf : 2 ≤ f) (hf' : f + 4 ≤ 128) :
    le32 (newDirInode heap) f = 0 := by
  have hzero : le32 (newDirInode heap) f = le32 (fun _ => 0) f := le32_congr fun j hj => by
    rw [newDirInode, if_pos (by rw [inodeSize]; omega), put16_of_ne (by rw [inoType]; omega)]
  exact hzero

/-- What the sizes are when a directory was made in the directory `p`. -/
structure NewDirSizes (count : Nat) (place : Nat → InodePlace) (k p : Nat) (d d' : Nat → UInt8) :
    Prop where
  blocks : (place k).blocks d' = 1
  size : (place k).size d' =
    if (place k).spb ≠ (place p).sectors d then ((place k).bs + (place k).bs) % 2 ^ 32
    else (place k).bs
  parentBlocks : (place p).blocks d' = (place p).blocks d
  parentSize : (place p).size d' =
    if (place p).sectors d ≠ (place k).spb then ((place p).size d + (place p).bs) % 2 ^ 32
    else (place p).size d
  others : ∀ l, 0 < l → l ≤ count → l ≠ k → l ≠ p → (place l).size d' = (place l).size d

/-- An inode with one block. -/
theorem InodePlace.blocks_one {P : InodePlace} {d : Nat → UInt8} (h0 : P.ptr d 0 ≠ 0)
    (hzero : ∀ f, inoDbp + 4 ≤ f → f + 4 ≤ 128 → P.field d f = 0) : P.blocks d = 1 := by
  have hptr : ∀ b, b ≠ 0 → P.ptr d b = 0 := by
    intro b hb
    have hsingly : P.singly d = 0 := hzero _ (by decide) (by decide)
    have hdoubly : P.doubly d = 0 := hzero _ (by decide) (by decide)
    rw [InodePlace.ptr, hsingly, hdoubly]
    split
    next h12 => exact hzero _ (by omega) (by rw [inoDbp]; omega)
    next => split <;> rfl
  have hreach : 0 < P.reach := by
    rw [InodePlace.reach, InodePlace.near]
    omega
  rw [InodePlace.blocks, Finset.card_eq_one]
  refine ⟨0, ?_⟩
  ext b
  simp only [Finset.mem_filter, Finset.mem_range, Finset.mem_singleton]
  constructor
  · rintro ⟨-, hb⟩
    by_contra hne
    exact hb (hptr b hne)
  · rintro rfl
    exact ⟨hreach, h0⟩

/-- A new inode changes nothing of a directory. -/
theorem DirWf.made (hp : DirWf A I count place fs p) (h : FsWf A I count place n fs)
    (hm : InodeMade A I place rec k fs fs') : DirWf A I count place fs' p ∧
      ∀ b < (place p).reach, (place p).ptr fs'.disk b = (place p).ptr fs.disk b := by
  have hfield := fun f (hf : f + 4 ≤ 128) => hm.field_same h hp.valid (hm.ne hp.taken) hf
  have hdata : ∀ y, DataForAll A count place fs y →
      DataForAll A count place fs' y ∧ SameBlock (place p).bs fs.disk fs'.disk y := fun y hy =>
    ⟨fun l hl hle => (hy l hl hle).keeps hm.used, hm.data_same h hp.valid hy⟩
  have hsingly : (place p).singly fs'.disk = (place p).singly fs.disk := hfield _ (by decide)
  have hdoubly : (place p).doubly fs'.disk = (place p).doubly fs.disk := hfield _ (by decide)
  have hdeep : ∀ y, (place p).Deep fs.disk y → SameBlock (place p).bs fs.disk fs'.disk y :=
    fun y hy => (hdata y (hp.deep y hy).1).2
  have hptr : ∀ b < (place p).reach, (place p).ptr fs'.disk b = (place p).ptr fs.disk b :=
    fun b hb => InodePlace.ptr_of_fields (fun f _ hf => hfield f hf)
      (fun h0 => (hdata _ (hp.singly h0).1).2) hdeep hb
  have hptr0 : (place p).ptr fs'.disk 0 = (place p).ptr fs.disk 0 :=
    hm.ptr_same h hp.valid (hm.ne hp.taken) (by norm_num)
  refine ⟨⟨hp.toInodeInUse.made h hm, ?_, fun h0 => ?_, fun y hy => ?_, ?_, ?_⟩, hptr⟩
  · obtain ⟨init, last, hb⟩ := hp.first
    rw [hptr0]
    exact ⟨init, last, hb.same hptr0 (hdata _ (hp.data 0 (by norm_num) hb.ne_zero)).2⟩
  · rw [hsingly] at h0 ⊢
    rw [hptr0]
    exact ⟨(hdata _ (hp.singly h0).1).1, (hp.singly h0).2⟩
  · rw [InodePlace.deep_same hdoubly hdeep] at hy
    rw [hptr0]
    exact ⟨(hdata y (hp.deep y hy).1).1, (hp.deep y hy).2⟩
  · exact fun h0 => hp.sectors ((hfield _ (by decide)).symm.trans h0)
  · rw [InodePlace.blocks_congr hptr, ← hp.size]
    exact hfield _ (by decide)

/-- What two entries and the count of directories change: the entry ".." of the
directory `k`, which is for `p`, and an entry of `p` for `k`. -/
structure EntriesPlaced (count : Nat) (place : Nat → InodePlace) (k p r x : Nat) (d d' : Nat → UInt8) :
    Prop where
  fields : ∀ l, 0 < l → l ≤ count → ∀ f, f + 4 ≤ 128 → (l ≠ k ∧ l ≠ p ∨ inoHardlinks + 2 ≤ f) →
    (place l).field d' f = (place l).field d f
  blocks : ∀ y, TableFree count place y → y ≠ r → y ≠ x → SameBlock (place k).bs d d' y
  size : (place k).size d' = if (place k).sectors d ≠ (place p).sectors d then
    ((place k).size d + (place k).bs) % 2 ^ 32 else (place k).size d
  parentSize : (place p).size d' = if (place p).sectors d ≠ (place k).sectors d then
    ((place p).size d + (place p).bs) % 2 ^ 32 else (place p).size d

theorem entriesPlaced {r x last last' size size' : Nat} {dirent dirent' : Nat → UInt8}
    (h : InodeTable count place fs)
    (hcross : ∀ k l, 0 < k → k ≤ count → 0 < l → l ≤ count →
      ∀ j < 4, ((place k).table + j) / (place k).bs ≠ (place l).block)
    (hk : 0 < k ∧ k ≤ count) (hp : 0 < p ∧ p ≤ count) (hne : p ≠ k)
    (hr : TableFree count place r) (hx : TableFree count place x)
    (hfirst : fs.firstBgd * fs.sectorsPerBlock < 2 ^ 32)
    (hfs : setDisk fs (afterPlace place heap fs k p r last size dirent) = fs')
    (hfs' : setDisk fs' (afterPlace place heap fs' p k x last' size' dirent') = fs₀) :
    EntriesPlaced count place k p r x fs.disk (countDirectory fs₀ k).disk := by
  have hbs := h.bs_eq hp.1 hp.2 hk.1 hk.2
  have htable : InodeTable count place fs' := hfs ▸ h.placed hcross hk hp hr
  have htable' : InodeTable count place fs₀ := hfs' ▸ htable.placed hcross hp hk hx
  have hat := htable'.inodeAt k hk.1 hk.2
  have hgeometry : fs₀.firstBgd = fs.firstBgd ∧ fs₀.sectorsPerBlock = fs.sectorsPerBlock := by
    subst hfs' hfs
    exact ⟨rfl, rfl⟩
  have hfirst' : fs₀.firstBgd * (place k).spb < 2 ^ 32 := by
    rw [← hat.sectors, hgeometry.1, hgeometry.2]
    exact hfirst
  have hbgd : (place k).table / (place k).bs = fs₀.firstBgd := hat.firstBgd_eq hfirst'
  -- the three steps on the fields of an inode
  have hcount : ∀ l, 0 < l → l ≤ count → ∀ f, f + 4 ≤ 128 →
      (place l).field (countDirectory fs₀ k).disk f = (place l).field fs₀.disk f := by
    intro l hl hle f hf
    refine InodePlace.field_same ?_ hf
    rw [h.bs_eq hl hle hk.1 hk.2]
    refine countDirectory_same hat hfirst' fun heq => ?_
    exact hcross k l hk.1 hk.2 hl hle 0 (by norm_num) (hbgd.trans heq.symm)
  have hstep : ∀ l, 0 < l → l ≤ count → ∀ f, f + 4 ≤ 128 → l ≠ p ∨ inoHardlinks + 2 ≤ f →
      (place l).field fs'.disk f = (place l).field fs.disk f := by
    intro l hl hle f hf hout
    rw [← hfs]
    exact afterPlace_field h hk hp hr hl hle hf hout
  have hstep' : ∀ l, 0 < l → l ≤ count → ∀ f, f + 4 ≤ 128 → l ≠ k ∨ inoHardlinks + 2 ≤ f →
      (place l).field fs₀.disk f = (place l).field fs'.disk f := by
    intro l hl hle f hf hout
    rw [← hfs']
    exact afterPlace_field htable hp hk hx hl hle hf hout
  refine ⟨fun l hl hle f hf hout => ?_, fun y hy hyr hyx => ?_, ?_, ?_⟩
  · rw [hcount l hl hle f hf, hstep' l hl hle f hf (by omega), hstep l hl hle f hf (by omega)]
  · have hfar : y ≠ fs₀.firstBgd := fun heq =>
      hy.notTable k hk.1 hk.2 0 (by norm_num) (hbgd.trans heq.symm)
    refine SameBlock.trans ?_ (countDirectory_same hat hfirst' hfar)
    have hfst : SameBlock (place k).bs fs.disk fs'.disk y := by
      rw [← hfs]
      exact afterPlace_same h hk hp hy hyr
    refine hfst.trans ?_
    rw [← hfs', ← hbs]
    exact afterPlace_same htable hp hk hy hyx
  · have hsize : (place k).size fs₀.disk = if (place k).sectors fs'.disk ≠ (place p).sectors fs'.disk
        then ((place k).size fs'.disk + (place k).bs) % 2 ^ 32 else (place k).size fs'.disk := by
      rw [← hfs']
      exact (afterPlace_target heap dirent' last' size' htable hp hk hx).2
    have hold : (place k).size fs'.disk = (place k).size fs.disk :=
      hstep k hk.1 hk.2 _ (by decide) (.inl hne.symm)
    have hsec : (place k).sectors fs'.disk = (place k).sectors fs.disk :=
      hstep k hk.1 hk.2 _ (by decide) (.inr (by decide))
    have hsec' : (place p).sectors fs'.disk = (place p).sectors fs.disk :=
      hstep p hp.1 hp.2 _ (by decide) (.inr (by decide))
    rw [hold, hsec, hsec'] at hsize
    exact (hcount k hk.1 hk.2 _ (by decide)).trans hsize
  · have hsize : (place p).size fs'.disk = if (place p).sectors fs.disk ≠ (place k).sectors fs.disk
        then ((place p).size fs.disk + (place p).bs) % 2 ^ 32 else (place p).size fs.disk := by
      rw [← hfs]
      exact (afterPlace_target heap dirent last size h hk hp hr).2
    have hold : (place p).size fs₀.disk = (place p).size fs'.disk :=
      hstep' p hp.1 hp.2 _ (by decide) (.inl hne)
    exact (hcount p hp.1 hp.2 _ (by decide)).trans (hold.trans hsize)

/-- The entry ".." in a new directory and the entry for it in its parent: the
sizes of the two are those of the places where an entry counts as a block. -/
theorem makeDirectory_sizes {fs₁ fs₂ fs₃ : Ext2Fs} {name : List UInt8}
    (h : FsWf A I count place (n + 1) fs) (hp : DirWf A I count place fs p)
    (hk : 0 < k ∧ k ≤ count) (hne : p ≠ k)
    (hnew : ∀ f, 2 ≤ f → f + 4 ≤ 128 → (place k).field fs.disk f = 0)
    (hbs : fs.blocksize ≤ 65536) (hfirst : fs.firstBgd * fs.sectorsPerBlock < 2 ^ 32)
    (h₁ : ext2PlaceDirent A.alloc heap fs k (ext2NewDirent k [46]) = some (0, fs₁))
    (h₂ : ext2PlaceDirent A.alloc heap fs₁ k (ext2NewDirent p [46, 46]) = some (0, fs₂))
    (h₃ : ext2PlaceDirent A.alloc heap fs₂ p (ext2NewDirent k name) = some (0, fs₃)) :
    NewDirSizes count place k p fs.disk (countDirectory fs₃ k).disk := by
  have hlt := h.table.count_lt
  have hpv := hp.valid
  have hkbs := (h.table.inodeAt k hk.1 hk.2).blocksize
  have hptr0 : (place k).ptr fs.disk 0 = 0 := by
    rw [InodePlace.ptr_direct (by norm_num)]
    exact hnew _ (by decide) (by decide)
  -- the first entry
  obtain ⟨r, fs₁', hrun, hd⟩ := ext2PlaceDirent_dot heap h hk (hnew _ (by decide) (by decide)) hptr0
    (newDirent_inode (by omega) [46])
  obtain ⟨-, rfl⟩ := Prod.mk.inj (Option.some.inj (hrun.symm.trans h₁))
  have hsmall : (place k).bs < 65536 := by
    by_contra hlarge
    rw [ext2PlaceDirent_panic A.alloc heap (hd.table.inodeAt k hk.1 hk.2) hd.ptr hd.pos.ne'
      (hd.free.lt k hk.1 hk.2) (hd.header.1.trans ?_)] at h₂
    · cases h₂
    · rw [show (place k).bs = 65536 by omega]
  -- the second one, in the block of the first
  rw [ext2PlaceDirent_eq A.alloc heap hd.table hk hpv (hd.first hk hsmall) hd.free
    (newDirent_inode (by omega) _)] at h₂
  obtain ⟨size₂, -, heq₂⟩ := Option.map_eq_some_iff.mp h₂
  obtain ⟨-, rfl⟩ := Prod.mk.inj heq₂
  -- the one in the parent
  obtain ⟨init, last, hb⟩ := hp.first
  have hx := hp.data 0 (by norm_num) hb.ne_zero
  generalize hxdef : (place p).ptr fs.disk 0 = x at hb hx
  have hused : ∀ y, DataForAll A count place fs y → y ≠ r := fun y hy heq =>
    hd.unused (heq ▸ (hy k hk.1 hk.2).used)
  have hpk : (place p).bs = (place k).bs := h.table.bs_eq hpv.1 hpv.2 hk.1 hk.2
  have hdata : ∀ y, DataForAll A count place fs y → SameBlock (place p).bs fs.disk fs₁'.disk y :=
    fun y hy => by
      rw [hpk]
      exact hd.data_same hk hy
  have hfield₁ : ∀ f, f + 4 ≤ 128 → (place p).field fs₁'.disk f = (place p).field fs.disk f :=
    fun f hf => hd.field_same h hk hpv hne hf
  have hptr₁ : (place p).ptr fs₁'.disk 0 = (place p).ptr fs.disk 0 := by
    rw [InodePlace.ptr_direct (by norm_num), InodePlace.ptr_direct (by norm_num)]
    exact hfield₁ _ (by decide)
  have hb₁ : FirstBlock (place p) fs₁'.disk x init last := hb.same hptr₁ (hdata x hx)
  generalize hfs₂ : setDisk fs₁' (afterPlace place heap fs₁' k p r 0 size₂
    (ext2NewDirent p [46, 46])) = fs₂ at h₃
  have htable₂ : InodeTable count place fs₂ := hfs₂ ▸ hd.table.placed h.cross hk hpv hd.free
  have hb₂ : FirstBlock (place p) fs₂.disk x init last := by
    rw [← hfs₂]
    refine hb₁.same ?_ ?_
    · exact afterPlace_ptr hd.table hk hpv hd.free hpv.1 hpv.2 (by norm_num)
    · rw [hpk]
      exact afterPlace_same hd.table hk hpv hx.tableFree (hused x hx)
  rw [ext2PlaceDirent_eq A.alloc heap htable₂ hpv hk hb₂ hx.tableFree
    (newDirent_inode (by omega) _)] at h₃
  obtain ⟨size₃, -, heq₃⟩ := Option.map_eq_some_iff.mp h₃
  have hfs₃ := (Prod.mk.inj heq₃).2
  have hfirst₁ : fs₁'.firstBgd * fs₁'.sectorsPerBlock < 2 ^ 32 := by
    rw [hd.firstBgd, (hd.table.inodeAt k hk.1 hk.2).sectors, ← (h.table.inodeAt k hk.1 hk.2).sectors]
    exact hfirst
  have hplaced := entriesPlaced hd.table h.cross hk hpv hne hd.free hx.tableFree hfirst₁ hfs₂ hfs₃
  -- the sizes
  have hsize₁ : (place k).size fs₁'.disk = (place k).bs := by
    have hzero : (place k).size fs.disk = 0 := hnew _ (by decide) (by decide)
    rw [hd.size, hzero, Nat.zero_add, Nat.mod_eq_of_lt (by omega)]
  have hsec₁ : (place p).sectors fs₁'.disk = (place p).sectors fs.disk := hfield₁ _ (by decide)
  have hpsize₁ : (place p).size fs₁'.disk = (place p).size fs.disk := hfield₁ _ (by decide)
  have hlate : ∀ l, 0 < l → l ≤ count → ∀ f, inoDbp ≤ f → f + 4 ≤ 128 →
      (place l).field (countDirectory fs₃ k).disk f = (place l).field fs₁'.disk f :=
    fun l hl hle f hf hf' => hplaced.fields l hl hle f hf'
      (.inr (by rw [inoDbp] at hf; rw [inoHardlinks]; omega))
  refine ⟨InodePlace.blocks_one ?_ fun f hf hf' => ?_, ?_, InodePlace.blocks_congr fun b hb => ?_, ?_,
    fun l hl hle hlk hlp => ?_⟩
  · rw [InodePlace.ptr_direct (by norm_num), hlate k hk.1 hk.2 _ (by decide) (by decide),
      ← InodePlace.ptr_direct (by norm_num), hd.ptr]
    exact hd.pos.ne'
  · rw [hlate k hk.1 hk.2 f (by omega) hf', hd.fields f hf hf']
    exact hnew f (by rw [inoDbp] at hf; omega) hf'
  · have hsize := hplaced.size
    rw [hsize₁, hd.sectors, hsec₁] at hsize
    exact hsize
  · have hsame : ∀ y, DataForAll A count place fs y → y ≠ x →
        SameBlock (place p).bs fs.disk (countDirectory fs₃ k).disk y := by
      intro y hy hyx
      refine (hdata y hy).trans ?_
      rw [hpk]
      exact hplaced.blocks y hy.tableFree (hused y hy) hyx
    refine InodePlace.ptr_of_fields (fun f hf hf' => ?_) (fun h0 => ?_) (fun y hy => ?_) hb
    · rw [hlate p hpv.1 hpv.2 f hf hf', hfield₁ f hf']
    · exact hsame _ (hp.singly h0).1 (hxdef ▸ (hp.singly h0).2)
    · exact hsame y (hp.deep y hy).1 (hxdef ▸ (hp.deep y hy).2)
  · have hsize := hplaced.parentSize
    rw [hpsize₁, hd.sectors, hsec₁] at hsize
    exact hsize
  · exact (hplaced.fields l hl hle _ (by decide) (.inl ⟨hlk, hlp⟩)).trans
      (hd.field_same h hk ⟨hl, hle⟩ hlk (by decide))

end Sizes

/-! ## `ext2_create_file` and `ext2_mkdir` -/

section Main

variable {A : BlockAllocator} {I : InodeAllocator A} {count n : Nat} {place : Nat → InodePlace}
  {dirs : Nat → Prop} {fs fs' : Ext2Fs} {heap : Nat → UInt8} {path : List UInt8}

/-- A file was created when an entry was placed for it. -/
theorem ext2CreateFile_some {alloc allocIno : Ext2Fs → Int × Ext2Fs} {f : Ext2File}
    (h : ext2CreateFile alloc allocIno heap fs path = some (.ok f, fs')) :
    ∃ (base : Int) (name : List UInt8), 0 ≤ base ∧
      ext2FindFileInode heap (ext2NewInode allocIno fs).2 (pathGetPath path) = some base ∧
      ext2PlaceDirent alloc heap (ext2NewInode allocIno fs).2 base.toNat
        (ext2NewDirent (inoOf (ext2NewInode allocIno fs).1) name) = some (0, fs') := by
  rw [ext2CreateFile] at h
  obtain ⟨base, hbase, h⟩ := Option.bind_eq_some_iff.mp h
  by_cases hneg : base < 0
  · rw [if_pos hneg] at h
    cases h
  · rw [if_neg hneg] at h
    obtain ⟨name, -, h⟩ := Option.bind_eq_some_iff.mp h
    obtain ⟨⟨q, fs₁⟩, hplace, h⟩ := Option.bind_eq_some_iff.mp h
    obtain ⟨g, -, h⟩ := Option.map_eq_some_iff.mp h
    obtain ⟨-, rfl⟩ := Prod.mk.inj h
    obtain rfl := ext2PlaceDirent_ret hplace
    exact ⟨base, name, not_lt.mp hneg, hbase, hplace⟩

/-- A directory was made when there was a parent, and an inode for it. -/
theorem ext2Mkdir_some {alloc allocIno : Ext2Fs → Int × Ext2Fs} {parentNo : Int}
    (hparent : ext2FindFileInode heap fs
      (canonicalizePath [pathSeparator] (path ++ [pathSeparator, 46, 46])) = some parentNo)
    (h : ext2Mkdir alloc allocIno heap fs path = some (0, fs')) :
    0 ≤ (allocIno fs).1 ∧ makeDirectory alloc heap (allocIno fs).2 path (inoOf (allocIno fs).1)
      parentNo.toNat = some (0, fs') := by
  rw [ext2Mkdir] at h
  dsimp only at h
  rw [hparent, Option.bind_some] at h
  split at h
  · cases h
  · obtain ⟨found, -, h⟩ := Option.bind_eq_some_iff.mp h
    split at h
    · cases h
    · split at h
      next hneg =>
        rw [Option.some.inj h] at hneg
        exact absurd hneg (lt_irrefl _)
      next hneg => exact ⟨not_lt.mp hneg, h⟩

/-- The size and the link count of a new file. -/
def NewFileSize (P : InodePlace) (d : Nat → UInt8) : Prop := P.size d = 0 ∧ P.links d = 1

/-- The sizes of a new directory `k` and of its parent `p` are those of their
blocks, and no other inode has another size. -/
structure NewDirSize (count : Nat) (place : Nat → InodePlace) (k p : Nat) (d d' : Nat → UInt8) :
    Prop where
  size : (place k).size d' = (place k).bs * (place k).blocks d'
  parent : (place p).size d' = (place p).bs * (place p).blocks d'
  others : ∀ l, 0 < l → l ≤ count → l ≠ k → l ≠ p → (place l).size d' = (place l).size d

/-- A file that was created has a size, or more links than one. -/
theorem createFile_notEmpty (h : FsWf A I count place (n + 1) fs) (hcount : 0 < count)
    (hd : ∀ p, dirs p → DirWf A I count place fs p)
    (hper : le32 fs.sb sbInodesInBlockgroup ≤ 8 * fs.blocksize) (hbs : fs.blocksize ≤ 65536)
    {f : Ext2File} (hthrough : PathThrough dirs heap fs (pathTokens (pathGetPath path)) 2)
    (hdir : ∀ base, ext2FindFileInode heap fs (pathGetPath path) = some base → 0 ≤ base →
      dirs base.toNat)
    (hrun : ext2CreateFile A.alloc I.alloc heap fs path = some (.ok f, fs')) :
    ¬ NewFileSize (place (inoOf (I.alloc fs).1)) fs'.disk := by
  obtain ⟨base, name, hpos, hfind, hplace⟩ := ext2CreateFile_some hrun
  rcases makeInode_spec h hcount newFileInode with ⟨hneg, hsame, -⟩ |
    ⟨k, hret, hino, hk, hk', hwf, hm⟩
  · -- no inode is free: the entry is for an inode that there is not
    have hnew : ext2NewInode I.alloc fs = (-enospc, fs) := by
      rw [ext2NewInode, if_pos hneg, hsame]
    rw [hnew] at hfind hplace
    have hp := hd _ (hdir base hfind hpos)
    obtain ⟨init, last, hb⟩ := hp.first
    rw [ext2PlaceDirent_no_inode _ h hp.valid hb hper hbs] at hplace
    cases hplace
  · have hnew : ext2NewInode I.alloc fs =
        ((k : Int), ext2WriteInode (I.alloc fs).2 newFileInode k) := by
      rw [ext2NewInode, if_neg (by omega), hino, hret]
    rw [hnew] at hfind hplace
    rw [hino]
    generalize ext2WriteInode (I.alloc fs).2 newFileInode k = fs₁ at hwf hm hfind hplace
    dsimp only at hfind hplace
    rw [hret] at hino
    rw [hino] at hplace
    rw [ext2FindFileInode, findTokens_same (fun l hl t => hm.readDirectory h hwf
      (hd l hl).toInodeInUse t) hthrough] at hfind
    have hp := hd _ (hdir base hfind hpos)
    obtain ⟨hp₁, -⟩ := hp.made h hm
    obtain ⟨init, last, hb⟩ := hp₁.first
    have hx := hp₁.data 0 (by norm_num) hb.ne_zero
    have hlt := h.table.count_lt
    rw [ext2PlaceDirent_eq A.alloc heap hwf.table hp.valid ⟨hk, hk'⟩ hb hx.tableFree
      (newDirent_inode (by omega) _)] at hplace
    obtain ⟨size, -, heq⟩ := Option.map_eq_some_iff.mp hplace
    obtain ⟨-, rfl⟩ := Prod.mk.inj heq
    rintro ⟨hsize, -⟩
    -- the new inode has no sectors, its directory has some
    have hzero : (place k).size fs₁.disk = 0 := hm.field_new (by decide)
    have hsec : (place k).sectors fs₁.disk = 0 := hm.field_new (by decide)
    have hge := (place k).bs_ge
    have hkbs := (h.table.inodeAt k hk hk').blocksize
    have hafter := (afterPlace_target heap (ext2NewDirent k name) last size hwf.table hp.valid
      ⟨hk, hk'⟩ hx.tableFree).2
    rw [hsec, hzero, if_pos hp₁.sectors.symm, Nat.zero_add, Nat.mod_eq_of_lt (by omega)] at hafter
    have hbs0 : (place k).bs = 0 := hafter.symm.trans hsize
    omega

/-- The sizes after a directory was made. -/
theorem mkdir_sizes_iff (h : FsWf A I count place (n + 1) fs) (hcount : 0 < count)
    (hd : ∀ p, dirs p → DirWf A I count place fs p) (hbs : fs.blocksize ≤ 65536)
    (hfirst : fs.firstBgd * fs.sectorsPerBlock < 2 ^ 32) {parentNo : Int}
    (hparent : ext2FindFileInode heap fs
      (canonicalizePath [pathSeparator] (path ++ [pathSeparator, 46, 46])) = some parentNo)
    (hdir : dirs parentNo.toNat)
    (hrun : ext2Mkdir A.alloc I.alloc heap fs path = some (0, fs')) :
    NewDirSize count place (inoOf (I.alloc fs).1) parentNo.toNat fs.disk fs'.disk ↔
      (place parentNo.toNat).sectors fs.disk = (place parentNo.toNat).spb := by
  obtain ⟨hok, hmake⟩ := ext2Mkdir_some hparent hrun
  rcases makeInode_spec h hcount (newDirInode heap) with ⟨hneg, -, -⟩ |
    ⟨k, -, hino, hk, hk', hwf, hm⟩
  · omega
  · rw [hino] at hmake ⊢
    obtain ⟨-, fs₁, fs₂, fs₃, name, h₁, h₂, -, h₃, rfl⟩ := makeDirectory_some hmake
    generalize parentNo.toNat = p at *
    have hp := hd _ hdir
    have hne := hm.ne hp.taken
    obtain ⟨hp₁, -⟩ := hp.made h hm
    have hgeometry := hm.geometry
    have hsizes := makeDirectory_sizes hwf hp₁ ⟨hk, hk'⟩ hne
      (fun f hf hf' => (hm.field_new hf').trans (newDirInode_field hf hf'))
      (hgeometry.blocksize ▸ hbs)
      (by rw [hgeometry.firstBgd, hgeometry.sectorsPerBlock]; exact hfirst) h₁ h₂ h₃
    generalize ext2WriteInode (I.alloc fs).2 (newDirInode heap) k = fs₀ at *
    have hspb : (place k).spb = (place p).spb := by
      rw [← (h.table.inodeAt k hk hk').sectors, (h.table.inodeAt p hp.valid.1 hp.valid.2).sectors]
    have hsec : (place p).sectors fs₀.disk = (place p).sectors fs.disk :=
      hm.field_same h hp.valid hne (by decide)
    have hge := (place k).bs_ge
    have hkbs := (h.table.inodeAt k hk hk').blocksize
    rw [← hsec]
    constructor
    · intro hgood
      by_contra hother
      have hsize := hsizes.size
      rw [hgood.size, hsizes.blocks, hspb, if_pos (Ne.symm hother), Nat.mul_one] at hsize
      omega
    · intro hone
      refine ⟨?_, ?_, fun l hl hle hlk hlp => ?_⟩
      · rw [hsizes.size, hspb, hone, if_neg (not_not_intro rfl), hsizes.blocks, Nat.mul_one]
      · rw [hsizes.parentSize, hspb, hone, if_neg (not_not_intro rfl), hsizes.parentBlocks]
        exact hp₁.size
      · exact (hsizes.others l hl hle hlk hlp).trans (hm.field_same h ⟨hl, hle⟩ hlk (by decide))

/-- **Sizes.** On a well-formed filesystem with room for a block, a file that
`ext2_create_file` has created never has size 0 and one link: its size is that
of a block. The sizes after a successful `ext2_mkdir` are right exactly when the
parent has as many sectors as one block; otherwise each of the two directories
counts a block that it does not have. -/
theorem create_mkdir_sizes (h : FsWf A I count place (n + 1) fs) (hcount : 0 < count)
    (hd : ∀ p, dirs p → DirWf A I count place fs p)
    (hper : le32 fs.sb sbInodesInBlockgroup ≤ 8 * fs.blocksize) (hbs : fs.blocksize ≤ 65536)
    (hfirst : fs.firstBgd * fs.sectorsPerBlock < 2 ^ 32) :
    (∀ path f fs', PathThrough dirs heap fs (pathTokens (pathGetPath path)) 2 →
      (∀ base, ext2FindFileInode heap fs (pathGetPath path) = some base → 0 ≤ base →
        dirs base.toNat) →
      ext2CreateFile A.alloc I.alloc heap fs path = some (.ok f, fs') →
      ¬ NewFileSize (place (inoOf (I.alloc fs).1)) fs'.disk) ∧
    (∀ path parentNo fs', ext2FindFileInode heap fs
        (canonicalizePath [pathSeparator] (path ++ [pathSeparator, 46, 46])) = some parentNo →
      dirs parentNo.toNat → ext2Mkdir A.alloc I.alloc heap fs path = some (0, fs') →
      (NewDirSize count place (inoOf (I.alloc fs).1) parentNo.toNat fs.disk fs'.disk ↔
        (place parentNo.toNat).sectors fs.disk = (place parentNo.toNat).spb)) :=
  ⟨fun _ _ _ hthrough hdir hrun => createFile_notEmpty h hcount hd hper hbs hthrough hdir hrun,
    fun _ _ _ hparent hdir hrun => mkdir_sizes_iff h hcount hd hbs hfirst hparent hdir hrun⟩

end Main

/-! ## In the small root directory -/

theorem smallRoot_dir : DirWf (ext2BlockAllocator 1 tableFs) (ext2InodeAllocator 1 tableFs) 8
    smallPlace smallRoot 2 := by
  obtain ⟨hptr, -⟩ := smallRoot_values
  have hzero : ∀ f, inoDbp + 4 ≤ f → f + 4 ≤ 128 → (smallPlace 2).field smallRoot.disk f = 0 := by
    have hfields : ∀ f < 125, inoDbp + 4 ≤ f → (smallPlace 2).field smallRoot.disk f = 0 := by
      decide +kernel
    exact fun f hf hf' => hfields f (by omega) hf
  have hsizes : (smallPlace 2).sectors smallRoot.disk = 2 ∧
      (smallPlace 2).size smallRoot.disk = 1024 := by decide +kernel
  have hsingly : (smallPlace 2).singly smallRoot.disk = 0 := hzero _ (by decide) (by decide)
  have hdoubly : (smallPlace 2).doubly smallRoot.disk = 0 := hzero _ (by decide) (by decide)
  refine { smallRoot_dirs.inUse 2 rfl with
    first := ⟨[0], 12, hptr.symm ▸ smallRoot_room.first⟩
    singly := fun h0 => absurd hsingly h0
    deep := ?_
    sectors := by rw [hsizes.1]; norm_num
    size := by rw [hsizes.2, InodePlace.blocks_one (by rw [hptr]; norm_num) hzero]; rfl }
  rintro y ⟨h0, rfl | ⟨c, -, rfl⟩ | ⟨b, hb, -, rfl⟩⟩
  · exact absurd hdoubly h0
  · rw [hdoubly] at h0
    exact absurd rfl h0
  · rw [InodePlace.ptr_doubly hb, hdoubly] at h0
    exact absurd rfl h0

/-- The file "/a" is not empty; the sizes for a directory "/a" are right. -/
theorem create_mkdir_sizes_root :
    (∀ f fs', ext2CreateFile allocBlock allocInode (fun _ => 0xCC) smallRoot [47, 97] =
        some (.ok f, fs') → ¬ NewFileSize (smallPlace 3) fs'.disk) ∧
      ∀ fs', ext2Mkdir allocBlock allocInode (fun _ => 0xCC) smallRoot [47, 97] = some (0, fs') →
        NewDirSize 8 smallPlace 3 2 smallRoot.disk fs'.disk := by
  have hsizes := @create_mkdir_sizes _ (ext2InodeAllocator 1 tableFs) 8 9 smallPlace (fun k => k = 2)
    smallRoot (fun _ => 0xCC) smallRoot_wf (by norm_num) (by rintro k rfl; exact smallRoot_dir)
    (by decide +kernel) (by decide +kernel) (by decide +kernel)
  have hino : inoOf ((ext2InodeAllocator 1 tableFs).alloc smallRoot).1 = 3 := by decide +kernel
  have hroot : ext2FindFileInode (fun _ => 0xCC) smallRoot [pathSeparator] = some 2 := by decide +kernel
  rw [hino] at hsizes
  constructor
  · intro f fs' hrun
    refine hsizes.1 [47, 97] f fs' trivial (fun base hbase _ => ?_) hrun
    obtain rfl : (2 : Int) = base := Option.some.inj (hroot.symm.trans hbase)
    rfl
  · intro fs' hrun
    exact (hsizes.2 [47, 97] 2 fs' (by decide +kernel) rfl hrun).mpr (by decide +kernel)

/-- The new file "/a", inode 3, has one link, no sectors, and the size of a
block. -/
theorem ext2_create_file_size :
    ∃ f fs', ext2CreateFile allocBlock allocInode (fun _ => 0xCC) smallRoot [47, 97] =
        some (.ok f, fs') ∧ (smallPlace 3).links fs'.disk = 1 ∧
      (smallPlace 3).sectors fs'.disk = 0 ∧ (smallPlace 3).size fs'.disk = 1024 := by
  have heval : (ext2CreateFile allocBlock allocInode (fun _ => 0xCC) smallRoot [47, 97]).map
      (fun r => (match r.1 with | .error _ => false | .ok _ => true, (smallPlace 3).links r.2.disk,
        (smallPlace 3).sectors r.2.disk, (smallPlace 3).size r.2.disk)) =
      some (true, 1, 0, 1024) := by decide +kernel
  obtain ⟨⟨f, fs'⟩, hrun, hres⟩ := Option.map_eq_some_iff.mp heval
  obtain ⟨hf, hlinks, hsectors, hsize⟩ : _ ∧ _ ∧ _ ∧ _ := by simpa only [Prod.mk.injEq] using hres
  cases f with
  | error e => cases hf
  | ok f => exact ⟨f, fs', hrun, hlinks, hsectors, hsize⟩

end Levos.Fs
