import Levos.Fs.Ext2.DirPlace
import Levos.Fs.Ext2.Grow
import Levos.Fs.Ext2.InodeAlloc

/-!
# Making an inode (`fs/ext2/inode.c`)

A filesystem with all its inodes, and what `ext2_alloc_inode` followed by
`ext2_write_inode` does to it: the allocation metadata and the new inode
change, and every name is found where it was found before.
-/

namespace Levos.Fs

open Levos.Base Levos.Kernel

/-! ## A filesystem with all its inodes -/

/-- Every inode is one that can be written to, and none of the inodes is in a
block with descriptors. -/
structure FsWf (A : BlockAllocator) (I : InodeAllocator A) (count : Nat) (place : Nat → InodePlace)
    (n : Nat) (fs : Ext2Fs) : Prop where
  table : InodeTable count place fs
  ok : ∀ k, 0 < k → k ≤ count → FsOk A (place k) n fs k
  cross : ∀ k l, 0 < k → k ≤ count → 0 < l → l ≤ count →
    ∀ j < 4, ((place k).table + j) / (place k).bs ≠ (place l).block
  freeValid : ∀ k, I.free fs k → 0 < k ∧ k ≤ count

/-- A block that is data for whatever inode. -/
def DataForAll (A : BlockAllocator) (count : Nat) (place : Nat → InodePlace) (fs : Ext2Fs) (x : Nat) :
    Prop := ∀ k, 0 < k → k ≤ count → DataBlock A (place k) fs x

/-- An inode in use, which has only data blocks. -/
structure InodeInUse (A : BlockAllocator) (I : InodeAllocator A) (count : Nat)
    (place : Nat → InodePlace) (fs : Ext2Fs) (k : Nat) : Prop where
  valid : 0 < k ∧ k ≤ count
  taken : ¬ I.free fs k
  data : ∀ i < 12, (place k).ptr fs.disk i ≠ 0 →
    DataForAll A count place fs ((place k).ptr fs.disk i)

variable {A : BlockAllocator} {I : InodeAllocator A} {count n : Nat} {place : Nat → InodePlace}
  {fs fs' : Ext2Fs}

theorem DataForAll.tableFree {x : Nat} (h : DataForAll A count place fs x) :
    TableFree count place x :=
  ⟨fun k hk hle => (h k hk hle).writable.lt, fun k hk hle => (h k hk hle).notInode,
    fun k hk hle => (h k hk hle).writable.notTable⟩

/-- What happens when an inode is made with the record `rec`. -/
structure InodeMade (A : BlockAllocator) (I : InodeAllocator A) (place : Nat → InodePlace)
    (rec : Nat → UInt8) (k : Nat) (fs fs' : Ext2Fs) : Prop where
  was : I.free fs k
  taken : ¬ I.free fs' k
  others : ∀ l, I.free fs' l → I.free fs l
  used : ∀ x, A.used fs x → A.used fs' x
  geometry : SameGeometry fs fs'
  outside : ∀ a, a ∉ A.metadata →
    (a < (place k).addr ∨ (place k).addr + (place k).inodesize ≤ a) → fs'.disk a = fs.disk a
  record : ∀ j < (place k).inodesize, fs'.disk ((place k).addr + j) = rec j
  changed : fs'.disk ≠ fs.disk

/-- A call of `ext2_alloc_inode`. -/
theorem FsWf.allocated (h : FsWf A I count place n fs) {k : Nat}
    (hk : FreshInode A I.free fs fs' k) (hroom : A.room n fs') : FsWf A I count place n fs' := by
  have htables : ∀ l, 0 < l → l ≤ count →
      ∀ j < 4, fs'.disk ((place l).table + j) = fs.disk ((place l).table + j) := by
    intro l hl hle
    have hat := h.table.inodeAt l hl hle
    rw [← hat.table]
    exact hk.tables l (hat.blocksize ▸ hat.group)
  have hat : ∀ l, 0 < l → l ≤ count → InodeAt (place l) fs' l := fun l hl hle =>
    (h.table.inodeAt l hl hle).congr hk.geometry (htables l hl hle)
  refine ⟨⟨h.table.count_lt, hat, h.table.apart⟩, fun l hl hle => ?_, h.cross, fun l hl =>
    h.freeValid l (hk.others l hl)⟩
  have hok := h.ok l hl hle
  exact { hok with
    inodeAt := hat l hl hle
    room := hroom
    boot := fun a ha => by
      rw [hk.disk a fun hmem => absurd (hok.metaBoot a hmem) (by omega)]
      exact hok.boot a ha
    metaUsed := fun a ha => hk.used _ (hok.metaUsed a ha)
    tableUsed := fun j hj => hk.used _ (hok.tableUsed j hj)
    inodeUsed := hk.used _ hok.inodeUsed }

/-- The blocks of the inode table can be written to. -/
theorem FsWf.writable (h : FsWf A I count place n fs) {k l : Nat} (hk : 0 < k) (hk' : k ≤ count)
    (hl : 0 < l) (hl' : l ≤ count) : Writable A (place l) (place k).block := by
  have hok := h.ok k hk hk'
  have hbs := h.table.bs_eq hk hk' hl hl'
  have hspb : (place k).spb = (place l).spb := by
    rw [← (h.table.inodeAt k hk hk').sectors, (h.table.inodeAt l hl hl').sectors]
  refine ⟨(place k).block_pos, hspb ▸ (place k).block_lt, fun a ha => hbs ▸ hok.metaInode a ha, ?_⟩
  exact h.cross l k hl hl' hk hk'

/-- Changes outside of the metadata and of the boot block. -/
theorem FsWf.changed (h : FsWf A I count place n fs) (hcount : 0 < count) {d : Nat → UInt8}
    (hmeta : ∀ a ∈ A.metadata, d a = fs.disk a) (hboot : ∀ a < 1024, d a = fs.disk a)
    (htable : ∀ l, 0 < l → l ≤ count → ∀ j < 4, d ((place l).table + j) = fs.disk ((place l).table + j)) :
    FsWf A I count place n (setDisk fs d) ∧ (∀ y, A.used fs y → A.used (setDisk fs d) y) ∧
      ∀ l, I.free (setDisk fs d) l ↔ I.free fs l := by
  have hroom := (h.ok 1 Nat.one_pos hcount).room
  obtain ⟨hroom', hused⟩ := A.frame hroom hmeta
  have hfree := I.frame hroom hmeta
  have htable' := h.table.changed htable
  refine ⟨⟨htable', fun l hl hle => ?_, h.cross, fun l hl => h.freeValid l ((hfree l).mp hl)⟩, hused,
    hfree⟩
  have hok := h.ok l hl hle
  exact { hok with
    inodeAt := htable'.inodeAt l hl hle
    room := hroom'
    boot := fun a ha => (hboot a ha).trans (hok.boot a ha)
    metaUsed := fun a ha => hused _ (hok.metaUsed a ha)
    tableUsed := fun j hj => hused _ (hok.tableUsed j hj)
    inodeUsed := hused _ hok.inodeUsed }

/-- Changes of one block that is no metadata. -/
theorem FsWf.write (h : FsWf A I count place n fs) {x bs : Nat}
    (hx : ∀ l, 0 < l → l ≤ count → Writable A (place l) x)
    (hbs : ∀ l, 0 < l → l ≤ count → (place l).bs = bs) {d : Nat → UInt8}
    (hd : ∀ a, a / bs ≠ x → d a = fs.disk a) (hcount : 0 < count) :
    FsWf A I count place n (setDisk fs d) ∧ (∀ y, A.used fs y → A.used (setDisk fs d) y) ∧
      ∀ l, I.free (setDisk fs d) l ↔ I.free fs l := by
  refine h.changed hcount (fun a ha => hd a ?_) (fun a ha => hd a ?_) fun l hl hle j hj => hd _ ?_
  · rw [← hbs 1 Nat.one_pos hcount]
    exact (hx 1 Nat.one_pos hcount).notMeta a ha
  · have hge := (place 1).bs_ge
    rw [hbs 1 Nat.one_pos hcount] at hge
    rw [Nat.div_eq_of_lt (by omega)]
    exact (hx 1 Nat.one_pos hcount).pos.ne
  · rw [← hbs l hl hle]
    exact (hx l hl hle).notTable j hj

/-- **A new inode.** `ext2_alloc_inode` fails and changes nothing, or it gives
an inode; with its record written, the filesystem is well formed again. -/
theorem makeInode_spec (h : FsWf A I count place n fs) (hcount : 0 < count) (rec : Nat → UInt8) :
    ((I.alloc fs).1 < 0 ∧ (I.alloc fs).2 = fs ∧ ∀ k, ¬ I.free fs k) ∨
      ∃ k : Nat, (I.alloc fs).1 = k ∧ inoOf (I.alloc fs).1 = k ∧ 0 < k ∧ k ≤ count ∧
        FsWf A I count place n (ext2WriteInode (I.alloc fs).2 rec k) ∧
        InodeMade A I place rec k fs (ext2WriteInode (I.alloc fs).2 rec k) := by
  rcases I.alloc_fresh (h.ok 1 Nat.one_pos hcount).room with hfail | ⟨k, hret, hk, hroom⟩
  · exact .inl hfail
  · right
    obtain ⟨hpos, hle⟩ := h.freeValid k hk.was
    have hlt := h.table.count_lt
    have hino : inoOf (I.alloc fs).1 = k := by
      rw [hret, inoOf]
      omega
    have hwf := h.allocated hk hroom
    have hok := hwf.ok k hpos hle
    have hout : ∀ a, a / (place k).bs ≠ (place k).block →
        writeBytes (I.alloc fs).2.disk (place k).addr (place k).inodesize rec a =
          (I.alloc fs).2.disk a := by
      intro a ha
      apply writeBytes_of_not_mem
      by_contra hin
      rw [not_or, not_lt, not_le] at hin
      exact ha (InodePlace.div_of_mem hin.1 hin.2)
    obtain ⟨hwf', hused, hfree⟩ := hwf.write (fun l hl hl' => hwf.writable hpos hle hl hl')
      (fun l hl hl' => hwf.table.bs_eq hl hl' hpos hle) hout hcount
    have hrec : ∀ j < (place k).inodesize,
        writeBytes (I.alloc fs).2.disk (place k).addr (place k).inodesize rec ((place k).addr + j) =
          rec j := fun j hj => by rw [writeBytes_of_mem (by omega), Nat.add_sub_cancel_left]
    refine ⟨k, hret, hino, hpos, hle, ?_⟩
    rw [(hwf.table.inodeAt k hpos hle).writeInode_eq]
    refine ⟨hwf', hk.was, fun hl => hk.taken ((hfree k).mp hl), fun l hl =>
      hk.others l ((hfree l).mp hl), fun x hx => hused x (hk.used x hx), ?_, ?_, hrec, ?_⟩
    · obtain ⟨h₁, h₂, h₃, h₄, h₅, h₆⟩ := hk.geometry
      exact ⟨h₁, h₂, h₃, h₄, h₅, h₆⟩
    · intro a hmeta ha
      exact (writeBytes_of_not_mem ha).trans (hk.disk a hmeta)
    · -- what the allocation changed is metadata, which the record is not
      intro heq
      apply hk.changed
      funext a
      by_cases hmeta : a ∈ A.metadata
      · rw [← hout a (hok.metaInode a hmeta)]
        exact congrFun heq a
      · exact hk.disk a hmeta

/-! ## Looking for a name -/

section Lookup

variable {P : InodePlace} {m k : Nat} {heap : Nat → UInt8} {f : List UInt8}

theorem reReadInode_dbps (h : InodeAt P fs k) :
    dbps (reReadInode fs heap k) = (List.range 12).map (P.ptr fs.disk) := by
  refine List.map_congr_left fun i hi => ?_
  rw [List.mem_range] at hi
  rw [(h.synced_reRead heap).field (by rw [inoDbp]; omega), InodePlace.ptr_direct hi]

theorem ext2ReadDirectory_eq (h : InodeAt P fs k) : ext2ReadDirectory heap fs k f =
    some (readDbps heap fs f ((List.range 12).map (P.ptr fs.disk))) := by
  rw [ext2ReadDirectory, readNewInode, if_pos h.hasDescriptor, Option.map_some, reReadInode_dbps h]

/-- There are no entries in the boot block. -/
theorem FsOk.no_entry (h : FsOk A P n fs k) (heap : Nat → UInt8) :
    entSize (readNewBlock heap fs 0) 0 = 0 := by
  have hbs := P.bs_ge
  have hbyte : ∀ j < 1024, readNewBlock heap fs 0 j = 0 := fun j hj => by
    rw [readNewBlock_apply h.inodeAt (by norm_num) (by omega), blockBytes, Nat.mul_zero, Nat.zero_add]
    exact h.boot j hj
  rw [entSize, le16, hbyte _ (by norm_num), hbyte _ (by norm_num)]
  rfl

/-- The search through a list of blocks that are the same, or empty. -/
theorem readDbps_congr {xs : List Nat} (hbs : fs'.blocksize = fs.blocksize)
    (hx : ∀ x ∈ xs, readNewBlock heap fs' x = readNewBlock heap fs x ∨
      entSize (readNewBlock heap fs x) 0 = 0 ∧ entSize (readNewBlock heap fs' x) 0 = 0) :
    readDbps heap fs' f xs = readDbps heap fs f xs := by
  induction xs with
  | nil => rfl
  | cons x xs ih =>
    have hrest := ih fun y hy => hx y (List.mem_cons_of_mem _ hy)
    rw [readDbps, readDbps]
    rcases hx x List.mem_cons_self with hsame | ⟨hold, hnew⟩
    · rw [hsame, hbs, hrest]
    · rw [if_pos (.inl hnew), if_pos (.inl hold)]

theorem readNewBlock_congr (h : InodeAt P fs k) (h' : InodeAt P fs' k) {x : Nat}
    (hx : x * P.spb < 2 ^ 32) (hsame : SameBlock P.bs fs.disk fs'.disk x) :
    readNewBlock heap fs' x = readNewBlock heap fs x := by
  funext j
  by_cases hj : j < P.bs
  · rw [readNewBlock_apply h' hx hj, readNewBlock_apply h hx hj]
    exact hsame.byte hj
  · rw [readNewBlock, readNewBlock, h.blocksize, h'.blocksize, writeBytes_of_not_mem (by omega),
      writeBytes_of_not_mem (by omega)]

/-- A directory with the same blocks has the same entries. -/
theorem FsOk.readDirectory_same (h : FsOk A P n fs k) (h' : FsOk A P m fs' k)
    (hptr : ∀ i < 12, P.ptr fs'.disk i = P.ptr fs.disk i)
    (hlt : ∀ i < 12, P.ptr fs.disk i ≠ 0 → P.ptr fs.disk i * P.spb < 2 ^ 32)
    (hsame : ∀ i < 12, P.ptr fs.disk i ≠ 0 →
      SameBlock P.bs fs.disk fs'.disk (P.ptr fs.disk i)) :
    ext2ReadDirectory heap fs' k f = ext2ReadDirectory heap fs k f := by
  have hptrs : (List.range 12).map (P.ptr fs'.disk) = (List.range 12).map (P.ptr fs.disk) :=
    List.map_congr_left fun i hi => hptr i (List.mem_range.mp hi)
  rw [ext2ReadDirectory_eq h.inodeAt, ext2ReadDirectory_eq h'.inodeAt, hptrs]
  congr 1
  refine readDbps_congr (h'.inodeAt.blocksize.trans h.inodeAt.blocksize.symm) fun x hx => ?_
  obtain ⟨i, hi, rfl⟩ := List.mem_map.mp hx
  rw [List.mem_range] at hi
  by_cases h0 : P.ptr fs.disk i = 0
  · rw [h0]
    exact .inr ⟨h.no_entry heap, h'.no_entry heap⟩
  · exact .inl (readNewBlock_congr h.inodeAt h'.inodeAt (hlt i hi h0) (hsame i hi h0))

end Lookup

section Made

variable {rec heap : Nat → UInt8} {m k l : Nat}

theorem InodeMade.ne (hm : InodeMade A I place rec k fs fs') (hl : ¬ I.free fs l) : l ≠ k :=
  fun heq => hl (heq ▸ hm.was)

/-- The other inodes are what they were. -/
theorem InodeMade.inode_same (h : FsWf A I count place n fs) (hm : InodeMade A I place rec k fs fs')
    (hl : 0 < l ∧ l ≤ count) (hne : l ≠ k) {j : Nat} (hj : j < (place l).inodesize) :
    fs'.disk ((place l).addr + j) = fs.disk ((place l).addr + j) := by
  obtain ⟨hk, hk'⟩ := h.freeValid k hm.was
  have hapart := h.table.apart l k hl.1 hl.2 hk hk' hne
  have hfits := (place l).fits
  rw [← InodePlace.bs] at hfits
  refine hm.outside _ (fun hmem => (h.ok l hl.1 hl.2).metaInode _ hmem ?_) (by omega)
  rw [InodePlace.addr, Nat.add_assoc, block_div (by omega)]

theorem InodeMade.field_same (h : FsWf A I count place n fs)
    (hm : InodeMade A I place rec k fs fs') (hl : 0 < l ∧ l ≤ count) (hne : l ≠ k) {f : Nat}
    (hf : f + 4 ≤ 128) : (place l).field fs'.disk f = (place l).field fs.disk f := by
  have hsize := (place l).inodesize_le
  refine le32_congr fun j hj => ?_
  rw [Nat.add_assoc]
  exact hm.inode_same h hl hne (by omega)

/-- The fields of the new inode. -/
theorem InodeMade.field_new (hm : InodeMade A I place rec k fs fs') {f : Nat} (hf : f + 4 ≤ 128) :
    (place k).field fs'.disk f = le32 rec f := by
  have hsize := (place k).inodesize_le
  refine le32_congr fun j hj => ?_
  rw [Nat.add_assoc]
  exact hm.record _ (by omega)

/-- Data blocks are what they were. -/
theorem InodeMade.data_same (h : FsWf A I count place n fs) (hm : InodeMade A I place rec k fs fs')
    (hl : 0 < l ∧ l ≤ count) {x : Nat} (hx : DataForAll A count place fs x) :
    SameBlock (place l).bs fs.disk fs'.disk x := by
  obtain ⟨hk, hk'⟩ := h.freeValid k hm.was
  have hbs := h.table.bs_eq hl.1 hl.2 hk hk'
  intro a ha
  refine hm.outside a (fun hmem => (hx l hl.1 hl.2).writable.notMeta a hmem ha) ?_
  by_contra hin
  rw [not_or, not_lt, not_le] at hin
  rw [hbs, InodePlace.div_of_mem hin.1 hin.2] at ha
  exact (hx k hk hk').notInode ha.symm

theorem InodeMade.ptr_same (h : FsWf A I count place n fs) (hm : InodeMade A I place rec k fs fs')
    (hl : 0 < l ∧ l ≤ count) (hne : l ≠ k) {i : Nat} (hi : i < 12) :
    (place l).ptr fs'.disk i = (place l).ptr fs.disk i := by
  rw [InodePlace.ptr_direct hi, InodePlace.ptr_direct hi]
  exact hm.field_same h hl hne (by rw [inoDbp]; omega)

/-- An inode in use stays one. -/
theorem InodeInUse.made (hu : InodeInUse A I count place fs l) (h : FsWf A I count place n fs)
    (hm : InodeMade A I place rec k fs fs') : InodeInUse A I count place fs' l := by
  have hptr := fun i (hi : i < 12) => hm.ptr_same h hu.valid (hm.ne hu.taken) hi
  refine ⟨hu.valid, fun hfree => hu.taken (hm.others l hfree), fun i hi h0 => ?_⟩
  rw [hptr i hi] at h0 ⊢
  exact fun r hr hle => (hu.data i hi h0 r hr hle).keeps hm.used

/-- Names are found where they were. -/
theorem InodeMade.readDirectory (h : FsWf A I count place n fs) (h' : FsWf A I count place m fs')
    (hm : InodeMade A I place rec k fs fs') (hu : InodeInUse A I count place fs l)
    (f : List UInt8) : ext2ReadDirectory heap fs' l f = ext2ReadDirectory heap fs l f := by
  obtain ⟨hl, hl'⟩ := hu.valid
  refine (h.ok l hl hl').readDirectory_same (h'.ok l hl hl') (fun i hi => ?_) (fun i hi h0 => ?_)
    fun i hi h0 => ?_
  · exact hm.ptr_same h hu.valid (hm.ne hu.taken) hi
  · exact (hu.data i hi h0 l hl hl').writable.lt
  · exact hm.data_same h hu.valid (hu.data i hi h0)

end Made

end Levos.Fs
