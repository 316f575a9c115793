import Levos.Fs.Ext2.Dir
import Levos.Fs.Ext2.Layout

/-!
# Placing an entry in a directory (`fs/ext2/dir.c`)

`ext2_place_dirent` only ever looks at the first block of a directory: the loop
for a place takes the last entry of a block, whatever room there is after it.
-/

namespace Levos.Fs

open Levos.Base

/-! ## Inodes and blocks of a directory -/

/-- The places of the inodes from 1 to `count`. -/
structure InodeTable (count : Nat) (place : Nat → InodePlace) (fs : Ext2Fs) : Prop where
  count_lt : count < 2 ^ 31
  inodeAt : ∀ k, 0 < k → k ≤ count → InodeAt (place k) fs k
  apart : ∀ k l, 0 < k → k ≤ count → 0 < l → l ≤ count → k ≠ l →
    (place k).addr + (place k).inodesize ≤ (place l).addr ∨
      (place l).addr + (place l).inodesize ≤ (place k).addr

/-- A block that has neither inodes nor the descriptors of the inode tables. -/
structure TableFree (count : Nat) (place : Nat → InodePlace) (x : Nat) : Prop where
  lt : ∀ k, 0 < k → k ≤ count → x * (place k).spb < 2 ^ 32
  notInode : ∀ k, 0 < k → k ≤ count → x ≠ (place k).block
  notTable : ∀ k, 0 < k → k ≤ count → ∀ j < 4, ((place k).table + j) / (place k).bs ≠ x

/-- The bytes of a block. -/
def blockBytes (P : InodePlace) (d : Nat → UInt8) (x : Nat) : Nat → UInt8 := fun j => d (P.bs * x + j)

/-- A directory with its entries: the blocks in its inode are no metadata,
each is there once, and its entries fill it. -/
structure TiledDir (count : Nat) (place : Nat → InodePlace) (P : InodePlace) (d : Nat → UInt8) :
    Prop where
  free : ∀ i < 12, P.ptr d i ≠ 0 → TableFree count place (P.ptr d i)
  inj : ∀ i < 12, ∀ j < 12, P.ptr d i ≠ 0 → P.ptr d i = P.ptr d j → i = j
  tiled : ∀ i < 12, P.ptr d i ≠ 0 → ∃ offs, Tiles (blockBytes P d (P.ptr d i)) 0 offs P.bs

/-! ## The last part: the link -/

/-- The disk after `linkInode`: one more link, and perhaps one more block. -/
def linkedDisk (P : InodePlace) (d : Nat → UInt8) (oldSecs : Nat) : Nat → UInt8 :=
  let d' := put16 d (P.addr + inoHardlinks) (le16 d (P.addr + inoHardlinks) + 1)
  if P.sectors d ≠ oldSecs then put32 d' (P.addr + inoSize) (P.size d + P.bs) else d'

section Link

variable {P : InodePlace} {fs : Ext2Fs} {ino : Nat} {heap : Nat → UInt8}

theorem InodeAt.hasDescriptor (h : InodeAt P fs ino) : HasDescriptor fs ino :=
  ⟨h.inoPos, h.blocksize ▸ h.group⟩

/-- Writing an inode that differs from the disk only in the inode. -/
theorem InodeAt.writeInode_synced (h : InodeAt P fs ino) {d inode : Nat → UInt8}
    (hs : Synced P d inode) (hout : ∀ a, a < P.addr ∨ P.addr + P.inodesize ≤ a → d a = fs.disk a) :
    ext2WriteInode fs inode ino = setDisk fs d := by
  rw [h.writeInode_eq]
  congr 1
  funext a
  by_cases hin : P.addr ≤ a ∧ a < P.addr + P.inodesize
  · rw [writeBytes_of_mem hin, hs _ (by omega), Nat.add_sub_cancel' hin.1]
  · rw [writeBytes_of_not_mem (by omega), hout a (by omega)]

theorem Synced.put16 {d inode : Nat → UInt8} (hs : Synced P d inode) (f v : Nat) :
    Synced P (put16 d (P.addr + f) v) (put16 inode f v) := fun j hj => put16_shift (hs j hj) f v

/-- Only the inode changes. -/
theorem linkedDisk_outside (P : InodePlace) (d : Nat → UInt8) (oldSecs : Nat) {a : Nat}
    (ha : a < P.addr + inoSize ∨ P.addr + inoHardlinks + 2 ≤ a) : linkedDisk P d oldSecs a = d a := by
  rw [inoSize, inoHardlinks] at ha
  rw [linkedDisk]
  split
  · rw [put32_of_ne (by rw [inoSize]; omega), put16_of_ne (by rw [inoHardlinks]; omega)]
  · rw [put16_of_ne (by rw [inoHardlinks]; omega)]

theorem linkInode_eq (h : InodeAt P fs ino) (oldSecs : Nat) :
    linkInode heap fs oldSecs ino = some (setDisk fs (linkedDisk P fs.disk oldSecs)) := by
  have hsync : Synced P fs.disk (reReadInode fs heap ino) := h.synced_reRead heap
  have hsize := P.inodesize_le
  rw [linkInode, readNewInode, if_pos h.hasDescriptor, Option.map_some]
  generalize reReadInode fs heap ino = inode at hsync
  have hlinks : le16 inode inoHardlinks = le16 fs.disk (P.addr + inoHardlinks) := by
    apply le16_congr
    · exact hsync _ (by rw [inoHardlinks]; omega)
    · exact hsync _ (by rw [inoHardlinks]; omega)
  have hsync' := hsync.put16 inoHardlinks (le16 inode inoHardlinks + 1)
  have hfield : ∀ f, f + 4 ≤ 128 → f + 4 ≤ inoHardlinks ∨ inoHardlinks + 2 ≤ f →
      le32 (put16 inode inoHardlinks (le16 inode inoHardlinks + 1)) f = P.field fs.disk f := by
    intro f hf hne
    rw [← hsync.field hf]
    exact le32_congr fun k hk => put16_of_ne (by omega)
  dsimp only
  rw [hfield _ (by decide) (by decide), hfield _ (by decide) (by decide), h.blocksize, hlinks]
  rw [hlinks] at hsync'
  congr 1
  refine h.writeInode_synced (d := linkedDisk P fs.disk oldSecs) ?_ fun a ha =>
    linkedDisk_outside P _ _ (by rw [inoSize, inoHardlinks]; omega)
  rw [linkedDisk]
  show Synced P _ (if P.sectors fs.disk ≠ oldSecs then _ else _)
  split
  · exact hsync'.put32 _ _
  · exact hsync'

end Link

/-! ## The first block -/

section Place

variable {P Q : InodePlace} {fs : Ext2Fs} {ino target last x : Nat} {init : List Nat}
  {alloc : Ext2Fs → Int × Ext2Fs} {heap dirent : Nat → UInt8}

/-- The buffer has the bytes of the block. -/
theorem readNewBlock_apply (h : InodeAt P fs ino) (hx : x * P.spb < 2 ^ 32) {j : Nat}
    (hj : j < P.bs) : readNewBlock heap fs x j = blockBytes P fs.disk x j := by
  rw [readNewBlock, h.blocksize, writeBytes_of_mem ⟨Nat.zero_le _, by omega⟩, h.readBlock_eq hx,
    Nat.sub_zero]
  rfl

/-- The disk with the entry in block `x`. -/
def placedDisk (P : InodePlace) (heap : Nat → UInt8) (fs : Ext2Fs) (x : Nat) (dirent : Nat → UInt8)
    (last size : Nat) : Nat → UInt8 :=
  setBlock fs.disk P.bs x (placedBlock (readNewBlock heap fs x) dirent last size)

/-- The first block of a directory: the entries at `init`, and the last one. -/
structure FirstBlock (P : InodePlace) (d : Nat → UInt8) (x : Nat) (init : List Nat) (last : Nat) :
    Prop where
  ptr : P.ptr d 0 = x
  ne_zero : x ≠ 0
  lt : x * P.spb < 2 ^ 32
  tiles : Tiles (blockBytes P d x) 0 init last
  min : direntMinLength (blockBytes P d x) last ≤ entSize (blockBytes P d x) last
  fills : last + entSize (blockBytes P d x) last = P.bs

theorem FirstBlock.all {d : Nat → UInt8} (hb : FirstBlock P d x init last) :
    Tiles (blockBytes P d x) 0 (init ++ [last]) P.bs :=
  hb.tiles.append (show Tiles _ last [last] P.bs from ⟨rfl, hb.min, hb.fills⟩)

/-- The same entries in the buffer. -/
theorem FirstBlock.buffer (hb : FirstBlock P fs.disk x init last) (h : InodeAt P fs ino)
    (heap : Nat → UInt8) : Tiles (readNewBlock heap fs x) 0 (init ++ [last]) P.bs ∧
      ∀ o ∈ init ++ [last],
        entryAt (readNewBlock heap fs x) o = entryAt (blockBytes P fs.disk x) o ∧
          entNamelength (readNewBlock heap fs x) o = entNamelength (blockBytes P fs.disk x) o ∧
            entSize (readNewBlock heap fs x) o = entSize (blockBytes P fs.disk x) o :=
  hb.all.of_bytes fun _ _ hj => readNewBlock_apply h hb.lt hj

/-- Only the block and its number count. -/
theorem FirstBlock.same {d d' : Nat → UInt8} (hb : FirstBlock P d x init last)
    (hptr : P.ptr d' 0 = P.ptr d 0) (hsame : SameBlock P.bs d d' x) :
    FirstBlock P d' x init last := by
  obtain ⟨htiles, -⟩ := hb.all.of_bytes fun j _ hj => hsame.byte hj
  obtain ⟨mid, hinit, rfl, hmin, hend⟩ := htiles.split
  exact ⟨hptr.trans hb.ptr, hb.ne_zero, hb.lt, hinit, hmin, hend⟩

/-- An entry goes to the first block, if there is one. -/
theorem ext2PlaceDirent_first (h : InodeAt P fs ino) (hb : FirstBlock P fs.disk x init last) :
    ext2PlaceDirent alloc heap fs ino dirent =
      (maximizeDirent (newOffset (blockBytes P fs.disk x) last) P.bs 65536 (entSize dirent 0)).bind
        fun size => (linkInode heap (setDisk fs (placedDisk P heap fs x dirent last size))
          (P.sectors fs.disk) (entInode dirent 0)).map fun fs => (0, fs) := by
  have hsync : Synced P fs.disk (reReadInode fs heap ino) := h.synced_reRead heap
  have hdbp : le32 (reReadInode fs heap ino) (inoDbp + 4 * 0) = x := by
    rw [hsync.field (by decide), ← hb.ptr, InodePlace.ptr_direct (by norm_num)]
  have hsecs : le32 (reReadInode fs heap ino) inoDiskSectors = P.sectors fs.disk :=
    hsync.field (by decide)
  obtain ⟨htiles, hsame⟩ := hb.buffer h heap
  obtain ⟨-, hlen, -⟩ := hsame last (by simp)
  have hnew : newOffset (readNewBlock heap fs x) last = newOffset (blockBytes P fs.disk x) last := by
    rw [newOffset, newOffset, direntMinLength, direntMinLength, hlen]
  obtain ⟨mid, hinit, rfl, hmin, hend⟩ := htiles.split
  rw [ext2PlaceDirent, readNewInode, if_pos h.hasDescriptor, Option.bind_some, hsecs]
  unfold placeLoop
  dsimp only
  rw [hdbp, if_neg hb.ne_zero, h.blocksize, placeInBlock_eq hinit hmin hend, hnew]
  cases maximizeDirent (newOffset (blockBytes P fs.disk x) last) P.bs 65536 (entSize dirent 0) with
  | none => rfl
  | some size =>
    rw [Option.map_some, Option.bind_some, Option.bind_some, Option.bind_some,
      h.writeBlock_eq hb.lt]
    rfl

/-- The bytes of the block with the entry. -/
theorem placedDisk_block {size : Nat} {j : Nat} (hj : j < P.bs) :
    blockBytes P (placedDisk P heap fs x dirent last size) x j =
      placedBlock (readNewBlock heap fs x) dirent last size j := setBlock_apply hj

theorem placedDisk_same {size y : Nat} (hy : y ≠ x) :
    SameBlock P.bs fs.disk (placedDisk P heap fs x dirent last size) y := SameBlock.setBlock hy

/-! ## What stays -/

variable {count : Nat} {place : Nat → InodePlace}

/-- An inode is where it was when only data blocks change. -/
theorem InodeTable.changed (h : InodeTable count place fs) {d : Nat → UInt8}
    (hd : ∀ k, 0 < k → k ≤ count → ∀ j < 4, d ((place k).table + j) = fs.disk ((place k).table + j)) :
    InodeTable count place (setDisk fs d) :=
  ⟨h.count_lt, fun k hk hle => (h.inodeAt k hk hle).congr ⟨rfl, rfl, rfl, rfl, rfl, rfl⟩ (hd k hk hle), h.apart⟩

theorem InodeTable.bs_eq (h : InodeTable count place fs) {k l : Nat} (hk : 0 < k) (hk' : k ≤ count)
    (hl : 0 < l) (hl' : l ≤ count) : (place k).bs = (place l).bs := by
  rw [← (h.inodeAt k hk hk').blocksize, (h.inodeAt l hl hl').blocksize]

/-- A link to one inode, seen from another one or from the same. -/
theorem InodeTable.linked_field (h : InodeTable count place fs) {k l : Nat} (hk : 0 < k)
    (hk' : k ≤ count) (hl : 0 < l) (hl' : l ≤ count) (d : Nat → UInt8) (oldSecs : Nat) {f : Nat}
    (hf : f + 4 ≤ 128) (hne : k ≠ l ∨ inoHardlinks + 2 ≤ f) :
    (place k).field (linkedDisk (place l) d oldSecs) f = (place k).field d f := by
  have hsize := (place k).inodesize_le
  have hsize' := (place l).inodesize_le
  apply le32_congr
  intro j hj
  apply linkedDisk_outside
  rw [inoSize, inoHardlinks] at *
  by_cases heq : k = l
  · subst heq
    omega
  · have hapart := h.apart k l hk hk' hl hl' heq
    omega

/-- A link changes no block without inodes. -/
theorem linkedDisk_same (d : Nat → UInt8) (oldSecs : Nat) {y : Nat} (hy : y ≠ Q.block) :
    SameBlock Q.bs d (linkedDisk Q d oldSecs) y := by
  have hsize := Q.inodesize_le
  intro a ha
  apply linkedDisk_outside
  rw [inoSize, inoHardlinks]
  by_contra hin
  exact hy (ha.symm.trans (InodePlace.div_of_mem (by omega) (by omega)))

/-- The disk after the entry is placed. -/
def afterPlace (place : Nat → InodePlace) (heap : Nat → UInt8) (fs : Ext2Fs)
    (ino target x last size : Nat) (dirent : Nat → UInt8) : Nat → UInt8 :=
  linkedDisk (place target) (placedDisk (place ino) heap fs x dirent last size)
    ((place ino).sectors fs.disk)

/-- **One block only.** Whatever room there is, `ext2_place_dirent` changes the
first block of the directory and the inode of the entry, and returns 0, once
the loop of `__maximize_dirent` ends. -/
theorem ext2PlaceDirent_eq (alloc : Ext2Fs → Int × Ext2Fs) (heap : Nat → UInt8)
    (h : InodeTable count place fs) (hino : 0 < ino ∧ ino ≤ count)
    (htarget : 0 < target ∧ target ≤ count) (hb : FirstBlock (place ino) fs.disk x init last)
    (hx : TableFree count place x) (hd : entInode dirent 0 = target) :
    ext2PlaceDirent alloc heap fs ino dirent =
      (maximizeDirent (newOffset (blockBytes (place ino) fs.disk x) last) (place ino).bs 65536
        (entSize dirent 0)).map fun size =>
          (0, setDisk fs (afterPlace place heap fs ino target x last size dirent)) := by
  rw [ext2PlaceDirent_first (h.inodeAt ino hino.1 hino.2) hb, hd]
  cases maximizeDirent (newOffset (blockBytes (place ino) fs.disk x) last) (place ino).bs 65536
      (entSize dirent 0) with
  | none => rfl
  | some size =>
    have hplaced : InodeTable count place
        (setDisk fs (placedDisk (place ino) heap fs x dirent last size)) :=
      h.changed fun k hk hle j hj => by
        rw [placedDisk, setBlock_of_ne]
        rw [h.bs_eq hino.1 hino.2 hk hle]
        exact hx.notTable k hk hle j hj
    rw [Option.bind_some, linkInode_eq (hplaced.inodeAt target htarget.1 htarget.2)]
    rfl

section After

variable {size : Nat}

/-- Tables are where they were when an entry was placed. -/
theorem InodeTable.placed (h : InodeTable count place fs)
    (hcross : ∀ k l, 0 < k → k ≤ count → 0 < l → l ≤ count →
      ∀ j < 4, ((place k).table + j) / (place k).bs ≠ (place l).block)
    (hino : 0 < ino ∧ ino ≤ count) (htarget : 0 < target ∧ target ≤ count)
    (hx : TableFree count place x) :
    InodeTable count place (setDisk fs (afterPlace place heap fs ino target x last size dirent)) := by
  refine h.changed fun l hl hle j hj => ?_
  have hlink : SameBlock (place target).bs (placedDisk (place ino) heap fs x dirent last size)
      (afterPlace place heap fs ino target x last size dirent)
      (((place l).table + j) / (place l).bs) :=
    linkedDisk_same _ _ (hcross l target hl hle htarget.1 htarget.2 j hj)
  rw [hlink _ (by rw [h.bs_eq htarget.1 htarget.2 hl hle]), placedDisk, setBlock_of_ne]
  rw [h.bs_eq hino.1 hino.2 hl hle]
  exact hx.notTable l hl hle j hj

/-- Block numbers and sectors are what they were. -/
theorem afterPlace_field (h : InodeTable count place fs) (hino : 0 < ino ∧ ino ≤ count)
    (htarget : 0 < target ∧ target ≤ count) (hx : TableFree count place x) {k f : Nat} (hk : 0 < k)
    (hk' : k ≤ count) (hf : f + 4 ≤ 128) (hne : k ≠ target ∨ inoHardlinks + 2 ≤ f) :
    (place k).field (afterPlace place heap fs ino target x last size dirent) f =
      (place k).field fs.disk f := by
  rw [afterPlace, h.linked_field hk hk' htarget.1 htarget.2 _ _ hf hne]
  refine InodePlace.field_same ?_ hf
  rw [h.bs_eq hk hk' hino.1 hino.2]
  exact placedDisk_same (hx.notInode k hk hk').symm

theorem afterPlace_ptr (h : InodeTable count place fs) (hino : 0 < ino ∧ ino ≤ count)
    (htarget : 0 < target ∧ target ≤ count) (hx : TableFree count place x) {k i : Nat} (hk : 0 < k)
    (hk' : k ≤ count) (hi : i < 12) :
    (place k).ptr (afterPlace place heap fs ino target x last size dirent) i =
      (place k).ptr fs.disk i := by
  rw [InodePlace.ptr_direct hi, InodePlace.ptr_direct hi]
  exact afterPlace_field h hino htarget hx hk hk' (by rw [inoDbp]; omega)
    (.inr (by rw [inoHardlinks, inoDbp]; omega))

/-- The other blocks are what they were. -/
theorem afterPlace_same (h : InodeTable count place fs) (hino : 0 < ino ∧ ino ≤ count)
    (htarget : 0 < target ∧ target ≤ count) {y : Nat} (hy : TableFree count place y) (hne : y ≠ x) :
    SameBlock (place ino).bs fs.disk (afterPlace place heap fs ino target x last size dirent) y := by
  have hplaced : SameBlock (place ino).bs fs.disk
      (placedDisk (place ino) heap fs x dirent last size) y := placedDisk_same hne
  refine hplaced.trans ?_
  rw [h.bs_eq hino.1 hino.2 htarget.1 htarget.2]
  exact linkedDisk_same _ _ (hy.notInode target htarget.1 htarget.2)

/-- The first block has the entry. -/
theorem afterPlace_block (h : InodeTable count place fs) (hino : 0 < ino ∧ ino ≤ count)
    (htarget : 0 < target ∧ target ≤ count) (hx : TableFree count place x) {j : Nat}
    (hj : j < (place ino).bs) :
    blockBytes (place ino) (afterPlace place heap fs ino target x last size dirent) x j =
      placedBlock (readNewBlock heap fs x) dirent last size j := by
  rw [← placedDisk_block hj]
  refine (?_ : SameBlock _ _ _ x).byte hj
  rw [h.bs_eq hino.1 hino.2 htarget.1 htarget.2]
  exact linkedDisk_same _ _ (hx.notInode target htarget.1 htarget.2)

/-- The size of the new entry when it fits. -/
theorem maximize_room (hb : FirstBlock (place ino) fs.disk x init last) (hpos : 0 < size)
    (hroom : newOffset (blockBytes (place ino) fs.disk x) last + size ≤ (place ino).bs) :
    maximizeDirent (newOffset (blockBytes (place ino) fs.disk x) last) (place ino).bs 65536 size =
      some ((place ino).bs - newOffset (blockBytes (place ino) fs.disk x) last) := by
  have hlt := le16_lt (blockBytes (place ino) fs.disk x) (last + 4)
  have hfills := hb.fills
  obtain ⟨hge, -⟩ := newOffset_ge (blockBytes (place ino) fs.disk x) last
  have hlen := direntMinLength_pos (blockBytes (place ino) fs.disk x) last
  rw [entSize] at hfills
  exact maximizeDirent_fits hpos hroom (by omega)

/-- **Room.** When the entry fits, the block is tiled again, by the old entries
and the new one. -/
theorem afterPlace_tiles (heap : Nat → UInt8) (h : InodeTable count place fs)
    (hino : 0 < ino ∧ ino ≤ count) (htarget : 0 < target ∧ target ≤ count)
    (hb : FirstBlock (place ino) fs.disk x init last) (hx : TableFree count place x)
    (hroom : newOffset (blockBytes (place ino) fs.disk x) last + direntMinLength dirent 0 ≤
      (place ino).bs)
    (hsize : size = (place ino).bs - newOffset (blockBytes (place ino) fs.disk x) last) :
    Tiles (blockBytes (place ino) (afterPlace place heap fs ino target x last size dirent) x) 0
        (init ++ [last] ++ [newOffset (blockBytes (place ino) fs.disk x) last]) (place ino).bs ∧
      (∀ o ∈ init ++ [last],
        entryAt (blockBytes (place ino) (afterPlace place heap fs ino target x last size dirent) x) o =
            entryAt (blockBytes (place ino) fs.disk x) o ∧
          entNamelength
              (blockBytes (place ino) (afterPlace place heap fs ino target x last size dirent) x) o =
            entNamelength (blockBytes (place ino) fs.disk x) o) ∧
      entryAt (blockBytes (place ino) (afterPlace place heap fs ino target x last size dirent) x)
          (newOffset (blockBytes (place ino) fs.disk x) last) = entryAt dirent 0 ∧
        entNamelength
            (blockBytes (place ino) (afterPlace place heap fs ino target x last size dirent) x)
            (newOffset (blockBytes (place ino) fs.disk x) last) = entNamelength dirent 0 := by
  obtain ⟨hbuffer, hsame⟩ := hb.buffer (h.inodeAt ino hino.1 hino.2) heap
  have hnew : newOffset (readNewBlock heap fs x) last =
      newOffset (blockBytes (place ino) fs.disk x) last := by
    obtain ⟨-, hlen, -⟩ := hsame last (by simp)
    rw [newOffset, newOffset, direntMinLength, direntMinLength, hlen]
  obtain ⟨mid, hinit, rfl, -, hend⟩ := hbuffer.split
  rw [← hnew] at hroom hsize ⊢
  obtain ⟨hentry, hlen⟩ : entryAt (placedBlock (readNewBlock heap fs x) dirent last size)
        (newOffset (readNewBlock heap fs x) last) = entryAt dirent 0 ∧
      entNamelength (placedBlock (readNewBlock heap fs x) dirent last size)
        (newOffset (readNewBlock heap fs x) last) = entNamelength dirent 0 := placedBlock_entry
  have hpos := direntMinLength_pos dirent 0
  have hlt : size < 65536 := by
    have hle := le16_lt (readNewBlock heap fs x) (last + 4)
    obtain ⟨hge, -⟩ := newOffset_ge (readNewBlock heap fs x) last
    have hmin := direntMinLength_pos (readNewBlock heap fs x) last
    have hlast : last + entSize (readNewBlock heap fs x) last = (place ino).bs := hend
    rw [entSize] at hlast
    omega
  have hplaced : Tiles (placedBlock (readNewBlock heap fs x) dirent last size) 0
      (init ++ [last] ++ [newOffset (readNewBlock heap fs x) last]) (place ino).bs := by
    refine (placedBlock_tiles dirent size hinit).append ⟨rfl, ?_, ?_⟩
    · rw [direntMinLength, hlen, placedBlock_size hlt, hsize, ← direntMinLength]
      omega
    · rw [placedBlock_size hlt]
      show newOffset (readNewBlock heap fs x) last + size = (place ino).bs
      omega
  have hblock : ∀ j, 0 ≤ j → j < (place ino).bs →
      blockBytes (place ino) (afterPlace place heap fs ino target x last size dirent) x j =
        placedBlock (readNewBlock heap fs x) dirent last size j := fun j _ hj =>
    afterPlace_block h hino htarget hx hj
  obtain ⟨htiles, hentries⟩ := hplaced.of_bytes hblock
  refine ⟨htiles, fun o ho => ?_, ?_, ?_⟩
  · obtain ⟨he, hn, -⟩ := hentries o (List.mem_append_left _ ho)
    obtain ⟨he', hn', -⟩ := placedBlock_entries dirent size hinit ho
    obtain ⟨he'', hn'', -⟩ := hsame o ho
    exact ⟨he.trans (he'.trans he''), hn.trans (hn'.trans hn'')⟩
  · exact (hentries _ (by simp)).1.trans hentry
  · exact (hentries _ (by simp)).2.1.trans hlen

end After

end Place

end Levos.Fs
