import Levos.Fs.Ext2.DirPlace
import Levos.Fs.Ext2.WriteBack

/-!
# A directory block without room (`fs/ext2/dir.c`)

There is no test for free space in `ext2_place_dirent`. When the entry does not
fit, it is put at the end of the first block all the same, is given a size up
to the end of the block after it, and is cut where its block ends; or, when
there is no byte left, nothing of it gets to the disk. No other block is tried
and no error is returned.
-/

namespace Levos.Fs

open Levos.Base

/-! ## What should happen -/

/-- The directory at `P` has an entry `e` in its block `i` that was not there
before. -/
def NewEntryIn (P : InodePlace) (d d' : Nat → UInt8) (i : Nat) (e : DirEntry) : Prop :=
  P.ptr d' i ≠ 0 ∧ ∃ offs' o, Tiles (blockBytes P d' (P.ptr d' i)) 0 offs' P.bs ∧ o ∈ offs' ∧
    entryAt (blockBytes P d' (P.ptr d' i)) o = e ∧
    ¬ (P.ptr d i = P.ptr d' i ∧ ∃ offs, Tiles (blockBytes P d (P.ptr d i)) 0 offs P.bs ∧ o ∈ offs ∧
      entryAt (blockBytes P d (P.ptr d i)) o = e)

/-- The blocks of the directory are there, with the same bytes. -/
def DirUnchanged (P : InodePlace) (d d' : Nat → UInt8) : Prop :=
  ∀ i < 12, P.ptr d' i = P.ptr d i ∧ (P.ptr d i ≠ 0 → SameBlock P.bs d d' (P.ptr d i))

/-- Every block is tiled, and the old ones have their old entries. -/
def EntriesKept (P : InodePlace) (d d' : Nat → UInt8) : Prop :=
  ∀ i < 12, P.ptr d' i ≠ 0 → ∃ offs', Tiles (blockBytes P d' (P.ptr d' i)) 0 offs' P.bs ∧
    (P.ptr d i ≠ 0 → ∃ offs, Tiles (blockBytes P d (P.ptr d i)) 0 offs P.bs ∧
      ∀ o ∈ offs, o ∈ offs' ∧
        entryAt (blockBytes P d' (P.ptr d' i)) o = entryAt (blockBytes P d (P.ptr d i)) o)

/-- Adding entry `e` when the first block has no room: it goes to another
block, or there is an error and nothing changes; and the directory stays well
formed. -/
def OverflowSafe (P : InodePlace) (e : DirEntry) (ret : Int) (d d' : Nat → UInt8) : Prop :=
  ((∃ i < 12, 0 < i ∧ NewEntryIn P d d' i e) ∨ ret ≠ 0 ∧ DirUnchanged P d d') ∧ EntriesKept P d d'

/-! ## What happens -/

section Overflow

variable {count ino target x last size : Nat} {place : Nat → InodePlace} {fs : Ext2Fs}
  {init : List Nat} {alloc : Ext2Fs → Int × Ext2Fs} {heap dirent : Nat → UInt8} {e : DirEntry}

/-- The blocks after the first one get no entry. -/
theorem afterPlace_no_entry (h : InodeTable count place fs) (hino : 0 < ino ∧ ino ≤ count)
    (htarget : 0 < target ∧ target ≤ count) (hdir : TiledDir count place (place ino) fs.disk)
    (hx : TableFree count place x) (hfirst : (place ino).ptr fs.disk 0 = x) {i : Nat} (hi : i < 12)
    (hpos : 0 < i) :
    ¬ NewEntryIn (place ino) fs.disk (afterPlace place heap fs ino target x last size dirent) i e := by
  have hptr : (place ino).ptr (afterPlace place heap fs ino target x last size dirent) i =
      (place ino).ptr fs.disk i := afterPlace_ptr h hino htarget hx hino.1 hino.2 hi
  rintro ⟨hmapped, offs', o, htiles, ho, he, hnot⟩
  rw [hptr] at hmapped htiles he hnot
  obtain ⟨offs, hold⟩ := hdir.tiled i hi hmapped
  have hne : (place ino).ptr fs.disk i ≠ x := fun heq => by
    have hzero := hdir.inj i hi 0 (by norm_num) hmapped (heq.trans hfirst.symm)
    omega
  have hsame : SameBlock (place ino).bs fs.disk
      (afterPlace place heap fs ino target x last size dirent) ((place ino).ptr fs.disk i) :=
    afterPlace_same h hino htarget (hdir.free i hi hmapped) hne
  obtain ⟨htiles', hentries⟩ := hold.of_bytes fun j _ hj => hsame.byte hj
  obtain rfl := htiles'.unique htiles
  exact hnot ⟨rfl, offs', hold, ho, (hentries o ho).1 ▸ he⟩

/-- The first block is no longer tiled: its new entry ends in the next one. -/
theorem afterPlace_untiled (h : InodeTable count place fs) (hino : 0 < ino ∧ ino ≤ count)
    (htarget : 0 < target ∧ target ≤ count) (hb : FirstBlock (place ino) fs.disk x init last)
    (hx : TableFree count place x) (hsize : size < 65536)
    (hstart : newOffset (blockBytes (place ino) fs.disk x) last < (place ino).bs)
    (hover : (place ino).bs < newOffset (blockBytes (place ino) fs.disk x) last + size)
    (offs : List Nat) :
    ¬ Tiles (blockBytes (place ino) (afterPlace place heap fs ino target x last size dirent) x) 0
      offs (place ino).bs := by
  intro htiles
  obtain ⟨hbuffer, hsame⟩ := hb.buffer (h.inodeAt ino hino.1 hino.2) heap
  have hnew : newOffset (readNewBlock heap fs x) last =
      newOffset (blockBytes (place ino) fs.disk x) last := by
    obtain ⟨-, hlen, -⟩ := hsame last (by simp)
    rw [newOffset, newOffset, direntMinLength, direntMinLength, hlen]
  rw [← hnew] at hstart hover
  -- the same walk over the buffer
  have hwalk : Tiles (placedBlock (readNewBlock heap fs x) dirent last size) 0 offs (place ino).bs :=
    (htiles.of_bytes fun j _ hj => (afterPlace_block h hino htarget hx hj).symm).1
  obtain ⟨mid, hinit, rfl, -, -⟩ := hbuffer.split
  obtain ⟨rest, rfl, hrest⟩ := (placedBlock_tiles dirent size hinit).extends hwalk hstart.le
  cases rest with
  | nil => exact hstart.ne hrest
  | cons o rest =>
    obtain ⟨rfl, -, htail⟩ := hrest
    have hend := htail.le
    rw [placedBlock_size hsize] at hend
    omega

theorem recLen_bounds {name : List UInt8} (h : name.length ≤ 255) :
    9 ≤ recLen name ∧ recLen name < 268 := by
  have h₀ := le_roundUp4 (direntHeader + name.length + 1)
  have h₁ := roundUp4_lt (direntHeader + name.length + 1)
  rw [direntHeader] at h₀ h₁
  rw [recLen, direntHeader]
  omega

/-- The size that an entry gets which does not fit. -/
theorem maximize_overflow {P : InodePlace} {d : Nat → UInt8} {name : List UInt8}
    (hb : FirstBlock P d x init last) (hname : name.length ≤ 255)
    (hover : P.bs - newOffset (blockBytes P d x) last < recLen name) (hbs : P.bs ≤ 32768) :
    maximizeDirent (newOffset (blockBytes P d x) last) P.bs 65536 (recLen name) =
      some (2 * P.bs - newOffset (blockBytes P d x) last) := by
  have hge := P.bs_ge
  obtain ⟨hrec, hrec'⟩ := recLen_bounds hname
  have hround := roundUp4_lt (direntMinLength (blockBytes P d x) last)
  have hmin := hb.min
  have hfills := hb.fills
  rw [newOffset] at *
  exact maximizeDirent_overflows (by omega) (by omega) (by omega)

/-- **No room.** For every directory whose blocks are tiled and every name for
which there is no room after the last entry of the first block,
`ext2_place_dirent` neither finds another block nor fails and leaves the
directory as it is. With blocks of up to 32 KiB it returns 0, and when the
entry starts in the block at all, the block is no longer tiled. -/
theorem ext2_place_overflow {name : List UInt8} (h : InodeTable count place fs)
    (hino : 0 < ino ∧ ino ≤ count) (htarget : 0 < target ∧ target ≤ count)
    (hdir : TiledDir count place (place ino) fs.disk) (hx : (place ino).ptr fs.disk 0 = x)
    (hx0 : x ≠ 0) (hlast : Tiles (blockBytes (place ino) fs.disk x) 0 (init ++ [last]) (place ino).bs)
    (hname : 1 ≤ name.length ∧ name.length ≤ 255)
    (hover : (place ino).bs - newOffset (blockBytes (place ino) fs.disk x) last < recLen name) :
    (¬ ∃ ret fs', ext2PlaceDirent alloc heap fs ino (ext2NewDirent target name) = some (ret, fs') ∧
      OverflowSafe (place ino) ⟨target, name⟩ ret fs.disk fs'.disk) ∧
    ((place ino).bs ≤ 32768 → ∃ fs',
      ext2PlaceDirent alloc heap fs ino (ext2NewDirent target name) = some (0, fs') ∧
      (newOffset (blockBytes (place ino) fs.disk x) last < (place ino).bs →
        ¬ EntriesKept (place ino) fs.disk fs'.disk)) := by
  obtain ⟨mid, hinit, rfl, hmin, hend⟩ := hlast.split
  have hfree : TableFree count place x := hx ▸ hdir.free 0 (by norm_num) (hx ▸ hx0)
  have hb : FirstBlock (place ino) fs.disk x init last :=
    ⟨hx, hx0, hfree.lt ino hino.1 hino.2, hinit, hmin, hend⟩
  have hinode : entInode (ext2NewDirent target name) 0 = target := by
    have hlt := h.count_lt
    exact congrArg DirEntry.inode (newDirent_entry (by omega) hname.2)
  have hrun := ext2PlaceDirent_eq alloc heap h hino htarget hb hfree hinode
  rw [newDirent_size hname.2] at hrun
  constructor
  · rintro ⟨ret, fs', heq, hplaced | ⟨hret, -⟩, -⟩
    · obtain ⟨i, hi, hpos, hentry⟩ := hplaced
      rw [heq] at hrun
      obtain ⟨size, -, hres⟩ := Option.map_eq_some_iff.mp hrun.symm
      obtain ⟨-, rfl⟩ := Prod.mk.inj hres
      exact afterPlace_no_entry h hino htarget hdir hfree hx hi hpos hentry
    · rw [heq] at hrun
      obtain ⟨size, -, hres⟩ := Option.map_eq_some_iff.mp hrun.symm
      exact hret (Prod.mk.inj hres).1.symm
  · intro hbs
    have hge := (place ino).bs_ge
    rw [maximize_overflow hb hname.2 hover hbs, Option.map_some] at hrun
    refine ⟨_, hrun, fun hstart hkept => ?_⟩
    have hptr : (place ino).ptr (afterPlace place heap fs ino target x last
        (2 * (place ino).bs - newOffset (blockBytes (place ino) fs.disk x) last)
        (ext2NewDirent target name)) 0 = x :=
      (afterPlace_ptr h hino htarget hfree hino.1 hino.2 (by norm_num)).trans hx
    obtain ⟨offs', htiles, -⟩ := hkept 0 (by norm_num) (by rw [setDisk, hptr]; exact hx0)
    rw [setDisk, hptr] at htiles
    refine afterPlace_untiled h hino htarget hb hfree ?_ hstart ?_ offs' htiles
    · have hrec := recLen_bounds hname.2
      omega
    · omega

end Overflow

/-! ## A small directory -/

/-- A disk with an entry at a byte. -/
def putEntry (d : Nat → UInt8) (a size inode : Nat) (name : List UInt8) : Nat → UInt8 :=
  writeBytes d a (direntHeader + name.length) (put16 (ext2NewDirent inode name) 4 size)

/-- A root directory of one block, which has the entries "." and "..", the
second one from byte `dotdot` on. -/
def rootDisk (dotdot : Nat) : Nat → UInt8 :=
  let d := put16 (put16 tableFs.disk 5248 0x4FFF) 5274 2
  let d := put32 (put32 (put32 d 5252 1024) 5276 2) 5288 10
  putEntry (putEntry d 10240 dotdot 2 [46]) (10240 + dotdot) (1024 - dotdot) 2 [46, 46]

theorem rootDisk_outside (dotdot : Nat) {a : Nat} (ha : a < 5248) :
    rootDisk dotdot a = tableFs.disk a := by
  rw [rootDisk, putEntry, writeBytes_of_not_mem (by omega), putEntry,
    writeBytes_of_not_mem (by omega), put32_of_ne (by omega), put32_of_ne (by omega),
    put32_of_ne (by omega), put16_of_ne (by omega), put16_of_ne (by omega)]

/-- The filesystem with this directory. -/
def rootFs (dotdot : Nat) : Ext2Fs := setDisk tableFs (rootDisk dotdot)

theorem smallPlace_table {d : Nat → UInt8} (hd : ∀ a < 5120, d a = tableFs.disk a) :
    InodeTable 8 smallPlace (setDisk tableFs d) := by
  have hplace : ∀ k < 9, 0 < k → tableField tableFs k = 2056 ∧ inodeBlock tableFs k = 5 ∧
      inodeOffset tableFs k = 128 * ((k - 1) % 8) := by decide +kernel
  have hgroup : ∀ k < 9, 32 * ((k - 1) / le32 tableFs.sb sbInodesInBlockgroup) + 32 ≤ 1024 := by
    decide +kernel
  have hsizes : tableFs.sectorsPerBlock = 2 ∧ tableFs.blocksize = 1024 ∧ tableFs.inodesize = 128 ∧
      0 < le32 tableFs.sb sbInodesInBlockgroup := by decide +kernel
  refine ⟨by norm_num, fun k hk hle => ?_, fun k l hk hk' hl hl' hne => ?_⟩
  · obtain ⟨hfield, hblock, hoffset⟩ := hplace k (by omega) hk
    have hat : InodeAt (smallPlace k) tableFs k :=
      ⟨hk.ne', hsizes.1, hsizes.2.1, hsizes.2.2.1, hsizes.2.2.2, hgroup k (by omega), hfield, hblock,
        hoffset⟩
    refine hat.congr ⟨rfl, rfl, rfl, rfl, rfl, rfl⟩ fun j hj => hd _ ?_
    show 2056 + j < 5120
    omega
  · show 1024 * 5 + 128 * ((k - 1) % 8) + 128 ≤ 1024 * 5 + 128 * ((l - 1) % 8) ∨
      1024 * 5 + 128 * ((l - 1) % 8) + 128 ≤ 1024 * 5 + 128 * ((k - 1) % 8)
    omega

theorem smallPlace_free {x : Nat} (h : 6 ≤ x ∧ x < 2 ^ 31) : TableFree 8 smallPlace x := by
  refine ⟨fun k _ _ => ?_, fun k _ _ => ?_, fun k _ _ j hj => ?_⟩
  · show x * 2 < 2 ^ 32
    omega
  · show x ≠ 5
    omega
  · show (2056 + j) / 1024 ≠ x
    omega

/-- A root directory with 20 bytes left. -/
def fullRoot : Ext2Fs := rootFs 992

theorem fullRoot_table : InodeTable 8 smallPlace fullRoot :=
  smallPlace_table fun _ ha => rootDisk_outside 992 (by omega)

/-- A name of 20 bytes. -/
def longName : List UInt8 := List.replicate 20 97

/-- What this directory has on its disk, and what the call for a long name makes
of it. -/
theorem fullRoot_values :
    (smallPlace 2).ptr fullRoot.disk 0 = 10 ∧
      Tiles (blockBytes (smallPlace 2) fullRoot.disk 10) 0 ([0] ++ [992]) (smallPlace 2).bs ∧
      (∀ i < 12, 0 < i → (smallPlace 2).ptr fullRoot.disk i = 0) ∧
      (smallPlace 2).bs - newOffset (blockBytes (smallPlace 2) fullRoot.disk 10) 992 <
        recLen longName ∧
      (ext2PlaceDirent allocBlock (fun _ => 0xCC) fullRoot 2 (ext2NewDirent 3 longName)).map (fun r =>
        (r.1, entSize (blockBytes (smallPlace 2) r.2.disk 10) 1004,
          (List.range 12).map ((smallPlace 2).ptr r.2.disk))) =
      some (0, 1044, [10, 0, 0, 0, 0, 0, 0, 0, 0, 0, 0, 0]) := by
  refine ⟨?_, ?_, ?_, ?_, ?_⟩ <;> decide +kernel

theorem fullRoot_dir : TiledDir 8 smallPlace (smallPlace 2) fullRoot.disk := by
  obtain ⟨hten, htiles, hptr, -⟩ := fullRoot_values
  have hfirst : ∀ i < 12, (smallPlace 2).ptr fullRoot.disk i ≠ 0 → i = 0 := fun i hi hmapped => by
    by_contra hne
    exact hmapped (hptr i hi (Nat.pos_of_ne_zero hne))
  refine ⟨fun i hi hmapped => ?_, fun i hi j hj hmapped heq => ?_, fun i hi hmapped => ?_⟩
  · rw [hfirst i hi hmapped, hten]
    exact smallPlace_free (by norm_num)
  · rw [hfirst i hi hmapped, hfirst j hj (heq ▸ hmapped)]
  · rw [hfirst i hi hmapped, hten]
    exact ⟨_, htiles⟩

theorem ext2_place_overflow_root :
    (¬ ∃ ret fs', ext2PlaceDirent allocBlock (fun _ => 0xCC) fullRoot 2 (ext2NewDirent 3 longName) =
        some (ret, fs') ∧ OverflowSafe (smallPlace 2) ⟨3, longName⟩ ret fullRoot.disk fs'.disk) ∧
      ((smallPlace 2).bs ≤ 32768 → ∃ fs',
        ext2PlaceDirent allocBlock (fun _ => 0xCC) fullRoot 2 (ext2NewDirent 3 longName) =
          some (0, fs') ∧
        (newOffset (blockBytes (smallPlace 2) fullRoot.disk 10) 992 < (smallPlace 2).bs →
          ¬ EntriesKept (smallPlace 2) fullRoot.disk fs'.disk)) :=
  ext2_place_overflow fullRoot_table (by norm_num) (by norm_num) fullRoot_dir fullRoot_values.1
    (by norm_num) fullRoot_values.2.1 (by decide) fullRoot_values.2.2.2.1

/-- In this directory the entry gets a size of 1044 bytes, 20 of which are in
the block, and the call returns 0. -/
theorem ext2_place_overflow_grows :
    InodeTable 8 smallPlace fullRoot ∧ TiledDir 8 smallPlace (smallPlace 2) fullRoot.disk ∧
      ∃ fs', ext2PlaceDirent allocBlock (fun _ => 0xCC) fullRoot 2 (ext2NewDirent 3 longName) =
          some (0, fs') ∧ entSize (blockBytes (smallPlace 2) fs'.disk 10) 1004 = 1044 ∧
        ¬ OverflowSafe (smallPlace 2) ⟨3, longName⟩ 0 fullRoot.disk fs'.disk := by
  refine ⟨fullRoot_table, fullRoot_dir, ?_⟩
  obtain ⟨-, -, -, -, heval⟩ := fullRoot_values
  obtain ⟨⟨ret, fs'⟩, hrun, hres⟩ := Option.map_eq_some_iff.mp heval
  obtain ⟨rfl, hsize, hptrs⟩ : ret = 0 ∧ entSize (blockBytes (smallPlace 2) fs'.disk 10) 1004 = 1044 ∧
      (List.range 12).map ((smallPlace 2).ptr fs'.disk) = [10, 0, 0, 0, 0, 0, 0, 0, 0, 0, 0, 0] := by
    simpa using hres
  refine ⟨fs', hrun, hsize, ?_⟩
  rintro ⟨⟨i, hi, hpos, hmapped, -⟩ | ⟨hret, -⟩, -⟩
  · have hzero : (smallPlace 2).ptr fs'.disk i = [10, 0, 0, 0, 0, 0, 0, 0, 0, 0, 0, 0].getD i 0 := by
      rw [← hptrs, List.getD_eq_getElem?_getD, List.getElem?_map, List.getElem?_range hi]
      rfl
    rw [hzero] at hmapped
    interval_cases i <;> exact hmapped rfl
  · exact hret rfl

end Levos.Fs
