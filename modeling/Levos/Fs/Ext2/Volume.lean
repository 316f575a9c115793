import Levos.Base.Refinement
import Levos.Fs.Ext2.DirOverflow
import Levos.Fs.Ext2.FileBytes
import Levos.Kernel.Lseek

/-!
# The files of one filesystem

Any number of files, each open as often as one likes. Their inodes share
blocks, their block numbers come from one allocator, and each write goes
through buffers that hold other files' inodes as well. `ext2_files_are_bytes`:
the filesystem is the store of byte files that it is meant to be.
-/

namespace Levos.Fs

open Levos.Base Levos.Kernel

/-! ## The descriptors of the inode tables -/

/-- The bytes of the group descriptors that say where the inodes are. -/
def tableBytes (count : Nat) (place : Nat → InodePlace) : Set Nat :=
  {a | ∃ k, 0 < k ∧ k ≤ count ∧ ∃ j < 4, a = (place k).table + j}

/-- The same allocator, with the places of all inodes as part of what it
promises to keep. -/
def BlockAllocator.withTables (A : BlockAllocator) (count : Nat) (place : Nat → InodePlace) :
    BlockAllocator where
  alloc := A.alloc
  metadata := A.metadata ∪ tableBytes count place
  used := A.used
  room := fun n fs => A.room n fs ∧ InodeTable count place fs
  alloc_fresh := by
    rintro n fs ⟨hroom, htable⟩
    obtain ⟨r, heq, hr, hroom'⟩ := A.alloc_fresh hroom
    refine ⟨r, heq, { hr with disk := fun a ha => hr.disk a fun hmem => ha (.inl hmem) }, hroom',
      htable.count_lt, fun k hk hle => ?_, htable.apart⟩
    have hat := htable.inodeAt k hk hle
    refine hat.congr hr.geometry ?_
    rw [← hat.table]
    exact hr.tables k (hat.blocksize ▸ hat.group)
  room_mono := fun h => ⟨A.room_mono h.1, h.2⟩
  frame := by
    rintro n fs d ⟨hroom, htable⟩ hd
    obtain ⟨hroom', hused⟩ := A.frame hroom fun a ha => hd a (.inl ha)
    exact ⟨⟨hroom', htable.changed fun k hk hle j hj => hd _ (.inr ⟨k, hk, hle, j, hj, rfl⟩)⟩, hused⟩

/-! ## Files that share nothing -/

/-- The files in `S` can be written to, and none of them owns a block of
another one's, or one with another one's inode. -/
structure VolumeOk (A : BlockAllocator) (count : Nat) (place : Nat → InodePlace) (S : Set Nat)
    (n : Nat) (fs : Ext2Fs) : Prop where
  valid : ∀ k ∈ S, 0 < k ∧ k ≤ count
  file : ∀ k ∈ S, FileOk (A.withTables count place) (place k) n fs k
  size_le : ∀ k ∈ S, (place k).size fs.disk ≤ (place k).bs * (place k).reach
  apart : ∀ k ∈ S, ∀ l ∈ S, k ≠ l → ∀ x, (place k).Owns fs.disk x →
    ¬ (place l).Owns fs.disk x ∧ x ≠ (place l).block

variable {A : BlockAllocator} {count : Nat} {place : Nat → InodePlace} {S : Set Nat} {m n k l : Nat}
  {fs fs' : Ext2Fs}

theorem FileOk.mono_le {P : InodePlace} {ino : Nat} (h : FileOk A P m fs ino) (hle : n ≤ m) :
    FileOk A P n fs ino := by
  induction m, hle using Nat.le_induction with
  | base => exact h
  | succ m _ ih => exact ih h.mono

theorem VolumeOk.mono (h : VolumeOk A count place S m fs) (hle : n ≤ m) :
    VolumeOk A count place S n fs :=
  { h with file := fun k hk => (h.file k hk).mono_le hle }

theorem VolumeOk.table (h : VolumeOk A count place S n fs) (hk : k ∈ S) :
    InodeTable count place fs := (h.file k hk).room.2

theorem VolumeOk.bs_eq (h : VolumeOk A count place S n fs) (hk : k ∈ S) (hl : l ∈ S) :
    (place k).bs = (place l).bs :=
  (h.table hk).bs_eq (h.valid k hk).1 (h.valid k hk).2 (h.valid l hl).1 (h.valid l hl).2

/-- What a step on file `k` may change: the metadata, the inode, and the blocks
that the file owns afterwards, each of which it owned before or nothing used. -/
structure FileChanged (A : BlockAllocator) (count : Nat) (place : Nat → InodePlace) (k : Nat)
    (fs fs' : Ext2Fs) : Prop where
  used : ∀ x, A.used fs x → A.used fs' x
  owns : ∀ x, (place k).Owns fs'.disk x → (place k).Owns fs.disk x ∨ ¬ A.used fs x
  frame : ∀ a, a ∉ (A.withTables count place).metadata →
    (a < (place k).addr ∨ (place k).addr + (place k).inodesize ≤ a) →
    ¬ (place k).Owns fs'.disk (a / (place k).bs) → fs'.disk a = fs.disk a

section Changed

/-- The blocks with the other inodes are not touched. -/
theorem FileChanged.inode_same (hc : FileChanged A count place k fs fs')
    (h : VolumeOk A count place S m fs) (hk : k ∈ S) (hl : l ∈ S) (hne : l ≠ k) {j : Nat}
    (hj : j < (place l).inodesize) :
    fs'.disk ((place l).addr + j) = fs.disk ((place l).addr + j) := by
  have hfile := h.file l hl
  have hdiv : ((place l).addr + j) / (place l).bs = (place l).block :=
    InodePlace.div_of_mem (Nat.le_add_right _ _) (by omega)
  have hapart := (h.table hk).apart l k (h.valid l hl).1 (h.valid l hl).2 (h.valid k hk).1
    (h.valid k hk).2 hne
  refine hc.frame _ (fun hmem => hfile.metaInode _ hmem hdiv) (by omega) ?_
  rw [h.bs_eq hk hl, hdiv]
  intro hx
  rcases hc.owns _ hx with hold | hnew
  · exact (h.apart k hk l hl hne.symm _ hold).2 rfl
  · exact hnew hfile.inodeUsed

/-- Nor are the blocks of the other files. -/
theorem FileChanged.block_same (hc : FileChanged A count place k fs fs')
    (h : VolumeOk A count place S m fs) (hk : k ∈ S) (hl : l ∈ S) (hne : l ≠ k) {x : Nat}
    (hx : (place l).Owns fs.disk x) : SameBlock (place l).bs fs.disk fs'.disk x := by
  have hdata := (h.file l hl).owned hx
  obtain ⟨hnot, hblock⟩ := h.apart l hl k hk hne x hx
  intro a ha
  rw [h.bs_eq hl hk] at ha
  refine hc.frame a (fun hmem => hdata.writable.notMeta a hmem (by rw [h.bs_eq hl hk, ha])) ?_ ?_
  · by_contra hin
    rw [not_or, not_lt, not_le] at hin
    exact hblock (ha.symm.trans (InodePlace.div_of_mem hin.1 hin.2))
  · rw [ha]
    intro hx'
    rcases hc.owns x hx' with hold | hnew
    · exact hnot hold
    · exact hnew hdata.used

/-- Another file afterwards. -/
theorem FileChanged.other (hc : FileChanged A count place k fs fs')
    (h : VolumeOk A count place S m fs) (hk : k ∈ S)
    (hfile : FileOk (A.withTables count place) (place k) n fs' k) (hl : l ∈ S) (hne : l ≠ k) :
    FileOk (A.withTables count place) (place l) n fs' l ∧
      (place l).size fs'.disk = (place l).size fs.disk ∧
      (place l).bytes fs'.disk = (place l).bytes fs.disk ∧
      ∀ x, (place l).Owns fs'.disk x ↔ (place l).Owns fs.disk x := by
  have hold := (h.file l hl).toFsOk
  have hused : ∀ x, A.used fs x → A.used fs' x := hc.used
  have hfs : FsOk (A.withTables count place) (place l) n fs' l :=
    { hold with
      inodeAt := hfile.room.2.inodeAt l (h.valid l hl).1 (h.valid l hl).2
      room := hfile.room
      boot := hfile.boot
      metaUsed := fun a ha => hused _ (hold.metaUsed a ha)
      tableUsed := fun j hj => hused _ (hold.tableUsed j hj)
      inodeUsed := hused _ hold.inodeUsed }
  obtain ⟨hok, hsize, hbytes, howns⟩ := (h.file l hl).unchanged hfs hused
    (fun j hj => hc.inode_same h hk hl hne hj) (fun x hx => hc.block_same h hk hl hne hx)
  exact ⟨hok, hsize, hbytes (h.size_le l hl), howns⟩

/-- **One file at a time.** A step on one file keeps the volume, and the bytes
of all other files. -/
theorem FileChanged.volume (hc : FileChanged A count place k fs fs')
    (h : VolumeOk A count place S m fs) (hk : k ∈ S)
    (hfile : FileOk (A.withTables count place) (place k) n fs' k)
    (hsize : (place k).size fs'.disk ≤ (place k).bs * (place k).reach) :
    VolumeOk A count place S n fs' ∧
      ∀ l ∈ S, l ≠ k → (place l).bytes fs'.disk = (place l).bytes fs.disk := by
  have hother := fun l (hl : l ∈ S) (hne : l ≠ k) => hc.other h hk hfile hl hne
  refine ⟨⟨h.valid, fun l hl => ?_, fun l hl => ?_, fun i hi j hj hij x hx => ?_⟩, fun l hl hne =>
    (hother l hl hne).2.2.1⟩
  · by_cases hne : l = k
    · exact hne ▸ hfile
    · exact (hother l hl hne).1
  · by_cases hne : l = k
    · exact hne ▸ hsize
    · rw [(hother l hl hne).2.1]
      exact h.size_le l hl
  · by_cases hik : i = k
    · -- what `k` owns now it owned before, or nothing used
      subst hik
      have hji : j ≠ i := fun heq => hij heq.symm
      rw [(hother j hj hji).2.2.2]
      rcases hc.owns x hx with hold | hnew
      · exact h.apart i hi j hj hij x hold
      · exact ⟨fun hxj => hnew ((h.file j hj).owned hxj).used,
          fun heq => hnew (heq ▸ (h.file j hj).inodeUsed)⟩
    · rw [(hother i hi hik).2.2.2] at hx
      by_cases hjk : j = k
      · subst hjk
        obtain ⟨hnot, hblock⟩ := h.apart i hi j hj hij x hx
        refine ⟨fun hxj => ?_, hblock⟩
        rcases hc.owns x hxj with hold | hnew
        · exact hnot hold
        · exact hnew ((h.file i hi).owned hx).used
      · rw [(hother j hj hjk).2.2.2]
        exact h.apart i hi j hj hij x hx

end Changed

/-! ## What the operations change -/

section Written

variable {P : InodePlace} {ino pos len : Nat} {buf : Nat → UInt8}

/-- The doubly indirect block of a file that was written to has the block
numbers it had. -/
theorem FileWritten.doubly_same (h : FileWritten A P fs fs' pos len buf) (ha : LeavesAlone A P fs fs')
    (hfile : FileOk A P m fs ino) (hfile' : FileOk A P n fs' ino) (h0 : P.doubly fs.disk ≠ 0) :
    SameBlock P.bs fs.disk fs'.disk (P.doubly fs.disk) := by
  have hdata := (hfile.deepData _ ⟨h0, .inl rfl⟩).1
  have hnear := (hfile'.deepData _ ⟨ha.doubly ▸ h0, .inl rfl⟩).2
  rw [ha.doubly] at hnear
  intro a hdiv
  refine h.frame a (fun hmem => hdata.writable.notMeta a hmem hdiv) ?_ ?_
  · rw [hdiv]
    exact hdata.notInode
  · rw [hdiv]
    exact hnear

/-- The blocks of the file are those it had, and some that nothing used. -/
theorem FileWritten.owns (h : FileWritten A P fs fs' pos len buf) (ha : LeavesAlone A P fs fs')
    (hfile : FileOk A P m fs ino) (hfile' : FileOk A P n fs' ino) {x : Nat}
    (hx : P.Owns fs'.disk x) : P.Owns fs.disk x ∨ ¬ A.used fs x := by
  have hnear := P.near_le_reach
  have hptr : ∀ b < P.reach, P.ptr fs'.disk b ≠ 0 →
      P.Owns fs.disk (P.ptr fs'.disk b) ∨ ¬ A.used fs (P.ptr fs'.disk b) := by
    intro b hb h0
    rcases h.blocks b hb with hold | ⟨-, hnew⟩
    · rw [hold] at h0 ⊢
      exact .inl (InodePlace.ptr_owned hb h0)
    · exact .inr hnew
  rcases hx with ⟨h0, rfl | ⟨c, hc, rfl⟩⟩ | ⟨h0, rfl | ⟨c, hc, rfl⟩ | ⟨b, hb, hb', rfl⟩⟩
  · rcases h.singly with hold | ⟨-, hnew⟩
    · rw [hold] at h0 ⊢
      exact .inl (.inl ⟨h0, .inl rfl⟩)
    · exact .inr hnew
  · exact hptr c (hc.trans_le hnear) h0
  · rw [ha.doubly] at h0 ⊢
    exact .inl (.inr ⟨h0, .inl rfl⟩)
  · rw [ha.doubly, InodePlace.follow_same (fun hd0 => h.doubly_same ha hfile hfile' hd0) hc] at h0 ⊢
    exact .inl (.inr ⟨h0, .inr (.inl ⟨c, hc, rfl⟩)⟩)
  · exact hptr b hb' h0

end Written

theorem FileWritten.changed {pos len : Nat} {buf : Nat → UInt8}
    (h : FileWritten (A.withTables count place) (place k) fs fs' pos len buf)
    (ha : LeavesAlone (A.withTables count place) (place k) fs fs')
    (hfile : FileOk (A.withTables count place) (place k) m fs k)
    (hfile' : FileOk (A.withTables count place) (place k) n fs' k) :
    FileChanged A count place k fs fs' := by
  refine ⟨h.used, fun x hx => h.owns ha hfile hfile' hx, fun a hmeta hout hnot => ?_⟩
  by_cases hin : a / (place k).bs = (place k).block
  · exact ha.beside a hmeta hin hout
  · exact h.frame a hmeta hin fun hx => hnot (.inl hx)

/-! ## Handles -/

/-- The filesystem and the open files. -/
structure Volume (η : Type) where
  fs : Ext2Fs
  file : η → Ext2File

/-- A system call on a handle; `junk` is what `malloc` gives. -/
inductive FileOp (η : Type) where
  | read (h : η) (junk : Nat → Nat → UInt8) (buf : Nat → UInt8) (count : Nat)
  | write (h : η) (junk : Nat → Nat → UInt8) (buf : Nat → UInt8) (count : Nat)
  | seek (h : η) (pos : Nat)
  | truncate (h : η) (junk : Nat → UInt8)

section Machine

variable {η : Type}

/-- The call, with its result and, of a read, the bytes in the caller's
buffer. -/
def volumeStep [DecidableEq η] (alloc : Ext2Fs → Int × Ext2Fs) (v : Volume η) :
    FileOp η → Option (Volume η × (Int × List UInt8))
  | .read h junk buf count =>
      (ext2ReadFile junk v.fs (v.file h) buf count).map fun r =>
        ({ v with file := Function.update v.file h r.2.2 },
          (r.1, (List.range r.1.toNat).map r.2.1))
  | .write h junk buf count =>
      (ext2WriteFile alloc junk v.fs (v.file h) buf count).map fun r =>
        ({ fs := r.2.1, file := Function.update v.file h r.2.2 }, (r.1, []))
  | .seek h pos =>
      let r := seekFile (posOf 0 (v.file h)) (BitVec.ofNat 32 pos) seekSet
      some ({ v with file := Function.update v.file h { v.file h with fpos := r.2.fpos.toNat } },
        (r.1, []))
  | .truncate h junk =>
      let r := ext2TruncateFile junk v.fs (v.file h) 0
      some ({ fs := r.2.1, file := Function.update v.file h r.2.2 }, (r.1, []))

/-- What the call is meant to be. -/
def FileOp.toStore : FileOp η → StoreOp η
  | .read h _ _ count => .read h count
  | .write h _ buf count => .write h ((List.range count).map buf)
  | .seek h pos => .seek h pos
  | .truncate h _ => .truncate h

def volumeSpec [DecidableEq η] (of : η → Nat) (t : ByteStore Nat η) (op : FileOp η) :
    ByteStore Nat η × (Int × List UInt8) := storeStep of t op.toStore

/-- Positions stay below 2 GiB, and a write starts in the file or at its end
and stays before the doubly indirect blocks. -/
def VolumeLegal (place : Nat → InodePlace) (of : η → Nat) (t : ByteStore Nat η) : FileOp η → Prop
  | .read h _ _ count => t.pos h + count < 2 ^ 31
  | .write h _ _ count => t.pos h ≤ (t.file (of h)).length ∧ t.pos h + count < 2 ^ 31 ∧
      t.pos h + count ≤ (place (of h)).bs * (place (of h)).near
  | .seek _ pos => pos < 2 ^ 31
  | .truncate _ _ => True

instance decidableVolumeLegal (place : Nat → InodePlace) (of : η → Nat) (t : ByteStore Nat η) :
    ∀ op : FileOp η, Decidable (VolumeLegal place of t op)
  | .read h _ _ count => inferInstanceAs (Decidable (t.pos h + count < 2 ^ 31))
  | .write h _ _ count =>
      inferInstanceAs (Decidable (t.pos h ≤ (t.file (of h)).length ∧ t.pos h + count < 2 ^ 31 ∧
        t.pos h + count ≤ (place (of h)).bs * (place (of h)).near))
  | .seek _ pos => inferInstanceAs (Decidable (pos < 2 ^ 31))
  | .truncate _ _ => isTrue trivial

/-- The blocks that the call may need: two for each block that it touches. -/
def volumeNeed (place : Nat → InodePlace) (of : η → Nat) : FileOp η → Nat
  | .write h _ _ count => 2 * (count / (place (of h)).bs + 2)
  | _ => 0

/-- The volume shows the store: the handles have the positions, and the files
the bytes. -/
structure VolumeShows (A : BlockAllocator) (count : Nat) (place : Nat → InodePlace) (S : Set Nat)
    (of : η → Nat) (n : Nat) (v : Volume η) (t : ByteStore Nat η) : Prop where
  ok : VolumeOk A count place S n v.fs
  handle : ∀ h, (v.file h).inodeNo = of h ∧ of h ∈ S
  pos : ∀ h, t.pos h = (v.file h).fpos
  file : ∀ k ∈ S, t.file k = (place k).bytes v.fs.disk

variable {of : η → Nat} {v : Volume η} {t : ByteStore Nat η} {h : η}

theorem VolumeShows.fileOk (hv : VolumeShows A count place S of n v t) (h : η) :
    FileOk (A.withTables count place) (place (of h)) n v.fs (v.file h).inodeNo.toNat := by
  rw [(hv.handle h).1, Int.toNat_natCast]
  exact hv.ok.file _ (hv.handle h).2

theorem VolumeShows.ino_pos (hv : VolumeShows A count place S of n v t) (h : η) :
    0 < (v.file h).inodeNo := by
  rw [(hv.handle h).1]
  exact_mod_cast (hv.ok.valid _ (hv.handle h).2).1

variable [DecidableEq η]

/-- Only the position of one handle changes. -/
theorem VolumeShows.setPos (hv : VolumeShows A count place S of n v t) {f : Ext2File} {p : Nat}
    (hino : f.inodeNo = (v.file h).inodeNo) (hp : f.fpos = p) :
    VolumeShows A count place S of n { v with file := Function.update v.file h f }
      { t with pos := Function.update t.pos h p } := by
  refine ⟨hv.ok, fun g => ?_, fun g => ?_, hv.file⟩
  all_goals dsimp only
  · rcases eq_or_ne g h with rfl | hg
    · rw [Function.update_self, hino]
      exact hv.handle g
    · rw [Function.update_of_ne hg]
      exact hv.handle g
  · rcases eq_or_ne g h with rfl | hg
    · rw [Function.update_self, Function.update_self, hp]
    · rw [Function.update_of_ne hg, Function.update_of_ne hg]
      exact hv.pos g

/-- One file changes, and the position of one of its handles. -/
theorem VolumeShows.setFile (hv : VolumeShows A count place S of m v t) {f : Ext2File} {p : Nat}
    {bytes : List UInt8} (hc : FileChanged A count place (of h) v.fs fs')
    (hfile : FileOk (A.withTables count place) (place (of h)) n fs' (of h))
    (hsize : (place (of h)).size fs'.disk ≤ (place (of h)).bs * (place (of h)).reach)
    (hbytes : bytes = (place (of h)).bytes fs'.disk) (hino : f.inodeNo = (v.file h).inodeNo)
    (hp : f.fpos = p) :
    VolumeShows A count place S of n { fs := fs', file := Function.update v.file h f }
      { file := Function.update t.file (of h) bytes, pos := Function.update t.pos h p } := by
  obtain ⟨hok, hothers⟩ := hc.volume hv.ok (hv.handle h).2 hfile hsize
  have hpos := hv.setPos hino hp
  refine ⟨hok, hpos.handle, hpos.pos, fun k hk => ?_⟩
  dsimp only
  rcases eq_or_ne k (of h) with rfl | hne
  · rw [Function.update_self, hbytes]
  · rw [Function.update_of_ne hne, hothers k hk hne]
    exact hv.file k hk

/-! ## The calls -/

theorem VolumeShows.read (hv : VolumeShows A count place S of n v t)
    (junk : Nat → Nat → UInt8) (buf : Nat → UInt8) (c : Nat) (hlegal : t.pos h + c < 2 ^ 31) :
    ∃ v', volumeStep A.alloc v (.read h junk buf c) = some (v', (volumeSpec of t (.read h junk buf c)).2) ∧
      VolumeShows A count place S of n v' (volumeSpec of t (.read h junk buf c)).1 := by
  have hmem := (hv.handle h).2
  rw [hv.pos h] at hlegal
  obtain ⟨out, hread, hout⟩ := ext2ReadFile_spec (hv.fileOk h) (hv.ino_pos h).le
    (hv.ok.size_le _ hmem) junk buf hlegal
  have hspec : volumeSpec of t (.read h junk buf c) = storeStep of t (.read h c) := rfl
  rw [← hv.file _ hmem, ← hv.pos h] at hread hout
  rw [volumeStep, hread, Option.map_some, hspec, storeStep]
  dsimp only
  rw [Int.toNat_natCast, hout]
  exact ⟨_, rfl, hv.setPos rfl rfl⟩

theorem VolumeShows.seek (hv : VolumeShows A count place S of n v t) {p : Nat} (hp : p < 2 ^ 31) :
    ∃ v', volumeStep A.alloc v (.seek h p) = some (v', (volumeSpec of t (.seek h p)).2) ∧
      VolumeShows A count place S of n v' (volumeSpec of t (.seek h p)).1 := by
  have hnat : (BitVec.ofNat 32 p).toNat = p := by
    rw [BitVec.toNat_ofNat]
    omega
  have hint : (BitVec.ofNat 32 p).toInt = p := by
    rw [BitVec.toInt_eq_toNat_of_lt (by omega), hnat]
  have hseek : seekFile (posOf 0 (v.file h)) (BitVec.ofNat 32 p) seekSet =
      ((p : Int), { posOf 0 (v.file h) with fpos := BitVec.ofNat 32 p }) := by
    rw [seekFile, if_neg (by rw [hint]; simp [seekSet, seekCur, seekEnd]), if_pos rfl]
    dsimp only
    rw [hint]
  have hspec : volumeSpec of t (.seek h p) = storeStep of t (.seek h p) := rfl
  rw [volumeStep, hseek, hspec, storeStep]
  exact ⟨_, rfl, hv.setPos rfl hnat⟩

theorem VolumeShows.truncate (hv : VolumeShows A count place S of n v t) (junk : Nat → UInt8) :
    ∃ v', volumeStep A.alloc v (.truncate h junk) =
        some (v', (volumeSpec of t (.truncate h junk)).2) ∧
      VolumeShows A count place S of n v' (volumeSpec of t (.truncate h junk)).1 := by
  have hmem := (hv.handle h).2
  have hlt := (hv.ok.table hmem).count_lt
  have hle := (hv.ok.valid _ hmem).2
  have hno : (v.file h).inodeNo.toNat = of h := by rw [(hv.handle h).1, Int.toNat_natCast]
  obtain ⟨fs', htrunc, hfile, hsize, hnone, hused, hframe⟩ :=
    ext2TruncateFile_spec (hv.fileOk h) (hv.ino_pos h) (by rw [(hv.handle h).1]; omega) junk
  rw [hno] at hfile
  have hbytes : [] = (place (of h)).bytes fs'.disk := by
    rw [InodePlace.bytes, hsize]
    rfl
  have hspec : volumeSpec of t (.truncate h junk) = storeStep of t (.truncate h) := rfl
  rw [volumeStep, htrunc, hspec, storeStep]
  exact ⟨_, rfl, hv.setFile ⟨hused, fun x hx => absurd hx (hnone x), fun a _ ha _ => hframe a ha⟩
    hfile (hsize.trans_le (Nat.zero_le _)) hbytes rfl rfl⟩

/-- The blocks that a write touches. -/
theorem write_need {bs pos c : Nat} (hbs : 0 < bs) :
    2 * ((pos + c) / bs - pos / bs + 1) ≤ 2 * (c / bs + 2) := by
  have hdiv : (pos + c) / bs ≤ pos / bs + c / bs + 1 := by
    rw [Nat.add_div hbs]
    split <;> omega
  generalize (pos + c) / bs = x, pos / bs = y, c / bs = z at *
  omega

theorem VolumeShows.write {junk : Nat → Nat → UInt8} {buf : Nat → UInt8} {c : Nat}
    (hv : VolumeShows A count place S of (n + 2 * (c / (place (of h)).bs + 2)) v t)
    (hpos : t.pos h ≤ (t.file (of h)).length) (hend : t.pos h + c < 2 ^ 31)
    (hnear : t.pos h + c ≤ (place (of h)).bs * (place (of h)).near) :
    ∃ v', volumeStep A.alloc v (.write h junk buf c) =
        some (v', (volumeSpec of t (.write h junk buf c)).2) ∧
      VolumeShows A count place S of n v' (volumeSpec of t (.write h junk buf c)).1 := by
  have hmem := (hv.handle h).2
  have hbs : 0 < (place (of h)).bs := lt_of_lt_of_le (by norm_num) (place (of h)).bs_ge
  have hfiles := hv.file _ hmem
  rw [hfiles, InodePlace.bytes_length] at hpos
  rw [hv.pos h] at hpos hend hnear
  have hspec : volumeSpec of t (.write h junk buf c) =
      storeStep of t (.write h ((List.range c).map buf)) := rfl
  rw [volumeStep, hspec, storeStep]
  dsimp only
  rw [List.length_map, List.length_range]
  rcases Nat.eq_zero_or_pos c with rfl | hc
  · -- nothing to write
    have hok : VolumeShows A count place S of n v t :=
      { hv with ok := hv.ok.mono (Nat.le_add_right _ _) }
    rw [ext2WriteFile, if_pos rfl, Option.map_some, List.range_zero, List.map_nil, overwrite_nil]
    simp only [Function.update_eq_self, Nat.add_zero]
    exact ⟨_, rfl, hok⟩
  have hno : (v.file h).inodeNo.toNat = of h := by rw [(hv.handle h).1, Int.toNat_natCast]
  have hok := (hv.fileOk h).mono_le (n := n + 2 * (((v.file h).fpos + c) / (place (of h)).bs -
    (v.file h).fpos / (place (of h)).bs + 1)) (Nat.add_le_add_left (write_need hbs) n)
  have hdone : ∃ fs' f', ext2WriteFile A.alloc junk v.fs (v.file h) buf c = some ((c : Int), fs', f') ∧
      FileOk (A.withTables count place) (place (of h)) n fs' (v.file h).inodeNo.toNat ∧
      FileWritten (A.withTables count place) (place (of h)) v.fs fs' (v.file h).fpos c buf ∧
      f'.fpos = (v.file h).fpos + c ∧ f'.inodeNo = (v.file h).inodeNo :=
    ext2WriteFile_spec (hv.ino_pos h) hok hpos hc hend hnear
  obtain ⟨fs', f', hrun, hfile, hwritten, hpos', hino'⟩ := hdone
  have halone := ext2WriteFile_alone (hv.ino_pos h) hok hpos hc hend hnear hrun
  rw [hno] at hfile hok
  have hsize : (place (of h)).size fs'.disk ≤ (place (of h)).bs * (place (of h)).reach := by
    rw [hwritten.size]
    exact max_le (hv.ok.size_le _ hmem)
      (hnear.trans (Nat.mul_le_mul_left _ (place (of h)).near_le_reach))
  have hbytes := hwritten.bytes hpos hsize
  rw [← hfiles, ← hv.pos h] at hbytes
  rw [hrun, Option.map_some]
  refine ⟨_, rfl, hv.setFile (hwritten.changed halone hok hfile) hfile hsize hbytes.symm hino' ?_⟩
  rw [hpos', hv.pos h]

/-- One call. -/
theorem VolumeShows.step {op : FileOp η}
    (hv : VolumeShows A count place S of (n + volumeNeed place of op) v t)
    (hlegal : VolumeLegal place of t op) :
    ∃ v', volumeStep A.alloc v op = some (v', (volumeSpec of t op).2) ∧
      VolumeShows A count place S of n v' (volumeSpec of t op).1 := by
  cases op with
  | read h junk buf c => exact hv.read junk buf c hlegal
  | write h junk buf c => exact hv.write hlegal.1 hlegal.2.1 hlegal.2.2
  | seek h p => exact hv.seek hlegal
  | truncate h junk => exact hv.truncate junk

/-- **The files are files.** Any sequence of reads, writes, seeks and
truncations through any handles, as long as there are blocks for the writes:
every call returns what the store of byte files returns, and the filesystem
has the files of the store. -/
theorem ext2_files_are_bytes {ops : List (FileOp η)}
    (hv : VolumeShows A count place S of (n + (ops.map (volumeNeed place of)).sum) v t)
    (hlegal : Allowed (volumeSpec of) (VolumeLegal place of) t ops) :
    ∃ v', runAnswers (volumeStep A.alloc) v ops = some (v', (runSpec (volumeSpec of) t ops).2) ∧
      VolumeShows A count place S of n v' (runSpec (volumeSpec of) t ops).1 :=
  refines_run (fun _ _ _ _ hv hlegal => hv.step hlegal) hv hlegal

end Machine

/-! ## Two empty files -/

theorem tableFs_volume : VolumeOk (ext2BlockAllocator 1 tableFs) 8 smallPlace {3, 4} 10 tableFs := by
  have htable : InodeTable 8 smallPlace tableFs := smallPlace_table (d := tableFs.disk) fun _ _ => rfl
  have hzero : ∀ k < 5, 3 ≤ k → (smallPlace k).size tableFs.disk = 0 ∧
      (∀ c < 12, (smallPlace k).field tableFs.disk (inoDbp + 4 * c) = 0) ∧
      (smallPlace k).singly tableFs.disk = 0 ∧ (smallPlace k).doubly tableFs.disk = 0 := by
    decide +kernel
  have hrange : ∀ k ∈ ({3, 4} : Set Nat), 3 ≤ k ∧ k < 5 := by
    rintro k (rfl | rfl) <;> norm_num
  have hfs := tableFs_fsOk
  have htables : ∀ a ∈ tableBytes 8 smallPlace, a / 1024 = 2 := by
    rintro a ⟨k, -, -, j, hj, rfl⟩
    show (2056 + j) / 1024 = 2
    omega
  refine ⟨fun k hk => ?_, fun k hk => ?_, fun k hk => ?_, fun k hk l hl _ x hx => ?_⟩
  all_goals obtain ⟨hge, hlt⟩ := hrange k hk
  all_goals obtain ⟨hsize, hdirect, hsingly, hdoubly⟩ := hzero k hlt hge
  · omega
  · have hok : FsOk ((ext2BlockAllocator 1 tableFs).withTables 8 smallPlace) (smallPlace k) 10
        tableFs k := by
      refine ⟨htable.inodeAt k (by omega) (by omega), ⟨hfs.room, htable⟩, hfs.boot, ?_, ?_, ?_,
        hfs.tableUsed, hfs.inodeUsed⟩
      · rintro a (ha | ha)
        · exact hfs.metaBoot a ha
        · have := htables a ha
          omega
      · rintro a (ha | ha)
        · exact hfs.metaUsed a ha
        · show ¬ FreeBlock tableFs (a / 1024)
          rw [htables a ha]
          exact tableFs_used (by norm_num)
      · rintro a (ha | ha)
        · exact hfs.metaInode a ha
        · show a / 1024 ≠ 5
          rw [htables a ha]
          norm_num
    exact hok.emptyFile hsize hdirect hsingly hdoubly
  · rw [hsize]
    exact Nat.zero_le _
  · exact absurd hx (InodePlace.not_owns hdirect hsingly hdoubly x)

/-- Handles 0 and 2 are of inode 3, handle 1 is of inode 4. -/
def handleInode (h : Fin 3) : Nat := if h = 1 then 4 else 3

def tableVolume : Volume (Fin 3) := ⟨tableFs, fun h => ⟨handleInode h, 0, 0⟩⟩

/-- `abc` to one file and `xy` to the other, read back through other handles,
and then the first one is emptied. -/
def volumeOps : List (FileOp (Fin 3)) :=
  [.write 0 (fun _ _ => 0xCC) (fun j => UInt8.ofNat (97 + j)) 3,
    .write 1 (fun _ _ => 0xCC) (fun j => UInt8.ofNat (120 + j)) 2,
    .read 2 (fun _ _ => 0xCC) (fun _ => 0) 5, .seek 1 0, .read 1 (fun _ _ => 0xCC) (fun _ => 0) 10,
    .truncate 2 (fun _ => 0xCC), .seek 0 1, .read 0 (fun _ _ => 0xCC) (fun _ => 0) 4]

theorem ext2_files_are_bytes_two :
    ∃ v', runAnswers (volumeStep allocBlock) tableVolume volumeOps = some (v',
      [(3, []), (2, []), (3, [97, 98, 99]), (0, []), (2, [120, 121]), (0, []), (1, []), (0, [])]) := by
  have hshows : VolumeShows (ext2BlockAllocator 1 tableFs) 8 smallPlace {3, 4} handleInode
      (2 + (volumeOps.map (volumeNeed smallPlace handleInode)).sum) tableVolume
      ⟨fun _ => [], fun _ => 0⟩ := by
    refine ⟨tableFs_volume, fun h => ⟨rfl, ?_⟩, fun _ => rfl, fun k hk => ?_⟩
    · rw [handleInode]
      split
      · exact .inr rfl
      · exact .inl rfl
    · have hsize : (smallPlace k).size tableFs.disk = 0 := by
        rcases hk with rfl | rfl <;> decide +kernel
      rw [InodePlace.bytes]
      show [] = (List.range ((smallPlace k).size tableFs.disk)).map _
      rw [hsize]
      rfl
  obtain ⟨v', hrun, -⟩ := ext2_files_are_bytes hshows (by decide)
  exact ⟨v', hrun⟩

end Levos.Fs
