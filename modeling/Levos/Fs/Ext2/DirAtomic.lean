import Levos.Fs.Ext2.Lookup
import Levos.Fs.Ext2.DirOverflow

/-!
# Failed creations (`fs/ext2/file.c`, `fs/ext2/dir.c`)

`ext2_mkdir` makes all its checks before it writes, and none of what it does
then can fail. `ext2_create_file` allocates the inode first, looks for the
directory afterwards, and does not look at the number of the inode.
-/

namespace Levos.Fs

open Levos.Base Levos.Kernel

/-! ## `ext2_mkdir` -/

section Mkdir

variable {alloc allocIno : Ext2Fs → Int × Ext2Fs} {heap : Nat → UInt8} {fs fs' : Ext2Fs} {r : Int}

theorem ext2PlaceDirent_ret {ino : Nat} {dirent : Nat → UInt8}
    (h : ext2PlaceDirent alloc heap fs ino dirent = some (r, fs')) : r = 0 := by
  obtain ⟨inode, -, h⟩ := Option.bind_eq_some_iff.mp h
  obtain ⟨fs₁, -, h⟩ := Option.bind_eq_some_iff.mp h
  obtain ⟨fs₂, -, h⟩ := Option.map_eq_some_iff.mp h
  exact (Prod.mk.inj h).1.symm

/-- The entries are placed one after the other. -/
theorem makeDirectory_some {path : List UInt8} {thisNo parentNo : Nat}
    (h : makeDirectory alloc heap fs path thisNo parentNo = some (r, fs')) :
    r = 0 ∧ ∃ fs₁ fs₂ fs₃ name,
      ext2PlaceDirent alloc heap (ext2WriteInode fs (newDirInode heap) thisNo) thisNo
          (ext2NewDirent thisNo [46]) = some (0, fs₁) ∧
        ext2PlaceDirent alloc heap fs₁ thisNo (ext2NewDirent parentNo [46, 46]) = some (0, fs₂) ∧
        pathGetName path = some name ∧
        ext2PlaceDirent alloc heap fs₂ parentNo (ext2NewDirent thisNo name) = some (0, fs₃) ∧
        fs' = countDirectory fs₃ thisNo := by
  rw [makeDirectory] at h
  obtain ⟨⟨r₁, fs₁⟩, h₁, h⟩ := Option.bind_eq_some_iff.mp h
  obtain rfl := ext2PlaceDirent_ret h₁
  rw [if_neg (not_not_intro rfl)] at h
  obtain ⟨⟨r₂, fs₂⟩, h₂, h⟩ := Option.bind_eq_some_iff.mp h
  obtain rfl := ext2PlaceDirent_ret h₂
  rw [if_neg (not_not_intro rfl)] at h
  obtain ⟨name, hname, h⟩ := Option.bind_eq_some_iff.mp h
  obtain ⟨⟨r₃, fs₃⟩, h₃, h⟩ := Option.bind_eq_some_iff.mp h
  obtain rfl := ext2PlaceDirent_ret h₃
  rw [if_neg (not_not_intro rfl)] at h
  obtain ⟨rfl, rfl⟩ := Prod.mk.inj (Option.some.inj h)
  exact ⟨rfl, fs₁, fs₂, fs₃, name, h₁, h₂, hname, h₃, rfl⟩

/-- An error of `ext2_mkdir` comes before anything is written. -/
theorem ext2Mkdir_error {path : List UInt8}
    (halloc : (allocIno fs).1 < 0 → (allocIno fs).2 = fs)
    (h : ext2Mkdir alloc allocIno heap fs path = some (r, fs')) (hr : r ≠ 0) : fs' = fs := by
  rw [ext2Mkdir] at h
  obtain ⟨parentNo, -, h⟩ := Option.bind_eq_some_iff.mp h
  split at h
  · exact (Prod.mk.inj (Option.some.inj h)).2.symm
  · obtain ⟨found, -, h⟩ := Option.bind_eq_some_iff.mp h
    split at h
    · exact (Prod.mk.inj (Option.some.inj h)).2.symm
    · dsimp only at h
      split at h
      next hneg =>
        have heq : allocIno fs = (r, fs') := Option.some.inj h
        rw [heq] at halloc hneg
        exact halloc hneg
      next => exact absurd (makeDirectory_some h).1 hr

end Mkdir

/-! ## The entry is found -/

section Found

variable {A : BlockAllocator} {I : InodeAllocator A} {count n : Nat} {place : Nat → InodePlace}
  {fs fs' : Ext2Fs} {P : InodePlace} {heap : Nat → UInt8} {ino x : Nat} {offs xs : List Nat}
  {f : List UInt8}

/-- The entries have names and inodes. -/
def LiveEntries (P : InodePlace) (d : Nat → UInt8) (x : Nat) (offs : List Nat) : Prop :=
  ∀ o ∈ offs, entNamelength (blockBytes P d x) o ≠ 0 ∧
    (entryAt (blockBytes P d x) o).inode ≠ 0 ∧ (entryAt (blockBytes P d x) o).inode < 2 ^ 31

/-- What a block of entries gives for a name. -/
theorem readDbps_tiled (h : InodeAt P fs ino) (hx : x * P.spb < 2 ^ 32)
    (htiles : Tiles (blockBytes P fs.disk x) 0 offs P.bs) (hlive : LiveEntries P fs.disk x offs) :
    readDbps heap fs f (x :: xs) =
      match offs.find? fun o => (entryAt (blockBytes P fs.disk x) o).name = f with
      | some o => ((entryAt (blockBytes P fs.disk x) o).inode : Int)
      | none => readDbps heap fs f xs := by
  have hbs := P.bs_ge
  have hbytes : ∀ j, 0 ≤ j → j < P.bs → readNewBlock heap fs x j = blockBytes P fs.disk x j :=
    fun j _ hj => readNewBlock_apply h hx hj
  obtain ⟨htiles', hsame⟩ := htiles.of_bytes hbytes
  have hnamed : ∀ o ∈ offs, entNamelength (readNewBlock heap fs x) o ≠ 0 := fun o ho => by
    rw [(hsame o ho).2.1]
    exact (hlive o ho).1
  have hfind : offs.find? (fun o => entName (readNewBlock heap fs x) o = f) =
      offs.find? fun o => (entryAt (blockBytes P fs.disk x) o).name = f :=
    List.find?_congr fun o ho => by rw [← (hsame o ho).1]; rfl
  -- the first entry has a size and a name
  have hfirst : ¬ (entSize (readNewBlock heap fs x) 0 = 0 ∨
      entNamelength (readNewBlock heap fs x) 0 = 0) := by
    cases offs with
    | nil => exact absurd (show 0 = P.bs from htiles) (by omega)
    | cons o offs =>
      obtain ⟨rfl, hmin, -⟩ := htiles'
      have hpos := direntMinLength_pos (readNewBlock heap fs x) 0
      have hlen := hnamed 0 List.mem_cons_self
      omega
  rw [readDbps]
  rw [if_neg hfirst, h.blocksize, scanBlock_eq htiles' hnamed (by omega), hfind]
  cases ho : offs.find? fun o => (entryAt (blockBytes P fs.disk x) o).name = f with
  | none => rfl
  | some o =>
    have hmem := List.mem_of_find?_eq_some ho
    obtain ⟨-, h0, hlt⟩ := hlive o hmem
    have hino : entInode (readNewBlock heap fs x) o = (entryAt (blockBytes P fs.disk x) o).inode :=
      congrArg DirEntry.inode (hsame o hmem).1
    rw [Option.map_some]
    dsimp only
    rw [hino, if_neg h0, i32, if_pos hlt]

/-- Placing an entry keeps the filesystem well formed. -/
theorem FsWf.placed {target last size : Nat} {dirent : Nat → UInt8}
    (h : FsWf A I count place n fs) (hino : 0 < ino ∧ ino ≤ count)
    (htarget : 0 < target ∧ target ≤ count) (hx : DataForAll A count place fs x) :
    FsWf A I count place n (setDisk fs (afterPlace place heap fs ino target x last size dirent)) := by
  have hcount : 0 < count := hino.1.trans_le hino.2
  obtain ⟨hplaced, -, -⟩ := h.write (fun l hl hle => (hx l hl hle).writable)
    (fun l hl hle => h.table.bs_eq hl hle hino.1 hino.2)
    (fun a ha => (setBlock_of_ne ha :
      placedDisk (place ino) heap fs x dirent last size a = fs.disk a)) hcount
  have hlinked := hplaced.write (fun l hl hle => hplaced.writable htarget.1 htarget.2 hl hle)
    (fun l hl hle => h.table.bs_eq hl hle htarget.1 htarget.2)
    (fun a ha => linkedDisk_same (Q := place target)
      (placedDisk (place ino) heap fs x dirent last size) ((place ino).sectors fs.disk) ha a rfl) hcount
  exact hlinked.1

section Placed

variable {target last : Nat} {init : List Nat} {name : List UInt8}

/-- The disk after an entry was placed that fits. -/
def withEntry (place : Nat → InodePlace) (heap : Nat → UInt8) (fs : Ext2Fs) (ino target x last : Nat)
    (name : List UInt8) : Ext2Fs :=
  setDisk fs (afterPlace place heap fs ino target x last
    ((place ino).bs - newOffset (blockBytes (place ino) fs.disk x) last) (ext2NewDirent target name))

/-- A directory with room for a name in its first block, whose entries there
have names and inodes. -/
structure RoomFor (P : InodePlace) (d : Nat → UInt8) (x : Nat) (init : List Nat) (last : Nat)
    (name : List UInt8) : Prop where
  first : FirstBlock P d x init last
  live : LiveEntries P d x (init ++ [last])
  named : name ≠ []
  short : name.length ≤ 255
  room : newOffset (blockBytes P d x) last + recLen name ≤ P.bs

theorem ext2PlaceDirent_room (alloc : Ext2Fs → Int × Ext2Fs) (heap : Nat → UInt8)
    (h : InodeTable count place fs) (hino : 0 < ino ∧ ino ≤ count)
    (htarget : 0 < target ∧ target ≤ count) (hx : TableFree count place x)
    (hr : RoomFor (place ino) fs.disk x init last name) :
    ext2PlaceDirent alloc heap fs ino (ext2NewDirent target name) =
      some (0, withEntry place heap fs ino target x last name) := by
  have hlt := h.count_lt
  obtain ⟨hrec, -⟩ := recLen_bounds hr.short
  have hinode : entInode (ext2NewDirent target name) 0 = target := newDirent_inode (by omega) name
  rw [ext2PlaceDirent_eq alloc heap h hino htarget hr.first hx hinode,
    newDirent_size hr.short, maximize_room hr.first (by omega) hr.room]
  rfl

/-- A directory without a block in common with this one. -/
theorem withEntry_other (h : FsWf A I count place n fs) (hino : 0 < ino ∧ ino ≤ count)
    (htarget : 0 < target ∧ target ≤ count) (hx : DataForAll A count place fs x) {k : Nat}
    (hk : InodeInUse A I count place fs k) (hown : ∀ i < 12, (place k).ptr fs.disk i ≠ x)
    (t : List UInt8) :
    ext2ReadDirectory heap (withEntry place heap fs ino target x last name) k t =
      ext2ReadDirectory heap fs k t := by
  obtain ⟨hpos, hle⟩ := hk.valid
  have hbs := h.table.bs_eq hpos hle hino.1 hino.2
  have hwf : FsWf A I count place n (withEntry place heap fs ino target x last name) :=
    h.placed hino htarget hx
  refine (h.ok k hpos hle).readDirectory_same (hwf.ok k hpos hle) (fun i hi => ?_)
    (fun i hi h0 => (hk.data i hi h0 k hpos hle).writable.lt) fun i hi h0 => ?_
  · exact afterPlace_ptr h.table hino htarget hx.tableFree hpos hle hi
  · rw [hbs]
    exact afterPlace_same h.table hino htarget (hk.data i hi h0).tableFree (hown i hi)

/-- The block pointers, the first one apart. -/
theorem dbps_cons (P : InodePlace) (d : Nat → UInt8) :
    (List.range 12).map (P.ptr d) = P.ptr d 0 :: (List.range 11).map fun i => P.ptr d (i + 1) := by
  rw [List.range_succ_eq_map, List.map_cons, List.map_map]
  rfl

/-- The first block with its new entry. -/
theorem withEntry_first (heap : Nat → UInt8) (h : InodeTable count place fs)
    (hino : 0 < ino ∧ ino ≤ count) (htarget : 0 < target ∧ target ≤ count)
    (hx : TableFree count place x) (hr : RoomFor (place ino) fs.disk x init last name) {new : Nat}
    (hat : new = newOffset (blockBytes (place ino) fs.disk x) last) :
    Tiles (blockBytes (place ino) (withEntry place heap fs ino target x last name).disk x) 0
        (init ++ [last] ++ [new]) (place ino).bs ∧
      LiveEntries (place ino) (withEntry place heap fs ino target x last name).disk x
        (init ++ [last] ++ [new]) ∧
      (∀ o ∈ init ++ [last],
        entryAt (blockBytes (place ino) (withEntry place heap fs ino target x last name).disk x) o =
          entryAt (blockBytes (place ino) fs.disk x) o) ∧
      entryAt (blockBytes (place ino) (withEntry place heap fs ino target x last name).disk x) new =
        ⟨target, name⟩ := by
  subst hat
  have hlt := h.count_lt
  have hmin : direntMinLength (ext2NewDirent target name) 0 = direntHeader + name.length :=
    newDirent_minLength hr.short
  have hrec : direntHeader + name.length + 1 ≤ recLen name := le_roundUp4 _
  have hroom := hr.room
  obtain ⟨htiles, hold, hnew, hlen⟩ := afterPlace_tiles heap h hino htarget hr.first hx
    (by omega : newOffset _ _ + direntMinLength (ext2NewDirent target name) 0 ≤ _) rfl
  rw [newDirent_entry (by omega) hr.short] at hnew
  refine ⟨htiles, fun o ho => ?_, fun o ho => (hold o ho).1, hnew⟩
  rcases List.mem_append.mp ho with ho | ho
  · obtain ⟨hnamed, h0, hlt⟩ := hr.live o ho
    obtain ⟨hentry, hnamelength⟩ := hold o ho
    exact ⟨hnamelength ▸ hnamed, hentry ▸ h0, hentry ▸ hlt⟩
  · obtain rfl := List.mem_singleton.mp ho
    refine ⟨fun hzero => ?_, ?_, ?_⟩
    · have hpos := List.length_pos_of_ne_nil hr.named
      rw [direntMinLength] at hmin
      change entNamelength (blockBytes (place ino) (afterPlace _ _ _ _ _ _ _ _ _) x) _ = 0 at hzero
      omega
    · show (entryAt (blockBytes _ (afterPlace _ _ _ _ _ _ _ _ _) x) _).inode ≠ 0
      rw [hnew]
      exact htarget.1.ne'
    · show (entryAt (blockBytes _ (afterPlace _ _ _ _ _ _ _ _ _) x) _).inode < _
      rw [hnew]
      exact htarget.2.trans_lt hlt

/-- The search through the blocks after the first one does not meet the new
entry. -/
theorem readDbps_withEntry (heap : Nat → UInt8) (h : FsWf A I count place n fs)
    (hwf : FsWf A I count place n (withEntry place heap fs ino target x last name))
    (hino : InodeInUse A I count place fs ino) (htarget : 0 < target ∧ target ≤ count)
    (hown : ∀ i < 12, 0 < i → (place ino).ptr fs.disk i ≠ x) (t : List UInt8) :
    readDbps heap (withEntry place heap fs ino target x last name) t
        ((List.range 11).map fun i => (place ino).ptr fs.disk (i + 1)) =
      readDbps heap fs t ((List.range 11).map fun i => (place ino).ptr fs.disk (i + 1)) := by
  obtain ⟨hpos, hle⟩ := hino.valid
  have hbefore := h.table.inodeAt ino hpos hle
  have hafter := hwf.table.inodeAt ino hpos hle
  refine readDbps_congr (hafter.blocksize.trans hbefore.blocksize.symm) fun y hy => ?_
  obtain ⟨i, hi, rfl⟩ := List.mem_map.mp hy
  rw [List.mem_range] at hi
  by_cases h0 : (place ino).ptr fs.disk (i + 1) = 0
  · rw [h0]
    exact .inr ⟨(h.ok ino hpos hle).no_entry heap, (hwf.ok ino hpos hle).no_entry heap⟩
  · have hdata := hino.data (i + 1) (by omega) h0
    refine .inl (readNewBlock_congr hbefore hafter (hdata ino hpos hle).writable.lt ?_)
    exact afterPlace_same h.table hino.valid htarget hdata.tableFree
      (hown (i + 1) (by omega) (Nat.succ_pos i))

/-- The directory itself: other names are found where they were, and the new
one if it was not there. -/
theorem withEntry_self (heap : Nat → UInt8) (h : FsWf A I count place n fs)
    (hino : InodeInUse A I count place fs ino) (htarget : 0 < target ∧ target ≤ count)
    (hr : RoomFor (place ino) fs.disk x init last name)
    (hown : ∀ i < 12, 0 < i → (place ino).ptr fs.disk i ≠ x) (t : List UInt8) :
    (t ≠ name → ext2ReadDirectory heap (withEntry place heap fs ino target x last name) ino t =
      ext2ReadDirectory heap fs ino t) ∧
    ((∃ r, ext2ReadDirectory heap fs ino name = some r ∧ r < 0) →
      ext2ReadDirectory heap (withEntry place heap fs ino target x last name) ino name =
        some (target : Int)) := by
  obtain ⟨hpos, hle⟩ := hino.valid
  have hx0 : (place ino).ptr fs.disk 0 = x := hr.first.ptr
  have hx : DataForAll A count place fs x :=
    hx0 ▸ hino.data 0 (by norm_num) (hx0 ▸ hr.first.ne_zero)
  have hwf : FsWf A I count place n (withEntry place heap fs ino target x last name) :=
    h.placed hino.valid htarget hx
  obtain ⟨new, hat⟩ : ∃ new, new = newOffset (blockBytes (place ino) fs.disk x) last := ⟨_, rfl⟩
  obtain ⟨htiles, hlive, hold, hnew⟩ :=
    withEntry_first heap h.table hino.valid htarget hx.tableFree hr hat
  have hptr : ∀ i < 12, (place ino).ptr (withEntry place heap fs ino target x last name).disk i =
      (place ino).ptr fs.disk i := fun i hi =>
    afterPlace_ptr h.table hino.valid htarget hx.tableFree hpos hle hi
  have hrest := readDbps_withEntry heap h hwf hino htarget hown
  generalize withEntry place heap fs ino target x last name = fs' at *
  have hptrs : (List.range 11).map (fun i => (place ino).ptr fs'.disk (i + 1)) =
      (List.range 11).map fun i => (place ino).ptr fs.disk (i + 1) :=
    List.map_congr_left fun i hi => hptr (i + 1) (by rw [List.mem_range] at hi; omega)
  -- the search in the first block, before and after
  have hbefore : ∀ t, ext2ReadDirectory heap fs ino t = some
      (match (init ++ [last]).find? fun o => (entryAt (blockBytes (place ino) fs.disk x) o).name = t with
        | some o => ((entryAt (blockBytes (place ino) fs.disk x) o).inode : Int)
        | none => readDbps heap fs t
            ((List.range 11).map fun i => (place ino).ptr fs.disk (i + 1))) := fun t => by
    rw [ext2ReadDirectory_eq (h.table.inodeAt ino hpos hle), dbps_cons, hx0,
      readDbps_tiled (h.table.inodeAt ino hpos hle) hr.first.lt hr.first.all hr.live]
  have hafter : ∀ t, ext2ReadDirectory heap fs' ino t = some
      (match (init ++ [last] ++ [new]).find? fun o =>
          (entryAt (blockBytes (place ino) fs'.disk x) o).name = t with
        | some o => ((entryAt (blockBytes (place ino) fs'.disk x) o).inode : Int)
        | none => readDbps heap fs t
            ((List.range 11).map fun i => (place ino).ptr fs.disk (i + 1))) := fun t => by
    rw [ext2ReadDirectory_eq (hwf.table.inodeAt ino hpos hle), dbps_cons, hptr 0 (by norm_num), hx0,
      readDbps_tiled (hwf.table.inodeAt ino hpos hle) hr.first.lt htiles hlive, hptrs, hrest]
  have hfind : ∀ t, (init ++ [last]).find? (fun o =>
        (entryAt (blockBytes (place ino) fs'.disk x) o).name = t) =
      (init ++ [last]).find? fun o => (entryAt (blockBytes (place ino) fs.disk x) o).name = t :=
    fun t => List.find?_congr fun o ho => by rw [hold o ho]
  constructor
  · intro hne
    rw [hbefore, hafter, List.find?_append, hfind]
    cases ho : (init ++ [last]).find? fun o =>
        (entryAt (blockBytes (place ino) fs.disk x) o).name = t with
    | some o =>
      rw [Option.some_or]
      dsimp only
      rw [hold o (List.mem_of_find?_eq_some ho)]
    | none =>
      rw [Option.none_or, List.find?_cons_of_neg (by rw [hnew]; simpa using hne.symm), List.find?_nil]
  · rintro ⟨r, hr', hneg⟩
    rw [hbefore] at hr'
    rw [hafter, List.find?_append, hfind]
    cases ho : (init ++ [last]).find? fun o =>
        (entryAt (blockBytes (place ino) fs.disk x) o).name = name with
    | some o =>
      rw [ho] at hr'
      obtain rfl := Option.some.inj hr'
      exact absurd hneg (not_lt.mpr (Int.natCast_nonneg _))
    | none =>
      rw [Option.none_or, List.find?_cons_of_pos (by rw [hnew]; simp)]
      dsimp only
      rw [hnew]

/-- Only the block and its number count. -/
theorem RoomFor.same {d d' : Nat → UInt8} (hr : RoomFor P d x init last name)
    (hptr : P.ptr d' 0 = P.ptr d 0) (hsame : SameBlock P.bs d d' x) :
    RoomFor P d' x init last name := by
  obtain ⟨-, hentries⟩ := hr.first.all.of_bytes fun j _ hj => hsame.byte hj
  obtain ⟨-, hlen, -⟩ := hentries last (by simp)
  have hnew : newOffset (blockBytes P d' x) last = newOffset (blockBytes P d x) last := by
    show newOffset (fun j => d' (P.bs * x + j)) last = _
    rw [newOffset, newOffset, direntMinLength, direntMinLength, hlen]
  refine ⟨hr.first.same hptr hsame, fun o ho => ?_, hr.named, hr.short, hnew ▸ hr.room⟩
  obtain ⟨hnamed, h0, hlt⟩ := hr.live o ho
  obtain ⟨hentry, hnamelength, -⟩ := hentries o ho
  refine ⟨?_, ?_, ?_⟩
  · exact hnamelength ▸ hnamed
  · exact hentry ▸ h0
  · exact hentry ▸ hlt

end Placed

end Found

/-! ## `ext2_create_file` -/

section Create

variable {A : BlockAllocator} {I : InodeAllocator A} {count n : Nat} {place : Nat → InodePlace}
  {fs fs' : Ext2Fs} {heap : Nat → UInt8} {dirs : Nat → Prop} {path name : List UInt8} {base : Int}

/-- The directories in use on the way; no two of their blocks are the same. -/
structure DirsOk (A : BlockAllocator) (I : InodeAllocator A) (count : Nat) (place : Nat → InodePlace)
    (dirs : Nat → Prop) (fs : Ext2Fs) : Prop where
  inUse : ∀ k, dirs k → InodeInUse A I count place fs k
  own : ∀ k l, dirs k → dirs l → ∀ i < 12, ∀ j < 12, (place k).ptr fs.disk i ≠ 0 →
    (place k).ptr fs.disk i = (place l).ptr fs.disk j → k = l ∧ i = j

/-- A path to a name that is not there yet: the directory it is in is looked
for in directories, with the result `base`, and has room if it exists. -/
structure NewPath (place : Nat → InodePlace) (dirs : Nat → Prop) (heap : Nat → UInt8) (fs : Ext2Fs)
    (path name : List UInt8) (base : Int) : Prop where
  parent : ext2FindFileInode heap fs (pathGetPath path) = some base
  through : PathThrough dirs heap fs (pathTokens (pathGetPath path)) 2
  named : pathGetName path = some name
  dir : 0 ≤ base → dirs base.toNat
  absent : 0 ≤ base → ∃ r, ext2ReadDirectory heap fs base.toNat name = some r ∧ r < 0
  room : 0 ≤ base → ∃ x init last, RoomFor (place base.toNat) fs.disk x init last name

theorem PathThrough.congr {ts : List (List UInt8)} {ino : Nat}
    (h : ∀ k, dirs k → ∀ t, ext2ReadDirectory heap fs' k t = ext2ReadDirectory heap fs k t)
    (hp : PathThrough dirs heap fs ts ino) : PathThrough dirs heap fs' ts ino := by
  induction ts generalizing ino with
  | nil => trivial
  | cons t ts ih =>
    obtain ⟨hdir, hrest⟩ := hp
    refine ⟨hdir, fun r hr hpos => ih (hrest r ?_ hpos)⟩
    rw [← h ino hdir]
    exact hr

/-- A new inode disturbs neither the directories nor the path. -/
theorem NewPath.made {rec : Nat → UInt8} {k m : Nat} (hp : NewPath place dirs heap fs path name base)
    (h : FsWf A I count place n fs) (h' : FsWf A I count place m fs')
    (hd : DirsOk A I count place dirs fs) (hm : InodeMade A I place rec k fs fs') :
    DirsOk A I count place dirs fs' ∧ NewPath place dirs heap fs' path name base := by
  have hlook : ∀ l, dirs l → ∀ t, ext2ReadDirectory heap fs' l t = ext2ReadDirectory heap fs l t :=
    fun l hl t => hm.readDirectory h h' (hd.inUse l hl) t
  have hptr : ∀ l, dirs l → ∀ i < 12, (place l).ptr fs'.disk i = (place l).ptr fs.disk i :=
    fun l hl i hi => hm.ptr_same h (hd.inUse l hl).valid (hm.ne (hd.inUse l hl).taken) hi
  refine ⟨⟨fun l hl => (hd.inUse l hl).made h hm, fun l q hl hq i hi j hj h0 heq => ?_⟩, ?_,
    hp.through.congr hlook, hp.named, hp.dir, fun hpos => ?_, fun hpos => ?_⟩
  · rw [hptr l hl i hi] at h0 heq
    rw [hptr q hq j hj] at heq
    exact hd.own l q hl hq i hi j hj h0 heq
  · rw [ext2FindFileInode, findTokens_same hlook hp.through]
    exact hp.parent
  · rw [hlook _ (hp.dir hpos)]
    exact hp.absent hpos
  · obtain ⟨x, init, last, hr⟩ := hp.room hpos
    have hdir := hp.dir hpos
    have hx0 : (place base.toNat).ptr fs.disk 0 = x := hr.first.ptr
    refine ⟨x, init, last, hr.same (hptr _ hdir 0 (by norm_num)) ?_⟩
    exact hm.data_same h (hd.inUse _ hdir).valid
      (hx0 ▸ (hd.inUse _ hdir).data 0 (by norm_num) (hx0 ▸ hr.first.ne_zero))

/-- After the entry is placed the path leads to its inode. -/
theorem NewPath.resolves {target x last : Nat} {init : List Nat}
    (hp : NewPath place dirs heap fs path name base) (h : FsWf A I count place n fs)
    (hd : DirsOk A I count place dirs fs) (hpos : 0 ≤ base) (htarget : 0 < target ∧ target ≤ count)
    (hr : RoomFor (place base.toNat) fs.disk x init last name) :
    ext2FindFileInode heap (withEntry place heap fs base.toNat target x last name) path =
      some (target : Int) := by
  have hdir := hd.inUse _ (hp.dir hpos)
  have hx0 : (place base.toNat).ptr fs.disk 0 = x := hr.first.ptr
  have hx : DataForAll A count place fs x :=
    hx0 ▸ hdir.data 0 (by norm_num) (hx0 ▸ hr.first.ne_zero)
  have hown : ∀ l, dirs l → ∀ i < 12, (place l).ptr fs.disk i = x → l = base.toNat ∧ i = 0 :=
    fun l hl i hi heq =>
      hd.own l _ hl (hp.dir hpos) i hi 0 (by norm_num) (heq ▸ hr.first.ne_zero) (heq.trans hx0.symm)
  have hself := withEntry_self heap h hdir htarget hr fun i hi h0 heq => by
    have hzero := (hown _ (hp.dir hpos) i hi heq).2
    omega
  have hkept : ∀ l, dirs l → ∀ t r, ext2ReadDirectory heap fs l t = some r → 0 ≤ r →
      ext2ReadDirectory heap (withEntry place heap fs base.toNat target x last name) l t = some r := by
    intro l hl t r hlook hr0
    by_cases hl' : l = base.toNat
    · subst hl'
      rw [(hself t).1, hlook]
      rintro rfl
      obtain ⟨q, hq, hneg⟩ := hp.absent hpos
      obtain rfl : q = r := Option.some.inj (hq.symm.trans hlook)
      omega
    · rw [withEntry_other h hdir.valid htarget hx (hd.inUse l hl)
        fun i hi heq => hl' (hown l hl i hi heq).1, hlook]
  rw [ext2FindFileInode, pathTokens_split hp.named hr.named,
    findTokens_append (findTokens_kept hkept hp.through hp.parent hpos) hpos, findTokens,
    (hself name).2 (hp.absent hpos), Option.bind_some, if_neg (by omega), findTokens]
  rfl

/-- The group descriptor of the inode number that stands for `-ENOSPC` is not
in the block of the descriptors. -/
theorem no_descriptor {fs : Ext2Fs} (hper : le32 fs.sb sbInodesInBlockgroup ≤ 8 * fs.blocksize)
    (hpos : 0 < le32 fs.sb sbInodesInBlockgroup) (hbs : fs.blocksize ≤ 65536) :
    ¬ HasDescriptor fs (inoOf (-enospc)) := by
  rintro ⟨-, hfit⟩
  have hnum : inoOf (-enospc) = 4294967268 := by decide
  rw [hnum] at hfit
  have hlarge : 8191 ≤ (4294967268 - 1) / (8 * 65536) := by norm_num
  have hdiv : (4294967268 - 1) / (8 * 65536) ≤ (4294967268 - 1) / le32 fs.sb sbInodesInBlockgroup :=
    Nat.div_le_div_left (by omega) hpos
  have hgroups := hlarge.trans hdiv
  omega

theorem ext2PlaceDirent_no_inode (alloc : Ext2Fs → Int × Ext2Fs) {ino x last : Nat} {init : List Nat}
    (h : FsWf A I count place n fs) (hino : 0 < ino ∧ ino ≤ count)
    (hb : FirstBlock (place ino) fs.disk x init last)
    (hper : le32 fs.sb sbInodesInBlockgroup ≤ 8 * fs.blocksize) (hbs : fs.blocksize ≤ 65536) :
    ext2PlaceDirent alloc heap fs ino (ext2NewDirent (inoOf (-enospc)) name) = none := by
  have hinode : entInode (ext2NewDirent (inoOf (-enospc)) name) 0 = inoOf (-enospc) :=
    newDirent_inode (by decide) name
  have hat := h.table.inodeAt ino hino.1 hino.2
  rw [ext2PlaceDirent_first hat hb, hinode]
  cases maximizeDirent (newOffset (blockBytes (place ino) fs.disk x) last) (place ino).bs 65536
      (entSize (ext2NewDirent (inoOf (-enospc)) name) 0) with
  | none => rfl
  | some size =>
    rw [Option.bind_some, linkInode, readNewInode, if_neg]
    · rfl
    · apply no_descriptor
      · exact hper
      · exact hat.perGroup
      · exact hbs

theorem ext2Open_found {P : InodePlace} {k : Nat}
    (hfind : ext2FindFileInode heap fs path = some (k : Int)) (hat : InodeAt P fs k)
    (hk : inoOf (k : Int) = k) : ∃ f, ext2Open heap fs path = some (.ok f) := by
  rw [ext2Open, hfind, Option.bind_some, if_neg (by rw [enoent]; omega), hk, readNewInode,
    if_pos hat.hasDescriptor]
  exact ⟨_, rfl⟩

/-- A call that returns either succeeds or leaves the disk as it was. -/
def AtomicCreate (fs : Ext2Fs) (run : Option (Except Int Ext2File × Ext2Fs)) : Prop :=
  ∃ f fs', run = some (f, fs') ∧ ((∃ e, f = .error e) → fs'.disk = fs.disk)

/-- **Errors.** When `ext2_mkdir` returns an error, nothing has changed. For
`ext2_create_file` and a new name in a directory with room this holds exactly
when an inode is free and the directory exists, or neither: without the
directory the inode stays allocated, and without an inode the call goes on with
-ENOSPC for its number. -/
theorem create_mkdir_atomic (hroom : A.room n fs) :
    (∀ path r fs', ext2Mkdir A.alloc I.alloc heap fs path = some (r, fs') → r ≠ 0 →
      fs'.disk = fs.disk) ∧
    (FsWf A I count place n fs → DirsOk A I count place dirs fs →
      le32 fs.sb sbInodesInBlockgroup ≤ 8 * fs.blocksize → fs.blocksize ≤ 65536 → 0 < count →
      ∀ path name base, NewPath place dirs heap fs path name base →
        (AtomicCreate fs (ext2CreateFile A.alloc I.alloc heap fs path) ↔
          ((∃ k, I.free fs k) ↔ 0 ≤ base))) := by
  constructor
  · intro path r fs' hrun hr
    rw [ext2Mkdir_error (fun hneg => ?_) hrun hr]
    rcases I.alloc_fresh hroom with ⟨-, hsame, -⟩ | ⟨k, hret, -⟩
    · exact hsame
    · exact absurd hneg (by omega)
  · intro h hd hper hbs hcount path name base hp
    rcases makeInode_spec h hcount newFileInode with ⟨hneg, hsame, hfull⟩ |
      ⟨k, hret, hino, hk, hk', hwf, hm⟩
    · have hnew : ext2NewInode I.alloc fs = (-enospc, fs) := by
        rw [ext2NewInode, if_pos hneg, hsame]
      have hnone : ¬ ∃ k, I.free fs k := fun ⟨k, hk⟩ => hfull k hk
      by_cases hpos : 0 ≤ base
      · -- the entry is placed for an inode that there is not
        obtain ⟨x, init, last, hr⟩ := hp.room hpos
        refine iff_of_false ?_ fun hiff => hnone (hiff.mpr hpos)
        rintro ⟨f, fs', hrun, -⟩
        rw [ext2CreateFile, hnew] at hrun
        dsimp only at hrun
        rw [hp.parent, Option.bind_some, if_neg (by omega), hp.named, Option.bind_some,
          ext2PlaceDirent_no_inode _ h (hd.inUse _ (hp.dir hpos)).valid hr.first hper hbs] at hrun
        cases hrun
      · refine iff_of_true ⟨.error base, fs, ?_, fun _ => rfl⟩
          (iff_of_false hnone hpos)
        rw [ext2CreateFile, hnew]
        dsimp only
        rw [hp.parent, Option.bind_some, if_pos (by omega)]
    · have hnew : ext2NewInode I.alloc fs = ((k : Int), ext2WriteInode (I.alloc fs).2 newFileInode k) := by
        rw [ext2NewInode, if_neg (by omega), hino, hret]
      generalize ext2WriteInode (I.alloc fs).2 newFileInode k = fs₁ at hwf hm hnew
      obtain ⟨hd₁, hp₁⟩ := hp.made h hwf hd hm
      have hsome : ∃ k, I.free fs k := ⟨k, hm.was⟩
      by_cases hpos : 0 ≤ base
      · refine iff_of_true ?_ (iff_of_true hsome hpos)
        obtain ⟨x, init, last, hr⟩ := hp₁.room hpos
        have hdir := hd₁.inUse _ (hp.dir hpos)
        have hx0 : (place base.toNat).ptr fs₁.disk 0 = x := hr.first.ptr
        have hx : DataForAll A count place fs₁ x :=
          hx0 ▸ hdir.data 0 (by norm_num) (hx0 ▸ hr.first.ne_zero)
        have hafter : FsWf A I count place n (withEntry place heap fs₁ base.toNat k x last name) :=
          hwf.placed hdir.valid ⟨hk, hk'⟩ hx
        have hkno : inoOf (k : Int) = k := by rw [← hret]; exact hino
        obtain ⟨f, hopen⟩ := ext2Open_found (hp₁.resolves hwf hd₁ hpos ⟨hk, hk'⟩ hr)
          (hafter.table.inodeAt k hk hk') hkno
        refine ⟨.ok f, withEntry place heap fs₁ base.toNat k x last name, ?_, ?_⟩
        · rw [ext2CreateFile, hnew]
          dsimp only
          rw [hp₁.parent, Option.bind_some, if_neg (by omega), hp.named, Option.bind_some, hkno,
            ext2PlaceDirent_room _ _ hwf.table hdir.valid ⟨hk, hk'⟩ hx.tableFree hr, Option.bind_some, hopen]
          rfl
        · rintro ⟨e, he⟩
          cases he
      · -- the inode is allocated, and the directory is not found
        refine iff_of_false ?_ fun hiff => hpos (hiff.mp hsome)
        rintro ⟨f, fs', hrun, hsame⟩
        rw [ext2CreateFile, hnew] at hrun
        dsimp only at hrun
        rw [hp₁.parent, Option.bind_some, if_pos (by omega)] at hrun
        obtain ⟨rfl, rfl⟩ := Prod.mk.inj (Option.some.inj hrun)
        exact hm.changed (hsame ⟨base, rfl⟩)

end Create

/-! ## A small filesystem -/

/-- Whatever is in the inodes and in the blocks after them. -/
theorem smallPlace_wf {d : Nat → UInt8} (hd : ∀ a < 5120, d a = tableFs.disk a) :
    FsWf (ext2BlockAllocator 1 tableFs) (ext2InodeAllocator 1 tableFs) 8 smallPlace 10
      (setDisk tableFs d) := by
  have hmeta : ∀ a ∈ allocMetadata 1 tableFs, d a = tableFs.disk a := fun a ha => by
    have hblock := tableFs_metadata ha
    exact hd a (by omega)
  obtain ⟨hroom, hused⟩ := (ext2BlockAllocator 1 tableFs).frame tableFs_fsOk.room hmeta
  obtain ⟨-, -, ⟨hgroups, hper, -⟩, -⟩ := tableFs_values
  have hlow : ∀ x < 6, (ext2BlockAllocator 1 tableFs).used (setDisk tableFs d) x := fun x hx =>
    hused x (tableFs_used hx)
  refine ⟨smallPlace_table hd, fun k hk hle => ?_, fun k l _ _ _ _ j hj => ?_, fun k hk => ?_⟩
  · refine ⟨(smallPlace_table hd).inodeAt k hk hle, hroom, fun a ha => ?_, fun a ha => ?_,
      fun a ha => ?_, fun a ha => ?_, fun j hj => ?_, hlow 5 (by norm_num)⟩
    · exact (hd a (by omega)).trans (tableFs_fsOk.boot a ha)
    · have hblock := tableFs_metadata ha
      omega
    · exact hlow _ ((tableFs_metadata ha).2.trans (by norm_num))
    · exact (tableFs_metadata ha).2.ne
    · apply hlow
      show (2056 + j) / 1024 < 6
      omega
  · show (2056 + j) / 1024 ≠ 5
    omega
  · obtain ⟨g, bit, hg, hbit, rfl, -⟩ :=
      ((ext2InodeAllocator 1 tableFs).frame tableFs_fsOk.room hmeta k).mp hk
    rw [hgroups] at hg
    rw [hper] at hbit ⊢
    omega

/-- A data block that is taken. -/
theorem smallPlace_data {d : Nat → UInt8} (hd : ∀ a < 5120, d a = tableFs.disk a) :
    DataForAll (ext2BlockAllocator 1 tableFs) 8 smallPlace (setDisk tableFs d) 10 := by
  have hmeta : ∀ a ∈ allocMetadata 1 tableFs, d a = tableFs.disk a := fun a ha => by
    have hblock := tableFs_metadata ha
    exact hd a (by omega)
  have hten : ¬ FreeBlock tableFs 10 := by
    rintro ⟨g, bit, hg, hbit, heq, hclear⟩
    obtain ⟨-, -, ⟨hgroups, -⟩, hset, -⟩ := tableFs_values
    obtain rfl : g = 0 := by omega
    obtain rfl : bit = 9 := by omega
    rw [hset 9 (.inr rfl)] at hclear
    cases hclear
  intro k hk hle
  refine ⟨⟨by norm_num, (smallPlace_free (by norm_num)).lt k hk hle, fun a ha => ?_,
    (smallPlace_free (by norm_num)).notTable k hk hle⟩,
    (smallPlace_free (by norm_num)).notInode k hk hle,
    ((ext2BlockAllocator 1 tableFs).frame tableFs_fsOk.room hmeta).2 10 hten⟩
  have hblock := (tableFs_metadata ha).2
  show a / 1024 ≠ 10
  omega

/-- A root directory with the entries "." and "..". -/
def smallRoot : Ext2Fs := rootFs 12

theorem smallRoot_outside : ∀ a < 5120, rootDisk 12 a = tableFs.disk a := fun _ ha =>
  rootDisk_outside 12 (by omega)

theorem smallRoot_wf : FsWf (ext2BlockAllocator 1 tableFs) (ext2InodeAllocator 1 tableFs) 8 smallPlace
    10 smallRoot := smallPlace_wf smallRoot_outside

/-- What this directory has on its disk. -/
theorem smallRoot_values :
    (smallPlace 2).ptr smallRoot.disk 0 = 10 ∧
      (∀ i < 12, 0 < i → (smallPlace 2).ptr smallRoot.disk i = 0) ∧
      groupBit smallRoot .inode 0 1 = true ∧ RoomFor (smallPlace 2) smallRoot.disk 10 [0] 12 [97] := by
  refine ⟨by decide +kernel, by decide +kernel, by decide +kernel, ?_⟩
  refine ⟨⟨by decide +kernel, by norm_num, by decide, by decide +kernel, by decide +kernel,
    by decide +kernel⟩, ?_, by decide, by decide, by decide +kernel⟩
  have hlive : ∀ o ∈ [0, 12], entNamelength (blockBytes (smallPlace 2) smallRoot.disk 10) o ≠ 0 ∧
      (entryAt (blockBytes (smallPlace 2) smallRoot.disk 10) o).inode ≠ 0 ∧
      (entryAt (blockBytes (smallPlace 2) smallRoot.disk 10) o).inode < 2 ^ 31 := by decide +kernel
  exact hlive

theorem smallRoot_dirs : DirsOk (ext2BlockAllocator 1 tableFs) (ext2InodeAllocator 1 tableFs) 8
    smallPlace (fun k => k = 2) smallRoot := by
  obtain ⟨hten, hptrs, hset, -⟩ := smallRoot_values
  obtain ⟨-, -, ⟨hgroups, -⟩, -⟩ := tableFs_values
  have hfirst : ∀ i < 12, (smallPlace 2).ptr smallRoot.disk i ≠ 0 → i = 0 := fun i hi hmapped => by
    by_contra hne
    exact hmapped (hptrs i hi (Nat.pos_of_ne_zero hne))
  constructor
  · rintro k rfl
    refine ⟨by norm_num, ?_, fun i hi h0 => ?_⟩
    · rintro ⟨g, bit, hg, hbit, heq, hclear⟩
      have hone : smallRoot.numberOfBgs = 1 := hgroups
      obtain rfl : g = 0 := by omega
      obtain rfl : bit = 1 := by omega
      rw [hset] at hclear
      cases hclear
    · rw [hfirst i hi h0, hten]
      exact smallPlace_data smallRoot_outside
  · rintro k l rfl rfl i hi j hj h0 heq
    exact ⟨rfl, (hfirst i hi h0).trans (hfirst j hj (heq ▸ h0)).symm⟩

theorem smallRoot_room : RoomFor (smallPlace 2) smallRoot.disk 10 [0] 12 [97] := by
  obtain ⟨-, -, -, hroom⟩ := smallRoot_values
  exact hroom

/-- The path "/a". -/
theorem smallRoot_path : NewPath smallPlace (fun k => k = 2) (fun _ => 0xCC) smallRoot [47, 97] [97] 2 :=
  ⟨by decide +kernel, trivial, by decide, fun _ => rfl, fun _ => ⟨-2, by decide +kernel, by norm_num⟩,
    fun _ => ⟨10, [0], 12, smallRoot_room⟩⟩

/-- A file "/a" is created; and a directory that exists is not. -/
theorem create_mkdir_atomic_root :
    AtomicCreate smallRoot (ext2CreateFile allocBlock allocInode (fun _ => 0xCC) smallRoot [47, 97]) ∧
      ∀ r fs', ext2Mkdir allocBlock allocInode (fun _ => 0xCC) smallRoot [47] = some (r, fs') →
        r ≠ 0 → fs'.disk = smallRoot.disk := by
  have hatomic := @create_mkdir_atomic _ (ext2InodeAllocator 1 tableFs) 8 10 smallPlace smallRoot
    (fun _ => 0xCC) (fun k => k = 2) (smallRoot_wf.ok 1 (by norm_num) (by norm_num)).room
  refine ⟨(hatomic.2 smallRoot_wf smallRoot_dirs (by decide +kernel) (by decide +kernel) (by norm_num)
    [47, 97] [97] 2 smallRoot_path).mpr (iff_of_true ?_ (by norm_num)), hatomic.1 [47]⟩
  refine ⟨3, 0, 2, ?_, ?_, ?_, ?_⟩ <;> decide +kernel

/-- The path "/x/y" without a directory "x": the error is -ENOENT, and the bit
of inode 3 is set. -/
theorem ext2_create_file_leaks :
    ∃ fs', ext2CreateFile allocBlock allocInode (fun _ => 0xCC) smallRoot [47, 120, 47, 121] =
        some (.error (-enoent), fs') ∧ smallRoot.disk 4096 = 3 ∧ fs'.disk 4096 = 7 := by
  have heval : (ext2CreateFile allocBlock allocInode (fun _ => 0xCC) smallRoot
      [47, 120, 47, 121]).map (fun r =>
        (match r.1 with | .error e => some e | .ok _ => none, r.2.disk 4096)) =
      some (some (-2), 7) := by decide +kernel
  obtain ⟨⟨f, fs'⟩, hrun, hres⟩ := Option.map_eq_some_iff.mp heval
  obtain ⟨hf, hbyte⟩ := Prod.mk.inj hres
  refine ⟨fs', ?_, by decide +kernel, hbyte⟩
  cases f with
  | error e =>
    obtain rfl : e = -2 := Option.some.inj hf
    exact hrun
  | ok f => cases hf

end Levos.Fs
