import Levos.Fs.Ext2.DirAtomic

/-!
# Listing a directory (`fs/ext2/dir.c`, `fs/ext2/file.c`)

`dirent_get` looks for the entry of an index from the start of the directory.
On its way it counts the live entries it steps onto, but the first entry of a
block is not stepped onto. What the calls return is therefore the first live
entry, whichever it is, and then the live entries that are not the first of
their blocks (`direntGet_eq`).
-/

namespace Levos.Fs

open Levos.Base Levos.Kernel

variable (heap : Nat → UInt8)

/-! ## The functions of the source -/

/-- The copy `dirent_get` returns, and where its entry lies: the index of the
block pointer and the offset. -/
structure FoundDirent where
  place : Nat × Nat
  inode : Nat
  size : Nat
  name : List UInt8
deriving DecidableEq, Repr

def direntAt (i : Nat) (b : Nat → UInt8) (o : Nat) : FoundDirent :=
  { place := (i, o), inode := entInode b o, size := entSize b o, name := entName b o }

/-- What the loop of `dirent_get` over the entries of a block ends with: the
entry, the index for the next block, or a panic. -/
inductive DirentScan : Type where
  | found (o : Nat)
  | next (i : Nat)
  | panic
deriving DecidableEq, Repr

/-- The loop at `next:`, at the entry `curr` and with the index `i`. -/
def direntScan (b : Nat → UInt8) (bs n : Nat) : Nat → Nat → Nat → DirentScan
  | 0, _, i => .next i
  | fuel + 1, curr, i =>
      if i = n then
        if entInode b curr = 0 then
          if entSize b curr = 0 then .next i
          else if curr + entSize b curr ≥ bs then .next i
          else direntScan b bs n fuel (curr + entSize b curr) i
        else .found curr
      else if entSize b curr = 0 then .panic
      else if curr + entSize b curr ≥ bs then .next i
      else
        direntScan b bs n fuel (curr + entSize b curr)
          (if entInode b (curr + entSize b curr) ≠ 0 then i + 1 else i)

/-- The loop of `dirent_get` over block pointers, which panics after the last
one. -/
def direntLoop (fs : Ext2Fs) (n : Nat) : List Nat → Nat → Nat → Option (Option FoundDirent)
  | [], _, _ => none
  | x :: xs, b, i =>
      if x = 0 then some none
      else
        match direntScan (readNewBlock heap fs x) fs.blocksize n fs.blocksize 0 i with
        | .found o => some (some (direntAt b (readNewBlock heap fs x) o))
        | .next i => direntLoop fs n xs (b + 1) i
        | .panic => none

/-- `dirent_get`. -/
def direntGet (fs : Ext2Fs) (ino n : Nat) : Option (Option FoundDirent) :=
  (readNewInode heap fs ino).bind fun inode => direntLoop heap fs n (dbps inode) 0 0

structure LinuxDirent where
  ino : Nat
  off : Nat
  reclen : Nat
  name : List UInt8
deriving DecidableEq, Repr

/-- What `ext2_filldir` makes of an entry at position `fpos`, with the place of
the entry. -/
def listing (fpos : Nat) (edir : FoundDirent) : (Nat × Nat) × LinuxDirent :=
  (edir.place, { ino := edir.inode, off := fpos, reclen := edir.size, name := edir.name })

/-- `ext2_filldir`. -/
def ext2Filldir (fs : Ext2Fs) (f : Ext2File) :
    Option (Except Int ((Nat × Nat) × LinuxDirent) × Ext2File) :=
  (direntGet heap fs (inoOf f.inodeNo) f.fpos).map fun edir =>
    match edir with
    | none => (.error (-enospc), f)
    | some edir => (.ok (listing f.fpos edir), { f with fpos := f.fpos + 1 })

/-- The results of `k` calls that all return 0, and the file after them. -/
def filldirCalls (fs : Ext2Fs) : Nat → Ext2File → Option (List ((Nat × Nat) × LinuxDirent) × Ext2File)
  | 0, f => some ([], f)
  | k + 1, f =>
      (ext2Filldir heap fs f).bind fun r =>
        match r.1 with
        | .error _ => none
        | .ok l => (filldirCalls fs k r.2).map fun q => (l :: q.1, q.2)

/-! ## Directories -/

/-- A block of a directory, and the offsets of its entries. -/
structure DirBlock where
  ptr : Nat
  offs : List Nat

/-- The directory has these blocks, and their entries fill them. -/
structure DirBlocks (fs : Ext2Fs) (ino : Nat) (blocks : List DirBlock) : Prop where
  desc : HasDescriptor fs ino
  ptrs : dbps (reReadInode fs heap ino) =
    blocks.map DirBlock.ptr ++ List.replicate (12 - blocks.length) 0
  nonzero : ∀ B ∈ blocks, B.ptr ≠ 0
  tiled : ∀ B ∈ blocks, Tiles (readNewBlock heap fs B.ptr) 0 B.offs fs.blocksize

variable (fs : Ext2Fs)

/-- The live ones of these entries. -/
def liveOffs (b : Nat → UInt8) (offs : List Nat) : List Nat := offs.filter fun o => entInode b o ≠ 0

/-- The live entries, in their order, of the part `pick` of each block. -/
def liveEntries (pick : List Nat → List Nat) : Nat → List DirBlock → List FoundDirent
  | _, [] => []
  | i, B :: Bs =>
      (liveOffs (readNewBlock heap fs B.ptr) (pick B.offs)).map
        (direntAt i (readNewBlock heap fs B.ptr)) ++ liveEntries pick (i + 1) Bs

/-- All live entries of the directory, as they are on disk. -/
def entriesOnDisk (blocks : List DirBlock) : List FoundDirent := liveEntries heap fs id 0 blocks

/-- The calls from position 0 return each live entry once, in order, and then
the end. -/
def ListsAll (f : Ext2File) (blocks : List DirBlock) : Prop :=
  ∃ f', filldirCalls heap fs (entriesOnDisk heap fs blocks).length f =
      some ((entriesOnDisk heap fs blocks).mapIdx listing, f') ∧
    ext2Filldir heap fs f' = some (.error (-enospc), f')

def FirstLive (B : DirBlock) : Prop := entInode (readNewBlock heap fs B.ptr) 0 ≠ 0

def AnyLive (B : DirBlock) : Prop := ∃ o ∈ B.offs, entInode (readNewBlock heap fs B.ptr) o ≠ 0

/-- The block with the first live entry begins with it, and no other block
begins with a live entry. -/
def HeadsRight (blocks : List DirBlock) : Prop :=
  ∀ pre B post, blocks = pre ++ B :: post →
    (FirstLive heap fs B ↔ AnyLive heap fs B ∧ ∀ A ∈ pre, ¬AnyLive heap fs A)

/-! ## One block -/

variable {heap fs} {b : Nat → UInt8} {bs n i lo o fuel : Nat} {offs : List Nat}

theorem liveOffs_cons_live (h : entInode b o ≠ 0) (offs : List Nat) :
    liveOffs b (o :: offs) = o :: liveOffs b offs :=
  List.filter_cons_of_pos (by simpa using h)

theorem liveOffs_cons_dead (h : entInode b o = 0) (offs : List Nat) :
    liveOffs b (o :: offs) = liveOffs b offs :=
  List.filter_cons_of_neg (by simpa using h)

/-- With the index reached, the next live entry is found. -/
theorem direntScan_reached (h : Tiles b lo (o :: offs) bs) (hfuel : bs ≤ lo + fuel) :
    direntScan b bs n fuel lo n =
      ((liveOffs b (o :: offs)).head?).elim (.next n) DirentScan.found := by
  induction offs generalizing lo o fuel with
  | nil =>
      obtain ⟨rfl, hmin, hend⟩ := h
      have hpos := direntMinLength_pos b o
      have hend : o + entSize b o = bs := hend
      cases fuel with
      | zero => omega
      | succ fuel =>
          rw [direntScan, if_pos rfl]
          by_cases hlive : entInode b o = 0
          · rw [if_pos hlive, if_neg (by omega), if_pos hend.ge, liveOffs_cons_dead hlive]
            rfl
          · rw [if_neg hlive, liveOffs_cons_live hlive]
            rfl
  | cons o' offs ih =>
      obtain ⟨rfl, hmin, hrest⟩ := h
      have hpos := direntMinLength_pos b o
      obtain rfl : o' = o + entSize b o := hrest.1
      cases fuel with
      | zero => have := hrest.le; omega
      | succ fuel =>
          rw [direntScan, if_pos rfl]
          by_cases hlive : entInode b o = 0
          · have hlt : o + entSize b o < bs := by
              have hpos' := direntMinLength_pos b (o + entSize b o)
              have hmin' := hrest.2.1
              have hle := hrest.2.2.le
              omega
            rw [if_pos hlive, if_neg (by omega), if_neg (by omega), liveOffs_cons_dead hlive]
            exact ih hrest (by omega)
          · rw [if_neg hlive, liveOffs_cons_live hlive]
            rfl

/-- Before that, live entries are counted as they are stepped onto. -/
theorem direntScan_before (h : Tiles b lo (o :: offs) bs) (hfuel : bs ≤ lo + fuel) (hi : i < n) :
    direntScan b bs n fuel lo i =
      ((liveOffs b offs)[n - i - 1]?).elim (.next (i + (liveOffs b offs).length))
        DirentScan.found := by
  induction offs generalizing lo o fuel i with
  | nil =>
      obtain ⟨rfl, hmin, hend⟩ := h
      have hpos := direntMinLength_pos b o
      have hend : o + entSize b o = bs := hend
      cases fuel with
      | zero => omega
      | succ fuel =>
          rw [direntScan, if_neg hi.ne, if_neg (by omega), if_pos hend.ge]
          rfl
  | cons o' offs ih =>
      obtain ⟨rfl, hmin, hrest⟩ := h
      have hpos := direntMinLength_pos b o
      obtain rfl : o' = o + entSize b o := hrest.1
      have hlt : o + entSize b o < bs := by
        have hpos' := direntMinLength_pos b (o + entSize b o)
        have hmin' := hrest.2.1
        have hle := hrest.2.2.le
        omega
      cases fuel with
      | zero => omega
      | succ fuel =>
          rw [direntScan, if_neg hi.ne, if_neg (by omega), if_neg (by omega)]
          by_cases hlive : entInode b (o + entSize b o) = 0
          · rw [if_neg (not_not.mpr hlive), liveOffs_cons_dead hlive]
            exact ih hrest (by omega) hi
          · rw [if_pos hlive]
            rcases Nat.lt_or_ge (i + 1) n with hnext | hge
            · rw [ih hrest (by omega) hnext, liveOffs_cons_live hlive,
                show n - i - 1 = (n - (i + 1) - 1) + 1 by omega, List.getElem?_cons_succ,
                List.length_cons, show i + 1 + (liveOffs b offs).length =
                  i + ((liveOffs b offs).length + 1) by omega]
            · obtain rfl : n = i + 1 := by omega
              rw [direntScan_reached hrest (by omega), liveOffs_cons_live hlive,
                show i + 1 - i - 1 = 0 by omega]
              rfl

/-! ## All blocks -/

/-- What `dirent_get` ends with when no block has the entry: 12 blocks are one
too many for it. -/
def direntEnd (blocks : Nat) : Option (Option FoundDirent) := if blocks < 12 then some none else none

/-- The result at an index. -/
def resultAt (blocks : Nat) (edir : Option FoundDirent) : Option (Option FoundDirent) :=
  edir.elim (direntEnd blocks) fun edir => some (some edir)

variable {k count : Nat} {Bs blocks : List DirBlock}

theorem direntLoop_end (hk : k = 0 ↔ ¬count < 12) (b i : Nat) :
    direntLoop heap fs n (List.replicate k 0) b i = direntEnd count := by
  rw [direntEnd]
  cases k with
  | zero => rw [if_neg (hk.mp rfl)]; rfl
  | succ k => rw [if_pos (by omega)]; rfl

theorem offs_cons {B : DirBlock} (hbs : 0 < fs.blocksize)
    (h : Tiles (readNewBlock heap fs B.ptr) 0 B.offs fs.blocksize) :
    ∃ offs, B.offs = 0 :: offs := by
  cases hoffs : B.offs with
  | nil => rw [hoffs] at h; exact absurd h hbs.ne
  | cons o offs => rw [hoffs] at h; exact ⟨offs, by rw [h.1]⟩

theorem direntLoop_reached (hbs : 0 < fs.blocksize) (hk : k = 0 ↔ ¬count < 12)
    (hne : ∀ B ∈ Bs, B.ptr ≠ 0)
    (htiled : ∀ B ∈ Bs, Tiles (readNewBlock heap fs B.ptr) 0 B.offs fs.blocksize) (b : Nat) :
    direntLoop heap fs n (Bs.map DirBlock.ptr ++ List.replicate k 0) b n =
      resultAt count (liveEntries heap fs id b Bs).head? := by
  induction Bs generalizing b with
  | nil => exact direntLoop_end hk b n
  | cons B Bs ih =>
      have hB := htiled B List.mem_cons_self
      obtain ⟨offs, hoffs⟩ := offs_cons hbs hB
      rw [hoffs] at hB
      rw [List.map_cons, List.cons_append, direntLoop, if_neg (hne B List.mem_cons_self),
        direntScan_reached hB (by omega), liveEntries, id, hoffs]
      cases hlive : liveOffs (readNewBlock heap fs B.ptr) (0 :: offs) with
      | nil =>
          exact ih (fun A hA => hne A (List.mem_cons_of_mem B hA))
            (fun A hA => htiled A (List.mem_cons_of_mem B hA)) (b + 1)
      | cons o os => rfl

theorem direntLoop_before (hbs : 0 < fs.blocksize) (hk : k = 0 ↔ ¬count < 12)
    (hne : ∀ B ∈ Bs, B.ptr ≠ 0)
    (htiled : ∀ B ∈ Bs, Tiles (readNewBlock heap fs B.ptr) 0 B.offs fs.blocksize) (b : Nat)
    (hi : i < n) :
    direntLoop heap fs n (Bs.map DirBlock.ptr ++ List.replicate k 0) b i =
      resultAt count (liveEntries heap fs List.tail b Bs)[n - i - 1]? := by
  induction Bs generalizing b i with
  | nil => exact direntLoop_end hk b i
  | cons B Bs ih =>
      have hB := htiled B List.mem_cons_self
      obtain ⟨offs, hoffs⟩ := offs_cons hbs hB
      rw [hoffs] at hB
      rw [List.map_cons, List.cons_append, direntLoop, if_neg (hne B List.mem_cons_self),
        direntScan_before hB (by omega) hi, liveEntries, hoffs, List.tail_cons]
      obtain ⟨live, hlive⟩ : ∃ live, live = liveOffs (readNewBlock heap fs B.ptr) offs := ⟨_, rfl⟩
      rw [← hlive]
      rcases Nat.lt_or_ge (n - i - 1) live.length with hlt | hge
      · rw [List.getElem?_eq_getElem hlt, List.getElem?_append_left (by simpa using hlt),
          List.getElem?_map, List.getElem?_eq_getElem hlt]
        rfl
      · rw [List.getElem?_eq_none hge, List.getElem?_append_right (by simpa using hge),
          List.length_map, show n - i - 1 - live.length = n - (i + live.length) - 1 by omega]
        exact ih (fun A hA => hne A (List.mem_cons_of_mem B hA))
          (fun A hA => htiled A (List.mem_cons_of_mem B hA)) (b + 1) (by omega)

/-- What the calls return, for index 0, 1, …: the first live entry, and the
live entries that are not the first of their blocks. -/
def entriesFound (heap : Nat → UInt8) (fs : Ext2Fs) (blocks : List DirBlock) : List FoundDirent :=
  (entriesOnDisk heap fs blocks).head?.toList ++ liveEntries heap fs List.tail 0 blocks

theorem liveEntries_tail_sublist (j : Nat) (Bs : List DirBlock) :
    (liveEntries heap fs List.tail j Bs).Sublist (liveEntries heap fs id j Bs) := by
  induction Bs generalizing j with
  | nil => exact List.Sublist.refl _
  | cons B Bs ih =>
      exact (((List.tail_sublist B.offs).filter _).map _).append (ih (j + 1))

theorem liveEntries_tail_nil (h : liveEntries heap fs id i Bs = []) :
    liveEntries heap fs List.tail i Bs = [] :=
  List.sublist_nil.mp (h ▸ liveEntries_tail_sublist i Bs)

/-- **What `dirent_get` finds.** -/
theorem direntGet_eq {ino : Nat} (hbs : 0 < fs.blocksize) (h : DirBlocks heap fs ino blocks) (n : Nat) :
    direntGet heap fs ino n = resultAt blocks.length (entriesFound heap fs blocks)[n]? := by
  have hlen : blocks.length ≤ 12 := by
    have hlen := congrArg List.length h.ptrs
    rw [dbps, List.length_map, List.length_range, List.length_append, List.length_map,
      List.length_replicate] at hlen
    omega
  have hk : 12 - blocks.length = 0 ↔ ¬blocks.length < 12 := by omega
  rw [direntGet, readNewInode, if_pos h.desc, Option.bind_some, h.ptrs, entriesFound]
  cases n with
  | zero =>
      rw [direntLoop_reached hbs hk h.nonzero h.tiled]
      cases hL : entriesOnDisk heap fs blocks with
      | nil =>
          rw [entriesOnDisk] at hL
          rw [hL, liveEntries_tail_nil hL]
          rfl
      | cons p L => rw [entriesOnDisk] at hL; rw [hL]; rfl
  | succ n =>
      rw [direntLoop_before hbs hk h.nonzero h.tiled 0 n.succ_pos]
      cases hL : entriesOnDisk heap fs blocks with
      | nil =>
          rw [entriesOnDisk] at hL
          rw [liveEntries_tail_nil hL]
          rfl
      | cons p L => rfl

/-- The calls from a position on. -/
theorem filldirCalls_eq {f : Ext2File} (hbs : 0 < fs.blocksize)
    (h : DirBlocks heap fs (inoOf f.inodeNo) blocks) (k : Nat) :
    filldirCalls heap fs k f =
      if f.fpos + k ≤ (entriesFound heap fs blocks).length ∨ k = 0 then
        some ((((entriesFound heap fs blocks).drop f.fpos).take k).mapIdx
          (fun j edir => listing (f.fpos + j) edir), { f with fpos := f.fpos + k })
      else none := by
  induction k generalizing f with
  | zero => rw [if_pos (.inr rfl)]; rfl
  | succ k ih =>
      have hget := direntGet_eq hbs h f.fpos
      rw [filldirCalls, ext2Filldir, hget]
      cases hentry : (entriesFound heap fs blocks)[f.fpos]? with
      | none =>
          have hlen := List.getElem?_eq_none_iff.mp hentry
          rw [if_neg (by omega), resultAt, Option.elim, direntEnd]
          split <;> rfl
      | some edir =>
          have hlt := (List.getElem?_eq_some_iff.mp hentry).1
          have hdrop := List.drop_eq_getElem_cons hlt
          have hedir : (entriesFound heap fs blocks)[f.fpos] = edir :=
            (List.getElem?_eq_some_iff.mp hentry).2
          have hrest := @ih { f with fpos := f.fpos + 1 } h
          simp only [resultAt, Option.elim, Option.map_some, Option.bind_some, hrest]
          by_cases hle : f.fpos + 1 + k ≤ (entriesFound heap fs blocks).length ∨ k = 0
          · rw [if_pos hle, if_pos (by omega), hdrop, hedir, List.take_succ_cons, List.mapIdx_cons]
            simp only [Option.map_some, Nat.add_zero, Nat.add_assoc, Nat.add_comm 1]
          · rw [if_neg hle, if_neg (by omega)]
            rfl

theorem mapIdx_listing_inj {l l' : List FoundDirent} (h : l.mapIdx listing = l'.mapIdx listing) :
    l = l' := by
  refine List.ext_getElem? fun j => ?_
  have hj := congrArg (fun l => l[j]?) h
  simp only [List.getElem?_mapIdx] at hj
  refine Option.map_injective (fun p q hpq => ?_) hj
  obtain ⟨hplace, hdirent⟩ := Prod.mk.inj hpq
  obtain ⟨hino, -, hsize, hname⟩ := LinuxDirent.mk.inj hdirent
  cases p
  cases q
  exact congr (congr (congr (congrArg FoundDirent.mk hplace) hino) hsize) hname

/-- The listing is right when what is found is what is on disk, and there is a
13th block pointer to find the end by. -/
theorem listsAll_iff_found {f : Ext2File} (hbs : 0 < fs.blocksize) (hpos : f.fpos = 0)
    (h : DirBlocks heap fs (inoOf f.inodeNo) blocks) :
    ListsAll heap fs f blocks ↔
      blocks.length < 12 ∧ entriesFound heap fs blocks = entriesOnDisk heap fs blocks := by
  obtain ⟨len, hlen⟩ : ∃ len, len = (entriesOnDisk heap fs blocks).length := ⟨_, rfl⟩
  have hcalls := filldirCalls_eq hbs h len
  simp only [hpos, Nat.zero_add, List.drop_zero] at hcalls
  have hend : ∀ f' : Ext2File, f'.inodeNo = f.inodeNo → f'.fpos = len →
      (ext2Filldir heap fs f' = some (.error (-enospc), f') ↔
        blocks.length < 12 ∧ (entriesFound heap fs blocks).length ≤ len) := by
    intro f' hino hfpos
    rw [ext2Filldir, hino, direntGet_eq hbs h, hfpos]
    cases hentry : (entriesFound heap fs blocks)[len]? with
    | none =>
        have hle := List.getElem?_eq_none_iff.mp hentry
        rw [resultAt, Option.elim, direntEnd]
        by_cases h12 : blocks.length < 12
        · rw [if_pos h12]
          exact ⟨fun _ => ⟨h12, hle⟩, fun _ => rfl⟩
        · rw [if_neg h12]
          exact ⟨(fun h => by cases h), fun h => (h12 h.1).elim⟩
    | some edir =>
        have hlt := (List.getElem?_eq_some_iff.mp hentry).1
        exact ⟨(fun h => by cases h), fun h => absurd hlt (Nat.not_lt.mpr h.2)⟩
  rw [ListsAll, ← hlen, hcalls]
  constructor
  · rintro ⟨f', hf', hlast⟩
    split at hf'
    · next hle =>
        obtain ⟨hlist, rfl⟩ := Prod.mk.inj (Option.some.inj hf')
        obtain ⟨h12, hshort⟩ := (hend { f with fpos := len } rfl rfl).mp hlast
        have htake := mapIdx_listing_inj hlist
        exact ⟨h12, (List.take_of_length_le hshort).symm.trans htake⟩
    · cases hf'
  · rintro ⟨h12, hfound⟩
    refine ⟨_, ?_, (hend { f with fpos := len } rfl rfl).mpr ⟨h12, by rw [hfound, hlen]⟩⟩
    rw [if_pos (.inl (by rw [hfound, hlen])), hfound, List.take_of_length_le hlen.ge]

/-! ## When that is so -/

/-- The offsets of a tiling go up. -/
theorem Tiles.nodup (h : Tiles b lo offs bs) : offs.Nodup := by
  induction offs generalizing lo with
  | nil => exact List.nodup_nil
  | cons o offs ih =>
      obtain ⟨rfl, hmin, hrest⟩ := h
      have hpos := direntMinLength_pos b o
      refine List.nodup_cons.mpr ⟨fun hmem => ?_, ih hrest⟩
      have := (hrest.bounds hmem).1
      omega

theorem liveEntries_place_le {p : FoundDirent} {pick : List Nat → List Nat}
    (hp : p ∈ liveEntries heap fs pick i Bs) : i ≤ p.place.1 := by
  induction Bs generalizing i with
  | nil => cases hp
  | cons B Bs ih =>
      rcases List.mem_append.mp hp with hp | hp
      · obtain ⟨o, -, rfl⟩ := List.mem_map.mp hp
        exact Nat.le_refl i
      · exact (Nat.le_succ i).trans (ih hp)

theorem liveEntries_nodup
    (htiled : ∀ B ∈ Bs, Tiles (readNewBlock heap fs B.ptr) 0 B.offs fs.blocksize) (i : Nat) :
    (liveEntries heap fs id i Bs).Nodup := by
  induction Bs generalizing i with
  | nil => exact List.nodup_nil
  | cons B Bs ih =>
      have hnodup := ((htiled B List.mem_cons_self).nodup).filter
        fun o => entInode (readNewBlock heap fs B.ptr) o ≠ 0
      refine List.nodup_append.mpr ⟨hnodup.map fun o o' ho => ?_,
        ih (fun A hA => htiled A (List.mem_cons_of_mem B hA)) (i + 1), fun p hp q hq => ?_⟩
      · exact (Prod.mk.inj (FoundDirent.mk.inj ho).1).2
      · obtain ⟨o, -, rfl⟩ := List.mem_map.mp hp
        rintro rfl
        exact absurd (liveEntries_place_le hq) (Nat.not_succ_le_self i)

theorem liveOffs_eq_nil {B : DirBlock} :
    liveOffs (readNewBlock heap fs B.ptr) B.offs = [] ↔ ¬AnyLive heap fs B := by
  rw [liveOffs, List.filter_eq_nil_iff, AnyLive]
  simp

/-- The blocks lose nothing without their first entries exactly when these are
dead. -/
theorem liveEntries_tail_eq_iff (hbs : 0 < fs.blocksize)
    (htiled : ∀ B ∈ Bs, Tiles (readNewBlock heap fs B.ptr) 0 B.offs fs.blocksize) (i : Nat) :
    liveEntries heap fs List.tail i Bs = liveEntries heap fs id i Bs ↔
      ∀ B ∈ Bs, ¬FirstLive heap fs B := by
  induction Bs generalizing i with
  | nil => exact ⟨(fun _ B hB => by cases hB), fun _ => rfl⟩
  | cons B Bs ih =>
      have ih := ih (fun A hA => htiled A (List.mem_cons_of_mem B hA)) (i + 1)
      obtain ⟨offs, hoffs⟩ := offs_cons hbs (htiled B List.mem_cons_self)
      rw [liveEntries, liveEntries, hoffs, id, List.tail_cons, List.forall_mem_cons, ← ih]
      by_cases hfirst : FirstLive heap fs B
      · rw [liveOffs_cons_live hfirst]
        refine ⟨fun h => ?_, fun h => absurd hfirst h.1⟩
        have hlen := congrArg List.length h
        have hle : (liveEntries heap fs List.tail (i + 1) Bs).length ≤
            (liveEntries heap fs id (i + 1) Bs).length :=
          (liveEntries_tail_sublist (i + 1) Bs).length_le
        simp only [List.map_cons, List.length_append, List.length_cons, List.length_map] at hlen
        omega
      · rw [liveOffs_cons_dead (not_not.mp hfirst), List.append_cancel_left_eq]
        exact ⟨fun h => ⟨hfirst, h⟩, fun h => h.2⟩

theorem headsRight_cons_dead {B : DirBlock} (hdead : ¬AnyLive heap fs B) (hB : ¬FirstLive heap fs B) :
    HeadsRight heap fs (B :: Bs) ↔ HeadsRight heap fs Bs := by
  constructor
  · rintro h pre A post rfl
    rw [h (B :: pre) A post rfl, List.forall_mem_cons]
    exact ⟨fun h => ⟨h.1, h.2.2⟩, fun h => ⟨h.1, hdead, h.2⟩⟩
  · intro h pre A post heq
    cases pre with
    | nil =>
        obtain ⟨rfl, -⟩ := List.cons.inj heq
        exact ⟨fun h => (hB h).elim, fun h => (hdead h.1).elim⟩
    | cons C pre =>
        obtain ⟨rfl, rfl⟩ := List.cons.inj heq
        rw [h pre A post rfl, List.forall_mem_cons]
        exact ⟨fun h => ⟨h.1, hdead, h.2⟩, fun h => ⟨h.1, h.2.2⟩⟩

theorem headsRight_cons_live {B : DirBlock} (hlive : AnyLive heap fs B) :
    HeadsRight heap fs (B :: Bs) ↔ FirstLive heap fs B ∧ ∀ A ∈ Bs, ¬FirstLive heap fs A := by
  constructor
  · intro h
    refine ⟨(h [] B Bs rfl).mpr ⟨hlive, fun _ h => by cases h⟩, fun A hA hfirst => ?_⟩
    obtain ⟨pre, post, rfl⟩ := List.append_of_mem hA
    exact ((h (B :: pre) A post rfl).mp hfirst).2 B List.mem_cons_self hlive
  · rintro ⟨hfirst, hrest⟩ pre A post heq
    cases pre with
    | nil =>
        obtain ⟨rfl, -⟩ := List.cons.inj heq
        exact ⟨fun _ => ⟨hlive, fun _ h => by cases h⟩, fun _ => hfirst⟩
    | cons C pre =>
        obtain ⟨rfl, rfl⟩ := List.cons.inj heq
        have hmem : A ∈ pre ++ A :: post := List.mem_append_right _ List.mem_cons_self
        exact ⟨fun h => (hrest A hmem h).elim, fun h => (h.2 B List.mem_cons_self hlive).elim⟩

/-- What is found is what is on disk. -/
theorem found_eq_iff (hbs : 0 < fs.blocksize)
    (htiled : ∀ B ∈ Bs, Tiles (readNewBlock heap fs B.ptr) 0 B.offs fs.blocksize) (i : Nat) :
    (liveEntries heap fs id i Bs).head?.toList ++ liveEntries heap fs List.tail i Bs =
        liveEntries heap fs id i Bs ↔ HeadsRight heap fs Bs := by
  induction Bs generalizing i with
  | nil => exact ⟨fun _ pre B post h => by simp at h, fun _ => rfl⟩
  | cons B Bs ih =>
      have htail := fun A hA => htiled A (List.mem_cons_of_mem B hA)
      obtain ⟨offs, hoffs⟩ := offs_cons hbs (htiled B List.mem_cons_self)
      by_cases hany : AnyLive heap fs B
      · rw [headsRight_cons_live hany, ← liveEntries_tail_eq_iff hbs htail (i + 1)]
        by_cases hfirst : FirstLive heap fs B
        · -- the head is returned for index 0, and by no other call
          rw [liveEntries, liveEntries, hoffs, id, List.tail_cons, liveOffs_cons_live hfirst,
            List.map_cons, List.cons_append, List.head?_cons, Option.toList_some,
            List.singleton_append, List.cons.injEq, List.append_cancel_left_eq]
          exact ⟨fun h => ⟨hfirst, h.2⟩, fun h => ⟨rfl, h.2⟩⟩
        · -- the first live entry is returned twice
          refine ⟨fun h => ?_, fun h => (hfirst h.1).elim⟩
          have hnodup := liveEntries_nodup htiled i
          rw [← h] at hnodup
          have hlive : liveOffs (readNewBlock heap fs B.ptr) offs ≠ [] := by
            rw [← liveOffs_cons_dead (not_not.mp hfirst), ← hoffs]
            exact fun hnil => liveOffs_eq_nil.mp hnil hany
          obtain ⟨o, os, hos⟩ := List.exists_cons_of_ne_nil hlive
          rw [liveEntries, liveEntries, hoffs, id, List.tail_cons,
            liveOffs_cons_dead (not_not.mp hfirst), hos] at hnodup
          exact absurd List.mem_cons_self (List.nodup_cons.mp hnodup).1
      · have hB : ¬FirstLive heap fs B := fun hfirst =>
          hany ⟨0, by rw [hoffs]; exact List.mem_cons_self, hfirst⟩
        have hnil : liveOffs (readNewBlock heap fs B.ptr) B.offs = [] := liveOffs_eq_nil.mpr hany
        have hnil' : liveOffs (readNewBlock heap fs B.ptr) B.offs.tail = [] := by
          rw [hoffs, List.tail_cons, ← liveOffs_cons_dead (not_not.mp hB), ← hoffs]
          exact hnil
        rw [headsRight_cons_dead hany hB, ← ih htail (i + 1), liveEntries, liveEntries, id, hnil, hnil']
        rfl

/-- **When a directory is listed right.** For every directory, of any number of
blocks, filled by entries of which some may be dead: the calls from position 0
return each live entry once, in order, and then the end, exactly when there
are fewer than 12 blocks, the first live entry is the first one of its block,
and no other block begins with a live entry. -/
theorem filldir_iff {f : Ext2File} (hbs : 0 < fs.blocksize) (hpos : f.fpos = 0)
    (h : DirBlocks heap fs (inoOf f.inodeNo) blocks) :
    ListsAll heap fs f blocks ↔ blocks.length < 12 ∧ HeadsRight heap fs blocks := by
  rw [listsAll_iff_found hbs hpos h, entriesFound, entriesOnDisk, found_eq_iff hbs h.tiled 0]

/-- The small root directory, whose block begins with ".", is listed right. -/
theorem filldir_root :
    DirBlocks (fun _ => 0xCC) smallRoot 2 [⟨10, [0, 12]⟩] ∧
      ListsAll (fun _ => 0xCC) smallRoot ⟨2, 0, 1024⟩ [⟨10, [0, 12]⟩] := by
  have hdir : DirBlocks (fun _ => 0xCC) smallRoot 2 [⟨10, [0, 12]⟩] := by
    refine ⟨by decide +kernel, by decide +kernel, ?_, ?_⟩
    · exact List.forall_mem_singleton.mpr (by decide)
    · exact List.forall_mem_singleton.mpr (by decide +kernel)
  have hfirst : FirstLive (fun _ => 0xCC) smallRoot ⟨10, [0, 12]⟩ := by
    rw [FirstLive]
    decide +kernel
  refine ⟨hdir, (filldir_iff (by decide +kernel) rfl hdir).mpr ⟨by decide, ?_⟩⟩
  refine (headsRight_cons_live ⟨0, List.mem_cons_self, hfirst⟩).mpr ⟨hfirst, fun _ h => by cases h⟩

/-- The same directory with its first entry deleted. -/
def deletedRoot : Ext2Fs := { smallRoot with disk := put32 smallRoot.disk (10 * 1024) 0 }

/-- Its only live entry is returned twice. -/
theorem filldir_deleted_twice :
    DirBlocks (fun _ => 0xCC) deletedRoot 2 [⟨10, [0, 12]⟩] ∧
      (filldirCalls (fun _ => 0xCC) deletedRoot 2 ⟨2, 0, 1024⟩).map Prod.fst =
        some [((0, 12), ⟨2, 0, 1012, [46, 46]⟩), ((0, 12), ⟨2, 1, 1012, [46, 46]⟩)] ∧
      ¬ListsAll (fun _ => 0xCC) deletedRoot ⟨2, 0, 1024⟩ [⟨10, [0, 12]⟩] := by
  have hcalls : (filldirCalls (fun _ => 0xCC) deletedRoot 2 ⟨2, 0, 1024⟩).map Prod.fst =
      some [((0, 12), ⟨2, 0, 1012, [46, 46]⟩), ((0, 12), ⟨2, 1, 1012, [46, 46]⟩)] := by
    decide +kernel
  have hone : (entriesOnDisk (fun _ => 0xCC) deletedRoot [⟨10, [0, 12]⟩]).length = 1 := by
    decide +kernel
  refine ⟨⟨by decide +kernel, by decide +kernel, ?_, ?_⟩, hcalls, ?_⟩
  · exact List.forall_mem_singleton.mpr (by decide)
  · exact List.forall_mem_singleton.mpr (by decide +kernel)
  · rintro ⟨f', hf', hend⟩
    rw [hone] at hf'
    have hafter : (filldirCalls (fun _ => 0xCC) deletedRoot 1 ⟨2, 0, 1024⟩).map
        (fun r => (r.2.inodeNo, r.2.fpos, r.2.length)) = some (2, 1, 1024) := by
      decide +kernel
    rw [hf', Option.map_some, Option.some.injEq, Prod.mk.injEq, Prod.mk.injEq] at hafter
    obtain rfl : f' = ⟨2, 1, 1024⟩ := by
      cases f'
      exact congr (congr (congrArg Ext2File.mk hafter.1) hafter.2.1) hafter.2.2
    have hsecond : (filldirCalls (fun _ => 0xCC) deletedRoot 1 ⟨2, 1, 1024⟩).isSome := by
      decide +kernel
    rw [filldirCalls, hend] at hsecond
    cases hsecond

end Levos.Fs
