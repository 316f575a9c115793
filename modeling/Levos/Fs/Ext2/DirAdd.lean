import Levos.Fs.Ext2.DirAtomic

/-!
# Adding an entry that fits (`fs/ext2/dir.c`)

When there is room behind the last entry of the first block,
`ext2_place_dirent` keeps the directory well formed (`LiveDir`), and the next
entry can be added to what it leaves. `ext2_read_directory` finds the entries
of the first 12 blocks; it knows no others, like the rest of the code for
directories.
-/

namespace Levos.Fs

open Levos.Base Levos.Kernel

/-! ## Directories -/

/-- The entries at `offs` fill block `y`, with names, inodes, and sizes that
are multiples of 4. -/
structure LiveBlock (P : InodePlace) (d : Nat → UInt8) (y : Nat) (offs : List Nat) : Prop where
  tiles : Tiles (blockBytes P d y) 0 offs P.bs
  live : LiveEntries P d y offs
  sizes : ∀ o ∈ offs, entSize (blockBytes P d y) o % 4 = 0

/-- There is an entry at offset `o` of logical block `b`. -/
def HasEntry (P : InodePlace) (d : Nat → UInt8) (b o : Nat) : Prop :=
  P.ptr d b ≠ 0 ∧ ∃ offs, Tiles (blockBytes P d (P.ptr d b)) 0 offs P.bs ∧ o ∈ offs

def dirEntry (P : InodePlace) (d : Nat → UInt8) (b o : Nat) : DirEntry :=
  entryAt (blockBytes P d (P.ptr d b)) o

/-- A block of block numbers. -/
def IndexOf (P : InodePlace) (d : Nat → UInt8) (y : Nat) : Prop :=
  y ≠ 0 ∧ (y = P.singly d ∨ y = P.doubly d ∨ ∃ c < P.ppb, y = P.follow d (P.doubly d) c)

/-- A directory: blocks of entries, each there once and no metadata, in which no
name is there twice. -/
structure LiveDir (count : Nat) (place : Nat → InodePlace) (P : InodePlace) (d : Nat → UInt8) :
    Prop where
  free : ∀ b < P.reach, P.ptr d b ≠ 0 → TableFree count place (P.ptr d b)
  inj : ∀ b < P.reach, ∀ c < P.reach, P.ptr d b ≠ 0 → P.ptr d b = P.ptr d c → b = c
  index : ∀ y, IndexOf P d y → TableFree count place y ∧ y ≠ P.ptr d 0
  blocks : ∀ b < P.reach, P.ptr d b ≠ 0 → ∃ offs, LiveBlock P d (P.ptr d b) offs
  names : ∀ b < P.reach, ∀ o, HasEntry P d b o → ∀ c < P.reach, ∀ o', HasEntry P d c o' →
    (dirEntry P d b o).name = (dirEntry P d c o').name → b = c ∧ o = o'

section Blocks

variable {P : InodePlace} {d d' : Nat → UInt8} {y b lo hi : Nat} {offs : List Nat}

theorem twelve_le_reach (P : InodePlace) : 12 ≤ P.reach := by
  rw [InodePlace.reach, InodePlace.near]
  omega

theorem reach_pos (P : InodePlace) : 0 < P.reach :=
  (twelve_le_reach P).trans_lt' (by norm_num)

/-- A block is tiled in one way only. -/
theorem LiveBlock.hasEntry_iff (h : LiveBlock P d (P.ptr d b) offs) (h0 : P.ptr d b ≠ 0) {o : Nat} :
    HasEntry P d b o ↔ o ∈ offs := by
  constructor
  · rintro ⟨-, offs', htiles, ho⟩
    rwa [h.tiles.unique htiles] at ho
  · exact fun ho => ⟨h0, offs, h.tiles, ho⟩

theorem LiveBlock.same (h : LiveBlock P d y offs) (hsame : SameBlock P.bs d d' y) :
    LiveBlock P d' y offs ∧
      ∀ o ∈ offs, entryAt (blockBytes P d' y) o = entryAt (blockBytes P d y) o := by
  obtain ⟨htiles, hentries⟩ := h.tiles.of_bytes fun j _ hj => hsame.byte hj
  refine ⟨⟨htiles, fun o ho => ?_, fun o ho => ?_⟩, fun o ho => (hentries o ho).1⟩
  · obtain ⟨hentry, hlen, -⟩ := hentries o ho
    obtain ⟨hnamed, h0, hlt⟩ := h.live o ho
    exact ⟨hlen.trans_ne hnamed, hentry ▸ h0, hentry ▸ hlt⟩
  · obtain ⟨-, -, hsize⟩ := hentries o ho
    exact hsize ▸ h.sizes o ho

/-- All sizes are multiples of 4 when all entries start at such, and the end is
one. -/
theorem Tiles.aligned_iff {buf : Nat → UInt8} (h : Tiles buf lo offs hi) (hlo : lo % 4 = 0) :
    (∀ o ∈ offs, entSize buf o % 4 = 0) ↔ (∀ o ∈ offs, o % 4 = 0) ∧ hi % 4 = 0 := by
  induction offs generalizing lo with
  | nil =>
      obtain rfl : lo = hi := h
      simpa using hlo
  | cons o offs ih =>
      obtain ⟨rfl, -, hrest⟩ := h
      rw [List.forall_mem_cons, List.forall_mem_cons]
      constructor
      · rintro ⟨hsize, hsizes⟩
        obtain ⟨hoffs, hend⟩ := (ih hrest (by omega)).mp hsizes
        exact ⟨⟨hlo, hoffs⟩, hend⟩
      · rintro ⟨⟨-, hoffs⟩, hend⟩
        have hnext : (o + entSize buf o) % 4 = 0 := by
          cases offs with
          | nil =>
              obtain rfl : o + entSize buf o = hi := hrest
              exact hend
          | cons o' offs =>
              obtain ⟨rfl, -, -⟩ := hrest
              exact hoffs _ List.mem_cons_self
        exact ⟨by omega, (ih hrest hnext).mpr ⟨hoffs, hend⟩⟩

/-! ## Looking for a name -/

variable {count ino : Nat} {place : Nat → InodePlace} {fs : Ext2Fs}

/-- One block of the search. -/
theorem LiveDir.search (h : LiveDir count place (place ino) fs.disk) (heap : Nat → UInt8)
    (ht : InodeTable count place fs) (hino : 0 < ino ∧ ino ≤ count) {c : Nat} (hc : c < 12)
    (h0 : (place ino).ptr fs.disk c ≠ 0) (f : List UInt8) (xs : List Nat) :
    (∃ o, HasEntry (place ino) fs.disk c o ∧ (dirEntry (place ino) fs.disk c o).name = f ∧
      readDbps heap fs f ((place ino).ptr fs.disk c :: xs) =
        (dirEntry (place ino) fs.disk c o).inode) ∨
    (∀ o, HasEntry (place ino) fs.disk c o → (dirEntry (place ino) fs.disk c o).name ≠ f) ∧
      readDbps heap fs f ((place ino).ptr fs.disk c :: xs) = readDbps heap fs f xs := by
  have hreach : c < (place ino).reach := hc.trans_le (twelve_le_reach _)
  obtain ⟨offs, hblock⟩ := h.blocks c hreach h0
  rw [readDbps_tiled (ht.inodeAt ino hino.1 hino.2) ((h.free c hreach h0).lt ino hino.1 hino.2)
    hblock.tiles hblock.live]
  cases ho : offs.find? fun o =>
      (entryAt (blockBytes (place ino) fs.disk ((place ino).ptr fs.disk c)) o).name = f with
  | some o =>
      have hname := List.find?_some ho
      exact .inl ⟨o, (hblock.hasEntry_iff h0).mpr (List.mem_of_find?_eq_some ho),
        of_decide_eq_true hname, rfl⟩
  | none =>
      refine .inr ⟨fun o hentry hname => ?_, rfl⟩
      have hnone := List.find?_eq_none.mp ho o ((hblock.hasEntry_iff h0).mp hentry)
      exact hnone (decide_eq_true hname)

/-- The search from block `c` on, for an entry of block `b`. -/
theorem LiveDir.search_entry (h : LiveDir count place (place ino) fs.disk) (heap : Nat → UInt8)
    (ht : InodeTable count place fs) (hino : 0 < ino ∧ ino ≤ count) (hb : b < 12) {o : Nat}
    (ho : HasEntry (place ino) fs.disk b o) (hfull : ∀ c < b, (place ino).ptr fs.disk c ≠ 0)
    {c n : Nat} (hc : b = c + n) :
    readDbps heap fs (dirEntry (place ino) fs.disk b o).name
        ((List.range' c (12 - c)).map ((place ino).ptr fs.disk)) =
      (dirEntry (place ino) fs.disk b o).inode := by
  have htwelve := twelve_le_reach (place ino)
  induction n generalizing c with
  | zero =>
      obtain rfl : b = c := hc
      rw [show 12 - b = 11 - b + 1 by omega, List.range'_succ, List.map_cons]
      rcases h.search heap ht hino hb ho.1 _ _ with ⟨o', ho', hname, hread⟩ | ⟨hnone, -⟩
      · obtain ⟨-, rfl⟩ := h.names b (by omega) o ho b (by omega) o' ho' hname.symm
        exact hread
      · exact absurd rfl (hnone o ho)
  | succ n ih =>
      have hlt : c < b := by omega
      rw [show 12 - c = 11 - c + 1 by omega, List.range'_succ, List.map_cons]
      rcases h.search heap ht hino (hlt.trans hb) (hfull c hlt) _ _ with
        ⟨o', ho', hname, -⟩ | ⟨-, hread⟩
      · obtain ⟨heq, -⟩ := h.names b (by omega) o ho c (by omega) o' ho' hname.symm
        exact absurd heq hlt.ne'
      · have hrest := ih (c := c + 1) (by omega)
        rw [show 12 - (c + 1) = 11 - c by omega] at hrest
        rw [hread, hrest]

/-- The search for a name that the first 12 blocks do not have. -/
theorem LiveDir.search_missing (h : LiveDir count place (place ino) fs.disk) (heap : Nat → UInt8)
    (ht : InodeTable count place fs) (hino : 0 < ino ∧ ino ≤ count)
    (hfull : ∀ c < 12, (place ino).ptr fs.disk c ≠ 0) {f : List UInt8}
    (hf : ∀ c < 12, ∀ o, HasEntry (place ino) fs.disk c o →
      (dirEntry (place ino) fs.disk c o).name ≠ f) {c n : Nat} (hc : c + n = 12) :
    readDbps heap fs f ((List.range' c n).map ((place ino).ptr fs.disk)) = -enoent := by
  induction n generalizing c with
  | zero => rfl
  | succ n ih =>
      rw [List.range'_succ, List.map_cons]
      rcases h.search heap ht hino (by omega : c < 12) (hfull c (by omega)) f _ with
        ⟨o, ho, hname, -⟩ | ⟨-, hread⟩
      · exact absurd hname (hf c (by omega) o ho)
      · rw [hread, ih (by omega)]

/-- `ext2_read_directory` finds the entries of the first 12 blocks, up to the
first hole. -/
theorem LiveDir.read_entry (h : LiveDir count place (place ino) fs.disk) (heap : Nat → UInt8)
    (ht : InodeTable count place fs) (hino : 0 < ino ∧ ino ≤ count) (hb : b < 12)
    (hfull : ∀ c < b, (place ino).ptr fs.disk c ≠ 0) {o : Nat}
    (ho : HasEntry (place ino) fs.disk b o) :
    ext2ReadDirectory heap fs ino (dirEntry (place ino) fs.disk b o).name =
      some ((dirEntry (place ino) fs.disk b o).inode : Int) := by
  have hsearch := h.search_entry heap ht hino hb ho hfull (Nat.zero_add b).symm
  rw [ext2ReadDirectory_eq (ht.inodeAt ino hino.1 hino.2), List.range_eq_range']
  exact congrArg some hsearch

/-- It does not find the others. -/
theorem LiveDir.read_far (h : LiveDir count place (place ino) fs.disk) (heap : Nat → UInt8)
    (ht : InodeTable count place fs) (hino : 0 < ino ∧ ino ≤ count)
    (hfull : ∀ c < 12, (place ino).ptr fs.disk c ≠ 0) (hb : 12 ≤ b) (hreach : b < (place ino).reach)
    {o : Nat} (ho : HasEntry (place ino) fs.disk b o) :
    ext2ReadDirectory heap fs ino (dirEntry (place ino) fs.disk b o).name = some (-enoent) := by
  rw [ext2ReadDirectory_eq (ht.inodeAt ino hino.1 hino.2), List.range_eq_range']
  refine congrArg some (h.search_missing heap ht hino hfull (fun c hc o' ho' hname => ?_) rfl)
  obtain ⟨heq, -⟩ := h.names c (by omega) o' ho' b hreach o ho hname
  omega

end Blocks

/-! ## The new entry -/

/-- A directory whose first block ends with the entry at `last`, and a name for
an inode that it does not have and that fits behind this entry. -/
structure Fits (count : Nat) (place : Nat → InodePlace) (fs : Ext2Fs) (ino target : Nat)
    (name : List UInt8) (x : Nat) (init : List Nat) (last : Nat) : Prop where
  table : InodeTable count place fs
  cross : ∀ k l, 0 < k → k ≤ count → 0 < l → l ≤ count →
    ∀ j < 4, ((place k).table + j) / (place k).bs ≠ (place l).block
  inoValid : 0 < ino ∧ ino ≤ count
  targetValid : 0 < target ∧ target ≤ count
  dir : LiveDir count place (place ino) fs.disk
  first : (place ino).ptr fs.disk 0 = x
  ne_zero : x ≠ 0
  tiles : Tiles (blockBytes (place ino) fs.disk x) 0 (init ++ [last]) (place ino).bs
  named : 1 ≤ name.length ∧ name.length ≤ 255
  fresh : ∀ b < (place ino).reach, ∀ o, HasEntry (place ino) fs.disk b o →
    (dirEntry (place ino) fs.disk b o).name ≠ name
  room : newOffset (blockBytes (place ino) fs.disk x) last + recLen name ≤ (place ino).bs

namespace Fits

variable {count ino target x last b : Nat} {place : Nat → InodePlace} {fs : Ext2Fs}
  {init : List Nat} {name : List UInt8}

theorem tableFree (h : Fits count place fs ino target name x init last) :
    TableFree count place x :=
  h.first ▸ h.dir.free 0 (reach_pos _) (h.first.trans_ne h.ne_zero)

theorem firstLive (h : Fits count place fs ino target name x init last) :
    LiveBlock (place ino) fs.disk x (init ++ [last]) := by
  obtain ⟨offs, hblock⟩ := h.dir.blocks 0 (reach_pos _) (h.first.trans_ne h.ne_zero)
  rw [h.first] at hblock
  rwa [hblock.tiles.unique h.tiles]

theorem roomFor (h : Fits count place fs ino target name x init last) :
    RoomFor (place ino) fs.disk x init last name := by
  obtain ⟨mid, hinit, rfl, hmin, hend⟩ := h.tiles.split
  exact ⟨⟨h.first, h.ne_zero, h.tableFree.lt ino h.inoValid.1 h.inoValid.2, hinit, hmin, hend⟩,
    h.firstLive.live, List.ne_nil_of_length_pos h.named.1, h.named.2, h.room⟩

/-! ### The block numbers stay -/

theorem singly_eq (h : Fits count place fs ino target name x init last) (heap : Nat → UInt8) :
    (place ino).singly (withEntry place heap fs ino target x last name).disk =
      (place ino).singly fs.disk :=
  afterPlace_field h.table h.inoValid h.targetValid h.tableFree h.inoValid.1 h.inoValid.2
    (by decide) (.inr (by decide))

theorem doubly_eq (h : Fits count place fs ino target name x init last) (heap : Nat → UInt8) :
    (place ino).doubly (withEntry place heap fs ino target x last name).disk =
      (place ino).doubly fs.disk :=
  afterPlace_field h.table h.inoValid h.targetValid h.tableFree h.inoValid.1 h.inoValid.2
    (by decide) (.inr (by decide))

theorem index_same (h : Fits count place fs ino target name x init last) (heap : Nat → UInt8)
    {y : Nat} (hy : IndexOf (place ino) fs.disk y) :
    SameBlock (place ino).bs fs.disk (withEntry place heap fs ino target x last name).disk y := by
  obtain ⟨hfree, hne⟩ := h.dir.index y hy
  exact afterPlace_same h.table h.inoValid h.targetValid hfree (h.first ▸ hne)

theorem follow_doubly (h : Fits count place fs ino target name x init last) (heap : Nat → UInt8)
    {c : Nat} (hc : c < (place ino).ppb) :
    (place ino).follow (withEntry place heap fs ino target x last name).disk
        ((place ino).doubly fs.disk) c =
      (place ino).follow fs.disk ((place ino).doubly fs.disk) c :=
  InodePlace.follow_same (fun h0 => h.index_same heap ⟨h0, .inr (.inl rfl)⟩) hc

theorem ptr_eq (h : Fits count place fs ino target name x init last) (heap : Nat → UInt8)
    (hb : b < (place ino).reach) :
    (place ino).ptr (withEntry place heap fs ino target x last name).disk b =
      (place ino).ptr fs.disk b := by
  by_cases h12 : b < 12
  · exact afterPlace_ptr h.table h.inoValid h.targetValid h.tableFree h.inoValid.1 h.inoValid.2 h12
  · by_cases hnear : b < (place ino).near
    · rw [InodePlace.ptr_singly (not_lt.mp h12) hnear, InodePlace.ptr_singly (not_lt.mp h12) hnear,
        h.singly_eq heap]
      rw [InodePlace.near] at hnear
      exact InodePlace.follow_same (fun h0 => h.index_same heap ⟨h0, .inl rfl⟩) (by omega)
    · have hlt : b - (place ino).near < (place ino).ppb * (place ino).ppb := by
        rw [InodePlace.reach] at hb
        omega
      have hpos : 0 < (place ino).ppb := Nat.pos_of_mul_pos_right (Nat.zero_lt_of_lt hlt)
      have hc : (b - (place ino).near) / (place ino).ppb < (place ino).ppb :=
        Nat.div_lt_of_lt_mul hlt
      rw [InodePlace.ptr_doubly (not_lt.mp hnear), InodePlace.ptr_doubly (not_lt.mp hnear),
        h.doubly_eq heap, h.follow_doubly heap hc]
      exact InodePlace.follow_same
        (fun h0 => h.index_same heap ⟨h0, .inr (.inr ⟨_, hc, rfl⟩)⟩) (Nat.mod_lt _ hpos)

theorem indexOf_iff (h : Fits count place fs ino target name x init last) (heap : Nat → UInt8)
    (y : Nat) :
    IndexOf (place ino) (withEntry place heap fs ino target x last name).disk y ↔
      IndexOf (place ino) fs.disk y := by
  rw [IndexOf, IndexOf, h.singly_eq heap, h.doubly_eq heap]
  refine and_congr_right fun _ => or_congr_right (or_congr_right ?_)
  exact exists_congr fun c => and_congr_right fun hc => by rw [h.follow_doubly heap hc]

/-! ### The entries -/

/-- The blocks after the first one keep their entries. -/
theorem rest_same (h : Fits count place fs ino target name x init last) (heap : Nat → UInt8)
    (hb : b < (place ino).reach) (hpos : b ≠ 0) (h0 : (place ino).ptr fs.disk b ≠ 0) :
    SameBlock (place ino).bs fs.disk (withEntry place heap fs ino target x last name).disk
      ((place ino).ptr fs.disk b) := by
  refine afterPlace_same h.table h.inoValid h.targetValid (h.dir.free b hb h0) fun heq => hpos ?_
  exact h.dir.inj b hb 0 (reach_pos _) h0 (heq.trans h.first.symm)

/-- The first block, with the new entry at its end. -/
theorem first_block (h : Fits count place fs ino target name x init last) (heap : Nat → UInt8)
    {new : Nat} (hnew : new = newOffset (blockBytes (place ino) fs.disk x) last) :
    LiveBlock (place ino) (withEntry place heap fs ino target x last name).disk x
        (init ++ [last] ++ [new]) ∧
      (∀ o ∈ init ++ [last],
        entryAt (blockBytes (place ino) (withEntry place heap fs ino target x last name).disk x) o =
          entryAt (blockBytes (place ino) fs.disk x) o) ∧
      entryAt (blockBytes (place ino) (withEntry place heap fs ino target x last name).disk x) new =
        ⟨target, name⟩ := by
  obtain ⟨htiles, hlive, hold, hentry⟩ :=
    withEntry_first heap h.table h.inoValid h.targetValid h.tableFree h.roomFor hnew
  obtain ⟨hoffs, hend⟩ := (h.tiles.aligned_iff rfl).mp h.firstLive.sizes
  refine ⟨⟨htiles, hlive, (htiles.aligned_iff rfl).mpr ⟨?_, hend⟩⟩, hold, hentry⟩
  intro o ho
  rcases List.mem_append.mp ho with ho | ho
  · exact hoffs o ho
  · obtain rfl := List.mem_singleton.mp ho
    have hlast : last % 4 = 0 := hoffs last (by simp)
    have hround := roundUp4_mod (direntMinLength (blockBytes (place ino) fs.disk x) last)
    rw [hnew, newOffset]
    omega

/-- Nothing changes in the blocks after the first one. -/
theorem hasEntry_rest (h : Fits count place fs ino target name x init last) (heap : Nat → UInt8)
    (hb : b < (place ino).reach) (hpos : b ≠ 0) {o : Nat} :
    HasEntry (place ino) (withEntry place heap fs ino target x last name).disk b o ↔
      HasEntry (place ino) fs.disk b o := by
  have hptr := h.ptr_eq heap hb
  by_cases h0 : (place ino).ptr fs.disk b = 0
  · rw [HasEntry, HasEntry, hptr, h0]
    simp
  · obtain ⟨offs, hblock⟩ := h.dir.blocks b hb h0
    obtain ⟨hblock', -⟩ := hblock.same (h.rest_same heap hb hpos h0)
    rw [hblock.hasEntry_iff h0]
    rw [← hptr] at h0 hblock'
    exact hblock'.hasEntry_iff h0

/-- The first block has one entry more. -/
theorem hasEntry_first (h : Fits count place fs ino target name x init last) (heap : Nat → UInt8)
    {new : Nat} (hnew : new = newOffset (blockBytes (place ino) fs.disk x) last) {o : Nat} :
    HasEntry (place ino) (withEntry place heap fs ino target x last name).disk 0 o ↔
      HasEntry (place ino) fs.disk 0 o ∨ o = new := by
  have hptr := (h.ptr_eq heap (reach_pos _)).trans h.first
  obtain ⟨hblock', -⟩ := h.first_block heap hnew
  have hblock := h.firstLive
  rw [← h.first] at hblock
  rw [hblock.hasEntry_iff (h.first.trans_ne h.ne_zero)]
  generalize (withEntry place heap fs ino target x last name).disk = d' at *
  have hne : (place ino).ptr d' 0 ≠ 0 := hptr.trans_ne h.ne_zero
  rw [← hptr] at hblock'
  rw [hblock'.hasEntry_iff hne, List.mem_append, List.mem_singleton]

/-- What was there is still there. -/
theorem entry_kept (h : Fits count place fs ino target name x init last) (heap : Nat → UInt8)
    (hb : b < (place ino).reach) {o : Nat} (ho : HasEntry (place ino) fs.disk b o) :
    HasEntry (place ino) (withEntry place heap fs ino target x last name).disk b o ∧
      dirEntry (place ino) (withEntry place heap fs ino target x last name).disk b o =
        dirEntry (place ino) fs.disk b o := by
  have hptr := h.ptr_eq heap hb
  rw [dirEntry, dirEntry, hptr]
  rcases Nat.eq_zero_or_pos b with rfl | hpos
  · obtain ⟨-, hold, -⟩ := h.first_block heap rfl
    refine ⟨(h.hasEntry_first heap rfl).mpr (.inl ho), ?_⟩
    have hblock := h.firstLive
    rw [← h.first] at hblock
    rw [h.first]
    exact hold o ((hblock.hasEntry_iff ho.1).mp ho)
  · obtain ⟨offs, hblock⟩ := h.dir.blocks b hb ho.1
    obtain ⟨-, hentries⟩ := hblock.same (h.rest_same heap hb hpos.ne' ho.1)
    exact ⟨(h.hasEntry_rest heap hb hpos.ne').mpr ho,
      hentries o ((hblock.hasEntry_iff ho.1).mp ho)⟩

theorem entry_new (h : Fits count place fs ino target name x init last) (heap : Nat → UInt8)
    {new : Nat} (hnew : new = newOffset (blockBytes (place ino) fs.disk x) last) :
    HasEntry (place ino) (withEntry place heap fs ino target x last name).disk 0 new ∧
      dirEntry (place ino) (withEntry place heap fs ino target x last name).disk 0 new =
        ⟨target, name⟩ := by
  obtain ⟨-, -, hentry⟩ := h.first_block heap hnew
  rw [dirEntry, h.ptr_eq heap (reach_pos _), h.first]
  exact ⟨(h.hasEntry_first heap hnew).mpr (.inr rfl), hentry⟩

/-- An entry is an old one, or the new one. -/
theorem entry_cases (h : Fits count place fs ino target name x init last) (heap : Nat → UInt8)
    {new : Nat} (hnew : new = newOffset (blockBytes (place ino) fs.disk x) last)
    (hb : b < (place ino).reach) {o : Nat}
    (ho : HasEntry (place ino) (withEntry place heap fs ino target x last name).disk b o) :
    HasEntry (place ino) fs.disk b o ∨ b = 0 ∧ o = new := by
  rcases Nat.eq_zero_or_pos b with rfl | hpos
  · exact ((h.hasEntry_first heap hnew).mp ho).imp_right fun heq => ⟨rfl, heq⟩
  · exact .inl ((h.hasEntry_rest heap hb hpos.ne').mp ho)

/-- The directory is well formed again. -/
theorem added (h : Fits count place fs ino target name x init last) (heap : Nat → UInt8) :
    LiveDir count place (place ino) (withEntry place heap fs ino target x last name).disk := by
  obtain ⟨new, hnew⟩ :
    ∃ new, new = newOffset (blockBytes (place ino) fs.disk x) last := ⟨_, rfl⟩
  obtain ⟨-, hnamed⟩ := h.entry_new heap hnew
  constructor
  case free =>
    intro b hb h0
    rw [h.ptr_eq heap hb] at h0 ⊢
    exact h.dir.free b hb h0
  case inj =>
    intro b hb c hc h0 heq
    rw [h.ptr_eq heap hb] at h0 heq
    rw [h.ptr_eq heap hc] at heq
    exact h.dir.inj b hb c hc h0 heq
  case index =>
    intro y hy
    rw [h.ptr_eq heap (reach_pos _)]
    exact h.dir.index y ((h.indexOf_iff heap y).mp hy)
  case blocks =>
    intro b hb h0
    rw [h.ptr_eq heap hb] at h0 ⊢
    rcases Nat.eq_zero_or_pos b with rfl | hpos
    · rw [h.first]
      exact ⟨_, (h.first_block heap hnew).1⟩
    · obtain ⟨offs, hblock⟩ := h.dir.blocks b hb h0
      exact ⟨offs, (hblock.same (h.rest_same heap hb hpos.ne' h0)).1⟩
  case names =>
    intro b hb o ho c hc o' ho' hname
    rcases h.entry_cases heap hnew hb ho with hold | ⟨rfl, rfl⟩ <;>
      rcases h.entry_cases heap hnew hc ho' with hold' | ⟨rfl, heq⟩
    · rw [(h.entry_kept heap hb hold).2, (h.entry_kept heap hc hold').2] at hname
      exact h.dir.names b hb o hold c hc o' hold' hname
    · subst heq
      rw [(h.entry_kept heap hb hold).2, hnamed] at hname
      exact absurd hname (h.fresh b hb o hold)
    · rw [(h.entry_kept heap hc hold').2, hnamed] at hname
      exact absurd hname.symm (h.fresh c hc o' hold')
    · exact ⟨rfl, heq.symm⟩

/-- The inodes are where they were. -/
theorem table_added (h : Fits count place fs ino target name x init last) (heap : Nat → UInt8) :
    InodeTable count place (withEntry place heap fs ino target x last name) :=
  h.table.placed h.cross h.inoValid h.targetValid h.tableFree

end Fits

section Fitting

variable {count ino target x last : Nat} {place : Nat → InodePlace} {fs : Ext2Fs}
  {init : List Nat} {name : List UInt8}

/-- **An entry that fits.** `ext2_place_dirent` leaves every block of the
directory tiled, with the old entries as they were; `ext2_read_directory` finds
the new name, and the old names of the first 12 blocks. -/
theorem ext2_place_fits (alloc : Ext2Fs → Int × Ext2Fs) (heap heap' : Nat → UInt8)
    (h : Fits count place fs ino target name x init last) :
    ∃ fs', ext2PlaceDirent alloc heap fs ino (ext2NewDirent target name) = some (0, fs') ∧
      LiveDir count place (place ino) fs'.disk ∧
      (∀ b < (place ino).reach, ∀ o, HasEntry (place ino) fs.disk b o →
        HasEntry (place ino) fs'.disk b o ∧
          dirEntry (place ino) fs'.disk b o = dirEntry (place ino) fs.disk b o) ∧
      ext2ReadDirectory heap' fs' ino name = some (target : Int) ∧
      ∀ b < 12, (∀ c < b, (place ino).ptr fs.disk c ≠ 0) → ∀ o, HasEntry (place ino) fs.disk b o →
        ext2ReadDirectory heap' fs' ino (dirEntry (place ino) fs.disk b o).name =
          some ((dirEntry (place ino) fs.disk b o).inode : Int) := by
  have hdir := h.added heap
  have htable := h.table_added heap
  refine ⟨withEntry place heap fs ino target x last name,
    ext2PlaceDirent_room alloc heap h.table h.inoValid h.targetValid h.tableFree h.roomFor, hdir,
    fun b hb o ho => h.entry_kept heap hb ho, ?_, fun b hb hfull o ho => ?_⟩
  · obtain ⟨hentry, hnamed⟩ := h.entry_new heap rfl
    have hread := hdir.read_entry heap' htable h.inoValid (by norm_num)
      (fun c hc => absurd hc (Nat.not_lt_zero c)) hentry
    rwa [hnamed] at hread
  · have hreach : b < (place ino).reach := hb.trans_le (twelve_le_reach _)
    obtain ⟨hentry, hkept⟩ := h.entry_kept heap hreach ho
    have hread := hdir.read_entry heap' htable h.inoValid hb
      (fun c hc => by rw [h.ptr_eq heap (hc.trans hreach)]; exact hfull c hc) hentry
    rwa [hkept] at hread

end Fitting

/-! ## A directory of 13 blocks -/

/-- Block `10 + i` of this disk: the first 12 blocks of the directory, each
with one entry, the block with the number of the next one, and this one. -/
def farBlock (i : Nat) : Nat → UInt8 :=
  if i = 12 then put32 (fun _ => 0) 0 23
  else if i ≤ 13 then put16 (ext2NewDirent 2 [UInt8.ofNat (97 + i)]) 4 1024
  else fun _ => 0

/-- A root directory of 13 blocks. -/
def farDisk : Nat → UInt8 := fun a =>
  if 10240 ≤ a then farBlock (a / 1024 - 10) (a % 1024)
  else put32 ((List.range 12).foldl (fun d i => put32 d (5248 + inoDbp + 4 * i) (10 + i))
    tableFs.disk) (5248 + inoSinglyBlock) 22 a

def farFs : Ext2Fs := setDisk tableFs farDisk

theorem farDisk_outside {a : Nat} (ha : a < 5248) : farDisk a = tableFs.disk a := by
  rw [farDisk, if_neg (by omega), put32_of_ne (by rw [inoSinglyBlock]; omega)]
  simp only [List.range_succ, List.range_zero, List.nil_append, List.cons_append, List.foldl_cons,
    List.foldl_nil]
  simp (disch := (rw [inoDbp]; omega)) only [put32_of_ne]

theorem farFs_table : InodeTable 8 smallPlace farFs :=
  smallPlace_table fun _ ha => farDisk_outside (by omega)

/-- What this disk has. -/
theorem farDisk_values :
    (∀ b < 13, (smallPlace 2).ptr farDisk b = if b = 12 then 23 else 10 + b) ∧
      (smallPlace 2).singly farDisk = 22 ∧ (smallPlace 2).doubly farDisk = 0 ∧
      (∀ k < 256, 0 < k → le32 farDisk (1024 * 22 + 4 * k) = 0) := by
  refine ⟨?_, ?_, ?_, ?_⟩ <;> decide +kernel

theorem farDisk_blocks : ∀ b < 13,
    Tiles (blockBytes (smallPlace 2) farDisk ((smallPlace 2).ptr farDisk b)) 0 [0] 1024 ∧
      dirEntry (smallPlace 2) farDisk b 0 = ⟨2, [UInt8.ofNat (97 + if b = 12 then 13 else b)]⟩ ∧
      entNamelength (blockBytes (smallPlace 2) farDisk ((smallPlace 2).ptr farDisk b)) 0 = 1 ∧
      entSize (blockBytes (smallPlace 2) farDisk ((smallPlace 2).ptr farDisk b)) 0 = 1024 := by
  decide +kernel

theorem farDisk_ptr {b : Nat} (h0 : (smallPlace 2).ptr farDisk b ≠ 0) : b < 13 := by
  obtain ⟨-, hsingly, hdoubly, hindex⟩ := farDisk_values
  by_contra hb
  refine h0 ?_
  by_cases hnear : b < (smallPlace 2).near
  · rw [InodePlace.ptr_singly (by omega) hnear, hsingly, InodePlace.follow, if_neg (by norm_num)]
    change b < 268 at hnear
    exact hindex (b - 12) (by omega) (by omega)
  · have hzero : ∀ c, (smallPlace 2).follow farDisk 0 c = 0 := fun c => if_pos rfl
    rw [InodePlace.ptr_doubly (not_lt.mp hnear), hdoubly, hzero, hzero]

/-- Its entries are at the starts of its blocks. -/
theorem farDisk_entry {b o : Nat} (h : HasEntry (smallPlace 2) farDisk b o) : b < 13 ∧ o = 0 := by
  obtain ⟨h0, offs, htiles, ho⟩ := h
  have hb := farDisk_ptr h0
  obtain ⟨hone, -⟩ := farDisk_blocks b hb
  obtain rfl := hone.unique htiles
  exact ⟨hb, List.mem_singleton.mp ho⟩

theorem farDisk_live {b : Nat} (hb : b < 13) :
    LiveBlock (smallPlace 2) farDisk ((smallPlace 2).ptr farDisk b) [0] := by
  obtain ⟨htiles, hentry, hlen, hsize⟩ := farDisk_blocks b hb
  rw [dirEntry] at hentry
  refine ⟨htiles, fun o ho => ?_, fun o ho => ?_⟩
  · obtain rfl := List.mem_singleton.mp ho
    rw [hentry, hlen]
    exact ⟨Nat.one_ne_zero, by norm_num, by norm_num⟩
  · obtain rfl := List.mem_singleton.mp ho
    rw [hsize]

/-- The names are different from each other, and from "A". -/
theorem farDisk_names : ∀ b < 13,
    (dirEntry (smallPlace 2) farDisk b 0).name ≠ [65] ∧
      ∀ c < 13, (dirEntry (smallPlace 2) farDisk b 0).name =
        (dirEntry (smallPlace 2) farDisk c 0).name → b = c := by
  have hletters : ∀ b < 13, [UInt8.ofNat (97 + if b = 12 then 13 else b)] ≠ [65] ∧
      ∀ c < 13, [UInt8.ofNat (97 + if b = 12 then 13 else b)] =
        [UInt8.ofNat (97 + if c = 12 then 13 else c)] → b = c := by decide +kernel
  intro b hb
  obtain ⟨-, hentry, -⟩ := farDisk_blocks b hb
  rw [hentry]
  refine ⟨(hletters b hb).1, fun c hc hname => (hletters b hb).2 c hc ?_⟩
  obtain ⟨-, hentry', -⟩ := farDisk_blocks c hc
  rwa [hentry'] at hname

theorem farDisk_dir : LiveDir 8 smallPlace (smallPlace 2) farDisk := by
  obtain ⟨hptr, hsingly, hdoubly, -⟩ := farDisk_values
  constructor
  case free =>
    intro b _ h0
    have hb := farDisk_ptr h0
    rw [hptr b hb]
    exact smallPlace_free (by split <;> omega)
  case inj =>
    intro b _ c _ h0 heq
    have hb := farDisk_ptr h0
    have hc := farDisk_ptr (heq ▸ h0)
    rw [hptr b hb, hptr c hc] at heq
    split at heq <;> split at heq <;> omega
  case index =>
    rintro y ⟨h0, rfl | rfl | ⟨c, -, rfl⟩⟩
    · rw [hsingly, hptr 0 (by norm_num)]
      exact ⟨smallPlace_free (by norm_num), by norm_num⟩
    · exact absurd hdoubly h0
    · rw [hdoubly] at h0
      exact absurd (if_pos rfl) h0
  case blocks => exact fun b _ h0 => ⟨[0], farDisk_live (farDisk_ptr h0)⟩
  case names =>
    intro b _ o ho c _ o' ho' hname
    obtain ⟨hb, rfl⟩ := farDisk_entry ho
    obtain ⟨hc, rfl⟩ := farDisk_entry ho'
    exact ⟨(farDisk_names b hb).2 c hc hname, rfl⟩

theorem farDisk_fits : Fits 8 smallPlace farFs 2 3 [65] 10 [] 0 where
  table := farFs_table
  cross k l _ _ _ _ j hj := by
    show (2056 + j) / 1024 ≠ 5
    omega
  inoValid := by norm_num
  targetValid := by norm_num
  dir := farDisk_dir
  first := farDisk_values.1 0 (by norm_num)
  ne_zero := by norm_num
  tiles := (farDisk_blocks 0 (by norm_num)).1
  named := by decide
  fresh b _ o ho := by
    obtain ⟨hb, rfl⟩ := farDisk_entry ho
    exact (farDisk_names b hb).1
  room := by decide +kernel

theorem ext2_place_fits_root :
    ∃ fs', ext2PlaceDirent allocBlock (fun _ => 0xCC) farFs 2 (ext2NewDirent 3 [65]) =
        some (0, fs') ∧
      LiveDir 8 smallPlace (smallPlace 2) fs'.disk ∧
      (∀ b < (smallPlace 2).reach, ∀ o, HasEntry (smallPlace 2) farFs.disk b o →
        HasEntry (smallPlace 2) fs'.disk b o ∧
          dirEntry (smallPlace 2) fs'.disk b o = dirEntry (smallPlace 2) farFs.disk b o) ∧
      ext2ReadDirectory (fun _ => 0xCC) fs' 2 [65] = some 3 ∧
      ∀ b < 12, (∀ c < b, (smallPlace 2).ptr farFs.disk c ≠ 0) →
        ∀ o, HasEntry (smallPlace 2) farFs.disk b o →
          ext2ReadDirectory (fun _ => 0xCC) fs' 2 (dirEntry (smallPlace 2) farFs.disk b o).name =
            some ((dirEntry (smallPlace 2) farFs.disk b o).inode : Int) :=
  ext2_place_fits allocBlock (fun _ => 0xCC) (fun _ => 0xCC) farDisk_fits

/-- The entry of block 12, which has a name and an inode, is not found. -/
theorem ext2_place_fits_far :
    Fits 8 smallPlace farFs 2 3 [65] 10 [] 0 ∧
      HasEntry (smallPlace 2) farFs.disk 12 0 ∧
      (dirEntry (smallPlace 2) farFs.disk 12 0).inode = 2 ∧
      ∃ fs', ext2PlaceDirent allocBlock (fun _ => 0xCC) farFs 2 (ext2NewDirent 3 [65]) =
          some (0, fs') ∧
        ext2ReadDirectory (fun _ => 0xCC) fs' 2 (dirEntry (smallPlace 2) farFs.disk 12 0).name =
          some (-enoent) := by
  have hfits := farDisk_fits
  obtain ⟨hptr, -⟩ := farDisk_values
  have hreach : 12 < (smallPlace 2).reach := by decide
  have hne : ∀ b < 13, (smallPlace 2).ptr farFs.disk b ≠ 0 := fun b hb => by
    rw [farFs, setDisk, hptr b hb]
    split <;> omega
  have hentry : HasEntry (smallPlace 2) farFs.disk 12 0 :=
    ⟨hne 12 (by norm_num), [0], (farDisk_blocks 12 (by norm_num)).1, List.mem_singleton_self 0⟩
  refine ⟨hfits, hentry, congrArg DirEntry.inode (farDisk_blocks 12 (by norm_num)).2.1, _,
    ext2PlaceDirent_room allocBlock (fun _ => 0xCC) hfits.table hfits.inoValid hfits.targetValid
      hfits.tableFree hfits.roomFor, ?_⟩
  obtain ⟨hkept, hsame⟩ := hfits.entry_kept (fun _ => 0xCC) hreach hentry
  have hread := (hfits.added (fun _ => 0xCC)).read_far (fun _ => 0xCC)
    (hfits.table_added _) hfits.inoValid (fun c hc => ?_) le_rfl hreach hkept
  · rwa [hsame] at hread
  · rw [hfits.ptr_eq _ (hc.trans hreach)]
    exact hne c (by omega)

end Levos.Fs
