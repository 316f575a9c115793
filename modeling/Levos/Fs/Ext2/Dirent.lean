import Levos.Fs.Ext2.Disk

/-!
# The entries of a directory block (`fs/ext2/dir.c`)

A block of a directory is a sequence of records, each of which has the number
of an inode, its own size, and a name. `Tiles` says that the records fill a
block exactly. `placeInBlock` is what `__ext2_place_dirent` does to a block
that exists: the last record gives up what it does not need, and the new one
takes it.
-/

namespace Levos.Fs

open Levos.Base

/-! ## `struct ext2_dir` -/

/-- `sizeof(struct ext2_dir)`. -/
def direntHeader : Nat := 8

def entInode (b : Nat → UInt8) (o : Nat) : Nat := le32 b o

def entSize (b : Nat → UInt8) (o : Nat) : Nat := le16 b (o + 4)

def entNamelength (b : Nat → UInt8) (o : Nat) : Nat := (b (o + 6)).toNat

/-- The bytes after the header. -/
def entName (b : Nat → UInt8) (o : Nat) : List UInt8 :=
  (List.range (entNamelength b o)).map fun j => b (o + (direntHeader + j))

/-- `__get_dirent_min_length`. -/
def direntMinLength (b : Nat → UInt8) (o : Nat) : Nat := direntHeader + entNamelength b o

/-- What a loop `while (n % 4) n ++` ends with. -/
def roundUp4 (n : Nat) : Nat := n + (4 - n % 4) % 4

/-- The `rec_len` of `ext2_new_dirent`. -/
def recLen (name : List UInt8) : Nat := roundUp4 (direntHeader + name.length + 1)

/-- `ext2_new_dirent`. -/
def ext2NewDirent (inode : Nat) (name : List UInt8) : Nat → UInt8 :=
  let buf : Nat → UInt8 := fun _ => 0
  let buf := put16 (put32 buf 0 inode) 4 (recLen name)
  let buf := Function.update buf 6 (UInt8.ofNat name.length)
  writeBytes buf direntHeader name.length fun j => name.getD j 0

/-! ## Placing an entry in a block -/

/-- `__ext2_find_largest_dirent_space`, from offset `off` on: the entry that
reaches the end of the block. The outer `none` is the panic on a size of zero,
the inner one the result -1. -/
def findLargestSpace (b : Nat → UInt8) (bs : Nat) : Nat → Nat → Option (Option Nat)
  | 0, _ => some none
  | n + 1, off =>
      if off < bs then
        if entSize b off = 0 then none
        else if off + entSize b off ≥ bs then some (some off)
        else findLargestSpace b bs n (off + entSize b off)
      else some none

/-- `__maximize_dirent`: the size, a `uint16_t`, with which the entry at `soff`
ends with a block. It has at most 65536 values, so that a loop that goes on
for longer does not end (`none`). -/
def maximizeDirent (soff bs : Nat) : Nat → Nat → Option Nat
  | 0, _ => none
  | n + 1, size =>
      if (soff + size) % bs = 0 then some size else maximizeDirent soff bs n ((size + 1) % 65536)

/-- `__minimize_dirent`. -/
def minimizeDirent (b : Nat → UInt8) (o : Nat) : Nat → UInt8 :=
  put16 b (o + 4) (roundUp4 (direntMinLength b o))

/-- Case 1.2 of `__ext2_place_dirent`: the new contents of the block, or
`none` to go on with the next block. -/
def placeInBlock (bs : Nat) (b dirent : Nat → UInt8) : Option (Option (Nat → UInt8)) :=
  (findLargestSpace b bs bs 0).bind fun found =>
    match found with
    | none => some none
    | some before =>
        if before + entSize b before ≥ bs then
          let b := minimizeDirent b before
          let new := before + entSize b before
          let b := writeBytes b new (direntMinLength dirent 0) dirent
          (maximizeDirent new bs 65536 (entSize b new)).map fun size => some (put16 b (new + 4) size)
        else some none

/-- Case 1.1: the contents of a new block. -/
def firstBlock (bs : Nat) (dirent : Nat → UInt8) : Nat → UInt8 :=
  writeBytes (fun _ => 0) 0 (direntMinLength dirent 0) (put16 dirent 4 bs)

/-! ## Looking for a name in a block -/

/-- The loop of `ext2_read_directory` over the entries of a block: the inode
number of the entry called `f`. -/
def scanBlock (f : List UInt8) (b : Nat → UInt8) (bs : Nat) : Nat → Nat → Option Nat
  | 0, _ => none
  | n + 1, r =>
      if r < bs then
        if entName b r = f then some (entInode b r)
        else if entSize b r = 0 ∨ entNamelength b r = 0 then none
        else scanBlock f b bs n (r + entSize b r)
      else none

/-! ## Tilings -/

/-- The entries at `offs` fill the bytes from `lo` to `hi`. -/
def Tiles (b : Nat → UInt8) : Nat → List Nat → Nat → Prop
  | lo, [], hi => lo = hi
  | lo, o :: offs, hi => o = lo ∧ direntMinLength b o ≤ entSize b o ∧ Tiles b (o + entSize b o) offs hi

instance decidableTiles (b : Nat → UInt8) :
    ∀ lo offs hi, Decidable (Tiles b lo offs hi)
  | lo, [], hi => inferInstanceAs (Decidable (lo = hi))
  | _, o :: offs, hi =>
      have := decidableTiles b (o + entSize b o) offs hi
      inferInstanceAs (Decidable (_ ∧ _ ∧ _))

/-- An entry without its size. -/
structure DirEntry where
  inode : Nat
  name : List UInt8
deriving DecidableEq

def entryAt (b : Nat → UInt8) (o : Nat) : DirEntry := ⟨entInode b o, entName b o⟩

variable {b b' dirent : Nat → UInt8} {lo hi o bs : Nat} {offs : List Nat}

theorem le_roundUp4 (n : Nat) : n ≤ roundUp4 n := Nat.le_add_right _ _

theorem roundUp4_mod (n : Nat) : roundUp4 n % 4 = 0 := by
  rw [roundUp4]
  omega

theorem roundUp4_lt (n : Nat) : roundUp4 n < n + 4 := by
  rw [roundUp4]
  omega

theorem direntMinLength_pos (b : Nat → UInt8) (o : Nat) : 8 ≤ direntMinLength b o :=
  Nat.le_add_right _ _

theorem direntMinLength_lt (b : Nat → UInt8) (o : Nat) : direntMinLength b o < 264 := by
  have h := (b (o + 6)).toNat_lt
  rw [direntMinLength, entNamelength, direntHeader]
  omega

theorem Tiles.le (h : Tiles b lo offs hi) : lo ≤ hi := by
  induction offs generalizing lo with
  | nil => exact (show lo = hi from h).le
  | cons o offs ih =>
    obtain ⟨rfl, -, hrest⟩ := h
    exact (Nat.le_add_right _ _).trans (ih hrest)

/-- Where the entries of a tiling are. -/
theorem Tiles.bounds (h : Tiles b lo offs hi) (ho : o ∈ offs) :
    lo ≤ o ∧ direntMinLength b o ≤ entSize b o ∧ o + entSize b o ≤ hi := by
  induction offs generalizing lo with
  | nil => cases ho
  | cons o' offs ih =>
    obtain ⟨rfl, hsize, hrest⟩ := h
    rcases List.mem_cons.mp ho with rfl | ho
    · exact ⟨le_rfl, hsize, hrest.le⟩
    · obtain ⟨hlo, hmin, hhi⟩ := ih hrest ho
      exact ⟨(Nat.le_add_right _ _).trans hlo, hmin, hhi⟩

theorem Tiles.append {mid : Nat} {offs' : List Nat} (h : Tiles b lo offs mid)
    (h' : Tiles b mid offs' hi) : Tiles b lo (offs ++ offs') hi := by
  induction offs generalizing lo with
  | nil =>
    obtain rfl : lo = mid := h
    exact h'
  | cons o offs ih =>
    obtain ⟨rfl, hsize, hrest⟩ := h
    exact ⟨rfl, hsize, ih hrest⟩

/-- A tiling is cut at the start of an entry. -/
theorem Tiles.split {offs' : List Nat} (h : Tiles b lo (offs ++ offs') hi) :
    ∃ mid, Tiles b lo offs mid ∧ Tiles b mid offs' hi := by
  induction offs generalizing lo with
  | nil => exact ⟨lo, rfl, h⟩
  | cons o offs ih =>
    obtain ⟨rfl, hsize, hrest⟩ := h
    obtain ⟨mid, hfst, hsnd⟩ := ih hrest
    exact ⟨mid, ⟨rfl, hsize, hfst⟩, hsnd⟩

/-- Only the headers count. -/
theorem Tiles.congr (h : Tiles b lo offs hi)
    (hb : ∀ o ∈ offs, entSize b' o = entSize b o ∧ entNamelength b' o = entNamelength b o) :
    Tiles b' lo offs hi := by
  induction offs generalizing lo with
  | nil => exact h
  | cons o offs ih =>
    obtain ⟨rfl, hsize, hrest⟩ := h
    obtain ⟨hs, hn⟩ := hb o List.mem_cons_self
    refine ⟨rfl, ?_, ?_⟩
    · rw [direntMinLength, hn, hs]
      exact hsize
    · rw [hs]
      exact ih hrest fun o ho => hb o (List.mem_cons_of_mem _ ho)

/-- The walk over the entries is the only one: a tiling goes on where a shorter
one ends. -/
theorem Tiles.extends {mid : Nat} {offs' : List Nat} (h : Tiles b lo offs mid)
    (h' : Tiles b lo offs' hi) (hle : mid ≤ hi) : ∃ rest, offs' = offs ++ rest ∧ Tiles b mid rest hi := by
  induction offs generalizing lo offs' with
  | nil =>
    obtain rfl : lo = mid := h
    exact ⟨offs', rfl, h'⟩
  | cons o offs ih =>
    obtain ⟨rfl, hmin, hrest⟩ := h
    cases offs' with
    | nil =>
      obtain rfl : o = hi := h'
      have hpos := direntMinLength_pos b o
      have hend := hrest.le
      omega
    | cons o' offs' =>
      obtain ⟨rfl, -, hrest'⟩ := h'
      obtain ⟨rest, rfl, htail⟩ := ih hrest hrest'
      exact ⟨rest, rfl, htail⟩

theorem Tiles.unique {offs' : List Nat} (h : Tiles b lo offs hi) (h' : Tiles b lo offs' hi) :
    offs' = offs := by
  obtain ⟨rest, rfl, hrest⟩ := h.extends h' le_rfl
  cases rest with
  | nil => exact List.append_nil offs
  | cons o rest =>
    obtain ⟨rfl, hmin, htail⟩ := hrest
    have hpos := direntMinLength_pos b o
    have hend := htail.le
    omega

/-! ## Entries that stay -/

/-- The bytes of an entry that say which inode has which name. -/
theorem entry_congr {o' : Nat}
    (h : ∀ j < direntMinLength b o, j < 4 ∨ 6 ≤ j → b' (o' + j) = b (o + j)) :
    entryAt b' o' = entryAt b o ∧ entNamelength b' o' = entNamelength b o := by
  have hpos := direntMinLength_pos b o
  have hlen : entNamelength b' o' = entNamelength b o :=
    congrArg UInt8.toNat (h 6 (by omega) (.inr le_rfl))
  have hinode : entInode b' o' = entInode b o :=
    le32_congr fun k hk => h k (by omega) (.inl hk)
  have hname : entName b' o' = entName b o := by
    rw [entName, entName, hlen]
    refine List.map_congr_left fun j hj => ?_
    rw [List.mem_range] at hj
    exact h _ (by rw [direntMinLength]; omega) (.inr (by rw [direntHeader]; omega))
  exact ⟨by rw [entryAt, entryAt, hinode, hname], hlen⟩

theorem entSize_congr (h₀ : b' (o + 4) = b (o + 4)) (h₁ : b' (o + 5) = b (o + 5)) :
    entSize b' o = entSize b o := le16_congr h₀ h₁

/-- A tiling only reads the bytes it covers. -/
theorem Tiles.of_bytes (h : Tiles b lo offs hi)
    (hb : ∀ j, lo ≤ j → j < hi → b' j = b j) :
    Tiles b' lo offs hi ∧ ∀ o ∈ offs, entryAt b' o = entryAt b o ∧
      entNamelength b' o = entNamelength b o ∧ entSize b' o = entSize b o := by
  have hsame : ∀ o ∈ offs, entryAt b' o = entryAt b o ∧
      entNamelength b' o = entNamelength b o ∧ entSize b' o = entSize b o := by
    intro o ho
    obtain ⟨hlo, hmin, hhi⟩ := h.bounds ho
    have hpos := direntMinLength_pos b o
    obtain ⟨hentry, hlen⟩ := entry_congr (b := b) fun j hj _ => hb (o + j) (by omega) (by omega)
    exact ⟨hentry, hlen, entSize_congr (hb _ (by omega) (by omega)) (hb _ (by omega) (by omega))⟩
  exact ⟨h.congr fun o ho => (hsame o ho).2.symm, hsame⟩

/-! ## A new entry -/

section NewDirent

variable {inode : Nat} {name : List UInt8}

theorem newDirent_header {j : Nat} (hj : j < 8) : ext2NewDirent inode name j =
    if j = 6 then UInt8.ofNat name.length
    else put16 (put32 (fun _ => 0) 0 inode) 4 (recLen name) j := by
  rw [ext2NewDirent, writeBytes_of_not_mem (by rw [direntHeader]; omega), Function.update_apply]

theorem newDirent_name (j : Nat) (hj : j < name.length) :
    ext2NewDirent inode name (direntHeader + j) = name.getD j 0 := by
  rw [ext2NewDirent, writeBytes_of_mem (by omega), Nat.add_sub_cancel_left]

theorem newDirent_minLength (h : name.length ≤ 255) :
    direntMinLength (ext2NewDirent inode name) 0 = direntHeader + name.length := by
  rw [direntMinLength, entNamelength, Nat.zero_add, newDirent_header (by norm_num), if_pos rfl,
    UInt8.toNat_ofNat', Nat.mod_eq_of_lt (by omega)]

theorem newDirent_size (h : name.length ≤ 255) :
    entSize (ext2NewDirent inode name) 0 = recLen name := by
  have hlt : recLen name < 65536 := by
    have := roundUp4_lt (direntHeader + name.length + 1)
    rw [recLen]
    rw [direntHeader] at this ⊢
    omega
  rw [entSize, ← le16_put16 (put32 (fun _ => 0) 0 inode) 4 hlt]
  apply le16_congr
  · rw [newDirent_header (by norm_num), if_neg (by norm_num)]
  · rw [newDirent_header (by norm_num), if_neg (by norm_num)]

theorem newDirent_inode (hi : inode < 2 ^ 32) (name : List UInt8) :
    entInode (ext2NewDirent inode name) 0 = inode := by
  refine Eq.trans (le32_congr fun k hk => ?_) (le32_put32 (fun _ => 0) 0 hi)
  rw [newDirent_header (by omega), if_neg (by omega), put16_of_ne (by omega)]

/-- What was asked for. -/
theorem newDirent_entry (hi : inode < 2 ^ 32) (h : name.length ≤ 255) :
    entryAt (ext2NewDirent inode name) 0 = ⟨inode, name⟩ := by
  have hinode := newDirent_inode hi name
  have hlen : entNamelength (ext2NewDirent inode name) 0 = name.length :=
    Nat.add_left_cancel (newDirent_minLength h)
  have hname : entName (ext2NewDirent inode name) 0 = name := by
    apply List.ext_getElem
    · rw [entName, List.length_map, List.length_range, hlen]
    · intro j hj hj'
      simp only [entName, List.getElem_map, List.getElem_range, Nat.zero_add]
      rw [newDirent_name j hj', List.getD_eq_getElem?_getD, List.getElem?_eq_getElem hj',
        Option.getD_some]
  rw [entryAt, hinode, hname]

end NewDirent

/-- The only entry of a new block has the whole block for itself, as far as
its size can be stored. -/
theorem firstBlock_header (bs : Nat) (dirent : Nat → UInt8) :
    entSize (firstBlock bs dirent) 0 = bs % 65536 ∧
      direntMinLength (firstBlock bs dirent) 0 = direntMinLength dirent 0 := by
  have hpos := direntMinLength_pos dirent 0
  have hbyte : ∀ j < 8, firstBlock bs dirent j = put16 dirent 4 bs j := fun j hj => by
    rw [firstBlock, writeBytes_of_mem (by omega), Nat.sub_zero]
  constructor
  · exact (entSize_congr (hbyte 4 (by norm_num)) (hbyte 5 (by norm_num))).trans
      (le16_put16_mod dirent 4 bs)
  · have hlen : firstBlock bs dirent 6 = dirent 6 := by
      rw [hbyte 6 (by norm_num), put16_of_ne (by norm_num)]
    rw [direntMinLength, direntMinLength, entNamelength, entNamelength, hlen]

/-! ## The loops -/

/-- The entry that reaches the end is the last one. -/
theorem findLargestSpace_eq {last n : Nat} {init : List Nat} (h : Tiles b lo init last)
    (hmin : direntMinLength b last ≤ entSize b last) (hend : last + entSize b last = bs)
    (hn : bs ≤ lo + n) : findLargestSpace b bs n lo = some (some last) := by
  have hlast := direntMinLength_pos b last
  induction n generalizing lo init with
  | zero =>
    have := h.le
    omega
  | succ n ih =>
    rw [findLargestSpace]
    cases init with
    | nil =>
      obtain rfl : lo = last := h
      rw [if_pos (by omega), if_neg (by omega), if_pos (by omega)]
    | cons o init =>
      obtain ⟨rfl, hsize, hrest⟩ := h
      have hle := hrest.le
      have hpos := direntMinLength_pos b o
      rw [if_pos (by omega), if_neg (by omega), if_neg (by omega)]
      exact ih hrest (by omega)

/-- The loop stops at the first size that ends a block. -/
theorem maximizeDirent_eq {soff n size t : Nat} (hle : size ≤ t) (ht : t < 65536)
    (hend : (soff + t) % bs = 0) (hfirst : ∀ u, size ≤ u → u < t → (soff + u) % bs ≠ 0)
    (hn : t < size + n) : maximizeDirent soff bs n size = some t := by
  induction n generalizing size with
  | zero => omega
  | succ n ih =>
    rw [maximizeDirent]
    rcases hle.eq_or_lt with rfl | hlt
    · rw [if_pos hend]
    · rw [if_neg (hfirst size le_rfl hlt), Nat.mod_eq_of_lt (by omega)]
      exact ih hlt (fun u hu => hfirst u (by omega)) (by omega)

/-- Up to the end of the block it starts in. -/
theorem maximizeDirent_fits {soff size : Nat} (hpos : 0 < size) (hfit : soff + size ≤ bs)
    (hlt : bs < soff + 65536) : maximizeDirent soff bs 65536 size = some (bs - soff) := by
  refine maximizeDirent_eq (by omega) (by omega) ?_ ?_ (by omega)
  · rw [Nat.add_sub_cancel' (by omega), Nat.mod_self]
  · intro u hu hlt
    rw [Nat.mod_eq_of_lt (by omega)]
    omega

/-- An entry that starts in the block and does not fit grows to the end of the
next one. -/
theorem maximizeDirent_overflows {soff size : Nat} (hover : bs < soff + size)
    (hend : soff + size ≤ 2 * bs) (hlt : 2 * bs < soff + 65536) :
    maximizeDirent soff bs 65536 size = some (2 * bs - soff) := by
  refine maximizeDirent_eq (by omega) (by omega) ?_ ?_ (by omega)
  · rw [Nat.add_sub_cancel' (by omega), Nat.mul_mod_left]
  · intro u hu hlt
    rw [Nat.mod_eq_sub_mod (by omega), Nat.mod_eq_of_lt (by omega)]
    omega

/-! ## The block with a new entry -/

/-- Where the new entry is: after what the last one needs. -/
def newOffset (b : Nat → UInt8) (last : Nat) : Nat := last + roundUp4 (direntMinLength b last)

/-- The block after `placeInBlock` with the size of the new entry. -/
def placedBlock (b dirent : Nat → UInt8) (last size : Nat) : Nat → UInt8 :=
  put16 (writeBytes (minimizeDirent b last) (newOffset b last) (direntMinLength dirent 0) dirent)
    (newOffset b last + 4) size

section Placed

variable {last size : Nat} {init : List Nat}

theorem minimizeDirent_size (b : Nat → UInt8) (o : Nat) :
    entSize (minimizeDirent b o) o = roundUp4 (direntMinLength b o) := by
  have h₀ := direntMinLength_lt b o
  have h₁ := roundUp4_lt (direntMinLength b o)
  exact le16_put16 _ _ (by omega)

/-- Before the new entry only the size of the last one changes. -/
theorem placedBlock_old {j : Nat} (hj : j < newOffset b last) (h : j < last + 4 ∨ last + 6 ≤ j) :
    placedBlock b dirent last size j = b j := by
  rw [placedBlock, put16_of_ne (by omega), writeBytes_of_not_mem (.inl hj), minimizeDirent,
    put16_of_ne h]

theorem placedBlock_new {j : Nat} (hj : j < direntMinLength dirent 0) (h : j < 4 ∨ 6 ≤ j) :
    placedBlock b dirent last size (newOffset b last + j) = dirent j := by
  rw [placedBlock, put16_of_ne (by omega), writeBytes_of_mem (by omega), Nat.add_sub_cancel_left]

theorem newOffset_ge (b : Nat → UInt8) (last : Nat) :
    last + direntMinLength b last ≤ newOffset b last ∧ newOffset b last < last + 268 := by
  have h₀ := le_roundUp4 (direntMinLength b last)
  have h₁ := roundUp4_lt (direntMinLength b last)
  have h₂ := direntMinLength_lt b last
  rw [newOffset]
  omega

theorem placedBlock_last (b dirent : Nat → UInt8) (last size : Nat) :
    entryAt (placedBlock b dirent last size) last = entryAt b last ∧
      entNamelength (placedBlock b dirent last size) last = entNamelength b last ∧
      entSize (placedBlock b dirent last size) last = roundUp4 (direntMinLength b last) := by
  obtain ⟨hge, -⟩ := newOffset_ge b last
  have hpos := direntMinLength_pos b last
  obtain ⟨hentry, hlen⟩ :
      entryAt (placedBlock b dirent last size) last = entryAt b last ∧
        entNamelength (placedBlock b dirent last size) last = entNamelength b last :=
    entry_congr fun j hj h => placedBlock_old (by omega) (by omega)
  refine ⟨hentry, hlen, ?_⟩
  have hold : ∀ j < newOffset b last, placedBlock b dirent last size j = minimizeDirent b last j :=
    fun j hj => by rw [placedBlock, put16_of_ne (by omega), writeBytes_of_not_mem (.inl hj)]
  rw [entSize_congr (hold _ (by omega)) (hold _ (by omega)), minimizeDirent_size]

/-- The new entry has the inode and the name that were asked for. -/
theorem placedBlock_entry :
    entryAt (placedBlock b dirent last size) (newOffset b last) = entryAt dirent 0 ∧
      entNamelength (placedBlock b dirent last size) (newOffset b last) = entNamelength dirent 0 :=
  entry_congr fun j hj h => by rw [placedBlock_new hj h, Nat.zero_add]

theorem placedBlock_size (hsize : size < 65536) :
    entSize (placedBlock b dirent last size) (newOffset b last) = size := le16_put16 _ _ hsize

/-- All old entries are where they were, with the same inodes and names. -/
theorem placedBlock_entries (dirent : Nat → UInt8) (size : Nat) (h : Tiles b lo init last) {o : Nat}
    (ho : o ∈ init ++ [last]) :
    entryAt (placedBlock b dirent last size) o = entryAt b o ∧
      entNamelength (placedBlock b dirent last size) o = entNamelength b o ∧
      (o ∈ init → entSize (placedBlock b dirent last size) o = entSize b o) := by
  obtain ⟨hge, -⟩ := newOffset_ge b last
  have hpos := direntMinLength_pos b last
  by_cases hinit : o ∈ init
  · obtain ⟨-, hmin, hend⟩ := h.bounds hinit
    have hpos' := direntMinLength_pos b o
    obtain ⟨hentry, hlen⟩ :
        entryAt (placedBlock b dirent last size) o = entryAt b o ∧
          entNamelength (placedBlock b dirent last size) o = entNamelength b o :=
      entry_congr fun j hj _ => placedBlock_old (by omega) (by omega)
    refine ⟨hentry, hlen, fun _ => entSize_congr ?_ ?_⟩
    · exact placedBlock_old (by omega) (by omega)
    · exact placedBlock_old (by omega) (by omega)
  · obtain rfl : o = last := by simpa [hinit] using ho
    obtain ⟨hentry, hlen, -⟩ := placedBlock_last b dirent o size
    exact ⟨hentry, hlen, fun h => absurd h hinit⟩

/-- The entries up to the new one fill the bytes before it. -/
theorem placedBlock_tiles (dirent : Nat → UInt8) (size : Nat) (h : Tiles b lo init last) :
    Tiles (placedBlock b dirent last size) lo (init ++ [last]) (newOffset b last) := by
  have hinit : Tiles (placedBlock b dirent last size) lo init last := h.congr fun o ho => by
    obtain ⟨-, hlen, hsize⟩ := placedBlock_entries dirent size h (List.mem_append_left [last] ho)
    exact ⟨hsize ho, hlen⟩
  obtain ⟨-, hlen, hsize⟩ := placedBlock_last b dirent last size
  refine hinit.append ⟨rfl, ?_, ?_⟩
  · rw [hsize, direntMinLength, hlen]
    exact le_roundUp4 _
  · rw [hsize]
    rfl

/-- What `placeInBlock` does to a block that is tiled. -/
theorem placeInBlock_eq (h : Tiles b 0 init last) (hmin : direntMinLength b last ≤ entSize b last)
    (hend : last + entSize b last = bs) : placeInBlock bs b dirent =
      (maximizeDirent (newOffset b last) bs 65536 (entSize dirent 0)).map fun size =>
        some (placedBlock b dirent last size) := by
  have hpos := direntMinLength_pos b last
  have hdirent := direntMinLength_pos dirent 0
  have hnew : last + entSize (minimizeDirent b last) last = newOffset b last := by
    rw [minimizeDirent_size, newOffset]
  have hsize : entSize (writeBytes (minimizeDirent b last) (newOffset b last)
      (direntMinLength dirent 0) dirent) (newOffset b last) = entSize dirent 0 := by
    have hbyte : ∀ j < 8, writeBytes (minimizeDirent b last) (newOffset b last)
        (direntMinLength dirent 0) dirent (newOffset b last + j) = dirent (0 + j) := fun j hj => by
      rw [writeBytes_of_mem (by omega), Nat.add_sub_cancel_left, Nat.zero_add]
    exact le16_congr (hbyte 4 (by norm_num)) (hbyte 5 (by norm_num))
  rw [placeInBlock, findLargestSpace_eq h hmin hend (by omega), Option.bind_some]
  dsimp only
  rw [if_pos hend.ge, hnew, hsize]
  rfl

end Placed

/-! ## Finding a name -/

/-- In a block of entries with names the first one called `f` is found. -/
theorem scanBlock_eq {f : List UInt8} {n : Nat} (h : Tiles b lo offs bs)
    (hnamed : ∀ o ∈ offs, entNamelength b o ≠ 0) (hn : bs ≤ lo + n) :
    scanBlock f b bs n lo = (offs.find? fun o => entName b o = f).map (entInode b) := by
  induction n generalizing lo offs with
  | zero =>
    cases offs with
    | nil => rfl
    | cons o offs =>
      obtain ⟨rfl, hmin, hrest⟩ := h
      have hpos := direntMinLength_pos b o
      have hle := hrest.le
      omega
  | succ n ih =>
    rw [scanBlock]
    cases offs with
    | nil =>
      obtain rfl : lo = bs := h
      rw [if_neg (lt_irrefl _)]
      rfl
    | cons o offs =>
      obtain ⟨rfl, hmin, hrest⟩ := h
      have hpos := direntMinLength_pos b o
      have hle := hrest.le
      rw [if_pos (by omega)]
      by_cases hname : entName b o = f
      · rw [if_pos hname, List.find?_cons_of_pos (by simpa using hname), Option.map_some]
      · have hlen := hnamed o List.mem_cons_self
        rw [if_neg hname, if_neg (by omega), List.find?_cons_of_neg (by simpa using hname)]
        exact ih hrest (fun o ho => hnamed o (List.mem_cons_of_mem _ ho)) (by omega)

end Levos.Fs
