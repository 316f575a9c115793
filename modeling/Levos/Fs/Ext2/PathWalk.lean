import Levos.Fs.Ext2.Filldir

/-!
# Following a path (`fs/ext2/file.c`, `fs/ext2/dir.c`)

`ext2_read_directory` reads any inode as a directory: its check of the type
never fires. Within a directory it gets to the entries of the first 12 blocks
up to one without a name, which ends its block, or the search if it is the
first of its block; a dead entry that has the name answers for it; and past
the last block it reads block 0. `find_path_iff` says for which paths through
a tree of directories that makes no difference.
-/

namespace Levos.Fs

open Levos.Base Levos.Kernel

/-! ## Trees of directories -/

/-- A directory: its direct blocks, and the entries of the blocks behind the
indirect pointers. -/
structure TreeDir where
  blocks : List DirBlock
  indirect : List DirEntry

variable (heap : Nat → UInt8) (fs : Ext2Fs)

/-- The entries of a directory, dead ones included. -/
def TreeDir.entries (dir : TreeDir) : List DirEntry :=
  (dir.blocks.flatMap fun B => B.offs.map (entryAt (readNewBlock heap fs B.ptr))) ++ dir.indirect

/-- The inode number of the live entry called `t`. -/
def TreeDir.lookup (dir : TreeDir) (t : List UInt8) : Option Nat :=
  ((dir.entries heap fs).find? fun e => e.inode ≠ 0 ∧ e.name = t).map DirEntry.inode

/-- The inode a path leads to in a tree, by live entries of directories. -/
def treeLookup (tree : Nat → Option TreeDir) : List (List UInt8) → Nat → Option Nat
  | [], ino => some ino
  | t :: ts, ino =>
      (tree ino).bind fun dir => (dir.lookup heap fs t).bind (treeLookup tree ts)

/-- `n` is the root, or named by a directory. -/
def InTree (tree : Nat → Option TreeDir) (n : Nat) : Prop :=
  n = 2 ∨ ∃ ino dir t, tree ino = some dir ∧ dir.lookup heap fs t = some n

/-- The directories of the tree are on disk, as the inodes with this type, and
entries fill their blocks. Where the kernel finds no group descriptor it reads
some other inode, of which nothing is said. -/
structure TreeOnDisk (tree : Nat → Option TreeDir) : Prop where
  blocksize : 0 < fs.blocksize
  root : (tree 2).isSome
  dirs : ∀ ino dir, tree ino = some dir → HasDescriptor fs ino → DirBlocks heap fs ino dir.blocks
  types : ∀ n, InTree heap fs tree n → HasDescriptor fs n →
    ((tree n).isSome ↔ le16 (reReadInode fs heap n) inoType &&& 0xF000 = sIfdir)
  full : ∀ ino dir, tree ino = some dir → dir.blocks.length < 12 → dir.indirect = []

/-! ## What is to be proved -/

/-- The lookups of `ext2_find_file_inode`: the inode read as a directory, the
name, and the result. -/
def lookups : List (List UInt8) → Nat → List (Nat × List UInt8 × Option Int)
  | [], _ => []
  | t :: ts, ino =>
      (ino, t, ext2ReadDirectory heap fs ino t) ::
        match ext2ReadDirectory heap fs ino t with
        | none => []
        | some r => if r < 0 then [] else lookups ts r.toNat

/-- A lookup in a directory that finds the inode of the live entry, or fails
without one. -/
def LookupRight (tree : Nat → Option TreeDir) (l : Nat × List UInt8 × Option Int) : Prop :=
  ∃ dir r, tree l.1 = some dir ∧ l.2.2 = some r ∧
    match dir.lookup heap fs l.2.1 with
    | some n => r = n
    | none => r < 0

/-- The path leads where it should, component by component: only directories
are read as such, and all lookups are right. -/
structure PathRight (tree : Nat → Option TreeDir) (path : List UInt8) : Prop where
  result : ∃ r, ext2FindFileInode heap fs path = some r ∧
    match treeLookup heap fs tree (pathTokens path) 2 with
    | some ino => r = ino
    | none => r < 0
  steps : ∀ l ∈ lookups heap fs (pathTokens path) 2, LookupRight heap fs tree l

/-- What the scan of block 0 finds. -/
def bootFinds (t : List UInt8) : Option Nat :=
  let b := readNewBlock heap fs 0
  if entSize b 0 = 0 ∨ entNamelength b 0 = 0 then none
  else scanBlock t b fs.blocksize fs.blocksize 0

/-- The entries of a block before one without a name. -/
def namedOffs (b : Nat → UInt8) (offs : List Nat) : List Nat :=
  offs.takeWhile fun o => entNamelength b o ≠ 0

/-- The inode number of the first entry called `t` that a search gets to, dead
or not, in these blocks and then, where a pointer of the 12 is unused, in
block 0. -/
def firstNamed (t : List UInt8) (unused : Bool) : List DirBlock → Option Nat
  | [] => if unused then bootFinds heap fs t else none
  | B :: Bs =>
      let b := readNewBlock heap fs B.ptr
      if entNamelength b 0 = 0 then none
      else
        match (namedOffs b B.offs).find? fun o => entName b o = t with
        | some o => some (entInode b o)
        | none => firstNamed t unused Bs

/-- The search gets to the live entry called `t` first, and its number fits an
`int`; without one it gets to no entry called `t` but a dead one. -/
def NameShows (dir : TreeDir) (t : List UInt8) : Prop :=
  match dir.lookup heap fs t with
  | some n => firstNamed heap fs t (dir.blocks.length < 12) dir.blocks = some n ∧ n < 2 ^ 31
  | none => ∀ n, firstNamed heap fs t (dir.blocks.length < 12) dir.blocks = some n →
      n = 0 ∨ 2 ^ 31 ≤ n

/-- Every component is looked for in a directory, whose descriptor the kernel
finds and which shows it. -/
def PathUse (tree : Nat → Option TreeDir) : List (List UInt8) → Nat → Prop
  | [], _ => True
  | t :: ts, ino =>
      ∃ dir, tree ino = some dir ∧ HasDescriptor fs ino ∧ NameShows heap fs dir t ∧
        ∀ next, dir.lookup heap fs t = some next → PathUse tree ts next

/-! ## One directory -/

variable {heap fs} {b : Nat → UInt8} {bs lo n : Nat} {offs : List Nat} {t : List UInt8}
  {tree : Nat → Option TreeDir}

/-- A scan gets to the entries before one without a name. -/
theorem scanBlock_named (ht : t ≠ []) (h : Tiles b lo offs bs) (hn : bs ≤ lo + n) :
    scanBlock t b bs n lo =
      ((namedOffs b offs).find? fun o => entName b o = t).map (entInode b) := by
  induction offs generalizing lo n with
  | nil =>
      obtain rfl : lo = bs := h
      cases n with
      | zero => rfl
      | succ n => rw [scanBlock, if_neg (lt_irrefl _)]; rfl
  | cons o offs ih =>
      obtain ⟨rfl, hmin, hrest⟩ := h
      have hpos := direntMinLength_pos b o
      have hle := hrest.le
      cases n with
      | zero => omega
      | succ n =>
          rw [scanBlock, if_pos (by omega)]
          by_cases hlen : entNamelength b o = 0
          · have hname : entName b o ≠ t := by
              rw [entName, hlen]
              exact Ne.symm ht
            rw [if_neg hname, if_pos (.inr hlen), namedOffs,
              List.takeWhile_cons_of_neg (by simpa using hlen)]
            rfl
          · rw [namedOffs, List.takeWhile_cons_of_pos (by simpa using hlen), ← namedOffs]
            by_cases hname : entName b o = t
            · rw [if_pos hname, List.find?_cons_of_pos (by simpa using hname), Option.map_some]
            · rw [if_neg hname, if_neg (by omega), List.find?_cons_of_neg (by simpa using hname)]
              exact ih hrest (by omega)

/-- What `ext2_read_directory` returns for an entry. -/
def entryAnswer (k : Option Nat) : Int :=
  match k with
  | none => -enoent
  | some k => if k = 0 then -enoent else i32 k

theorem readDbps_zeros (t : List UInt8) (k : Nat) :
    readDbps heap fs t (List.replicate k 0) =
      entryAnswer (if k = 0 then none else bootFinds heap fs t) := by
  induction k with
  | zero => rfl
  | succ k ih =>
      rw [List.replicate_succ, readDbps, if_neg k.succ_ne_zero, bootFinds]
      split
      · rfl
      · next hfirst =>
          cases hscan : scanBlock t (readNewBlock heap fs 0) fs.blocksize fs.blocksize 0 with
          | some j => rfl
          | none =>
              show readDbps heap fs t (List.replicate k 0) = entryAnswer none
              rw [ih, bootFinds]
              rw [if_neg hfirst, hscan, ite_self]

theorem readDbps_dir {Bs : List DirBlock} (ht : t ≠ []) (hbs : 0 < fs.blocksize)
    (htiled : ∀ B ∈ Bs, Tiles (readNewBlock heap fs B.ptr) 0 B.offs fs.blocksize) (k : Nat) :
    readDbps heap fs t (Bs.map DirBlock.ptr ++ List.replicate k 0) =
      entryAnswer (firstNamed heap fs t (decide (k ≠ 0)) Bs) := by
  induction Bs with
  | nil =>
      rw [List.map_nil, List.nil_append, readDbps_zeros, firstNamed]
      by_cases hk : k = 0 <;> simp [hk]
  | cons B Bs ih =>
      have hB := htiled B List.mem_cons_self
      have ih := ih fun A hA => htiled A (List.mem_cons_of_mem B hA)
      have hsize : entSize (readNewBlock heap fs B.ptr) 0 ≠ 0 := by
        obtain ⟨offs, hoffs⟩ := offs_cons hbs hB
        rw [hoffs] at hB
        have hmin := hB.2.1
        have hpos := direntMinLength_pos (readNewBlock heap fs B.ptr) 0
        omega
      rw [List.map_cons, List.cons_append, readDbps, firstNamed]
      by_cases hlen : entNamelength (readNewBlock heap fs B.ptr) 0 = 0
      · rw [if_pos (.inr hlen), if_pos hlen]
        rfl
      · rw [if_neg (by omega), if_neg hlen, scanBlock_named ht hB (by omega)]
        cases (namedOffs (readNewBlock heap fs B.ptr) B.offs).find?
            fun o => entName (readNewBlock heap fs B.ptr) o = t with
        | some o => rfl
        | none => exact ih

theorem lookup_pos {dir : TreeDir} {m : Nat} (h : dir.lookup heap fs t = some m) : m ≠ 0 := by
  obtain ⟨e, he, rfl⟩ := Option.map_eq_some_iff.mp h
  have hlive := List.find?_some he
  simp only [decide_eq_true_eq] at hlive
  exact hlive.1

theorem i32_eq_iff {k m : Nat} (hk : k < 2 ^ 32) : i32 k = m ↔ k = m ∧ m < 2 ^ 31 := by
  rw [i32]
  split <;> omega

theorem i32_neg_iff {k : Nat} (hk : k < 2 ^ 32) : i32 k < 0 ↔ 2 ^ 31 ≤ k := by
  rw [i32]
  split <;> omega

/-- The numbers of entries are `uint32_t`s. -/
theorem firstNamed_lt {Bs : List DirBlock} {unused : Bool} {k : Nat}
    (h : firstNamed heap fs t unused Bs = some k) : k < 2 ^ 32 := by
  have hscan : ∀ (b : Nat → UInt8) bs n lo, scanBlock t b bs n lo = some k → k < 2 ^ 32 := by
    intro b bs n
    induction n with
    | zero => exact fun _ h => by cases h
    | succ n ih =>
        intro lo h
        rw [scanBlock] at h
        split at h
        · split at h
          · exact Option.some.inj h ▸ le32_lt _ _
          · split at h
            · cases h
            · exact ih _ h
        · cases h
  induction Bs with
  | nil =>
      rw [firstNamed] at h
      split at h
      · rw [bootFinds] at h
        split at h
        · cases h
        · exact hscan _ _ _ _ h
      · cases h
  | cons B Bs ih =>
      rw [firstNamed] at h
      split at h
      · cases h
      · split at h
        · exact Option.some.inj h ▸ le32_lt _ _
        · exact ih h

/-- A lookup in a directory is right when the directory shows the name. -/
theorem nameShows_iff (dir : TreeDir) (t : List UInt8) :
    (match dir.lookup heap fs t with
      | some n => entryAnswer (firstNamed heap fs t (dir.blocks.length < 12) dir.blocks) = n
      | none => entryAnswer (firstNamed heap fs t (dir.blocks.length < 12) dir.blocks) < 0) ↔
      NameShows heap fs dir t := by
  rw [NameShows]
  cases hfirst : firstNamed heap fs t (dir.blocks.length < 12) dir.blocks with
  | none =>
      cases hlook : dir.lookup heap fs t with
      | some m =>
          refine ⟨fun h => ?_, (fun h => by cases h.1)⟩
          simp only [entryAnswer, enoent] at h
          omega
      | none => exact ⟨(fun _ n h => by cases h), fun _ => (by decide : (-enoent : Int) < 0)⟩
  | some k =>
      have hk := firstNamed_lt hfirst
      cases hlook : dir.lookup heap fs t with
      | some m =>
          have hm := lookup_pos hlook
          by_cases h0 : k = 0
          · simp only [entryAnswer, if_pos h0, enoent, Option.some.injEq]
            omega
          · simp only [entryAnswer, if_neg h0, i32_eq_iff hk, Option.some.injEq]
      | none =>
          by_cases h0 : k = 0
          · simp only [entryAnswer, if_pos h0]
            exact ⟨fun _ n h => .inl (Option.some.inj h ▸ h0), fun _ => by decide⟩
          · simp only [entryAnswer, if_neg h0, i32_neg_iff hk]
            exact ⟨fun h n hn => .inr (Option.some.inj hn ▸ h),
              fun h => (h k rfl).resolve_left h0⟩

/-! ## Paths -/

/-- What the lookup of a name in a directory of the tree gives. -/
theorem TreeOnDisk.read (h : TreeOnDisk heap fs tree) {ino : Nat} {dir : TreeDir}
    (hdir : tree ino = some dir) (hdesc : HasDescriptor fs ino) (ht : t ≠ []) :
    ext2ReadDirectory heap fs ino t =
      some (entryAnswer (firstNamed heap fs t (dir.blocks.length < 12) dir.blocks)) := by
  have hdisk := h.dirs ino dir hdir hdesc
  have hunused : decide (12 - dir.blocks.length ≠ 0) = decide (dir.blocks.length < 12) := by
    rw [decide_eq_decide]
    omega
  rw [ext2ReadDirectory, readNewInode, if_pos hdesc, Option.map_some, hdisk.ptrs,
    readDbps_dir ht h.blocksize hdisk.tiled, hunused]

/-- Without a descriptor nothing is known of the lookup. -/
theorem ext2ReadDirectory_none {ino : Nat} (hdesc : ¬HasDescriptor fs ino) :
    ext2ReadDirectory heap fs ino t = none := by
  rw [ext2ReadDirectory, readNewInode, if_neg hdesc]
  rfl

/-- A lookup is right when it is in a directory that shows the name. -/
theorem TreeOnDisk.lookupRight_iff (h : TreeOnDisk heap fs tree) {ino : Nat} (ht : t ≠ []) :
    LookupRight heap fs tree (ino, t, ext2ReadDirectory heap fs ino t) ↔
      ∃ dir, tree ino = some dir ∧ HasDescriptor fs ino ∧ NameShows heap fs dir t := by
  constructor
  · rintro ⟨dir, r, hdir, hr, hright⟩
    have hdesc : HasDescriptor fs ino := by
      by_contra hno
      rw [ext2ReadDirectory_none hno] at hr
      cases hr
    refine ⟨dir, hdir, hdesc, (nameShows_iff dir t).mp ?_⟩
    rw [h.read hdir hdesc ht] at hr
    rw [Option.some.inj hr]
    exact hright
  · rintro ⟨dir, hdir, hdesc, hshows⟩
    exact ⟨dir, _, hdir, h.read hdir hdesc ht, (nameShows_iff dir t).mpr hshows⟩

/-- The lookups of a path are right when all its components are in directories
that show them; the path then leads where it does in the tree. -/
theorem TreeOnDisk.walk (h : TreeOnDisk heap fs tree) {ts : List (List UInt8)}
    (hts : ∀ t ∈ ts, t ≠ []) (ino : Nat) :
    ((∀ l ∈ lookups heap fs ts ino, LookupRight heap fs tree l) ↔ PathUse heap fs tree ts ino) ∧
      (PathUse heap fs tree ts ino → ∃ r, findTokens heap fs ts ino = some r ∧
        match treeLookup heap fs tree ts ino with
        | some n => r = n
        | none => r < 0) := by
  induction ts generalizing ino with
  | nil => exact ⟨⟨fun _ => trivial, (fun _ l hl => by cases hl)⟩, fun _ => ⟨ino, rfl, rfl⟩⟩
  | cons t ts ih =>
      have ht := hts t List.mem_cons_self
      have ih := ih fun t' ht' => hts t' (List.mem_cons_of_mem t ht')
      rw [lookups, List.forall_mem_cons, h.lookupRight_iff ht, PathUse]
      -- the lookups after the first one, when that one is right
      have hnext : ∀ dir, tree ino = some dir → HasDescriptor fs ino → NameShows heap fs dir t →
          (dir.lookup heap fs t = none ∧ (∃ r, ext2ReadDirectory heap fs ino t = some r ∧ r < 0)) ∨
          ∃ n, dir.lookup heap fs t = some n ∧ ext2ReadDirectory heap fs ino t = some (n : Int) := by
        intro dir hdir hdesc hshows
        have hanswer := (nameShows_iff dir t).mpr hshows
        cases hlook : dir.lookup heap fs t with
        | none =>
            rw [hlook] at hanswer
            exact .inl ⟨rfl, _, h.read hdir hdesc ht, hanswer⟩
        | some n =>
            rw [hlook] at hanswer
            exact .inr ⟨n, rfl, by rw [h.read hdir hdesc ht, hanswer]⟩
      refine ⟨⟨?_, ?_⟩, ?_⟩
      · rintro ⟨⟨dir, hdir, hdesc, hshows⟩, hrest⟩
        refine ⟨dir, hdir, hdesc, hshows, fun next hnextEq => ?_⟩
        rcases hnext dir hdir hdesc hshows with ⟨hnone, -⟩ | ⟨n, hlook, hread⟩
        · rw [hnone] at hnextEq
          cases hnextEq
        · obtain rfl : n = next := Option.some.inj (hlook.symm.trans hnextEq)
          rw [hread] at hrest
          exact (ih n).1.mp (by simpa using hrest)
      · rintro ⟨dir, hdir, hdesc, hshows, hrest⟩
        refine ⟨⟨dir, hdir, hdesc, hshows⟩, ?_⟩
        rcases hnext dir hdir hdesc hshows with ⟨-, r, hread, hneg⟩ | ⟨n, hlook, hread⟩
        · rw [hread]
          simp [hneg]
        · rw [hread]
          simpa using (ih n).1.mpr (hrest n hlook)
      · rintro ⟨dir, hdir, hdesc, hshows, hrest⟩
        rw [findTokens, treeLookup, hdir, Option.bind_some]
        rcases hnext dir hdir hdesc hshows with ⟨hnone, r, hread, hneg⟩ | ⟨n, hlook, hread⟩
        · rw [hread, hnone]
          exact ⟨-enoent, if_pos hneg, (by decide : (-enoent : Int) < 0)⟩
        · rw [hread, hlook, Option.bind_some, Option.bind_some, if_neg (by omega), Int.toNat_natCast]
          exact (ih n).2 (hrest n hlook)

/-- **When a path leads where it should.** For every tree of directories on
disk and every path, `ext2_find_file_inode` follows live entries of directories,
component by component, and returns the inode they lead to or an error,
exactly when every component, up to the first one that is missing, is looked
for in a directory that shows it. -/
theorem find_path_iff (h : TreeOnDisk heap fs tree) (path : List UInt8) :
    PathRight heap fs tree path ↔ PathUse heap fs tree (pathTokens path) 2 := by
  obtain ⟨hsteps, hresult⟩ := h.walk (pathTokens_ne_nil path) 2
  exact ⟨fun hright => hsteps.mp hright.steps, fun huse => ⟨hresult huse, hsteps.mpr huse⟩⟩

/-! ## A file on the way -/

/-- The small root directory with a file "f", inode 3, whose block holds the
bytes of an entry "x" for inode 5. -/
def fileRootDisk : Nat → UInt8 :=
  let d := putEntry (putEntry (rootDisk 12) 10252 12 2 [46, 46]) 10264 1000 3 [102]
  let d := put32 (put32 (put16 d 5376 0x8FFF) 5380 1024) 5416 11
  putEntry d 11264 1024 5 [120]

def fileRoot : Ext2Fs := setDisk tableFs fileRootDisk

/-- Its only directory is the root. -/
def fileTree : Nat → Option TreeDir := fun n =>
  if n = 2 then some ⟨[⟨10, [0, 12, 24]⟩], []⟩ else none

theorem fileRoot_tree : TreeOnDisk (fun _ => 0xCC) fileRoot fileTree := by
  have htwo : ∀ ino dir, fileTree ino = some dir → ino = 2 ∧ dir = ⟨[⟨10, [0, 12, 24]⟩], []⟩ := by
    intro ino dir h
    rw [fileTree] at h
    split at h
    · next hino => exact ⟨hino, (Option.some.inj h).symm⟩
    · cases h
  have hentries : ∀ e ∈ TreeDir.entries (fun _ => 0xCC) fileRoot ⟨[⟨10, [0, 12, 24]⟩], []⟩,
      e.inode = 2 ∨ e.inode = 3 := by
    decide +kernel
  constructor
  case blocksize => decide +kernel
  case root => rfl
  case dirs =>
    intro ino dir h _
    obtain ⟨rfl, rfl⟩ := htwo ino dir h
    refine ⟨by decide +kernel, by decide +kernel, ?_, ?_⟩
    · exact List.forall_mem_singleton.mpr (by decide)
    · exact List.forall_mem_singleton.mpr (by decide +kernel)
  case types =>
    intro n hn _
    have hcases : n = 2 ∨ n = 3 := by
      rcases hn with rfl | ⟨ino, dir, t, hdir, hlook⟩
      · exact .inl rfl
      · obtain ⟨rfl, rfl⟩ := htwo ino dir hdir
        obtain ⟨e, he, rfl⟩ := Option.map_eq_some_iff.mp hlook
        exact hentries e (List.mem_of_find?_eq_some he)
    rcases hcases with rfl | rfl <;> decide +kernel
  case full =>
    intro ino dir h _
    obtain ⟨rfl, rfl⟩ := htwo ino dir h
    rfl

/-- The path "/f" leads to the file. -/
theorem find_path_file : PathRight (fun _ => 0xCC) fileRoot fileTree [47, 102] := by
  have hlook : TreeDir.lookup (fun _ => 0xCC) fileRoot ⟨[⟨10, [0, 12, 24]⟩], []⟩ [102] = some 3 := by
    decide +kernel
  have hfirst : firstNamed (fun _ => 0xCC) fileRoot [102] true [⟨10, [0, 12, 24]⟩] = some 3 := by
    decide +kernel
  refine (find_path_iff fileRoot_tree _).mpr ⟨⟨[⟨10, [0, 12, 24]⟩], []⟩, rfl, by decide +kernel, ?_,
    fun _ _ => trivial⟩
  show NameShows (fun _ => 0xCC) fileRoot ⟨[⟨10, [0, 12, 24]⟩], []⟩ [102]
  rw [NameShows, hlook]
  exact ⟨hfirst, by norm_num⟩

/-- The path "/f/x" leads into its contents, to inode 5. -/
theorem find_path_into_file :
    TreeOnDisk (fun _ => 0xCC) fileRoot fileTree ∧ fileTree 3 = none ∧
      ext2FindFileInode (fun _ => 0xCC) fileRoot [47, 102, 47, 120] = some 5 ∧
      ¬PathRight (fun _ => 0xCC) fileRoot fileTree [47, 102, 47, 120] := by
  have hfind : ext2FindFileInode (fun _ => 0xCC) fileRoot [47, 102, 47, 120] = some 5 := by
    decide +kernel
  have hnone : treeLookup (fun _ => 0xCC) fileRoot fileTree (pathTokens [47, 102, 47, 120]) 2 =
      none := by
    decide +kernel
  refine ⟨fileRoot_tree, rfl, hfind, fun h => ?_⟩
  obtain ⟨r, hr, hneg⟩ := h.result
  rw [hnone] at hneg
  rw [hfind] at hr
  rw [← Option.some.inj hr] at hneg
  exact absurd hneg (by decide)

end Levos.Fs
