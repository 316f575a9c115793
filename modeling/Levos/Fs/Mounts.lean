import Levos.Fs.Canonical

/-!
# Mounts (`fs/vfs.c`)

`find_mount` takes bytes off the end of a path until a mount point is left, and
`vfs_open` and `vfs_stat` pass the rest of the path on. The mount it finds is
the longest one that the path begins with, byte for byte, which need not be one
that the path is in.
-/

namespace Levos.Fs

open Levos.Base Levos.Kernel

variable {Fs : Type}

/-! ## The table -/

/-- `struct mount`, without the device. -/
structure Mount (Fs : Type) where
  point : List UInt8
  fs : Fs

/-- `MAX_MOUNTS`. -/
def maxMounts : Nat := 256

/-- `mounts` and `root_mount`, the last mount on "/". -/
structure MountTable (Fs : Type) where
  mounts : List (Mount Fs)
  rootMount : Option (Mount Fs)
  few : mounts.length ≤ maxMounts
  root : rootMount = mounts.reverse.find? fun m => m.point = [pathSeparator]

def MountTable.empty : MountTable Fs := ⟨[], none, Nat.zero_le _, rfl⟩

/-- `__vfs_set_mount`; a mount more than the array holds is stored behind it. -/
def vfsSetMount (t : MountTable Fs) (p : List UInt8) (fs : Fs) : Option (MountTable Fs) :=
  if h : t.mounts.length < maxMounts then
    some {
      mounts := t.mounts ++ [⟨p, fs⟩]
      rootMount := if p = [pathSeparator] then some ⟨p, fs⟩ else t.rootMount
      few := by
        rw [List.length_append, List.length_singleton]
        exact h
      root := by
        rw [List.reverse_append, List.reverse_singleton, List.singleton_append, t.root]
        split
        · next hp => rw [List.find?_cons_of_pos (by simpa using hp)]
        · next hp => rw [List.find?_cons_of_neg (by simpa using hp)] }
  else none

/-! ## Looking for a mount -/

/-- `__check_mounts`. -/
def checkMounts (t : MountTable Fs) (str : List UInt8) : Option (Mount Fs) :=
  t.mounts.find? fun m => m.point = str

/-- The loop of `find_mount`, when `str` is the first bytes of the path. -/
def findMountLoop (t : MountTable Fs) (path : List UInt8) : Nat → Option (Mount Fs)
  | 0 => none
  | 1 => none
  | n + 2 =>
      match checkMounts t (path.take (n + 2)) with
      | some m => some m
      | none => findMountLoop t path (n + 1)

/-- `find_mount`; there may be no root. -/
def findMount (t : MountTable Fs) (path : List UInt8) : Option (Mount Fs) :=
  if path = [pathSeparator] then t.rootMount
  else
    match findMountLoop t path path.length with
    | some m => some m
    | none => t.rootMount

/-- The path that `vfs_open` and `vfs_stat` pass to the filesystem. -/
def expPath (m : Mount Fs) (path : List UInt8) : List UInt8 :=
  if path.length = m.point.length then [pathSeparator] else path.drop m.point.length

/-- `vfs_open`, for the function `open` of a filesystem. -/
def vfsOpen {α : Type} (fsOpen : Fs → List UInt8 → α) (t : MountTable Fs) (path : List UInt8) :
    Option α :=
  (findMount t path).map fun m => fsOpen m.fs (expPath m path)

/-- `vfs_stat`, for the function `stat` of a filesystem, which it may lack. It
panics without a mount. -/
def vfsStat (fsStat : Fs → Option (List UInt8 → Int)) (t : MountTable Fs) (path : List UInt8) :
    Option Int :=
  (findMount t path).map fun m =>
    match fsStat m.fs with
    | none => -enosys
    | some stat => stat (expPath m path)

/-! ## What a mount is for -/

/-- The components of the mount point come first in the path. -/
def IsOver (m : Mount Fs) (path : List UInt8) : Prop := pathTokens m.point <+: pathTokens path

/-- The mount that a path is in: there is none further down. -/
structure OwnedBy (t : MountTable Fs) (path : List UInt8) (m : Mount Fs) : Prop where
  mem : m ∈ t.mounts
  isOver : IsOver m path
  deepest : ∀ m' ∈ t.mounts, IsOver m' path →
    (pathTokens m'.point).length ≤ (pathTokens m.point).length

/-- The filesystem that a path is in gets what the path is there. -/
def MountRight (t : MountTable Fs) (path : List UInt8) : Prop :=
  ∃ m rest, findMount t path = some m ∧ OwnedBy t path m ∧
    pathTokens rest = (pathTokens path).drop (pathTokens m.point).length ∧
    (∀ {α : Type} (fsOpen : Fs → List UInt8 → α), vfsOpen fsOpen t path = some (fsOpen m.fs rest)) ∧
    ∀ fsStat : Fs → Option (List UInt8 → Int), vfsStat fsStat t path =
      some (match fsStat m.fs with
        | none => -enosys
        | some stat => stat rest)

/-- The path begins with the point of the mount that it is in, byte for byte,
and with no longer one. -/
def SpelledOut (t : MountTable Fs) (path : List UInt8) : Prop :=
  ∃ m, OwnedBy t path m ∧ m.point <+: path ∧
    ∀ m' ∈ t.mounts, m'.point <+: path → m'.point.length ≤ m.point.length

/-! ## What is found -/

section Lookup

variable {t : MountTable Fs} {path : List UInt8} {m : Mount Fs}

/-- A mount that the path begins with, and no longer one. -/
theorem findMountLoop_some {n : Nat} (h : findMountLoop t path n = some m) :
    m ∈ t.mounts ∧ ∃ k ≤ n, m.point = path.take k ∧
      ∀ j, k < j → j ≤ n → ∀ m' ∈ t.mounts, m'.point ≠ path.take j := by
  induction n with
  | zero => cases h
  | succ n ih =>
      rcases n with _ | n
      · cases h
      · rw [findMountLoop] at h
        split at h
        · next m' hcheck =>
          obtain rfl := Option.some.inj h
          refine ⟨List.mem_of_find?_eq_some hcheck, n + 2, le_rfl,
            by simpa using List.find?_some hcheck, fun j hk hj => by omega⟩
        · next hcheck =>
          obtain ⟨hmem, k, hk, hpoint, hlonger⟩ := ih h
          refine ⟨hmem, k, by omega, hpoint, fun j hkj hj => ?_⟩
          rcases Nat.lt_or_eq_of_le hj with hlt | rfl
          · exact hlonger j hkj (by omega)
          · exact fun m' hm' => by simpa using List.find?_eq_none.mp hcheck m' hm'

theorem findMountLoop_none {n : Nat} (h : findMountLoop t path n = none) :
    ∀ j, 2 ≤ j → j ≤ n → ∀ m' ∈ t.mounts, m'.point ≠ path.take j := by
  induction n with
  | zero => exact fun j hj hle => by omega
  | succ n ih =>
      rcases n with _ | n
      · exact fun j hj hle => by omega
      · rw [findMountLoop] at h
        split at h
        · cases h
        · next hcheck =>
          intro j hj hle
          rcases Nat.lt_or_eq_of_le hle with hlt | rfl
          · exact ih h j hj (by omega)
          · exact fun m' hm' => by simpa using List.find?_eq_none.mp hcheck m' hm'

/-- The root is mounted on "/". -/
theorem rootMount_spec (hroot : ∃ m ∈ t.mounts, m.point = [pathSeparator]) :
    ∃ m, t.rootMount = some m ∧ m ∈ t.mounts ∧ m.point = [pathSeparator] := by
  obtain ⟨m, hmem, hpoint⟩ := hroot
  have hsome : (t.mounts.reverse.find? fun m => m.point = [pathSeparator]).isSome := by
    rw [List.find?_isSome]
    exact ⟨m, List.mem_reverse.mpr hmem, by simpa using hpoint⟩
  obtain ⟨root, hfind⟩ := Option.isSome_iff_exists.mp hsome
  exact ⟨root, t.root.trans hfind, List.mem_reverse.mp (List.mem_of_find?_eq_some hfind),
    by simpa using List.find?_some hfind⟩

/-- `find_mount` gives the longest mount point that the path begins with. -/
theorem findMount_spec (hroot : ∃ m ∈ t.mounts, m.point = [pathSeparator])
    (habs : path.head? = some pathSeparator) :
    ∃ m, findMount t path = some m ∧ m ∈ t.mounts ∧ m.point <+: path ∧
      ∀ m' ∈ t.mounts, m'.point <+: path → m'.point.length ≤ m.point.length := by
  obtain ⟨rest, rfl⟩ := List.head?_eq_some_iff.mp habs
  obtain ⟨root, hfind, hmem, hpoint⟩ := rootMount_spec hroot
  have hprefix : root.point <+: pathSeparator :: rest := by
    rw [hpoint, List.cons_prefix_cons]
    exact ⟨rfl, List.nil_prefix⟩
  rw [findMount]
  split
  · next heq =>
    refine ⟨root, hfind, hmem, hprefix, fun m' _ hm' => ?_⟩
    rw [heq, ← hpoint] at hm'
    exact hm'.length_le
  · split
    · next m hloop =>
      obtain ⟨hm, k, hk, hmk, hlonger⟩ := findMountLoop_some hloop
      refine ⟨m, rfl, hm, hmk ▸ List.take_prefix _ _, fun m' hm' hpre => ?_⟩
      by_contra hlt
      rw [hmk, List.length_take, min_eq_left hk] at hlt
      exact hlonger _ (not_le.mp hlt) hpre.length_le m' hm' (List.prefix_iff_eq_take.mp hpre)
    · next hloop =>
      refine ⟨root, hfind, hmem, hprefix, fun m' hm' hpre => ?_⟩
      by_contra hlt
      rw [hpoint, List.length_singleton] at hlt
      exact findMountLoop_none hloop _ (by omega) hpre.length_le m' hm'
        (List.prefix_iff_eq_take.mp hpre)

/-- What is passed on is the rest of the path, where the mount is over it. -/
theorem expPath_tokens (hpre : m.point <+: path) (hover : IsOver m path) :
    pathTokens (expPath m path) = (pathTokens path).drop (pathTokens m.point).length := by
  obtain ⟨rest, rfl⟩ := hpre
  rw [IsOver, pathTokens_eq, pathTokens_eq, ← cutAt_iff] at hover
  rw [pathTokens_eq, pathTokens_eq, pathTokens_eq, hover.tokens_append, List.drop_left, expPath]
  split
  · next hlen =>
    rw [List.length_append] at hlen
    obtain rfl : rest = [] := List.eq_nil_of_length_eq_zero (by omega)
    rfl
  · rw [List.drop_left]

/-- **Mount lookup.** For every table with a root and every absolute path,
`find_mount` finds the mount that the path is in, and the rest of the path is
passed on, exactly when the path spells its mount point out and begins with no
longer one. -/
theorem find_mount_iff (hroot : ∃ m ∈ t.mounts, m.point = [pathSeparator])
    (habs : path.head? = some pathSeparator) : MountRight t path ↔ SpelledOut t path := by
  obtain ⟨m, hfind, hmem, hpre, hlongest⟩ := findMount_spec hroot habs
  constructor
  · rintro ⟨m', -, hfind', howned, -⟩
    rw [hfind] at hfind'
    obtain rfl := Option.some.inj hfind'
    exact ⟨m, howned, hpre, hlongest⟩
  · rintro ⟨m', howned, hpre', hlongest'⟩
    -- two prefixes of one length
    have hpoint : m'.point = m.point := by
      have hlen := le_antisymm (hlongest m' howned.mem hpre') (hlongest' m hmem hpre)
      rw [List.prefix_iff_eq_take.mp hpre', List.prefix_iff_eq_take.mp hpre, hlen]
    have hover : IsOver m path := by
      rw [IsOver, ← hpoint]
      exact howned.isOver
    have hdeepest := howned.deepest
    rw [hpoint] at hdeepest
    refine ⟨m, expPath m path, hfind, ⟨hmem, hover, hdeepest⟩, expPath_tokens hpre hover,
      fun fsOpen => ?_, fun fsStat => ?_⟩
    · rw [vfsOpen, hfind, Option.map_some]
    · rw [vfsStat, hfind, Option.map_some]

/-- The mounts of the kernel: a filesystem on "/", "/proc" and "/dev", numbered
in this order. -/
def bootMounts : MountTable Nat where
  mounts := [⟨[47], 0⟩, ⟨[47, 112, 114, 111, 99], 1⟩, ⟨[47, 100, 101, 118], 2⟩]
  rootMount := some ⟨[47], 0⟩
  few := by decide
  root := rfl

example : ((vfsSetMount .empty [47] 0).bind fun t =>
    (vfsSetMount t [47, 112, 114, 111, 99] 1).bind fun t => vfsSetMount t [47, 100, 101, 118] 2) =
    some bootMounts := rfl

/-- "/dev/null". -/
theorem find_mount_iff_dev :
    MountRight bootMounts [47, 100, 101, 118, 47, 110, 117, 108, 108] ↔
      SpelledOut bootMounts [47, 100, 101, 118, 47, 110, 117, 108, 108] :=
  find_mount_iff ⟨⟨[47], 0⟩, List.mem_cons_self, rfl⟩ rfl

/-- "/devices" is passed to the filesystem on "/dev", as "ices". -/
theorem find_mount_captures :
    vfsOpen Prod.mk bootMounts [47, 100, 101, 118, 105, 99, 101, 115] =
        some (2, [105, 99, 101, 115]) ∧
      ¬ MountRight bootMounts [47, 100, 101, 118, 105, 99, 101, 115] := by
  refine ⟨by decide, ?_⟩
  rintro ⟨m, rest, hfind, howned, -⟩
  obtain rfl : (⟨[47, 100, 101, 118], 2⟩ : Mount Nat) = m := Option.some.inj hfind
  exact absurd howned.isOver (by unfold IsOver; decide)

end Lookup

end Levos.Fs
