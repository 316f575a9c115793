import Levos.Fs.Ext2.Filldir
import Levos.Lib.CString
import Levos.Lib.Itoa

/-!
# Names in `/proc` (`fs/procfs.c`)

`procfs_readdir` lists the tasks by their pids in decimal, and some files with
names of their own. `procfs_get_inode` takes any other name for the pid that
`atoi_10` makes of it, so that a task has more names than the listing shows
(`procfs_names_iff`).
-/

namespace Levos.Fs

open Levos.Dev (int32 schar cstr atoi10)
open Levos.Lib

/-! ## The directory -/

/-- The tasks on `all_tasks`, by their pids. The first task has 0, and
`allocate_pid` counts on from there. -/
structure AllTasks where
  pids : List Int
  range : ∀ pid ∈ pids, 0 ≤ pid ∧ pid < 2 ^ 31

def getTaskForPid (tasks : AllTasks) (pid : Int) : Option Int := tasks.pids.find? (· = pid)

def asciiBytes (s : List Char) : List UInt8 := s.map fun c => UInt8.ofNat c.toNat

structure ProcfsFile where
  inodeNo : Int
  path : List UInt8
deriving DecidableEq

/-- `_files`. -/
def procfsFiles : List ProcfsFile :=
  [⟨int32 0x80000001, asciiBytes ['/', 'v', 'e', 'r', 's', 'i', 'o', 'n']⟩,
    ⟨int32 0x80000002, asciiBytes ['/', 'h', 'o', 's', 't', 'n', 'a', 'm', 'e']⟩,
    ⟨int32 0x80000003, asciiBytes ['/', 'm', 'e', 'm', 'f', 'r', 'e', 'e']⟩,
    ⟨int32 0x80000004, asciiBytes ['/', 'm', 'e', 'm', 'u', 's', 'e', 'd']⟩,
    ⟨int32 0x80000005, asciiBytes ['/', 'm', 'e', 'm', 't', 'o', 't', 'a', 'l']⟩,
    ⟨int32 0x80000006, asciiBytes ['/', 'h', 'e', 'a', 'p', 's', 't', 'a', 't', 's']⟩,
    ⟨int32 0x80000007, asciiBytes ['/', 'u', 'p', 't', 'i', 'm', 'e']⟩]

/-- `procfs_get_inode`; `behind` is the memory behind the NUL of the path, which
is read if the path is empty. -/
def procfsGetInode (tasks : AllTasks) (path : CString) (behind : List UInt8) : Int :=
  match procfsFiles.find? fun f => path.bytes = f.path with
  | some f => f.inodeNo
  | none =>
      let pid := atoi10 ((path.bytes ++ 0 :: behind).drop 1)
      if (getTaskForPid tasks pid).isSome then pid else -1

/-- A number of type `int` as an `unsigned`. -/
def unsigned (x : Int) : Nat := (x % 2 ^ 32).toNat

def dotEntry : LinuxDirent := ⟨0, 0, 11, asciiBytes ['.']⟩
def dotDotEntry : LinuxDirent := ⟨0, 0, 12, asciiBytes ['.', '.']⟩

def taskEntry (pid : Int) : Option LinuxDirent :=
  (itoa (unsigned pid) 10).map fun itoaBuf =>
    ⟨unsigned pid, 0, 10 + (cstr itoaBuf).length, cstr itoaBuf⟩

def fileEntry (f : ProcfsFile) : LinuxDirent :=
  ⟨unsigned f.inodeNo, 0, 10 + f.path.length, f.path.tail⟩

/-- The loops of `procfs_readdir`: the entry whose number is `fpos`, counted from
`i` on. The inner `none` is the end of the list. -/
def findEntry {α : Type} (entry : α → Option LinuxDirent) (fpos : Nat) :
    List α → Nat → Option (Option LinuxDirent)
  | [], _ => some none
  | x :: xs, i => if i = fpos then (entry x).map some else findEntry entry fpos xs (i + 1)

/-- `procfs_readdir`: the entry and the new `fpos`; the inner `none` is `ENOSPC`. -/
def procfsReaddir (tasks : AllTasks) (fpos : Nat) : Option (Option (LinuxDirent × Nat)) :=
  if fpos = 0 then some (some (dotEntry, fpos + 1))
  else if fpos = 1 then some (some (dotDotEntry, fpos + 1))
  else
    (findEntry taskEntry fpos tasks.pids 2).bind fun found =>
      match found with
      | some de => some (some (de, fpos + 1))
      | none =>
          (findEntry (some ∘ fileEntry) fpos procfsFiles (2 + tasks.pids.length)).map fun found =>
            found.map fun de => (de, fpos + 1)

/-! ## What the names are -/

def IsFile (path : List UInt8) : Prop := ∃ f ∈ procfsFiles, path = f.path

/-- The name of a task. -/
def pidName (pid : Int) : List UInt8 := digitsText 10 pid.toNat

/-- The root, a file, or a task by its pid. -/
def IsName (tasks : AllTasks) (path : List UInt8) : Prop :=
  path = [pathSeparator] ∨ IsFile path ∨ ∃ pid ∈ tasks.pids, path = pathSeparator :: pidName pid

/-- The name is in an entry that `procfs_readdir` returns. -/
def Listed (tasks : AllTasks) (name : List UInt8) : Prop :=
  ∃ fpos de, procfsReaddir tasks fpos = some (some (de, fpos + 1)) ∧ de.name = name

/-- Looking up finds the names, and they are those of the listing, but for the
directory itself and the one above. -/
structure NamesAgree (tasks : AllTasks) (path : CString) (behind : List UInt8) : Prop where
  lookup : procfsGetInode tasks path behind ≠ -1 ↔ IsName tasks path.bytes
  listing : IsName tasks path.bytes ↔ path.bytes = [pathSeparator] ∨
    ∃ name, Listed tasks name ∧ name ≠ dotEntry.name ∧ name ≠ dotDotEntry.name ∧
      path.bytes = pathSeparator :: name

/-- The characters behind the first, up to a NUL. -/
def pidText (path : CString) (behind : List UInt8) : List UInt8 :=
  cstr ((path.bytes ++ 0 :: behind).drop 1)

/-- There is a task with pid 0 if the path is the root, and a task whose pid the
characters make modulo `2^32`, whatever characters they are, has just this name. -/
def SpelledRight (tasks : AllTasks) (path : CString) (behind : List UInt8) : Prop :=
  (path.bytes = [pathSeparator] → 0 ∈ tasks.pids) ∧
    ∀ pid ∈ tasks.pids, numeral (pidText path behind) % 2 ^ 32 = pid →
      IsFile path.bytes ∨ path.bytes = [pathSeparator] ∨ path.bytes = pathSeparator :: pidName pid

/-! ## What is listed -/

variable {tasks : AllTasks} {pid : Int} {name : List UInt8}

theorem unsigned_of_range (h : 0 ≤ pid ∧ pid < 2 ^ 31) : unsigned pid = pid.toNat := by
  unfold unsigned
  omega

theorem pidName_ne_zero (pid : Int) : ∀ c ∈ pidName pid, c ≠ 0 :=
  digitsText_ne_zero (by norm_num) (by norm_num) _

/-- The entry of a task. -/
def taskDirent (pid : Int) : LinuxDirent :=
  ⟨pid.toNat, 0, 10 + (pidName pid).length, pidName pid⟩

theorem taskEntry_eq (h : 0 ≤ pid ∧ pid < 2 ^ 31) : taskEntry pid = some (taskDirent pid) := by
  have hsmall : pid.toNat < 2 ^ 32 := by omega
  have hname : cstr (digitsText 10 pid.toNat ++ [0]) = pidName pid :=
    cstr_append_zero (pidName_ne_zero pid) []
  rw [taskEntry, unsigned_of_range h, itoa_eq (by norm_num) (by norm_num) hsmall, Option.map_some,
    hname]
  rfl

/-- A loop finds the entry by its number. -/
theorem findEntry_eq {α : Type} {entry : α → Option LinuxDirent} {dirent : α → LinuxDirent}
    {fpos : Nat} : ∀ {xs : List α} {i : Nat}, (∀ x ∈ xs, entry x = some (dirent x)) → i ≤ fpos →
      findEntry entry fpos xs i = some ((xs.map dirent)[fpos - i]?)
  | [], _, _, _ => rfl
  | x :: xs, i, hentry, hi => by
      rw [List.forall_mem_cons] at hentry
      rw [findEntry, List.map_cons]
      by_cases hfound : i = fpos
      · rw [if_pos hfound, hentry.1, hfound, Nat.sub_self]
        rfl
      · rw [if_neg hfound, findEntry_eq hentry.2 (by omega),
          show fpos - i = fpos - (i + 1) + 1 by omega, List.getElem?_cons_succ]

/-- All entries, in order. -/
def procfsEntries (tasks : AllTasks) : List LinuxDirent :=
  dotEntry :: dotDotEntry :: (tasks.pids.map taskDirent ++ procfsFiles.map fileEntry)

theorem procfsReaddir_eq (tasks : AllTasks) (fpos : Nat) :
    procfsReaddir tasks fpos =
      some ((procfsEntries tasks)[fpos]?.map fun de => (de, fpos + 1)) := by
  have htasks : ∀ pid ∈ tasks.pids, taskEntry pid = some (taskDirent pid) :=
    fun pid hpid => taskEntry_eq (tasks.range pid hpid)
  rw [procfsReaddir, procfsEntries]
  rcases fpos with - | - | k
  · rfl
  · rfl
  · rw [if_neg (by omega), if_neg (by omega), List.getElem?_cons_succ, List.getElem?_cons_succ,
      findEntry_eq htasks (by omega), Option.bind_some, show k + 1 + 1 - 2 = k by omega]
    by_cases hk : k < tasks.pids.length
    · have hin : k < (tasks.pids.map taskDirent).length := by rwa [List.length_map]
      rw [List.getElem?_append_left hin, List.getElem?_eq_getElem hin]
      rfl
    · have hout : (tasks.pids.map taskDirent).length ≤ k := by
        rw [List.length_map]
        omega
      rw [List.getElem?_append_right hout, List.getElem?_eq_none hout, List.length_map]
      dsimp only
      rw [findEntry_eq (fun f _ => Function.comp_apply) (by omega),
        show k + 1 + 1 - (2 + tasks.pids.length) = k - tasks.pids.length by omega]
      rfl

theorem listed_iff : Listed tasks name ↔
    name = dotEntry.name ∨ name = dotDotEntry.name ∨ (∃ pid ∈ tasks.pids, name = pidName pid) ∨
      ∃ f ∈ procfsFiles, name = f.path.tail := by
  have hentry : Listed tasks name ↔ ∃ de ∈ procfsEntries tasks, de.name = name := by
    constructor
    · rintro ⟨fpos, de, hread, rfl⟩
      rw [procfsReaddir_eq, Option.some.injEq, Option.map_eq_some_iff] at hread
      obtain ⟨de', hde', heq⟩ := hread
      obtain rfl := (Prod.mk.inj heq).1
      exact ⟨de', List.mem_of_getElem? hde', rfl⟩
    · rintro ⟨de, hde, rfl⟩
      obtain ⟨fpos, hfpos⟩ := List.mem_iff_getElem?.mp hde
      exact ⟨fpos, de, by rw [procfsReaddir_eq, hfpos]; rfl, rfl⟩
  rw [hentry]
  simp only [procfsEntries, List.mem_cons, List.mem_append, List.mem_map, or_and_right, exists_or,
    exists_exists_and_eq_and, exists_eq_left, taskDirent, fileEntry, eq_comm (b := name)]

/-! ## What is found -/

variable {path : CString} {behind : List UInt8}

theorem getTaskForPid_isSome : (getTaskForPid tasks pid).isSome ↔ pid ∈ tasks.pids := by
  rw [getTaskForPid, List.find?_isSome]
  simp

/-- A file is found by its own name. -/
theorem procfsGetInode_file (h : IsFile path.bytes) : procfsGetInode tasks path behind ≠ -1 := by
  have hinodes : ∀ f ∈ procfsFiles, f.inodeNo ≠ -1 := by decide
  obtain ⟨f, hf, heq⟩ := h
  have hfound : (procfsFiles.find? fun f => path.bytes = f.path).isSome :=
    List.find?_isSome.mpr ⟨f, hf, decide_eq_true heq⟩
  obtain ⟨g, hg⟩ := Option.isSome_iff_exists.mp hfound
  unfold procfsGetInode
  rw [hg]
  exact hinodes g (List.mem_of_find?_eq_some hg)

/-- Any other path is taken for a number. -/
theorem procfsGetInode_task_iff (h : ¬IsFile path.bytes) :
    procfsGetInode tasks path behind ≠ -1 ↔
      ∃ pid ∈ tasks.pids, numeral (pidText path behind) % 2 ^ 32 = pid := by
  have hnone : (procfsFiles.find? fun f => path.bytes = f.path) = none :=
    List.find?_eq_none.mpr fun f hf heq => h ⟨f, hf, of_decide_eq_true heq⟩
  have hpid : ∀ pid ∈ tasks.pids, atoi10 ((path.bytes ++ 0 :: behind).drop 1) = pid ↔
      numeral (pidText path behind) % 2 ^ 32 = pid := by
    intro pid hpid
    obtain ⟨hlo, hhi⟩ := tasks.range pid hpid
    rw [atoi10_eq, int32_eq_iff (by omega) hhi, pidText]
    omega
  unfold procfsGetInode
  rw [hnone]
  dsimp only
  by_cases hlive : atoi10 ((path.bytes ++ 0 :: behind).drop 1) ∈ tasks.pids
  · rw [if_pos (getTaskForPid_isSome.mpr hlive)]
    have hrange := tasks.range _ hlive
    exact iff_of_true (by omega) ⟨_, hlive, (hpid _ hlive).mp rfl⟩
  · rw [if_neg (mt getTaskForPid_isSome.mp hlive)]
    refine iff_of_false (fun hne => hne rfl) ?_
    rintro ⟨pid, hmem, heq⟩
    exact hlive ((hpid pid hmem).mpr heq ▸ hmem)

/-- Behind the first character stands the rest of the path. -/
theorem pidText_cons {c : UInt8} {rest : List UInt8} (h : path.bytes = c :: rest) :
    pidText path behind = rest := by
  rw [pidText, h, List.cons_append, List.drop_one, List.tail_cons]
  refine cstr_append_zero (fun b hb => path.nonzero b ?_) behind
  rw [h]
  exact List.mem_cons_of_mem _ hb

theorem numeral_pidName (h : 0 ≤ pid) : numeral (pidName pid) = pid := by
  rw [pidName, numeral_digitsText, Int.toNat_of_nonneg h]

/-! ## When they agree -/

theorem root_not_file : ¬IsFile [pathSeparator] := by
  unfold IsFile
  decide

/-- The names but for the root are the listed ones but for the dots. -/
theorem isName_iff_listed (tasks : AllTasks) (path : List UInt8) :
    IsName tasks path ↔ path = [pathSeparator] ∨
      ∃ name, Listed tasks name ∧ name ≠ dotEntry.name ∧ name ≠ dotDotEntry.name ∧
        path = pathSeparator :: name := by
  have hfiles : ∀ f ∈ procfsFiles, f.path = pathSeparator :: f.path.tail ∧
      f.path.tail ≠ dotEntry.name ∧ f.path.tail ≠ dotDotEntry.name := by decide
  -- a dot counts as the digit -2
  have hpids : ∀ pid ∈ tasks.pids, pidName pid ≠ dotEntry.name ∧
      pidName pid ≠ dotDotEntry.name := by
    intro pid hpid
    have hnumeral := numeral_pidName (tasks.range pid hpid).1
    have hrange := tasks.range pid hpid
    refine ⟨fun hdot => ?_, fun hdots => ?_⟩
    · rw [hdot, show numeral dotEntry.name = -2 by decide] at hnumeral
      omega
    · rw [hdots, show numeral dotDotEntry.name = -22 by decide] at hnumeral
      omega
  unfold IsName
  refine or_congr_right ⟨?_, ?_⟩
  · rintro (⟨f, hf, rfl⟩ | ⟨pid, hpid, rfl⟩)
    · obtain ⟨hslash, hdot, hdots⟩ := hfiles f hf
      exact ⟨f.path.tail, listed_iff.mpr (.inr (.inr (.inr ⟨f, hf, rfl⟩))), hdot, hdots, hslash⟩
    · obtain ⟨hdot, hdots⟩ := hpids pid hpid
      exact ⟨pidName pid, listed_iff.mpr (.inr (.inr (.inl ⟨pid, hpid, rfl⟩))), hdot, hdots, rfl⟩
  · rintro ⟨name, hlisted, hdot, hdots, rfl⟩
    rcases listed_iff.mp hlisted with rfl | rfl | ⟨pid, hpid, rfl⟩ | ⟨f, hf, rfl⟩
    · exact (hdot rfl).elim
    · exact (hdots rfl).elim
    · exact .inr ⟨pid, hpid, rfl⟩
    · exact .inl ⟨f, hf, (hfiles f hf).1.symm⟩

/-- **When looking up agrees with the listing.** A path is found exactly if it is
a name of the directory, under the condition that no characters make the number
of a task other than its name, and that the root makes one. -/
theorem procfs_names_iff (tasks : AllTasks) (path : CString) (behind : List UInt8) :
    NamesAgree tasks path behind ↔ SpelledRight tasks path behind := by
  have hagree : NamesAgree tasks path behind ↔
      (procfsGetInode tasks path behind ≠ -1 ↔ IsName tasks path.bytes) :=
    ⟨fun h => h.lookup, fun h => ⟨h, isName_iff_listed tasks path.bytes⟩⟩
  rw [hagree]
  by_cases hfile : IsFile path.bytes
  · refine iff_of_true (iff_of_true (procfsGetInode_file hfile) (.inr (.inl hfile))) ⟨?_, ?_⟩
    · intro hroot
      exact (root_not_file (hroot ▸ hfile)).elim
    · exact fun _ _ _ => .inl hfile
  · have hroot : path.bytes = [pathSeparator] → numeral (pidText path behind) % 2 ^ 32 = 0 := by
      intro hpath
      rw [pidText_cons hpath]
      decide
    have hname : ∀ pid ∈ tasks.pids, path.bytes = pathSeparator :: pidName pid →
        numeral (pidText path behind) % 2 ^ 32 = pid := by
      intro pid hpid hpath
      have hrange := tasks.range pid hpid
      rw [pidText_cons hpath, numeral_pidName hrange.1]
      omega
    rw [procfsGetInode_task_iff hfile]
    constructor
    · intro hiff
      refine ⟨fun hpath => ?_, fun pid hpid hnumeral => ?_⟩
      · obtain ⟨pid, hpid, heq⟩ := hiff.mpr (.inl hpath)
        rwa [← (hroot hpath).symm.trans heq] at hpid
      · rcases hiff.mp ⟨pid, hpid, hnumeral⟩ with hpath | hfile' | ⟨pid', hpid', hpath⟩
        · exact .inr (.inl hpath)
        · exact .inl hfile'
        · obtain rfl := hnumeral.symm.trans (hname pid' hpid' hpath)
          exact .inr (.inr hpath)
    · rintro ⟨hzero, hspelled⟩
      constructor
      · rintro ⟨pid, hpid, hnumeral⟩
        rcases hspelled pid hpid hnumeral with hfile' | hpath | hpath
        · exact .inr (.inl hfile')
        · exact .inl hpath
        · exact .inr (.inr ⟨pid, hpid, hpath⟩)
      · rintro (hpath | hfile' | ⟨pid, hpid, hpath⟩)
        · exact ⟨0, hzero hpath, hroot hpath⟩
        · exact (hfile hfile').elim
        · exact ⟨pid, hpid, hname pid hpid hpath⟩

def firstTasks : AllTasks := ⟨[0, 1], by decide⟩

theorem isName_first_iff (path : List UInt8) :
    IsName firstTasks path ↔ path = [pathSeparator] ∨ IsFile path ∨
      path = [pathSeparator, 0x30] ∨ path = [pathSeparator, 0x31] := by
  have hzero : pidName 0 = [0x30] := by simp [pidName, digitsText]
  have hone : pidName 1 = [0x31] := by simp [pidName, digitsText, bchars]
  simp only [IsName, firstTasks, List.mem_cons, List.not_mem_nil, or_false, exists_eq_or_imp,
    exists_eq_left, hzero, hone]

def leadingZero : CString := ⟨asciiBytes ['/', '0', '1'], by simp [asciiBytes]⟩

def wrapped : CString :=
  ⟨asciiBytes ['/', '4', '2', '9', '4', '9', '6', '7', '2', '9', '7'], by simp [asciiBytes]⟩

def noDigits : CString := ⟨asciiBytes ['/', '/', ';'], by simp [asciiBytes]⟩

/-- Three more names of the task with pid 1. -/
theorem procfs_other_names :
    ¬NamesAgree firstTasks leadingZero [] ∧ ¬NamesAgree firstTasks wrapped [] ∧
      ¬NamesAgree firstTasks noDigits [] := by
  have hother : ∀ path : CString, procfsGetInode firstTasks path [] = 1 →
      ¬(path.bytes = [pathSeparator] ∨ IsFile path.bytes ∨ path.bytes = [pathSeparator, 0x30] ∨
        path.bytes = [pathSeparator, 0x31]) → ¬NamesAgree firstTasks path [] := by
    intro path hfound hnot hagree
    refine hnot ((isName_first_iff path.bytes).mp (hagree.lookup.mp ?_))
    rw [hfound]
    decide
  unfold IsFile at hother
  exact ⟨hother _ (by decide) (by decide), hother _ (by decide) (by decide),
    hother _ (by decide) (by decide)⟩

end Levos.Fs
