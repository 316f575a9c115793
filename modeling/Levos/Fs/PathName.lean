import Levos.Fs.Canonical

/-!
# The last name of a path (`include/levos/fs.h`)

`__path_get_path` scans a path forwards, `__path_get_name` backwards. They cut
it at the same separator, the last one, which for a path that ends with a
separator is the wrong one: the check for this looks at the byte behind it, the
zero byte of the string.
-/

namespace Levos.Fs

open Levos.Base Levos.Lib

/-! ## The functions of the source -/

/-- A byte of a string, or its zero byte. -/
def strByte (path : List UInt8) (i : Nat) : UInt8 := path.getD i 0

/-- `last_idx` after the loop of `__path_get_path`. -/
def lastIdx (path : List UInt8) : Nat :=
  (List.range path.length).foldl (fun lastIdx i =>
    if strByte path i = pathSeparator then i else lastIdx) 0

/-- `__path_get_path`: a string in a new buffer. -/
def pathGetPathStr (path : List UInt8) : Option (List UInt8) :=
  if lastIdx path = 0 then some [pathSeparator]
  else
    (storeBytes (List.replicate (lastIdx path + 2) 0) 0 (path.take (lastIdx path))).bind fun ret =>
      bufString (ret.set (lastIdx path + 1) 0) 0

/-- The loop of `__path_get_name`; without a separator it leaves the string. -/
def nameLoop (path : List UInt8) : Nat → Option Nat
  | 0 => if strByte path 0 = pathSeparator then some 0 else none
  | len + 1 => if strByte path (len + 1) = pathSeparator then some (len + 1) else nameLoop path len

/-- `__path_get_name`. -/
def pathGetNameStr (path : List UInt8) : Option (List UInt8) :=
  let len := if strByte path path.length = pathSeparator then path.length - 1 else path.length
  (nameLoop path len).map fun len => path.drop (len + 1)

/-! ## The two scans -/

section Scans

variable {path : List UInt8}

theorem strByte_eq_separator {i : Nat} :
    strByte path i = pathSeparator ↔ path[i]? = some pathSeparator := by
  rw [strByte, List.getD_eq_getElem?_getD]
  cases path[i]? with
  | none => simp [pathSeparator]
  | some a => simp

theorem nameLoop_eq (path : List UInt8) (n : Nat) : nameLoop path n = lastSeparator path n := by
  induction n with
  | zero => rw [nameLoop, lastSeparator, if_congr strByte_eq_separator rfl rfl]
  | succ n ih => rw [nameLoop, lastSeparator, ih, if_congr strByte_eq_separator rfl rfl]

theorem strByte_length (path : List UInt8) : strByte path path.length ≠ pathSeparator := by
  rw [ne_eq, strByte_eq_separator, List.getElem?_eq_none le_rfl]
  simp

/-- The check for a separator at the end does not find one. -/
theorem pathGetNameStr_eq (path : List UInt8) : pathGetNameStr path = pathGetName path := by
  rw [pathGetNameStr, if_neg (strByte_length path), nameLoop_eq, pathGetName]

theorem lastIdx_eq (path : List UInt8) :
    lastIdx path = (lastSeparator path path.length).getD 0 := by
  have hscan : ∀ n, (List.range (n + 1)).foldl (fun lastIdx i =>
      if strByte path i = pathSeparator then i else lastIdx) 0 = (lastSeparator path n).getD 0 := by
    intro n
    induction n with
    | zero =>
        rw [lastSeparator]
        split <;> simp
    | succ n ih =>
        rw [List.range_succ, List.foldl_append, ih, List.foldl_cons, List.foldl_nil, lastSeparator]
        by_cases h : path[n + 1]? = some pathSeparator
        · rw [if_pos h, if_pos (strByte_eq_separator.mpr h), Option.getD_some]
        · rw [if_neg h, if_neg (mt strByte_eq_separator.mp h)]
  rw [← hscan, List.range_succ, List.foldl_append, List.foldl_cons, List.foldl_nil,
    if_neg (strByte_length path)]
  rfl

theorem lastIdx_le (path : List UInt8) : lastIdx path ≤ path.length := by
  rw [lastIdx_eq]
  cases h : lastSeparator path path.length with
  | none => exact Nat.zero_le _
  | some i => exact (lastSeparator_some h).2.1

/-- The string in the buffer. -/
theorem pathGetPathStr_eq (h0 : ∀ a ∈ path, a ≠ 0) :
    pathGetPathStr path = some (pathGetPath path) := by
  rw [pathGetPathStr, pathGetPath, ← lastIdx_eq]
  generalize hi : lastIdx path = i
  by_cases hzero : i = 0
  · rw [if_pos hzero, if_pos hzero]
  · have hle : i ≤ path.length := hi ▸ lastIdx_le path
    have hlen : (path.take i).length = i := by rw [List.length_take, min_eq_left hle]
    have hbuf : List.replicate (i + 2) (0 : UInt8) = [] ++ (List.replicate i 0 ++ [0, 0]) := by
      rw [List.replicate_add]
      rfl
    have hstore : storeBytes (List.replicate (i + 2) 0) 0 (path.take i) =
        some (path.take i ++ [0, 0]) := by
      have hold : (List.replicate i (0 : UInt8)).length = (path.take i).length := by
        rw [List.length_replicate, hlen]
      rw [hbuf]
      exact storeBytes_eq hold
    have hset : (path.take i ++ [0, 0]).set (i + 1) 0 = path.take i ++ [0, 0] := by
      rw [List.set_append_right _ _ (by omega), hlen, Nat.add_sub_cancel_left]
      rfl
    rw [if_neg hzero, if_neg hzero, hstore, Option.bind_some, hset]
    have hstring : bufString ([] ++ (path.take i ++ 0 :: [0])) 0 = _ :=
      bufString_eq fun a ha => h0 a (List.mem_of_mem_take ha)
    exact hstring

end Scans

/-! ## Paths and names -/

/-- The path is cut into a directory and a name, which together lead where it
does. -/
def SplitRight (heap : Nat → UInt8) (path : List UInt8) : Prop :=
  ∃ dir name, pathGetPathStr path = some dir ∧ pathGetNameStr path = some name ∧
    name ≠ [] ∧ pathSeparator ∉ name ∧
    ∀ cwd, canonicalizePathStr heap cwd (dir ++ pathSeparator :: name) =
      canonicalizePathStr heap cwd path

section Split

variable {path name : List UInt8}

/-- An absolute path has a last separator. -/
theorem pathGetName_absolute (habs : path.head? = some pathSeparator) :
    ∃ name, pathGetName path = some name := by
  have hzero : path[0]? = some pathSeparator := by rwa [← List.head?_eq_getElem?]
  have hsome : ∀ n, ∃ i, lastSeparator path n = some i := by
    intro n
    induction n with
    | zero => exact ⟨0, if_pos hzero⟩
    | succ n ih =>
        rw [lastSeparator]
        split
        · exact ⟨_, rfl⟩
        · exact ih
  obtain ⟨i, hi⟩ := hsome path.length
  exact ⟨_, by rw [pathGetName, hi, Option.map_some]⟩

/-- The name is empty when the path ends with a separator. -/
theorem name_eq_nil_iff (h : pathGetName path = some name) :
    name = [] ↔ path.getLast? = some pathSeparator := by
  obtain ⟨pre, rfl, hsep, -⟩ := path_split h
  rcases List.eq_nil_or_concat name with rfl | ⟨name, a, rfl⟩
  · simp
  · refine iff_of_false (by simp) ?_
    rw [List.concat_eq_append] at hsep ⊢
    rw [← List.cons_append, ← List.append_assoc, List.getLast?_concat]
    exact fun heq => hsep (by simp [Option.some.inj heq])

/-- One more separator at the start. -/
theorem canonicalizePathStr_cons (heap : Nat → UInt8) (cwd : List UInt8)
    (h0 : ∀ a ∈ path, a ≠ 0) (habs : path.head? = some pathSeparator) :
    canonicalizePathStr heap cwd (pathSeparator :: path) = canonicalizePathStr heap cwd path := by
  have hcons0 : ∀ a ∈ pathSeparator :: path, a ≠ 0 := by
    rw [List.forall_mem_cons]
    exact ⟨by decide, h0⟩
  rw [canonicalizePathStr_absolute heap cwd rfl hcons0,
    canonicalizePathStr_absolute heap cwd habs h0, resolveAll_cons]

/-- **Path splitting.** For every absolute path, the directory and the name are
those of the path exactly when it does not end with a separator. -/
theorem path_split_iff (heap : Nat → UInt8) (path : CString)
    (habs : path.bytes.head? = some pathSeparator) :
    SplitRight heap path.bytes ↔ path.bytes.getLast? ≠ some pathSeparator := by
  obtain ⟨name, hname⟩ := pathGetName_absolute habs
  obtain ⟨pre, hpath, hsep, hdir⟩ := path_split hname
  rw [ne_eq, ← name_eq_nil_iff hname]
  constructor
  · rintro ⟨-, name', -, hname', hne, -⟩
    rw [pathGetNameStr_eq, hname] at hname'
    rwa [Option.some.inj hname']
  · intro hne
    refine ⟨_, name, pathGetPathStr_eq path.nonzero, (pathGetNameStr_eq _).trans hname, hne, hsep,
      fun cwd => ?_⟩
    rw [hdir]
    split
    · next hpre =>
      have hone : pathSeparator :: name = path.bytes := by rw [hpath, hpre, List.nil_append]
      rw [List.singleton_append, hone]
      exact canonicalizePathStr_cons heap cwd path.nonzero habs
    · rw [← hpath]

/-- The path "/usr/bin". -/
def usrBin : CString := ⟨[47, 117, 115, 114, 47, 98, 105, 110], by simp⟩

theorem path_split_iff_bin :
    SplitRight (fun _ => 0xCC) usrBin.bytes ↔ usrBin.bytes.getLast? ≠ some pathSeparator :=
  path_split_iff (fun _ => 0xCC) usrBin rfl

/-- The name of "/usr/bin/" is empty, and its directory is "/usr/bin". -/
theorem path_split_trailing :
    pathGetPathStr (usrBin.bytes ++ [pathSeparator]) = some usrBin.bytes ∧
      pathGetNameStr (usrBin.bytes ++ [pathSeparator]) = some [] ∧
      ¬ SplitRight (fun _ => 0xCC) (usrBin.bytes ++ [pathSeparator]) := by
  have hname : pathGetNameStr (usrBin.bytes ++ [pathSeparator]) = some [] := by decide
  refine ⟨by decide, hname, ?_⟩
  rintro ⟨-, name, -, hname', hne, -⟩
  rw [hname] at hname'
  exact hne (Option.some.inj hname').symm

end Split

end Levos.Fs
