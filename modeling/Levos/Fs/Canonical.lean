import Levos.Lib.CString
import Levos.Lib.Strtok
import Levos.Fs.Ext2.Lookup

/-!
# Canonical paths (`fs/vfs.c`)

`__canonicalize_path` on the buffers it allocates: the tokens of the working
directory and of the path, a list of elements, and the string that it joins
them to. What it returns is what a fold over the components of the two paths
gives, and is in a normal form.
-/

namespace Levos.Fs

open Levos.Base Levos.Lib

/-! ## The function of the source -/

/-- The loop that joins the elements: a separator before each one, and its zero
byte after it, which the next one overwrites. -/
def joinElements : List (List UInt8) → List UInt8 → Nat → Option (List UInt8)
  | [], output, _ => some output
  | s :: out, output, offset =>
      (storeBytes output offset [pathSeparator]).bind fun output =>
        (storeBytes output (offset + 1) (s ++ [0])).bind fun output =>
          joinElements out output (offset + 1 + s.length)

/-- The size of the path string. -/
def joinedSize (out : List (List UInt8)) : Nat := (out.map fun s => s.length + 1).sum

/-- `__canonicalize_path`, with the buffer it returns; `heap` is what `malloc`
finds in memory. A call of `strtok_r` goes past at least one byte of its
string, or is the last one. -/
def canonicalizePathBuf (heap : Nat → UInt8) (cwd input : List UInt8) : Option (List UInt8) :=
  let relative := input ≠ [] ∧ input.head? ≠ some pathSeparator
  (if relative then
      strtokLoop [pathSeparator] (fun out pch => out ++ [pch]) (cwd.length + 1) (cwd ++ [0]) 0 []
    else some []).bind fun out =>
  (strtokLoop [pathSeparator] pushElement (input.length + 1) (input ++ [0]) 0 out).bind fun out =>
  if joinedSize out = 0 then storeBytes ((List.range 2).map heap) 0 [pathSeparator, 0]
  else joinElements out ((List.range (joinedSize out + 1)).map heap) 0

/-- The string that it returns. -/
def canonicalizePathStr (heap : Nat → UInt8) (cwd input : List UInt8) : Option (List UInt8) :=
  (canonicalizePathBuf heap cwd input).bind fun output => bufString output 0

/-! ## The meaning of a path -/

/-- One component of a path, after those in `stack`: an empty one and "." stay
where they are, ".." goes up, from the root to the root. -/
def resolve (stack : List (List UInt8)) (c : List UInt8) : List (List UInt8) :=
  if c = [] ∨ c = [46] then stack else if c = [46, 46] then stack.dropLast else stack ++ [c]

def resolveAll (stack : List (List UInt8)) (path : List UInt8) : List (List UInt8) :=
  (path.splitOn pathSeparator).foldl resolve stack

/-- The components that a path leads through: from the root, or from a working
directory when it begins with another byte than a separator. -/
def resolvePath (cwd input : List UInt8) : List (List UInt8) :=
  resolveAll (if input = [] ∨ input.head? = some pathSeparator then [] else resolveAll [] cwd) input

/-- The path of a stack of components. -/
def stackPath (stack : List (List UInt8)) : List UInt8 :=
  pathSeparator :: [pathSeparator].intercalate stack

/-- An absolute path without empty components, "." and "..". -/
def CanonicalPath (path : List UInt8) : Prop :=
  path = [pathSeparator] ∨ path.head? = some pathSeparator ∧
    ∀ c ∈ path.tail.splitOn pathSeparator, c ≠ [] ∧ c ≠ [46] ∧ c ≠ [46, 46]

/-- A component of such a path. -/
def IsComponent (c : List UInt8) : Prop := IsToken (· == pathSeparator) c ∧ c ≠ [46] ∧ c ≠ [46, 46]

/-! ## Tokens -/

section Tokens

variable {s : List UInt8} {c : List UInt8} {stack comps : List (List UInt8)}

theorem separator_mem : (fun c : UInt8 => decide (c ∈ [pathSeparator])) = (· == pathSeparator) := by
  funext c
  rw [beq_eq_decide]
  exact decide_eq_decide.mpr List.mem_singleton

theorem strtokLoop_path {β : Type} (f : β → List UInt8 → β) (hs : ∀ a ∈ s, a ≠ 0) (acc : β) :
    strtokLoop [pathSeparator] f (s.length + 1) (s ++ [0]) 0 acc =
      some ((pathTokens s).foldl f acc) := by
  have h : strtokLoop [pathSeparator] f (s.length + 1) ([] ++ (s ++ 0 :: [])) 0 acc = _ :=
    strtokLoop_eq f hs (Nat.lt_succ_self _) acc
  rwa [separator_mem, ← pathTokens_eq] at h

/-- Empty components do not count. -/
theorem resolveAll_eq (stack : List (List UInt8)) (s : List UInt8) :
    resolveAll stack s = (pathTokens s).foldl pushElement stack := by
  rw [resolveAll, pathTokens_eq, tokens, List.foldl_filter, List.splitOn_eq_splitOnP]
  congr 1
  funext stack c
  by_cases h0 : c = []
  · simp [resolve, h0]
  · by_cases hdot : c = [46]
    · simp [resolve, pushElement, hdot]
    · simp [resolve, pushElement, h0, hdot]

theorem pushElement_component (hc : IsComponent c) (stack : List (List UInt8)) :
    pushElement stack c = stack ++ [c] := by
  rw [pushElement, if_neg hc.2.2, if_neg hc.2.1]

theorem foldl_pushElement (hcomps : ∀ c ∈ comps, IsComponent c) (stack : List (List UInt8)) :
    comps.foldl pushElement stack = stack ++ comps := by
  induction comps generalizing stack with
  | nil => exact (List.append_nil _).symm
  | cons c comps ih =>
      rw [List.forall_mem_cons] at hcomps
      rw [List.foldl_cons, pushElement_component hcomps.1, ih hcomps.2, List.append_assoc,
        List.singleton_append]

/-- What all elements of a stack are, and the tokens that are pushed. -/
theorem forall_foldl_pushElement {Q : List UInt8 → Prop} {ts : List (List UInt8)}
    (hstack : ∀ c ∈ stack, Q c) (hts : ∀ t ∈ ts, t ≠ [46] → t ≠ [46, 46] → Q t) :
    ∀ c ∈ ts.foldl pushElement stack, Q c := by
  induction ts generalizing stack with
  | nil => exact hstack
  | cons t ts ih =>
      rw [List.forall_mem_cons] at hts
      refine ih ?_ hts.2
      rw [pushElement]
      split
      · exact fun c hc => hstack c (List.mem_of_mem_dropLast hc)
      · next hup =>
        split
        · exact hstack
        · next hdot =>
          rw [List.forall_mem_append, List.forall_mem_singleton]
          exact ⟨hstack, hts.1 hdot hup⟩

theorem isComponent_of_mem (hstack : ∀ c ∈ stack, IsComponent c) (s : List UInt8) :
    ∀ c ∈ (pathTokens s).foldl pushElement stack, IsComponent c := by
  refine forall_foldl_pushElement hstack fun t ht hdot hup => ?_
  rw [pathTokens_eq] at ht
  exact ⟨(isToken_of_mem ht).1, hdot, hup⟩

/-! ## Canonical paths -/

theorem stackPath_eq (stack : List (List UInt8)) :
    stackPath stack = if stack = [] then [pathSeparator] else joinTokens pathSeparator stack := by
  split
  · next h0 =>
    rw [h0]
    rfl
  · next hne =>
    obtain ⟨c, stack, rfl⟩ := List.exists_cons_of_ne_nil hne
    rw [stackPath]
    induction stack generalizing c with
    | nil =>
        rw [List.intercalate_singleton, joinTokens_cons]
        exact congrArg _ (List.append_nil c).symm
    | cons c' stack ih =>
        rw [List.intercalate_cons_cons, joinTokens_cons, ← ih c' (List.cons_ne_nil _ _),
          List.append_assoc, List.singleton_append]

/-- A canonical path is the path of a stack. -/
theorem canonicalPath_iff {path : List UInt8} :
    CanonicalPath path ↔ ∃ comps, (∀ c ∈ comps, IsComponent c) ∧ path = stackPath comps := by
  constructor
  · rintro (rfl | ⟨hhead, hcomps⟩)
    · exact ⟨[], by simp, rfl⟩
    · cases path with
      | nil => cases hhead
      | cons a rest =>
          obtain rfl : a = pathSeparator := Option.some.inj hhead
          refine ⟨rest.splitOn pathSeparator, fun c hc => ?_, ?_⟩
          · obtain ⟨h0, hdot, hup⟩ := hcomps c hc
            exact ⟨⟨h0, not_mem_of_mem_splitOnP hc⟩, hdot, hup⟩
          · rw [stackPath, List.intercalate_splitOn]
  · rintro ⟨comps, hcomps, rfl⟩
    rcases eq_or_ne comps [] with rfl | hne
    · exact .inl rfl
    · refine .inr ⟨rfl, ?_⟩
      rw [stackPath, List.tail_cons, List.splitOn_intercalate _ _ hne]
      · exact fun c hc => ⟨(hcomps c hc).1.1, (hcomps c hc).2⟩
      · intro c hc hmem
        have hsep := (hcomps c hc).1.2 _ hmem
        simp at hsep

theorem pathTokens_stackPath (hcomps : ∀ c ∈ comps, IsComponent c) :
    pathTokens (stackPath comps) = comps := by
  rw [pathTokens_eq, stackPath_eq]
  split
  · next h0 =>
    rw [h0, tokens_cons (by simp), tokens_nil]
  · exact tokens_joinTokens (by simp) fun c hc => (hcomps c hc).1

/-- A canonical path other than the root does not end with a separator. -/
theorem CanonicalPath.getLast {path : List UInt8} (h : CanonicalPath path)
    (hne : path ≠ [pathSeparator]) : path.getLast? ≠ some pathSeparator := by
  obtain ⟨comps, hcomps, rfl⟩ := canonicalPath_iff.mp h
  rw [stackPath_eq] at hne ⊢
  by_cases h0 : comps = []
  · exact absurd (if_pos h0) hne
  · rw [if_neg h0]
    obtain ⟨init, c, rfl⟩ : ∃ init c, comps = init ++ [c] :=
      ⟨_, _, (List.dropLast_append_getLast h0).symm⟩
    have hc := hcomps c (by simp)
    rw [joinTokens, List.flatMap_append, List.flatMap_singleton,
      List.getLast?_append_of_ne_nil _ (List.cons_ne_nil _ _), List.getLast?_cons,
      List.getLast?_eq_some_getLast hc.1.1, Option.getD_some]
    intro heq
    have hsep := hc.1.2 _ (List.getLast_mem hc.1.1)
    rw [Option.some.inj heq] at hsep
    simp at hsep

/-! ## The buffers -/

theorem joinedSize_eq_zero {out : List (List UInt8)} : joinedSize out = 0 ↔ out = [] := by
  cases out with
  | nil => exact iff_of_true rfl rfl
  | cons s out =>
      refine iff_of_false (fun h => ?_) (List.cons_ne_nil _ _)
      rw [joinedSize, List.map_cons, List.sum_cons] at h
      omega

/-- The elements are stored one behind the other, within the buffer. -/
theorem joinElements_eq {out : List (List UInt8)} {pre old : List UInt8}
    (hold : old.length = joinedSize out + 1) (hnil : out = [] → old = [0]) :
    joinElements out (pre ++ old) pre.length =
      some (pre ++ (joinTokens pathSeparator out ++ [0])) := by
  induction out generalizing pre old with
  | nil => rw [hnil rfl]; rfl
  | cons s out ih =>
      rw [joinedSize, List.map_cons, List.sum_cons, ← joinedSize] at hold
      obtain ⟨a, old, rfl⟩ := List.exists_cons_of_length_eq_add_one hold
      rw [List.length_cons] at hold
      -- the bytes that the element overwrites, and those behind it
      obtain ⟨under, rest, rfl, hunder⟩ :
          ∃ under rest, old = under ++ rest ∧ under.length = (s ++ [0]).length :=
        ⟨_, _, (List.take_append_drop (s.length + 1) old).symm, by simp; omega⟩
      have hrest : rest.length = joinedSize out := by
        rw [List.length_append, hunder, List.length_append, List.length_singleton] at hold
        omega
      have hsep : storeBytes (pre ++ (a :: (under ++ rest))) pre.length [pathSeparator] =
          some (pre ++ [pathSeparator] ++ (under ++ rest)) := by
        have hone : storeBytes (pre ++ ([a] ++ (under ++ rest))) pre.length [pathSeparator] = _ :=
          storeBytes_eq rfl
        rwa [← List.append_assoc pre [pathSeparator]] at hone
      have hnext : pre ++ [pathSeparator] ++ (s ++ [0] ++ rest) =
          pre ++ [pathSeparator] ++ s ++ 0 :: rest := by
        simp only [List.append_assoc, List.cons_append, List.nil_append]
      have hindex : (pre ++ [pathSeparator]).length + s.length =
          (pre ++ [pathSeparator] ++ s).length := (List.length_append ..).symm
      rw [joinElements, hsep, Option.bind_some, ← List.length_singleton (a := pathSeparator),
        ← List.length_append, storeBytes_eq hunder, Option.bind_some, hnext, hindex,
        ih (by rw [List.length_cons, hrest]) fun hnil => ?_, joinTokens_cons]
      · simp only [List.append_assoc, List.nil_append, List.cons_append]
      · rw [hnil] at hrest
        rw [List.eq_nil_of_length_eq_zero hrest]

/-- The bytes of a path are those of its components and separators. -/
theorem stackPath_nonzero (hstack : ∀ t ∈ stack, ∀ a ∈ t, a ≠ 0) :
    ∀ a ∈ stackPath stack, a ≠ 0 := by
  intro a ha
  rw [stackPath_eq] at ha
  split at ha
  · rw [List.mem_singleton.mp ha]
    decide
  · obtain ⟨t, ht, ha⟩ := List.mem_flatMap.mp ha
    rcases List.mem_cons.mp ha with rfl | ha
    · decide
    · exact hstack t ht a ha

/-- What `__canonicalize_path` joins the elements to, with the zero byte. -/
theorem join_eq (heap : Nat → UInt8) (out : List (List UInt8)) :
    (if joinedSize out = 0 then storeBytes ((List.range 2).map heap) 0 [pathSeparator, 0]
      else joinElements out ((List.range (joinedSize out + 1)).map heap) 0) =
      some (stackPath out ++ [0]) := by
  rw [stackPath_eq]
  by_cases h0 : out = []
  · rw [if_pos (joinedSize_eq_zero.mpr h0), if_pos h0]
    rfl
  · rw [if_neg fun h => h0 (joinedSize_eq_zero.mp h), if_neg h0]
    have hjoin : joinElements out ([] ++ (List.range (joinedSize out + 1)).map heap) 0 = _ :=
      joinElements_eq (by simp) fun h => absurd h h0
    exact hjoin

variable {cwd input : List UInt8}

/-- The stack that the two loops over tokens leave. -/
theorem resolvePath_eq (hcwd : CanonicalPath cwd) (input : List UInt8) :
    resolvePath cwd input = (pathTokens input).foldl pushElement
      (if input ≠ [] ∧ input.head? ≠ some pathSeparator then pathTokens cwd else []) := by
  obtain ⟨comps, hcomps, rfl⟩ := canonicalPath_iff.mp hcwd
  have hstart : resolveAll [] (stackPath comps) = comps := by
    rw [resolveAll_eq, pathTokens_stackPath hcomps, foldl_pushElement hcomps, List.nil_append]
  rw [resolvePath, resolveAll_eq, hstart, pathTokens_stackPath hcomps]
  by_cases h : input = [] ∨ input.head? = some pathSeparator
  · rw [if_pos h, if_neg (by tauto)]
  · rw [if_neg h, if_pos (not_or.mp h)]

theorem resolvePath_component (hcwd : CanonicalPath cwd) (input : List UInt8) :
    ∀ c ∈ resolvePath cwd input, IsComponent c := by
  rw [resolvePath_eq hcwd]
  refine isComponent_of_mem ?_ input
  obtain ⟨comps, hcomps, rfl⟩ := canonicalPath_iff.mp hcwd
  rw [pathTokens_stackPath hcomps]
  split
  · exact hcomps
  · simp

/-- The path of the stack that the two loops leave. -/
theorem canonicalizePath_stack (cwd input : List UInt8) :
    canonicalizePath cwd input = stackPath ((pathTokens input).foldl pushElement
      (if input ≠ [] ∧ input.head? ≠ some pathSeparator then pathTokens cwd else [])) := by
  rw [stackPath_eq]
  rfl

theorem canonicalizePath_eq (hcwd : CanonicalPath cwd) (input : List UInt8) :
    canonicalizePath cwd input = stackPath (resolvePath cwd input) := by
  rw [canonicalizePath_stack, resolvePath_eq hcwd]

theorem canonicalizePath_nonzero (hcwd0 : ∀ a ∈ cwd, a ≠ 0) (hinput0 : ∀ a ∈ input, a ≠ 0) :
    ∀ a ∈ canonicalizePath cwd input, a ≠ 0 := by
  have hbytes : ∀ s : List UInt8, (∀ a ∈ s, a ≠ 0) → ∀ t ∈ pathTokens s, ∀ a ∈ t, a ≠ 0 :=
    fun s hs t ht a ha => by
      rw [pathTokens_eq] at ht
      exact hs a ((isToken_of_mem ht).2 a ha)
  rw [canonicalizePath_stack]
  refine stackPath_nonzero (forall_foldl_pushElement ?_ fun t ht _ _ => hbytes input hinput0 t ht)
  split
  · exact hbytes cwd hcwd0
  · simp

/-- The function on buffers computes the one on lists. -/
theorem canonicalizePathStr_refines (heap : Nat → UInt8) (hcwd0 : ∀ a ∈ cwd, a ≠ 0)
    (hinput0 : ∀ a ∈ input, a ≠ 0) :
    canonicalizePathStr heap cwd input = some (canonicalizePath cwd input) := by
  have hstart : (if input ≠ [] ∧ input.head? ≠ some pathSeparator then
      strtokLoop [pathSeparator] (fun out pch => out ++ [pch]) (cwd.length + 1) (cwd ++ [0]) 0 []
      else some []) = some (if input ≠ [] ∧ input.head? ≠ some pathSeparator then pathTokens cwd
        else []) := by
    split
    · rw [strtokLoop_path _ hcwd0, List.foldl_append_eq_append, List.nil_append, ← List.flatMap_def,
        List.flatMap_singleton']
    · rfl
  rw [canonicalizePathStr, canonicalizePathBuf, hstart, Option.bind_some,
    strtokLoop_path _ hinput0, Option.bind_some, join_eq, Option.bind_some,
    ← canonicalizePath_stack]
  have hstring : bufString ([] ++ (canonicalizePath cwd input ++ 0 :: [])) 0 = _ :=
    bufString_eq (canonicalizePath_nonzero hcwd0 hinput0)
  exact hstring

/-- The string is the path that the components lead to. -/
theorem canonicalizePathStr_eq (heap : Nat → UInt8) (hcwd : CanonicalPath cwd)
    (hcwd0 : ∀ a ∈ cwd, a ≠ 0) (hinput0 : ∀ a ∈ input, a ≠ 0) :
    canonicalizePathStr heap cwd input = some (stackPath (resolvePath cwd input)) := by
  rw [canonicalizePathStr_refines heap hcwd0 hinput0, canonicalizePath_eq hcwd]

/-! ## The results -/

/-- The working directory does not matter for an absolute path. -/
theorem canonicalizePathStr_absolute (heap : Nat → UInt8) (cwd : List UInt8)
    (habs : input.head? = some pathSeparator) (hinput0 : ∀ a ∈ input, a ≠ 0) :
    canonicalizePathStr heap cwd input = some (stackPath (resolveAll [] input)) := by
  have hroot : canonicalizePathStr heap cwd input =
      canonicalizePathStr heap [pathSeparator] input := by
    rw [canonicalizePathStr, canonicalizePathBuf, canonicalizePathStr, canonicalizePathBuf,
      if_neg fun h => h.2 habs, if_neg fun h => h.2 habs]
  rw [hroot, canonicalizePathStr_eq heap (.inl rfl) (by simp [pathSeparator]) hinput0, resolvePath,
    if_pos (.inr habs)]

/-- One more separator at the start. -/
theorem resolveAll_cons (stack : List (List UInt8)) (path : List UInt8) :
    resolveAll stack (pathSeparator :: path) = resolveAll stack path := by
  rw [resolveAll_eq, resolveAll_eq, pathTokens_eq, pathTokens_eq, tokens_cons (by simp)]

/-- A path behind the working directory. -/
theorem resolveAll_join (hcwd : CanonicalPath cwd) (hne : input ≠ [])
    (hrel : input.head? ≠ some pathSeparator) :
    resolveAll [] (cwd ++ pathSeparator :: input) = resolvePath cwd input := by
  obtain ⟨comps, hcomps, rfl⟩ := canonicalPath_iff.mp hcwd
  rw [resolvePath_eq hcwd, if_pos ⟨hne, hrel⟩, resolveAll_eq, pathTokens_eq,
    tokens_append_cons _ (by simp), ← pathTokens_eq, ← pathTokens_eq, List.foldl_append,
    pathTokens_stackPath hcomps, foldl_pushElement hcomps, List.nil_append]

/-- The parent of the root. -/
theorem resolveAll_parent (habs : input.head? = some pathSeparator) :
    resolveAll [] (pathSeparator :: 46 :: 46 :: input) = resolveAll [] input := by
  obtain ⟨rest, rfl⟩ := List.head?_eq_some_iff.mp habs
  have hup : IsToken (· == pathSeparator) [46, 46] :=
    ⟨List.cons_ne_nil _ _, by simp [pathSeparator]⟩
  have htokens := hup.tokens_append (by simp : (pathSeparator == pathSeparator) = true) rest
  rw [List.cons_append, List.cons_append, List.nil_append] at htokens
  rw [resolveAll_cons, resolveAll_cons, resolveAll_eq, resolveAll_eq, pathTokens_eq, htokens,
    pathTokens_eq]
  rfl

/-- A canonical path leads to itself. -/
theorem resolveAll_self {path : List UInt8} (h : CanonicalPath path) :
    stackPath (resolveAll [] path) = path := by
  obtain ⟨comps, hcomps, rfl⟩ := canonicalPath_iff.mp h
  rw [resolveAll_eq, pathTokens_stackPath hcomps, foldl_pushElement hcomps, List.nil_append]

end Tokens

/-- **Canonical paths.** `__canonicalize_path` returns the path that the
components of the working directory and the input lead to, in canonical form. -/
theorem canonicalize_path (heap heap' : Nat → UInt8) (cwd input : CString)
    (hcwd : CanonicalPath cwd.bytes) :
    ∃ out, canonicalizePathStr heap cwd.bytes input.bytes = some out ∧
      out = stackPath (resolvePath cwd.bytes input.bytes) ∧
      CanonicalPath out ∧ (out ≠ [pathSeparator] → out.getLast? ≠ some pathSeparator) ∧
      (∀ cwd', canonicalizePathStr heap' cwd' out = some out) ∧
      (input.bytes ≠ [] → input.bytes.head? ≠ some pathSeparator →
        canonicalizePathStr heap' [pathSeparator] (cwd.bytes ++ pathSeparator :: input.bytes) =
          some out) ∧
      (input.bytes.head? = some pathSeparator → ∀ cwd',
        canonicalizePathStr heap' cwd' input.bytes = some out ∧
        canonicalizePathStr heap' cwd' (pathSeparator :: 46 :: 46 :: input.bytes) = some out) := by
  have hcomps := resolvePath_component hcwd input.bytes
  have hout : CanonicalPath (stackPath (resolvePath cwd.bytes input.bytes)) :=
    canonicalPath_iff.mpr ⟨_, hcomps, rfl⟩
  have hout0 := canonicalizePath_nonzero cwd.nonzero input.nonzero
  rw [canonicalizePath_eq hcwd] at hout0
  have hsep0 : pathSeparator ≠ 0 := by decide
  refine ⟨_, canonicalizePathStr_eq heap hcwd cwd.nonzero input.nonzero, rfl, hout, hout.getLast,
    fun cwd' => ?_, fun hne hrel => ?_, fun habs cwd' => ?_⟩
  · rw [canonicalizePathStr_absolute heap' cwd' rfl hout0, resolveAll_self hout]
  · have hhead : (cwd.bytes ++ pathSeparator :: input.bytes).head? = some pathSeparator := by
      obtain ⟨comps, -, hpath⟩ := canonicalPath_iff.mp hcwd
      rw [hpath]
      rfl
    have hjoin0 : ∀ a ∈ cwd.bytes ++ pathSeparator :: input.bytes, a ≠ 0 := by
      rw [List.forall_mem_append, List.forall_mem_cons]
      exact ⟨cwd.nonzero, hsep0, input.nonzero⟩
    rw [canonicalizePathStr_absolute heap' _ hhead hjoin0, resolveAll_join hcwd hne hrel]
  · have hparent0 : ∀ a ∈ pathSeparator :: 46 :: 46 :: input.bytes, a ≠ 0 := by
      rw [List.forall_mem_cons, List.forall_mem_cons, List.forall_mem_cons]
      exact ⟨hsep0, by decide, by decide, input.nonzero⟩
    have hstack : resolvePath cwd.bytes input.bytes = resolveAll [] input.bytes := by
      rw [resolvePath, if_pos (.inr habs)]
    rw [hstack]
    exact ⟨canonicalizePathStr_absolute heap' cwd' habs input.nonzero,
      by rw [canonicalizePathStr_absolute heap' cwd' rfl hparent0, resolveAll_parent habs]⟩

/-- The working directory "/a", and the path "../b//./c/". -/
def homeDir : CString := ⟨[47, 97], by simp⟩
def dottedPath : CString := ⟨[46, 46, 47, 98, 47, 47, 46, 47, 99, 47], by simp⟩

theorem canonicalize_path_dotted :
    ∃ out, canonicalizePathStr (fun _ => 0xCC) homeDir.bytes dottedPath.bytes = some out ∧
      out = stackPath (resolvePath homeDir.bytes dottedPath.bytes) ∧
      CanonicalPath out ∧ (out ≠ [pathSeparator] → out.getLast? ≠ some pathSeparator) ∧
      (∀ cwd', canonicalizePathStr (fun _ => 0xAB) cwd' out = some out) ∧
      (dottedPath.bytes ≠ [] → dottedPath.bytes.head? ≠ some pathSeparator →
        canonicalizePathStr (fun _ => 0xAB) [pathSeparator]
          (homeDir.bytes ++ pathSeparator :: dottedPath.bytes) = some out) ∧
      (dottedPath.bytes.head? = some pathSeparator → ∀ cwd',
        canonicalizePathStr (fun _ => 0xAB) cwd' dottedPath.bytes = some out ∧
        canonicalizePathStr (fun _ => 0xAB) cwd' (pathSeparator :: 46 :: 46 :: dottedPath.bytes) =
          some out) :=
  canonicalize_path (fun _ => 0xCC) (fun _ => 0xAB) homeDir dottedPath (by
    refine .inr ⟨rfl, ?_⟩
    decide)

/-- What this gives: "/b/c". -/
example : canonicalizePathStr (fun _ => 0xCC) homeDir.bytes dottedPath.bytes =
    some [47, 98, 47, 99] := by decide +kernel

end Levos.Fs
