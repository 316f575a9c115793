import Levos.Base.Tokens
import Levos.Fs.Ext2.NewInode

/-!
# Names and paths (`fs/ext2/file.c`, `include/levos/fs.h`)

A path is split at its last separator, and the last name is looked for where
the rest of the path leads to. What a path leads to stays the same as long as
the directories on it do.
-/

namespace Levos.Fs

open Levos.Base Levos.Kernel

/-! ## Cutting a path -/

/-- What `lastSeparator` finds. -/
theorem lastSeparator_some {path : List UInt8} {n i : Nat} (h : lastSeparator path n = some i) :
    path[i]? = some pathSeparator ∧ i ≤ n ∧
      ∀ j, i < j → j ≤ n → path[j]? ≠ some pathSeparator := by
  induction n with
  | zero =>
    rw [lastSeparator] at h
    split at h
    next hsep =>
      obtain rfl := Option.some.inj h
      exact ⟨hsep, le_rfl, fun j hj hle => absurd hj (by omega)⟩
    next => cases h
  | succ n ih =>
    rw [lastSeparator] at h
    split at h
    next hsep =>
      obtain rfl := Option.some.inj h
      exact ⟨hsep, le_rfl, fun j hj hle => absurd hj (by omega)⟩
    next hsep =>
      obtain ⟨hi, hle, hlast⟩ := ih h
      refine ⟨hi, by omega, fun j hj hjn => ?_⟩
      rcases Nat.eq_or_lt_of_le hjn with rfl | hlt
      · exact hsep
      · exact hlast j hj (by omega)

/-- A path with a separator is what is before the last one and a name. -/
theorem path_split {path name : List UInt8} (h : pathGetName path = some name) :
    ∃ pre, path = pre ++ pathSeparator :: name ∧ pathSeparator ∉ name ∧
      pathGetPath path = if pre = [] then [pathSeparator] else pre := by
  rw [pathGetName] at h
  obtain ⟨i, hi, rfl⟩ := Option.map_eq_some_iff.mp h
  obtain ⟨hsep, -, hlast⟩ := lastSeparator_some hi
  obtain ⟨hlt, hget⟩ := List.getElem?_eq_some_iff.mp hsep
  refine ⟨path.take i, ?_, ?_, ?_⟩
  · rw [← hget, List.cons_getElem_drop_succ, List.take_append_drop]
  · intro hmem
    obtain ⟨j, hj, hjsep⟩ := List.getElem_of_mem hmem
    rw [List.length_drop] at hj
    rw [List.getElem_drop] at hjsep
    refine hlast (i + 1 + j) (by omega) (by omega) ?_
    rw [List.getElem?_eq_getElem (by omega), hjsep]
  · rw [pathGetPath, hi, Option.getD_some]
    by_cases h0 : i = 0
    · rw [if_pos h0, h0, List.take_zero, if_pos rfl]
    · rw [if_neg h0, if_neg]
      rw [List.take_eq_nil_iff, not_or]
      exact ⟨h0, fun hnil => by rw [hnil] at hlt; exact absurd hlt (Nat.not_lt_zero _)⟩

theorem tokensFrom_eq {token : List UInt8} (h : ∀ c ∈ token, (c == pathSeparator) = false)
    (s : List UInt8) : tokensFrom token s = tokens (· == pathSeparator) (token ++ s) := by
  induction s generalizing token with
  | nil =>
      rw [tokensFrom, List.append_nil]
      split
      · next h0 => rw [h0, tokens_nil]
      · next h0 => exact (IsToken.tokens_eq ⟨h0, h⟩).symm
  | cons c s ih =>
      rw [tokensFrom]
      split
      · next hc =>
        subst hc
        rw [ih (by simp), tokens_append_cons token (by simp), List.nil_append]
        split
        · next h0 => rw [h0, tokens_nil]
        · next h0 => rw [IsToken.tokens_eq ⟨h0, h⟩]
      · next hc =>
        rw [ih, List.append_assoc, List.singleton_append]
        rw [List.forall_mem_append, List.forall_mem_singleton]
        exact ⟨h, by simpa using hc⟩

/-- The pieces of a path are its tokens. -/
theorem pathTokens_eq (s : List UInt8) : pathTokens s = tokens (· == pathSeparator) s :=
  tokensFrom_eq (by simp) s

theorem pathTokens_ne_nil (s : List UInt8) : ∀ t ∈ pathTokens s, t ≠ [] := by
  intro t ht
  rw [pathTokens_eq] at ht
  exact (isToken_of_mem ht).1.1

/-- The pieces of a path are those of the directory and the name. -/
theorem pathTokens_split {path name : List UInt8} (h : pathGetName path = some name)
    (hname : name ≠ []) : pathTokens path = pathTokens (pathGetPath path) ++ [name] := by
  obtain ⟨pre, rfl, hsep, hpre⟩ := path_split h
  have htoken : IsToken (· == pathSeparator) name :=
    ⟨hname, fun c hc => beq_eq_false_iff_ne.mpr fun heq => hsep (heq ▸ hc)⟩
  rw [hpre, pathTokens_eq, pathTokens_eq, tokens_append_cons pre (by simp), htoken.tokens_eq]
  congr 1
  split
  next hnil =>
    rw [hnil]
    rfl
  next => rfl

/-! ## Following a path -/

variable {heap : Nat → UInt8} {fs fs' : Ext2Fs}

/-- All names up to the last one are looked for in inodes of `dirs`. -/
def PathThrough (dirs : Nat → Prop) (heap : Nat → UInt8) (fs : Ext2Fs) :
    List (List UInt8) → Nat → Prop
  | [], _ => True
  | t :: ts, ino => dirs ino ∧ ∀ r : Int, ext2ReadDirectory heap fs ino t = some r → 0 ≤ r →
      PathThrough dirs heap fs ts r.toNat

theorem findTokens_same {dirs : Nat → Prop} {ts : List (List UInt8)} {ino : Nat}
    (h : ∀ k, dirs k → ∀ t, ext2ReadDirectory heap fs' k t = ext2ReadDirectory heap fs k t)
    (hp : PathThrough dirs heap fs ts ino) :
    findTokens heap fs' ts ino = findTokens heap fs ts ino := by
  induction ts generalizing ino with
  | nil => rfl
  | cons t ts ih =>
    obtain ⟨hdir, hrest⟩ := hp
    rw [findTokens, findTokens, h ino hdir]
    cases hr : ext2ReadDirectory heap fs ino t with
    | none => rfl
    | some r =>
      rw [Option.bind_some, Option.bind_some]
      split
      · rfl
      next hneg => exact ih (hrest r hr (by omega))

/-- What is found stays found when every directory keeps what is found in it. -/
theorem findTokens_kept {dirs : Nat → Prop} {ts : List (List UInt8)} {ino : Nat} {r : Int}
    (h : ∀ k, dirs k → ∀ t r, ext2ReadDirectory heap fs k t = some r → 0 ≤ r →
      ext2ReadDirectory heap fs' k t = some r)
    (hp : PathThrough dirs heap fs ts ino) (hr : findTokens heap fs ts ino = some r) (hpos : 0 ≤ r) :
    findTokens heap fs' ts ino = some r := by
  induction ts generalizing ino with
  | nil => exact hr
  | cons t ts ih =>
    obtain ⟨hdir, hrest⟩ := hp
    rw [findTokens] at hr ⊢
    obtain ⟨q, hq, hr⟩ := Option.bind_eq_some_iff.mp hr
    by_cases hneg : q < 0
    · rw [if_pos hneg] at hr
      obtain rfl := Option.some.inj hr
      exact absurd hpos (by decide)
    · rw [if_neg hneg] at hr
      rw [h ino hdir t q hq (by omega), Option.bind_some, if_neg hneg]
      exact ih (hrest q hq (by omega)) hr

/-- The last name is looked for where the others lead to. -/
theorem findTokens_append {ts ts' : List (List UInt8)} {ino : Nat} {r : Int}
    (hr : findTokens heap fs ts ino = some r) (hpos : 0 ≤ r) :
    findTokens heap fs (ts ++ ts') ino = findTokens heap fs ts' r.toNat := by
  induction ts generalizing ino with
  | nil =>
    obtain rfl := Option.some.inj hr
    rfl
  | cons t ts ih =>
    rw [findTokens] at hr
    rw [List.cons_append, findTokens]
    obtain ⟨q, hq, hr⟩ := Option.bind_eq_some_iff.mp hr
    rw [hq, Option.bind_some]
    by_cases hneg : q < 0
    · rw [if_pos hneg] at hr
      obtain rfl := Option.some.inj hr
      exact absurd hpos (by decide)
    · rw [if_neg hneg] at hr ⊢
      exact ih hr

end Levos.Fs
