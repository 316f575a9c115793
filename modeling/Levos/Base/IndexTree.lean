import Mathlib.Tactic

/-!
# Trees of index tables

Tables of `p` entries, each entry the name of a table one level below, down to
the leaves. A leaf is reached by one index for each level, the digits of its
number in base `p`. The name 0 stands for what is not there.
-/

namespace Levos.Base

/-- The indices on the way down to leaf `k` of a tree with `L` levels of
tables. -/
def indexPath (p : Nat) : Nat → Nat → List Nat
  | 0, _ => []
  | L + 1, k => k / p ^ L :: indexPath p L (k % p ^ L)

variable (entry : Nat → Nat → Nat)

/-- Follow the indices, whatever the entries on the way are. -/
def chase (x : Nat) (is : List Nat) : Nat := is.foldl entry x

/-- An entry of a table, 0 where there is no table. -/
def follow (x i : Nat) : Nat := if x = 0 then 0 else entry x i

/-- Follow the indices to a leaf, 0 where a table on the way is missing. -/
def descend (x : Nat) (is : List Nat) : Nat := is.foldl (follow entry) x

theorem follow_of_ne {x : Nat} (hx : x ≠ 0) (i : Nat) : follow entry x i = entry x i := if_neg hx

theorem descend_zero (is : List Nat) : descend entry 0 is = 0 := by
  induction is with
  | nil => rfl
  | cons i is ih => exact ih

/-- Where there is a leaf, nothing on the way is missing. -/
theorem chase_of_descend {x : Nat} {is : List Nat} (h : descend entry x is ≠ 0) :
    chase entry x is = descend entry x is := by
  induction is generalizing x with
  | nil => rfl
  | cons i is ih =>
      have hx : x ≠ 0 := by
        rintro rfl
        exact h (descend_zero entry _)
      have hstep : descend entry x (i :: is) = descend entry (entry x i) is := by
        rw [descend, List.foldl_cons, follow_of_ne entry hx, descend]
      rw [hstep] at h ⊢
      exact ih h

theorem indexPath_one (p k : Nat) : indexPath p 1 k = [k] := by
  rw [indexPath, indexPath, pow_zero, Nat.div_one]

theorem indexPath_two (p k : Nat) : indexPath p 2 k = [k / p, k % p] := by
  rw [indexPath, indexPath_one, pow_one]

theorem indexPath_three (p k : Nat) :
    indexPath p 3 k = [k / (p * p), k % (p * p) / p, k % (p * p) % p] := by
  rw [indexPath, indexPath_two, pow_two]

end Levos.Base
