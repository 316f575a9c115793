import Mathlib.Tactic

/-!
# 32-bit words as natural numbers

`uint32_t` arithmetic on values below `2^32`, and the conversion to `int`.
The definitions unfold to `%` and `if` with numerals, which `omega` decides.
-/

namespace Levos.Base

/-- Reduction to `uint32_t`. -/
def u32 (x : Nat) : Nat := x % 2 ^ 32

/-- `a - b` in `uint32_t`. -/
def u32Sub (a b : Nat) : Nat := (a + (2 ^ 32 - b % 2 ^ 32)) % 2 ^ 32

/-- The `int` with the same bits. -/
def i32 (x : Nat) : Int := if x < 2 ^ 31 then (x : Int) else (x : Int) - 2 ^ 32

/-- The `int` that `x` wraps to. -/
def int32 (x : Int) : Int := x.bmod (2 ^ 32)

theorem int32_of_range {x : Int} (hlo : -2 ^ 31 ≤ x) (hhi : x < 2 ^ 31) : int32 x = x := by
  rw [int32, Int.bmod]
  omega

theorem i32_of_pos {x : Nat} (hx : x < 2 ^ 32) (h : 0 < i32 x) : i32 x = x := by
  rw [i32] at h ⊢
  split at h
  · next hlt => exact if_pos hlt
  · omega

theorem u32_of_lt {x : Nat} (h : x < 2 ^ 32) : u32 x = x := Nat.mod_eq_of_lt h

theorem u32_lt (x : Nat) : u32 x < 2 ^ 32 := Nat.mod_lt _ (by norm_num)

/-- One wrap. -/
theorem u32_of_ge {x : Nat} (h : 2 ^ 32 ≤ x) (h' : x < 2 * 2 ^ 32) : u32 x = x - 2 ^ 32 := by
  rw [u32]
  omega

/-- Without a borrow. -/
theorem u32Sub_of_le {a b : Nat} (h : b ≤ a) (ha : a < 2 ^ 32) : u32Sub a b = a - b := by
  rw [u32Sub]
  omega

end Levos.Base
