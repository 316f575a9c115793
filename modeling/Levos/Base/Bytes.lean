import Mathlib.Data.List.GetD
import Mathlib.Tactic

/-!
# Little-endian fields

Multi-byte fields of a buffer, given by its bytes, and lists stored in one.
-/

namespace Levos.Base

def le16 (b : Nat → UInt8) (i : Nat) : Nat := (b i).toNat + 256 * (b (i + 1)).toNat

def le32 (b : Nat → UInt8) (i : Nat) : Nat := le16 b i + 65536 * le16 b (i + 2)

theorem le16_lt (b : Nat → UInt8) (i : Nat) : le16 b i < 65536 := by
  have h₀ := (b i).toNat_lt
  have h₁ := (b (i + 1)).toNat_lt
  rw [le16]
  omega

theorem le32_lt (b : Nat → UInt8) (i : Nat) : le32 b i < 2 ^ 32 := by
  have h₀ := le16_lt b i
  have h₁ := le16_lt b (i + 2)
  rw [le32]
  omega

/-! ## Storing a field -/

def put16 (b : Nat → UInt8) (i v : Nat) : Nat → UInt8 := fun j =>
  if j = i then UInt8.ofNat v else if j = i + 1 then UInt8.ofNat (v / 256) else b j

def put32 (b : Nat → UInt8) (i v : Nat) : Nat → UInt8 := put16 (put16 b i v) (i + 2) (v / 65536)

theorem put16_of_ne {b : Nat → UInt8} {i v j : Nat} (h : j < i ∨ i + 2 ≤ j) :
    put16 b i v j = b j := by
  rw [put16, if_neg (by omega), if_neg (by omega)]

theorem put32_of_ne {b : Nat → UInt8} {i v j : Nat} (h : j < i ∨ i + 4 ≤ j) :
    put32 b i v j = b j := by
  rw [put32, put16_of_ne (by omega), put16_of_ne (by omega)]

theorem put16_shift {b c : Nat → UInt8} {s j : Nat} (h : b j = c (s + j)) (i v : Nat) :
    put16 b i v j = put16 c (s + i) v (s + j) := by
  simp only [put16, h, Nat.add_assoc, Nat.add_right_inj]

/-- The same field in a part of a buffer that starts at `s`. -/
theorem put32_shift {b c : Nat → UInt8} {s j : Nat} (h : b j = c (s + j)) (i v : Nat) :
    put32 b i v j = put32 c (s + i) v (s + j) := by
  rw [put32, put32, put16_shift (put16_shift h i v), Nat.add_assoc]

theorem le16_congr {b c : Nat → UInt8} {i j : Nat} (h₀ : b i = c j) (h₁ : b (i + 1) = c (j + 1)) :
    le16 b i = le16 c j := by
  rw [le16, le16, h₀, h₁]

theorem le32_congr {b c : Nat → UInt8} {i j : Nat} (h : ∀ k < 4, b (i + k) = c (j + k)) :
    le32 b i = le32 c j := by
  have hlow : le16 b i = le16 c j := le16_congr (h 0 (by omega)) (h 1 (by omega))
  have hhigh : le16 b (i + 2) = le16 c (j + 2) := le16_congr (h 2 (by omega)) (h 3 (by omega))
  rw [le32, le32, hlow, hhigh]

theorem le16_put16 (b : Nat → UInt8) (i : Nat) {v : Nat} (hv : v < 65536) :
    le16 (put16 b i v) i = v := by
  have hlow : put16 b i v i = UInt8.ofNat v := if_pos rfl
  have hhigh : put16 b i v (i + 1) = UInt8.ofNat (v / 256) := by
    rw [put16, if_neg (by omega), if_pos rfl]
  rw [le16, hlow, hhigh, UInt8.toNat_ofNat', UInt8.toNat_ofNat']
  omega

theorem le16_put16_mod (b : Nat → UInt8) (i v : Nat) : le16 (put16 b i v) i = v % 65536 := by
  have hlow : put16 b i v i = UInt8.ofNat v := if_pos rfl
  have hhigh : put16 b i v (i + 1) = UInt8.ofNat (v / 256) := by
    rw [put16, if_neg (by omega), if_pos rfl]
  rw [le16, hlow, hhigh, UInt8.toNat_ofNat', UInt8.toNat_ofNat']
  omega

theorem le32_put32_mod (b : Nat → UInt8) (i v : Nat) : le32 (put32 b i v) i = v % 2 ^ 32 := by
  have hlow : le16 (put32 b i v) i = le16 (put16 b i v) i :=
    le16_congr (put16_of_ne (by omega)) (put16_of_ne (by omega))
  have hhigh : le16 (put32 b i v) (i + 2) = v / 65536 % 65536 := le16_put16_mod _ _ _
  rw [le32, hlow, hhigh, le16_put16_mod]
  omega

theorem le32_put32 (b : Nat → UInt8) (i : Nat) {v : Nat} (hv : v < 2 ^ 32) :
    le32 (put32 b i v) i = v := by
  rw [le32_put32_mod, Nat.mod_eq_of_lt hv]

/-! ## Storing a list -/

/-- The buffer after the elements of `l` were stored from `i` on. -/
def putList {α : Type*} (b : Nat → α) (i : Nat) (l : List α) : Nat → α := fun j =>
  if i ≤ j then l.getD (j - i) (b j) else b j

section PutList

variable {α : Type*} {b : Nat → α} {i j : Nat} {l : List α}

@[simp] theorem putList_nil (b : Nat → α) (i : Nat) : putList b i [] = b := by
  funext j
  simp [putList]

theorem putList_of_le (h : i + l.length ≤ j) : putList b i l j = b j := by
  rw [putList, if_pos (by omega), List.getD_eq_default _ _ (by omega)]

theorem putList_add (h : j < l.length) : putList b i l (i + j) = l[j] := by
  rw [putList, if_pos (by omega), Nat.add_sub_cancel_left, List.getD_eq_getElem _ _ h]

/-- The first element, and then the others. -/
theorem putList_cons (b : Nat → α) (i : Nat) (x : α) (l : List α) :
    putList b i (x :: l) = putList (Function.update b i x) (i + 1) l := by
  funext j
  rw [putList, putList]
  rcases Nat.lt_trichotomy j i with hlt | rfl | hgt
  · rw [if_neg (by omega), if_neg (by omega), Function.update_of_ne (by omega)]
  · rw [if_pos le_rfl, if_neg (by omega), Nat.sub_self, List.getD_cons_zero,
      Function.update_self]
  · rw [if_pos (by omega), if_pos (by omega), show j - i = j - (i + 1) + 1 by omega,
      List.getD_cons_succ, Function.update_of_ne (by omega)]

/-- One more behind the others. -/
theorem putList_concat (b : Nat → α) (i : Nat) (l : List α) (x : α) :
    Function.update (putList b i l) (i + l.length) x = putList b i (l ++ [x]) := by
  induction l generalizing b i with
  | nil => rw [putList_nil, List.nil_append, putList_cons, putList_nil]; rfl
  | cons y l ih =>
      rw [List.cons_append, putList_cons, putList_cons, ← ih, List.length_cons]
      congr 1
      omega

end PutList

/-! ## Bits -/

/-- Bit `n`, counted from the low bit of the first byte. -/
def bitOf (b : Nat → UInt8) (n : Nat) : Bool := (b (n / 8)).toNat.testBit (n % 8)

/-- The same bytes with bit `n` set. -/
def setBit (b : Nat → UInt8) (n : Nat) : Nat → UInt8 := fun j =>
  if j = n / 8 then b j ||| UInt8.ofNat (2 ^ (n % 8)) else b j

theorem setBit_of_ne {b : Nat → UInt8} {n j : Nat} (h : j ≠ n / 8) : setBit b n j = b j := if_neg h

theorem setBit_toNat (b : Nat → UInt8) (n j : Nat) :
    (setBit b n j).toNat = (b j).toNat ||| if j = n / 8 then 2 ^ (n % 8) else 0 := by
  rw [setBit]
  split
  next h =>
    have hlt : 2 ^ (n % 8) < 256 :=
      calc 2 ^ (n % 8) ≤ 2 ^ 7 := Nat.pow_le_pow_right (by norm_num) (by omega)
        _ < 256 := by norm_num
    rw [UInt8.toNat_or, UInt8.toNat_ofNat', Nat.mod_eq_of_lt hlt]
  next => rw [Nat.or_zero]

/-- Exactly bit `n` changes. -/
theorem bitOf_setBit (b : Nat → UInt8) (n m : Nat) :
    bitOf (setBit b n) m = (bitOf b m || decide (m = n)) := by
  rw [bitOf, bitOf, setBit_toNat, Nat.testBit_or]
  congr 1
  by_cases hbyte : m / 8 = n / 8
  · rw [if_pos hbyte, Nat.testBit_two_pow]
    have : n % 8 = m % 8 ↔ m = n := by omega
    simp [this]
  · rw [if_neg hbyte, Nat.zero_testBit]
    have : m ≠ n := fun h => hbyte (by rw [h])
    simp [this]

theorem le16_testBit (b : Nat → UInt8) (i : Nat) {k : Nat} (hk : k < 16) :
    (le16 b i).testBit k = (b (i + k / 8)).toNat.testBit (k % 8) := by
  have hlt : (b i).toNat < 2 ^ 8 := (b i).toNat_lt
  have heq : le16 b i = 2 ^ 8 * (b (i + 1)).toNat + (b i).toNat := by
    rw [le16]
    omega
  rw [heq, Nat.testBit_two_pow_mul_add _ hlt]
  split
  next h => rw [show k / 8 = 0 by omega, Nat.mod_eq_of_lt h, Nat.add_zero]
  next h => rw [show k / 8 = 1 by omega, show k % 8 = k - 8 by omega]

theorem le32_testBit (b : Nat → UInt8) (i : Nat) {k : Nat} (hk : k < 32) :
    (le32 b i).testBit k = (b (i + k / 8)).toNat.testBit (k % 8) := by
  have heq : le32 b i = 2 ^ 16 * le16 b (i + 2) + le16 b i := by
    rw [le32]
    omega
  rw [heq, Nat.testBit_two_pow_mul_add _ (le16_lt b i)]
  split
  next h => exact le16_testBit b i h
  next h =>
    rw [le16_testBit b (i + 2) (by omega), show i + 2 + (k - 16) / 8 = i + k / 8 by omega,
      show (k - 16) % 8 = k % 8 by omega]

/-! ## Counting clear bits -/

/-- How many of the first `n` bits are clear. -/
def clearBits (f : Nat → Bool) (n : Nat) : Nat := ((Finset.range n).filter fun i => f i = false).card

theorem clearBits_congr {f g : Nat → Bool} {n : Nat} (h : ∀ i < n, f i = g i) :
    clearBits f n = clearBits g n := by
  rw [clearBits, clearBits]
  congr 1
  refine Finset.filter_congr fun i hi => ?_
  rw [h i (Finset.mem_range.mp hi)]

theorem clearBits_pos {f : Nat → Bool} {n : Nat} :
    0 < clearBits f n ↔ ∃ i < n, f i = false := by
  rw [clearBits, Finset.card_pos]
  constructor
  · rintro ⟨i, hi⟩
    obtain ⟨hlt, hclear⟩ := Finset.mem_filter.mp hi
    exact ⟨i, Finset.mem_range.mp hlt, hclear⟩
  · rintro ⟨i, hlt, hclear⟩
    exact ⟨i, Finset.mem_filter.mpr ⟨Finset.mem_range.mpr hlt, hclear⟩⟩

/-- Setting a clear bit takes one off the count. -/
theorem clearBits_set {f : Nat → Bool} {n j : Nat} (hj : j < n) (hclear : f j = false) :
    clearBits (fun i => f i || decide (i = j)) n + 1 = clearBits f n := by
  have herase : ((Finset.range n).filter fun i => (f i || decide (i = j)) = false) =
      ((Finset.range n).filter fun i => f i = false).erase j := by
    ext i
    simp only [Finset.mem_filter, Finset.mem_erase, Bool.or_eq_false_iff, decide_eq_false_iff_not]
    tauto
  rw [clearBits, clearBits, herase]
  exact Finset.card_erase_add_one
    (Finset.mem_filter.mpr ⟨Finset.mem_range.mpr hj, hclear⟩)

end Levos.Base
