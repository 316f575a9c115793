import Mathlib.Data.Nat.Bitwise
import Levos.Base.Bytes
import Levos.Base.Carving
import Levos.Base.Word

/-!
# Bitmaps (`lib/bitmap.c`)

A bitmap is a number of bits and a buffer of 32-bit words. The functions go
through the words; `bitmapTest_eq` and `bitmapMark_eq` say that in the bytes
of the buffer they read and set the bits in order.
-/

namespace Levos.Lib

open Levos.Base

/-- `struct bitmap`; the buffer is given by its bytes. -/
structure Bitmap where
  bitCnt : Nat
  bits : Nat → UInt8

def elemBits : Nat := 32

def elemIdx (bitIdx : Nat) : Nat := bitIdx / elemBits

def bitMask (bitIdx : Nat) : Nat := 1 <<< (bitIdx % elemBits)

def bitmapMark (b : Bitmap) (bitIdx : Nat) : Bitmap :=
  let idx := 4 * elemIdx bitIdx
  { b with bits := put32 b.bits idx (le32 b.bits idx ||| bitMask bitIdx) }

def bitmapReset (b : Bitmap) (bitIdx : Nat) : Bitmap :=
  let idx := 4 * elemIdx bitIdx
  { b with bits := put32 b.bits idx (le32 b.bits idx &&& ((2 ^ 32 - 1) ^^^ bitMask bitIdx)) }

def bitmapSet (b : Bitmap) (idx : Nat) (value : Bool) : Bitmap :=
  if value then bitmapMark b idx else bitmapReset b idx

def bitmapTest (b : Bitmap) (idx : Nat) : Bool :=
  le32 b.bits (4 * elemIdx idx) &&& bitMask idx ≠ 0

def bitmapSetMultiple (b : Bitmap) (start cnt : Nat) (value : Bool) : Bitmap :=
  (List.range cnt).foldl (fun b i => bitmapSet b (start + i) value) b

def bitmapSetAll (b : Bitmap) (value : Bool) : Bitmap := bitmapSetMultiple b 0 b.bitCnt value

/-- `elem_cnt`, on a `size_t`, which is an `int` here. -/
def elemCnt (bitCnt : Int) : Nat := u32 ((bitCnt % 2 ^ 32).toNat + elemBits - 1) / elemBits

def byteCnt (bitCnt : Int) : Nat := 4 * elemCnt bitCnt

def bitmapContains (b : Bitmap) (start cnt : Nat) (value : Bool) : Bool :=
  (List.range cnt).any fun i => bitmapTest b (start + i) == value

def bitmapCount (b : Bitmap) (start cnt : Nat) (value : Bool) : Nat :=
  (List.range cnt).countP fun i => bitmapTest b (start + i) == value

/-- `bitmap_scan`; `none` is `BITMAP_ERROR`. -/
def bitmapScan (b : Bitmap) (start cnt : Nat) (value : Bool) : Option Nat :=
  if cnt ≤ b.bitCnt then
    (List.range' start (b.bitCnt - cnt + 1 - start)).find? fun i => !bitmapContains b i cnt !value
  else none

/-- `bitmap_scan_and_flip`. -/
def bitmapScanAndFlip (b : Bitmap) (start cnt : Nat) (value : Bool) : Option Nat × Bitmap :=
  match bitmapScan b start cnt value with
  | some idx => (some idx, bitmapSetMultiple b idx cnt !value)
  | none => (none, b)

/-! ## In terms of bytes -/

theorem bitMask_eq (n : Nat) : bitMask n = 2 ^ (n % 32) := by
  rw [bitMask, Nat.shiftLeft_eq, Nat.one_mul, elemBits]

/-- A bit is in its word. -/
theorem bitOf_eq_word (b : Nat → UInt8) (n : Nat) :
    bitOf b n = (le32 b (4 * (n / 32))).testBit (n % 32) := by
  rw [le32_testBit _ _ (Nat.mod_lt _ (by norm_num)), bitOf]
  rw [show 4 * (n / 32) + n % 32 / 8 = n / 8 by omega, show n % 32 % 8 = n % 8 by omega]

theorem bitmapTest_eq (b : Bitmap) (n : Nat) : bitmapTest b n = bitOf b.bits n := by
  rw [bitmapTest, bitMask_eq, elemIdx, elemBits, bitOf_eq_word, Nat.and_two_pow]
  cases (le32 b.bits (4 * (n / 32))).testBit (n % 32)
  · simp
  · simp

/-- Bit `k` of byte `4 * w + i` is bit `8 * i + k` of word `w`. -/
theorem testBit_word (b : Nat → UInt8) (w : Nat) {i k : Nat} (hi : i < 4) (hk : k < 8) :
    (b (4 * w + i)).toNat.testBit k = (le32 b (4 * w)).testBit (8 * i + k) := by
  rw [le32_testBit _ _ (by omega), show (8 * i + k) / 8 = i by omega,
    show (8 * i + k) % 8 = k by omega]

theorem bitmapMark_eq (b : Bitmap) (n : Nat) :
    bitmapMark b n = { b with bits := setBit b.bits n } := by
  have hword : le32 b.bits (4 * (n / 32)) ||| 2 ^ (n % 32) < 2 ^ 32 :=
    Nat.or_lt_two_pow (le32_lt _ _)
      (Nat.pow_lt_pow_right (by norm_num) (Nat.mod_lt _ (by norm_num)))
  have hbits : put32 b.bits (4 * (n / 32)) (le32 b.bits (4 * (n / 32)) ||| 2 ^ (n % 32)) =
      setBit b.bits n := by
    ext1 j
    by_cases hj : j / 4 = n / 32
    · -- a byte of the word, compared bit by bit
      have hsplit : j = 4 * (n / 32) + j % 4 := by omega
      refine UInt8.toNat_inj.mp (Nat.eq_of_testBit_eq fun k => ?_)
      by_cases hk : k < 8
      · rw [hsplit, testBit_word _ _ (by omega) hk, le32_put32 _ _ hword, Nat.testBit_or,
          ← testBit_word _ _ (by omega) hk, setBit_toNat, Nat.testBit_or, ← hsplit]
        congr 1
        rw [Nat.testBit_two_pow]
        by_cases hbyte : j = n / 8
        · rw [if_pos hbyte, Nat.testBit_two_pow]
          have : n % 32 = 8 * (j % 4) + k ↔ n % 8 = k := by omega
          simp [this]
        · rw [if_neg hbyte, Nat.zero_testBit]
          have : ¬ n % 32 = 8 * (j % 4) + k := by omega
          simp [this]
      · have hbig : ∀ x : UInt8, x.toNat.testBit k = false := fun x =>
          Nat.testBit_lt_two_pow
            (lt_of_lt_of_le x.toNat_lt (Nat.pow_le_pow_right (by norm_num) (not_lt.mp hk)))
        rw [hbig, hbig]
    · rw [put32_of_ne (by omega), setBit_of_ne (by omega)]
  rw [bitmapMark, bitMask_eq, elemIdx, elemBits, hbits]

/-! ## Scanning for a clear bit -/

theorem bitmapContains_one (b : Bitmap) (i : Nat) (value : Bool) :
    bitmapContains b i 1 value = (bitOf b.bits i == value) := by
  simp [bitmapContains, bitmapTest_eq]

/-- The run that is found, and set, is on the bitmap and has no bit set. -/
theorem bitmapScanAndFlip_found {b b' : Bitmap} {cnt idx : Nat}
    (h : bitmapScanAndFlip b 0 cnt false = (some idx, b')) :
    idx + cnt ≤ b.bitCnt ∧ bitmapContains b idx cnt true = false ∧
      b' = bitmapSetMultiple b idx cnt true := by
  unfold bitmapScanAndFlip at h
  split at h
  next i hscan =>
    obtain ⟨hidx, rfl⟩ := Prod.mk.inj h
    obtain rfl := Option.some.inj hidx
    unfold bitmapScan at hscan
    split at hscan
    next hcnt =>
      have hmem := List.mem_of_find?_eq_some hscan
      rw [List.mem_range'_1] at hmem
      exact ⟨by omega, by simpa using List.find?_some hscan, rfl⟩
    next => cases hscan
  next => cases (Prod.mk.inj h).1

/-- The first clear bit is set. -/
theorem bitmapScanAndFlip_some {b b' : Bitmap} {idx : Nat}
    (h : bitmapScanAndFlip b 0 1 false = (some idx, b')) :
    idx < b.bitCnt ∧ bitOf b.bits idx = false ∧ b' = { b with bits := setBit b.bits idx } := by
  obtain ⟨hcnt, hclear, rfl⟩ := bitmapScanAndFlip_found h
  rw [bitmapContains_one] at hclear
  refine ⟨hcnt, by simpa using hclear, ?_⟩
  simp [bitmapSetMultiple, bitmapSet, bitmapMark_eq]

/-- Without a clear bit nothing is found. -/
theorem bitmapScanAndFlip_none {b b' : Bitmap} (h : bitmapScanAndFlip b 0 1 false = (none, b')) :
    ∀ i < b.bitCnt, bitOf b.bits i = true := by
  unfold bitmapScanAndFlip at h
  split at h
  next => cases (Prod.mk.inj h).1
  next hscan =>
    intro i hi
    rw [bitmapScan, if_pos (by omega), List.find?_eq_none] at hscan
    have hmem : i ∈ List.range' 0 (b.bitCnt - 1 + 1 - 0) := by
      rw [List.mem_range'_1]
      omega
    have hfull := hscan i hmem
    rw [bitmapContains_one] at hfull
    simpa using hfull

/-! ## Runs of bits -/

theorem bitOf_bitmapReset (b : Bitmap) (n m : Nat) :
    bitOf (bitmapReset b n).bits m = (bitOf b.bits m && decide (m ≠ n)) := by
  have hmask : 2 ^ (n % 32) < 2 ^ 32 :=
    Nat.pow_lt_pow_right (by norm_num) (Nat.mod_lt _ (by norm_num))
  have hfull : ∀ k < 32, (2 ^ 32 - 1).testBit k = true := by decide
  have hword : le32 b.bits (4 * (n / 32)) &&& ((2 ^ 32 - 1) ^^^ 2 ^ (n % 32)) < 2 ^ 32 :=
    lt_of_le_of_lt Nat.and_le_left (le32_lt _ _)
  rw [bitOf_eq_word, bitOf_eq_word, bitmapReset, bitMask_eq, elemIdx, elemBits]
  dsimp only
  by_cases hw : m / 32 = n / 32
  · have hlt : m % 32 < 32 := Nat.mod_lt _ (by norm_num)
    have hiff : n % 32 = m % 32 ↔ m = n := by omega
    rw [hw, le32_put32 _ _ hword, Nat.testBit_and, Nat.testBit_xor, Nat.testBit_two_pow,
      hfull _ hlt, Bool.true_xor]
    simp [hiff]
  · have hne : m ≠ n := fun e => hw (by rw [e])
    have hcongr : le32 (put32 b.bits (4 * (n / 32))
        (le32 b.bits (4 * (n / 32)) &&& ((2 ^ 32 - 1) ^^^ 2 ^ (n % 32)))) (4 * (m / 32)) =
        le32 b.bits (4 * (m / 32)) :=
      le32_congr fun k hk => put32_of_ne (by omega)
    rw [hcongr]
    simp [hne]

theorem bitOf_bitmapSet (b : Bitmap) (n : Nat) (value : Bool) (m : Nat) :
    bitOf (bitmapSet b n value).bits m = if m = n then value else bitOf b.bits m := by
  rw [bitmapSet]
  cases value with
  | true =>
      rw [if_pos rfl, bitmapMark_eq, bitOf_setBit]
      by_cases h : m = n
      · simp [h]
      · simp [h]
  | false =>
      rw [if_neg (by decide), bitOf_bitmapReset]
      by_cases h : m = n
      · simp [h]
      · simp [h]

theorem bitmapSet_bitCnt (b : Bitmap) (n : Nat) (value : Bool) :
    (bitmapSet b n value).bitCnt = b.bitCnt := by
  rw [bitmapSet]
  split <;> rfl

theorem bitmapSetMultiple_succ (b : Bitmap) (start cnt : Nat) (value : Bool) :
    bitmapSetMultiple b start (cnt + 1) value =
      bitmapSet (bitmapSetMultiple b start cnt value) (start + cnt) value := by
  rw [bitmapSetMultiple, List.range_succ, List.foldl_append]
  rfl

theorem bitmapSetMultiple_bitCnt (b : Bitmap) (start cnt : Nat) (value : Bool) :
    (bitmapSetMultiple b start cnt value).bitCnt = b.bitCnt := by
  induction cnt with
  | zero => rfl
  | succ cnt ih => rw [bitmapSetMultiple_succ, bitmapSet_bitCnt, ih]

/-- Exactly the bits of the run change. -/
theorem bitOf_bitmapSetMultiple (b : Bitmap) (start cnt : Nat) (value : Bool) (m : Nat) :
    bitOf (bitmapSetMultiple b start cnt value).bits m =
      if start ≤ m ∧ m < start + cnt then value else bitOf b.bits m := by
  induction cnt with
  | zero =>
      rw [if_neg (by omega)]
      rfl
  | succ cnt ih =>
      rw [bitmapSetMultiple_succ, bitOf_bitmapSet, ih]
      by_cases h : m = start + cnt
      · rw [if_pos h, if_pos (by omega)]
      · rw [if_neg h]
        by_cases hin : start ≤ m ∧ m < start + cnt
        · rw [if_pos hin, if_pos (by omega)]
        · rw [if_neg hin, if_neg (by omega)]

/-- A byte behind the run does not change. -/
theorem bitmapSetMultiple_bytes (b : Bitmap) {start cnt : Nat} (value : Bool) {j : Nat}
    (h : start + cnt ≤ 8 * j) : (bitmapSetMultiple b start cnt value).bits j = b.bits j := by
  refine UInt8.toNat_inj.mp (Nat.eq_of_testBit_eq fun k => ?_)
  by_cases hk : k < 8
  · have hbit := bitOf_bitmapSetMultiple b start cnt value (8 * j + k)
    rw [if_neg (by omega), bitOf, bitOf, show (8 * j + k) / 8 = j by omega,
      show (8 * j + k) % 8 = k by omega] at hbit
    exact hbit
  · have hbig : ∀ x : UInt8, x.toNat.testBit k = false := fun x =>
      Nat.testBit_lt_two_pow
        (lt_of_lt_of_le x.toNat_lt (Nat.pow_le_pow_right (by norm_num) (not_lt.mp hk)))
    rw [hbig, hbig]

/-- A run of clear bits is set. -/
theorem bitmapScanAndFlip_run {b b' : Bitmap} {cnt idx : Nat}
    (h : bitmapScanAndFlip b 0 cnt false = (some idx, b')) :
    idx + cnt ≤ b.bitCnt ∧ (∀ i, idx ≤ i → i < idx + cnt → bitOf b.bits i = false) ∧
      b' = bitmapSetMultiple b idx cnt true := by
  obtain ⟨hcnt, hclear, rfl⟩ := bitmapScanAndFlip_found h
  refine ⟨hcnt, fun j hj hlt => ?_, rfl⟩
  have hnone : ∀ k < cnt, ¬ (bitmapTest b (idx + k) == true) = true := by
    simpa [bitmapContains] using hclear
  have hbit := hnone (j - idx) (by omega)
  rw [bitmapTest_eq, show idx + (j - idx) = j by omega] at hbit
  simpa using hbit

theorem bitmapContains_iff (b : Bitmap) (start cnt : Nat) (value : Bool) :
    bitmapContains b start cnt value = true ↔
      ∃ i, start ≤ i ∧ i < start + cnt ∧ bitOf b.bits i = value := by
  simp only [bitmapContains, bitmapTest_eq, List.any_eq_true, List.mem_range, beq_iff_eq]
  constructor
  · rintro ⟨k, hk, hbit⟩
    exact ⟨start + k, by omega, by omega, hbit⟩
  · rintro ⟨i, hle, hlt, hbit⟩
    exact ⟨i - start, by omega, by rw [show start + (i - start) = i by omega]; exact hbit⟩

/-- First fit: the run begins at the first place where all its bits are
clear. -/
theorem bitmapScanAndFlip_first {b : Bitmap} {cnt idx : Nat} (hfits : idx + cnt ≤ b.bitCnt)
    (hclear : ∀ i, idx ≤ i → i < idx + cnt → bitOf b.bits i = false)
    (hbefore : ∀ j < idx, ∃ i, j ≤ i ∧ i < j + cnt ∧ bitOf b.bits i = true) :
    bitmapScanAndFlip b 0 cnt false = (some idx, bitmapSetMultiple b idx cnt true) := by
  have hscan : bitmapScan b 0 cnt false = some idx := by
    rw [bitmapScan, if_pos (by omega), List.find?_range'_eq_some]
    refine ⟨?_, ?_, ?_⟩
    · rw [Bool.not_eq_true', ← Bool.not_eq_true, bitmapContains_iff]
      rintro ⟨i, hle, hlt, hbit⟩
      rw [hclear i hle hlt] at hbit
      cases hbit
    · rw [List.mem_range'_1]
      omega
    · intro j _ hj
      rw [Bool.not_not]
      exact (bitmapContains_iff b j cnt true).mpr (hbefore j hj)
  rw [bitmapScanAndFlip, hscan]
  rfl

/-! ## Sizes -/

theorem byteCnt_of_nonneg {n : Nat} (h : n < 2 ^ 31) : byteCnt n = 4 * ((n + 31) / 32) := by
  rw [byteCnt, elemCnt, elemBits, u32]
  omega

theorem byteCnt_of_neg {n : Nat} (hpos : 0 < n) (h : n ≤ 2 ^ 31) :
    byteCnt (-n) = 4 * ((2 ^ 32 - n + 31) % 2 ^ 32 / 32) := by
  rw [byteCnt, elemCnt, elemBits, u32]
  omega

/-! ## A bitmap as a row of slots -/

theorem bitmapSetMultiple_run (b : Bitmap) (start cnt : Nat) (value : Bool) :
    bitOf (bitmapSetMultiple b start cnt value).bits =
      setRun (bitOf b.bits) ⟨start, cnt⟩ value := by
  ext1 m
  exact bitOf_bitmapSetMultiple b start cnt value m

theorem bitmapCount_free (b : Bitmap) (cnt : Nat) :
    bitmapCount b 0 cnt false = freeSlots (bitOf b.bits) cnt := by
  unfold bitmapCount freeSlots
  apply List.countP_congr
  intro i _
  rw [bitmapTest_eq, Nat.zero_add]
  cases bitOf b.bits i
  · rfl
  · decide

end Levos.Lib
