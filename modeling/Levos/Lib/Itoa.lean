import Mathlib.Data.List.GetD
import Mathlib.Data.List.TakeWhile
import Mathlib.Data.Nat.Digits.Lemmas
import Levos.Dev.VideoConsole

/-!
# Numbers as text (`lib/itoa.c`)

`itoa` puts the digits of a number into `tbuf`, the last one first, and copies
them back in order (`itoa_eq`). `atoi_10`, with which the console reads the numbers of escape
sequences, takes every character for a digit (`atoi10_eq`).
-/

namespace Levos.Lib

open Levos.Dev (int32 schar cstr atoi10)

/-! ## The functions of the source -/

def tbufSize : Nat := 32

def bchars : List UInt8 :=
  [0x30, 0x31, 0x32, 0x33, 0x34, 0x35, 0x36, 0x37, 0x38, 0x39, 0x41, 0x42, 0x43, 0x44, 0x45, 0x46]

/-- The loop of `itoa` while there are `room` entries left in `tbuf`: the entries
it fills. `none` is a store behind `tbuf`, or a division by zero. -/
def itoaLoop : Nat → Nat → Nat → Option (List UInt8)
  | room, i, base =>
      if i = 0 then some []
      else if base = 0 then none
      else
        match room with
        | 0 => none
        | room + 1 => (itoaLoop room (i / base) base).map (bchars.getD (i % base) 0 :: ·)

/-- The loop that copies `tbuf` from its last entry on. -/
def copyBack (tbuf : List UInt8) : List UInt8 :=
  (List.range tbuf.length).map fun opos => tbuf.getD (tbuf.length - 1 - opos) 0

/-- `itoa`: what it stores into `buf`, the NUL included. -/
def itoa (i base : Nat) : Option (List UInt8) :=
  if i = 0 ∨ base > 16 then some [0x30, 0]
  else (itoaLoop tbufSize i base).map fun tbuf => copyBack tbuf ++ [0]

/-! ## What they are for -/

/-- The text of a number: its digits, the first one not 0. -/
def digitsText (base n : Nat) : List UInt8 :=
  if n = 0 then [0x30] else (Nat.digits base n).reverse.map fun d => bchars.getD d 0

/-- The number a text makes if every character counts as the digit that it is
away from `'0'`. -/
def numeral (str : List UInt8) : Int := str.foldl (fun v c => v * 10 + (schar c - 48)) 0

variable {base n room : Nat}

theorem itoaLoop_eq (hbase : 2 ≤ base) (hroom : n < base ^ room) :
    itoaLoop room n base = some ((Nat.digits base n).map fun d => bchars.getD d 0) := by
  induction room generalizing n with
  | zero =>
      obtain rfl : n = 0 := by simpa using hroom
      rw [itoaLoop, if_pos rfl, Nat.digits_zero]
      rfl
  | succ room ih =>
      rw [itoaLoop]
      by_cases hzero : n = 0
      · rw [if_pos hzero, hzero, Nat.digits_zero]
        rfl
      · have hrest : n / base < base ^ room := by
          rw [Nat.div_lt_iff_lt_mul (by omega), ← pow_succ]
          exact hroom
        rw [if_neg hzero, if_neg (by omega), ih hrest,
          Nat.digits_def' (by omega) (Nat.pos_of_ne_zero hzero)]
        rfl

theorem copyBack_eq (tbuf : List UInt8) : copyBack tbuf = tbuf.reverse := by
  refine List.ext_getElem (by simp [copyBack]) fun i hi hi' => ?_
  rw [List.length_reverse] at hi'
  simp only [copyBack, List.getElem_map, List.getElem_range, List.getElem_reverse]
  rw [List.getD_eq_getElem _ _ (by omega)]

/-- `itoa` writes the text of the number. -/
theorem itoa_eq (hbase : 2 ≤ base) (hle : base ≤ 16) (hn : n < 2 ^ 32) :
    itoa n base = some (digitsText base n ++ [0]) := by
  rw [itoa, digitsText]
  by_cases hzero : n = 0
  · rw [if_pos (.inl hzero), if_pos hzero]
    rfl
  · have hroom : n < base ^ tbufSize := hn.trans_le (Nat.pow_le_pow_left hbase 32)
    rw [if_neg (by omega), if_neg hzero, itoaLoop_eq hbase hroom, Option.map_some, copyBack_eq,
      List.map_reverse]

/-- No NUL is in a text. -/
theorem digitsText_ne_zero (hbase : 2 ≤ base) (hle : base ≤ 16) (n : Nat) :
    ∀ c ∈ digitsText base n, c ≠ 0 := by
  have hchars : ∀ d < 16, bchars.getD d 0 ≠ 0 := by decide
  intro c hc
  rw [digitsText] at hc
  split at hc
  · rw [List.mem_singleton.mp hc]
    decide
  · obtain ⟨d, hd, rfl⟩ := List.mem_map.mp hc
    exact hchars d ((Nat.digits_lt_base hbase (List.mem_reverse.mp hd)).trans_le hle)

/-! ## Reading numbers -/

theorem int32_eq_iff {x y : Int} (hlo : -2 ^ 31 ≤ y) (hhi : y < 2 ^ 31) :
    int32 x = y ↔ x % 2 ^ 32 = y % 2 ^ 32 := by
  unfold int32
  omega

/-- Additions and multiplications wrap, so that it does not matter when. -/
theorem int32_step (v : Int) (c : UInt8) :
    int32 (int32 v * 10 + schar c - 48) = int32 (v * 10 + (schar c - 48)) := by
  unfold int32
  omega

/-- A NUL ends a string. -/
theorem cstr_append_zero {str : List UInt8} (hne : ∀ c ∈ str, c ≠ 0) (behind : List UInt8) :
    cstr (str ++ 0 :: behind) = str := by
  rw [cstr, List.takeWhile_append_of_pos fun c hc => decide_eq_true (hne c hc),
    List.takeWhile_cons_of_neg (by decide), List.append_nil]

theorem foldl_int32 (str : List UInt8) (v : Int) :
    str.foldl (fun res c => int32 (res * 10 + schar c - 48)) (int32 v) =
      int32 (str.foldl (fun v c => v * 10 + (schar c - 48)) v) := by
  induction str generalizing v with
  | nil => rfl
  | cons c str ih => rw [List.foldl_cons, List.foldl_cons, int32_step, ih]

/-- `atoi_10` makes the number of the characters, and it wraps. -/
theorem atoi10_eq (str : List UInt8) : atoi10 str = int32 (numeral (cstr str)) :=
  foldl_int32 (cstr str) 0

theorem schar_bchars {d : Nat} (hd : d < 10) : schar (bchars.getD d 0) - 48 = d := by
  interval_cases d <;> decide

/-- The text of a number makes that number. -/
theorem numeral_digitsText (n : Nat) : numeral (digitsText 10 n) = n := by
  rw [digitsText]
  by_cases hzero : n = 0
  · rw [if_pos hzero, hzero]
    decide
  · have hdigits : ∀ ds : List Nat, (∀ d ∈ ds, d < 10) →
        numeral (ds.reverse.map fun d => bchars.getD d 0) = (Nat.ofDigits 10 ds : Nat) := by
      intro ds hds
      unfold numeral
      rw [List.foldl_map, List.foldl_reverse]
      induction ds with
      | nil => rfl
      | cons d ds ih =>
          rw [List.forall_mem_cons] at hds
          rw [List.foldr_cons, ih hds.2, schar_bchars hds.1, Nat.ofDigits_cons]
          push_cast
          ring
    rw [if_neg hzero, hdigits _ fun d hd => Nat.digits_lt_base (by norm_num) hd,
      Nat.ofDigits_digits]

end Levos.Lib
