import Levos.Base.Bytes

/-!
# Strings in memory (`lib/string.c`)

Bytes up to a zero byte, as `strlen` and `memcpy` see them in a memory given by
its bytes, and arrays of pointers to them. Everything said here of a memory
depends on a few bytes of it only, so that stores elsewhere change nothing.
-/

namespace Levos.Lib

open Levos.Base

/-- The bytes of a string, without the zero that ends it. -/
structure CString where
  bytes : List UInt8
  nonzero : ∀ b ∈ bytes, b ≠ 0

/-- The bytes it takes in memory. -/
def CString.size (s : CString) : Nat := s.bytes.length + 1

/-- The bytes of some strings. -/
def sizes (strs : List CString) : Nat := (strs.map CString.size).sum

/-- The string lies at `p`, with its zero. -/
def StringAt (mem : Nat → UInt8) (p : Nat) (s : CString) : Prop :=
  ∀ i < s.size, mem (p + i) = s.bytes.getD i 0

/-! ## The functions of the source -/

/-- The loop of `strlen` after `n` bytes, for `fuel` more. -/
def strlenFrom (mem : Nat → UInt8) (p : Nat) : Nat → Nat → Option Nat
  | 0, _ => none
  | fuel + 1, n => if mem (p + n) = 0 then some n else strlenFrom mem p fuel (n + 1)

/-- `strlen`; a string has an end within the address space. -/
def strlen (mem : Nat → UInt8) (p : Nat) : Option Nat := strlenFrom mem p (2 ^ 32) 0

/-- `memcpy`, of bytes that do not overlap their destination. -/
def memcpy (mem : Nat → UInt8) (dst src n : Nat) : Nat → UInt8 := fun a =>
  if dst ≤ a ∧ a < dst + n then mem (src + (a - dst)) else mem a

/-- `memset`. -/
def memset (mem : Nat → UInt8) (dst : Nat) (value : UInt8) (size : Nat) : Nat → UInt8 := fun a =>
  if dst ≤ a ∧ a < dst + size then value else mem a

/-! ## Sizes -/

@[simp] theorem sizes_nil : sizes [] = 0 := rfl

@[simp] theorem sizes_cons (s : CString) (strs : List CString) :
    sizes (s :: strs) = s.size + sizes strs := rfl

@[simp] theorem sizes_append (strs strs' : List CString) :
    sizes (strs ++ strs') = sizes strs + sizes strs' := by
  simp [sizes]

theorem size_pos (s : CString) : 0 < s.size := Nat.succ_pos _

theorem length_le_sizes (strs : List CString) : strs.length ≤ sizes strs := by
  induction strs with
  | nil => exact le_rfl
  | cons s strs ih =>
      have := size_pos s
      rw [sizes_cons, List.length_cons]
      omega

/-- The strings from number `i` on begin with that string. -/
theorem sizes_drop (strs : List CString) {i : Nat} (hi : i < strs.length) :
    sizes (strs.drop i) = strs[i].size + sizes (strs.drop (i + 1)) := by
  rw [List.drop_eq_getElem_cons hi, sizes_cons]

/-! ## Reading and copying -/

theorem StringAt.congr {mem mem' : Nat → UInt8} {p q : Nat} {s : CString} (h : StringAt mem p s)
    (heq : ∀ i < s.size, mem' (q + i) = mem (p + i)) : StringAt mem' q s := by
  intro i hi
  rw [heq i hi]
  exact h i hi

theorem strlenFrom_eq {mem : Nat → UInt8} {p : Nat} {s : CString} (h : StringAt mem p s) :
    ∀ {fuel n : Nat}, n ≤ s.bytes.length → s.bytes.length < fuel + n →
      strlenFrom mem p fuel n = some s.bytes.length
  | 0, n, hn, hfuel => by omega
  | fuel + 1, n, hn, hfuel => by
      have hbyte := h n (Nat.lt_succ_of_le hn)
      rw [strlenFrom, hbyte]
      rcases Nat.lt_or_eq_of_le hn with hlt | heq
      · have hne : s.bytes.getD n 0 ≠ 0 := by
          rw [List.getD_eq_getElem?_getD, List.getElem?_eq_getElem hlt, Option.getD_some]
          exact s.nonzero _ (List.getElem_mem hlt)
        rw [if_neg hne]
        exact strlenFrom_eq h hlt (by omega)
      · subst heq
        rw [if_pos (by simp)]

/-- **`strlen`** of a string. -/
theorem strlen_eq {mem : Nat → UInt8} {p : Nat} {s : CString} (h : StringAt mem p s)
    (hsize : s.size ≤ 2 ^ 32) : strlen mem p = some s.bytes.length :=
  strlenFrom_eq h (Nat.zero_le _) hsize

theorem memcpy_of_out {mem : Nat → UInt8} {dst src n a : Nat} (h : a < dst ∨ dst + n ≤ a) :
    memcpy mem dst src n a = mem a := if_neg (by omega)

/-- A copied string lies at its destination. -/
theorem StringAt.memcpy {mem : Nat → UInt8} {p dst : Nat} {s : CString} (h : StringAt mem p s) :
    StringAt (memcpy mem dst p s.size) dst s := by
  refine h.congr fun i hi => ?_
  rw [Lib.memcpy, if_pos (by omega), Nat.add_sub_cancel_left]

theorem CString.getElem_concat (s : CString) {i : Nat} (hi : i < (s.bytes ++ [0]).length) :
    (s.bytes ++ [0])[i] = s.bytes.getD i 0 := by
  rw [List.length_append] at hi
  rcases Nat.lt_or_eq_of_le (Nat.le_of_lt_succ hi) with hlt | rfl
  · rw [List.getElem_append_left hlt, List.getD_eq_getElem _ _ hlt]
  · rw [List.getElem_concat_length rfl, List.getD_eq_default _ _ le_rfl]

/-- A string that is stored byte by byte, its zero last. -/
theorem stringAt_putList (mem : Nat → UInt8) (p : Nat) (s : CString) :
    StringAt (putList mem p (s.bytes ++ [0])) p s := by
  intro i hi
  have hlen : i < (s.bytes ++ [0]).length := by
    rw [List.length_append]
    exact hi
  rw [putList_add hlen, s.getElem_concat hlen]

/-! ## Arrays of pointers -/

/-- Entry `i` of an array of pointers. -/
def entry (mem : Nat → UInt8) (arr i : Nat) : Nat := le32 mem (arr + 4 * i)

theorem entry_congr {mem mem' : Nat → UInt8} {arr i : Nat}
    (h : ∀ k < 4, mem' (arr + 4 * i + k) = mem (arr + 4 * i + k)) :
    entry mem' arr i = entry mem arr i := le32_congr h

theorem entry_zero {mem : Nat → UInt8} {arr i : Nat} (h : ∀ k < 4, mem (arr + 4 * i + k) = 0) :
    entry mem arr i = 0 :=
  (le32_congr h : entry mem arr i = le32 (fun _ => 0) 0)

theorem entry_put32 (mem : Nat → UInt8) (arr i : Nat) {v : Nat} (hv : v < 2 ^ 32) :
    entry (put32 mem (arr + 4 * i) v) arr i = v := le32_put32 mem _ hv

/-- A store to another entry. -/
theorem entry_put32_of_ne (mem : Nat → UInt8) (arr v : Nat) {i j : Nat} (h : i ≠ j) :
    entry (put32 mem (arr + 4 * j) v) arr i = entry mem arr i :=
  entry_congr fun k hk => put32_of_ne (by omega)

/-- The array holds pointers to the strings, in order, and a null pointer. -/
structure ArrayAt (mem : Nat → UInt8) (arr : Nat) (strs : List CString) : Prop where
  string : ∀ i (h : i < strs.length), entry mem arr i ≠ 0 ∧ StringAt mem (entry mem arr i) strs[i]
  null : entry mem arr strs.length = 0

end Levos.Lib
