import Levos.Base.Bytes

/-!
# One's complement sums

Sums of 16-bit words in which a carry out of the top bit is added at the
bottom. Such a sum is 0xffff when the sum of the words, which is not 0, is a
multiple of 0xffff. As 2^16 is 1 modulo 0xffff, carries may be added at the
end, and the order of the two bytes in a word does not matter.
-/

namespace Levos.Base

/-! ## Sums -/

def onesAdd (x y : Nat) : Nat := if x + y ≤ 0xffff then x + y else x + y - 0xffff

def onesSum (ws : List Nat) : Nat := ws.foldl onesAdd 0

/-- The carries of a sum, added until there are none. -/
def foldCarries (sum : Nat) : Nat :=
  if sum > 0xffff then foldCarries (sum % 2 ^ 16 + sum / 2 ^ 16) else sum
termination_by sum

theorem foldCarries_spec (sum : Nat) :
    foldCarries sum ≤ 0xffff ∧ foldCarries sum % 0xffff = sum % 0xffff ∧
      (foldCarries sum = 0 ↔ sum = 0) := by
  induction sum using foldCarries.induct with
  | case1 sum hgt ih =>
      obtain ⟨hle, hmod, hzero⟩ := ih
      rw [foldCarries, if_pos hgt]
      exact ⟨hle, by omega, by omega⟩
  | case2 sum hle =>
      rw [foldCarries, if_neg hle]
      exact ⟨by omega, rfl, Iff.rfl⟩

theorem onesSum_spec {ws : List Nat} (hws : ∀ w ∈ ws, w ≤ 0xffff) :
    onesSum ws ≤ 0xffff ∧ onesSum ws % 0xffff = ws.sum % 0xffff ∧
      (onesSum ws = 0 ↔ ws.sum = 0) := by
  induction ws using List.reverseRecOn with
  | nil => decide
  | append_singleton ws w ih =>
      rw [List.forall_mem_append, List.forall_mem_singleton] at hws
      obtain ⟨hle, hmod, hzero⟩ := ih hws.1
      have hstep : onesSum (ws ++ [w]) = onesAdd (onesSum ws) w := by
        rw [onesSum, List.foldl_append]
        rfl
      have hw := hws.2
      rw [hstep, onesAdd, List.sum_append, List.sum_singleton]
      split
      · exact ⟨by omega, by omega, by omega⟩
      · exact ⟨by omega, by omega, by omega⟩

/-- When a one's complement sum has all bits set. -/
theorem onesSum_eq_top {ws : List Nat} (hws : ∀ w ∈ ws, w ≤ 0xffff) :
    onesSum ws = 0xffff ↔ ws.sum % 0xffff = 0 ∧ ws.sum ≠ 0 := by
  obtain ⟨hle, hmod, hzero⟩ := onesSum_spec hws
  omega

/-- The complement of a sum makes up for it. -/
theorem complement_spec (sum : Nat) :
    (sum + (0xffff - foldCarries sum)) % 0xffff = 0 ∧ sum + (0xffff - foldCarries sum) ≠ 0 := by
  obtain ⟨hle, hmod, hzero⟩ := foldCarries_spec sum
  omega

/-! ## Words of bytes -/

/-- The words of some bytes, made by `f`; a last one has a zero byte after it. -/
def words (f : UInt8 → UInt8 → Nat) : List UInt8 → List Nat
  | [] => []
  | [a] => [f a 0]
  | a :: b :: s => f a b :: words f s

/-- The first byte is the high one. -/
def beWord (a b : UInt8) : Nat := 256 * a.toNat + b.toNat

/-- The first byte is the low one. -/
def leWord (a b : UInt8) : Nat := a.toNat + 256 * b.toNat

/-- The bytes of a memory from `a` on. -/
def memBytes (mem : Nat → UInt8) (a n : Nat) : List UInt8 := (List.range n).map fun i => mem (a + i)

section Words

variable {f : UInt8 → UInt8 → Nat} {s t : List UInt8} {mem mem' : Nat → UInt8} {a n : Nat}

theorem beWord_le (a b : UInt8) : beWord a b ≤ 0xffff := by
  have := a.toNat_lt
  have := b.toNat_lt
  rw [beWord]
  omega

theorem leWord_le (a b : UInt8) : leWord a b ≤ 0xffff := by
  have := a.toNat_lt
  have := b.toNat_lt
  rw [leWord]
  omega

theorem words_le {m : Nat} (hf : ∀ a b, f a b ≤ m) (s : List UInt8) : ∀ w ∈ words f s, w ≤ m := by
  induction s using words.induct with
  | case1 => exact fun w hw => absurd hw List.not_mem_nil
  | case2 a => exact fun w hw => List.mem_singleton.mp hw ▸ hf a 0
  | case3 a b s ih =>
      rw [words, List.forall_mem_cons]
      exact ⟨hf a b, ih⟩

theorem words_append (hs : s.length % 2 = 0) (t : List UInt8) :
    words f (s ++ t) = words f s ++ words f t := by
  induction s using words.induct with
  | case1 => rfl
  | case2 a => exact absurd hs (by simp)
  | case3 a b s ih =>
      rw [List.length_cons, List.length_cons] at hs
      rw [List.cons_append, List.cons_append, words, words, ih (by omega), List.cons_append]

theorem words_length (s : List UInt8) : (words f s).length = (s.length + 1) / 2 := by
  induction s using words.induct with
  | case1 => rfl
  | case2 a => simp [words]
  | case3 a b s ih =>
      rw [words, List.length_cons, ih, List.length_cons, List.length_cons]
      omega

/-- The bytes of the words, in the other order. -/
theorem beWords_sum (s : List UInt8) :
    (words beWord s).sum % 0xffff = 256 * (words leWord s).sum % 0xffff ∧
      ((words beWord s).sum = 0 ↔ (words leWord s).sum = 0) := by
  induction s using words.induct with
  | case1 => decide
  | case2 a =>
      rw [words, words, List.sum_singleton, List.sum_singleton, beWord, leWord]
      have : (0 : UInt8).toNat = 0 := rfl
      omega
  | case3 a b s ih =>
      rw [words, words, List.sum_cons, List.sum_cons, beWord, leWord]
      omega

theorem memBytes_length (mem : Nat → UInt8) (a n : Nat) : (memBytes mem a n).length = n := by
  rw [memBytes, List.length_map, List.length_range]

theorem memBytes_congr (h : ∀ i < n, mem' (a + i) = mem (a + i)) :
    memBytes mem' a n = memBytes mem a n :=
  List.map_congr_left fun i hi => h i (List.mem_range.mp hi)

theorem memBytes_add (mem : Nat → UInt8) (a m n : Nat) :
    memBytes mem a (m + n) = memBytes mem a m ++ memBytes mem (a + m) n := by
  rw [memBytes, List.range_add, List.map_append, List.map_map, memBytes, memBytes]
  congr 1
  exact List.map_congr_left fun i _ => by rw [Function.comp_apply, Nat.add_assoc]

/-- The words of a memory: the whole ones, and a last byte. -/
theorem words_memBytes (f : UInt8 → UInt8 → Nat) (mem : Nat → UInt8) (a n : Nat) :
    words f (memBytes mem a n) =
      (List.range (n / 2)).map (fun i => f (mem (a + 2 * i)) (mem (a + 2 * i + 1))) ++
        if n % 2 = 1 then [f (mem (a + n - 1)) 0] else [] := by
  induction n using Nat.twoStepInduction generalizing a with
  | zero => rfl
  | one => rfl
  | more n ih _ =>
      have hcons : memBytes mem a (n + 2) = mem a :: mem (a + 1) :: memBytes mem (a + 2) n := by
        rw [Nat.add_comm n 2, memBytes_add]
        rfl
      have hlast : a + (n + 2) - 1 = a + 2 + n - 1 := by omega
      rw [hcons, words, ih, Nat.add_div_right n (by norm_num), List.range_succ_eq_map,
        List.map_cons, List.map_map, Nat.add_mod_right, hlast, List.cons_append]
      congr 2
      exact List.map_congr_left fun i _ => by
        rw [Function.comp_apply, Nat.succ_eq_add_one, Nat.mul_add, Nat.mul_one, Nat.add_assoc a 2,
          Nat.add_comm 2]

/-- A word of a memory, changed from 0. -/
theorem words_put16_sum {i v : Nat} (hi : 2 * i + 2 ≤ n)
    (hzero : mem (a + 2 * i) = 0 ∧ mem (a + 2 * i + 1) = 0) (hf : f 0 0 = 0) :
    (words f (memBytes (put16 mem (a + 2 * i) v) a n)).sum =
      (words f (memBytes mem a n)).sum + f (UInt8.ofNat v) (UInt8.ofNat (v / 256)) := by
  obtain ⟨r, rfl⟩ := Nat.exists_eq_add_of_le hi
  -- the words before it, this one, and those behind it
  have hsplit : ∀ m : Nat → UInt8, (words f (memBytes m a (2 * i + 2 + r))).sum =
      (words f (memBytes m a (2 * i))).sum + f (m (a + 2 * i)) (m (a + 2 * i + 1)) +
        (words f (memBytes m (a + (2 * i + 2)) r)).sum := fun m => by
    rw [memBytes_add, words_append (by rw [memBytes_length]; omega), memBytes_add,
      words_append (by rw [memBytes_length]; omega), List.sum_append, List.sum_append]
    rfl
  have hbefore : memBytes (put16 mem (a + 2 * i) v) a (2 * i) = memBytes mem a (2 * i) :=
    memBytes_congr fun j hj => put16_of_ne (.inl (by omega))
  have hbehind : memBytes (put16 mem (a + 2 * i) v) (a + (2 * i + 2)) r =
      memBytes mem (a + (2 * i + 2)) r :=
    memBytes_congr fun j _ => put16_of_ne (.inr (by omega))
  have hlow : put16 mem (a + 2 * i) v (a + 2 * i) = UInt8.ofNat v := by
    rw [put16, if_pos rfl]
  have hhigh : put16 mem (a + 2 * i) v (a + 2 * i + 1) = UInt8.ofNat (v / 256) := by
    rw [put16, if_neg (by omega), if_pos rfl]
  rw [hsplit, hsplit, hbefore, hbehind, hlow, hhigh, hzero.1, hzero.2, hf]
  omega

end Words

end Levos.Base
