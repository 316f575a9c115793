import Levos.Base.Bytes

/-!
# Bytes in blocks

Storage cut into blocks of `bs` bytes: byte `a` belongs to block `a / bs`. A
change of storage is described by the blocks it leaves alone.
-/

namespace Levos.Base

/-- The same bytes with block `b` replaced. -/
def setBlock (d : Nat → UInt8) (bs b : Nat) (buf : Nat → UInt8) : Nat → UInt8 := fun a =>
  if a / bs = b then buf (a % bs) else d a

/-- Block `b` has the same bytes before and after. -/
def SameBlock (bs : Nat) (d d' : Nat → UInt8) (b : Nat) : Prop := ∀ a, a / bs = b → d' a = d a

theorem block_div {bs b o : Nat} (ho : o < bs) : (bs * b + o) / bs = b := by
  rw [Nat.mul_add_div (by omega), Nat.div_eq_of_lt ho, Nat.add_zero]

theorem block_mod {bs b o : Nat} (ho : o < bs) : (bs * b + o) % bs = o := by
  rw [Nat.mul_add_mod, Nat.mod_eq_of_lt ho]

/-- The block of a byte is one of those that it takes to hold `size` bytes. -/
theorem div_lt_blocks {bs size o : Nat} (hbs : 0 < bs) (ho : o < size) :
    o / bs < (size + bs - 1) / bs := by
  rw [Nat.lt_iff_add_one_le, Nat.le_div_iff_mul_le hbs, Nat.succ_mul]
  have := Nat.div_mul_le_self o bs
  omega

theorem setBlock_apply {d buf : Nat → UInt8} {bs b o : Nat} (ho : o < bs) :
    setBlock d bs b buf (bs * b + o) = buf o := by
  rw [setBlock, if_pos (block_div ho), block_mod ho]

theorem setBlock_of_ne {d buf : Nat → UInt8} {bs b a : Nat} (h : a / bs ≠ b) :
    setBlock d bs b buf a = d a := if_neg h

theorem SameBlock.trans {bs b : Nat} {d d' d'' : Nat → UInt8} (h : SameBlock bs d d' b)
    (h' : SameBlock bs d' d'' b) : SameBlock bs d d'' b := fun a ha => (h' a ha).trans (h a ha)

theorem SameBlock.setBlock {d buf : Nat → UInt8} {bs b c : Nat} (h : c ≠ b) :
    SameBlock bs d (setBlock d bs b buf) c := fun _ ha => setBlock_of_ne (ha ▸ h)

/-! ## Fields inside a block -/

theorem SameBlock.byte {d d' : Nat → UInt8} {bs b o : Nat} (h : SameBlock bs d d' b) (ho : o < bs) :
    d' (bs * b + o) = d (bs * b + o) := h _ (block_div ho)

theorem SameBlock.le32 {d d' : Nat → UInt8} {bs b o : Nat} (h : SameBlock bs d d' b)
    (ho : o + 4 ≤ bs) : le32 d' (bs * b + o) = le32 d (bs * b + o) := by
  apply le32_congr
  intro k hk
  rw [Nat.add_assoc]
  exact h.byte (by omega)

/-- A field only changes its own block. -/
theorem put32_of_block_ne {d : Nat → UInt8} {bs b o v a : Nat} (ho : o + 4 ≤ bs) (h : a / bs ≠ b) :
    put32 d (bs * b + o) v a = d a := by
  apply put32_of_ne
  by_contra hin
  rw [not_or, not_lt, not_le] at hin
  obtain ⟨k, rfl⟩ : ∃ k, a = bs * b + (o + k) := ⟨a - (bs * b + o), by omega⟩
  exact h (block_div (by omega))

theorem SameBlock.put32 {d : Nat → UInt8} {bs b o v c : Nat} (ho : o + 4 ≤ bs) (h : c ≠ b) :
    SameBlock bs d (put32 d (bs * b + o) v) c := fun _ ha => put32_of_block_ne ho (ha ▸ h)

/-- Two fields that do not overlap. -/
theorem le32_put32_of_ne {d : Nat → UInt8} {i j v : Nat} (h : i + 4 ≤ j ∨ j + 4 ≤ i) :
    le32 (put32 d i v) j = le32 d j := by
  apply le32_congr
  intro k hk
  exact put32_of_ne (by omega)

/-- Reading a block, storing a field in it and writing it back. -/
theorem setBlock_put32 {d : Nat → UInt8} {bs b o v : Nat} (ho : o + 4 ≤ bs) :
    setBlock d bs b (put32 (fun j => d (bs * b + j)) o v) = put32 d (bs * b + o) v := by
  funext a
  by_cases h : a / bs = b
  · obtain ⟨k, hk, rfl⟩ : ∃ k < bs, a = bs * b + k :=
      ⟨a % bs, Nat.mod_lt _ (by omega), by rw [← h, Nat.div_add_mod]⟩
    rw [setBlock_apply hk, put32_shift rfl]
  · rw [setBlock_of_ne h, put32_of_block_ne ho h]

end Levos.Base
