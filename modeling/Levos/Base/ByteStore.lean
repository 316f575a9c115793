import Mathlib.Tactic

/-!
# Files of bytes, and cursors in them

What a collection of files is meant to be: a list of bytes for each file, and
for each handle a file and a position in it. Handles of one file see each
other's bytes; those of different files have nothing to do with each other.
-/

namespace Levos.Base

/-! ## Lists with a part written over -/

section Overwrite

variable {α : Type}

/-- `xs` with `ys` written over it from position `p` on. -/
def overwrite (xs ys : List α) (p : Nat) : List α := xs.take p ++ ys ++ xs.drop (p + ys.length)

theorem overwrite_length {xs ys : List α} {p : Nat} (h : p ≤ xs.length) :
    (overwrite xs ys p).length = max xs.length (p + ys.length) := by
  simp only [overwrite, List.length_append, List.length_take, List.length_drop]
  omega

@[simp] theorem overwrite_nil (xs : List α) (p : Nat) : overwrite xs [] p = xs := by
  simp [overwrite]

theorem overwrite_inside {xs ys : List α} {p o : Nat} (h : p ≤ xs.length) (hlo : p ≤ o)
    (hhi : o < p + ys.length) : (overwrite xs ys p)[o]? = ys[o - p]? := by
  have htake : (xs.take p).length = p := List.length_take_of_le h
  rw [overwrite, List.append_assoc, List.getElem?_append_right (by omega), htake,
    List.getElem?_append_left (by omega)]

theorem overwrite_outside {xs ys : List α} {p o : Nat} (h : p ≤ xs.length)
    (hout : o < p ∨ p + ys.length ≤ o) : (overwrite xs ys p)[o]? = xs[o]? := by
  have htake : (xs.take p).length = p := List.length_take_of_le h
  rw [overwrite, List.append_assoc]
  rcases hout with hlo | hhi
  · rw [List.getElem?_append_left (by omega), List.getElem?_take_of_lt hlo]
  · rw [List.getElem?_append_right (by omega), htake, List.getElem?_append_right (by omega),
      List.getElem?_drop]
    congr 1
    omega

end Overwrite

/-! ## The store -/

variable {κ η : Type} [DecidableEq κ] [DecidableEq η]

/-- Files `κ` with their bytes, handles `η` with their positions. -/
structure ByteStore (κ η : Type) where
  file : κ → List UInt8
  pos : η → Nat

inductive StoreOp (η : Type) where
  | read (h : η) (count : Nat)
  | write (h : η) (bytes : List UInt8)
  | seek (h : η) (pos : Nat)
  | truncate (h : η)

/-- One operation; `of` is the file of each handle. The answer is a number and,
of a read, the bytes. -/
def storeStep (of : η → κ) (s : ByteStore κ η) : StoreOp η → ByteStore κ η × (Int × List UInt8)
  | .read h count =>
      let bytes := ((s.file (of h)).drop (s.pos h)).take count
      ({ s with pos := Function.update s.pos h (s.pos h + bytes.length) }, (bytes.length, bytes))
  | .write h bytes =>
      ({ file := Function.update s.file (of h) (overwrite (s.file (of h)) bytes (s.pos h))
         pos := Function.update s.pos h (s.pos h + bytes.length) }, (bytes.length, []))
  | .seek h pos => ({ s with pos := Function.update s.pos h pos }, (pos, []))
  | .truncate h =>
      ({ file := Function.update s.file (of h) [], pos := Function.update s.pos h 0 }, (0, []))

end Levos.Base
