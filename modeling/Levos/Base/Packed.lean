import Mathlib.Tactic

/-!
# Segments packed into an interval

A list of segments of `Nat`, each with a start and a length, in order and
without overlap between two bounds. Segments are put into gaps and taken out
again; the sum of the lengths never exceeds the interval.
-/

namespace Levos.Base

variable {α : Type} (start len : α → Nat)

/-- The segments lie one after the other in `[lo, hi)`. -/
def Packed (hi : Nat) : Nat → List α → Prop
  | lo, [] => lo ≤ hi
  | lo, x :: xs => lo ≤ start x ∧ Packed hi (start x + len x) xs

variable {start len} {hi lo : Nat} {x : α} {xs ys : List α}

theorem Packed.bounds (h : Packed start len hi lo xs) : lo ≤ hi := by
  induction xs generalizing lo with
  | nil => exact h
  | cons y xs ih =>
      have := ih h.2
      have := h.1
      omega

theorem Packed.lower {lo' : Nat} (h : Packed start len hi lo xs) (hlo : lo' ≤ lo) :
    Packed start len hi lo' xs := by
  cases xs with
  | nil => exact hlo.trans h
  | cons y xs => exact ⟨hlo.trans h.1, h.2⟩

/-- Every segment is inside. -/
theorem Packed.mem (h : Packed start len hi lo xs) (hx : x ∈ xs) :
    lo ≤ start x ∧ start x + len x ≤ hi := by
  induction xs generalizing lo with
  | nil => cases hx
  | cons y xs ih =>
      rcases List.mem_cons.mp hx with rfl | hx
      · exact ⟨h.1, h.2.bounds⟩
      · obtain ⟨hlo, hhi⟩ := ih h.2 hx
        have := h.1
        exact ⟨by omega, hhi⟩

/-- Earlier segments end before later ones start. -/
theorem Packed.pairwise (h : Packed start len hi lo xs) :
    xs.Pairwise fun x y => start x + len x ≤ start y := by
  induction xs generalizing lo with
  | nil => exact List.Pairwise.nil
  | cons y xs ih => exact List.pairwise_cons.mpr ⟨fun z hz => (h.2.mem hz).1, ih h.2⟩

/-- Two segments are the same or do not overlap. -/
theorem Packed.eq_or_apart {y : α} (h : Packed start len hi lo xs) (hx : x ∈ xs) (hy : y ∈ xs) :
    x = y ∨ start x + len x ≤ start y ∨ start y + len y ≤ start x := by
  induction xs generalizing lo with
  | nil => cases hx
  | cons z xs ih =>
      rcases List.mem_cons.mp hx with rfl | hx
      · rcases List.mem_cons.mp hy with rfl | hy
        · exact .inl rfl
        · exact .inr (.inl (h.2.mem hy).1)
      · rcases List.mem_cons.mp hy with hyz | hy
        · exact .inr (.inr (hyz ▸ (h.2.mem hx).1))
        · exact ih h.2 hx hy

/-- The lengths fit. -/
theorem Packed.sum_le (h : Packed start len hi lo xs) : lo + (xs.map len).sum ≤ hi := by
  induction xs generalizing lo with
  | nil => exact h
  | cons y xs ih =>
      have := ih h.2
      have := h.1
      rw [List.map_cons, List.sum_cons]
      omega

/-- Segments are taken out. -/
theorem Packed.sublist (h : Packed start len hi lo xs) (hs : ys.Sublist xs) :
    Packed start len hi lo ys := by
  induction hs generalizing lo with
  | slnil => exact h
  | cons y _ ih => exact (ih h.2).lower (h.1.trans (Nat.le_add_right _ _))
  | cons_cons y _ ih => exact ⟨h.1, ih h.2⟩

/-- Segments change, but not where they are. -/
theorem Packed.map {f : α → α} (hstart : ∀ x, start (f x) = start x)
    (hlen : ∀ x, len (f x) = len x) (h : Packed start len hi lo xs) :
    Packed start len hi lo (xs.map f) := by
  induction xs generalizing lo with
  | nil => exact h
  | cons y xs ih =>
      refine ⟨hstart y ▸ h.1, ?_⟩
      rw [hstart, hlen]
      exact ih h.2

end Levos.Base
