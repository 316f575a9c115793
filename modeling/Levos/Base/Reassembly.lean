import Mathlib.Data.List.Basic
import Mathlib.Tactic.Common

/-!
# A list sent in pieces

A piece is some elements and the place of the first of them. Whoever takes a
piece only where it joins what he has holds a beginning of the list, in
whatever order, and however often, the pieces come (`assemble_isPrefix`), and the
whole of it once they have come in order (`assemble_tiles`).
-/

namespace Levos.Base

variable {α : Type*}

/-- `x` lies in `l` from `off` on. -/
def IsPiece (l : List α) (off : Nat) (x : List α) : Prop := ∃ a b, l = a ++ x ++ b ∧ a.length = off

/-- A receiver that has `got`: what it keeps of a piece. -/
def takePiece (got : List α) (p : Nat × List α) : List α :=
  if p.1 ≤ got.length then got ++ p.2.drop (got.length - p.1) else got

/-- The pieces as they come. -/
def assemble (got : List α) (pieces : List (Nat × List α)) : List α := pieces.foldl takePiece got

/-- The pieces follow each other from `off` on. -/
def Tiled : Nat → List (Nat × List α) → Prop
  | _, [] => True
  | off, p :: ps => p.1 = off ∧ Tiled (off + p.2.length) ps

variable {l got x y : List α} {off : Nat} {pieces : List (Nat × List α)}

/-- What is added behind. -/
theorem isPiece_end (l x : List α) : IsPiece (l ++ x) l.length x := ⟨l, [], by simp, rfl⟩

theorem IsPiece.append (h : IsPiece l off x) (y : List α) : IsPiece (l ++ y) off x := by
  obtain ⟨a, b, rfl, ha⟩ := h
  exact ⟨a, b ++ y, by simp, ha⟩

theorem IsPiece.le (h : IsPiece l off x) : off + x.length ≤ l.length := by
  obtain ⟨a, b, rfl, rfl⟩ := h
  simp

/-- **One piece.** -/
theorem takePiece_isPrefix (hx : IsPiece l off x) (hgot : got <+: l) :
    takePiece got (off, x) <+: l := by
  rw [takePiece]
  split
  · obtain ⟨a, b, rfl, rfl⟩ := hx
    obtain ⟨rest, hrest⟩ := hgot
    rename_i hle
    have hfront : got.take a.length = a := by
      have := congrArg (List.take a.length) hrest
      rw [List.take_append_of_le_length hle, List.append_assoc, List.take_left] at this
      exact this
    have hsplit : got = a ++ got.drop a.length := by
      rw [← List.take_append_drop a.length got, hfront, List.drop_left]
    generalize got.drop a.length = mid at hsplit
    subst hsplit
    rw [List.append_assoc, List.append_assoc] at hrest
    have hmid : mid ++ rest = x ++ b := List.append_cancel_left hrest
    have hlen : (a ++ mid).length - a.length = mid.length := by simp
    dsimp only
    rw [hlen, List.append_assoc a x b, List.append_assoc]
    apply (List.prefix_append_right_inj a).mpr
    rcases Nat.le_total x.length mid.length with hshort | hlong
    · rw [List.drop_eq_nil_of_le hshort, List.append_nil, ← hmid]
      exact List.prefix_append mid rest
    · have hpre : mid <+: x :=
        List.prefix_of_prefix_length_le ⟨rest, hmid⟩ (List.prefix_append x b) hlong
      obtain ⟨tail, rfl⟩ := hpre
      rw [List.drop_left]
      exact List.prefix_append _ b
  · exact hgot

/-- **Any pieces in any order.** -/
theorem assemble_isPrefix (hpieces : ∀ p ∈ pieces, IsPiece l p.1 p.2) (hgot : got <+: l) :
    assemble got pieces <+: l := by
  induction pieces generalizing got with
  | nil => exact hgot
  | cons p ps ih =>
      have hp := takePiece_isPrefix (hpieces p List.mem_cons_self) hgot
      exact ih (fun q hq => hpieces q (List.mem_cons_of_mem p hq)) hp

/-- **All of them in order**, for a receiver that may hold a part already. -/
theorem assemble_tiles {front : List α} (h : Tiled front.length pieces)
    (hgot : got <+: front ++ (pieces.map (·.2)).flatten) (hlen : front.length ≤ got.length) :
    assemble got pieces = front ++ (pieces.map (·.2)).flatten := by
  induction pieces generalizing got front with
  | nil =>
      rw [List.map_nil, List.flatten_nil, List.append_nil] at hgot ⊢
      exact hgot.eq_of_length_le hlen
  | cons p ps ih =>
      obtain ⟨hoff, htail⟩ := h
      have hwhole : front ++ ((p :: ps).map (·.2)).flatten =
          (front ++ p.2) ++ (ps.map (·.2)).flatten := by simp
      rw [hwhole] at hgot ⊢
      have hpiece : IsPiece ((front ++ p.2) ++ (ps.map (·.2)).flatten) p.1 p.2 := by
        rw [hoff]
        exact (isPiece_end front p.2).append _
      have hreach : (front ++ p.2).length ≤ (takePiece got p).length := by
        rw [takePiece, if_pos (hoff ▸ hlen), List.length_append, List.length_append,
          List.length_drop]
        omega
      rw [← List.length_append] at htail
      exact ih htail (takePiece_isPrefix hpiece hgot) hreach

theorem Tiled.append {ps qs : List (Nat × List α)} (h : Tiled off ps)
    (h' : Tiled (off + (ps.map (·.2)).flatten.length) qs) : Tiled off (ps ++ qs) := by
  induction ps generalizing off with
  | nil => simpa using h'
  | cons p ps ih =>
      refine ⟨h.1, ih h.2 ?_⟩
      simpa [Nat.add_assoc] using h'

end Levos.Base
