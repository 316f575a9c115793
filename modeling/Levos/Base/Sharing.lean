import Mathlib.Data.Option.Basic
import Mathlib.Logic.Function.Basic

/-!
# Shared stores

Cells that refer to frames, where a frame may be shared by several cells as
long as none of them may write to it. Attaching an unused frame, writing
through a writable cell and sharing the frames of some cells read-only keep
this, and each of them changes the value of the cells it is meant to change
and of no other.
-/

namespace Levos.Base

/-- Cells with their frame and whether they may write to it, and the values of
the frames. -/
structure Sharing (κ φ ν : Type*) where
  cell : κ → Option (φ × Bool)
  frame : φ → ν

namespace Sharing

variable {κ φ ν : Type*}

/-- What is read through a cell. -/
def value (m : Sharing κ φ ν) (c : κ) : Option ν := (m.cell c).map fun e => m.frame e.1

/-- A frame that can be written through one cell is referred to by no other. -/
def Isolated (m : Sharing κ φ ν) : Prop :=
  ∀ c d f w, m.cell c = some (f, true) → m.cell d = some (f, w) → c = d

def Unused (m : Sharing κ φ ν) (f : φ) : Prop := ∀ c w, m.cell c ≠ some (f, w)

variable [DecidableEq κ] [DecidableEq φ]

/-- Let a cell refer to a frame with the given value. -/
def attach (m : Sharing κ φ ν) (c : κ) (f : φ) (w : Bool) (v : ν) : Sharing κ φ ν :=
  ⟨Function.update m.cell c (some (f, w)), Function.update m.frame f v⟩

/-- Change the value of a frame. -/
def poke (m : Sharing κ φ ν) (f : φ) (v : ν) : Sharing κ φ ν :=
  ⟨m.cell, Function.update m.frame f v⟩

omit [DecidableEq κ] [DecidableEq φ] in
/-- Let every cell `c` refer to what `src c` referred to, without write access
where `down c`. -/
def share (m : Sharing κ φ ν) (src : κ → κ) (down : κ → Bool) : Sharing κ φ ν :=
  ⟨fun c => (m.cell (src c)).map fun e => (e.1, e.2 && !down c), m.frame⟩

theorem Isolated.attach {m : Sharing κ φ ν} (h : m.Isolated) {f : φ} (hf : m.Unused f) (c : κ)
    (w : Bool) (v : ν) : (m.attach c f w v).Isolated := by
  intro a b g u ha hb
  simp only [Sharing.attach, Function.update_apply] at ha hb
  split at ha
  next hac =>
    split at hb
    next hbc => rw [hac, hbc]
    next =>
      obtain ⟨rfl, -⟩ := Prod.mk.inj (Option.some.inj ha)
      exact absurd hb (hf b u)
  next =>
    split at hb
    next =>
      obtain ⟨rfl, -⟩ := Prod.mk.inj (Option.some.inj hb)
      exact absurd ha (hf a true)
    next => exact h a b g u ha hb

theorem value_attach {m : Sharing κ φ ν} {f : φ} (hf : m.Unused f) (c : κ) (w : Bool) (v : ν)
    (d : κ) : (m.attach c f w v).value d = if d = c then some v else m.value d := by
  simp only [value, attach, Function.update_apply]
  split
  next => simp
  next =>
    cases hd : m.cell d with
    | none => rfl
    | some e =>
      have hne : e.1 ≠ f := fun heq => hf d e.2 (by rw [hd, ← heq])
      simp [hne]

omit [DecidableEq κ] in
theorem Isolated.poke {m : Sharing κ φ ν} (h : m.Isolated) (f : φ) (v : ν) :
    (m.poke f v).Isolated := h

/-- A write through a writable cell changes the value of that cell only. -/
theorem Isolated.value_poke {m : Sharing κ φ ν} (h : m.Isolated) {c : κ} {f : φ}
    (hc : m.cell c = some (f, true)) (v : ν) (d : κ) :
    (m.poke f v).value d = if d = c then some v else m.value d := by
  simp only [value, Sharing.poke]
  by_cases hdc : d = c
  · simp [hdc, hc]
  · rw [if_neg hdc]
    cases hd : m.cell d with
    | none => rfl
    | some e =>
      have hne : e.1 ≠ f := fun heq => hdc (h c d f e.2 hc (by rw [hd, ← heq])).symm
      simp [hne]

omit [DecidableEq κ] [DecidableEq φ] in
theorem Isolated.share {m : Sharing κ φ ν} (h : m.Isolated) {src : κ → κ} {down : κ → Bool}
    (hdown : ∀ c d, src c = src d → down c = false → c = d) : (m.share src down).Isolated := by
  intro c d f w hc hd
  simp only [Sharing.share, Option.map_eq_some_iff, Prod.mk.injEq, Bool.and_eq_true,
    Bool.not_eq_true', Prod.exists] at hc hd
  obtain ⟨f₁, w₁, hc, rfl, rfl, hnot⟩ := hc
  obtain ⟨f₂, w₂, hd, rfl, -⟩ := hd
  exact hdown c d (h _ _ _ _ hc hd) hnot

omit [DecidableEq κ] [DecidableEq φ] in
theorem value_share (m : Sharing κ φ ν) (src : κ → κ) (down : κ → Bool) (c : κ) :
    (m.share src down).value c = m.value (src c) := by
  simp [value, share, Function.comp_def]

end Sharing

end Levos.Base
