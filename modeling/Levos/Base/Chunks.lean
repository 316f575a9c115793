import Mathlib.Tactic

/-!
# Input that comes in pieces

A machine reads a list from the front: `next` takes some elements off a list
that is not empty, or fails. Run on `l` and then on `b`, it does what it does on
`l ++ b` if nowhere on the way through `l` its next step depends on what follows
`l` (`consume_append`).
-/

namespace Levos.Base

variable {σ β : Type*} {next : σ → List β → Option (σ × List β)}

/-- Every step takes something. -/
def Shrinks (next : σ → List β → Option (σ × List β)) : Prop :=
  ∀ ⦃s l s' l'⦄, l ≠ [] → next s l = some (s', l') → l'.length < l.length

/-- `consume` with a bound on the steps. -/
def consumeUpTo (next : σ → List β → Option (σ × List β)) : Nat → σ → List β → Option σ
  | _, s, [] => some s
  | 0, _, _ :: _ => none
  | n + 1, s, b :: l => (next s (b :: l)).bind fun r => consumeUpTo next n r.1 r.2

/-- The machine on a whole list. -/
def consume (next : σ → List β → Option (σ × List β)) (s : σ) (l : List β) : Option σ :=
  consumeUpTo next l.length s l

@[simp] theorem consume_nil (s : σ) : consume next s [] = some s := rfl

theorem consumeUpTo_enough (h : Shrinks next) {n m : Nat} {s : σ} {l : List β}
    (hn : l.length ≤ n) (hm : l.length ≤ m) :
    consumeUpTo next n s l = consumeUpTo next m s l := by
  induction n generalizing m s l with
  | zero =>
      obtain rfl := List.eq_nil_of_length_eq_zero (Nat.le_zero.mp hn)
      cases m <;> rfl
  | succ n ih =>
      cases l with
      | nil => cases m <;> rfl
      | cons b l =>
          cases m with
          | zero => exact absurd hm (by simp)
          | succ m =>
              refine Option.bind_congr fun r hr => ?_
              have hlt := h (List.cons_ne_nil b l) hr
              simp only [List.length_cons] at hn hm hlt
              exact ih (by omega) (by omega)

/-- One step, and the rest. -/
theorem consume_of_ne_nil (h : Shrinks next) {s : σ} {l : List β} (hl : l ≠ []) :
    consume next s l = (next s l).bind fun r => consume next r.1 r.2 := by
  cases l with
  | nil => exact absurd rfl hl
  | cons b l =>
      refine Option.bind_congr fun r hr => ?_
      have hlt := h hl hr
      simp only [List.length_cons] at hlt
      exact consumeUpTo_enough h (by omega) le_rfl

/-- One step of the machine. -/
def Step (next : σ → List β → Option (σ × List β)) (x y : σ × List β) : Prop :=
  x.2 ≠ [] ∧ next x.1 x.2 = some y

/-- What the machine comes through. -/
def Reached (next : σ → List β → Option (σ × List β)) : σ × List β → σ × List β → Prop :=
  Relation.ReflTransGen (Step next)

/-- An invariant of the steps holds all along. -/
theorem Reached.invariant {I : σ → Prop} {x y : σ × List β} (h : Reached next x y) (hx : I x.1)
    (hstep : ∀ z w, Reached next x z → Step next z w → I z.1 → I w.1) : I y.1 := by
  induction h with
  | refl => exact hx
  | tail hxz hzw ih => exact hstep _ _ hxz hzw ih

/-- The next step on `l` does not depend on what follows. -/
def Settled (next : σ → List β → Option (σ × List β)) (s : σ) (l : List β) : Prop :=
  ∀ b, next s (l ++ b) = (next s l).map fun r => (r.1, r.2 ++ b)

/-- **Pieces.** Where every step on the way through `l` is settled, `l ++ b` may
come in two pieces. -/
theorem consume_append (h : Shrinks next) {s : σ} {l : List β}
    (hsettled : ∀ s' l', Reached next (s, l) (s', l') → l' ≠ [] → Settled next s' l') (b : List β) :
    consume next s (l ++ b) = (consume next s l).bind fun s' => consume next s' b := by
  induction hn : l.length using Nat.strong_induction_on generalizing s l with
  | _ n ih =>
      by_cases hl : l = []
      · subst hl
        rfl
      · rw [consume_of_ne_nil h (List.append_ne_nil_of_left_ne_nil hl b), consume_of_ne_nil h hl,
          hsettled s l .refl hl b]
        cases hnext : next s l with
        | none => rfl
        | some r =>
            have hstep : Step next (s, l) r := ⟨hl, hnext⟩
            exact ih _ (hn ▸ h hl hnext)
              (fun s' l' hreach => hsettled s' l' (.head hstep hreach)) rfl

end Levos.Base
