import Mathlib.Tactic

/-!
# Machines that answer

A machine with answers is a function `step : σ → α → Option (σ × ω)`, and what
it is meant to be is a function `spec : τ → α → τ × ω`. A step refines the
specification if it gives the same answer and keeps a relation between the two
states; `refines_run` is the rule for runs. The relation may come with a
budget, of which each action takes its share.
-/

namespace Levos.Base

variable {σ τ α ω : Type}

/-- The state and the answers after a run. -/
def runAnswers (step : σ → α → Option (σ × ω)) : σ → List α → Option (σ × List ω)
  | s, [] => some (s, [])
  | s, a :: as => (step s a).bind fun r => (runAnswers step r.1 as).map fun t => (t.1, r.2 :: t.2)

/-- What the specification says of a run. -/
def runSpec (spec : τ → α → τ × ω) : τ → List α → τ × List ω
  | t, [] => (t, [])
  | t, a :: as => ((runSpec spec (spec t a).1 as).1, (spec t a).2 :: (runSpec spec (spec t a).1 as).2)

/-- Every action of the run is allowed where it is taken. -/
def Allowed (spec : τ → α → τ × ω) (legal : τ → α → Prop) : τ → List α → Prop
  | _, [] => True
  | t, a :: as => legal t a ∧ Allowed spec legal (spec t a).1 as

/-- What is allowed can be checked along a concrete run. -/
instance decidableAllowed (spec : τ → α → τ × ω) (legal : τ → α → Prop)
    [∀ t a, Decidable (legal t a)] : ∀ (t : τ) (as : List α), Decidable (Allowed spec legal t as)
  | _, [] => isTrue trivial
  | t, a :: as =>
      haveI := decidableAllowed spec legal (spec t a).1 as
      inferInstanceAs (Decidable (legal t a ∧ Allowed spec legal (spec t a).1 as))

/-- **Refinement rule.** If every allowed step refines the specification within
its share of the budget, every allowed run does within the sum of the shares. -/
theorem refines_run {step : σ → α → Option (σ × ω)} {spec : τ → α → τ × ω} {legal : τ → α → Prop}
    {need : α → Nat} {R : Nat → σ → τ → Prop}
    (hstep : ∀ n s t a, R (n + need a) s t → legal t a →
      ∃ s', step s a = some (s', (spec t a).2) ∧ R n s' (spec t a).1) :
    ∀ {as : List α} {n : Nat} {s : σ} {t : τ}, R (n + (as.map need).sum) s t →
      Allowed spec legal t as →
      ∃ s', runAnswers step s as = some (s', (runSpec spec t as).2) ∧ R n s' (runSpec spec t as).1
  | [], _, s, _, h, _ => ⟨s, rfl, h⟩
  | a :: as, n, s, t, h, hallowed => by
      have hsum : n + ((a :: as).map need).sum = n + (as.map need).sum + need a := by
        rw [List.map_cons, List.sum_cons]
        omega
      obtain ⟨s₁, heq₁, h₁⟩ := hstep _ s t a (hsum ▸ h) hallowed.1
      obtain ⟨s', heq', h'⟩ := refines_run hstep h₁ hallowed.2
      refine ⟨s', ?_, h'⟩
      rw [runAnswers, heq₁, Option.bind_some]
      dsimp only
      rw [heq', Option.map_some]
      rfl

end Levos.Base
