import Mathlib.Tactic

/-!
# Runs of a partial step function

A machine is a function `step : σ → α → Option σ`; `none` is an action that
cannot be taken, or one that ends the run. Everything said of "every
reachable state" in this development is said of `runSteps`, and proved by
`runSteps_invariant` from what one step preserves.
-/

namespace Levos.Base

variable {σ α : Type}

/-- The state after the actions, in order. -/
def runSteps (step : σ → α → Option σ) : σ → List α → Option σ
  | s, [] => some s
  | s, a :: as => (step s a).bind fun s' => runSteps step s' as

/-- Every step of the run meets `P`, a condition on the action and on the
state before it. -/
def StepsMeet (step : σ → α → Option σ) (P : σ → α → Prop) : σ → List α → Prop
  | _, [] => True
  | s, a :: as => P s a ∧ ∀ s', step s a = some s' → StepsMeet step P s' as

theorem stepsMeet_cons_none {step : σ → α → Option σ} {P : σ → α → Prop} {s : σ} {a : α}
    {as : List α} (h : step s a = none) : StepsMeet step P s (a :: as) ↔ P s a := by
  constructor
  · exact fun hm => hm.1
  · refine fun hp => ⟨hp, fun s' hs' => ?_⟩
    rw [h] at hs'
    cases hs'

theorem stepsMeet_cons_some {step : σ → α → Option σ} {P : σ → α → Prop} {s s' : σ} {a : α}
    {as : List α} (h : step s a = some s') :
    StepsMeet step P s (a :: as) ↔ P s a ∧ StepsMeet step P s' as := by
  constructor
  · exact fun hm => ⟨hm.1, hm.2 s' h⟩
  · refine fun hm => ⟨hm.1, fun t ht => ?_⟩
    rw [h] at ht
    exact Option.some.inj ht ▸ hm.2

/-- The condition holds along the rest of a run. -/
theorem StepsMeet.rest {step : σ → α → Option σ} {P : σ → α → Prop} :
    ∀ {pre as : List α} {s t : σ}, StepsMeet step P s (pre ++ as) →
      runSteps step s pre = some t → StepsMeet step P t as
  | [], as, s, t, hm, h => by
      rw [runSteps, Option.some.injEq] at h
      exact h ▸ hm
  | a :: pre, as, s, t, hm, h => by
      obtain ⟨s', hs', ht⟩ := Option.bind_eq_some_iff.mp h
      exact StepsMeet.rest (hm.2 s' hs') ht

theorem stepsMeet_true {step : σ → α → Option σ} :
    ∀ (s : σ) (as : List α), StepsMeet step (fun _ _ => True) s as
  | _, [] => trivial
  | _, _ :: as => ⟨trivial, fun s' _ => stepsMeet_true s' as⟩

/-- A decidable condition can be checked along a concrete run. -/
instance decidableStepsMeet (step : σ → α → Option σ) (P : σ → α → Prop)
    [∀ s a, Decidable (P s a)] : ∀ (s : σ) (as : List α), Decidable (StepsMeet step P s as)
  | _, [] => isTrue trivial
  | s, a :: as =>
      match h : step s a with
      | none => decidable_of_iff (P s a) (stepsMeet_cons_none h).symm
      | some s' =>
          haveI := decidableStepsMeet step P s' as
          decidable_of_iff (P s a ∧ StepsMeet step P s' as) (stepsMeet_cons_some h).symm

theorem runSteps_append {step : σ → α → Option σ} :
    ∀ (s : σ) (pre as : List α),
      runSteps step s (pre ++ as) = (runSteps step s pre).bind fun t => runSteps step t as
  | _, [], _ => rfl
  | s, a :: pre, as => by
      rw [List.cons_append, runSteps, runSteps, Option.bind_assoc]
      exact congrArg (step s a).bind (funext fun s' => runSteps_append s' pre as)

/-- One more action. -/
theorem runSteps_concat {step : σ → α → Option σ} (s : σ) (pre : List α) (a : α) :
    runSteps step s (pre ++ [a]) = (runSteps step s pre).bind fun t => step t a := by
  rw [runSteps_append]
  refine Option.bind_congr fun t _ => ?_
  rw [runSteps]
  cases step t a <;> rfl

theorem runSteps_cons_some {step : σ → α → Option σ} {s t : σ} {a : α}
    {as : List α} (h : runSteps step s (a :: as) = some t) :
    ∃ s', step s a = some s' ∧ runSteps step s' as = some t := by
  rw [runSteps] at h
  exact Option.bind_eq_some_iff.mp h

/-- **Invariant rule.** What every step preserves, every run preserves. -/
theorem runSteps_invariant {step : σ → α → Option σ} {I : σ → Prop}
    (hstep : ∀ s a s', I s → step s a = some s' → I s') :
    ∀ {as : List α} {s t : σ}, I s → runSteps step s as = some t → I t
  | [], s, t, hs, h => by
      rw [runSteps, Option.some.injEq] at h
      exact h ▸ hs
  | a :: as, s, t, hs, h => by
      obtain ⟨s', hs', ht⟩ := runSteps_cons_some h
      exact runSteps_invariant hstep (hstep s a s' hs hs') ht

/-- **Conditional invariant rule.** An invariant that only the steps meeting
`P` preserve holds along the runs whose steps all meet it. -/
theorem runSteps_invariant_of_meet {step : σ → α → Option σ} {I : σ → Prop}
    {P : σ → α → Prop}
    (hstep : ∀ s a s', I s → P s a → step s a = some s' → I s') :
    ∀ {as : List α} {s t : σ}, I s → StepsMeet step P s as →
      runSteps step s as = some t → I t
  | [], s, t, hs, _, h => by
      rw [runSteps, Option.some.injEq] at h
      exact h ▸ hs
  | a :: as, s, t, hs, hm, h => by
      obtain ⟨s', hs', ht⟩ := runSteps_cons_some h
      exact runSteps_invariant_of_meet hstep (hstep s a s' hs hm.1 hs')
        (hm.2 s' hs') ht

/-- **Good or spoiled.** Where the steps that meet `P` keep the good states, the
others spoil them, and a spoiled state stays one, a run from a good state ends
in a good one exactly when all its steps meet `P`. -/
theorem runSteps_good_or_spoiled {step : σ → α → Option σ} {G B : σ → Prop} {P : σ → α → Prop}
    (hgood : ∀ s a s', G s → P s a → step s a = some s' → G s')
    (hspoil : ∀ s a s', G s → ¬P s a → step s a = some s' → B s')
    (hbad : ∀ s a s', B s → step s a = some s' → B s') :
    ∀ {as : List α} {s t : σ}, G s → runSteps step s as = some t →
      StepsMeet step P s as ∧ G t ∨ ¬StepsMeet step P s as ∧ B t
  | [], s, t, hs, h => by
      rw [runSteps, Option.some.injEq] at h
      exact .inl ⟨trivial, h ▸ hs⟩
  | a :: as, s, t, hs, h => by
      obtain ⟨s', hs', ht⟩ := runSteps_cons_some h
      by_cases hp : P s a
      · rw [stepsMeet_cons_some hs']
        rcases runSteps_good_or_spoiled hgood hspoil hbad (hgood s a s' hs hp hs') ht with
          ⟨hmeet, hgt⟩ | ⟨hmeet, hbt⟩
        · exact .inl ⟨⟨hp, hmeet⟩, hgt⟩
        · exact .inr ⟨fun hm => hmeet hm.2, hbt⟩
      · exact .inr ⟨fun hm => hp hm.1, runSteps_invariant hbad (hspoil s a s' hs hp hs') ht⟩

/-- Two conditions that agree on the states an invariant describes hold along
the same runs. -/
theorem stepsMeet_congr {step : σ → α → Option σ} {I : σ → Prop} {P Q : σ → α → Prop}
    (hiff : ∀ s a, I s → (P s a ↔ Q s a))
    (hstep : ∀ s a s', I s → P s a → step s a = some s' → I s') :
    ∀ {as : List α} {s : σ}, I s → (StepsMeet step P s as ↔ StepsMeet step Q s as)
  | [], _, _ => Iff.rfl
  | a :: as, s, hs => by
      constructor
      · rintro ⟨hp, hrest⟩
        exact ⟨(hiff s a hs).mp hp, fun s' hs' =>
          (stepsMeet_congr hiff hstep (hstep s a s' hs hp hs')).mp (hrest s' hs')⟩
      · rintro ⟨hq, hrest⟩
        have hp := (hiff s a hs).mpr hq
        exact ⟨hp, fun s' hs' =>
          (stepsMeet_congr hiff hstep (hstep s a s' hs hp hs')).mpr (hrest s' hs')⟩

/-- A run is right: every state has `I`, and every step meets `R`. -/
structure RunRight (step : σ → α → Option σ) (I : σ → Prop) (R : σ → α → Prop) (s : σ)
    (as : List α) : Prop where
  states : ∀ pre t, pre <+: as → runSteps step s pre = some t → I t
  steps : StepsMeet step R s as

theorem RunRight.start {step : σ → α → Option σ} {I : σ → Prop} {R : σ → α → Prop} {s : σ}
    {as : List α} (h : RunRight step I R s as) : I s :=
  h.states [] s List.nil_prefix rfl

theorem RunRight.tail {step : σ → α → Option σ} {I : σ → Prop} {R : σ → α → Prop} {s s' : σ}
    {a : α} {as : List α} (h : RunRight step I R s (a :: as)) (hs' : step s a = some s') :
    RunRight step I R s' as := by
  refine ⟨fun pre t hpre hrun => ?_, h.steps.2 s' hs'⟩
  refine h.states (a :: pre) t (List.cons_prefix_cons.mpr ⟨rfl, hpre⟩) ?_
  rw [runSteps, hs']
  exact hrun

/-- **Exact rule for runs.** Where the steps that meet `P` keep `J` and meet
`R`, and the others do not meet `R` or leave a state without `I`, a run is
right exactly when all its steps meet `P`. -/
theorem runRight_iff_stepsMeet {step : σ → α → Option σ} {I J : σ → Prop} {R P : σ → α → Prop}
    (hI : ∀ s, J s → I s)
    (hgood : ∀ s a, J s → P s a → R s a ∧ ∀ s', step s a = some s' → J s')
    (hbad : ∀ s a, J s → R s a → (∀ s', step s a = some s' → I s') → P s a) :
    ∀ {as : List α} {s : σ}, J s → (RunRight step I R s as ↔ StepsMeet step P s as)
  | [], s, hs => by
      refine iff_of_true ⟨fun pre t hpre hrun => ?_, trivial⟩ trivial
      rw [List.prefix_nil.mp hpre, runSteps, Option.some.injEq] at hrun
      exact hrun ▸ hI s hs
  | a :: as, s, hs => by
      constructor
      · intro h
        have hp : P s a := hbad s a hs h.steps.1 fun s' hs' => (h.tail hs').start
        refine ⟨hp, fun s' hs' => ?_⟩
        exact (runRight_iff_stepsMeet hI hgood hbad ((hgood s a hs hp).2 s' hs')).mp (h.tail hs')
      · rintro ⟨hp, hrest⟩
        obtain ⟨hr, hnext⟩ := hgood s a hs hp
        have htail : ∀ s', step s a = some s' → RunRight step I R s' as := fun s' hs' =>
          (runRight_iff_stepsMeet hI hgood hbad (hnext s' hs')).mpr (hrest s' hs')
        refine ⟨fun pre t hpre hrun => ?_, hr, fun s' hs' => (htail s' hs').steps⟩
        cases pre with
        | nil =>
            rw [runSteps, Option.some.injEq] at hrun
            exact hrun ▸ hI s hs
        | cons b pre =>
            obtain ⟨rfl, hpre'⟩ := List.cons_prefix_cons.mp hpre
            obtain ⟨s', hs', hrun⟩ := runSteps_cons_some hrun
            exact (htail s' hs').states pre t hpre' hrun

/-- **Exact invariant rule.** Where the steps that meet `P` keep `I`, and the
others leave a state without it, `I` holds in every state of a run exactly when
all its steps meet `P`. -/
theorem reaches_iff_stepsMeet {step : σ → α → Option σ} {I J : σ → Prop} {P : σ → α → Prop}
    (hI : ∀ s, J s → I s)
    (hgood : ∀ s a s', J s → P s a → step s a = some s' → J s')
    (hbad : ∀ s a, J s → ¬P s a → ∃ s', step s a = some s' ∧ ¬I s')
    {as : List α} {s : σ} (hs : J s) :
    (∀ pre t, pre <+: as → runSteps step s pre = some t → I t) ↔ StepsMeet step P s as := by
  have hexact : RunRight step I (fun _ _ => True) s as ↔ StepsMeet step P s as :=
    runRight_iff_stepsMeet hI (fun s a hs hp => ⟨trivial, fun s' hs' => hgood s a s' hs hp hs'⟩)
      (fun s a hs _ hall => by
        by_contra hp
        obtain ⟨s', hs', hnot⟩ := hbad s a hs hp
        exact hnot (hall s' hs')) hs
  refine Iff.trans ⟨fun h => ⟨h, stepsMeet_true s as⟩, fun h => h.states⟩ hexact

end Levos.Base
