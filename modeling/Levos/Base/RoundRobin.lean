import Mathlib.Tactic

/-!
# Taking turns

Some wait for their turn, in an order. Whoever is served goes behind all the
others, and so do those that were passed over on the way to him, in front of
him; somebody may join anywhere and leave from anywhere. Who is never passed
over waits no longer than the ones in front of him and the ones that join
(`Turns.waits`).
-/

namespace Levos.Base

variable {α : Type*}

inductive Turn (α : Type*) where
  | serve (skipped : List α) (x : α)
  | join (x : α)
  | leave (x : α)

/-- What a turn does to the order. -/
inductive TurnStep : List α → Turn α → List α → Prop
  | serve (skipped rest : List α) (x : α) :
      TurnStep (skipped ++ x :: rest) (.serve skipped x) (rest ++ (skipped ++ [x]))
  | join (xs ys : List α) (x : α) : TurnStep (xs ++ ys) (.join x) (xs ++ x :: ys)
  | leave (xs ys : List α) (x : α) : TurnStep (xs ++ x :: ys) (.leave x) (xs ++ ys)

inductive Turns : List α → List (Turn α) → List α → Prop
  | nil (l : List α) : Turns l [] l
  | cons {l l' l'' : List α} {e : Turn α} {es : List (Turn α)} (h : TurnStep l e l')
      (hs : Turns l' es l'') : Turns l (e :: es) l''

def Turn.served : Turn α → Nat
  | .serve _ _ => 1
  | _ => 0

def Turn.joined : Turn α → Nat
  | .join _ => 1
  | _ => 0

/-- `t` is neither served nor passed over, and stays. -/
def Turn.Waits (t : α) : Turn α → Prop
  | .serve skipped x => t ∉ skipped ∧ t ≠ x
  | .join x => t ≠ x
  | .leave x => t ≠ x

variable {l l' : List α} {e : Turn α} {es : List (Turn α)} {t : α}

section Waiting

variable [DecidableEq α]

/-- **One turn.** -/
theorem TurnStep.waits (h : TurnStep l e l') (hw : e.Waits t) (ht : t ∈ l) :
    t ∈ l' ∧ l'.idxOf t + e.served ≤ l.idxOf t + e.joined := by
  cases h with
  | serve skipped rest x =>
      obtain ⟨hskipped, hx⟩ := hw
      have hrest : t ∈ rest := by simpa [hskipped, hx] using ht
      refine ⟨List.mem_append_left _ hrest, ?_⟩
      rw [List.idxOf_append_of_mem hrest, List.idxOf_append_of_notMem hskipped,
        List.idxOf_cons_ne _ (Ne.symm hx)]
      simp only [Turn.served, Turn.joined]
      omega
  | join xs ys x =>
      have hmem : t ∈ xs ++ x :: ys := by
        rcases List.mem_append.mp ht with hxs | hys
        · exact List.mem_append_left _ hxs
        · exact List.mem_append_right _ (List.mem_cons_of_mem _ hys)
      refine ⟨hmem, ?_⟩
      simp only [Turn.served, Turn.joined]
      by_cases hxs : t ∈ xs
      · rw [List.idxOf_append_of_mem hxs, List.idxOf_append_of_mem hxs]
        omega
      · rw [List.idxOf_append_of_notMem hxs, List.idxOf_append_of_notMem hxs,
          List.idxOf_cons_ne _ (Ne.symm hw)]
        omega
  | leave xs ys x =>
      have hmem : t ∈ xs ++ ys := by
        have hx : t ≠ x := hw
        simpa [hx] using ht
      refine ⟨hmem, ?_⟩
      simp only [Turn.served, Turn.joined]
      by_cases hxs : t ∈ xs
      · have hidx : (xs ++ ys).idxOf t = (xs ++ x :: ys).idxOf t := by
          rw [List.idxOf_append_of_mem hxs, List.idxOf_append_of_mem hxs]
        omega
      · rw [List.idxOf_append_of_notMem hxs, List.idxOf_append_of_notMem hxs,
          List.idxOf_cons_ne _ (Ne.symm hw)]
        omega

/-- **Nobody waits longer than his turn.** -/
theorem Turns.waits (h : Turns l es l') (hw : ∀ e ∈ es, e.Waits t) (ht : t ∈ l) :
    t ∈ l' ∧ l'.idxOf t + (es.map Turn.served).sum ≤ l.idxOf t + (es.map Turn.joined).sum := by
  induction h with
  | nil => exact ⟨ht, Nat.le_refl _⟩
  | cons hstep _ ih =>
      obtain ⟨hmem, hle⟩ := hstep.waits (hw _ List.mem_cons_self) ht
      obtain ⟨hmem', hle'⟩ := ih (fun e he => hw e (List.mem_cons_of_mem _ he)) hmem
      refine ⟨hmem', ?_⟩
      rw [List.map_cons, List.map_cons, List.sum_cons, List.sum_cons]
      omega

end Waiting

/-- Who stands behind whom in a circle: when the order is the list from some
place on and then what is before that place, it is so too after a turn, from
the place behind the one served. -/
theorem circle_serve {xs ys skipped rest : List α} {x : α}
    (h : ys ++ xs = skipped ++ x :: rest) :
    ∃ before behind, xs ++ ys = before ++ x :: behind ∧
      behind ++ (before ++ [x]) = rest ++ (skipped ++ [x]) := by
  rcases List.append_eq_append_iff.mp h with ⟨as, rfl, hxs⟩ | ⟨bs, rfl, hrest⟩
  · exact ⟨as, rest ++ ys, by simp [hxs], by simp⟩
  · cases bs with
    | nil =>
        rw [List.nil_append] at hrest
        refine ⟨[], rest ++ skipped, ?_, ?_⟩
        · simp [← hrest]
        · simp
    | cons b bs =>
        obtain ⟨rfl, rfl⟩ := List.cons_eq_cons.mp hrest
        exact ⟨xs ++ skipped, bs, by simp, by simp⟩

end Levos.Base
