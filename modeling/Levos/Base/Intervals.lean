import Mathlib.Order.Interval.Set.Disjoint
import Mathlib.Tactic
import Mathlib.Order.CompletePartialOrder

/-!
# Lists of intervals

Half-open intervals, one for each element of a list, laid out one behind the
other. Two tests that look at neighbours only decide questions about the whole
list: whether a new interval fits in (`Laid.fits_iff`), and where the first
gap of some kind is (`firstGap_eq_some`, `firstGap_eq_none`).
-/

namespace Levos.Base

variable {α β : Type*} [LinearOrder β] (lo hi : α → β)

/-- The points of an element. -/
def extent (x : α) : Set β := Set.Ico (lo x) (hi x)

/-- One behind the other. -/
def Laid (xs : List α) : Prop := xs.Pairwise fun x y => hi x ≤ lo y

variable {lo hi} {xs before after : List α} {x y v : α}

theorem mem_extent {a : β} : a ∈ extent lo hi x ↔ lo x ≤ a ∧ a < hi x := Iff.rfl

theorem disjoint_extent_iff (hx : lo x < hi x) (hy : lo y < hi y) :
    Disjoint (extent lo hi x) (extent lo hi y) ↔ hi x ≤ lo y ∨ hi y ≤ lo x := by
  rw [extent, extent, Set.Ico_disjoint_Ico, le_max_iff, min_le_iff, min_le_iff]
  constructor
  · rintro ((h | h) | (h | h))
    · exact absurd h (not_le.mpr hx)
    · exact .inr h
    · exact .inl h
    · exact absurd h (not_le.mpr hy)
  · rintro (h | h)
    · exact .inr (.inl h)
    · exact .inl (.inr h)

/-- Laid out means sorted by start and pairwise disjoint. -/
theorem laid_iff_sorted_disjoint (hpos : ∀ x ∈ xs, lo x < hi x) :
    Laid lo hi xs ↔ (xs.Pairwise fun x y => lo x ≤ lo y) ∧
      xs.Pairwise fun x y => Disjoint (extent lo hi x) (extent lo hi y) := by
  rw [Laid, ← List.pairwise_and_iff]
  refine List.Pairwise.iff_of_mem fun {x y} hx hy => ?_
  rw [disjoint_extent_iff (hpos x hx) (hpos y hy)]
  constructor
  · exact fun h => ⟨(hpos x hx).le.trans h, .inl h⟩
  · rintro ⟨hle, h | h⟩
    · exact h
    · exact absurd (hle.trans_lt (hpos y hy)) (not_lt.mpr h)

/-! ## Inserting -/

theorem laid_insert_iff :
    Laid lo hi (before ++ v :: after) ↔ Laid lo hi (before ++ after) ∧
      (∀ x ∈ before, hi x ≤ lo v) ∧ ∀ y ∈ after, hi v ≤ lo y := by
  simp only [Laid, List.pairwise_append, List.pairwise_cons, List.mem_cons, forall_eq_or_imp]
  constructor
  · rintro ⟨hb, ⟨hv, ha⟩, hba⟩
    exact ⟨⟨hb, ha, fun x hx => (hba x hx).2⟩, fun x hx => (hba x hx).1, hv⟩
  · rintro ⟨⟨hb, ha, hba⟩, hbv, hv⟩
    exact ⟨hb, ⟨hv, ha⟩, fun x hx => ⟨hbv x hx, hba x hx⟩⟩

/-- What the last element does not reach, no element reaches. -/
theorem Laid.le_of_last (h : Laid lo hi xs) (hpos : ∀ x ∈ xs, lo x < hi x) {a : β}
    (hlast : ∀ x ∈ xs.getLast?, hi x ≤ a) : ∀ x ∈ xs, hi x ≤ a := by
  induction xs with
  | nil => simp
  | cons z zs ih =>
      obtain ⟨hz, hzs⟩ := List.pairwise_cons.mp h
      cases zs with
      | nil => simpa using hlast
      | cons w ws =>
          have htail : ∀ x ∈ w :: ws, hi x ≤ a :=
            ih hzs (fun x hx => hpos x (List.mem_cons_of_mem z hx)) (by simpa using hlast)
          intro x hx
          rcases List.mem_cons.mp hx with rfl | hx
          · have hw := hpos w (by simp)
            exact ((hz w List.mem_cons_self).trans hw.le).trans (htail w List.mem_cons_self)
          · exact htail x hx

/-- What ends before the first element, ends before all. -/
theorem Laid.le_of_head (h : Laid lo hi xs) (hpos : ∀ x ∈ xs, lo x < hi x) {b : β}
    (hhead : ∀ x ∈ xs.head?, b ≤ lo x) : ∀ x ∈ xs, b ≤ lo x := by
  cases xs with
  | nil => simp
  | cons z zs =>
      have hz : b ≤ lo z := by simpa using hhead
      intro x hx
      rcases List.mem_cons.mp hx with rfl | hx
      · exact hz
      · have hzpos := hpos z List.mem_cons_self
        exact (hz.trans hzpos.le).trans ((List.pairwise_cons.mp h).1 x hx)

/-- **Neighbours decide.** An interval put in order of its start overlaps no
element exactly when it overlaps neither of the two next to it. -/
theorem Laid.fits_iff (h : Laid lo hi (before ++ after))
    (hpos : ∀ x ∈ before ++ after, lo x < hi x) (hv : lo v < hi v)
    (hb : ∀ x ∈ before, lo x ≤ lo v) (ha : ∀ y ∈ after, lo v < lo y) :
    (∀ x ∈ before ++ after, Disjoint (extent lo hi x) (extent lo hi v)) ↔
      (∀ x ∈ before.getLast?, hi x ≤ lo v) ∧ ∀ y ∈ after.head?, hi v ≤ lo y := by
  obtain ⟨hlb, hla, -⟩ := List.pairwise_append.mp h
  have hposb : ∀ x ∈ before, lo x < hi x := fun x hx => hpos x (List.mem_append_left _ hx)
  have hposa : ∀ x ∈ after, lo x < hi x := fun x hx => hpos x (List.mem_append_right _ hx)
  constructor
  · intro hdisj
    constructor
    · intro x hx
      have hmem := List.mem_of_getLast? hx
      rcases (disjoint_extent_iff (hposb x hmem) hv).mp
        (hdisj x (List.mem_append_left _ hmem)) with hle | hle
      · exact hle
      · exact absurd (hle.trans (hb x hmem)) (not_le.mpr hv)
    · intro y hy
      have hmem := List.mem_of_mem_head? hy
      rcases (disjoint_extent_iff (hposa y hmem) hv).mp
        (hdisj y (List.mem_append_right _ hmem)) with hle | hle
      · exact absurd (((hposa y hmem).trans_le hle).trans (ha y hmem)) (lt_irrefl _)
      · exact hle
  · rintro ⟨hlast, hhead⟩ x hx
    rw [disjoint_extent_iff (hpos x hx) hv]
    rcases List.mem_append.mp hx with hx | hx
    · exact .inl (Laid.le_of_last hlb hposb hlast x hx)
    · exact .inr (Laid.le_of_head hla hposa hhead x hx)

theorem Laid.insert (h : Laid lo hi (before ++ after))
    (hpos : ∀ x ∈ before ++ after, lo x < hi x)
    (hlast : ∀ x ∈ before.getLast?, hi x ≤ lo v) (hhead : ∀ y ∈ after.head?, hi v ≤ lo y) :
    Laid lo hi (before ++ v :: after) := by
  obtain ⟨hlb, hla, -⟩ := List.pairwise_append.mp h
  refine laid_insert_iff.mpr ⟨h, ?_, ?_⟩
  · exact Laid.le_of_last hlb (fun x hx => hpos x (List.mem_append_left _ hx)) hlast
  · exact Laid.le_of_head hla (fun x hx => hpos x (List.mem_append_right _ hx)) hhead

/-- One list behind another: laid out, and within the bounds of both. -/
theorem laid_append {ys : List α} {a b c d : β}
    (hxs : Laid lo hi xs ∧ ∀ x ∈ xs, a ≤ lo x ∧ hi x ≤ b)
    (hys : Laid lo hi ys ∧ ∀ y ∈ ys, c ≤ lo y ∧ hi y ≤ d)
    (hac : a ≤ c) (hbc : b ≤ c) (hbd : b ≤ d) :
    Laid lo hi (xs ++ ys) ∧ ∀ x ∈ xs ++ ys, a ≤ lo x ∧ hi x ≤ d := by
  obtain ⟨hlx, hbx⟩ := hxs
  obtain ⟨hly, hby⟩ := hys
  constructor
  · refine List.pairwise_append.mpr ⟨hlx, hly, fun x hx y hy => ?_⟩
    calc hi x ≤ b := (hbx x hx).2
      _ ≤ c := hbc
      _ ≤ lo y := (hby y hy).1
  · intro x hx
    rcases List.mem_append.mp hx with hx | hx
    · exact ⟨(hbx x hx).1, (hbx x hx).2.trans hbd⟩
    · exact ⟨hac.trans (hby x hx).1, (hby x hx).2⟩

/-! ## Looking up -/

/-- A point is in one element at most. -/
theorem Laid.unique (h : Laid lo hi xs) {a : β} (hx : x ∈ xs) (hy : y ∈ xs)
    (hax : a ∈ extent lo hi x) (hay : a ∈ extent lo hi y) : x = y := by
  induction xs with
  | nil => cases hx
  | cons z zs ih =>
      obtain ⟨hz, hzs⟩ := List.pairwise_cons.mp h
      rcases List.mem_cons.mp hx with rfl | hxs
      · rcases List.mem_cons.mp hy with rfl | hys
        · rfl
        · exact absurd (hax.2.trans_le ((hz y hys).trans hay.1)) (lt_irrefl a)
      · rcases List.mem_cons.mp hy with rfl | hys
        · exact absurd (hay.2.trans_le ((hz x hxs).trans hax.1)) (lt_irrefl a)
        · exact ih hzs hxs hys

/-! ## Gaps -/

/-- Between two neighbours there is nothing. -/
theorem Laid.gap (h : Laid lo hi (before ++ x :: y :: after))
    (hpos : ∀ z ∈ before ++ x :: y :: after, lo z < hi z) {a b : β} (ha : hi x ≤ a)
    (hb : b ≤ lo y) : ∀ z ∈ before ++ x :: y :: after, hi z ≤ a ∨ b ≤ lo z := by
  simp only [Laid, List.pairwise_append, List.pairwise_cons, List.mem_cons,
    forall_eq_or_imp] at h
  obtain ⟨-, ⟨-, hy, -⟩, hbefore⟩ := h
  intro z hz
  have hx := hpos x (by simp)
  have hypos := hpos y (by simp)
  rcases List.mem_append.mp hz with hz | hz
  · exact .inl (((hbefore z hz).1.trans hx.le).trans ha)
  rcases List.mem_cons.mp hz with rfl | hz
  · exact .inl ha
  rcases List.mem_cons.mp hz with rfl | hz
  · exact .inr hb
  · exact .inr ((hb.trans hypos.le).trans (hy z hz))

variable {wide : α → α → Prop} [DecidableRel wide]

/-- The first element with a wide gap behind it. -/
def firstGap (wide : α → α → Prop) [DecidableRel wide] : List α → Option α
  | [] => none
  | [_] => none
  | x :: y :: rest => if wide x y then some x else firstGap wide (y :: rest)

theorem firstGap_eq_none : firstGap wide xs = none ↔ xs.IsChain fun x y => ¬wide x y := by
  fun_induction firstGap wide xs with
  | case1 => simp
  | case2 x => simp
  | case3 x y rest hw => simp [hw]
  | case4 x y rest hw ih => simp [hw, ih]

theorem firstGap_eq_some : firstGap wide xs = some x ↔
    ∃ before y after, xs = before ++ x :: y :: after ∧ wide x y ∧
      (before ++ [x]).IsChain fun a b => ¬wide a b := by
  fun_induction firstGap wide xs with
  | case1 => simp
  | case2 z =>
      simp only [reduceCtorEq, false_iff]
      rintro ⟨before, y, after, heq, -⟩
      have := congrArg List.length heq
      simp only [List.length_append, List.length_cons, List.length_nil] at this
      omega
  | case3 z y rest hw =>
      constructor
      · intro h
        cases h
        exact ⟨[], y, rest, rfl, hw, by simp⟩
      · rintro ⟨before, y', after, heq, -, hchain⟩
        cases before with
        | nil => exact congrArg some (List.cons.inj heq).1
        | cons b before =>
            -- the wide pair would lie inside the chain
            exfalso
            obtain ⟨rfl, htail⟩ := List.cons.inj heq
            cases before with
            | nil =>
                obtain ⟨rfl, -⟩ := List.cons.inj htail
                simp [hw] at hchain
            | cons b' before =>
                obtain ⟨rfl, -⟩ := List.cons.inj htail
                simp [hw] at hchain
  | case4 z y rest hw ih =>
      rw [ih]
      constructor
      · rintro ⟨before, y', after, heq, hwide, hchain⟩
        refine ⟨z :: before, y', after, congrArg _ heq, hwide, ?_⟩
        cases before with
        | nil =>
            obtain ⟨rfl, -⟩ := List.cons.inj heq
            simp [hw]
        | cons b before =>
            obtain ⟨rfl, -⟩ := List.cons.inj heq
            exact List.isChain_cons_cons.mpr ⟨hw, hchain⟩
      · rintro ⟨before, y', after, heq, hwide, hchain⟩
        cases before with
        | nil =>
            obtain ⟨rfl, htail⟩ := List.cons.inj heq
            obtain ⟨rfl, -⟩ := List.cons.inj htail
            exact absurd hwide hw
        | cons b before =>
            obtain ⟨-, htail⟩ := List.cons.inj heq
            exact ⟨before, y', after, htail, hwide, (List.isChain_cons.mp hchain).2⟩

end Levos.Base
