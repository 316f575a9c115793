import Mathlib.Tactic

/-!
# Runs carved from a row of slots

Runs of slots are taken from a row and given back to it. `Carved` says that
the used slots are those below a bound and those of the runs that are out, and
that no two of these runs share a slot. Taking a run of free slots keeps this
(`Carved.take`), giving one back too (`Carved.tail`), the runs may be listed in
any order (`Carved.perm`), and the free slots can be counted from the runs
alone (`Carved.freeSlots_add`).
-/

namespace Levos.Base

structure SlotRun where
  start : Nat
  len : Nat
deriving DecidableEq, Repr

/-- The slot is one of the run. -/
def SlotRun.Covers (r : SlotRun) (i : Nat) : Prop := r.start ≤ i ∧ i < r.start + r.len

instance (r : SlotRun) (i : Nat) : Decidable (r.Covers i) :=
  inferInstanceAs (Decidable (_ ∧ _))

/-- No slot is in both. -/
def SlotRun.Apart (r r' : SlotRun) : Prop := ∀ i, r.Covers i → ¬r'.Covers i

theorem SlotRun.Apart.symm {r r' : SlotRun} (h : r.Apart r') : r'.Apart r :=
  fun i hi hi' => h i hi' hi

/-- The slots of a run become used or free. -/
def setRun (used : Nat → Bool) (r : SlotRun) (value : Bool) : Nat → Bool := fun i =>
  if r.Covers i then value else used i

def freeSlots (used : Nat → Bool) (n : Nat) : Nat := (List.range n).countP fun i => !used i

/-- The used slots of a row from 0 to `hi` are those below `lo` and those of
the runs. -/
structure Carved (used : Nat → Bool) (lo hi : Nat) (runs : List SlotRun) : Prop where
  used_iff : ∀ i < hi, used i = true ↔ i < lo ∨ ∃ r ∈ runs, r.Covers i
  apart : runs.Pairwise SlotRun.Apart
  within : ∀ r ∈ runs, lo ≤ r.start ∧ r.start + r.len ≤ hi

section
variable {used : Nat → Bool} {lo hi : Nat} {r : SlotRun} {runs runs' : List SlotRun}

theorem setRun_of_covers {value : Bool} {i : Nat} (h : r.Covers i) :
    setRun used r value i = value := if_pos h

theorem setRun_of_not {value : Bool} {i : Nat} (h : ¬r.Covers i) :
    setRun used r value i = used i := if_neg h

theorem Carved.perm (h : Carved used lo hi runs) (hp : runs.Perm runs') :
    Carved used lo hi runs' := by
  refine ⟨fun i hi' => ?_, ?_, ?_⟩
  · rw [h.used_iff i hi']
    simp only [hp.mem_iff]
  · exact (hp.pairwise_iff fun hr => hr.symm).mp h.apart
  · exact fun r hr => h.within r (hp.mem_iff.mpr hr)

/-- A run of free slots is taken. -/
theorem Carved.take (h : Carved used lo hi runs) (hpos : 0 < r.len)
    (hfits : r.start + r.len ≤ hi) (hfree : ∀ i, r.Covers i → used i = false) :
    Carved (setRun used r true) lo hi (r :: runs) := by
  have hnew : ∀ i, r.Covers i → ¬(i < lo ∨ ∃ r' ∈ runs, r'.Covers i) := by
    intro i hi' hout
    have hused := (h.used_iff i (lt_of_lt_of_le hi'.2 hfits)).mpr hout
    rw [hfree i hi'] at hused
    cases hused
  refine ⟨?_, ?_, ?_⟩
  · intro i hlt
    by_cases hcov : r.Covers i
    · rw [setRun_of_covers hcov]
      exact ⟨fun _ => .inr ⟨r, List.mem_cons_self, hcov⟩, fun _ => rfl⟩
    · rw [setRun_of_not hcov, h.used_iff i hlt]
      simp only [List.mem_cons, exists_eq_or_imp, hcov, false_or]
  · apply List.Pairwise.cons _ h.apart
    intro r' hr' i hi' hi''
    exact hnew i hi' (.inr ⟨r', hr', hi''⟩)
  · intro r' hr'
    rcases List.mem_cons.mp hr' with rfl | hr'
    · refine ⟨?_, hfits⟩
      by_contra hlow
      exact hnew r'.start ⟨le_rfl, by omega⟩ (.inl (not_le.mp hlow))
    · exact h.within r' hr'

/-- The first run of the list is given back. -/
theorem Carved.tail (h : Carved used lo hi (r :: runs)) :
    Carved (setRun used r false) lo hi runs := by
  obtain ⟨hhead, htail⟩ := List.pairwise_cons.mp h.apart
  obtain ⟨hlow, -⟩ := h.within r List.mem_cons_self
  refine ⟨?_, htail, fun r' hr' => h.within r' (List.mem_cons_of_mem _ hr')⟩
  intro i hlt
  by_cases hcov : r.Covers i
  · rw [setRun_of_covers hcov]
    refine ⟨fun hf => (Bool.false_ne_true hf).elim, ?_⟩
    rintro (hi' | ⟨r', hr', hi'⟩)
    · exact absurd (lt_of_lt_of_le hi' hlow) (not_lt.mpr hcov.1)
    · exact absurd hi' (hhead r' hr' i hcov)
  · rw [setRun_of_not hcov, h.used_iff i hlt]
    simp only [List.mem_cons, exists_eq_or_imp, hcov, false_or]

/-- Freeing used slots adds them to the free ones. -/
theorem freeSlots_setRun (hfits : r.start + r.len ≤ hi) (hused : ∀ i, r.Covers i → used i = true) :
    freeSlots (setRun used r false) hi = freeSlots used hi + r.len := by
  have hsplit : List.range hi = List.range' 0 r.start ++
      (List.range' r.start r.len ++ List.range' (r.start + r.len) (hi - (r.start + r.len))) := by
    have hlow := List.range'_append_1 (s := 0) (m := r.start) (n := hi - r.start)
    rw [Nat.zero_add, show r.start + (hi - r.start) = hi by omega] at hlow
    rw [List.range'_append_1, show r.len + (hi - (r.start + r.len)) = hi - r.start by omega, hlow,
      List.range_eq_range']
  have houter : ∀ start len, (∀ i, start ≤ i → i < start + len → ¬r.Covers i) →
      (List.range' start len).countP (fun i => !setRun used r false i) =
        (List.range' start len).countP fun i => !used i := by
    intro start len hnot
    apply List.countP_congr
    intro i hi'
    obtain ⟨hle, hlt⟩ := List.mem_range'_1.mp hi'
    rw [setRun_of_not (hnot i hle hlt)]
  have hafter : (List.range' r.start r.len).countP (fun i => !setRun used r false i) = r.len := by
    have hlen : (List.range' r.start r.len 1).length = r.len := List.length_range'
    refine Eq.trans ?_ hlen
    apply List.countP_eq_length.mpr
    intro i hi'
    rw [setRun_of_covers (List.mem_range'_1.mp hi')]
    rfl
  have hbefore : (List.range' r.start r.len).countP (fun i => !used i) = 0 := by
    apply List.countP_eq_zero.mpr
    intro i hi'
    rw [hused i (List.mem_range'_1.mp hi')]
    decide
  have hlow := houter 0 r.start fun i _ hlt hcov => by
    have := hcov.1
    omega
  have hhigh := houter (r.start + r.len) (hi - (r.start + r.len)) fun i hle _ hcov => by
    have := hcov.2
    omega
  unfold freeSlots
  rw [hsplit]
  simp only [List.countP_append]
  rw [hlow, hhigh, hafter, hbefore]
  omega

/-- **Counting.** What is not below the bound and not in a run is free. -/
theorem Carved.freeSlots_add (h : Carved used lo hi runs) (hle : lo ≤ hi) :
    freeSlots used hi + (runs.map SlotRun.len).sum = hi - lo := by
  induction runs generalizing used with
  | nil =>
      have hall : ∀ i < hi, used i = decide (i < lo) := by
        intro i hlt
        by_cases hi' : i < lo
        · rw [(h.used_iff i hlt).mpr (.inl hi'), decide_eq_true hi']
        · rw [decide_eq_false hi', ← Bool.not_eq_true, h.used_iff i hlt]
          rintro (hlow | ⟨r, hr, -⟩)
          · exact hi' hlow
          · cases hr
      -- all slots are given back except those below the bound
      have hfull : freeSlots (setRun used ⟨0, lo⟩ false) hi = hi := by
        unfold freeSlots
        conv_rhs => rw [← List.length_range (n := hi)]
        apply List.countP_eq_length.mpr
        intro i hi'
        by_cases hcov : SlotRun.Covers ⟨0, lo⟩ i
        · rw [setRun_of_covers hcov]
          rfl
        · have hlow : ¬i < lo := fun hlow => hcov ⟨Nat.zero_le i, by simpa using hlow⟩
          rw [setRun_of_not hcov, hall i (List.mem_range.mp hi'), decide_eq_false hlow]
          rfl
      have hcount : freeSlots (setRun used ⟨0, lo⟩ false) hi = freeSlots used hi + lo := by
        apply freeSlots_setRun
        · rw [Nat.zero_add]
          exact hle
        · intro i hcov
          have hlow : i < lo := by simpa using hcov.2
          rw [hall i (lt_of_lt_of_le hlow hle), decide_eq_true hlow]
      rw [hfull] at hcount
      rw [List.map_nil, List.sum_nil]
      omega
  | cons r runs ih =>
      have hwithin := h.within r List.mem_cons_self
      have hcount : freeSlots (setRun used r false) hi = freeSlots used hi + r.len := by
        apply freeSlots_setRun hwithin.2
        intro i hcov
        have hlt := lt_of_lt_of_le hcov.2 hwithin.2
        exact (h.used_iff i hlt).mpr (.inr ⟨r, List.mem_cons_self, hcov⟩)
      have hrest := ih h.tail
      rw [List.map_cons, List.sum_cons]
      omega

end

end Levos.Base
