import Mathlib.Tactic

/-!
# The Gregorian calendar, day by day

A date is a year, a month and a day the month has; the only thing that happens
to it is that the next day comes. A count of days is right when it grows by one
with every day (`count_dateAfter`), so no formula for day numbers is needed to
say what one has to compute.
-/

namespace Levos.Base

def isLeap (y : Nat) : Bool := y % 4 = 0 && (y % 100 ≠ 0 || y % 400 = 0)

def daysInMonth (y m : Nat) : Nat :=
  if m = 2 then if isLeap y then 29 else 28
  else if m = 4 ∨ m = 6 ∨ m = 9 ∨ m = 11 then 30
  else 31

theorem daysInMonth_pos (y m : Nat) : 0 < daysInMonth y m := by
  rw [daysInMonth]
  split_ifs <;> decide

theorem daysInMonth_le (y m : Nat) : daysInMonth y m ≤ 31 := by
  rw [daysInMonth]
  split_ifs <;> decide

@[ext] structure Date where
  year : Nat
  month : Nat
  day : Nat
  month_pos : 0 < month
  month_le : month ≤ 12
  day_pos : 0 < day
  day_le : day ≤ daysInMonth year month

/-- The day after. -/
def Date.next (d : Date) : Date :=
  if hday : d.day < daysInMonth d.year d.month then
    { d with day := d.day + 1, day_pos := Nat.succ_pos _, day_le := hday }
  else if hmonth : d.month < 12 then
    { year := d.year, month := d.month + 1, day := 1, month_pos := Nat.succ_pos _,
      month_le := hmonth, day_pos := Nat.one_pos, day_le := daysInMonth_pos _ _ }
  else
    { year := d.year + 1, month := 1, day := 1, month_pos := Nat.one_pos, month_le := by decide,
      day_pos := Nat.one_pos, day_le := daysInMonth_pos _ _ }

/-- What the next day changes. -/
theorem Date.next_cases (d : Date) :
    (d.next.year = d.year ∧ d.next.month = d.month ∧ d.next.day = d.day + 1) ∨
    (d.next.year = d.year ∧ d.next.month = d.month + 1 ∧ d.next.day = 1 ∧ d.month < 12 ∧
      d.day = daysInMonth d.year d.month) ∨
    (d.next.year = d.year + 1 ∧ d.next.month = 1 ∧ d.next.day = 1 ∧ d.month = 12 ∧
      d.day = daysInMonth d.year d.month) := by
  rw [Date.next]
  by_cases hday : d.day < daysInMonth d.year d.month
  · rw [dif_pos hday]
    exact .inl ⟨rfl, rfl, rfl⟩
  · have hlast : d.day = daysInMonth d.year d.month := le_antisymm d.day_le (not_lt.mp hday)
    rw [dif_neg hday]
    by_cases hmonth : d.month < 12
    · rw [dif_pos hmonth]
      exact .inr (.inl ⟨rfl, rfl, rfl, hmonth, hlast⟩)
    · rw [dif_neg hmonth]
      exact .inr (.inr ⟨rfl, rfl, rfl, le_antisymm d.month_le (not_lt.mp hmonth), hlast⟩)

def dateAfter (start : Date) : Nat → Date
  | 0 => start
  | n + 1 => (dateAfter start n).next

/-- **Counting days.** What grows by one with every day from a first year on
counts the days. -/
theorem count_dateAfter {count : Date → Nat} {start : Date}
    (hstep : ∀ d : Date, start.year ≤ d.year → count d.next = count d + 1) (n : Nat) :
    count (dateAfter start n) = count start + n ∧ start.year ≤ (dateAfter start n).year := by
  induction n with
  | zero => exact ⟨rfl, le_rfl⟩
  | succ n ih =>
      obtain ⟨hcount, hyear⟩ := ih
      refine ⟨?_, ?_⟩
      · rw [dateAfter, hstep _ hyear, hcount, Nat.add_assoc]
      · rcases (dateAfter start n).next_cases with ⟨h, -⟩ | ⟨h, -⟩ | ⟨h, -⟩
        · exact hyear.trans h.ge
        · exact hyear.trans h.ge
        · exact (hyear.trans (Nat.le_succ _)).trans h.ge

theorem dateAfter_add (start : Date) (m n : Nat) :
    dateAfter start (m + n) = dateAfter (dateAfter start m) n := by
  induction n with
  | zero => rfl
  | succ n ih => rw [Nat.add_succ, dateAfter, ih, dateAfter]

/-- Within a month the day goes up. -/
theorem dateAfter_day {d : Date} {k : Nat} (h : d.day + k ≤ daysInMonth d.year d.month) :
    (dateAfter d k).year = d.year ∧ (dateAfter d k).month = d.month ∧
      (dateAfter d k).day = d.day + k := by
  induction k with
  | zero => exact ⟨rfl, rfl, rfl⟩
  | succ k ih =>
      obtain ⟨h1, h2, h3⟩ := ih (by omega)
      have hlt : (dateAfter d k).day < daysInMonth (dateAfter d k).year (dateAfter d k).month := by
        rw [h1, h2, h3]
        omega
      rw [dateAfter, Date.next, dif_pos hlt]
      exact ⟨h1, h2, congrArg (· + 1) h3⟩

theorem january_le : 1 ≤ 12 := by decide

def firstOf (y m : Nat) (hpos : 0 < m) (hle : m ≤ 12) : Date :=
  { year := y, month := m, day := 1, month_pos := hpos, month_le := hle, day_pos := Nat.one_pos,
    day_le := daysInMonth_pos y m }

/-- A month after the first of it. -/
theorem dateAfter_month (y m : Nat) (hpos : 0 < m) (hle : m ≤ 12) :
    let d := dateAfter (firstOf y m hpos hle) (daysInMonth y m)
    d.day = 1 ∧ ((m < 12 ∧ d.year = y ∧ d.month = m + 1) ∨
      (m = 12 ∧ d.year = y + 1 ∧ d.month = 1)) := by
  obtain ⟨k, hk⟩ : ∃ k, daysInMonth y m = k + 1 :=
    ⟨_, (Nat.succ_pred_eq_of_pos (daysInMonth_pos y m)).symm⟩
  obtain ⟨h1, h2, h3⟩ : (dateAfter (firstOf y m hpos hle) k).year = y ∧
      (dateAfter (firstOf y m hpos hle) k).month = m ∧
      (dateAfter (firstOf y m hpos hle) k).day = 1 + k :=
    dateAfter_day (d := firstOf y m hpos hle) (by simp only [firstOf]; omega)
  intro d
  have hd : d = (dateAfter (firstOf y m hpos hle) k).next := by
    simp only [d, hk, dateAfter]
  rcases (dateAfter (firstOf y m hpos hle) k).next_cases with
    ⟨e1, e2, e3⟩ | ⟨e1, e2, e3, hm, -⟩ | ⟨e1, e2, e3, hm, -⟩
  · have hdle := (dateAfter (firstOf y m hpos hle) k).next.day_le
    rw [e1, e2, e3, h1, h2, h3] at hdle
    omega
  · rw [hd, e1, e2, e3]
    rw [h2] at hm
    exact ⟨rfl, .inl ⟨hm, h1, congrArg (· + 1) h2⟩⟩
  · rw [hd, e1, e2, e3]
    exact ⟨rfl, .inr ⟨h2 ▸ hm, congrArg (· + 1) h1, rfl⟩⟩

/-- The days of the months before `m`. -/
def daysBeforeMonth (y : Nat) : Nat → Nat
  | 0 => 0
  | m + 1 => daysBeforeMonth y m + if m = 0 then 0 else daysInMonth y m

theorem daysBeforeMonth_year (y : Nat) :
    daysBeforeMonth y 12 + daysInMonth y 12 = if isLeap y then 366 else 365 := by
  cases h : isLeap y <;> simp [daysBeforeMonth, daysInMonth, h]

theorem daysBeforeMonth_le {y m : Nat} : daysBeforeMonth y m ≤ 31 * m := by
  induction m with
  | zero => exact le_rfl
  | succ m ih =>
      have := daysInMonth_le y m
      rw [daysBeforeMonth]
      split <;> omega

/-- From new year's day to the first of a month. -/
theorem dateAfter_firstOf (y m : Nat) (hpos : 0 < m) (hle : m ≤ 12) :
    dateAfter (firstOf y 1 Nat.one_pos (by decide)) (daysBeforeMonth y m) =
      firstOf y m hpos hle := by
  induction m with
  | zero => exact absurd hpos (lt_irrefl 0)
  | succ m ih =>
      rw [daysBeforeMonth]
      by_cases hm : m = 0
      · subst hm
        rfl
      · rw [if_neg hm, dateAfter_add, ih (Nat.pos_of_ne_zero hm) (Nat.le_of_succ_le hle)]
        obtain ⟨h1, ⟨-, h2, h3⟩ | ⟨h2, -⟩⟩ :=
          dateAfter_month y m (Nat.pos_of_ne_zero hm) (Nat.le_of_succ_le hle)
        · exact Date.ext h2 h3 h1
        · omega

/-- From one new year's day to the next. -/
theorem dateAfter_newYear (y : Nat) :
    dateAfter (firstOf y 1 Nat.one_pos (by decide)) (if isLeap y then 366 else 365) =
      firstOf (y + 1) 1 Nat.one_pos (by decide) := by
  rw [← daysBeforeMonth_year, dateAfter_add, dateAfter_firstOf y 12 (by decide) le_rfl]
  obtain ⟨h1, ⟨h2, -⟩ | ⟨-, h2, h3⟩⟩ := dateAfter_month y 12 (by decide) le_rfl
  · exact absurd h2 (lt_irrefl 12)
  · exact Date.ext h2 h3 h1

/-- From the first of a month to any day of it. -/
theorem dateAfter_firstOf_day (d : Date) :
    dateAfter (firstOf d.year d.month d.month_pos d.month_le) (d.day - 1) = d := by
  have hpos := d.day_pos
  have hle : 1 + (d.day - 1) ≤ daysInMonth d.year d.month := by
    have := d.day_le
    omega
  obtain ⟨h1, h2, h3⟩ :=
    dateAfter_day (d := firstOf d.year d.month d.month_pos d.month_le) hle
  have hday : 1 + (d.day - 1) = d.day := by omega
  exact Date.ext (h1.trans rfl) (h2.trans rfl) (h3.trans hday)

end Levos.Base
