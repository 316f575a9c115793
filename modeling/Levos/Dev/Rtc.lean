import Levos.Base.Calendar

/-!
# The real time clock (`drivers/rtc.c`, `kernel/time.c`)

The clock shows a date of the years 2000 to 2099 and a time of day in BCD. What
the driver makes of it is the number of seconds since the first of January 1970,
computed in 32 bits.
-/

namespace Levos.Dev

open Levos.Base

/-! ## The functions of the source -/

/-- The bytes the clock shows in its registers. -/
abbrev Cmos := BitVec 8 → BitVec 8

/-- `from_bcd`, as `int`. -/
def fromBcd (val : BitVec 8) : Nat := val.toNat / 16 * 10 + val.toNat % 16

/-- `CMOS_GET` in a function of type `uint8_t`. -/
def cmosGet (cmos : Cmos) (reg : BitVec 8) : Nat := fromBcd (cmos reg) % 256

def rtcGetSeconds (cmos : Cmos) : Nat := cmosGet cmos 0x00
def rtcGetMinutes (cmos : Cmos) : Nat := cmosGet cmos 0x02
def rtcGetHours (cmos : Cmos) : Nat := cmosGet cmos 0x04
def rtcGetDayofmonth (cmos : Cmos) : Nat := cmosGet cmos 0x07
def rtcGetMonth (cmos : Cmos) : Nat := cmosGet cmos 0x08
def rtcGetYear (cmos : Cmos) : Nat := cmosGet cmos 0x09

/-- The loop of `secs_of_years`; `days` is an `uint32_t`. -/
def secsOfYearsLoop (years : Int) (days : BitVec 32) : BitVec 32 :=
  if 1969 < years then
    let days := days + 365
    let days :=
      if years % 4 = 0 then
        if years % 100 = 0 then
          if years % 400 = 0 then days + 1 else days
        else days + 1
      else days
    secsOfYearsLoop (years - 1) days
  else days
termination_by (years - 1969).toNat

def secsOfYears (years : Int) : BitVec 32 := secsOfYearsLoop (years + 2000) 0 * 86400

/-- The `switch` of `secs_of_month`, every case falling through to the next. -/
def monthDays (year : Int) : Nat → BitVec 32
  | 11 => 30 + monthDays year 10
  | 10 => 31 + monthDays year 9
  | 9 => 30 + monthDays year 8
  | 8 => 31 + monthDays year 7
  | 7 => 31 + monthDays year 6
  | 6 => 30 + monthDays year 5
  | 5 => 31 + monthDays year 4
  | 4 => 30 + monthDays year 3
  | 3 => 31 + monthDays year 2
  | 2 =>
      28 + (if year % 4 = 0 ∧ (year % 100 ≠ 0 ∨ year % 400 = 0) then 1 else 0) + monthDays year 1
  | 1 => 31
  | _ => 0

/-- A negative number of months is no case. -/
def secsOfMonth (months year : Int) : BitVec 32 :=
  (if months < 0 then 0 else monthDays (year + 2000) months.toNat) * 86400

/-- The sum is one of 32 bits, the result one of 64. -/
def rtcGetUnixSeconds (cmos : Cmos) : BitVec 64 :=
  (secsOfYears ((rtcGetYear cmos : Int) - 1) +
    secsOfMonth ((rtcGetMonth cmos : Int) - 1) (rtcGetYear cmos) +
    BitVec.ofInt 32 (((rtcGetDayofmonth cmos : Int) - 1) * 86400) +
    BitVec.ofNat 32 (rtcGetHours cmos * 3600) +
    BitVec.ofNat 32 (rtcGetMinutes cmos * 60) +
    BitVec.ofNat 32 (rtcGetSeconds cmos)).zeroExtend 64

/-- `tv_sec` and `tv_usec`. -/
def rtcGettimeofday (cmos : Cmos) : BitVec 64 × BitVec 64 := (rtcGetUnixSeconds cmos, 0)

/-- `boot` is what the clock showed in `time_init`. -/
def timeGetUptime (boot cmos : Cmos) : BitVec 64 :=
  rtcGetUnixSeconds cmos - rtcGetUnixSeconds boot

/-! ## What the clock shows -/

def toBcd (n : Nat) : BitVec 8 := BitVec.ofNat 8 (n / 10 * 16 + n % 10)

theorem fromBcd_toBcd {n : Nat} (h : n < 100) : fromBcd (toBcd n) = n := by
  have hlt : n / 10 * 16 + n % 10 < 256 := by omega
  rw [fromBcd, toBcd, BitVec.toNat_ofNat, Nat.mod_eq_of_lt hlt]
  omega

/-- The clock shows a date and a time of day. -/
structure Shows (cmos : Cmos) (d : Date) (hour minute second : Nat) : Prop where
  year : 2000 ≤ d.year ∧ d.year < 2100
  hour_lt : hour < 24
  minute_lt : minute < 60
  second_lt : second < 60
  seconds : cmos 0x00 = toBcd second
  minutes : cmos 0x02 = toBcd minute
  hours : cmos 0x04 = toBcd hour
  days : cmos 0x07 = toBcd d.day
  months : cmos 0x08 = toBcd d.month
  years : cmos 0x09 = toBcd (d.year - 2000)

theorem cmosGet_eq {cmos : Cmos} {reg : BitVec 8} {n : Nat} (h : cmos reg = toBcd n)
    (hn : n < 100) : cmosGet cmos reg = n := by
  rw [cmosGet, h, fromBcd_toBcd hn, Nat.mod_eq_of_lt (by omega)]

/-! ## Days -/

/-- The days of the years before `y`, from 1970 on. -/
def daysBeforeYear : Nat → Nat
  | 0 => 0
  | y + 1 => daysBeforeYear y + if y < 1970 then 0 else if isLeap y then 366 else 365

/-- What the driver sums up. -/
def dayCount (d : Date) : Nat :=
  daysBeforeYear d.year + daysBeforeMonth d.year d.month + (d.day - 1)

/-- The sum grows by one with every day. -/
theorem dayCount_next {d : Date} (hy : 1970 ≤ d.year) : dayCount d.next = dayCount d + 1 := by
  have hpos := d.day_pos
  rcases d.next_cases with ⟨h1, h2, h3⟩ | ⟨h1, h2, h3, -, hday⟩ | ⟨h1, h2, h3, hm, hday⟩
  · rw [dayCount, dayCount, h1, h2, h3]
    omega
  · have hmonth : d.month ≠ 0 := d.month_pos.ne'
    rw [dayCount, dayCount, h1, h2, h3, daysBeforeMonth, if_neg hmonth, ← hday]
    omega
  · have hyear := daysBeforeMonth_year d.year
    have hold : ¬ d.year < 1970 := not_lt.mpr hy
    rw [hm] at hday
    rw [dayCount, dayCount, h1, h2, h3, hm, daysBeforeYear, if_neg hold, ← hyear, ← hday]
    simp only [daysBeforeMonth, if_true]
    omega

theorem daysBeforeYear_1970 {y : Nat} (hy : y ≤ 1970) : daysBeforeYear y = 0 := by
  induction y with
  | zero => rfl
  | succ y ih => rw [daysBeforeYear, ih (by omega), if_pos (by omega)]

theorem daysBeforeYear_le (y : Nat) : daysBeforeYear y ≤ 366 * (y - 1970) := by
  induction y with
  | zero => exact le_rfl
  | succ y ih =>
      rw [daysBeforeYear]
      by_cases hy : y < 1970
      · rw [if_pos hy, daysBeforeYear_1970 hy.le]
        exact Nat.zero_le _
      · rw [if_neg hy]
        split <;> omega

theorem isLeap_iff (y : Nat) : isLeap y = true ↔ y % 4 = 0 ∧ (y % 100 ≠ 0 ∨ y % 400 = 0) := by
  simp [isLeap]

/-- What one turn of the loop adds. -/
theorem loopDays_eq (y : Nat) (days : BitVec 32) :
    (if (y : Int) % 4 = 0 then
        if (y : Int) % 100 = 0 then
          if (y : Int) % 400 = 0 then days + 365 + 1 else days + 365
        else days + 365 + 1
      else days + 365) = days + BitVec.ofNat 32 (if isLeap y then 366 else 365) := by
  have h4 : (y : Int) % 4 = 0 ↔ y % 4 = 0 := by omega
  have h100 : (y : Int) % 100 = 0 ↔ y % 100 = 0 := by omega
  have h400 : (y : Int) % 400 = 0 ↔ y % 400 = 0 := by omega
  have hadd : days + 365 + 1 = days + 366 := by rw [BitVec.add_assoc]; rfl
  simp only [h4, h100, h400, hadd, isLeap_iff]
  by_cases h1 : y % 4 = 0 <;> by_cases h2 : y % 100 = 0 <;> by_cases h3 : y % 400 = 0 <;>
    simp [h1, h2, h3]

theorem secsOfYearsLoop_eq {y : Nat} (hy : 1969 ≤ y) (days : BitVec 32) :
    secsOfYearsLoop y days = days + BitVec.ofNat 32 (daysBeforeYear (y + 1)) := by
  induction y, hy using Nat.le_induction generalizing days with
  | base =>
      rw [secsOfYearsLoop, if_neg (by decide), daysBeforeYear_1970 le_rfl]
      simp
  | succ y hy ih =>
      have hlt : (1969 : Int) < ((y + 1 : Nat) : Int) := by omega
      have hprev : ((y + 1 : Nat) : Int) - 1 = (y : Int) := by omega
      have hold : ¬ y + 1 < 1970 := by omega
      have hsum : daysBeforeYear (y + 1 + 1) =
          (if isLeap (y + 1) then 366 else 365) + daysBeforeYear (y + 1) := by
        rw [daysBeforeYear, if_neg hold, Nat.add_comm]
      rw [secsOfYearsLoop, if_pos hlt, hprev]
      dsimp only
      rw [loopDays_eq, ih, hsum, BitVec.ofNat_add, BitVec.add_assoc]

theorem secsOfYears_eq {y : Nat} (hy : 2000 ≤ y) :
    secsOfYears (((y - 2000 : Nat) : Int) - 1) = BitVec.ofNat 32 (daysBeforeYear y * 86400) := by
  have hstart : ((y - 2000 : Nat) : Int) - 1 + 2000 = ((y - 1 : Nat) : Int) := by omega
  have hlast : y - 1 + 1 = y := by omega
  rw [secsOfYears, hstart, secsOfYearsLoop_eq (by omega), hlast, BitVec.ofNat_mul]
  simp

theorem monthDays_eq (y : Nat) {m : Nat} (hm : 0 < m) (hm' : m ≤ 12) :
    monthDays (y : Int) (m - 1) = BitVec.ofNat 32 (daysBeforeMonth y m) := by
  have h4 : (y : Int) % 4 = 0 ↔ y % 4 = 0 := by omega
  have h100 : (y : Int) % 100 = 0 ↔ y % 100 = 0 := by omega
  have h400 : (y : Int) % 400 = 0 ↔ y % 400 = 0 := by omega
  have hleap : ((y : Int) % 4 = 0 ∧ ((y : Int) % 100 ≠ 0 ∨ (y : Int) % 400 = 0)) ↔
      isLeap y = true := by
    rw [isLeap_iff, h4, h400, Ne, h100]
  interval_cases m <;> cases h : isLeap y <;> simp only [monthDays, Nat.reduceSub, hleap, h] <;>
    simp [daysBeforeMonth, daysInMonth, h]

theorem secsOfMonth_eq (d : Date) (hy : 2000 ≤ d.year) :
    secsOfMonth ((d.month : Int) - 1) ((d.year - 2000 : Nat) : Int) =
      BitVec.ofNat 32 (daysBeforeMonth d.year d.month * 86400) := by
  have hpos := d.month_pos
  have hnn : ¬ ((d.month : Int) - 1 < 0) := by omega
  have hm : ((d.month : Int) - 1).toNat = d.month - 1 := by omega
  have hyear : ((d.year - 2000 : Nat) : Int) + 2000 = (d.year : Int) := by omega
  rw [secsOfMonth, if_neg hnn, hm, hyear, monthDays_eq d.year hpos d.month_le, BitVec.ofNat_mul]
  rfl

/-- What the driver sums up is the day count in seconds, and the time of day. -/
theorem rtcGetUnixSeconds_eq {cmos : Cmos} {d : Date} {hour minute second : Nat}
    (h : Shows cmos d hour minute second) :
    (rtcGetUnixSeconds cmos).toNat =
      dayCount d * 86400 + hour * 3600 + minute * 60 + second := by
  obtain ⟨⟨hy, hy'⟩, hh, hmi, hs, hsec, hmin, hhour, hday, hmonth, hyear⟩ := h
  have hdle := d.day_le.trans (daysInMonth_le _ _)
  have hdpos := d.day_pos
  have hmle := d.month_le
  have hday' : ((d.day : Int) - 1) * 86400 = (((d.day - 1) * 86400 : Nat) : Int) := by omega
  have hb1 := daysBeforeYear_le d.year
  have hb2 : daysBeforeMonth d.year d.month ≤ 31 * d.month := daysBeforeMonth_le
  rw [rtcGetUnixSeconds, rtcGetYear, rtcGetMonth, rtcGetDayofmonth, rtcGetHours, rtcGetMinutes,
    rtcGetSeconds, cmosGet_eq hyear (by omega), cmosGet_eq hmonth (by omega),
    cmosGet_eq hday (by omega), cmosGet_eq hhour (by omega), cmosGet_eq hmin (by omega),
    cmosGet_eq hsec (by omega), secsOfYears_eq hy, secsOfMonth_eq d hy, hday', BitVec.ofInt_natCast]
  simp only [← BitVec.ofNat_add]
  have hlt : daysBeforeYear d.year * 86400 + daysBeforeMonth d.year d.month * 86400 +
      (d.day - 1) * 86400 + hour * 3600 + minute * 60 + second < 2 ^ 32 := by omega
  rw [BitVec.zeroExtend, BitVec.toNat_setWidth, BitVec.toNat_ofNat, Nat.mod_eq_of_lt hlt,
    Nat.mod_eq_of_lt (hlt.trans (by decide)), dayCount]
  omega

/-- The first of January 1970. -/
def unixEpoch : Date := firstOf 1970 1 Nat.one_pos january_le

/-- The days after the epoch are counted. -/
theorem dayCount_dateAfter (n : Nat) : dayCount (dateAfter unixEpoch n) = n := by
  have hcount : dayCount (dateAfter unixEpoch n) = dayCount unixEpoch + n :=
    (count_dateAfter (fun _ hd => dayCount_next hd) n).1
  rw [hcount, dayCount, unixEpoch, firstOf, daysBeforeYear_1970 le_rfl]
  exact Nat.zero_add n

/-- Every date from 1970 on is the one its count says. -/
theorem dateAfter_dayCount (d : Date) (hy : 1970 ≤ d.year) :
    dateAfter unixEpoch (dayCount d) = d := by
  have hyear : ∀ y, 1970 ≤ y →
      dateAfter unixEpoch (daysBeforeYear y) = firstOf y 1 Nat.one_pos (by decide) := by
    intro y hy
    induction y, hy using Nat.le_induction with
    | base => rw [daysBeforeYear_1970 le_rfl]; rfl
    | succ y hy ih =>
        rw [daysBeforeYear, if_neg (not_lt.mpr hy), dateAfter_add, ih, dateAfter_newYear]
  rw [dayCount, dateAfter_add, dateAfter_add, hyear d.year hy,
    dateAfter_firstOf d.year d.month d.month_pos d.month_le, dateAfter_firstOf_day]

/-- **The clock in UNIX time.** When the clock shows the date `n` days after the
first of January 1970 and a time of day, the driver returns the seconds since. -/
theorem rtc_counts_seconds {cmos : Cmos} {n hour minute second : Nat}
    (h : Shows cmos (dateAfter unixEpoch n) hour minute second) :
    (rtcGetUnixSeconds cmos).toNat = n * 86400 + hour * 3600 + minute * 60 + second := by
  rw [rtcGetUnixSeconds_eq h, dayCount_dateAfter]

/-- The last second of a leap day. -/
def leapDay : Date :=
  { year := 2000, month := 2, day := 29, month_pos := by decide, month_le := by decide,
    day_pos := by decide, day_le := by decide }

def leapDayClock : Cmos := fun reg =>
  if reg = 0x04 then 0x23 else if reg = 0x07 then 0x29 else if reg = 0x08 then 0x02
  else if reg = 0x09 then 0x00 else 0x59

theorem leapDayClock_shows : Shows leapDayClock (dateAfter unixEpoch 11016) 23 59 59 := by
  have hcount : dayCount leapDay = 11016 := by decide +kernel
  have hdate : dateAfter unixEpoch 11016 = leapDay := by
    rw [← hcount]
    exact dateAfter_dayCount leapDay (by decide)
  rw [hdate]
  constructor <;> decide

theorem rtc_counts_seconds_leap_day :
    (rtcGetUnixSeconds leapDayClock).toNat = 11016 * 86400 + 23 * 3600 + 59 * 60 + 59 :=
  rtc_counts_seconds leapDayClock_shows

/-- **Uptime.** Between two instants the clock has shown, the driver counts the
seconds that passed. -/
theorem timeGetUptime_elapsed {boot cmos : Cmos} {n₀ n hour₀ hour minute₀ minute second₀ second : Nat}
    (hboot : Shows boot (dateAfter unixEpoch n₀) hour₀ minute₀ second₀)
    (h : Shows cmos (dateAfter unixEpoch n) hour minute second)
    (hle : n₀ * 86400 + hour₀ * 3600 + minute₀ * 60 + second₀ ≤
      n * 86400 + hour * 3600 + minute * 60 + second) :
    (timeGetUptime boot cmos).toNat =
      (n * 86400 + hour * 3600 + minute * 60 + second) -
        (n₀ * 86400 + hour₀ * 3600 + minute₀ * 60 + second₀) := by
  have h0 := rtcGetUnixSeconds_eq hboot
  have h1 := rtcGetUnixSeconds_eq h
  rw [dayCount_dateAfter] at h0 h1
  rw [timeGetUptime, BitVec.toNat_sub_of_le, h0, h1]
  rwa [BitVec.le_def, h0, h1]

end Levos.Dev
