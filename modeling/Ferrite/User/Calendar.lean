import Ferrite.Sys.Clock

/-!
# The command `time`

`localtime` of the command counts years and months off a number of seconds, in a program of its
own. It finds the date, and from 2000 on the one that the kernel finds. The command then shows what
the clock shows.
-/
namespace Ferrite.User
open Sums
open Sys (yearDays monthDays monthLength)

/-- `struct tm`. -/
structure Tm where
  sec : ℤ
  min : ℤ
  hour : ℤ
  mday : ℤ
  mon : ℤ
  year : ℤ
  wday : ℤ
  yday : ℤ
  isdst : ℤ

def isLeapYear (year : ℤ) : Bool := (year.tmod 4 = 0 && year.tmod 100 ≠ 0) || year.tmod 400 = 0

def daysThisYear (year : ℤ) : ℤ := if isLeapYear year then 366 else 365

/-- `days_in_month`, from month 0 on. -/
def daysInMonth (month : ℕ) (year : ℤ) : ℤ :=
  if month = 1 && isLeapYear year then 29
  else ([31, 28, 31, 30, 31, 30, 31, 31, 30, 31, 30, 31] : List ℤ).getD month 0

/-- The loop over the years: the days that are left, and the year. -/
def yearsOff (days year : ℤ) : ℤ × ℤ :=
  if days < daysThisYear year then (days, year) else yearsOff (days - daysThisYear year) (year + 1)
termination_by days.toNat
decreasing_by
  unfold daysThisYear at *
  split at * <;> omega

/-- The loop over the months; the table has twelve. -/
def monthsOff (year : ℤ) : ℕ → ℕ → ℤ → Option (ℤ × ℕ)
  | 0, _, _ => none
  | fuel + 1, month, days =>
      if 12 ≤ month then none
      else if daysInMonth month year ≤ days then monthsOff year fuel (month + 1) (days - daysInMonth month year)
      else some (days, month)

def localtime (timer : ℤ) : Option Tm :=
  let minutes := timer.tdiv 60
  let hours := minutes.tdiv 60
  let t := hours.tdiv 24
  let years := yearsOff t 1970
  (monthsOff years.2 13 0 years.1).map fun months =>
    { sec := timer.tmod 60
      min := minutes.tmod 60
      hour := hours.tmod 24
      mday := months.1 + 1
      mon := months.2
      year := years.2 - 1900
      wday := (t + 4).tmod 7
      yday := years.1
      isdst := -1 }

/-- The date and the time of day that are `n` seconds behind the beginning of 1970, a Thursday;
`yday` days of the year have passed. -/
structure Tm.IsDate (tm : Tm) (n year month day yday : ℕ) : Prop where
  inYear : 1 ≤ month ∧ month ≤ 12
  inMonth : 1 ≤ day ∧ day ≤ monthLength (1970 + year) month
  passed : yday = sumFrom (monthLength (1970 + year)) 1 (month - 1) + (day - 1)
  clock : 0 ≤ tm.sec ∧ tm.sec < 60 ∧ 0 ≤ tm.min ∧ tm.min < 60 ∧ 0 ≤ tm.hour ∧ tm.hour < 24
  seconds : (n : ℤ) = (sumFrom yearDays 1970 year + yday : ℕ) * 86400 + tm.hour * 3600 + tm.min * 60 + tm.sec
  fields : tm.year = 70 + year ∧ tm.mon + 1 = month ∧ tm.mday = day ∧ tm.yday = yday
  weekday : tm.wday = ((sumFrom yearDays 1970 year + yday + 4) % 7 : ℕ)

variable {y k m q r n clock fuel : ℕ}

/-! ## The same years and months -/

theorem isLeapYear_natCast (y : ℕ) : isLeapYear y = Sys.isLeap y := by
  have hmod (d : ℕ) : (y : ℤ).tmod d = 0 ↔ y % d = 0 := by
    rw [Int.tmod_eq_emod_of_nonneg (by omega)]
    omega
  have h₄ := hmod 4
  have h₁₀₀ := hmod 100
  have h₄₀₀ := hmod 400
  unfold isLeapYear Sys.isLeap
  push_cast at h₄ h₁₀₀ h₄₀₀
  simp only [h₄, h₁₀₀, h₄₀₀, ne_eq]

theorem daysThisYear_natCast (y : ℕ) : daysThisYear y = yearDays y := by
  unfold daysThisYear yearDays
  rw [isLeapYear_natCast]
  split <;> rfl

theorem daysInMonth_natCast (y : ℕ) (hm : m < 12) : daysInMonth m y = monthDays y (1 + m) := by
  unfold daysInMonth monthDays
  rw [isLeapYear_natCast]
  cases Sys.isLeap y <;> interval_cases m <;> rfl

theorem sumFrom_monthLength (hm : m ≤ 12) : sumFrom (monthDays y) 1 m = sumFrom (monthLength y) 1 m := by
  refine Finset.sum_congr rfl fun i hi => ?_
  have hlt := Finset.mem_range.mp hi
  exact Sys.monthDays_eq (by omega) (by omega)

/-! ## The loops -/

theorem yearsOff_eq (hr : r < yearDays (y + n)) :
    yearsOff (sumFrom yearDays y n + r : ℕ) y = ((r : ℤ), ((y + n : ℕ) : ℤ)) := by
  induction n generalizing y with
  | zero =>
      rw [yearsOff.eq_1, daysThisYear_natCast, sumFrom_zero, Nat.zero_add, if_pos (by simpa using hr)]
      rfl
  | succ n ih =>
      rw [yearsOff.eq_1, daysThisYear_natCast, sumFrom_first, if_neg (by omega)]
      have hrest := ih (y := y + 1) (by rwa [show y + 1 + n = y + (n + 1) by omega])
      rw [show y + 1 + n = y + (n + 1) by omega] at hrest
      rw [← hrest]
      congr 1
      push_cast
      omega

theorem monthsOff_eq (hm : m + n < 12) (hfuel : n < fuel) (hr : r < monthDays y (1 + (m + n))) :
    monthsOff y fuel m (sumFrom (monthDays y) (1 + m) n + r : ℕ) = some ((r : ℤ), m + n) := by
  induction n generalizing m fuel with
  | zero =>
      obtain ⟨fuel, rfl⟩ := Nat.exists_eq_succ_of_ne_zero hfuel.ne'
      rw [monthsOff, if_neg (by omega), daysInMonth_natCast y (by omega), sumFrom_zero, Nat.zero_add,
        if_neg (by rw [Nat.add_zero] at hr; omega)]
      rfl
  | succ n ih =>
      obtain ⟨fuel, rfl⟩ := Nat.exists_eq_succ_of_ne_zero (show fuel ≠ 0 by omega)
      rw [monthsOff, if_neg (by omega), daysInMonth_natCast y (by omega), sumFrom_first, if_pos (by omega)]
      have hrest := @ih (m + 1) fuel (by omega) (by omega) (by rwa [show m + 1 + n = m + (n + 1) by omega])
      rw [show m + 1 + n = m + (n + 1) by omega, show 1 + (m + 1) = 1 + m + 1 by omega] at hrest
      rw [← hrest]
      congr 1
      push_cast
      omega

/-! ## The date -/

/-- The time of day of a number of seconds, behind `d` whole days. -/
theorem tdiv_days (d : ℕ) (hclock : clock < 86400) :
    let timer : ℤ := (d * 86400 + clock : ℕ)
    timer.tmod 60 = (clock % 60 : ℕ) ∧ (timer.tdiv 60).tmod 60 = (clock / 60 % 60 : ℕ) ∧
    ((timer.tdiv 60).tdiv 60).tmod 24 = (clock / 3600 : ℕ) ∧ ((timer.tdiv 60).tdiv 60).tdiv 24 = d := by
  intro timer
  have hminutes : timer.tdiv 60 = ((d * 86400 + clock) / 60 : ℕ) := rfl
  have hhours : (timer.tdiv 60).tdiv 60 = ((d * 86400 + clock) / 60 / 60 : ℕ) := by
    rw [hminutes]
    rfl
  have hdays : ((timer.tdiv 60).tdiv 60).tdiv 24 = ((d * 86400 + clock) / 60 / 60 / 24 : ℕ) := by
    rw [hhours]
    rfl
  have hmod (x b : ℕ) : (x : ℤ).tmod (b : ℕ) = (x % b : ℕ) := rfl
  refine ⟨(hmod _ 60).trans ?_, ?_, ?_, hdays.trans ?_⟩
  · omega
  · rw [hminutes]
    refine (hmod _ 60).trans ?_
    omega
  · rw [hhours]
    refine (hmod _ 24).trans ?_
    omega
  · omega

/-- What `localtime` stores for the day `q + 1` of the month `m + 1` of the year `1970 + n`. -/
theorem localtime_eq (hm : m < 12) (hq : q < monthDays (1970 + n) (1 + m)) (hclock : clock < 86400)
    (hyear : sumFrom (monthDays (1970 + n)) 1 m + q < yearDays (1970 + n)) :
    let yday := sumFrom (monthDays (1970 + n)) 1 m + q
    let days := sumFrom yearDays 1970 n + yday
    localtime (days * 86400 + clock : ℕ) = some
      { sec := (clock % 60 : ℕ), min := (clock / 60 % 60 : ℕ), hour := (clock / 3600 : ℕ), mday := (q : ℤ) + 1,
        mon := m, year := (1970 + n : ℕ) - 1900, wday := ((days + 4) % 7 : ℕ), yday := yday, isdst := -1 } := by
  intro yday days
  obtain ⟨hsec, hmin, hhour, hdays⟩ := tdiv_days days hclock
  have hyears : yearsOff (days : ℕ) 1970 = ((yday : ℤ), ((1970 + n : ℕ) : ℤ)) := yearsOff_eq hyear
  have hmonths : monthsOff (1970 + n : ℕ) 13 0 (yday : ℕ) = some ((q : ℤ), m) := by
    have h := @monthsOff_eq (1970 + n) 0 q m 13 (by omega) (by omega) (by rwa [Nat.zero_add])
    rwa [Nat.zero_add] at h
  have hweek : ((days : ℤ) + 4).tmod 7 = ((days + 4) % 7 : ℕ) := rfl
  unfold localtime
  dsimp only
  rw [hsec, hmin, hhour, hdays, hyears]
  dsimp only
  rw [hmonths, hweek]
  rfl

/-- What it stores for a date of the kernel. -/
theorem localtime_date_of_valid {t : Sys.RtcTime} (hv : t.Valid) : ∃ tm, localtime t.number = some tm ∧
    tm.year + 1900 = 2000 + t.year ∧ tm.mon + 1 = t.month ∧ tm.mday = t.day ∧
    tm.hour = t.hour ∧ tm.min = t.minute ∧ tm.sec = t.second := by
  have hmonth := hv.month
  have hday := hv.day
  have hhour := hv.hour
  have hminute := hv.minute
  have hsecond := hv.second
  have hclock := hv.clock_lt
  have hplace : 1 + (t.month - 1) = t.month := by omega
  have hcentury : 1970 + (30 + t.year) = 2000 + t.year := by omega
  have hlocal := @localtime_eq (t.month - 1) (t.day - 1) (30 + t.year) t.clock (by omega)
    (by rw [hplace, hcentury]; exact hv.day_lt) hclock (by rw [hcentury]; exact hv.yearDay_lt)
  have hnumber : (sumFrom yearDays 1970 (30 + t.year) + (sumFrom (monthDays (1970 + (30 + t.year))) 1 (t.month - 1)
      + (t.day - 1))) * 86400 + t.clock = t.number := by
    rw [hcentury, ← Nat.add_assoc]
    rfl
  dsimp only at hlocal
  rw [hnumber] at hlocal
  unfold Sys.RtcTime.clock at hlocal
  refine ⟨_, hlocal, ?_, ?_, ?_, ?_, ?_, ?_⟩ <;> dsimp only <;> omega

/-- The command finds the date of every number of seconds that a `time_t` holds, and from 2000
on it finds the one of the kernel. -/
theorem localtime_date (k : ℕ) (hk : k < 2 ^ 31) :
    ∃ tm year month day yday, localtime k = some tm ∧ tm.IsDate k year month day yday ∧
      (946684800 ≤ k →
        let t := Sys.fromEpoch k
        tm.year + 1900 = 2000 + t.year ∧ tm.mon + 1 = t.month ∧ tm.mday = t.day ∧
        tm.hour = t.hour ∧ tm.min = t.minute ∧ tm.sec = t.second) := by
  have hhundred : sumFrom yearDays 1970 130 = 47482 := Sys.sumFrom_years 100 le_rfl
  obtain ⟨n, r, hn, hday, hr⟩ := exists_place (show k / 86400 < sumFrom yearDays 1970 130 by omega)
  have hr' := hr
  rw [← Sys.sumFrom_months] at hr'
  obtain ⟨m, q, hm, hyearDay, hq⟩ := exists_place hr'
  have hlength := hq
  rw [Sys.monthDays_eq (by omega) (by omega)] at hlength
  subst hyearDay
  have hclock : k % 86400 < 86400 := Nat.mod_lt k (by decide)
  have hnumber : (sumFrom yearDays 1970 n + (sumFrom (monthDays (1970 + n)) 1 m + q)) * 86400 + k % 86400 = k := by
    rw [← hday]
    exact Nat.div_add_mod' ..
  have hlocal := localtime_eq hm hq hclock hr
  dsimp only at hlocal
  rw [hnumber] at hlocal
  refine ⟨_, n, m + 1, q + 1, _, hlocal, ⟨?_, ?_, ?_, ?_, ?_, ?_, rfl⟩, fun hlate => ?_⟩
  · omega
  · rw [Nat.add_comm 1 m] at hlength
    omega
  · rw [Nat.add_sub_cancel, Nat.add_sub_cancel, sumFrom_monthLength hm.le]
  · dsimp only
    omega
  · dsimp only
    omega
  · dsimp only
    omega
  · -- The kernel finds a date with the same number of seconds, so the command finds it too.
    obtain ⟨t, hv, ht⟩ := Sys.exists_date hlate (by omega)
    obtain ⟨tm, hkernel, hfields⟩ := localtime_date_of_valid hv
    have hdate := hv.fromEpoch_eq
    rw [ht] at hkernel hdate
    obtain rfl := Option.some.inj (hlocal.symm.trans hkernel)
    rw [hdate]
    exact hfields

/-- The 29th of February 2024, 12:34:56, a Thursday. -/
theorem localtime_date_2024 : (1709210096 : ℕ) < 2 ^ 31 ∧
    ∃ tm year month day yday, localtime (1709210096 : ℕ) = some tm ∧ tm.IsDate 1709210096 year month day yday :=
  ⟨by decide, by
    obtain ⟨tm, year, month, day, yday, hlocal, hdate, -⟩ := localtime_date 1709210096 (by decide)
    exact ⟨tm, year, month, day, yday, hlocal, hdate⟩⟩


/-- The clock has shown a date at the start, and `n` ticks later the command shows the date that is
`n / hz` seconds behind it. -/
theorem clock_shown (reg : ℕ → ℕ) (t : Sys.RtcTime) (n : ℕ) (hv : t.Valid) (hreg : Sys.Shown reg t)
    (hn : t.number + n / Sys.hz < 2 ^ 31) :
    ∃ c tm u, Sys.rtcInit reg = some c ∧ localtime (Sys.Clock.tick^[n] c).seconds = some tm ∧
      Sys.RtcTime.Valid u ∧ u.number = t.number + n / Sys.hz ∧
      tm.year + 1900 = 2000 + u.year ∧ tm.mon + 1 = u.month ∧ tm.mday = u.day ∧
      tm.hour = u.hour ∧ tm.min = u.minute ∧ tm.sec = u.second := by
  have hinit := Sys.rtcInit_eq hv hreg (Nat.lt_of_le_of_lt (Nat.le_add_right ..) hn)
  have hticks := Sys.tick_iterate t.number hn
  have hlate : 946684800 ≤ t.number := by
    unfold Sys.RtcTime.number Sys.RtcTime.dayNumber
    rw [hv.years_eq]
    omega
  obtain ⟨u, hu, hnumber⟩ := Sys.exists_date (hlate.trans (Nat.le_add_right _ (n / Sys.hz))) (hn.trans (by decide))
  obtain ⟨tm, hlocal, hfields⟩ := localtime_date_of_valid hu
  refine ⟨_, tm, u, hinit, ?_, hu, hnumber, hfields⟩
  rw [hticks, ← hnumber]
  exact hlocal

/-- Two seconds before 2024, in decimal digits. -/
def newYearsEve : ℕ → ℕ
  | 0x00 => 0x58
  | 0x02 => 0x59
  | 0x04 => 0x23
  | 0x07 => 0x31
  | 0x08 => 0x12
  | 0x09 => 0x23
  | 0x0B => 0x02
  | _ => 0

theorem clock_shown_new_year : ∃ c tm u, Sys.rtcInit newYearsEve = some c ∧
    localtime (Sys.Clock.tick^[200] c).seconds = some tm ∧ Sys.RtcTime.Valid u ∧ u.number = 1704067200 ∧
    tm.year + 1900 = 2000 + u.year ∧ tm.mon + 1 = u.month ∧ tm.mday = u.day ∧
    tm.hour = u.hour ∧ tm.min = u.minute ∧ tm.sec = u.second :=
  clock_shown newYearsEve ⟨58, 59, 23, 31, 12, 23⟩ 200
    ⟨by decide, by decide, by decide, by decide, by decide, by decide⟩
    ⟨by decide, by decide, by decide, by decide, by decide, by decide⟩ (by decide)

end Ferrite.User
