import Ferrite.Library.Signed
import Ferrite.Library.Sums
import Ferrite.Library.Word
import Mathlib.Tactic.IntervalCases

/-!
# Dates and seconds

`to_epoch` counts the seconds from the beginning of 1970 to a date of the clock and returns them
as a `time_t` of 32 bits with sign. `from_epoch` takes them for a number of 64 bits and takes
years and months off as long as it can.
-/
namespace Ferrite.Sys
open Word Sums

/-- `rtc_time_t`; the year counts from 2000. -/
structure RtcTime where
  second : ℕ
  minute : ℕ
  hour : ℕ
  day : ℕ
  month : ℕ
  year : ℕ
deriving DecidableEq, Repr

def isLeap (year : ℕ) : Bool := (year % 4 = 0 && year % 100 ≠ 0) || year % 400 = 0

def yearDays (year : ℕ) : ℕ := if isLeap year then 366 else 365

def daysInMonth : List ℕ := [0, 31, 28, 31, 30, 31, 30, 31, 31, 30, 31, 30, 31]

def monthDays (year m : ℕ) : ℕ := daysInMonth.getD m 0 + if m = 2 ∧ isLeap year then 1 else 0

/-- The loop of `to_epoch` over `n` years from `y` on. -/
def addYears : ℕ → ℕ → ℕ → ℕ
  | 0, _, days => days
  | n + 1, y, days => addYears n (y + 1) (wadd days (yearDays y))

/-- Its loop over `n` months from `m` on. -/
def addMonths (year : ℕ) : ℕ → ℕ → ℕ → ℕ
  | 0, _, days => days
  | n + 1, m, days => addMonths year n (m + 1) (wadd days (monthDays year m))

/-- A month behind 13 reads beyond the table. -/
def toEpoch (t : RtcTime) : Option ℤ :=
  if 13 < t.month then none
  else
    let fullYear := 2000 + t.year
    let days := addMonths fullYear (t.month - 1) 1 (addYears (fullYear - 1970) 1970 0)
    let days := wadd days (wsub t.day 1)
    some (signed 32 (days * 86400 + t.hour * 3600 + t.minute * 60 + t.second))

/-- The years that `from_epoch` takes off, in a `u32`. -/
def yearLoop (days year : ℕ) : ℕ × ℕ :=
  if h : yearDays year ≤ days then yearLoop (days - yearDays year) (wadd year 1) else (days, year)
termination_by days
decreasing_by
  have hpos : 0 < yearDays year := by
    unfold yearDays
    split <;> decide
  omega

/-- The months that it takes off, at most `n` from `m` on. -/
def monthLoop (year : ℕ) : ℕ → ℕ → ℕ → ℕ × ℕ
  | 0, m, days => (days, m)
  | n + 1, m, days =>
      if monthDays year m ≤ days then monthLoop year n (m + 1) (days - monthDays year m) else (days, m)

/-- The clock has fields of eight bits. -/
def fromEpoch (epoch : ℤ) : RtcTime :=
  let epoch := unsigned 64 epoch
  let secondsOfDay := epoch % 86400
  let years := yearLoop (epoch / 86400) 1970
  let months := monthLoop years.2 12 1 years.1
  { second := secondsOfDay % 60
    minute := secondsOfDay % 3600 / 60
    hour := secondsOfDay / 3600
    day := (months.1 + 1) % 256
    month := months.2
    year := if 2000 ≤ years.2 then (years.2 - 2000) % 256 else 0 }

/-! ## The calendar -/

/-- The length of a month of the Gregorian calendar. -/
def monthLength (year month : ℕ) : ℕ :=
  if month = 2 then if 4 ∣ year ∧ (100 ∣ year → 400 ∣ year) then 29 else 28
  else if month = 4 ∨ month = 6 ∨ month = 9 ∨ month = 11 then 30
  else 31

/-- A date of the years 2000 to 2099. -/
structure RtcTime.Valid (t : RtcTime) : Prop where
  year : t.year < 100
  month : 1 ≤ t.month ∧ t.month ≤ 12
  day : 1 ≤ t.day ∧ t.day ≤ monthLength (2000 + t.year) t.month
  hour : t.hour < 24
  minute : t.minute < 60
  second : t.second < 60

/-- Not after 03:14:07 on 19 January 2038. -/
def RtcTime.InRange (t : RtcTime) : Prop :=
  t.year < 38 ∨ t.year = 38 ∧ t.month = 1 ∧ (t.day < 19 ∨
    t.day = 19 ∧ t.hour * 3600 + t.minute * 60 + t.second ≤ 3 * 3600 + 14 * 60 + 7)

namespace RtcTime

/-- The days since the beginning of 1970, the seconds of the day, and all seconds. -/
def dayNumber (t : RtcTime) : ℕ :=
  sumFrom yearDays 1970 (30 + t.year) + sumFrom (monthDays (2000 + t.year)) 1 (t.month - 1) + (t.day - 1)

def clock (t : RtcTime) : ℕ := t.hour * 3600 + t.minute * 60 + t.second

def number (t : RtcTime) : ℕ := t.dayNumber * 86400 + t.clock

end RtcTime

variable {t : RtcTime} {days n m y r year month : ℕ} {e : ℤ}

theorem yearDays_bounds (year : ℕ) : 365 ≤ yearDays year ∧ yearDays year ≤ 366 := by
  unfold yearDays
  split <;> omega

theorem monthDays_eq (h : 1 ≤ month) (h' : month ≤ 12) : monthDays year month = monthLength year month := by
  have hleap : isLeap year = true ↔ 4 ∣ year ∧ (100 ∣ year → 400 ∣ year) := by
    unfold isLeap
    simp only [Bool.or_eq_true, Bool.and_eq_true, decide_eq_true_eq]
    omega
  unfold monthDays monthLength
  by_cases hyear : 4 ∣ year ∧ (100 ∣ year → 400 ∣ year)
  · rw [if_pos hyear, hleap.mpr hyear]
    interval_cases month <;> rfl
  · rw [if_neg hyear, Bool.of_not_eq_true fun h => hyear (hleap.mp h)]
    interval_cases month <;> rfl

/-- The months of a year. -/
theorem sumFrom_months (year : ℕ) : sumFrom (monthDays year) 1 12 = yearDays year := by
  unfold sumFrom yearDays monthDays
  cases isLeap year <;> simp [Finset.sum_range_succ, daysInMonth]

/-- The days from 1970 to a year of the clock. -/
theorem sumFrom_years : ∀ y ≤ 100, sumFrom yearDays 1970 (30 + y) = 10957 + 365 * y + (y + 3) / 4 := by
  decide +kernel

/-! ## The loops -/

theorem addYears_eq (h : days + sumFrom yearDays y n < word) :
    addYears n y days = days + sumFrom yearDays y n := by
  induction n generalizing y days with
  | zero => rfl
  | succ n ih =>
      rw [sumFrom_first] at h ⊢
      have hadd : wadd days (yearDays y) = days + yearDays y := wadd_of_lt (by omega)
      rw [addYears, hadd, ih (by omega), Nat.add_assoc]

theorem addMonths_eq (h : days + sumFrom (monthDays year) m n < word) :
    addMonths year n m days = days + sumFrom (monthDays year) m n := by
  induction n generalizing m days with
  | zero => rfl
  | succ n ih =>
      rw [sumFrom_first] at h ⊢
      have hadd : wadd days (monthDays year m) = days + monthDays year m := wadd_of_lt (by omega)
      rw [addMonths, hadd, ih (by omega), Nat.add_assoc]

/-- The loop finds the year in which a day lies. -/
theorem yearLoop_eq (hy : y + n < word) (hr : r < yearDays (y + n)) :
    yearLoop (sumFrom yearDays y n + r) y = (r, y + n) := by
  induction n generalizing y with
  | zero =>
      rw [yearLoop, sumFrom_zero, Nat.zero_add, dif_neg (by simpa using hr)]
      rfl
  | succ n ih =>
      have hrest : yearDays y + sumFrom yearDays (y + 1) n + r - yearDays y = sumFrom yearDays
          (y + 1) n + r := by omega
      rw [yearLoop, sumFrom_first, dif_pos (by omega), hrest, wadd_of_lt (by omega),
        ih (by omega) (by rwa [show y + 1 + n = y + (n + 1) by omega])]
      congr 1
      omega

/-- The loop finds the month in which a day of the year lies. -/
theorem monthLoop_eq {k : ℕ} (hn : n < k) (hr : r < monthDays year (m + n)) :
    monthLoop year k m (sumFrom (monthDays year) m n + r) = (r, m + n) := by
  induction n generalizing m k with
  | zero =>
      obtain ⟨k, rfl⟩ := Nat.exists_eq_succ_of_ne_zero hn.ne'
      rw [monthLoop, sumFrom_zero, Nat.zero_add, if_neg (by simpa using hr)]
      rfl
  | succ n ih =>
      obtain ⟨k, rfl⟩ := Nat.exists_eq_succ_of_ne_zero (show k ≠ 0 by omega)
      have hrest : monthDays year m + sumFrom (monthDays year) (m + 1) n + r - monthDays year m =
          sumFrom (monthDays year) (m + 1) n + r := by omega
      rw [monthLoop, sumFrom_first, if_pos (by omega), hrest,
        ih (by omega) (by rwa [show m + 1 + n = m + (n + 1) by omega])]
      congr 1
      omega

/-! ## Dates -/

namespace RtcTime.Valid
variable (hv : t.Valid)
include hv

theorem day_lt : t.day - 1 < monthDays (2000 + t.year) t.month := by
  have hday := hv.day
  rw [monthDays_eq hv.month.1 hv.month.2]
  omega

/-- The days of the year in front of the date are fewer than the year has. -/
theorem yearDay_lt : sumFrom (monthDays (2000 + t.year)) 1 (t.month - 1) + (t.day - 1) < yearDays
    (2000 + t.year) := by
  have hday := hv.day_lt
  have hmonth := hv.month
  have hnext := sumFrom_succ (monthDays (2000 + t.year)) 1 (t.month - 1)
  rw [show 1 + (t.month - 1) = t.month by omega] at hnext
  have hle := sumFrom_mono (monthDays (2000 + t.year)) 1 (show t.month - 1 + 1 ≤ 12 by omega)
  rw [sumFrom_months] at hle
  omega

theorem clock_lt : t.clock < 86400 := by
  have hhour := hv.hour
  have hminute := hv.minute
  have hsecond := hv.second
  unfold RtcTime.clock
  omega

theorem years_eq : sumFrom yearDays 1970 (30 + t.year) = 10957 + 365 * t.year + (t.year + 3) / 4 :=
  sumFrom_years t.year hv.year.le

theorem dayNumber_lt : t.dayNumber < 47500 := by
  have hyear := hv.year
  have hday := hv.yearDay_lt
  have hle := (yearDays_bounds (2000 + t.year)).2
  unfold RtcTime.dayNumber
  rw [hv.years_eq]
  omega

theorem number_lt : t.number < 2 ^ 32 := by
  have hday := hv.dayNumber_lt
  have hclock := hv.clock_lt
  unfold RtcTime.number
  omega

/-- `to_epoch` counts the seconds, in 32 bits with sign. -/
theorem toEpoch_eq : toEpoch t = some (signed 32 t.number) := by
  have hmonth := hv.month
  have hday := hv.day
  have hlt := hv.dayNumber_lt
  unfold RtcTime.dayNumber at hlt
  have hyears : addYears (2000 + t.year - 1970) 1970 0 = sumFrom yearDays 1970 (30 + t.year) := by
    rw [show 2000 + t.year - 1970 = 30 + t.year by omega, addYears_eq (by unfold word; omega), Nat.zero_add]
  have hlong : monthLength (2000 + t.year) t.month ≤ 31 := by
    unfold monthLength
    split_ifs <;> omega
  have hsub : wsub t.day 1 = t.day - 1 := wsub_of_le hday.1 (by unfold word; omega)
  unfold toEpoch
  rw [if_neg (by omega)]
  dsimp only
  rw [hyears, addMonths_eq (by unfold word; omega), hsub, wadd_of_lt (by unfold word; omega)]
  have hnumber : (sumFrom yearDays 1970 (30 + t.year) + sumFrom (monthDays (2000 + t.year)) 1 (t.month - 1)
      + (t.day - 1)) *
      86400 + t.hour * 3600 + t.minute * 60 + t.second = t.number := by
    unfold RtcTime.number RtcTime.dayNumber RtcTime.clock
    omega
  rw [hnumber]

/-- `from_epoch` finds the date of a number of seconds. -/
theorem fromEpoch_eq : fromEpoch (t.number : ℤ) = t := by
  have hyear := hv.year
  have hmonth := hv.month
  have hclock := hv.clock_lt
  have hnumber := hv.number_lt
  have hunsigned : unsigned 64 (t.number : ℤ) = t.number := by
    rw [unsigned_of_nonneg (by omega) (by omega), Int.toNat_natCast]
  have hday : t.number / 86400 = sumFrom yearDays 1970 (30 + t.year) +
      (sumFrom (monthDays (2000 + t.year)) 1 (t.month - 1) + (t.day - 1)) := by
    unfold RtcTime.number RtcTime.dayNumber
    omega
  have hseconds : t.number % 86400 = t.clock := by
    unfold RtcTime.number
    omega
  have hyears : yearLoop (t.number / 86400) 1970 =
      (sumFrom (monthDays (2000 + t.year)) 1 (t.month - 1) + (t.day - 1), 2000 + t.year) := by
    rw [hday, yearLoop_eq (by unfold word; omega)
      (by rw [show 1970 + (30 + t.year) = 2000 + t.year by omega]; exact hv.yearDay_lt),
      show 1970 + (30 + t.year) = 2000 + t.year by omega]
  have hmonths : monthLoop (2000 + t.year) 12 1
      (sumFrom (monthDays (2000 + t.year)) 1 (t.month - 1) + (t.day - 1)) =
      (t.day - 1, t.month) := by
    have hplace : 1 + (t.month - 1) = t.month := by omega
    rw [monthLoop_eq (by omega) (by rw [hplace]; exact hv.day_lt), hplace]
  have hshort : monthLength (2000 + t.year) t.month ≤ 31 := by
    unfold monthLength
    split_ifs <;> omega
  have hvalid := hv.day
  have hhour := hv.hour
  have hminute := hv.minute
  have hsecond := hv.second
  unfold fromEpoch
  dsimp only
  rw [hunsigned, hseconds, hyears]
  dsimp only
  rw [hmonths, if_pos (by omega)]
  unfold RtcTime.clock
  cases t
  simp only [RtcTime.mk.injEq] at *
  refine ⟨?_, ?_, ?_, ?_, trivial, ?_⟩ <;> omega

/-- The largest `time_t` is the last second of the range. -/
theorem number_lt_iff : t.number < 2 ^ 31 ↔ t.InRange := by
  have hclock := hv.clock_lt
  have hyearDay := hv.yearDay_lt
  have hday := hv.day
  have hmonth := hv.month
  have hle := (yearDays_bounds (2000 + t.year)).2
  have hjanuary : t.month = 1 → sumFrom (monthDays (2000 + t.year)) 1 (t.month - 1) = 0 := by
    intro h
    rw [h]
    rfl
  have hlater : 2 ≤ t.month → 31 ≤ sumFrom (monthDays (2000 + t.year)) 1 (t.month - 1) := by
    intro h
    have hmono := sumFrom_mono (monthDays (2000 + t.year)) 1 (show 1 ≤ t.month - 1 by omega)
    have hfirst : sumFrom (monthDays (2000 + t.year)) 1 1 = 31 := by simp [sumFrom, monthDays, daysInMonth]
    omega
  unfold RtcTime.number RtcTime.dayNumber RtcTime.InRange
  rw [hv.years_eq]
  unfold RtcTime.clock at *
  omega

end RtcTime.Valid

/-- Every second from 2000 to 2099 is the one of a date. -/
theorem exists_date {k : ℕ} (h : 946684800 ≤ k) (hk : k < 4102444800) : ∃ t : RtcTime, t.Valid ∧
    t.number = k := by
  have hhundred : sumFrom yearDays 1970 130 = 47482 := sumFrom_years 100 le_rfl
  have hthirty : sumFrom yearDays 1970 30 = 10957 := sumFrom_years 0 (by decide)
  obtain ⟨n, r, hn, hday, hr⟩ := exists_place (show k / 86400 < sumFrom yearDays 1970 130 by omega)
  have hn30 : 30 ≤ n := by
    by_contra hlt
    have hmono := sumFrom_mono yearDays 1970 (show n + 1 ≤ 30 by omega)
    rw [sumFrom_succ] at hmono
    omega
  obtain ⟨y, rfl⟩ := Nat.exists_eq_add_of_le hn30
  rw [show 1970 + (30 + y) = 2000 + y by omega, ← sumFrom_months] at hr
  obtain ⟨m, d, hm, hyearDay, hd⟩ := exists_place hr
  rw [monthDays_eq (by omega) (by omega), Nat.add_comm 1 m] at hd
  refine ⟨⟨k % 86400 % 60, k % 86400 % 3600 / 60, k % 86400 / 3600, d + 1, m + 1, y⟩,
    ⟨?_, ?_, ?_, ?_, ?_, ?_⟩, ?_⟩
  · change y < 100
    omega
  · change 1 ≤ m + 1 ∧ m + 1 ≤ 12
    omega
  · change 1 ≤ d + 1 ∧ d + 1 ≤ monthLength (2000 + y) (m + 1)
    omega
  · change k % 86400 / 3600 < 24
    omega
  · change k % 86400 % 3600 / 60 < 60
    omega
  · change k % 86400 % 60 < 60
    omega
  · have hclock : k % 86400 / 3600 * 3600 + k % 86400 % 3600 / 60 * 60 + k % 86400 % 60 = k % 86400 := by omega
    unfold RtcTime.number RtcTime.dayNumber RtcTime.clock
    dsimp only
    rw [hclock, Nat.add_sub_cancel, Nat.add_sub_cancel, Nat.add_assoc, ← hyearDay, ← hday]
    exact Nat.div_add_mod' ..

/-- Behind the range the time of the day is wrong. -/
theorem fromEpoch_ne (h : 2 ^ 31 ≤ t.number) (hv : t.Valid) : fromEpoch (signed 32 t.number) ≠ t := by
  intro heq
  have hlt := hv.number_lt
  have hclock := hv.clock_lt
  have hunsigned : unsigned 64 (signed 32 t.number) = 2 ^ 64 - 2 ^ 32 + t.number := by
    rw [signed_of_le h hlt]
    unfold unsigned
    omega
  have hsecond := congrArg RtcTime.second heq
  have hminute := congrArg RtcTime.minute heq
  have hhour := congrArg RtcTime.hour heq
  unfold fromEpoch at hsecond hminute hhour
  rw [hunsigned] at hsecond hminute hhour
  dsimp only at hsecond hminute hhour
  have hnumber : t.number % 86400 = t.clock := by
    unfold RtcTime.number
    omega
  unfold RtcTime.clock at hnumber
  omega

theorem round_trip_iff (hv : t.Valid) : (toEpoch t).map fromEpoch = some t ↔ t.InRange := by
  rw [hv.toEpoch_eq, Option.map_some, ← hv.number_lt_iff]
  constructor
  · intro heq
    by_contra hge
    exact fromEpoch_ne (by omega) hv (Option.some.inj heq)
  · intro hlt
    rw [signed_of_lt hlt, hv.fromEpoch_eq]

/-- A date from 2000 to 2099 comes back from its seconds exactly if these fit into a signed word
of 32 bits; seconds from 2000 on that do always come back from their date. -/
theorem epoch_round_trip_iff (t : RtcTime) (e : ℤ) :
    (t.Valid → ((toEpoch t).map fromEpoch = some t ↔ t.InRange)) ∧
    (946684800 ≤ e → e < 2 ^ 31 → toEpoch (fromEpoch e) = some e) := by
  refine ⟨round_trip_iff, fun he hlt => ?_⟩
  obtain ⟨t, hv, hnumber⟩ := exists_date (show 946684800 ≤ e.toNat by omega) (by omega)
  have heq : e = (t.number : ℤ) := by omega
  rw [heq, hv.fromEpoch_eq, hv.toEpoch_eq, signed_of_lt (by omega)]

/-- A leap day. -/
def leapDay : RtcTime := ⟨59, 58, 23, 29, 2, 36⟩

theorem leapDay_valid : leapDay.Valid := ⟨by decide, by decide, by decide, by decide, by decide, by decide⟩

theorem epoch_round_trip_leap : (toEpoch leapDay).map fromEpoch = some leapDay ∧
    toEpoch (fromEpoch 946684800) = some 946684800 :=
  ⟨((epoch_round_trip_iff leapDay 946684800).1 leapDay_valid).mpr (.inl (by decide)),
    (epoch_round_trip_iff leapDay 946684800).2 (by decide) (by decide)⟩

/-- One second behind the range. -/
theorem not_epoch_round_trip : ¬ ((∀ t : RtcTime, t.Valid → (toEpoch t).map fromEpoch = some t) ∧
    ∀ e : ℤ, 946684800 ≤ e → e < 2 ^ 31 → toEpoch (fromEpoch e) = some e) := by
  rintro ⟨h, -⟩
  have hv : RtcTime.Valid ⟨8, 14, 3, 19, 1, 38⟩ :=
      ⟨by decide, by decide, by decide, by decide, by decide, by decide⟩
  have hin := (round_trip_iff hv).mp (h _ hv)
  unfold RtcTime.InRange at hin
  simp at hin

end Ferrite.Sys
