import Ferrite.Sys.Epoch
import Ferrite.Sys.Process
import Mathlib.Logic.Function.Iterate

/-!
# The clock

`rtc_init` reads the date off the registers of the clock, in binary or in packed decimal digits,
and stores its seconds. From then on `timer_handler` counts ticks, and every `HZ` of them a second.
-/
namespace Ferrite.Sys
open Word

/-- `BCD_TO_BIN`, stored in eight bits. -/
def bcdToBin (n : ℕ) : ℕ := (n / 16 * 10 + n % 16) % 256

/-- `rtc_read_time` when no update is in progress; `reg` are the registers, of eight bits. -/
def rtcReadTime (reg : ℕ → ℕ) : RtcTime :=
  let time : RtcTime :=
    { second := reg 0x00, minute := reg 0x02, hour := reg 0x04, month := reg 0x08, year := reg 0x09, day := reg 0x07 }
  if reg 0x0B &&& 0x04 = 0 then
    { second := bcdToBin time.second
      minute := bcdToBin time.minute
      hour := bcdToBin time.hour
      month := bcdToBin time.month
      year := bcdToBin time.year
      day := bcdToBin time.day }
  else time

/-- `ticks` and `seconds_since_epoch`. -/
structure Clock where
  ticks : ℕ
  seconds : ℤ

/-- What `rtc_init` sets up. -/
def rtcInit (reg : ℕ → ℕ) : Option Clock := (toEpoch (rtcReadTime reg)).map fun epoch => ⟨0, epoch⟩

/-- What `timer_handler` does to the clock. -/
def Clock.tick (c : Clock) : Clock :=
  let ticks := (c.ticks + 1) % 2 ^ 64
  if ticks % hz = 0 then ⟨ticks, signed 32 (unsigned 32 (c.seconds + 1))⟩ else ⟨ticks, c.seconds⟩

/-- A number below 100 in two decimal digits. -/
def bcd (n : ℕ) : ℕ := n / 10 * 16 + n % 10

/-- The registers show a date, in the format that register B tells. -/
structure Shown (reg : ℕ → ℕ) (t : RtcTime) : Prop where
  second : reg 0x00 = if reg 0x0B &&& 0x04 = 0 then bcd t.second else t.second
  minute : reg 0x02 = if reg 0x0B &&& 0x04 = 0 then bcd t.minute else t.minute
  hour : reg 0x04 = if reg 0x0B &&& 0x04 = 0 then bcd t.hour else t.hour
  day : reg 0x07 = if reg 0x0B &&& 0x04 = 0 then bcd t.day else t.day
  month : reg 0x08 = if reg 0x0B &&& 0x04 = 0 then bcd t.month else t.month
  year : reg 0x09 = if reg 0x0B &&& 0x04 = 0 then bcd t.year else t.year

variable {reg : ℕ → ℕ} {t : RtcTime} {n : ℕ}

theorem bcdToBin_bcd (h : n < 100) : bcdToBin (bcd n) = n := by
  unfold bcdToBin bcd
  omega

theorem monthLength_le (year month : ℕ) : monthLength year month ≤ 31 := by
  unfold monthLength
  split_ifs <;> omega

/-- The date is read in either format. -/
theorem rtcReadTime_eq (hv : t.Valid) (h : Shown reg t) : rtcReadTime reg = t := by
  obtain ⟨hsecond, hminute, hhour, hday, hmonth, hyear⟩ := h
  have hlength := monthLength_le (2000 + t.year) t.month
  have hdays := hv.day.2
  have hmonths := hv.month.2
  have hhours := hv.hour
  have hminutes := hv.minute
  have hseconds := hv.second
  unfold rtcReadTime
  dsimp only
  by_cases hformat : reg 0x0B &&& 0x04 = 0
  · rw [if_pos hformat] at hsecond hminute hhour hday hmonth hyear ⊢
    rw [hsecond, hminute, hhour, hday, hmonth, hyear, bcdToBin_bcd (by omega), bcdToBin_bcd (by omega),
      bcdToBin_bcd (by omega), bcdToBin_bcd (by omega), bcdToBin_bcd (by omega), bcdToBin_bcd hv.year]
  · rw [if_neg hformat] at hsecond hminute hhour hday hmonth hyear ⊢
    rw [hsecond, hminute, hhour, hday, hmonth, hyear]

theorem rtcInit_eq (hv : t.Valid) (h : Shown reg t) (hlt : t.number < 2 ^ 31) :
    rtcInit reg = some ⟨0, t.number⟩ := by
  unfold rtcInit
  rw [rtcReadTime_eq hv h, hv.toEpoch_eq, signed_of_lt hlt, Option.map_some]

/-- Every hundredth tick is a second. -/
theorem tick_iterate (k : ℕ) (h : k + n / hz < 2 ^ 31) : Clock.tick^[n] ⟨0, k⟩ = ⟨n, (k + n / hz : ℕ)⟩ := by
  unfold hz at *
  induction n with
  | zero => rfl
  | succ n ih =>
      have hticks : (n + 1) % 2 ^ 64 = n + 1 := Nat.mod_eq_of_lt (by omega)
      rw [Function.iterate_succ_apply', ih (by omega)]
      unfold Clock.tick hz
      dsimp only
      rw [hticks]
      split_ifs with hsecond
      · have hnext : ((k + n / 100 : ℕ) : ℤ) + 1 = ((k + (n + 1) / 100 : ℕ) : ℤ) := by omega
        rw [hnext, unsigned_of_nonneg (by omega) (by omega), Int.toNat_natCast, signed_of_lt (by omega)]
      · congr 1
        omega

end Ferrite.Sys
