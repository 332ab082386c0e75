import Mathlib.Data.Int.Basic
import Mathlib.Tactic.Ring
import Mathlib.Tactic.Zify
import Mathlib.Algebra.Order.Ring.Abs

/-!
# Signed words

A word of `w` bits read as a two's complement number, and back.
-/
namespace Ferrite.Word

/-- The signed value of the low `w` bits. -/
def signed (w x : ℕ) : ℤ := if x % 2 ^ w < 2 ^ (w - 1) then (x % 2 ^ w : ℕ) else (x % 2 ^ w : ℕ) - 2 ^ w

/-- The low `w` bits of a number. -/
def unsigned (w : ℕ) (z : ℤ) : ℕ := (z % 2 ^ w).toNat

variable {w x : ℕ} {z : ℤ}

theorem unsigned_lt (w : ℕ) (z : ℤ) : unsigned w z < 2 ^ w := by
  have hpos : (0 : ℤ) < 2 ^ w := Int.pow_pos (by decide)
  have hlt := Int.emod_lt_of_pos z hpos
  have hnonneg := Int.emod_nonneg z hpos.ne'
  unfold unsigned
  zify
  rw [Int.toNat_of_nonneg hnonneg]
  exact hlt

theorem signed_of_lt (h : x < 2 ^ (w - 1)) : signed w x = x := by
  have hle : 2 ^ (w - 1) ≤ 2 ^ w := Nat.pow_le_pow_right (by decide) (Nat.sub_le w 1)
  have hmod : x % 2 ^ w = x := Nat.mod_eq_of_lt (by omega)
  unfold signed
  rw [hmod, if_pos h]

/-- A word with the highest bit set is negative. -/
theorem signed_of_le (h : 2 ^ (w - 1) ≤ x) (hx : x < 2 ^ w) : signed w x = x - 2 ^ w := by
  unfold signed
  rw [Nat.mod_eq_of_lt hx, if_neg (by omega)]

theorem unsigned_of_nonneg (h : 0 ≤ z) (hz : z < 2 ^ w) : unsigned w z = z.toNat := by
  unfold unsigned
  rw [Int.emod_eq_of_lt h hz]

theorem unsigned_signed (h : x < 2 ^ w) : unsigned w (signed w x) = x := by
  have hmod : x % 2 ^ w = x := Nat.mod_eq_of_lt h
  have hcast : ((x : ℤ) % 2 ^ w) = x := by exact_mod_cast hmod
  unfold unsigned signed
  rw [hmod]
  split_ifs
  · rw [hcast, Int.toNat_natCast]
  · rw [Int.sub_emod_right, hcast, Int.toNat_natCast]

/-- The sum of a signed word and a number is the sum of the word and the number. -/
theorem unsigned_signed_add (hx : x < 2 ^ w) (z : ℤ) : unsigned w (signed w x + z) = unsigned w (x + z) := by
  have hmod : x % 2 ^ w = x := Nat.mod_eq_of_lt hx
  unfold unsigned signed
  rw [hmod]
  split_ifs
  · rfl
  · have hsum : (x : ℤ) - 2 ^ w + z = x + z - 2 ^ w := by ring
    rw [hsum, Int.sub_emod_right]

/-- A number in the range of the words is zero when its word is. -/
theorem unsigned_eq_zero (hlow : -2 ^ (w - 1) ≤ z) (hhigh : z < 2 ^ (w - 1)) (hw : 0 < w) :
    unsigned w z = 0 ↔ z = 0 := by
  have hpow : (2 : ℤ) ^ w = 2 * 2 ^ (w - 1) := by
    obtain ⟨k, rfl⟩ := Nat.exists_eq_succ_of_ne_zero hw.ne'
    rw [Nat.succ_sub_one, pow_succ, mul_comm]
  have hpos : (0 : ℤ) < 2 ^ (w - 1) := Int.pow_pos (by decide)
  constructor
  · intro h
    unfold unsigned at h
    have hnonneg := Int.emod_nonneg z (show (2 : ℤ) ^ w ≠ 0 by omega)
    have hdvd : (2 : ℤ) ^ w ∣ z := Int.dvd_of_emod_eq_zero (by omega)
    by_contra hne
    have hle := Int.le_of_dvd (show 0 < |z| from abs_pos.mpr hne) ((dvd_abs _ _).mpr hdvd)
    have hlt : |z| < 2 ^ w := abs_lt.mpr ⟨by omega, by omega⟩
    omega
  · rintro rfl
    simp [unsigned]

end Ferrite.Word
