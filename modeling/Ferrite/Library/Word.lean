import Mathlib.Data.Nat.Bitwise
import Mathlib.Data.Nat.Log
import Mathlib.Tactic.Ring

/-!
# Unsigned 32-bit words

Unsigned machine words are natural numbers below `word`; every operation that
can leave that range is reduced explicitly. Rounding to a power of two is
written with the mask the C macro uses, and `align_two_pow` gives its meaning.
-/
namespace Ferrite.Word

/-- The number of 32-bit words. -/
def word : ℕ := 2 ^ 32

theorem word_pos : 0 < word := by decide

/-- Addition and subtraction of `u32`. -/
def wadd (a b : ℕ) : ℕ := (a + b) % word
def wsub (a b : ℕ) : ℕ := (a + word - b) % word

/-- `ALIGN(x, a)` on `u32`: `(x + (a - 1)) & ~(a - 1)`. -/
def align (x a : ℕ) : ℕ := ((x + (a - 1)) % word) &&& (word - 1 - (a - 1))

/-- `CEIL_DIV(a, b)` on `u32`: `(a + b - 1) / b`. -/
def ceilDiv (a b : ℕ) : ℕ := ((a + b - 1) % word) / b

/-- `floor_log2(n)`, which traps at zero. -/
def floorLog2 (n : ℕ) : Option ℕ := if n = 0 then none else some n.log2

theorem wadd_of_lt {a b : ℕ} (h : a + b < word) : wadd a b = a + b := Nat.mod_eq_of_lt h

theorem wsub_of_le {a b : ℕ} (h : b ≤ a) (ha : a < word) : wsub a b = a - b := by
  rw [wsub, show a + word - b = a - b + word by omega, Nat.add_mod_right,
    Nat.mod_eq_of_lt (by omega)]

theorem wadd_lt (a b : ℕ) : wadd a b < word := Nat.mod_lt _ (by simp [word])
theorem wsub_lt (a b : ℕ) : wsub a b < word := Nat.mod_lt _ (by simp [word])

/-- Clearing the low bits of a word by its mask subtracts the remainder. -/
theorem and_high_mask {y k : ℕ} (hy : y < word) (hk : k ≤ 32) :
    y &&& (word - 1 - (2 ^ k - 1)) = y - y % 2 ^ k := by
  have hlt : 2 ^ k - 1 < 2 ^ 32 := by
    have := Nat.pow_le_pow_right (n := 2) (by omega) hk
    have := Nat.two_pow_pos k
    omega
  have hmul : y - y % 2 ^ k = 2 ^ k * (y / 2 ^ k) := by
    have := Nat.div_add_mod y (2 ^ k)
    omega
  have hmask : word - 1 - (2 ^ k - 1) = 2 ^ 32 - (2 ^ k - 1 + 1) := by
    simp only [word]
    omega
  rw [hmask, hmul]
  refine Nat.eq_of_testBit_eq fun i => ?_
  rw [Nat.testBit_and, Nat.testBit_two_pow_sub_succ hlt, Nat.testBit_two_pow_sub_one,
    Nat.testBit_two_pow_mul, Nat.testBit_div_two_pow]
  by_cases hi : i < k
  · have hik : ¬ k ≤ i := by omega
    simp [hi, hik]
  · have hik : k ≤ i := by omega
    by_cases h32 : i < 32
    · simp [hik, h32, Nat.sub_add_cancel hik]
    · have hbit : y.testBit i = false :=
        Nat.testBit_lt_two_pow (hy.trans_le (Nat.pow_le_pow_right (by omega) (by omega)))
      simp [hik, hbit, Nat.sub_add_cancel hik]

/-- Rounding up to a multiple of a power of two, as long as nothing wraps. -/
theorem align_two_pow {x k : ℕ} (hk : k ≤ 32) (hx : x + (2 ^ k - 1) < word) :
    align x (2 ^ k) = (x + (2 ^ k - 1)) / 2 ^ k * 2 ^ k := by
  rw [align, Nat.mod_eq_of_lt hx, and_high_mask hx hk]
  have := Nat.div_add_mod (x + (2 ^ k - 1)) (2 ^ k)
  rw [Nat.mul_comm] at this
  omega

theorem dvd_align {x k : ℕ} (hk : k ≤ 32) : 2 ^ k ∣ align x (2 ^ k) := by
  have hlt : (x + (2 ^ k - 1)) % word < word := Nat.mod_lt _ (by simp [word])
  rw [align, and_high_mask hlt hk]
  exact Nat.dvd_sub_mod _

theorem align_lt (x k : ℕ) : align x k < word :=
  Nat.and_le_left.trans_lt (Nat.mod_lt _ (by simp [word]))

theorem le_align {x k : ℕ} (hk : k ≤ 32) (hx : x + (2 ^ k - 1) < word) :
    x ≤ align x (2 ^ k) := by
  have hpos := Nat.two_pow_pos k
  rw [align_two_pow hk hx]
  have h₁ := Nat.div_add_mod (x + (2 ^ k - 1)) (2 ^ k)
  have h₂ := Nat.mod_lt (x + (2 ^ k - 1)) hpos
  rw [Nat.mul_comm] at h₁
  omega

theorem align_lt_add {x k : ℕ} (hk : k ≤ 32) (hx : x + (2 ^ k - 1) < word) :
    align x (2 ^ k) < x + 2 ^ k := by
  have hpos := Nat.two_pow_pos k
  rw [align_two_pow hk hx]
  have h₁ := Nat.div_mul_le_self (x + (2 ^ k - 1)) (2 ^ k)
  omega

/-- Rounding up past the last word gives the null address. -/
theorem align_wrap {x k : ℕ} (hk : k ≤ 32) (hx : x < word) (hw : word ≤ x + (2 ^ k - 1)) :
    align x (2 ^ k) = 0 := by
  have hpow := Nat.pow_le_pow_right (n := 2) (by omega) hk
  have hpos := Nat.two_pow_pos k
  have hw' : word = 2 ^ 32 := rfl
  have hmod : (x + (2 ^ k - 1)) % word = x + (2 ^ k - 1) - word := by
    rw [Nat.mod_eq_sub_mod hw, Nat.mod_eq_of_lt (by omega)]
  have hlt : x + (2 ^ k - 1) - word < 2 ^ k := by omega
  rw [align, hmod, and_high_mask (by omega) hk, Nat.mod_eq_of_lt hlt, Nat.sub_self]

theorem floorLog2_eq_some {n k : ℕ} (h : floorLog2 n = some k) :
    2 ^ k ≤ n ∧ n < 2 ^ (k + 1) := by
  unfold floorLog2 at h
  split_ifs at h with h₀
  cases h
  exact ⟨Nat.log2_self_le h₀, Nat.lt_log2_self⟩

end Ferrite.Word
