import Mathlib.Algebra.BigOperators.Intervals
import Mathlib.Order.Interval.Finset.Nat

/-!
# Partial sums

A number below a sum lies in one of its terms: it is the terms in front and a rest. Loops that
take term after term off a number find this place.
-/
namespace Ferrite.Sums

variable {f : ℕ → ℕ} {n N y r x : ℕ}

/-- The terms of `n` places from `y` on. -/
def sumFrom (f : ℕ → ℕ) (y n : ℕ) : ℕ := ∑ i ∈ Finset.range n, f (y + i)

theorem sumFrom_zero (f : ℕ → ℕ) (y : ℕ) : sumFrom f y 0 = 0 := rfl

theorem sumFrom_succ (f : ℕ → ℕ) (y n : ℕ) : sumFrom f y (n + 1) = sumFrom f y n + f (y + n) :=
  Finset.sum_range_succ ..

/-- The first term apart. -/
theorem sumFrom_first (f : ℕ → ℕ) (y n : ℕ) : sumFrom f y (n + 1) = f y + sumFrom f (y + 1) n := by
  unfold sumFrom
  rw [Finset.sum_range_succ', Nat.add_comm]
  have hterms : ∀ i, f (y + (i + 1)) = f (y + 1 + i) := fun i => congrArg f (by omega)
  simp only [hterms, Nat.add_zero]

theorem sumFrom_mono (f : ℕ → ℕ) (y : ℕ) (h : n ≤ N) : sumFrom f y n ≤ sumFrom f y N := by
  induction h with
  | refl => exact le_rfl
  | step _ ih =>
      rw [sumFrom_succ]
      omega

/-- A number below a sum of terms lies in one of them. -/
theorem exists_place (h : x < sumFrom f y N) : ∃ n r, n < N ∧ x = sumFrom f y n + r ∧ r < f (y + n) := by
  induction N with
  | zero => exact absurd h (Nat.not_lt_zero x)
  | succ N ih =>
      by_cases hx : x < sumFrom f y N
      · obtain ⟨n, r, hn, hrest⟩ := ih hx
        exact ⟨n, r, by omega, hrest⟩
      · rw [sumFrom_succ] at h
        exact ⟨N, x - sumFrom f y N, Nat.lt_succ_self N, by omega, by omega⟩

end Ferrite.Sums
