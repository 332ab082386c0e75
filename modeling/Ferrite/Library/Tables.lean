import Mathlib.Algebra.BigOperators.Group.Finset.Basic
import Mathlib.Data.Nat.Count
import Mathlib.Logic.Function.Basic
import Mathlib.Data.Fintype.Basic
import Mathlib.Data.List.Nodup

/-!
# Counting the references in tables

A table is a function to optional references, of which the entries below a bound
count. When one entry of one table changes, so does the number of references to
what was there and to what is there now.
-/
namespace Ferrite.Tables

/-- How often `a` occurs among the first `n` entries. -/
def occurrences {A : Type*} [DecidableEq A] (n : ℕ) (t : ℕ → Option A) (a : A) : ℕ :=
  Nat.count (fun i => t i = some a) n

section count
variable {A : Type*} [DecidableEq A] {n k : ℕ} {t u : ℕ → Option A} {a : A} {v : Option A}

theorem occurrences_congr (h : ∀ i, i < n → t i = u i) : occurrences n t a = occurrences n u a := by
  induction n with
  | zero => rfl
  | succ n ih =>
      unfold occurrences at ih ⊢
      rw [Nat.count_succ, Nat.count_succ, ih fun i hi => h i (by omega), h n (by omega)]

theorem occurrences_le (n : ℕ) (t : ℕ → Option A) (a : A) : occurrences n t a ≤ n := Nat.count_le _

/-- The next entry is stored. -/
theorem occurrences_succ_update :
    occurrences (k + 1) (Function.update t k v) a = occurrences k t a + if v = some a then 1 else 0 := by
  have hsame : occurrences k (Function.update t k v) a = occurrences k t a :=
    occurrences_congr fun i hi => Function.update_of_ne (by omega) ..
  unfold occurrences at hsame ⊢
  rw [Nat.count_succ, hsame, Function.update_self]

/-- One entry changes. -/
theorem occurrences_update (hk : k < n) : occurrences n (Function.update t k v) a +
    (if t k = some a then 1 else 0) = occurrences n t a + (if v = some a then 1 else 0) := by
  induction n with
  | zero => omega
  | succ n ih =>
      unfold occurrences at ih ⊢
      rw [Nat.count_succ, Nat.count_succ]
      by_cases hkn : k = n
      · subst hkn
        have hnext := occurrences_succ_update (k := k) (t := t) (v := v) (a := a)
        unfold occurrences at hnext
        rw [Nat.count_succ] at hnext
        omega
      · have := ih (by omega)
        rw [Function.update_of_ne (Ne.symm hkn)]
        omega

theorem occurrences_none (h : ∀ i, i < n → t i ≠ some a) : occurrences n t a = 0 := by
  unfold occurrences
  rw [Nat.count_iff_forall_not]
  exact h

theorem occurrences_pos (hk : k < n) (h : t k = some a) : 0 < occurrences n t a := by
  have := occurrences_update (v := none) (t := t) (a := a) hk
  simp only [h, if_true, reduceCtorEq, if_false] at this
  omega

end count

/-- One term of a sum changes. -/
theorem sum_update {I : Type*} [Fintype I] [DecidableEq I] {f g : I → ℕ} (i : I)
    (h : ∀ j, j ≠ i → f j = g j) : ∑ j, f j + g i = ∑ j, g j + f i := by
  have hf := Finset.add_sum_erase Finset.univ f (Finset.mem_univ i)
  have hg := Finset.add_sum_erase Finset.univ g (Finset.mem_univ i)
  have hrest : ∑ j ∈ Finset.univ.erase i, f j = ∑ j ∈ Finset.univ.erase i, g j :=
    Finset.sum_congr rfl fun j hj => h j (Finset.ne_of_mem_erase hj)
  omega

end Ferrite.Tables
