import Mathlib.Data.Nat.ModEq
import Mathlib.Logic.Function.Basic
import Mathlib.Data.List.Basic

/-!
# Rings

A ring of `n` slots holds what stands from its head up to its tail. One slot stays free, so that
a head at the tail means that there is nothing.
-/
namespace Ferrite.Ring

variable {A : Type*}

/-- The slots from the head up to the tail. -/
def count (n head tail : ℕ) : ℕ := if head ≤ tail then tail - head else tail + n - head

/-- What the slots from the head on hold. -/
def window (slots : ℕ → A) (n head k : ℕ) : List A := (List.range k).map fun i => slots ((head + i) % n)

/-- What the ring holds, the oldest first. -/
def contents (slots : ℕ → A) (n head tail : ℕ) : List A := window slots n head (count n head tail)

variable {slots : ℕ → A} {n head tail k i : ℕ}

theorem next_cases (hi : i < n) : (i + 1 < n ∧ (i + 1) % n = i + 1) ∨ (i + 1 = n ∧ (i + 1) % n = 0) := by
  rcases Nat.lt_or_eq_of_le (Nat.succ_le_of_lt hi) with h | h
  · exact .inl ⟨h, Nat.mod_eq_of_lt h⟩
  · refine .inr ⟨h, ?_⟩
    rw [show i + 1 = n from h, Nat.mod_self]

theorem contents_length (slots : ℕ → A) (n head tail : ℕ) : (contents slots n head tail).length
    = count n head tail := by
  unfold contents window
  rw [List.length_map, List.length_range]

theorem contents_eq_nil (hhead : head < n) (slots : ℕ → A) : contents slots n head tail = [] ↔ head = tail := by
  rw [← List.length_eq_zero_iff, contents_length]
  unfold count
  split_ifs <;> omega

/-- The slot in front of the head is the one that stays free. -/
theorem count_full (hhead : head < n) (htail : tail < n) : (tail + 1) % n = head ↔
    count n head tail + 1 = n := by
  unfold count
  rcases next_cases htail with ⟨h, hnext⟩ | ⟨h, hnext⟩ <;> rw [hnext] <;> split_ifs <;> omega

theorem count_lt (hhead : head < n) (htail : tail < n) : count n head tail < n := by
  unfold count
  split_ifs <;> omega

theorem count_write (hhead : head < n) (htail : tail < n) (hfree : (tail + 1) % n ≠ head) :
    count n head ((tail + 1) % n) = count n head tail + 1 := by
  revert hfree
  unfold count
  rcases next_cases htail with ⟨h, hnext⟩ | ⟨h, hnext⟩ <;> rw [hnext] <;> split_ifs <;> omega

theorem count_read (hhead : head < n) (htail : tail < n) (hne : head ≠ tail) :
    count n head tail = count n ((head + 1) % n) tail + 1 := by
  unfold count
  rcases next_cases hhead with ⟨h, hnext⟩ | ⟨h, hnext⟩ <;> rw [hnext] <;> split_ifs <;> omega

theorem tail_eq (hhead : head < n) (htail : tail < n) : (head + count n head tail) % n = tail := by
  unfold count
  split_ifs with h
  · rw [Nat.add_sub_cancel' h, Nat.mod_eq_of_lt htail]
  · have hsum : head + (tail + n - head) = tail + n := by omega
    rw [hsum, Nat.add_mod_right, Nat.mod_eq_of_lt htail]

/-- A slot behind the window is not in it. -/
theorem window_update (hk : k < n) (slots : ℕ → A) (head : ℕ) (a : A) :
    window (Function.update slots ((head + k) % n) a) n head k = window slots n head k := by
  unfold window
  apply List.map_congr_left
  intro i hi
  have hlt : i < k := List.mem_range.mp hi
  apply Function.update_of_ne
  intro heq
  have hsum : head + k = (head + i) + (k - i) := by omega
  rw [hsum] at heq
  have hcancel : (head + i + 0) % n = (head + i + (k - i)) % n := heq
  have hmod : 0 % n = (k - i) % n := Nat.ModEq.add_left_cancel' (head + i) hcancel
  rw [Nat.zero_mod, Nat.mod_eq_of_lt (by omega)] at hmod
  omega

/-- A write behind the tail adds to the end. -/
theorem contents_write (hhead : head < n) (htail : tail < n) (hfree : (tail + 1) % n ≠ head)
    (slots : ℕ → A) (a : A) :
    contents (Function.update slots tail a) n head ((tail + 1) % n) = contents slots n head tail ++ [a] := by
  have hlt : count n head tail < n := count_lt hhead htail
  have hlast := window_update hlt slots head a
  rw [tail_eq hhead htail] at hlast
  unfold contents
  rw [count_write hhead htail hfree]
  have hsucc : window (Function.update slots tail a) n head (count n head tail + 1) =
      window (Function.update slots tail a) n head (count n head tail) ++
        [Function.update slots tail a ((head + count n head tail) % n)] := by
    unfold window
    rw [List.range_succ, List.map_append]
    rfl
  rw [hsucc, hlast, tail_eq hhead htail, Function.update_self]

/-- A read takes the slot at the head. -/
theorem contents_read (hhead : head < n) (htail : tail < n) (hne : head ≠ tail) (slots : ℕ → A) :
    contents slots n head tail = slots head :: contents slots n ((head + 1) % n) tail := by
  unfold contents
  rw [count_read hhead htail hne]
  generalize count n ((head + 1) % n) tail = k
  unfold window
  rw [List.range_succ_eq_map, List.map_cons, List.map_map, Nat.add_zero, Nat.mod_eq_of_lt hhead]
  apply congrArg
  apply List.map_congr_left
  intro i _
  have hindex : (head + (i + 1)) % n = ((head + 1) % n + i) % n := by
    rw [Nat.mod_add_mod, Nat.add_assoc, Nat.add_comm 1]
  exact congrArg slots hindex

end Ferrite.Ring
