import Mathlib.Data.Finset.Max
import Mathlib.Order.Interval.Finset.Nat

/-!
# Numbers that are handed out

A shelf has the numbers from `low` on, `size` of them, and some are in use. Taking hands out the
least of the others, and putting takes back one that is in use.
-/
namespace Ferrite.Shelves

@[ext] structure Shelf where
  low : ℕ
  size : ℕ
  used : Finset ℕ
  inside : used ⊆ Finset.Ico low (low + size)

namespace Shelf

def free (s : Shelf) : Finset ℕ := Finset.Ico s.low (s.low + s.size) \ s.used

variable (s : Shelf) {n : ℕ}

theorem mem_free : n ∈ s.free ↔ (s.low ≤ n ∧ n < s.low + s.size) ∧ n ∉ s.used := by
  rw [free, Finset.mem_sdiff, Finset.mem_Ico]

/-- With one number more in use. -/
def add (n : ℕ) (h : n ∈ s.free) : Shelf :=
  { s with
    used := insert n s.used
    inside := Finset.insert_subset (Finset.mem_sdiff.mp h).1 s.inside }

/-- With one number less. -/
def drop (n : ℕ) : Shelf := { s with used := s.used.erase n, inside := (Finset.erase_subset ..).trans s.inside }

def take : Option ℕ × Shelf :=
  if h : s.free.Nonempty then (some (s.free.min' h), s.add (s.free.min' h) (s.free.min'_mem h)) else (none, s)

def put (n : ℕ) : Bool × Shelf := (n ∈ s.used, s.drop n)

variable {s}

theorem take_full (h : s.free = ∅) : s.take = (none, s) := by
  rw [take, dif_neg (by rw [h]; exact Finset.not_nonempty_empty)]

/-- The least free number is taken. -/
theorem take_least (h : n ∈ s.free) (hle : ∀ m ∈ s.free, n ≤ m) : s.take = (some n, s.add n h) := by
  have hne : s.free.Nonempty := ⟨n, h⟩
  have hmin : s.free.min' hne = n := le_antisymm (s.free.min'_le n h) (Finset.le_min' _ hne n hle)
  rw [take, dif_pos hne]
  congr 1
  · rw [hmin]
  · congr 1

theorem take_some {t : Shelf} (h : s.take = (some n, t)) : n ∈ s.free ∧ t.used = insert n s.used := by
  unfold take at h
  split_ifs at h with hne
  · obtain ⟨hn, rfl⟩ := Prod.mk.inj h
    obtain rfl := Option.some.inj hn
    exact ⟨s.free.min'_mem hne, rfl⟩
  · cases h

theorem put_used (h : n ∈ s.used) : s.put n = (true, s.drop n) := by
  rw [put, decide_eq_true h]

theorem put_free (h : n ∉ s.used) : s.put n = (false, s) := by
  rw [put, decide_eq_false h]
  congr 1
  unfold drop
  congr 1
  exact Finset.erase_eq_of_notMem h

end Shelf
end Ferrite.Shelves
