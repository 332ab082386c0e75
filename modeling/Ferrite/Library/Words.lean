import Mathlib.Data.List.Basic

/-!
# The words of a list

A list with separators is read as the words between them, so separators that are
repeated, or stand at an end, do not matter. The last separator parts the last
word from the rest.
-/
namespace Ferrite.Words

variable {α : Type*} [DecidableEq α] {a : α} {l r : List α} {k : ℕ}

/-- The nonempty lists between the separators. -/
def words (a : α) (l : List α) : List (List α) := (l.splitOn a).filter (· ≠ [])

@[simp] theorem words_nil : words a [] = [] := by simp [words]

theorem words_append (l r : List α) : words a (l ++ a :: r) = words a l ++ words a r := by
  rw [words, List.splitOn_append_cons_self, List.filter_append, words, words]

theorem words_cons_self (l : List α) : words a (a :: l) = words a l := by
  have h := words_append (a := a) [] l
  simpa using h

theorem words_concat_self (l : List α) : words a (l ++ [a]) = words a l := by
  rw [words_append, words_nil, List.append_nil]

theorem words_of_not_mem (h : a ∉ l) (hne : l ≠ []) : words a l = [l] := by
  rw [words, List.splitOn_eq_singleton h]
  simp [hne]

/-- A list that does not start with a separator has a word. -/
theorem words_cons_ne_nil {b : α} (h : b ≠ a) (l : List α) : words a (b :: l) ≠ [] := by
  by_cases hmem : a ∈ b :: l
  · obtain ⟨as, bs, heq, hnot⟩ := List.eq_append_cons_of_mem hmem
    have has : as ≠ [] := by
      intro hnil
      rw [hnil] at heq
      exact h (List.cons.inj heq).1
    rw [heq, words_append, words_of_not_mem hnot has]
    exact List.cons_ne_nil _ _
  · rw [words_of_not_mem hmem (List.cons_ne_nil _ _)]
    exact List.cons_ne_nil _ _

theorem words_ne_nil (h : ∃ b ∈ l, b ≠ a) : words a l ≠ [] := by
  induction l with
  | nil => simp at h
  | cons b l ih =>
      by_cases hb : b = a
      · rw [hb, words_cons_self]
        apply ih
        obtain ⟨c, hc, hca⟩ := h
        rcases List.mem_cons.mp hc with rfl | hc
        · exact absurd hb hca
        · exact ⟨c, hc, hca⟩
      · exact words_cons_ne_nil hb l

/-- The place of the last separator. -/
def lastIndex (a : α) : List α → Option ℕ
  | [] => none
  | b :: l => ((lastIndex a l).map (· + 1)).or (if b = a then some 0 else none)

theorem lastIndex_eq_none : lastIndex a l = none ↔ a ∉ l := by
  induction l with
  | nil => simp [lastIndex]
  | cons b l ih =>
      rw [lastIndex, Option.or_eq_none_iff, Option.map_eq_none_iff, ih, List.mem_cons, not_or]
      constructor
      · intro ⟨hl, hb⟩
        refine ⟨fun heq => ?_, hl⟩
        rw [if_pos heq.symm] at hb
        cases hb
      · intro ⟨hb, hl⟩
        exact ⟨hl, if_neg (Ne.symm hb)⟩

theorem lastIndex_eq_some (h : lastIndex a l = some k) :
    l = l.take k ++ a :: l.drop (k + 1) ∧ a ∉ l.drop (k + 1) := by
  induction l generalizing k with
  | nil => cases h
  | cons b l ih =>
      rw [lastIndex] at h
      cases hl : lastIndex a l with
      | none =>
          rw [hl, Option.map_none, Option.none_or] at h
          split_ifs at h with hb
          cases h
          exact ⟨by simp [hb], lastIndex_eq_none.mp hl⟩
      | some j =>
          rw [hl, Option.map_some, Option.some_or] at h
          cases h
          obtain ⟨heq, hnot⟩ := ih hl
          exact ⟨by simpa using heq, by simpa using hnot⟩

/-- What stands behind the last separator is the last word, unless it is empty. -/
theorem words_of_lastIndex (h : lastIndex a l = some k) (hne : l.drop (k + 1) ≠ []) :
    words a l = words a (l.take k) ++ [l.drop (k + 1)] := by
  obtain ⟨heq, hnot⟩ := lastIndex_eq_some h
  conv_lhs => rw [heq]
  rw [words_append, words_of_not_mem hnot hne]

/-- A list that does not end in a separator ends in a word. -/
theorem drop_lastIndex_ne_nil (h : lastIndex a l = some k) (hlast : l.getLast? ≠ some a) :
    l.drop (k + 1) ≠ [] := by
  intro hnil
  obtain ⟨heq, -⟩ := lastIndex_eq_some h
  rw [hnil] at heq
  apply hlast
  rw [heq]
  simp

end Ferrite.Words
