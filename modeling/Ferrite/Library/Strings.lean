import Mathlib.Data.List.Basic
import Mathlib.Tactic.Ring

/-!
# Strings in memory

A memory holds a list of characters at an address. Strings are closed by a terminator, which is
none of their characters, so that what stands at an address determines the string there.
-/
namespace Ferrite.Strings

variable {α : Type*} {b b' : ℕ → α} {o a i : ℕ} {c z : α} {l r s t : List α} {strs : List (List α)}

/-- The characters stand from `o` on. -/
def Holds (b : ℕ → α) (o : ℕ) (l : List α) : Prop := ∀ k c, l[k]? = some c → b (o + k) = c

theorem holds_nil : Holds b o [] := by
  intro k c h
  cases h

theorem holds_cons : Holds b o (c :: l) ↔ b o = c ∧ Holds b (o + 1) l := by
  constructor
  · intro h
    refine ⟨h 0 c rfl, fun k d hd => ?_⟩
    rw [Nat.add_assoc, Nat.add_comm 1]
    exact h (k + 1) d hd
  · rintro ⟨hfirst, hrest⟩ k d hd
    cases k with
    | zero =>
        obtain rfl : c = d := Option.some.inj hd
        exact hfirst
    | succ k =>
        rw [Nat.add_comm k, ← Nat.add_assoc]
        exact hrest k d hd

theorem holds_append : Holds b o (l ++ r) ↔ Holds b o l ∧ Holds b (o + l.length) r := by
  induction l generalizing o with
  | nil => exact (and_iff_right holds_nil).symm
  | cons c l ih =>
      have hlen : o + (c :: l).length = o + 1 + l.length := by
        rw [List.length_cons]
        omega
      rw [List.cons_append, holds_cons, holds_cons, ih, and_assoc, hlen]

theorem Holds.congr (h : Holds b o l) (hb : ∀ k < l.length, b' (o + k) = b (o + k)) : Holds b' o l := by
  intro k c hc
  rw [hb k (List.getElem?_eq_some_iff.mp hc).1]
  exact h k c hc

/-- The string at an address. -/
def IsString (z : α) (b : ℕ → α) (o : ℕ) (s : List α) : Prop := z ∉ s ∧ Holds b o (s ++ [z])

theorem isString_nil : IsString z b o [] ↔ b o = z := by
  unfold IsString
  rw [List.nil_append, holds_cons]
  simp [holds_nil]

theorem isString_cons : IsString z b o (c :: s) ↔ c ≠ z ∧ b o = c ∧ IsString z b (o + 1) s := by
  unfold IsString
  rw [List.cons_append, holds_cons, List.mem_cons, not_or, ne_comm]
  tauto

theorem IsString.unique (h : IsString z b o s) (h' : IsString z b o t) : s = t := by
  induction s generalizing o t with
  | nil =>
      have hend := isString_nil.mp h
      cases t with
      | nil => rfl
      | cons d t =>
          obtain ⟨hne, hd, -⟩ := isString_cons.mp h'
          exact absurd (hd.symm.trans hend) hne
  | cons c s ih =>
      obtain ⟨hne, hc, hrest⟩ := isString_cons.mp h
      cases t with
      | nil => exact absurd (hc.symm.trans (isString_nil.mp h')) hne
      | cons d t =>
          obtain ⟨-, hd, hrest'⟩ := isString_cons.mp h'
          rw [← hc, hd, ih hrest hrest']

/-! ## Strings one after the other -/

def packed (z : α) (strs : List (List α)) : List α := strs.flatMap (· ++ [z])

/-- Where they begin. -/
def starts : ℕ → List (List α) → List ℕ
  | _, [] => []
  | o, s :: strs => o :: starts (o + (s.length + 1)) strs

theorem packed_cons : packed z (s :: strs) = (s ++ [z]) ++ packed z strs := List.flatMap_cons

theorem packed_append (strs strs' : List (List α)) : packed z (strs ++ strs') = packed z strs ++
    packed z strs' :=
  List.flatMap_append

theorem length_packed_cons : (packed z (s :: strs)).length = s.length + 1 + (packed z strs).length := by
  rw [packed_cons, List.length_append, List.length_append, List.length_singleton]

theorem length_starts (o : ℕ) (strs : List (List α)) : (starts o strs).length = strs.length := by
  induction strs generalizing o with
  | nil => rfl
  | cons s strs ih => rw [starts, List.length_cons, List.length_cons, ih]

theorem starts_lt (h : a ∈ starts o strs) : a < o + (packed z strs).length := by
  induction strs generalizing o with
  | nil => cases h
  | cons s strs ih =>
      rw [length_packed_cons]
      rcases List.mem_cons.mp h with rfl | h
      · omega
      · have hlt := ih h
        omega

/-- Each of them is the string at its beginning. -/
theorem isString_of_packed (h : Holds b o (packed z strs)) (hz : ∀ s ∈ strs, z ∉ s)
    (ha : (starts o strs)[i]? = some a) (hs : strs[i]? = some s) : IsString z b a s := by
  induction strs generalizing o i with
  | nil => cases hs
  | cons t strs ih =>
      rw [packed_cons, holds_append, List.length_append, List.length_singleton] at h
      cases i with
      | zero =>
          obtain rfl : o = a := Option.some.inj ha
          obtain rfl : t = s := Option.some.inj hs
          exact ⟨hz t List.mem_cons_self, h.1⟩
      | succ i => exact ih h.2 (fun s hs => hz s (List.mem_cons_of_mem t hs)) ha hs

end Ferrite.Strings
