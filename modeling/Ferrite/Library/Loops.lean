import Mathlib.Data.Nat.Basic
import Mathlib.Data.Option.Basic
import Mathlib.Tactic.Common

/-!
# Checked loops

A loop over a range of numbers whose step has no result when it does something forbidden, and
which stops at the first step that ends in an error. Whether a step is allowed, and whether it
is free of errors, is a property of its number.
-/
namespace Ferrite.Loops
variable {S Err : Type*}

/-- `loop n i` takes the steps with the numbers from `i` to `i + n`. -/
structure Loop (step : ℕ → S → Option (Except Err S)) (loop : ℕ → ℕ → S → Option (Except Err S)) : Prop where
  done : ∀ i s, loop 0 i s = some (.ok s)
  next : ∀ n i s, loop (n + 1) i s = (step i s).bind fun r =>
    match r with
    | .error e => some (.error e)
    | .ok t => loop n (i + 1) t

variable {step : ℕ → S → Option (Except Err S)} {loop : ℕ → ℕ → S → Option (Except Err S)}
variable {Allowed Good : ℕ → Prop} {n i : ℕ} {s : S}

theorem range_succ {P : ℕ → Prop} : (∀ k, i ≤ k → k < i + (n + 1) → P k) ↔
    P i ∧ ∀ k, i + 1 ≤ k → k < i + 1 + n → P k := by
  constructor
  · intro h
    exact ⟨h i (by omega) (by omega), fun k hk hk' => h k (by omega) (by omega)⟩
  · intro h k hk hk'
    rcases Nat.eq_or_lt_of_le hk with heq | hlt
    · exact heq ▸ h.1
    · exact h.2 k hlt (by omega)

/-- What holds of every number that is reached, when a number is left behind as long as `Q`
holds of it. -/
theorem reached_succ {P Q : ℕ → Prop} :
    (∀ k, i ≤ k → k < i + (n + 1) → (∀ j, i ≤ j → j < k → Q j) → P k) ↔
      P i ∧ (Q i → ∀ k, i + 1 ≤ k → k < i + 1 + n → (∀ j, i + 1 ≤ j → j < k → Q j) → P k) := by
  constructor
  · intro h
    constructor
    · exact h i (by omega) (by omega) fun j hj hj' => by omega
    · intro hi k hk hk' hbefore
      apply h k (by omega) (by omega)
      intro j hj hj'
      rcases Nat.eq_or_lt_of_le hj with heq | hlt
      · exact heq ▸ hi
      · exact hbefore j hlt hj'
  · rintro ⟨hi, hrest⟩ k hk hk' hbefore
    rcases Nat.eq_or_lt_of_le hk with heq | hlt
    · exact heq ▸ hi
    · exact hrest (hbefore i (le_refl i) hlt) k hlt (by omega) fun j hj hj' => hbefore j (by omega) hj'

/-- A computation goes on with a result, and not with an error. -/
theorem goesOn_isSome_iff {A B : Type*} {x : Option (Except Err A)} {f : Except Err A → Option B}
    (herr : ∀ e, (f (.error e)).isSome) :
    (x.bind f).isSome ↔ x.isSome ∧ ∀ a, x = some (.ok a) → (f (.ok a)).isSome := by
  cases x with
  | none => simp
  | some r =>
      cases r with
      | error e => simp [herr e]
      | ok a => simp

namespace Loop

/-- The loop ends well when every step does. -/
theorem ok_iff (h : Loop step loop) (hok : ∀ i s, (∃ t, step i s = some (.ok t)) ↔ Allowed i ∧ Good i) :
    (∃ t, loop n i s = some (.ok t)) ↔ ∀ k, i ≤ k → k < i + n → Allowed k ∧ Good k := by
  induction n generalizing i s with
  | zero =>
      rw [h.done]
      exact ⟨fun _ k hk hk' => by omega, fun _ => ⟨s, rfl⟩⟩
  | succ n ih =>
      rw [range_succ, ← hok i s, h.next]
      cases hstep : step i s with
      | none => simp
      | some r =>
          cases r with
          | error e => simp
          | ok t => simp [ih]

/-- What a loop that ends well has computed, and what was true of its steps. -/
theorem ok_eq (h : Loop step loop) {f : S → ℕ → S} {P : ℕ → Prop} {t : S}
    (hstep : ∀ i s t, step i s = some (.ok t) → t = f s i ∧ P i) (hok : loop n i s = some (.ok t)) :
    t = (List.range' i n).foldl f s ∧ ∀ k, i ≤ k → k < i + n → P k := by
  induction n generalizing i s with
  | zero =>
      rw [h.done] at hok
      cases hok
      exact ⟨rfl, fun k hk hk' => by omega⟩
  | succ n ih =>
      rw [h.next] at hok
      obtain ⟨r, hr, hok⟩ := Option.bind_eq_some_iff.mp hok
      cases r with
      | error e => cases hok
      | ok s' =>
          obtain ⟨rfl, hP⟩ := hstep i s s' hr
          obtain ⟨rfl, hrest⟩ := ih hok
          exact ⟨rfl, range_succ.mpr ⟨hP, hrest⟩⟩

/-- The loop does nothing forbidden when the steps are allowed up to the first error. -/
theorem isSome_iff (h : Loop step loop) (hsome : ∀ i s, (step i s).isSome ↔ Allowed i)
    (hok : ∀ i s, (∃ t, step i s = some (.ok t)) ↔ Allowed i ∧ Good i) :
    (loop n i s).isSome ↔ ∀ k, i ≤ k → k < i + n → (∀ j, i ≤ j → j < k → Good j) → Allowed k := by
  induction n generalizing i s with
  | zero =>
      rw [h.done]
      exact ⟨fun _ k hk hk' => by omega, fun _ => rfl⟩
  | succ n ih =>
      rw [reached_succ, ← hsome i s, h.next]
      have hok := hok i s
      rw [← hsome i s] at hok
      cases hstep : step i s with
      | none => simp
      | some r =>
          cases r with
          | error e =>
              -- What follows an error is not reached.
              have hbad : ¬ Good i := by simpa [hstep] using hok
              simp [hbad]
          | ok t =>
              have hgood : Good i := by simpa [hstep] using hok
              simp [hgood, ih]

end Loop
end Ferrite.Loops
