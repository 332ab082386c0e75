import Mathlib.Data.Nat.Digits.Defs
import Mathlib.Data.Nat.Digits.Lemmas
import Mathlib.Tactic.Ring

/-!
# Numerals

A number in a base of at most 36 as a text, with the letters behind the digits, and the number
that a text of blanks, a sign and digits denotes.
-/
namespace Ferrite.Numerals

/-- The character of a digit. -/
def digitChar (d : ℕ) : Char := Char.ofNat ((if 9 < d then d - 10 + 97 else d + 48) % 256)

/-- The digit of a character. -/
def digitValue (base : ℕ) (c : Char) : Option ℕ :=
  let d := if '0' ≤ c ∧ c ≤ '9' then c.toNat - 48 else if 'a' ≤ c ∧ c ≤ 'z' then c.toNat - 87 else base
  if d < base then some d else none

/-- The number that digits continue; the most significant digit comes first. -/
def readFrom (base n : ℕ) (text : List Char) : Option ℕ :=
  text.foldlM (fun n c => (digitValue base c).map fun d => base * n + d) n

/-- The number that a text denotes: blanks, a sign, and at least one digit. -/
def readNumber (base : ℕ) (text : List Char) : Option ℤ :=
  match text.dropWhile (· = ' ') with
  | [] => none
  | c :: rest =>
      if c = '-' then if rest = [] then none else (readFrom base 0 rest).map fun n => -(n : ℤ)
      else (readFrom base 0 (c :: rest)).map fun n => (n : ℤ)

/-- The digits of a number, the least significant first; zero has one. -/
def digitsOf (base n : ℕ) : List ℕ := if n = 0 then [0] else Nat.digits base n

variable {base d n k : ℕ} {ds : List ℕ} {text : List Char}

theorem digitValue_digitChar (hb : base ≤ 36) (hd : d < base) : digitValue base (digitChar d) = some d := by
  have hall : ∀ d < 36, (if '0' ≤ digitChar d ∧ digitChar d ≤ '9' then (digitChar d).toNat - 48
      else if 'a' ≤ digitChar d ∧ digitChar d ≤ 'z' then (digitChar d).toNat - 87 else 36) = d := by
    decide
  have hchar : ∀ d < 36, ('0' ≤ digitChar d ∧ digitChar d ≤ '9') ∨ ('a' ≤ digitChar d ∧ digitChar d ≤ 'z') := by
    decide
  have heq := hall d (by omega)
  have hval : (if '0' ≤ digitChar d ∧ digitChar d ≤ '9' then (digitChar d).toNat - 48
      else if 'a' ≤ digitChar d ∧ digitChar d ≤ 'z' then (digitChar d).toNat - 87 else base) = d := by
    rcases hchar d (by omega) with h | h
    · rw [if_pos h] at heq ⊢
      exact heq
    · by_cases h' : '0' ≤ digitChar d ∧ digitChar d ≤ '9'
      · rw [if_pos h'] at heq ⊢
        exact heq
      · rw [if_neg h', if_pos h] at heq ⊢
        exact heq
  unfold digitValue
  rw [hval, if_pos hd]

theorem digitChar_ne (hd : d < 36) : digitChar d ≠ ' ' ∧ digitChar d ≠ '-' := by
  have hall : ∀ d < 36, digitChar d ≠ ' ' ∧ digitChar d ≠ '-' := by decide
  exact hall d hd

/-! ## Digits -/

theorem digitsOf_ne_nil (hn : n ≠ 0 → 1 < base) : digitsOf base n ≠ [] := by
  unfold digitsOf
  split_ifs with h
  · exact List.cons_ne_nil 0 []
  · exact Nat.digits_ne_nil_iff_ne_zero.mpr h

theorem lt_of_mem_digitsOf (hb : 1 < base) (h : d ∈ digitsOf base n) : d < base := by
  unfold digitsOf at h
  split_ifs at h with hn
  · rw [List.mem_singleton.mp h]
    omega
  · exact Nat.digits_lt_base hb h

theorem ofDigits_digitsOf (base n : ℕ) : Nat.ofDigits base (digitsOf base n) = n := by
  unfold digitsOf
  split_ifs with h
  · rw [h]
    simp
  · exact Nat.ofDigits_digits base n

/-! ## Reading -/

/-- Digits in front of the others carry on. -/
theorem readFrom_append (n : ℕ) (text text' : List Char) :
    readFrom base n (text ++ text') = (readFrom base n text).bind fun m => readFrom base m text' := by
  unfold readFrom
  rw [List.foldlM_append]
  rfl

/-- Zeros in front do not matter. -/
theorem readFrom_zeros (hb : 1 < base) (k : ℕ) : readFrom base 0 (List.replicate k '0') = some 0 := by
  induction k with
  | zero => rfl
  | succ k ih =>
      have hzero : digitValue base '0' = some 0 := by
        have hdigit : (if '0' ≤ '0' ∧ '0' ≤ '9' then '0'.toNat - 48 else
            if 'a' ≤ '0' ∧ '0' ≤ 'z' then '0'.toNat - 87 else base) = 0 := if_pos (by decide)
        unfold digitValue
        rw [hdigit, if_pos (by omega)]
      rw [List.replicate_succ', readFrom_append, ih, Option.bind_some]
      unfold readFrom
      rw [List.foldlM_cons, hzero]
      rfl

/-- The digits of a number read back. -/
theorem readFrom_digits (hb : base ≤ 36) (hds : ∀ d ∈ ds, d < base) :
    readFrom base 0 (ds.map digitChar).reverse = some (Nat.ofDigits base ds) := by
  induction ds with
  | nil => rfl
  | cons d ds ih =>
      have hd : digitValue base (digitChar d) = some d := digitValue_digitChar hb (hds d List.mem_cons_self)
      rw [List.map_cons, List.reverse_cons, readFrom_append, ih fun e he => hds e (List.mem_cons_of_mem d he),
        Option.bind_some]
      unfold readFrom
      rw [List.foldlM_cons, hd, Option.map_some, Nat.ofDigits_cons, Nat.add_comm]
      rfl

/-- Zeros and the digits of a number. -/
theorem readFrom_numeral (hb : 1 < base) (hb' : base ≤ 36) (k n : ℕ) :
    readFrom base 0 (List.replicate k '0' ++ ((digitsOf base n).map digitChar).reverse) = some n := by
  rw [readFrom_append, readFrom_zeros hb, Option.bind_some,
    readFrom_digits hb' fun d hd => lt_of_mem_digitsOf hb hd, ofDigits_digitsOf]

/-- Zeros and the digits of a number, the most significant first. -/
def numeral (base k n : ℕ) : List Char := List.replicate k '0' ++ ((digitsOf base n).map digitChar).reverse

theorem dropWhile_blanks (k : ℕ) (text : List Char) :
    (List.replicate k ' ' ++ text).dropWhile (· = ' ') = text.dropWhile (· = ' ') := by
  induction k with
  | zero => rfl
  | succ k ih =>
      rw [List.replicate_succ, List.cons_append, List.dropWhile_cons_of_pos (by decide)]
      exact ih

/-- A numeral begins with a digit. -/
theorem numeral_cons (hb : 1 < base) (hb' : base ≤ 36) (k n : ℕ) :
    ∃ c rest, numeral base k n = c :: rest ∧ c ≠ ' ' ∧ c ≠ '-' := by
  cases k with
  | zero =>
      obtain ⟨ds, d, hds⟩ := List.eq_nil_or_concat' (digitsOf base n) |>.resolve_left
          (digitsOf_ne_nil fun _ => hb)
      have hd : d < base := by
        apply lt_of_mem_digitsOf (n := n) hb
        rw [hds]
        simp
      refine ⟨digitChar d, (ds.map digitChar).reverse, ?_, digitChar_ne (by omega)⟩
      unfold numeral
      rw [hds]
      simp
  | succ k => exact ⟨'0', _, rfl, by decide, by decide⟩

/-- A numeral behind blanks. -/
theorem readNumber_numeral (hb : 1 < base) (hb' : base ≤ 36) (j k n : ℕ) :
    readNumber base (List.replicate j ' ' ++ numeral base k n) = some (n : ℤ) := by
  obtain ⟨c, rest, hnumeral, hblank, hsign⟩ := numeral_cons hb hb' k n
  have hread : readFrom base 0 (c :: rest) = some n := hnumeral ▸ readFrom_numeral hb hb' k n
  unfold readNumber
  rw [dropWhile_blanks, hnumeral, List.dropWhile_cons_of_neg (by simpa using hblank)]
  dsimp only
  rw [if_neg hsign, hread]
  rfl

/-- A sign between the blanks and the numeral. -/
theorem readNumber_negative (hb : 1 < base) (hb' : base ≤ 36) (j k n : ℕ) :
    readNumber base (List.replicate j ' ' ++ '-' :: numeral base k n) = some (-(n : ℤ)) := by
  obtain ⟨c, rest, hnumeral, -⟩ := numeral_cons hb hb' k n
  have hread : readFrom base 0 (numeral base k n) = some n := readFrom_numeral hb hb' k n
  unfold readNumber
  rw [dropWhile_blanks, List.dropWhile_cons_of_neg (by decide)]
  dsimp only
  rw [if_pos rfl, if_neg (by rw [hnumeral]; exact List.cons_ne_nil c rest), hread]
  rfl

end Ferrite.Numerals
