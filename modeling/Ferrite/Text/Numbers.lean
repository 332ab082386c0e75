import Ferrite.Library.Numerals
import Ferrite.Library.Signed

/-!
# Numbers as text

`simple_number` and `simple_number_64` write a number with its padding. They fill `tmp` with the
digits, the least significant first, and copy it backwards. The kernel's `simple_number` divides
the signed number as an unsigned one, that of the C library converts it first; the other
function is the same in both.

A digit beyond the end of `tmp`, and a division by zero, have no result.
-/
namespace Ferrite.Text
open Numerals Word

/-- The digits that the loop writes into the rest of `tmp`. -/
def digitLoop (base : ℕ) : ℕ → ℕ → Option (List Char)
  | 0, num => if num = 0 then some [] else none
  | room + 1, num =>
      if num = 0 then some []
      else if base = 0 then none
      else (digitLoop base room (num / base)).map (digitChar (num % base) :: ·)

/-- The loop over a `long`. -/
def longDigitLoop (base : ℕ) : ℕ → ℤ → Option (List Char)
  | 0, num => if num = 0 then some [] else none
  | room + 1, num =>
      if num = 0 then some []
      else if base = 0 then none
      else (longDigitLoop base room (signed 32 (unsigned 32 num / base))).map
        (digitChar (unsigned 32 num % base) :: ·)

/-- What is written from `num_len` on. -/
def writeNumber (tmp : List Char) (negative : Bool) (width : ℤ) (zeroPad : Bool) : List Char :=
  let numLen : ℤ := tmp.length + if negative then 1 else 0
  let padded := decide (numLen < width)
  let early := padded && zeroPad && negative
  (if early then ['-'] else []) ++
    (if padded then List.replicate (width - numLen).toNat (if zeroPad then '0' else ' ') else []) ++
    (if negative && !early then ['-'] else []) ++ tmp.reverse

def simpleNumber64 (num base : ℕ) (isSigned : Bool) (width : ℤ) (zeroPad : Bool) : Option (List Char) :=
  let negative := isSigned && base = 10 && signed 64 num < 0
  let num := if negative then unsigned 64 (-signed 64 num) else num
  (if num = 0 then some ['0'] else digitLoop base 65 num).map fun tmp => writeNumber tmp negative width zeroPad

def simpleNumber (num : ℤ) (base : ℕ) (isSigned : Bool) (width : ℤ) (zeroPad : Bool) : Option (List Char) :=
  let negative := isSigned && base = 10 && num < 0
  let num := if negative then signed 32 (unsigned 32 (-num)) else num
  (if num = 0 then some ['0'] else longDigitLoop base 36 num).map fun tmp =>
    writeNumber tmp negative width zeroPad

/-- `simple_number` of the C library. -/
def libcSimpleNumber (num : ℤ) (base : ℕ) (isSigned : Bool) (width : ℤ) (zeroPad : Bool) : Option (List Char) :=
  let negative := isSigned && base = 10 && num < 0
  let num := if negative then signed 32 (unsigned 32 (-num)) else num
  let unum := unsigned 32 num
  (if unum = 0 then some ['0'] else digitLoop base 36 unum).map fun tmp =>
    writeNumber tmp negative width zeroPad

/-! ## What is written -/

/-- The digits of the value and its sign. -/
def minimalLength (base : ℕ) (value : ℤ) : ℤ := (digitsOf base value.natAbs).length + if value < 0 then 1 else 0

/-- A text of the value in a base, of no more characters than the value or the width needs. -/
structure Renders (base : ℕ) (value width : ℤ) (text : List Char) : Prop where
  length : (text.length : ℤ) = max width (minimalLength base value)
  reads : readNumber base text = some value

variable {base num room n : ℕ} {z width value : ℤ} {negative zeroPad : Bool} {text : List Char}

/-! ## The loops -/

/-- The loop writes the digits of a number for which `tmp` has room. -/
theorem digitLoop_eq (hb : 1 < base) (h : num < base ^ room) :
    digitLoop base room num = some ((Nat.digits base num).map digitChar) := by
  induction room generalizing num with
  | zero =>
      obtain rfl : num = 0 := by simpa using h
      rw [Nat.digits_zero]
      rfl
  | succ room ih =>
      unfold digitLoop
      by_cases hnum : num = 0
      · rw [if_pos hnum, hnum, Nat.digits_zero]
        rfl
      · have hlt : num / base < base ^ room := by
          apply Nat.div_lt_of_lt_mul
          rwa [Nat.mul_comm, ← pow_succ]
        rw [if_neg hnum, if_neg (by omega), ih hlt, Nat.digits_def' hb (Nat.pos_of_ne_zero hnum)]
        rfl

theorem signed_range (x : ℕ) : -2 ^ 31 ≤ signed 32 x ∧ signed 32 x < 2 ^ 31 := by
  unfold signed
  split_ifs <;> omega

/-- Both loops write the same digits. -/
theorem longDigitLoop_eq (base room : ℕ) (hlow : -2 ^ 31 ≤ z) (hhigh : z < 2 ^ 31) :
    longDigitLoop base room z = digitLoop base room (unsigned 32 z) := by
  have hzero : unsigned 32 z = 0 ↔ z = 0 := unsigned_eq_zero hlow hhigh (by decide)
  induction room generalizing z with
  | zero =>
      unfold longDigitLoop digitLoop
      rw [if_congr hzero.symm rfl rfl]
  | succ room ih =>
      have hrange := signed_range (unsigned 32 z / base)
      have hlt : unsigned 32 z / base < 2 ^ 32 := (Nat.div_le_self ..).trans_lt (unsigned_lt ..)
      have hrest := ih hrange.1 hrange.2 (unsigned_eq_zero hrange.1 hrange.2 (by decide))
      rw [unsigned_signed hlt] at hrest
      unfold longDigitLoop digitLoop
      rw [if_congr hzero.symm rfl rfl, hrest]

/-- The copies of the kernel and of the C library write the same. -/
theorem libcSimpleNumber_eq (hlow : -2 ^ 31 ≤ z) (hhigh : z < 2 ^ 31) (base : ℕ) (isSigned : Bool) (width : ℤ)
    (zeroPad : Bool) : libcSimpleNumber z base isSigned width zeroPad
    = simpleNumber z base isSigned width zeroPad := by
  have hrange : -2 ^ 31 ≤ (if isSigned && base = 10 && z < 0 then signed 32 (unsigned 32 (-z)) else z) ∧
      (if isSigned && base = 10 && z < 0 then signed 32 (unsigned 32 (-z)) else z) < 2 ^ 31 := by
    by_cases hneg : (isSigned && base = 10 && z < 0) = true
    · rw [if_pos hneg]
      exact signed_range _
    · rw [if_neg hneg]
      exact ⟨hlow, hhigh⟩
  unfold libcSimpleNumber simpleNumber
  dsimp only
  rw [longDigitLoop_eq base 36 hrange.1 hrange.2,
    if_congr (unsigned_eq_zero hrange.1 hrange.2 (by decide)) rfl rfl]

/-! ## Padding -/

/-- The digits with blanks, sign and zeros in one of the orders that can be read. -/
theorem writeNumber_eq (tmp : List Char) (negative : Bool) (width : ℤ) (zeroPad : Bool) :
    ∃ blanks zeros, writeNumber tmp negative width zeroPad = List.replicate blanks ' ' ++
        ((if negative then ['-'] else []) ++ (List.replicate zeros '0' ++ tmp.reverse)) ∧
      (blanks + zeros : ℤ) = max 0 (width - (tmp.length + if negative then 1 else 0)) := by
  unfold writeNumber
  dsimp only
  by_cases hpad : (tmp.length + if negative then 1 else 0 : ℤ) < width
  · rw [decide_eq_true hpad]
    cases zeroPad with
    | true =>
        refine ⟨0, (width - (tmp.length + if negative then 1 else 0)).toNat, ?_, by omega⟩
        cases negative <;> simp
    | false =>
        refine ⟨(width - (tmp.length + if negative then 1 else 0)).toNat, 0, ?_, by omega⟩
        cases negative <;> simp
  · rw [decide_eq_false hpad]
    refine ⟨0, 0, ?_, by omega⟩
    cases negative <;> simp

/-- The digits of a number with a sign read back. -/
theorem writeNumber_renders (hb : 1 < base) (hb' : base ≤ 36) (hsign : negative = true → n ≠ 0) (width : ℤ)
    (zeroPad : Bool) :
    Renders base (if negative then -(n : ℤ) else n) width
      (writeNumber ((digitsOf base n).map digitChar) negative width zeroPad) := by
  obtain ⟨blanks, zeros, heq, hpad⟩ := writeNumber_eq ((digitsOf base n).map digitChar) negative width zeroPad
  rw [heq]
  rw [List.length_map] at hpad
  cases negative with
  | true =>
      have hn := hsign rfl
      have habs : (-(n : ℤ)).natAbs = n := by omega
      refine ⟨?_, readNumber_negative hb hb' blanks zeros n⟩
      unfold minimalLength
      simp only [if_true, List.length_append, List.length_replicate, List.length_reverse, List.length_map,
        List.length_singleton, habs] at *
      rw [if_pos (by omega)]
      omega
  | false =>
      have habs : (n : ℤ).natAbs = n := by omega
      refine ⟨?_, readNumber_numeral hb hb' blanks zeros n⟩
      unfold minimalLength
      simp only [Bool.false_eq_true, if_false, List.nil_append, List.length_append, List.length_replicate,
        List.length_reverse, List.length_map, habs] at *
      rw [if_neg (by omega)]
      omega

/-- The text of `tmp`. -/
theorem tmp_eq (hb : 1 < base) (h : num < base ^ room) :
    (if num = 0 then some ['0'] else digitLoop base room num) = some ((digitsOf base num).map digitChar) := by
  unfold digitsOf
  by_cases hnum : num = 0
  · rw [if_pos hnum, if_pos hnum]
    rfl
  · rw [if_neg hnum, if_neg hnum, digitLoop_eq hb h]

/-! ## The functions -/

/-- The text of a value in a base. -/
def numberText (base : ℕ) (value width : ℤ) (zeroPad : Bool) : List Char :=
  writeNumber ((digitsOf base value.natAbs).map digitChar) (decide (value < 0)) width zeroPad

theorem numberText_renders (hb : 1 < base) (hb' : base ≤ 36) (value width : ℤ) (zeroPad : Bool) :
    Renders base value width (numberText base value width zeroPad) := by
  have hrenders := @writeNumber_renders base value.natAbs (decide (value < 0)) hb hb'
    (fun h => by have := of_decide_eq_true h; omega) width zeroPad
  have hvalue : (if decide (value < 0) then -(value.natAbs : ℤ) else value.natAbs) = value := by
    by_cases hneg : value < 0
    · rw [if_pos (decide_eq_true hneg)]
      omega
    · rw [if_neg (by simpa using hneg)]
      omega
  rwa [hvalue] at hrenders

theorem simpleNumber64_eq (hnum : num < 2 ^ 64) (width : ℤ) (zeroPad : Bool) :
    simpleNumber64 num 10 false width zeroPad = some (numberText 10 num width zeroPad) := by
  unfold simpleNumber64 numberText
  simp only [Bool.false_and, Bool.false_eq_true, if_false]
  rw [tmp_eq (by decide) (by omega), Int.natAbs_natCast, decide_eq_false (by omega)]
  rfl

/-- An unsigned number, as the `long` that it is passed as. -/
theorem simpleNumber_unsigned (hb : base = 10 ∨ base = 16) (hnum : num < 2 ^ 32) (width : ℤ) (zeroPad : Bool) :
    simpleNumber (signed 32 num) base false width zeroPad = some (numberText base num width zeroPad) := by
  have hrange := signed_range num
  have hroom : num < base ^ 36 := by rcases hb with rfl | rfl <;> omega
  rw [← libcSimpleNumber_eq hrange.1 hrange.2]
  unfold libcSimpleNumber numberText
  simp only [Bool.false_and, Bool.false_eq_true, if_false]
  rw [unsigned_signed hnum, tmp_eq (by omega) hroom, Int.natAbs_natCast, decide_eq_false (by omega)]
  rfl

/-- A signed number, the least one included. -/
theorem simpleNumber_signed (hlow : -2 ^ 31 ≤ z) (hhigh : z < 2 ^ 31) (width : ℤ) (zeroPad : Bool) :
    simpleNumber z 10 true width zeroPad = some (numberText 10 z width zeroPad) := by
  rw [← libcSimpleNumber_eq hlow hhigh]
  unfold libcSimpleNumber numberText
  dsimp only
  by_cases hneg : z < 0
  · have habs : unsigned 32 (signed 32 (unsigned 32 (-z))) = z.natAbs := by
      rw [unsigned_signed (unsigned_lt ..), unsigned_of_nonneg (by omega) (by omega)]
      omega
    have hsign : (true && decide (10 = 10) && decide (z < 0)) = true := by simpa using hneg
    rw [hsign, if_pos rfl, habs, tmp_eq (by decide) (by omega), decide_eq_true hneg]
    rfl
  · have hnat : unsigned 32 z = z.natAbs := by
      rw [unsigned_of_nonneg (by omega) (by omega)]
      omega
    have hsign : (true && decide (10 = 10) && decide (z < 0)) = false := by simpa using hneg
    rw [hsign]
    simp only [Bool.false_eq_true, if_false]
    rw [hnat, tmp_eq (by decide) (by omega), decide_eq_false hneg]
    rfl

/-- What is written of a number is as long as the number and the width need and reads back, and
both copies write the same. -/
theorem number_round_trip :
    (∀ base num width zeroPad, base = 10 ∨ base = 16 → num < 2 ^ 32 → ∃ text,
      simpleNumber (signed 32 num) base false width zeroPad = some text ∧ Renders base num width text) ∧
    (∀ (z : ℤ) width zeroPad, -2 ^ 31 ≤ z → z < 2 ^ 31 → ∃ text,
      simpleNumber z 10 true width zeroPad = some text ∧ Renders 10 z width text) ∧
    (∀ num width zeroPad, num < 2 ^ 64 → ∃ text,
      simpleNumber64 num 10 false width zeroPad = some text ∧ Renders 10 num width text) ∧
    ∀ (z : ℤ) base isSigned width zeroPad, -2 ^ 31 ≤ z → z < 2 ^ 31 →
      libcSimpleNumber z base isSigned width zeroPad = simpleNumber z base isSigned width zeroPad :=
  ⟨fun _ _ width zeroPad hb hnum => ⟨_, simpleNumber_unsigned hb hnum width zeroPad,
      numberText_renders (by omega) (by omega) _ width zeroPad⟩,
    fun z width zeroPad hlow hhigh => ⟨_, simpleNumber_signed hlow hhigh width zeroPad,
      numberText_renders (by decide) (by decide) z width zeroPad⟩,
    fun num width zeroPad hnum => ⟨_, simpleNumber64_eq hnum width zeroPad,
      numberText_renders (by decide) (by decide) num width zeroPad⟩,
    fun _ base isSigned width zeroPad hlow hhigh => libcSimpleNumber_eq hlow hhigh base isSigned width zeroPad⟩

theorem number_round_trip_least : ∃ text, simpleNumber (-2147483648) 10 true 12 true = some text ∧
    Renders 10 (-2147483648) 12 text :=
  number_round_trip.2.1 (-2147483648) 12 true (by decide) (by decide)

end Ferrite.Text
