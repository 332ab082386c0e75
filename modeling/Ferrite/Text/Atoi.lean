import Ferrite.Text.Conversions
import Mathlib.Data.List.TakeWhile

/-!
# Numbers from text

`atoi` of the C library skips blanks, takes a sign and sums digits up to the first character that is
none. The sums wrap as the `int` does.
-/
namespace Ferrite.Text
open Numerals Word

/-- The blanks of `atoi`. -/
def isSpace (c : Char) : Bool :=
  c = ' ' || c = '\t' || c = '\n' || c = '\r' || c = '\x0b' || c = '\x0c'

/-- The sign and what follows it. -/
def takeSign (str : List Char) : ℤ × List Char :=
  match str with
  | [] => (1, [])
  | c :: rest => if c = '-' then (-1, rest) else if c = '+' then (1, rest) else (1, c :: rest)

/-- `atoi`, on the characters in front of the NUL. -/
def atoi (str : List Char) : ℤ :=
  let r := takeSign (str.dropWhile isSpace)
  signed 32 (unsigned 32 ((takeNumber r.2 0).1 * r.1))

variable {text rest ds blanks : List Char} {c : Char} {z : ℤ} {k m : ℕ}

theorem takeNumber_append (hds : ∀ c ∈ ds, isDigit c = true)
    (hrest : ∀ c ∈ rest.head?, isDigit c = false) (n : ℤ) :
    takeNumber (ds ++ rest) n = (ds.foldl addDigit n, rest) := by
  cases rest with
  | cons c rest => exact takeNumber_digits hds (hrest c rfl) n
  | nil =>
      induction ds generalizing n with
      | nil => rfl
      | cons d ds ih =>
          rw [List.cons_append, takeNumber, if_pos (hds d List.mem_cons_self), List.foldl_cons]
          exact ih (fun c hc => hds c (List.mem_cons_of_mem d hc)) _

theorem isDigit_of_digitValue (h : (digitValue 10 c).isSome) : isDigit c = true := by
  unfold digitValue at h
  dsimp only at h
  by_cases hdigit : '0' ≤ c ∧ c ≤ '9'
  · simpa [isDigit] using hdigit
  · rw [if_neg hdigit] at h
    by_cases hletter : 'a' ≤ c ∧ c ≤ 'z'
    · have hge : 97 ≤ c.toNat := hletter.1
      rw [if_pos hletter, if_neg (by omega)] at h
      cases h
    · rw [if_neg hletter, if_neg (lt_irrefl 10)] at h
      cases h

/-- What is read as a number of base ten is digits. -/
theorem isDigit_of_readFrom (h : readFrom 10 k ds = some m) : ∀ c ∈ ds, isDigit c = true := by
  induction ds generalizing k with
  | nil => exact fun c hc => absurd hc List.not_mem_nil
  | cons d ds ih =>
      unfold readFrom at h
      rw [List.foldlM_cons] at h
      obtain ⟨n, hn, hrest⟩ := Option.bind_eq_some_iff.mp h
      obtain ⟨v, hv, rfl⟩ := Option.map_eq_some_iff.mp hn
      intro c hc
      rcases List.mem_cons.mp hc with rfl | hc
      · exact isDigit_of_digitValue (by rw [hv]; rfl)
      · exact ih hrest c hc

theorem addDigit_signed (c : Char) (k : ℕ) :
    addDigit (signed 32 k) c = signed 32 (10 * k + (c.toNat - 48)) := by
  unfold addDigit signed unsigned
  generalize c.toNat - 48 = d
  norm_num only
  split_ifs <;> omega

/-- The sum of the digits of a number, as the `int` holds it. -/
theorem foldl_addDigit_signed (h : readFrom 10 k ds = some m) : ds.foldl addDigit (signed 32 k)
    = signed 32 m := by
  have hds := isDigit_of_readFrom h
  induction ds generalizing k with
  | nil =>
      obtain rfl : k = m := Option.some.inj h
      rfl
  | cons d ds ih =>
      have hstep : readFrom 10 (10 * k + (d.toNat - 48)) ds = some m := by
        unfold readFrom at h
        rw [List.foldlM_cons, digitValue_isDigit (hds d List.mem_cons_self)] at h
        exact h
      rw [List.foldl_cons, addDigit_signed]
      exact ih hstep fun c hc => hds c (List.mem_cons_of_mem d hc)

/-- The least number too, whose sum wraps. -/
theorem signed_neg (hm : m ≤ 2 ^ 31) : signed 32 (unsigned 32 (signed 32 m * -1)) = -(m : ℤ) := by
  unfold signed unsigned
  norm_num only at hm ⊢
  split_ifs <;> omega

theorem dropWhile_isSpace (hblanks : ∀ c ∈ blanks, c = ' ') (hc : isSpace c = false) :
    (blanks ++ c :: rest).dropWhile isSpace = c :: rest := by
  rw [List.dropWhile_append_of_pos fun b hb => by rw [hblanks b hb]; rfl]
  exact List.dropWhile_cons_of_neg (by rw [hc]; exact Bool.false_ne_true)

theorem not_isSpace_of_isDigit (hc : isDigit c = true) : isSpace c = false ∧ c ≠ '-' ∧ c ≠ '+' := by
  have hrange : '0' ≤ c ∧ c ≤ '9' := by simpa [isDigit] using hc
  have hge : 48 ≤ c.toNat := hrange.1
  have hne (d : Char) (hd : d.toNat < 48) : c ≠ d := by
    rintro rfl
    omega
  refine ⟨?_, hne '-' (by decide), hne '+' (by decide)⟩
  unfold isSpace
  simp [hne ' ' (by decide), hne '\t' (by decide), hne '\n' (by decide), hne '\r' (by decide),
    hne '\x0b' (by decide), hne '\x0c' (by decide)]

/-- A text that denotes a number of an `int` is read as that number, whatever follows its digits. -/
theorem atoi_eq (h : readNumber 10 text = some z) (hlow : -2 ^ 31 ≤ z) (hhigh : z < 2 ^ 31)
    (hrest : ∀ c ∈ rest.head?, isDigit c = false) : atoi (text ++ rest) = z := by
  have hjoin := List.takeWhile_append_dropWhile (p := (· = ' ')) (l := text)
  have hblanks : ∀ c ∈ text.takeWhile (· = ' '), c = ' ' := fun c hc => by
    simpa using List.mem_takeWhile_imp hc
  have hzero : signed 32 0 = 0 := by decide
  generalize text.takeWhile (· = ' ') = blanks at *
  unfold readNumber at h
  cases hdrop : text.dropWhile (· = ' ') with
  | nil =>
      rw [hdrop] at h
      cases h
  | cons c ds =>
      rw [hdrop] at h hjoin
      dsimp only at h
      rw [← hjoin, List.append_assoc, List.cons_append]
      unfold atoi
      by_cases hminus : c = '-'
      · subst hminus
        rw [if_pos rfl] at h
        split_ifs at h with hnil
        obtain ⟨n, hn, rfl⟩ := Option.map_eq_some_iff.mp h
        obtain ⟨m, hread, hm⟩ := Option.bind_eq_some_iff.mp hn
        obtain rfl : (m : ℤ) = n := Option.some.inj hm
        have hsign : takeSign ('-' :: (ds ++ rest)) = (-1, ds ++ rest) := rfl
        have hsum := foldl_addDigit_signed hread
        rw [hzero] at hsum
        rw [dropWhile_isSpace hblanks rfl, hsign]
        dsimp only
        rw [takeNumber_append (isDigit_of_readFrom hread) hrest]
        dsimp only
        rw [hsum]
        exact signed_neg (by omega)
      · rw [if_neg hminus] at h
        obtain ⟨n, hn, rfl⟩ := Option.map_eq_some_iff.mp h
        obtain ⟨m, hread, hm⟩ := Option.bind_eq_some_iff.mp hn
        obtain rfl : (m : ℤ) = n := Option.some.inj hm
        have hdigits := isDigit_of_readFrom hread
        obtain ⟨hspace, -, hplus⟩ := not_isSpace_of_isDigit (hdigits c List.mem_cons_self)
        have hsign : takeSign (c :: (ds ++ rest)) = (1, (c :: ds) ++ rest) := by
          unfold takeSign
          dsimp only
          rw [if_neg hminus, if_neg hplus, List.cons_append]
        have hsum := foldl_addDigit_signed hread
        rw [hzero] at hsum
        rw [dropWhile_isSpace hblanks hspace, hsign]
        dsimp only
        rw [takeNumber_append hdigits hrest]
        dsimp only
        have hsmall : signed 32 m = m := signed_of_lt (by omega)
        rw [hsum, mul_one, hsmall, unsigned_of_nonneg (by omega) (by omega), Int.toNat_natCast, hsmall]

/-- `atoi` reads what `printf` writes of an `int`, with any width and padding. -/
theorem atoi_printed (z : ℤ) (width : ℤ) (zeroPad : Bool) (rest : List Char) (hlow : -2 ^ 31 ≤ z)
    (hhigh : z < 2 ^ 31)
    (hrest : ∀ c ∈ rest.head?, isDigit c = false) :
    ∃ text, libcSimpleNumber z 10 true width zeroPad = some text ∧ atoi (text ++ rest) = z := by
  refine ⟨numberText 10 z width zeroPad, ?_, ?_⟩
  · rw [libcSimpleNumber_eq hlow hhigh]
    exact simpleNumber_signed hlow hhigh width zeroPad
  · exact atoi_eq (numberText_renders (by decide) (by decide) z width zeroPad).reads hlow hhigh hrest

theorem atoi_printed_least : ∃ text, libcSimpleNumber (-2147483648) 10 true 14 true = some text ∧
    atoi (text ++ [',', '7']) = -2147483648 :=
  atoi_printed (-2147483648) 14 true [',', '7'] (by decide) (by decide) fun c hc => by
    rw [← Option.some.inj hc]
    decide

end Ferrite.Text
