import Ferrite.Text.Format

/-!
# What a format declares

A format of literal characters and conversions declares the words of its arguments: two for a
`long long`, one for the others. Both copies of `kfmt` look at the length only in the case of
`u`; the integers of the other conversions are taken as one word.
-/
namespace Ferrite.Text
open Numerals Word

inductive Length
  | plain | long | longLong
deriving DecidableEq, Repr

namespace Length

def source : Length → List Char
  | plain => []
  | long => ['l']
  | longLong => ['l', 'l']

def count : Length → ℕ
  | plain => 0
  | long => 1
  | longLong => 2

end Length

inductive Letter
  | c | s | d | i | u | x | X | p | percent
deriving DecidableEq, Repr

def Letter.char : Letter → Char
  | c => 'c'
  | s => 's'
  | d => 'd'
  | i => 'i'
  | u => 'u'
  | x => 'x'
  | X => 'X'
  | p => 'p'
  | percent => '%'

/-- A conversion with its flag, width, precision and length. -/
structure Directive where
  zero : Bool
  width : List Char
  precision : Option (List Char)
  length : Length
  letter : Letter
  width_digits : ∀ c ∈ width, isDigit c = true
  precision_digits : ∀ ds ∈ precision, ∀ c ∈ ds, isDigit c = true

namespace Directive

def precisionSource (d : Directive) : List Char :=
  match d.precision with
  | none => []
  | some ds => '.' :: ds

/-- What stands between the percent sign and the letter. -/
def options (d : Directive) : List Char :=
  (if d.zero then ['0'] else []) ++ (d.width ++ (d.precisionSource ++ d.length.source))

/-- A `long long`. -/
def IsLongLong (d : Directive) : Prop := d.length = .longLong ∧ d.letter ∈ [.d, .i, .u, .x, .X]

/-- A `long long` that is taken as one word. -/
def Misread (d : Directive) : Prop := d.length = .longLong ∧ d.letter ∈ [.d, .i, .x, .X]

instance (d : Directive) : Decidable d.IsLongLong := inferInstanceAs (Decidable (_ ∧ _))
instance (d : Directive) : Decidable d.Misread := inferInstanceAs (Decidable (_ ∧ _))

/-- The words of the argument. -/
def words (d : Directive) : ℕ :=
  if d.letter = .percent then 0 else if d.IsLongLong then 2 else 1

/-- The argument as an unsigned number. -/
def unsignedArg (d : Directive) (args : Args) (k : ℕ) : ℤ :=
  if d.IsLongLong then args.longLong k else (args.word k).toNat

/-- The argument as a signed number. -/
def signedArg (d : Directive) (args : Args) (k : ℕ) : ℤ :=
  if d.IsLongLong then signed 64 (args.longLong k) else signed 32 (args.word k).toNat

/-- The text is the argument in the notation of the conversion. -/
def Shows (d : Directive) (args : Args) (k : ℕ) (text : List Char) : Prop :=
  match d.letter with
  | .d | .i => readNumber 10 text = some (d.signedArg args k)
  | .u => readNumber 10 text = some (d.unsignedArg args k)
  | .x | .X => readNumber 16 text = some (d.unsignedArg args k)
  | .p => ∃ digits, text = '0' :: 'x' :: digits ∧ readNumber 16 digits = some (d.unsignedArg args k)
  | .c => text = [Char.ofNat ((args.word k).toNat % 256)]
  | .s => ∃ blanks n, text = List.replicate blanks ' ' ++ (args.stringAt k).take n ∧
      (d.precision = none → n = (args.stringAt k).length) ∧
      ∀ ds ∈ d.precision, ∀ m, readFrom 10 0 ds = some m → m < 2 ^ 31 → n = min m (args.stringAt k).length
  | .percent => text = ['%']

end Directive

/-- A literal character or a conversion. -/
inductive Piece
  | literal (c : Char) (hpercent : c ≠ '%') (hnul : c ≠ '\x00')
  | directive (d : Directive)

namespace Piece

def source : Piece → List Char
  | literal c _ _ => [c]
  | directive d => '%' :: (d.options ++ [d.letter.char])

def words : Piece → ℕ
  | literal .. => 0
  | directive d => d.words

def Misread : Piece → Prop
  | literal .. => False
  | directive d => d.Misread

instance : DecidablePred Misread
  | literal .. => inferInstanceAs (Decidable False)
  | directive d => inferInstanceAs (Decidable d.Misread)

def Shows (args : Args) (k : ℕ) (text : List Char) : Piece → Prop
  | literal c _ _ => text = [c]
  | directive d => d.Shows args k text

end Piece

def source (pieces : List Piece) : List Char := pieces.flatMap Piece.source

/-- The words that the pieces declare. -/
def declared (pieces : List Piece) : ℕ := (pieces.map Piece.words).sum

/-- Each piece shows its own argument; the first one is at a word. -/
inductive ShowsAll (args : Args) : ℕ → List Piece → List Char → Prop
  | nil (k : ℕ) : ShowsAll args k [] []
  | cons {k : ℕ} {piece : Piece} {pieces : List Piece} {text rest : List Char} :
      piece.Shows args k text → ShowsAll args (k + piece.words) pieces rest →
      ShowsAll args k (piece :: pieces) (text ++ rest)

/-- Both copies take the words that are declared and show the arguments. -/
def PrintsArguments (args : Args) (pieces : List Piece) : Prop :=
  ∃ text, kfmt args (source pieces) = some (text, declared pieces) ∧
    libcKfmt args (source pieces) = some (text, declared pieces) ∧ ShowsAll args 0 pieces text

variable {args : Args} {d : Directive} {spec : Spec} {pieces : List Piece} {ds rest text : List Char} {c : Char}
  {n : ℤ} {k m : ℕ}

/-! ## Taking a conversion apart -/

theorem takeNumber_digits (hds : ∀ c ∈ ds, isDigit c = true) (hc : isDigit c = false) (n : ℤ) :
    takeNumber (ds ++ c :: rest) n = (ds.foldl addDigit n, c :: rest) := by
  induction ds generalizing n with
  | nil =>
      unfold takeNumber
      exact if_neg (ne_true_of_eq_false hc)
  | cons e ds ih =>
      unfold takeNumber
      rw [List.cons_append]
      dsimp only
      rw [if_pos (hds e List.mem_cons_self)]
      exact ih (fun c hmem => hds c (List.mem_cons_of_mem e hmem)) _

theorem takeZero_digits (hds : ∀ c ∈ ds, isDigit c = true) (hc : isDigit c = false) :
    ∃ zero ds', takeZero (ds ++ c :: rest) = (zero, ds' ++ c :: rest) ∧ ∀ c ∈ ds', isDigit c = true := by
  cases ds with
  | nil =>
      have hzero : c ≠ '0' := fun heq => Bool.false_ne_true (hc.symm.trans (heq ▸ rfl))
      exact ⟨false, [], if_neg hzero, fun c hmem => absurd hmem List.not_mem_nil⟩
  | cons e ds =>
      by_cases hzero : e = '0'
      · exact ⟨true, ds, if_pos hzero, fun c hmem => hds c (List.mem_cons_of_mem e hmem)⟩
      · exact ⟨false, e :: ds, if_neg hzero, hds⟩

theorem takeLength_source (length : Length) (hc : c ≠ 'l') :
    takeLength (length.source ++ c :: rest) = (length.count, c :: rest) := by
  cases length with
  | plain => exact if_neg hc
  | long =>
      have hsecond : (if c = 'l' then (2, rest) else (1, c :: rest)) = (1, c :: rest) := if_neg hc
      exact hsecond
  | longLong => rfl

namespace Directive

/-- The precision in the specification. -/
def precisionValue (d : Directive) : ℤ :=
  match d.precision with
  | none => -1
  | some ds => ds.foldl addDigit 0

theorem letter_char (letter : Letter) :
    isDigit letter.char = false ∧ letter.char ≠ '.' ∧ letter.char ≠ 'l' ∧ letter.char ≠ '\x00' := by
  cases letter <;> decide

/-- What stands in front of a letter that is neither a digit nor a dot. -/
theorem length_cons (length : Length) (hdigit : isDigit c = false) (hdot : c ≠ '.') :
    ∃ e rest', length.source ++ c :: rest = e :: rest' ∧ isDigit e = false ∧ e ≠ '.' := by
  cases length with
  | plain => exact ⟨c, rest, rfl, hdigit, hdot⟩
  | long => exact ⟨'l', c :: rest, rfl, by decide, by decide⟩
  | longLong => exact ⟨'l', 'l' :: c :: rest, rfl, by decide, by decide⟩

theorem takePrecision_source (d : Directive) (hdigit : isDigit c = false) (hdot : c ≠ '.') :
    takePrecision (d.precisionSource ++ (d.length.source ++ c :: rest)) =
      (d.precisionValue, d.length.source ++ c :: rest) := by
  obtain ⟨e, rest', heq, hdigit', hdot'⟩ := @length_cons rest c d.length hdigit hdot
  rw [heq]
  unfold precisionSource precisionValue
  cases hprecision : d.precision with
  | none => exact if_neg hdot'
  | some ds => exact takeNumber_digits (d.precision_digits ds hprecision) hdigit' 0

theorem precision_cons (d : Directive) (hdigit : isDigit c = false) (hdot : c ≠ '.') :
    ∃ e rest', d.precisionSource ++ (d.length.source ++ c :: rest) = e :: rest' ∧ isDigit e = false := by
  unfold precisionSource
  cases d.precision with
  | none =>
      obtain ⟨e, rest', heq, hdigit', -⟩ := @length_cons rest c d.length hdigit hdot
      exact ⟨e, rest', heq, hdigit'⟩
  | some ds => exact ⟨'.', _, rfl, by decide⟩

/-- A flag is taken as it is, or the first digit of the width is taken for one. -/
theorem takeSpec_source (d : Directive) (rest : List Char) : ∃ zero width,
    takeSpec (d.options ++ d.letter.char :: rest) =
      (⟨zero, width, d.precisionValue, d.length.count⟩, d.letter.char :: rest) := by
  obtain ⟨hdigit, hdot, hl, -⟩ := letter_char d.letter
  obtain ⟨e, rest', heq, hdigit'⟩ := @precision_cons rest _ d hdigit hdot
  have htail : d.options ++ d.letter.char :: rest = (if d.zero then ['0'] else []) ++
      (d.width ++ e :: rest') := by
    unfold options
    rw [List.append_assoc, List.append_assoc, List.append_assoc, heq]
  obtain ⟨zero, ds, hzero, hds⟩ : ∃ zero ds, takeZero (d.options ++ d.letter.char :: rest) =
      (zero, ds ++ e :: rest') ∧
      ∀ c ∈ ds, isDigit c = true := by
    rw [htail]
    cases d.zero with
    | true => exact ⟨true, d.width, rfl, d.width_digits⟩
    | false => exact takeZero_digits d.width_digits hdigit'
  refine ⟨zero, ds.foldl addDigit 0, ?_⟩
  unfold takeSpec
  dsimp only
  rw [hzero]
  dsimp only
  rw [takeNumber_digits hds hdigit' 0]
  dsimp only
  rw [← heq, takePrecision_source d hdigit hdot]
  dsimp only
  rw [takeLength_source d.length hl]

end Directive

/-! ## The text of a conversion -/

theorem digitValue_isDigit (hc : isDigit c = true) : digitValue 10 c = some (c.toNat - 48) := by
  have hrange : '0' ≤ c ∧ c ≤ '9' := by simpa [isDigit] using hc
  have hle : c.toNat ≤ 57 := hrange.2
  unfold digitValue
  dsimp only
  rw [if_pos hrange, if_pos (by omega)]

/-- Digits that denote a number of an `int` are summed up to it. -/
theorem foldl_addDigit (hds : ∀ c ∈ ds, isDigit c = true) (hread : readFrom 10 k ds = some m)
    (hm : m < 2 ^ 31) :
    k ≤ m ∧ ds.foldl addDigit k = m := by
  induction ds generalizing k with
  | nil =>
      obtain rfl : k = m := Option.some.inj hread
      exact ⟨le_rfl, rfl⟩
  | cons c ds ih =>
      have hstep : readFrom 10 (10 * k + (c.toNat - 48)) ds = some m := by
        unfold readFrom at hread
        rw [List.foldlM_cons, digitValue_isDigit (hds c List.mem_cons_self)] at hread
        exact hread
      obtain ⟨hle, hsum⟩ := ih (fun e hmem => hds e (List.mem_cons_of_mem c hmem)) hstep
      have hnat : ((k : ℤ) * 10 + (c.toNat - 48 : ℕ)) = (10 * k + (c.toNat - 48) : ℕ) := by
        push_cast
        ring
      have hadd : addDigit k c = (10 * k + (c.toNat - 48) : ℕ) := by
        unfold addDigit
        rw [hnat, unsigned_of_nonneg (by omega) (by omega), Int.toNat_natCast, signed_of_lt (by omega)]
      rw [List.foldl_cons, hadd]
      exact ⟨by omega, hsum⟩

/-- The words that a conversion takes; a misread one takes a word less. -/
theorem directive_words (hlength : spec.length = d.length.count) (args : Args) (k : ℕ) :
    (directive args spec d.letter.char k).2 + (if d.Misread then 1 else 0) = k + d.words := by
  obtain ⟨zero, width, precision, length, letter, _, _⟩ := d
  dsimp only at hlength
  unfold directive Directive.words Directive.Misread Directive.IsLongLong
  rw [hlength]
  cases letter <;> cases length <;> rfl

theorem stringText_eq (spec : Spec) (s : List Char) : ∃ blanks, stringText spec s = List.replicate blanks ' ' ++
    s.take (if 0 ≤ spec.precision ∧
      spec.precision.toNat < s.length then spec.precision.toNat else s.length) := by
  unfold stringText
  dsimp only
  split_ifs
  · exact ⟨_, rfl⟩
  · exact ⟨0, rfl⟩
  · exact ⟨_, rfl⟩
  · exact ⟨0, rfl⟩

theorem stringText_shows (hprecision : spec.precision = d.precisionValue) (s : List Char) : ∃ blanks n,
    stringText spec s = List.replicate blanks ' ' ++ s.take n ∧ (d.precision = none → n = s.length) ∧
      ∀ ds ∈ d.precision, ∀ m, readFrom 10 0 ds = some m → m < 2 ^ 31 → n = min m s.length := by
  obtain ⟨blanks, htext⟩ := stringText_eq spec s
  refine ⟨blanks, _, htext, ?_, ?_⟩
  · intro hnone
    have hvalue : spec.precision = -1 := by
      rw [hprecision]
      unfold Directive.precisionValue
      rw [hnone]
    rw [if_neg (by omega)]
  · intro ds hds m hread hm
    have hsum := (foldl_addDigit (d.precision_digits ds hds) hread hm).2
    have hvalue : spec.precision = m := by
      rw [hprecision]
      unfold Directive.precisionValue
      rw [Option.mem_def.mp hds]
      exact hsum
    rw [hvalue, Int.toNat_natCast]
    split_ifs <;> omega

/-- A conversion that is not misread shows its argument. -/
theorem directive_shows (hprecision : spec.precision = d.precisionValue)
    (hlength : spec.length = d.length.count)
    (hread : ¬d.Misread) (args : Args) (k : ℕ) : d.Shows args k (directive args spec d.letter.char k).1 := by
  have hlong (h : d.letter ∈ [Letter.d, .i, .x, .X]) : ¬d.IsLongLong := fun hlong => hread ⟨hlong.1, h⟩
  have hshort (h : d.letter = .p) : ¬d.IsLongLong := by
    rintro ⟨-, hmem⟩
    rw [h] at hmem
    simp at hmem
  have hcount : spec.length = 2 ↔ d.length = .longLong := by
    rw [hlength]
    cases d.length <;> decide
  unfold Directive.Shows directive
  cases hletter : d.letter with
  | c => exact rfl
  | s => exact stringText_shows hprecision _
  | d | i =>
      have hvalue : d.signedArg args k = signed 32 (args.word k).toNat := if_neg (hlong (by simp [hletter]))
      rw [hvalue]
      exact (numberText_renders (by decide) (by decide) _ _ _).reads
  | u =>
      have hiff : d.IsLongLong ↔ spec.length = 2 := by
        rw [hcount]
        exact and_iff_left (by simp [hletter])
      unfold Directive.unsignedArg
      rw [if_congr hiff rfl rfl]
      simp only [Letter.char, show caseOf 'u' = .unsigned from rfl]
      split_ifs
      · exact (numberText_renders (by decide) (by decide) _ _ _).reads
      · exact (numberText_renders (by decide) (by decide) _ _ _).reads
  | x | X =>
      have hvalue : d.unsignedArg args k = (args.word k).toNat := if_neg (hlong (by simp [hletter]))
      rw [hvalue]
      exact (numberText_renders (by decide) (by decide) _ _ _).reads
  | p =>
      have hvalue : d.unsignedArg args k = (args.word k).toNat := if_neg (hshort hletter)
      rw [hvalue]
      exact ⟨_, rfl, (numberText_renders (by decide) (by decide) _ _ _).reads⟩
  | percent => exact rfl

/-! ## The pieces one after the other -/

theorem rendering_directive (d : Directive) (args : Args) (rest : List Char) (k : ℕ) : ∃ spec : Spec,
    spec.precision = d.precisionValue ∧ spec.length = d.length.count ∧
    rendering args ((Piece.directive d).source ++ rest) k =
      ((directive args spec d.letter.char k).1 ++
        (rendering args rest (directive args spec d.letter.char k).2).1,
        (rendering args rest (directive args spec d.letter.char k).2).2) := by
  obtain ⟨zero, width, hspec⟩ := d.takeSpec_source rest
  have hsource : (Piece.directive d).source ++ rest = '%' :: (d.options ++ d.letter.char :: rest) := by
    unfold Piece.source
    rw [List.cons_append, List.append_assoc]
    rfl
  refine ⟨⟨zero, width, d.precisionValue, d.length.count⟩, rfl, rfl, ?_⟩
  rw [hsource, rendering_percent (congrArg Prod.snd hspec), hspec]

theorem source_cons (piece : Piece) (pieces : List Piece) : source (piece :: pieces) = piece.source ++
    source pieces :=
  List.flatMap_cons

/-- Each misread conversion takes a word less than it declares. -/
theorem rendering_words (args : Args) (pieces : List Piece) (k : ℕ) :
    (rendering args (source pieces) k).2 + pieces.countP (fun piece => piece.Misread)
      = k + declared pieces := by
  induction pieces generalizing k with
  | nil =>
      have hnil : rendering args (source []) k = ([], k) := rendering_nil args k
      rw [hnil]
      rfl
  | cons piece pieces ih =>
      have hdeclared : declared (piece :: pieces) = piece.words + declared pieces := List.sum_cons
      rw [source_cons, hdeclared, List.countP_cons]
      cases piece with
      | literal c hpercent hnul =>
          have heq : rendering args ((Piece.literal c hpercent hnul).source ++ source pieces) k = _ :=
            rendering_text hpercent
          have hword : (Piece.literal c hpercent hnul).words = 0 := rfl
          have hgood : ¬(decide (Piece.literal c hpercent hnul).Misread = true) := fun h => of_decide_eq_true h
          rw [heq, if_neg hgood, hword, Nat.zero_add]
          exact ih k
      | directive d =>
          obtain ⟨spec, -, hlength, heq⟩ := rendering_directive d args (source pieces) k
          have hwords := directive_words hlength args k
          have hrest := ih (directive args spec d.letter.char k).2
          have hmisread : (Piece.directive d).Misread ↔ d.Misread := Iff.rfl
          have hword : (Piece.directive d).words = d.words := rfl
          rw [heq, hword, if_congr (decide_eq_true_iff.trans hmisread) rfl rfl]
          dsimp only
          omega

theorem rendering_shows (args : Args) (hread : ∀ piece ∈ pieces, ¬piece.Misread) (k : ℕ) :
    (rendering args (source pieces) k).2 = k + declared pieces ∧
      ShowsAll args k pieces (rendering args (source pieces) k).1 := by
  induction pieces generalizing k with
  | nil =>
      have hnil : rendering args (source []) k = ([], k) := rendering_nil args k
      rw [hnil]
      exact ⟨rfl, .nil k⟩
  | cons piece pieces ih =>
      have hfirst := hread piece List.mem_cons_self
      have hdeclared : declared (piece :: pieces) = piece.words + declared pieces := List.sum_cons
      have hrest := ih fun piece hmem => hread piece (List.mem_cons_of_mem _ hmem)
      rw [source_cons, hdeclared]
      cases piece with
      | literal c hpercent hnul =>
          have heq : rendering args ((Piece.literal c hpercent hnul).source ++ source pieces) k = _ :=
            rendering_text hpercent
          obtain ⟨hwords, hshows⟩ := hrest k
          rw [heq]
          have hliteral : (Piece.literal c hpercent hnul).Shows args k [c] := rfl
          exact ⟨hwords.trans (by simp [Piece.words]), ShowsAll.cons hliteral hshows⟩
      | directive d =>
          obtain ⟨spec, hprecision, hlength, heq⟩ := rendering_directive d args (source pieces) k
          have hwords := directive_words hlength args k
          have hgood : ¬d.Misread := hfirst
          rw [if_neg hgood, Nat.add_zero] at hwords
          have hshows := directive_shows hprecision hlength hfirst args k
          obtain ⟨hwords', hshows'⟩ := hrest (k + d.words)
          rw [heq, hwords]
          exact ⟨hwords'.trans (Nat.add_assoc ..), .cons hshows hshows'⟩

/-! ## Both copies -/

theorem source_nul (pieces : List Piece) : '\x00' ∉ source pieces := by
  intro hmem
  obtain ⟨piece, -, hnul⟩ := List.mem_flatMap.mp hmem
  cases piece with
  | literal c hpercent hc => exact hc (List.mem_singleton.mp hnul).symm
  | directive d =>
      have hdigit (c : Char) (hc : isDigit c = true) : '\x00' ≠ c := fun heq =>
        Bool.false_ne_true ((show isDigit '\x00' = false by decide).symm.trans (heq ▸ hc))
      unfold Piece.source Directive.options at hnul
      simp only [List.mem_cons, List.mem_append, List.not_mem_nil, or_false] at hnul
      rcases hnul with hpercent | ((hzero | hwidth | hprecision | hlength) | hletter)
      · exact absurd hpercent (by decide)
      · split_ifs at hzero
        · exact absurd (List.mem_singleton.mp hzero) (by decide)
        · exact List.not_mem_nil hzero
      · exact hdigit _ (d.width_digits _ hwidth) rfl
      · unfold Directive.precisionSource at hprecision
        cases hds : d.precision with
        | none =>
            rw [hds] at hprecision
            exact List.not_mem_nil hprecision
        | some ds =>
            rw [hds] at hprecision
            rcases List.mem_cons.mp hprecision with hdot | hmem'
            · exact absurd hdot (by decide)
            · exact hdigit _ (d.precision_digits ds hds _ hmem') rfl
      · cases hl : d.length <;> rw [hl] at hlength <;> simp [Length.source] at hlength
      · exact (Directive.letter_char d.letter).2.2.2 hletter.symm

/-- The arguments of a format are printed exactly when no `long long` is taken as one word. -/
theorem printsArguments_iff (args : Args) (pieces : List Piece) :
    PrintsArguments args pieces ↔ ∀ piece ∈ pieces, ¬piece.Misread := by
  have hkfmt := kfmt_eq args (source_nul pieces)
  constructor
  · rintro ⟨text, hrun, -⟩
    rw [hkfmt] at hrun
    have hwords := rendering_words args pieces 0
    rw [Option.some.inj hrun, Nat.zero_add] at hwords
    have hzero : pieces.countP (fun piece => piece.Misread) = 0 := Nat.add_eq_left.mp hwords
    intro piece hmem hmisread
    exact List.countP_eq_zero.mp hzero piece hmem (decide_eq_true hmisread)
  · intro hread
    obtain ⟨hwords, hshows⟩ := rendering_shows args hread 0
    rw [Nat.zero_add] at hwords
    refine ⟨(rendering args (source pieces) 0).1, ?_, ?_, hshows⟩
    · rw [hkfmt, ← hwords]
    · rw [libcKfmt_eq, hkfmt, ← hwords]

/-- Formats are never read behind their end. Each argument is printed and no word is left or
taken twice exactly when no `d`, `i`, `x` or `X` has the length `ll`. -/
theorem arguments_printed_iff (args : Args) (fmt : List Char) (pieces : List Piece) :
    ('\x00' ∉ fmt → (kfmt args fmt).isSome ∧ (libcKfmt args fmt).isSome) ∧
      (PrintsArguments args pieces ↔ ∀ piece ∈ pieces, ¬piece.Misread) := by
  constructor
  · intro hnul
    rw [libcKfmt_eq, kfmt_eq args hnul]
    exact ⟨rfl, rfl⟩
  · exact printsArguments_iff args pieces

/-- `%5lu %s` -/
theorem arguments_printed_iff_long :
    (kfmt ⟨fun _ => 7, fun _ => ['a']⟩ ['%', '5', 'l', 'u', ' ', '%']).isSome :=
  ((arguments_printed_iff ⟨fun _ => 7, fun _ => ['a']⟩ ['%', '5', 'l', 'u', ' ', '%'] []).1 (by decide)).1

/-- `%lld` takes the low word. -/
theorem not_arguments_printed : ¬PrintsArguments ⟨fun _ => 7, fun _ => ['a']⟩
    [.directive ⟨false, [], none, .longLong, .d, by simp, by simp⟩] := by
  intro hprints
  have hread := (printsArguments_iff ..).mp hprints _ List.mem_cons_self
  exact hread ⟨rfl, by decide⟩

end Ferrite.Text
