import Ferrite.Text.Numbers

/-!
# Formatting

`kfmt` walks over the format with a pointer and takes words from the argument list. Reading
behind the NUL has no result. The C library has a copy that calls its own `simple_number`.

`rendering` is what the walk comes to: the format is taken apart from the front, and each
conversion gives a text. The buffer is the list of the characters that are written.
-/
namespace Ferrite.Text
open Numerals Word

/-- A pointer into a text: the characters in front of it, the nearest first, and those from it
on, with the NUL. -/
structure Cursor where
  before : List Char
  after : List Char

namespace Cursor
variable (p : Cursor)

/-- `*p`. -/
def get : Option Char := p.after.head?
def next : Cursor := ⟨p.after.take 1 ++ p.before, p.after.drop 1⟩
def back : Cursor := ⟨p.before.drop 1, p.before.take 1 ++ p.after⟩

end Cursor

/-- The words of the argument list, and the strings at the addresses. -/
structure Args where
  word : ℕ → BitVec 32
  string : BitVec 32 → List Char

/-- The flag, the width, the precision or -1, and the number of letters `l`. -/
structure Spec where
  zeroPad : Bool
  width : ℤ
  precision : ℤ
  length : ℕ
deriving DecidableEq

def isDigit (c : Char) : Bool := '0' ≤ c && c ≤ '9'

/-- `n * 10 + (c - '0')` in an `int`. -/
def addDigit (n : ℤ) (c : Char) : ℤ := signed 32 (unsigned 32 (n * 10 + (c.toNat - 48 : ℕ)))

/-- The loops over the digits of the width and of the precision. -/
def numberLoop : List Char → List Char → ℤ → Option (ℤ × Cursor)
  | _, [], _ => none
  | before, c :: after, n =>
      if isDigit c then numberLoop (c :: before) after (addDigit n c) else some (n, ⟨before, c :: after⟩)

/-- A `.` and the digits behind it. -/
def readPrecision (p : Cursor) : Option (ℤ × Cursor) := do
  let c ← p.get
  if c = '.' then numberLoop p.next.before p.next.after 0 else return (-1, p)

/-- `l` or `ll`. -/
def readLength (p : Cursor) : Option (ℕ × Cursor) := do
  let c ← p.get
  if c = 'l' then
    let c ← p.next.get
    if c = 'l' then return (2, p.next.next) else return (1, p.next)
  else return (0, p)

/-- What stands between the percent sign and the letter of the conversion. -/
def readSpec (p : Cursor) : Option (Spec × Cursor) := do
  let c ← p.get
  let zeroPad : Bool := c = '0'
  let p := if zeroPad then p.next else p
  let (width, p) ← numberLoop p.before p.after 0
  let (precision, p) ← readPrecision p
  let (length, p) ← readLength p
  return (⟨zeroPad, width, precision, length⟩, p)

/-- The cases of the `switch`. -/
inductive Case
  | char | string | hex | pointer | signed | unsigned | percent | other
deriving DecidableEq, Repr

def caseOf (c : Char) : Case :=
  if c = 'c' then .char
  else if c = 's' then .string
  else if c = 'x' ∨ c = 'X' then .hex
  else if c = 'p' then .pointer
  else if c = 'd' ∨ c = 'i' then .signed
  else if c = 'u' then .unsigned
  else if c = '%' then .percent
  else .other

/-- The case of `s`; the lengths are of 32 bits. -/
def stringText (spec : Spec) (s : List Char) : List Char :=
  let len := if 0 ≤ spec.precision ∧ spec.precision.toNat < s.length then spec.precision.toNat else s.length
  (if signed 32 len < spec.width then List.replicate
    (signed 32 (unsigned 32 (spec.width - len))).toNat ' ' else []) ++
    s.take len

def Args.stringAt (args : Args) (k : ℕ) : List Char :=
  if args.word k = 0 then ['<', 'N', 'U', 'L', 'L', '>'] else args.string (args.word k)

/-- `va_arg` of a `long long`, of two words. -/
def Args.longLong (args : Args) (k : ℕ) : ℕ := (args.word k).toNat + 2 ^ 32 * (args.word (k + 1)).toNat

/-- `simple_number`. -/
abbrev NumberFn := ℤ → ℕ → Bool → ℤ → Bool → Option (List Char)

/-- The `switch`: the text, the pointer and the next argument. At the end of the format the
pointer goes back to what stands in front of it. -/
def convert (number : NumberFn) (args : Args) (spec : Spec) (c : Char) (p : Cursor) (k : ℕ) :
    Option (List Char × Cursor × ℕ) :=
  let long := signed 32 (args.word k).toNat
  match caseOf c with
  | .char => some ([Char.ofNat ((args.word k).toNat % 256)], p, k + 1)
  | .string => some (stringText spec (args.stringAt k), p, k + 1)
  | .hex => (number long 16 false spec.width spec.zeroPad).map fun text => (text, p, k + 1)
  | .pointer => (number long 16 false 8 true).map fun text => ('0' :: 'x' :: text, p, k + 1)
  | .signed => (number long 10 true spec.width spec.zeroPad).map fun text => (text, p, k + 1)
  | .unsigned =>
      if spec.length = 2 then
        (simpleNumber64 (args.longLong k) 10 false spec.width spec.zeroPad).map fun text => (text, p, k + 2)
      else (number long 10 false spec.width spec.zeroPad).map fun text => (text, p, k + 1)
  | .percent => some (['%'], p, k)
  | .other => if c ≠ '\x00' then some (['%', c], p, k) else some (['%'], p.back, k)

/-- The loop over the format; a format has no more turns than characters. -/
def kfmtLoop (number : NumberFn) (args : Args) : ℕ → Cursor → ℕ → Option (List Char × ℕ)
  | 0, _, _ => none
  | fuel + 1, p, k => do
      let c ← p.get
      if c = '\x00' then return ([], k)
      else if c ≠ '%' then
        let r ← kfmtLoop number args fuel p.next k
        return (c :: r.1, r.2)
      else
        let (spec, p) ← readSpec p.next
        let c ← p.get
        let (text, p, k) ← convert number args spec c p k
        let r ← kfmtLoop number args fuel p.next k
        return (text ++ r.1, r.2)

/-- The characters in front of the NUL that `kfmt` writes, and how many words it takes. -/
def kfmt (args : Args) (fmt : List Char) : Option (List Char × ℕ) :=
  kfmtLoop simpleNumber args (fmt.length + 1) ⟨[], fmt ++ ['\x00']⟩ 0

/-- `kfmt` of the C library. -/
def libcKfmt (args : Args) (fmt : List Char) : Option (List Char × ℕ) :=
  kfmtLoop libcSimpleNumber args (fmt.length + 1) ⟨[], fmt ++ ['\x00']⟩ 0

/-! ## The rendering of a format -/

def takeNumber : List Char → ℤ → ℤ × List Char
  | [], n => (n, [])
  | c :: rest, n => if isDigit c then takeNumber rest (addDigit n c) else (n, c :: rest)

def takePrecision (fmt : List Char) : ℤ × List Char :=
  match fmt with
  | [] => (-1, [])
  | c :: rest => if c = '.' then takeNumber rest 0 else (-1, c :: rest)

def takeLength (fmt : List Char) : ℕ × List Char :=
  match fmt with
  | [] => (0, [])
  | c :: rest =>
      if c = 'l' then
        match rest with
        | [] => (1, [])
        | c' :: rest' => if c' = 'l' then (2, rest') else (1, c' :: rest')
      else (0, c :: rest)

def takeZero (fmt : List Char) : Bool × List Char :=
  match fmt with
  | [] => (false, [])
  | c :: rest => if c = '0' then (true, rest) else (false, c :: rest)

def takeSpec (fmt : List Char) : Spec × List Char :=
  let zero := takeZero fmt
  let width := takeNumber zero.2 0
  let precision := takePrecision width.2
  let length := takeLength precision.2
  (⟨zero.1, width.1, precision.1, length.1⟩, length.2)

/-- The text of a conversion and the next argument. -/
def directive (args : Args) (spec : Spec) (c : Char) (k : ℕ) : List Char × ℕ :=
  match caseOf c with
  | .char => ([Char.ofNat ((args.word k).toNat % 256)], k + 1)
  | .string => (stringText spec (args.stringAt k), k + 1)
  | .hex => (numberText 16 (args.word k).toNat spec.width spec.zeroPad, k + 1)
  | .pointer => ('0' :: 'x' :: numberText 16 (args.word k).toNat 8 true, k + 1)
  | .signed => (numberText 10 (signed 32 (args.word k).toNat) spec.width spec.zeroPad, k + 1)
  | .unsigned =>
      if spec.length = 2 then (numberText 10 (args.longLong k) spec.width spec.zeroPad, k + 2)
      else (numberText 10 (args.word k).toNat spec.width spec.zeroPad, k + 1)
  | .percent => (['%'], k)
  | .other => (['%', c], k)

theorem takeNumber_suffix (fmt : List Char) (n : ℤ) : (takeNumber fmt n).2 <:+ fmt := by
  induction fmt generalizing n with
  | nil => exact List.suffix_rfl
  | cons c rest ih =>
      unfold takeNumber
      split_ifs
      · exact (ih _).trans (List.suffix_cons c rest)
      · exact List.suffix_rfl

theorem takeZero_suffix (fmt : List Char) : (takeZero fmt).2 <:+ fmt := by
  cases fmt with
  | nil => exact List.suffix_rfl
  | cons c rest =>
      unfold takeZero
      dsimp only
      split_ifs
      · exact List.suffix_cons c rest
      · exact List.suffix_rfl

theorem takePrecision_suffix (fmt : List Char) : (takePrecision fmt).2 <:+ fmt := by
  cases fmt with
  | nil => exact List.suffix_rfl
  | cons c rest =>
      unfold takePrecision
      dsimp only
      split_ifs
      · exact (takeNumber_suffix rest 0).trans (List.suffix_cons c rest)
      · exact List.suffix_rfl

theorem takeLength_suffix (fmt : List Char) : (takeLength fmt).2 <:+ fmt := by
  cases fmt with
  | nil => exact List.suffix_rfl
  | cons c rest =>
      unfold takeLength
      dsimp only
      split_ifs
      · cases rest with
        | nil => exact List.suffix_cons c []
        | cons c' rest' =>
            dsimp only
            split_ifs
            · exact (List.suffix_cons c' rest').trans (List.suffix_cons c _)
            · exact List.suffix_cons c _
      · exact List.suffix_rfl

/-- What is behind the specification is a part of the format. -/
theorem takeSpec_suffix (fmt : List Char) : (takeSpec fmt).2 <:+ fmt :=
  (takeLength_suffix _).trans
    ((takePrecision_suffix _).trans ((takeNumber_suffix ..).trans (takeZero_suffix fmt)))

/-- What a format is rendered to, from an argument on. -/
def rendering (args : Args) (fmt : List Char) (k : ℕ) : List Char × ℕ :=
  match fmt with
  | [] => ([], k)
  | c :: rest =>
      if c ≠ '%' then
        let r := rendering args rest k
        (c :: r.1, r.2)
      else
        match _h : (takeSpec rest).2 with
        | [] => (['%'], k)
        | d :: rest' =>
            let t := directive args (takeSpec rest).1 d k
            let r := rendering args rest' t.2
            (t.1 ++ r.1, r.2)
termination_by fmt.length
decreasing_by
  · exact Nat.lt_succ_self _
  · have hle := (takeSpec_suffix rest).length_le
    rw [_h] at hle
    exact hle.trans (Nat.le_succ _)

variable {args : Args} {fmt before : List Char} {spec : Spec} {c : Char} {n : ℤ} {k fuel : ℕ}

theorem rendering_nil (args : Args) (k : ℕ) : rendering args [] k = ([], k) := by
  rw [rendering]

theorem rendering_text (hc : c ≠ '%') : rendering args (c :: fmt) k =
    (c :: (rendering args fmt k).1, (rendering args fmt k).2) := by
  rw [rendering, if_pos hc]

theorem rendering_percent_end (hspec : (takeSpec fmt).2 = []) : rendering args ('%' :: fmt) k = (['%'], k) := by
  rw [rendering, if_neg (not_not.mpr rfl)]
  split
  · rfl
  · simp_all

theorem rendering_percent {rest : List Char} (hspec : (takeSpec fmt).2 = c :: rest) :
    rendering args ('%' :: fmt) k =
    ((directive args (takeSpec fmt).1 c k).1 ++ (rendering args rest (directive args (takeSpec fmt).1 c k).2).1,
      (rendering args rest (directive args (takeSpec fmt).1 c k).2).2) := by
  rw [rendering, if_neg (not_not.mpr rfl)]
  split
  · simp_all
  · rename_i d rest' heq
    obtain ⟨rfl, rfl⟩ := List.cons.inj (heq.symm.trans hspec)
    rfl

/-! ## The walk is the rendering -/

/-- The pointer in front of the rest of a format. -/
theorem Cursor.get_append (before fmt : List Char) : (⟨before, fmt ++ ['\x00']⟩ : Cursor).get = some
    (fmt.head?.getD '\x00') := by
  cases fmt <;> rfl

theorem numberLoop_eq (hb : before ≠ []) (fmt : List Char) (n : ℤ) : ∃ b, b ≠ [] ∧
    numberLoop before (fmt ++ ['\x00']) n = some
      ((takeNumber fmt n).1, ⟨b, (takeNumber fmt n).2 ++ ['\x00']⟩) := by
  induction fmt generalizing before n with
  | nil => exact ⟨before, hb, rfl⟩
  | cons c rest ih =>
      rw [List.cons_append]
      unfold numberLoop takeNumber
      split_ifs
      · exact ih (List.cons_ne_nil c before) _
      · exact ⟨before, hb, rfl⟩

theorem zero_eq (hb : before ≠ []) (fmt : List Char) : ∃ b, b ≠ [] ∧ decide (fmt.head?.getD '\x00' = '0') =
    (takeZero fmt).1 ∧
    (if (takeZero fmt).1 then (⟨before, fmt ++ ['\x00']⟩ : Cursor).next else ⟨before, fmt ++ ['\x00']⟩) =
      ⟨b, (takeZero fmt).2 ++ ['\x00']⟩ := by
  cases fmt with
  | nil => exact ⟨before, hb, rfl, rfl⟩
  | cons c rest =>
      by_cases hc : c = '0'
      · have hz : takeZero (c :: rest) = (true, rest) := if_pos hc
        rw [hz]
        exact ⟨c :: before, List.cons_ne_nil c before, decide_eq_true hc, rfl⟩
      · have hz : takeZero (c :: rest) = (false, c :: rest) := if_neg hc
        rw [hz]
        exact ⟨before, hb, decide_eq_false hc, rfl⟩

theorem readPrecision_eq (hb : before ≠ []) (fmt : List Char) : ∃ b, b ≠ [] ∧
    readPrecision ⟨before, fmt ++ ['\x00']⟩ = some
      ((takePrecision fmt).1, ⟨b, (takePrecision fmt).2 ++ ['\x00']⟩) := by
  unfold readPrecision
  rw [Cursor.get_append]
  cases fmt with
  | nil => exact ⟨before, hb, rfl⟩
  | cons c rest =>
      unfold takePrecision
      dsimp only [List.head?_cons, Option.getD_some, Option.bind_eq_bind, Option.bind_some]
      split_ifs
      · exact numberLoop_eq (List.cons_ne_nil c before) rest 0
      · exact ⟨before, hb, rfl⟩

theorem readLength_eq (hb : before ≠ []) (fmt : List Char) : ∃ b, b ≠ [] ∧
    readLength ⟨before, fmt ++ ['\x00']⟩ = some ((takeLength fmt).1, ⟨b, (takeLength fmt).2 ++ ['\x00']⟩) := by
  unfold readLength
  rw [Cursor.get_append]
  cases fmt with
  | nil => exact ⟨before, hb, rfl⟩
  | cons c rest =>
      have hnext : (⟨before, c :: rest ++ ['\x00']⟩ : Cursor).next = ⟨c :: before, rest ++ ['\x00']⟩ := rfl
      unfold takeLength
      dsimp only [List.head?_cons, Option.getD_some, Option.bind_eq_bind, Option.bind_some]
      rw [hnext, Cursor.get_append]
      split_ifs
      · cases rest with
        | nil => exact ⟨c :: before, List.cons_ne_nil c before, rfl⟩
        | cons c' rest' =>
            dsimp only [List.head?_cons, Option.getD_some, Option.bind_some]
            split_ifs
            · exact ⟨c' :: c :: before, List.cons_ne_nil c' _, rfl⟩
            · exact ⟨c :: before, List.cons_ne_nil c before, rfl⟩
      · exact ⟨before, hb, rfl⟩

/-- The specification is read as it is taken from the format. -/
theorem readSpec_eq (hb : before ≠ []) (fmt : List Char) : ∃ b, b ≠ [] ∧
    readSpec ⟨before, fmt ++ ['\x00']⟩ = some ((takeSpec fmt).1, ⟨b, (takeSpec fmt).2 ++ ['\x00']⟩) := by
  obtain ⟨b₁, hb₁, hzero, hnext⟩ := zero_eq hb fmt
  obtain ⟨b₂, hb₂, hwidth⟩ := numberLoop_eq hb₁ (takeZero fmt).2 0
  obtain ⟨b₃, hb₃, hprecision⟩ := readPrecision_eq hb₂ (takeNumber (takeZero fmt).2 0).2
  obtain ⟨b₄, hb₄, hlength⟩ := readLength_eq hb₃ (takePrecision (takeNumber (takeZero fmt).2 0).2).2
  refine ⟨b₄, hb₄, ?_⟩
  unfold readSpec
  simp only [Cursor.get_append, Option.bind_eq_bind, Option.bind_some, hzero, hnext, hwidth,
    hprecision, hlength]
  rfl

/-- A conversion writes its text. -/
theorem convert_eq (args : Args) (spec : Spec) (hc : c ≠ '\x00') (p : Cursor) (k : ℕ) :
    convert simpleNumber args spec c p k = some
      ((directive args spec c k).1, p, (directive args spec c k).2) := by
  have hword := (args.word k).isLt
  have hrange := signed_range (args.word k).toNat
  have hlong : args.longLong k < 2 ^ 64 := by
    have hnext := (args.word (k + 1)).isLt
    unfold Args.longLong
    omega
  unfold convert directive
  cases caseOf c with
  | char => rfl
  | string => rfl
  | hex =>
      dsimp only
      rw [simpleNumber_unsigned (.inr rfl) hword]
      rfl
  | pointer =>
      dsimp only
      rw [simpleNumber_unsigned (.inr rfl) hword]
      rfl
  | signed =>
      dsimp only
      rw [simpleNumber_signed hrange.1 hrange.2]
      rfl
  | unsigned =>
      dsimp only
      split_ifs
      · rw [simpleNumber64_eq hlong]
        rfl
      · rw [simpleNumber_unsigned (.inl rfl) hword]
        rfl
  | percent => rfl
  | other => exact if_pos hc

theorem convert_nul (number : NumberFn) (args : Args) (spec : Spec) (p : Cursor) (k : ℕ) :
    convert number args spec '\x00' p k = some (['%'], p.back, k) := rfl

theorem kfmtLoop_eq (args : Args) (hnul : '\x00' ∉ fmt) (hfuel : fmt.length < fuel)
    (before : List Char) (k : ℕ) :
    kfmtLoop simpleNumber args fuel ⟨before, fmt ++ ['\x00']⟩ k = some (rendering args fmt k) := by
  induction fuel generalizing fmt before k with
  | zero => exact absurd hfuel (Nat.not_lt_zero _)
  | succ fuel ih =>
      cases fmt with
      | nil =>
          rw [rendering_nil]
          rfl
      | cons c rest =>
          obtain ⟨hc, hrest⟩ := not_or.mp (List.mem_cons.not.mp hnul)
          have hlt : rest.length < fuel := Nat.lt_of_succ_lt_succ hfuel
          have hget : (⟨before, c :: rest ++ ['\x00']⟩ : Cursor).get = some c := rfl
          have hnext : (⟨before, c :: rest ++ ['\x00']⟩ : Cursor).next = ⟨c :: before, rest ++ ['\x00']⟩ := rfl
          unfold kfmtLoop
          rw [hget, hnext]
          dsimp only [Option.bind_eq_bind, Option.bind_some]
          rw [if_neg (Ne.symm hc)]
          by_cases hpercent : c = '%'
          · rw [if_neg (not_not.mpr hpercent), hpercent]
            obtain ⟨b, hb, hspec⟩ := readSpec_eq (List.cons_ne_nil '%' before) rest
            rw [hspec]
            dsimp only [Option.bind_some]
            cases htake : (takeSpec rest).2 with
            | nil =>
                -- The pointer goes back, and forth again to the NUL.
                obtain ⟨d, b', rfl⟩ := List.exists_cons_of_ne_nil hb
                have hend : (⟨d :: b', ['\x00']⟩ : Cursor).get = some '\x00' := rfl
                have hback : (⟨d :: b', ['\x00']⟩ : Cursor).back.next = ⟨d :: b', [] ++ ['\x00']⟩ := rfl
                rw [rendering_percent_end htake, List.nil_append, hend, Option.bind_some, convert_nul,
                  Option.bind_some]
                dsimp only
                rw [hback, ih List.not_mem_nil (Nat.lt_of_le_of_lt (Nat.zero_le _) hlt), rendering_nil]
                rfl
            | cons d rest' =>
                have hsuffix : d :: rest' <:+ rest := htake ▸ takeSpec_suffix rest
                have hd : d ≠ '\x00' := fun heq => hrest (hsuffix.subset (heq ▸ List.mem_cons_self))
                have hrest' : '\x00' ∉ rest' := fun hmem => hrest (hsuffix.subset (List.mem_cons_of_mem d hmem))
                have hshort : rest'.length < fuel := (Nat.le_of_succ_le hsuffix.length_le).trans_lt hlt
                have hletter : (⟨b, d :: rest' ++ ['\x00']⟩ : Cursor).get = some d := rfl
                have hfollow : (⟨b, d :: rest' ++ ['\x00']⟩ : Cursor).next = ⟨d :: b, rest' ++ ['\x00']⟩ := rfl
                rw [rendering_percent htake, hletter, Option.bind_some, convert_eq args _ hd, Option.bind_some]
                dsimp only
                rw [hfollow, ih hrest' hshort]
                rfl
          · rw [if_pos hpercent, ih hrest hlt, rendering_text hpercent]
            rfl

/-- `kfmt` stays in the format and writes its rendering. -/
theorem kfmt_eq (args : Args) (hnul : '\x00' ∉ fmt) : kfmt args fmt = some (rendering args fmt 0) :=
  kfmtLoop_eq args hnul (Nat.lt_succ_self _) [] 0

theorem convert_libc : convert libcSimpleNumber = convert simpleNumber := by
  funext args spec c p k
  have hrange := signed_range (args.word k).toNat
  unfold convert
  simp only [libcSimpleNumber_eq hrange.1 hrange.2]

/-- The copy of the C library does the same. -/
theorem libcKfmt_eq (args : Args) (fmt : List Char) : libcKfmt args fmt = kfmt args fmt := by
  have hloop (fuel : ℕ) (p : Cursor) (k : ℕ) : kfmtLoop libcSimpleNumber args fuel p k
      = kfmtLoop simpleNumber args fuel p k := by
    induction fuel generalizing p k with
    | zero => rfl
    | succ fuel ih =>
        unfold kfmtLoop
        simp only [convert_libc, ih]
  exact hloop ..

end Ferrite.Text
