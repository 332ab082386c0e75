import Ferrite.Library.Fields

/-!
# The words of a command line

`parse` walks over the line, puts a NUL behind each word and the address of the word into the
argument vector, which is closed by a zero. A pointer is an offset in the line; a store behind
the last entry of the vector, or outside of the line, has no result. Neither loop looks at the
number of entries.
-/
namespace Ferrite.User
open Fields

def maxArgs : ℕ := 32

/-- `while (*line == ' ') line++`, on the characters from the pointer on. -/
def skipBlanks : List Char → ℕ → Option ℕ
  | [], _ => none
  | c :: rest, p => if c = ' ' then skipBlanks rest (p + 1) else some p

/-- `while (*line && *line != ' ') line++`. -/
def skipWord : List Char → ℕ → Option ℕ
  | [], _ => none
  | c :: rest, p => if c ≠ '\x00' ∧ c ≠ ' ' then skipWord rest (p + 1) else some p

/-- `argv[argc++] = value`. -/
def pushArg {A : Type*} (argv : List A) (value : A) : Option (List A) :=
  if argv.length < maxArgs then some (argv ++ [value]) else none

/-- The outer loop; each turn goes on by a character. -/
def parseLoop : ℕ → List Char → ℕ → List (Option ℕ) → Option (List Char × List (Option ℕ))
  | 0, _, _, _ => none
  | fuel + 1, chars, p, argv => do
      let c ← chars[p]?
      if c = '\x00' then return (chars, argv)
      let p ← skipBlanks (chars.drop p) p
      let c ← chars[p]?
      if c = '\x00' then return (chars, argv)
      let argv ← pushArg argv (some p)
      let p ← skipWord (chars.drop p) p
      let c ← chars[p]?
      if c = '\x00' then parseLoop fuel chars p argv
      else parseLoop fuel (chars.set p '\x00') (p + 1) argv

/-- The number of arguments, the entries that are stored, and the line. -/
def parse (chars : List Char) : Option (ℕ × List (Option ℕ) × List Char) := do
  let (chars', argv) ← parseLoop (chars.length + 1) chars 0 []
  let entries ← pushArg argv none
  return (argv.length, entries, chars')

/-! ## The words -/

def isBlank (c : Char) : Bool := c = ' '

/-- The string that begins at an offset. -/
def StringAt (line : List Char) (p : ℕ) (s : List Char) : Prop := s ++ ['\x00'] <+: line.drop p

/-- The vector holds the words of the text in their order and a zero, each word is a string of
the line, and what stands behind the text stays. -/
structure Tokenized (text tail : List Char) (argc : ℕ) (entries : List (Option ℕ)) (line : List Char)
    (words : List (ℕ × List Char)) : Prop where
  runs : ∀ p w, (p, w) ∈ words ↔ IsField isBlank text p w
  sorted : words.Pairwise fun f g => f.1 < g.1
  number : argc = words.length
  stored : entries = words.map (fun f => some f.1) ++ [none]
  closed : ∀ f ∈ words, StringAt line f.1 f.2
  kept : ∃ text', text'.length = text.length ∧ line = text' ++ '\x00' :: tail

variable {text tail rest w done : List Char} {argv : List (Option ℕ)} {p fuel : ℕ} {c : Char}

theorem skipBlanks_blanks (n : ℕ) (hc : c ≠ ' ') (p : ℕ) :
    skipBlanks (List.replicate n ' ' ++ c :: rest) p = some (p + n) := by
  induction n generalizing p with
  | zero => exact if_neg hc
  | succ n ih =>
      have hstep : skipBlanks (List.replicate (n + 1) ' ' ++ c :: rest) p =
          skipBlanks (List.replicate n ' ' ++ c :: rest) (p + 1) := if_pos rfl
      rw [hstep, ih, Nat.add_assoc, Nat.add_comm 1]

theorem skipWord_letters (hw : ∀ a ∈ w, a ≠ '\x00' ∧ a ≠ ' ') (hc : c = '\x00' ∨ c = ' ') (p : ℕ) :
    skipWord (w ++ c :: rest) p = some (p + w.length) := by
  induction w generalizing p with
  | nil => exact if_neg fun h => hc.elim h.1 h.2
  | cons a w ih =>
      have hstep : skipWord (a :: w ++ c :: rest) p = skipWord (w ++ c :: rest) (p + 1) :=
        if_pos (hw a List.mem_cons_self)
      rw [hstep, ih fun b hb => hw b (List.mem_cons_of_mem a hb), List.length_cons,
        Nat.add_assoc, Nat.add_comm 1]

theorem get_length (done rest : List Char) : (done ++ rest)[done.length]? = rest.head? := by
  rw [List.getElem?_append_right le_rfl, Nat.sub_self, List.head?_eq_getElem?]

theorem set_length (done rest : List Char) (c : Char) :
    (done ++ c :: rest).set done.length '\x00' = done ++ '\x00' :: rest := by
  rw [List.set_append_right _ _ le_rfl, Nat.sub_self]
  rfl

theorem drop_blanks (n : ℕ) (done rest : List Char) :
    (done ++ (List.replicate n ' ' ++ rest)).drop (done.length + n) = rest := by
  have hlength : done.length + n = (done ++ List.replicate n ' ').length := by simp
  rw [hlength, ← List.append_assoc, List.drop_left]

theorem fieldsFrom_blanks (n p : ℕ) (rest : List Char) :
    fieldsFrom isBlank p (List.replicate n ' ' ++ rest) = fieldsFrom isBlank (p + n) rest := by
  induction n generalizing p with
  | zero => rfl
  | succ n ih =>
      rw [List.replicate_succ, List.cons_append, fieldsFrom_sep rfl, ih, Nat.add_assoc, Nat.add_comm 1]

/-- Blanks, and then a word or the end. -/
theorem blanks_cases (rest : List Char) : ∃ n, rest = List.replicate n ' ' ∨
    ∃ c w rest', rest = List.replicate n ' ' ++ (c :: w ++ rest') ∧ (∀ a ∈ c :: w, isBlank a = false) ∧
      StartsApart isBlank rest' := by
  induction rest using text_induction isBlank with
  | nil => exact ⟨0, .inl rfl⟩
  | separator a rest ha ih =>
      obtain rfl : a = ' ' := of_decide_eq_true ha
      obtain ⟨n, rfl | ⟨c, w, rest', rfl, hw, hrest⟩⟩ := ih
      · exact ⟨n + 1, .inl rfl⟩
      · exact ⟨n + 1, .inr ⟨c, w, rest', rfl, hw, hrest⟩⟩
  | word w rest hne hw hrest _ =>
      obtain ⟨c, w, rfl⟩ := List.exists_cons_of_ne_nil hne
      exact ⟨0, .inr ⟨c, w, rest, rfl, hw, hrest⟩⟩

/-- A turn over blanks up to the end. -/
theorem parseLoop_end (fuel n : ℕ) (done tail : List Char) (argv : List (Option ℕ)) :
    parseLoop (fuel + 1) (done ++ (List.replicate n ' ' ++ '\x00' :: tail)) done.length argv =
      some (done ++ (List.replicate n ' ' ++ '\x00' :: tail), argv) := by
  have hskip : skipBlanks (List.replicate n ' ' ++ '\x00' :: tail) done.length = some (done.length + n) :=
    skipBlanks_blanks n (by decide) done.length
  have hend : (done ++ (List.replicate n ' ' ++ '\x00' :: tail))[done.length + n]? = some '\x00' := by
    have hlength : done.length + n = (done ++ List.replicate n ' ').length := by simp
    rw [hlength, ← List.append_assoc, get_length]
    rfl
  unfold parseLoop
  rw [get_length, List.drop_left]
  cases n with
  | zero => rfl
  | succ n =>
      have hhead : (List.replicate (n + 1) ' ' ++ '\x00' :: tail).head? = some ' ' := rfl
      rw [hhead]
      dsimp only [Option.bind_eq_bind, Option.bind_some]
      rw [if_neg (by decide), hskip, Option.bind_some, hend]
      rfl

/-- A turn over blanks and a word. -/
theorem parseLoop_word (fuel n : ℕ) (done : List Char) (hc : ∀ a ∈ c :: w, a ≠ '\x00' ∧ a ≠ ' ')
    {e : Char} (he : e = '\x00' ∨ e = ' ') (rest : List Char) (argv : List (Option ℕ)) :
    parseLoop (fuel + 1) (done ++ (List.replicate n ' ' ++ (c :: w ++ e :: rest))) done.length argv =
      (pushArg argv (some (done.length + n))).bind fun argv =>
        if e = '\x00' then parseLoop fuel (done ++ (List.replicate n ' ' ++ (c :: w ++ e :: rest)))
          (done ++ (List.replicate n ' ' ++ c :: w)).length argv
        else parseLoop fuel (done ++ (List.replicate n ' ' ++ (c :: w ++ '\x00' :: rest)))
          (done ++ (List.replicate n ' ' ++ (c :: w ++ ['\x00']))).length argv := by
  have hfirst := hc c List.mem_cons_self
  have hblanks : done.length + n = (done ++ List.replicate n ' ').length := by simp
  have hbehind : done.length + n + (c :: w).length = (done ++ (List.replicate n ' ' ++ c :: w)).length := by
    simp [Nat.add_assoc]
  have hskip : skipBlanks (List.replicate n ' ' ++ (c :: w ++ e :: rest)) done.length = some
      (done.length + n) :=
    skipBlanks_blanks n hfirst.2 done.length
  have hword : skipWord (c :: w ++ e :: rest) (done.length + n) = some (done.length + n + (c :: w).length) :=
    skipWord_letters hc he (done.length + n)
  have hstart : (done ++ (List.replicate n ' ' ++ (c :: w ++ e :: rest)))[done.length + n]? = some c := by
    rw [hblanks, ← List.append_assoc, get_length]
    rfl
  have hdrop : (done ++ (List.replicate n ' ' ++ (c :: w ++ e :: rest))).drop (done.length + n)
      = c :: w ++ e :: rest :=
    drop_blanks n done _
  have hline : done ++ (List.replicate n ' ' ++ (c :: w ++ e :: rest)) =
      (done ++ (List.replicate n ' ' ++ c :: w)) ++ e :: rest := by simp
  have hend : (done ++ (List.replicate n ' ' ++ (c :: w ++ e :: rest)))[done.length + n +
      (c :: w).length]? = some e := by
    rw [hbehind, hline, get_length]
    rfl
  have hset : (done ++ (List.replicate n ' ' ++ (c :: w ++ e :: rest))).set
      (done.length + n + (c :: w).length) '\x00' =
      done ++ (List.replicate n ' ' ++ (c :: w ++ '\x00' :: rest)) := by
    rw [hbehind, hline, set_length]
    simp
  have hnext : done.length + n + (c :: w).length + 1 =
      (done ++ (List.replicate n ' ' ++ (c :: w ++ ['\x00']))).length := by
    rw [hbehind]
    simp [Nat.add_assoc]
  have hhead : ∃ d, (List.replicate n ' ' ++ (c :: w ++ e :: rest)).head? = some d ∧ d ≠ '\x00' := by
    cases n with
    | zero => exact ⟨c, rfl, hfirst.1⟩
    | succ n => exact ⟨' ', rfl, by decide⟩
  obtain ⟨d, hd, hne⟩ := hhead
  rw [parseLoop, get_length, List.drop_left, hd]
  dsimp only [Option.bind_eq_bind, Option.bind_some]
  rw [if_neg hne, hskip, Option.bind_some, hstart, Option.bind_some, if_neg hfirst.1]
  apply congrArg
  funext argv
  rw [hdrop, hword, Option.bind_some, hend, Option.bind_some, hset, hnext, hbehind]

/-- What a run of the loop over the rest of a text has stored. -/
structure Walked (done rest tail : List Char) (argv : List (Option ℕ))
    (out : List Char × List (Option ℕ)) : Prop where
  argv : out.2 = argv ++ (fieldsFrom isBlank done.length rest).map fun f => some f.1
  line : ∃ rest', rest'.length = rest.length ∧ out.1 = done ++ (rest' ++ '\x00' :: tail)
  closed : ∀ f ∈ fieldsFrom isBlank done.length rest, StringAt out.1 f.1 f.2

theorem fieldsFrom_blanks_end (n p : ℕ) : fieldsFrom isBlank p (List.replicate n ' ') = [] := by
  have hblanks := fieldsFrom_blanks n p []
  rw [List.append_nil, fieldsFrom_nil] at hblanks
  exact hblanks

theorem walked_blanks (n : ℕ) (done tail : List Char) (argv : List (Option ℕ)) :
    Walked done (List.replicate n ' ') tail argv (done ++ (List.replicate n ' ' ++ '\x00' :: tail), argv) := by
  refine ⟨?_, ⟨List.replicate n ' ', rfl, rfl⟩, ?_⟩
  · rw [fieldsFrom_blanks_end, List.map_nil, List.append_nil]
  · rw [fieldsFrom_blanks_end]
    exact fun f hf => absurd hf List.not_mem_nil

/-- What a turn over a word leaves: the word is stored and closed, and the loop goes on behind it. -/
structure Turn (fuel : ℕ) (done rest tail : List Char) (word : ℕ × List Char)
    (passed rest' : List Char) : Prop where
  run : ∀ argv, parseLoop (fuel + 1) (done ++ (rest ++ '\x00' :: tail)) done.length argv =
    (pushArg argv (some word.1)).bind
      (parseLoop fuel ((done ++ passed) ++ (rest' ++ '\x00' :: tail)) (done ++ passed).length)
  fields : fieldsFrom isBlank done.length rest = word :: fieldsFrom isBlank (done ++ passed).length rest'
  length : passed.length + rest'.length = rest.length
  pos : passed ≠ []
  rest : '\x00' ∉ rest → '\x00' ∉ rest'
  closed : ∀ x, x.length = rest'.length → StringAt ((done ++ passed) ++ (x ++ '\x00' :: tail)) word.1 word.2

theorem fieldsFrom_blanks_word (n p : ℕ) (hw : ∀ a ∈ c :: w, isBlank a = false)
    (hrest : StartsApart isBlank rest) :
    fieldsFrom isBlank p (List.replicate n ' ' ++ (c :: w ++ rest)) =
      (p + n, c :: w) :: fieldsFrom isBlank (p + n + (c :: w).length) rest := by
  rw [fieldsFrom_blanks, fieldsFrom_word (List.cons_ne_nil c w) hw hrest]

/-- The word is followed by the end of the line. -/
theorem turn_last (fuel n : ℕ) (done tail : List Char) (hw : ∀ a ∈ c :: w, a ≠ '\x00' ∧ a ≠ ' ') :
    Turn fuel done (List.replicate n ' ' ++ c :: w) tail (done.length + n, c :: w)
      (List.replicate n ' ' ++ c :: w) [] := by
  have hletters : ∀ a ∈ c :: w, isBlank a = false := fun a ha => decide_eq_false (hw a ha).2
  have hline : done ++ (List.replicate n ' ' ++ c :: w ++ '\x00' :: tail) =
      done ++ (List.replicate n ' ' ++ (c :: w ++ '\x00' :: tail)) := by simp
  refine ⟨?_, ?_, by simp, by simp, fun _ => List.not_mem_nil, ?_⟩
  · intro argv
    rw [hline, parseLoop_word fuel n done hw (.inl rfl)]
    apply congrArg
    funext argv
    rw [if_pos rfl]
    simp
  · have hapart : StartsApart isBlank [] := fun a ha => absurd ha (by simp)
    have hfields := fieldsFrom_blanks_word n done.length hletters hapart
    rw [List.append_nil, fieldsFrom_nil] at hfields
    rw [hfields, fieldsFrom_nil]
  · intro x hx
    obtain rfl : x = [] := List.length_eq_zero_iff.mp hx
    have hdrop : (done ++ (List.replicate n ' ' ++ c :: w) ++ ([] ++ '\x00' :: tail)).drop (done.length + n) =
        (c :: w ++ ['\x00']) ++ tail := by
      rw [List.append_assoc, List.append_assoc, drop_blanks]
      simp
    exact ⟨tail, hdrop.symm⟩

/-- The word is followed by a blank, which becomes a NUL. -/
theorem turn_blank (fuel n : ℕ) (done tail : List Char) (hw : ∀ a ∈ c :: w, a ≠ '\x00' ∧ a ≠ ' ')
    (rest : List Char) :
    Turn fuel done (List.replicate n ' ' ++ (c :: w ++ ' ' :: rest)) tail (done.length + n, c :: w)
      (List.replicate n ' ' ++ (c :: w ++ ['\x00'])) rest := by
  have hletters : ∀ a ∈ c :: w, isBlank a = false := fun a ha => decide_eq_false (hw a ha).2
  have hline : done ++ (List.replicate n ' ' ++ (c :: w ++ ' ' :: rest) ++ '\x00' :: tail) =
      done ++ (List.replicate n ' ' ++ (c :: w ++ ' ' :: (rest ++ '\x00' :: tail))) := by simp
  refine ⟨?_, ?_, by simp; omega, by simp, ?_, ?_⟩
  · intro argv
    rw [hline, parseLoop_word fuel n done hw (.inr rfl)]
    apply congrArg
    funext argv
    rw [if_neg (by decide)]
    simp
  · have hapart : StartsApart isBlank (' ' :: rest) := by
      intro a ha
      obtain rfl : ' ' = a := by simpa using ha
      rfl
    have hlength : done.length + n + (c :: w).length + 1 =
        (done ++ (List.replicate n ' ' ++ (c :: w ++ ['\x00']))).length := by
      simp
      omega
    rw [fieldsFrom_blanks_word n done.length hletters hapart, fieldsFrom_sep rfl, hlength]
  · exact fun hnul hmem => hnul (by simp [hmem])
  · intro x hx
    have hdrop : (done ++ (List.replicate n ' ' ++ (c :: w ++ ['\x00'])) ++ (x ++ '\x00' :: tail)).drop
        (done.length + n) =
        (c :: w ++ ['\x00']) ++ (x ++ '\x00' :: tail) := by
      rw [List.append_assoc, List.append_assoc, drop_blanks]
    exact ⟨x ++ '\x00' :: tail, hdrop.symm⟩

theorem exists_turn (fuel : ℕ) (done tail : List Char) (hnul : '\x00' ∉ rest) :
    (∃ n, rest = List.replicate n ' ') ∨ ∃ word passed rest', Turn fuel done rest tail word passed rest' := by
  obtain ⟨n, rfl | ⟨c, w, rest', rfl, hw, hapart⟩⟩ := blanks_cases rest
  · exact .inl ⟨n, rfl⟩
  · have hletters : ∀ a ∈ c :: w, a ≠ '\x00' ∧ a ≠ ' ' := by
      intro a ha
      refine ⟨?_, of_decide_eq_false (hw a ha)⟩
      rintro rfl
      exact hnul (List.mem_append_right _ (List.mem_append_left _ ha))
    right
    cases rest' with
    | nil =>
        rw [List.append_nil]
        exact ⟨_, _, _, turn_last fuel n done tail hletters⟩
    | cons e rest' =>
        obtain rfl : e = ' ' := of_decide_eq_true (hapart e rfl)
        exact ⟨_, _, _, turn_blank fuel n done tail hletters rest'⟩

/-- The loop stores the words of the rest when there is room for them. -/
theorem parseLoop_fits (hnul : '\x00' ∉ rest) (hfuel : rest.length < fuel) (done tail : List Char)
    (hroom : argv.length + (fieldsFrom isBlank done.length rest).length ≤ maxArgs) :
    ∃ out, parseLoop fuel (done ++ (rest ++ '\x00' :: tail)) done.length argv = some out ∧
      Walked done rest tail argv out := by
  induction fuel generalizing rest done argv with
  | zero => exact absurd hfuel (Nat.not_lt_zero _)
  | succ fuel ih =>
      rcases exists_turn fuel done tail hnul with ⟨n, rfl⟩ | ⟨word, passed, rest', hturn⟩
      · exact ⟨_, parseLoop_end fuel n done tail argv, walked_blanks n done tail argv⟩
      · have hpos : 0 < passed.length := List.length_pos_of_ne_nil hturn.pos
        have hlength := hturn.length
        rw [hturn.fields, List.length_cons] at hroom
        have hpush : pushArg argv (some word.1) = some (argv ++ [some word.1]) := if_pos (by omega)
        have hroom' : (argv ++ [some word.1]).length +
            (fieldsFrom isBlank (done ++ passed).length rest').length ≤ maxArgs := by
          rw [List.length_append, List.length_singleton]
          omega
        obtain ⟨out, hrun, hwalked⟩ := ih (hturn.rest hnul) (by omega) (done ++ passed) hroom'
        refine ⟨out, ?_, ?_, ?_, ?_⟩
        · rw [hturn.run, hpush, Option.bind_some, hrun]
        · rw [hwalked.argv, hturn.fields, List.map_cons, List.append_assoc]
          rfl
        · obtain ⟨x, hx, hline⟩ := hwalked.line
          refine ⟨passed ++ x, ?_, ?_⟩
          · rw [List.length_append, hx, hlength]
          · rw [hline, List.append_assoc, List.append_assoc]
        · rw [hturn.fields]
          intro f hf
          rcases List.mem_cons.mp hf with rfl | hf
          · obtain ⟨x, hx, hline⟩ := hwalked.line
            rw [hline]
            exact hturn.closed x hx
          · exact hwalked.closed f hf

/-- A word too many is stored behind the vector. -/
theorem parseLoop_overflows (hnul : '\x00' ∉ rest) (hfuel : rest.length < fuel) (done tail : List Char)
    (hroom : argv.length ≤ maxArgs)
    (hmany : maxArgs < argv.length + (fieldsFrom isBlank done.length rest).length) :
    parseLoop fuel (done ++ (rest ++ '\x00' :: tail)) done.length argv = none := by
  induction fuel generalizing rest done argv with
  | zero => exact absurd hfuel (Nat.not_lt_zero _)
  | succ fuel ih =>
      rcases exists_turn fuel done tail hnul with ⟨n, rfl⟩ | ⟨word, passed, rest', hturn⟩
      · rw [fieldsFrom_blanks_end] at hmany
        exact absurd hmany (Nat.not_lt.mpr hroom)
      · have hpos : 0 < passed.length := List.length_pos_of_ne_nil hturn.pos
        have hlength := hturn.length
        rw [hturn.fields, List.length_cons] at hmany
        rw [hturn.run]
        by_cases hlast : argv.length < maxArgs
        · have hpush : pushArg argv (some word.1) = some (argv ++ [some word.1]) := if_pos hlast
          have hlength' : (argv ++ [some word.1]).length = argv.length + 1 := List.length_append
          rw [hpush, Option.bind_some]
          exact ih (hturn.rest hnul) (by omega) (done ++ passed) (by omega) (by omega)
        · have hpush : pushArg argv (some word.1) = none := if_neg hlast
          rw [hpush]
          rfl

theorem parse_overflows (hnul : '\x00' ∉ text) (hmany : maxArgs ≤ (fields isBlank text).length)
    (tail : List Char) :
    parse (text ++ '\x00' :: tail) = none := by
  have hfuel : text.length < (text ++ '\x00' :: tail).length + 1 := by
    rw [List.length_append]
    omega
  unfold parse
  rcases Nat.lt_or_eq_of_le hmany with hmore | hfull
  · have hmore' : maxArgs < ([] : List (Option ℕ)).length +
        (fieldsFrom isBlank ([] : List Char).length text).length := by
      rw [List.length_nil, Nat.zero_add]
      exact hmore
    have hloop := parseLoop_overflows hnul hfuel [] tail (Nat.zero_le _) hmore'
    rw [List.nil_append, List.length_nil] at hloop
    rw [hloop]
    rfl
  · -- The zero is the entry that has no room.
    have hfits : ([] : List (Option ℕ)).length +
        (fieldsFrom isBlank ([] : List Char).length text).length ≤ maxArgs := by
      rw [List.length_nil, Nat.zero_add]
      exact hfull.ge
    obtain ⟨out, hloop, hwalked⟩ := parseLoop_fits hnul hfuel [] tail hfits
    rw [List.nil_append, List.length_nil] at hloop
    have hlength : out.2.length = maxArgs := by
      rw [hwalked.argv, List.nil_append, List.length_map]
      exact hfull.symm
    have hpush : pushArg out.2 none = none := if_neg (by omega)
    rw [hloop]
    dsimp only [Option.bind_eq_bind, Option.bind_some]
    rw [hpush]
    rfl

theorem parse_fits (hnul : '\x00' ∉ text) (hroom : (fields isBlank text).length < maxArgs) (tail : List Char) :
    ∃ argc entries line words, parse (text ++ '\x00' :: tail) = some (argc, entries, line) ∧
      Tokenized text tail argc entries line words := by
  have hfuel : text.length < (text ++ '\x00' :: tail).length + 1 := by
    rw [List.length_append]
    omega
  have hfits : ([] : List (Option ℕ)).length +
      (fieldsFrom isBlank ([] : List Char).length text).length ≤ maxArgs := by
    rw [List.length_nil, Nat.zero_add]
    exact hroom.le
  obtain ⟨out, hloop, hwalked⟩ := parseLoop_fits hnul hfuel [] tail hfits
  rw [List.nil_append, List.length_nil] at hloop
  have hlength : out.2.length = (fields isBlank text).length := by
    rw [hwalked.argv, List.nil_append, List.length_map]
    rfl
  have hpush : pushArg out.2 none = some (out.2 ++ [none]) := if_pos (by omega)
  refine ⟨out.2.length, out.2 ++ [none], out.1, fields isBlank text, ?_, fun p w => mem_fields,
    fieldsFrom_sorted text 0, hlength, ?_, hwalked.closed, hwalked.line⟩
  · unfold parse
    rw [hloop]
    dsimp only [Option.bind_eq_bind, Option.bind_some]
    rw [hpush]
    rfl
  · rw [hwalked.argv]
    rfl

/-- A line is taken apart as it should exactly when its words and the zero have room in the
vector. The text is what the line holds in front of its NUL. -/
theorem parse_words_iff (text tail : List Char) (hnul : '\x00' ∉ text) :
    (∃ argc entries line words, parse (text ++ '\x00' :: tail) = some (argc, entries, line) ∧
      Tokenized text tail argc entries line words) ↔ (fields isBlank text).length < maxArgs := by
  constructor
  · rintro ⟨argc, entries, line, words, hparse, -⟩
    by_contra hmany
    rw [parse_overflows hnul (Nat.le_of_not_lt hmany) tail] at hparse
    exact absurd hparse (by simp)
  · exact fun hroom => parse_fits hnul hroom tail

/-- `ls /` -/
theorem parse_words_iff_ls : (∃ argc entries line words,
      parse (['l', 's', ' ', '/'] ++ '\x00' :: []) = some (argc, entries, line) ∧
        Tokenized ['l', 's', ' ', '/'] [] argc entries line words) ↔
    (fields isBlank ['l', 's', ' ', '/']).length < maxArgs :=
  parse_words_iff ['l', 's', ' ', '/'] [] (by decide)

theorem letters_fields (n p : ℕ) :
    (fieldsFrom isBlank p (List.replicate n ['a', ' ']).flatten).length = n := by
  induction n generalizing p with
  | zero =>
      have hnil : fieldsFrom isBlank p (List.replicate 0 ['a', ' ']).flatten = [] := fieldsFrom_nil p
      rw [hnil]
      rfl
  | succ n ih =>
      have hletters : ∀ a ∈ ['a'], isBlank a = false := fun a ha => List.mem_singleton.mp ha ▸ rfl
      have hsplit : (List.replicate (n + 1) ['a', ' ']).flatten = ['a'] ++
          ' ' :: (List.replicate n ['a', ' ']).flatten := rfl
      have hapart : StartsApart isBlank (' ' :: (List.replicate n ['a', ' ']).flatten) := by
        intro a ha
        obtain rfl : ' ' = a := by simpa using ha
        rfl
      rw [hsplit, fieldsFrom_word (by decide) hletters hapart, fieldsFrom_sep rfl, List.length_cons, ih]

/-- A line of 64 characters with 32 words. -/
theorem not_parse_words : ¬∃ argc entries line words,
    parse ((List.replicate 32 ['a', ' ']).flatten ++ '\x00' :: []) = some (argc, entries, line) ∧
      Tokenized (List.replicate 32 ['a', ' ']).flatten [] argc entries line words := by
  rintro ⟨argc, entries, line, words, hparse, -⟩
  have hnul : '\x00' ∉ (List.replicate 32 ['a', ' ']).flatten := by decide
  have hmany : maxArgs ≤ (fields isBlank (List.replicate 32 ['a', ' ']).flatten).length :=
      (letters_fields 32 0).ge
  rw [parse_overflows hnul hmany []] at hparse
  exact absurd hparse (by simp)

end Ferrite.User
