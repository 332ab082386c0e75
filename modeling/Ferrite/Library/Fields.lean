import Mathlib.Data.List.TakeWhile
import Mathlib.Data.List.Basic

/-!
# Fields

The maximal runs of elements that are no separators, with the positions where they begin.
-/
namespace Ferrite.Fields

variable {A : Type*} (sep : A → Bool)

/-- The list begins with a separator if it is not empty. -/
def StartsApart (l : List A) : Prop := ∀ a ∈ l.head?, sep a = true

/-- A maximal run: there is a separator on either side, or the end. -/
structure IsField (text : List A) (p : ℕ) (w : List A) : Prop where
  nonempty : w ≠ []
  letters : ∀ a ∈ w, sep a = false
  maximal : ∃ before after, text = before ++ (w ++ after) ∧ before.length = p ∧
    (∀ a ∈ before.getLast?, sep a = true) ∧ StartsApart sep after

/-- The fields of a text that begins at a position. -/
def fieldsFrom (p : ℕ) (text : List A) : List (ℕ × List A) :=
  match text with
  | [] => []
  | a :: rest =>
      if sep a then fieldsFrom (p + 1) rest
      else
        let w := rest.takeWhile fun b => !sep b
        (p, a :: w) :: fieldsFrom (p + (w.length + 1)) (rest.dropWhile fun b => !sep b)
termination_by text.length
decreasing_by
  · exact Nat.lt_succ_self _
  · exact Nat.lt_succ_of_le (List.dropWhile_suffix _).length_le

def fields (text : List A) : List (ℕ × List A) := fieldsFrom sep 0 text

variable {sep} {text w v rest : List A} {a c : A} {p q : ℕ} {fs : List (ℕ × List A)} {words : List (List A)}

theorem fieldsFrom_nil (p : ℕ) : fieldsFrom sep p [] = [] := by
  rw [fieldsFrom]

theorem fieldsFrom_sep (ha : sep a = true) (p : ℕ) (rest : List A) :
    fieldsFrom sep p (a :: rest) = fieldsFrom sep (p + 1) rest := by
  rw [fieldsFrom, if_pos ha]

theorem startsApart_dropWhile (rest : List A) : StartsApart sep (rest.dropWhile fun b => !sep b) := by
  induction rest with
  | nil => exact fun a ha => absurd ha (by simp)
  | cons b rest ih =>
      cases hb : sep b with
      | true =>
          rw [List.dropWhile_cons_of_neg (by simp [hb])]
          intro a ha
          obtain rfl : b = a := by simpa using ha
          exact hb
      | false =>
          rw [List.dropWhile_cons_of_pos (by simp [hb])]
          exact ih

/-- Letters in front of a separator are taken. -/
theorem takeWhile_letters (hw : ∀ a ∈ w, sep a = false) (hrest : StartsApart sep rest) :
    (w ++ rest).takeWhile (fun b => !sep b) = w := by
  rw [List.takeWhile_append_of_pos fun a ha => by rw [hw a ha]; rfl]
  have hnil : rest.takeWhile (fun b => !sep b) = [] := by
    cases rest with
    | nil => rfl
    | cons a rest =>
        have ha : sep a = true := hrest a rfl
        exact List.takeWhile_cons_of_neg (by simp [ha])
  rw [hnil, List.append_nil]

theorem dropWhile_letters (hw : ∀ a ∈ w, sep a = false) (hrest : StartsApart sep rest) :
    (w ++ rest).dropWhile (fun b => !sep b) = rest := by
  have happend := List.takeWhile_append_dropWhile (p := fun b => !sep b) (l := w ++ rest)
  rw [takeWhile_letters hw hrest] at happend
  exact List.append_cancel_left happend

/-- The first field is followed by those of the rest. -/
theorem fieldsFrom_word (hne : w ≠ []) (hw : ∀ a ∈ w, sep a = false) (hrest : StartsApart sep rest) (p : ℕ) :
    fieldsFrom sep p (w ++ rest) = (p, w) :: fieldsFrom sep (p + w.length) rest := by
  cases w with
  | nil => exact absurd rfl hne
  | cons a w =>
      have ha : ¬sep a = true := ne_true_of_eq_false (hw a List.mem_cons_self)
      have hletters : ∀ b ∈ w, sep b = false := fun b hb => hw b (List.mem_cons_of_mem a hb)
      rw [List.cons_append, fieldsFrom, if_neg ha]
      dsimp only
      rw [takeWhile_letters hletters hrest, dropWhile_letters hletters hrest, List.length_cons]

/-! ## The fields are the maximal runs -/

theorem not_isField_nil : ¬IsField sep [] p w := by
  rintro ⟨hne, -, before, after, heq, -⟩
  have hnil : w ++ after = [] := (List.append_eq_nil_iff.mp heq.symm).2
  exact hne (List.append_eq_nil_iff.mp hnil).1

theorem isField_cons_sep (ha : sep a = true) : IsField sep (a :: rest) p w ↔ ∃ r, p = r + 1 ∧
    IsField sep rest r w := by
  constructor
  · rintro ⟨hne, hletters, before, after, heq, rfl, hbefore, hafter⟩
    cases before with
    | nil =>
        obtain ⟨b, w', rfl⟩ := List.exists_cons_of_ne_nil hne
        obtain ⟨rfl, -⟩ := List.cons.inj heq
        exact absurd ha (ne_true_of_eq_false (hletters a List.mem_cons_self))
    | cons b before =>
        obtain ⟨rfl, rfl⟩ := List.cons.inj heq
        refine ⟨before.length, rfl, hne, hletters, before, after, rfl, rfl, ?_, hafter⟩
        cases before with
        | nil => exact fun c hc => absurd hc (by simp)
        | cons c before => exact hbefore
  · rintro ⟨r, rfl, hne, hletters, before, after, rfl, rfl, hbefore, hafter⟩
    refine ⟨hne, hletters, a :: before, after, rfl, rfl, ?_, hafter⟩
    cases before with
    | nil =>
        intro c hc
        obtain rfl : a = c := by simpa using hc
        exact ha
    | cons c before => exact hbefore

theorem isField_append (hne : w ≠ []) (hw : ∀ a ∈ w, sep a = false) (hrest : StartsApart sep rest) :
    IsField sep (w ++ rest) p v ↔ (p = 0 ∧ v = w) ∨ ∃ r, p = w.length + r ∧ IsField sep rest r v := by
  constructor
  · rintro ⟨hne', hletters, before, after, heq, rfl, hbefore, hafter⟩
    obtain rfl | ⟨b, s, rfl⟩ := List.eq_nil_or_concat' before
    · left
      have htake := takeWhile_letters hw hrest
      rw [heq, List.nil_append, takeWhile_letters hletters hafter] at htake
      exact ⟨rfl, htake⟩
    · right
      have hs : sep s = true := hbefore s (by simp)
      -- The separator in front of the field is behind the first word.
      rw [List.append_assoc] at heq
      rcases List.append_eq_append_iff.mp heq with ⟨bs, rfl, hbs⟩ | ⟨cs, rfl, hcs⟩
      · refine ⟨(bs ++ [s]).length, by simp, hne', hletters, bs ++ [s], after, ?_, rfl, ?_, hafter⟩
        · rw [hbs, List.append_assoc]
        · intro c hc
          obtain rfl : s = c := by simpa using hc
          exact hs
      · cases cs with
        | nil =>
            refine ⟨1, by simp, hne', hletters, [s], after, hcs.symm, rfl, ?_, hafter⟩
            intro c hc
            obtain rfl : s = c := by simpa using hc
            exact hs
        | cons c cs =>
            obtain ⟨rfl, -⟩ := List.cons.inj hcs
            exact absurd hs (ne_true_of_eq_false (hw s (by simp)))
  · rintro (⟨rfl, rfl⟩ | ⟨r, rfl, hne', hletters, before, after, rfl, rfl, hbefore, hafter⟩)
    · exact ⟨hne, hw, [], rest, rfl, rfl, fun c hc => absurd hc (by simp), hrest⟩
    · refine ⟨hne', hletters, w ++ before, after, by rw [List.append_assoc], List.length_append, ?_, hafter⟩
      cases before with
      | nil =>
          obtain ⟨b, v', rfl⟩ := List.exists_cons_of_ne_nil hne'
          exact absurd (hrest b rfl) (ne_true_of_eq_false (hletters b List.mem_cons_self))
      | cons c before =>
          rw [List.getLast?_append_of_ne_nil w (List.cons_ne_nil c before)]
          exact hbefore

/-- A text is empty, or begins with a separator or a word. -/
theorem text_induction (sep : A → Bool) {motive : List A → Prop} (nil : motive [])
    (separator : ∀ a rest, sep a = true → motive rest → motive (a :: rest))
    (word : ∀ w rest, w ≠ [] → (∀ a ∈ w, sep a = false) → StartsApart sep rest → motive rest →
    motive (w ++ rest))
    (text : List A) : motive text := by
  induction hn : text.length using Nat.strongRecOn generalizing text with
  | ind n ih =>
      cases text with
      | nil => exact nil
      | cons a text =>
          cases ha : sep a with
          | true => exact separator a text ha (ih text.length (by simp [← hn]) text rfl)
          | false =>
              have hsplit : a :: text = (a :: text.takeWhile fun b => !sep b) ++
                  text.dropWhile fun b => !sep b := by
                rw [List.cons_append, List.takeWhile_append_dropWhile]
              have hlt : (text.dropWhile fun b => !sep b).length < n := by
                rw [← hn]
                exact Nat.lt_succ_of_le (List.dropWhile_suffix _).length_le
              rw [hsplit]
              apply word _ _ (List.cons_ne_nil a _) _ (startsApart_dropWhile text) (ih _ hlt _ rfl)
              intro b hb
              rcases List.mem_cons.mp hb with rfl | hb
              · exact ha
              · simpa using List.mem_takeWhile_imp hb

theorem mem_fieldsFrom (text : List A) (p : ℕ) :
    (q, w) ∈ fieldsFrom sep p text ↔ ∃ r, q = p + r ∧ IsField sep text r w := by
  induction text using text_induction sep generalizing p with
  | nil =>
      rw [fieldsFrom_nil]
      exact ⟨fun h => absurd h List.not_mem_nil, fun ⟨_, _, h⟩ => absurd h not_isField_nil⟩
  | separator a rest ha ih =>
      rw [fieldsFrom_sep ha, ih (p + 1)]
      simp only [isField_cons_sep ha]
      constructor
      · rintro ⟨r, rfl, h⟩
        exact ⟨r + 1, by omega, r, rfl, h⟩
      · rintro ⟨-, rfl, r, rfl, h⟩
        exact ⟨r, by omega, h⟩
  | word v rest hne hv hrest ih =>
      rw [fieldsFrom_word hne hv hrest, List.mem_cons, ih]
      simp only [isField_append hne hv hrest, Prod.mk.injEq]
      constructor
      · rintro (⟨rfl, rfl⟩ | ⟨r, rfl, h⟩)
        · exact ⟨0, rfl, .inl ⟨rfl, rfl⟩⟩
        · exact ⟨v.length + r, by omega, .inr ⟨r, rfl, h⟩⟩
      · rintro ⟨-, rfl, ⟨rfl, rfl⟩ | ⟨r, rfl, h⟩⟩
        · exact .inl ⟨rfl, rfl⟩
        · exact .inr ⟨r, by omega, h⟩

/-- The fields are the maximal runs. -/
theorem mem_fields : (q, w) ∈ fields sep text ↔ IsField sep text q w := by
  unfold fields
  rw [mem_fieldsFrom]
  constructor
  · rintro ⟨r, rfl, h⟩
    rw [Nat.zero_add]
    exact h
  · exact fun h => ⟨q, (Nat.zero_add q).symm, h⟩

/-- They stand in order. -/
theorem fieldsFrom_sorted (text : List A) (p : ℕ) :
    (fieldsFrom sep p text).Pairwise fun f g => f.1 < g.1 := by
  induction text using text_induction sep generalizing p with
  | nil =>
      rw [fieldsFrom_nil]
      exact List.Pairwise.nil
  | separator a rest ha ih =>
      rw [fieldsFrom_sep ha]
      exact ih (p + 1)
  | word v rest hne hv hrest ih =>
      have hpos : 0 < v.length := List.length_pos_of_ne_nil hne
      rw [fieldsFrom_word hne hv hrest]
      apply List.Pairwise.cons _ (ih _)
      rintro ⟨q, w⟩ hmem
      obtain ⟨r, rfl, -⟩ := (mem_fieldsFrom rest _).mp hmem
      dsimp only
      omega

/-- Separators, the first field, and what is behind it. -/
theorem fieldsFrom_eq_cons (text : List A) (p : ℕ) (h : fieldsFrom sep p text = (q, w) :: fs) :
    ∃ seps rest, text = seps ++ (w ++ rest) ∧ (∀ a ∈ seps, sep a = true) ∧ w ≠ [] ∧ (∀ a ∈ w, sep a = false) ∧
      StartsApart sep rest ∧ q = p + seps.length ∧ fs = fieldsFrom sep (q + w.length) rest := by
  induction text using text_induction sep generalizing p with
  | nil =>
      rw [fieldsFrom_nil] at h
      cases h
  | separator a rest ha ih =>
      rw [fieldsFrom_sep ha] at h
      obtain ⟨seps, rest', rfl, hseps, hne, hw, hrest, rfl, hfs⟩ := ih (p + 1) h
      refine ⟨a :: seps, rest', rfl, ?_, hne, hw, hrest, by simp; omega, hfs⟩
      intro b hb
      rcases List.mem_cons.mp hb with rfl | hb
      · exact ha
      · exact hseps b hb
  | word v rest hne hv hrest _ =>
      rw [fieldsFrom_word hne hv hrest] at h
      obtain ⟨hfirst, rfl⟩ := List.cons.inj h
      obtain ⟨rfl, rfl⟩ := Prod.mk.inj hfirst
      exact ⟨[], rest, rfl, by simp, hne, hv, hrest, rfl, rfl⟩

/-- Fields take a letter and, but for the last, a separator. -/
theorem two_mul_length_fieldsFrom (text : List A) (p : ℕ) :
    2 * (fieldsFrom sep p text).length ≤ text.length + 1 ∧
      (StartsApart sep text → 2 * (fieldsFrom sep p text).length ≤ text.length) := by
  induction text using text_induction sep generalizing p with
  | nil =>
      rw [fieldsFrom_nil]
      simp
  | separator a rest ha ih =>
      obtain ⟨hle, -⟩ := ih (p + 1)
      rw [fieldsFrom_sep ha, List.length_cons]
      exact ⟨by omega, fun _ => hle⟩
  | word v rest hne hv hrest ih =>
      have hle := (ih (p + v.length)).2 hrest
      have hpos : 0 < v.length := List.length_pos_of_ne_nil hne
      rw [fieldsFrom_word hne hv hrest, List.length_cons, List.length_append]
      refine ⟨by omega, ?_⟩
      intro hstart
      obtain ⟨b, v, rfl⟩ := List.exists_cons_of_ne_nil hne
      exact absurd (hstart b rfl) (ne_true_of_eq_false (hv b List.mem_cons_self))

/-- The fields of words that are joined by single separators are the words. -/
theorem fieldsFrom_intercalate (hc : sep c = true)
    (hwords : ∀ w ∈ words, w ≠ [] ∧ ∀ a ∈ w, sep a = false) (p : ℕ) :
    (fieldsFrom sep p (List.intercalate [c] words)).map Prod.snd = words := by
  induction words generalizing p with
  | nil =>
      rw [List.intercalate_nil, fieldsFrom_nil]
      rfl
  | cons w words ih =>
      obtain ⟨hne, hw⟩ := hwords w List.mem_cons_self
      have hrest := fun p => ih (fun v hv => hwords v (List.mem_cons_of_mem w hv)) p
      cases words with
      | nil =>
          have hend : StartsApart sep ([] : List A) := fun a ha => absurd ha (by simp)
          rw [List.intercalate_singleton, ← List.append_nil w, fieldsFrom_word hne hw hend, fieldsFrom_nil,
            List.append_nil]
          rfl
      | cons v words =>
          have hstart : StartsApart sep (c :: List.intercalate [c] (v :: words)) := by
            intro a ha
            obtain rfl : c = a := by simpa using ha
            exact hc
          rw [List.intercalate_cons_cons, List.append_assoc, List.singleton_append,
            fieldsFrom_word hne hw hstart,
            List.map_cons, fieldsFrom_sep hc, hrest]

end Ferrite.Fields
