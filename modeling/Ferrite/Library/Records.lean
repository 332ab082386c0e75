import Mathlib

/-!
# Chains of records

Records that follow one another without a gap, where each tells its own length.
A record that takes over the length of the one behind it hides that one and leaves
the rest of the chain as it is, and one that gives up a part of its length makes room
for another.
-/
namespace Ferrite.Records

variable {R : Type*} {read read' : ℕ → R} {len : R → ℕ} {ok : R → Prop}
variable {o m e : ℕ} {r f : R} {pre post rs rs' : List R}

/-- Reading from `o` on gives the records `rs`, and they end at `e`. -/
def Chain (read : ℕ → R) (len : R → ℕ) (ok : R → Prop) (e : ℕ) : ℕ → List R → Prop
  | o, [] => o = e
  | o, r :: rs => read o = r ∧ ok r ∧ Chain read len ok e (o + len r) rs

instance decidableChain [DecidableEq R] [DecidablePred ok] :
    ∀ (rs : List R) (o : ℕ), Decidable (Chain read len ok e o rs)
  | [], o => inferInstanceAs (Decidable (o = e))
  | r :: rs, o =>
      have : Decidable (Chain read len ok e (o + len r) rs) := decidableChain rs (o + len r)
      inferInstanceAs (Decidable (read o = r ∧ ok r ∧ Chain read len ok e (o + len r) rs))

/-- The bytes the records take. -/
def total (len : R → ℕ) (rs : List R) : ℕ := (rs.map len).sum

@[simp] theorem total_nil : total len ([] : List R) = 0 := rfl
@[simp] theorem total_cons : total len (r :: rs) = len r + total len rs := List.sum_cons
@[simp] theorem total_append : total len (pre ++ post) = total len pre + total len post := by
  rw [total, List.map_append, List.sum_append, total, total]

theorem Chain.end_eq (h : Chain read len ok e o rs) : o + total len rs = e := by
  induction rs generalizing o with
  | nil => exact h
  | cons r rs ih =>
      have := ih h.2.2
      rw [total_cons]
      omega

theorem chain_append : Chain read len ok e o (pre ++ post) ↔
    Chain read len ok (o + total len pre) o pre ∧ Chain read len ok e (o + total len pre) post := by
  suffices h : ∀ m, m = o + total len pre → (Chain read len ok e o (pre ++ post) ↔
      Chain read len ok m o pre ∧ Chain read len ok e m post) from h _ rfl
  induction pre generalizing o with
  | nil =>
      rintro m rfl
      simp [Chain]
  | cons r pre ih =>
      intro m hm
      rw [List.cons_append, Chain, ih m (by rw [hm, total_cons, Nat.add_assoc]), Chain]
      tauto

/-- A record of a chain is read somewhere. -/
theorem Chain.exists_read (h : Chain read len ok e o rs) (hr : r ∈ rs) : ∃ x, read x = r := by
  induction rs generalizing o with
  | nil => cases hr
  | cons f rs ih =>
      rcases List.mem_cons.mp hr with rfl | hr
      · exact ⟨o, h.1⟩
      · exact ih h.2.2 hr

/-- A chain is all that can be read. -/
theorem Chain.unique (hpos : ∀ r, ok r → 0 < len r) (h : Chain read len ok e o rs)
    (h' : Chain read len ok e o rs') : rs = rs' := by
  induction rs generalizing o rs' with
  | nil =>
      cases rs' with
      | nil => rfl
      | cons r rs' =>
          have hend := h'.end_eq
          have := hpos r h'.2.1
          have hoe : o = e := h
          rw [total_cons] at hend
          omega
  | cons r rs ih =>
      cases rs' with
      | nil =>
          have hend := h.end_eq
          have := hpos r h.2.1
          have hoe : o = e := h'
          rw [total_cons] at hend
          omega
      | cons r' rs' =>
          have hr : r = r' := h.1.symm.trans h'.1
          subst hr
          rw [ih h.2.2 h'.2.2]

/-- The records at the start of a chain come first in every chain from there. -/
theorem Chain.unique_start (h : Chain read len ok m o pre)
    (hlt : m < e) (h' : Chain read len ok e o rs') :
    ∃ post, rs' = pre ++ post ∧ Chain read len ok e m post := by
  induction pre generalizing o rs' with
  | nil => exact ⟨rs', rfl, (show o = m from h) ▸ h'⟩
  | cons r pre ih =>
      cases rs' with
      | nil =>
          have hend := h.end_eq
          have hoe : o = e := h'
          omega
      | cons r' rs' =>
          have hr : r = r' := h.1.symm.trans h'.1
          subst hr
          obtain ⟨post, rfl, hpost⟩ := ih h.2.2 h'.2.2
          exact ⟨post, rfl, hpost⟩

theorem Chain.congr (h : Chain read len ok e o rs)
    (hread : ∀ x, o ≤ x → ok (read x) → x + len (read x) ≤ e → read' x = read x) :
    Chain read' len ok e o rs := by
  induction rs generalizing o with
  | nil => exact h
  | cons r rs ih =>
      obtain ⟨rfl, hok, hrest⟩ := h
      have hend := hrest.end_eq
      refine ⟨hread o (Nat.le_refl o) hok (by omega), hok, ih hrest fun x hx => hread x (by omega)⟩

theorem Chain.imp {ok' : R → Prop} (h : Chain read len ok e o rs) (himp : ∀ r ∈ rs, ok r → ok' r) :
    Chain read len ok' e o rs := by
  induction rs generalizing o with
  | nil => exact h
  | cons r rs ih =>
      obtain ⟨hr, hok, hrest⟩ := h
      exact ⟨hr, himp r List.mem_cons_self hok, ih hrest fun r hr => himp r (List.mem_cons_of_mem _ hr)⟩

/-- Records are not longer than what is left. -/
theorem Chain.bounds (h : Chain read len ok e o (pre ++ r :: post)) : ok r ∧ o + total len pre + len r ≤ e := by
  obtain ⟨-, -, hok, hrest⟩ := chain_append.mp h
  have hend := hrest.end_eq
  exact ⟨hok, by omega⟩

theorem Chain.length_le (hpos : ∀ r, ok r → 0 < len r) (h : Chain read len ok e o rs) : o + rs.length ≤ e := by
  induction rs generalizing o with
  | nil => exact Nat.le_of_eq (show o = e from h)
  | cons r rs ih =>
      have hrest := ih h.2.2
      have hr := hpos r h.2.1
      rw [List.length_cons]
      omega

/-- Where the lengths are the same, a chain comes by the same places. -/
theorem Chain.follow (h : Chain read len ok m o pre) (hlt : m < e)
    (hlen : ∀ x, o ≤ x → ok (read x) → x + len (read x) ≤ m → len (read' x) = len (read x))
    (h' : Chain read' len ok e o rs') : ∃ post, Chain read' len ok e m post := by
  induction pre generalizing o rs' with
  | nil => exact ⟨rs', (show o = m from h) ▸ h'⟩
  | cons r pre ih =>
      obtain ⟨hr, hok, hrest⟩ := h
      have hend := hrest.end_eq
      have hsame := hlen o (Nat.le_refl o) (hr ▸ hok) (by rw [hr]; omega)
      cases rs' with
      | nil =>
          have hoe : o = e := h'
          omega
      | cons r' rs' =>
          obtain ⟨hr', -, hrest'⟩ := h'
          rw [← hr', hsame, hr] at hrest'
          exact ih hrest (fun x hx => hlen x (by omega)) hrest'

/-- Records that change without their lengths. -/
theorem Chain.altered {same : R → R → Prop} (hsame : ∀ a b, ok a → same a b → ok b ∧ len b = len a)
    (h : Chain read len ok e o rs)
    (hread : ∀ x, o ≤ x → ok (read x) → x + len (read x) ≤ e → same (read x) (read' x)) :
    ∃ rs', Chain read' len ok e o rs' ∧ List.Forall₂ same rs rs' := by
  induction rs generalizing o with
  | nil => exact ⟨[], h, .nil⟩
  | cons r rs ih =>
      obtain ⟨rfl, hok, hrest⟩ := h
      have hend := hrest.end_eq
      have hr := hread o (Nat.le_refl o) hok (by omega)
      obtain ⟨hok', hlen⟩ := hsame _ _ hok hr
      obtain ⟨rs', hrs', hall⟩ := ih hrest fun x hx => hread x (by omega)
      exact ⟨read' o :: rs', ⟨rfl, hok', by rw [hlen]; exact hrs'⟩, .cons hr hall⟩

/-- A record with the length of two hides the second. -/
theorem Chain.merge {p p' : R} (h : Chain read len ok e o (pre ++ p :: f :: post))
    (hlow : ∀ x, ok (read x) → x + len (read x) ≤ o + total len pre → read' x = read x)
    (hp : read' (o + total len pre) = p') (hok : ok p') (hlen : len p' = len p + len f)
    (hhigh : ∀ x, o + total len pre + len p ≤ x → read' x = read x) :
    Chain read' len ok e o (pre ++ p' :: post) := by
  obtain ⟨hpre, -, -, -, -, hpost⟩ := chain_append.mp h
  refine chain_append.mpr ⟨hpre.congr fun x _ => hlow x, hp, hok, ?_⟩
  rw [hlen, ← Nat.add_assoc]
  exact hpost.congr fun x hx _ _ => hhigh x (by omega)

/-- A record that gives up the end of its length makes room for a new one. -/
theorem Chain.split {p p' : R} (h : Chain read len ok e o (pre ++ p :: post))
    (hlow : ∀ x, ok (read x) → x + len (read x) ≤ o + total len pre → read' x = read x)
    (hp : read' (o + total len pre) = p') (hok : ok p')
    (hf : read' (o + total len pre + len p') = f) (hokf : ok f) (hlen : len p' + len f = len p)
    (hhigh : ∀ x, o + total len pre + len p ≤ x → read' x = read x) :
    Chain read' len ok e o (pre ++ p' :: f :: post) := by
  obtain ⟨hpre, -, -, hpost⟩ := chain_append.mp h
  refine chain_append.mpr ⟨hpre.congr fun x _ => hlow x, hp, hok, hf, hokf, ?_⟩
  rw [Nat.add_assoc, hlen]
  exact hpost.congr fun x hx _ _ => hhigh x hx

/-- The first record in a list of lists that has a property. -/
theorem exists_first_of {q : R → Prop} [DecidablePred q] {blocks : List (List R)}
    (he : ∃ r ∈ blocks.flatten, q r) :
    ∃ A pre f post C, blocks = A ++ (pre ++ f :: post) :: C ∧ (∀ r ∈ A.flatten, ¬ q r) ∧
      (∀ r ∈ pre, ¬ q r) ∧ q f := by
  induction blocks with
  | nil =>
      obtain ⟨r, hr, -⟩ := he
      cases hr
  | cons rs blocks ih =>
      by_cases hrs : ∃ r ∈ rs, q r
      · have hsome : (rs.find? fun r => q r).isSome = true := by
          simpa [List.find?_isSome] using hrs
        obtain ⟨f, hfind⟩ := Option.isSome_iff_exists.mp hsome
        obtain ⟨hf, pre, post, rfl, hpre⟩ := List.find?_eq_some_iff_append.mp hfind
        exact ⟨[], pre, f, post, blocks, rfl, by simp, fun r hr => by simpa using hpre r hr, by simpa using hf⟩
      · push Not at hrs
        obtain ⟨r, hr, hq⟩ := he
        rw [List.flatten_cons, List.mem_append] at hr
        have hr' := hr.resolve_left fun hr => hrs r hr hq
        obtain ⟨A, pre, f, post, C, rfl, hA, hpre, hf⟩ := ih ⟨r, hr', hq⟩
        refine ⟨rs :: A, pre, f, post, C, rfl, ?_, hpre, hf⟩
        intro x hx
        rw [List.flatten_cons, List.mem_append] at hx
        exact hx.elim (hrs x) (hA x)

end Ferrite.Records
