import Ferrite.Library.Packed

/-!
# Patches

A list of patches to fields of one width, each of which replaces a field by a value made of what
the field held. Patches of fields that lie apart do not see each other.
-/
namespace Ferrite.Packed

section
variable {A : Type*} (n : ℕ) (field : A → ℕ) (value : A → ℕ → ℕ)

/-- The bytes after one patch. -/
def patch (b : Bytes) (a : A) : Bytes := put n b (field a) (value a (get n b (field a)))

/-- The fields of two patches lie apart. -/
def FieldsApart (a a' : A) : Prop := field a + n ≤ field a' ∨ field a' + n ≤ field a

instance : DecidableRel (FieldsApart n field) := fun _ _ => inferInstanceAs (Decidable (_ ∨ _))

end

variable {A : Type*} {n o : ℕ} {field : A → ℕ} {value : A → ℕ → ℕ} {l : List A} {a : A} {b : Bytes}

theorem get_patches_of_apart (h : ∀ a ∈ l, o + n ≤ field a ∨ field a + n ≤ o) :
    get n (l.foldl (patch n field value) b) o = get n b o := by
  induction l generalizing b with
  | nil => rfl
  | cons a l ih =>
      rw [List.foldl_cons, ih fun a' ha' => h a' (List.mem_cons_of_mem a ha')]
      exact get_put_of_disjoint (h a List.mem_cons_self)

theorem get_patches (hl : l.Pairwise (FieldsApart n field)) (ha : a ∈ l) :
    get n (l.foldl (patch n field value) b) (field a) = value a (get n b (field a)) % 256 ^ n := by
  induction l generalizing b with
  | nil => cases ha
  | cons a' l ih =>
      obtain ⟨hfirst, hrest⟩ := List.pairwise_cons.mp hl
      rw [List.foldl_cons]
      cases ha with
      | head =>
          rw [get_patches_of_apart hfirst]
          exact get_put n b (field a) _
      | tail _ ha =>
          rw [ih hrest ha, patch, get_put_of_disjoint]
          exact (hfirst a ha).symm

end Ferrite.Packed
