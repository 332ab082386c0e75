import Ferrite.Library.Packed
import Mathlib.Data.Set.Insert

/-!
# Changes to a memory of pages

A memory is cut into pages of `size` bytes, each named by the address it starts
at. A change is bounded by the pages it may touch; whatever lies in other pages
is then the same.
-/
namespace Ferrite.Pages
open Packed

variable {size n o p q v : ℕ} {A B : Set ℕ} {m m' m'' src : Bytes}

/-- The memories differ in pages of `A` only. -/
def SameBut (size : ℕ) (A : Set ℕ) (m m' : Bytes) : Prop := ∀ a, a / size * size ∉ A → m' a = m a

theorem page_of_add (hp : size ∣ p) (ho : o < size) : (p + o) / size * size = p := by
  obtain ⟨k, rfl⟩ := hp
  rw [Nat.mul_add_div (by omega), Nat.div_eq_of_lt ho, Nat.add_zero, Nat.mul_comm]

namespace SameBut

theorem mono (h : SameBut size A m m') (hAB : A ⊆ B) : SameBut size B m m' :=
  fun a ha => h a fun hA => ha (hAB hA)

theorem trans (h : SameBut size A m m') (h' : SameBut size A m' m'') : SameBut size A m m'' :=
  fun a ha => (h' a ha).trans (h a ha)

theorem byte (h : SameBut size A m m') (hp : size ∣ p) (hA : p ∉ A) (ho : o < size) :
    m' (p + o) = m (p + o) := by
  apply h
  rwa [page_of_add hp ho]

theorem get (h : SameBut size A m m') (hp : size ∣ p) (hA : p ∉ A) (ho : o + n ≤ size) :
    get n m' (p + o) = get n m (p + o) := by
  apply get_shift
  intro i hi
  rw [add_assoc]
  exact h.byte hp hA (by omega)

theorem put (hp : size ∣ p) (hA : p ∈ A) (ho : o + n ≤ size) : SameBut size A m (put n m (p + o) v) := by
  intro a ha
  rw [Packed.put, if_neg]
  intro hrange
  apply ha
  obtain ⟨i, rfl⟩ := Nat.exists_eq_add_of_le hrange.1
  rwa [add_assoc, page_of_add hp (by omega)]

theorem copy (hp : size ∣ p) (hA : p ∈ A) (hn : n ≤ size) : SameBut size A m (copy n m p src q) := by
  intro a ha
  rw [Packed.copy, if_neg]
  intro hrange
  apply ha
  obtain ⟨i, rfl⟩ := Nat.exists_eq_add_of_le hrange.1
  rwa [page_of_add hp (by omega)]

end SameBut
end Ferrite.Pages
