import Mathlib.Data.List.Basic
import Mathlib.Logic.Function.Basic

/-!
# Singly linked lists in a memory

A memory gives every address the address stored in it. A chain starts at a head,
follows the stored addresses and ends at the null address. The head determines
the chain, so no node is visited twice, and a store to an address outside the
chain does not change it.
-/
namespace Ferrite.Chain

variable {A : Type*} {null : A} {next next' : A → A} {head : A} {l : List A}

/-- Following `next` from `head` visits exactly the listed nodes and ends at `null`. -/
def Linked (null : A) (next : A → A) : A → List A → Prop
  | head, [] => head = null
  | head, a :: l => head = a ∧ a ≠ null ∧ Linked null next (next a) l

theorem Linked.eq_nil_iff (h : Linked null next head l) : l = [] ↔ head = null := by
  cases l with
  | nil => exact ⟨fun _ => h, fun _ => rfl⟩
  | cons a l => simp [h.1, h.2.1]

theorem Linked.unique {l' : List A} (h : Linked null next head l)
    (h' : Linked null next head l') : l = l' := by
  induction l generalizing head l' with
  | nil => exact (h'.eq_nil_iff.mpr h).symm
  | cons a l ih =>
      cases l' with
      | nil => exact absurd (h.1.symm.trans h') h.2.1
      | cons b l' =>
          have hab : a = b := h.1.symm.trans h'.1
          subst hab
          rw [ih h.2.2 h'.2.2]

theorem Linked.congr (h : Linked null next head l) (hn : ∀ a ∈ l, next' a = next a) :
    Linked null next' head l := by
  induction l generalizing head with
  | nil => exact h
  | cons a l ih =>
      refine ⟨h.1, h.2.1, ?_⟩
      rw [hn a List.mem_cons_self]
      exact ih h.2.2 fun b hb => hn b (List.mem_cons_of_mem a hb)

/-- The part of a chain behind one of its nodes. -/
theorem Linked.suffix {a : A} {s t : List A} (h : Linked null next head (s ++ a :: t)) :
    Linked null next a (a :: t) := by
  induction s generalizing head with
  | nil => exact ⟨rfl, h.2⟩
  | cons b s ih => exact ih h.2.2

theorem Linked.ne_null {a : A} (h : Linked null next head l) (ha : a ∈ l) : a ≠ null := by
  obtain ⟨s, t, rfl⟩ := List.append_of_mem ha
  exact h.suffix.2.1

theorem Linked.nodup (h : Linked null next head l) : l.Nodup := by
  induction l generalizing head with
  | nil => exact List.nodup_nil
  | cons a l ih =>
      refine List.nodup_cons.mpr ⟨fun hmem => ?_, ih h.2.2⟩
      obtain ⟨s, t, rfl⟩ := List.append_of_mem hmem
      have hs : Linked null next a (a :: t) := h.2.2.suffix
      have heq := (hs.unique ⟨rfl, h.2⟩ : a :: t = a :: (s ++ a :: t))
      have hlen := congrArg List.length heq
      simp only [List.length_cons, List.length_append] at hlen
      omega

variable [DecidableEq A]

theorem Linked.store {a v : A} (h : Linked null next head l) (ha : a ∉ l) :
    Linked null (Function.update next a v) head l := by
  refine h.congr fun b hb => Function.update_of_ne ?_ v next
  rintro rfl
  exact ha hb

/-- A new node whose stored address is the old head becomes the head. -/
theorem Linked.push {a : A} (h : Linked null next head l) (ha : a ≠ null) (hl : a ∉ l) :
    Linked null (Function.update next a head) a (a :: l) :=
  ⟨rfl, ha, by rw [Function.update_self]; exact h.store hl⟩

/-- Storing the successor of the second node in the first one removes the second. -/
theorem Linked.skip {a b : A} (h : Linked null next head (a :: b :: l)) :
    Linked null (Function.update next a (next b)) head (a :: l) := by
  have hnd := List.nodup_cons.mp h.nodup
  refine ⟨h.1, h.2.1, ?_⟩
  rw [Function.update_self]
  exact h.2.2.2.2.store fun ha => hnd.1 (List.mem_cons_of_mem b ha)

end Ferrite.Chain
