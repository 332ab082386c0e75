import Ferrite.Library.Packed

/-!
# Blocks and strings

Blocks of memory that lie apart: what is written into one of them leaves the bytes of the
others, and a string in a block stays while the block keeps its bytes.
-/
namespace Ferrite.Packed

structure Block where
  addr : ℕ
  size : ℕ
deriving DecidableEq

namespace Block

/-- Blocks at different addresses without a byte in common. -/
def Apart (p q : Block) : Prop := p.addr ≠ q.addr ∧ (p.addr + p.size ≤ q.addr ∨ q.addr + q.size ≤ p.addr)

/-- The bytes of the block are the same. -/
def Keeps (p : Block) (b b' : Bytes) : Prop := ∀ x, p.addr ≤ x → x < p.addr + p.size → b' x = b x

variable {p q : Block} {b b' b'' src : Bytes} {o n v i : ℕ}

theorem Apart.symm (h : p.Apart q) : q.Apart p := ⟨h.1.symm, h.2.symm⟩

theorem Keeps.refl (p : Block) (b : Bytes) : p.Keeps b b := fun _ _ _ => rfl

theorem Keeps.trans (h : p.Keeps b b') (h' : p.Keeps b' b'') : p.Keeps b b'' := by
  intro x hx hx'
  rw [h' x hx hx', h x hx hx']

/-- A field of one block is written beside the others. -/
theorem keeps_put (h : p.Apart q) (ho : q.addr ≤ o) (hn : o + n ≤ q.addr + q.size) (v : ℕ) :
    p.Keeps b (put n b o v) := by
  intro x hx hx'
  rcases h.2 with h | h
  · exact put_of_lt (by omega)
  · exact put_of_le (by omega)

theorem keeps_copy (h : p.Apart q) (ho : q.addr ≤ o) (hn : o + n ≤ q.addr + q.size) (src : Bytes) (i : ℕ) :
    p.Keeps b (copy n b o src i) := by
  intro x hx hx'
  rcases h.2 with h | h
  · exact copy_of_lt (by omega)
  · exact copy_of_le (by omega)

theorem Keeps.get_eq (h : p.Keeps b b') (ho : p.addr ≤ o) (hn : o + n ≤ p.addr + p.size) :
    get n b' o = get n b o :=
  get_congr fun x hx hx' => h x (by omega) (by omega)

end Block

/-- The characters of a string and the NUL behind them. -/
structure StringAt (b : Bytes) (p : ℕ) (w : List Byte) : Prop where
  chars : ∀ i < w.length, w[i]? = some (b (p + i))
  nul : b (p + w.length) = 0

variable {b b' : Bytes} {p o : ℕ} {w pre rest : List Byte} {a : Byte}

theorem StringAt.keeps (h : StringAt b p w) (hk : Block.Keeps ⟨p, w.length + 1⟩ b b') : StringAt b' p w where
  chars i hi := by
    rw [hk (p + i) (by simp) (by simp; omega)]
    exact h.chars i hi
  nul := by
    rw [hk (p + w.length) (by simp) (by simp)]
    exact h.nul

/-- The character behind a beginning of the string. -/
theorem StringAt.char (h : StringAt b p (pre ++ a :: rest)) : b (p + pre.length) = a := by
  have hchar := h.chars pre.length (by simp)
  rw [List.getElem?_append_right le_rfl, Nat.sub_self] at hchar
  exact (Option.some.inj hchar).symm

/-- A part of a string that is copied, with a NUL behind it. -/
theorem StringAt.copy_part (h : StringAt b o (pre ++ (w ++ rest))) (b' : Bytes) (p : ℕ) :
    StringAt (put 1 (copy w.length b' p b (o + pre.length)) (p + w.length) 0) p w where
  chars i hi := by
    have hchar := h.chars (pre.length + i) (by rw [List.length_append, List.length_append]; omega)
    rw [List.getElem?_append_right (by omega), Nat.add_sub_cancel_left, List.getElem?_append_left hi,
      ← Nat.add_assoc] at hchar
    rw [put_of_lt (by omega), copy_add hi]
    exact hchar
  nul := by
    unfold put
    rw [if_pos (by omega), Nat.zero_div]
    rfl

end Ferrite.Packed
