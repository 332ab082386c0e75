import Ferrite.Memory.BuddyRuns

/-!
# What the buddy allocator writes

The allocator keeps its links in free frames. A call writes no word of a block
that stays handed out.
-/
namespace Ferrite.Memory
open Word DyadicBlocks Chain

namespace BuddyAllocator
variable {P : Pool} {b b' : BuddyAllocator} {free : ℕ → List ℕ} {held : List Block} {blk : Block}
  {i j k order paddr : ℕ}

/-- The memories differ in the first words of pages outside the held blocks only. -/
def WritesFree (P : Pool) (held : List Block) (next next' : ℕ → ℕ) : Prop :=
  ∀ a, next' a = next a ∨ ∃ i < P.pages, a = P.addr i ∧ ∀ c ∈ held, ¬ c.Has i

theorem WritesFree.trans {next next' next'' : ℕ → ℕ} (h : WritesFree P held next next')
    (h' : WritesFree P held next' next'') : WritesFree P held next next'' := by
  intro a
  rcases h' a with heq | hfree
  · rw [heq]
    exact h a
  · exact .inr hfree

theorem WritesFree.update {next : ℕ → ℕ} (hi : i < P.pages) (hfree : ∀ c ∈ held, ¬ c.Has i) (v : ℕ) :
    WritesFree P held next (Function.update next (P.addr i) v) := by
  intro a
  by_cases ha : a = P.addr i
  · exact .inr ⟨i, hi, ha, hfree⟩
  · exact .inl (Function.update_of_ne ha ..)

/-- The word at an offset in a page of a held block. -/
theorem WritesFree.word {next next' : ℕ → ℕ} (h : WritesFree P held next next')
    (hblk : blk ∈ held) (hhas : blk.Has i) {o : ℕ} (ho : o < pageSize) :
    next' (P.addr i + o) = next (P.addr i + o) := by
  rcases h (P.addr i + o) with heq | ⟨j, hj, heq, hfree⟩
  · exact heq
  · have hij : i = j := by
      simp only [Pool.addr, pageSize] at heq ho
      omega
    exact absurd (hij ▸ hhas) (hfree blk hblk)

theorem mark_next {v : Bool} {vaddr : ℕ} (h : b.mark v vaddr order = some b') : b'.next = b.next := by
  simp only [mark, Option.bind_eq_bind, Option.pure_def, Option.bind_eq_some_iff, Option.some.injEq] at h
  obtain ⟨map, -, rfl⟩ := h
  rfl

theorem removeFromFreeList_next (h : Inv P P.pages b free held) (hk : k ≤ P.top) {vaddr : ℕ}
    {r : Bool × BuddyAllocator} (hr : b.removeFromFreeList vaddr k = some r) :
    WritesFree P held b.next r.2.next := by
  have hchain := h.chain k hk
  rw [removeFromFreeList, if_neg (by rw [h.top_eq]; omega)] at hr
  cases hf : free k with
  | nil =>
      have h0 : b.freeLists k = 0 := (h.head_eq_zero hk).mpr hf
      simp [load, h0] at hr
  | cons i l =>
      rw [hf, List.map_cons] at hchain
      have hhead : b.freeLists k = P.addr i := hchain.1
      have hload : b.load (P.addr i) = some (b.next (P.addr i)) := if_neg (P.addr_ne_zero i)
      rw [hhead, hload] at hr
      split_ifs at hr with hv
      · cases hr
        exact fun _ => .inl rfl
      · simp only [Option.bind_eq_bind, Option.bind_some, Option.pure_def,
          Option.bind_eq_some_iff, Option.some.injEq] at hr
        obtain ⟨s, hs, rfl⟩ := hr
        have hlink : Linked 0 b.next (P.addr i) (P.addr i :: l.map P.addr) :=
          ⟨rfl, P.addr_ne_zero i, hchain.2.2⟩
        rcases unlinkLoop_spec hlink hs with ⟨-, rfl⟩ | ⟨-, -, -, hout⟩
        · exact fun _ => .inl rfl
        · intro a
          by_cases ha : a ∈ P.addr i :: l.map P.addr
          · obtain ⟨j, hj, rfl⟩ := List.mem_map.mp (show a ∈ (i :: l).map P.addr from ha)
            rw [← hf] at hj
            exact .inr ⟨j, h.free_lt hk hj, rfl, fun c hc => h.not_has hk hj hc (Block.has_start _)⟩
          · exact .inl (hout a ha)

theorem mergeLoop_next {m : ℕ} (h : Inv P P.pages b free (blk :: held)) (hm : blk.order + m = P.top)
    {r : BuddyAllocator × ℕ × ℕ} (hr : mergeLoop m b (P.paddr blk.start) blk.order = some r) :
    WritesFree P held b.next r.1.next := by
  induction m generalizing b free blk with
  | zero =>
      cases hr
      exact fun _ => .inl rfl
  | succ m ih =>
      have hlt : blk.order < P.top := by omega
      simp only [mergeLoop, P.paddr_xor hlt, P.p2v_paddr] at hr
      split_ifs at hr with hfree
      · simp only [Option.bind_eq_bind, Option.bind_eq_some_iff] at hr
        obtain ⟨s, hs, hr⟩ := hr
        have hunlink : WritesFree P held b.next s.2.next := by
          intro a
          rcases removeFromFreeList_next h hlt.le hs a with heq | ⟨j, hj, ha, hout⟩
          · exact .inl heq
          · exact .inr ⟨j, hj, ha, fun c hc => hout c (List.mem_cons_of_mem _ hc)⟩
        split_ifs at hr with hs1
        · simp only [Option.bind_eq_some_iff] at hr
          obtain ⟨b', hb', hr⟩ := hr
          obtain ⟨-, hinv, -, -⟩ := merge_round h hlt hs hs1 hb'
          rw [P.paddr_min] at hr
          have hrest := ih hinv (by simp only [Block.parent_order]; omega) hr
          rw [mark_next hb'] at hrest
          exact hunlink.trans hrest
        · cases hr
          exact hunlink
      · cases hr
        exact fun _ => .inl rfl

/-- Giving back a block writes to no block that is still held. -/
theorem buddyDealloc_next (h : Inv P P.pages b free (blk :: held))
    (hb : b.buddyDealloc (P.paddr blk.start) blk.order = some b') : WritesFree P held b.next b'.next := by
  have hord := h.held_order_le (List.mem_cons_self : blk ∈ blk :: held)
  have hlt := h.held_lt (List.mem_cons_self : blk ∈ blk :: held)
  simp only [buddyDealloc, P.p2v_paddr_of_lt hlt, Option.bind_eq_bind, Option.pure_def,
    Option.bind_eq_some_iff, Option.some.injEq] at hb
  obtain ⟨b₁, hb₁, r, hr, rfl⟩ := hb
  obtain ⟨hinv, -, -, -⟩ := mark_spec h hlt hb₁
  rw [h.top_eq] at hr
  obtain ⟨blk', free', hr2, hinv', -, -⟩ := mergeLoop_spec hinv (by omega) hr
  have hnext := mergeLoop_next hinv (by omega) hr
  rw [mark_next hb₁] at hnext
  have hblk' : blk' ∈ blk' :: held := List.mem_cons_self
  rw [hr2, P.p2v_paddr_of_lt (hinv'.held_lt hblk')]
  refine hnext.trans (.update (hinv'.held_lt hblk') (fun c hc hhas => ?_) _)
  have hpw := (List.pairwise_append.mp hinv'.tiles.pairwise).2.1
  exact (List.pairwise_cons.mp hpw).1 c hc _ ⟨Block.has_start _, hhas⟩

theorem splitLoop_next (h : Inv P P.pages b free (⟨i, k⟩ :: held)) (hok : order ≤ k) :
    WritesFree P (⟨i, order⟩ :: held) b.next (splitLoop order (P.addr i) k b).next := by
  induction k generalizing b free with
  | zero => exact fun _ => .inl rfl
  | succ k ih =>
      rw [splitLoop]
      by_cases hlt : order < k + 1
      · rw [if_pos hlt]
        have hsplit := h.split
        have hright := hsplit.held_lt List.mem_cons_self
        have haddr : wadd (P.addr i) (blockSize k) = P.addr (i + 2 ^ k) := by
          have := P.addr_lt hright
          rw [wadd_of_lt] <;> simp only [Pool.addr, blockSize] at * <;> linarith
        rw [haddr]
        have hle : 2 ^ order ≤ 2 ^ k := Nat.pow_le_pow_right (by omega) (by omega)
        have hpw := (List.pairwise_append.mp hsplit.tiles.pairwise).2.1
        -- The right half is outside the left one, and so outside what is kept of it.
        have hfree : ∀ c ∈ (⟨i, order⟩ : Block) :: held, ¬ c.Has (i + 2 ^ k) := by
          refine List.forall_mem_cons.mpr ⟨?_, fun c hc hhas => ?_⟩
          · simp only [Block.Has, not_and, not_lt]
            omega
          · exact (List.pairwise_cons.mp hpw).1 c (List.mem_cons_of_mem _ hc) _
              ⟨Block.has_start _, hhas⟩
        exact WritesFree.trans (.update hright hfree _) (ih hsplit.listAdd (by omega))
      · rw [if_neg hlt]
        exact fun _ => .inl rfl

/-- Handing out a block writes to no block that is held then. -/
theorem buddyAlloc_next (h : Inv P P.pages b free held) (hb : b.buddyAlloc order = some (paddr, b'))
    (hne : paddr ≠ 0) : ∃ i free', paddr = P.paddr i ∧ Inv P P.pages b' free' (⟨i, order⟩ :: held) ∧
      WritesFree P (⟨i, order⟩ :: held) b.next b'.next := by
  rcases buddyAlloc_eq_some h hb with ⟨hzero, -⟩ | ⟨k, i, hok, rfl, hpop, hmark⟩
  · exact absurd hzero hne
  · have hi := hpop.held_lt List.mem_cons_self
    obtain ⟨free', hinv, -⟩ := splitLoop_spec hok hpop
    obtain ⟨hinv', -⟩ := mark_spec hinv hi hmark
    have hnext := splitLoop_next hpop hok
    rw [← mark_next hmark] at hnext
    exact ⟨i, free', rfl, hinv', hnext⟩

end BuddyAllocator
end Ferrite.Memory
