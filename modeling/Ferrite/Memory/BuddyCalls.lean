import Ferrite.Memory.BuddyInvariant

/-!
# Allocation and release keep the tiling

The merging loop of `buddy_dealloc` and the splitting loop of `buddy_alloc` each
keep the invariant at every round. The lemmas also say what the rounds do to the
bitmap: merging only ever sets bits, and it sets those of the buddy it absorbs.
-/
namespace Ferrite.Memory
open Word DyadicBlocks Chain

namespace BuddyAllocator

variable {P : Pool} {n : ℕ} {b : BuddyAllocator} {free : ℕ → List ℕ} {held : List Block}
  {blk : Block}

/-- A node is on the free list of an order. -/
def OnList (b : BuddyAllocator) (vaddr k : ℕ) : Prop :=
  ∃ l, Linked 0 b.next (b.freeLists k) l ∧ vaddr ∈ l

theorem Inv.onList_iff (h : Inv P n b free held) {k vaddr : ℕ} (hk : k ≤ P.top) :
    b.OnList vaddr k ↔ ∃ i ∈ free k, P.addr i = vaddr := by
  constructor
  · intro hl
    obtain ⟨l, hl, hmem⟩ := hl
    rw [hl.unique (h.chain k hk)] at hmem
    exact List.mem_map.mp hmem
  · intro hi
    exact ⟨_, h.chain k hk, List.mem_map.mpr hi⟩

theorem buddy_start_lt (h : Inv P n b free (blk :: held)) : blk.buddy.start < 2 ^ 20 := by
  have hmem : blk ∈ blk :: held := List.mem_cons_self
  have hp := P.pages_lt
  have hord := (h.held_order_le hmem).trans_lt P.top_lt_twenty
  have hpow : 2 ^ blk.order < 2 ^ 20 := Nat.pow_lt_pow_right (by omega) hord
  exact Nat.xor_lt_two_pow ((h.held_lt hmem).trans hp) hpow

/-- The buddy address that `buddy_dealloc` computes is on the list of the order
exactly when the buddy block is free. -/
theorem onList_buddy_iff (h : Inv P n b free (blk :: held)) (hlt : blk.order < P.top) :
    b.OnList (p2v (P.paddr blk.start ^^^ blockSize blk.order)) blk.order ↔
      blk.buddy.start ∈ free blk.order := by
  have hj := buddy_start_lt h
  rw [P.paddr_xor hlt, P.p2v_paddr, h.onList_iff hlt.le]
  constructor
  · intro hi
    obtain ⟨i, hi, heq⟩ := hi
    have := P.addr_mod_eq hj (h.free_lt hlt.le hi) heq.symm
    exact (this : blk.buddy.start = i) ▸ hi
  · intro hmem
    exact ⟨_, hmem, (Nat.mod_eq_of_lt (P.addr_lt (h.free_lt hlt.le hmem))).symm⟩

/-- One round of merging: the buddy leaves its list and joins the block. -/
theorem merge_round (h : Inv P n b free (blk :: held)) (hlt : blk.order < P.top)
    {r : Bool × BuddyAllocator} {b' : BuddyAllocator}
    (hr : b.removeFromFreeList (P.addr blk.buddy.start % word) blk.order = some r)
    (hr1 : r.1 = true)
    (hb : r.2.markAllocated (P.addr blk.buddy.start % word) blk.order = some b') :
    blk.buddy.start ∈ free blk.order ∧
      Inv P n b' (Function.update free blk.order ((free blk.order).erase blk.buddy.start))
        (blk.parent :: held) ∧
      b'.mapSize = b.mapSize ∧
      ∀ p, b'.map p = if blk.buddy.Has p then true else b.map p := by
  have hj := buddy_start_lt h
  rcases removeFromFreeList_spec h hlt.le hr with ⟨rfl, -⟩ | ⟨-, i, hi, heq, hmap, hsize, hinv⟩
  · simp at hr1
  · have hib := h.free_lt hlt.le hi
    have hij : blk.buddy.start = i := P.addr_mod_eq hj hib heq.symm
    subst hij
    rw [Nat.mod_eq_of_lt (P.addr_lt hib)] at hb
    obtain ⟨hinv', hsize', -, hbits⟩ := mark_spec hinv hib hb
    refine ⟨hi, hinv'.merge, hsize'.trans hsize, fun p => ?_⟩
    rw [hbits p, hmap]
    rfl

/-- The merging loop ends with a block that may be put on its list. -/
theorem mergeLoop_spec {m : ℕ} (h : Inv P n b free (blk :: held)) (hm : blk.order + m = P.top)
    {r : BuddyAllocator × ℕ × ℕ} (hr : mergeLoop m b (P.paddr blk.start) blk.order = some r) :
    ∃ blk' free', r.2 = (P.paddr blk'.start, blk'.order) ∧
      Inv P n r.1 free' (blk' :: held) ∧ r.1.mapSize = b.mapSize ∧
      ∀ p, b.map p = true → r.1.map p = true := by
  induction m generalizing b free blk with
  | zero =>
      cases hr
      exact ⟨blk, free, rfl, h, rfl, fun _ hp => hp⟩
  | succ m ih =>
      have hlt : blk.order < P.top := by omega
      simp only [mergeLoop, P.paddr_xor hlt, P.p2v_paddr] at hr
      split_ifs at hr with hfree
      · simp only [Option.bind_eq_bind, Option.bind_eq_some_iff] at hr
        obtain ⟨s, hs, hr⟩ := hr
        split_ifs at hr with hs1
        · simp only [Option.bind_eq_some_iff] at hr
          obtain ⟨b', hb', hr⟩ := hr
          obtain ⟨-, hinv, hsize, hbits⟩ := merge_round h hlt hs hs1 hb'
          rw [P.paddr_min] at hr
          obtain ⟨blk', free', hr2, hinv', hsize', hmono⟩ :=
            ih hinv (by simp only [Block.parent_order]; omega) hr
          refine ⟨blk', free', hr2, hinv', hsize'.trans hsize, fun p hp => hmono p ?_⟩
          rw [hbits p, hp, ite_self]
        · cases hr
          rcases removeFromFreeList_spec h hlt.le hs with ⟨rfl, -⟩ | ⟨hs1', -⟩
          · exact ⟨blk, free, rfl, h, rfl, fun _ hp => hp⟩
          · exact absurd hs1' hs1
      · cases hr
        exact ⟨blk, free, rfl, h, rfl, fun _ hp => hp⟩

/-- Without a free buddy the loop stops at once. -/
theorem mergeLoop_of_not_mem {m : ℕ} (h : Inv P n b free (blk :: held))
    (hm : blk.order + m = P.top) (hnot : blk.order < P.top → blk.buddy.start ∉ free blk.order)
    {r : BuddyAllocator × ℕ × ℕ} (hr : mergeLoop m b (P.paddr blk.start) blk.order = some r) :
    r = (b, P.paddr blk.start, blk.order) := by
  cases m with
  | zero =>
      cases hr
      rfl
  | succ m =>
      have hlt : blk.order < P.top := by omega
      have hj := buddy_start_lt h
      simp only [mergeLoop, P.paddr_xor hlt, P.p2v_paddr] at hr
      split_ifs at hr with hfree
      · simp only [Option.bind_eq_bind, Option.bind_eq_some_iff] at hr
        obtain ⟨s, hs, hr⟩ := hr
        rcases removeFromFreeList_spec h hlt.le hs with ⟨rfl, -⟩ | ⟨-, i, hi, heq, -⟩
        · cases hr
          rfl
        · have hij : blk.buddy.start = i := P.addr_mod_eq hj (h.free_lt hlt.le hi) heq.symm
          exact absurd (hij ▸ hi) (hnot hlt)
      · cases hr
        rfl

theorem allClear_of {m i : ℕ} (hsize : i + m ≤ 8 * b.mapSize)
    (hclear : ∀ p, i ≤ p → p < i + m → b.map p = false) : b.allClear m i = true := by
  induction m generalizing i with
  | zero => rfl
  | succ m ih =>
      rw [allClear, if_neg (by omega), hclear i le_rfl (by omega)]
      exact ih (by omega) fun p hp hp' => hclear p (by omega) (by omega)

/-- With a free buddy whose bits are clear the loop absorbs it and leaves its
bits set. -/
theorem mergeLoop_of_mem {m : ℕ} (h : Inv P n b free (blk :: held))
    (hm : blk.order + m = P.top) (hlt : blk.order < P.top)
    (hmem : blk.buddy.start ∈ free blk.order) (hsize : b.mapSize ≠ 0)
    (hclear : ∀ p, blk.buddy.Has p → b.map p = false)
    {r : BuddyAllocator × ℕ × ℕ} (hr : mergeLoop m b (P.paddr blk.start) blk.order = some r) :
    ∀ p, blk.buddy.Has p → r.1.map p = true := by
  cases m with
  | zero => omega
  | succ m =>
      have hj := buddy_start_lt h
      have hend := h.tiles.end_le (h.mem_free hlt.le hmem)
      have hle := h.le
      have hmap := h.covers hsize
      have hfree : b.isBlockFree (b.pageIndex (P.addr blk.buddy.start % word)) blk.order = true := by
        rw [h.pageIndex_eq hj]
        exact allClear_of (by simp only at hend; omega) fun p hp hp' => hclear p ⟨hp, hp'⟩
      simp only [mergeLoop, P.paddr_xor hlt, P.p2v_paddr] at hr
      have hxor : blk.start ^^^ 2 ^ blk.order = blk.buddy.start := rfl
      rw [hxor, if_pos hfree] at hr
      simp only [Option.bind_eq_bind, Option.bind_eq_some_iff] at hr
      obtain ⟨s, hs, hr⟩ := hr
      rcases removeFromFreeList_spec h hlt.le hs with ⟨-, hnot⟩ | ⟨hs1, -⟩
      · refine absurd ?_ (hnot _ hmem)
        exact (Nat.mod_eq_of_lt (P.addr_lt (h.free_lt hlt.le hmem))).symm
      · rw [if_pos hs1] at hr
        simp only [Option.bind_eq_some_iff] at hr
        obtain ⟨b', hb', hr⟩ := hr
        obtain ⟨-, hinv, -, hbits⟩ := merge_round h hlt hs hs1 hb'
        rw [P.paddr_min] at hr
        obtain ⟨-, -, -, -, -, hmono⟩ :=
          mergeLoop_spec hinv (by simp only [Block.parent_order]; omega) hr
        intro p hp
        refine hmono p ?_
        rw [hbits p, if_pos hp]

/-- `buddy_dealloc` of a held block, up to its merging loop. -/
theorem buddyDealloc_eq_some (h : Inv P n b free (blk :: held)) {b' : BuddyAllocator}
    (hb : b.buddyDealloc (P.paddr blk.start) blk.order = some b') :
    ∃ b₁ r, Inv P n b₁ free (blk :: held) ∧ b₁.mapSize = b.mapSize ∧ b.mapSize ≠ 0 ∧
      (∀ p, b₁.map p = if blk.Has p then false else b.map p) ∧
      mergeLoop (P.top - blk.order) b₁ (P.paddr blk.start) blk.order = some r ∧
      b' = r.1.buddyListAdd (p2v r.2.1) r.2.2 := by
  have hlt := h.held_lt (List.mem_cons_self : blk ∈ blk :: held)
  simp only [buddyDealloc, P.p2v_paddr_of_lt hlt, Option.bind_eq_bind, Option.pure_def,
    Option.bind_eq_some_iff, Option.some.injEq] at hb
  obtain ⟨b₁, hb₁, r, hr, rfl⟩ := hb
  obtain ⟨hinv, hsize, hne, hbits⟩ := mark_spec h hlt hb₁
  rw [h.top_eq] at hr
  exact ⟨b₁, r, hinv, hsize, hne, hbits, hr, rfl⟩

/-- Releasing a held block keeps the tiling. -/
theorem buddyDealloc_spec (h : Inv P n b free (blk :: held)) {b' : BuddyAllocator}
    (hb : b.buddyDealloc (P.paddr blk.start) blk.order = some b') :
    ∃ free', Inv P n b' free' held := by
  have hord := h.held_order_le (List.mem_cons_self : blk ∈ blk :: held)
  obtain ⟨b₁, r, hinv, -, -, -, hr, rfl⟩ := buddyDealloc_eq_some h hb
  obtain ⟨blk', free', hr2, hinv', -, -⟩ := mergeLoop_spec hinv (by omega) hr
  rw [hr2, P.p2v_paddr_of_lt (hinv'.held_lt List.mem_cons_self)]
  exact ⟨_, hinv'.listAdd⟩

/-- Releasing a block whose buddy is not free puts it on its list and clears its
bits. -/
theorem buddyDealloc_of_not_mem (h : Inv P n b free (blk :: held)) {b' : BuddyAllocator}
    (hnot : blk.order < P.top → blk.buddy.start ∉ free blk.order)
    (hb : b.buddyDealloc (P.paddr blk.start) blk.order = some b') :
    Inv P n b' (Function.update free blk.order (blk.start :: free blk.order)) held ∧
      b'.mapSize = b.mapSize ∧ ∀ p, b'.map p = if blk.Has p then false else b.map p := by
  have hord := h.held_order_le (List.mem_cons_self : blk ∈ blk :: held)
  obtain ⟨b₁, r, hinv, hsize, -, hbits, hr, rfl⟩ := buddyDealloc_eq_some h hb
  rw [mergeLoop_of_not_mem hinv (by omega) hnot hr,
    P.p2v_paddr_of_lt (h.held_lt List.mem_cons_self)]
  exact ⟨hinv.listAdd, hsize, hbits⟩

/-- Releasing a block whose buddy is free leaves the bits of the buddy set. -/
theorem buddyDealloc_of_mem (h : Inv P n b free (blk :: held)) {b' : BuddyAllocator}
    (hlt : blk.order < P.top) (hmem : blk.buddy.start ∈ free blk.order)
    (hclear : ∀ p, blk.buddy.Has p → b.map p = false)
    (hb : b.buddyDealloc (P.paddr blk.start) blk.order = some b') :
    ∀ p, blk.buddy.Has p → b'.map p = true := by
  obtain ⟨b₁, r, hinv, hsize, hne, hbits, hr, rfl⟩ := buddyDealloc_eq_some h hb
  have hal : blk.Aligned := h.aligned blk (by simp)
  refine mergeLoop_of_mem hinv (by omega) hlt hmem (hsize ▸ hne) (fun p hp => ?_) hr
  rw [hbits p, if_neg fun hbp => Block.buddy_disjoint hal p ⟨hbp, hp⟩]
  exact hclear p hp

/-- The splitting loop frees the right halves; each new free block has a buddy
over the first page of the block that is kept. -/
theorem splitLoop_spec {i k order : ℕ} (hok : order ≤ k)
    (h : Inv P n b free (⟨i, k⟩ :: held)) :
    ∃ free', Inv P n (splitLoop order (P.addr i) k b) free' (⟨i, order⟩ :: held) ∧
      (splitLoop order (P.addr i) k b).map = b.map ∧
      (splitLoop order (P.addr i) k b).mapSize = b.mapSize ∧
      ∀ c ∈ byOrder free' (P.top + 1), c ∈ byOrder free (P.top + 1) ∨ c.buddy.Has i := by
  induction k generalizing b free with
  | zero =>
      obtain rfl : order = 0 := by omega
      exact ⟨free, h, rfl, rfl, fun c hc => .inl hc⟩
  | succ k ih =>
      rw [splitLoop]
      by_cases hlt : order < k + 1
      · rw [if_pos hlt]
        have hsplit := h.split
        have hright := hsplit.held_lt List.mem_cons_self
        have hkt := hsplit.held_order_le List.mem_cons_self
        have hal : (⟨i, k + 1⟩ : Block).Aligned := h.aligned _ (by simp)
        have haddr : wadd (P.addr i) (blockSize k) = P.addr (i + 2 ^ k) := by
          have := P.addr_lt hright
          rw [wadd_of_lt] <;> simp only [Pool.addr, blockSize] at * <;> linarith
        rw [haddr]
        obtain ⟨free', hinv, hmap, hsize, hnew⟩ := ih (by omega) hsplit.listAdd
        refine ⟨free', hinv, hmap, hsize, fun c hc => ?_⟩
        rcases hnew c hc with hc | hc
        · obtain ⟨hck, hcs⟩ := mem_byOrder.mp hc
          by_cases hkc : c.order = k
          · rw [hkc, Function.update_self] at hcs
            rcases List.mem_cons.mp hcs with hcs | hcs
            · right
              have hleft : (⟨i, k⟩ : Block).Aligned := hsplit.aligned _ (by simp)
              have hbud : (⟨i, k⟩ : Block).buddy = ⟨i + 2 ^ k, k⟩ := by
                obtain ⟨m, hm⟩ := hal
                simp only at hm
                rw [Block.buddy, Block.flip_bit]
                simp only [Block.mk.injEq, and_true]
                rw [hm, pow_succ, Nat.mul_assoc, Nat.mul_div_cancel_left _ (Nat.two_pow_pos k),
                  Nat.mul_mod_right, Nat.xor_one_of_even (even_two_mul m)]
                ring
              have hceq : c = (⟨i, k⟩ : Block).buddy := by
                rw [hbud]
                cases c
                simp only at hkc hcs
                rw [hkc, hcs]
              rw [hceq, Block.buddy_buddy]
              exact Block.has_start _
            · exact .inl (mem_byOrder.mpr ⟨hck, hkc ▸ hcs⟩)
          · rw [Function.update_of_ne hkc] at hcs
            exact .inl (mem_byOrder.mpr ⟨hck, hcs⟩)
        · exact .inr hc
      · rw [if_neg hlt]
        obtain rfl : order = k + 1 := by omega
        exact ⟨free, h, rfl, rfl, fun c hc => .inl hc⟩

theorem findOrder_le (m k : ℕ) : k ≤ b.findOrder m k := by
  induction m generalizing k with
  | zero => exact le_rfl
  | succ m ih =>
      rw [findOrder]
      split_ifs
      · exact (Nat.le_succ k).trans (ih (k + 1))
      · exact le_rfl

/-- The first block of a list that is not empty leaves it. -/
theorem pop_spec (h : Inv P n b free held) {k : ℕ} (hkt : k ≤ P.top) (hne : b.freeLists k ≠ 0) :
    ∃ i, b.freeLists k = P.addr i ∧
      Inv P n { b with freeLists := Function.update b.freeLists k (b.next (P.addr i)) }
        (Function.update free k ((free k).erase i)) (⟨i, k⟩ :: held) := by
  cases hf : free k with
  | nil => exact absurd ((h.head_eq_zero hkt).mpr hf) hne
  | cons i l =>
      have hchain := h.chain k hkt
      rw [hf, List.map_cons] at hchain
      refine ⟨i, hchain.1, ?_⟩
      rw [← hf]
      apply h.take hkt (by simp [hf]) _ fun _ _ _ _ _ => rfl
      rw [hf, List.erase_cons_head]
      exact hchain.2.2

/-- `buddy_alloc` takes the first block of a list, splits it and marks what it keeps. -/
theorem buddyAlloc_eq_some (h : Inv P n b free held) {order paddr : ℕ} {b' : BuddyAllocator}
    (hb : b.buddyAlloc order = some (paddr, b')) :
    (paddr = 0 ∧ b' = b) ∨ ∃ k i, order ≤ k ∧ paddr = P.paddr i ∧
      Inv P n { b with freeLists := Function.update b.freeLists k (b.next (P.addr i)) }
        (Function.update free k ((free k).erase i)) (⟨i, k⟩ :: held) ∧
      (splitLoop order (P.addr i) k
        { b with freeLists := Function.update b.freeLists k (b.next (P.addr i)) }).markAllocated
          (P.addr i) order = some b' := by
  rw [buddyAlloc] at hb
  split_ifs at hb with htop
  · cases hb
    exact .inl ⟨rfl, rfl⟩
  · generalize hk : b.findOrder (b.maxOrder + 1 - order) order = k at hb
    simp only at hb
    split_ifs at hb with hnull
    · cases hb
      exact .inl ⟨rfl, rfl⟩
    · have hok : order ≤ k := hk ▸ findOrder_le _ _
      have hkt : k ≤ P.top := by
        by_contra! hgt
        exact hnull (h.above k hgt)
      simp only [Option.bind_eq_bind, Option.pure_def, Option.bind_eq_some_iff,
        Option.some.injEq, Prod.mk.injEq] at hb
      obtain ⟨b₂, hb₂, rfl, rfl⟩ := hb
      obtain ⟨i, hhead, hpop⟩ := pop_spec h hkt hnull
      have hi := hpop.held_lt List.mem_cons_self
      rw [hhead] at hb₂
      exact .inr ⟨k, i, hok, by rw [hhead, P.v2p_addr hi], hpop, hb₂⟩

/-- The search stops at a list that is not empty, if there is one. -/
theorem findOrder_ne_zero {m j k : ℕ} (hk : k ≤ j) (hj : j < k + m) (hne : b.freeLists j ≠ 0) :
    b.freeLists (b.findOrder m k) ≠ 0 := by
  induction m generalizing k with
  | zero => omega
  | succ m ih =>
      unfold findOrder
      split_ifs with hzero
      · apply ih _ (by omega)
        have hkj : k ≠ j := fun heq => hne (heq ▸ hzero)
        omega
      · exact hzero

/-- `buddy_alloc` finds memory if a list of the order or above is not empty. -/
theorem buddyAlloc_ne_zero (h : Inv P n b free held) {j order paddr : ℕ} {b' : BuddyAllocator}
    (hj : order ≤ j) (hjt : j ≤ P.top) (hne : free j ≠ []) (hb : b.buddyAlloc order = some (paddr, b')) :
    paddr ≠ 0 := by
  have hlist : b.freeLists j ≠ 0 := fun hzero => hne ((h.head_eq_zero hjt).mp hzero)
  have hfound : b.freeLists (b.findOrder (b.maxOrder + 1 - order) order) ≠ 0 := by
    apply findOrder_ne_zero hj _ hlist
    rw [h.top_eq]
    omega
  have hkt : b.findOrder (b.maxOrder + 1 - order) order ≤ P.top := by
    by_contra! hgt
    exact hfound (h.above _ hgt)
  have hok : order ≤ b.findOrder (b.maxOrder + 1 - order) order := findOrder_le _ _
  unfold buddyAlloc at hb
  rw [if_neg (by rw [h.top_eq]; omega)] at hb
  dsimp only at hb
  rw [if_neg hfound] at hb
  generalize b.findOrder (b.maxOrder + 1 - order) order = k at *
  simp only [Option.bind_eq_bind, Option.pure_def, Option.bind_eq_some_iff, Option.some.injEq,
    Prod.mk.injEq] at hb
  obtain ⟨b₂, hb₂, rfl, -⟩ := hb
  obtain ⟨i, hhead, hpop⟩ := pop_spec h hkt hfound
  have hi : i < P.pages := hpop.held_lt List.mem_cons_self
  rw [hhead] at hb₂ ⊢
  obtain ⟨free', hinv, -, hsize, -⟩ := splitLoop_spec hok hpop
  obtain ⟨-, -, hmap, -⟩ := mark_spec hinv hi hb₂
  have hbase := h.null_free (hsize ▸ hmap)
  rw [P.v2p_addr hi]
  simp only [Pool.paddr]
  omega

/-- `buddy_alloc` returns null and changes nothing, or hands out one more block. -/
theorem buddyAlloc_spec (h : Inv P n b free held) {order paddr : ℕ} {b' : BuddyAllocator}
    (hb : b.buddyAlloc order = some (paddr, b')) :
    (paddr = 0 ∧ b' = b) ∨
      (paddr ≠ 0 ∧ ∃ i free', paddr = P.paddr i ∧ Inv P n b' free' (⟨i, order⟩ :: held) ∧
        (∀ p, b'.map p = if Block.Has ⟨i, order⟩ p then true else b.map p) ∧
        ∀ c ∈ byOrder free' (P.top + 1), c ∈ byOrder free (P.top + 1) ∨ c.buddy.Has i) := by
  rcases buddyAlloc_eq_some h hb with hnone | ⟨k, i, hok, rfl, hpop, hmark⟩
  · exact .inl hnone
  · have hi := hpop.held_lt List.mem_cons_self
    obtain ⟨free', hinv, hmap, hsize, hnew⟩ := splitLoop_spec hok hpop
    obtain ⟨hinv', -, hne, hbits⟩ := mark_spec hinv hi hmark
    refine .inr ⟨?_, i, free', rfl, hinv', fun p => ?_, fun c hc => ?_⟩
    · have := h.null_free (hsize ▸ hne)
      simp only [Pool.paddr]
      omega
    · rw [hbits p, hmap]
    · rcases hnew c hc with hc | hc
      · obtain ⟨hck, hcs⟩ := mem_byOrder.mp hc
        refine .inl (mem_byOrder.mpr ⟨hck, ?_⟩)
        by_cases hkc : c.order = k
        · rw [hkc, Function.update_self] at hcs
          exact hkc ▸ List.mem_of_mem_erase hcs
        · rwa [Function.update_of_ne hkc] at hcs
      · exact .inr hc

end BuddyAllocator
end Ferrite.Memory
