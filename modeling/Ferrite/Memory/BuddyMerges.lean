import Mathlib
import Ferrite.Memory.BuddyRuns

/-!
# The blocks that a release takes for free buddies

`is_block_free` looks at bits only, and `remove_from_free_list` reads `head->next` before it
knows that there is a head. A clear aligned block of the pool is a part of one free block: of
two free buddies one has a bit that is still set. Behind the pool no bit is ever set, so that a
block at its end is taken to have a free buddy where the bitmap reaches that far.
-/
namespace Ferrite.Memory
open Word DyadicBlocks Chain Runs BuddyAllocator

namespace BuddyAllocator

/-- The calls of `remove_from_free_list` in the merging loop, each with the state before it. -/
def mergeTargets : ℕ → BuddyAllocator → ℕ → ℕ → List (BuddyAllocator × ℕ × ℕ)
  | 0, _, _, _ => []
  | n + 1, b, paddr, order =>
      let buddyPaddr := paddr ^^^ blockSize order
      let buddyVaddr := p2v buddyPaddr
      if b.isBlockFree (b.pageIndex buddyVaddr) order then
        (b, buddyVaddr, order) ::
          match b.removeFromFreeList buddyVaddr order with
          | some (true, b') =>
              match b'.markAllocated buddyVaddr order with
              | some b' => mergeTargets n b' (min paddr buddyPaddr) (order + 1)
              | none => []
          | _ => []
      else []

def deallocTargets (b : BuddyAllocator) (paddr order : ℕ) : List (BuddyAllocator × ℕ × ℕ) :=
  match b.markFree (p2v paddr) order with
  | some b' => mergeTargets (b'.maxOrder - order) b' paddr order
  | none => []

/-- The bitmap reaches to the end of the buddy of the last carved block. -/
def BitBehind (b : BuddyAllocator) : Prop :=
  ∃ k < b.maxOrder, ∃ q, b.size / pageSize = 2 ^ k * (2 * q + 1) ∧ b.size / pageSize + 2 ^ k ≤ 8 * b.mapSize

end BuddyAllocator

/-- A block taken for a free buddy lies in the pool, and its list has a head. -/
def Inside (y : BuddyAllocator × ℕ × ℕ) : Prop :=
  wsub y.2.1 y.1.base + blockSize y.2.2 ≤ y.1.size ∧ y.1.freeLists y.2.2 ≠ 0

/-- The release of any live block looks inside the pool only. -/
def LooksInside (s : System) : Prop := ∀ x ∈ s.live, ∀ y ∈ s.b.deallocTargets x.1 x.2, Inside y

variable {P : Pool} {b b' : BuddyAllocator} {free : ℕ → List ℕ} {held : List Block}
  {live : List (ℕ × ℕ)} {blk c : Block} {s t : System} {e : Call} {i j k m n : ℕ}

/-! ## Bits -/

theorem allClear_iff : b.allClear m i = true ↔ ∀ p, i ≤ p → p < i + m → p / 8 < b.mapSize ∧
    b.map p = false := by
  induction m generalizing i with
  | zero => exact iff_of_true rfl fun p hp hlt => by omega
  | succ m ih =>
      unfold allClear
      constructor
      · intro h
        split_ifs at h with hout hset
        intro p hp hlt
        by_cases hpi : p = i
        · rw [hpi]
          exact ⟨by omega, by simpa using hset⟩
        · exact ih.mp h p (by omega) (by omega)
      · intro h
        obtain ⟨hin, hclear⟩ := h i le_rfl (by omega)
        rw [if_neg (by omega), if_neg (by simp [hclear])]
        exact ih.mpr fun p hp hlt => h p (by omega) (by omega)

theorem isBlockFree_iff : b.isBlockFree c.start c.order = true ↔ ∀ p, c.Has p → p / 8 < b.mapSize ∧
    b.map p = false := by
  unfold isBlockFree
  rw [allClear_iff]
  constructor
  · intro h p hp
    exact h p hp.1 hp.2
  · intro h p hp hlt
    exact h p ⟨hp, hlt⟩

/-- A clear buddy of a block of the pool ends with the pool. -/
theorem buddy_end_le (hno : ∀ k < P.top, ∀ q, P.pages = 2 ^ k * (2 * q + 1) → 8 * n < P.pages + 2 ^ k)
    (hal : blk.Aligned) (hend : blk.start + 2 ^ blk.order ≤ P.pages) (hlt : blk.order < P.top)
    (hbits : blk.buddy.start + 2 ^ blk.order ≤ 8 * n) : blk.buddy.start + 2 ^ blk.order ≤ P.pages := by
  obtain ⟨i, k⟩ := blk
  obtain ⟨a, ha⟩ := hal
  have hpos := Nat.two_pow_pos k
  have hbuddy : (Block.buddy ⟨i, k⟩).start = 2 ^ k * (a ^^^ 1) := by
    unfold Block.buddy
    dsimp only at ha ⊢
    rw [Block.flip_bit, ha, Nat.mul_div_cancel_left _ hpos, Nat.mul_mod_right, Nat.add_zero]
  rw [hbuddy] at hbits ⊢
  dsimp only at ha hend hlt hbits ⊢
  rcases Nat.even_or_odd a with heven | hodd
  · rw [Nat.xor_one_of_even heven] at hbits ⊢
    obtain ⟨r, rfl⟩ := heven
    rw [show r + r + 1 = 2 * r + 1 by omega] at hbits ⊢
    have hnext : i + 2 ^ k = 2 ^ k * (2 * r + 1) := by
      rw [ha]
      ring
    by_contra! hout
    by_cases hfull : P.pages = 2 ^ k * (2 * r + 1)
    · have := hno k hlt r hfull
      omega
    · -- the pool ends inside the buddy, at a multiple of a smaller block
      obtain ⟨d, hd⟩ : ∃ d, P.pages = 2 ^ k * (2 * r + 1) + d := ⟨_, (Nat.add_sub_of_le (by omega)).symm⟩
      obtain ⟨e, o, ⟨u, hu⟩, hde⟩ := Nat.exists_eq_two_pow_mul_odd (n := d) (by omega)
      have hdk : d < 2 ^ k := by omega
      have hek : e < k := by
        apply (Nat.pow_lt_pow_iff_right (a := 2) (by omega)).mp
        have hle : 2 ^ e * 1 ≤ 2 ^ e * o := Nat.mul_le_mul_left _ (by omega)
        omega
      obtain ⟨w, hw⟩ : ∃ w, 2 ^ k = 2 ^ e * (2 * w) := by
        refine ⟨2 ^ (k - e - 1), ?_⟩
        rw [← pow_succ', ← pow_add, show e + (k - e - 1 + 1) = k by omega]
      have hlast := hno e (hek.trans hlt) (w * (2 * r + 1) + u) (by rw [hd, hde, hw, hu]; ring)
      have hstep : 2 ^ e * (o + 1) ≤ 2 ^ e * (2 * w) := by
        apply Nat.mul_le_mul_left
        have := Nat.lt_of_mul_lt_mul_left (a := 2 ^ e) (b := o) (c := 2 * w) (by omega)
        omega
      rw [Nat.mul_add, Nat.mul_one] at hstep
      omega
  · rw [Nat.xor_one_of_odd hodd]
    obtain ⟨r, rfl⟩ := hodd
    rw [Nat.add_sub_cancel, ← Nat.mul_add_one]
    omega

/-! ## A clear block -/

/-- The bits of held blocks are set, and one of two free buddies has a bit that is. -/
structure Marked (P : Pool) (b : BuddyAllocator) (free : ℕ → List ℕ) (held : List Block) : Prop where
  held : ∀ c ∈ held, ∀ p, c.Has p → b.map p = true
  apart : ∀ c ∈ byOrder free (P.top + 1), c.order < P.top → c.buddy ∈ byOrder free (P.top + 1) →
    ∃ p, c.parent.Has p ∧ b.map p = true

/-- A clear buddy of a block that is being released is on its list. -/
theorem Marked.buddy_mem (hm : Marked P b free held) (h : Inv P P.pages b free (blk :: held))
    (hlt : blk.order < P.top)
    (hend : blk.buddy.start + 2 ^ blk.order ≤ P.pages) (hclear : ∀ p, blk.buddy.Has p → b.map p = false) :
    blk.buddy.start ∈ free blk.order := by
  have hal : blk.Aligned := h.aligned _ (by simp)
  have halb : blk.buddy.Aligned := Block.buddy_aligned hal
  have hpages : ∀ p, blk.buddy.Has p → p < P.pages := fun p hp => hp.2.trans_le hend
  -- no held block is over a page of the buddy
  have hfree : ∀ c ∈ byOrder free (P.top + 1) ++ blk :: held, ∀ p, blk.buddy.Has p → c.Has p →
      c ∈ byOrder free (P.top + 1) := by
    intro c hc p hp hcp
    rcases List.mem_append.mp hc with hc | hc
    · exact hc
    · exfalso
      rcases List.mem_cons.mp hc with rfl | hc
      · exact Block.buddy_disjoint hal p ⟨hcp, hp⟩
      · have := hm.held c hc p hcp
        rw [hclear p hp] at this
        cases this
  obtain ⟨d, hd, hdp⟩ := (h.tiles.lt_iff _).mp (hpages _ blk.buddy.has_start)
  have hald := h.aligned d hd
  have hdfree := hfree d hd _ blk.buddy.has_start hdp
  rcases lt_trichotomy d.order blk.order with hsmall | hsame | hlarge
  · -- smaller blocks over the buddy include two buddies, and these have a bit that is set
    exfalso
    have hstart : blk.buddy.Has d.start := Block.nested hald halb hsmall.le hdp blk.buddy.has_start d.has_start
    obtain ⟨e, he, hle, hin, hbuddy⟩ :=
      exists_buddies h.tiles h.aligned halb hpages d.order hsmall ⟨d, hd, rfl, hstart⟩
    have hale := h.aligned e he
    have hparent : ∀ p, e.parent.Has p → blk.buddy.Has p := by
      intro p hp
      apply Block.nested (Block.parent_aligned hale) halb _ _ hin hp
      · rw [Block.parent_order, Block.buddy_order]
        omega
      · exact (Block.parent_has hale _).mpr (.inl e.has_start)
    have hother : blk.buddy.Has e.buddy.start :=
      hparent _ ((Block.parent_has hale _).mpr (.inr e.buddy.has_start))
    obtain ⟨p, hp, hset⟩ := hm.apart e (hfree e he _ hin e.has_start) (by omega)
      (hfree e.buddy hbuddy _ hother e.buddy.has_start)
    rw [hclear p (hparent p hp)] at hset
    cases hset
  · have heq : d = blk.buddy := Block.eq_of_has hald halb hsame hdp blk.buddy.has_start
    rw [heq] at hdfree
    exact (mem_byOrder.mp hdfree).2
  · -- a larger block over the buddy is over the block itself
    exfalso
    have hover : d.Has blk.start := by
      apply Block.nested (Block.parent_aligned hal) hald hlarge _ hdp
      · exact (Block.parent_has hal _).mpr (.inl blk.has_start)
      · exact (Block.parent_has hal _).mpr (.inr blk.buddy.has_start)
    have heq := h.tiles.unique hd (by simp) hover blk.has_start
    rw [heq] at hlarge
    exact lt_irrefl _ hlarge

theorem Marked.mono (hm : Marked P b free held) {free' : ℕ → List ℕ}
    (hsub : ∀ c ∈ byOrder free' (P.top + 1), c ∈ byOrder free (P.top + 1))
    (hbits : ∀ p, b.map p = true → b'.map p = true) : Marked P b' free' held := by
  constructor
  · intro c hc p hp
    exact hbits p (hm.held c hc p hp)
  · intro c hc hlt hbuddy
    obtain ⟨p, hp, hset⟩ := hm.apart c (hsub c hc) hlt (hsub _ hbuddy)
    exact ⟨p, hp, hbits p hset⟩

theorem mem_byOrder_erase {free : ℕ → List ℕ} (h : c ∈ byOrder (Function.update free k ((free k).erase i)) n) :
    c ∈ byOrder free n := by
  obtain ⟨hlt, hs⟩ := mem_byOrder.mp h
  apply mem_byOrder.mpr
  refine ⟨hlt, ?_⟩
  by_cases hck : c.order = k
  · rw [hck, Function.update_self] at hs
    rw [hck]
    exact List.mem_of_mem_erase hs
  · rwa [Function.update_of_ne hck] at hs

/-! ## The merging loop -/

theorem clear_buddy (h : Inv P P.pages b free (blk :: held))
    (hno : ∀ k < P.top, ∀ q, P.pages = 2 ^ k * (2 * q + 1) → 8 * b.mapSize < P.pages + 2 ^ k)
    (hlt : blk.order < P.top)
    (hfree : b.isBlockFree blk.buddy.start blk.order = true) :
    blk.buddy.start + 2 ^ blk.order ≤ P.pages ∧ ∀ p, blk.buddy.Has p → b.map p = false := by
  have hbits := isBlockFree_iff.mp hfree
  have hpos := Nat.two_pow_pos blk.order
  have hlast := (hbits (blk.buddy.start + 2 ^ blk.order - 1)
      ⟨by omega, by simp only [Block.buddy_order]; omega⟩).1
  refine ⟨?_, fun p hp => (hbits p hp).2⟩
  exact buddy_end_le hno (h.aligned _ (by simp)) (h.tiles.end_le (by simp)) hlt (by omega)

/-- The loop looks inside the pool only, and ends with a block whose buddy, if it is free,
has a bit that is set. -/
theorem mergeLoop_marked (hm : Marked P b free held) (h : Inv P P.pages b free (blk :: held))
    (hord : blk.order + m = P.top)
    (hno : ∀ k < P.top, ∀ q, P.pages = 2 ^ k * (2 * q + 1) → 8 * b.mapSize < P.pages + 2 ^ k)
    (hsize : b.mapSize ≠ 0) :
    (∀ y ∈ mergeTargets m b (P.paddr blk.start) blk.order, Inside y) ∧
      ∀ r, mergeLoop m b (P.paddr blk.start) blk.order = some r → ∃ blk' free',
        r.2 = (P.paddr blk'.start, blk'.order) ∧ Inv P P.pages r.1 free' (blk' :: held) ∧
          Marked P r.1 free' held ∧
        r.1.mapSize = b.mapSize ∧ (blk'.order < P.top → blk'.buddy ∈ byOrder free' (P.top + 1) →
          ∃ p, blk'.buddy.Has p ∧ r.1.map p = true) := by
  induction m generalizing b free blk with
  | zero =>
      constructor
      · intro y hy
        cases hy
      · intro r hr
        cases hr
        exact ⟨blk, free, rfl, h, hm, rfl, fun hlt => by omega⟩
  | succ m ih =>
      have hlt : blk.order < P.top := by omega
      have hj := buddy_start_lt h
      have hxor : blk.start ^^^ 2 ^ blk.order = blk.buddy.start := rfl
      unfold mergeTargets mergeLoop
      simp only [P.paddr_xor hlt, P.p2v_paddr, hxor, h.pageIndex_eq hj]
      by_cases hfree : b.isBlockFree blk.buddy.start blk.order = true
      · rw [if_pos hfree, if_pos hfree]
        obtain ⟨hend, hclear⟩ := clear_buddy h hno hlt hfree
        have hmem := hm.buddy_mem h hlt hend hclear
        have hin : blk.buddy.start < P.pages := h.free_lt hlt.le hmem
        have hmod : P.addr blk.buddy.start % word = P.addr blk.buddy.start := Nat.mod_eq_of_lt (P.addr_lt hin)
        have hinside : Inside (b, P.addr blk.buddy.start % word, blk.order) := by
          constructor
          · dsimp only
            rw [hmod, wsub_addr h hin, blockSize, ← Nat.mul_add, h.size_eq]
            exact Nat.mul_le_mul_left _ hend
          · intro hnull
            rw [(h.head_eq_zero hlt.le).mp hnull] at hmem
            cases hmem
        cases hremove : b.removeFromFreeList (P.addr blk.buddy.start % word) blk.order with
        | none =>
            constructor
            · intro y hy
              rw [List.mem_singleton.mp hy]
              exact hinside
            · intro r hr
              cases hr
        | some removed =>
            obtain ⟨found, b₁⟩ := removed
            cases found with
            | false =>
                exfalso
                rcases removeFromFreeList_spec h hlt.le hremove with ⟨-, hnot⟩ | ⟨htrue, -⟩
                · exact hnot _ hmem hmod.symm
                · cases htrue
            | true =>
                dsimp only [Option.bind_eq_bind, Option.bind_some]
                cases hmark : b₁.markAllocated (P.addr blk.buddy.start % word) blk.order with
                | none =>
                    constructor
                    · intro y hy
                      rw [List.mem_singleton.mp hy]
                      exact hinside
                    · intro r hr
                      cases hr
                | some b₂ =>
                    obtain ⟨-, hinv, hsize', hbits⟩ := merge_round h hlt hremove rfl hmark
                    rw [P.paddr_min]
                    have hmarked : Marked P b₂
                        (Function.update free blk.order ((free blk.order).erase blk.buddy.start))
                        held := by
                      apply hm.mono
                      · intro c hc
                        exact mem_byOrder_erase hc
                      · intro p hp
                        rw [hbits p, hp, ite_self]
                    obtain ⟨hrest, hloop⟩ := ih hmarked hinv (by simp only [Block.parent_order]; omega)
                      (by rw [hsize']; exact hno) (by rw [hsize']; exact hsize)
                    constructor
                    · intro y hy
                      rcases List.mem_cons.mp hy with rfl | hy
                      · exact hinside
                      · exact hrest y hy
                    · intro r hr
                      obtain ⟨blk', free', hr2, hinv', hmarked', hsize'', hlast⟩ := hloop r hr
                      exact ⟨blk', free', hr2, hinv', hmarked', hsize''.trans hsize', hlast⟩
      · rw [if_neg hfree, if_neg hfree]
        constructor
        · intro y hy
          cases hy
        · intro r hr
          cases hr
          refine ⟨blk, free, rfl, h, hm, rfl, fun _ hbuddy => ?_⟩
          by_contra! hclear
          apply hfree
          apply isBlockFree_iff.mpr
          intro p hp
          have hlt := h.tiles.lt_of_has (List.mem_append_left _ hbuddy) hp
          have hcovers := h.covers hsize
          exact ⟨by omega, by simpa using hclear p hp⟩

/-! ## The calls -/

/-- The block that is released has its bits cleared first. -/
theorem Marked.release (hm : Marked P b free (blk :: held)) (h : Inv P P.pages b free (blk :: held))
    (hbits : ∀ p, b'.map p = if blk.Has p then false else b.map p) : Marked P b' free held := by
  have hpw := List.pairwise_append.mp h.tiles.pairwise
  constructor
  · intro c hc p hp
    have hnot : ¬ blk.Has p := fun hbp => (List.pairwise_cons.mp hpw.2.1).1 c hc p ⟨hbp, hp⟩
    rw [hbits p, if_neg hnot]
    exact hm.held c (List.mem_cons_of_mem _ hc) p hp
  · intro c hc hlt hbuddy
    obtain ⟨p, hp, hset⟩ := hm.apart c hc hlt hbuddy
    have hal := h.aligned c (List.mem_append_left _ hc)
    have hnot : ¬ blk.Has p := by
      intro hbp
      rcases (Block.parent_has hal p).mp hp with hcp | hcp
      · exact hpw.2.2 c hc blk List.mem_cons_self p ⟨hcp, hbp⟩
      · exact hpw.2.2 _ hbuddy blk List.mem_cons_self p ⟨hcp, hbp⟩
    refine ⟨p, hp, ?_⟩
    rw [hbits p, if_neg hnot]
    exact hset

/-- The block goes to its list when its buddy is not free and clear. -/
theorem Marked.listAdd (hm : Marked P b free held) (hal : blk.Aligned)
    (hlast : blk.order < P.top → blk.buddy ∈ byOrder free (P.top + 1) → ∃ p, blk.buddy.Has p ∧ b.map p = true)
    (hbits : b'.map = b.map) :
    Marked P b' (Function.update free blk.order (blk.start :: free blk.order)) held := by
  have hcase : ∀ d ∈ byOrder (Function.update free blk.order (blk.start :: free blk.order)) (P.top + 1),
      d = blk ∨ d ∈ byOrder free (P.top + 1) := by
    intro d hd
    obtain ⟨hk, hs⟩ := mem_byOrder.mp hd
    by_cases hdk : d.order = blk.order
    · rw [hdk, Function.update_self] at hs
      rcases List.mem_cons.mp hs with hs | hs
      · left
        cases d
        cases blk
        simp only at hdk hs
        rw [hdk, hs]
      · exact .inr (mem_byOrder.mpr ⟨hk, hdk ▸ hs⟩)
    · rw [Function.update_of_ne hdk] at hs
      exact .inr (mem_byOrder.mpr ⟨hk, hs⟩)
  constructor
  · rw [hbits]
    exact hm.held
  · intro c hc hlt hbuddy
    rw [hbits]
    rcases hcase c hc with rfl | hold
    · rcases hcase _ hbuddy with heq | hold'
      · exfalso
        apply Block.buddy_disjoint hal c.start
        refine ⟨c.has_start, ?_⟩
        rw [heq]
        exact c.has_start
      · obtain ⟨p, hp, hset⟩ := hlast hlt hold'
        exact ⟨p, (Block.parent_has hal p).mpr (.inr hp), hset⟩
    · rcases hcase _ hbuddy with heq | hold'
      · have hc : c = blk.buddy := by rw [← heq, Block.buddy_buddy]
        subst hc
        obtain ⟨p, hp, hset⟩ := hlast hlt hold
        exact ⟨p, (Block.parent_has (Block.buddy_aligned hal) p).mpr (.inl hp), hset⟩
      · exact hm.apart c hold hlt hold'

/-- What the system keeps: the tiling, the bits and the size of the bitmap. -/
def Kept (P : Pool) (n : ℕ) (s : System) : Prop :=
  ∃ free held, Inv P P.pages s.b free held ∧ s.live = held.map (handle P) ∧
    Marked P s.b free held ∧ s.b.mapSize = n

/-- `buddy_dealloc` of a held block. -/
theorem Marked.dealloc (hm : Marked P b free (blk :: held)) (h : Inv P P.pages b free (blk :: held))
    (hno : ∀ k < P.top, ∀ q, P.pages = 2 ^ k * (2 * q + 1) → 8 * b.mapSize < P.pages + 2 ^ k) :
    (∀ y ∈ b.deallocTargets (P.paddr blk.start) blk.order, Inside y) ∧
      ∀ b', b.buddyDealloc (P.paddr blk.start) blk.order = some b' →
        ∃ free', Inv P P.pages b' free' held ∧ Marked P b' free' held ∧ b'.mapSize = b.mapSize := by
  have hlt := h.held_lt (List.mem_cons_self : blk ∈ blk :: held)
  have hle := h.held_order_le (List.mem_cons_self : blk ∈ blk :: held)
  unfold deallocTargets
  rw [P.p2v_paddr_of_lt hlt]
  constructor
  · cases hfree : b.markFree (P.addr blk.start) blk.order with
    | none =>
        intro y hy
        cases hy
    | some b₁ =>
        obtain ⟨hinv, hsize, hne, hbits⟩ := mark_spec h hlt hfree
        have hord : blk.order + (P.top - blk.order) = P.top := by omega
        dsimp only
        rw [hinv.top_eq]
        exact (mergeLoop_marked (hm.release h hbits) hinv hord (by rw [hsize]; exact hno)
          (by rw [hsize]; exact hne)).1
  · intro b' hb
    obtain ⟨b₁, r, hinv, hsize, hne, hbits, hr, rfl⟩ := buddyDealloc_eq_some h hb
    have hord : blk.order + (P.top - blk.order) = P.top := by omega
    obtain ⟨-, hloop⟩ := mergeLoop_marked (hm.release h hbits) hinv hord (by rw [hsize]; exact hno)
      (by rw [hsize]; exact hne)
    obtain ⟨blk', free', hr2, hinv', hmarked, hsize', hlast⟩ := hloop r hr
    rw [hr2, P.p2v_paddr_of_lt (hinv'.held_lt List.mem_cons_self)]
    exact ⟨_, hinv'.listAdd, hmarked.listAdd (hinv'.aligned _ (by simp)) hlast rfl, hsize'.trans hsize⟩

/-- `buddy_alloc` marks what it hands out. -/
theorem Marked.alloc (hm : Marked P b free held) {free' : ℕ → List ℕ}
    (h : Inv P P.pages b' free' (⟨i, k⟩ :: held))
    (hbits : ∀ p, b'.map p = if Block.Has ⟨i, k⟩ p then true else b.map p)
    (hnew : ∀ c ∈ byOrder free' (P.top + 1), c ∈ byOrder free (P.top + 1) ∨ c.buddy.Has i) :
    Marked P b' free' (⟨i, k⟩ :: held) := by
  have hover : ∀ d ∈ byOrder free' (P.top + 1), ¬ d.Has i := by
    intro d hd hdi
    obtain ⟨hlt, hs⟩ := mem_byOrder.mp hd
    exact h.not_has (Nat.lt_succ_iff.mp hlt) hs List.mem_cons_self hdi (Block.has_start _)
  have hmono : ∀ p, b.map p = true → b'.map p = true := by
    intro p hp
    rw [hbits p, hp, ite_self]
  constructor
  · intro c hc p hp
    rcases List.mem_cons.mp hc with rfl | hc
    · rw [hbits p, if_pos hp]
    · exact hmono p (hm.held c hc p hp)
  · intro c hc hlt hbuddy
    rcases hnew c hc with hold | hat
    · rcases hnew _ hbuddy with hold' | hat
      · obtain ⟨p, hp, hset⟩ := hm.apart c hold hlt hold'
        exact ⟨p, hp, hmono p hset⟩
      · rw [Block.buddy_buddy] at hat
        exact absurd hat (hover c hc)
    · exact absurd hat (hover _ hbuddy)

theorem buddyAlloc_mapSize (h : Inv P P.pages b free held) {paddr : ℕ}
    (hb : b.buddyAlloc k = some (paddr, b')) :
    b'.mapSize = b.mapSize := by
  rcases buddyAlloc_eq_some h hb with ⟨-, rfl⟩ | ⟨j, i, hle, -, hpop, hmark⟩
  · rfl
  · obtain ⟨free', hinv, -, hsize, -⟩ := splitLoop_spec hle hpop
    obtain ⟨-, hsize', -, -⟩ := mark_spec hinv (hpop.held_lt List.mem_cons_self) hmark
    exact hsize'.trans hsize

/-- Every call and every write keeps all that. -/
theorem Kept.step (hno : ∀ k < P.top, ∀ q, P.pages = 2 ^ k * (2 * q + 1) → 8 * n < P.pages + 2 ^ k)
    (h : Kept P n s)
    (hs : Step s e t) : Kept P n t := by
  obtain ⟨free, held, hinv, hlive, hm, hsize⟩ := h
  cases hs with
  | alloc hb hne =>
      have hsize' := buddyAlloc_mapSize hinv hb
      rcases buddyAlloc_spec hinv hb with ⟨hz, -⟩ | ⟨-, i, free', rfl, hinv', hbits, hnew⟩
      · exact absurd hz hne
      · simp only at hlive
        exact ⟨free', _, hinv', by simp [hlive, handle], hm.alloc hinv' hbits hnew, hsize'.trans hsize⟩
  | full hb =>
      rcases buddyAlloc_spec hinv hb with ⟨-, rfl⟩ | ⟨hne, -⟩
      · exact ⟨free, held, hinv, hlive, hm, hsize⟩
      · exact absurd rfl hne
  | dealloc hx hb =>
      simp only at hlive hinv hsize hm
      subst hlive
      obtain ⟨blk, held', heq, hinv', herase, hperm⟩ := exists_held hinv hx
      simp only [handle, Prod.mk.injEq] at heq
      obtain ⟨rfl, rfl⟩ := heq
      have hm' : Marked P _ free (blk :: held') := ⟨fun c hc => hm.held c (hperm.mem_iff.mpr hc), hm.apart⟩
      obtain ⟨free', hinv'', hmarked, hsize'⟩ := (hm'.dealloc hinv' (by rw [hsize]; exact hno)).2 _ hb
      exact ⟨free', held', hinv'', herase, hmarked, hsize'.trans hsize⟩
  | store hn =>
      simp only at hlive hinv hsize hm
      subst hlive
      exact ⟨free, held, hinv.store hn, rfl, ⟨hm.held, hm.apart⟩, hsize⟩

theorem Kept.looksInside (hno : ∀ k < P.top, ∀ q, P.pages = 2 ^ k * (2 * q + 1) → 8 * n < P.pages + 2 ^ k)
    (h : Kept P n s) : LooksInside s := by
  obtain ⟨free, held, hinv, hlive, hm, hsize⟩ := h
  intro x hx
  rw [hlive] at hx
  obtain ⟨blk, held', rfl, hinv', -, hperm⟩ := exists_held hinv hx
  have hm' : Marked P s.b free (blk :: held') := ⟨fun c hc => hm.held c (hperm.mem_iff.mpr hc), hm.apart⟩
  exact (hm'.dealloc hinv' (by rw [hsize]; exact hno)).1

/-! ## The last block of a pool -/

theorem markLoop_some {v : Bool} {map : ℕ → Bool} (h : i + m ≤ 8 * n) : ∃ map',
    markLoop v n m i map = some map' := by
  induction m generalizing i map with
  | zero => exact ⟨map, rfl⟩
  | succ m ih =>
      unfold markLoop
      rw [if_neg (by omega)]
      exact ih (by omega)

theorem mark_some (h : Inv P P.pages b free held) (v : Bool) (hi : i < P.pages)
    (hmap : i + 2 ^ k ≤ 8 * b.mapSize) :
    ∃ b', b.mark v (P.addr i) k = some b' := by
  obtain ⟨map', hmap'⟩ : ∃ map', markLoop v b.mapSize (2 ^ k) i b.map = some map' := markLoop_some hmap
  unfold mark
  rw [h.pageIndex_addr hi, hmap']
  exact ⟨_, rfl⟩

/-- The last block of a pool without free buddies is on its list. -/
theorem tail_mem (h : Inv P P.pages b free []) (hcoal : Coalesced P.top (byOrder free (P.top + 1)))
    (hk : k < P.top)
    {q : ℕ} (hn : P.pages = 2 ^ k * (2 * q + 1)) : 2 ^ k * (2 * q) ∈ free k := by
  have htiles := h.tiles
  have haligned := h.aligned
  rw [List.append_nil] at htiles haligned
  have hpos := Nat.two_pow_pos k
  have hend : 2 ^ k * (2 * q) + 2 ^ k = P.pages := by
    rw [hn]
    ring
  have hal : Block.Aligned ⟨2 ^ k * (2 * q), k⟩ := Dvd.intro _ rfl
  have hpages : ∀ p, Block.Has ⟨2 ^ k * (2 * q), k⟩ p → p < P.pages := fun p hp => hp.2.trans_le hend.le
  obtain ⟨d, hd, hdp⟩ := (htiles.lt_iff _).mp (hpages _ (Block.has_start _))
  have hald := haligned d hd
  rcases lt_trichotomy d.order k with hsmall | hsame | hlarge
  · exfalso
    have hstart := Block.nested hald hal hsmall.le hdp (Block.has_start _) d.has_start
    obtain ⟨e, he, hle, -, hbuddy⟩ :=
        exists_buddies htiles haligned hal hpages d.order hsmall ⟨d, hd, rfl, hstart⟩
    exact hcoal e he (by omega) hbuddy
  · have heq : d = ⟨2 ^ k * (2 * q), k⟩ := Block.eq_of_has hald hal hsame hdp (Block.has_start _)
    rw [heq] at hd
    exact (mem_byOrder.mp hd).2
  · -- a larger block would end behind the pool
    exfalso
    have hpow : 2 ^ (k + 1) = 2 ^ k * 2 := pow_succ 2 k
    have hale : Block.Aligned ⟨2 ^ k * (2 * q), k + 1⟩ := ⟨q, by rw [hpow, Nat.mul_assoc]⟩
    have hlast : d.Has (2 ^ k * (2 * q) + 2 ^ k) := by
      apply Block.nested hale hald hlarge (Block.has_start _) hdp
      constructor
      · dsimp only
        omega
      · dsimp only
        omega
    have := htiles.lt_of_has hd hlast
    omega

theorem splitLoop_self {addr : ℕ} : splitLoop k addr k b = b := by
  cases k with
  | zero => rfl
  | succ k =>
      unfold splitLoop
      exact if_neg (lt_irrefl _)

/-- `buddy_alloc` hands out the only block of its order. -/
theorem buddyAlloc_single (h : Inv P P.pages b free held) (hk : k ≤ P.top) (hfree : free k = [i])
    (hmap : P.pages ≤ 8 * b.mapSize) : ∃ b', b.buddyAlloc k = some (P.paddr i, b') := by
  have hmem : i ∈ free k := by rw [hfree]; exact List.mem_singleton.mpr rfl
  have hchain := h.chain k hk
  rw [hfree] at hchain
  have hhead : b.freeLists k = P.addr i := hchain.1
  have hne := P.addr_ne_zero i
  have hi := h.free_lt hk hmem
  have hend := h.tiles.end_le (h.mem_free hk hmem)
  have herase : Linked 0 b.next (b.next (P.addr i)) (((free k).erase i).map P.addr) := by
    rw [hfree, List.erase_cons_head]
    exact hchain.2.2
  have hpop := h.take hk hmem herase fun _ _ _ _ _ => rfl
  obtain ⟨b', hb'⟩ := mark_some hpop true hi (show i + 2 ^ k ≤ 8 * b.mapSize by simp only at hend; omega)
  have horder : b.findOrder (b.maxOrder + 1 - k) k = k := by
    rw [h.top_eq, show P.top + 1 - k = P.top - k + 1 by omega]
    unfold findOrder
    rw [if_neg (by rw [hhead]; exact hne)]
  unfold buddyAlloc
  dsimp only
  rw [if_neg (by rw [h.top_eq]; omega), horder, hhead, if_neg hne, splitLoop_self, P.v2p_addr hi]
  exact ⟨b', Option.bind_eq_some_iff.mpr ⟨b', hb', rfl⟩⟩

/-- The release of the last block then looks behind the pool. -/
theorem not_looksInside_tail (h : Inv P P.pages b free [⟨i, k⟩]) (hk : k < P.top) {q : ℕ}
    (hi : i = 2 ^ k * (2 * q))
    (hn : P.pages = 2 ^ k * (2 * q + 1)) (hmap : P.pages + 2 ^ k ≤ 8 * b.mapSize)
    (hclear : ∀ p, P.pages ≤ p → b.map p = false) : ¬ LooksInside ⟨b, [(P.paddr i, k)]⟩ := by
  intro hlooks
  have hpos := Nat.two_pow_pos k
  have hend : i + 2 ^ k = P.pages := by
    rw [hn, hi]
    ring
  have hlt : i < P.pages := by omega
  have hbuddy : i ^^^ 2 ^ k = P.pages := by
    rw [Block.flip_bit, hi, Nat.mul_div_cancel_left _ hpos, Nat.mul_mod_right,
      Nat.xor_one_of_even (even_two_mul q),
      Nat.add_zero, hn]
  have hp20 := P.pages_lt
  obtain ⟨b₁, hb₁⟩ := mark_some h false hlt (show i + 2 ^ k ≤ 8 * b.mapSize by omega)
  obtain ⟨hinv, hsize, -, hbits⟩ := mark_spec h hlt hb₁
  have hfree : b₁.isBlockFree P.pages k = true := by
    refine isBlockFree_iff (c := ⟨P.pages, k⟩) |>.mpr ?_
    intro p hp
    have hout : ¬ Block.Has ⟨i, k⟩ p := by
      intro hin
      have h₁ : p < i + 2 ^ k := hin.2
      have h₂ : P.pages ≤ p := hp.1
      omega
    have hp2 : p < P.pages + 2 ^ k := hp.2
    rw [hsize, hbits p, if_neg hout]
    exact ⟨by omega, hclear p hp.1⟩
  obtain ⟨m, hm⟩ : ∃ m, b₁.maxOrder - k = m + 1 := ⟨P.top - k - 1, by rw [hinv.top_eq]; omega⟩
  have hmem : (b₁, P.addr P.pages % word, k) ∈ b.deallocTargets (P.paddr i) k := by
    unfold deallocTargets
    rw [P.p2v_paddr_of_lt hlt, show b.markFree (P.addr i) k = some b₁ from hb₁]
    dsimp only
    rw [hm]
    unfold mergeTargets
    simp only [P.paddr_xor hk, P.p2v_paddr, hbuddy, hinv.pageIndex_eq hp20]
    rw [if_pos hfree]
    exact List.mem_cons_self
  have hinside := (hlooks (P.paddr i, k) List.mem_cons_self _ hmem).1
  dsimp only at hinside
  rw [hinv.base_eq, P.wsub_addr_mod hp20, hinv.size_eq, blockSize] at hinside
  have : 0 < pageSize * 2 ^ k := Nat.mul_pos pageSize_pos hpos
  omega

/-- The last block is taken and given back. -/
theorem not_inside_of_bitBehind {m m' : Memblock} {next : ℕ → ℕ} (h : buddyInit m next = some (b, m'))
    (hstr : ¬ Straddles m) (hbit : b.BitBehind) :
    ¬ ∀ tr u, Trace Step ⟨b, []⟩ tr u → Throughout LooksInside tr u := by
  intro hrun
  obtain ⟨P, free, hinv, hclear, hcoal, -, hlen⟩ := buddyInit_spec hstr h
  obtain ⟨k, hk, q, hn, hmap⟩ := hbit
  rw [size_div hinv] at hn hmap
  rw [hinv.top_eq] at hk
  have hpos := Nat.two_pow_pos k
  have hmem := tail_mem hinv hcoal hk hn
  have hsingle : free k = [2 ^ k * (2 * q)] := by
    obtain ⟨a, ha⟩ := List.length_eq_one_iff.mp (Nat.le_antisymm (hlen k) (List.length_pos_of_mem hmem))
    rw [ha, List.mem_singleton] at hmem
    rw [ha, hmem]
  obtain ⟨b', hb'⟩ := buddyAlloc_single hinv hk.le hsingle (by omega)
  have hsize' := buddyAlloc_mapSize hinv hb'
  rcases buddyAlloc_spec hinv hb' with ⟨hz, -⟩ | ⟨hne, i, free', heq, hinv', hbits, -⟩
  · have hpz := hinv.null_free (by omega)
    unfold Pool.paddr at hz
    omega
  obtain rfl : 2 ^ k * (2 * q) = i := by
    simp only [Pool.paddr, pageSize] at heq
    omega
  have htrace : Trace Step ⟨b, []⟩ [(⟨b, []⟩, .alloc k)] ⟨b', [(P.paddr (2 ^ k * (2 * q)), k)]⟩ :=
    .cons (.alloc hb' hne) (.nil _)
  apply not_looksInside_tail hinv' hk rfl hn (by rw [hsize']; exact hmap) _ (hrun _ _ htrace).2
  intro p hp
  have hend := hinv'.held_end_le List.mem_cons_self
  have hout : ¬ Block.Has ⟨2 ^ k * (2 * q), k⟩ p := by
    intro hin
    have h₁ : p < 2 ^ k * (2 * q) + 2 ^ k := hin.2
    simp only at hend
    omega
  rw [hbits p, if_neg hout]
  exact hclear p

/-- In a pool whose addresses do not wrap around, no release in any run looks behind it or at
an empty list exactly if the bitmap has no bits for a buddy of the last block. -/
theorem merges_inside_iff {m m' : Memblock} {next : ℕ → ℕ} (h : buddyInit m next = some (b, m'))
    (hstr : ¬ Straddles m) :
    (∀ tr u, Trace Step ⟨b, []⟩ tr u → Throughout LooksInside tr u) ↔ ¬ b.BitBehind := by
  obtain ⟨P, free, hinv, -, hcoal, -⟩ := buddyInit_spec hstr h
  constructor
  · intro hrun hbit
    exact not_inside_of_bitBehind h hstr hbit hrun
  · intro hbit tr u htr
    have hno : ∀ k < P.top, ∀ q, P.pages = 2 ^ k * (2 * q + 1) → 8 * b.mapSize < P.pages + 2 ^ k := by
      intro k hk q hn
      by_contra! hle
      apply hbit
      refine ⟨k, by rw [hinv.top_eq]; exact hk, q, ?_⟩
      rw [size_div hinv]
      exact ⟨hn, hle⟩
    have hmarked : Marked P b free [] := by
      constructor
      · intro c hc
        cases hc
      · intro c hc hlt hbuddy
        exact absurd hbuddy (hcoal c hc hlt)
    have hkept := htr.throughout (I := Kept P b.mapSize)
        (fun _ _ _ => Kept.step hno) ⟨free, [], hinv, rfl, hmarked, rfl⟩
    exact ⟨fun x hx => (hkept.1 x hx).looksInside hno, hkept.2.looksInside hno⟩

theorem merges_inside_iff_small : ∃ b m', buddyInit smallMachine (fun _ => 0) = some (b, m') ∧
    ((∀ tr u, Trace Step ⟨b, []⟩ tr u → Throughout LooksInside tr u) ↔ ¬ b.BitBehind) := by
  have hsome : (buddyInit smallMachine fun _ => 0).isSome = true := by decide
  obtain ⟨r, hr⟩ := Option.isSome_iff_exists.mp hsome
  exact ⟨r.1, r.2, hr, merges_inside_iff hr (by decide)⟩

theorem tail_lt : 0x208000 < word := by decide
theorem tail_dvd : pageSize ∣ 0x208000 := by decide

/-- A machine with a pool of 24 pages and 32 bits. -/
def tailMachine : Memblock := ⟨0x1EF000, 0x208000, by decide, tail_lt, tail_dvd⟩

/-- The last 8 pages of that pool are taken and given back. -/
theorem looks_behind_tail : ¬ ∀ (m m' : Memblock) (next : ℕ → ℕ) (b : BuddyAllocator),
    buddyInit m next = some (b, m') →
    ∀ tr u, Trace Step ⟨b, []⟩ tr u → Throughout LooksInside tr u := by
  intro hclaim
  have hpool : ((buddyInit tailMachine fun _ => 0).map fun r =>
      (r.1.size / pageSize, r.1.maxOrder, r.1.mapSize))
      = some (24, 4, 4) := by decide
  obtain ⟨r, hr, hvals⟩ := Option.map_eq_some_iff.mp hpool
  simp only [Prod.mk.injEq] at hvals
  obtain ⟨hpages, horder, hmap⟩ := hvals
  apply not_inside_of_bitBehind hr (by decide) _ (hclaim _ _ _ _ hr)
  refine ⟨3, by omega, 1, ?_⟩
  rw [hpages, hmap]
  decide

end Ferrite.Memory
