import Ferrite.Memory.BuddyPool

/-!
# One lemma for each function of the buddy allocator

`Inv` relates a state of the allocator to the lists of page numbers its chains
spell out and to the blocks held outside the lists. A block in transit, between
leaving one list and entering another, is a held block.
-/
namespace Ferrite.Memory
open Word DyadicBlocks Chain

namespace BuddyAllocator

/-- The chains spell out `free`, and with the held blocks they tile the first `n`
pages: all pages of the pool, once `buddy_init` is through. -/
structure Inv (P : Pool) (n : ℕ) (b : BuddyAllocator) (free : ℕ → List ℕ)
    (held : List Block) : Prop where
  le : n ≤ P.pages
  base_eq : b.base = P.base
  size_eq : b.size = pageSize * P.pages
  top_eq : b.maxOrder = P.top
  null_free : b.mapSize ≠ 0 → 0 < P.pbase
  covers : b.mapSize ≠ 0 → P.pages ≤ 8 * b.mapSize
  chain : ∀ k ≤ P.top, Linked 0 b.next (b.freeLists k) ((free k).map P.addr)
  above : ∀ k, P.top < k → b.freeLists k = 0
  aligned : ∀ blk ∈ byOrder free (P.top + 1) ++ held, blk.Aligned
  tiles : Tiles n (byOrder free (P.top + 1) ++ held)

variable {P : Pool} {n : ℕ} {b : BuddyAllocator} {free : ℕ → List ℕ} {held : List Block} {blk : Block}

namespace Inv

theorem mem_free (_ : Inv P n b free held) {i k : ℕ} (hk : k ≤ P.top) (hi : i ∈ free k) :
    (⟨i, k⟩ : Block) ∈ byOrder free (P.top + 1) ++ held :=
  List.mem_append_left _ (mem_byOrder.mpr ⟨Nat.lt_succ_of_le hk, hi⟩)

theorem free_lt (h : Inv P n b free held) {i k : ℕ} (hk : k ≤ P.top) (hi : i ∈ free k) :
    i < P.pages :=
  (h.tiles.lt_of_has (h.mem_free hk hi) (Block.has_start _)).trans_le h.le

theorem held_end_le (h : Inv P n b free held) (hb : blk ∈ held) :
    blk.start + 2 ^ blk.order ≤ P.pages :=
  (h.tiles.end_le (List.mem_append_right _ hb)).trans h.le

theorem held_lt (h : Inv P n b free held) (hb : blk ∈ held) : blk.start < P.pages := by
  have := h.held_end_le hb
  have := Nat.two_pow_pos blk.order
  omega

theorem held_order_le (h : Inv P n b free held) (hb : blk ∈ held) : blk.order ≤ P.top := by
  have h₁ := h.held_end_le hb
  have h₂ := P.lt_top
  have h₃ : 2 ^ blk.order < 2 ^ (P.top + 1) := by omega
  exact Nat.lt_succ_iff.mp ((Nat.pow_lt_pow_iff_right (by omega)).mp h₃)

/-- A free block and a held block are disjoint. -/
theorem not_has (h : Inv P n b free held) {i k : ℕ} (hk : k ≤ P.top) (hi : i ∈ free k)
    (hb : blk ∈ held) {p : ℕ} (hp : Block.Has ⟨i, k⟩ p) : ¬ blk.Has p := by
  have hpw := List.pairwise_append.mp h.tiles.pairwise
  intro hbp
  exact hpw.2.2 _ (mem_byOrder.mpr ⟨Nat.lt_succ_of_le hk, hi⟩) blk hb p ⟨hp, hbp⟩

theorem free_ne_held (h : Inv P n b free held) {i k : ℕ} (hk : k ≤ P.top) (hi : i ∈ free k)
    (hb : blk ∈ held) : i ≠ blk.start := by
  intro heq
  exact h.not_has hk hi hb (Block.has_start _) (heq ▸ blk.has_start)

theorem addr_not_mem (h : Inv P n b free held) (hb : blk ∈ held) {k : ℕ} (hk : k ≤ P.top) :
    P.addr blk.start ∉ (free k).map P.addr := by
  intro hmem
  obtain ⟨i, hi, heq⟩ := List.mem_map.mp hmem
  exact h.free_ne_held hk hi hb (P.addr_inj.mp heq)

/-- A page heads one free block only. -/
theorem free_order_unique (h : Inv P n b free held) {i j k : ℕ} (hj : j ≤ P.top) (hk : k ≤ P.top)
    (hij : i ∈ free j) (hik : i ∈ free k) : j = k := by
  have := h.tiles.unique (h.mem_free hj hij) (h.mem_free hk hik) (Block.has_start _)
    (Block.has_start _)
  exact congrArg Block.order this

theorem head_eq_zero (h : Inv P n b free held) {k : ℕ} (hk : k ≤ P.top) :
    b.freeLists k = 0 ↔ free k = [] := by
  rw [← (h.chain k hk).eq_nil_iff, List.map_eq_nil_iff]

theorem congr_map (h : Inv P n b free held) (map : ℕ → Bool) :
    Inv P n { b with map := map } free held :=
  ⟨h.le, h.base_eq, h.size_eq, h.top_eq, h.null_free, h.covers, h.chain, h.above, h.aligned,
    h.tiles⟩

theorem perm (h : Inv P n b free held) {held' : List Block} (hp : held.Perm held') :
    Inv P n b free held' := by
  have hperm := hp.append_left (byOrder free (P.top + 1))
  exact ⟨h.le, h.base_eq, h.size_eq, h.top_eq, h.null_free, h.covers, h.chain, h.above,
    fun blk hb => h.aligned blk (hperm.mem_iff.mpr hb), h.tiles.perm hperm⟩

/-- Stores that miss the heads of the free blocks are invisible. -/
theorem congr_next (h : Inv P n b free held) {next : ℕ → ℕ}
    (hn : ∀ k ≤ P.top, ∀ i ∈ free k, next (P.addr i) = b.next (P.addr i)) :
    Inv P n { b with next := next } free held := by
  refine ⟨h.le, h.base_eq, h.size_eq, h.top_eq, h.null_free, h.covers, fun k hk => ?_, h.above,
    h.aligned, h.tiles⟩
  refine (h.chain k hk).congr fun a ha => ?_
  obtain ⟨i, hi, rfl⟩ := List.mem_map.mp ha
  exact hn k hk i hi

/-- `buddy_list_add` moves a held block to the head of its list. -/
theorem listAdd (h : Inv P n b free (blk :: held)) :
    Inv P n (b.buddyListAdd (P.addr blk.start) blk.order)
      (Function.update free blk.order (blk.start :: free blk.order)) held := by
  have hmem : blk ∈ blk :: held := List.mem_cons_self
  have hord := h.held_order_le hmem
  have hcover (p : ℕ) : cover (byOrder (Function.update free blk.order
      (blk.start :: free blk.order)) (P.top + 1) ++ held) p =
      cover (byOrder free (P.top + 1) ++ blk :: held) p := by
    rw [cover_append, cover_append, cover_cons blk held,
      cover_byOrder_push free (show blk.order < P.top + 1 by omega)]
    omega
  refine ⟨h.le, h.base_eq, h.size_eq, h.top_eq, h.null_free, h.covers, fun k hk => ?_,
    fun k hk => ?_, ?_, h.tiles.congr hcover⟩
  · simp only [buddyListAdd]
    by_cases hkb : k = blk.order
    · subst hkb
      rw [Function.update_self, Function.update_self, List.map_cons]
      exact (h.chain _ hk).push (P.addr_ne_zero _) (h.addr_not_mem hmem hk)
    · rw [Function.update_of_ne hkb, Function.update_of_ne hkb]
      exact (h.chain k hk).store (h.addr_not_mem hmem hk)
  · simp only [buddyListAdd]
    rw [Function.update_of_ne (by omega)]
    exact h.above k hk
  · intro c hc
    rcases List.mem_append.mp hc with hc | hc
    · obtain ⟨hk, hs⟩ := mem_byOrder.mp hc
      by_cases hkb : c.order = blk.order
      · rw [hkb, Function.update_self] at hs
        rcases List.mem_cons.mp hs with hs | hs
        · have : c = blk := by cases c; cases blk; simp_all
          exact this ▸ h.aligned blk (List.mem_append_right _ hmem)
        · exact h.aligned c (List.mem_append_left _ (mem_byOrder.mpr ⟨hk, hkb ▸ hs⟩))
      · rw [Function.update_of_ne hkb] at hs
        exact h.aligned c (List.mem_append_left _ (mem_byOrder.mpr ⟨hk, hs⟩))
    · exact h.aligned c (List.mem_append_right _ (List.mem_cons_of_mem _ hc))

/-- Taking a block off its list, whatever is stored to keep the other chains. -/
theorem take (h : Inv P n b free held) {i k : ℕ} (hk : k ≤ P.top) (hi : i ∈ free k)
    {head : ℕ} {next : ℕ → ℕ}
    (hchain : Linked 0 next head (((free k).erase i).map P.addr))
    (hnext : ∀ j ≤ P.top, j ≠ k → ∀ a ∈ free j, next (P.addr a) = b.next (P.addr a)) :
    Inv P n { b with freeLists := Function.update b.freeLists k head, next := next }
      (Function.update free k ((free k).erase i)) (⟨i, k⟩ :: held) := by
  have hmem := h.mem_free hk hi
  have hcover (p : ℕ) : cover (byOrder (Function.update free k ((free k).erase i)) (P.top + 1) ++
      ⟨i, k⟩ :: held) p = cover (byOrder free (P.top + 1) ++ held) p := by
    have hb : (⟨i, k⟩ : Block) ∈ byOrder free (P.top + 1) :=
      mem_byOrder.mpr ⟨Nat.lt_succ_of_le hk, hi⟩
    have herase := cover_byOrder_erase free hb p
    simp only at herase
    rw [cover_append, cover_append, cover_cons ⟨i, k⟩ held]
    omega
  refine ⟨h.le, h.base_eq, h.size_eq, h.top_eq, h.null_free, h.covers, fun j hj => ?_,
    fun j hj => ?_, ?_, h.tiles.congr hcover⟩
  · by_cases hjk : j = k
    · subst hjk
      simpa only [Function.update_self] using hchain
    · simp only [Function.update_of_ne hjk]
      refine (h.chain j hj).congr fun a ha => ?_
      obtain ⟨c, hc, rfl⟩ := List.mem_map.mp ha
      exact hnext j hj hjk c hc
  · simp only
    rw [Function.update_of_ne (by omega)]
    exact h.above j hj
  · intro c hc
    rcases List.mem_append.mp hc with hc | hc
    · obtain ⟨hlt, hs⟩ := mem_byOrder.mp hc
      refine h.aligned c (List.mem_append_left _ (mem_byOrder.mpr ⟨hlt, ?_⟩))
      by_cases hck : c.order = k
      · rw [hck, Function.update_self] at hs
        exact hck ▸ List.mem_of_mem_erase hs
      · rwa [Function.update_of_ne hck] at hs
    · rcases List.mem_cons.mp hc with rfl | hc
      · exact h.aligned _ hmem
      · exact h.aligned c (List.mem_append_right _ hc)

/-- A held block may be cut into its halves. -/
theorem split {i k : ℕ} (h : Inv P n b free (⟨i, k + 1⟩ :: held)) :
    Inv P n b free (⟨i + 2 ^ k, k⟩ :: ⟨i, k⟩ :: held) := by
  have hal : (⟨i, k + 1⟩ : Block).Aligned :=
    h.aligned _ (List.mem_append_right _ List.mem_cons_self)
  have hleft : 2 ^ k ∣ i := (pow_dvd_pow 2 (Nat.le_succ k)).trans hal
  refine ⟨h.le, h.base_eq, h.size_eq, h.top_eq, h.null_free, h.covers, h.chain, h.above, ?_,
    h.tiles.congr fun p => ?_⟩
  · intro c hc
    simp only [List.mem_append, List.mem_cons] at hc
    rcases hc with hc | rfl | rfl | hc
    · exact h.aligned c (List.mem_append_left _ hc)
    · exact (Nat.dvd_add_right hleft).mpr (dvd_refl _)
    · exact hleft
    · exact h.aligned c (List.mem_append_right _ (List.mem_cons_of_mem _ hc))
  · have := cover_halves i k p
    rw [cover_append, cover_append, cover_cons, cover_cons ⟨i, k⟩, cover_cons ⟨i, k + 1⟩]
    omega

/-- A held block and its held buddy may be joined. -/
theorem merge (h : Inv P n b free (blk.buddy :: blk :: held)) :
    Inv P n b free (blk.parent :: held) := by
  have hal : blk.Aligned := h.aligned _ (by simp)
  refine ⟨h.le, h.base_eq, h.size_eq, h.top_eq, h.null_free, h.covers, h.chain, h.above, ?_,
    h.tiles.congr fun p => ?_⟩
  · intro c hc
    simp only [List.mem_append, List.mem_cons] at hc
    rcases hc with hc | rfl | hc
    · exact h.aligned c (List.mem_append_left _ hc)
    · exact Block.parent_aligned hal
    · exact h.aligned c (by simp [hc])
  · have := cover_parent hal p
    rw [cover_append, cover_append, cover_cons, cover_cons blk.buddy, cover_cons blk]
    omega

end Inv

/-- The search loop leaves the memory alone when the target is not on the
chain, and otherwise takes the target out of it. -/
theorem unlinkLoop_spec {target fuel : ℕ} {next : ℕ → ℕ} {prev : ℕ} {l : List ℕ}
    {r : Bool × (ℕ → ℕ)} (hl : Linked 0 next prev (prev :: l))
    (h : unlinkLoop target fuel next prev (next prev) = some r) :
    (target ∉ l ∧ r = (false, next)) ∨
      (target ∈ l ∧ r.1 = true ∧ Linked 0 r.2 prev (prev :: l.erase target) ∧
        ∀ a ∉ prev :: l, r.2 a = next a) := by
  induction l generalizing fuel prev with
  | nil =>
      cases fuel with
      | zero => simp [unlinkLoop] at h
      | succ fuel =>
          have hz : next prev = 0 := hl.2.2
          rw [unlinkLoop, if_pos hz] at h
          cases h
          exact .inl ⟨by simp, rfl⟩
  | cons c l ih =>
      cases fuel with
      | zero => simp [unlinkLoop] at h
      | succ fuel =>
          have hc : next prev = c := hl.2.2.1
          have hc0 : c ≠ 0 := hl.2.2.2.1
          rw [unlinkLoop, hc, if_neg hc0] at h
          have htail : Linked 0 next c (c :: l) := hc ▸ hl.2.2
          have hnd := (List.nodup_cons.mp hl.nodup).1
          by_cases hct : c = target
          · rw [if_pos hct] at h
            cases h
            refine .inr ⟨by simp [hct], rfl, ?_, fun a ha => ?_⟩
            · rw [← hct, List.erase_cons_head]
              exact hl.skip
            · exact Function.update_of_ne (fun hap => ha (by simp [hap])) _ _
          · rw [if_neg hct] at h
            rcases ih htail h with ⟨hmem, rfl⟩ | ⟨hmem, hr, hlink, hout⟩
            · exact .inl ⟨by simp [hmem, Ne.symm hct], rfl⟩
            · refine .inr ⟨by simp [hmem], hr, ?_, fun a ha => ?_⟩
              · rw [List.erase_cons_tail (by simpa using hct)]
                refine ⟨rfl, hl.2.1, ?_⟩
                rw [hout prev hnd, hc]
                exact hlink
              · exact hout a fun hm => ha (List.mem_cons_of_mem _ hm)

/-- `remove_from_free_list` takes exactly the block at the given address off the
list, if it is there. -/
theorem removeFromFreeList_spec (h : Inv P n b free held) {vaddr k : ℕ} (hk : k ≤ P.top)
    {r : Bool × BuddyAllocator} (hr : b.removeFromFreeList vaddr k = some r) :
    (r = (false, b) ∧ ∀ i ∈ free k, P.addr i ≠ vaddr) ∨
      (r.1 = true ∧ ∃ i ∈ free k, P.addr i = vaddr ∧ r.2.map = b.map ∧
        r.2.mapSize = b.mapSize ∧
        Inv P n r.2 (Function.update free k ((free k).erase i)) (⟨i, k⟩ :: held)) := by
  have hchain := h.chain k hk
  rw [removeFromFreeList, if_neg (by rw [h.top_eq]; omega)] at hr
  cases hf : free k with
  | nil =>
      -- An empty list faults on `head->next`, whatever the address.
      have h0 : b.freeLists k = 0 := (h.head_eq_zero hk).mpr hf
      simp [load, h0] at hr
  | cons i l =>
      rw [hf, List.map_cons] at hchain
      have hhead : b.freeLists k = P.addr i := hchain.1
      have hload : b.load (P.addr i) = some (b.next (P.addr i)) := if_neg (P.addr_ne_zero i)
      rw [hhead, hload] at hr
      by_cases hv : P.addr i = vaddr
      · rw [if_pos hv] at hr
        cases hr
        refine .inr ⟨rfl, i, by simp, hv, rfl, rfl, ?_⟩
        have herase : Linked 0 b.next (b.next (P.addr i)) (((free k).erase i).map P.addr) := by
          rw [hf, List.erase_cons_head]
          exact hchain.2.2
        exact hf ▸ h.take hk (by simp [hf]) herase fun _ _ _ _ _ => rfl
      · rw [if_neg hv] at hr
        simp only [Option.bind_eq_bind, Option.bind_some, Option.pure_def,
          Option.bind_eq_some_iff, Option.some.injEq] at hr
        obtain ⟨s, hs, rfl⟩ := hr
        have hlink : Linked 0 b.next (P.addr i) (P.addr i :: l.map P.addr) :=
          ⟨rfl, P.addr_ne_zero i, hchain.2.2⟩
        rcases unlinkLoop_spec hlink hs with ⟨hmem, rfl⟩ | ⟨hmem, hs1, hs2, hout⟩
        · refine .inl ⟨rfl, fun j hj hjv => ?_⟩
          rcases List.mem_cons.mp hj with rfl | hj
          · exact hv hjv
          · exact hmem (List.mem_map.mpr ⟨j, hj, hjv⟩)
        · obtain ⟨j, hj, rfl⟩ := List.mem_map.mp hmem
          have hij : i ≠ j := fun hij => hv (congrArg P.addr hij)
          refine .inr ⟨hs1, j, by simp [hj], rfl, rfl, rfl, ?_⟩
          have hcons : Function.update b.freeLists k (P.addr i) = b.freeLists := by
            rw [← hhead, Function.update_eq_self]
          have herase : Linked 0 s.2 (P.addr i) (((free k).erase j).map P.addr) := by
            rw [hf, List.erase_cons_tail (by simpa using hij), List.map_cons]
            rwa [← List.map_erase fun a b hab => P.addr_inj.mp hab] at hs2
          have htake := h.take hk (by simp [hf, hj]) herase ?_
          · rw [hcons] at htake
            exact hf ▸ htake
          · intro k' hk' hne a ha
            refine hout _ fun hm => hne ?_
            have ha' : P.addr a ∈ (free k).map P.addr := by rw [hf]; exact hm
            obtain ⟨c, hc, hca⟩ := List.mem_map.mp ha'
            exact h.free_order_unique hk' hk ha (P.addr_inj.mp hca ▸ hc)

/-- The marking loops set one range of bits, inside the map. -/
theorem markLoop_spec {v : Bool} {mapSize m i : ℕ} {map map' : ℕ → Bool}
    (h : markLoop v mapSize m i map = some map') (p : ℕ) :
    map' p = if i ≤ p ∧ p < i + m then v else map p := by
  induction m generalizing i map with
  | zero =>
      cases h
      rw [if_neg (by omega)]
  | succ m ih =>
      rw [markLoop] at h
      split_ifs at h with hlt
      rw [ih h]
      by_cases hp : p = i
      · subst hp
        rw [if_neg (by omega), if_pos (by omega), Function.update_self]
      · rw [Function.update_of_ne hp]
        congr 1
        simp only [eq_iff_iff]
        omega

theorem mapSize_ne_zero_of_markLoop {v : Bool} {mapSize m i : ℕ} {map map' : ℕ → Bool}
    (hm : m ≠ 0) (h : markLoop v mapSize m i map = some map') : mapSize ≠ 0 := by
  cases m with
  | zero => exact absurd rfl hm
  | succ m =>
      rw [markLoop] at h
      split_ifs at h with hlt
      omega

/-- The page index of a page of the pool, or of a buddy just behind it. -/
theorem Inv.pageIndex_eq (h : Inv P n b free held) {i : ℕ} (hi : i < 2 ^ 20) :
    b.pageIndex (P.addr i % word) = i := by
  rw [pageIndex, h.base_eq, P.wsub_addr_mod hi, pageSize]
  omega

theorem Inv.pageIndex_addr (h : Inv P n b free held) {i : ℕ} (hi : i < P.pages) :
    b.pageIndex (P.addr i) = i := by
  have := h.pageIndex_eq (hi.trans P.pages_lt)
  rwa [Nat.mod_eq_of_lt (P.addr_lt hi)] at this

/-- `mark_free` and `mark_allocated` set the bits of a block of the pool. -/
theorem mark_spec (h : Inv P n b free held) {v : Bool} {i k : ℕ} (hi : i < P.pages)
    {b' : BuddyAllocator} (hb : b.mark v (P.addr i) k = some b') :
    Inv P n b' free held ∧ b'.mapSize = b.mapSize ∧ b.mapSize ≠ 0 ∧
      ∀ p, b'.map p = if Block.Has ⟨i, k⟩ p then v else b.map p := by
  simp only [mark, h.pageIndex_addr hi, Option.bind_eq_bind, Option.pure_def,
    Option.bind_eq_some_iff, Option.some.injEq] at hb
  obtain ⟨map, hmap, rfl⟩ := hb
  exact ⟨h.congr_map map, rfl,
    mapSize_ne_zero_of_markLoop (Nat.two_pow_pos k).ne' hmap, markLoop_spec hmap⟩

end BuddyAllocator
end Ferrite.Memory
