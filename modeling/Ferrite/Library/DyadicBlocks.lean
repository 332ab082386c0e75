import Mathlib.Data.Nat.Bitwise
import Mathlib.Data.List.Basic
import Mathlib.Tactic.Ring

/-!
# Dyadic blocks of a line of pages

A block of order `k` is `2 ^ k` consecutive pages; an aligned one starts at a
multiple of its own length. Aligned blocks are nested or disjoint, the buddy of
a block is obtained by flipping one bit of its start, and a block together with
its buddy is an aligned block of the next order.

A list of blocks tiles `[0, n)` when every page below `n` lies in exactly one
of them and no other page lies in any. Counting the blocks over a page turns
splitting and merging into additions, so that no pair of blocks is ever
compared. The last result is the uniqueness of a tiling without free buddies.
-/
namespace Ferrite.DyadicBlocks

structure Block where
  start : ℕ
  order : ℕ
deriving DecidableEq, Repr

namespace Block

/-- The page lies in the block. -/
def Has (b : Block) (p : ℕ) : Prop := b.start ≤ p ∧ p < b.start + 2 ^ b.order

instance (b : Block) (p : ℕ) : Decidable (b.Has p) :=
  inferInstanceAs (Decidable (_ ∧ _))

def Aligned (b : Block) : Prop := 2 ^ b.order ∣ b.start

def Disjoint (a b : Block) : Prop := ∀ p, ¬ (a.Has p ∧ b.Has p)

/-- The neighbour a block merges with. -/
def buddy (b : Block) : Block := ⟨b.start ^^^ 2 ^ b.order, b.order⟩

/-- The block of the next order made of a block and its buddy. -/
def parent (b : Block) : Block := ⟨min b.start b.buddy.start, b.order + 1⟩

@[simp] theorem buddy_order (b : Block) : b.buddy.order = b.order := rfl
@[simp] theorem parent_order (b : Block) : b.parent.order = b.order + 1 := rfl

theorem has_start (b : Block) : b.Has b.start :=
  ⟨le_rfl, Nat.lt_add_of_pos_right (Nat.two_pow_pos _)⟩

/-- For aligned blocks membership is equality of quotients. -/
theorem has_iff_div {b : Block} (hb : b.Aligned) (p : ℕ) :
    b.Has p ↔ p / 2 ^ b.order = b.start / 2 ^ b.order := by
  obtain ⟨m, hm⟩ := hb
  have hpos : 0 < 2 ^ b.order := Nat.two_pow_pos _
  rw [Has, hm, Nat.mul_div_cancel_left _ hpos, Nat.div_eq_iff hpos]
  have hcomm : 2 ^ b.order * m = m * 2 ^ b.order := Nat.mul_comm _ _
  omega

/-- Aligned blocks that share a page are nested. -/
theorem nested {a b : Block} (ha : a.Aligned) (hb : b.Aligned) (hab : a.order ≤ b.order)
    {p : ℕ} (hap : a.Has p) (hbp : b.Has p) {q : ℕ} (haq : a.Has q) : b.Has q := by
  rw [has_iff_div ha] at hap haq
  rw [has_iff_div hb] at hbp ⊢
  obtain ⟨d, hd⟩ := Nat.exists_eq_add_of_le hab
  rw [← hbp, hd, pow_add, ← Nat.div_div_eq_div_mul, ← Nat.div_div_eq_div_mul, haq, hap]

/-- Two aligned blocks of one order that share a page are equal. -/
theorem eq_of_has {a b : Block} (ha : a.Aligned) (hb : b.Aligned) (hab : a.order = b.order)
    {p : ℕ} (hap : a.Has p) (hbp : b.Has p) : a = b := by
  have h₁ : b.start ≤ a.start := (nested ha hb hab.le hap hbp a.has_start).1
  have h₂ : a.start ≤ b.start := (nested hb ha hab.ge hbp hap b.has_start).1
  cases a
  cases b
  simp only at hab h₁ h₂
  rw [hab, le_antisymm h₂ h₁]

theorem div_two_eq_iff (x m : ℕ) : x / 2 = m / 2 ↔ x = m ∨ x = m ^^^ 1 := by
  rcases Nat.even_or_odd m with hm | hm
  · rw [Nat.xor_one_of_even hm]
    obtain ⟨r, hr⟩ := hm
    omega
  · rw [Nat.xor_one_of_odd hm]
    obtain ⟨r, hr⟩ := hm
    omega

theorem ne_xor_one (m : ℕ) : m ≠ m ^^^ 1 := by
  rcases Nat.even_or_odd m with hm | hm
  · rw [Nat.xor_one_of_even hm]
    omega
  · rw [Nat.xor_one_of_odd hm]
    obtain ⟨r, hr⟩ := hm
    omega

/-- Flipping the last bit ignores an even summand. -/
theorem two_mul_add_xor_one (e m : ℕ) : (2 * e + m) ^^^ 1 = 2 * e + (m ^^^ 1) := by
  rcases Nat.even_or_odd m with hm | hm
  · have hs : Even (2 * e + m) := (even_two_mul e).add hm
    rw [Nat.xor_one_of_even hm, Nat.xor_one_of_even hs, Nat.add_assoc]
  · have hs : Odd (2 * e + m) := (even_two_mul e).add_odd hm
    rw [Nat.xor_one_of_odd hm, Nat.xor_one_of_odd hs]
    obtain ⟨r, hr⟩ := hm
    omega

/-- Flipping bit `t` flips the last bit of the quotient and keeps the remainder. -/
theorem flip_bit (x t : ℕ) : x ^^^ 2 ^ t = 2 ^ t * (x / 2 ^ t ^^^ 1) + x % 2 ^ t := by
  have hq : (x ^^^ 2 ^ t) / 2 ^ t = x / 2 ^ t ^^^ 1 := by
    simp [Nat.xor_div_two_pow, Nat.div_self (Nat.two_pow_pos t)]
  have hr : (x ^^^ 2 ^ t) % 2 ^ t = x % 2 ^ t := by simp [Nat.xor_mod_two_pow]
  have h := Nat.div_add_mod (x ^^^ 2 ^ t) (2 ^ t)
  rw [hq, hr] at h
  exact h.symm

theorem buddy_div (b : Block) : b.buddy.start / 2 ^ b.order = b.start / 2 ^ b.order ^^^ 1 := by
  rw [buddy, Nat.xor_div_two_pow, Nat.div_self (Nat.two_pow_pos _)]

theorem buddy_aligned {b : Block} (hb : b.Aligned) : b.buddy.Aligned := by
  rw [Aligned, Nat.dvd_iff_mod_eq_zero, buddy, Nat.xor_mod_two_pow, Nat.mod_self,
    Nat.mod_eq_zero_of_dvd hb]
  rfl

theorem buddy_has {b : Block} (hb : b.Aligned) (p : ℕ) :
    b.buddy.Has p ↔ p / 2 ^ b.order = b.start / 2 ^ b.order ^^^ 1 := by
  rw [has_iff_div (buddy_aligned hb), buddy_order, buddy_div]

@[simp] theorem buddy_buddy (b : Block) : b.buddy.buddy = b := by
  simp [buddy]

theorem buddy_disjoint {b : Block} (hb : b.Aligned) : b.Disjoint b.buddy := by
  rintro p ⟨h₁, h₂⟩
  rw [has_iff_div hb] at h₁
  rw [buddy_has hb, h₁] at h₂
  exact ne_xor_one _ h₂

theorem div_two_pow_succ (x k : ℕ) : x / 2 ^ (k + 1) = x / 2 ^ k / 2 := by
  rw [pow_succ, Nat.div_div_eq_div_mul]

/-- The start of the parent clears one bit of the start of the block. -/
theorem parent_start {b : Block} (hb : b.Aligned) :
    b.parent.start = 2 ^ (b.order + 1) * (b.start / 2 ^ (b.order + 1)) := by
  obtain ⟨m, hm⟩ := hb
  obtain ⟨l, hl⟩ := buddy_aligned (b := b) ⟨m, hm⟩
  have hpos : 0 < 2 ^ b.order := Nat.two_pow_pos _
  have hq : b.start / 2 ^ b.order = m := by rw [hm, Nat.mul_div_cancel_left _ hpos]
  have hbuddy : l = m ^^^ 1 := by
    have h := b.buddy_div
    rwa [hl, buddy_order, Nat.mul_div_cancel_left _ hpos, hq] at h
  have hmin : min m (m ^^^ 1) = 2 * (m / 2) := by
    rcases Nat.even_or_odd m with he | ho
    · rw [Nat.xor_one_of_even he]
      obtain ⟨r, hr⟩ := he
      omega
    · rw [Nat.xor_one_of_odd ho]
      obtain ⟨r, hr⟩ := ho
      omega
  calc b.parent.start = min b.start b.buddy.start := rfl
    _ = min (2 ^ b.order * m) (2 ^ b.order * l) := by rw [hm, hl, buddy_order]
    _ = 2 ^ b.order * min m l := (Nat.mul_min_mul_left _ _ _)
    _ = 2 ^ (b.order + 1) * (b.start / 2 ^ (b.order + 1)) := by
        rw [hbuddy, hmin, div_two_pow_succ, hq, pow_succ, Nat.mul_assoc]

theorem parent_aligned {b : Block} (hb : b.Aligned) : b.parent.Aligned :=
  ⟨_, parent_start hb⟩

theorem parent_has {b : Block} (hb : b.Aligned) (p : ℕ) :
    b.parent.Has p ↔ b.Has p ∨ b.buddy.Has p := by
  rw [has_iff_div (parent_aligned hb), parent_start hb, parent_order,
    Nat.mul_div_cancel_left _ (Nat.two_pow_pos _), has_iff_div hb, buddy_has hb,
    div_two_pow_succ, div_two_pow_succ, div_two_eq_iff]

end Block

/-- The number of blocks over a page. -/
def cover (bs : List Block) (p : ℕ) : ℕ := bs.countP (fun b => b.Has p)

@[simp] theorem cover_nil (p : ℕ) : cover [] p = 0 := rfl

@[simp] theorem cover_append (as bs : List Block) (p : ℕ) :
    cover (as ++ bs) p = cover as p + cover bs p := List.countP_append

theorem cover_cons (b : Block) (bs : List Block) (p : ℕ) :
    cover (b :: bs) p = cover [b] p + cover bs p := cover_append [b] bs p

theorem cover_singleton (b : Block) (p : ℕ) : cover [b] p = if b.Has p then 1 else 0 := by
  simp [cover]

theorem cover_perm {as bs : List Block} (h : as.Perm bs) (p : ℕ) : cover as p = cover bs p :=
  h.countP_eq _

theorem cover_pos {bs : List Block} {p : ℕ} : 0 < cover bs p ↔ ∃ b ∈ bs, b.Has p := by
  simp [cover, List.countP_pos_iff]

/-- A block and its buddy cover what their parent covers. -/
theorem cover_parent {b : Block} (hb : b.Aligned) (p : ℕ) :
    cover [b] p + cover [b.buddy] p = cover [b.parent] p := by
  have hd := Block.buddy_disjoint hb p
  simp only [cover_singleton, Block.parent_has hb]
  by_cases h₁ : b.Has p <;> by_cases h₂ : b.buddy.Has p <;> simp_all

/-- The two halves of a block cover what the block covers. -/
theorem cover_halves (a k p : ℕ) :
    cover [⟨a, k⟩] p + cover [⟨a + 2 ^ k, k⟩] p = cover [⟨a, k + 1⟩] p := by
  have hpos : 0 < 2 ^ k := Nat.two_pow_pos k
  have hpow : 2 ^ (k + 1) = 2 ^ k + 2 ^ k := by rw [pow_succ]; omega
  have hor : Block.Has ⟨a, k + 1⟩ p ↔ Block.Has ⟨a, k⟩ p ∨ Block.Has ⟨a + 2 ^ k, k⟩ p := by
    simp only [Block.Has]
    omega
  have hand : ¬ (Block.Has ⟨a, k⟩ p ∧ Block.Has ⟨a + 2 ^ k, k⟩ p) := by
    simp only [Block.Has]
    omega
  simp only [cover_singleton, hor]
  by_cases h₁ : Block.Has ⟨a, k⟩ p <;> by_cases h₂ : Block.Has ⟨a + 2 ^ k, k⟩ p <;> simp_all

/-- Blocks that overlap are counted twice at a common page. -/
theorem pairwise_disjoint {bs : List Block} (h : ∀ p, cover bs p ≤ 1) :
    bs.Pairwise Block.Disjoint := by
  induction bs with
  | nil => exact List.Pairwise.nil
  | cons b bs ih =>
      refine List.Pairwise.cons ?_ (ih fun p => ?_)
      · rintro c hc p ⟨hb, hcp⟩
        have hpos : 0 < cover bs p := cover_pos.mpr ⟨c, hc, hcp⟩
        have hle := h p
        rw [cover_cons, cover_singleton, if_pos hb] at hle
        omega
      · have hle := h p
        rw [cover_cons] at hle
        omega

/-- Every page below `n` lies in exactly one block, every other in none. -/
def Tiles (n : ℕ) (bs : List Block) : Prop := ∀ p, cover bs p = if p < n then 1 else 0

namespace Tiles
variable {n : ℕ} {bs cs : List Block}

theorem perm (h : Tiles n bs) (hp : bs.Perm cs) : Tiles n cs :=
  fun p => (cover_perm hp p).symm.trans (h p)

theorem congr (h : Tiles n bs) (hc : ∀ p, cover cs p = cover bs p) : Tiles n cs :=
  fun p => (hc p).trans (h p)

theorem pairwise (h : Tiles n bs) : bs.Pairwise Block.Disjoint :=
  pairwise_disjoint fun p => by rw [h p]; split_ifs <;> omega

theorem lt_iff (h : Tiles n bs) (p : ℕ) : p < n ↔ ∃ b ∈ bs, b.Has p := by
  rw [← cover_pos, h p]
  split_ifs with hp <;> simp [hp]

theorem lt_of_has (h : Tiles n bs) {b : Block} (hb : b ∈ bs) {p : ℕ} (hp : b.Has p) : p < n :=
  (h.lt_iff p).mpr ⟨b, hb, hp⟩

theorem end_le (h : Tiles n bs) {b : Block} (hb : b ∈ bs) : b.start + 2 ^ b.order ≤ n := by
  have hpos : 0 < 2 ^ b.order := Nat.two_pow_pos _
  have hlast : b.Has (b.start + 2 ^ b.order - 1) := ⟨by omega, by omega⟩
  have := h.lt_of_has hb hlast
  omega

/-- A page lies in one block only. -/
theorem unique (h : Tiles n bs) {b c : Block} (hb : b ∈ bs) (hc : c ∈ bs) {p : ℕ}
    (hbp : b.Has p) (hcp : c.Has p) : b = c := by
  by_contra hne
  have hle : cover bs p ≤ 1 := by rw [h p]; split_ifs <;> omega
  have hperm := List.perm_cons_erase hb
  have hc' : c ∈ bs.erase b := (List.mem_erase_of_ne (Ne.symm hne)).mpr hc
  rw [cover_perm hperm, cover_cons, cover_singleton, if_pos hbp] at hle
  have hpos : 0 < cover (bs.erase b) p := cover_pos.mpr ⟨c, hc', hcp⟩
  omega

end Tiles

/-- The blocks of a family of lists, one list of starts for each order below `n`. -/
def byOrder (free : ℕ → List ℕ) (n : ℕ) : List Block :=
  (List.range n).flatMap fun k => (free k).map fun a => ⟨a, k⟩

theorem mem_byOrder {free : ℕ → List ℕ} {n : ℕ} {b : Block} :
    b ∈ byOrder free n ↔ b.order < n ∧ b.start ∈ free b.order := by
  simp only [byOrder, List.mem_flatMap, List.mem_range, List.mem_map]
  constructor
  · rintro ⟨k, hk, a, ha, rfl⟩
    exact ⟨hk, ha⟩
  · intro h
    exact ⟨b.order, h.1, b.start, h.2, rfl⟩

theorem byOrder_succ (free : ℕ → List ℕ) (n : ℕ) :
    byOrder free (n + 1) = byOrder free n ++ (free n).map fun a => ⟨a, n⟩ := by
  simp [byOrder, List.range_succ]

theorem byOrder_congr {free free' : ℕ → List ℕ} {n : ℕ} (h : ∀ k < n, free k = free' k) :
    byOrder free n = byOrder free' n := by
  induction n with
  | zero => rfl
  | succ n ih =>
      rw [byOrder_succ, byOrder_succ, ih fun k hk => h k (by omega), h n (by omega)]

/-- Exchanging one list exchanges what it covers. -/
theorem cover_byOrder_update (free : ℕ → List ℕ) (l : List ℕ) {k n : ℕ} (hk : k < n) (p : ℕ) :
    cover (byOrder (Function.update free k l) n) p + cover ((free k).map fun a => ⟨a, k⟩) p =
      cover (byOrder free n) p + cover (l.map fun a => ⟨a, k⟩) p := by
  induction n with
  | zero => omega
  | succ n ih =>
      rw [byOrder_succ, byOrder_succ, cover_append, cover_append]
      rcases Nat.lt_succ_iff_lt_or_eq.mp hk with hlt | rfl
      · rw [Function.update_of_ne (by omega)]
        have := ih hlt
        omega
      · rw [Function.update_self, byOrder_congr fun j hj =>
          Function.update_of_ne (show j ≠ k by omega) l free]
        omega

theorem cover_byOrder_push (free : ℕ → List ℕ) {b : Block} {n : ℕ} (hb : b.order < n) (p : ℕ) :
    cover (byOrder (Function.update free b.order (b.start :: free b.order)) n) p =
      cover [b] p + cover (byOrder free n) p := by
  obtain ⟨a, k⟩ := b
  have h := cover_byOrder_update free (a :: free k) hb p
  rw [List.map_cons, cover_cons] at h
  simp only at hb h ⊢
  omega

theorem cover_byOrder_erase (free : ℕ → List ℕ) {b : Block} {n : ℕ} (hb : b ∈ byOrder free n)
    (p : ℕ) :
    cover [b] p + cover (byOrder (Function.update free b.order ((free b.order).erase b.start)) n) p =
      cover (byOrder free n) p := by
  obtain ⟨a, k⟩ := b
  obtain ⟨hk, hs⟩ := mem_byOrder.mp hb
  have h := cover_byOrder_update free ((free k).erase a) hk p
  have hp := cover_perm ((List.perm_cons_erase hs).map fun a => (⟨a, k⟩ : Block)) p
  rw [List.map_cons, cover_cons] at hp
  simp only at hk hs h hp ⊢
  omega

/-- No block below the top order stands next to its buddy. -/
def Coalesced (top : ℕ) (bs : List Block) : Prop :=
  ∀ b ∈ bs, b.order < top → b.buddy ∉ bs

/-- Inside a tiled aligned block that is cut into smaller ones, two buddies of
the smallest order stand next to each other. -/
theorem exists_buddies {n : ℕ} {bs : List Block} (ht : Tiles n bs)
    (ha : ∀ b ∈ bs, b.Aligned) {c : Block} (hc : c.Aligned) (hin : ∀ p, c.Has p → p < n)
    (k : ℕ) : k < c.order → (∃ b ∈ bs, b.order = k ∧ c.Has b.start) →
      ∃ b ∈ bs, b.order ≤ k ∧ c.Has b.start ∧ b.buddy ∈ bs := by
  -- The smallest order goes first: the recursion is on the order of the found block.
  induction k using Nat.strong_induction_on with
  | _ k ih =>
    rintro hk ⟨b, hb, rfl, hcb⟩
    have hbc : ∀ p, b.Has p → c.Has p := fun p hp =>
      Block.nested (ha b hb) hc hk.le b.has_start hcb hp
    have hpar : ∀ p, b.parent.Has p → c.Has p := fun p hp =>
      Block.nested (Block.parent_aligned (ha b hb)) hc hk
        ((Block.parent_has (ha b hb) _).mpr (.inl b.has_start)) hcb hp
    have hq : c.Has b.buddy.start :=
      hpar _ ((Block.parent_has (ha b hb) _).mpr (.inr b.buddy.has_start))
    obtain ⟨d, hd, hdq⟩ := (ht.lt_iff _).mp (hin _ hq)
    rcases lt_trichotomy d.order b.order with hlt | heq | hgt
    · have hds : c.Has d.start :=
        Block.nested (ha d hd) hc (hlt.le.trans hk.le) hdq hq d.has_start
      obtain ⟨e, he, hle, hce, heb⟩ := ih d.order hlt (hlt.trans hk) ⟨d, hd, rfl, hds⟩
      exact ⟨e, he, hle.trans hlt.le, hce, heb⟩
    · have : d = b.buddy := Block.eq_of_has (ha d hd) (Block.buddy_aligned (ha b hb)) heq hdq
        b.buddy.has_start
      exact ⟨b, hb, le_rfl, hcb, this ▸ hd⟩
    · -- A larger block over the buddy contains the parent, hence also `b`.
      have hdb : d.Has b.start := Block.nested (Block.parent_aligned (ha b hb)) (ha d hd) hgt
        ((Block.parent_has (ha b hb) _).mpr (.inr b.buddy.has_start)) hdq
        ((Block.parent_has (ha b hb) _).mpr (.inl b.has_start))
      have := ht.unique hd hb hdb b.has_start
      subst this
      exact absurd hgt (lt_irrefl _)

theorem coalesced_order_le {n top : ℕ} {as bs : List Block} (hta : Tiles n as) (htb : Tiles n bs)
    (haa : ∀ b ∈ as, b.Aligned) (hab : ∀ b ∈ bs, b.Aligned) (hca : Coalesced top as)
    (hbt : ∀ b ∈ bs, b.order ≤ top) {a b : Block} (ha : a ∈ as) (hb : b ∈ bs) {p : ℕ}
    (hap : a.Has p) (hbp : b.Has p) : b.order ≤ a.order := by
  by_contra! hlt
  have hstart : b.Has a.start := Block.nested (haa a ha) (hab b hb) hlt.le hap hbp a.has_start
  obtain ⟨c, hc, hle, -, hcb⟩ := exists_buddies hta haa (hab b hb)
    (fun q hq => htb.lt_of_has hb hq) a.order hlt ⟨a, ha, rfl, hstart⟩
  have := hbt b hb
  exact hca c hc (by omega) hcb

/-- A line of pages has one coalesced tiling by aligned blocks. -/
theorem coalesced_unique {n top : ℕ} {as bs : List Block} (hta : Tiles n as) (htb : Tiles n bs)
    (haa : ∀ b ∈ as, b.Aligned) (hab : ∀ b ∈ bs, b.Aligned) (hca : Coalesced top as)
    (hcb : Coalesced top bs) (hat : ∀ b ∈ as, b.order ≤ top) (hbt : ∀ b ∈ bs, b.order ≤ top)
    {a : Block} (ha : a ∈ as) : a ∈ bs := by
  obtain ⟨b, hb, hbp⟩ := (htb.lt_iff _).mp (hta.lt_of_has ha a.has_start)
  have h₁ := coalesced_order_le hta htb haa hab hca hbt ha hb a.has_start hbp
  have h₂ := coalesced_order_le htb hta hab haa hcb hat hb ha hbp a.has_start
  have : a = b := Block.eq_of_has (haa a ha) (hab b hb) (le_antisymm h₂ h₁) a.has_start hbp
  exact this ▸ hb

end Ferrite.DyadicBlocks
