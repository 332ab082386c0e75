import Ferrite.Memory.BuddyCalls
import Ferrite.Memory.Paging

/-!
# The free frames of the allocator

What the callers of `get_free_page` rely on: the frame they are given was free,
is not free any more, and no other frame has changed hands.
-/
namespace Ferrite.Memory
open BuddyAllocator DyadicBlocks Pages

variable {P : Pool} {b b' : BuddyAllocator} {F : Set ℕ} {p : ℕ}

/-- The frames of the pool in no block that has been handed out. -/
def FreeFrames (P : Pool) (b : BuddyAllocator) (F : Set ℕ) : Prop :=
  ∃ free held, Inv P P.pages b free held ∧
    ∀ p, p ∈ F ↔ ∃ i < P.pages, p = P.paddr i ∧ ∀ blk ∈ held, ¬ blk.Has i

/-- A frame of the pool is one page of physical memory. -/
structure IsFrame (p : ℕ) : Prop where
  dvd : pageSize ∣ p
  lt : p < Word.word

theorem Pool.isFrame (P : Pool) {i : ℕ} (hi : i < P.pages) : IsFrame (P.paddr i) where
  dvd := (Nat.dvd_add ((Dvd.intro _ rfl).trans P.dvd) (Dvd.intro _ rfl))
  lt := P.paddr_lt hi

theorem FreeFrames.isFrame (h : FreeFrames P b F) (hp : p ∈ F) : IsFrame p := by
  obtain ⟨free, held, -, hF⟩ := h
  obtain ⟨i, hi, rfl, -⟩ := (hF p).mp hp
  exact P.isFrame hi

theorem IsFrame.pteAddr (h : IsFrame p) (e : ℕ) : Memory.pteAddr (p ||| pteFlags e) = p :=
  (or_pteFlags h.dvd h.lt e).2.1

theorem IsFrame.present (h : IsFrame p) (e : ℕ) : Memory.present (p ||| pteFlags e) = Memory.present e :=
  (or_pteFlags h.dvd h.lt e).2.2.2

theorem IsFrame.or_lt (h : IsFrame p) (e : ℕ) : (p ||| pteFlags e) < Word.word :=
  (or_pteFlags h.dvd h.lt e).1

/-- A frame that `buddy_alloc(0)` returns was free. -/
theorem FreeFrames.alloc (h : FreeFrames P b F) (hb : b.buddyAlloc 0 = some (p, b')) (hp : p ≠ 0) :
    p ∈ F ∧ FreeFrames P b' (F \ {p}) := by
  obtain ⟨free, held, hinv, hF⟩ := h
  rcases buddyAlloc_spec hinv hb with ⟨hzero, -⟩ | ⟨-, i, free', rfl, hinv', -⟩
  · exact absurd hzero hp
  · have hi := hinv'.held_lt List.mem_cons_self
    have hpw := (List.pairwise_append.mp hinv'.tiles.pairwise).2.1
    have hapart := (List.pairwise_cons.mp hpw).1
    have hhas (j : ℕ) : Block.Has ⟨i, 0⟩ j ↔ j = i := by
      simp only [Block.Has, pow_zero]
      omega
    constructor
    · refine (hF _).mpr ⟨i, hi, rfl, fun blk hblk hblki => ?_⟩
      exact hapart blk hblk i ⟨Block.has_start _, hblki⟩
    · refine ⟨free', _, hinv', fun q => ?_⟩
      rw [Set.mem_sdiff, Set.mem_singleton_iff, hF]
      constructor
      · rintro ⟨⟨j, hj, rfl, hnot⟩, hne⟩
        refine ⟨j, hj, rfl, List.forall_mem_cons.mpr ⟨fun hji => hne ?_, hnot⟩⟩
        rw [(hhas j).mp hji]
      · rintro ⟨j, hj, rfl, hnot⟩
        obtain ⟨hji, hrest⟩ := List.forall_mem_cons.mp hnot
        refine ⟨⟨j, hj, rfl, hrest⟩, fun heq => hji ((hhas j).mpr ?_)⟩
        simp only [Pool.paddr, pageSize] at heq
        omega

/-- `buddy_alloc(0)` without a frame changes nothing. -/
theorem FreeFrames.alloc_none (h : FreeFrames P b F) (hb : b.buddyAlloc 0 = some (0, b')) : b' = b := by
  obtain ⟨free, held, hinv, -⟩ := h
  rcases buddyAlloc_spec hinv hb with ⟨-, heq⟩ | ⟨hzero, -⟩
  · exact heq
  · exact absurd rfl hzero

/-- While a frame is free, `buddy_alloc(0)` returns one. -/
theorem FreeFrames.alloc_ne_zero (h : FreeFrames P b F) {q : ℕ} (hp : p ∈ F)
    (hb : b.buddyAlloc 0 = some (q, b')) : q ≠ 0 := by
  obtain ⟨free, held, hinv, hF⟩ := h
  obtain ⟨i, hi, -, hnot⟩ := (hF p).mp hp
  have hcover : cover (byOrder free (P.top + 1) ++ held) i = 1 := by rw [hinv.tiles i, if_pos hi]
  have hheld : cover held i = 0 := by
    by_contra hne
    obtain ⟨blk, hblk, hhas⟩ := cover_pos.mp (Nat.pos_of_ne_zero hne)
    exact hnot blk hblk hhas
  rw [cover_append, hheld, Nat.add_zero] at hcover
  obtain ⟨blk, hblk, -⟩ := cover_pos.mp (by omega : 0 < cover (byOrder free (P.top + 1)) i)
  obtain ⟨hk, hstart⟩ := mem_byOrder.mp hblk
  exact buddyAlloc_ne_zero hinv (Nat.zero_le _) (by omega) (List.ne_nil_of_mem hstart) hb

/-- The frames of `F` are the free ones and those of `lent`, which `buddy_alloc(0)` has
handed out. -/
def Lends (P : Pool) (b : BuddyAllocator) (lent : List ℕ) (F : Set ℕ) : Prop :=
  ∃ (free : ℕ → List ℕ) (held : List Block) (is : List ℕ), lent = is.map P.paddr ∧
    Inv P P.pages b free (is.map (fun i => ⟨i, 0⟩) ++ held) ∧
    ∀ p, p ∈ F ↔ ∃ i < P.pages, p = P.paddr i ∧ ∀ blk ∈ held, ¬ blk.Has i

section Lends
variable {lent : List ℕ}

theorem lends_nil : Lends P b [] F ↔ FreeFrames P b F := by
  constructor
  · rintro ⟨free, held, is, hlent, hinv, hF⟩
    have his : is = [] := List.map_eq_nil_iff.mp hlent.symm
    rw [his] at hinv
    exact ⟨free, held, hinv, hF⟩
  · rintro ⟨free, held, hinv, hF⟩
    exact ⟨free, held, [], rfl, hinv, hF⟩

theorem Lends.alloc (h : Lends P b lent F) (hb : b.buddyAlloc 0 = some (p, b')) (hp : p ≠ 0) :
    Lends P b' (p :: lent) F := by
  obtain ⟨free, held, is, rfl, hinv, hF⟩ := h
  rcases buddyAlloc_spec hinv hb with ⟨hzero, -⟩ | ⟨-, i, free', rfl, hinv', -⟩
  · exact absurd hzero hp
  · exact ⟨free', held, i :: is, rfl, hinv', hF⟩

theorem Lends.dealloc (h : Lends P b (p :: lent) F) (hb : b.buddyDealloc p 0 = some b') :
    Lends P b' lent F := by
  obtain ⟨free, held, is, hlent, hinv, hF⟩ := h
  cases is with
  | nil => cases hlent
  | cons i is =>
      rw [List.map_cons, List.cons.injEq] at hlent
      obtain ⟨rfl, rfl⟩ := hlent
      have hheld : Inv P P.pages b free (⟨i, 0⟩ :: (is.map (fun i => ⟨i, 0⟩) ++ held)) := hinv
      obtain ⟨free', hinv'⟩ := buddyDealloc_spec hheld hb
      exact ⟨free', held, is, rfl, hinv', hF⟩

theorem Lends.isFrame (h : Lends P b lent F) (hp : p ∈ lent) : IsFrame p := by
  obtain ⟨free, held, is, rfl, hinv, -⟩ := h
  obtain ⟨i, hi, rfl⟩ := List.mem_map.mp hp
  have hmem : (⟨i, 0⟩ : Block) ∈ is.map (fun i => ⟨i, 0⟩) ++ held :=
    List.mem_append_left _ (List.mem_map_of_mem hi)
  exact P.isFrame (hinv.held_lt hmem)

/-- What is free while some frames are lent. -/
theorem Lends.free (h : Lends P b lent F) : FreeFrames P b (F \ {p | p ∈ lent}) := by
  obtain ⟨free, held, is, rfl, hinv, hF⟩ := h
  refine ⟨free, _, hinv, fun p => ?_⟩
  have hhas (i j : ℕ) : Block.Has ⟨i, 0⟩ j ↔ j = i := by
    simp only [Block.Has, pow_zero]
    omega
  rw [Set.mem_sdiff, hF]
  constructor
  · rintro ⟨⟨j, hj, rfl, hnot⟩, hlent⟩
    refine ⟨j, hj, rfl, fun blk hblk => ?_⟩
    rcases List.mem_append.mp hblk with hblk | hblk
    · obtain ⟨i, hi, rfl⟩ := List.mem_map.mp hblk
      intro hji
      apply hlent
      rw [(hhas i j).mp hji]
      exact List.mem_map_of_mem hi
    · exact hnot blk hblk
  · rintro ⟨j, hj, rfl, hnot⟩
    refine ⟨⟨j, hj, rfl, fun blk hblk => hnot blk (List.mem_append_right _ hblk)⟩, fun hlent => ?_⟩
    obtain ⟨i, hi, heq⟩ := List.mem_map.mp hlent
    apply hnot _ (List.mem_append_left _ (List.mem_map_of_mem hi))
    apply (hhas i j).mpr
    simp only [Pool.paddr, pageSize] at heq
    omega

end Lends

/-- The lists of the allocator determine the free frames. -/
theorem FreeFrames.unique {G : Set ℕ} (h : FreeFrames P b F) (h' : FreeFrames P b G) : F = G := by
  obtain ⟨free, held, hinv, hF⟩ := h
  obtain ⟨free', held', hinv', hG⟩ := h'
  have hfree (k : ℕ) (hk : k < P.top + 1) : free k = free' k :=
    List.map_injective_iff.mpr (fun i j h => P.addr_inj.mp h)
      ((hinv.chain k (by omega)).unique (hinv'.chain k (by omega)))
  have hsame : byOrder free (P.top + 1) = byOrder free' (P.top + 1) := byOrder_congr hfree
  -- A page of the pool is in a held block exactly if it is in no free one.
  have hheld (i : ℕ) (hi : i < P.pages) : cover held i = cover held' i := by
    have h₁ := hinv.tiles i
    have h₂ := hinv'.tiles i
    rw [cover_append, if_pos hi] at h₁ h₂
    rw [hsame] at h₁
    omega
  have hnone (bs : List Block) (i : ℕ) : (∀ blk ∈ bs, ¬ blk.Has i) ↔ cover bs i = 0 := by
    rw [← not_iff_not, ← Ne, ← Nat.pos_iff_ne_zero, cover_pos]
    push Not
    rfl
  ext p
  rw [hF, hG]
  apply exists_congr
  intro i
  apply and_congr_right
  intro hi
  rw [hnone, hnone, hheld i hi]

namespace Machine
variable {s t : Machine}

/-- The next `n` calls of `get_free_page` succeed. -/
def Supplies (direct : ℕ → Bool) : ℕ → BuddyAllocator → Prop
  | 0, _ => True
  | n + 1, b => ∃ p b', b.buddyAlloc 0 = some (p, b') ∧ p ≠ 0 ∧ direct p ∧ Supplies direct n b'

/-- `get_free_page` clears a free frame. -/
theorem getFreePage_spec {n : ℕ} (h : FreeFrames P s.buddy F) (hs : Supplies s.direct (n + 1) s.buddy) :
    ∃ p b, s.getFreePage =
        some (some p, { s with buddy := b, mem := Packed.copy pageSize s.mem p (fun _ => 0) 0 }) ∧
      p ∈ F ∧ FreeFrames P b (F \ {p}) ∧ Supplies s.direct n b := by
  obtain ⟨p, b, hb, hp, hdirect, hrest⟩ := hs
  obtain ⟨hF, hfree⟩ := h.alloc hb hp
  refine ⟨p, b, ?_, hF, hfree, hrest⟩
  simp only [getFreePage, hb, hp, hdirect, if_false, if_true]

end Machine
end Ferrite.Memory
