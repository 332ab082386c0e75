import Ferrite.Memory.BuddyRuns

/-!
# When the bitmap agrees with the lists

The bitmap agrees with the live blocks as long as no released block has a free
buddy. In a run without merges nothing is coalesced because nothing has to be:
the free blocks never include two buddies, and once nothing is live they are the
carved blocks again. The first merge breaks the agreement for good, since the
bits of the absorbed buddy stay set on free pages.
-/
namespace Ferrite.Memory
open Word DyadicBlocks Chain Runs BuddyAllocator

/-- The bit of a page says whether it is allocated, no two buddies are on one
list, and with nothing live the lists hold the carved blocks. -/
structure Agree (s : System) : Prop where
  bits : ∀ p < s.b.size / pageSize,
    s.b.map p = true ↔ ∃ x ∈ s.live, (liveBlock s.b x).Has p
  buddies : ∀ k < s.b.maxOrder, ∀ a c, s.b.OnList a k → s.b.OnList c k →
    v2p a ^^^ blockSize k ≠ v2p c
  carved : s.live = [] → ∀ k ≤ s.b.maxOrder, ∀ a, s.b.OnList a k ↔ (a, k) ∈ s.b.carvedBlocks

/-- The call frees a block whose buddy is on its list. -/
def Merges (s : System) : Call → Prop
  | .dealloc paddr order =>
      order < s.b.maxOrder ∧ s.b.OnList (p2v (paddr ^^^ blockSize order)) order
  | _ => False

/-- A coalesced tiling of the pool by the blocks that the list names. -/
def CarvedTiling (P : Pool) (cs : List (ℕ × ℕ)) : Prop :=
  ∃ b free, Inv P P.pages b free [] ∧ Coalesced P.top (byOrder free (P.top + 1)) ∧
    ∀ a k, (k ≤ P.top ∧ ∃ i ∈ free k, P.addr i = a) ↔ (a, k) ∈ cs

variable {P : Pool} {b : BuddyAllocator} {free : ℕ → List ℕ} {held : List Block}
  {live : List (ℕ × ℕ)} {blk : Block} {s t : System} {e : Call} {cs : List (ℕ × ℕ)}

/-- The bits and the lists in terms of blocks of pages. -/
structure Coherent (P : Pool) (b : BuddyAllocator) (free : ℕ → List ℕ) (held : List Block) :
    Prop where
  inv : Inv P P.pages b free held
  bits : ∀ p < P.pages, b.map p = true ↔ ∃ blk ∈ held, blk.Has p
  coalesced : Coalesced P.top (byOrder free (P.top + 1))

theorem exists_live_has (h : Inv P P.pages b free held) (p : ℕ) :
    (∃ x ∈ held.map (handle P), (liveBlock b x).Has p) ↔ ∃ blk ∈ held, blk.Has p := by
  constructor
  · intro hx
    obtain ⟨x, hx, hp⟩ := hx
    obtain ⟨c, hc, rfl⟩ := List.mem_map.mp hx
    exact ⟨c, hc, liveBlock_handle h hc ▸ hp⟩
  · intro hc
    obtain ⟨c, hc, hp⟩ := hc
    exact ⟨handle P c, List.mem_map_of_mem hc, (liveBlock_handle h hc).symm ▸ hp⟩

/-- The buddy computed from the address of a free block, as a block. -/
theorem v2p_xor_eq_iff (h : Inv P P.pages b free held) {i j k : ℕ} (hk : k < P.top)
    (hi : i ∈ free k) (hj : j ∈ free k) :
    v2p (P.addr i) ^^^ blockSize k = v2p (P.addr j) ↔ j = i ^^^ 2 ^ k := by
  rw [P.v2p_addr (h.free_lt hk.le hi), P.v2p_addr (h.free_lt hk.le hj), P.paddr_xor hk]
  simp only [Pool.paddr, pageSize]
  omega

theorem Coherent.agree (h : Coherent P b free held) (hcs : CarvedTiling P b.carvedBlocks) :
    Agree ⟨b, held.map (handle P)⟩ := by
  have hinv := h.inv
  refine ⟨fun p hp => ?_, fun k hk a c ha hc => ?_, fun hlive k hk a => ?_⟩
  · rw [size_div hinv] at hp
    rw [exists_live_has hinv]
    exact h.bits p hp
  · have hk' : k < P.top := hinv.top_eq ▸ hk
    obtain ⟨i, hi, rfl⟩ := (hinv.onList_iff hk'.le).mp ha
    obtain ⟨j, hj, rfl⟩ := (hinv.onList_iff hk'.le).mp hc
    intro heq
    rw [v2p_xor_eq_iff hinv hk' hi hj] at heq
    subst heq
    exact h.coalesced ⟨i, k⟩ (mem_byOrder.mpr ⟨by simp only; omega, hi⟩) hk'
      (mem_byOrder.mpr ⟨by simp only [Block.buddy]; omega, hj⟩)
  · have hk' : k ≤ P.top := hinv.top_eq ▸ hk
    have hheld : held = [] := List.map_eq_nil_iff.mp hlive
    subst hheld
    obtain ⟨b₀, free₀, hinv₀, hcoal₀, hmem₀⟩ := hcs
    have hord {f : ℕ → List ℕ} : ∀ c ∈ byOrder f (P.top + 1), c.order ≤ P.top := by
      intro c hc
      exact Nat.lt_succ_iff.mp (mem_byOrder.mp hc).1
    have ht := hinv.tiles
    have hal := hinv.aligned
    have ht₀ := hinv₀.tiles
    have hal₀ := hinv₀.aligned
    rw [List.append_nil] at ht hal ht₀ hal₀
    rw [hinv.onList_iff hk', ← hmem₀]
    constructor
    · intro hi
      obtain ⟨i, hi, heq⟩ := hi
      have hmem := coalesced_unique ht ht₀ hal hal₀ h.coalesced hcoal₀ hord hord
        (mem_byOrder.mpr ⟨Nat.lt_succ_of_le hk', hi⟩ : (⟨i, k⟩ : Block) ∈ _)
      exact ⟨hk', i, (mem_byOrder.mp hmem).2, heq⟩
    · intro hi
      obtain ⟨-, i, hi, heq⟩ := hi
      have hmem := coalesced_unique ht₀ ht hal₀ hal hcoal₀ h.coalesced hord hord
        (mem_byOrder.mpr ⟨Nat.lt_succ_of_le hk', hi⟩ : (⟨i, k⟩ : Block) ∈ _)
      exact ⟨i, (mem_byOrder.mp hmem).2, heq⟩

theorem Agree.coherent (h : Agree ⟨b, held.map (handle P)⟩) (hinv : Inv P P.pages b free held) :
    Coherent P b free held := by
  refine ⟨hinv, fun p hp => ?_, fun c hc hlt hbc => ?_⟩
  · rw [← exists_live_has hinv]
    refine h.bits p ?_
    rw [size_div hinv]
    exact hp
  · have hi := (mem_byOrder.mp hc).2
    have hj := (mem_byOrder.mp hbc).2
    rw [Block.buddy_order] at hj
    refine h.buddies c.order (by simp only [hinv.top_eq]; exact hlt) _ _
      ((hinv.onList_iff hlt.le).mpr ⟨_, hi, rfl⟩) ((hinv.onList_iff hlt.le).mpr ⟨_, hj, rfl⟩) ?_
    rw [v2p_xor_eq_iff hinv hlt hi hj]
    rfl

/-- An allocation keeps the agreement. -/
theorem Coherent.alloc (h : Coherent P b free held) {i order : ℕ} {free' : ℕ → List ℕ}
    {b' : BuddyAllocator} (hinv : Inv P P.pages b' free' (⟨i, order⟩ :: held))
    (hbits : ∀ p, b'.map p = if Block.Has ⟨i, order⟩ p then true else b.map p)
    (hnew : ∀ c ∈ byOrder free' (P.top + 1), c ∈ byOrder free (P.top + 1) ∨ c.buddy.Has i) :
    Coherent P b' free' (⟨i, order⟩ :: held) := by
  refine ⟨hinv, fun p hp => ?_, fun c hc hlt hbc => ?_⟩
  · rw [hbits p]
    by_cases hi : Block.Has ⟨i, order⟩ p
    · simp [hi]
    · simp [hi, h.bits p hp]
  · -- No free block lies over the first page of the block that was handed out.
    have hover : ∀ d ∈ byOrder free' (P.top + 1), ¬ d.Has i := by
      intro d hd hdi
      obtain ⟨hk, hs⟩ := mem_byOrder.mp hd
      exact hinv.not_has (Nat.lt_succ_iff.mp hk) hs List.mem_cons_self hdi (Block.has_start _)
    rcases hnew c hc with hold | hover'
    · rcases hnew _ hbc with hold' | hover'
      · exact h.coalesced c hold hlt hold'
      · rw [Block.buddy_buddy] at hover'
        exact hover c hc hover'
    · exact hover _ hbc hover'

/-- A release without a merge keeps the agreement. -/
theorem Coherent.dealloc (h : Coherent P b free (blk :: held))
    (hnot : blk.order < P.top → blk.buddy.start ∉ free blk.order) {b' : BuddyAllocator}
    (hb : b.buddyDealloc (P.paddr blk.start) blk.order = some b') :
    ∃ free', Coherent P b' free' held := by
  obtain ⟨hinv, -, hbits⟩ := buddyDealloc_of_not_mem h.inv hnot hb
  refine ⟨_, hinv, fun p hp => ?_, fun c hc hlt hbc => ?_⟩
  · rw [hbits p]
    by_cases hblk : blk.Has p
    · have hpw := List.pairwise_cons.mp (List.pairwise_append.mp h.inv.tiles.pairwise).2.1
      simp only [hblk, if_true, Bool.false_eq_true, false_iff]
      intro hex
      obtain ⟨d, hd, hdp⟩ := hex
      exact hpw.1 d hd p ⟨hblk, hdp⟩
    · rw [if_neg hblk, h.bits p hp]
      simp [hblk]
  · have hcase {d : Block} (hd : d ∈ byOrder (Function.update free blk.order
        (blk.start :: free blk.order)) (P.top + 1)) : d = blk ∨ d ∈ byOrder free (P.top + 1) := by
      obtain ⟨hk, hs⟩ := mem_byOrder.mp hd
      by_cases hdk : d.order = blk.order
      · rw [hdk, Function.update_self] at hs
        rcases List.mem_cons.mp hs with hs | hs
        · exact .inl (by cases d; cases blk; simp_all)
        · exact .inr (mem_byOrder.mpr ⟨hk, hdk ▸ hs⟩)
      · rw [Function.update_of_ne hdk] at hs
        exact .inr (mem_byOrder.mpr ⟨hk, hs⟩)
    have hne : blk.buddy ≠ blk := by
      intro heq
      have hal : blk.Aligned := h.inv.aligned blk (by simp)
      refine Block.buddy_disjoint hal blk.start ⟨blk.has_start, ?_⟩
      rw [heq]
      exact blk.has_start
    rcases hcase hc with rfl | hold
    · rcases hcase hbc with heq | hold'
      · exact hne heq
      · exact hnot hlt (mem_byOrder.mp hold').2
    · rcases hcase hbc with heq | hold'
      · have hcb : c = blk.buddy := by rw [← heq, Block.buddy_buddy]
        subst hcb
        exact hnot hlt (mem_byOrder.mp hold).2
      · exact h.coalesced c hold hlt hold'

/-- A release with a merge breaks it: a free page keeps its bit. -/
theorem Coherent.not_agree_of_merge (h : Coherent P b free (blk :: held)) (hlt : blk.order < P.top)
    (hmem : blk.buddy.start ∈ free blk.order) {b' : BuddyAllocator}
    (hb : b.buddyDealloc (P.paddr blk.start) blk.order = some b') :
    ¬ Agree ⟨b', held.map (handle P)⟩ := by
  intro hagree
  have hpage : blk.buddy.start < P.pages := h.inv.free_lt hlt.le hmem
  have hfree : ∀ c ∈ blk :: held, ∀ p, blk.buddy.Has p → ¬ c.Has p := by
    intro c hc p hp
    exact h.inv.not_has hlt.le hmem hc hp
  have hclear : ∀ p, blk.buddy.Has p → b.map p = false := by
    intro p hp
    have hin : p < P.pages := h.inv.tiles.lt_of_has (h.inv.mem_free hlt.le hmem) hp
    rw [Bool.eq_false_iff, ne_eq, h.bits p hin]
    intro hex
    obtain ⟨c, hc, hcp⟩ := hex
    exact hfree c hc p hp hcp
  obtain ⟨free', hinv'⟩ := buddyDealloc_spec h.inv hb
  have hset := buddyDealloc_of_mem h.inv hlt hmem hclear hb _ blk.buddy.has_start
  have hbit := hagree.bits blk.buddy.start (by simp only [size_div hinv']; exact hpage)
  rw [exists_live_has hinv'] at hbit
  obtain ⟨c, hc, hcp⟩ := hbit.mp hset
  exact hfree c (List.mem_cons_of_mem _ hc) _ blk.buddy.has_start hcp

theorem carvedBlocks_congr {b' : BuddyAllocator} {free' : ℕ → List ℕ} {held' : List Block}
    (h : Inv P P.pages b free held) (h' : Inv P P.pages b' free' held') :
    b'.carvedBlocks = b.carvedBlocks := by
  unfold carvedBlocks
  rw [h.base_eq, h.size_eq, h.top_eq, h'.base_eq, h'.size_eq, h'.top_eq]

/-- Tiled, with the carved blocks of the beginning. -/
def TiledFrom (P : Pool) (s : System) : Prop := Tiled P s ∧ CarvedTiling P s.b.carvedBlocks

theorem TiledFrom.step (h : TiledFrom P s) (hs : Step s e t) : TiledFrom P t := by
  have ht := h.1.step hs
  obtain ⟨free, held, hinv, -⟩ := h.1
  obtain ⟨free', held', hinv', -⟩ := ht
  refine ⟨h.1.step hs, ?_⟩
  rw [carvedBlocks_congr hinv hinv']
  exact h.2

/-- One call keeps the agreement exactly when it merges nothing. -/
theorem agree_step_iff (h : TiledFrom P s) (ha : Agree s) (hs : Step s e t) :
    Agree t ↔ ¬ Merges s e := by
  have ht := (h.step hs).2
  obtain ⟨⟨free, held, hinv, hlive⟩, hcs⟩ := h
  cases hs with
  | alloc hb hne =>
      simp only at hinv hlive hcs
      subst hlive
      refine iff_of_true ?_ (by simp [Merges])
      rcases buddyAlloc_spec hinv hb with ⟨hz, -⟩ | ⟨-, i, free', rfl, hinv', hbits, hnew⟩
      · exact absurd hz hne
      · exact ((ha.coherent hinv).alloc hinv' hbits hnew).agree ht
  | full hb =>
      refine iff_of_true ?_ (by simp [Merges])
      rcases buddyAlloc_spec hinv hb with ⟨-, rfl⟩ | ⟨hne, -⟩
      · exact ha
      · exact absurd rfl hne
  | @dealloc b b' live paddr order hx hb =>
      simp only at hinv hlive hcs
      subst hlive
      obtain ⟨blk, held', heq, hinv', herase, hperm⟩ := exists_held hinv hx
      simp only [handle, Prod.mk.injEq] at heq
      obtain ⟨rfl, rfl⟩ := heq
      have hcoh : Coherent P b free (blk :: held') := by
        have hcoh := ha.coherent hinv
        refine ⟨hinv', fun p hp => ?_, hcoh.coalesced⟩
        simp only [hcoh.bits p hp, hperm.mem_iff]
      have hmerge : Merges ⟨b, held.map (handle P)⟩ (.dealloc (P.paddr blk.start) blk.order) ↔
          blk.order < P.top ∧ blk.buddy.start ∈ free blk.order := by
        simp only [Merges, hinv.top_eq]
        exact and_congr_right fun hlt => onList_buddy_iff hinv' hlt
      rw [hmerge, herase]
      constructor
      · intro hagree hand
        exact hcoh.not_agree_of_merge hand.1 hand.2 hb hagree
      · intro hnot
        obtain ⟨free', hcoh'⟩ := hcoh.dealloc (fun hlt hmem => hnot ⟨hlt, hmem⟩) hb
        exact hcoh'.agree ht
  | store hn =>
      simp only at hinv hlive hcs
      subst hlive
      refine iff_of_true ?_ (by simp [Merges])
      have hcoh := ha.coherent hinv
      have hcoh' : Coherent P _ free held := ⟨hinv.store hn, hcoh.bits, hcoh.coalesced⟩
      exact hcoh'.agree ht

/-- Where the memory straddles the first GiB, the carved block at the address zero is
on no list. -/
theorem not_agree_of_straddles {m m' : Memblock} {next : ℕ → ℕ} {b : BuddyAllocator}
    (h : Straddles m) (hb : buddyInit m next = some (b, m')) : ¬ Agree ⟨b, []⟩ := by
  intro hagree
  obtain ⟨-, k, hk, hmem⟩ := buddyInit_lost h hb
  obtain ⟨l, hlink, hzero⟩ := (hagree.carved rfl k hk 0).mpr hmem
  exact hlink.ne_null hzero rfl

/-- In a run the agreement holds throughout exactly when the memory does not straddle
the first GiB and no call merges. -/
theorem buddy_agree_iff {m m' : Memblock} {next : ℕ → ℕ} {b : BuddyAllocator}
    (h : buddyInit m next = some (b, m')) {tr : List (System × Call)} {u : System}
    (htr : Trace Step ⟨b, []⟩ tr u) :
    Throughout Agree tr u ↔ ¬ Straddles m ∧ ∀ x ∈ tr, ¬ Merges x.1 x.2 := by
  by_cases hstr : Straddles m
  · refine iff_of_false (fun hagree => ?_) fun hand => hand.1 hstr
    refine not_agree_of_straddles hstr h ?_
    cases htr with
    | nil _ => exact hagree.2
    | cons _ _ => exact hagree.1 _ List.mem_cons_self
  · obtain ⟨P, free, hinv, hclear, hcoal, hcarved, -⟩ := buddyInit_spec hstr h
    have hcs : CarvedTiling P b.carvedBlocks := ⟨b, free, hinv, hcoal, hcarved⟩
    have hinit : TiledFrom P ⟨b, []⟩ := ⟨⟨free, [], hinv, rfl⟩, hcs⟩
    have hagree : Agree ⟨b, []⟩ := by
      have hcoh : Coherent P b free [] := ⟨hinv, fun p _ => by simp [hclear p], hcoal⟩
      exact hcoh.agree hcs
    have hall := htr.throughout (I := TiledFrom P) (fun _ _ _ => TiledFrom.step) hinit
    have hiff := htr.throughout_iff (I := fun s => TiledFrom P s ∧ Agree s)
      (C := fun s e => ¬ Merges s e)
      (fun s e t hs hst => (and_iff_right (hs.1.step hst)).trans (agree_step_iff hs.1 hs.2 hst))
      ⟨hinit, hagree⟩
    rw [and_iff_right hstr, ← hiff]
    constructor
    · intro hag
      exact ⟨fun x hx => ⟨hall.1 x hx, hag.1 x hx⟩, hall.2, hag.2⟩
    · intro hboth
      exact ⟨fun x hx => (hboth.1 x hx).2, hboth.2.2⟩

/-- A machine whose pool has four pages. -/
def tinyMachine : Memblock := ⟨0x200000, 0x208000, by decide, by decide, by decide⟩

/-- Taking and returning the first page, which merges the pool into one block again. -/
def firstPage : Option (BuddyAllocator × ℕ × BuddyAllocator × BuddyAllocator) :=
  (buddyInit tinyMachine fun _ => 0).bind fun r =>
    (r.1.buddyAlloc 0).bind fun x =>
      (x.2.buddyDealloc x.1 0).bind fun b => some (r.1, x.1, x.2, b)

theorem firstPage_run : ∃ b m' paddr b₁ b₂, buddyInit tinyMachine (fun _ => 0) = some (b, m') ∧
    Trace Step ⟨b, []⟩ [(⟨b, []⟩, .alloc 0), (⟨b₁, [(paddr, 0)]⟩, .dealloc paddr 0)] ⟨b₂, []⟩ ∧
      1 < b₂.size / pageSize ∧ b₂.map 1 = true := by
  have hrun : (firstPage.map fun x =>
      decide (x.2.1 ≠ 0 ∧ 1 < x.2.2.2.size / pageSize ∧ x.2.2.2.map 1 = true)) = some true := by
    decide +kernel
  obtain ⟨x, hx, hdec⟩ := Option.map_eq_some_iff.mp hrun
  unfold firstPage at hx
  obtain ⟨⟨b, m'⟩, hr, hx⟩ := Option.bind_eq_some_iff.mp hx
  obtain ⟨⟨paddr, b₁⟩, hy, hx⟩ := Option.bind_eq_some_iff.mp hx
  obtain ⟨b₂, hb₂, hx⟩ := Option.bind_eq_some_iff.mp hx
  cases hx
  obtain ⟨hne, hsize, hbit⟩ := of_decide_eq_true hdec
  have halloc : Step ⟨b, []⟩ (.alloc 0) ⟨b₁, [(paddr, 0)]⟩ := .alloc hy hne
  have hfree : Step ⟨b₁, [(paddr, 0)]⟩ (.dealloc paddr 0) ⟨b₂, []⟩ := by
    have hstep := Step.dealloc (List.mem_singleton_self (paddr, 0)) hb₂
    rwa [List.erase_cons_head] at hstep
  exact ⟨b, m', paddr, b₁, b₂, hr, .cons halloc (.single hfree), hsize, hbit⟩

theorem buddy_agree_iff_tiny : ∃ b m' tr u, buddyInit tinyMachine (fun _ => 0) = some (b, m') ∧
    Trace Step ⟨b, []⟩ tr u ∧ tr.length = 2 ∧
      (Throughout Agree tr u ↔ ¬ Straddles tinyMachine ∧ ∀ x ∈ tr, ¬ Merges x.1 x.2) := by
  obtain ⟨b, m', paddr, b₁, b₂, hinit, htr, -, -⟩ := firstPage_run
  exact ⟨b, m', _, _, hinit, htr, rfl, buddy_agree_iff hinit htr⟩

theorem not_buddy_agree_tiny :
    ¬ ∀ (m m' : Memblock) (next : ℕ → ℕ) (b : BuddyAllocator), buddyInit m next = some (b, m') →
      ∀ tr u, Trace Step ⟨b, []⟩ tr u → Throughout Agree tr u := by
  intro hclaim
  obtain ⟨b, m', paddr, b₁, b₂, hinit, htr, hsize, hbit⟩ := firstPage_run
  have hagree := (hclaim _ _ _ _ hinit _ _ htr).2
  obtain ⟨x, hx, -⟩ := (hagree.bits 1 hsize).mp hbit
  exact absurd hx List.not_mem_nil

end Ferrite.Memory
