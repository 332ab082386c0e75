import Ferrite.Memory.BuddyInit
import Ferrite.Library.Runs

/-!
# The buddy allocator and its clients over whole runs

Clients hold the blocks that `buddy_alloc` returned and give them back with the
order they asked for. Between the calls they may write to what they hold, so the
words of a live block are arbitrary, among them the one that held its `next`.
A call that faults ends a run.

`Safe` and `Agree` are what is expected of every state of a run. The first holds
unless the memory straddles the first GiB. The second also needs that no block
is ever freed while its buddy is free: `buddy_dealloc` sets the bits of a buddy
it merges with and leaves them set.
-/
namespace Ferrite.Memory
open Word DyadicBlocks Chain Runs BuddyAllocator

/-- The allocator with the live blocks, as physical address and order. -/
structure System where
  b : BuddyAllocator
  live : List (ℕ × ℕ)

inductive Call
  | alloc (order : ℕ)
  | dealloc (paddr order : ℕ)
  | store

/-- The pages of a live block. -/
def liveBlock (b : BuddyAllocator) (x : ℕ × ℕ) : Block := ⟨b.pageIndex (p2v x.1), x.2⟩

inductive Step : System → Call → System → Prop
  | alloc {b b' : BuddyAllocator} {live : List (ℕ × ℕ)} {order paddr : ℕ} :
      b.buddyAlloc order = some (paddr, b') → paddr ≠ 0 →
      Step ⟨b, live⟩ (.alloc order) ⟨b', (paddr, order) :: live⟩
  | full {b b' : BuddyAllocator} {live : List (ℕ × ℕ)} {order : ℕ} :
      b.buddyAlloc order = some (0, b') → Step ⟨b, live⟩ (.alloc order) ⟨b', live⟩
  | dealloc {b b' : BuddyAllocator} {live : List (ℕ × ℕ)} {paddr order : ℕ} :
      (paddr, order) ∈ live → b.buddyDealloc paddr order = some b' →
      Step ⟨b, live⟩ (.dealloc paddr order) ⟨b', live.erase (paddr, order)⟩
  | store {b : BuddyAllocator} {live : List (ℕ × ℕ)} {next : ℕ → ℕ} :
      -- Only words of live blocks, or outside the pool, change.
      (∀ a, b.pageIndex a < b.size / pageSize →
        (∀ x ∈ live, ¬ (liveBlock b x).Has (b.pageIndex a)) → next a = b.next a) →
      Step ⟨b, live⟩ .store ⟨{ b with next := next }, live⟩

/-- The blocks on the lists, when the chains spell out `lists`, and the live blocks. -/
def allBlocks (s : System) (lists : ℕ → List ℕ) : List Block :=
  byOrder (fun k => (lists k).map s.b.pageIndex) (s.b.maxOrder + 1) ++ s.live.map (liveBlock s.b)

/-- The free and the live blocks are disjoint, cover exactly the pool, and a
block of order `k` starts at a multiple of `2 ^ k` pages from the base. -/
def Safe (s : System) : Prop :=
  ∃ lists : ℕ → List ℕ,
    (∀ k ≤ s.b.maxOrder, Linked 0 s.b.next (s.b.freeLists k) (lists k)) ∧
    (∀ k ≤ s.b.maxOrder, ∀ a ∈ lists k, blockSize k ∣ wsub a s.b.base) ∧
    (∀ x ∈ s.live, blockSize x.2 ∣ wsub (p2v x.1) s.b.base) ∧
    (allBlocks s lists).Pairwise Block.Disjoint ∧
    ∀ p, p < s.b.size / pageSize ↔ ∃ blk ∈ allBlocks s lists, blk.Has p

/-- What the next `buddy_alloc` returns lies in the pool and apart from the live blocks. -/
def AllocFresh (s : System) : Prop :=
  ∀ order paddr b', s.b.buddyAlloc order = some (paddr, b') → paddr ≠ 0 →
    (∀ p, (liveBlock s.b (paddr, order)).Has p → p < s.b.size / pageSize) ∧
    ∀ x ∈ s.live, (liveBlock s.b (paddr, order)).Disjoint (liveBlock s.b x)

variable {P : Pool} {b : BuddyAllocator} {free : ℕ → List ℕ} {held : List Block}
  {live : List (ℕ × ℕ)} {blk : Block} {s t : System} {e : Call}

/-- A held block as its client knows it. -/
def handle (P : Pool) (blk : Block) : ℕ × ℕ := (P.paddr blk.start, blk.order)

theorem handle_injective (P : Pool) : Function.Injective (handle P) := by
  intro c d h
  simp only [handle, Pool.paddr, pageSize, Prod.mk.injEq] at h
  cases c
  cases d
  simp only [Block.mk.injEq] at *
  omega

/-- The invariant of the allocator with the live blocks as the held ones. -/
def Tiled (P : Pool) (s : System) : Prop :=
  ∃ free held, Inv P P.pages s.b free held ∧ s.live = held.map (handle P)

section
variable (h : Inv P P.pages b free held)
include h

theorem size_div : b.size / pageSize = P.pages := by
  rw [h.size_eq, Nat.mul_div_cancel_left _ pageSize_pos]

theorem liveBlock_handle (hb : blk ∈ held) : liveBlock b (handle P blk) = blk := by
  have hlt := h.held_lt hb
  rw [liveBlock, handle, P.p2v_paddr_of_lt hlt, h.pageIndex_addr hlt]

theorem wsub_addr {i : ℕ} (hi : i < P.pages) : wsub (P.addr i) b.base = pageSize * i := by
  rw [h.base_eq]
  exact P.wsub_addr hi

theorem allBlocks_eq :
    allBlocks ⟨b, held.map (handle P)⟩ (fun k => (free k).map P.addr) =
      byOrder free (P.top + 1) ++ held := by
  have hfree : ∀ k < P.top + 1, ((free k).map P.addr).map b.pageIndex = free k := by
    intro k hk
    rw [List.map_map]
    refine (List.map_congr_left fun i hi => ?_).trans (List.map_id _)
    rw [Function.comp_apply, h.pageIndex_addr (h.free_lt (by omega) hi), id]
  have hheld : (held.map (handle P)).map (liveBlock b) = held := by
    rw [List.map_map]
    refine (List.map_congr_left fun c hc => ?_).trans (List.map_id _)
    rw [Function.comp_apply, liveBlock_handle h hc, id]
  rw [allBlocks, hheld, h.top_eq, byOrder_congr hfree]

theorem BuddyAllocator.Inv.safe : Safe ⟨b, held.map (handle P)⟩ := by
  refine ⟨fun k => (free k).map P.addr, ?_, ?_, ?_, ?_, ?_⟩
  · intro k hk
    exact h.chain k (h.top_eq ▸ hk)
  · intro k hk a ha
    have hk' : k ≤ P.top := h.top_eq ▸ hk
    obtain ⟨i, hi, rfl⟩ := List.mem_map.mp ha
    rw [wsub_addr h (h.free_lt hk' hi)]
    exact Nat.mul_dvd_mul_left _ (h.aligned _ (h.mem_free hk' hi))
  · intro x hx
    obtain ⟨c, hc, rfl⟩ := List.mem_map.mp hx
    have hlt := h.held_lt hc
    rw [handle, P.p2v_paddr_of_lt hlt, wsub_addr h hlt]
    exact Nat.mul_dvd_mul_left _ (h.aligned _ (List.mem_append_right _ hc))
  · rw [allBlocks_eq h]
    exact h.tiles.pairwise
  · intro p
    rw [allBlocks_eq h, size_div h]
    exact h.tiles.lt_iff p

theorem BuddyAllocator.Inv.allocFresh : AllocFresh ⟨b, held.map (handle P)⟩ := by
  intro order paddr b' hb hne
  rcases buddyAlloc_spec h hb with ⟨hz, -⟩ | ⟨-, i, free', rfl, hinv, -⟩
  · exact absurd hz hne
  · have hi := hinv.held_lt List.mem_cons_self
    have hblock : liveBlock b (P.paddr i, order) = ⟨i, order⟩ := by
      rw [liveBlock, P.p2v_paddr_of_lt hi, h.pageIndex_addr hi]
    have hpw := (List.pairwise_append.mp hinv.tiles.pairwise).2.1
    rw [hblock]
    refine ⟨fun p hp => ?_, fun x hx => ?_⟩
    · rw [size_div h]
      exact hinv.tiles.lt_of_has (List.mem_append_right _ List.mem_cons_self) hp
    · obtain ⟨c, hc, rfl⟩ := List.mem_map.mp hx
      rw [liveBlock_handle h hc]
      exact (List.pairwise_cons.mp hpw).1 c hc

end

/-- A block that is freed, in front of the other held ones. -/
theorem exists_held {x : ℕ × ℕ} (h : Inv P P.pages b free held) (hx : x ∈ held.map (handle P)) :
    ∃ blk held', x = handle P blk ∧ Inv P P.pages b free (blk :: held') ∧
      (held.map (handle P)).erase x = held'.map (handle P) ∧ held.Perm (blk :: held') := by
  obtain ⟨blk, hblk, rfl⟩ := List.mem_map.mp hx
  have hperm := List.perm_cons_erase hblk
  exact ⟨blk, held.erase blk, rfl, h.perm hperm, (List.map_erase (handle_injective P) held).symm,
    hperm⟩

/-- Writing to live blocks keeps the chains. -/
theorem BuddyAllocator.Inv.store (h : Inv P P.pages b free held) {next : ℕ → ℕ}
    (hn : ∀ a, b.pageIndex a < b.size / pageSize →
      (∀ x ∈ held.map (handle P), ¬ (liveBlock b x).Has (b.pageIndex a)) → next a = b.next a) :
    Inv P P.pages { b with next := next } free held := by
  refine h.congr_next fun k hk i hi => hn _ ?_ fun x hx => ?_
  · rw [h.pageIndex_addr (h.free_lt hk hi), size_div h]
    exact h.free_lt hk hi
  · obtain ⟨c, hc, rfl⟩ := List.mem_map.mp hx
    rw [liveBlock_handle h hc, h.pageIndex_addr (h.free_lt hk hi)]
    exact h.not_has hk hi hc (Block.has_start _)

/-- Every call and every write keeps the tiling. -/
theorem Tiled.step (h : Tiled P s) (hs : Step s e t) : Tiled P t := by
  obtain ⟨free, held, hinv, hlive⟩ := h
  cases hs with
  | alloc hb hne =>
      rcases buddyAlloc_spec hinv hb with ⟨hz, -⟩ | ⟨-, i, free', rfl, hinv', -⟩
      · exact absurd hz hne
      · exact ⟨free', _, hinv', by simp only at hlive; simp [hlive, handle]⟩
  | full hb =>
      rcases buddyAlloc_spec hinv hb with ⟨-, rfl⟩ | ⟨hne, -⟩
      · exact ⟨free, held, hinv, hlive⟩
      · exact absurd rfl hne
  | dealloc hx hb =>
      simp only at hlive hinv
      subst hlive
      obtain ⟨blk, held', heq, hinv', herase, -⟩ := exists_held hinv hx
      simp only [handle, Prod.mk.injEq] at heq
      obtain ⟨rfl, rfl⟩ := heq
      obtain ⟨free', hinv''⟩ := buddyDealloc_spec hinv' hb
      exact ⟨free', held', hinv'', herase⟩
  | store hn =>
      simp only at hlive hinv
      subst hlive
      exact ⟨free, held, hinv.store hn, rfl⟩

theorem Tiled.safe (h : Tiled P s) : Safe s := by
  obtain ⟨free, held, hinv, hlive⟩ := h
  cases s
  simp only at hlive hinv
  subst hlive
  exact hinv.safe

theorem Tiled.allocFresh (h : Tiled P s) : AllocFresh s := by
  obtain ⟨free, held, hinv, hlive⟩ := h
  cases s
  simp only at hlive hinv
  subst hlive
  exact hinv.allocFresh

/-- A page outside all lists is outside all blocks when nothing is live. -/
theorem not_safe_of_lost {m m' : Memblock} {next : ℕ → ℕ} (h : Straddles m)
    (hb : buddyInit m next = some (b, m')) : ¬ Safe ⟨b, []⟩ := by
  intro hsafe
  obtain ⟨⟨p₀, hlt, hlost⟩, -⟩ := buddyInit_lost h hb
  obtain ⟨lists, hchain, -, -, -, hcover⟩ := hsafe
  obtain ⟨blk, hblk, hhas⟩ := (hcover p₀).mp hlt
  simp only [allBlocks, List.map_nil, List.append_nil] at hblk
  obtain ⟨hk, hs⟩ := mem_byOrder.mp hblk
  obtain ⟨a, ha, hstart⟩ := List.mem_map.mp hs
  have hk' : blk.order ≤ b.maxOrder := by omega
  refine hlost blk.order hk' a ⟨_, hchain _ hk', ha⟩ ?_
  cases blk
  simp only at hstart
  exact hstart ▸ hhas

/-- Every state of every run is safe, and every allocation fresh, exactly when the
memory does not straddle the first GiB. -/
theorem buddy_safe_iff {m m' : Memblock} {next : ℕ → ℕ} (h : buddyInit m next = some (b, m')) :
    (∀ tr u, Trace Step ⟨b, []⟩ tr u → Throughout Safe tr u ∧ Throughout AllocFresh tr u) ↔
      ¬ Straddles m := by
  constructor
  · intro hrun hstr
    exact not_safe_of_lost hstr h (hrun [] _ (.nil _)).1.2
  · intro hstr tr u htr
    obtain ⟨P, free, hinv, -⟩ := buddyInit_spec hstr h
    have hinit : Tiled P ⟨b, []⟩ := ⟨free, [], hinv, rfl⟩
    have htiled := htr.throughout (I := Tiled P) (fun _ _ _ => Tiled.step) hinit
    exact ⟨⟨fun x hx => (htiled.1 x hx).safe, htiled.2.safe⟩,
      ⟨fun x hx => (htiled.1 x hx).allocFresh, htiled.2.allocFresh⟩⟩

/-- A machine with 16 MiB of memory and one with 2 GiB. -/
def smallMachine : Memblock := ⟨0x200000, 0x1000000, by decide, by decide, by decide⟩
def largeMachine : Memblock := ⟨0x200000, 0x80000000, by decide, by decide, by decide⟩

theorem buddy_safe_iff_small :
    ∃ b m', buddyInit smallMachine (fun _ => 0) = some (b, m') ∧ ((∀ tr u,
      Trace Step ⟨b, []⟩ tr u → Throughout Safe tr u ∧ Throughout AllocFresh tr u) ↔
        ¬ Straddles smallMachine) := by
  have hsome : (buddyInit smallMachine fun _ => 0).isSome = true := by decide
  obtain ⟨r, hr⟩ := Option.isSome_iff_exists.mp hsome
  exact ⟨r.1, r.2, hr, buddy_safe_iff hr⟩

/-- With 2 GiB of memory the only carved block has the address zero. -/
theorem not_buddy_safe_large :
    ¬ ∀ (m m' : Memblock) (next : ℕ → ℕ) (b : BuddyAllocator), buddyInit m next = some (b, m') →
      ∀ tr u, Trace Step ⟨b, []⟩ tr u → Throughout Safe tr u := by
  intro hclaim
  have hsome : (buddyInit largeMachine fun _ => 0).isSome = true := by decide
  obtain ⟨r, hr⟩ := Option.isSome_iff_exists.mp hsome
  have hstr : Straddles largeMachine := by decide
  exact not_safe_of_lost hstr hr (hclaim _ _ _ _ hr [] _ (.nil _)).2

end Ferrite.Memory
