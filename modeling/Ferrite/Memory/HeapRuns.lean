import Ferrite.Library.Runs
import Ferrite.Memory.HeapCalls
import Ferrite.Memory.Layout

/-!
# Runs of the kernel heap

A run consists of `vmalloc`, `vfree` of live pointers, and what the owners of live
blocks write to them. As long as the layout gives the heap pages of its own, every
state of every run is tiled by the free nodes and the live blocks.
-/
namespace Ferrite.Memory
open Word Segments Runs BuddyAllocator Heap

/-- The heap, with the address and the size of the header of every live block. -/
structure HeapSystem where
  heap : Heap
  live : List (ℕ × ℕ)

inductive HeapEvent
  | vmalloc (n : ℕ)
  | vfree (ptr : ℕ)
  | write (a v : ℕ)

namespace HeapSystem

/-- A word of the payload of a live block. -/
def InPayload (s : HeapSystem) (a : ℕ) : Prop :=
  ∃ p ∈ s.live, 4 ∣ a ∧ p.1 + headerSize ≤ a ∧ a + 4 ≤ p.1 + p.2

instance (s : HeapSystem) (a : ℕ) : Decidable (s.InPayload a) :=
  inferInstanceAs (Decidable (∃ p ∈ s.live, _))

/-- One call, or a write of an owner. -/
def step (s : HeapSystem) : HeapEvent → Option HeapSystem
  | .vmalloc n =>
      if 1 ≤ n ∧ n + headerSize + (pageSize - 1) < word then
        (s.heap.vmalloc n).map fun r =>
          if r.1 = 0 then ⟨r.2, s.live⟩ else ⟨r.2, (r.1 - headerSize, blockTotal n) :: s.live⟩
      else none
  | .vfree ptr =>
      match s.live.find? fun p => p.1 + headerSize = ptr with
      | none => none
      | some p => (s.heap.vfree ptr).map fun h => ⟨h, s.live.erase p⟩
  | .write a v => if s.InPayload a then (s.heap.store a v).map fun h => ⟨h, s.live⟩ else none

/-- Free nodes and live blocks tile the addresses from `lo` to `hi`. -/
def Tiled (lo hi : ℕ) (s : HeapSystem) : Prop :=
  ∃ free, s.heap.NodesTo s.heap.head free 0 ∧
    -- In order, neither overlapping nor adjacent.
    (free.Pairwise fun p q => p.1 + p.2 < q.1) ∧
    (free ++ s.live).Pairwise (fun p q => p.1 + p.2 ≤ q.1 ∨ q.1 + q.2 ≤ p.1) ∧
    (∀ x, (lo ≤ x ∧ x < hi) ↔ ∃ p ∈ free ++ s.live, p.1 ≤ x ∧ x < p.1 + p.2) ∧
    ∀ p ∈ s.live, s.heap.IsHeader p.1 p.2

/-- The segments behind a tiling. -/
def Kept (P : Pool) (lo hi : ℕ) (s : HeapSystem) : Prop :=
  ∃ gs, HeapInv P lo hi s.heap gs ∧ (used gs).Perm s.live

variable {P : Pool} {lo hi : ℕ} {s t : HeapSystem} {e : HeapEvent} {gs : List Seg}

theorem Kept.tiled (h : Kept P lo hi s) : Tiled lo hi s := by
  obtain ⟨gs, hinv, hlive⟩ := h
  have hperm : (frees gs ++ s.live).Perm (gs.map fun g => (g.start, g.size)) :=
    (hlive.symm.append_left _).trans frees_append_used_perm
  refine ⟨frees gs, hinv.nodes, hinv.covers.frees_apart hinv.coalesced, ?_, fun x => ?_, fun p hp => ?_⟩
  · rw [hperm.pairwise_iff fun h => h.symm, List.pairwise_map]
    exact hinv.covers.sorted.imp .inl
  · rw [hinv.covers.mem_iff]
    constructor
    · rintro ⟨g, hg, hx⟩
      exact ⟨_, hperm.mem_iff.mpr (List.mem_map_of_mem hg), hx⟩
    · rintro ⟨p, hp, hx⟩
      obtain ⟨g, hg, rfl⟩ := List.mem_map.mp (hperm.mem_iff.mp hp)
      exact ⟨g, hg, hx⟩
  · exact hinv.headers p (hlive.mem_iff.mpr hp)

/-- What an owner writes to its block changes neither nodes nor headers. -/
theorem write_inv {u : Heap} {a v z x : ℕ} (hinv : HeapInv P lo hi s.heap gs) (hmem : (a, z) ∈ used gs)
    (hx : 4 ∣ x) (hlo : a + headerSize ≤ x) (hhi : x + 4 ≤ a + z) (hs : s.heap.store x v = some u) :
    HeapInv P lo hi u gs := by
  have hseg := mem_used.mp hmem
  obtain ⟨o, rfl⟩ := Nat.exists_eq_add_of_le (le_trans (Nat.le_add_right a headerSize) hlo)
  have ho : o < z := by omega
  obtain ⟨howned, hk, -, hhead, -⟩ := hinv.owned.store (hinv.page_mem hseg ho) hs
  have hout (g : Seg) (hg : g ∈ gs) (i : ℕ) (hi : i < 12) (hne : g.start + i ≠ a + o ∨ g.free = true) :
      g.start + i ≠ a + o := by
    intro heq
    have hgp := pageSize_le (hinv.aligned g hg).2 (hinv.covers.pos hg)
    simp only [pageSize] at hgp
    have := hinv.covers.eq_of_mem (x := a + o) hg hseg (by omega) (by simp only; omega)
    subst this
    exact hne.elim (fun h => h heq) fun h => Bool.false_ne_true h
  refine ⟨hinv.lo_dvd, hinv.lo_pos, hinv.hi_lt, howned, hinv.covers, hinv.coalesced, hinv.aligned, ?_, ?_⟩
  · rw [hhead]
    apply hinv.nodes.keeps hinv.spaced hk
    rintro ⟨b, y⟩ hp
    have hb := mem_frees.mp hp
    exact ⟨hout _ hb 0 (by omega) (.inr rfl), hout _ hb 4 (by omega) (.inr rfl)⟩
  · rintro ⟨b, y⟩ hp
    have hb := mem_used.mp hp
    have hy := pageSize_le (hinv.aligned _ hb).2 (hinv.covers.pos hb)
    simp only [pageSize] at hy
    have hsame (i w : ℕ) (hi : i < 12) (hload : s.heap.load (b + i) = some w) : u.load (b + i) = some w := by
      apply hk _ _ (hinv.page_mem hb (by omega)) _ hload
      rw [Set.mem_singleton_iff]
      intro heq
      have hba := hinv.covers.eq_of_mem (x := a + o) hb hseg (by simp only; omega) (by simp only; omega)
      cases hba
      simp only [headerSize] at hlo
      omega
    obtain ⟨h₈, h₄, w, h₀, hw⟩ := hinv.headers _ hp
    exact ⟨hsame 8 _ (by omega) h₈, hsame 4 _ (by omega) h₄, w, hsame 0 _ (by omega) h₀, hw⟩

theorem Kept.step (h : Kept P lo hi s) (hs : s.step e = some t) : Kept P lo hi t := by
  obtain ⟨gs, hinv, hlive⟩ := h
  cases e with
  | vmalloc n =>
      rw [HeapSystem.step] at hs
      split_ifs at hs with hn
      obtain ⟨⟨ptr, u⟩, hcall, rfl⟩ := Option.map_eq_some_iff.mp hs
      rcases hinv.vmalloc hn.2 hcall with ⟨rfl, rfl⟩ | ⟨a, z, gs', rfl, -, hinv', hused⟩
      · exact ⟨gs, hinv, hlive⟩
      · have hne : a + headerSize ≠ 0 := by simp [headerSize]
        simp only [if_neg hne, Nat.add_sub_cancel]
        exact ⟨gs', hinv', hused.trans (hlive.cons _)⟩
  | vfree ptr =>
      rw [HeapSystem.step] at hs
      split at hs
      · cases hs
      · rename_i p hfind
        obtain ⟨u, hcall, rfl⟩ := Option.map_eq_some_iff.mp hs
        have hp : p ∈ s.live := List.mem_of_find?_eq_some hfind
        have hptr : p.1 + headerSize = ptr := by simpa using List.find?_some hfind
        rw [← hptr] at hcall
        obtain ⟨gs', hinv', hused⟩ := hinv.vfree (hlive.mem_iff.mpr hp) hcall
        refine ⟨gs', hinv', ?_⟩
        have := (hused.symm.trans hlive).erase p
        rwa [List.erase_cons_head] at this
  | write x v =>
      rw [HeapSystem.step] at hs
      split_ifs at hs with hpay
      obtain ⟨u, hcall, rfl⟩ := Option.map_eq_some_iff.mp hs
      obtain ⟨⟨a, z⟩, hp, hx, hlo, hhi⟩ := hpay
      exact ⟨gs, write_inv hinv (hlive.mem_iff.mpr hp) hx hlo hhi hcall, hlive⟩

/-- The heap that `vmalloc_init` makes is one free segment. -/
theorem vmallocInit_spec {h u : Heap} {total : ℕ} {free : ℕ → List ℕ} {held : List DyadicBlocks.Block}
    (hinv : Inv P P.pages h.buddy free held)
    (hnone : ∀ q ∈ region heapStart (heapStart + heapSize total), h.pages q = none)
    (hdvd : pageSize ∣ heapSize total) (hu : h.vmallocInit total = some u) :
    HeapInv P heapStart (heapStart + heapSize total) u [⟨heapStart, heapSize total, true⟩] := by
  have howned : Owned P (region heapStart (heapStart + heapSize total)) h := by
    refine ⟨free, held, hinv, fun q hq f hf => ?_, fun q hq q' _ f hf _ => ?_, fun q hq f hf => ?_⟩
    all_goals
      rw [hnone q hq] at hf
      cases hf
  obtain ⟨s₁, h₁, hu⟩ := Option.bind_eq_some_iff.mp hu
  split_ifs at hu with hsmall
  obtain ⟨s₂, h₂, h₃⟩ := Option.bind_eq_some_iff.mp hu
  have hz : pageSize ≤ heapSize total := pageSize_le hdvd (by simp only [nodeSize] at hsmall; omega)
  have hdvd₀ : pageSize ∣ heapStart := by decide
  have hR (o : ℕ) (ho : o < pageSize) :
      (heapStart + o) / pageSize ∈ region heapStart (heapStart + heapSize total) :=
    mem_region hdvd₀ (Nat.le_add_right ..) (Nat.add_lt_add_left (ho.trans_le hz) _)
  obtain ⟨⟨free₁, held₁, hinv₁, ho₁⟩, -, -⟩ := howned.mapNewPage h₁
  have ho₁' : Owned P (region heapStart (heapStart + heapSize total)) { s₁ with head := heapStart } :=
    ⟨free₁, held₁, hinv₁, ho₁.frame, ho₁.inj, ho₁.table⟩
  obtain ⟨ho₂, -, hsize, hhead₂, -⟩ := ho₁'.store (hR 0 pageSize_pos) h₂
  obtain ⟨ho₃, hk₃, hnext, hhead₃, -⟩ := ho₂.store (hR 4 (by simp [pageSize])) h₃
  have hhead : u.head = heapStart := hhead₃.trans hhead₂
  refine ⟨hdvd₀, by decide, ?_, ho₃, ⟨rfl, lt_of_lt_of_le pageSize_pos hz, rfl⟩,
    List.isChain_singleton _, ?_, ?_, ?_⟩
  · have : heapSize total ≤ heapLimit - heapStart := min_le_left _ _
    simp only [heapLimit, heapStart, word] at *
    omega
  · intro g hg
    rw [List.mem_singleton.mp hg]
    exact ⟨hdvd₀, hdvd⟩
  · rw [hhead]
    exact ⟨rfl, show heapStart ≠ 0 by decide, hk₃ _ _ (hR 0 pageSize_pos) (by simp) hsize, 0, hnext, rfl⟩
  · intro p hp
    cases hp

end HeapSystem

/-- The heap after boot on a machine with at most 256 MiB. -/
theorem boot_kept {m : Memblock} {next : ℕ → ℕ} {scratch : ℕ} {s h : Heap}
    (hboot : kernelBoot m next scratch = some s)
    (hinit : s.vmallocInit s.buddy.size = some h) (hram : m.heapEnd ≤ 0x10000000) :
    ∃ P, HeapSystem.Kept P heapStart (heapStart + heapSize s.buddy.size) ⟨h, []⟩ := by
  have hlayout := (layout_iff hboot).mpr hram
  obtain ⟨⟨b, m'⟩, hb, rfl⟩ := Option.map_eq_some_iff.mp hboot
  have hstr : ¬ Straddles m := by
    rintro ⟨-, hlt⟩
    simp only [word, kernBase] at hlt
    omega
  obtain ⟨P, free, hinv, -⟩ := buddyInit_spec hstr hb
  have hsize : heapSize b.size = b.size := by
    have hpool := pool_end (hram.trans (by decide)) hb
    rw [heapSize, min_eq_right]
    simp only [heapLimit, heapStart]
    omega
  have hdvd : pageSize ∣ heapSize b.size := by
    rw [hsize, hinv.size_eq]
    exact Nat.dvd_mul_right ..
  exact ⟨P, _, HeapSystem.vmallocInit_spec hinv hlayout.unmapped hdvd hinit, .nil⟩

/-- On a machine with at most 256 MiB every state of every run of the heap is tiled. -/
theorem heap_tiled {m : Memblock} {next : ℕ → ℕ} {scratch : ℕ} {s h : Heap} {u : HeapSystem}
    {tr : List (HeapSystem × HeapEvent)} (hboot : kernelBoot m next scratch = some s)
    (hinit : s.vmallocInit s.buddy.size = some h) (hram : m.heapEnd ≤ 0x10000000)
    (htr : Trace (fun s e t => s.step e = some t) ⟨h, []⟩ tr u) :
    Throughout (HeapSystem.Tiled heapStart (heapStart + heapSize s.buddy.size)) tr u := by
  obtain ⟨P, hkept⟩ := boot_kept hboot hinit hram
  have hall := htr.throughout (fun _ _ _ hs hst => HeapSystem.Kept.step hs hst) hkept
  exact ⟨fun x hx => (hall.1 x hx).tiled, hall.2.tiled⟩

/-- A boot followed by a run of the heap. -/
def bootRun (m : Memblock) (es : List HeapEvent) : Option (Heap × Heap × HeapSystem) := do
  let s ← kernelBoot m (fun _ => 0) 0
  let h ← s.vmallocInit s.buddy.size
  let u ← exec HeapSystem.step ⟨h, []⟩ es
  return (s, h, u)

theorem bootRun_eq_some {m : Memblock} {es : List HeapEvent} {r : Heap × Heap × HeapSystem}
    (hr : bootRun m es = some r) : kernelBoot m (fun _ => 0) 0 = some r.1 ∧
      r.1.vmallocInit r.1.buddy.size = some r.2.1 ∧
      exec HeapSystem.step ⟨r.2.1, []⟩ es = some r.2.2 := by
  unfold bootRun at hr
  obtain ⟨s, hs, hr⟩ := Option.bind_eq_some_iff.mp hr
  obtain ⟨h, hh, hr⟩ := Option.bind_eq_some_iff.mp hr
  obtain ⟨u, hu, hr⟩ := Option.bind_eq_some_iff.mp hr
  cases hr
  exact ⟨hs, hh, hu⟩

theorem heap_tiled_small : ∃ s h u tr, kernelBoot smallMachine (fun _ => 0) 0 = some s ∧
    Trace (fun s e t => HeapSystem.step s e = some t) ⟨h, []⟩ tr u ∧ u.live = [(0xD0003000, 0x1000)] ∧
    Throughout (HeapSystem.Tiled heapStart (heapStart + heapSize s.buddy.size)) tr u := by
  have hrun : ((bootRun smallMachine
      [.vmalloc 8193, .vmalloc 1, .write 0xD0000010 7, .vfree 0xD000000C]).any fun r =>
        r.2.2.live = [(0xD0003000, 0x1000)]) = true := by decide +kernel
  obtain ⟨⟨s, h, u⟩, hr, hlive⟩ := (Option.any_eq_true ..).mp hrun
  obtain ⟨hs, hh, hu⟩ := bootRun_eq_some hr
  simp only at hs hh hu
  have htr := exec_trace hu
  have hram : smallMachine.heapEnd ≤ 0x10000000 := by decide
  exact ⟨s, h, u, _, hs, htr, of_decide_eq_true hlive, heap_tiled hs hh hram htr⟩

/-- With 512 MiB of memory, splitting a frame of the direct map overwrites the node behind a
new block. -/
theorem not_heap_tiled_medium : ¬ ∀ (m : Memblock) (next : ℕ → ℕ) (scratch : ℕ) (s h : Heap)
    (u : HeapSystem) (tr : List (HeapSystem × HeapEvent)), kernelBoot m next scratch = some s →
    pageSize ∣ heapSize s.buddy.size → s.vmallocInit s.buddy.size = some h →
    Trace (fun s e t => HeapSystem.step s e = some t) ⟨h, []⟩ tr u →
    Throughout (HeapSystem.Tiled heapStart (heapStart + heapSize s.buddy.size)) tr u := by
  intro hclaim
  have hrun : ((bootRun mediumMachine [.vmalloc 8193]).any fun r =>
      heapSize r.1.buddy.size = 0x10000000 ∧ r.2.2.heap.head = 0xD0003000 ∧
        r.2.2.heap.load 0xD0003000 = some 0 ∧ r.2.2.heap.load (0xD0003000 + 4) = some 0 ∧
        r.2.2.live = [(0xD0000000, 0x3000)]) = true := by decide +kernel
  obtain ⟨⟨s, h, u⟩, hr, hfacts⟩ := (Option.any_eq_true ..).mp hrun
  obtain ⟨hs, hh, hu⟩ := bootRun_eq_some hr
  obtain ⟨hsize, hhead, h₀, h₄, hlive⟩ := of_decide_eq_true hfacts
  simp only at hsize hhead h₀ h₄ hlive hs hh hu
  have hdvd : pageSize ∣ heapSize s.buddy.size := by
    rw [hsize]
    decide
  obtain ⟨free, hn, -, -, hcover, -⟩ := (hclaim _ _ _ _ _ _ _ hs hdvd hh (exec_trace hu)).2
  -- The only node has size zero, so nothing covers its address.
  have hnode : u.heap.NodesTo u.heap.head [(0xD0003000, 0)] 0 := ⟨hhead, by decide, h₀, 0, h₄, rfl⟩
  rw [hn.unique hnode, hlive, hsize] at hcover
  have := (hcover 0xD0003000).mp (by simp [heapStart])
  simp at this

end Ferrite.Memory
