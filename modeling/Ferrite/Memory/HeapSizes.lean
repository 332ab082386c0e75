import Ferrite.Memory.HeapRuns

/-!
# The sizes of blocks

`vmalloc` adds the header to the size and rounds up to a page in 32 bits. A size that wraps
around gets a block of at most one page.
-/
namespace Ferrite.Memory
open Word Segments Runs Heap

namespace HeapSystem

/-- A call or a write; a size of zero, or any size when the list is empty, changes nothing. -/
def request (s : HeapSystem) : HeapEvent → Option HeapSystem
  | .vmalloc n => if n = 0 ∨ s.heap.head = 0 then some s else s.step (.vmalloc n)
  | e => s.step e

/-- The block has `n` bytes behind its header, comes from one free node, and is apart from all
that is free or live now. -/
def Provides (s : HeapSystem) (n ptr : ℕ) (t : Heap) : Prop :=
  ∃ z, t.load (ptr - headerSize + 4) = some z ∧ n + headerSize ≤ z ∧
    (∃ before, s.heap.NodesTo s.heap.head before 0 ∧
      ∃ p ∈ before, p.1 ≤ ptr - headerSize ∧ ptr - headerSize + z ≤ p.1 + p.2) ∧
    ∃ after, t.NodesTo t.head after 0 ∧
      ∀ p ∈ after ++ s.live, p.1 + p.2 ≤ ptr - headerSize ∨ ptr - headerSize + z ≤ p.1

variable {P : Pool} {lo hi n e : ℕ} {s t : HeapSystem} {h : Heap} {ev : HeapEvent}

theorem Kept.request (hk : Kept P lo hi s) (hs : s.request ev = some t) : Kept P lo hi t := by
  cases ev with
  | vmalloc n =>
      unfold HeapSystem.request at hs
      dsimp only at hs
      split_ifs at hs with hnone
      · cases hs
        exact hk
      · exact hk.step hs
  | vfree ptr => exact hk.step (e := .vfree ptr) hs
  | write a v => exact hk.step (e := .write a v) hs

/-- A size that does not wrap around. -/
theorem Kept.provides (hk : Kept P lo hi s) (hn : n + headerSize + (pageSize - 1) < word)
    (hcall : s.heap.vmalloc n = some (e, h)) (hne : e ≠ 0) : s.Provides n e h := by
  obtain ⟨gs, hinv, hlive⟩ := hk
  rcases hinv.vmalloc hn hcall with ⟨rfl, -⟩ | ⟨a, z, gs', rfl, ⟨hfree, hle⟩, hinv', hused⟩
  · exact absurd rfl hne
  have hkept : Kept P lo hi ⟨h, (a, blockTotal n) :: s.live⟩ := ⟨gs', hinv', hused.trans (hlive.cons _)⟩
  obtain ⟨after, hafter, -, happart, -, hheaders⟩ := hkept.tiled
  rw [List.pairwise_append, List.pairwise_cons] at happart
  obtain ⟨-, ⟨hothers, -⟩, hnodes⟩ := happart
  unfold Provides
  rw [Nat.add_sub_cancel]
  refine ⟨blockTotal n, (hheaders _ List.mem_cons_self).2.1, le_align (k := 12) (by omega) hn, ?_,
    after, hafter, ?_⟩
  · exact ⟨frees gs, hinv.nodes, _, hfree, le_rfl, Nat.add_le_add_left hle a⟩
  · intro p hp
    rcases List.mem_append.mp hp with hp | hp
    · exact hnodes p hp _ List.mem_cons_self
    · exact (hothers p hp).symm

/-- No node of the heap has room for a size that does. -/
theorem Kept.fits_of_provides (hk : Kept P heapStart hi s) (h : s.Provides n e t.heap) :
    n + headerSize + (pageSize - 1) < word := by
  obtain ⟨gs, hinv, -⟩ := hk
  obtain ⟨z, -, hz, ⟨before, hbefore, ⟨f, y⟩, hp, hlow, hhigh⟩, -⟩ := h
  rw [hbefore.unique hinv.nodes] at hp
  obtain ⟨hstart, hend⟩ := hinv.covers.bounds (mem_frees.mp hp)
  have hlt := hinv.hi_lt
  simp only [heapStart, headerSize, pageSize, word] at *
  omega

end HeapSystem

/-- On a machine with at most 256 MiB, after any run in which no size wraps around, a call that
returns a pointer provides the bytes exactly if its size does not wrap around. -/
theorem vmalloc_provides_iff {m : Memblock} {next : ℕ → ℕ} {scratch : ℕ} {s h : Heap} {u : HeapSystem}
    {tr : List (HeapSystem × HeapEvent)} (hboot : kernelBoot m next scratch = some s)
    (hinit : s.vmallocInit s.buddy.size = some h) (hram : m.heapEnd ≤ 0x10000000)
    (htr : Trace (fun s e t => s.request e = some t) ⟨h, []⟩ tr u) {n e : ℕ} {t : Heap}
    (hcall : u.heap.vmalloc n = some (e, t)) (hne : e ≠ 0) :
    u.Provides n e t ↔ n + headerSize + (pageSize - 1) < word := by
  obtain ⟨P, hkept⟩ := boot_kept hboot hinit hram
  have hall := htr.throughout (fun _ _ _ hs hst => HeapSystem.Kept.request hs hst) hkept
  exact ⟨fun hp => hall.2.fits_of_provides (t := ⟨t, []⟩) hp, fun hn => hall.2.provides hn hcall hne⟩

theorem vmalloc_provides_iff_small : ∃ s h e t, kernelBoot smallMachine (fun _ => 0) 0 = some s ∧
    s.vmallocInit s.buddy.size = some h ∧ h.vmalloc 8193 = some (e, t) ∧
    (HeapSystem.Provides ⟨h, []⟩ 8193 e t ↔ 8193 + headerSize + (pageSize - 1) < word) := by
  have hrun : ((bootRun smallMachine []).any fun r =>
      (r.2.1.vmalloc 8193).any fun q => q.1 ≠ 0) = true := by decide +kernel
  obtain ⟨⟨s, h, u⟩, hr, hany⟩ := (Option.any_eq_true ..).mp hrun
  obtain ⟨⟨e, t⟩, hcall, hne⟩ := (Option.any_eq_true ..).mp hany
  obtain ⟨hs, hh, -⟩ := bootRun_eq_some hr
  exact ⟨s, h, e, t, hs, hh, hcall,
    vmalloc_provides_iff hs hh (by decide) (.nil _) hcall (of_decide_eq_true hne)⟩

/-- A request for all but 12 of the bytes there are. -/
theorem vmalloc_too_little : ¬ ∀ (m : Memblock) (next : ℕ → ℕ) (scratch : ℕ) (s h : Heap)
    (u : HeapSystem) (tr : List (HeapSystem × HeapEvent)) (n e : ℕ) (t : Heap),
    kernelBoot m next scratch = some s →
    s.vmallocInit s.buddy.size = some h → m.heapEnd ≤ 0x10000000 →
    Trace (fun s e t => HeapSystem.request s e = some t) ⟨h, []⟩ tr u → n < word →
    u.heap.vmalloc n = some (e, t) → e ≠ 0 → u.Provides n e t := by
  intro hclaim
  have hrun : ((bootRun smallMachine []).any fun r =>
      (r.2.1.vmalloc 0xFFFFFFF4).any fun q => q.1 ≠ 0) = true := by decide +kernel
  obtain ⟨⟨s, h, u⟩, hr, hany⟩ := (Option.any_eq_true ..).mp hrun
  obtain ⟨⟨e, t⟩, hcall, hne⟩ := (Option.any_eq_true ..).mp hany
  obtain ⟨hs, hh, -⟩ := bootRun_eq_some hr
  have hprovides := hclaim _ _ _ _ _ ⟨h, []⟩ _ _ e t hs hh (by decide) (.nil _) (by decide) hcall
      (of_decide_eq_true hne)
  obtain ⟨P, hkept⟩ := boot_kept hs hh (by decide)
  have hfits := hkept.fits_of_provides (t := ⟨t, []⟩) hprovides
  simp [headerSize, pageSize, word] at hfits

end Ferrite.Memory
