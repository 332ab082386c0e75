import Mathlib
import Ferrite.Memory.BuddyRuns
import Ferrite.Memory.HeapInvariant

/-!
# The layout of the kernel's addresses

The heap starts 256 MiB behind the start of the direct map, and is as large as the
pool of the buddy allocator. So the windows stay apart as long as the memory is no
larger than these 256 MiB.
-/
namespace Ferrite.Memory
open Word BuddyAllocator Heap

/-- The windows of kernel addresses: direct map, heap, page tables and scratch page. -/
def directWindow (ram : ℕ) : Set ℕ := Set.Ico kernBase (kernBase + min ram zoneNormal)
def heapWindow (total : ℕ) : Set ℕ := Set.Ico heapStart (heapStart + heapSize total)
def tableWindow : Set ℕ := Set.Ico 0xFFC00000 word
def scratchWindow : Set ℕ := Set.Ico scratchVaddr (scratchVaddr + pageSize)

/-- The layout that the allocators rely on, when `vmalloc_init` is about to run. -/
structure Layout (m : Memblock) (s : Heap) : Prop where
  pool : v2p s.buddy.base + s.buddy.size ≤ min m.heapEnd zoneNormal
  direct : Disjoint (heapWindow s.buddy.size) (directWindow m.heapEnd)
  tables : Disjoint (heapWindow s.buddy.size) tableWindow
  scratch : Disjoint (heapWindow s.buddy.size) scratchWindow
  unmapped : ∀ q ∈ region heapStart (heapStart + heapSize s.buddy.size), s.pages q = none

variable {m m' : Memblock} {b : BuddyAllocator} {next : ℕ → ℕ} {scratch : ℕ} {s : Heap}

theorem buddyInit_size (hb : buddyInit m next = some (b, m')) :
    b.size = wsub (p2v m.heapEnd) b.base ∧ pageSize ≤ b.size := by
  obtain ⟨t, top, base, size, -, hsize, -, htop, hcarve⟩ := buddyInit_eq_some hb
  obtain ⟨hbb, hbs, -⟩ := carveLoop_frame hcarve
  have hlo := (floorLog2_eq_some htop).1
  have hpos : 0 < size / pageSize := (Nat.two_pow_pos _).trans_le hlo
  rw [hbb, hbs]
  exact ⟨hsize, (Nat.div_pos_iff.mp hpos).2⟩

/-- Below the first GiB the pool ends where the memory does. -/
theorem pool_end (hram : m.heapEnd ≤ word - kernBase) (hb : buddyInit m next = some (b, m')) :
    v2p b.base + b.size = m.heapEnd := by
  have hstr : ¬ Straddles m := fun h => absurd h.2 (by omega)
  obtain ⟨t, top, base, size, rfl, hsize, ht, htop, hcarve⟩ := buddyInit_eq_some hb
  obtain ⟨P, hbase, hpages, -, -, hend⟩ := exists_pool hstr ht (hsize ▸ htop)
  obtain ⟨hbb, hbs, -⟩ := carveLoop_frame hcarve
  have hpos : 0 < P.pages := (Nat.two_pow_pos _).trans_le P.top_le
  have h₁ : P.pbase + kernBase < word ∨ word ≤ P.pbase + kernBase := lt_or_ge _ _
  have h₂ := P.p2v_pbase
  have h₃ := P.base_ne_zero
  have h₄ := P.fits
  have h₅ := P.pfits
  rw [hbb, hbs]
  simp only [blank]
  rw [hsize]
  rw [← hbase] at hpages ⊢
  rw [hpages]
  generalize P.base = B at *
  generalize P.pbase = Q at *
  generalize hS : pageSize * P.pages = S at *
  have hSpos : 0 < S := hS ▸ Nat.mul_pos pageSize_pos hpos
  simp only [v2p, p2v, wadd, wsub, kernBase, word] at *
  omega

theorem pages_none (hram : m.heapEnd ≤ 0x10000000) {total q : ℕ} (htotal : total ≤ m.heapEnd)
    (hq : q ∈ region heapStart (heapStart + heapSize total)) : directPages m.heapEnd scratch q = none := by
  obtain ⟨hlo, hhi⟩ := hq
  have hz : min zoneNormal m.heapEnd = m.heapEnd := by
    rw [min_eq_right]
    exact hram.trans (by decide)
  have hheap : heapSize total ≤ total := min_le_right _ _
  have hlow : ¬ q * pageSize < m.heapEnd := by
    simp only [heapStart, pageSize] at *
    omega
  have hdirect : ¬ (kernBase ≤ q * pageSize ∧ q * pageSize < kernBase + m.heapEnd) := by
    simp only [heapStart, kernBase, pageSize] at *
    omega
  have hscratch : q * pageSize ≠ scratchVaddr := by
    simp only [heapStart, scratchVaddr, pageSize] at *
    omega
  unfold directPages
  rw [hz, if_neg hlow, if_neg hdirect, if_neg hscratch]

/-- The window of the heap is not empty. -/
theorem heapStart_mem (hb : buddyInit m next = some (b, m')) : heapStart ∈ heapWindow b.size := by
  have hsize := (buddyInit_size hb).2
  have hpos : 0 < heapSize b.size := by
    simp only [heapSize, heapLimit, heapStart, pageSize] at *
    omega
  exact ⟨le_rfl, Nat.lt_add_of_pos_right hpos⟩

/-- The layout is as it should be exactly when the memory has at most 256 MiB. -/
theorem layout_iff (hs : kernelBoot m next scratch = some s) : Layout m s ↔ m.heapEnd ≤ 0x10000000 := by
  obtain ⟨⟨b, m'⟩, hb, rfl⟩ := Option.map_eq_some_iff.mp hs
  constructor
  · intro h
    by_contra hram
    -- The first address of the heap is also one of the direct map.
    have hdirect : heapStart ∈ directWindow m.heapEnd := by
      simp only [directWindow, Set.mem_Ico, heapStart, kernBase, zoneNormal] at *
      omega
    exact Set.disjoint_left.mp h.direct (heapStart_mem hb) hdirect
  · intro hram
    have hpool := pool_end (hram.trans (by decide)) hb
    have htotal : b.size ≤ m.heapEnd := by omega
    have hheap : heapSize b.size ≤ b.size := min_le_right _ _
    refine ⟨?_, ?_, ?_, ?_, fun q hq => pages_none hram htotal hq⟩
    · simp only [hpool, zoneNormal]
      omega
    all_goals
      refine Set.disjoint_left.mpr fun x hx hx' => ?_
      simp only [heapWindow, directWindow, tableWindow, scratchWindow, Set.mem_Ico, heapStart, kernBase,
        zoneNormal, scratchVaddr, pageSize, word] at *
      omega

theorem layout_iff_small :
    ∃ s, kernelBoot smallMachine (fun _ => 0) 0 = some s ∧ Layout smallMachine s := by
  have hsome : (kernelBoot smallMachine (fun _ => 0) 0).isSome = true := by decide
  obtain ⟨s, hs⟩ := Option.isSome_iff_exists.mp hsome
  exact ⟨s, hs, (layout_iff hs).mpr (by decide)⟩

/-- A machine with 512 MiB of memory. -/
def mediumMachine : Memblock := ⟨0x200000, 0x20000000, by decide, by decide, by decide⟩

/-- There the heap lies over the direct map. -/
theorem not_layout_medium : ¬ ∀ (m : Memblock) (next : ℕ → ℕ) (scratch : ℕ) (s : Heap),
    kernelBoot m next scratch = some s → Layout m s := by
  intro hclaim
  have hsome : (kernelBoot mediumMachine (fun _ => 0) 0).isSome = true := by decide
  obtain ⟨s, hs⟩ := Option.isSome_iff_exists.mp hsome
  have h := (hclaim _ _ _ _ hs).direct
  obtain ⟨⟨b, m'⟩, hb, rfl⟩ := Option.map_eq_some_iff.mp hs
  apply Set.disjoint_left.mp h (heapStart_mem hb)
  simp [directWindow, mediumMachine, heapStart, kernBase, zoneNormal]

end Ferrite.Memory
