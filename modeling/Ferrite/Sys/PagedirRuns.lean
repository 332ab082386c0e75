import Ferrite.Sys.FreePagedir

/-!
# Page directories over runs

A directory that `setup_kvm` or `vmm_copy_pgdir` has made owns its frames: they are
pairwise different frames of the allocator's pool, and none is free. `vmm_map_page` and
`vmm_unmap_page` on user addresses keep this, and so does what the processor marks in the
entries. So all that `vmm_free_pagedir` can go wrong about are the first four entries,
which it compares with those of `page_directory` bit by bit.
-/
namespace Ferrite.Sys
open Ferrite.Memory Ferrite.Memory.Vmm Packed Pages Word Tables

/-- The frames that the allocator manages. -/
def InPool (P : Pool) (p : ℕ) : Prop := ∃ i < P.pages, p = P.paddr i

/-- `page_directory`, which was set up with memory below the pool. -/
structure KernelDir (P : Pool) (m : Bytes) (dir : ℕ) : Prop where
  dvd : pageSize ∣ dir
  apart : ¬ InPool P dir
  table : ∀ i < 1024, present (entry m dir i) = true →
    ¬ InPool P (pteAddr (entry m dir i)) ∧ pteAddr (entry m dir i) < nullFrame ∧ large (entry m dir i) = false

/-- The loaded directory owns its frames, and has the kernel's tables at the other entries. -/
structure Owned (P : Pool) (F : Set ℕ) (s : Vmm) : Prop where
  valid : s.Valid P F
  inactive : s.memblockIsActive = false
  nodup : (privateFrames s.mem s.cr3).Nodup
  pool : ∀ p ∈ privateFrames s.mem s.cr3, InPool P p ∧ p ∉ F
  share : ∀ i < 1023, i < 4 ∨ 768 ≤ i → present (entry s.mem s.cr3 i) = true →
    present (entry s.mem s.pageDirectory i) = true ∧
      pteAddr (entry s.mem s.cr3 i) = pteAddr (entry s.mem s.pageDirectory i)
  kernel : KernelDir P s.mem s.pageDirectory

/-- The first four entries are still those of `page_directory`, the direct map reaches the
directory and its tables, and no frame is the one that has no address there. -/
structure PristineDir (s : Machine) (pgdir : ℕ) : Prop where
  low : ∀ i < 4, present (entry s.mem pgdir i) = true → entry s.mem pgdir i = entry s.mem s.pageDirectory i
  dir : s.direct pgdir = true
  tables : ∀ i, 4 ≤ i → i < 768 → present (entry s.mem pgdir i) = true →
    s.direct (pteAddr (entry s.mem pgdir i)) = true
  null : nullFrame ∉ privateFrames s.mem pgdir

variable {P : Pool} {F F' : Set ℕ} {s t : Vmm} {m m' : Bytes}
  {dir pt p e e' i j k paddr vaddr flags : ℕ} {r : ℤ}

/-! ## The list of the frames -/

theorem table_mem_tableFrames (h : present e = true) : pteAddr e ∈ tableFrames m e := by
  unfold tableFrames
  rw [if_pos h]
  exact List.mem_append_right _ (List.mem_singleton_self _)

theorem tableFrames_sub (h4 : 4 ≤ i) (hi : i < 768) (hp : p ∈ tableFrames m (entry m dir i)) :
    p ∈ privateFrames m dir :=
  List.mem_append_left _ (List.mem_flatMap.mpr ⟨i, List.mem_range'_1.mpr ⟨h4, by omega⟩, hp⟩)

theorem table_mem (h4 : 4 ≤ i) (hi : i < 768) (h : present (entry m dir i) = true) :
    pteAddr (entry m dir i) ∈ privateFrames m dir :=
  tableFrames_sub h4 hi (table_mem_tableFrames h)

theorem dir_mem (m : Bytes) (dir : ℕ) : dir ∈ privateFrames m dir :=
  List.mem_append_right _ (List.mem_singleton_self _)

/-! ## Giving an owned directory back -/

namespace Owned
variable (h : Owned P F s)
include h

theorem table_ne_kernel (h4 : 4 ≤ i) (hi : i < 768) (hp : present (entry s.mem s.cr3 i) = true) :
    entry s.mem s.cr3 i ≠ entry s.mem s.pageDirectory i := by
  intro heq
  have hp' : present (entry s.mem s.pageDirectory i) = true := heq ▸ hp
  apply (h.kernel.table i (by omega) hp').1
  rw [← heq]
  exact (h.pool _ (table_mem h4 hi hp)).1

theorem dir_isFrame : IsFrame s.cr3 := by
  obtain ⟨i, hi, heq⟩ := (h.pool _ (dir_mem s.mem s.cr3)).1
  rw [heq]
  exact P.isFrame hi

/-- An owned directory is torn down exactly when it is undisturbed. -/
theorem tearsDown_iff :
    (∃ freed, vmmFreePagedir s.toMachine s.cr3 = some freed ∧ TearsDown s.toMachine s.cr3 freed) ↔
    PristineDir s.toMachine s.cr3 := by
  constructor
  · rintro ⟨freed, hfreed, hdown⟩
    unfold vmmFreePagedir at hfreed
    split_ifs at hfreed with hdir
    obtain ⟨rest, hrest, rfl⟩ := Option.map_eq_some_iff.mp hfreed
    obtain ⟨hnull, hin⟩ := freeTables_spec hrest
    refine ⟨fun i hi hp => ?_, hdir, fun i h4 hi hp => ?_, fun hmem => ?_⟩
    · by_contra hne
      obtain ⟨hp', heq⟩ := h.share i (by omega) (.inl hi) hp
      have hlow := (h.kernel.table i (by omega) hp').2.1
      have hmem := (hin i (Nat.zero_le i) (by omega) hp hne).2 (by rw [heq]; exact hlow.ne)
      apply hdown.shared i (by omega) hp'
      rw [← heq]
      exact List.mem_append_left _ hmem
    · exact (hin i (Nat.zero_le i) (by omega) hp (h.table_ne_kernel h4 hi hp)).1
    · have hone := hdown.once _ hmem
      rw [List.count_eq_zero_of_not_mem] at hone
      · cases hone
      · rw [List.mem_append, not_or]
        exact ⟨hnull, not_mem_freePage h.dir_isFrame⟩
  · intro hu
    have hskip := @freeTables_skip s.toMachine s.cr3 0 764 4 fun k _ hk hp => hu.low k (by omega) hp
    have hflat : nullFrame ∉ (List.range' 4 764).flatMap fun k => tableFrames s.mem (entry s.mem s.cr3 k) :=
      fun hmem => hu.null (List.mem_append_left _ hmem)
    have hall := @freeTables_eq s.toMachine s.cr3 4 764 (fun k h4 hk hp => h.table_ne_kernel h4 (by omega) hp)
      (fun k h4 hk hp => hu.tables k h4 (by omega) hp) hflat
    have hdir : s.cr3 ≠ nullFrame := fun heq => hu.null (heq ▸ dir_mem s.mem s.cr3)
    refine ⟨privateFrames s.mem s.cr3, ?_, ?_, fun p hp => hp, ?_⟩
    · unfold vmmFreePagedir
      rw [if_pos hu.dir, show 768 = 4 + 764 from rfl, hskip, hall, Option.map_some,
        freePage_of_ne h.dir_isFrame hdir]
      rfl
    · intro p hp
      exact List.count_eq_one_of_mem h.nodup hp
    · intro i hi hp hmem
      exact (h.kernel.table i hi hp).1 (h.pool _ hmem).1

end Owned

end Ferrite.Sys
