import Ferrite.Library.Tables
import Ferrite.Memory.MapPage
import Ferrite.Sys.Fork

/-!
# Giving a page directory back

`vmm_free_pagedir` walks the user half of a directory and hands the pages, the tables and
the directory to `free_page`. It takes an entry for one of the kernel's when the whole
entry is equal to that of `page_directory`.

A run of it is the list of the frames that go to `buddy_dealloc`, in order. What the
allocator writes into a frame that it is given comes after the frame has been read.
-/
namespace Ferrite.Sys
open Ferrite.Memory Packed Pages Word

/-- The frame that `free_page` hands to `buddy_dealloc`. -/
def freePage (ptr : ℕ) : List ℕ := if ptr = 0 then [] else if ptr % pageSize ≠ 0 then [] else [v2p ptr]

/-- The inner loop over `n` entries of a table from `j` on. -/
def freePages (mem : Bytes) (pt : ℕ) : ℕ → ℕ → List ℕ
  | 0, _ => []
  | n + 1, j =>
      (if present (entry mem pt j) then freePage (p2v (pteAddr (entry mem pt j))) else []) ++
        freePages mem pt n (j + 1)

/-- The outer loop over `n` entries of the directory from `i` on. -/
def freeTables (s : Machine) (pgdir : ℕ) : ℕ → ℕ → Option (List ℕ)
  | 0, _ => some []
  | n + 1, i =>
      let e := entry s.mem pgdir i
      if present e ∧ e ≠ entry s.mem s.pageDirectory i then
        if s.direct (pteAddr e) then
          (freeTables s pgdir n (i + 1)).map fun rest =>
            freePages s.mem (pteAddr e) 1024 0 ++ freePage (p2v (pteAddr e)) ++ rest
        else none
      else freeTables s pgdir n (i + 1)

def vmmFreePagedir (s : Machine) (pgdir : ℕ) : Option (List ℕ) :=
  if s.direct pgdir then (freeTables s pgdir 768 0).map fun freed => freed ++ freePage (p2v pgdir) else none

/-! ## The frames of a directory -/

/-- The frame of an entry. -/
def frameOf (e : ℕ) : List ℕ := if present e then [pteAddr e] else []

/-- The pages of a table. -/
def pagesOf (mem : Bytes) (pt : ℕ) : List ℕ := (List.range' 0 1024).flatMap fun j => frameOf (entry mem pt j)

/-- The pages of the table of an entry, and the table. -/
def tableFrames (mem : Bytes) (e : ℕ) : List ℕ := if present e then pagesOf mem (pteAddr e) ++
    [pteAddr e] else []

/-- The frames of the user part, from 16 MiB to the kernel, and the directory. -/
def privateFrames (mem : Bytes) (pgdir : ℕ) : List ℕ :=
  (List.range' 4 764).flatMap (fun i => tableFrames mem (entry mem pgdir i)) ++ [pgdir]

/-- Every frame of the user part is freed once, and nothing else is, and no table of the
kernel. -/
structure TearsDown (s : Machine) (pgdir : ℕ) (freed : List ℕ) : Prop where
  once : ∀ p ∈ privateFrames s.mem pgdir, freed.count p = 1
  only : ∀ p ∈ freed, p ∈ privateFrames s.mem pgdir
  shared : ∀ i < 1024, present (entry s.mem s.pageDirectory i) = true →
    pteAddr (entry s.mem s.pageDirectory i) ∉ freed

variable {s : Machine} {mem mem' : Bytes} {pgdir pt p e i j n : ℕ} {freed : List ℕ}

/-- The frame behind the first GiB, for which `P2V_WO` gives `NULL`. -/
def nullFrame : ℕ := 0x40000000

theorem freePage_p2v (h : IsFrame p) : freePage (p2v p) = if p = nullFrame then [] else [p] := by
  have hmod : p2v p % pageSize = 0 := by
    obtain ⟨c, hc⟩ := h.dvd
    have hlt := h.lt
    unfold p2v wadd kernBase word pageSize at *
    omega
  have hzero : p2v p = 0 ↔ p = nullFrame := by
    have hlt := h.lt
    unfold p2v wadd kernBase nullFrame word at *
    omega
  have hback := v2p_p2v h.lt
  generalize p2v p = ptr at hmod hzero hback
  unfold freePage
  by_cases hp : p = nullFrame
  · rw [if_pos (hzero.mpr hp), if_pos hp]
  · rw [if_neg (fun h0 => hp (hzero.mp h0)), if_neg (fun hne => hne hmod), if_neg hp, hback]

theorem isFrame_pteAddr (h : e < word) : IsFrame (pteAddr e) :=
  ⟨dvd_pteAddr h, by rw [pteAddr_eq h]; omega⟩

/-- A frame that is not at the end of the first GiB is freed as it stands. -/
theorem freePage_of_ne (h : IsFrame p) (hp : p ≠ nullFrame) : freePage (p2v p) = [p] := by
  rw [freePage_p2v h, if_neg hp]

theorem not_mem_freePage (h : IsFrame p) : nullFrame ∉ freePage (p2v p) := by
  rw [freePage_p2v h]
  split_ifs with hp
  · exact List.not_mem_nil
  · exact fun hmem => hp (List.mem_singleton.mp hmem).symm

theorem freePages_eq (hnull : ∀ k, j ≤ k → k < j + n → present (entry mem pt k) = true →
    pteAddr (entry mem pt k) ≠ nullFrame) :
    freePages mem pt n j = (List.range' j n).flatMap fun k => frameOf (entry mem pt k) := by
  induction n generalizing j with
  | zero => rfl
  | succ n ih =>
      have hfirst : (if present (entry mem pt j) then freePage (p2v (pteAddr (entry mem pt j))) else []) =
          frameOf (entry mem pt j) := by
        unfold frameOf
        split_ifs with hp
        · exact freePage_of_ne (isFrame_pteAddr (entry_lt ..)) (hnull j le_rfl (by omega) hp)
        · rfl
      rw [List.range'_succ, List.flatMap_cons, ← hfirst]
      unfold freePages
      rw [ih fun k hk hkn => hnull k (by omega) (by omega)]

theorem not_mem_freePages : nullFrame ∉ freePages mem pt n j := by
  induction n generalizing j with
  | zero => exact List.not_mem_nil
  | succ n ih =>
      unfold freePages
      rw [List.mem_append, not_or]
      refine ⟨?_, ih⟩
      split_ifs
      · exact not_mem_freePage (isFrame_pteAddr (entry_lt ..))
      · exact List.not_mem_nil

/-- When the loop ends, every table that it took for a private one was reached, and
neither the null frame is freed nor such a table left out. -/
theorem freeTables_spec (h : freeTables s pgdir n i = some freed) : nullFrame ∉ freed ∧
    ∀ k, i ≤ k → k < i + n → present (entry s.mem pgdir k) = true →
      entry s.mem pgdir k ≠ entry s.mem s.pageDirectory k →
      s.direct (pteAddr (entry s.mem pgdir k)) = true ∧
        (pteAddr (entry s.mem pgdir k) ≠ nullFrame → pteAddr (entry s.mem pgdir k) ∈ freed) := by
  induction n generalizing i freed with
  | zero =>
      cases h
      exact ⟨List.not_mem_nil, fun k hk hki => by omega⟩
  | succ n ih =>
      have hframe : IsFrame (pteAddr (entry s.mem pgdir i)) := isFrame_pteAddr (entry_lt ..)
      unfold freeTables at h
      dsimp only at h
      split_ifs at h with hp hdirect
      · obtain ⟨rest, hrest, rfl⟩ := Option.map_eq_some_iff.mp h
        obtain ⟨hnull, hin⟩ := ih hrest
        constructor
        · rw [List.mem_append, List.mem_append, not_or, not_or]
          exact ⟨⟨not_mem_freePages, not_mem_freePage hframe⟩, hnull⟩
        · intro k hk hkn hpk hne
          rcases hk.eq_or_lt with rfl | hlt
          · refine ⟨hdirect, fun hnn => ?_⟩
            rw [freePage_of_ne hframe hnn]
            exact List.mem_append_left _ (List.mem_append_right _ (List.mem_singleton_self _))
          · obtain ⟨h₁, h₂⟩ := hin k hlt (by omega) hpk hne
            exact ⟨h₁, fun hnn => List.mem_append_right _ (h₂ hnn)⟩
      · obtain ⟨hnull, hin⟩ := ih h
        refine ⟨hnull, fun k hk hkn hpk hne => ?_⟩
        rcases hk.eq_or_lt with rfl | hlt
        · exact absurd ⟨hpk, hne⟩ hp
        · exact hin k hlt (by omega) hpk hne

/-- Where the entries from `i` on are private when they are there, all their frames are freed. -/
theorem freeTables_eq (hne : ∀ k, i ≤ k → k < i + n → present (entry s.mem pgdir k) = true →
      entry s.mem pgdir k ≠ entry s.mem s.pageDirectory k)
    (hdirect : ∀ k, i ≤ k → k < i + n → present (entry s.mem pgdir k) = true →
    s.direct (pteAddr (entry s.mem pgdir k)) = true)
    (hnull : nullFrame ∉ (List.range' i n).flatMap fun k => tableFrames s.mem (entry s.mem pgdir k)) :
    freeTables s pgdir n i = some
      ((List.range' i n).flatMap fun k => tableFrames s.mem (entry s.mem pgdir k)) := by
  induction n generalizing i with
  | zero => rfl
  | succ n ih =>
      rw [List.range'_succ, List.flatMap_cons, List.mem_append, not_or] at hnull
      obtain ⟨hfirst, hnull⟩ := hnull
      have hrest := ih (fun k hk hkn => hne k (by omega) (by omega))
          (fun k hk hkn => hdirect k (by omega) (by omega)) hnull
      rw [List.range'_succ, List.flatMap_cons]
      unfold freeTables
      dsimp only
      by_cases hp : present (entry s.mem pgdir i) = true
      · rw [if_pos ⟨hp, hne i le_rfl (by omega) hp⟩, if_pos (hdirect i le_rfl (by omega) hp), hrest,
          Option.map_some]
        unfold tableFrames at hfirst ⊢
        rw [if_pos hp, List.mem_append, List.mem_singleton, not_or] at hfirst
        obtain ⟨hpages, htable⟩ := hfirst
        have hall : freePages s.mem (pteAddr (entry s.mem pgdir i)) 1024 0 = pagesOf s.mem
            (pteAddr (entry s.mem pgdir i)) := by
          apply freePages_eq
          intro k hk hkn hpk heq
          apply hpages
          refine List.mem_flatMap.mpr ⟨k, List.mem_range'_1.mpr ⟨hk, hkn⟩, ?_⟩
          unfold frameOf
          rw [if_pos hpk, heq]
          exact List.mem_singleton_self _
        rw [if_pos hp, hall, freePage_of_ne (isFrame_pteAddr (entry_lt ..)) (fun heq => htable heq.symm)]
      · have hskip : tableFrames s.mem (entry s.mem pgdir i) = [] := if_neg hp
        rw [if_neg fun hc => hp hc.1, hrest, hskip, List.nil_append]

/-- Entries that are absent or equal to the kernel's are passed over. -/
theorem freeTables_skip {m : ℕ} (h : ∀ k, i ≤ k → k < i + m → present (entry s.mem pgdir k) = true →
    entry s.mem pgdir k = entry s.mem s.pageDirectory k) : freeTables s pgdir (m + n) i
      = freeTables s pgdir n (i + m) := by
  induction m generalizing i with
  | zero => rw [Nat.zero_add, Nat.add_zero]
  | succ m ih =>
      have hskip : ¬ (present (entry s.mem pgdir i) = true ∧
          entry s.mem pgdir i ≠ entry s.mem s.pageDirectory i) := by
        rintro ⟨hp, hne⟩
        exact hne (h i le_rfl (by omega) hp)
      rw [show m + 1 + n = m + n + 1 by omega, show i + (m + 1) = i + 1 + m by omega, ← ih fun k hk hkm =>
        h k (by omega) (by omega)]
      conv => lhs; unfold freeTables
      dsimp only
      rw [if_neg hskip]

end Ferrite.Sys
