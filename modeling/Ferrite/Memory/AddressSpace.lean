import Mathlib
import Ferrite.Memory.Paging

/-!
# Address spaces that share no page

A byte is read and written through a page directory. When no page of any of
several directories is a page of another one, or a table of any of them, a
sequence of writes through all of them is seen through one directory as the
writes through that directory alone.
-/
namespace Ferrite.Memory
open Packed Pages

/-- From 16 MiB to the kernel. -/
def UserAddr (vaddr : ℕ) : Prop := 4 * 2 ^ 22 ≤ vaddr ∧ vaddr < kernBase

theorem UserAddr.pdIndex {vaddr : ℕ} (h : UserAddr vaddr) : 4 ≤ pdIndex vaddr ∧ pdIndex vaddr < 768 := by
  unfold UserAddr kernBase at h
  unfold Memory.pdIndex
  omega

theorem ptIndex_lt (vaddr : ℕ) : ptIndex vaddr < 1024 := Nat.mod_lt _ (by decide)

theorem page_eq_iff (va va' : ℕ) :
    va / pageSize = va' / pageSize ↔ pdIndex va = pdIndex va' ∧ ptIndex va = ptIndex va' := by
  simp only [pageSize, pdIndex, ptIndex]
  omega

def readByte (m : Bytes) (pgdir vaddr : ℕ) : Option Byte :=
  (translate m pgdir vaddr).map fun e => m (pteAddr e + vaddr % pageSize)

/-- A write to an address that is not mapped faults and changes nothing. -/
def writeByte (m : Bytes) (pgdir vaddr : ℕ) (v : Byte) : Bytes :=
  match translate m pgdir vaddr with
  | none => m
  | some e => Function.update m (pteAddr e + vaddr % pageSize) v

/-- The directory and the page tables of its user part. -/
def userTables (m : Bytes) (pgdir : ℕ) : Set ℕ :=
  {p | p = pgdir ∨ ∃ i, 4 ≤ i ∧ i < 768 ∧ present (entry m pgdir i) = true ∧ p = pteAddr (entry m pgdir i)}

def userPages (m : Bytes) (pgdir : ℕ) : Set ℕ :=
  {p | ∃ va e, UserAddr va ∧ translate m pgdir va = some e ∧ p = pteAddr e}

variable {m m' m₁ m₂ : Bytes} {pgdir va e p : ℕ} {A : Set ℕ}

theorem translate_eq_some : translate m pgdir va = some e ↔
    present (entry m pgdir (pdIndex va)) = true ∧ present e = true ∧
      entry m (pteAddr (entry m pgdir (pdIndex va))) (ptIndex va) = e := by
  unfold translate
  simp only
  split_ifs with hpde hpte
  · simp only [hpde, true_and, Option.some.injEq]
    exact ⟨fun h => ⟨h ▸ hpte, h⟩, fun h => h.2⟩
  · simp only [hpde, true_and, false_iff]
    exact fun h => hpte (h.2 ▸ h.1)
  · simp [hpde]

theorem dvd_of_translate (h : translate m pgdir va = some e) : pageSize ∣ pteAddr e := by
  rw [← (translate_eq_some.mp h).2.2]
  exact dvd_pteAddr (entry_lt ..)

theorem mem_userTables (hva : UserAddr va) (he : present (entry m pgdir (pdIndex va)) = true) :
    pteAddr (entry m pgdir (pdIndex va)) ∈ userTables m pgdir :=
  .inr ⟨_, hva.pdIndex.1, hva.pdIndex.2, he, rfl⟩

theorem mem_userPages (hva : UserAddr va) (he : translate m pgdir va = some e) :
    pteAddr e ∈ userPages m pgdir :=
  ⟨va, e, hva, he, rfl⟩

/-- A translation depends on the directory and its tables only. -/
theorem translate_congr (hsame : SameBut pageSize A m m') (hdvd : pageSize ∣ pgdir)
    (hA : Disjoint A (userTables m pgdir)) (hva : UserAddr va) :
    translate m' pgdir va = translate m pgdir va := by
  have hpde : entry m' pgdir (pdIndex va) = entry m pgdir (pdIndex va) :=
    entry_congr hsame hdvd (fun h => Set.disjoint_left.mp hA h (.inl rfl)) (by have := hva.pdIndex; omega)
  unfold translate
  simp only [hpde]
  by_cases he : present (entry m pgdir (pdIndex va)) = true
  · rw [entry_congr hsame (dvd_pteAddr (entry_lt ..))
      (fun h => Set.disjoint_left.mp hA h (mem_userTables hva he)) (ptIndex_lt va)]
  · rw [if_neg he, if_neg he]

theorem userPages_congr (hsame : SameBut pageSize A m m') (hdvd : pageSize ∣ pgdir)
    (hA : Disjoint A (userTables m pgdir)) : userPages m' pgdir = userPages m pgdir := by
  ext p
  constructor
  · rintro ⟨va, e, hva, he, hp⟩
    exact ⟨va, e, hva, by rwa [translate_congr hsame hdvd hA hva] at he, hp⟩
  · rintro ⟨va, e, hva, he, hp⟩
    exact ⟨va, e, hva, by rwa [translate_congr hsame hdvd hA hva], hp⟩

theorem userTables_congr (hsame : SameBut pageSize A m m') (hdvd : pageSize ∣ pgdir) (hA : pgdir ∉ A) :
    userTables m' pgdir = userTables m pgdir := by
  have hentry (i : ℕ) (hi : i < 768) : entry m' pgdir i = entry m pgdir i :=
    entry_congr hsame hdvd hA (by omega)
  ext p
  refine or_congr Iff.rfl (exists_congr fun i => and_congr_right fun _ => and_congr_right fun hi => ?_)
  rw [hentry i hi]

theorem writeByte_same (hva : UserAddr va) (v : Byte) :
    SameBut pageSize (userPages m pgdir) m (writeByte m pgdir va v) := by
  intro a ha
  unfold writeByte
  cases he : translate m pgdir va with
  | none => rfl
  | some e =>
      refine Function.update_of_ne (fun heq => ha ?_) ..
      rw [heq, page_of_add (dvd_of_translate he) (Nat.mod_lt _ pageSize_pos)]
      exact mem_userPages hva he

/-! ## Several address spaces -/

section
variable {ι : Type*} {dir : ι → ℕ}

/-- No page of an address space belongs to another one, or is a table. -/
structure Isolated (m : Bytes) (dir : ι → ℕ) : Prop where
  dvd : ∀ i, pageSize ∣ dir i
  tables : ∀ i j, Disjoint (userPages m (dir i)) (userTables m (dir j))
  pages : ∀ i j, i ≠ j → Disjoint (userPages m (dir i)) (userPages m (dir j))

/-- Writes one after another, each through the directory it names. -/
def runWrites (dir : ι → ℕ) : Bytes → List (ι × ℕ × Byte) → Bytes
  | m, [] => m
  | m, (i, va, v) :: ws => runWrites dir (writeByte m (dir i) va v) ws

/-- The pages of all address spaces. -/
def allPages (m : Bytes) (dir : ι → ℕ) : Set ℕ := {p | ∃ i, p ∈ userPages m (dir i)}

variable {i j : ι}

theorem Isolated.disjoint_allPages (h : Isolated m dir) (i : ι) :
    Disjoint (allPages m dir) (userTables m (dir i)) := by
  apply Set.disjoint_left.mpr
  rintro p ⟨j, hj⟩
  exact Set.disjoint_left.mp (h.tables j i) hj

theorem Isolated.write_same (h : Isolated m dir) (hsame : SameBut pageSize (allPages m dir) m m')
    (hva : UserAddr va) (v : Byte) :
    SameBut pageSize (userPages m (dir i)) m' (writeByte m' (dir i) va v) := by
  have := @writeByte_same m' (dir i) va hva v
  rwa [userPages_congr hsame (h.dvd i) (h.disjoint_allPages i)] at this

theorem dvd_of_mem_userPages (h : p ∈ userPages m pgdir) : pageSize ∣ p := by
  obtain ⟨va, e, -, he, rfl⟩ := h
  exact dvd_of_translate he

/-- The bytes of a page are the same in both memories. -/
def AgreeOn (A : Set ℕ) (m₁ m₂ : Bytes) : Prop := ∀ p ∈ A, ∀ o < pageSize, m₁ (p + o) = m₂ (p + o)

/-- A write through another directory is not seen. -/
theorem Isolated.write_other (h : Isolated m dir) (hij : i ≠ j)
    (h₁ : SameBut pageSize (allPages m dir) m m₁) (hagree : AgreeOn (userPages m (dir i)) m₁ m₂)
    (hva : UserAddr va) (v : Byte) :
    AgreeOn (userPages m (dir i)) (writeByte m₁ (dir j) va v) m₂ := by
  intro p hp o ho
  have hpj := Set.disjoint_left.mp (h.pages i j hij) hp
  rw [(h.write_same h₁ hva v).byte (dvd_of_mem_userPages hp) hpj ho, hagree p hp o ho]

theorem Isolated.write_both (h : Isolated m dir) (h₁ : SameBut pageSize (allPages m dir) m m₁)
    (h₂ : SameBut pageSize (allPages m dir) m m₂) (hagree : AgreeOn A m₁ m₂) (hva : UserAddr va)
    (v : Byte) : AgreeOn A (writeByte m₁ (dir i) va v) (writeByte m₂ (dir i) va v) := by
  have ht₁ := translate_congr h₁ (h.dvd i) (h.disjoint_allPages i) hva
  have ht₂ := translate_congr h₂ (h.dvd i) (h.disjoint_allPages i) hva
  intro p hp o ho
  unfold writeByte
  rw [ht₁, ht₂]
  cases translate m (dir i) va with
  | none => exact hagree p hp o ho
  | some e =>
      simp only [Function.update_apply]
      split_ifs
      · rfl
      · exact hagree p hp o ho

variable [DecidableEq ι]

/-- Of the writes through all directories those through `i` decide what its pages hold. -/
theorem Isolated.run {ws : List (ι × ℕ × Byte)} (h : Isolated m dir) (hws : ∀ w ∈ ws, UserAddr w.2.1)
    (h₁ : SameBut pageSize (allPages m dir) m m₁) (h₂ : SameBut pageSize (allPages m dir) m m₂)
    (hagree : AgreeOn (userPages m (dir i)) m₁ m₂) :
    SameBut pageSize (allPages m dir) m (runWrites dir m₁ ws) ∧
    SameBut pageSize (allPages m dir) m (runWrites dir m₂ (ws.filter fun w => w.1 = i)) ∧
    AgreeOn (userPages m (dir i)) (runWrites dir m₁ ws)
      (runWrites dir m₂ (ws.filter fun w => w.1 = i)) := by
  induction ws generalizing m₁ m₂ with
  | nil => exact ⟨h₁, h₂, hagree⟩
  | cons w ws ih =>
      obtain ⟨j, va, v⟩ := w
      have ⟨hva, hws⟩ := List.forall_mem_cons.mp hws
      have hmine (j : ι) : userPages m (dir j) ⊆ allPages m dir := fun p hp => ⟨j, hp⟩
      have h₁' := h₁.trans ((h.write_same (i := j) h₁ hva v).mono (hmine j))
      rw [List.filter_cons]
      by_cases hji : j = i
      · subst hji
        have h₂' := h₂.trans ((h.write_same (i := j) h₂ hva v).mono (hmine j))
        simp only [decide_true, if_true]
        exact ih hws h₁' h₂' (h.write_both h₁ h₂ hagree hva v)
      · simp only [hji, decide_false, Bool.false_eq_true, if_false]
        exact ih hws h₁' h₂ (h.write_other (Ne.symm hji) h₁ hagree hva v)

/-- What is read through a directory after any writes is what was written through it. -/
theorem Isolated.readByte_run {ws : List (ι × ℕ × Byte)} (h : Isolated m dir)
    (hws : ∀ w ∈ ws, UserAddr w.2.1) (i : ι) (hva : UserAddr va) :
    readByte (runWrites dir m ws) (dir i) va =
      readByte (runWrites dir m (ws.filter fun w => w.1 = i)) (dir i) va := by
  have hrefl : SameBut pageSize (allPages m dir) m m := fun _ _ => rfl
  have hagree : AgreeOn (userPages m (dir i)) m m := fun _ _ _ _ => rfl
  obtain ⟨h₁, h₂, hagree⟩ := h.run hws hrefl hrefl hagree
  have hA := h.disjoint_allPages i
  unfold readByte
  rw [translate_congr h₁ (h.dvd i) hA hva, translate_congr h₂ (h.dvd i) hA hva]
  cases he : translate m (dir i) va with
  | none => rfl
  | some e =>
      exact congrArg some (hagree _ (mem_userPages hva he) _ (Nat.mod_lt _ pageSize_pos))

end

end Ferrite.Memory
