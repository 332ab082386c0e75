import Ferrite.Library.Pages
import Ferrite.Memory.Buddy

/-!
# Page directories and page frames

Physical memory, and the translation of the processor: a page directory and its
tables are arrays of words in memory, and the entry of a page holds the frame
and twelve flag bits. `get_free_page` takes a frame from the buddy allocator and
clears it.

The kernel reaches a frame through its direct map, and a pointer `P2V_WO(p)` is
written as `p`. Frames that the direct map does not reach fault. What a free
frame contains is known to the allocator only.
-/
namespace Ferrite.Memory
open Packed Pages Word

/-- `PTE_P`, `PTE_W` and `PTE_U`. -/
def pteP : ℕ := 1
def pteW : ℕ := 2
def pteU : ℕ := 4

/-- `PTE_ADDR(pte)`, and the flags `pte & 0xFFF`. -/
def pteAddr (pte : ℕ) : ℕ := pte &&& 0xFFFFF000
def pteFlags (pte : ℕ) : ℕ := pte &&& 0xFFF

def present (pte : ℕ) : Bool := pte &&& pteP ≠ 0

/-- `table[i]` of a page table or page directory. -/
def entry (mem : Bytes) (table i : ℕ) : ℕ := get 4 mem (table + 4 * i)
def setEntry (mem : Bytes) (table i pte : ℕ) : Bytes := put 4 mem (table + 4 * i) pte

/-- `(u32)vaddr >> 22` and `(u32)vaddr >> 12 & 0x03FF`. -/
def pdIndex (vaddr : ℕ) : ℕ := vaddr / 2 ^ 22
def ptIndex (vaddr : ℕ) : ℕ := vaddr / 2 ^ 12 % 1024

/-- The page table entry that the processor finds for an address. -/
def translate (mem : Bytes) (pgdir vaddr : ℕ) : Option ℕ :=
  let pde := entry mem pgdir (pdIndex vaddr)
  if present pde then
    let pte := entry mem (pteAddr pde) (ptIndex vaddr)
    if present pte then some pte else none
  else none

/-- `direct` says which frames the direct map reaches. -/
structure Machine where
  buddy : BuddyAllocator
  mem : Bytes
  pageDirectory : ℕ
  direct : ℕ → Bool

namespace Machine

/-- The inner `none` is `NULL`. -/
def getFreePage (s : Machine) : Option (Option ℕ × Machine) :=
  match s.buddy.buddyAlloc 0 with
  | none => none
  | some (paddr, b) =>
      if paddr = 0 then some (none, { s with buddy := b })
      else if s.direct paddr then
        some (some paddr, { s with buddy := b, mem := copy pageSize s.mem paddr (fun _ => 0) 0 })
      else none

end Machine

/-! ## Entries -/

variable {mem mem' : Bytes} {table i j pte : ℕ}

theorem entry_lt (mem : Bytes) (table i : ℕ) : entry mem table i < word := get_lt 4 mem _

theorem pteFlags_lt (pte : ℕ) : pteFlags pte < pageSize := Nat.and_lt_two_pow _ (by decide : 0xFFF < 2 ^ 12)

theorem pteFlags_eq (pte : ℕ) : pteFlags pte = pte % pageSize := Nat.and_two_pow_sub_one_eq_mod pte 12

theorem pteAddr_eq (h : pte < word) : pteAddr pte = pte - pte % pageSize :=
  and_high_mask (k := 12) h (by decide)

theorem dvd_pteAddr (h : pte < word) : pageSize ∣ pteAddr pte := by
  rw [pteAddr_eq h]
  exact Nat.dvd_sub_mod _

theorem present_eq (pte : ℕ) : present pte = decide (pte % 2 = 1) := by
  rw [present, pteP, Nat.and_one_is_mod]
  exact decide_eq_decide.mpr (by omega)

/-- A frame and flags packed into an entry. -/
theorem or_flags {p f : ℕ} (hp : pageSize ∣ p) (hf : f < pageSize) : p ||| f = p + f := by
  obtain ⟨k, rfl⟩ := hp
  exact (Nat.two_pow_add_eq_or_of_lt (i := 12) hf k).symm

/-- What `frame | flags` says: the frame, and the flags of the entry they were taken from. -/
theorem or_pteFlags {p : ℕ} (hp : pageSize ∣ p) (hlt : p < word) (e : ℕ) :
    (p ||| pteFlags e) < word ∧ pteAddr (p ||| pteFlags e) = p ∧
      pteFlags (p ||| pteFlags e) = pteFlags e ∧ present (p ||| pteFlags e) = present e := by
  have hflags := pteFlags_lt e
  have hword : p + pteFlags e < word := by
    simp only [pageSize, word] at *
    omega
  rw [or_flags hp hflags]
  refine ⟨hword, ?_, ?_, ?_⟩
  · rw [pteAddr_eq hword]
    simp only [pageSize] at *
    omega
  · rw [pteFlags_eq (p + _)]
    simp only [pageSize] at *
    omega
  · rw [present_eq, present_eq, pteFlags_eq]
    simp only [pageSize] at *
    exact decide_eq_decide.mpr (by omega)

theorem entry_setEntry (mem : Bytes) (table i : ℕ) {pte : ℕ} (h : pte < word) :
    entry (setEntry mem table i pte) table i = pte := get_put_of_lt h

theorem entry_setEntry_of_ne {i j : ℕ} (h : i ≠ j) (mem : Bytes) (table pte : ℕ) :
    entry (setEntry mem table j pte) table i = entry mem table i :=
  get_put_of_disjoint (by omega)

theorem entry_congr {A : Set ℕ} (h : SameBut pageSize A mem mem') (ht : pageSize ∣ table)
    (hA : table ∉ A) (hi : i < 1024) : entry mem' table i = entry mem table i :=
  h.get ht hA (by simp only [pageSize]; omega)

theorem sameBut_setEntry {A : Set ℕ} (ht : pageSize ∣ table) (hA : table ∈ A) (hi : i < 1024) :
    SameBut pageSize A mem (setEntry mem table i pte) :=
  .put ht hA (by simp only [pageSize]; omega)

end Ferrite.Memory
