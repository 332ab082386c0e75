import Ferrite.Library.Word

/-!
# Address layout and the boot-time bump allocator

Physical memory is mapped at `KERNBASE`, so that a kernel-virtual address is a
physical address plus a constant, in `u32` arithmetic. `memblock` hands out
memory from the first free page upwards and never passes the heap end; that
bound is part of the type.
-/
namespace Ferrite.Memory
open Word

/-- `PAGE_SIZE`. -/
def pageSize : ℕ := 0x1000

theorem pageSize_pos : 0 < pageSize := by norm_num [pageSize]

/-- `KERNBASE`, the first kernel virtual address. -/
def kernBase : ℕ := 0xC0000000

/-- `P2V_WO` and `V2P_WO`. -/
def p2v (paddr : ℕ) : ℕ := wadd paddr kernBase
def v2p (vaddr : ℕ) : ℕ := wsub vaddr kernBase

theorem v2p_p2v {paddr : ℕ} (h : paddr < word) : v2p (p2v paddr) = paddr := by
  simp only [v2p, p2v, wadd, wsub, kernBase, word] at *
  omega

/-- `next_free_addr` and `heap_end_addr`. The heap end is a number of whole
pages because `kbrk` computes it from the length of the page bitmap. -/
structure Memblock where
  nextFree : ℕ
  heapEnd : ℕ
  le : nextFree ≤ heapEnd
  lt : heapEnd < word
  dvd : pageSize ∣ heapEnd

/-- `kbrk(pmm_bitmap_len() * PAGE_SIZE * 8)` with the first free page of the bitmap. -/
def kbrk (firstAddr bitmapLen : ℕ) (h : firstAddr ≤ bitmapLen * pageSize * 8)
    (hlt : bitmapLen * pageSize * 8 < word) : Memblock :=
  ⟨firstAddr, bitmapLen * pageSize * 8, h, hlt, ⟨bitmapLen * 8, by ring⟩⟩

/-- `memblock(num_bytes)`; the null address is a failure. -/
def memblock (m : Memblock) (numBytes : ℕ) : ℕ × Memblock :=
  if numBytes = 0 then (0, m) else
    if h : wadd m.nextFree numBytes ≤ m.heapEnd then
      (m.nextFree, ⟨wadd m.nextFree numBytes, m.heapEnd, h, m.lt, m.dvd⟩)
    else (0, m)

/-- A request for a page that is granted. -/
theorem memblock_page {m : Memblock} (hfree : pageSize ∣ m.nextFree) (hend : 8 * pageSize ∣ m.heapEnd)
    (h : (memblock m pageSize).1 ≠ 0) :
    (memblock m pageSize).1 = m.nextFree ∧ m.nextFree + pageSize ≤ m.heapEnd ∧
      (memblock m pageSize).2.nextFree = m.nextFree + pageSize ∧ (memblock m pageSize).2.heapEnd
        = m.heapEnd := by
  have hle := m.le
  have hlt := m.lt
  have hwrap : wadd m.nextFree pageSize = m.nextFree + pageSize := by
    apply wadd_of_lt
    obtain ⟨k, hk⟩ := hend
    unfold pageSize at *
    unfold word at *
    omega
  unfold memblock at h ⊢
  rw [if_neg (by decide)] at h ⊢
  split_ifs at h ⊢ with hfits
  · exact ⟨rfl, hwrap ▸ hfits, hwrap, rfl⟩
  · exact absurd rfl h

end Ferrite.Memory
