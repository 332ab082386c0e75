import Ferrite.Memory.Heap
import Mathlib.Order.Bounds.Basic

/-!
# The orders of `kmalloc` and `kfree`

`kmalloc` asks for a block of the order that `ceil_log2` gives for its pages, and `kfree`
computes the order again from the size in the header. `ceil_log2` counts the zeros in front of
its argument less one, which for a single page is zero, where `__builtin_clz` has no result.
-/
namespace Ferrite.Memory
open Packed Word

/-- `__builtin_clz`, which is undefined at zero. -/
def builtinClz (n : ℕ) : Option ℕ := if n = 0 then none else some (31 - n.log2)

/-- `ceil_log2(n)`, which traps at zero. -/
def ceilLog2 (n : ℕ) : Option ℕ := if n = 0 then none else (builtinClz (wsub n 1)).map fun z => 32 - z

def maximumSlabAllocation : ℕ := 16384

/-- The size that `kmalloc` stores, and the order that it asks for. -/
def kmallocSize (n : ℕ) : ℕ := align (wadd n headerSize) pageSize
def kmallocOrder (n : ℕ) : Option ℕ := ceilLog2 (ceilDiv (kmallocSize n) pageSize)

/-- The header of a block at a physical address; the flags are zero. -/
def putHeader (mem : Bytes) (paddr size : ℕ) : Bytes :=
  put 1 (put 4 (put 4 mem (paddr + 8) magic) (paddr + 4) size) paddr 0

/-- The order that `kfree` computes for the block at a physical address; it aborts when the magic
number is missing or the block is one of `vmalloc`. -/
def kfreeOrder (mem : Bytes) (paddr : ℕ) : Option ℕ :=
  if get 4 mem (paddr + 8) ≠ magic then none
  else if get 1 mem paddr % 2 ≠ 0 then none
  else ceilLog2 (ceilDiv (get 4 mem (paddr + 4)) pageSize)

namespace Machine

def kmalloc (s : Machine) (n : ℕ) : Option (ℕ × Machine) :=
  if n = 0 ∨ maximumSlabAllocation ≤ n then some (0, s)
  else do
    let order ← kmallocOrder n
    let (paddr, b) ← s.buddy.buddyAlloc order
    if paddr = 0 then return (0, { s with buddy := b })
    else if s.direct paddr then
      return (wadd (p2v paddr) headerSize, { s with buddy := b, mem := putHeader s.mem paddr (kmallocSize n) })
    else none

def kfree (s : Machine) (ptr : ℕ) : Option Machine :=
  if ptr = 0 then some s
  else do
    let paddr := v2p (wsub ptr headerSize)
    if s.direct (paddr - paddr % pageSize) then
      let order ← kfreeOrder s.mem paddr
      let b ← s.buddy.buddyDealloc paddr order
      return { s with buddy := b }
    else none

end Machine

/-- The order is the least for the pages, the block has room for `n` bytes and the header, and
`kfree` computes the same order for every block that `kmalloc` returns. -/
structure OrderFits (n k : ℕ) : Prop where
  order : kmallocOrder n = some k
  least : IsLeast {j | ceilDiv (kmallocSize n) pageSize ≤ 2 ^ j} k
  room : n + headerSize ≤ blockSize k
  free : ∀ (s t : Machine) (ptr : ℕ), s.kmalloc n = some (ptr, t) → ptr ≠ 0 →
    kfreeOrder t.mem (v2p (wsub ptr headerSize)) = some k

variable {n k : ℕ} {mem : Bytes} {paddr size : ℕ}

/-! ## The logarithm -/

theorem ceilLog2_eq (h : 2 ≤ n) (hn : n < word) : ceilLog2 n = some ((n - 1).log2 + 1) := by
  have hsub : wsub n 1 = n - 1 := wsub_of_le (by omega) hn
  have hlt : (n - 1).log2 < 32 := by
    apply (Nat.log2_lt (by omega)).mpr
    unfold word at hn
    omega
  unfold ceilLog2 builtinClz
  have hbits : 32 - (31 - (n - 1).log2) = (n - 1).log2 + 1 := by omega
  rw [hsub, if_neg (by omega), if_neg (by omega), Option.map_some, hbits]

/-- Above one page the logarithm is the least exponent. -/
theorem isLeast_log2 (h : 2 ≤ n) : IsLeast {j | n ≤ 2 ^ j} ((n - 1).log2 + 1) := by
  constructor
  · have hlt : n - 1 < 2 ^ ((n - 1).log2 + 1) := Nat.lt_log2_self
    change n ≤ 2 ^ ((n - 1).log2 + 1)
    omega
  · intro j hj
    have hpow : n ≤ 2 ^ j := hj
    have hlog : (n - 1).log2 < j := (Nat.log2_lt (by omega)).mpr (by omega)
    exact hlog

theorem ceilLog2_one : ceilLog2 1 = none := by decide

/-- `ceil_log2` is defined and right from two on. -/
theorem ceilLog2_least_iff (h : 1 ≤ n) (hn : n < word) :
    (∃ k, ceilLog2 n = some k ∧ IsLeast {j | n ≤ 2 ^ j} k) ↔ 2 ≤ n := by
  constructor
  · rintro ⟨k, hk, -⟩
    by_contra hlt
    obtain rfl : n = 1 := by omega
    rw [ceilLog2_one] at hk
    cases hk
  · intro h₂
    exact ⟨_, ceilLog2_eq h₂ hn, isLeast_log2 h₂⟩

/-! ## The size -/

/-- The header is added and the size rounded up to pages. -/
theorem kmallocSize_eq (hn : n < maximumSlabAllocation) :
    kmallocSize n = (n + headerSize + 4095) / 4096 * 4096 := by
  unfold maximumSlabAllocation at hn
  have hadd : wadd n headerSize = n + headerSize := wadd_of_lt (by unfold headerSize word; omega)
  unfold kmallocSize
  rw [hadd]
  exact align_two_pow (k := 12) (by decide) (by unfold headerSize word; omega)

theorem kmallocPages_eq (hn : n < maximumSlabAllocation) :
    ceilDiv (kmallocSize n) pageSize = (n + headerSize + 4095) / 4096 := by
  rw [kmallocSize_eq hn]
  unfold maximumSlabAllocation at hn
  unfold ceilDiv pageSize headerSize word
  omega

theorem kmallocSize_lt (hn : n < maximumSlabAllocation) : kmallocSize n < 256 ^ 4 := by
  rw [kmallocSize_eq hn]
  unfold maximumSlabAllocation at hn
  unfold headerSize
  omega

/-! ## The header -/

theorem kfreeOrder_putHeader (hsize : size < 256 ^ 4) :
    kfreeOrder (putHeader mem paddr size) paddr = ceilLog2 (ceilDiv size pageSize) := by
  have hmagic : get 4 (putHeader mem paddr size) (paddr + 8) = magic := by
    unfold putHeader
    rw [get_put_of_disjoint (by omega), get_put_of_disjoint (by omega)]
    exact get_put_of_lt (by decide)
  have hflags : get 1 (putHeader mem paddr size) paddr = 0 := get_put_of_lt (by decide)
  have hstored : get 4 (putHeader mem paddr size) (paddr + 4) = size := by
    unfold putHeader
    rw [get_put_of_disjoint (by omega)]
    exact get_put_of_lt hsize
  unfold kfreeOrder
  rw [hmagic, hflags, hstored, if_neg (not_not.mpr rfl), if_neg (by decide)]

theorem v2p_header (h : paddr < word) : v2p (wsub (wadd (p2v paddr) headerSize) headerSize) = paddr := by
  have hlt : p2v paddr < word := wadd_lt ..
  have hback : wsub (wadd (p2v paddr) headerSize) headerSize = p2v paddr := by
    generalize p2v paddr = v at hlt
    unfold wsub wadd headerSize word at *
    omega
  rw [hback, v2p_p2v h]

theorem BuddyAllocator.buddyAlloc_lt {b b' : BuddyAllocator} (h : b.buddyAlloc k = some (paddr, b')) :
    paddr < word := by
  unfold buddyAlloc at h
  dsimp only at h
  by_cases hmax : b.maxOrder < k
  · rw [if_pos hmax] at h
    cases h
    decide
  rw [if_neg hmax] at h
  by_cases hnode : b.freeLists (b.findOrder (b.maxOrder + 1 - k) k) = 0
  · rw [if_pos hnode] at h
    cases h
    decide
  · rw [if_neg hnode] at h
    obtain ⟨u, -, hu⟩ := Option.bind_eq_some_iff.mp h
    obtain ⟨rfl, -⟩ := Prod.mk.inj (Option.some.inj hu)
    exact wsub_lt ..

/-- What `kmalloc` returns is behind a header that gives the order back. -/
theorem Machine.kmalloc_header {s t : Machine} {ptr : ℕ} (hn : n < maximumSlabAllocation)
    (h : s.kmalloc n = some (ptr, t))
    (hptr : ptr ≠ 0) : kfreeOrder t.mem (v2p (wsub ptr headerSize)) = kmallocOrder n := by
  unfold kmalloc at h
  split_ifs at h with hnone
  · cases h
    exact absurd rfl hptr
  · obtain ⟨order, -, h⟩ := Option.bind_eq_some_iff.mp h
    obtain ⟨⟨paddr, b⟩, halloc, h⟩ := Option.bind_eq_some_iff.mp h
    dsimp only at h
    split_ifs at h with hzero hdirect
    · cases h
      exact absurd rfl hptr
    · obtain ⟨rfl, rfl⟩ := Prod.mk.inj (Option.some.inj h)
      rw [v2p_header (BuddyAllocator.buddyAlloc_lt halloc), kfreeOrder_putHeader (kmallocSize_lt hn)]
      rfl

theorem orderFits_iff (hn : n < maximumSlabAllocation) : (∃ k, OrderFits n k) ↔ pageSize < n + headerSize := by
  have hpages := kmallocPages_eq hn
  have hlt : ceilDiv (kmallocSize n) pageSize < word := by
    rw [hpages]
    unfold maximumSlabAllocation at hn
    unfold headerSize word
    omega
  have htwo : 2 ≤ ceilDiv (kmallocSize n) pageSize ↔ pageSize < n + headerSize := by
    rw [hpages]
    unfold pageSize
    omega
  rw [← htwo, ← ceilLog2_least_iff (by rw [hpages]; unfold headerSize; omega) hlt]
  constructor
  · rintro ⟨k, hk⟩
    exact ⟨k, hk.order, hk.least⟩
  · rintro ⟨k, hk, hleast⟩
    refine ⟨k, hk, hleast, ?_, fun s t ptr hcall hptr => (Machine.kmalloc_header hn hcall hptr).trans hk⟩
    have hle : ceilDiv (kmallocSize n) pageSize ≤ 2 ^ k := hleast.1
    rw [hpages] at hle
    unfold blockSize pageSize
    omega

/-- `ceil_log2` is defined and least exactly from two pages on, so that `kmalloc` and `kfree`
have an order, which is the same and large enough, exactly for blocks of more than one page. -/
theorem kmalloc_orders_iff (count n : ℕ) :
    (1 ≤ count → count < word →
      ((∃ k, ceilLog2 count = some k ∧ IsLeast {j | count ≤ 2 ^ j} k) ↔ 2 ≤ count)) ∧
    (n ≠ 0 → n < maximumSlabAllocation → ((∃ k, OrderFits n k) ↔ pageSize < n + headerSize)) :=
  ⟨ceilLog2_least_iff, fun _ hn => orderFits_iff hn⟩

theorem kmalloc_orders_iff_two : (∃ k, ceilLog2 2 = some k ∧ IsLeast {j | 2 ≤ 2 ^ j} k) ∧ ∃ k,
    OrderFits 5000 k :=
  ⟨((kmalloc_orders_iff 2 5000).1 (by decide) (by decide)).mpr le_rfl,
    ((kmalloc_orders_iff 2 5000).2 (by decide) (by decide)).mpr (by decide)⟩

/-- A block of one page has no order. -/
theorem not_kmalloc_orders : ¬ ((∀ count, 1 ≤ count → count < word →
      ∃ k, ceilLog2 count = some k ∧ IsLeast {j | count ≤ 2 ^ j} k) ∧
    ∀ n, n ≠ 0 → n < maximumSlabAllocation → ∃ k, OrderFits n k) := by
  rintro ⟨-, h⟩
  have hfits := (orderFits_iff (by decide)).mp (h 8 (by decide) (by decide))
  exact absurd hfits (by decide)

end Ferrite.Memory
