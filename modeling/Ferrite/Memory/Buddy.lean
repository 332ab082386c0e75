import Ferrite.Memory.Memblock
import Mathlib.Logic.Function.Basic

/-!
# The buddy allocator

`buddy.c` with its free lists, its bitmap and the `next` words that the free
blocks themselves hold. Addresses are `u32` words, a list head is the address of
a node, and zero is `NULL`. A call that aborts, traps or reads through `NULL`
has no result. The bitmap is indexed by bit: bit `i` is bit `i % 8` of byte
`i / 8`, and the byte index is what the source compares with `map_size`.
-/
namespace Ferrite.Memory
open Word

/-- `buddy_allocator_t` together with the memory its nodes live in: `next a` is
the word `node->next` of a node at the address `a`. -/
structure BuddyAllocator where
  base : ℕ
  size : ℕ
  freeLists : ℕ → ℕ
  map : ℕ → Bool
  mapSize : ℕ
  maxOrder : ℕ
  next : ℕ → ℕ

/-- `PAGE_SIZE << order`. -/
def blockSize (order : ℕ) : ℕ := pageSize * 2 ^ order

namespace BuddyAllocator

/-- `node->next`, which faults on `NULL`. -/
def load (b : BuddyAllocator) (node : ℕ) : Option ℕ :=
  if node = 0 then none else some (b.next node)

/-- `(vaddr - g_buddy.base) / PAGE_SIZE`. -/
def pageIndex (b : BuddyAllocator) (vaddr : ℕ) : ℕ := wsub vaddr b.base / pageSize

/-- The loop of `is_block_free` over `n` pages from page `i`. -/
def allClear (b : BuddyAllocator) : ℕ → ℕ → Bool
  | 0, _ => true
  | n + 1, i =>
      if b.mapSize ≤ i / 8 then false
      else if b.map i then false
      else b.allClear n (i + 1)

def isBlockFree (b : BuddyAllocator) (i order : ℕ) : Bool := b.allClear (2 ^ order) i

/-- The loops of `mark_free` and `mark_allocated`; leaving the map aborts. -/
def markLoop (v : Bool) (mapSize : ℕ) : ℕ → ℕ → (ℕ → Bool) → Option (ℕ → Bool)
  | 0, _, map => some map
  | n + 1, i, map =>
      if mapSize ≤ i / 8 then none
      else markLoop v mapSize n (i + 1) (Function.update map i v)

def mark (b : BuddyAllocator) (v : Bool) (vaddr order : ℕ) : Option BuddyAllocator := do
  let map ← markLoop v b.mapSize (2 ^ order) (b.pageIndex vaddr) b.map
  return { b with map := map }

def markFree (b : BuddyAllocator) (vaddr order : ℕ) : Option BuddyAllocator :=
  b.mark false vaddr order

def markAllocated (b : BuddyAllocator) (vaddr order : ℕ) : Option BuddyAllocator :=
  b.mark true vaddr order

/-- The `while (current)` loop of `remove_from_free_list`: the memory after the
store to `prev->next`, and whether the target was met. -/
def unlinkLoop (target : ℕ) : ℕ → (ℕ → ℕ) → ℕ → ℕ → Option (Bool × (ℕ → ℕ))
  | 0, _, _, _ => none
  | fuel + 1, next, prev, current =>
      if current = 0 then some (false, next)
      else if current = target then some (true, Function.update next prev (next current))
      else unlinkLoop target fuel next current (next current)

/-- No chain of distinct nodes is longer than the pool, which bounds the loop. -/
def removeFromFreeList (b : BuddyAllocator) (vaddr order : ℕ) :
    Option (Bool × BuddyAllocator) :=
  if b.maxOrder < order then none
  else if b.freeLists order = vaddr then do
    let rest ← b.load (b.freeLists order)
    return (true, { b with freeLists := Function.update b.freeLists order rest })
  else do
    -- `head->next` is read before the list is tested for being empty.
    let current ← b.load (b.freeLists order)
    let r ← unlinkLoop vaddr (b.size / pageSize) b.next (b.freeLists order) current
    return (r.1, { b with next := r.2 })

def buddyListAdd (b : BuddyAllocator) (vaddr k : ℕ) : BuddyAllocator :=
  { b with
    next := Function.update b.next vaddr (b.freeLists k)
    freeLists := Function.update b.freeLists k vaddr }

/-- The merging loop of `buddy_dealloc`; the first argument counts the orders
still below `max_order`. The result is the block to be put on its list. -/
def mergeLoop : ℕ → BuddyAllocator → ℕ → ℕ → Option (BuddyAllocator × ℕ × ℕ)
  | 0, b, paddr, order => some (b, paddr, order)
  | n + 1, b, paddr, order =>
      let buddyPaddr := paddr ^^^ blockSize order
      let buddyVaddr := p2v buddyPaddr
      if b.isBlockFree (b.pageIndex buddyVaddr) order then do
        let r ← b.removeFromFreeList buddyVaddr order
        if r.1 then
          let b' ← r.2.markAllocated buddyVaddr order
          mergeLoop n b' (min paddr buddyPaddr) (order + 1)
        else some (r.2, paddr, order)
      else some (b, paddr, order)

def buddyDealloc (b : BuddyAllocator) (paddr order : ℕ) : Option BuddyAllocator := do
  let b₁ ← b.markFree (p2v paddr) order
  let r ← mergeLoop (b.maxOrder - order) b₁ paddr order
  return r.1.buddyListAdd (p2v r.2.1) r.2.2

/-- The search for a non-empty list from order `k` on. -/
def findOrder (b : BuddyAllocator) : ℕ → ℕ → ℕ
  | 0, k => k
  | n + 1, k => if b.freeLists k = 0 then b.findOrder n (k + 1) else k

/-- The splitting loop of `buddy_alloc`, which frees the right half at each order. -/
def splitLoop (order vaddr : ℕ) : ℕ → BuddyAllocator → BuddyAllocator
  | 0, b => b
  | k + 1, b =>
      if order < k + 1 then
        splitLoop order vaddr k (b.buddyListAdd (wadd vaddr (blockSize k)) k)
      else b

/-- The physical address of the block, or zero. -/
def buddyAlloc (b : BuddyAllocator) (order : ℕ) : Option (ℕ × BuddyAllocator) :=
  if b.maxOrder < order then some (0, b)
  else
    let k := b.findOrder (b.maxOrder + 1 - order) order
    let node := b.freeLists k
    if node = 0 then some (0, b)
    else do
      let popped := { b with freeLists := Function.update b.freeLists k (b.next node) }
      let b' ← (splitLoop order node k popped).markAllocated node order
      return (v2p node, b')

/-- The carving loop of `buddy_init`. The scratch mapping through which the
source writes `block->next` reaches the physical page of `addr`. -/
def carveLoop : ℕ → ℕ → ℕ → BuddyAllocator → Option BuddyAllocator
  | 0, remaining, _, b => if remaining < pageSize then some b else none
  | fuel + 1, remaining, addr, b =>
      if remaining < pageSize then some b
      else do
        let order ← floorLog2 (remaining / pageSize)
        let order := min order b.maxOrder
        carveLoop fuel (remaining - blockSize order) (wadd addr (blockSize order))
          (b.buddyListAdd addr order)

/-- `buddy_init`, for the memory contents `next` at boot. -/
def buddyInit (m : Memblock) (next : ℕ → ℕ) : Option (BuddyAllocator × Memblock) :=
  let endVaddr := p2v m.heapEnd
  let numPages := wsub m.heapEnd m.nextFree / pageSize
  let mapSize := align (ceilDiv numPages 8) 4
  let r := memblock m mapSize
  let mapAddr := p2v r.1
  if mapAddr = 0 then none
  else do
    let tempBase := align (wadd mapAddr mapSize) pageSize
    let tempSize := wsub endVaddr tempBase
    let tempMaxOrder ← floorLog2 (tempSize / pageSize)
    let base := align (wadd mapAddr mapSize) (blockSize tempMaxOrder)
    let size := wsub endVaddr base
    if size < pageSize then none
    else
      let maxOrder ← floorLog2 (size / pageSize)
      let b : BuddyAllocator :=
        { base := base, size := size, freeLists := fun _ => 0, map := fun _ => false,
          mapSize := mapSize, maxOrder := maxOrder, next := next }
      let b ← carveLoop (size / pageSize) size base b
      return (b, r.2)

end BuddyAllocator
end Ferrite.Memory
