import Ferrite.Memory.Paging

/-!
# The kernel heap

`vmalloc_init`, `vmalloc` and `vfree`. The words of physical memory are those of
the buddy allocator, at the addresses of the direct map; a heap address reaches
the frame that its page is mapped to. So a word of the heap and the link of a
free frame may be one and the same word.

An access to a page that is not mapped, and an abort, have no result. The list
is walked for as many nodes as there are pages.
-/
namespace Ferrite.Memory
open Word

/-- `HEAP_START`, and the first address that no heap reaches. -/
def heapStart : ℕ := 0xD0000000
def heapLimit : ℕ := 0xFFFFFFFF

def magic : ℕ := 0xDEADBEEF

/-- `sizeof(free_list_t)` and `sizeof(block_header_t)`. -/
def nodeSize : ℕ := 8
def headerSize : ℕ := 12

/-- `pages` maps the number of a virtual page to its frame, and `tables` tells which
entries of the page directory have a table. -/
structure Heap where
  buddy : BuddyAllocator
  pages : ℕ → Option ℕ
  tables : ℕ → Bool
  head : ℕ

namespace Heap
variable (s : Heap)

/-- The word at an address. -/
def load (a : ℕ) : Option ℕ :=
  (s.pages (a / pageSize)).map fun f => s.buddy.next (p2v (f + a % pageSize))

/-- The allocator with another word in memory. -/
def poke (b : BuddyAllocator) (a v : ℕ) : BuddyAllocator := { b with next := Function.update b.next a v }

def store (a v : ℕ) : Option Heap :=
  (s.pages (a / pageSize)).map fun f =>
    { s with buddy := poke s.buddy (p2v (f + a % pageSize)) v }

/-- A store of one byte to the lowest byte of a word. -/
def storeByte (a v : ℕ) : Option Heap := do
  let w ← s.load a
  s.store a (w / 256 * 256 + v)

/-- A new page table, cleared. -/
def addTable (b : BuddyAllocator) (pd : ℕ) : Heap :=
  { s with
    buddy := b
    tables := Function.update s.tables pd true
    pages := fun q => if q / 1024 = pd then none else s.pages q }

/-- The first part of `vmm_map_page`, which sees to the page table. -/
def ensureTable (pd : ℕ) : Option Heap :=
  if s.tables pd then some s
  else
    match s.buddy.buddyAlloc 0 with
    | none => none
    | some (pt, b) => if pt = 0 then none else some (s.addTable b pd)

/-- `vmm_map_page` for a frame; the contents of page tables are `pages`. -/
def vmmMapPage (paddr vaddr : ℕ) : Option (ℤ × Heap) :=
  (s.ensureTable (pdIndex vaddr)).map fun s =>
    if (s.pages (vaddr / pageSize)).isSome then (-1, s)
    else (0, { s with pages := Function.update s.pages (vaddr / pageSize) (some paddr) })

/-- `buddy_alloc` and `vmm_map_page`, whose result the callers do not use. -/
def mapNewPage (vaddr : ℕ) : Option Heap :=
  match s.buddy.buddyAlloc 0 with
  | none => none
  | some (paddr, b) =>
      if paddr = 0 then none else (vmmMapPage { s with buddy := b } paddr vaddr).map fun r => r.2

def vmmUnmapPage (vaddr : ℕ) : Option ℕ × Heap :=
  if s.tables (pdIndex vaddr) then
    (s.pages (vaddr / pageSize), { s with pages := Function.update s.pages (vaddr / pageSize) none })
  else (none, s)

/-- The heap size that `vmalloc_init` computes from `buddy_get_total_memory()`. -/
def heapSize (total : ℕ) : ℕ := min (heapLimit - heapStart) total

def vmallocInit (total : ℕ) : Option Heap := do
  let s ← s.mapNewPage heapStart
  if heapSize total < nodeSize then none
  else
    let s := { s with head := heapStart }
    let s ← s.store heapStart (heapSize total)
    s.store (heapStart + 4) 0

/-- The first fit: the node before it, or zero, and the node itself, or zero. -/
def searchLoop (total : ℕ) : ℕ → ℕ → ℕ → Option (ℕ × ℕ)
  | 0, _, _ => none
  | fuel + 1, prev, current =>
      if current = 0 then some (prev, 0)
      else do
        let size ← s.load current
        if total ≤ size then return (prev, current)
        else
          let next ← s.load (current + 4)
          searchLoop total fuel current next

/-- `prev->next = node`, or the head when there is no `prev`. -/
def link (prev node : ℕ) : Option Heap :=
  if prev = 0 then some { s with head := node } else s.store (prev + 4) node

/-- The list without the first `total` bytes of the block at `current`. -/
def carve (prev current total : ℕ) : Option Heap := do
  let size ← s.load current
  if nodeSize < wsub size total then
    let node := wadd current total
    let s ← s.mapNewPage node
    let size ← s.load current
    let s ← s.store node (wsub size total)
    let next ← s.load (current + 4)
    let s ← s.store (node + 4) next
    s.link prev node
  else
    let next ← s.load (current + 4)
    s.link prev next

def mapLoop (vaddr : ℕ) : ℕ → ℕ → Heap → Option Heap
  | 0, _, s => some s
  | n + 1, i, s => do
      let s ← s.mapNewPage (wadd vaddr (i * pageSize))
      mapLoop vaddr n (i + 1) s

/-- The pages of a list are at most this many. -/
def maxNodes : ℕ := 2 ^ 20

def vmalloc (n : ℕ) : Option (ℕ × Heap) :=
  if n = 0 ∨ s.head = 0 then some (0, s)
  else do
    let total := align (wadd n headerSize) pageSize
    let (prev, current) ← s.searchLoop total maxNodes 0 s.head
    if current = 0 then return (0, s)
    else
      let s ← s.carve prev current total
      let s ← mapLoop current (total / pageSize) 0 s
      let s ← s.store (current + 8) magic
      let s ← s.store (current + 4) total
      let s ← s.storeByte current 1
      return (current + headerSize, s)

/-- The place of a block in the list: the nodes around it, or zero. -/
def placeLoop (block : ℕ) : ℕ → ℕ → ℕ → Option (ℕ × ℕ)
  | 0, _, _ => none
  | fuel + 1, prev, current =>
      if current ≠ 0 ∧ current < block then do
        let next ← s.load (current + 4)
        placeLoop block fuel current next
      else some (prev, current)

/-- Merging with the node before, and the node that then is the freed one. -/
def mergePrev (prev freed : ℕ) : Option (ℕ × Heap) :=
  if prev = 0 then some (freed, { s with head := freed })
  else do
    let prevSize ← s.load prev
    if wadd prev prevSize = freed then
      let size ← s.load freed
      let s ← s.store prev (wadd prevSize size)
      return (prev, s)
    else
      let s ← s.store (prev + 4) freed
      return (freed, s)

/-- Merging with the node behind. -/
def mergeNext (freed current : ℕ) : Option Heap :=
  if current = 0 then s.store (freed + 4) 0
  else do
    let size ← s.load freed
    if wadd freed size = current then
      let currentSize ← s.load current
      let s ← s.store freed (wadd size currentSize)
      let next ← s.load (current + 4)
      s.store (freed + 4) next
    else s.store (freed + 4) current

def unmapLoop (vaddr : ℕ) : ℕ → ℕ → Heap → Option Heap
  | 0, _, s => some s
  | n + 1, i, s =>
      match s.vmmUnmapPage (wadd vaddr (i * pageSize)) with
      | (none, s) => unmapLoop vaddr n (i + 1) s
      | (some paddr, s) =>
          match s.buddy.buddyDealloc paddr 0 with
          | none => none
          | some b => unmapLoop vaddr n (i + 1) { s with buddy := b }

def vfree (ptr : ℕ) : Option Heap :=
  if ptr = 0 then some s
  else do
    let block := wsub ptr headerSize
    let m ← s.load (block + 8)
    if m ≠ magic then return s
    else
      let flags ← s.load block
      if flags % 2 ≠ 1 then none
      else
        let size ← s.load (block + 4)
        let s ← s.store block size
        let (prev, current) ← s.placeLoop block maxNodes 0 s.head
        let (freed, s) ← s.mergePrev prev block
        let s ← s.mergeNext freed current
        unmapLoop block (size / pageSize - 1) 1 s

end Heap

/-! ## Boot -/

/-- The pages that `vmm_init_pages` maps: physical memory up to `ZONE_NORMAL`, at its own
addresses and at `KERNBASE`, and the scratch page. -/
def zoneNormal : ℕ := 896 * 1024 * 1024
def scratchVaddr : ℕ := 0xFFBFF000

def directPages (ram scratch q : ℕ) : Option ℕ :=
  let mapped := min zoneNormal ram
  if q * pageSize < mapped then some (q * pageSize)
  else if kernBase ≤ q * pageSize ∧ q * pageSize < kernBase + mapped then some (q * pageSize - kernBase)
  else if q * pageSize = scratchVaddr then some scratch
  else none

def directTables (ram pd : ℕ) : Bool :=
  let mapped := min zoneNormal ram
  pd * 2 ^ 22 < mapped || kernBase ≤ pd * 2 ^ 22 && pd * 2 ^ 22 < kernBase + mapped ||
    pd = pdIndex scratchVaddr

/-- The kernel before `vmalloc_init`, and what that makes of it. -/
def kernelBoot (m : Memblock) (next : ℕ → ℕ) (scratch : ℕ) : Option Heap :=
  (BuddyAllocator.buddyInit m next).map fun r =>
    { buddy := r.1, pages := directPages m.heapEnd scratch, tables := directTables m.heapEnd, head := 0 }

end Ferrite.Memory
