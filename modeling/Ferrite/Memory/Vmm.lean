import Ferrite.Memory.Frames

/-!
# Page tables through their own window

The last entry of a page directory is the directory itself, so that the upper 4 MiB
of the addresses show the page tables, and the last page of these the directory.
`vmm_map_page`, `vmm_unmap_page` and `vmm_remap_page` read and write entries there,
at virtual addresses of the current directory.

An access that is not mapped, and an abort, have no result. The translation buffer is
flushed behind every change and is left out.
-/
namespace Ferrite.Memory
open Packed Pages Word

/-- The size bit of a directory entry, which makes it a page of 4 MiB. -/
def large (pde : ℕ) : Bool := pde.testBit 7

/-- The page of 4 MiB that an entry maps, cut to the page of an address. -/
def largePage (pde vaddr : ℕ) : ℕ := (pde &&& 0xFFC00000) ||| (vaddr &&& 0x3FF000) ||| pteFlags pde

/-- The translation of an address by the processor, pages of 4 MiB included. -/
def walk (mem : Bytes) (pgdir vaddr : ℕ) : Option ℕ :=
  let pde := entry mem pgdir (pdIndex vaddr)
  if present pde ∧ large pde then some (largePage pde vaddr) else translate mem pgdir vaddr

/-- Memory with the directory that is loaded, and the allocator of the boot phase. -/
structure Vmm extends Machine where
  cr3 : ℕ
  boot : Memblock
  memblockIsActive : Bool

/-- `&((u32*)0xFFC00000)[i * 1024 + j]`; the directory is the table 1023. -/
def windowAddr (i j : ℕ) : ℕ := 0xFFC00000 + i * pageSize + 4 * j

namespace Vmm
variable (s : Vmm)

def load (vaddr : ℕ) : Option ℕ :=
  (walk s.mem s.cr3 vaddr).map fun e => get 4 s.mem (pteAddr e + vaddr % pageSize)

def store (vaddr v : ℕ) : Option Vmm :=
  (walk s.mem s.cr3 vaddr).map fun e => { s with mem := put 4 s.mem (pteAddr e + vaddr % pageSize) v }

/-- `memset(page, 0, PAGE_SIZE)`. -/
def clearPage (vaddr : ℕ) : Option Vmm :=
  (walk s.mem s.cr3 vaddr).map fun e => { s with mem := copy pageSize s.mem (pteAddr e) (fun _ => 0) 0 }

/-- A frame for a page table, or zero. -/
def tableFrame : Option (ℕ × Vmm) :=
  if s.memblockIsActive then
    let r := memblock s.boot pageSize
    some (r.1, { s with boot := r.2 })
  else (s.buddy.buddyAlloc 0).map fun r => (r.1, { s with buddy := r.2 })

/-- The branch of `vmm_map_page` for a missing page table. -/
def newTable (pdindex : ℕ) : Option Vmm :=
  match s.tableFrame with
  | none => none
  | some (pt, s) =>
      if pt = 0 then none
      else do
        let s ← s.store (windowAddr 1023 pdindex) (pt ||| pteU ||| pteW ||| pteP)
        s.clearPage (windowAddr pdindex 0)

/-- `vmm_map_page` from the computation of the indices on. -/
def mapFrame (paddr vaddr flags : ℕ) : Option (ℤ × Vmm) := do
  let pde ← s.load (windowAddr 1023 (pdIndex vaddr))
  let s ← if present pde then some s else s.newTable (pdIndex vaddr)
  let pte ← s.load (windowAddr (pdIndex vaddr) (ptIndex vaddr))
  if present pte then return (-1, s)
  else
    let s ← s.store (windowAddr (pdIndex vaddr) (ptIndex vaddr)) (paddr ||| pteFlags flags ||| pteP)
    return (0, s)

def vmmMapPage (paddr vaddr flags : ℕ) : Option (ℤ × Vmm) :=
  if paddr = 0 then
    match s.buddy.buddyAlloc 0 with
    | none => none
    | some (p, b) =>
        if p = 0 then some (-1, { s with buddy := b })
        else mapFrame { s with buddy := b } p vaddr flags
  else s.mapFrame paddr vaddr flags

/-- The frame that the page was mapped to, or zero. -/
def vmmUnmapPage (vaddr : ℕ) : Option (ℕ × Vmm) := do
  let pde ← s.load (windowAddr 1023 (pdIndex vaddr))
  if present pde then
    let pte ← s.load (windowAddr (pdIndex vaddr) (ptIndex vaddr))
    if present pte then
      let s ← s.store (windowAddr (pdIndex vaddr) (ptIndex vaddr)) 0
      return (pteAddr pte, s)
    else return (0, s)
  else return (0, s)

def vmmRemapPage (vaddr paddr flags : ℕ) : Option Vmm :=
  s.store (windowAddr (pdIndex vaddr) (ptIndex vaddr)) (paddr ||| pteFlags flags ||| pteP)

/-! ## The window -/

/-- The directory is loaded, and is its own last table. -/
structure Recursive (s : Vmm) : Prop where
  dvd : pageSize ∣ s.cr3
  own : pteAddr (entry s.mem s.cr3 1023) = s.cr3
  mapped : present (entry s.mem s.cr3 1023) = true
  small : ∀ i < 1024, present (entry s.mem s.cr3 i) = true → large (entry s.mem s.cr3 i) = false

variable {s : Vmm} {i j v vaddr : ℕ}

theorem walk_eq_translate {mem : Bytes} {pgdir : ℕ}
    (h : present (entry mem pgdir (pdIndex vaddr)) = true → large (entry mem pgdir (pdIndex vaddr)) = false) :
    walk mem pgdir vaddr = translate mem pgdir vaddr := by
  unfold walk
  rw [if_neg]
  rintro ⟨hpresent, hlarge⟩
  rw [h hpresent] at hlarge
  cases hlarge

theorem windowAddr_pdIndex (hi : i < 1024) (hj : j < 1024) : pdIndex (windowAddr i j) = 1023 := by
  unfold pdIndex windowAddr pageSize
  omega

theorem windowAddr_ptIndex (hi : i < 1024) (hj : j < 1024) : ptIndex (windowAddr i j) = i := by
  unfold ptIndex windowAddr pageSize
  omega

theorem windowAddr_mod (hj : j < 1024) : windowAddr i j % pageSize = 4 * j := by
  unfold windowAddr pageSize
  omega

namespace Recursive
variable (h : s.Recursive)
include h

/-- The window shows the table that an entry of the directory leads to. -/
theorem walk_window (hi : i < 1024) (hj : j < 1024) (he : present (entry s.mem s.cr3 i) = true) :
    walk s.mem s.cr3 (windowAddr i j) = some (entry s.mem s.cr3 i) := by
  have hpd := windowAddr_pdIndex hi hj
  rw [walk_eq_translate (by rw [hpd]; exact h.small 1023 (by omega))]
  unfold translate
  dsimp only
  rw [hpd, h.mapped, h.own, windowAddr_ptIndex hi hj, he]
  rfl

theorem load_table (hi : i < 1024) (hj : j < 1024) (he : present (entry s.mem s.cr3 i) = true) :
    s.load (windowAddr i j) = some (entry s.mem (pteAddr (entry s.mem s.cr3 i)) j) := by
  unfold load
  rw [h.walk_window hi hj he, windowAddr_mod hj]
  rfl

theorem load_directory (hj : j < 1024) : s.load (windowAddr 1023 j) = some (entry s.mem s.cr3 j) := by
  rw [h.load_table (by omega) hj h.mapped, h.own]

theorem store_table (hi : i < 1024) (hj : j < 1024) (he : present (entry s.mem s.cr3 i) = true) :
    s.store (windowAddr i j) v = some { s with mem := setEntry s.mem (pteAddr (entry s.mem s.cr3 i)) j v } := by
  unfold store
  rw [h.walk_window hi hj he, windowAddr_mod hj]
  rfl

theorem store_directory (hj : j < 1024) :
    s.store (windowAddr 1023 j) v = some { s with mem := setEntry s.mem s.cr3 j v } := by
  rw [h.store_table (by omega) hj h.mapped, h.own]

theorem clearPage_table (hi : i < 1024) (he : present (entry s.mem s.cr3 i) = true) :
    s.clearPage (windowAddr i 0) =
      some { s with mem := copy pageSize s.mem (pteAddr (entry s.mem s.cr3 i)) (fun _ => 0) 0 } := by
  unfold clearPage
  rw [h.walk_window hi (by omega) he]
  rfl

end Recursive
end Vmm
end Ferrite.Memory
