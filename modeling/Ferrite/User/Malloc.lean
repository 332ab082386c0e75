import Ferrite.Library.Packed
import Ferrite.Library.Runs
import Ferrite.Library.Segments
import Ferrite.Library.Signed
import Ferrite.Library.Word

/-!
# `malloc` of the C library

A heap of blocks, each with a header of twelve bytes, from the first block up to the break.
Blocks are found by going from header to header, are taken whole, and are joined only with the
block behind. The break is moved by `sbrk`, which takes an `int`.
-/
namespace Ferrite.User
open Packed Word Segments Runs

/-- `sizeof(block_t)`: the size, `next` and `free`. -/
def blockSize : ℕ := 12

def pageSize : ℕ := 4096
def maxHeapSize : ℕ := 128 * 1024 * 1024
def maxArgPages : ℕ := 32
def stackStart : ℕ := 0xC0000000 - pageSize * maxArgPages

/-- The bounds of the heap as `exec` sets them for a program below the stack. -/
structure Limits where
  heapStart : ℕ
  heapEnd : ℕ
  start_pos : 0 < heapStart
  start_lt : heapStart < heapEnd
  end_le : heapEnd ≤ heapStart + maxHeapSize
  end_stack : heapEnd ≤ stackStart

/-- The memory of the process, its break, and `heap_start` of the C library, which is `NULL` in
the beginning. -/
structure Heap where
  mem : Bytes
  brk : ℕ
  heapStart : ℕ

/-- What the page of an address holds when it is mapped again after it was given back. -/
abbrev Fresh := Bytes

section
variable (l : Limits) (fresh : Fresh)

/-- `sys_brk(brk)`: the pages that are left are given back. -/
def sysBrk (h : Heap) (brk : ℕ) : ℤ × Heap :=
  if brk = 0 then (signed 32 h.brk, h)
  else if l.heapStart > brk ∨ l.heapEnd < brk then (-22, h)
  else
    (0, { h with
      brk := brk
      mem := fun a => if align brk pageSize ≤ a ∧ a < align h.brk pageSize then fresh a else h.mem a })

/-- `sbrk(increment)`; -1 as a pointer when it fails. -/
def sbrk (h : Heap) (increment : ℤ) : ℕ × Heap :=
  let old := (sysBrk l fresh h 0).1
  if increment = 0 then (unsigned 32 old, h)
  else
    let r := sysBrk l fresh h (unsigned 32 (old + increment))
    if r.1 < 0 then (word - 1, r.2) else (unsigned 32 old, r.2)

/-- The loop of `find_free_block`, from a block on. -/
def findLoop (h : Heap) (size : ℕ) : ℕ → ℕ → Option ℕ
  | 0, _ => none
  | fuel + 1, current =>
      if current = 0 then some 0
      else if get 4 h.mem (current + 8) ≠ 0 ∧ size ≤ get 4 h.mem current then some current
      else
        let next := wadd (wadd current blockSize) (get 4 h.mem current)
        if (sbrk l fresh h 0).1 ≤ next then some 0 else findLoop h size fuel next

/-- `find_free_block(size)`; zero is `NULL`. -/
def findFreeBlock (h : Heap) (size : ℕ) : Option ℕ := findLoop l fresh h size (h.brk + 1) h.heapStart

/-- `request_space(size)`. -/
def requestSpace (h : Heap) (size : ℕ) : ℕ × Heap :=
  let r := sbrk l fresh h (signed 32 (wadd blockSize size))
  if r.1 = word - 1 then (0, r.2)
  else (r.1, { r.2 with mem := put 4 (put 4 (put 4 r.2.mem r.1 size) (r.1 + 4) 0) (r.1 + 8) 0 })

/-- `malloc(size)`. -/
def malloc (h : Heap) (size : ℕ) : Option (ℕ × Heap) :=
  if size = 0 then some (0, h)
  else
    let size := align size 4
    if h.heapStart = 0 then
      let r := requestSpace l fresh h size
      if r.1 = 0 then some (0, r.2) else some (wadd r.1 blockSize, { r.2 with heapStart := r.1 })
    else do
      let block ← findFreeBlock l fresh h size
      if block ≠ 0 then some (wadd block blockSize, { h with mem := put 4 h.mem (block + 8) 0 })
      else
        let r := requestSpace l fresh h size
        if r.1 = 0 then some (0, r.2) else some (wadd r.1 blockSize, r.2)

/-- `free(ptr)`. -/
def free (h : Heap) (ptr : ℕ) : Heap :=
  if ptr = 0 then h
  else
    let block := wsub ptr blockSize
    let h := { h with mem := put 4 h.mem (block + 8) 1 }
    let next := wadd (wadd block blockSize) (get 4 h.mem block)
    if next < (sbrk l fresh h 0).1 ∧ get 4 h.mem (next + 8) ≠ 0 then
      { h with mem := put 4 h.mem block (wadd (get 4 h.mem block) (wadd blockSize (get 4 h.mem next))) }
    else h

end

/-! ## The blocks -/

/-- The header of a block holds its size and whether it is free. -/
structure Header (mem : Bytes) (g : Seg) : Prop where
  size : get 4 mem g.start + blockSize = g.size
  free : get 4 mem (g.start + 8) ≠ 0 ↔ g.free = true

/-- The headers cut the heap into blocks, from `heap_start` to the break. -/
structure Tiles (h : Heap) (gs : List Seg) : Prop where
  covers : Covers h.heapStart gs h.brk
  headers : ∀ g ∈ gs, Header h.mem g

variable {l : Limits} {fresh : Fresh} {h : Heap} {gs pre post : List Seg} {g : Seg} {mem : Bytes}
  {size fuel n p lo hi : ℕ}

/-- Only the bytes of the header count. -/
theorem Header.congr {mem' : Bytes} (hg : Header mem g)
    (h : ∀ a, g.start ≤ a → a < g.start + blockSize → mem' a = mem a) :
    Header mem' g := by
  have hsize : get 4 mem' g.start = get 4 mem g.start := get_congr fun a hlow hhigh =>
      h a hlow (by unfold blockSize; omega)
  have hfree : get 4 mem' (g.start + 8) = get 4 mem (g.start + 8) :=
    get_congr fun a hlow hhigh => h a (by omega) (by unfold blockSize; omega)
  exact ⟨by rw [hsize, hg.size], by rw [hfree, hg.free]⟩

theorem Header.le (hg : Header mem g) : blockSize ≤ g.size := by
  rw [← hg.size]
  exact Nat.le_add_left ..

theorem sbrk_zero (hbrk : h.brk < word) : sbrk l fresh h 0 = (h.brk, h) := by
  have hbreak : (sysBrk l fresh h 0).1 = signed 32 h.brk := rfl
  have hold : unsigned 32 (signed 32 h.brk) = h.brk := unsigned_signed hbrk
  unfold sbrk
  dsimp only
  rw [hbreak, if_pos rfl, hold]

/-- The search ends at the first free block that is large enough, or at the break. -/
theorem findLoop_spec (hbrk : h.brk < word) (hlo : 0 < lo) (hgs : gs ≠ []) (hcovers : Covers lo gs h.brk)
    (hheaders : ∀ g ∈ gs, Header h.mem g) (hfuel : gs.length < fuel) (size : ℕ) :
    (∃ pre g post, gs = pre ++ g :: post ∧ g.free = true ∧ size + blockSize ≤ g.size ∧
      findLoop l fresh h size fuel lo = some g.start) ∨
    ((∀ g ∈ gs, g.free = true → g.size < size + blockSize) ∧ findLoop l fresh h size fuel lo = some 0) := by
  induction gs generalizing lo fuel with
  | nil => exact absurd rfl hgs
  | cons g gs ih =>
      obtain ⟨fuel, rfl⟩ := Nat.exists_eq_succ_of_ne_zero (Nat.ne_zero_of_lt hfuel)
      obtain ⟨rfl, hpos, hrest⟩ := hcovers
      have hheader := hheaders g List.mem_cons_self
      have hle := hrest.le
      have hsize := hheader.size
      have hnext : wadd (wadd g.start blockSize) (get 4 h.mem g.start) = g.start + g.size := by
        have hbody : wadd g.start blockSize = g.start + blockSize := wadd_of_lt (by omega)
        rw [hbody, wadd_of_lt (by omega)]
        omega
      unfold findLoop
      rw [if_neg hlo.ne', hnext, sbrk_zero hbrk]
      by_cases hfit : get 4 h.mem (g.start + 8) ≠ 0 ∧ size ≤ get 4 h.mem g.start
      · rw [if_pos hfit]
        exact .inl ⟨[], g, gs, rfl, hheader.free.mp hfit.1, by omega, rfl⟩
      · have hsmall (hfree : g.free = true) : g.size < size + blockSize := by
          by_contra hlarge
          exact hfit ⟨hheader.free.mpr hfree, by omega⟩
        rw [if_neg hfit]
        dsimp only
        cases gs with
        | nil =>
            have hend : g.start + g.size = h.brk := hrest
            rw [if_pos hend.ge]
            refine .inr ⟨?_, rfl⟩
            intro c hc
            rw [List.mem_singleton.mp hc]
            exact hsmall
        | cons c gs =>
            have hbehind : ¬h.brk ≤ g.start + g.size := by
              have hlast := hrest.2.2.le
              have hsize' := hrest.2.1
              omega
            rw [if_neg hbehind]
            have hheaders' : ∀ e ∈ c :: gs, Header h.mem e := fun e he => hheaders e (List.mem_cons_of_mem g he)
            have hfuel' : (c :: gs).length < fuel := by
              rw [List.length_cons] at hfuel
              omega
            rcases ih (by omega) (List.cons_ne_nil c gs) hrest hheaders' hfuel' with
              ⟨pre, e, post, heq, hfree, hlarge, hfind⟩ | ⟨hnone, hfind⟩
            · exact .inl ⟨g :: pre, e, post, by rw [heq]; rfl, hfree, hlarge, hfind⟩
            · refine .inr ⟨?_, hfind⟩
              intro e he
              rcases List.mem_cons.mp he with rfl | he
              · exact hsmall
              · exact hnone e he

/-! ## Raising the break -/

theorem Limits.end_lt (l : Limits) : l.heapEnd < 0xC0000000 := by
  have hstack := l.end_stack
  unfold stackStart pageSize maxArgPages at hstack
  omega

theorem align_mono {x y : ℕ} (hle : x ≤ y) (hy : y < 0xC0000000) : align x pageSize ≤ align y pageSize := by
  have hpage : pageSize = 2 ^ 12 := rfl
  have hx' : x + (2 ^ 12 - 1) < word := by
    unfold word
    omega
  have hy' : y + (2 ^ 12 - 1) < word := by
    unfold word
    omega
  rw [hpage, align_two_pow (by decide) hx', align_two_pow (by decide) hy']
  exact Nat.mul_le_mul_right _ (Nat.div_le_div_right (Nat.add_le_add_right hle _))

/-- No page is given back when the break is raised. -/
theorem sysBrk_raise (hlow : l.heapStart ≤ h.brk) {brk : ℕ} (hle : h.brk ≤ brk) (hend : brk ≤ l.heapEnd) :
    sysBrk l fresh h brk = (0, { h with brk := brk }) := by
  have hstart := l.start_pos
  have hlt := l.end_lt
  have hmem : (fun a => if align brk pageSize ≤ a ∧
      a < align h.brk pageSize then fresh a else h.mem a) = h.mem := by
    funext a
    have hmono : align h.brk pageSize ≤ align brk pageSize := align_mono hle (by omega)
    exact if_neg (by omega)
  unfold sysBrk
  rw [if_neg (by omega), if_neg (by omega), hmem]

/-- The increment of `sbrk` takes the break to a number that `sys_brk` refuses. -/
def Refused (l : Limits) (h : Heap) (size : ℕ) : Prop :=
  let increment := signed 32 (wadd blockSize size)
  let brk := unsigned 32 (h.brk + increment)
  increment ≠ 0 ∧ if brk = 0 then 2 ^ 31 ≤ h.brk else brk < l.heapStart ∨ l.heapEnd < brk

theorem sysBrk_old (l : Limits) (fresh : Fresh) (h : Heap) : (sysBrk l fresh h 0).1 = signed 32 h.brk := rfl

theorem requestSpace_refused (hbrk : h.brk < word) (hrefused : Refused l h size) :
    requestSpace l fresh h size = (0, h) := by
  obtain ⟨hne, hrefuses⟩ := hrefused
  have hsum := unsigned_signed_add hbrk (signed 32 (wadd blockSize size))
  have hfails : (sysBrk l fresh h (unsigned 32 (h.brk + signed 32 (wadd blockSize size)))).1 < 0 ∧
      (sysBrk l fresh h (unsigned 32 (h.brk + signed 32 (wadd blockSize size)))).2 = h := by
    unfold sysBrk
    split_ifs at hrefuses with hzero
    · have hneg : signed 32 h.brk = h.brk - 2 ^ 32 := signed_of_le hrefuses hbrk
      rw [if_pos hzero]
      dsimp only
      unfold word at hbrk
      exact ⟨by omega, rfl⟩
    · rw [if_neg hzero, if_pos hrefuses]
      exact ⟨show (-22 : ℤ) < 0 by decide, rfl⟩
  have hsbrk : sbrk l fresh h (signed 32 (wadd blockSize size)) = (word - 1, h) := by
    unfold sbrk
    dsimp only
    rw [sysBrk_old, if_neg hne, hsum, if_pos hfails.1, hfails.2]
  unfold requestSpace
  dsimp only
  rw [hsbrk, if_pos rfl]

/-- The memory with the header of a new block. -/
def newHeader (mem : Bytes) (a size : ℕ) : Bytes := put 4 (put 4 (put 4 mem a size) (a + 4) 0) (a + 8) 0

theorem small_increment (hsmall : blockSize + size < 2 ^ 31) : signed 32 (wadd blockSize size) =
    (blockSize + size : ℕ) := by
  have hsum : wadd blockSize size = blockSize + size := wadd_of_lt (by unfold word; omega)
  rw [hsum]
  exact signed_of_lt hsmall

theorem requestSpace_raised (hlow : l.heapStart ≤ h.brk) (hsmall : blockSize + size < 2 ^ 31)
    (hroom : h.brk + (blockSize + size) ≤ l.heapEnd) :
    requestSpace l fresh h size =
      (h.brk, { h with brk := h.brk + (blockSize + size), mem := newHeader h.mem h.brk size }) := by
  have hlt := l.end_lt
  have hbrk : h.brk < word := by
    unfold word
    omega
  have hold : unsigned 32 (signed 32 h.brk) = h.brk := unsigned_signed hbrk
  have hne : ((blockSize + size : ℕ) : ℤ) ≠ 0 := by
    unfold blockSize
    omega
  have hnew : unsigned 32 (h.brk + (blockSize + size : ℕ)) = h.brk + (blockSize + size) := by
    rw [unsigned_of_nonneg (by omega) (by omega)]
    omega
  have hraise : sysBrk l fresh h (h.brk + (blockSize + size)) =
      (0, { h with brk := h.brk + (blockSize + size) }) :=
    sysBrk_raise hlow (Nat.le_add_right ..) hroom
  have hsbrk : sbrk l fresh h (blockSize + size : ℕ) =
      (h.brk, { h with brk := h.brk + (blockSize + size) }) := by
    unfold sbrk
    dsimp only
    rw [sysBrk_old, if_neg hne, unsigned_signed_add hbrk, hnew, hraise, if_neg (lt_irrefl (0 : ℤ)), hold]
  have hvalid : h.brk ≠ word - 1 := by
    unfold word
    omega
  unfold requestSpace
  dsimp only
  rw [small_increment hsmall, hsbrk, if_neg hvalid]
  rfl

/-- A break beyond the limit is refused, also when the sum wraps around. -/
theorem refused_of_large (hlow : l.heapStart ≤ h.brk) (hbrk : h.brk ≤ l.heapEnd)
    (hsmall : blockSize + size < 2 ^ 31)
    (hroom : l.heapEnd < h.brk + (blockSize + size)) : Refused l h size := by
  have hlt := l.end_lt
  have hend := l.end_le
  have hpos := l.start_pos
  unfold maxHeapSize at hend
  unfold Refused
  rw [small_increment hsmall]
  dsimp only
  constructor
  · unfold blockSize
    omega
  · have hwrap : unsigned 32 (h.brk + (blockSize + size : ℕ)) = (h.brk + (blockSize + size)) % 2 ^ 32 := by
      unfold unsigned
      omega
    rw [hwrap]
    split_ifs with hzero <;> omega

/-! ## Runs -/

/-- A heap with the live blocks: the pointers that `malloc` returned, with the sizes asked for. -/
structure State where
  heap : Heap
  live : List (ℕ × ℕ)

/-- The program allocates, frees a live block, or writes a byte of one. -/
inductive Event
  | malloc (size : ℕ)
  | free (ptr : ℕ)
  | write (a : ℕ) (b : Byte)

def Step (l : Limits) (fresh : Fresh) (s : State) : Event → State → Prop
  | .malloc size, t => size < word ∧ ∃ p, malloc l fresh s.heap size = some (p, t.heap) ∧
      t.live = if p = 0 then s.live else (p, size) :: s.live
  | .free ptr, t => (∃ n, (ptr, n) ∈ s.live) ∧ t.heap = free l fresh s.heap ptr ∧
      t.live = s.live.filter fun b => b.1 ≠ ptr
  | .write a b, t => (∃ p n, (p, n) ∈ s.live ∧ p ≤ a ∧ a < p + n) ∧
      t = { s with heap := { s.heap with mem := Function.update s.heap.mem a b } }

/-- A process that has just been set up. -/
def boot (l : Limits) (mem : Bytes) : State := ⟨⟨mem, l.heapStart, 0⟩, []⟩

/-- The block of a pointer is in use and holds what was asked for. -/
def Holds (gs : List Seg) (b : ℕ × ℕ) : Prop :=
  ∃ g ∈ gs, g.start + blockSize = b.1 ∧ g.free = false ∧ b.2 + blockSize ≤ g.size

structure Inv (l : Limits) (s : State) (gs : List Seg) : Prop where
  covers : Covers l.heapStart gs s.heap.brk
  bound : s.heap.brk ≤ l.heapEnd
  start : s.heap.heapStart = if gs = [] then 0 else l.heapStart
  headers : ∀ g ∈ gs, Header s.heap.mem g
  live : ∀ b ∈ s.live, Holds gs b
  nodup : (s.live.map Prod.fst).Nodup

/-- No free block has the size. -/
def NoFit (h : Heap) (size : ℕ) : Prop := ∀ gs, Tiles h gs → ∀ g ∈ gs, g.free = true → g.size < size + blockSize

/-- The size fits an `int` with its header, or the heap has no block for it and the increment that
comes out is refused. -/
def Meets (l : Limits) (s : State) : Event → Prop
  | .malloc size => size ≤ 2 ^ 31 - 16 ∨ (NoFit s.heap (align size 4) ∧ Refused l s.heap (align size 4))
  | _ => True

/-- A size rounded up to words. -/
def rounded (n : ℕ) : ℕ := (n + 3) / 4 * 4

/-- What `malloc` does: nothing, or it takes a block, or it adds one. -/
inductive Malloced (l : Limits) (s : State) (gs : List Seg) (n : ℕ) : ℕ → Heap → Prop
  | nothing : Malloced l s gs n 0 s.heap
  | taken (pre post : List Seg) (g : Seg) (hgs : gs = pre ++ g :: post) (hfree : g.free = true)
      (hsize : rounded n + blockSize ≤ g.size) :
      Malloced l s gs n (g.start + blockSize) { s.heap with mem := put 4 s.heap.mem (g.start + 8) 0 }
  | added (hroom : s.heap.brk + (blockSize + rounded n) ≤ l.heapEnd) :
      Malloced l s gs n (s.heap.brk + blockSize)
        ⟨newHeader s.heap.mem s.heap.brk (rounded n), s.heap.brk + (blockSize + rounded n), l.heapStart⟩

variable {s t : State}

theorem Inv.brk_lt (hinv : Inv l s gs) : s.heap.brk < 0xC0000000 := hinv.bound.trans_lt l.end_lt

theorem Inv.tiles (hinv : Inv l s gs) (hgs : gs ≠ []) : Tiles s.heap gs := by
  have hstart := hinv.start
  rw [if_neg hgs] at hstart
  refine ⟨?_, hinv.headers⟩
  rw [hstart]
  exact hinv.covers

theorem le_rounded (n : ℕ) : n ≤ rounded n := by
  unfold rounded
  omega

theorem align_four (hn : n ≤ 2 ^ 31 - 16) : align n 4 = rounded n ∧ blockSize + rounded n < 2 ^ 31 := by
  have hfits : n + (2 ^ 2 - 1) < word := by
    unfold word
    omega
  have heq : align n 4 = rounded n := align_two_pow (k := 2) (by decide) hfits
  refine ⟨heq, ?_⟩
  unfold blockSize rounded
  omega

/-- What `request_space` does for a size that it accepts. -/
theorem Inv.request (hinv : Inv l s gs) (hmeets : size ≤ 2 ^ 31 - 1 - blockSize ∨ Refused l s.heap size) :
    (requestSpace l fresh s.heap size = (0, s.heap) ∧ Refused l s.heap size) ∨
    (¬Refused l s.heap size ∧ s.heap.brk + (blockSize + size) ≤ l.heapEnd ∧
      requestSpace l fresh s.heap size = (s.heap.brk,
        { s.heap with
          brk := s.heap.brk + (blockSize + size)
          mem := newHeader s.heap.mem s.heap.brk size })) := by
  have hbrk : s.heap.brk < word := hinv.brk_lt.trans (by decide)
  have hlow : l.heapStart ≤ s.heap.brk := hinv.covers.le
  by_cases hrefused : Refused l s.heap size
  · exact .inl ⟨requestSpace_refused hbrk hrefused, hrefused⟩
  · have hsmall : blockSize + size < 2 ^ 31 := by
      have hle := hmeets.resolve_right hrefused
      unfold blockSize at hle ⊢
      omega
    have hroom : s.heap.brk + (blockSize + size) ≤ l.heapEnd := by
      by_contra hlarge
      exact hrefused (refused_of_large hlow hinv.bound hsmall (Nat.lt_of_not_le hlarge))
    exact .inr ⟨hrefused, hroom, requestSpace_raised hlow hsmall hroom⟩

theorem Inv.search (hinv : Inv l s gs) (hgs : gs ≠ []) (size : ℕ) :
    (∃ pre g post, gs = pre ++ g :: post ∧ g.free = true ∧ size + blockSize ≤ g.size ∧
      findFreeBlock l fresh s.heap size = some g.start) ∨
    ((∀ g ∈ gs, g.free = true → g.size < size + blockSize) ∧ findFreeBlock l fresh s.heap size = some 0) := by
  have hbrk : s.heap.brk < word := hinv.brk_lt.trans (by decide)
  have hfuel : gs.length < s.heap.brk + 1 := by
    have hlength := hinv.covers.length_mul_le fun g hg => (hinv.headers g hg).le
    unfold blockSize at hlength
    omega
  have hstart : s.heap.heapStart = l.heapStart := by
    rw [hinv.start, if_neg hgs]
  unfold findFreeBlock
  rw [hstart]
  exact findLoop_spec hbrk l.start_pos hgs hinv.covers hinv.headers hfuel size

/-- A step of `malloc` under the condition. -/
theorem Inv.malloced (hinv : Inv l s gs) (hmeets : Meets l s (.malloc n)) :
    ∃ p h', malloc l fresh s.heap n = some (p, h') ∧ Malloced l s gs n p h' := by
  have hpos := l.start_pos
  have hlow := hinv.covers.le
  by_cases hn : n = 0
  · refine ⟨0, s.heap, ?_, .nothing⟩
    unfold malloc
    rw [if_pos hn]
  · have hrequest : align n 4 ≤ 2 ^ 31 - 1 - blockSize ∨ Refused l s.heap (align n 4) := by
      rcases hmeets with hsmall | hrefused
      · obtain ⟨heq, hfits⟩ := align_four hsmall
        rw [heq]
        unfold blockSize at hfits ⊢
        omega
      · exact .inr hrefused.2
    have heq (h : ¬(NoFit s.heap (align n 4) ∧ Refused l s.heap (align n 4))) : align n 4 = rounded n :=
      (align_four (hmeets.resolve_right h)).1
    have hbrk : s.heap.brk ≠ 0 := by omega
    by_cases hgs : gs = []
    · have hstart : s.heap.heapStart = 0 := by
        rw [hinv.start, if_pos hgs]
      have hfirst : s.heap.brk = l.heapStart := by
        have hcovers := hinv.covers
        rw [hgs] at hcovers
        exact hcovers.symm
      unfold malloc
      dsimp only
      rw [if_neg hn, if_pos hstart]
      rcases @Inv.request l fresh gs (align n 4) s hinv hrequest with ⟨hrun, -⟩ | ⟨hrefused, hroom, hrun⟩
      · rw [hrun]
        exact ⟨0, s.heap, rfl, .nothing⟩
      · rw [heq fun h => hrefused h.2] at hroom hrun
        have hadded : Malloced l s gs n _ _ := .added hroom
        have hptr : wadd s.heap.brk blockSize = s.heap.brk + blockSize :=
          wadd_of_lt (by have := hinv.brk_lt; unfold blockSize word; omega)
        rw [heq fun h => hrefused h.2, hrun]
        dsimp only
        rw [if_neg hbrk, hptr]
        refine ⟨_, _, rfl, ?_⟩
        rw [hfirst] at hadded ⊢
        exact hadded
    · have hstart : s.heap.heapStart = l.heapStart := by
        rw [hinv.start, if_neg hgs]
      have hstart' : s.heap.heapStart ≠ 0 := by omega
      unfold malloc
      dsimp only
      rw [if_neg hn, if_neg hstart']
      rcases @Inv.search l fresh gs s hinv hgs
        (align n 4) with ⟨pre, g, post, hgs', hfree, hsize, hfind⟩ | ⟨-, hfind⟩
      · have hmem : g ∈ gs := by
          rw [hgs']
          exact List.mem_append_right pre List.mem_cons_self
        have hbounds := hinv.covers.bounds hmem
        have hptr : wadd g.start blockSize = g.start + blockSize :=
          wadd_of_lt (by have := hinv.brk_lt; unfold blockSize word; omega)
        have hn' := heq fun h => absurd hsize (Nat.not_le.mpr (h.1 gs (hinv.tiles hgs) g hmem hfree))
        rw [hn'] at hsize
        rw [hfind]
        dsimp only [Option.bind_eq_bind, Option.bind_some]
        rw [if_pos (by omega), hptr]
        exact ⟨_, _, rfl, .taken pre post g hgs' hfree hsize⟩
      · rw [hfind]
        dsimp only [Option.bind_eq_bind, Option.bind_some]
        rw [if_neg (not_not.mpr rfl)]
        rcases @Inv.request l fresh gs (align n 4) s hinv hrequest with ⟨hrun, -⟩ | ⟨hrefused, hroom, hrun⟩
        · rw [hrun]
          exact ⟨0, s.heap, rfl, .nothing⟩
        · rw [heq fun h => hrefused h.2] at hroom hrun
          have hadded : Malloced l s gs n _ _ := .added hroom
          have hptr : wadd s.heap.brk blockSize = s.heap.brk + blockSize :=
            wadd_of_lt (by have := hinv.brk_lt; unfold blockSize word; omega)
          rw [heq fun h => hrefused h.2, hrun]
          dsimp only
          rw [if_neg hbrk, hptr, hstart]
          exact ⟨_, _, rfl, hadded⟩

/-! ## The steps keep the invariant -/

theorem header_put {a : ℕ} (hg : Header mem g) (v : ℕ) (hapart : g.start + blockSize ≤ a ∨ a + 4 ≤ g.start) :
    Header (put 4 mem a v) g := by
  apply hg.congr
  intro i hlow hhigh
  rcases hapart with h | h
  · exact put_of_lt (by omega)
  · exact put_of_le (by omega)

/-- A block whose flag is stored. -/
theorem header_flag (hg : Header mem g) (f : Bool) : Header (put 4 mem (g.start + 8) (if f then 1 else 0))
    { g with free := f } := by
  have hsize : get 4 (put 4 mem (g.start + 8) (if f then 1 else 0)) g.start = get 4 mem g.start :=
    get_put_of_disjoint (.inl (by omega))
  have hflag : get 4 (put 4 mem (g.start + 8) (if f then 1 else 0)) (g.start + 8) = if f then 1 else 0 :=
    get_put_of_lt (by split_ifs <;> decide)
  refine ⟨?_, ?_⟩
  · dsimp only
    rw [hsize]
    exact hg.size
  · dsimp only
    rw [hflag]
    cases f <;> simp

/-- The other blocks lie apart from a header. -/
theorem apart_of_covers (hcovers : Covers lo (pre ++ g :: post) hi) {c : Seg}
    (hc : c ∈ pre ∨ c ∈ post) : c.start + c.size ≤ g.start ∨ g.start + g.size ≤ c.start := by
  obtain ⟨hpre, -, hpost⟩ := covers_middle.mp hcovers
  rcases hc with hc | hc
  · exact .inl (hpre.bounds hc).2
  · exact .inr (hpost.bounds hc).1

/-- A store in the header of one block leaves the others. -/
theorem headers_put (hcovers : Covers lo (pre ++ g :: post) hi)
    (hheaders : ∀ c ∈ pre ++ g :: post, Header mem c)
    {a v : ℕ} (hlow : g.start ≤ a) (hhigh : a + 4 ≤ g.start + blockSize) {c : Seg} (hc : c ∈ pre ∨ c ∈ post) :
    Header (put 4 mem a v) c := by
  have hmem : c ∈ pre ++ g :: post := by
    rcases hc with hc | hc
    · exact List.mem_append_left _ hc
    · exact List.mem_append_right _ (List.mem_cons_of_mem g hc)
  have hg := (hheaders g (List.mem_append_right _ List.mem_cons_self)).le
  have hle := (hheaders c hmem).le
  have hapart := apart_of_covers hcovers hc
  exact header_put (hheaders c hmem) v (by omega)

theorem mem_middle {c : Seg} (hc : c ∈ pre ++ g :: post) : c = g ∨ c ∈ pre ∨ c ∈ post := by
  rcases List.mem_append.mp hc with hpre | hmid
  · exact .inr (.inl hpre)
  · rcases List.mem_cons.mp hmid with rfl | hpost
    · exact .inl rfl
    · exact .inr (.inr hpost)

/-- The pointers of blocks in use are theirs alone. -/
theorem Inv.fresh_ptr (hinv : Inv l s gs) (h : ∀ c ∈ gs, c.free = false → c.start + blockSize ≠ p) :
    p ∉ s.live.map Prod.fst := by
  intro hmem
  obtain ⟨b, hb, rfl⟩ := List.mem_map.mp hmem
  obtain ⟨c, hc, hptr, hused, -⟩ := hinv.live b hb
  exact h c hc hused hptr

theorem covers_flag (hcovers : Covers lo (pre ++ g :: post) hi) (f : Bool) :
    Covers lo (pre ++ { g with free := f } :: post) hi := by
  obtain ⟨hpre, hpos, hpost⟩ := covers_middle.mp hcovers
  exact covers_middle.mpr ⟨hpre, hpos, hpost⟩

theorem Inv.taken (hinv : Inv l s (pre ++ g :: post)) (hfree : g.free = true) (hsize : n + blockSize ≤ g.size) :
    Inv l ⟨{ s.heap with mem := put 4 s.heap.mem (g.start + 8) 0 }, (g.start + blockSize, n) :: s.live⟩
      (pre ++ { g with free := false } :: post) := by
  obtain ⟨hcovers, hbound, hstart, hheaders, hlive, hnodup⟩ := hinv
  have hmem : g ∈ pre ++ g :: post := List.mem_append_right pre List.mem_cons_self
  refine ⟨covers_flag hcovers false, hbound, ?_, ?_, ?_, ?_⟩
  · dsimp only
    rw [hstart, if_neg (by simp), if_neg (by simp)]
  · intro c hc
    rcases mem_middle hc with rfl | hc
    · exact header_flag (hheaders g hmem) false
    · exact headers_put hcovers hheaders (by omega) (by unfold blockSize; omega) hc
  · intro b hb
    rcases List.mem_cons.mp hb with rfl | hb
    · exact ⟨{ g with free := false }, List.mem_append_right pre List.mem_cons_self, rfl, rfl, hsize⟩
    · obtain ⟨c, hc, hptr, hused, hlarge⟩ := hlive b hb
      rcases mem_middle hc with rfl | hc
      · exact absurd (hused.symm.trans hfree) (by decide)
      · exact ⟨c, by simp [hc.elim Or.inl fun h => Or.inr (Or.inr h)], hptr, hused, hlarge⟩
  · apply List.nodup_cons.mpr ⟨_, hnodup⟩
    apply Inv.fresh_ptr ⟨hcovers, hbound, hstart, hheaders, hlive, hnodup⟩
    intro c hc hused hptr
    have heq : c = g := hcovers.eq_of_start hc hmem (by omega)
    rw [heq, hfree] at hused
    exact absurd hused (by decide)

theorem header_new (mem : Bytes) (a : ℕ) (hsize : size < word) :
    Header (newHeader mem a size) ⟨a, blockSize + size, false⟩ := by
  have hfield : get 4 (newHeader mem a size) a = size := by
    unfold newHeader
    rw [get_put_of_disjoint (.inl (by omega)), get_put_of_disjoint (.inl (by omega)), get_put_of_lt hsize]
  have hflag : get 4 (newHeader mem a size) (a + 8) = 0 := by
    unfold newHeader
    rw [get_put_of_lt (by decide)]
  refine ⟨?_, ?_⟩
  · dsimp only
    rw [hfield, Nat.add_comm]
  · dsimp only
    rw [hflag]
    simp

theorem Inv.added (hinv : Inv l s gs) (hsize : n ≤ size) (hroom : s.heap.brk + (blockSize + size) ≤ l.heapEnd) :
    Inv l ⟨⟨newHeader s.heap.mem s.heap.brk size, s.heap.brk + (blockSize + size), l.heapStart⟩,
      (s.heap.brk + blockSize, n) :: s.live⟩ (gs ++ [⟨s.heap.brk, blockSize + size, false⟩]) := by
  have hlt := l.end_lt
  have hsmall : size < word := by
    unfold word
    omega
  have hpos : 0 < blockSize + size := Nat.add_pos_left (by decide) size
  refine ⟨?_, hroom, ?_, ?_, ?_, ?_⟩
  · exact covers_append.mpr ⟨_, hinv.covers, rfl, hpos, rfl⟩
  · dsimp only
    rw [if_neg (by simp)]
  · intro c hc
    rcases List.mem_append.mp hc with hc | hc
    · have hend := (hinv.covers.bounds hc).2
      have hle := (hinv.headers c hc).le
      unfold newHeader
      exact header_put (header_put (header_put (hinv.headers c hc) size (by omega)) 0 (by omega)) 0 (by omega)
    · rw [List.mem_singleton.mp hc]
      exact header_new s.heap.mem s.heap.brk hsmall
  · intro b hb
    rcases List.mem_cons.mp hb with rfl | hb
    · refine ⟨_, List.mem_append_right gs List.mem_cons_self, rfl, rfl, ?_⟩
      dsimp only
      omega
    · obtain ⟨c, hc, hrest⟩ := hinv.live b hb
      exact ⟨c, List.mem_append_left _ hc, hrest⟩
  · apply List.nodup_cons.mpr ⟨_, hinv.nodup⟩
    apply hinv.fresh_ptr
    intro c hc _ hptr
    have hend := (hinv.covers.bounds hc).2
    have hle := (hinv.headers c hc).le
    unfold blockSize at hle hptr
    omega

/-- A block in use becomes free. -/
theorem Inv.flagged (hinv : Inv l s (pre ++ g :: post)) (hptr : g.start + blockSize = p) :
    Inv l ⟨{ s.heap with mem := put 4 s.heap.mem (g.start + 8) 1 }, s.live.filter fun b => b.1 ≠ p⟩
      (pre ++ { g with free := true } :: post) := by
  obtain ⟨hcovers, hbound, hstart, hheaders, hlive, hnodup⟩ := hinv
  refine ⟨covers_flag hcovers true, hbound, ?_, ?_, ?_, ?_⟩
  · dsimp only
    rw [hstart, if_neg (by simp), if_neg (by simp)]
  · intro c hc
    rcases mem_middle hc with rfl | hc
    · exact header_flag (hheaders g (List.mem_append_right pre List.mem_cons_self)) true
    · exact headers_put hcovers hheaders (by omega) (by unfold blockSize; omega) hc
  · intro b hb
    obtain ⟨hmem, hne⟩ := List.mem_filter.mp hb
    obtain ⟨c, hc, hptr', hrest⟩ := hlive b hmem
    rcases mem_middle hc with rfl | hc
    · exact absurd (hptr'.symm.trans hptr) (of_decide_eq_true hne)
    · exact ⟨c, by simp [hc.elim Or.inl fun h => Or.inr (Or.inr h)], hptr', hrest⟩
  · exact hnodup.sublist ((List.filter_sublist).map _)

/-- A free block is joined with the free block behind it. -/
theorem Inv.joined {c : Seg} (hinv : Inv l s (pre ++ g :: c :: post)) (hg : g.free = true)
    (hc : c.free = true) :
    Inv l { s with heap := { s.heap with mem := put 4 s.heap.mem g.start (g.size + c.size - blockSize) } }
      (pre ++ ⟨g.start, g.size + c.size, true⟩ :: post) := by
  obtain ⟨hcovers, hbound, hstart, hheaders, hlive, hnodup⟩ := hinv
  obtain ⟨hpre, hpos, hnext, hpos', hpost⟩ := covers_middle.mp hcovers
  have hmem : g ∈ pre ++ g :: c :: post := List.mem_append_right pre List.mem_cons_self
  have hbehind : c ∈ pre ++ g :: c :: post := List.mem_append_right pre (by simp)
  have hheader := hheaders g hmem
  have hle := (hheaders c hbehind).le
  have hend := (hcovers.bounds hbehind).2
  have hlt := l.end_lt
  have hcovers' : Covers l.heapStart (pre ++ ⟨g.start, g.size + c.size, true⟩ :: post) s.heap.brk := by
    apply covers_middle.mpr
    refine ⟨hpre, Nat.add_pos_left hpos _, ?_⟩
    dsimp only
    rw [← Nat.add_assoc]
    exact hpost
  refine ⟨hcovers', hbound, ?_, ?_, ?_, hnodup⟩
  · dsimp only
    rw [hstart, if_neg (by simp), if_neg (by simp)]
  · intro e he
    rcases mem_middle he with rfl | he
    · have hsize : get 4 (put 4 s.heap.mem g.start (g.size + c.size - blockSize)) g.start
          = g.size + c.size - blockSize :=
        get_put_of_lt (by omega)
      have hflag : get 4 (put 4 s.heap.mem g.start (g.size + c.size - blockSize)) (g.start + 8) =
          get 4 s.heap.mem (g.start + 8) := get_put_of_disjoint (.inr (by omega))
      refine ⟨?_, ?_⟩
      · dsimp only
        rw [hsize]
        omega
      · dsimp only
        rw [hflag, hheader.free, hg]
    · exact headers_put hcovers hheaders le_rfl (by unfold blockSize; omega)
        (he.imp_right (List.mem_cons_of_mem c))
  · intro b hb
    obtain ⟨e, he, hptr, hused, hlarge⟩ := hlive b hb
    rcases mem_middle he with rfl | he
    · exact absurd (hused.symm.trans hg) (by decide)
    · rcases he with he | he
      · exact ⟨e, List.mem_append_left _ he, hptr, hused, hlarge⟩
      · rcases List.mem_cons.mp he with rfl | he
        · exact absurd (hused.symm.trans hc) (by decide)
        · exact ⟨e, List.mem_append_right pre (List.mem_cons_of_mem _ he), hptr, hused, hlarge⟩

theorem Inv.free (hinv : Inv l s gs) (hmem : (p, n) ∈ s.live) :
    ∃ gs', Inv l ⟨free l fresh s.heap p, s.live.filter fun b => b.1 ≠ p⟩ gs' := by
  obtain ⟨g, hg, hptr, -, -⟩ := hinv.live _ hmem
  obtain ⟨pre, post, rfl⟩ := List.append_of_mem hg
  dsimp only at hptr
  have hflagged := hinv.flagged hptr
  have hlt := hinv.brk_lt
  have hbounds := hinv.covers.bounds hg
  have hheader := (hinv.headers g hg).size
  have hbrk : s.heap.brk < word := hlt.trans (by decide)
  have hblock : wsub p blockSize = g.start := by
    rw [wsub_of_le (by omega) (by omega)]
    omega
  have hsize : get 4 (put 4 s.heap.mem (g.start + 8) 1) g.start = get 4 s.heap.mem g.start :=
    get_put_of_disjoint (.inl (by omega))
  have hbody : wadd g.start blockSize = g.start + blockSize := wadd_of_lt (by omega)
  have hnext : wadd (wadd g.start blockSize) (get 4 s.heap.mem g.start) = g.start + g.size := by
    rw [hbody, wadd_of_lt (by omega)]
    omega
  have hnull : p ≠ 0 := by
    rw [← hptr]
    unfold blockSize
    omega
  unfold free
  dsimp only
  rw [if_neg hnull, hblock, hsize, hnext,
    sbrk_zero (h := { s.heap with mem := put 4 s.heap.mem (g.start + 8) 1 }) hbrk]
  dsimp only
  cases post with
  | nil =>
      have hend : g.start + g.size = s.heap.brk := (covers_middle.mp hinv.covers).2.2
      rw [if_neg (by omega)]
      exact ⟨_, hflagged⟩
  | cons c post =>
      obtain ⟨-, -, hstart, hpos, hrest⟩ := covers_middle.mp hinv.covers
      have hbehind : g.start + g.size < s.heap.brk := by
        have hle := hrest.le
        omega
      have hheader' := hflagged.headers c (List.mem_append_right pre (by simp))
      have hiff := hheader'.free
      rw [hstart] at hiff
      by_cases hfree : c.free = true
      · rw [if_pos ⟨hbehind, hiff.mpr hfree⟩]
        have hjoined := hflagged.joined rfl hfree
        have hsize' := hheader'.size
        have hend := (hinv.covers.bounds
            (List.mem_append_right pre (List.mem_cons_of_mem g List.mem_cons_self))).2
        dsimp only at hjoined hsize'
        rw [hstart] at hsize' hend
        have hrest' : wadd blockSize
            (get 4 (put 4 s.heap.mem (g.start + 8) 1) (g.start + g.size)) = c.size := by
          rw [wadd_of_lt (by omega), Nat.add_comm]
          exact hsize'
        have hsum : wadd (get 4 s.heap.mem g.start) c.size = g.size + c.size - blockSize := by
          rw [wadd_of_lt (by omega)]
          omega
        rw [hrest', hsum]
        exact ⟨_, hjoined⟩
      · rw [if_neg fun h => hfree (hiff.mp h.2)]
        exact ⟨_, hflagged⟩

/-- A write into a live block leaves the headers. -/
theorem Inv.write (hinv : Inv l s gs) (hmem : (p, n) ∈ s.live) {a : ℕ} (hlow : p ≤ a)
    (hhigh : a < p + n) (b : Byte) :
    Inv l { s with heap := { s.heap with mem := Function.update s.heap.mem a b } } gs := by
  obtain ⟨g, hg, hptr, -, hlarge⟩ := hinv.live _ hmem
  obtain ⟨pre, post, rfl⟩ := List.append_of_mem hg
  refine ⟨hinv.covers, hinv.bound, hinv.start, ?_, hinv.live, hinv.nodup⟩
  intro c hc
  have hle := (hinv.headers c hc).le
  apply (hinv.headers c hc).congr
  intro i hlow' hhigh'
  apply Function.update_of_ne
  rcases mem_middle hc with rfl | hc
  · omega
  · have hapart := apart_of_covers hinv.covers hc
    omega

/-! ## Whole runs -/

/-- The payload of a live block, as its header has it. -/
def payload (s : State) (b : ℕ × ℕ) : ℕ := get 4 s.heap.mem (b.1 - blockSize)

/-- What holds in every state: the headers tile the heap, and live blocks are as large as was
asked for, lie apart and inside the heap. -/
structure Sound (l : Limits) (s : State) : Prop where
  tiled : s.heap.heapStart ≠ 0 → ∃ gs, Tiles s.heap gs ∧ ∀ b ∈ s.live, Holds gs b
  unused : s.heap.heapStart = 0 → s.live = []
  large : ∀ b ∈ s.live, b.2 ≤ payload s b
  apart : s.live.Pairwise fun b c => b.1 + payload s b ≤ c.1 ∨ c.1 + payload s c ≤ b.1
  inside : ∀ b ∈ s.live, s.heap.heapStart + blockSize ≤ b.1 ∧ b.1 + payload s b ≤ s.heap.brk

/-- The call returns, and returns `NULL` without a change when no block is free for the size and
the break cannot be raised. -/
def Answers (l : Limits) (fresh : Fresh) (s : State) : Event → Prop
  | .malloc n => (malloc l fresh s.heap n).isSome ∧
      (NoFit s.heap (rounded n) → l.heapEnd < s.heap.brk + (blockSize + rounded n) →
        malloc l fresh s.heap n = some (0, s.heap))
  | _ => True

theorem Inv.payload_eq (hinv : Inv l s gs) {b : ℕ × ℕ} (hb : b ∈ s.live) :
    ∃ g ∈ gs, g.free = false ∧ b.1 = g.start + blockSize ∧ payload s b + blockSize = g.size ∧
      b.2 + blockSize ≤ g.size := by
  obtain ⟨g, hg, hptr, hused, hlarge⟩ := hinv.live b hb
  have hheader := (hinv.headers g hg).size
  have hstart : b.1 - blockSize = g.start := by omega
  refine ⟨g, hg, hused, hptr.symm, ?_, hlarge⟩
  unfold payload
  rw [hstart]
  exact hheader

theorem Inv.sound (hinv : Inv l s gs) : Sound l s := by
  have hpos := l.start_pos
  have hstart := hinv.start
  refine ⟨?_, ?_, ?_, ?_, ?_⟩
  · intro hne
    have hgs : gs ≠ [] := fun h => hne (hstart.trans (if_pos h))
    exact ⟨gs, hinv.tiles hgs, hinv.live⟩
  · intro hnull
    have hgs : gs = [] := by
      by_contra h
      rw [if_neg h] at hstart
      omega
    apply List.eq_nil_iff_forall_not_mem.mpr
    intro b hb
    obtain ⟨g, hg, -⟩ := hinv.live b hb
    rw [hgs] at hg
    exact List.not_mem_nil hg
  · intro b hb
    obtain ⟨g, -, -, -, hsize, hlarge⟩ := hinv.payload_eq hb
    omega
  · have hne : s.live.Pairwise fun b c => b.1 ≠ c.1 := List.pairwise_map.mp hinv.nodup
    apply hne.imp_of_mem
    intro b c hb hc hbc
    obtain ⟨g, hg, -, hptr, hsize, -⟩ := hinv.payload_eq hb
    obtain ⟨e, he, -, hptr', hsize', -⟩ := hinv.payload_eq hc
    have hle := (hinv.headers g hg).le
    have hle' := (hinv.headers e he).le
    rcases hinv.covers.apart hg he with heq | hbefore | hbehind
    · exact absurd (by rw [hptr, hptr', heq]) hbc
    · exact .inl (by omega)
    · exact .inr (by omega)
  · intro b hb
    obtain ⟨g, hg, -, hptr, hsize, -⟩ := hinv.payload_eq hb
    have hbounds := hinv.covers.bounds hg
    have hgs : gs ≠ [] := List.ne_nil_of_mem hg
    rw [if_neg hgs] at hstart
    rw [hstart, hptr]
    omega

theorem Inv.answers (hinv : Inv l s gs) {e : Event} (hmeets : Meets l s e) : Answers l fresh s e := by
  cases e with
  | malloc n =>
      obtain ⟨p, h', hrun, hdone⟩ := @Inv.malloced l fresh gs n s hinv hmeets
      refine ⟨by rw [hrun]; rfl, ?_⟩
      intro hnofit hfull
      rw [hrun]
      cases hdone with
      | nothing => rfl
      | taken pre post g hgs hfree hsize =>
          have hmem : g ∈ gs := by
            rw [hgs]
            exact List.mem_append_right pre List.mem_cons_self
          have hsmall := hnofit gs (hinv.tiles (List.ne_nil_of_mem hmem)) g hmem hfree
          omega
      | added hroom => omega
  | free p => trivial
  | write a b => trivial

/-- A step that meets the condition. -/
theorem Inv.step (hinv : Inv l s gs) {e : Event} (hmeets : Meets l s e) (hstep : Step l fresh s e t) :
    ∃ gs', Inv l t gs' := by
  obtain ⟨heap', live'⟩ := t
  cases e with
  | malloc n =>
      obtain ⟨-, p, hrun, hlive⟩ := hstep
      obtain ⟨p', h', hrun', hdone⟩ := @Inv.malloced l fresh gs n s hinv hmeets
      obtain ⟨rfl, rfl⟩ := Prod.mk.inj (Option.some.inj (hrun'.symm.trans hrun))
      dsimp only at hlive
      rw [hlive]
      have hpos := l.start_pos
      have hlow := hinv.covers.le
      cases hdone with
      | nothing => exact ⟨gs, hinv⟩
      | taken pre post g hgs hfree hsize =>
          rw [hgs] at hinv
          have hle := le_rounded n
          rw [if_neg (Nat.add_pos_right _ (by decide : 0 < blockSize)).ne']
          exact ⟨_, hinv.taken hfree (by omega)⟩
      | added hroom =>
          rw [if_neg (Nat.add_pos_right _ (by decide : 0 < blockSize)).ne']
          exact ⟨_, hinv.added (le_rounded n) hroom⟩
  | free p =>
      obtain ⟨⟨n, hmem⟩, hheap, hlive⟩ := hstep
      dsimp only at hheap hlive
      rw [hheap, hlive]
      exact hinv.free hmem
  | write a b =>
      obtain ⟨⟨p, n, hmem, hlow, hhigh⟩, hstate⟩ := hstep
      rw [hstate]
      exact ⟨gs, hinv.write hmem hlow hhigh b⟩

theorem boot_inv (l : Limits) (mem : Bytes) : Inv l (boot l mem) [] :=
  ⟨rfl, l.start_lt.le, rfl, fun _ h => absurd h List.not_mem_nil,
    fun _ h => absurd h List.not_mem_nil, List.nodup_nil⟩

/-- A run in which each size fits an `int` with its header, or is answered with `NULL`, keeps the
heap sound. -/
theorem heap_sound {l : Limits} {fresh : Fresh} {mem : Bytes} {tr : List (State × Event)} {u : State}
    (hrun : Trace (Step l fresh) (boot l mem) tr u) (hmeets : ∀ x ∈ tr, Meets l x.1 x.2) :
    Throughout (Sound l) tr u ∧ ∀ x ∈ tr, Answers l fresh x.1 x.2 := by
  have hstep (s : State) (e : Event) (t : State) (hinv : ∃ gs, Inv l s gs) (hmeets : Meets l s e)
      (hst : Step l fresh s e t) : (∃ gs, Inv l t gs) ∧ Answers l fresh s e := by
    obtain ⟨gs, hinv⟩ := hinv
    exact ⟨hinv.step hmeets hst, hinv.answers hmeets⟩
  obtain ⟨⟨hstates, hlast⟩, hanswers⟩ := hrun.throughout_and_of hstep ⟨[], boot_inv l mem⟩ hmeets
  refine ⟨⟨?_, ?_⟩, hanswers⟩
  · intro x hx
    obtain ⟨gs, hinv⟩ := hstates x hx
    exact hinv.sound
  · obtain ⟨gs, hinv⟩ := hlast
    exact hinv.sound

/-- A heap of eight pages. -/
def smallLimits : Limits := ⟨0x8000, 0x10000, by decide, by decide, by decide, by decide⟩

/-- A block of eight bytes. -/
theorem heap_sound_eight : ∃ u, Trace (Step smallLimits fun _ => 0) (boot smallLimits fun _ => 0)
    [(boot smallLimits fun _ => 0, .malloc 8)] u ∧ Sound smallLimits u := by
  have hmeets : Meets smallLimits (boot smallLimits fun _ => 0) (.malloc 8) := .inl (by decide)
  obtain ⟨p, h', hrun, -⟩ := @Inv.malloced smallLimits (fun _ => 0) [] 8 _
      (boot_inv smallLimits fun _ => 0) hmeets
  have hstep : Step smallLimits (fun _ => 0) (boot smallLimits fun _ => 0) (.malloc 8)
      ⟨h', if p = 0 then [] else [(p, 8)]⟩ := ⟨by decide, p, hrun, rfl⟩
  have htrace := Trace.single hstep
  refine ⟨_, htrace, (heap_sound htrace ?_).1.2⟩
  intro x hx
  rw [List.mem_singleton.mp hx]
  exact hmeets

/-- A request of all bytes but one is rounded to nothing, and gets a block of no bytes. -/
theorem not_heap_sound : ¬∀ tr u, Trace (Step smallLimits fun _ => 0) (boot smallLimits fun _ => 0) tr u →
    Throughout (Sound smallLimits) tr u := by
  intro hsound
  have hrequest : requestSpace smallLimits (fun _ => 0) (boot smallLimits fun _ => 0).heap 0 =
      (0x8000, ⟨newHeader (fun _ => 0) 0x8000 0, 0x800c, 0⟩) :=
    requestSpace_raised (by decide) (by decide) (by decide)
  have halign : align (2 ^ 32 - 1) 4 = 0 := by decide
  have hmalloc : malloc smallLimits (fun _ => 0) (boot smallLimits fun _ => 0).heap (2 ^ 32 - 1) =
      some (0x800c, ⟨newHeader (fun _ => 0) 0x8000 0, 0x800c, 0x8000⟩) := by
    unfold malloc
    dsimp only
    have hfirst : (boot smallLimits fun _ => 0).heap.heapStart = 0 := rfl
    rw [if_neg (by decide), halign, if_pos hfirst, hrequest]
    rfl
  have hstep : Step smallLimits (fun _ => 0) (boot smallLimits fun _ => 0) (.malloc (2 ^ 32 - 1))
      ⟨⟨newHeader (fun _ => 0) 0x8000 0, 0x800c, 0x8000⟩, [(0x800c, 2 ^ 32 - 1)]⟩ :=
        ⟨by decide, 0x800c, hmalloc, rfl⟩
  have hlarge := (hsound _ _ (Trace.single hstep)).2.large _ List.mem_cons_self
  have hheader : get 4 (newHeader (fun _ => 0) 0x8000 0) 0x8000 + blockSize = blockSize + 0 :=
    (header_new (fun _ => 0) 0x8000 (by decide)).size
  unfold payload at hlarge
  have hsize : get 4 (newHeader (fun _ => 0) 0x8000 0) 0x8000 = 0 := by omega
  have hzero : 2 ^ 32 - 1 ≤ 0 := hsize ▸ hlarge
  exact absurd hzero (by decide)

end Ferrite.User
