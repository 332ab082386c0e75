import Mathlib
import Ferrite.Memory.BuddyInit
import Ferrite.Memory.Pmm

/-!
# The memory of the boot allocators

`memblock_init` takes the end of memory from the length of the page bitmap, a whole
number of bytes of it. `memblock` hands out pages up to there, and `buddy_init` manages
what is left up to there.

`vmm_init_pages` asks for single pages only, and aborts when it does not get one. So the
boot is a number of requests for a page, and `buddy_init`.
-/
namespace Ferrite.Memory
open BuddyAllocator Packed Word

/-- The loop of `pmm_get_first_addr` over the bits of a byte. -/
def firstClearBit (byte : Byte) : ℕ → ℕ → Option ℕ
  | 0, _ => none
  | n + 1, bit => if byte.getLsbD bit then firstClearBit byte n (bit + 1) else some bit

/-- The loop of `pmm_get_first_addr` over the bytes. -/
def firstAddrLoop (bitmap : Bytes) : ℕ → ℕ → ℕ
  | 0, _ => 0
  | n + 1, i =>
      if bitmap i = 0xFF then firstAddrLoop bitmap n (i + 1)
      else
        match firstClearBit (bitmap i) 8 0 with
        | some bit => (i * 8 + bit) * pageSize % word
        | none => firstAddrLoop bitmap n (i + 1)

def pmmGetFirstAddr (s : Pmm) : ℕ := firstAddrLoop s.bitmap s.bitmapSize 0

/-- `memblock_init`. With a heap end that has wrapped to zero no page is ever handed out,
and the boot ends. -/
def memblockInit (s : Pmm) : Option Memblock :=
  if h : pmmGetFirstAddr s ≤ s.bitmapSize * pageSize * 8 % word then
    some ⟨pmmGetFirstAddr s, s.bitmapSize * pageSize * 8 % word, h, Nat.mod_lt _ (by decide),
      (Nat.dvd_mod_iff (show pageSize ∣ word by decide)).mpr (Dvd.dvd.mul_right (Dvd.intro_left _ rfl) 8)⟩
  else none

/-- Requests for a page each, with the ranges that they get. -/
def pageRequests : ℕ → Memblock → Option (List (ℕ × ℕ) × Memblock)
  | 0, m => some ([], m)
  | n + 1, m =>
      let r := memblock m pageSize
      if r.1 = 0 then none else (pageRequests n r.2).map fun x => ((r.1, pageSize) :: x.1, x.2)

/-- The range that `buddy_init` gets for its bitmap. A request for no bytes gets none. -/
def mapRange (m : Memblock) : List (ℕ × ℕ) :=
  if bitmapSize m = 0 then [] else [((memblock m (bitmapSize m)).1, bitmapSize m)]

/-- `memblock` as it was set up, the ranges that it handed out, and the allocator. -/
structure Boot where
  memblock : Memblock
  ranges : List (ℕ × ℕ)
  buddy : BuddyAllocator

def boot (fuel pmmBitmap : ℕ) (entries : List MmapEntry) (bitmap : Bytes) (n : ℕ) (next : ℕ → ℕ) :
    Option Boot := do
  let s ← pmmInitFromMap fuel pmmBitmap entries bitmap
  let m ← memblockInit s
  let r ← pageRequests n m
  let b ← buddyInit r.2 next
  return ⟨m, r.1 ++ mapRange r.2, b.1⟩

/-- From an address up to the end of memory there is one available region. -/
structure OneRegion (entries : List MmapEntry) (e : MmapEntry) (firstAddr : ℕ) : Prop where
  mem : e ∈ entries
  available : e.type = multibootMemoryAvailable
  start : e.addr ≤ firstAddr
  nonempty : firstAddr < e.addr + e.len
  last : ∀ e' ∈ entries, e'.type = multibootMemoryAvailable → e'.addr + e'.len ≤ e.addr + e.len

/-- Everything that was handed out, and every page that the allocator manages, lies in
the region. -/
structure InsideRegion (e : MmapEntry) (t : Boot) : Prop where
  ranges : ∀ r ∈ t.ranges, e.addr ≤ r.1 ∧ r.1 + r.2 ≤ e.addr + e.len
  pool : ∀ i, i * pageSize < t.buddy.size → e.addr ≤ v2p (wadd t.buddy.base (i * pageSize)) ∧
    v2p (wadd t.buddy.base (i * pageSize)) + pageSize ≤ e.addr + e.len

/-- Where `buddy_init` starts when no page is left for its bitmap: it then takes the null
address for the bitmap, and the whole direct map behind it for the pool. -/
def nullPoolStart (heapEnd : ℕ) : ℕ := if heapEnd < 2 ^ 31 then 0 else 2 ^ 30

variable {m m₁ m₂ : Memblock} {n : ℕ} {ranges : List (ℕ × ℕ)} {b : BuddyAllocator}
  {next : ℕ → ℕ} {e : MmapEntry}
  {entries : List MmapEntry} {fuel pmmBitmap : ℕ} {bitmap : Bytes} {t : Boot} {s : Pmm}

/-! ## The requests -/

theorem firstAddrLoop_dvd (bitmap : Bytes) (n i : ℕ) : pageSize ∣ firstAddrLoop bitmap n i := by
  induction n generalizing i with
  | zero => exact dvd_zero _
  | succ n ih =>
      unfold firstAddrLoop
      split_ifs
      · exact ih _
      · split
        · exact (Nat.dvd_mod_iff (show pageSize ∣ word by decide)).mpr (Dvd.intro_left _ rfl)
        · exact ih _

theorem memblockInit_eq (h : memblockInit s = some m) : m.nextFree = pmmGetFirstAddr s ∧ pageSize ∣ m.nextFree ∧
    8 * pageSize ∣ m.heapEnd ∧ m.heapEnd = s.bitmapSize * pageSize * 8 % word := by
  unfold memblockInit at h
  split_ifs at h
  cases h
  have hdvd : 8 * pageSize ∣ s.bitmapSize * pageSize * 8 := Dvd.intro_left s.bitmapSize
      (by rw [Nat.mul_assoc, Nat.mul_comm 8])
  exact ⟨rfl, firstAddrLoop_dvd _ _ _, (Nat.dvd_mod_iff (show 8 * pageSize ∣ word by decide)).mpr hdvd, rfl⟩

theorem pageRequests_spec (h : pageRequests n m = some (ranges, m₁)) (hdvd : pageSize ∣ m.nextFree)
    (hend : 8 * pageSize ∣ m.heapEnd) : m₁.nextFree = m.nextFree + n * pageSize ∧ m₁.heapEnd = m.heapEnd ∧
      ∀ r ∈ ranges, m.nextFree ≤ r.1 ∧ r.1 + r.2 ≤ m₁.nextFree := by
  induction n generalizing m ranges with
  | zero =>
      cases h
      refine ⟨by rw [Nat.zero_mul, Nat.add_zero], rfl, fun r hr => ?_⟩
      cases hr
  | succ n ih =>
      have hpage := memblock_page hdvd hend
      unfold pageRequests at h
      generalize memblock m pageSize = r at h hpage
      dsimp only at h
      split_ifs at h with ha
      obtain ⟨haddr, -, hnext, hend'⟩ := hpage ha
      obtain ⟨⟨rest, m₂⟩, hrest, heq⟩ := Option.map_eq_some_iff.mp h
      cases heq
      obtain ⟨hnext', hend'', hin⟩ := ih hrest (by rw [hnext]; exact Nat.dvd_add hdvd dvd_rfl)
          (by rw [hend']; exact hend)
      rw [hnext] at hnext' hin
      refine ⟨?_, hend''.trans hend', fun r hmem => ?_⟩
      · rw [hnext', Nat.add_one_mul, Nat.add_assoc, Nat.add_comm pageSize]
      · rcases List.mem_cons.mp hmem with rfl | hmem
        · dsimp only
          rw [haddr]
          exact ⟨le_rfl, by rw [hnext']; exact Nat.le_add_right _ _⟩
        · obtain ⟨hlo, hhi⟩ := hin r hmem
          exact ⟨(Nat.le_add_right _ _).trans hlo, hhi⟩

/-! ## The pool -/

/-- The pool starts behind the bitmap and ends where the memory does. -/
theorem pool_bounds (hb : buddyInit m next = some (b, m₁)) :
    bitmapEnd m ≤ v2p b.base ∧ v2p b.base + b.size = m.heapEnd ∧ pageSize ≤ b.size ∧ pageSize ∣ b.size := by
  obtain ⟨t, top, base, size, hbase, hsize, ht, htop, hcarve⟩ := buddyInit_eq_some hb
  obtain ⟨hbb, hbs, -⟩ := carveLoop_frame hcarve
  have hle := (bitmapEnd_spec m).1
  have hlt := m.lt
  have hw : word = 2 ^ 32 := rfl
  obtain ⟨q, hq⟩ := m.dvd
  -- The addresses of the direct map, or those and 4 GiB less.
  have hshift : ∃ v e, v ≤ word ∧ p2v (bitmapEnd m) = v % word ∧ p2v m.heapEnd = e % word ∧
      (v = bitmapEnd m + kernBase ∧ e = m.heapEnd + kernBase ∨ v + 2 ^ 30 = bitmapEnd m ∧
        e + 2 ^ 30 = m.heapEnd) := by
    unfold p2v wadd kernBase word
    unfold word at hlt
    by_cases hlow : bitmapEnd m ≤ 2 ^ 30
    · exact ⟨bitmapEnd m + 0xC0000000, m.heapEnd + 0xC0000000, by omega, rfl, rfl, .inl ⟨rfl, rfl⟩⟩
    · exact ⟨bitmapEnd m - 2 ^ 30, m.heapEnd - 2 ^ 30, by omega, by omega, by omega, .inr ⟨by omega, by omega⟩⟩
  obtain ⟨v, e, hv, hpv, hpe, hreg⟩ := hshift
  have hsub (x : ℕ) (hx : v ≤ x) (hxe : x ≤ e) : wsub (e % word) (x % word) = e - x := by
    unfold wsub word
    unfold word at hlt hv
    unfold kernBase at hreg
    omega
  have hepage : ∃ c, e = 2 ^ 12 * c := by
    unfold pageSize at hq
    unfold kernBase at hreg
    exact ⟨e / 2 ^ 12, by omega⟩
  obtain ⟨c, hc⟩ := hepage
  have hve : v ≤ e := by omega
  have hrange : e - v < word := by omega
  obtain ⟨c₁, hT, hT₁, -, hT₃⟩ := align_mod (k := 12) hv (by omega)
  have hTe : 2 ^ 12 * c₁ ≤ e := by omega
  rw [hpv, hpe, show pageSize = 2 ^ 12 from rfl, hT, hsub _ hT₁ hTe] at ht
  obtain ⟨hlo, -⟩ := floorLog2_eq_some ht
  have hpow : 2 ^ (12 + t) = 2 ^ 12 * 2 ^ t := pow_add 2 12 t
  have hfit : v + 2 ^ (12 + t) ≤ e := by
    have hmul : 2 ^ 12 * 2 ^ t ≤ e - 2 ^ 12 * c₁ := (Nat.mul_le_mul_left _ hlo).trans (Nat.mul_div_le _ _)
    omega
  have ht20 : 12 + t ≤ 32 := by
    have h32 : 2 ^ (12 + t) ≤ 2 ^ 32 := by omega
    exact (Nat.pow_le_pow_iff_right (by omega)).mp h32
  obtain ⟨c₂, hB, hB₁, hB₂, hB₃⟩ := align_mod hv ht20
  have hBe : 2 ^ (12 + t) * c₂ ≤ e := by omega
  rw [hpv, blockSize_eq, hB] at hbase
  rw [hpe, hbase, hsub _ hB₁ hBe] at hsize
  have hphys : v2p base = 2 ^ (12 + t) * c₂ + m.heapEnd - e := by
    rw [hbase]
    generalize 2 ^ (12 + t) * c₂ = B at hB₁ hB₂ hBe
    unfold v2p wsub kernBase word
    unfold word at hlt hv hB₂
    unfold kernBase at hreg
    omega
  have hpos : pageSize ≤ size := by
    have hdiv := (Nat.two_pow_pos top).trans_le (floorLog2_eq_some htop).1
    exact (Nat.div_pos_iff.mp hdiv).2
  rw [hbb, hbs]
  dsimp only [blank]
  refine ⟨?_, ?_, hpos, ?_⟩
  · rw [hphys]
    omega
  · rw [hphys, hsize]
    omega
  · rw [hsize, hc, hpow, Nat.mul_assoc]
    exact Nat.dvd_sub (Dvd.intro _ rfl) (Dvd.intro _ rfl)

theorem bitmapSize_eq_zero : bitmapSize m = 0 ↔ m.heapEnd < m.nextFree + pageSize := by
  have hle := m.le
  rw [bitmapSize_eq]
  unfold pageSize
  omega

theorem bitmapEnd_of_pos (h : bitmapSize m ≠ 0) : (memblock m (bitmapSize m)).1 = m.nextFree ∧
    bitmapEnd m = m.nextFree + bitmapSize m ∧ m.nextFree + bitmapSize m ≤ m.heapEnd := by
  have hle := m.le
  have hlt := m.lt
  have hfits : m.nextFree + bitmapSize m ≤ m.heapEnd := by
    have hpos : ¬ m.heapEnd < m.nextFree + pageSize := fun hlt => h (bitmapSize_eq_zero.mpr hlt)
    rw [bitmapSize_eq]
    unfold pageSize at *
    omega
  have hwrap : wadd m.nextFree (bitmapSize m) = m.nextFree + bitmapSize m := wadd_of_lt (by omega)
  have hstart : (memblock m (bitmapSize m)).1 = m.nextFree := by
    unfold memblock
    rw [if_neg h, dif_pos (by rw [hwrap]; exact hfits)]
  refine ⟨hstart, ?_, hfits⟩
  unfold bitmapEnd
  rw [hstart, hwrap]

theorem mapRange_inside {r : ℕ × ℕ} (h : r ∈ mapRange m) : m.nextFree ≤ r.1 ∧ r.1 + r.2 ≤ m.heapEnd := by
  unfold mapRange at h
  by_cases hzero : bitmapSize m = 0
  · rw [if_pos hzero] at h
    exact absurd h List.not_mem_nil
  · rw [if_neg hzero, List.mem_singleton] at h
    obtain ⟨hmap, -, hfits⟩ := bitmapEnd_of_pos hzero
    generalize bitmapSize m = n at h hmap hfits
    rw [hmap] at h
    cases h
    exact ⟨le_rfl, hfits⟩

/-- Without a page for the bitmap the pool starts at the null address. -/
theorem null_pool (hb : buddyInit m next = some (b, m₁)) (h : bitmapSize m = 0) :
    v2p b.base = nullPoolStart m.heapEnd := by
  obtain ⟨t, top, base, size, hbase, -, ht, -, hcarve⟩ := buddyInit_eq_some hb
  obtain ⟨hbb, -⟩ := carveLoop_frame hcarve
  have hlt := m.lt
  have hzero : bitmapEnd m = 0 := by
    unfold bitmapEnd
    rw [h]
    rfl
  have hend : wsub (p2v m.heapEnd) (align (p2v 0) pageSize) = m.heapEnd := by
    rw [show align (p2v 0) pageSize = kernBase from by decide]
    exact v2p_p2v hlt
  rw [hzero, hend] at ht
  obtain ⟨hlo, hhi⟩ := floorLog2_eq_some ht
  have ht19 : t ≤ 19 := by
    have h20 : 2 ^ t < 2 ^ 20 := by
      unfold pageSize word at *
      omega
    have := (Nat.pow_lt_pow_iff_right (by omega)).mp h20
    omega
  rw [hbb, hbase, hzero]
  dsimp only [blank]
  unfold nullPoolStart
  unfold pageSize at hlo hhi
  by_cases hlow : m.heapEnd < 2 ^ 31
  · have ht18 : t ≤ 18 := by
      have h19 : 2 ^ t < 2 ^ 19 := by omega
      have := (Nat.pow_lt_pow_iff_right (by omega)).mp h19
      omega
    have hall : ∀ t ≤ 18, v2p (align (p2v 0) (blockSize t)) = 0 := by decide
    rw [if_pos hlow]
    exact hall t ht18
  · have ht19' : t = 19 := by
      have h20 : 2 ^ 19 < 2 ^ (t + 1) := by omega
      have := (Nat.pow_lt_pow_iff_right (by omega)).mp h20
      omega
    rw [if_neg hlow, ht19']
    decide

/-! ## The end of memory -/

theorem getTotalMemory_le {bound total : ℕ} (htotal : total ≤ bound)
    (h : ∀ e ∈ entries, e.type = multibootMemoryAvailable → wadd e.addrLow e.lenLow ≤ bound) :
    getTotalMemory entries total ≤ bound := by
  induction entries generalizing total with
  | nil => exact htotal
  | cons e entries ih =>
      have hrest : ∀ e ∈ entries, e.type = multibootMemoryAvailable → wadd e.addrLow e.lenLow ≤ bound :=
        fun e' he' => h e' (List.mem_cons_of_mem e he')
      unfold getTotalMemory
      dsimp only
      split_ifs with htype
      · exact ih (h e List.mem_cons_self htype) hrest
      · exact ih htotal hrest
      · exact ih htotal hrest

/-- A region that ends below 4 GiB ends where its low halves say. -/
theorem wadd_low (h : e.addr + e.len < word) : wadd e.addrLow e.lenLow = e.addr + e.len := by
  unfold MmapEntry.addr MmapEntry.len wadd word at *
  omega

theorem OneRegion.total {first : ℕ} (h : OneRegion entries e first) (hend : e.addr + e.len < word) :
    getTotalMemory entries 0 = e.addr + e.len := by
  apply le_antisymm
  · apply getTotalMemory_le (Nat.zero_le _)
    intro e' he' htype
    have hle := h.last e' he' htype
    rw [wadd_low (by omega)]
    exact hle
  · rw [← wadd_low hend]
    exact blockEnd_le h.mem h.available 0

/-- The end of memory for the allocators is not behind the region. -/
theorem OneRegion.heapEnd_le_iff {first heapEnd : ℕ} (h : OneRegion entries e first)
    (hheap : heapEnd = pmmBitmapSize entries * pageSize * 8 % word) (hpos : heapEnd ≠ 0) :
    heapEnd ≤ e.addr + e.len ↔ word ≤ e.addr + e.len ∨ (e.addr + e.len) / pageSize % 8 = 0 := by
  by_cases hend : e.addr + e.len < word
  · unfold pmmBitmapSize at hheap
    rw [h.total hend] at hheap
    generalize e.addr + e.len = E at *
    unfold ceilDiv pageSize word at *
    omega
  · have hlt : heapEnd < word := hheap ▸ Nat.mod_lt _ (by decide)
    exact iff_of_true (by omega) (.inl (by omega))

/-! ## The whole boot -/

/-- What a completed boot went through. -/
theorem boot_eq_some (h : boot fuel pmmBitmap entries bitmap n next = some t) :
    ∃ ranges m₁ m₂, pageSize ∣ t.memblock.nextFree ∧ 8 * pageSize ∣ t.memblock.heapEnd ∧
      t.memblock.heapEnd = pmmBitmapSize entries * pageSize * 8 % word ∧
      pageRequests n t.memblock = some (ranges, m₁) ∧ buddyInit m₁ next = some (t.buddy, m₂) ∧
      t.ranges = ranges ++ mapRange m₁ := by
  unfold boot at h
  obtain ⟨s, hs, h⟩ := Option.bind_eq_some_iff.mp h
  obtain ⟨m, hm, h⟩ := Option.bind_eq_some_iff.mp h
  obtain ⟨⟨ranges, m₁⟩, hr, h⟩ := Option.bind_eq_some_iff.mp h
  obtain ⟨⟨b, m₂⟩, hb, h⟩ := Option.bind_eq_some_iff.mp h
  cases h
  have hsize : s.bitmapSize = pmmBitmapSize entries := by
    obtain ⟨bits, -, hs⟩ := Option.bind_eq_some_iff.mp hs
    cases hs
    rfl
  obtain ⟨-, hdvd, hend, hheap⟩ := memblockInit_eq hm
  rw [hsize] at hheap
  exact ⟨ranges, m₁, m₂, hdvd, hend, hheap, hr, hb, rfl⟩

/-- A page of the pool and its physical address. -/
theorem pool_page {base i size heapEnd : ℕ} (hend : v2p base + size = heapEnd) (hlt : heapEnd < word)
    (hi : i * pageSize < size) : v2p (wadd base (i * pageSize)) = v2p base + i * pageSize := by
  generalize i * pageSize = x at *
  unfold v2p wadd wsub kernBase word at *
  omega

theorem InsideRegion.of_boot (h : boot fuel pmmBitmap entries bitmap n next = some t)
    (hone : OneRegion entries e t.memblock.nextFree) (hend : t.memblock.heapEnd ≤ e.addr + e.len)
    (hrest : t.memblock.nextFree + n * pageSize < t.memblock.heapEnd ∨
    e.addr ≤ nullPoolStart t.memblock.heapEnd) :
    InsideRegion e t := by
  obtain ⟨ranges, m₁, m₂, hdvd, hdvd', -, hr, hb, hranges⟩ := boot_eq_some h
  obtain ⟨hnext, hheap, hin⟩ := pageRequests_spec hr hdvd hdvd'
  obtain ⟨hlo, hhi, -, hpages⟩ := pool_bounds hb
  have hlt := m₁.lt
  have hle := m₁.le
  have hstart := hone.start
  have hfirst : e.addr ≤ m₁.nextFree := by
    rw [hnext]
    exact hstart.trans (Nat.le_add_right _ _)
  rw [← hheap] at hend hrest
  constructor
  · intro r hmem
    rw [hranges, List.mem_append] at hmem
    rcases hmem with hmem | hmem
    · obtain ⟨h₁, h₂⟩ := hin r hmem
      exact ⟨hstart.trans h₁, (h₂.trans hle).trans hend⟩
    · obtain ⟨h₁, h₂⟩ := mapRange_inside hmem
      exact ⟨hfirst.trans h₁, h₂.trans hend⟩
  · have hbase : e.addr ≤ v2p t.buddy.base := by
      by_cases hzero : bitmapSize m₁ = 0
      · rw [null_pool hb hzero]
        refine hrest.resolve_left fun hmore => ?_
        rw [← hnext] at hmore
        have hnone := bitmapSize_eq_zero.mp hzero
        have hdvd₁ : pageSize ∣ m₁.nextFree := by
          rw [hnext]
          exact Nat.dvd_add hdvd (Dvd.intro_left _ rfl)
        obtain ⟨c, hc⟩ := hdvd₁
        obtain ⟨d, hd⟩ := m₁.dvd
        unfold pageSize at hc hd hnone
        omega
      · obtain ⟨-, hmapEnd, -⟩ := bitmapEnd_of_pos hzero
        rw [hmapEnd] at hlo
        exact hfirst.trans ((Nat.le_add_right _ _).trans hlo)
    intro i hi
    rw [pool_page hhi hlt hi]
    have hfit : (i + 1) * pageSize ≤ t.buddy.size := by
      obtain ⟨c, hc⟩ := hpages
      rw [hc, Nat.mul_comm pageSize] at hi ⊢
      exact Nat.mul_le_mul_right _ (Nat.lt_of_mul_lt_mul_right hi)
    rw [Nat.add_one_mul] at hfit
    exact ⟨hbase.trans (Nat.le_add_right _ _), by omega⟩

theorem InsideRegion.heapEnd_le (hin : InsideRegion e t)
    (h : boot fuel pmmBitmap entries bitmap n next = some t) :
    t.memblock.heapEnd ≤ e.addr + e.len := by
  obtain ⟨ranges, m₁, m₂, hdvd, hdvd', -, hr, hb, -⟩ := boot_eq_some h
  obtain ⟨-, hheap, -⟩ := pageRequests_spec hr hdvd hdvd'
  obtain ⟨-, hend, hpage, c, hc⟩ := pool_bounds hb
  have hlast : (c - 1) * pageSize + pageSize = t.buddy.size := by
    have hpos : 0 < c := Nat.pos_of_mul_pos_left (hc ▸ pageSize_pos.trans_le hpage)
    rw [← Nat.add_one_mul, Nat.sub_add_cancel hpos, hc, Nat.mul_comm]
  have hpos := pageSize_pos
  have hlt : (c - 1) * pageSize < t.buddy.size := by omega
  obtain ⟨-, hfit⟩ := hin.pool (c - 1) hlt
  rw [pool_page hend m₁.lt hlt] at hfit
  omega

theorem InsideRegion.start_le (hin : InsideRegion e t)
    (h : boot fuel pmmBitmap entries bitmap n next = some t) :
    t.memblock.nextFree + n * pageSize < t.memblock.heapEnd ∨ e.addr ≤ nullPoolStart t.memblock.heapEnd := by
  obtain ⟨ranges, m₁, m₂, hdvd, hdvd', -, hr, hb, -⟩ := boot_eq_some h
  obtain ⟨hnext, hheap, -⟩ := pageRequests_spec hr hdvd hdvd'
  obtain ⟨-, hend, hpage, -⟩ := pool_bounds hb
  have hpos := pageSize_pos
  by_cases hzero : bitmapSize m₁ = 0
  · have hlt : 0 * pageSize < t.buddy.size := by omega
    obtain ⟨hstart, -⟩ := hin.pool 0 hlt
    rw [pool_page hend m₁.lt hlt, Nat.zero_mul, Nat.add_zero, null_pool hb hzero, hheap] at hstart
    exact .inr hstart
  · have hmore : ¬ m₁.heapEnd < m₁.nextFree + pageSize := fun hlt => hzero (bitmapSize_eq_zero.mpr hlt)
    rw [hnext, hheap] at hmore
    exact .inl (by omega)

/-- The allocators stay inside the region exactly when it ends on a whole byte of the
bitmap and the requests leave a page for `buddy_init`. -/
theorem boot_inside_iff (h : boot fuel pmmBitmap entries bitmap n next = some t)
    (hone : OneRegion entries e t.memblock.nextFree) : InsideRegion e t ↔
      (word ≤ e.addr + e.len ∨ (e.addr + e.len) / pageSize % 8 = 0) ∧
        (t.memblock.nextFree + n * pageSize < t.memblock.heapEnd ∨
          e.addr ≤ nullPoolStart t.memblock.heapEnd) := by
  obtain ⟨ranges, m₁, m₂, hdvd, hdvd', hheap, hr, hb, -⟩ := boot_eq_some h
  obtain ⟨-, hend, hpage, -⟩ := pool_bounds hb
  have hpos : t.memblock.heapEnd ≠ 0 := by
    have hsize := pageSize_pos
    rw [← (pageRequests_spec hr hdvd hdvd').2.1]
    omega
  rw [← hone.heapEnd_le_iff hheap hpos]
  constructor
  · intro hin
    exact ⟨hin.heapEnd_le h, hin.start_le h⟩
  · rintro ⟨hle, hrest⟩
    exact .of_boot h hone hle hrest

/-- Memory from zero on that ends at `end`. -/
def tinyRegion (len : ℕ) (h : len < word) : MmapEntry := ⟨0, 0, len, 0, 1, word_pos, word_pos, h, word_pos⟩

theorem boot_inside_iff_tiny : ∃ t, boot 33 0xC0001000 [tinyRegion 0x20000 (by decide)] (fun _ => 0) 3
    (fun _ => 0) = some t ∧
    InsideRegion (tinyRegion 0x20000 (by decide)) t := by
  have hboot : ((boot 33 0xC0001000 [tinyRegion 0x20000 (by decide)] (fun _ => 0) 3 (fun _ => 0)).any fun t =>
      t.memblock.nextFree = 0x2000 ∧ t.memblock.heapEnd = 0x20000) = true := by
    decide
  obtain ⟨t, ht, hmem⟩ := (Option.any_eq_true _ _).mp hboot
  obtain ⟨hnext, hheap⟩ := of_decide_eq_true hmem
  refine ⟨t, ht, (boot_inside_iff ht ⟨List.mem_singleton_self _, rfl, ?_, ?_, ?_⟩).mpr
    ⟨.inr (by decide), .inr ?_⟩⟩
  · exact Nat.zero_le _
  · rw [hnext]
    decide
  · intro e' he' _
    rw [List.mem_singleton.mp he']
  · exact Nat.zero_le _

/-- With one page less, the pool ends behind the memory. -/
theorem not_boot_inside : ¬ ∀ (fuel pmmBitmap : ℕ) (entries : List MmapEntry) (bitmap : Bytes) (n : ℕ)
    (next : ℕ → ℕ) (t : Boot)
    (e : MmapEntry), boot fuel pmmBitmap entries bitmap n next = some t →
    OneRegion entries e t.memblock.nextFree →
      InsideRegion e t := by
  intro hclaim
  have hboot : ((boot 33 0xC0001000 [tinyRegion 0x1F000 (by decide)] (fun _ => 0) 3 (fun _ => 0)).any fun t =>
      t.memblock.nextFree = 0x2000 ∧ t.memblock.heapEnd = 0x20000) = true := by
    decide
  obtain ⟨t, ht, hmem⟩ := (Option.any_eq_true _ _).mp hboot
  obtain ⟨hnext, hheap⟩ := of_decide_eq_true hmem
  have hin := hclaim _ _ _ _ _ _ t
      (tinyRegion 0x1F000 (by decide)) ht ⟨List.mem_singleton_self _, rfl, Nat.zero_le _,
    by rw [hnext]; decide, fun e' he' _ => by rw [List.mem_singleton.mp he']⟩
  have hle := hin.heapEnd_le ht
  rw [hheap] at hle
  revert hle
  decide

end Ferrite.Memory
