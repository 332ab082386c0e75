import Ferrite.Library.Packed
import Ferrite.Memory.Memblock

/-!
# The page bitmap

`pmm_init_from_map` sizes the bitmap by the largest end of an available region, marks
every page as taken, and steps through the available regions to clear the bits of their
pages. It reads the low halves of the addresses and lengths only, and steps in `u32`.

`pmm_bitmap` is the last symbol of the kernel, so what lies behind `pmm_bitmap_size`
bytes of it is other memory. A loop that does not end has no result.
-/
namespace Ferrite.Memory
open Packed Word

/-- `multiboot_mmap_t`. Its field `size` is not read. -/
structure MmapEntry where
  addrLow : ℕ
  addrHigh : ℕ
  lenLow : ℕ
  lenHigh : ℕ
  type : ℕ
  addrLow_lt : addrLow < word
  addrHigh_lt : addrHigh < word
  lenLow_lt : lenLow < word
  lenHigh_lt : lenHigh < word

/-- `MULTIBOOT_MEMORY_AVAILABLE`. -/
def multibootMemoryAvailable : ℕ := 1

/-- `pmm_bitmap`, with the memory behind it, and `pmm_bitmap_size`. -/
structure Pmm where
  bitmap : Bytes
  bitmapSize : ℕ

/-- The loop of `get_total_memory`. -/
def getTotalMemory : List MmapEntry → ℕ → ℕ
  | [], totalMemory => totalMemory
  | e :: entries, totalMemory =>
      if e.type = multibootMemoryAvailable then
        let blockEnd := wadd e.addrLow e.lenLow
        getTotalMemory entries (if totalMemory < blockEnd then blockEnd else totalMemory)
      else getTotalMemory entries totalMemory

def pmmClearBit (bitmap : Bytes) (addr : ℕ) : Bytes := clearBit bitmap (addr / pageSize)

/-- The loop over one region, from the offset `p` on. -/
def regionLoop (firstFreePage : ℕ) (e : MmapEntry) : ℕ → ℕ → Bytes → Option Bytes
  | 0, _, _ => none
  | fuel + 1, p, bitmap =>
      if p < e.lenLow then
        let currentAddr := wadd e.addrLow p
        regionLoop firstFreePage e fuel (wadd p pageSize)
          (if firstFreePage ≤ currentAddr then pmmClearBit bitmap currentAddr else bitmap)
      else some bitmap

/-- The loop over the memory map. -/
def mapLoop (firstFreePage fuel : ℕ) : List MmapEntry → Bytes → Option Bytes
  | [], bitmap => some bitmap
  | e :: entries, bitmap =>
      if e.type = multibootMemoryAvailable then do
        let bitmap ← regionLoop firstFreePage e fuel 0 bitmap
        mapLoop firstFreePage fuel entries bitmap
      else mapLoop firstFreePage fuel entries bitmap

/-- `pmm_bitmap_size` for a memory map. -/
def pmmBitmapSize (entries : List MmapEntry) : ℕ := ceilDiv (getTotalMemory entries 0 / pageSize) 8

/-- `first_free_page_paddr`, where the bitmap is at the address `pmmBitmap`. -/
def firstFreePagePaddr (pmmBitmap : ℕ) (entries : List MmapEntry) : ℕ :=
  v2p (align (wadd pmmBitmap (pmmBitmapSize entries)) pageSize)

def pmmInitFromMap (fuel pmmBitmap : ℕ) (entries : List MmapEntry) (bitmap : Bytes) : Option Pmm := do
  let bitmap := fun i => if i < pmmBitmapSize entries then 0xFF else bitmap i
  let bitmap ← mapLoop (firstFreePagePaddr pmmBitmap entries) fuel entries bitmap
  return ⟨bitmap, pmmBitmapSize entries⟩

/-! ## The pages of a map -/

/-- The 64-bit fields. -/
def MmapEntry.addr (e : MmapEntry) : ℕ := e.addrLow + word * e.addrHigh
def MmapEntry.len (e : MmapEntry) : ℕ := e.lenLow + word * e.lenHigh

/-- The page lies in an available region as a whole. -/
def Whole (entries : List MmapEntry) (k : ℕ) : Prop :=
  ∃ e ∈ entries, e.type = multibootMemoryAvailable ∧ e.addr ≤ k * pageSize ∧ (k + 1) * pageSize ≤ e.addr + e.len

/-- The page is one of those that start with the page of the low address and are as many
as the low length takes, counted modulo 4 GiB. -/
def Reached (e : MmapEntry) (k : ℕ) : Prop := ∃ i, i * pageSize < e.lenLow ∧
    (e.addrLow / pageSize + i) % 0x100000 = k

def Touched (entries : List MmapEntry) (k : ℕ) : Prop :=
  ∃ e ∈ entries, e.type = multibootMemoryAvailable ∧ Reached e k

/-- What the bitmap should be: the clear bits are those of the pages that are available
below 4 GiB, from the first free one on, and nothing else was written. -/
structure Exact (entries : List MmapEntry) (firstFreePage : ℕ) (bitmap : Bytes) (s : Pmm) : Prop where
  clear : ∀ k < 0x100000, (k < 8 * s.bitmapSize ∧ bit s.bitmap k = false) ↔ Whole entries k ∧
    firstFreePage ≤ k * pageSize
  outside : ∀ i, s.bitmapSize ≤ i → s.bitmap i = bitmap i

/-- No length wraps, and from the first free page on the pages that the low halves reach
are the available ones and have a bit. -/
structure MapFits (pmmBitmap : ℕ) (entries : List MmapEntry) : Prop where
  ends : ∀ e ∈ entries, e.type = multibootMemoryAvailable → e.lenLow ≤ 0xFFFFF000
  whole : ∀ k < 0x100000, firstFreePagePaddr pmmBitmap entries ≤ k * pageSize →
    (Touched entries k ↔ Whole entries k)
  inside : ∀ k, firstFreePagePaddr pmmBitmap entries ≤ k * pageSize → Touched entries k →
    k < 8 * pmmBitmapSize entries

variable {e : MmapEntry} {entries : List MmapEntry} {firstFreePage fuel i k pmmBitmap : ℕ}
  {bitmap : Bytes} {s : Pmm}

/-! ## The loops -/

theorem bit_pmmClearBit (bitmap : Bytes) (addr k : ℕ) :
    bit (pmmClearBit bitmap addr) k = false ↔ bit bitmap k = false ∨ addr / pageSize = k := by
  unfold pmmClearBit
  rw [bit_clearBit, Function.update_apply]
  split_ifs with h
  · exact iff_of_true rfl (.inr h.symm)
  · have hne : addr / pageSize ≠ k := fun heq => h heq.symm
    tauto

theorem page_currentAddr (e : MmapEntry) (i : ℕ) :
    wadd e.addrLow (i * pageSize) / pageSize = (e.addrLow / pageSize + i) % 0x100000 := by
  unfold wadd pageSize word
  omega

theorem le_iff_page_le {a : ℕ} (h : pageSize ∣ firstFreePage) : firstFreePage ≤ a ↔
    firstFreePage ≤ a / pageSize * pageSize := by
  obtain ⟨q, rfl⟩ := h
  unfold pageSize
  omega

/-- A region whose low length is within a page of 4 GiB never ends. -/
theorem regionLoop_none (h : 0xFFFFF000 < e.lenLow) : regionLoop firstFreePage e fuel
    (i * pageSize % word) bitmap = none := by
  induction fuel generalizing i bitmap with
  | zero => rfl
  | succ fuel ih =>
      have hp : i * pageSize % word < e.lenLow := by
        unfold pageSize word
        omega
      have hnext : wadd (i * pageSize % word) pageSize = (i + 1) * pageSize % word := by
        unfold wadd
        rw [Nat.mod_add_mod, Nat.add_one_mul]
      unfold regionLoop
      rw [if_pos hp, hnext]
      exact ih

/-- The loop clears the bits of the pages from round `i` on. -/
theorem regionLoop_spec (hdvd : pageSize ∣ firstFreePage) (h : e.lenLow ≤ 0xFFFFF000) (hi : i ≤ 0x100000)
    (hfuel : 0x100000 < fuel + i) : ∃ t, regionLoop firstFreePage e fuel (i * pageSize) bitmap = some t ∧
      ∀ k, bit t k = false ↔ bit bitmap k = false ∨ firstFreePage ≤ k * pageSize ∧
        ∃ j, i ≤ j ∧ j * pageSize < e.lenLow ∧ (e.addrLow / pageSize + j) % 0x100000 = k := by
  induction fuel generalizing i bitmap with
  | zero => omega
  | succ fuel ih =>
      unfold regionLoop
      by_cases hmore : i * pageSize < e.lenLow
      · have hnext : wadd (i * pageSize) pageSize = (i + 1) * pageSize := by
          unfold wadd pageSize word
          unfold pageSize at hmore
          omega
        have hi' : i + 1 ≤ 0x100000 := by
          unfold pageSize at hmore
          omega
        have hfirst : firstFreePage ≤ wadd e.addrLow (i * pageSize) ↔
            firstFreePage ≤ (e.addrLow / pageSize + i) % 0x100000 * pageSize := by
          rw [← page_currentAddr]
          exact le_iff_page_le hdvd
        rw [if_pos hmore]
        dsimp only
        rw [hnext]
        obtain ⟨t, ht, hbits⟩ := @ih (i + 1) (if firstFreePage ≤ wadd e.addrLow (i * pageSize) then
          pmmClearBit bitmap (wadd e.addrLow (i * pageSize)) else bitmap) hi' (by omega)
        refine ⟨t, ht, fun k => ?_⟩
        rw [hbits k]
        have hfirstRound : bit (if firstFreePage ≤ wadd e.addrLow (i * pageSize) then
            pmmClearBit bitmap (wadd e.addrLow (i * pageSize)) else bitmap) k = false ↔
            bit bitmap k = false ∨ firstFreePage ≤ k * pageSize ∧
              (e.addrLow / pageSize + i) % 0x100000 = k := by
          split_ifs with hle
          · rw [bit_pmmClearBit, page_currentAddr]
            rw [hfirst] at hle
            constructor
            · rintro (hbit | rfl)
              · exact .inl hbit
              · exact .inr ⟨hle, rfl⟩
            · rintro (hbit | ⟨-, hk⟩)
              · exact .inl hbit
              · exact .inr hk
          · rw [hfirst] at hle
            constructor
            · exact .inl
            · rintro (hbit | ⟨hk, rfl⟩)
              · exact hbit
              · exact absurd hk hle
        rw [hfirstRound]
        constructor
        · rintro ((hbit | ⟨hle, hk⟩) | ⟨hle, j, hj, hlen, hk⟩)
          · exact .inl hbit
          · exact .inr ⟨hle, i, le_rfl, hmore, hk⟩
          · exact .inr ⟨hle, j, by omega, hlen, hk⟩
        · rintro (hbit | ⟨hle, j, hj, hlen, hk⟩)
          · exact .inl (.inl hbit)
          · rcases hj.eq_or_lt with rfl | hlt
            · exact .inl (.inr ⟨hle, hk⟩)
            · exact .inr ⟨hle, j, hlt, hlen, hk⟩
      · rw [if_neg hmore]
        refine ⟨bitmap, rfl, fun k => ⟨.inl, ?_⟩⟩
        rintro (hbit | ⟨-, j, hj, hlen, -⟩)
        · exact hbit
        · exact absurd ((Nat.mul_le_mul_right pageSize hj).trans_lt hlen) hmore

theorem mapLoop_spec (hdvd : pageSize ∣ firstFreePage) (hfuel : 0x100000 < fuel)
    (h : ∀ e ∈ entries, e.type = multibootMemoryAvailable → e.lenLow ≤ 0xFFFFF000) :
    ∃ t, mapLoop firstFreePage fuel entries bitmap = some t ∧
      ∀ k, bit t k = false ↔ bit bitmap k = false ∨ firstFreePage ≤ k * pageSize ∧ Touched entries k := by
  induction entries generalizing bitmap with
  | nil =>
      refine ⟨bitmap, rfl, fun k => ⟨.inl, ?_⟩⟩
      rintro (hbit | ⟨-, e, he, -⟩)
      · exact hbit
      · cases he
  | cons e entries ih =>
      have hrest : ∀ e ∈ entries, e.type = multibootMemoryAvailable → e.lenLow ≤ 0xFFFFF000 :=
        fun e' he' => h e' (List.mem_cons_of_mem e he')
      unfold mapLoop
      by_cases htype : e.type = multibootMemoryAvailable
      · obtain ⟨t, ht, hbits⟩ := @regionLoop_spec e firstFreePage fuel 0 bitmap hdvd
            (h e List.mem_cons_self htype)
          (Nat.zero_le _) hfuel
        rw [Nat.zero_mul] at ht
        obtain ⟨t', ht', hbits'⟩ := @ih t hrest
        rw [if_pos htype, ht]
        refine ⟨t', ht', fun k => ?_⟩
        rw [hbits' k, hbits k]
        constructor
        · rintro ((hbit | ⟨hle, j, -, hlen, hk⟩) | ⟨hle, e', he', hreach⟩)
          · exact .inl hbit
          · exact .inr ⟨hle, e, List.mem_cons_self, htype, j, hlen, hk⟩
          · exact .inr ⟨hle, e', List.mem_cons_of_mem e he', hreach⟩
        · rintro (hbit | ⟨hle, e', he', htype', hreach⟩)
          · exact .inl (.inl hbit)
          · rcases List.mem_cons.mp he' with rfl | he'
            · obtain ⟨j, hlen, hk⟩ := hreach
              exact .inl (.inr ⟨hle, j, Nat.zero_le j, hlen, hk⟩)
            · exact .inr ⟨hle, e', he', htype', hreach⟩
      · rw [if_neg htype]
        obtain ⟨t, ht, hbits⟩ := @ih bitmap hrest
        refine ⟨t, ht, fun k => ?_⟩
        rw [hbits k]
        have htouched : Touched entries k ↔ Touched (e :: entries) k := by
          constructor
          · rintro ⟨e', he', hreach⟩
            exact ⟨e', List.mem_cons_of_mem e he', hreach⟩
          · rintro ⟨e', he', htype', hreach⟩
            rcases List.mem_cons.mp he' with rfl | he'
            · exact absurd htype' htype
            · exact ⟨e', he', htype', hreach⟩
        rw [htouched]

/-- One region that does not end is enough. -/
theorem mapLoop_none (he : e ∈ entries) (htype : e.type = multibootMemoryAvailable)
    (h : 0xFFFFF000 < e.lenLow) :
    mapLoop firstFreePage fuel entries bitmap = none := by
  induction entries generalizing bitmap with
  | nil => cases he
  | cons e' entries ih =>
      unfold mapLoop
      rcases List.mem_cons.mp he with rfl | he
      · have hnone := @regionLoop_none e firstFreePage fuel 0 bitmap h
        rw [Nat.zero_mul, Nat.zero_mod] at hnone
        rw [if_pos htype, hnone]
        rfl
      · split_ifs
        · cases hr : regionLoop firstFreePage e' fuel 0 bitmap with
          | none => rfl
          | some t => exact ih he
        · exact ih he

/-- More rounds change nothing once the loop has ended. -/
theorem regionLoop_more {p more : ℕ} {t : Bytes} (h : regionLoop firstFreePage e fuel p bitmap = some t) :
    regionLoop firstFreePage e (fuel + more) p bitmap = some t := by
  induction fuel generalizing p bitmap with
  | zero => cases h
  | succ fuel ih =>
      rw [Nat.add_right_comm]
      unfold regionLoop at h ⊢
      by_cases hp : p < e.lenLow
      · rw [if_pos hp] at h ⊢
        exact ih h
      · rw [if_neg hp] at h ⊢
        exact h

theorem mapLoop_more {more : ℕ} {t : Bytes} (h : mapLoop firstFreePage fuel entries bitmap = some t) :
    mapLoop firstFreePage (fuel + more) entries bitmap = some t := by
  induction entries generalizing bitmap with
  | nil => exact h
  | cons e entries ih =>
      unfold mapLoop at h ⊢
      split_ifs at h ⊢
      · obtain ⟨b, hb, h⟩ := Option.bind_eq_some_iff.mp h
        rw [regionLoop_more hb]
        exact ih h
      · exact ih h

theorem dvd_firstFreePagePaddr (pmmBitmap : ℕ) (entries : List MmapEntry) :
    pageSize ∣ firstFreePagePaddr pmmBitmap entries := by
  have hdvd : 2 ^ 12 ∣ align (wadd pmmBitmap (pmmBitmapSize entries)) (2 ^ 12) := dvd_align (by omega)
  unfold firstFreePagePaddr v2p wsub
  change pageSize ∣ align (wadd pmmBitmap (pmmBitmapSize entries)) pageSize at hdvd
  generalize align (wadd pmmBitmap (pmmBitmapSize entries)) pageSize = a at hdvd
  unfold pageSize kernBase word at *
  omega

theorem bytes_eq_of_bit {b b' : Bytes} (h : ∀ k, k / 8 = i → bit b k = bit b' k) : b i = b' i := by
  apply BitVec.eq_of_getLsbD_eq
  intro j hj
  have hk := h (8 * i + j) (by omega)
  unfold bit at hk
  rwa [show (8 * i + j) / 8 = i by omega, show (8 * i + j) % 8 = j by omega] at hk

theorem bit_filled (n : ℕ) (bitmap : Bytes) (k : ℕ) :
    bit (fun i => if i < n then 0xFF else bitmap i) k = if k < 8 * n then true else bit bitmap k := by
  unfold bit
  dsimp only
  by_cases h : k / 8 < n
  · rw [if_pos h, if_pos (by omega)]
    have hones : ∀ j < 8, (0xFF : Byte).getLsbD j = true := by decide
    exact hones _ (Nat.mod_lt _ (by decide))
  · rw [if_neg h, if_neg (show ¬ k < 8 * n by omega)]

/-! ## `pmm_init_from_map` -/

theorem initFromMap_more {more : ℕ} (h : pmmInitFromMap fuel pmmBitmap entries bitmap = some s) :
    pmmInitFromMap (fuel + more) pmmBitmap entries bitmap = some s := by
  unfold pmmInitFromMap at h ⊢
  obtain ⟨b, hb, h⟩ := Option.bind_eq_some_iff.mp h
  dsimp only
  rw [mapLoop_more hb]
  exact h

/-- The bits that are clear afterwards: those that were clear behind the bitmap, and the
pages that the loops touch. -/
theorem initFromMap_spec (h : ∀ e ∈ entries, e.type = multibootMemoryAvailable → e.lenLow ≤ 0xFFFFF000)
    (hfuel : 0x100000 < fuel) : ∃ s, pmmInitFromMap fuel pmmBitmap entries bitmap = some s ∧
      s.bitmapSize = pmmBitmapSize entries ∧ ∀ k, bit s.bitmap k = false ↔
        8 * pmmBitmapSize entries ≤ k ∧ bit bitmap k = false ∨
          firstFreePagePaddr pmmBitmap entries ≤ k * pageSize ∧ Touched entries k := by
  obtain ⟨t, ht, hbits⟩ := @mapLoop_spec entries (firstFreePagePaddr pmmBitmap entries) fuel
    (fun i => if i < pmmBitmapSize entries then 0xFF else bitmap i)
      (dvd_firstFreePagePaddr pmmBitmap entries) hfuel h
  refine ⟨⟨t, pmmBitmapSize entries⟩, ?_, rfl, fun k => ?_⟩
  · unfold pmmInitFromMap
    dsimp only
    rw [ht]
    rfl
  · dsimp only
    rw [hbits k, bit_filled]
    by_cases hk : k < 8 * pmmBitmapSize entries
    · have hno : ¬ 8 * pmmBitmapSize entries ≤ k := by omega
      rw [if_pos hk]
      simp only [hno, false_and, reduceCtorEq]
    · rw [if_neg hk]
      simp only [not_lt.mp hk, true_and]

/-- What the loops have cleared is exact when the map fits. -/
theorem MapFits.exact (h : MapFits pmmBitmap entries) (hsize : s.bitmapSize = pmmBitmapSize entries)
    (hbits : ∀ k, bit s.bitmap k = false ↔ 8 * pmmBitmapSize entries ≤ k ∧ bit bitmap k = false ∨
      firstFreePagePaddr pmmBitmap entries ≤ k * pageSize ∧ Touched entries k) :
    Exact entries (firstFreePagePaddr pmmBitmap entries) bitmap s := by
  constructor
  · intro k hk
    rw [hsize, hbits k]
    constructor
    · rintro ⟨hlt, ⟨hle, -⟩ | ⟨hfirst, htouched⟩⟩
      · omega
      · exact ⟨(h.whole k hk hfirst).mp htouched, hfirst⟩
    · rintro ⟨hwhole, hfirst⟩
      have htouched := (h.whole k hk hfirst).mpr hwhole
      exact ⟨h.inside k hfirst htouched, .inr ⟨hfirst, htouched⟩⟩
  · intro i hi
    apply bytes_eq_of_bit
    intro k hk
    have hno : ¬ (firstFreePagePaddr pmmBitmap entries ≤ k * pageSize ∧ Touched entries k) := by
      rintro ⟨hfirst, htouched⟩
      have := h.inside k hfirst htouched
      omega
    have hle : 8 * pmmBitmapSize entries ≤ k := by omega
    have hiff := hbits k
    simp only [hno, or_false, hle, true_and] at hiff
    cases hb : bit bitmap k with
    | false => exact hiff.mpr hb
    | true =>
        rw [hb] at hiff
        exact Bool.eq_true_of_not_eq_false fun hf => Bool.noConfusion (hiff.mp hf)

/-- Conversely, over a memory of ones every page that is touched shows. -/
theorem MapFits.of_exact (hends : ∀ e ∈ entries, e.type = multibootMemoryAvailable → e.lenLow ≤ 0xFFFFF000)
    (h : Exact entries (firstFreePagePaddr pmmBitmap entries) (fun _ => 0xFF) s)
    (hsize : s.bitmapSize = pmmBitmapSize entries)
    (hbits : ∀ k, bit s.bitmap k = false ↔ 8 * pmmBitmapSize entries ≤ k ∧ bit (fun _ => 0xFF) k = false ∨
      firstFreePagePaddr pmmBitmap entries ≤ k * pageSize ∧ Touched entries k) : MapFits pmmBitmap entries := by
  have hones (k : ℕ) : bit (fun _ => 0xFF) k = true := by
    have hones : ∀ j < 8, (0xFF : Byte).getLsbD j = true := by decide
    exact hones _ (Nat.mod_lt _ (by decide))
  have hclear (k : ℕ) : bit s.bitmap k = false ↔ firstFreePagePaddr pmmBitmap entries ≤ k * pageSize ∧
      Touched entries k := by
    rw [hbits k, hones k]
    simp only [reduceCtorEq, and_false, false_or]
  have hinside (k : ℕ) (hfirst : firstFreePagePaddr pmmBitmap entries ≤ k * pageSize)
      (htouched : Touched entries k) :
      k < 8 * pmmBitmapSize entries := by
    by_contra hk
    have hbyte := h.outside (k / 8) (by omega)
    have hbit := (hclear k).mpr ⟨hfirst, htouched⟩
    have hone := hones k
    unfold bit at hbit hone
    rw [hbyte, hone] at hbit
    cases hbit
  refine ⟨hends, fun k hk hfirst => ⟨fun htouched => ?_, fun hwhole => ?_⟩, hinside⟩
  · have hlt := hinside k hfirst htouched
    rw [← hsize] at hlt
    exact ((h.clear k hk).mp ⟨hlt, (hclear k).mpr ⟨hfirst, htouched⟩⟩).1
  · exact ((hclear k).mp ((h.clear k hk).mpr ⟨hwhole, hfirst⟩).2).2

theorem MapFits.initFromMap (h : MapFits pmmBitmap entries) (bitmap : Bytes) :
    ∃ fuel s, pmmInitFromMap fuel pmmBitmap entries bitmap = some s ∧
      Exact entries (firstFreePagePaddr pmmBitmap entries) bitmap s := by
  obtain ⟨s, hs, hsize, hbits⟩ := @initFromMap_spec entries 0x100001 pmmBitmap bitmap h.ends (by omega)
  exact ⟨_, s, hs, h.exact hsize hbits⟩

theorem MapFits.of_initFromMap (h : ∀ bitmap, ∃ fuel s, pmmInitFromMap fuel pmmBitmap entries bitmap = some s ∧
    Exact entries (firstFreePagePaddr pmmBitmap entries) bitmap s) : MapFits pmmBitmap entries := by
  obtain ⟨fuel, s, hs, hexact⟩ := h fun _ => 0xFF
  have hends : ∀ e ∈ entries, e.type = multibootMemoryAvailable → e.lenLow ≤ 0xFFFFF000 := by
    intro e he htype
    by_contra hlen
    unfold pmmInitFromMap at hs
    dsimp only at hs
    rw [mapLoop_none he htype (not_le.mp hlen)] at hs
    cases hs
  obtain ⟨s', hs', hsize, hbits⟩ := @initFromMap_spec entries (fuel + 0x100001) pmmBitmap
      (fun _ => 0xFF) hends (by omega)
  rw [initFromMap_more hs] at hs'
  cases hs'
  exact .of_exact hends hexact hsize hbits

/-- The bitmap is exact, whatever the memory held, exactly when the map fits. -/
theorem pmm_init_exact_iff (pmmBitmap : ℕ) (entries : List MmapEntry) :
    (∀ bitmap, ∃ fuel s, pmmInitFromMap fuel pmmBitmap entries bitmap = some s ∧
      Exact entries (firstFreePagePaddr pmmBitmap entries) bitmap s) ↔ MapFits pmmBitmap entries :=
  ⟨MapFits.of_initFromMap, MapFits.initFromMap⟩

/-- A region from 1 MiB on whose last page is only half there. -/
def halfPage : MmapEntry := ⟨0x100000, 0, 0x701800, 0, 1, by decide, by decide, by decide, by decide⟩

/-- With the bitmap at 2 MiB, the bit of the half page is cleared. -/
theorem not_pmm_init_exact : ¬ ∀ (pmmBitmap : ℕ) (entries : List MmapEntry) (bitmap : Bytes),
    ∃ fuel s, pmmInitFromMap fuel pmmBitmap entries bitmap = some s ∧
      Exact entries (firstFreePagePaddr pmmBitmap entries) bitmap s := by
  intro hclaim
  have hfits := MapFits.of_initFromMap (hclaim 0xC0200000 [halfPage])
  have hfirst : firstFreePagePaddr 0xC0200000 [halfPage] ≤ 0x801 * pageSize := by decide
  have htouched : Touched [halfPage] 0x801 :=
      ⟨halfPage, List.mem_singleton_self _, rfl, 0x701, by decide, by decide⟩
  obtain ⟨e, he, -, -, hend⟩ := (hfits.whole 0x801 (by omega) hfirst).mp htouched
  rw [List.mem_singleton.mp he] at hend
  revert hend
  decide

/-! ## Maps of whole pages -/

theorem le_getTotalMemory (entries : List MmapEntry) (total : ℕ) : total ≤ getTotalMemory entries total := by
  induction entries generalizing total with
  | nil => exact le_rfl
  | cons e entries ih =>
      unfold getTotalMemory
      dsimp only
      split_ifs with htype hlt
      · exact hlt.le.trans (ih _)
      · exact ih _
      · exact ih _

theorem blockEnd_le (he : e ∈ entries) (htype : e.type = multibootMemoryAvailable) (total : ℕ) :
    wadd e.addrLow e.lenLow ≤ getTotalMemory entries total := by
  induction entries generalizing total with
  | nil => cases he
  | cons e' entries ih =>
      unfold getTotalMemory
      dsimp only
      rcases List.mem_cons.mp he with rfl | he
      · rw [if_pos htype]
        refine le_trans ?_ (le_getTotalMemory _ _)
        split_ifs with hlt
        · exact le_rfl
        · exact not_lt.mp hlt
      · split_ifs
        · exact ih he _
        · exact ih he _
        · exact ih he _

/-- There is a bit for every page below the end of memory. -/
theorem le_bitmapSize (htotal : getTotalMemory entries 0 < word) :
    getTotalMemory entries 0 / pageSize ≤ 8 * pmmBitmapSize entries := by
  unfold pmmBitmapSize ceilDiv
  generalize getTotalMemory entries 0 = total at htotal
  unfold word pageSize at *
  omega

theorem getTotalMemory_lt (entries : List MmapEntry) {total : ℕ} (h : total < word) :
    getTotalMemory entries total < word := by
  induction entries generalizing total with
  | nil => exact h
  | cons e entries ih =>
      unfold getTotalMemory
      dsimp only
      split_ifs
      · exact ih (wadd_lt _ _)
      · exact ih h
      · exact ih h

/-- Regions of whole pages that end below 4 GiB fit. -/
theorem MapFits.of_pages (h : ∀ e ∈ entries, e.type = multibootMemoryAvailable →
    pageSize ∣ e.addr ∧ pageSize ∣ e.len ∧ e.addr + e.len < word) : MapFits pmmBitmap entries := by
  have hlow (e : MmapEntry) (he : e ∈ entries) (htype : e.type = multibootMemoryAvailable) :
      pageSize ∣ e.addrLow ∧ pageSize ∣ e.lenLow ∧ e.addrLow + e.lenLow < word ∧ e.addr = e.addrLow ∧ e.len = e.lenLow := by
    obtain ⟨haddr, hlen, hend⟩ := h e he htype
    have h₁ : e.addrHigh = 0 := by
      unfold MmapEntry.addr word at hend
      omega
    have h₂ : e.lenHigh = 0 := by
      unfold MmapEntry.len word at hend
      omega
    have h₃ : e.addr = e.addrLow := by
      rw [MmapEntry.addr, h₁, Nat.mul_zero, Nat.add_zero]
    have h₄ : e.len = e.lenLow := by
      rw [MmapEntry.len, h₂, Nat.mul_zero, Nat.add_zero]
    rw [h₃, h₄] at hend
    exact ⟨h₃ ▸ haddr, h₄ ▸ hlen, hend, h₃, h₄⟩
  have hpages (k : ℕ) : Touched entries k ↔ Whole entries k := by
    constructor
    · rintro ⟨e, he, htype, i, hi, hk⟩
      obtain ⟨haddr, hlen, hend, h₃, h₄⟩ := hlow e he htype
      refine ⟨e, he, htype, ?_, ?_⟩
      · rw [h₃]
        unfold pageSize word at *
        omega
      · rw [h₃, h₄]
        unfold pageSize word at *
        omega
    · rintro ⟨e, he, htype, hstart, hend'⟩
      obtain ⟨haddr, hlen, hend, h₃, h₄⟩ := hlow e he htype
      rw [h₃] at hstart
      rw [h₃, h₄] at hend'
      refine ⟨e, he, htype, k - e.addrLow / pageSize, ?_, ?_⟩
      · unfold pageSize word at *
        omega
      · unfold pageSize word at *
        omega
  refine ⟨fun e he htype => ?_, fun k _ _ => hpages k, fun k _ htouched => ?_⟩
  · obtain ⟨-, hlen, hend, -, -⟩ := hlow e he htype
    unfold pageSize word at *
    omega
  · obtain ⟨e, he, htype, -, hend'⟩ := (hpages k).mp htouched
    obtain ⟨-, -, hend, h₃, h₄⟩ := hlow e he htype
    have hblock := blockEnd_le he htype 0
    have hsize := le_bitmapSize (getTotalMemory_lt entries (by decide))
    rw [wadd_of_lt hend] at hblock
    rw [h₃, h₄] at hend'
    have hpage : k + 1 ≤ getTotalMemory entries 0 / pageSize :=
      (Nat.le_div_iff_mul_le pageSize_pos).mpr (hend'.trans hblock)
    omega

end Ferrite.Memory
