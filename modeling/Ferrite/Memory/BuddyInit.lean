import Ferrite.Memory.BuddyCalls

/-!
# What `buddy_init` sets up

The carving loop cuts the pool from its base upwards. Each block is at least
twice as large as everything that is left behind it, so every block is aligned
and no list receives a second one: the carved tiling has no two buddies.

All of this holds while no address of the pool is zero. When the free memory
lies on both sides of the first GiB, the addresses wrap around inside the pool,
and the carved block at the address zero is lost: as a list head it is `NULL`.
-/
namespace Ferrite.Memory
open Word DyadicBlocks Chain

/-- The size of the bitmap that `buddy_init` asks for. -/
def bitmapSize (m : Memblock) : ℕ :=
  align (ceilDiv (wsub m.heapEnd m.nextFree / pageSize) 8) 4

/-- The physical address behind the bitmap. -/
def bitmapEnd (m : Memblock) : ℕ := wadd (memblock m (bitmapSize m)).1 (bitmapSize m)

/-- The kernel's virtual addresses end at the first GiB of physical memory; the
memory left for the pool lies on both sides of it. -/
def Straddles (m : Memblock) : Prop := bitmapEnd m ≤ word - kernBase ∧ word - kernBase < m.heapEnd

instance (m : Memblock) : Decidable (Straddles m) := inferInstanceAs (Decidable (_ ∧ _))

namespace BuddyAllocator

variable {P : Pool} {n : ℕ} {b : BuddyAllocator} {free : ℕ → List ℕ} {held : List Block}

/-- The carving loop as a list of addresses and orders. -/
def carve (maxOrder : ℕ) : ℕ → ℕ → ℕ → List (ℕ × ℕ)
  | 0, _, _ => []
  | fuel + 1, remaining, addr =>
      if remaining < pageSize then []
      else
        let order := min (remaining / pageSize).log2 maxOrder
        (addr, order) ::
          carve maxOrder fuel (remaining - blockSize order) (wadd addr (blockSize order))

/-- The blocks that `buddy_init` carves out of the pool. -/
def carvedBlocks (b : BuddyAllocator) : List (ℕ × ℕ) :=
  carve b.maxOrder (b.size / pageSize) b.size b.base

/-- Carving changes the lists and the memory only. -/
theorem carveLoop_frame {fuel remaining addr : ℕ} {b' : BuddyAllocator}
    (h : carveLoop fuel remaining addr b = some b') :
    b'.base = b.base ∧ b'.size = b.size ∧ b'.maxOrder = b.maxOrder ∧ b'.mapSize = b.mapSize := by
  induction fuel generalizing remaining addr b with
  | zero =>
      unfold carveLoop at h
      split_ifs at h
      cases h
      exact ⟨rfl, rfl, rfl, rfl⟩
  | succ fuel ih =>
      unfold carveLoop at h
      split_ifs at h
      · cases h
        exact ⟨rfl, rfl, rfl, rfl⟩
      · simp only [Option.bind_eq_bind, Option.bind_eq_some_iff] at h
        obtain ⟨k, -, h⟩ := h
        obtain ⟨h₁, h₂, h₃, h₄⟩ := ih h
        exact ⟨h₁, h₂, h₃, h₄⟩

/-- One more block behind the pages that are tiled already. -/
theorem Inv.extend {k : ℕ} (h : Inv P n b free held) (hal : Block.Aligned ⟨n, k⟩)
    (hle : n + 2 ^ k ≤ P.pages) : Inv P (n + 2 ^ k) b free (⟨n, k⟩ :: held) := by
  refine ⟨hle, h.base_eq, h.size_eq, h.top_eq, h.null_free, h.covers, h.chain, h.above, ?_, ?_⟩
  · intro c hc
    simp only [List.mem_append, List.mem_cons] at hc
    rcases hc with hc | rfl | hc
    · exact h.aligned c (List.mem_append_left _ hc)
    · exact hal
    · exact h.aligned c (List.mem_append_right _ hc)
  · intro p
    have ht := h.tiles p
    rw [cover_append] at ht
    have hhas : Block.Has ⟨n, k⟩ p ↔ n ≤ p ∧ p < n + 2 ^ k := Iff.rfl
    rw [cover_append, cover_cons, cover_singleton]
    by_cases hp : p < n
    · have hno : ¬ Block.Has ⟨n, k⟩ p := by rw [hhas]; omega
      rw [if_pos hp] at ht
      rw [if_neg hno, if_pos (hp.trans_le (Nat.le_add_right n _))]
      omega
    · rw [if_neg hp] at ht
      by_cases hp' : p < n + 2 ^ k
      · have hyes : Block.Has ⟨n, k⟩ p := by rw [hhas]; omega
        rw [if_pos hyes, if_pos hp']
        omega
      · have hno : ¬ Block.Has ⟨n, k⟩ p := by rw [hhas]; omega
        rw [if_neg hno, if_neg hp']
        omega

/-- In the carving loop the block is the largest one that fits, and what is left
is smaller. -/
theorem log2_fits {r : ℕ} (hr : r ≠ 0) (hlt : r < 2 ^ (P.top + 1)) :
    min r.log2 P.top = r.log2 ∧ 2 ^ r.log2 ≤ r ∧ r < 2 ^ (r.log2 + 1) := by
  have hle : r.log2 ≤ P.top := by
    have h := (Nat.log2_lt hr).mpr hlt
    omega
  exact ⟨min_eq_left hle, Nat.log2_self_le hr, Nat.lt_log2_self⟩

theorem carveLoop_spec {fuel o r : ℕ} (h : Inv P o b free []) (hr : o + r = P.pages)
    (hroom : ∀ k, 2 ^ k ≤ r → 2 ^ k ∣ o ∧ free k = []) (hone : ∀ k, (free k).length ≤ 1)
    {b' : BuddyAllocator} (hc : carveLoop fuel (pageSize * r) (P.addr o % word) b = some b') :
    ∃ free', Inv P P.pages b' free' [] ∧ b'.map = b.map ∧ b'.mapSize = b.mapSize ∧
      (∀ k, (free' k).length ≤ 1) ∧
      ∀ a k, (k ≤ P.top ∧ ∃ i ∈ free' k, P.addr i = a) ↔
        (k ≤ P.top ∧ ∃ i ∈ free k, P.addr i = a) ∨
          (a, k) ∈ carve P.top fuel (pageSize * r) (P.addr o % word) := by
  induction fuel generalizing o r b free with
  | zero =>
      unfold carveLoop at hc
      split_ifs at hc with hz
      cases hc
      have hr0 : r = 0 := by
        simp only [pageSize] at hz
        omega
      have ho : o = P.pages := by omega
      refine ⟨free, ho ▸ h, rfl, rfl, hone, fun a k => ?_⟩
      simp [carve]
  | succ fuel ih =>
      unfold carveLoop at hc
      split_ifs at hc with hz
      · cases hc
        have ho : o = P.pages := by
          simp only [pageSize] at hz
          omega
        refine ⟨free, ho ▸ h, rfl, rfl, hone, fun a k => ?_⟩
        simp [carve, hz]
      · have hr0 : r ≠ 0 := by
          intro hr0
          simp [hr0, pageSize] at hz
        have hdiv : pageSize * r / pageSize = r := Nat.mul_div_cancel_left r (by decide)
        obtain ⟨hmin, hfit, hlt⟩ := log2_fits (P := P) hr0 (by have := P.lt_top; omega)
        have hlog : floorLog2 r = some r.log2 := if_neg hr0
        simp only [hdiv, hlog, h.top_eq, hmin, Option.bind_eq_bind, Option.bind_some] at hc
        generalize hk : r.log2 = k at hc hfit hlt
        obtain ⟨hdvd, hnil⟩ := hroom k hfit
        have hop : o < P.pages := by omega
        have haddr : P.addr o % word = P.addr o := Nat.mod_eq_of_lt (P.addr_lt hop)
        have hnext : wadd (P.addr o) (blockSize k) = P.addr (o + 2 ^ k) % word := by
          simp only [wadd, Pool.addr, blockSize]
          congr 1
          ring
        have hrem : pageSize * r - blockSize k = pageSize * (r - 2 ^ k) := by
          rw [blockSize, Nat.mul_sub]
        rw [haddr, hnext, hrem] at hc
        have hpow := Nat.pow_succ (n := 2) (m := k)
        have hinv := (h.extend (k := k) hdvd (by omega)).listAdd
        simp only [hnil] at hinv
        have hroom' : ∀ j, 2 ^ j ≤ r - 2 ^ k →
            2 ^ j ∣ o + 2 ^ k ∧ Function.update free k [o] j = [] := by
          intro j hj
          have hjk : j < k := (Nat.pow_lt_pow_iff_right (a := 2) (by omega)).mp (by omega)
          have hfree := hroom j (by omega)
          refine ⟨(Nat.dvd_add_right hfree.1).mpr (pow_dvd_pow 2 hjk.le), ?_⟩
          rw [Function.update_of_ne hjk.ne]
          exact hfree.2
        have hone' : ∀ j, (Function.update free k [o] j).length ≤ 1 := by
          intro j
          by_cases hjk : j = k
          · rw [hjk, Function.update_self]
            exact le_rfl
          · rw [Function.update_of_ne hjk]
            exact hone j
        obtain ⟨free', hinv', hmap, hsize, hlen, hmem⟩ := ih hinv (by omega) hroom' hone' hc
        refine ⟨free', hinv', hmap, hsize, hlen, fun a j => ?_⟩
        have hmin' : min k P.top = k := hk ▸ hmin
        have hkt : k ≤ P.top := by omega
        have hcarve : carve P.top (fuel + 1) (pageSize * r) (P.addr o) = (P.addr o, k) ::
            carve P.top fuel (pageSize * (r - 2 ^ k)) (P.addr (o + 2 ^ k) % word) := by
          rw [carve, if_neg hz]
          simp only [hdiv, hk, hmin', hnext, hrem]
        rw [hmem, haddr, hcarve, List.mem_cons, Prod.mk.injEq]
        by_cases hjk : j = k
        · simp [hjk, hnil, hkt, eq_comm]
        · simp [hjk]

/-- Lists with at most one block each hold no two buddies. -/
theorem coalesced_of_length (h : Inv P n b free held) (hone : ∀ k, (free k).length ≤ 1) :
    Coalesced P.top (byOrder free (P.top + 1)) := by
  intro c hc _ hbc
  obtain ⟨hk, hs⟩ := mem_byOrder.mp hc
  have hbs := (mem_byOrder.mp hbc).2
  rw [Block.buddy_order] at hbs
  have hsame : c.buddy.start = c.start := by
    cases hf : free c.order with
    | nil => simp [hf] at hs
    | cons a l =>
        have hl : l = [] := by
          have hlen := hone c.order
          rw [hf, List.length_cons] at hlen
          exact List.length_eq_zero_iff.mp (by omega)
        rw [hf, hl, List.mem_singleton] at hs hbs
        exact hbs.trans hs.symm
  have hal := h.aligned c (List.mem_append_left _ hc)
  refine Block.buddy_disjoint hal c.start ⟨c.has_start, ?_⟩
  exact hsame ▸ c.buddy.has_start

theorem bitmapSize_eq (m : Memblock) :
    bitmapSize m = (((m.heapEnd - m.nextFree) / pageSize + 7) / 8 + 3) / 4 * 4 := by
  have hlt := m.lt
  have hw : word = 2 ^ 32 := rfl
  rw [bitmapSize, wsub_of_le m.le hlt]
  have hd := Nat.div_le_self (m.heapEnd - m.nextFree) pageSize
  have hsmall : (m.heapEnd - m.nextFree) / pageSize < 2 ^ 20 := Nat.div_lt_of_lt_mul (by
    simp only [pageSize]
    omega)
  have hceil : ceilDiv ((m.heapEnd - m.nextFree) / pageSize) 8 =
      ((m.heapEnd - m.nextFree) / pageSize + 7) / 8 := by
    rw [ceilDiv, Nat.mod_eq_of_lt (by omega)]
    rfl
  rw [hceil]
  exact align_two_pow (k := 2) (by omega) (by omega)

/-- The bitmap ends inside the memory, and it has a bit for every page behind it. -/
theorem bitmapEnd_spec (m : Memblock) :
    bitmapEnd m ≤ m.heapEnd ∧ (bitmapSize m ≠ 0 → 0 < bitmapEnd m ∧
      ∀ n, bitmapEnd m + pageSize * n ≤ m.heapEnd → n ≤ 8 * bitmapSize m) := by
  have hle := m.le
  have hlt := m.lt
  have hw : word = 2 ^ 32 := rfl
  have hps : pageSize = 4096 := rfl
  have hsize := bitmapSize_eq m
  unfold bitmapEnd memblock
  generalize bitmapSize m = s at hsize
  generalize hd : (m.heapEnd - m.nextFree) / pageSize = d at hsize
  have hd' : 4096 * d ≤ m.heapEnd - m.nextFree := by
    rw [← hd]
    exact Nat.mul_div_le _ _
  by_cases h0 : s = 0
  · rw [if_pos h0, h0]
    simp [wadd]
  · have hadd : wadd m.nextFree s = m.nextFree + s := wadd_of_lt (by omega)
    rw [if_neg h0, dif_pos (by rw [hadd]; omega), hadd]
    refine ⟨by omega, fun _ => ⟨by omega, fun n hn => ?_⟩⟩
    have hdiv : m.heapEnd - m.nextFree < 4096 * (d + 1) := by
      rw [← hd]
      exact Nat.lt_mul_div_succ _ (by decide)
    rw [hps] at hn
    omega

/-- Rounding an address up to a multiple of a power of two that divides the end. -/
theorem align_spec {v e k : ℕ} (hk : k ≤ 32) (hv : v + 2 ^ k ≤ e) (he : e ≤ word) :
    v ≤ align v (2 ^ k) ∧ align v (2 ^ k) < e := by
  have hpos := Nat.two_pow_pos k
  have hx : v + (2 ^ k - 1) < word := by omega
  exact ⟨le_align hk hx, (align_lt_add hk hx).trans_le hv⟩

theorem blockSize_eq (k : ℕ) : blockSize k = 2 ^ (12 + k) := by
  rw [blockSize, pow_add]
  rfl

theorem wsub_end {x e : ℕ} (he : e ≤ word) (hx : x < e) (h0 : x ≠ 0) :
    wsub (e % word) x = e - x := by
  simp only [wsub, word] at *
  omega

/-- The arithmetic of `buddy_init` on a stretch `[v, e)` of addresses that does not
contain zero. -/
theorem base_spec {v e t : ℕ} (hv : v ≠ 0) (hve : v ≤ e) (he : e ≤ word) (hdvd : pageSize ∣ e)
    (ht : floorLog2 (wsub (e % word) (align (v % word) pageSize) / pageSize) = some t) :
    v ≤ align (v % word) (blockSize t) ∧ align (v % word) (blockSize t) < e ∧
      blockSize t ∣ align (v % word) (blockSize t) ∧
      (e - align (v % word) (blockSize t)) / pageSize < 2 ^ (t + 1) := by
  have hw : word = 2 ^ 32 := rfl
  have hps : pageSize = 2 ^ 12 := rfl
  obtain ⟨q, hq⟩ := hdvd
  rw [hps] at hq
  have hpow : 2 ^ (12 + t) = 2 ^ 12 * 2 ^ t := pow_add 2 12 t
  by_cases hvw : v = word
  · have hew : e = word := by omega
    rw [hvw, hew, Nat.mod_self, show wsub 0 (align 0 pageSize) = 0 from by decide] at ht
    simp [floorLog2] at ht
  · have hvlt : v < word := by omega
    rw [Nat.mod_eq_of_lt hvlt] at ht ⊢
    by_cases hwrap : word ≤ v + (2 ^ 12 - 1)
    · have hew : e = word := by omega
      rw [hps, align_wrap (by omega) hvlt hwrap, hew, Nat.mod_self,
        show wsub 0 0 = 0 from by decide] at ht
      simp [floorLog2] at ht
    · have hT : align v pageSize = (v + 4095) / 4096 * 4096 :=
        align_two_pow (k := 12) (by omega) (by omega)
      generalize align v pageSize = T at hT ht
      by_cases hTe : T = e
      · have : wsub (e % word) T = 0 := by
          simp only [wsub, word] at *
          omega
        rw [this] at ht
        simp [floorLog2] at ht
      · have hsub : wsub (e % word) T = e - T := wsub_end he (by omega) (by omega)
        rw [hsub] at ht
        obtain ⟨hlo, hhi⟩ := floorLog2_eq_some ht
        rw [hps] at hlo
        have hfit : v + 2 ^ (12 + t) ≤ e := by omega
        have ht20 : 12 + t ≤ 32 := by
          have h32 : 2 ^ (12 + t) ≤ 2 ^ 32 := by omega
          exact (Nat.pow_le_pow_iff_right (by omega)).mp h32
        rw [blockSize_eq]
        obtain ⟨h₁, h₂⟩ := align_spec ht20 hfit he
        have h₃ : 2 ^ (12 + t) ∣ align v (2 ^ (12 + t)) := dvd_align ht20
        refine ⟨h₁, h₂, h₃, ?_⟩
        obtain ⟨c, hc⟩ := h₃
        generalize align v (2 ^ (12 + t)) = B at h₁ h₂ hc
        have hc' : B = 4096 * (2 ^ t * c) := by
          rw [hc, hpow]
          ring
        generalize 2 ^ t * c = d at hc'
        have hTB : T ≤ B := by omega
        exact (Nat.div_le_div_right (by omega)).trans_lt hhi

/-- The stretch of virtual addresses for the memory behind the bitmap, when it
contains no zero address, and how it lies over the physical addresses. -/
theorem stretch {m : Memblock} (h : ¬ Straddles m) :
    ∃ v, v ≠ 0 ∧ v + (m.heapEnd - bitmapEnd m) ≤ word ∧ p2v (bitmapEnd m) = v % word ∧
      p2v m.heapEnd = (v + (m.heapEnd - bitmapEnd m)) % word ∧
      (v = bitmapEnd m + kernBase ∨
        (v + (word - kernBase) = bitmapEnd m ∧ v + (m.heapEnd - bitmapEnd m) < kernBase)) := by
  have hle := (bitmapEnd_spec m).1
  have hlt := m.lt
  simp only [Straddles, p2v, wadd, kernBase, word] at *
  by_cases hlow : m.heapEnd ≤ 2 ^ 32 - 0xC0000000
  · exact ⟨bitmapEnd m + 0xC0000000, by omega, by omega, rfl, by omega, .inl rfl⟩
  · exact ⟨bitmapEnd m - (2 ^ 32 - 0xC0000000), by omega, by omega, by omega, by omega,
      .inr ⟨by omega, by omega⟩⟩

/-- The pool of a machine whose memory does not straddle the first GiB. -/
theorem exists_pool {m : Memblock} (h : ¬ Straddles m) {t top : ℕ}
    (ht : floorLog2 (wsub (p2v m.heapEnd) (align (p2v (bitmapEnd m)) pageSize) / pageSize) = some t)
    (htop : floorLog2
      (wsub (p2v m.heapEnd) (align (p2v (bitmapEnd m)) (blockSize t)) / pageSize) = some top) :
    ∃ P : Pool, P.base = align (p2v (bitmapEnd m)) (blockSize t) ∧
      wsub (p2v m.heapEnd) (align (p2v (bitmapEnd m)) (blockSize t)) = pageSize * P.pages ∧
      P.top = top ∧ bitmapEnd m ≤ P.pbase ∧ bitmapEnd m + pageSize * P.pages ≤ m.heapEnd := by
  have hle := (bitmapEnd_spec m).1
  have hlt := m.lt
  have hw : word = 2 ^ 32 := rfl
  have hkern : kernBase = 3 * 2 ^ 30 := rfl
  have hps : pageSize = 2 ^ 12 := rfl
  obtain ⟨v, hv, hend, hpv, hpe, hreg⟩ := stretch h
  obtain ⟨q, hq⟩ := m.dvd
  rw [hps] at hq
  have hdvd : pageSize ∣ v + (m.heapEnd - bitmapEnd m) := by
    rcases hreg with hreg | ⟨hreg, -⟩
    · exact ⟨q + 3 * 2 ^ 18, by rw [hps]; omega⟩
    · exact ⟨q - 2 ^ 18, by rw [hps]; omega⟩
  rw [hpv, hpe] at ht
  obtain ⟨h₁, h₂, h₃, h₄⟩ := base_spec hv (Nat.le_add_right _ _) hend hdvd ht
  rw [hpv, hpe] at htop ⊢
  generalize align (v % word) (blockSize t) = B at h₁ h₂ h₃ h₄ htop ⊢
  rw [wsub_end hend h₂ (by omega)] at htop ⊢
  obtain ⟨hlo, hhi⟩ := floorLog2_eq_some htop
  have htt : top ≤ t := by
    have := (Nat.pow_lt_pow_iff_right (a := 2) (by omega)).mp (hlo.trans_lt h₄)
    omega
  have hB : blockSize top ∣ B := by
    refine Dvd.dvd.trans ?_ h₃
    rw [blockSize_eq, blockSize_eq]
    exact pow_dvd_pow 2 (by omega)
  -- The pool cannot be longer than the stretch, which keeps the top order low.
  have hsize : v + (m.heapEnd - bitmapEnd m) - B =
      pageSize * ((v + (m.heapEnd - bitmapEnd m) - B) / pageSize) := by
    have h12 : pageSize ∣ B := (Dvd.intro _ rfl).trans hB
    exact (Nat.mul_div_cancel' (Nat.dvd_sub hdvd h12)).symm
  generalize (v + (m.heapEnd - bitmapEnd m) - B) / pageSize = pages at hlo hhi hsize
  have htop18 : top ≤ 18 := by
    have hge : blockSize top ≤ B := Nat.le_of_dvd (by omega) hB
    have hpool : blockSize top ≤ pageSize * pages := Nat.mul_le_mul_left _ hlo
    by_contra! hgt
    have h31 : 2 ^ 31 ≤ blockSize top := by
      rw [blockSize_eq]
      exact Nat.pow_le_pow_right (by omega) (by omega)
    omega
  have hgib : blockSize top ∣ 2 ^ 30 := by
    rw [blockSize_eq]
    exact pow_dvd_pow 2 (by omega)
  have hBw : B % word = B := Nat.mod_eq_of_lt (by omega)
  rcases hreg with hreg | ⟨hreg, hlow⟩
  · have hp2v : p2v (B - kernBase) = B := by
      rw [p2v, wadd, Nat.sub_add_cancel (by omega), hBw]
    refine ⟨⟨B, B - kernBase, pages, top, by omega, hp2v, by omega, by omega, ?_, hlo, hhi⟩, rfl,
      hsize, rfl, by simp only; omega, by simp only; omega⟩
    exact Nat.dvd_sub hB (hkern ▸ hgib.mul_left 3)
  · have hp2v : p2v (B + 2 ^ 30) = B := by
      rw [p2v, wadd, show B + 2 ^ 30 + kernBase = B + word by omega, Nat.add_mod_right, hBw]
    refine ⟨⟨B, B + 2 ^ 30, pages, top, by omega, hp2v, by omega, by omega, ?_, hlo, hhi⟩, rfl,
      hsize, rfl, by simp only; omega, by simp only; omega⟩
    exact Nat.dvd_add hB hgib

/-- The state in which the carving starts. -/
def blank (base size mapSize maxOrder : ℕ) (next : ℕ → ℕ) : BuddyAllocator :=
  { base := base, size := size, freeLists := fun _ => 0, map := fun _ => false,
    mapSize := mapSize, maxOrder := maxOrder, next := next }

/-- What `buddy_init` went through when it has a result. -/
theorem buddyInit_eq_some {m m' : Memblock} {next : ℕ → ℕ} (hb : buddyInit m next = some (b, m')) :
    ∃ t top base size, base = align (p2v (bitmapEnd m)) (blockSize t) ∧
      size = wsub (p2v m.heapEnd) base ∧
      floorLog2 (wsub (p2v m.heapEnd) (align (p2v (bitmapEnd m)) pageSize) / pageSize) = some t ∧
      floorLog2 (size / pageSize) = some top ∧
      carveLoop (size / pageSize) size base (blank base size (bitmapSize m) top next) = some b := by
  have hend : wadd (p2v (memblock m (bitmapSize m)).1) (bitmapSize m) = p2v (bitmapEnd m) := by
    simp only [bitmapEnd, p2v, wadd, word]
    omega
  rw [← hend]
  unfold buddyInit at hb
  dsimp only at hb
  split_ifs at hb
  simp only [Option.bind_eq_bind, Option.bind_eq_some_iff] at hb
  obtain ⟨t, ht, hb⟩ := hb
  split_ifs at hb
  simp only [Option.pure_def, Option.bind_eq_some_iff, Option.some.injEq, Prod.mk.injEq] at hb
  obtain ⟨top, htop, b', hcarve, rfl, -⟩ := hb
  exact ⟨t, top, _, _, rfl, rfl, ht, htop, hcarve⟩

/-- `buddy_init` on such a machine tiles the pool by its carved blocks. -/
theorem buddyInit_spec {m m' : Memblock} {next : ℕ → ℕ} (h : ¬ Straddles m)
    (hb : buddyInit m next = some (b, m')) :
    ∃ (P : Pool) (free : ℕ → List ℕ), Inv P P.pages b free [] ∧ (∀ p, b.map p = false) ∧
      Coalesced P.top (byOrder free (P.top + 1)) ∧
      (∀ a k, (k ≤ P.top ∧ ∃ i ∈ free k, P.addr i = a) ↔ (a, k) ∈ b.carvedBlocks) ∧
      ∀ k, (free k).length ≤ 1 := by
  obtain ⟨t, top, base, size, rfl, rfl, ht, htop, hcarve⟩ := buddyInit_eq_some hb
  obtain ⟨P, hbase, hsize, hPtop, hpb, hcov⟩ := exists_pool h ht htop
  rw [← hbase, ← hPtop] at hcarve
  rw [← hbase] at hsize
  rw [hsize, Nat.mul_div_cancel_left _ (by decide)] at hcarve
  have hmap := (bitmapEnd_spec m).2
  have hblank : Inv P 0 (blank P.base (pageSize * P.pages) (bitmapSize m) P.top next)
      (fun _ => []) [] := by
    have hnil : byOrder (fun _ => ([] : List ℕ)) (P.top + 1) = [] := by
      refine List.eq_nil_iff_forall_not_mem.mpr fun c hc => ?_
      exact absurd (mem_byOrder.mp hc).2 List.not_mem_nil
    refine ⟨Nat.zero_le _, rfl, rfl, rfl, fun hne => (hmap hne).1.trans_le hpb,
      fun hne => (hmap hne).2 _ hcov, fun _ _ => rfl, fun _ _ => rfl, ?_, ?_⟩
    · simp [hnil]
    · intro p
      simp [hnil]
  have haddr : P.addr 0 % word = P.base := by
    have hpages : 0 < P.pages := (Nat.two_pow_pos _).trans_le P.top_le
    rw [Nat.mod_eq_of_lt (P.addr_lt hpages)]
    rfl
  have hcarve' : carveLoop P.pages (pageSize * P.pages) (P.addr 0 % word)
      (blank P.base (pageSize * P.pages) (bitmapSize m) P.top next) = some b := by
    rw [haddr]
    exact hcarve
  obtain ⟨free, hinv, hbits, -, hlen, hmem⟩ :=
    carveLoop_spec hblank (Nat.zero_add _) (fun k _ => ⟨dvd_zero _, rfl⟩) (fun _ => Nat.zero_le 1)
      hcarve'
  refine ⟨P, free, hinv, fun p => ?_, coalesced_of_length hinv hlen, fun a k => ?_, hlen⟩
  · rw [hbits]
    rfl
  · rw [hmem, carvedBlocks, hinv.base_eq, hinv.size_eq, hinv.top_eq, haddr,
      Nat.mul_div_cancel_left _ (show 0 < pageSize by decide)]
    simp

/-- Rounding up an address that may lie behind the last word. -/
theorem align_mod {v k : ℕ} (hv : v ≤ word) (hk : k ≤ 32) :
    ∃ c, align (v % word) (2 ^ k) = (2 ^ k * c) % word ∧
      v ≤ 2 ^ k * c ∧ 2 ^ k * c ≤ word ∧ 2 ^ k * c < v + 2 ^ k := by
  have hpos := Nat.two_pow_pos k
  have hle : 2 ^ k ≤ word := Nat.pow_le_pow_right (by omega) hk
  have htop : 2 ^ k * 2 ^ (32 - k) = word := by
    rw [← pow_add, Nat.add_sub_cancel' hk]
    rfl
  by_cases hvw : v = word
  · refine ⟨2 ^ (32 - k), ?_, by omega, by omega, by omega⟩
    rw [htop, hvw, Nat.mod_self, align_two_pow hk (by omega), Nat.zero_add,
      Nat.div_eq_of_lt (by omega), Nat.zero_mul]
  · rw [Nat.mod_eq_of_lt (by omega)]
    by_cases hx : v + (2 ^ k - 1) < word
    · have h₁ := le_align hk hx
      have h₂ := align_lt_add hk hx
      have h₃ := align_two_pow hk hx
      rw [Nat.mul_comm] at h₃
      refine ⟨(v + (2 ^ k - 1)) / 2 ^ k, ?_, by omega, by omega, by omega⟩
      rw [h₃, Nat.mod_eq_of_lt (by omega)]
    · refine ⟨2 ^ (32 - k), ?_, by omega, by omega, by omega⟩
      rw [align_wrap hk (by omega) (by omega), htop, Nat.mod_self]

/-- When the memory straddles the first GiB, the address zero is the address of
the first or of the second carved block. -/
theorem zero_mem_pool {m : Memblock} (h : Straddles m) {t top base size : ℕ}
    (hbase : base = align (p2v (bitmapEnd m)) (blockSize t))
    (hsize : size = wsub (p2v m.heapEnd) base)
    (ht : floorLog2 (wsub (p2v m.heapEnd) (align (p2v (bitmapEnd m)) pageSize) / pageSize) = some t)
    (htop : floorLog2 (size / pageSize) = some top) :
    ∃ p₀, wadd base (pageSize * p₀) = 0 ∧ (p₀ = 0 ∨ p₀ = 2 ^ top) ∧ p₀ < size / pageSize ∧
      pageSize * (size / pageSize) = size := by
  have hlt := m.lt
  have hw : word = 2 ^ 32 := rfl
  have hkern : kernBase = 3 * 2 ^ 30 := rfl
  have hps : pageSize = 2 ^ 12 := rfl
  obtain ⟨q, hq⟩ := m.dvd
  obtain ⟨hlow, hhigh⟩ := h
  have hpow : 2 ^ (12 + t) = 2 ^ 12 * 2 ^ t := pow_add 2 12 t
  have hE : p2v m.heapEnd = m.heapEnd + kernBase - word := by
    rw [p2v, wadd, Nat.mod_eq_sub_mod (by omega), Nat.mod_eq_of_lt (by omega)]
  have hV : p2v (bitmapEnd m) = (bitmapEnd m + kernBase) % word := rfl
  have hkv : kernBase ≤ bitmapEnd m + kernBase := Nat.le_add_left _ _
  have hvw : bitmapEnd m + kernBase ≤ word := by omega
  generalize bitmapEnd m + kernBase = v at hV hkv hvw
  -- An address `x` of the stretch lies below its end, reduced or not.
  have hsub (x : ℕ) (hx : kernBase ≤ x) (hxw : x ≤ word) :
      wsub (p2v m.heapEnd) (x % word) = m.heapEnd + kernBase - x := by
    rw [hE]
    simp only [wsub, word, kernBase] at *
    omega
  obtain ⟨c₁, hT, hT₁, hT₂, hT₃⟩ := align_mod (k := 12) hvw (by omega)
  rw [hV, hps, hT, hsub _ (by omega) hT₂] at ht
  obtain ⟨hlo, hhi⟩ := floorLog2_eq_some ht
  have ht20 : t ≤ 20 := by
    have h20 : 2 ^ t ≤ 2 ^ 20 := by omega
    exact (Nat.pow_le_pow_iff_right (by omega)).mp h20
  obtain ⟨c₂, hB, hB₁, hB₂, hB₃⟩ := align_mod (k := 12 + t) hvw (by omega)
  rw [hV, blockSize_eq, hB] at hbase
  rw [hbase, hsub _ (by omega) hB₂] at hsize
  have hpage : 2 ^ (12 + t) * c₂ = 2 ^ 12 * (2 ^ t * c₂) := by
    rw [hpow]
    ring
  have hdvd : pageSize ∣ size := by
    rw [hsize, hq, hpage, hps, hkern]
    exact Nat.dvd_sub (Nat.dvd_add (Dvd.intro _ rfl) (by norm_num)) (Dvd.intro _ rfl)
  have hmul : pageSize * (size / pageSize) = size := Nat.mul_div_cancel' hdvd
  obtain ⟨hlo', hhi'⟩ := floorLog2_eq_some htop
  have hword : word = 2 ^ (12 + t) * 2 ^ (20 - t) := by
    rw [← pow_add, show 12 + t + (20 - t) = 32 by omega]
    rfl
  by_cases hc : 2 ^ (20 - t) ≤ c₂
  · have hBw : 2 ^ (12 + t) * c₂ = word :=
      le_antisymm hB₂ (hword ▸ Nat.mul_le_mul_left _ hc)
    refine ⟨0, ?_, .inl rfl, (Nat.two_pow_pos top).trans_le hlo', hmul⟩
    rw [hbase, hBw, Nat.mod_self]
    rfl
  · -- The base lies below the last word, and one block of the top order reaches it.
    have hgap : 2 ^ (12 + t) * (c₂ + 1) ≤ word := hword ▸ Nat.mul_le_mul_left _ (by omega)
    rw [Nat.mul_add, Nat.mul_one] at hgap
    have hTB : 2 ^ 12 * c₁ ≤ 2 ^ (12 + t) * c₂ := by omega
    have hone : 2 ^ (12 + t) * c₂ + 2 ^ (12 + t) = word := by
      by_contra hne
      have hgap₂ : 2 ^ (12 + t) * (c₂ + 2) ≤ word := by
        refine hword ▸ Nat.mul_le_mul_left _ ?_
        by_contra! hlt₂
        refine hne ?_
        rw [hword, show 2 ^ (20 - t) = c₂ + 1 by omega]
        ring
      rw [Nat.mul_add] at hgap₂
      rw [pow_succ] at hhi
      omega
    have htt : top = t := by
      rw [hps] at hlo' hhi' hmul
      have h₁ : 2 ^ t < 2 ^ (top + 1) := by omega
      have h₂ : 2 ^ top < 2 ^ (t + 1) := by
        rw [pow_succ] at hhi ⊢
        omega
      have h₃ := (Nat.pow_lt_pow_iff_right (a := 2) (by omega)).mp h₁
      have h₄ := (Nat.pow_lt_pow_iff_right (a := 2) (by omega)).mp h₂
      omega
    refine ⟨2 ^ top, ?_, .inr rfl, ?_, hmul⟩
    · rw [hbase, Nat.mod_eq_of_lt (by omega), wadd, htt, hps, ← hpow, hone, Nat.mod_self]
    · rw [htt]
      rw [hps] at hmul ⊢
      omega

/-- Carving in a pool whose page `p₀` has the address zero. The chains hold
blocks on either side of that page, and none over it. -/
structure Lost (b : BuddyAllocator) (p₀ o : ℕ) (lists : ℕ → List ℕ) : Prop where
  zero : wadd b.base (pageSize * p₀) = 0
  chain : ∀ k ≤ b.maxOrder, Linked 0 b.next (b.freeLists k) (lists k)
  apart : ∀ k ≤ b.maxOrder, ∀ a ∈ lists k, ∃ i < o, a = wadd b.base (pageSize * i) ∧
    (i + 2 ^ k ≤ p₀ ∨ p₀ < i)

theorem wadd_page_inj {base i j : ℕ} (hi : i < 2 ^ 20) (hj : j < 2 ^ 20)
    (h : wadd base (pageSize * i) = wadd base (pageSize * j)) : i = j := by
  simp only [wadd, pageSize, word] at h
  omega

theorem Lost.add {p₀ o k : ℕ} {lists : ℕ → List ℕ} (h : Lost b p₀ o lists) (hk : k ≤ b.maxOrder)
    (ho : o < 2 ^ 20) (hp₀ : p₀ < 2 ^ 20) (hside : o + 2 ^ k ≤ p₀ ∨ p₀ ≤ o) :
    ∃ lists', Lost (b.buddyListAdd (wadd b.base (pageSize * o)) k) p₀ (o + 2 ^ k) lists' := by
  have hpos := Nat.two_pow_pos k
  have hfresh : ∀ j ≤ b.maxOrder, wadd b.base (pageSize * o) ∉ lists j := by
    intro j hj hmem
    obtain ⟨i, hi, heq, -⟩ := h.apart j hj _ hmem
    have := wadd_page_inj ho (hi.trans ho) heq
    omega
  have hold : ∀ j ≤ b.maxOrder, ∀ a ∈ lists j, ∃ i < o + 2 ^ k,
      a = wadd b.base (pageSize * i) ∧ (i + 2 ^ j ≤ p₀ ∨ p₀ < i) := by
    intro j hj a ha
    obtain ⟨i, hi, hrest⟩ := h.apart j hj a ha
    exact ⟨i, by omega, hrest⟩
  by_cases hop : o = p₀
  · -- The block at the address zero empties its list instead of joining it.
    have hzero : wadd b.base (pageSize * o) = 0 := hop ▸ h.zero
    refine ⟨Function.update lists k [], h.zero, fun j hj => ?_, fun j hj a ha => ?_⟩
    · simp only [buddyListAdd]
      by_cases hjk : j = k
      · rw [hjk, Function.update_self, Function.update_self]
        exact hzero
      · rw [Function.update_of_ne hjk, Function.update_of_ne hjk]
        exact (h.chain j hj).store (hfresh j hj)
    · by_cases hjk : j = k
      · rw [hjk, Function.update_self] at ha
        exact absurd ha List.not_mem_nil
      · rw [Function.update_of_ne hjk] at ha
        exact hold j hj a ha
  · have hne : wadd b.base (pageSize * o) ≠ 0 := by
      intro heq
      exact hop (wadd_page_inj ho hp₀ (heq.trans h.zero.symm))
    refine ⟨Function.update lists k (wadd b.base (pageSize * o) :: lists k), h.zero,
      fun j hj => ?_, fun j hj a ha => ?_⟩
    · simp only [buddyListAdd]
      by_cases hjk : j = k
      · rw [hjk, Function.update_self, Function.update_self]
        exact (h.chain k hk).push hne (hfresh k hk)
      · rw [Function.update_of_ne hjk, Function.update_of_ne hjk]
        exact (h.chain j hj).store (hfresh j hj)
    · by_cases hjk : j = k
      · subst hjk
        rw [Function.update_self] at ha
        rcases List.mem_cons.mp ha with rfl | ha
        · exact ⟨o, by omega, rfl, by omega⟩
        · exact hold _ hk a ha
      · rw [Function.update_of_ne hjk] at ha
        exact hold j hj a ha

/-- Behind the page with the address zero the carving goes on, and ends without
a block over that page. -/
theorem carveLoop_lost {fuel p₀ o r : ℕ} {lists : ℕ → List ℕ} (h : Lost b p₀ o lists)
    (hr : o + r < 2 ^ 20) (hp₀ : p₀ < 2 ^ 20)
    (hside : p₀ ≤ o ∨ (o + 2 ^ b.maxOrder = p₀ ∧ 2 ^ b.maxOrder ≤ r)) {b' : BuddyAllocator}
    (hc : carveLoop fuel (pageSize * r) (wadd b.base (pageSize * o)) b = some b') :
    ∃ o' lists', o' ≤ 2 ^ 20 ∧ Lost b' p₀ o' lists' := by
  induction fuel generalizing o r b lists with
  | zero =>
      unfold carveLoop at hc
      split_ifs at hc
      cases hc
      exact ⟨o, lists, by omega, h⟩
  | succ fuel ih =>
      unfold carveLoop at hc
      split_ifs at hc with hz
      · cases hc
        exact ⟨o, lists, by omega, h⟩
      · have hr0 : r ≠ 0 := by
          intro hr0
          simp [hr0, pageSize] at hz
        have hdiv : pageSize * r / pageSize = r := Nat.mul_div_cancel_left r (by decide)
        have hlog : floorLog2 r = some r.log2 := if_neg hr0
        simp only [hdiv, hlog, Option.bind_eq_bind, Option.bind_some] at hc
        generalize hk : min r.log2 b.maxOrder = k at hc
        have hfit : 2 ^ k ≤ r := by
          have := Nat.pow_le_pow_right (n := 2) (by omega) (hk ▸ min_le_left r.log2 b.maxOrder)
          exact this.trans (Nat.log2_self_le hr0)
        have hkm : k ≤ b.maxOrder := hk ▸ min_le_right _ _
        have hnext : wadd (wadd b.base (pageSize * o)) (blockSize k) =
            wadd b.base (pageSize * (o + 2 ^ k)) := by
          simp only [wadd, blockSize, Nat.mod_add_mod, Nat.mul_add]
          congr 1
          omega
        have hrem : pageSize * r - blockSize k = pageSize * (r - 2 ^ k) := by
          rw [blockSize, Nat.mul_sub]
        rw [hnext, hrem] at hc
        -- While the page lies ahead, the block is one of the top order and ends there.
        have hstep : p₀ ≤ o ∨ o + 2 ^ k = p₀ := by
          rcases hside with hside | ⟨hside, hbig⟩
          · exact .inl hside
          · right
            have hlt : 2 ^ b.maxOrder < 2 ^ (r.log2 + 1) := hbig.trans_lt Nat.lt_log2_self
            have := (Nat.pow_lt_pow_iff_right (a := 2) (by omega)).mp hlt
            rw [← hk, min_eq_right (by omega), hside]
        obtain ⟨lists', hl⟩ := h.add hkm (by omega) hp₀ (by omega)
        have hpos := Nat.two_pow_pos k
        exact ih hl (by omega) (.inl (by omega)) hc

theorem mem_carve_head {top fuel n addr : ℕ} (hn : n ≠ 0) :
    ∃ k ≤ top, (addr, k) ∈ carve top (fuel + 1) (pageSize * n) addr := by
  have hfit : ¬ pageSize * n < pageSize := by
    simp only [pageSize]
    omega
  unfold carve
  rw [if_neg hfit]
  exact ⟨_, min_le_right _ _, List.mem_cons_self⟩

/-- The address zero is the address of the first carved block or of the second,
which follows a block of the top order. -/
theorem zero_mem_carve {base top n p₀ : ℕ} (hzero : wadd base (pageSize * p₀) = 0)
    (hp₀ : p₀ = 0 ∨ p₀ = 2 ^ top) (hlo : 2 ^ top ≤ n) (hlt : p₀ < n) (hbw : base < word) :
    ∃ k ≤ top, (0, k) ∈ carve top n (pageSize * n) base := by
  have hpos := Nat.two_pow_pos top
  have hn0 : n ≠ 0 := by omega
  obtain ⟨f, hf⟩ := Nat.exists_eq_succ_of_ne_zero hn0
  rcases hp₀ with rfl | rfl
  · rw [Nat.mul_zero, wadd, Nat.add_zero, Nat.mod_eq_of_lt hbw] at hzero
    subst hzero
    have h := @mem_carve_head top f n 0 hn0
    rwa [← Nat.succ_eq_add_one, ← hf] at h
  · have hlog : min n.log2 top = top := by
      have h := (Nat.pow_lt_pow_iff_right (a := 2) (by omega)).mp (hlo.trans_lt Nat.lt_log2_self)
      exact min_eq_right (by omega)
    have hfit : ¬ pageSize * n < pageSize := by
      simp only [pageSize]
      omega
    have hdiv : pageSize * n / pageSize = n := Nat.mul_div_cancel_left n pageSize_pos
    have hcons : carve top (f + 1) (pageSize * n) base =
        (base, top) :: carve top f (pageSize * (n - 2 ^ top)) 0 := by
      have haddr : wadd base (blockSize top) = 0 := hzero
      have hrem : pageSize * n - blockSize top = pageSize * (n - 2 ^ top) := by
        rw [blockSize, Nat.mul_sub]
      rw [carve, if_neg hfit]
      simp only [hdiv, hlog, haddr, hrem]
    obtain ⟨g, hg⟩ := Nat.exists_eq_succ_of_ne_zero (show f ≠ 0 by omega)
    have h := @mem_carve_head top g _ 0 (show n - 2 ^ top ≠ 0 by omega)
    rw [← Nat.succ_eq_add_one, ← hg] at h
    obtain ⟨k, hk, hmem⟩ := h
    refine ⟨k, hk, ?_⟩
    have hcons' : carve top n (pageSize * n) base = carve top (f + 1) (pageSize * n) base := by
      rw [hf]
    rw [hcons', hcons]
    exact List.mem_cons_of_mem _ hmem

/-- What `buddy_init` leaves on a machine whose memory straddles the first GiB: a page
outside all lists, the first of a block carved at the address zero. -/
theorem buddyInit_lost {m m' : Memblock} {next : ℕ → ℕ} (h : Straddles m)
    (hb : buddyInit m next = some (b, m')) :
    (∃ p₀ < b.size / pageSize, ∀ k ≤ b.maxOrder, ∀ a, b.OnList a k →
      ¬ Block.Has ⟨b.pageIndex a, k⟩ p₀) ∧ ∃ k ≤ b.maxOrder, (0, k) ∈ b.carvedBlocks := by
  obtain ⟨t, top, base, size, hbase, hsize, ht, htop, hcarve⟩ := buddyInit_eq_some hb
  obtain ⟨p₀, hzero, hp₀, hlt, hmul⟩ := zero_mem_pool h hbase hsize ht htop
  obtain ⟨hbb, hbs, hbm, -⟩ := carveLoop_frame hcarve
  have hlo := (floorLog2_eq_some htop).1
  have hhi := (floorLog2_eq_some htop).2
  have hsw : size < word := hsize ▸ wsub_lt _ _
  have hbw : base < word := by
    rw [hbase, blockSize_eq]
    exact align_lt _ _
  generalize hn : size / pageSize = n at hcarve hlo hhi hlt hmul
  have hn20 : n < 2 ^ 20 := by
    simp only [pageSize, word] at hmul hsw
    omega
  simp only [blank] at hbb hbs hbm
  constructor
  · have hblank : Lost (blank base size (bitmapSize m) top next) p₀ 0 (fun _ => []) :=
      ⟨hzero, fun _ _ => rfl, fun _ _ a ha => absurd ha List.not_mem_nil⟩
    have hcarve' : carveLoop n (pageSize * n) (wadd base (pageSize * 0))
        (blank base size (bitmapSize m) top next) = some b := by
      rw [hmul, Nat.mul_zero, wadd, Nat.add_zero, Nat.mod_eq_of_lt hbw]
      exact hcarve
    have hside : p₀ ≤ 0 ∨ (0 + 2 ^ top = p₀ ∧ 2 ^ top ≤ n) := by
      rcases hp₀ with hp₀ | hp₀
      · exact .inl hp₀.le
      · exact .inr ⟨by omega, hlo⟩
    obtain ⟨o', lists, ho', hl⟩ := carveLoop_lost hblank (by omega) (by omega) hside hcarve'
    refine ⟨p₀, ?_, fun k hk a ha hhas => ?_⟩
    · rw [hbs]
      exact hlt.trans_eq hn.symm
    · obtain ⟨l, hlink, hmem⟩ := ha
      rw [hlink.unique (hl.chain k hk)] at hmem
      obtain ⟨i, hi, rfl, hside⟩ := hl.apart k hk a hmem
      have hidx : b.pageIndex (wadd b.base (pageSize * i)) = i := by
        have hbw' : b.base < word := hbb ▸ hbw
        simp only [pageIndex, wadd, wsub, pageSize, word] at hbw' ⊢
        omega
      rw [hidx] at hhas
      simp only [Block.Has] at hhas
      omega
  · rw [carvedBlocks, hbb, hbs, hbm, hn, ← hmul]
    exact zero_mem_carve hzero hp₀ hlo hlt hbw

end BuddyAllocator
end Ferrite.Memory
