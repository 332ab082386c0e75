import Ferrite.Memory.BuddyRuns

/-!
# `buddy_init` on a machine with a page to spare

On memory below 896 MiB no address wraps around. The base is rounded up to a multiple of the
largest block that fits between the bitmap and the end, so the rounding stays below that end.
-/
namespace Ferrite.Memory
open Word DyadicBlocks Chain BuddyAllocator

/-- Where the kernel maps memory one to one: 896 MiB. -/
def directEnd : ℕ := 896 * 2 ^ 20

/-- The pool lies behind the bitmap and ends with the memory, each of its pages has a bit, and
the carved blocks tile it and are the ones on the lists. -/
structure SetUp (m : Memblock) (b : BuddyAllocator) : Prop where
  nonempty : pageSize ≤ b.size
  ends : b.base + b.size = p2v m.heapEnd
  bitmap : p2v (memblock m b.mapSize).1 + b.mapSize ≤ b.base
  bits : ∀ p < b.size / pageSize, p / 8 < b.mapSize
  maxOrder : b.maxOrder = Nat.log 2 (b.size / pageSize)
  tiled : Safe ⟨b, []⟩
  placed : ∀ k ≤ b.maxOrder, ∀ a, b.OnList a k ↔ (a, k) ∈ b.carvedBlocks
  carved : ∀ x ∈ b.carvedBlocks, x.2 ≤ b.maxOrder ∧ blockSize x.2 ∣ v2p x.1

/-- A whole page remains between the bitmap, rounded up to a page, and the end. -/
def HasPage (m : Memblock) : Prop := align (m.nextFree + bitmapSize m) pageSize + pageSize ≤ m.heapEnd

instance (m : Memblock) : Decidable (HasPage m) := inferInstanceAs (Decidable (_ ≤ _))

variable {m : Memblock} {b : BuddyAllocator}

/-- Each round of the carving takes at least a page. -/
theorem carveLoop_some {fuel r addr : ℕ} (h : r ≤ fuel) : ∃ b',
    carveLoop fuel (pageSize * r) addr b = some b' := by
  induction fuel generalizing r addr b with
  | zero =>
      obtain rfl : r = 0 := Nat.le_zero.mp h
      exact ⟨b, rfl⟩
  | succ fuel ih =>
      unfold carveLoop
      by_cases hr : r = 0
      · rw [if_pos (by rw [hr]; decide)]
        exact ⟨b, rfl⟩
      · have hdiv : pageSize * r / pageSize = r := Nat.mul_div_cancel_left r pageSize_pos
        have hlog : floorLog2 r = some r.log2 := if_neg hr
        rw [if_neg (by unfold pageSize; omega), hdiv, hlog]
        have hpos := Nat.two_pow_pos (min r.log2 b.maxOrder)
        have hrem : pageSize * r - blockSize (min r.log2 b.maxOrder)
            = pageSize * (r - 2 ^ min r.log2 b.maxOrder) := by
          rw [blockSize, Nat.mul_sub]
        dsimp only [Option.bind_eq_bind, Option.bind_some]
        rw [hrem]
        exact ih (by omega)

/-- The bitmap starts at the first free address. -/
theorem HasPage.bitmap (h : HasPage m) (hend : m.heapEnd ≤ directEnd) :
    (memblock m (bitmapSize m)).1 = m.nextFree ∧ bitmapEnd m = m.nextFree + bitmapSize m ∧
      bitmapEnd m ≤ (bitmapEnd m + (pageSize - 1)) / pageSize * pageSize ∧
      (bitmapEnd m + (pageSize - 1)) / pageSize * pageSize + pageSize ≤ m.heapEnd := by
  have hle := m.le
  have hsize := bitmapSize_eq m
  have hw : word = 2 ^ 32 := rfl
  have hps : pageSize = 2 ^ 12 := rfl
  unfold HasPage at h
  unfold directEnd at hend
  generalize hd : (m.heapEnd - m.nextFree) / pageSize = d at hsize
  have hd' : 2 ^ 12 * d ≤ m.heapEnd - m.nextFree := by
    rw [← hd]
    exact Nat.mul_div_le _ _
  have halign : align (m.nextFree + bitmapSize m) pageSize
      = (m.nextFree + bitmapSize m + (2 ^ 12 - 1)) / 2 ^ 12 * 2 ^ 12 :=
    align_two_pow (k := 12) (by omega) (by omega)
  rw [halign] at h
  have hroom : m.heapEnd - m.nextFree < 2 ^ 12 * (d + 1) := by
    rw [← hd]
    exact Nat.lt_mul_div_succ _ (by decide)
  have hpos : bitmapSize m ≠ 0 := by omega
  have hadd : wadd m.nextFree (bitmapSize m) = m.nextFree + bitmapSize m := wadd_of_lt (by omega)
  have hfirst : (memblock m (bitmapSize m)).1 = m.nextFree := by
    unfold memblock
    rw [if_neg hpos, dif_pos (by rw [hadd]; omega)]
  have hstop : bitmapEnd m = m.nextFree + bitmapSize m := by
    unfold bitmapEnd
    rw [hfirst, hadd]
  rw [hstop, hps]
  exact ⟨hfirst, rfl, by omega, h⟩

/-- Rounding the end of the bitmap up to a block of the order that is tried first. -/
theorem HasPage.base (h : HasPage m) (hend : m.heapEnd ≤ directEnd) :
    ∃ t n, floorLog2 (wsub (p2v m.heapEnd) (align (p2v (bitmapEnd m)) pageSize) / pageSize) = some t ∧ n ≠ 0 ∧
      wsub (p2v m.heapEnd) (align (p2v (bitmapEnd m)) (blockSize t)) = pageSize * n := by
  obtain ⟨-, -, -, hroom⟩ := h.bitmap hend
  have hw : word = 2 ^ 32 := rfl
  have hkern : kernBase = 4096 * 786432 := rfl
  have hps : pageSize = 4096 := rfl
  unfold directEnd at hend
  obtain ⟨q, hq⟩ := m.dvd
  rw [hps] at hroom hq
  have hlast : bitmapEnd m + 4095 < 4096 * q := by omega
  clear hroom
  have hlow : p2v (bitmapEnd m) = bitmapEnd m + kernBase := wadd_of_lt (by omega)
  have hhigh : p2v m.heapEnd = m.heapEnd + kernBase := wadd_of_lt (by omega)
  have halign : align (bitmapEnd m + kernBase) pageSize = (bitmapEnd m + kernBase + 4095) / 4096 * 4096 :=
    align_two_pow (k := 12) (by omega) (by omega)
  have hroom' : wsub (p2v m.heapEnd) (align (p2v (bitmapEnd m)) pageSize)
      = m.heapEnd + kernBase - (bitmapEnd m + kernBase + 4095) / 4096 * 4096 := by
    rw [hlow, hhigh, halign]
    exact wsub_of_le (by omega) (by omega)
  have hne : wsub (p2v m.heapEnd) (align (p2v (bitmapEnd m)) pageSize) / pageSize ≠ 0 := by
    rw [hroom', hps]
    omega
  obtain ⟨t, hlog⟩ : ∃ t,
      floorLog2 (wsub (p2v m.heapEnd) (align (p2v (bitmapEnd m)) pageSize) / pageSize) = some t :=
    ⟨_, if_neg hne⟩
  have hdvd : pageSize ∣ m.heapEnd + kernBase := ⟨q + 786432, by rw [hps]; omega⟩
  obtain ⟨-, hbelow, hmul, -⟩ := base_spec (v := bitmapEnd m + kernBase) (by omega) (by omega)
      (by omega) hdvd hlog
  have hmod : (bitmapEnd m + kernBase) % word = p2v (bitmapEnd m) := rfl
  rw [hmod] at hbelow hmul
  refine ⟨t, (m.heapEnd + kernBase - align (p2v (bitmapEnd m)) (blockSize t)) / pageSize, hlog, ?_⟩
  clear hlog
  generalize align (p2v (bitmapEnd m)) (blockSize t) = B at hbelow hmul
  have hpages : pageSize ∣ B := (Dvd.intro _ rfl).trans hmul
  obtain ⟨c, hc⟩ := hpages
  have hsub : wsub (p2v m.heapEnd) B = m.heapEnd + kernBase - B := by
    rw [hhigh]
    exact wsub_of_le hbelow.le (by omega)
  rw [hps] at hc
  rw [hsub, hps]
  omega

/-- `buddy_init` when nothing is in the way of the carving. -/
theorem buddyInit_eq {next : ℕ → ℕ} {t top base size : ℕ} (hmap : p2v (memblock m (bitmapSize m)).1 ≠ 0)
    (ht : floorLog2 (wsub (p2v m.heapEnd) (align (p2v (bitmapEnd m)) pageSize) / pageSize) = some t)
    (hbase : align (p2v (bitmapEnd m)) (blockSize t) = base) (hsize : wsub (p2v m.heapEnd) base = size)
    (hpage : ¬ size < pageSize) (htop : floorLog2 (size / pageSize) = some top)
    (hb : carveLoop (size / pageSize) size base (blank base size (bitmapSize m) top next) = some b) :
    ∃ m', buddyInit m next = some (b, m') := by
  have hfold : align (ceilDiv (wsub m.heapEnd m.nextFree / pageSize) 8) 4 = bitmapSize m := rfl
  have hwadd : wadd (p2v (memblock m (bitmapSize m)).1) (bitmapSize m) = p2v (bitmapEnd m) := by
    simp only [bitmapEnd, p2v, wadd, word]
    omega
  unfold blank at hb
  unfold buddyInit
  dsimp only
  rw [hfold, if_neg hmap, hwadd]
  refine ⟨(memblock m (bitmapSize m)).2, Option.bind_eq_some_iff.mpr ⟨t, ht, ?_⟩⟩
  rw [hbase, hsize, if_neg hpage]
  exact Option.bind_eq_some_iff.mpr ⟨top, htop, Option.bind_eq_some_iff.mpr ⟨b, hb, rfl⟩⟩

/-- `buddy_init` neither traps nor aborts. -/
theorem HasPage.succeeds (h : HasPage m) (hend : m.heapEnd ≤ directEnd) (next : ℕ → ℕ) :
    ∃ b m', buddyInit m next = some (b, m') := by
  obtain ⟨t, n, ht, hn, hsize⟩ := h.base hend
  obtain ⟨hfirst, -⟩ := h.bitmap hend
  have hmap : p2v (memblock m (bitmapSize m)).1 ≠ 0 := by
    have hle := m.le
    unfold directEnd at hend
    rw [hfirst, p2v, wadd_of_lt (by simp only [kernBase, word]; omega)]
    simp only [kernBase]
    omega
  have hdiv : pageSize * n / pageSize = n := Nat.mul_div_cancel_left n pageSize_pos
  obtain ⟨b, hb⟩ : ∃ b, carveLoop n (pageSize * n) (align (p2v (bitmapEnd m)) (blockSize t))
      (blank (align (p2v (bitmapEnd m)) (blockSize t)) (pageSize * n) (bitmapSize m) n.log2 next) = some b :=
    carveLoop_some (le_refl n)
  have hpage : ¬ pageSize * n < pageSize := by
    have := Nat.le_mul_of_pos_right pageSize (Nat.pos_of_ne_zero hn)
    omega
  exact ⟨b, buddyInit_eq hmap ht rfl hsize hpage (by rw [hdiv]; exact if_neg hn) (by rw [hdiv]; exact hb)⟩

/-- What `buddy_init` then leaves. -/
theorem HasPage.setUp (h : HasPage m) (hend : m.heapEnd ≤ directEnd) {next : ℕ → ℕ} {m' : Memblock}
    (hb : buddyInit m next = some (b, m')) : SetUp m b := by
  have hw : word = 2 ^ 32 := rfl
  have hkern : kernBase = 3 * 2 ^ 30 := rfl
  have hstr : ¬ Straddles m := by
    rintro ⟨-, hhigh⟩
    unfold directEnd at hend
    omega
  obtain ⟨P, free, hinv, -, -, hmem, -⟩ := buddyInit_spec hstr hb
  obtain ⟨t, top, base, size, hbase, hsize, ht, htop, hcarve⟩ := buddyInit_eq_some hb
  obtain ⟨hbb, hbs, hbm, hbmap⟩ := carveLoop_frame hcarve
  simp only [blank] at hbb hbs hbm hbmap
  obtain ⟨hfirst, hstop, hup, hroom⟩ := h.bitmap hend
  unfold directEnd at hend
  have hlow : p2v (bitmapEnd m) = bitmapEnd m + kernBase := wadd_of_lt (by omega)
  have hhigh : p2v m.heapEnd = m.heapEnd + kernBase := wadd_of_lt (by omega)
  have hpages : 0 < P.pages := (Nat.two_pow_pos _).trans_le P.top_le
  have hps : pageSize = 4096 := rfl
  have hends : b.base + b.size = p2v m.heapEnd := by
    have hfits := P.fits
    rw [← hinv.base_eq, ← hinv.size_eq] at hfits
    have hsub : b.size = (m.heapEnd + kernBase + 2 ^ 32 - b.base) % 2 ^ 32 := by
      rw [hbs, hsize, hhigh, ← hbb]
      rfl
    rw [hhigh]
    omega
  have hbehind : bitmapEnd m + kernBase ≤ b.base := by
    obtain ⟨q, hq⟩ := m.dvd
    have hdvd : pageSize ∣ m.heapEnd + kernBase := ⟨q + 786432, by rw [hps] at hq ⊢; omega⟩
    have hspec := base_spec (v := bitmapEnd m + kernBase) (by omega) (by omega) (by omega) hdvd ht
    rw [hbb, hbase]
    exact hspec.1
  refine ⟨?_, hends, ?_, ?_, ?_, hinv.safe, ?_, ?_⟩
  · rw [hinv.size_eq, hps]
    omega
  · rw [hbmap, hfirst, p2v, wadd_of_lt (by omega)]
    omega
  · intro p hp
    rw [size_div hinv] at hp
    have hpos : b.mapSize ≠ 0 := by
      rw [hbmap, bitmapSize_eq, hps]
      rw [hps] at hroom
      omega
    have := hinv.covers hpos
    omega
  · rw [hbm, hbs, ← Nat.log2_eq_log_two]
    unfold floorLog2 at htop
    split_ifs at htop
    exact (Option.some.inj htop).symm
  · intro k hk a
    have hk' : k ≤ P.top := hinv.top_eq ▸ hk
    rw [hinv.onList_iff hk', ← hmem]
    simp [hk']
  · rintro ⟨a, k⟩ hx
    obtain ⟨hk, i, hi, rfl⟩ := (hmem a k).mpr hx
    refine ⟨hinv.top_eq ▸ hk, ?_⟩
    have hal : 2 ^ k ∣ i := hinv.aligned _ (hinv.mem_free hk hi)
    have htop : blockSize k ∣ blockSize P.top := Nat.mul_dvd_mul_left _ (pow_dvd_pow 2 hk)
    rw [P.v2p_addr (hinv.free_lt hk hi)]
    exact Nat.dvd_add (htop.trans P.dvd) (Nat.mul_dvd_mul_left _ hal)

/-- On every machine that ends below 896 MiB with a page to spare `buddy_init` succeeds, and
its carved blocks tile the pool. -/
theorem buddy_set_up (m : Memblock) (hend : m.heapEnd ≤ directEnd) (h : HasPage m) (next : ℕ → ℕ) :
    ∃ b m', buddyInit m next = some (b, m') ∧ SetUp m b := by
  obtain ⟨b, m', hb⟩ := h.succeeds hend next
  exact ⟨b, m', hb, h.setUp hend hb⟩

theorem buddy_set_up_small : ∃ b m', buddyInit smallMachine (fun _ => 0) = some (b, m') ∧
    SetUp smallMachine b :=
  buddy_set_up smallMachine (by decide) (by decide) fun _ => 0

end Ferrite.Memory
