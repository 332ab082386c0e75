import Ferrite.Memory.Buddy
import Ferrite.Library.DyadicBlocks
import Ferrite.Library.Chain
import Mathlib.Tactic.Linarith

/-!
# The pool of the buddy allocator

Pages of the pool are numbered from `base`. The pool is one stretch of virtual
addresses, none of them zero, and one stretch of physical addresses; the XOR on
physical addresses that finds a buddy is then an XOR on page numbers. Set-up
gives such a pool except on machines whose free memory lies on both sides of the
first GiB, where the virtual addresses wrap around.
-/
namespace Ferrite.Memory
open Word DyadicBlocks Chain

/-- A pool of pages whose physical base is aligned to its largest block. -/
structure Pool where
  base : ℕ
  pbase : ℕ
  pages : ℕ
  top : ℕ
  base_ne_zero : base ≠ 0
  p2v_pbase : p2v pbase = base
  fits : base + pageSize * pages ≤ word
  pfits : pbase + pageSize * pages ≤ word
  dvd : blockSize top ∣ pbase
  top_le : 2 ^ top ≤ pages
  lt_top : pages < 2 ^ (top + 1)

namespace Pool
variable (P : Pool)

/-- The virtual and the physical address of a page. -/
def addr (i : ℕ) : ℕ := P.base + pageSize * i
def paddr (i : ℕ) : ℕ := P.pbase + pageSize * i

theorem pages_lt : P.pages < 2 ^ 20 := by
  have h₁ := P.base_ne_zero
  have h₂ := P.fits
  simp only [pageSize, word] at h₂
  omega

theorem top_lt_twenty : P.top < 20 :=
  (Nat.pow_lt_pow_iff_right (a := 2) (by omega)).mp (P.top_le.trans_lt P.pages_lt)

theorem addr_ne_zero (i : ℕ) : P.addr i ≠ 0 := by
  have := P.base_ne_zero
  simp only [addr]
  omega

theorem addr_lt {i : ℕ} (hi : i < P.pages) : P.addr i < word := by
  have := P.fits
  simp only [addr, pageSize] at *
  omega

theorem paddr_lt {i : ℕ} (hi : i < P.pages) : P.paddr i < word := by
  have := P.pfits
  simp only [paddr, pageSize] at *
  omega

theorem addr_inj {i j : ℕ} : P.addr i = P.addr j ↔ i = j := by
  simp only [addr, pageSize]
  omega

theorem p2v_paddr (i : ℕ) : p2v (P.paddr i) = P.addr i % word := by
  have h : (P.pbase + kernBase) % word = P.base := P.p2v_pbase
  rw [p2v, wadd, addr, paddr, ← h, Nat.mod_add_mod, Nat.add_right_comm]

theorem p2v_paddr_of_lt {i : ℕ} (hi : i < P.pages) : p2v (P.paddr i) = P.addr i := by
  rw [p2v_paddr, Nat.mod_eq_of_lt (P.addr_lt hi)]

theorem v2p_addr {i : ℕ} (hi : i < P.pages) : v2p (P.addr i) = P.paddr i := by
  rw [← P.p2v_paddr_of_lt hi]
  exact v2p_p2v (P.paddr_lt hi)

/-- Page numbers survive the wrap of the address of a page behind the pool. -/
theorem wsub_addr_mod {i : ℕ} (hi : i < 2 ^ 20) :
    wsub (P.addr i % word) P.base = pageSize * i := by
  have h₁ := P.fits
  have h₂ := Nat.mod_lt (P.addr i) (show 0 < word by simp [word])
  have h₃ := Nat.div_add_mod (P.addr i) word
  rw [wsub]
  simp only [addr, pageSize, word] at *
  omega

theorem wsub_addr {i : ℕ} (hi : i < P.pages) : wsub (P.addr i) P.base = pageSize * i := by
  have h := P.wsub_addr_mod (hi.trans P.pages_lt)
  rwa [Nat.mod_eq_of_lt (P.addr_lt hi)] at h

theorem addr_mod_eq {i j : ℕ} (hi : i < 2 ^ 20) (hj : j < P.pages)
    (h : P.addr i % word = P.addr j) : i = j := by
  have h₁ := P.wsub_addr_mod hi
  have h₂ := P.wsub_addr hj
  rw [h, h₂] at h₁
  simp only [pageSize] at h₁
  omega

/-- The XOR on physical addresses is the XOR on page numbers: below the top
order the flipped bit lies under the alignment of the base. -/
theorem paddr_xor {i k : ℕ} (hk : k < P.top) :
    P.paddr i ^^^ blockSize k = P.paddr (i ^^^ 2 ^ k) := by
  obtain ⟨q, hq⟩ := P.dvd
  have hps : pageSize = 2 ^ 12 := rfl
  have hbs : blockSize k = 2 ^ (12 + k) := by rw [blockSize, hps, ← pow_add]
  obtain ⟨d, hd⟩ := Nat.exists_eq_add_of_lt hk
  obtain ⟨e, he⟩ : ∃ e, P.pbase = 2 ^ (12 + k) * (2 * e) := by
    refine ⟨2 ^ d * q, ?_⟩
    rw [hq, blockSize, hps, hd, pow_succ 2 (k + d), pow_add 2 k d, pow_add 2 12 k]
    ring
  have hpow : (2 : ℕ) ^ (12 + k) = 2 ^ 12 * 2 ^ k := pow_add 2 12 k
  have hi := Nat.div_add_mod i (2 ^ k)
  have hlt := Nat.mod_lt i (Nat.two_pow_pos k)
  have hx : P.paddr i = 2 ^ (12 + k) * (2 * e + i / 2 ^ k) + 2 ^ 12 * (i % 2 ^ k) := by
    rw [paddr, he, hps]
    calc 2 ^ (12 + k) * (2 * e) + 2 ^ 12 * i
        = 2 ^ (12 + k) * (2 * e) + 2 ^ 12 * (2 ^ k * (i / 2 ^ k) + i % 2 ^ k) := by rw [hi]
      _ = 2 ^ (12 + k) * (2 * e + i / 2 ^ k) + 2 ^ 12 * (i % 2 ^ k) := by rw [hpow]; ring
  have hrem : 2 ^ 12 * (i % 2 ^ k) < 2 ^ (12 + k) := by rw [hpow]; omega
  have hdiv : P.paddr i / 2 ^ (12 + k) = 2 * e + i / 2 ^ k := by
    rw [hx, Nat.mul_add_div (Nat.two_pow_pos _), Nat.div_eq_of_lt hrem, Nat.add_zero]
  have hmod : P.paddr i % 2 ^ (12 + k) = 2 ^ 12 * (i % 2 ^ k) := by
    rw [hx, Nat.mul_add_mod, Nat.mod_eq_of_lt hrem]
  rw [hbs, Block.flip_bit, hdiv, hmod, Block.two_mul_add_xor_one, Block.flip_bit i, paddr, he, hps]
  rw [hpow]
  ring

theorem paddr_min (i j : ℕ) : min (P.paddr i) (P.paddr j) = P.paddr (min i j) := by
  simp only [paddr, pageSize]
  omega

end Pool
end Ferrite.Memory
