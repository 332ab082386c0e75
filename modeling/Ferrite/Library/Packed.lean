import Mathlib.Data.Nat.Count
import Mathlib.Logic.Function.Basic
import Mathlib.Tactic.Ring

/-!
# Packed bytes

Memory that a program reads both as bytes and as little-endian fields: a field
is read and written at an offset, a copy moves a range, and a bitmap is the
same bytes read bit by bit.
-/
namespace Ferrite.Packed

abbrev Byte := BitVec 8
abbrev Bytes := ℕ → Byte

/-- The little-endian number in `n` bytes from `o` on. -/
def get : ℕ → Bytes → ℕ → ℕ
  | 0, _, _ => 0
  | n + 1, b, o => (b o).toNat + 256 * get n b (o + 1)

/-- Stores a number in `n` bytes from `o` on; what does not fit is lost. -/
def put (n : ℕ) (b : Bytes) (o v : ℕ) : Bytes := fun i =>
  if o ≤ i ∧ i < o + n then .ofNat 8 (v / 256 ^ (i - o)) else b i

/-- `memcpy(dst + o, src + p, n)`. -/
def copy (n : ℕ) (dst : Bytes) (o : ℕ) (src : Bytes) (p : ℕ) : Bytes := fun i =>
  if o ≤ i ∧ i < o + n then src (p + (i - o)) else dst i

variable {n m o p v w : ℕ} {b b' : Bytes}

theorem get_lt (n : ℕ) (b : Bytes) (o : ℕ) : get n b o < 256 ^ n := by
  induction n generalizing o with
  | zero => simp [get]
  | succ n ih =>
      have hb := (b o).isLt
      have := ih (o + 1)
      rw [get, pow_succ]
      omega

theorem get_congr (h : ∀ i, o ≤ i → i < o + n → b i = b' i) : get n b o = get n b' o := by
  induction n generalizing o with
  | zero => rfl
  | succ n ih =>
      rw [get, get, h o (le_refl o) (by omega), ih fun i hi hi' => h i (by omega) (by omega)]

/-- A field only depends on its own bytes. -/
theorem get_shift (h : ∀ i, i < n → b (o + i) = b' (p + i)) : get n b o = get n b' p := by
  induction n generalizing o p with
  | zero => rfl
  | succ n ih =>
      rw [get, get, ih fun i hi => ?_]
      · rw [show b o = b' p from h 0 (by omega)]
      · have := h (i + 1) (by omega)
        rwa [show o + 1 + i = o + (i + 1) by omega, show p + 1 + i = p + (i + 1) by omega]

theorem put_of_lt {i : ℕ} (h : i < o) : put n b o v i = b i := by
  rw [put, if_neg (by omega)]

theorem put_of_le {i : ℕ} (h : o + n ≤ i) : put n b o v i = b i := by
  rw [put, if_neg (by omega)]

theorem get_put (n : ℕ) (b : Bytes) (o v : ℕ) : get n (put n b o v) o = v % 256 ^ n := by
  induction n generalizing b o v with
  | zero => simp [get, Nat.mod_one]
  | succ n ih =>
      have hrest : get n (put (n + 1) b o v) (o + 1) = get n (put n b (o + 1) (v / 256)) (o + 1) := by
        apply get_congr
        intro i hi hi'
        rw [put, if_pos (by omega), put, if_pos (by omega), Nat.div_div_eq_div_mul, ← pow_succ',
          show i - (o + 1) + 1 = i - o by omega]
      have hhead : put (n + 1) b o v o = .ofNat 8 v := by
        rw [put, if_pos (by omega), Nat.sub_self, pow_zero, Nat.div_one]
      rw [get, hrest, ih, hhead, BitVec.toNat_ofNat, pow_succ' (256 : ℕ) n, Nat.mod_mul]

theorem get_put_of_lt (h : v < 256 ^ n) : get n (put n b o v) o = v := by
  rw [get_put, Nat.mod_eq_of_lt h]

theorem get_put_of_disjoint (h : o + n ≤ p ∨ p + m ≤ o) : get n (put m b p v) o = get n b o := by
  apply get_congr
  intro i hi hi'
  rcases h with h | h
  · exact put_of_lt (by omega)
  · exact put_of_le (by omega)

theorem copy_of_lt {i : ℕ} (h : i < o) : copy n b o b' p i = b i := by
  rw [copy, if_neg (by omega)]

theorem copy_of_le {i : ℕ} (h : o + n ≤ i) : copy n b o b' p i = b i := by
  rw [copy, if_neg (by omega)]

theorem copy_add {i : ℕ} (h : i < n) : copy n b o b' p (o + i) = b' (p + i) := by
  rw [copy, if_pos (by omega), Nat.add_sub_cancel_left]

theorem get_copy {q : ℕ} (h : q + m ≤ n) : get m (copy n b o b' p) (o + q) = get m b' (p + q) := by
  apply get_shift
  intro i hi
  rw [add_assoc, copy_add (by omega), add_assoc]

theorem get_copy_of_disjoint {q : ℕ} (h : q + m ≤ o ∨ o + n ≤ q) :
    get m (copy n b o b' p) q = get m b q := by
  apply get_congr
  intro i hi hi'
  rcases h with h | h
  · exact copy_of_lt (by omega)
  · exact copy_of_le (by omega)

/-! ## Bitmaps -/

/-- The bit with number `k`. -/
def bit (b : Bytes) (k : ℕ) : Bool := (b (k / 8)).getLsbD (k % 8)

def setBit (b : Bytes) (k : ℕ) : Bytes :=
  Function.update b (k / 8) (b (k / 8) ||| BitVec.twoPow 8 (k % 8))

def clearBit (b : Bytes) (k : ℕ) : Bytes :=
  Function.update b (k / 8) (b (k / 8) &&& ~~~BitVec.twoPow 8 (k % 8))

theorem bit_setBit (b : Bytes) (k : ℕ) : bit (setBit b k) = Function.update (bit b) k true := by
  funext j
  unfold bit setBit
  by_cases hj : j = k
  · subst hj
    simp [Nat.mod_lt]
  · rw [Function.update_of_ne hj]
    by_cases hd : j / 8 = k / 8
    · have hm : k % 8 ≠ j % 8 := by omega
      rw [hd, Function.update_self]
      simp [hm]
    · rw [Function.update_of_ne hd]

theorem bit_clearBit (b : Bytes) (k : ℕ) :
    bit (clearBit b k) = Function.update (bit b) k false := by
  funext j
  unfold bit clearBit
  by_cases hj : j = k
  · subst hj
    simp [Nat.mod_lt]
  · rw [Function.update_of_ne hj]
    by_cases hd : j / 8 = k / 8
    · have hm : k % 8 ≠ j % 8 := by omega
      have hlt : j % 8 < 8 := Nat.mod_lt _ (by decide)
      rw [hd, Function.update_self]
      simp [hlt, hm.symm]
    · rw [Function.update_of_ne hd]

/-! ## Counting clear bits -/

/-- How many of the first `n` bits are clear. -/
def clears (f : ℕ → Bool) (n : ℕ) : ℕ := Nat.count (fun k => f k = false) n

variable {f g : ℕ → Bool} {k : ℕ}

theorem clears_congr (h : ∀ k, k < n → f k = g k) : clears f n = clears g n := by
  induction n with
  | zero => rfl
  | succ n ih =>
      unfold clears at ih ⊢
      rw [Nat.count_succ, Nat.count_succ, ih fun k hk => h k (by omega), h n (by omega)]

theorem clears_le (f : ℕ → Bool) (n : ℕ) : clears f n ≤ n := Nat.count_le _

theorem clears_update_of_le {c : Bool} (h : n ≤ k) : clears (Function.update f k c) n = clears f n := by
  apply clears_congr
  intro j hj
  exact Function.update_of_ne (by omega) ..

theorem clears_set (hk : k < n) (h : f k = false) :
    clears (Function.update f k true) n + 1 = clears f n := by
  induction n with
  | zero => omega
  | succ n ih =>
      unfold clears at ih ⊢
      rw [Nat.count_succ, Nat.count_succ]
      by_cases hkn : k = n
      · subst hkn
        have := clears_update_of_le (f := f) (c := true) (le_refl k)
        unfold clears at this
        rw [this, Function.update_self, h]
        simp
      · rw [← ih (by omega), Function.update_of_ne (Ne.symm hkn)]
        omega

theorem clears_clear (hk : k < n) (h : f k = true) :
    clears (Function.update f k false) n = clears f n + 1 := by
  have := clears_set (f := Function.update f k false) hk (Function.update_self ..)
  rw [Function.update_idem, ← h, Function.update_eq_self] at this
  exact this.symm

theorem exists_clear (h : clears f n ≠ 0) : ∃ k < n, f k = false := by
  by_contra hnone
  push Not at hnone
  apply h
  unfold clears
  rw [Nat.count_iff_forall_not]
  exact hnone

end Ferrite.Packed
