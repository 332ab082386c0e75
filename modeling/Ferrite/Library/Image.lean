import Ferrite.Library.Packed

/-!
# Images

An image is a byte string of known length in a memory that goes on behind it. Its fields and
its strings are read with a check: a read that leaves the image has no result. For the
comparison of a string, which stops at the first difference, `Within` says which bytes that
are, and `Starts` what the comparison finds.
-/
namespace Ferrite.Packed

structure Image where
  len : ℕ
  byte : Bytes

namespace Image
variable (I : Image)

/-- The number in `n` bytes from `o` on. -/
def read (n o : ℕ) : Option ℕ := if o + n ≤ I.len then some (get n I.byte o) else none

/-- The comparison of the bytes from `o` on with a constant, byte by byte. -/
def startsWith (o : ℕ) : List Byte → Option Bool
  | [] => some true
  | c :: cs => if o < I.len then if I.byte o = c then startsWith (o + 1) cs else some false else none

/-- Whether the string at `o` has an end. -/
def hasEnd (o : ℕ) : Bool := (List.range (I.len - o)).any fun k => I.byte (o + k) = 0

/-- The memory from `o` on begins with the bytes of `s`. -/
def Starts (o : ℕ) (s : List Byte) : Prop := ∀ k < s.length, s[k]? = some (I.byte (o + k))

/-- The bytes up to the first that differs are bytes of the image. -/
def Within (o : ℕ) (s : List Byte) : Prop := ∀ k < s.length, I.Starts o (s.take k) → o + k < I.len

instance (o : ℕ) (s : List Byte) : Decidable (I.Starts o s) := inferInstanceAs (Decidable (∀ k < s.length, _))

instance (o : ℕ) (s : List Byte) : Decidable (I.Within o s) := inferInstanceAs (Decidable (∀ k < s.length, _))

variable {I} {o n v k : ℕ} {c : Byte} {s t : List Byte} {b : Bool}

@[simp] theorem read_eq_some : I.read n o = some v ↔ o + n ≤ I.len ∧ get n I.byte o = v := by
  unfold read
  split_ifs with h <;> simp [h]

theorem read_bind_isSome {A : Type*} {f : ℕ → Option A} :
    ((I.read n o).bind f).isSome ↔ o + n ≤ I.len ∧ (f (get n I.byte o)).isSome := by
  unfold read
  split_ifs with h <;> simp [h]

theorem read_bind_eq_some {A : Type*} {f : ℕ → Option A} {a : A} :
    (I.read n o).bind f = some a ↔ o + n ≤ I.len ∧ f (get n I.byte o) = some a := by
  unfold read
  split_ifs with h <;> simp [h]

@[simp] theorem starts_nil : I.Starts o [] := nofun

theorem starts_cons : I.Starts o (c :: s) ↔ I.byte o = c ∧ I.Starts (o + 1) s := by
  constructor
  · intro h
    constructor
    · have h0 := h 0 (by simp)
      simpa using h0.symm
    · intro k hk
      have hs := h (k + 1) (by simpa using hk)
      simpa [Nat.add_assoc, Nat.add_comm 1 k] using hs
  · rintro ⟨hc, hs⟩ k hk
    cases k with
    | zero => simp [hc]
    | succ k =>
        have hk' := hs k (by simpa using hk)
        simpa [Nat.add_assoc, Nat.add_comm 1 k] using hk'

@[simp] theorem within_nil : I.Within o [] := nofun

theorem within_cons : I.Within o (c :: s) ↔ o < I.len ∧ (I.byte o = c → I.Within (o + 1) s) := by
  constructor
  · intro h
    refine ⟨h 0 (by simp) (by simp), fun hc k hk hs => ?_⟩
    have hnext := h (k + 1) (by simpa using hk) (by simpa [starts_cons, hc] using hs)
    omega
  · rintro ⟨ho, hs⟩ k hk hstarts
    cases k with
    | zero => exact ho
    | succ k =>
        rw [List.take_succ_cons, starts_cons] at hstarts
        have hnext := hs hstarts.1 k (by simpa using hk) hstarts.2
        omega

/-- What the comparison reads, and what it finds. -/
theorem startsWith_eq_some : I.startsWith o s = some b ↔ I.Within o s ∧ decide (I.Starts o s) = b := by
  induction s generalizing o with
  | nil => simp [startsWith]
  | cons c s ih =>
      unfold startsWith
      rw [within_cons]
      simp only [starts_cons]
      split_ifs with ho hc
      · rw [ih]
        simp [ho, hc]
      · simp [ho, hc]
      · simp [ho]

theorem startsWith_bind_isSome {A : Type*} {f : Bool → Option A} :
    ((I.startsWith o s).bind f).isSome ↔ I.Within o s ∧ (f (decide (I.Starts o s))).isSome := by
  cases h : I.startsWith o s with
  | none =>
      have hnot : ¬ I.Within o s := fun hw => by simp [startsWith_eq_some.mpr ⟨hw, rfl⟩] at h
      simp [hnot]
  | some b =>
      obtain ⟨hw, rfl⟩ := startsWith_eq_some.mp h
      simp [hw]

theorem startsWith_bind_eq_some {A : Type*} {f : Bool → Option A} {a : A} :
    (I.startsWith o s).bind f = some a ↔ I.Within o s ∧ f (decide (I.Starts o s)) = some a := by
  cases h : I.startsWith o s with
  | none =>
      have hnot : ¬ I.Within o s := fun hw => by simp [startsWith_eq_some.mpr ⟨hw, rfl⟩] at h
      simp [hnot]
  | some b =>
      obtain ⟨hw, rfl⟩ := startsWith_eq_some.mp h
      simp [hw]

/-- Two strings that lie at the same place agree. -/
theorem Starts.agree (hs : I.Starts o s) (ht : I.Starts o t) (k : ℕ) (hk : k < s.length) (hk' : k < t.length) :
    s[k]? = t[k]? :=
  (hs k hk).trans (ht k hk').symm

/-- A string is read to its end by a comparison with itself, and no further by a comparison
with another string. -/
theorem Within.of_starts (h : I.Within o (s ++ [0])) (hs : I.Starts o (s ++ [0])) (ht : (0 : Byte) ∉ t) :
    I.Within o (t ++ [0]) := by
  have hlast : o + s.length < I.len := by
    apply h s.length (by simp)
    intro k hk
    have hk' : k < s.length := by simpa using hk
    have hfull := hs k (by simp; omega)
    rw [List.getElem?_append_left hk'] at hfull
    simpa [hk'] using hfull
  have hnul : I.byte (o + s.length) = 0 := by
    have hfull := hs s.length (by simp)
    simpa using hfull.symm
  intro k hk hstarts
  have hk' : k ≤ t.length := by
    simp only [List.length_append, List.length_singleton] at hk
    omega
  by_contra hfar
  -- The comparison would have gone past the end of the string.
  have hlt : s.length < k := by omega
  have hbyte := hstarts s.length (by simp; omega)
  rw [List.getElem?_take_of_lt hlt, List.getElem?_append_left (by omega), hnul] at hbyte
  exact ht (List.mem_of_getElem? hbyte)

/-- A comparison with the beginning of a string reads no more than one with the string. -/
theorem Within.left (h : I.Within o (s ++ t)) : I.Within o s := by
  intro k hk hs
  apply h k (by simp; omega)
  rwa [List.take_append_of_le_length hk.le]

end Image
end Ferrite.Packed
