import Ferrite.Text.Format

/-!
# The buffers of `printk` and `snprintk`

`kfmt` knows no size: it stores every character of the rendering and the NUL behind the last.
`snprintk` compares the length with the size afterwards. A store is an offset from the buffer
and a character.
-/
namespace Ferrite.Text
open Word

/-- Stores one behind the other; a pointer has 32 bits. -/
def storesFrom : ℕ → List Char → List (ℕ × Char)
  | _, [] => []
  | i, c :: rest => (i % 2 ^ 32, c) :: storesFrom (i + 1) rest

/-- What a call has done when it returns. -/
structure Printed where
  ret : ℤ
  stores : List (ℕ × Char)
  interrupts : Bool

/-- `str - buf` and the stores of `kfmt`. -/
def kfmtInto (args : Args) (fmt : List Char) : Option (ℤ × List (ℕ × Char)) :=
  (kfmt args fmt).map fun r => (signed 32 r.1.length, storesFrom 0 (r.1 ++ ['\x00']))

def printk (args : Args) (fmt : List Char) : Option Printed := do
  let (len, stores) ← kfmtInto args fmt
  return ⟨len, stores, true⟩

def snprintk (size : ℕ) (args : Args) (fmt : List Char) : Option Printed := do
  let (len, stores) ← kfmtInto args fmt
  if signed 32 size ≤ len then
    let last := unsigned 32 (size - 1)
    -- There is no `sti` on this way out.
    return ⟨signed 32 last, stores ++ [(last, '\x00')], false⟩
  else return ⟨len, stores, true⟩

/-! ## What stands in the buffer -/

abbrev Memory := ℕ → Char

def store (mem : Memory) (s : ℕ × Char) : Memory := Function.update mem s.1 s.2

/-- The characters of a text and a NUL. -/
def HoldsString (mem : Memory) (text : List Char) : Prop :=
  (List.range' 0 (text.length + 1)).map mem = text ++ ['\x00']

/-- No store is outside of the buffer. -/
def Printed.Inside (out : Printed) (size : ℕ) : Prop := ∀ s ∈ out.stores, s.1 < size

/-- The rendering cut to the size, its length, and interrupts as they were. -/
structure Respects (size : ℕ) (text : List Char) (out : Printed) : Prop where
  inside : out.Inside size
  holds : ∀ mem, HoldsString (out.stores.foldl store mem) (text.take (size - 1))
  ret : out.ret = (text.take (size - 1)).length
  interrupts : out.interrupts = true

variable {args : Args} {fmt text : List Char} {mem : Memory} {size i j : ℕ}

theorem storesFrom_frame (text : List Char) (hj : j < i) (hroom : i + text.length ≤ 2 ^ 32) (mem : Memory) :
    (storesFrom i text).foldl store mem j = mem j := by
  induction text generalizing i mem with
  | nil => rfl
  | cons c rest ih =>
      rw [List.length_cons] at hroom
      have hmod : i % 2 ^ 32 = i := Nat.mod_eq_of_lt (by omega)
      have hrest := ih (Nat.lt_succ_of_lt hj) (by omega) (store mem (i, c))
      unfold storesFrom
      rw [List.foldl_cons, hmod, hrest]
      exact Function.update_of_ne hj.ne c mem

theorem storesFrom_holds (text : List Char) (hroom : i + text.length ≤ 2 ^ 32) (mem : Memory) :
    (List.range' i text.length).map ((storesFrom i text).foldl store mem) = text := by
  induction text generalizing i mem with
  | nil => rfl
  | cons c rest ih =>
      rw [List.length_cons] at hroom
      have hmod : i % 2 ^ 32 = i := Nat.mod_eq_of_lt (by omega)
      have hrest := ih (i := i + 1) (by omega) (store mem (i, c))
      have hfirst := storesFrom_frame rest (Nat.lt_succ_self i) (by omega) (store mem (i, c))
      have hself : store mem (i, c) i = c := Function.update_self _ _ _
      unfold storesFrom
      rw [List.length_cons, List.range'_succ, List.map_cons, List.foldl_cons, hmod, hrest, hfirst, hself]

theorem storesFrom_lt (hroom : i + text.length ≤ 2 ^ 32) {s : ℕ × Char} (hs : s ∈ storesFrom i text) :
    s.1 < i + text.length := by
  induction text generalizing i with
  | nil => exact absurd hs List.not_mem_nil
  | cons c rest ih =>
      rw [List.length_cons] at hroom ⊢
      rcases List.mem_cons.mp hs with rfl | hs
      · exact (Nat.mod_le i _).trans_lt (by omega)
      · have hlt := ih (i := i + 1) (by omega) hs
        omega

/-- Every offset up to the last one is stored to. -/
theorem storesFrom_mem (hj : j < text.length) : ∃ c, ((i + j) % 2 ^ 32, c) ∈ storesFrom i text := by
  induction text generalizing i j with
  | nil => exact absurd hj (Nat.not_lt_zero j)
  | cons c rest ih =>
      cases j with
      | zero => exact ⟨c, List.mem_cons_self⟩
      | succ j =>
          obtain ⟨e, hmem⟩ := ih (i := i + 1) (Nat.lt_of_succ_lt_succ hj)
          have heq : i + (j + 1) = i + 1 + j := by omega
          rw [heq]
          exact ⟨e, List.mem_cons_of_mem _ hmem⟩

theorem kfmtInto_eq (args : Args) (hnul : '\x00' ∉ fmt) : kfmtInto args fmt =
    some (signed 32 (rendering args fmt 0).1.length, storesFrom 0 ((rendering args fmt 0).1 ++ ['\x00'])) := by
  unfold kfmtInto
  rw [kfmt_eq args hnul]
  rfl

/-- The stores of a rendering that does not fit leave the buffer. -/
theorem not_inside (hlong : size ≤ text.length) (hsize : size < 2 ^ 32) :
    ∃ s ∈ storesFrom 0 (text ++ ['\x00']), ¬s.1 < size := by
  have hlt : size < (text ++ ['\x00']).length := by
    rw [List.length_append]
    exact Nat.lt_succ_of_le hlong
  obtain ⟨c, hmem⟩ := storesFrom_mem (i := 0) hlt
  rw [Nat.zero_add, Nat.mod_eq_of_lt hsize] at hmem
  exact ⟨_, hmem, lt_irrefl size⟩

theorem inside_of_fits (hfits : text.length < size) (hsize : size < 2 ^ 32) {s : ℕ × Char}
    (hs : s ∈ storesFrom 0 (text ++ ['\x00'])) : s.1 < size := by
  have hlength : (text ++ ['\x00']).length = text.length + 1 := List.length_append
  have hlt := storesFrom_lt (by omega) hs
  omega

/-- `snprintk` respects its buffer exactly when the rendering fits with its NUL and the size is
not negative as an `int`. -/
theorem snprintk_respects_iff (args : Args) (hnul : '\x00' ∉ fmt) (hpos : 1 ≤ size) (hsize : size < 2 ^ 32) :
    (∃ out, snprintk size args fmt = some out ∧ Respects size (rendering args fmt 0).1 out) ↔
      (rendering args fmt 0).1.length < size ∧ size < 2 ^ 31 := by
  unfold snprintk
  rw [kfmtInto_eq args hnul]
  dsimp only [Option.bind_eq_bind, Option.bind_some]
  generalize (rendering args fmt 0).1 = text
  constructor
  · rintro ⟨out, hrun, hright⟩
    have hfits : text.length < size := by
      by_contra hlong
      obtain ⟨s, hs, hout⟩ := not_inside (Nat.le_of_not_lt hlong) hsize
      split_ifs at hrun
      · cases hrun
        exact hout (hright.inside s (List.mem_append_left _ hs))
      · cases hrun
        exact hout (hright.inside s hs)
    refine ⟨hfits, ?_⟩
    by_contra hlarge
    have hneg : signed 32 size = size - 2 ^ 32 := signed_of_le (by omega) hsize
    have hret := hright.ret
    have hcut : text.take (size - 1) = text := List.take_of_length_le (by omega)
    rw [hcut] at hret
    split_ifs at hrun with hcompare
    · cases hrun
      exact Bool.false_ne_true hright.interrupts
    · cases hrun
      rw [hneg] at hcompare
      dsimp only at hret
      omega
  · rintro ⟨hfits, hsmall⟩
    have hsigned : signed 32 size = size := signed_of_lt (by omega)
    have hlen : signed 32 text.length = text.length := signed_of_lt (by omega)
    have hcut : text.take (size - 1) = text := List.take_of_length_le (by omega)
    have hlength : (text ++ ['\x00']).length = text.length + 1 := List.length_append
    rw [hsigned, hlen, if_neg (by omega)]
    refine ⟨_, rfl, ?_, ?_, ?_, rfl⟩
    · exact fun s hs => inside_of_fits hfits hsize hs
    · intro mem
      have hholds := storesFrom_holds (i := 0) (text ++ ['\x00']) (by omega) mem
      rw [hlength] at hholds
      rw [hcut]
      exact hholds
    · rw [hcut]

/-- `printk` stays in its buffer of 1024 characters exactly when the rendering does. -/
theorem printk_inside_iff (args : Args) (hnul : '\x00' ∉ fmt) :
    (∃ out, printk args fmt = some out ∧ out.Inside 1024) ↔ (rendering args fmt 0).1.length < 1024 := by
  unfold printk
  rw [kfmtInto_eq args hnul]
  dsimp only [Option.bind_eq_bind, Option.bind_some]
  constructor
  · rintro ⟨out, hrun, hinside⟩
    cases hrun
    by_contra hlong
    obtain ⟨s, hs, hout⟩ := not_inside (Nat.le_of_not_lt hlong) (by decide)
    exact hout (hinside s hs)
  · intro hfits
    exact ⟨_, rfl, fun s hs => inside_of_fits hfits (by decide) hs⟩

/-- Both buffers are respected exactly by the renderings that fit. -/
theorem buffers_respected_iff (size : ℕ) (args : Args) (fmt : List Char) (hnul : '\x00' ∉ fmt) :
    (1 ≤ size → size < 2 ^ 32 →
      ((∃ out, snprintk size args fmt = some out ∧ Respects size (rendering args fmt 0).1 out) ↔
        (rendering args fmt 0).1.length < size ∧ size < 2 ^ 31)) ∧
    ((∃ out, printk args fmt = some out ∧ out.Inside 1024) ↔ (rendering args fmt 0).1.length < 1024) :=
  ⟨snprintk_respects_iff args hnul, printk_inside_iff args hnul⟩

/-- Two characters in a buffer of three. -/
theorem buffers_respected_iff_pair :
    (∃ out, snprintk 3 ⟨fun _ => 0, fun _ => []⟩ ['o', 'k'] = some out ∧
        Respects 3 (rendering ⟨fun _ => 0, fun _ => []⟩ ['o', 'k'] 0).1 out) ↔
      (rendering ⟨fun _ => 0, fun _ => []⟩ ['o', 'k'] 0).1.length < 3 ∧ 3 < 2 ^ 31 :=
  (buffers_respected_iff 3 ⟨fun _ => 0, fun _ => []⟩ ['o', 'k'] (by decide)).1 (by decide) (by decide)

/-- Two characters in a buffer of two. -/
theorem not_buffers_respected : ¬∃ out, snprintk 2 ⟨fun _ => 0, fun _ => []⟩ ['o', 'k'] = some out ∧
    Respects 2 (rendering ⟨fun _ => 0, fun _ => []⟩ ['o', 'k'] 0).1 out := by
  have htext : rendering ⟨fun _ => 0, fun _ => []⟩ ['o', 'k'] 0 = (['o', 'k'], 0) := by
    rw [rendering_text (by decide), rendering_text (by decide), rendering_nil]
  rw [snprintk_respects_iff _ (by decide) (by decide) (by decide), htext]
  decide

end Ferrite.Text
