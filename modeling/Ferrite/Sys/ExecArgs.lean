import Ferrite.Library.Strings
import Ferrite.Memory.Memblock
import Ferrite.Text.Split
import Mathlib.Order.Interval.Finset.Nat

/-!
# The arguments of a program

`do_execve` copies the strings of the environment and of the arguments to the end of an area of 32
pages, from the last one on. `load_elf_binary` maps the area below the kernel and puts the vector
of the arguments in front of the strings. There `_start` finds them.
-/
namespace Ferrite.Sys
open Packed Word Strings
open Memory (pageSize kernBase)

def maxArgPages : ℕ := 32
def maxArgs : ℕ := 10

def e2big : ℤ := 7

/-- `b_page`: the pages of the area that are there, and how many more `get_free_page` has. -/
structure ArgPages where
  page : ℕ → Option Bytes
  free : ℕ

namespace ArgPages
variable (m : ArgPages)

/-- Before the first string. -/
def cleared (free : ℕ) : ArgPages := ⟨fun _ => none, free⟩

/-- A byte of the area. -/
def byte (a : ℕ) : Option Byte := (m.page (a / pageSize)).map fun b => b (a % pageSize)

/-- `((char*)page[page_index])[offset] = c`, with a page of zeros if there was none. -/
def store (a : ℕ) (c : Byte) : Option ArgPages :=
  match m.page (a / pageSize) with
  | some b =>
      some { m with page := Function.update m.page (a / pageSize) (some (Function.update b (a % pageSize) c)) }
  | none =>
      if m.free = 0 then none
      else
        some {
          page := Function.update m.page (a / pageSize) (some (Function.update (fun _ => 0) (a % pageSize) c))
          free := m.free - 1 }

/-- The inner loop of `copy_strings`, and whether it gets to its end. -/
def copy : ArgPages → ℕ → List Byte → Bool × ArgPages
  | m, _, [] => (true, m)
  | m, a, c :: cs =>
      match m.store a c with
      | none => (false, m)
      | some m => copy m (a + 1) cs

/-- `copy_strings`, on the strings from the last one on. -/
def copyStrings : ArgPages → List (List Byte) → ℕ → ℕ × ArgPages
  | m, [], p => (p, m)
  | m, str :: strs, p =>
      if p < str.length + 1 then (0, m)
      else
        let copied := m.copy (p - (str.length + 1)) (str ++ [0])
        if copied.1 then copyStrings copied.2 strs (p - (str.length + 1)) else (0, copied.2)

/-- The end of `do_execve` after an error. -/
def freePages : ArgPages :=
  { page := fun _ => none
    free := m.free + ((List.range maxArgPages).filter fun i => (m.page i).isSome).length }

/-- What `do_execve` does with the strings: the error, or `b_p`. -/
def execStrings (argv envp : List (List Byte)) : (ℤ ⊕ ℕ) × ArgPages :=
  let env := m.copyStrings envp.reverse (pageSize * maxArgPages - 4)
  if env.1 = 0 then (.inl (-e2big), env.2.freePages)
  else
    let args := env.2.copyStrings argv.reverse env.1
    if args.1 = 0 then (.inl (-e2big), args.2.freePages) else (.inr args.1, args.2)

end ArgPages

/-! ## The address space of the program -/

/-- The pages of the user that are mapped, by their numbers, and the bytes; and whether the page
directory has a table for the 4 MiB below the kernel. -/
structure UserSpace where
  table : Bool
  mapped : ℕ → Bool
  bytes : Bytes

def stackStart : ℕ := kernBase - pageSize * maxArgPages

namespace UserSpace
variable (u : UserSpace)

/-- `vmm_remap_page`, below the kernel. Without the table it stops the kernel. -/
def remapPage (n : ℕ) (b : Bytes) : Option UserSpace :=
  if u.table then
    some { u with
      mapped := Function.update u.mapped n true
      bytes := fun v => if v / pageSize = n then b (v % pageSize) else u.bytes v }
  else none

/-- The loop over `b_page`. -/
def remapPages (m : ArgPages) : ℕ → Option UserSpace
  | 0 => some u
  | i + 1 =>
      (remapPages m i).bind fun u =>
        match m.page i with
        | some b => u.remapPage (stackStart / pageSize + i) b
        | none => some u

/-- Stores words; one on a page that is not mapped stops the kernel. -/
def storeWords : UserSpace → ℕ → List ℕ → Option UserSpace
  | u, _, [] => some u
  | u, a, w :: ws =>
      if u.mapped (a / pageSize) then storeWords { u with bytes := put 4 u.bytes a w } (a + 4) ws else none

/-- `argv_addrs`, an array of ten entries. -/
def argAddrs : ℕ → ℕ → List ℕ → Option (List ℕ)
  | 0, _, addrs => some addrs
  | n + 1, str, addrs =>
      if addrs.length < maxArgs then
        (Text.strlen u.bytes (pageSize * maxArgPages) str).bind fun len =>
          argAddrs n (wadd str (len + 1)) (addrs ++ [str])
      else none

/-- The stack pointer, where the vector begins. -/
def vectorAddr (argc p : ℕ) : ℕ := wsub (wadd stackStart p) (4 * (1 + argc + 1)) / 16 * 16

/-- The end of `load_elf_binary`: the stack pointer and the address space. -/
def putArgs (m : ArgPages) (argc p : ℕ) : Option (ℕ × UserSpace) :=
  (u.remapPages m maxArgPages).bind fun u =>
    (u.argAddrs argc (wadd stackStart p) []).bind fun addrs =>
      (u.storeWords (vectorAddr argc p) (argc :: addrs ++ [0])).map fun u => (vectorAddr argc p, u)

/-- What `_start` gives to `main`. -/
structure Main where
  argc : ℕ
  argv : ℕ
  envp : ℕ

def start (esp : ℕ) : Main :=
  let esp := esp / 16 * 16
  let argc := get 4 u.bytes esp
  ⟨argc, wadd esp 4, wadd esp (wadd (4 * argc % word) 8)⟩

end UserSpace

/-! ## The pages -/

namespace ArgPages
variable {m m' m'' : ArgPages} {a p lo hi lo' hi' x : ℕ} {c v : Byte} {l : List Byte} {strs : List (List Byte)}

/-- The pages of the area that are there. -/
def present (m : ArgPages) : Finset ℕ := (Finset.range maxArgPages).filter fun i => (m.page i).isSome

theorem mem_present {i : ℕ} : i ∈ m.present ↔ i < maxArgPages ∧ (m.page i).isSome := by
  unfold present
  rw [Finset.mem_filter, Finset.mem_range]

/-- Characters have been copied to the addresses from `lo` to `hi`: the pages are those that were there
or handed out, none of them in front, and the other bytes are kept. -/
structure Copied (m m' : ArgPages) (lo hi : ℕ) : Prop where
  total : m'.free + m'.present.card = m.free + m.present.card
  pages : ∀ i ∈ m'.present, i ∈ m.present ∨ lo / pageSize ≤ i
  bytes : ∀ x v, ¬ (lo ≤ x ∧ x < hi) → m.byte x = some v → m'.byte x = some v

theorem Copied.refl (m : ArgPages) (lo hi : ℕ) : Copied m m lo hi := ⟨rfl, fun _ h => .inl h, fun _ _ _ h => h⟩

theorem Copied.trans (h : Copied m m' lo hi) (h' : Copied m' m'' lo' hi') (hlo : p ≤ lo ∧ p ≤ lo')
    (hhi : hi ≤ x ∧ hi' ≤ x) : Copied m m'' p x where
  total := h'.total.trans h.total
  pages i hi := by
    rcases h'.pages i hi with hi | hi
    · exact (h.pages i hi).imp_right (Nat.div_le_div_right hlo.1).trans
    · exact .inr ((Nat.div_le_div_right hlo.2).trans hi)
  bytes y v hy hv := h'.bytes y v (by omega) (h.bytes y v (by omega) hv)

theorem Copied.holds (h : Copied m m' lo hi) (hl : Holds m.byte a (l.map some))
    (hout : a + l.length ≤ lo ∨ hi ≤ a) :
    Holds m'.byte a (l.map some) := by
  intro k v hv
  have hlt : k < l.length := by simpa using (List.getElem?_eq_some_iff.mp hv).1
  obtain ⟨c, -, rfl⟩ := Option.map_eq_some_iff.mp ((List.getElem?_map ..).symm.trans hv)
  exact h.bytes (a + k) c (by omega) (hl k _ hv)

theorem store_eq_none : m.store a c = none ↔ m.page (a / pageSize) = none ∧ m.free = 0 := by
  unfold store
  cases m.page (a / pageSize) with
  | some b => simp
  | none => simp

theorem byte_update {b : Bytes} {f : ℕ} : byte ⟨Function.update m.page (a / pageSize)
      (some (Function.update b (a % pageSize) c)), f⟩ x
    = if x / pageSize = a / pageSize then some (if x = a then c else b (x % pageSize)) else m.byte x := by
  unfold byte
  dsimp only
  by_cases hpage : x / pageSize = a / pageSize
  · rw [if_pos hpage, hpage, Function.update_self, Option.map_some]
    by_cases hx : x = a
    · rw [if_pos hx, hx, Function.update_self]
    · have hne : x % pageSize ≠ a % pageSize := by
        intro hmod
        exact hx (by rw [← Nat.div_add_mod x pageSize, hpage, hmod, Nat.div_add_mod])
      rw [if_neg hx, Function.update_of_ne hne]
  · rw [if_neg hpage, Function.update_of_ne hpage]

theorem present_update {b : Bytes} {f : ℕ} (ha : a / pageSize < maxArgPages) :
    present ⟨Function.update m.page (a / pageSize) (some b), f⟩ = insert (a / pageSize) m.present := by
  ext i
  rw [Finset.mem_insert, mem_present, mem_present]
  dsimp only
  by_cases hi : i = a / pageSize
  · subst hi
    rw [Function.update_self]
    simp [ha]
  · rw [Function.update_of_ne hi]
    simp [hi]

/-- What a store does. -/
theorem store_spec (h : m.store a c = some m') (ha : a / pageSize < maxArgPages) :
    m'.byte a = some c ∧ Copied m m' a (a + 1) := by
  unfold store at h
  cases hpage : m.page (a / pageSize) with
  | some b =>
      rw [hpage] at h
      obtain rfl := Option.some.inj h
      have hmem : a / pageSize ∈ m.present := mem_present.mpr ⟨ha, by rw [hpage]; rfl⟩
      refine ⟨by rw [byte_update, if_pos rfl, if_pos rfl], ?_, ?_, ?_⟩
      · rw [present_update ha, Finset.insert_eq_of_mem hmem]
      · intro i hi
        rw [present_update ha, Finset.insert_eq_of_mem hmem] at hi
        exact .inl hi
      · intro x v hx hv
        rw [byte_update]
        split_ifs with hsame hxa
        · omega
        · rw [byte, hsame, hpage] at hv
          exact hv
        · exact hv
  | none =>
      rw [hpage] at h
      dsimp only at h
      split_ifs at h with hfree
      obtain rfl := Option.some.inj h
      have hnot : a / pageSize ∉ m.present := by
        rw [mem_present, hpage]
        simp
      refine ⟨by rw [byte_update, if_pos rfl, if_pos rfl], ?_, ?_, ?_⟩
      · rw [present_update ha, Finset.card_insert_of_notMem hnot]
        dsimp only
        omega
      · intro i hi
        rw [present_update ha, Finset.mem_insert] at hi
        rcases hi with rfl | hi
        · exact .inr le_rfl
        · exact .inl hi
      · intro x v hx hv
        rw [byte_update]
        split_ifs with hsame hxa
        · omega
        · rw [byte, hsame, hpage] at hv
          cases hv
        · exact hv

theorem page_lt (h : a < pageSize * maxArgPages) : a / pageSize < maxArgPages := Nat.div_lt_of_lt_mul h

/-- The inner loop copies the characters if it gets to its end. -/
theorem copy_spec (l : List Byte) (hin : a + l.length ≤ pageSize * maxArgPages) :
    Copied m (m.copy a l).2 a (a + l.length) ∧
      ((m.copy a l).1 = true → Holds (m.copy a l).2.byte a (l.map some)) := by
  induction l generalizing m a with
  | nil => exact ⟨.refl m a _, fun _ => holds_nil⟩
  | cons c l ih =>
      rw [List.length_cons] at hin ⊢
      rw [copy]
      cases hstore : m.store a c with
      | none => exact ⟨.refl m a _, fun h => absurd h Bool.false_ne_true⟩
      | some m₁ =>
          obtain ⟨hbyte, hcopied⟩ := store_spec hstore (page_lt (by omega))
          obtain ⟨hrest, hholds⟩ := ih (m := m₁) (a := a + 1) (by omega)
          refine ⟨hcopied.trans hrest ⟨le_rfl, by omega⟩ ⟨by omega, by omega⟩, fun h => ?_⟩
          rw [List.map_cons, holds_cons]
          exact ⟨hrest.bytes a _ (by omega) hbyte, hholds h⟩

theorem present_card_le (h : ∀ i ∈ m.present, lo ≤ i) : m.present ⊆ Finset.Ico lo maxArgPages := by
  intro i hi
  rw [Finset.mem_Ico]
  exact ⟨h i hi, (mem_present.mp hi).1⟩

/-- It does when there are pages for the rest of the area. -/
theorem copy_enough (l : List Byte) (hin : a + l.length ≤ pageSize * maxArgPages) (hlo : lo ≤ a / pageSize)
    (hpages : ∀ i ∈ m.present, lo ≤ i) (henough : maxArgPages - lo ≤ m.free + m.present.card) :
    (m.copy a l).1 = true := by
  induction l generalizing m a with
  | nil => rfl
  | cons c l ih =>
      rw [List.length_cons] at hin
      have hlt := page_lt (show a < pageSize * maxArgPages by omega)
      rw [copy]
      cases hstore : m.store a c with
      | none =>
          obtain ⟨hnone, hfree⟩ := store_eq_none.mp hstore
          have hmem : a / pageSize ∈ Finset.Ico lo maxArgPages := Finset.mem_Ico.mpr ⟨hlo, hlt⟩
          have hnot : a / pageSize ∉ m.present := by
            rw [mem_present, hnone]
            simp
          have hcard := Finset.card_lt_card ((Finset.ssubset_iff_of_subset (present_card_le hpages)).mpr
            ⟨_, hmem, hnot⟩)
          rw [Nat.card_Ico] at hcard
          omega
      | some m₁ =>
          obtain ⟨-, hcopied⟩ := store_spec hstore hlt
          refine ih (m := m₁) (by omega) (hlo.trans (Nat.div_le_div_right (Nat.le_succ a))) ?_ ?_
          · intro i hi
            exact (hcopied.pages i hi).elim (hpages i) hlo.trans
          · rw [hcopied.total]
            exact henough

theorem length_packed_reverse (strs : List (List Byte)) :
    (packed 0 strs.reverse).length = (packed 0 strs).length := by
  induction strs with
  | nil => rfl
  | cons s strs ih =>
      rw [List.reverse_cons, packed_append, List.length_append, ih, length_packed_cons, length_packed_cons]
      change _ + (s.length + 1 + 0) = _
      omega

/-- The strings are copied one in front of the other. -/
theorem copyStrings_spec (strs : List (List Byte)) (hp : p ≤ pageSize * maxArgPages) :
    (∃ lo, Copied m (m.copyStrings strs p).2 lo p) ∧ ((m.copyStrings strs p).1 ≠ 0 →
      (m.copyStrings strs p).1 + (packed 0 strs).length = p ∧
      Copied m (m.copyStrings strs p).2 (m.copyStrings strs p).1 p ∧
      Holds (m.copyStrings strs p).2.byte (m.copyStrings strs p).1 ((packed 0 strs.reverse).map some)) := by
  induction strs generalizing m p with
  | nil => exact ⟨⟨p, .refl m p p⟩, fun _ => ⟨rfl, .refl m p p, holds_nil⟩⟩
  | cons str strs ih =>
      have hlen : (str ++ [0]).length = str.length + 1 := List.length_append
      rw [copyStrings]
      by_cases hshort : p < str.length + 1
      · rw [if_pos hshort]
        exact ⟨⟨p, .refl m p p⟩, fun h => absurd rfl h⟩
      rw [if_neg hshort]
      dsimp only
      obtain ⟨hcopied, hholds⟩ := copy_spec (m := m) (a := p - (str.length + 1)) (str ++ [0]) (by omega)
      rw [hlen, Nat.sub_add_cancel (by omega)] at hcopied
      cases hdone : (m.copy (p - (str.length + 1)) (str ++ [0])).1 with
      | false =>
          rw [if_neg Bool.false_ne_true]
          exact ⟨⟨_, hcopied⟩, fun h => absurd rfl h⟩
      | true =>
          rw [if_pos rfl]
          obtain ⟨⟨lo, hrest⟩, hall⟩ := ih (m := (m.copy (p - (str.length + 1)) (str ++ [0])).2)
            (p := p - (str.length + 1)) (by omega)
          refine ⟨⟨min lo (p - (str.length + 1)), hcopied.trans hrest (by omega) (by omega)⟩, fun h => ?_⟩
          obtain ⟨hsum, hrest', hstrs⟩ := hall h
          have hback := length_packed_reverse strs
          refine ⟨by rw [length_packed_cons]; omega, hcopied.trans hrest' (by omega) (by omega), ?_⟩
          rw [List.reverse_cons, packed_append, List.map_append, holds_append, List.length_map, hback, hsum]
          refine ⟨hstrs, ?_⟩
          have hlast : packed 0 [str] = str ++ [0] := List.append_nil _
          rw [hlast]
          exact hrest'.holds (hholds hdone) (.inr le_rfl)

/-- All strings are copied when there are pages for them. -/
theorem copyStrings_enough (strs : List (List Byte)) (hp : p ≤ pageSize * maxArgPages)
    (hsize : (packed 0 strs).length < p) (hlo : lo ≤ (p - (packed 0 strs).length) / pageSize)
    (hpages : ∀ i ∈ m.present, lo ≤ i) (henough : maxArgPages - lo ≤ m.free + m.present.card) :
    (m.copyStrings strs p).1 = p - (packed 0 strs).length := by
  induction strs generalizing m p with
  | nil => rfl
  | cons str strs ih =>
      have hlen : (str ++ [0]).length = str.length + 1 := List.length_append
      rw [length_packed_cons] at hsize hlo ⊢
      have hlo' : lo ≤ (p - (str.length + 1)) / pageSize := hlo.trans (Nat.div_le_div_right (by omega))
      obtain ⟨hcopied, -⟩ := copy_spec (m := m) (a := p - (str.length + 1)) (str ++ [0]) (by omega)
      rw [copyStrings, if_neg (by omega)]
      dsimp only
      rw [copy_enough (str ++ [0]) (by omega) hlo' hpages henough, if_pos rfl, ih, Nat.sub_sub]
      · omega
      · omega
      · rw [Nat.sub_sub]
        exact hlo
      · intro i hi
        exact (hcopied.pages i hi).elim (hpages i) hlo'.trans
      · rw [hcopied.total]
        exact henough

/-! ## What fits -/

/-- The end of the strings. -/
def limit : ℕ := pageSize * maxArgPages - 4

/-- The strings leave something of the area, and there are pages for them. -/
def Fits (free : ℕ) (strs : List (List Byte)) : Prop :=
  (packed 0 strs).length < limit ∧
    (strs = [] ∨ maxArgPages - (limit - (packed 0 strs).length) / pageSize ≤ free)

theorem freePages_eq (htotal : m'.free + m'.present.card = m.free) (hm : m.page = fun _ => none) :
    m'.freePages = m := by
  have hcard : ((List.range maxArgPages).filter fun i => (m'.page i).isSome).length = m'.present.card := by
    unfold present
    rw [Finset.card, Finset.filter_val, Finset.range_val, Multiset.range, Multiset.filter_coe,
      Multiset.coe_card]
    simp only [Bool.decide_eq_true]
  unfold freePages
  rw [hcard, htotal, ← hm]

theorem present_empty (hm : m.page = fun _ => none) : m.present = ∅ := by
  unfold present
  rw [hm]
  rfl

/-- With the strings in the area, its pages have been handed out. -/
theorem pages_of_holds (h : Holds m.byte p (l.map some)) (hend : p + l.length = limit) (hl : l ≠ []) :
    Finset.Ico (p / pageSize) maxArgPages ⊆ m.present := by
  have hpos := List.length_pos_of_ne_nil hl
  have hlimit : limit = 31 * pageSize + 4092 := rfl
  have hpage : pageSize = 4096 := rfl
  intro i hi
  obtain ⟨hle, hlt⟩ := Finset.mem_Ico.mp hi
  have h32 : maxArgPages = 32 := rfl
  -- a byte of the strings that lies on the page
  obtain ⟨k, hk, hpg⟩ : ∃ k < l.length, (p + k) / pageSize = i := by
    rcases Nat.eq_or_lt_of_le hle with heq | hgt
    · exact ⟨0, hpos, heq⟩
    · have hstart : p < i * pageSize := (Nat.div_lt_iff_lt_mul (by omega)).mp hgt
      refine ⟨i * pageSize - p, ?_, ?_⟩
      · rw [hpage] at hlimit ⊢
        omega
      · rw [Nat.add_sub_cancel' hstart.le]
        exact Nat.mul_div_cancel i (by omega)
  have hbyte := h k (some l[k]) (by rw [List.getElem?_map, List.getElem?_eq_getElem hk, Option.map_some])
  unfold byte at hbyte
  rw [hpg] at hbyte
  obtain ⟨b, hb, -⟩ := Option.map_eq_some_iff.mp hbyte
  exact mem_present.mpr ⟨hlt, by rw [hb]; rfl⟩

/-- The pages that were handed out are those of the strings and no more. -/
theorem fits_of_copied {free : ℕ} (h : Copied m m' p limit) (hm : m.page = fun _ => none)
    (hfree : m.free = free)
    (hholds : Holds m'.byte p ((packed 0 strs).map some)) (hp : p + (packed 0 strs).length = limit)
    (hpos : p ≠ 0) :
    Fits free strs := by
  refine ⟨by omega, ?_⟩
  by_cases hnil : strs = []
  · exact .inl hnil
  have hne : packed (0 : Byte) strs ≠ [] := by
    obtain ⟨s, strs', rfl⟩ := List.exists_cons_of_ne_nil hnil
    rw [← List.length_pos_iff_ne_nil, length_packed_cons]
    omega
  have hsub := Finset.card_le_card (pages_of_holds hholds hp hne)
  have htotal := h.total
  rw [present_empty hm, Finset.card_empty, Nat.add_zero] at htotal
  rw [Nat.card_Ico] at hsub
  have hp' : limit - (packed (0 : Byte) strs).length = p := by omega
  exact .inr (by rw [hp']; omega)

variable {argv envp : List (List Byte)}

theorem exec_copied (henv : (m.copyStrings envp.reverse limit).1 ≠ 0)
    (hargs : ((m.copyStrings envp.reverse limit).2.copyStrings argv.reverse
      (m.copyStrings envp.reverse limit).1).1 ≠ 0) :
    ∃ p m', m.execStrings argv envp = (.inr p, m') ∧ p ≠ 0 ∧ p + (packed 0 (argv ++ envp)).length = limit ∧
      Copied m m' p limit ∧ Holds m'.byte p ((packed 0 (argv ++ envp)).map some) := by
  have hlimit : limit = pageSize * maxArgPages - 4 := rfl
  obtain ⟨-, hall⟩ := copyStrings_spec (m := m) (p := limit) envp.reverse (by omega)
  obtain ⟨hsum, hcopied, hholds⟩ := hall henv
  rw [length_packed_reverse] at hsum
  rw [List.reverse_reverse] at hholds
  unfold execStrings
  rw [← hlimit]
  dsimp only
  rw [if_neg henv, if_neg hargs]
  generalize m.copyStrings envp.reverse limit = env at *
  obtain ⟨-, hall'⟩ := copyStrings_spec (m := env.2) (p := env.1) argv.reverse (by omega)
  obtain ⟨hsum', hcopied', hholds'⟩ := hall' hargs
  rw [length_packed_reverse] at hsum'
  rw [List.reverse_reverse] at hholds'
  generalize env.2.copyStrings argv.reverse env.1 = args at *
  refine ⟨args.1, args.2, rfl, hargs, ?_, hcopied.trans hcopied' (by omega) (by omega), ?_⟩
  · rw [packed_append, List.length_append]
    omega
  · rw [packed_append, List.map_append, holds_append, List.length_map, hsum']
    exact ⟨hholds', hcopied'.holds hholds (.inr le_rfl)⟩

theorem exec_given_back (hm : m.page = fun _ => none)
    (h : (m.copyStrings envp.reverse limit).1 ≠ 0 →
    ((m.copyStrings envp.reverse limit).2.copyStrings argv.reverse
      (m.copyStrings envp.reverse limit).1).1 = 0) : m.execStrings argv envp = (.inl (-e2big), m) := by
  have hlimit : limit = pageSize * maxArgPages - 4 := rfl
  obtain ⟨⟨lo, hcopied⟩, hall⟩ := copyStrings_spec (m := m) (p := limit) envp.reverse (by omega)
  have htotal := hcopied.total
  rw [present_empty hm, Finset.card_empty, Nat.add_zero] at htotal
  unfold execStrings
  rw [← hlimit]
  dsimp only
  by_cases henv : (m.copyStrings envp.reverse limit).1 = 0
  · rw [if_pos henv, freePages_eq htotal hm]
  rw [if_neg henv, if_pos (h henv)]
  obtain ⟨hsum, -, -⟩ := hall henv
  generalize m.copyStrings envp.reverse limit = env at *
  obtain ⟨⟨lo', hcopied'⟩, -⟩ := copyStrings_spec (m := env.2) (p := env.1) argv.reverse (by omega)
  rw [freePages_eq (hcopied'.total.trans htotal) hm]

theorem exec_enough (hm : m.page = fun _ => none) (h : Fits m.free (argv ++ envp)) :
    (m.copyStrings envp.reverse limit).1 ≠ 0 ∧ ((m.copyStrings envp.reverse limit).2.copyStrings argv.reverse
      (m.copyStrings envp.reverse limit).1).1 ≠ 0 := by
  have hlimit : limit = pageSize * maxArgPages - 4 := rfl
  have hsize : (packed 0 (argv ++ envp)).length = (packed 0 argv).length + (packed 0 envp).length := by
    rw [packed_append, List.length_append]
  obtain ⟨hlt, hpages⟩ := h
  rcases hpages with hnil | hpages
  · obtain ⟨rfl, rfl⟩ := List.append_eq_nil_iff.mp hnil
    exact ⟨Nat.ne_of_gt (Nat.zero_lt_of_lt hlt), Nat.ne_of_gt (Nat.zero_lt_of_lt hlt)⟩
  have hno : ∀ i ∈ m.present, (limit - (packed (0 : Byte) (argv ++ envp)).length) / pageSize ≤ i := by
    rw [present_empty hm]
    intro i hi
    cases hi
  have henvlen := length_packed_reverse envp
  have harglen := length_packed_reverse argv
  have henv := copyStrings_enough (m := m) (p := limit) envp.reverse (by omega) (by omega)
    (Nat.div_le_div_right (by omega)) hno (by omega)
  obtain ⟨-, hall⟩ := copyStrings_spec (m := m) (p := limit) envp.reverse (by omega)
  obtain ⟨hsum, hcopied, -⟩ := hall (by omega)
  refine ⟨by omega, ?_⟩
  generalize m.copyStrings envp.reverse limit = env at *
  have hlo : (limit - (packed (0 : Byte) (argv ++ envp)).length) / pageSize
      ≤ (env.1 - (packed 0 argv.reverse).length) / pageSize := Nat.div_le_div_right (by omega)
  rw [copyStrings_enough (m := env.2) argv.reverse (by omega) (by omega) hlo ?_ ?_]
  · omega
  · intro i hi
    refine (hcopied.pages i hi).elim (hno i) (Nat.div_le_div_right ?_).trans
    omega
  · rw [hcopied.total]
    omega

/-- The strings of the arguments and of the environment are copied exactly when they fit; otherwise all
pages are given back. -/
theorem exec_strings_iff (free : ℕ) (argv envp : List (List Byte)) :
    (Fits free (argv ++ envp) → ∃ m, (cleared free).execStrings argv envp
        = (.inr (limit - (packed 0 (argv ++ envp)).length), m) ∧
      Holds m.byte (limit - (packed 0 (argv ++ envp)).length) ((packed 0 (argv ++ envp)).map some)) ∧
    (¬ Fits free (argv ++ envp) → (cleared free).execStrings argv envp = (.inl (-e2big), cleared free)) := by
  constructor
  · intro hfits
    obtain ⟨henv, hargs⟩ := exec_enough (m := cleared free) rfl hfits
    obtain ⟨p, m, hexec, -, hsum, -, hholds⟩ := exec_copied henv hargs
    have hp : limit - (packed (0 : Byte) (argv ++ envp)).length = p := by omega
    rw [hp]
    exact ⟨m, hexec, hholds⟩
  · intro hnot
    refine exec_given_back rfl fun henv => ?_
    by_contra hargs
    obtain ⟨p, m, -, hpos, hsum, hcopied, hholds⟩ := exec_copied henv hargs
    exact hnot (fits_of_copied hcopied rfl rfl hholds hsum hpos)

/-- The same, of a call that has returned. -/
theorem exec_strings_of_eq {free : ℕ} (h : (cleared free).execStrings argv envp = (.inr p, m)) :
    p + (packed 0 (argv ++ envp)).length = limit ∧ Holds m.byte p ((packed 0 (argv ++ envp)).map some) := by
  obtain ⟨hyes, hno⟩ := exec_strings_iff free argv envp
  by_cases hfits : Fits free (argv ++ envp)
  · obtain ⟨m', hexec, hholds⟩ := hyes hfits
    have hsize := hfits.1
    obtain ⟨hp, rfl⟩ := Prod.mk.inj (hexec.symm.trans h)
    obtain rfl := Sum.inr.inj hp
    exact ⟨Nat.sub_add_cancel hsize.le, hholds⟩
  · have hexec := (hno hfits).symm.trans h
    cases hexec

end ArgPages

/-! ## The vector -/

namespace UserSpace
open ArgPages
variable {u u' : UserSpace} {m : ArgPages} {a argc esp n p str : ℕ} {addrs ws : List ℕ} {s : List Byte}
  {argv envp strs : List (List Byte)}

/-- The pages of the strings are there, behind those that were mapped. -/
structure Remapped (u : UserSpace) (m : ArgPages) (n : ℕ) (u' : UserSpace) : Prop where
  table : u'.table = u.table
  mapped : ∀ k, u'.mapped k = true ↔
    u.mapped k = true ∨ ∃ i < n, k = stackStart / pageSize + i ∧ (m.page i).isSome
  bytes : ∀ x c, x < pageSize * n → m.byte x = some c → u'.bytes (stackStart + x) = c

theorem page_eq (x : ℕ) : (stackStart + x) / pageSize = stackStart / pageSize + x / pageSize ∧
    (stackStart + x) % pageSize = x % pageSize := by
  have hpage : pageSize = 4096 := rfl
  have hstart : stackStart = 786400 * 4096 := rfl
  rw [hpage]
  omega

theorem lt_or_page_eq (h : a < pageSize * (n + 1)) : a < pageSize * n ∨ a / pageSize = n := by
  by_cases hlt : a < pageSize * n
  · exact .inl hlt
  · have hle : n ≤ a / pageSize := (Nat.le_div_iff_mul_le Memory.pageSize_pos).mpr (by
      rw [Nat.mul_comm]
      omega)
    have hsucc : a / pageSize < n + 1 := Nat.div_lt_of_lt_mul h
    exact .inr (by omega)

theorem Remapped.zero : Remapped u m 0 u where
  table := rfl
  mapped k := by simp
  bytes x c hx := by omega

theorem Remapped.skip (h : Remapped u m n u') (hpage : m.page n = none) : Remapped u m (n + 1) u' where
  table := h.table
  mapped k := by
    rw [h.mapped]
    refine or_congr_right ⟨?_, ?_⟩
    · rintro ⟨i, hi, hk, hsome⟩
      exact ⟨i, by omega, hk, hsome⟩
    · rintro ⟨i, hi, hk, hsome⟩
      have hne : i ≠ n := by
        rintro rfl
        rw [hpage] at hsome
        cases hsome
      exact ⟨i, by omega, hk, hsome⟩
  bytes x c hx hc := by
    rcases lt_or_page_eq hx with hlt | hlt
    · exact h.bytes x c hlt hc
    · rw [byte, hlt, hpage] at hc
      cases hc

theorem Remapped.remapPage {b : Bytes} (h : Remapped u m n u') (hpage : m.page n = some b)
    (htable : u.table = true) :
    ∃ u'', u'.remapPage (stackStart / pageSize + n) b = some u'' ∧ Remapped u m (n + 1) u'' := by
  unfold UserSpace.remapPage
  rw [if_pos (h.table.trans htable)]
  refine ⟨_, rfl, h.table, fun k => ?_, fun x c hx hc => ?_⟩
  · dsimp only
    by_cases hk : k = stackStart / pageSize + n
    · subst hk
      rw [Function.update_self]
      refine iff_of_true rfl (.inr ⟨n, by omega, rfl, ?_⟩)
      rw [hpage]
      rfl
    · rw [Function.update_of_ne hk, h.mapped]
      refine or_congr_right ⟨?_, ?_⟩
      · rintro ⟨i, hi, hi', hsome⟩
        exact ⟨i, by omega, hi', hsome⟩
      · rintro ⟨i, hi, rfl, hsome⟩
        exact ⟨i, by omega, rfl, hsome⟩
  · obtain ⟨hdiv, hmod⟩ := page_eq x
    dsimp only
    rw [hdiv, hmod]
    by_cases hx' : x / pageSize = n
    · rw [if_pos (by rw [hx'])]
      rw [byte, hx', hpage] at hc
      exact Option.some.inj hc
    · rw [if_neg (by omega)]
      exact h.bytes x c ((lt_or_page_eq hx).resolve_right hx') hc

/-- Nothing was handed out for the area, or there is a table for it. -/
def Reachable (u : UserSpace) (m : ArgPages) (n : ℕ) : Prop := u.table = true ∨ ∀ i < n, m.page i = none

theorem remapPages_some (h : Reachable u m n) : ∃ u', u.remapPages m n = some u' ∧ Remapped u m n u' := by
  induction n with
  | zero => exact ⟨u, rfl, .zero⟩
  | succ n ih =>
      obtain ⟨u', hrest, hremapped⟩ := ih (h.imp_right fun h i hi => h i (by omega))
      rw [remapPages, hrest, Option.bind_some]
      cases hpage : m.page n with
      | none => exact ⟨u', rfl, hremapped.skip hpage⟩
      | some b =>
          refine hremapped.remapPage hpage (h.resolve_right fun h => ?_)
          rw [h n (by omega)] at hpage
          cases hpage

theorem remapPages_none (h : ¬ Reachable u m n) : u.remapPages m n = none := by
  have hoff : u.table = false := Bool.eq_false_of_not_eq_true fun h' => h (.inl h')
  induction n with
  | zero => exact absurd (.inr fun i hi => absurd hi (Nat.not_lt_zero i)) h
  | succ n ih =>
      rw [remapPages]
      by_cases hn : Reachable u m n
      · obtain ⟨u', hrest, hremapped⟩ := remapPages_some hn
        rw [hrest, Option.bind_some]
        cases hpage : m.page n with
        | none =>
            refine absurd (.inr fun i hi => ?_) h
            rcases Nat.lt_succ_iff_lt_or_eq.mp hi with hlt | rfl
            · exact hn.resolve_left (by rw [hoff]; exact Bool.false_ne_true) i hlt
            · exact hpage
        | some b =>
            dsimp only
            rw [UserSpace.remapPage, hremapped.table, hoff, if_neg Bool.false_ne_true]
      · rw [ih hn, Option.bind_none]

theorem strlen_eq (h : IsString 0 u.bytes str s) (hn : s.length < n) : Text.strlen u.bytes n str
    = some s.length := by
  induction s generalizing str n with
  | nil =>
      obtain ⟨n, rfl⟩ : ∃ k, n = k + 1 := ⟨n - 1, by rw [List.length_nil] at hn; omega⟩
      exact if_pos (isString_nil.mp h)
  | cons c s ih =>
      rw [List.length_cons] at hn
      obtain ⟨n, rfl⟩ : ∃ k, n = k + 1 := ⟨n - 1, by omega⟩
      obtain ⟨hne, hc, hrest⟩ := isString_cons.mp h
      rw [Text.strlen, if_neg (by rw [hc]; exact hne), ih hrest (by omega)]
      rfl

/-- The addresses of the arguments are those at which the strings were put. -/
theorem argAddrs_eq (h : Holds u.bytes str (packed 0 strs)) (hz : ∀ s ∈ strs, 0 ∉ s)
    (hend : str + (packed 0 strs).length < word) (hlen : (packed 0 strs).length ≤ pageSize * maxArgPages)
    (hroom : addrs.length + strs.length ≤ maxArgs) :
    u.argAddrs strs.length str addrs = some (addrs ++ starts str strs) := by
  induction strs generalizing str addrs with
  | nil => exact congrArg some (List.append_nil addrs).symm
  | cons s strs ih =>
      rw [packed_cons, holds_append, List.length_append, List.length_singleton] at h
      rw [length_packed_cons] at hend hlen
      rw [List.length_cons] at hroom
      have hstring : IsString 0 u.bytes str s := ⟨hz s List.mem_cons_self, h.1⟩
      rw [List.length_cons, argAddrs, if_pos (by omega), strlen_eq hstring (by omega), Option.bind_some,
        wadd_of_lt (by omega), ih h.2 (fun s hs => hz s (List.mem_cons_of_mem _ hs)) (by omega)
          (by omega), starts,
        List.append_assoc]
      · rfl
      · rw [List.length_append, List.length_singleton]
        omega

/-- More arguments than the array has entries do not come to the end of the loop. -/
theorem argAddrs_none (hfew : addrs.length ≤ maxArgs) (h : maxArgs < addrs.length + n) :
    u.argAddrs n str addrs = none := by
  induction n generalizing str addrs with
  | zero => omega
  | succ n ih =>
      rw [argAddrs]
      split_ifs with hlt
      · rw [Option.bind_eq_none_iff]
        intro len _
        exact ih (by rw [List.length_append, List.length_singleton]; omega)
          (by rw [List.length_append, List.length_singleton]; omega)
      · rfl

theorem storeWords_none (h : ∃ i < ws.length, u.mapped ((a + 4 * i) / pageSize) = false) :
    u.storeWords a ws = none := by
  induction ws generalizing u a with
  | nil =>
      obtain ⟨i, hi, -⟩ := h
      cases hi
  | cons w ws ih =>
      obtain ⟨i, hi, hunmapped⟩ := h
      rw [storeWords]
      split_ifs with hmapped
      · cases i with
        | zero =>
            rw [Nat.mul_zero, Nat.add_zero, hmapped] at hunmapped
            cases hunmapped
        | succ i =>
            refine ih ⟨i, Nat.lt_of_succ_lt_succ hi, ?_⟩
            dsimp only
            rw [← hunmapped]
            congr 2
            omega
      · rfl

theorem storeWords_some (h : ∀ i < ws.length, u.mapped ((a + 4 * i) / pageSize) = true) :
    ∃ b, u.storeWords a ws = some { u with bytes := b } ∧
      (∀ i w, ws[i]? = some w → w < word → get 4 b (a + 4 * i) = w) ∧
      ∀ x, x < a ∨ a + 4 * ws.length ≤ x → b x = u.bytes x := by
  induction ws generalizing u a with
  | nil => exact ⟨u.bytes, rfl, fun i w h => absurd h (Option.some_ne_none w).symm, fun _ _ => rfl⟩
  | cons w ws ih =>
      rw [List.length_cons] at h ⊢
      have haddr : ∀ i, a + 4 * (i + 1) = a + 4 + 4 * i := fun i => by ring
      obtain ⟨b, hstore, hwords, hother⟩ := ih (u := { u with bytes := put 4 u.bytes a w }) (a := a + 4) (by
        intro i hi
        rw [← haddr]
        exact h (i + 1) (by omega))
      refine ⟨b, ?_, ?_, ?_⟩
      · have hfirst : u.mapped (a / pageSize) = true := h 0 (by omega)
        rw [storeWords, if_pos hfirst, hstore]
      · intro i v hv hlt
        cases i with
        | zero =>
            obtain rfl : w = v := Option.some.inj hv
            have hsame : get 4 b a = get 4 (put 4 u.bytes a w) a := get_congr fun x _ hx => hother x (by omega)
            rw [Nat.mul_zero, Nat.add_zero, hsame, get_put_of_lt hlt]
        | succ i =>
            rw [haddr]
            exact hwords i v hv hlt
      · intro x hx
        rw [hother x (by omega)]
        rcases hx with hx | hx
        · exact put_of_lt hx
        · exact put_of_le (by omega)

/-! ## What the program finds -/

/-- The words at an address lie on pages of the strings, or on pages that were mapped before. -/
def Room (u : UserSpace) (m : ArgPages) (a n : ℕ) : Prop :=
  ∀ i < n, u.mapped ((a + 4 * i) / pageSize) = true ∨
    ∃ j < maxArgPages, (a + 4 * i) / pageSize = stackStart / pageSize + j ∧ (m.page j).isSome

/-- `main` gets the arguments, and behind the last one a null pointer. -/
structure Given (u : UserSpace) (esp : ℕ) (argv : List (List Byte)) : Prop where
  aligned : 16 ∣ esp
  argc : (u.start esp).argc = argv.length
  string : ∀ i s, argv[i]? = some s → IsString 0 u.bytes (get 4 u.bytes ((u.start esp).argv + 4 * i)) s
  null : get 4 u.bytes ((u.start esp).argv + 4 * argv.length) = 0

theorem vectorAddr_eq (hargc : argc ≤ maxArgs) (hp : p ≤ limit) :
    vectorAddr argc p = (stackStart + p - 4 * (1 + argc + 1)) / 16 * 16 := by
  have hmax : maxArgs = 10 := rfl
  have hlimit : limit = 131068 := rfl
  have hstart : stackStart = 3221094400 := rfl
  have hword : word = 4294967296 := rfl
  have hsum : wadd stackStart p = stackStart + p := wadd_of_lt (by rw [hstart, hword]; omega)
  have hsub : wsub (stackStart + p) (4 * (1 + argc + 1)) = stackStart + p - 4 * (1 + argc + 1) :=
    wsub_of_le (by rw [hstart]; omega) (by rw [hstart, hword]; omega)
  unfold vectorAddr
  rw [hsum, hsub]

theorem aligned_below {x k : ℕ} (h : k ≤ x) : (x - k) / 16 * 16 + k ≤ x := by
  have hle := Nat.div_mul_le_self (x - k) 16
  omega

/-- The vector lies in front of the strings. -/
theorem vectorAddr_le (hargc : argc ≤ maxArgs) (hp : p ≤ limit) :
    16 ∣ vectorAddr argc p ∧ vectorAddr argc p + 4 * (argc + 2) ≤ stackStart + p := by
  have hsize : 4 * (argc + 2) = 4 * (1 + argc + 1) := by ring
  have hpos : 4 * (1 + argc + 1) ≤ stackStart := by
    have hmax : maxArgs = 10 := rfl
    have hstart : 48 ≤ stackStart := by decide
    omega
  rw [hsize, vectorAddr_eq hargc hp]
  constructor
  · exact Nat.dvd_mul_left 16 _
  · exact aligned_below (hpos.trans (Nat.le_add_right _ p))

/-- The vector in front of the strings is what `main` gets. -/
theorem given_of_stored {b : Bytes} (hargc : argv.length ≤ maxArgs) (hp : p ≤ limit)
    (hlen : p + (packed 0 argv).length ≤ limit)
    (hstrs : Holds u.bytes (stackStart + p) (packed 0 argv)) (hz : ∀ s ∈ argv, 0 ∉ s)
    (hwords : ∀ i w, (argv.length :: starts (stackStart + p) argv ++ [0])[i]? = some w → w < word →
      get 4 b (vectorAddr argv.length p + 4 * i) = w)
    (hother : ∀ x, vectorAddr argv.length p + 4 * (argv.length + 2) ≤ x → b x = u.bytes x) :
    Given { u with bytes := b } (vectorAddr argv.length p) argv := by
  have hmax : maxArgs = 10 := rfl
  have hlimit : limit = 131068 := rfl
  have hstart : stackStart = 3221094400 := rfl
  have hword : word = 4294967296 := rfl
  obtain ⟨haligned, hbelow⟩ := vectorAddr_le hargc hp
  generalize vectorAddr argv.length p = a at *
  have hfew : argv.length < word := by omega
  have hfirst : get 4 b a = argv.length := by
    have hword := hwords 0 argv.length rfl hfew
    rw [Nat.mul_zero, Nat.add_zero] at hword
    exact hword
  have hesp : a / 16 * 16 = a := Nat.div_mul_cancel haligned
  have hargv : ((UserSpace.mk u.table u.mapped b).start a).argv = a + 4 := by
    unfold start
    dsimp only
    rw [hesp, wadd_of_lt (by omega)]
  refine ⟨haligned, ?_, ?_, ?_⟩
  · unfold start
    dsimp only
    rw [hesp, hfirst]
  · intro i s hs
    obtain ⟨hi, -⟩ := List.getElem?_eq_some_iff.mp hs
    obtain ⟨w, hw⟩ : ∃ w, (starts (stackStart + p) argv)[i]? = some w :=
      ⟨_, List.getElem?_eq_getElem (by rw [length_starts]; exact hi)⟩
    have hlt := starts_lt (z := (0 : Byte)) (List.mem_of_getElem? hw)
    have hget : get 4 b (a + 4 * (i + 1)) = w := by
      refine hwords (i + 1) w ?_ (by omega)
      rw [List.cons_append, List.getElem?_cons_succ,
        List.getElem?_append_left (by rw [length_starts]; exact hi)]
      exact hw
    rw [hargv, show a + 4 + 4 * i = a + 4 * (i + 1) by ring, hget]
    refine isString_of_packed (hstrs.congr fun k _ => ?_) hz hw hs
    exact hother _ (by omega)
  · rw [hargv, show a + 4 + 4 * argv.length = a + 4 * (argv.length + 1) by ring]
    refine hwords (argv.length + 1) 0 ?_ (by omega)
    rw [List.cons_append, List.getElem?_cons_succ,
      List.getElem?_append_right (by rw [length_starts]), length_starts,
      Nat.sub_self]
    rfl

/-- The arguments that were copied reach `main` when there are at most ten of them and the vector has
pages; otherwise the kernel stops. -/
theorem arguments_arrive {free : ℕ} (u : UserSpace) (h : (cleared free).execStrings argv envp = (.inr p, m))
    (hz : ∀ s ∈ argv, 0 ∉ s) :
    (argv.length ≤ maxArgs ∧ Reachable u m maxArgPages ∧ Room u m (vectorAddr argv.length p) (argv.length + 2) →
      ∃ u', u.putArgs m argv.length p = some (vectorAddr argv.length p, u') ∧
        Given u' (vectorAddr argv.length p) argv) ∧
    (¬ (argv.length ≤ maxArgs ∧ Reachable u m maxArgPages ∧
      Room u m (vectorAddr argv.length p) (argv.length + 2)) → u.putArgs m argv.length p = none) := by
  obtain ⟨hsum, hholds⟩ := exec_strings_of_eq h
  rw [packed_append, List.length_append] at hsum
  rw [packed_append, List.map_append, holds_append] at hholds
  have hlimit : limit = 131068 := rfl
  have harea : pageSize * maxArgPages = 131072 := rfl
  have hstart : stackStart = 3221094400 := rfl
  have hword : word = 4294967296 := rfl
  have hp : wadd stackStart p = stackStart + p := wadd_of_lt (by omega)
  unfold putArgs
  by_cases hreach : Reachable u m maxArgPages
  swap
  · rw [remapPages_none hreach, Option.bind_none]
    exact ⟨fun h => absurd h.2.1 hreach, fun _ => rfl⟩
  obtain ⟨u', hremap, hremapped⟩ := remapPages_some hreach
  rw [hremap, Option.bind_some, hp]
  by_cases hargc : argv.length ≤ maxArgs
  swap
  · rw [argAddrs_none (Nat.zero_le _) (by rw [List.length_nil]; omega), Option.bind_none]
    exact ⟨fun h => absurd h.1 hargc, fun _ => rfl⟩
  have hstrs : Holds u'.bytes (stackStart + p) (packed 0 argv) := by
    intro k c hc
    have hk := (List.getElem?_eq_some_iff.mp hc).1
    rw [Nat.add_assoc]
    exact hremapped.bytes (p + k) c (by omega) (hholds.1 k (some c) (by rw [List.getElem?_map, hc]; rfl))
  rw [argAddrs_eq hstrs hz (by omega) (by omega) (by rw [List.length_nil]; omega), Option.bind_some,
    List.nil_append]
  have hlen : (argv.length :: starts (stackStart + p) argv ++ [0]).length = argv.length + 2 := by
    rw [List.length_append, List.length_cons, length_starts]
    rfl
  by_cases hroom : Room u m (vectorAddr argv.length p) (argv.length + 2)
  · refine ⟨fun _ => ?_, fun h => absurd ⟨hargc, hreach, hroom⟩ h⟩
    have hpages : ∀ i < (argv.length :: starts (stackStart + p) argv ++ [0]).length,
        u'.mapped ((vectorAddr argv.length p + 4 * i) / pageSize) = true := by
      intro i hi
      rw [hlen] at hi
      exact (hremapped.mapped _).mpr (hroom i hi)
    obtain ⟨b, hstore, hwords, hother⟩ := storeWords_some hpages
    rw [hstore]
    refine ⟨_, rfl, given_of_stored hargc (by omega) (by omega) hstrs hz hwords fun x hx => hother x (.inr ?_)⟩
    rw [hlen]
    exact hx
  · refine ⟨fun h => absurd h.2.2 hroom, fun _ => ?_⟩
    obtain ⟨i, hi, hno⟩ : ∃ i < argv.length + 2,
        u'.mapped ((vectorAddr argv.length p + 4 * i) / pageSize) = false := by
      by_contra hall
      refine hroom fun i hi => (hremapped.mapped _).mp ?_
      by_contra hno
      exact hall ⟨i, hi, Bool.eq_false_of_not_eq_true hno⟩
    rw [storeWords_none ⟨i, by rw [hlen]; exact hi, hno⟩]
    rfl

/-- The strings of `sh -c` in a new area. -/
def shellPages : ArgPages := ((cleared 1).execStrings [[0x73, 0x68], [0x2D, 0x63]] []).2

theorem arguments_arrive_shell : ∃ u',
    (UserSpace.mk true (fun _ => true) fun _ => 0).putArgs shellPages 2 131062
      = some (vectorAddr 2 131062, u') ∧ Given u' (vectorAddr 2 131062) [[0x73, 0x68], [0x2D, 0x63]] := by
  have hexec : (cleared 1).execStrings [[0x73, 0x68], [0x2D, 0x63]] [] = (.inr 131062, shellPages) :=
    Prod.ext (by decide) rfl
  exact (arguments_arrive (UserSpace.mk true (fun _ => true) fun _ => 0) hexec (by decide)).1
    ⟨by decide, .inl rfl, fun _ _ => .inl rfl⟩

end UserSpace
end Ferrite.Sys
