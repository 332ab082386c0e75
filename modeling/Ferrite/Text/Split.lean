import Ferrite.Library.Blocks
import Ferrite.Library.Fields
import Ferrite.Library.Signed
import Ferrite.Memory.Kmalloc

/-!
# Splitting a string

`countwords` counts the words and sizes the array by them, and the loop of `split` fills it.
Where `kmalloc` gives no memory, `freearray` gives back the words that are there and the array.
A block that `kmalloc` hands out lies apart from the memory in use; headers are left out. A loop
whose fuel runs out has no result.
-/
namespace Ferrite.Text
open Packed Word Fields

/-- The bytes, the memory in use, what `kmalloc` has answered and what `kfree` was given. -/
structure Kernel where
  bytes : Bytes
  live : List Block
  answers : List (Option ℕ)
  freed : List ℕ

/-- The blocks that `kmalloc` finds. -/
structure Allocator where
  take : List Block → ℕ → Option ℕ
  fresh : ∀ live n p, take live n = some p →
    p ≠ 0 ∧ p + n ≤ word ∧ ∀ q ∈ live, q.Apart ⟨p, n⟩

def kmalloc (A : Allocator) (k : Kernel) (n : ℕ) : Option ℕ × Kernel :=
  let answer := if n = 0 ∨ Memory.maximumSlabAllocation ≤ n then none else A.take k.live n
  (answer, { k with
    live := k.live ++ (answer.map fun p => ⟨p, n⟩).toList
    answers := k.answers ++ [answer] })

def kfree (k : Kernel) (p : ℕ) : Kernel :=
  { k with
    live := k.live.filter (·.addr ≠ p)
    freed := k.freed ++ [p] }

/-- `s[i] = p` for an array of pointers. -/
def Kernel.setEntry (k : Kernel) (s i p : ℕ) : Kernel := { k with bytes := put 4 k.bytes (s + 4 * i) p }

def freeArray (k : Kernel) (s : ℕ) : ℕ → Kernel
  | 0 => kfree k s
  | i + 1 => freeArray (kfree k (get 4 k.bytes (s + 4 * i))) s i

def countWords (b : Bytes) (c : Byte) : ℕ → ℕ → Bool → ℕ → Option ℕ
  | 0, _, _, _ => none
  | n + 1, str, state, counter =>
      if b str = 0 then some counter
      else if b str = c then countWords b c n (str + 1) false counter
      else if state = false then countWords b c n (str + 1) true (counter + 1)
      else countWords b c n (str + 1) state counter

def strlen (b : Bytes) : ℕ → ℕ → Option ℕ
  | 0, _ => none
  | n + 1, s => if b s = 0 then some 0 else (strlen b n (s + 1)).map (· + 1)

def substr (A : Allocator) (n : ℕ) (k : Kernel) (str start len : ℕ) : Option (Option ℕ × Kernel) :=
  if str = 0 then some (none, k)
  else
    (strlen k.bytes n str).map fun slen =>
      if slen ≤ start then
        match kmalloc A k 1 with
        | (some p, k) => (some p, { k with bytes := put 1 k.bytes p 0 })
        | (none, k) => (none, k)
      else
        let len := min len (slen - start)
        match kmalloc A k (len + 1) with
        | (none, k) => (none, k)
        | (some p, k) => (some p,
          { k with bytes := put 1 (copy len k.bytes p k.bytes (str + start)) (p + len) 0 })

/-- `while (s[len] == c) len++`. -/
def skipSeparators (b : Bytes) (s : ℕ) (c : Byte) : ℕ → ℕ → Option ℕ
  | 0, _ => none
  | n + 1, len => if b (s + len) = c then skipSeparators b s c n (len + 1) else some len

/-- `while (s[len] && s[len] != c) len++`. -/
def skipLetters (b : Bytes) (s : ℕ) (c : Byte) : ℕ → ℕ → Option ℕ
  | 0, _ => none
  | n + 1, len => if b (s + len) ≠ 0 ∧ b (s + len) ≠ c then skipLetters b s c n (len + 1) else some len

/-- The loop over the words, of which so many are left, and the end of `split`. -/
def splitLoop (A : Allocator) (n s : ℕ) (c : Byte) (str : ℕ) : ℕ → ℕ → ℕ → Kernel → Option (Option ℕ × Kernel)
  | 0, i, _, k => some (some str, k.setEntry str i 0)
  | left + 1, i, len, k => do
      let start ← skipSeparators k.bytes s c n len
      let len ← skipLetters k.bytes s c n start
      let (part, k) ← substr A n k s start (len - start)
      let k := k.setEntry str i (part.getD 0)
      if part.getD 0 = 0 then return (none, freeArray k str (signed 32 i).toNat)
      else splitLoop A n s c str left (i + 1) len k

def split (A : Allocator) (n : ℕ) (k : Kernel) (s : ℕ) (c : Byte) : Option (Option ℕ × Kernel) :=
  if s = 0 then some (none, k)
  else do
    let wordCount ← countWords k.bytes c n s false 0
    match kmalloc A k (4 * (wordCount + 1) % word) with
    | (none, k) => return (none, k)
    | (some str, k) => splitLoop A n s c str wordCount 0 0 k

/-! ## What a call leaves -/

/-- The maximal runs of characters other than the separator. -/
def segments (c : Byte) (text : List Byte) : List (List Byte) := (fields (fun a => a = c) text).map Prod.snd

/-- They are just these, in the order in which they stand. -/
structure AreSegments (c : Byte) (text : List Byte) (words : List (List Byte)) : Prop where
  runs : ∃ fs : List (ℕ × List Byte), fs.map Prod.snd = words ∧ fs.Pairwise (fun f g => f.1 < g.1) ∧
    ∀ p w, (p, w) ∈ fs ↔ IsField (fun a => a = c) text p w

/-- A string in memory in use; an object takes less than half of the addresses. -/
structure Holds (k : Kernel) (s : ℕ) (text : List Byte) : Prop where
  nonnull : s ≠ 0
  inUse : ⟨s, text.length + 1⟩ ∈ k.live
  string : StringAt k.bytes s text
  noNul : 0 ∉ text
  object : text.length + 1 < 2 ^ 31

/-- The block of a copied word. -/
def wordBlock (w : ℕ × List Byte) : Block := ⟨w.1, w.2.length + 1⟩

/-- The blocks that a call has taken for the array, with so many entries, and for the words. -/
def taken (str size : ℕ) (copies : List (ℕ × List Byte)) : List Block := ⟨str, 4 * size⟩ :: copies.map wordBlock

/-- The first entries of a new array are new strings with these words. -/
structure Copied (k k' : Kernel) (str size : ℕ) (copies : List (ℕ × List Byte)) : Prop where
  live : k'.live = k.live ++ taken str size copies
  apart : (taken str size copies).Pairwise Block.Apart ∧ ∀ q ∈ k.live, ∀ p ∈ taken str size copies, q.Apart p
  answers : k'.answers = k.answers ++ some str :: copies.map fun w => some w.1
  freed : k'.freed = k.freed
  entries : ∀ i w, copies[i]? = some w → get 4 k'.bytes (str + 4 * i) = w.1
  strings : ∀ w ∈ copies, w.1 ≠ 0 ∧ StringAt k'.bytes w.1 w.2
  kept : ∀ q ∈ k.live, q.Keeps k.bytes k'.bytes

/-- Everything that was given out was given back, once. -/
structure GivenBack (k k' : Kernel) (answers : List (Option ℕ)) : Prop where
  live : k'.live = k.live
  freed : ∃ freed, k'.freed = k.freed ++ freed ∧ freed.Nodup ∧ ∀ p, p ∈ freed ↔ some p ∈ answers
  kept : ∀ q ∈ k.live, q.Keeps k.bytes k'.bytes

/-- With memory for all of them, the call returns an array of fresh copies of the words with a
NULL behind it; otherwise it returns NULL. -/
def Splits (k : Kernel) (words : List (List Byte)) (r : Option ℕ) (k' : Kernel) : Prop :=
  ∃ answers, k'.answers = k.answers ++ answers ∧
    (none ∉ answers → ∃ str copies, r = some str ∧ str ≠ 0 ∧ copies.map Prod.snd = words ∧
      Copied k k' str (words.length + 1) copies ∧ get 4 k'.bytes (str + 4 * words.length) = 0) ∧
    (none ∈ answers → r = none ∧ GivenBack k k' answers)

variable {A : Allocator} {k k' : Kernel} {b : Bytes} {c a : Byte} {s str size n p i counter : ℕ}
variable {text pre rest seps w : List Byte} {copies : List (ℕ × List Byte)} {words : List (List Byte)}

/-! ## The loops over the string -/

theorem strlen_eq (h : StringAt b s (pre ++ rest)) (hnul : 0 ∉ rest) (hn : rest.length < n) :
    strlen b n (s + pre.length) = some rest.length := by
  induction rest generalizing pre n with
  | nil =>
      obtain ⟨n, rfl⟩ : ∃ m, n = m + 1 := ⟨n - 1, by simp at hn; omega⟩
      have hend := h.nul
      rw [List.append_nil] at hend
      exact if_pos hend
  | cons a rest ih =>
      rw [List.length_cons] at hn
      obtain ⟨n, rfl⟩ : ∃ m, n = m + 1 := ⟨n - 1, by omega⟩
      have ha : b (s + pre.length) ≠ 0 := by
        rw [h.char]
        exact fun ha => hnul (ha ▸ List.mem_cons_self)
      have hrest := ih (List.append_cons pre a rest ▸ h) (fun h => hnul (List.mem_cons_of_mem a h))
        (show rest.length < n by omega)
      rw [List.length_append, List.length_singleton, ← Nat.add_assoc] at hrest
      rw [strlen, if_neg ha, hrest]
      rfl

/-- In a word the count goes on behind it. -/
theorem countWords_eq (h : StringAt b s (pre ++ rest)) (hnul : 0 ∉ rest) (hn : rest.length < n)
    (p counter : ℕ) :
    countWords b c n (s + pre.length) false counter
        = some (counter + (fieldsFrom (fun a => a = c) p rest).length) ∧
      countWords b c n (s + pre.length) true counter
        = some (counter + (fieldsFrom (fun a => a = c) p
          (rest.dropWhile fun a => !decide (a = c))).length) := by
  induction rest generalizing pre n p counter with
  | nil =>
      obtain ⟨n, rfl⟩ : ∃ m, n = m + 1 := ⟨n - 1, by simp at hn; omega⟩
      have hend := h.nul
      rw [List.append_nil] at hend
      rw [List.dropWhile_nil, fieldsFrom_nil]
      exact ⟨if_pos hend, if_pos hend⟩
  | cons a rest ih =>
      rw [List.length_cons] at hn
      obtain ⟨n, rfl⟩ : ∃ m, n = m + 1 := ⟨n - 1, by omega⟩
      have hchar := h.char
      have ha : a ≠ 0 := fun ha => hnul (ha ▸ List.mem_cons_self)
      have hrest := fun p counter => ih (List.append_cons pre a rest ▸ h)
          (fun h => hnul (List.mem_cons_of_mem a h))
        (show rest.length < n by omega) p counter
      rw [List.length_append, List.length_singleton, ← Nat.add_assoc] at hrest
      rw [countWords, countWords, hchar, if_neg ha, if_neg ha]
      by_cases hsep : a = c
      · rw [if_pos hsep, if_pos hsep, List.dropWhile_cons_of_neg (by simp [hsep]),
        fieldsFrom_sep (by simp [hsep])]
        exact ⟨(hrest (p + 1) counter).1, (hrest (p + 1) counter).1⟩
      · rw [if_neg hsep, if_neg hsep, if_pos rfl, if_neg (by decide),
        List.dropWhile_cons_of_pos (by simp [hsep])]
        refine ⟨?_, (hrest p counter).2⟩
        rw [fieldsFrom, if_neg (by simp [hsep])]
        dsimp only
        rw [(hrest _ (counter + 1)).2, List.length_cons, Nat.add_assoc, Nat.add_comm 1]

theorem skipSeparators_eq (h : StringAt b s (pre ++ (seps ++ rest))) (hseps : ∀ a ∈ seps, a = c)
    (hend : b (s + (pre.length + seps.length)) ≠ c) (hn : seps.length < n) :
    skipSeparators b s c n pre.length = some (pre.length + seps.length) := by
  induction seps generalizing pre n with
  | nil =>
      obtain ⟨n, rfl⟩ : ∃ m, n = m + 1 := ⟨n - 1, by simp at hn; omega⟩
      exact if_neg hend
  | cons a seps ih =>
      rw [List.length_cons] at hn hend
      obtain ⟨n, rfl⟩ : ∃ m, n = m + 1 := ⟨n - 1, by omega⟩
      have hchar : b (s + pre.length) = c := h.char.trans (hseps a List.mem_cons_self)
      have hrest := ih (List.append_cons pre a _ ▸ h) (fun d hd => hseps d (List.mem_cons_of_mem a hd))
        (by rw [List.length_append, List.length_singleton, Nat.add_assoc, Nat.add_comm 1]; exact hend)
        (show seps.length < n by omega)
      rw [List.length_append, List.length_singleton] at hrest
      rw [skipSeparators, if_pos hchar, hrest, List.length_cons, Nat.add_assoc, Nat.add_comm 1]

theorem skipLetters_eq (h : StringAt b s (pre ++ (w ++ rest))) (hw : ∀ a ∈ w, a ≠ 0 ∧ a ≠ c)
    (hend : b (s + (pre.length + w.length)) = 0 ∨ b (s + (pre.length + w.length)) = c) (hn : w.length < n) :
    skipLetters b s c n pre.length = some (pre.length + w.length) := by
  induction w generalizing pre n with
  | nil =>
      obtain ⟨n, rfl⟩ : ∃ m, n = m + 1 := ⟨n - 1, by simp at hn; omega⟩
      exact if_neg fun hletter => hend.elim hletter.1 hletter.2
  | cons a w ih =>
      rw [List.length_cons] at hn hend
      obtain ⟨n, rfl⟩ : ∃ m, n = m + 1 := ⟨n - 1, by omega⟩
      have hchar : b (s + pre.length) = a := h.char
      have hrest := ih (List.append_cons pre a _ ▸ h) (fun d hd => hw d (List.mem_cons_of_mem a hd))
        (by rw [List.length_append, List.length_singleton, Nat.add_assoc, Nat.add_comm 1]; exact hend)
        (show w.length < n by omega)
      rw [List.length_append, List.length_singleton] at hrest
      rw [skipLetters, hchar, if_pos (hw a List.mem_cons_self), hrest, List.length_cons,
        Nat.add_assoc, Nat.add_comm 1]

/-- Behind a word stands a separator or the end. -/
theorem char_startsApart (h : StringAt b s (pre ++ rest)) (hrest : StartsApart (fun a => decide (a = c)) rest) :
    b (s + pre.length) = 0 ∨ b (s + pre.length) = c := by
  cases rest with
  | nil =>
      left
      have hend := h.nul
      rw [List.append_nil] at hend
      exact hend
  | cons a rest =>
      right
      rw [h.char]
      exact of_decide_eq_true (hrest a rfl)

/-! ## Memory -/

theorem kmalloc_cases (A : Allocator) (k : Kernel) (n : ℕ) :
    (∃ p, kmalloc A k n = (some p, { k with live := k.live ++ [⟨p, n⟩], answers := k.answers ++ [some p] }) ∧
      n ≠ 0 ∧ p ≠ 0 ∧ p + n ≤ word ∧ ∀ q ∈ k.live, q.Apart ⟨p, n⟩) ∨
    kmalloc A k n = (none, { k with answers := k.answers ++ [none] }) := by
  unfold kmalloc
  by_cases hn : n = 0 ∨ Memory.maximumSlabAllocation ≤ n
  · right
    rw [if_pos hn]
    dsimp only [Option.map_none, Option.toList_none]
    rw [List.append_nil]
  · rw [if_neg hn]
    cases htake : A.take k.live n with
    | none =>
        right
        dsimp only [Option.map_none, Option.toList_none]
        rw [List.append_nil]
    | some p =>
        obtain ⟨hp, hend, hfresh⟩ := A.fresh k.live n p htake
        exact .inl ⟨p, rfl, fun h => hn (.inl h), hp, hend, hfresh⟩

/-- A word of the string is copied, or there is no memory for it. -/
theorem substr_cases (A : Allocator) (hs : s ≠ 0) (h : StringAt k.bytes s (pre ++ (w ++ rest)))
    (hnul : 0 ∉ pre ++ (w ++ rest))
    (hne : w ≠ []) (hn : (pre ++ (w ++ rest)).length < n) :
    (∃ p, substr A n k s pre.length w.length = some (some p, { k with
        bytes := put 1 (copy w.length k.bytes p k.bytes (s + pre.length)) (p + w.length) 0
        live := k.live ++ [⟨p, w.length + 1⟩]
        answers := k.answers ++ [some p] }) ∧
      p ≠ 0 ∧ p < word ∧ ∀ q ∈ k.live, q.Apart ⟨p, w.length + 1⟩) ∨
    substr A n k s pre.length w.length = some (none, { k with answers := k.answers ++ [none] }) := by
  have hpos : 0 < w.length := List.length_pos_of_ne_nil hne
  have hlen : (pre ++ (w ++ rest)).length = pre.length + (w.length + rest.length) := by simp
  have hstrlen : strlen k.bytes n s = some (pre ++ (w ++ rest)).length :=
    strlen_eq (show StringAt k.bytes s ([] ++ (pre ++ (w ++ rest))) from h) hnul hn
  unfold substr
  rw [if_neg hs, hstrlen, Option.map_some, hlen, if_neg (by omega)]
  dsimp only
  rw [min_eq_left (by omega)]
  rcases kmalloc_cases A k (w.length + 1) with ⟨p, hcall, -, hp, hend, hfresh⟩ | hcall
  · rw [hcall]
    exact .inl ⟨p, rfl, hp, by omega, hfresh⟩
  · rw [hcall]
    exact .inr rfl

/-! ## The array and the words -/

theorem taken_snoc (str size : ℕ) (copies : List (ℕ × List Byte)) (w : ℕ × List Byte) :
    taken str size (copies ++ [w]) = taken str size copies ++ [wordBlock w] := by
  unfold taken
  rw [List.map_append, List.cons_append]
  rfl

theorem mem_taken_array (str size : ℕ) (copies : List (ℕ × List Byte)) :
    ⟨str, 4 * size⟩ ∈ taken str size copies :=
  List.mem_cons_self

theorem mem_taken_word {w : ℕ × List Byte} (hw : w ∈ copies) : wordBlock w ∈ taken str size copies :=
  List.mem_cons_of_mem _ (List.mem_map_of_mem hw)

theorem Copied.start (hfresh : ∀ q ∈ k.live, q.Apart ⟨str, 4 * size⟩) :
    Copied k { k with live := k.live ++ [⟨str, 4 * size⟩], answers := k.answers ++ [some str] }
      str size [] where
  live := rfl
  apart := by
    refine ⟨List.pairwise_singleton _ _, ?_⟩
    intro q hq p hp
    rw [List.mem_singleton.mp hp]
    exact hfresh q hq
  answers := rfl
  freed := rfl
  entries i w h := by cases h
  strings w hw := by cases hw
  kept q _ := .refl q _

theorem Copied.mem_live (h : Copied k k' str size copies) {q : Block} (hq : q ∈ taken str size copies) :
    q ∈ k'.live := by
  rw [h.live]
  exact List.mem_append_right _ hq

/-- An entry of the array is no byte of another block. -/
theorem Copied.array_apart (h : Copied k k' str size copies) :
    (∀ q ∈ k.live, q.Apart ⟨str, 4 * size⟩) ∧ ∀ w ∈ copies, (wordBlock w).Apart ⟨str, 4 * size⟩ := by
  obtain ⟨hpairs, hold⟩ := h.apart
  refine ⟨fun q hq => hold q hq _ (mem_taken_array ..), ?_⟩
  intro w hw
  exact ((List.pairwise_cons.mp hpairs).1 _ (List.mem_map_of_mem hw)).symm

theorem keeps_setEntry {q : Block} (hq : q.Apart ⟨str, 4 * size⟩) (hi : i < size) (k : Kernel) (v : ℕ) :
    q.Keeps k.bytes (k.setEntry str i v).bytes :=
  Block.keeps_put hq (Nat.le_add_right ..) (show str + 4 * i + 4 ≤ str + 4 * size by omega) v

/-- A store behind the entries that are in use. -/
theorem Copied.setEntry (h : Copied k k' str size copies) (hi : copies.length < size) (v : ℕ) :
    Copied k (k'.setEntry str copies.length v) str size copies where
  live := h.live
  apart := h.apart
  answers := h.answers
  freed := h.freed
  entries i w hw := by
    have hlt := (List.getElem?_eq_some_iff.mp hw).1
    rw [← h.entries i w hw]
    exact get_put_of_disjoint (by omega)
  strings w hw := by
    refine ⟨(h.strings w hw).1, (h.strings w hw).2.keeps ?_⟩
    exact keeps_setEntry (h.array_apart.2 w hw) hi k' v
  kept q hq := (h.kept q hq).trans (keeps_setEntry (h.array_apart.1 q hq) hi k' v)

/-- A word more, and its entry. -/
theorem Copied.push (h : Copied k k' str size copies) (hi : copies.length < size) (hp : p ≠ 0) (hlt : p < word)
    (hfresh : ∀ q ∈ k'.live, q.Apart ⟨p, w.length + 1⟩)
    (hstring : StringAt k'.bytes s (pre ++ (w ++ rest))) :
    Copied k (Kernel.setEntry { k' with
        bytes := put 1 (copy w.length k'.bytes p k'.bytes (s + pre.length)) (p + w.length) 0
        live := k'.live ++ [⟨p, w.length + 1⟩]
        answers := k'.answers ++ [some p] } str copies.length p) str size (copies ++ [(p, w)]) := by
  have hcopied : StringAt (put 1 (copy w.length k'.bytes p k'.bytes (s + pre.length)) (p + w.length) 0) p w :=
    hstring.copy_part k'.bytes p
  have hbeside : ∀ q ∈ k'.live,
      q.Keeps k'.bytes (put 1 (copy w.length k'.bytes p k'.bytes (s + pre.length)) (p + w.length) 0) := by
    intro q hq
    have hcopy := Block.keeps_copy (b := k'.bytes) (hfresh q hq) (o := p) (n := w.length) le_rfl (Nat.le_succ _)
      k'.bytes (s + pre.length)
    exact hcopy.trans (Block.keeps_put (hfresh q hq) (Nat.le_add_right ..)
      (show p + w.length + 1 ≤ p + (w.length + 1) by omega) 0)
  generalize put 1 (copy w.length k'.bytes p k'.bytes (s + pre.length)) (p + w.length) 0 = b at hcopied hbeside
  have hentry {q : Block} (hq : q.Apart ⟨str, 4 * size⟩) : q.Keeps b (put 4 b (str + 4 * copies.length) p) :=
    Block.keeps_put hq (Nat.le_add_right ..) (show str + 4 * copies.length + 4 ≤ str + 4 * size by omega) p
  have harray := hfresh _ (h.mem_live (mem_taken_array ..))
  refine ⟨?_, ⟨?_, ?_⟩, ?_, h.freed, ?_, ?_, ?_⟩
  · rw [taken_snoc, ← List.append_assoc, ← h.live]
    rfl
  · rw [taken_snoc]
    apply List.pairwise_append.mpr ⟨h.apart.1, List.pairwise_singleton _ _, ?_⟩
    intro q hq d hd
    rw [List.mem_singleton.mp hd]
    exact hfresh q (h.mem_live hq)
  · intro q hq d hd
    rw [taken_snoc] at hd
    rcases List.mem_append.mp hd with hd | hd
    · exact h.apart.2 q hq d hd
    · rw [List.mem_singleton.mp hd]
      apply hfresh q
      rw [h.live]
      exact List.mem_append_left _ hq
  · rw [List.map_append, ← List.cons_append, ← List.append_assoc, ← h.answers]
    rfl
  · intro i v hv
    rcases Nat.lt_or_ge i copies.length with hlt' | hge
    · rw [List.getElem?_append_left hlt'] at hv
      rw [← h.entries i v hv]
      have hkept := (hbeside _ (h.mem_live (mem_taken_array ..))).get_eq (n := 4) (Nat.le_add_right str (4 * i))
        (show str + 4 * i + 4 ≤ str + 4 * size by omega)
      rw [← hkept]
      exact get_put_of_disjoint (by omega)
    · obtain rfl : i = copies.length := by
        have hlt' := (List.getElem?_eq_some_iff.mp hv).1
        rw [List.length_append, List.length_singleton] at hlt'
        omega
      rw [List.getElem?_append_right le_rfl, Nat.sub_self] at hv
      cases hv
      exact get_put_of_lt hlt
  · intro v hv
    rcases List.mem_append.mp hv with hv | hv
    · have hstays : StringAt b v.1 v.2 := (h.strings v hv).2.keeps (hbeside _ (h.mem_live (mem_taken_word hv)))
      exact ⟨(h.strings v hv).1, hstays.keeps (hentry (h.array_apart.2 v hv))⟩
    · obtain rfl := List.mem_singleton.mp hv
      exact ⟨hp, hcopied.keeps (hentry harray.symm)⟩
  · intro q hq
    have hlive : q ∈ k'.live := by
      rw [h.live]
      exact List.mem_append_left _ hq
    exact ((h.kept q hq).trans (hbeside q hlive)).trans (hentry (h.array_apart.1 q hq))

/-! ## Giving back -/

theorem filter_apart {l : List Block} {q : Block} (h : ∀ d ∈ l, d.Apart q) :
    (l ++ [q]).filter (·.addr ≠ q.addr) = l := by
  rw [List.filter_append, List.filter_cons_of_neg (by simp), List.filter_nil, List.append_nil]
  apply List.filter_eq_self.mpr
  intro d hd
  simpa using (h d hd).1

theorem freeArray_eq (old : List Block) (hlive : k.live = old ++ taken str size copies)
    (hpairs : (taken str size copies).Pairwise Block.Apart)
    (hold : ∀ q ∈ old, ∀ p ∈ taken str size copies, q.Apart p)
    (hentries : ∀ i w, copies[i]? = some w → get 4 k.bytes (str + 4 * i) = w.1) :
    freeArray k str copies.length
      = { k with live := old, freed := k.freed ++ ((copies.map Prod.fst).reverse ++ [str]) } := by
  induction copies using List.reverseRecOn generalizing k with
  | nil =>
      have hfilter : k.live.filter (·.addr ≠ str) = old := by
        rw [hlive]
        exact filter_apart fun q hq => hold q hq _ (mem_taken_array str size [])
      change kfree k str = _
      unfold kfree
      rw [hfilter]
      rfl
  | append_singleton copies w ih =>
      rw [taken_snoc] at hlive hpairs hold
      obtain ⟨hpairs, -, hlast⟩ := List.pairwise_append.mp hpairs
      have hread : get 4 k.bytes (str + 4 * copies.length) = w.1 := by
        apply hentries
        rw [List.getElem?_append_right le_rfl, Nat.sub_self]
        rfl
      have hfilter : k.live.filter (·.addr ≠ w.1) = old ++ taken str size copies := by
        rw [hlive, ← List.append_assoc]
        apply filter_apart (q := wordBlock w)
        intro q hq
        rcases List.mem_append.mp hq with hq | hq
        · exact hold q hq _ (List.mem_append_right _ List.mem_cons_self)
        · exact hlast q hq _ List.mem_cons_self
      have hrest := ih (k := kfree k w.1) hfilter hpairs
          (fun q hq p hp => hold q hq p (List.mem_append_left _ hp))
        fun i v hv => hentries i v ((List.getElem?_append_left (List.getElem?_eq_some_iff.mp hv).1).trans hv)
      rw [List.length_append, List.length_singleton, freeArray, hread, hrest]
      unfold kfree
      simp

theorem Copied.givenBack (h : Copied k k' str size copies) : GivenBack k
    (freeArray { k' with answers := k'.answers ++ [none] } str copies.length)
    (some str :: (copies.map fun w => some w.1) ++ [none]) := by
  obtain ⟨hpairs, hold⟩ := h.apart
  rw [freeArray_eq (k := { k' with answers := k'.answers ++ [none] }) k.live h.live hpairs hold h.entries]
  refine ⟨rfl, ⟨(copies.map Prod.fst).reverse ++ [str], ?_, ?_, ?_⟩, h.kept⟩
  · dsimp only
    rw [h.freed]
  · have haddrs : ((taken str size copies).map Block.addr).Nodup :=
      List.pairwise_map.mpr (hpairs.imp fun hapart => hapart.1)
    have hperm : ((copies.map Prod.fst).reverse ++ [str]).Perm ((taken str size copies).map Block.addr) := by
      have hmap : (taken str size copies).map Block.addr = str :: copies.map Prod.fst := by
        unfold taken
        rw [List.map_cons, List.map_map]
        rfl
      rw [hmap]
      exact (List.perm_append_singleton _ _).trans ((List.reverse_perm _).cons _)
    exact hperm.nodup_iff.mpr haddrs
  · intro p
    simp [or_comm, eq_comm]

/-! ## The call -/

theorem freeArray_answers (k : Kernel) (s i : ℕ) : (freeArray k s i).answers = k.answers := by
  induction i generalizing k with
  | zero => rfl
  | succ i ih => exact ih _

/-- The two loops find the next word. -/
theorem next_word {fs : List (ℕ × List Byte)} {q : ℕ} (h : StringAt b s (pre ++ rest)) (hnul : 0 ∉ pre ++ rest)
    (hn : (pre ++ rest).length < n)
    (hfs : fieldsFrom (fun a => decide (a = c)) pre.length rest = (q, w) :: fs) :
    ∃ seps tail, pre ++ rest = pre ++ seps ++ (w ++ tail) ∧ w ≠ [] ∧
      skipSeparators b s c n pre.length = some (pre ++ seps).length ∧
      skipLetters b s c n (pre ++ seps).length = some ((pre ++ seps).length + w.length) ∧
      fieldsFrom (fun a => decide (a = c)) (pre ++ seps ++ w).length tail = fs := by
  obtain ⟨seps, tail, rfl, hseps, hne, hw, htail, rfl, rfl⟩ := fieldsFrom_eq_cons rest pre.length hfs
  have hlen : (pre ++ seps).length = pre.length + seps.length := List.length_append
  have hstring : StringAt b s (pre ++ seps ++ (w ++ tail)) := List.append_assoc pre seps _ ▸ h
  rw [List.length_append, List.length_append, List.length_append] at hn
  have hletters : ∀ a ∈ w, a ≠ 0 ∧ a ≠ c := by
    intro a ha
    refine ⟨?_, of_decide_eq_false (hw a ha)⟩
    rintro rfl
    exact hnul (List.mem_append_right _ (List.mem_append_right _ (List.mem_append_left _ ha)))
  refine ⟨seps, tail, (List.append_assoc pre seps _).symm, hne, ?_, ?_, ?_⟩
  · rw [hlen]
    apply skipSeparators_eq h (fun a ha => of_decide_eq_true (hseps a ha)) _ (by omega)
    obtain ⟨a, w, rfl⟩ := List.exists_cons_of_ne_nil hne
    rw [← hlen, StringAt.char (show StringAt b s (pre ++ seps ++ a :: (w ++ tail)) from hstring)]
    exact (hletters a List.mem_cons_self).2
  · apply skipLetters_eq hstring hletters _ (by omega)
    have hbehind : StringAt b s (pre ++ seps ++ w ++ tail) := List.append_assoc (pre ++ seps) w tail ▸ hstring
    have hend : b (s + (pre ++ seps ++ w).length) = 0 ∨ b (s + (pre ++ seps ++ w).length) = c :=
      char_startsApart hbehind htail
    rw [List.length_append] at hend
    exact hend
  · rw [List.length_append, hlen]

/-- From a word on, the rest of the words are copied, or everything is given back. -/
theorem splitLoop_splits (A : Allocator) (hs : Holds k s text) (hn : text.length < n) (hstr : str ≠ 0)
    (hsmall : size < 2 ^ 31) (fs : List (ℕ × List Byte)) (htext : text = pre ++ rest)
    (hfs : fieldsFrom (fun a => decide (a = c)) pre.length rest = fs) (h : Copied k k' str size copies)
    (hsize : size = copies.length + fs.length + 1) :
    ∃ r k'', splitLoop A n s c str fs.length copies.length pre.length k' = some (r, k'') ∧
      Splits k (copies.map Prod.snd ++ fs.map Prod.snd) r k'' := by
  induction fs generalizing pre rest copies k' with
  | nil =>
      have hwords : copies.map Prod.snd ++ ([] : List (ℕ × List Byte)).map Prod.snd = copies.map Prod.snd :=
          List.append_nil _
      have hcount : size = copies.length + 1 := hsize
      rw [hwords]
      refine ⟨some str, k'.setEntry str copies.length 0, rfl,
        some str :: copies.map fun w : ℕ × List Byte => some w.1,
        h.answers, ?_, ?_⟩
      · intro _
        rw [List.length_map, ← hcount]
        exact ⟨str, copies, rfl, hstr, rfl, h.setEntry (by omega) 0, get_put_of_lt (by decide)⟩
      · intro hnone
        simp at hnone
  | cons f fs ih =>
      obtain ⟨q, w⟩ := f
      subst htext
      have hstring : StringAt k'.bytes s (pre ++ rest) := hs.string.keeps (h.kept _ hs.inUse)
      obtain ⟨seps, tail, htext, hne, hskip, hword, hrest⟩ := next_word hstring hs.noNul hn hfs
      rw [List.length_cons] at hsize
      have hnul := hs.noNul
      rw [htext] at hstring hnul
      rw [htext] at hn
      rw [List.length_cons, splitLoop, hskip, Option.bind_eq_bind, Option.bind_some, hword,
        Option.bind_eq_bind, Option.bind_some,
        Nat.add_sub_cancel_left]
      have hi : copies.length < size := by omega
      rcases substr_cases A hs.nonnull hstring hnul hne hn with ⟨p, hcall, hp, hlt, hfresh⟩ | hcall
      · rw [hcall, Option.bind_some]
        dsimp only
        rw [Option.getD_some, if_neg hp]
        obtain ⟨r, k'', hloop, hsplits⟩ := ih (htext.trans (List.append_assoc ..).symm) hrest
          (h.push hi hp hlt hfresh hstring) (by rw [List.length_append, List.length_singleton]; omega)
        rw [List.length_append, List.length_singleton, List.length_append] at hloop
        rw [List.map_append, List.append_assoc] at hsplits
        exact ⟨r, k'', hloop, hsplits⟩
      · rw [hcall, Option.bind_some]
        dsimp only
        rw [Option.getD_none, if_pos rfl, signed_of_lt (show copies.length < 2 ^ 31 by omega),
          Int.toNat_natCast]
        have hback := (h.setEntry hi 0).givenBack
        refine ⟨none, _, rfl, some str :: (copies.map fun w => some w.1) ++ [none], ?_, ?_,
          fun _ => ⟨rfl, hback⟩⟩
        · rw [freeArray_answers, ← List.append_assoc, ← h.answers]
          rfl
        · intro hnone
          simp at hnone

/-- The words of the string that the loops count. -/
theorem countWords_segments (h : StringAt b s text) (hnul : 0 ∉ text) (hn : text.length < n) (c : Byte) :
    countWords b c n s false 0 = some (segments c text).length := by
  have hcount := (countWords_eq (c := c) (show StringAt b s ([] ++ text) from h) hnul hn 0 0).1
  rw [Nat.zero_add] at hcount
  unfold segments fields
  rw [List.length_map]
  exact hcount

theorem split_splits (A : Allocator) (hs : Holds k s text) (hn : text.length < n) (c : Byte) :
    ∃ r k', split A n k s c = some (r, k') ∧ Splits k (segments c text) r k' := by
  have hlen : (segments c text).length = (fields (fun a => decide (a = c)) text).length := List.length_map _
  have hcount := countWords_segments hs.string hs.noNul hn c
  have hobject := hs.object
  have hfields : 2 * (fields (fun a => decide (a = c)) text).length ≤ text.length + 1 :=
      (two_mul_length_fieldsFrom text 0).1
  unfold split
  rw [if_neg hs.nonnull, hcount, Option.bind_eq_bind, Option.bind_some, hlen]
  rcases kmalloc_cases A k (4 * ((fields (fun a => decide (a = c)) text).length + 1) % word) with
    ⟨str, hcall, hsize, hstr, -, hfresh⟩ | hcall
  · -- the size of the array has not wrapped: `kmalloc` refuses to give no bytes
    have hwrap : 4 * ((fields (fun a => decide (a = c)) text).length + 1) % word
        = 4 * ((fields (fun a => decide (a = c)) text).length + 1) := by
      unfold word at hsize ⊢
      omega
    rw [hcall, hwrap]
    rw [hwrap] at hfresh
    exact splitLoop_splits A hs hn hstr (by omega) (fields (fun a => decide (a = c)) text)
      (show text = [] ++ text from rfl) rfl (Copied.start hfresh) (by rw [List.length_nil, Nat.zero_add])
  · rw [hcall]
    refine ⟨none, _, rfl, [none], rfl, fun hnone => absurd List.mem_cons_self hnone, fun _ =>
      ⟨rfl, rfl, ⟨[], ?_, ?_, ?_⟩, ?_⟩⟩
    · exact (List.append_nil _).symm
    · exact List.nodup_nil
    · simp
    · exact fun q _ => .refl q _

theorem segments_areSegments (c : Byte) (text : List Byte) : AreSegments c text (segments c text) where
  runs := ⟨fields (fun a => a = c) text, rfl, fieldsFrom_sorted text 0, fun _ _ => mem_fields⟩

/-- Joined by single separators, the segments are those of the whole again. -/
theorem segments_intercalate (c : Byte) (text : List Byte) :
    segments c (List.intercalate [c] (segments c text)) = segments c text := by
  apply @fieldsFrom_intercalate Byte (fun a => decide (a = c)) c (segments c text) (decide_eq_true rfl) _ 0
  intro w hw
  obtain ⟨⟨p, w⟩, hmem, rfl⟩ := List.mem_map.mp hw
  have hfield := mem_fields.mp hmem
  exact ⟨hfield.nonempty, hfield.letters⟩

/-- The words that are counted are copied, those of a string and those of its segments joined
by single separators, or NULL is returned and what was taken is given back. -/
theorem split_copies_segments (A : Allocator) (c : Byte) (text : List Byte) :
    AreSegments c text (segments c text) ∧
      ∀ t ∈ [text, List.intercalate [c] (segments c text)], ∀ (k : Kernel) (s n : ℕ),
        Holds k s t → t.length < n →
        countWords k.bytes c n s false 0 = some (segments c text).length ∧
          ∃ r k', split A n k s c = some (r, k') ∧ Splits k (segments c text) r k' := by
  refine ⟨segments_areSegments c text, ?_⟩
  intro t ht k s n hs hn
  have hwords : segments c t = segments c text := by
    rcases List.mem_cons.mp ht with rfl | ht
    · rfl
    · rw [List.mem_singleton.mp ht, segments_intercalate]
  rw [← hwords]
  exact ⟨countWords_segments hs.string hs.noNul hn c, split_splits A hs hn c⟩

/-- Memory is given out behind everything in use. -/
def bump : Allocator where
  take live n :=
    let top := (live.map fun q => q.addr + q.size).foldr max 0
    if top + 1 + n ≤ word then some (top + 1) else none
  fresh live n p h := by
    dsimp only at h
    split_ifs at h with hend
    obtain rfl := Option.some.inj h
    refine ⟨by omega, hend, ?_⟩
    intro q hq
    have hle : q.addr + q.size ≤ (live.map fun q => q.addr + q.size).foldr max 0 := by
      clear h hend
      induction live with
      | nil => cases hq
      | cons d live ih =>
          rw [List.map_cons, List.foldr_cons]
          rcases List.mem_cons.mp hq with rfl | hq
          · exact le_max_left _ _
          · exact (ih hq).trans (le_max_right _ _)
    exact ⟨by dsimp only; omega, .inl (by dsimp only; omega)⟩

/-- The path `/a//b` at address 16. -/
def pathKernel : Kernel where
  bytes := fun x => ([47, 97, 47, 47, 98] : List Byte).getD (x - 16) 0
  live := [⟨16, 6⟩]
  answers := []
  freed := []

theorem pathKernel_holds : Holds pathKernel 16 [47, 97, 47, 47, 98] where
  nonnull := by decide
  inUse := by decide
  string := ⟨by decide, by decide⟩
  noNul := by decide
  object := by decide

theorem split_copies_segments_path : ∃ r k', split bump 6 pathKernel 16 47 = some (r, k') ∧
    Splits pathKernel [[97], [98]] r k' := by
  have hwords : segments 47 [47, 97, 47, 47, 98] = [[97], [98]] := by
    simp [segments, fields, fieldsFrom, List.takeWhile, List.dropWhile]
  have hcall := ((split_copies_segments bump 47 [47, 97, 47, 47, 98]).2 _ List.mem_cons_self pathKernel 16 6
    pathKernel_holds (by decide)).2
  rw [hwords] at hcall
  exact hcall

/-- Two words are copied: a call takes three blocks. -/
example : ((split bump 6 pathKernel 16 47).map fun r => (r.1, r.2.live.length)) = some (some 23, 4) := by decide

end Ferrite.Text
