import Ferrite.Library.Segments
import Ferrite.Memory.HeapMemory

/-!
# The tiling of the heap

The invariant relates the words in memory to a list of segments: the free list
spells out the free ones, and every segment in use has its header. One lemma for
each of the functions that `vmalloc` and `vfree` are made of.
-/
namespace Ferrite.Memory
open Word Segments

namespace Heap
variable {P : Pool} {lo hi : ℕ} {s t u : Heap} {gs pre post : List Seg} {l l₁ l₂ : List (ℕ × ℕ)}
  {a z h e x total fuel prev : ℕ} {W : Set ℕ}

/-- The pages of an interval. -/
def region (lo hi : ℕ) : Set ℕ := {q | lo ≤ q * pageSize ∧ q * pageSize < hi}

theorem mem_region (hdvd : pageSize ∣ lo) (hlo : lo ≤ a) (hhi : a < hi) : a / pageSize ∈ region lo hi := by
  obtain ⟨k, rfl⟩ := hdvd
  simp only [region, pageSize, Set.mem_ofPred_eq] at *
  omega

/-! ## Lists in memory -/

/-- Following `next` from `h` visits the nodes of the list, with their sizes, and leads to `e`. -/
def NodesTo (s : Heap) : ℕ → List (ℕ × ℕ) → ℕ → Prop
  | h, [], e => h = e
  | h, (a, z) :: l, e => h = a ∧ a ≠ 0 ∧ s.load a = some z ∧
      ∃ next, s.load (a + 4) = some next ∧ NodesTo s next l e

theorem nodesTo_append : s.NodesTo h (l₁ ++ l₂) e ↔ ∃ m, s.NodesTo h l₁ m ∧ s.NodesTo m l₂ e := by
  induction l₁ generalizing h with
  | nil => simp [NodesTo]
  | cons p l₁ ih =>
      obtain ⟨a, z⟩ := p
      simp only [List.cons_append, NodesTo, ih]
      constructor
      · rintro ⟨hh, ha, hz, next, hnext, m, h₁, h₂⟩
        exact ⟨m, ⟨hh, ha, hz, next, hnext, h₁⟩, h₂⟩
      · rintro ⟨m, ⟨hh, ha, hz, next, hnext, h₁⟩, h₂⟩
        exact ⟨hh, ha, hz, next, hnext, m, h₁, h₂⟩

theorem NodesTo.congr (hn : s.NodesTo h l e)
    (hload : ∀ p ∈ l, ∀ o, (o = 0 ∨ o = 4) → ∀ v, s.load (p.1 + o) = some v → t.load (p.1 + o) = some v) :
    t.NodesTo h l e := by
  induction l generalizing h with
  | nil => exact hn
  | cons p l ih =>
      obtain ⟨a, z⟩ := p
      obtain ⟨hh, ha, hz, next, hnext, hrest⟩ := hn
      have ⟨hp, hl⟩ := List.forall_mem_cons.mp hload
      exact ⟨hh, ha, hp 0 (.inl rfl) z hz, next, hp 4 (.inr rfl) next hnext, ih hrest hl⟩

/-- The list in memory is determined by its head. -/
theorem NodesTo.unique (hn : s.NodesTo h l₁ 0) (hn' : s.NodesTo h l₂ 0) : l₁ = l₂ := by
  induction l₁ generalizing h l₂ with
  | nil =>
      cases l₂ with
      | nil => rfl
      | cons p l₂ => exact absurd (hn'.1.symm.trans hn) hn'.2.1
  | cons p l₁ ih =>
      obtain ⟨a, z⟩ := p
      obtain ⟨rfl, ha, hz, next, hnext, hrest⟩ := hn
      cases l₂ with
      | nil => exact absurd hn' ha
      | cons q l₂ =>
          obtain ⟨b, y⟩ := q
          obtain ⟨rfl, -, hy, next', hnext', hrest'⟩ := hn'
          rw [hz] at hy
          rw [hnext] at hnext'
          cases hy
          cases hnext'
          rw [ih hrest hrest']

/-- The last node, or what stands for none. -/
def lastNode (l : List (ℕ × ℕ)) (d : ℕ) : ℕ := (l.getLast?.map Prod.fst).getD d
def headNode (l : List (ℕ × ℕ)) : ℕ := (l.head?.map Prod.fst).getD 0

theorem lastNode_cons (p : ℕ × ℕ) (l : List (ℕ × ℕ)) (d : ℕ) : lastNode (p :: l) d = lastNode l p.1 := by
  cases l with
  | nil => rfl
  | cons q l =>
      rw [lastNode, lastNode, List.getLast?_cons_cons]
      cases hlast : (q :: l).getLast? with
      | none => simp at hlast
      | some r => rfl

theorem lastNode_append_singleton (l : List (ℕ × ℕ)) (p : ℕ × ℕ) (d : ℕ) : lastNode (l ++ [p]) d = p.1 := by
  rw [lastNode, List.getLast?_append_of_ne_nil _ (by simp)]
  rfl

theorem NodesTo.head (hn : s.NodesTo h l 0) : h = headNode l := by
  cases l with
  | nil => exact hn
  | cons p l => exact hn.1

theorem searchLoop_spec {c : ℕ} (hn : s.NodesTo h l 0)
    (hs : s.searchLoop total fuel prev h = some (e, c)) :
    c = 0 ∨ ∃ l₁ z l₂, l = l₁ ++ (c, z) :: l₂ ∧ total ≤ z ∧ e = lastNode l₁ prev := by
  induction l generalizing fuel prev h with
  | nil =>
      cases fuel with
      | zero => cases hs
      | succ fuel =>
          rw [searchLoop, if_pos (show h = 0 from hn)] at hs
          cases hs
          exact .inl rfl
  | cons p l ih =>
      obtain ⟨a, z⟩ := p
      obtain ⟨rfl, ha, hz, next, hnext, hrest⟩ := hn
      cases fuel with
      | zero => cases hs
      | succ fuel =>
          rw [searchLoop, if_neg ha, hz] at hs
          simp only [Option.bind_eq_bind, Option.bind_some] at hs
          split_ifs at hs with htotal
          · cases hs
            exact .inr ⟨[], z, l, rfl, htotal, rfl⟩
          · rw [hnext, Option.bind_some] at hs
            rcases ih hrest hs with hc | ⟨l₁, y, l₂, rfl, hy, he⟩
            · exact .inl hc
            · exact .inr ⟨(h, z) :: l₁, y, l₂, rfl, hy, by rw [lastNode_cons, he]⟩

theorem placeLoop_spec (hn : s.NodesTo h (l₁ ++ l₂) 0) (hlow : ∀ p ∈ l₁, p.1 < x)
    (hhigh : ∀ p ∈ l₂, x ≤ p.1) (hfuel : l₁.length < fuel) :
    s.placeLoop x fuel prev h = some (lastNode l₁ prev, headNode l₂) := by
  induction l₁ generalizing fuel prev h with
  | nil =>
      obtain ⟨fuel, rfl⟩ := Nat.exists_eq_succ_of_ne_zero (Nat.ne_of_gt hfuel)
      have hh : h = headNode l₂ := hn.head
      have hstop : ¬ (h ≠ 0 ∧ h < x) := by
        rintro ⟨hne, hlt⟩
        cases l₂ with
        | nil => exact hne hn
        | cons p l₂ =>
            have := hhigh p List.mem_cons_self
            rw [← show h = p.1 from hn.1] at this
            omega
      rw [placeLoop, if_neg hstop, hh]
      rfl
  | cons p l₁ ih =>
      obtain ⟨a, z⟩ := p
      obtain ⟨fuel, rfl⟩ := Nat.exists_eq_succ_of_ne_zero (Nat.ne_of_gt (Nat.zero_lt_of_lt hfuel))
      obtain ⟨rfl, ha, -, next, hnext, hrest⟩ := hn
      have ⟨hlt, hlow⟩ := List.forall_mem_cons.mp hlow
      rw [placeLoop, if_pos ⟨ha, hlt⟩, hnext, lastNode_cons]
      exact ih hrest hlow (Nat.lt_of_succ_lt_succ hfuel)

/-! ## The invariant -/

/-- The header of a block in use. -/
def IsHeader (s : Heap) (a z : ℕ) : Prop :=
  s.load (a + 8) = some magic ∧ s.load (a + 4) = some z ∧ ∃ w, s.load a = some w ∧ w % 256 = 1

/-- The heap from `lo` to `hi` consists of the segments. -/
structure HeapInv (P : Pool) (lo hi : ℕ) (s : Heap) (gs : List Seg) : Prop where
  lo_dvd : pageSize ∣ lo
  lo_pos : 0 < lo
  hi_lt : hi < word
  owned : Owned P (region lo hi) s
  covers : Covers lo gs hi
  coalesced : Coalesced gs
  aligned : ∀ g ∈ gs, pageSize ∣ g.start ∧ pageSize ∣ g.size
  nodes : s.NodesTo s.head (frees gs) 0
  headers : ∀ p ∈ used gs, s.IsHeader p.1 p.2

/-- Nodes of a list at the start of pages of the heap, no two at one place. -/
def Spaced (R : Set ℕ) (l : List (ℕ × ℕ)) : Prop :=
  (∀ p ∈ l, p.1 ≠ 0 ∧ pageSize ∣ p.1 ∧ p.1 / pageSize ∈ R) ∧ l.Pairwise fun p q => p.1 ≠ q.1

theorem word_page (ha : pageSize ∣ a) {o : ℕ} (ho : o < 12) : (a + o) / pageSize = a / pageSize := by
  obtain ⟨k, rfl⟩ := ha
  simp only [pageSize]
  omega

theorem word_ne {b o i : ℕ} (ha : pageSize ∣ a) (hb : pageSize ∣ b) (hne : a ≠ b) (ho : o < 12)
    (hi : i < 12) : a + o ≠ b + i := by
  obtain ⟨k, rfl⟩ := ha
  obtain ⟨m, rfl⟩ := hb
  simp only [pageSize] at *
  omega

/-- A segment of whole pages has at least one. -/
theorem pageSize_le (hdvd : pageSize ∣ z) (hpos : 0 < z) : pageSize ≤ z := Nat.le_of_dvd hpos hdvd

theorem Covers.spaced (hc : Covers lo gs hi) (hlo : pageSize ∣ lo) (hpos : 0 < lo)
    (ha : ∀ g ∈ gs, pageSize ∣ g.start ∧ pageSize ∣ g.size) : Spaced (region lo hi) (frees gs) := by
  constructor
  · rintro ⟨a, z⟩ hp
    have hmem := mem_frees.mp hp
    obtain ⟨hle, hhi⟩ := hc.bounds hmem
    have hz := hc.pos hmem
    simp only at hle hhi hz ⊢
    exact ⟨by omega, (ha _ hmem).1, mem_region hlo hle (by omega)⟩
  · rw [frees, List.pairwise_map]
    apply List.Pairwise.filter
    refine (List.Pairwise.and_mem.mp hc.sorted).imp ?_
    rintro g g' ⟨hg, -, hlt⟩
    have := hc.pos hg
    omega

/-- A list survives a change away from its nodes. -/
theorem NodesTo.keeps {R : Set ℕ} (hn : s.NodesTo h l e) (hl : Spaced R l) (hk : Keeps R W s t)
    (hW : ∀ p ∈ l, p.1 ∉ W ∧ p.1 + 4 ∉ W) : t.NodesTo h l e := by
  apply hn.congr
  intro p hp o ho v hload
  obtain ⟨-, hdvd, hR⟩ := hl.1 p hp
  apply hk _ _ _ _ hload
  · rwa [word_page hdvd (by omega)]
  · rcases ho with rfl | rfl
    · exact (hW p hp).1
    · exact (hW p hp).2

/-- The addresses of the free segments, and of the segment that starts at `a`. -/
def touched (gs : List Seg) (a : ℕ) : Set ℕ :=
  {x | ∃ g ∈ gs, (g.free = true ∨ g.start = a) ∧ g.start ≤ x ∧ x < g.start + g.size}

theorem mem_touched {b o : ℕ} {f : Bool} (hg : ⟨b, z, f⟩ ∈ gs) (hf : f = true ∨ b = a) (ho : o < z) :
    b + o ∈ touched gs a :=
  ⟨_, hg, hf, Nat.le_add_right .., Nat.add_lt_add_left ho _⟩

namespace HeapInv
variable (hinv : HeapInv P lo hi s gs)
include hinv

theorem spaced : Spaced (region lo hi) (frees gs) :=
  Covers.spaced hinv.covers hinv.lo_dvd hinv.lo_pos hinv.aligned

theorem page_mem {o : ℕ} {f : Bool} (hg : ⟨a, z, f⟩ ∈ gs) (ho : o < z) :
    (a + o) / pageSize ∈ region lo hi := by
  obtain ⟨hlo, hhi⟩ := hinv.covers.bounds hg
  simp only at hlo hhi
  exact mem_region hinv.lo_dvd (by omega) (by omega)

/-- Headers of the other segments in use survive. -/
theorem header_keeps (hk : Keeps (region lo hi) (touched gs a) s t) {p : ℕ × ℕ} (hp : p ∈ used gs)
    (hne : p.1 ≠ a) : t.IsHeader p.1 p.2 := by
  obtain ⟨b, y⟩ := p
  have hmem := mem_used.mp hp
  have hy : pageSize ≤ y := pageSize_le (hinv.aligned _ hmem).2 (hinv.covers.pos hmem)
  have hsame (o : ℕ) (ho : o < 12) (v : ℕ) (hload : s.load (b + o) = some v) : t.load (b + o) = some v := by
    have hoy : o < y := lt_of_lt_of_le (lt_trans ho (by decide)) hy
    apply hk _ _ (hinv.page_mem hmem hoy) _ hload
    rintro ⟨g, hg, hf, hlo, hhi⟩
    have heq := hinv.covers.eq_of_mem hg hmem ⟨hlo, hhi⟩ ⟨Nat.le_add_right .., Nat.add_lt_add_left hoy _⟩
    subst heq
    rcases hf with hf | hf
    · cases hf
    · exact hne hf
  obtain ⟨h8, h4, w, h0, hw⟩ := hinv.headers _ hp
  exact ⟨hsame 8 (by omega) _ h8, hsame 4 (by omega) _ h4, w, hsame 0 (by omega) _ h0, hw⟩

end HeapInv

end Heap
end Ferrite.Memory
