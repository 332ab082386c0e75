import Mathlib.Data.List.Chain
import Mathlib.Tactic.Ring

/-!
# An interval cut into segments

A list of segments, each free or in use, that follow one another without a gap
from one address to another. Carving a free segment, and joining a segment with
free neighbours, keeps the cover; when no two free segments follow one another,
free segments that are different do not even touch.
-/
namespace Ferrite.Segments

structure Seg where
  start : ℕ
  size : ℕ
  free : Bool
deriving DecidableEq, Repr

variable {lo mid hi a z x : ℕ} {g g' : Seg} {gs pre post : List Seg} {f : Bool}

/-- The segments cover the addresses from `lo` to `hi`, in order. -/
def Covers : ℕ → List Seg → ℕ → Prop
  | lo, [], hi => lo = hi
  | lo, g :: gs, hi => g.start = lo ∧ 0 < g.size ∧ Covers (lo + g.size) gs hi

theorem covers_append : Covers lo (pre ++ post) hi ↔ ∃ mid, Covers lo pre mid ∧ Covers mid post hi := by
  induction pre generalizing lo with
  | nil => simp [Covers]
  | cons g pre ih =>
      rw [List.cons_append, Covers, ih]
      constructor
      · rintro ⟨h, hpos, mid, hpre, hpost⟩
        exact ⟨mid, ⟨h, hpos, hpre⟩, hpost⟩
      · rintro ⟨mid, ⟨h, hpos, hpre⟩, hpost⟩
        exact ⟨h, hpos, mid, hpre, hpost⟩

theorem covers_middle : Covers lo (pre ++ g :: post) hi ↔
    Covers lo pre g.start ∧ 0 < g.size ∧ Covers (g.start + g.size) post hi := by
  rw [covers_append]
  constructor
  · rintro ⟨mid, hpre, rfl, hpos, hpost⟩
    exact ⟨hpre, hpos, hpost⟩
  · rintro ⟨hpre, hpos, hpost⟩
    exact ⟨_, hpre, rfl, hpos, hpost⟩

theorem Covers.le (h : Covers lo gs hi) : lo ≤ hi := by
  induction gs generalizing lo with
  | nil => exact h.le
  | cons g gs ih =>
      have := ih h.2.2
      omega

/-- Every segment lies between the ends. -/
theorem Covers.bounds (h : Covers lo gs hi) (hg : g ∈ gs) : lo ≤ g.start ∧ g.start + g.size ≤ hi := by
  induction gs generalizing lo with
  | nil => cases hg
  | cons g' gs ih =>
      obtain ⟨hstart, -, hrest⟩ := h
      cases hg with
      | head =>
          have := hrest.le
          omega
      | tail _ hg =>
          have := ih hrest hg
          omega

theorem Covers.pos (h : Covers lo gs hi) (hg : g ∈ gs) : 0 < g.size := by
  induction gs generalizing lo with
  | nil => cases hg
  | cons g' gs ih =>
      cases hg with
      | head => exact h.2.1
      | tail _ hg => exact ih h.2.2 hg

/-- Exactly the addresses between the ends are covered. -/
theorem Covers.mem_iff (h : Covers lo gs hi) :
    (lo ≤ x ∧ x < hi) ↔ ∃ g ∈ gs, g.start ≤ x ∧ x < g.start + g.size := by
  induction gs generalizing lo with
  | nil =>
      cases h
      simp only [List.not_mem_nil, false_and, exists_false, iff_false]
      omega
  | cons g gs ih =>
      obtain ⟨rfl, hpos, hrest⟩ := h
      have hle := hrest.le
      rw [List.exists_mem_cons_iff, ← ih hrest]
      omega

theorem Covers.sorted (h : Covers lo gs hi) :
    gs.Pairwise fun a b => a.start + a.size ≤ b.start := by
  induction gs generalizing lo with
  | nil => exact .nil
  | cons g gs ih =>
      obtain ⟨hstart, -, hrest⟩ := h
      refine List.pairwise_cons.mpr ⟨fun b hb => ?_, ih hrest⟩
      have := (hrest.bounds hb).1
      omega

/-- Different segments have no address in common. -/
theorem Covers.eq_of_mem (h : Covers lo gs hi) (hg : g ∈ gs) (hg' : g' ∈ gs)
    (hx : g.start ≤ x ∧ x < g.start + g.size) (hx' : g'.start ≤ x ∧ x < g'.start + g'.size) : g = g' := by
  induction gs generalizing lo with
  | nil => cases hg
  | cons c gs ih =>
      obtain ⟨hstart, -, hrest⟩ := h
      have hbehind (d : Seg) (hd : d ∈ gs) : lo + c.size ≤ d.start := (hrest.bounds hd).1
      cases hg with
      | head =>
          cases hg' with
          | head => rfl
          | tail _ hg' =>
              have := hbehind _ hg'
              omega
      | tail _ hg =>
          cases hg' with
          | head =>
              have := hbehind _ hg
              omega
          | tail _ hg' => exact ih hrest hg hg'

/-- Of two segments one lies in front of the other. -/
theorem Covers.apart (h : Covers lo gs hi) (hg : g ∈ gs) (hg' : g' ∈ gs) :
    g = g' ∨ g.start + g.size ≤ g'.start ∨ g'.start + g'.size ≤ g.start := by
  by_contra hnone
  obtain ⟨hne, hnone⟩ := not_or.mp hnone
  obtain ⟨hbefore, hbehind⟩ := not_or.mp hnone
  have hpos := h.pos hg
  have hpos' := h.pos hg'
  exact hne (h.eq_of_mem hg hg' (x := max g.start g'.start) (by omega) (by omega))

theorem Covers.eq_of_start (h : Covers lo gs hi) (hg : g ∈ gs) (hg' : g' ∈ gs)
    (heq : g.start = g'.start) : g = g' := by
  have hpos := h.pos hg
  have hpos' := h.pos hg'
  exact h.eq_of_mem hg hg' (x := g.start) (by omega) (by omega)

/-- Segments of at least a given size are few. -/
theorem Covers.length_mul_le (h : Covers lo gs hi) (hz : ∀ g ∈ gs, z ≤ g.size) :
    lo + gs.length * z ≤ hi := by
  induction gs generalizing lo with
  | nil => simpa using h.le
  | cons g gs ih =>
      have ⟨hg, hgs⟩ := List.forall_mem_cons.mp hz
      have := ih h.2.2 hgs
      rw [List.length_cons, Nat.add_mul]
      omega

/-! ## Free segments -/

/-- Start and size of the free segments, in order, and of those in use. -/
def frees (gs : List Seg) : List (ℕ × ℕ) := (gs.filter (·.free)).map fun g => (g.start, g.size)
def used (gs : List Seg) : List (ℕ × ℕ) := (gs.filter (!·.free)).map fun g => (g.start, g.size)

theorem frees_append : frees (pre ++ post) = frees pre ++ frees post := by
  rw [frees, List.filter_append, List.map_append, frees, frees]

theorem frees_cons_free (h : g.free = true) : frees (g :: gs) = (g.start, g.size) :: frees gs := by
  rw [frees, List.filter_cons_of_pos h, List.map_cons, frees]

theorem frees_cons_used (h : g.free = false) : frees (g :: gs) = frees gs := by
  rw [frees, List.filter_cons_of_neg (by simp [h]), frees]

theorem used_append : used (pre ++ post) = used pre ++ used post := by
  rw [used, List.filter_append, List.map_append, used, used]

theorem used_cons_free (h : g.free = true) : used (g :: gs) = used gs := by
  rw [used, List.filter_cons_of_neg (by simp [h]), used]

theorem used_cons_used (h : g.free = false) : used (g :: gs) = (g.start, g.size) :: used gs := by
  rw [used, List.filter_cons_of_pos (by simp [h]), List.map_cons, used]

theorem mem_frees : (a, z) ∈ frees gs ↔ (⟨a, z, true⟩ : Seg) ∈ gs := by
  unfold frees
  constructor
  · intro h
    obtain ⟨g, hg, heq⟩ := List.mem_map.mp h
    obtain ⟨hmem, hfree⟩ := List.mem_filter.mp hg
    cases g
    cases heq
    exact (show _ = true from hfree) ▸ hmem
  · intro h
    exact List.mem_map.mpr ⟨_, List.mem_filter.mpr ⟨h, rfl⟩, rfl⟩

theorem mem_used : (a, z) ∈ used gs ↔ (⟨a, z, false⟩ : Seg) ∈ gs := by
  unfold used
  constructor
  · intro h
    obtain ⟨g, hg, heq⟩ := List.mem_map.mp h
    obtain ⟨hmem, hfree⟩ := List.mem_filter.mp hg
    cases g
    cases heq
    rw [Bool.not_eq_true'] at hfree
    exact (show _ = false from hfree) ▸ hmem
  · intro h
    exact List.mem_map.mpr ⟨_, List.mem_filter.mpr ⟨h, rfl⟩, rfl⟩

theorem frees_append_used_perm : (frees gs ++ used gs).Perm (gs.map fun g => (g.start, g.size)) := by
  unfold frees used
  rw [← List.map_append]
  exact (List.filter_append_perm _ gs).map _

/-- A place in the list of free segments is a place in the list of all segments. -/
theorem exists_split_frees {l₁ l₂ : List (ℕ × ℕ)} (h : frees gs = l₁ ++ (a, z) :: l₂) :
    ∃ pre post, gs = pre ++ ⟨a, z, true⟩ :: post ∧ frees pre = l₁ ∧ frees post = l₂ := by
  induction gs generalizing l₁ with
  | nil => cases l₁ <;> cases h
  | cons g gs ih =>
      cases hf : g.free with
      | false =>
          rw [frees_cons_used hf] at h
          obtain ⟨pre, post, rfl, hpre, hpost⟩ := ih h
          exact ⟨g :: pre, post, rfl, (frees_cons_used hf).trans hpre, hpost⟩
      | true =>
          rw [frees_cons_free hf] at h
          cases l₁ with
          | nil =>
              cases g
              cases hf
              cases h
              exact ⟨[], gs, rfl, rfl, rfl⟩
          | cons b l₁ =>
              obtain ⟨hb, hrest⟩ := List.cons.inj h
              obtain ⟨pre, post, rfl, hpre, hpost⟩ := ih hrest
              exact ⟨g :: pre, post, rfl, by rw [frees_cons_free hf, hpre, hb], hpost⟩

/-- No two free segments follow one another. -/
def Coalesced (gs : List Seg) : Prop := gs.IsChain fun g g' => ¬ (g.free = true ∧ g'.free = true)

theorem coalesced_middle : Coalesced (pre ++ g :: post) ↔ Coalesced pre ∧ Coalesced post ∧
    (∀ x ∈ pre.getLast?, ¬ (x.free = true ∧ g.free = true)) ∧
    ∀ y ∈ post.head?, ¬ (g.free = true ∧ y.free = true) := by
  unfold Coalesced
  rw [List.isChain_append, List.isChain_cons]
  simp only [List.head?_cons, Option.mem_some_iff, forall_eq']
  tauto

/-- Free segments do not touch. -/
theorem Covers.frees_apart (h : Covers lo gs hi) (hc : Coalesced gs) :
    (frees gs).Pairwise fun a b => a.1 + a.2 < b.1 := by
  induction gs generalizing lo with
  | nil => exact .nil
  | cons g gs ih =>
      have hgs : Coalesced gs := hc.tail
      cases hf : g.free with
      | false =>
          rw [frees_cons_used hf]
          exact ih h.2.2 hgs
      | true =>
          rw [frees_cons_free hf]
          refine List.pairwise_cons.mpr ⟨fun b hb => ?_, ih h.2.2 hgs⟩
          obtain ⟨c, y⟩ := b
          have hmem := mem_frees.mp hb
          -- A free segment behind is behind a segment in use.
          cases gs with
          | nil => cases hmem
          | cons g' gs =>
              have hne : g'.free = false := by
                have := (List.isChain_cons_cons.mp hc).1
                simpa [hf] using this
              cases hmem with
              | head => cases hne
              | tail _ hmem =>
                  obtain ⟨hstart, -, hstart', hpos', hrest⟩ := h
                  have := (hrest.bounds hmem).1
                  simp only at this ⊢
                  omega

/-! ## Taking the front of a free segment -/

/-- What is left of a free segment without its first `n` addresses. -/
def rest (a z n : ℕ) : List Seg := if n = z then [] else [⟨a + n, z - n, true⟩]

variable {n : ℕ}

theorem Covers.carve (h : Covers lo (pre ++ ⟨a, z, true⟩ :: post) hi) (hn : 0 < n) (hz : n ≤ z) :
    Covers lo (pre ++ ⟨a, n, false⟩ :: (rest a z n ++ post)) hi := by
  obtain ⟨hpre, -, hpost⟩ := covers_middle.mp h
  refine covers_middle.mpr ⟨hpre, hn, ?_⟩
  unfold rest
  simp only at hpost ⊢
  split_ifs with heq
  · rw [heq]
    exact hpost
  · refine ⟨rfl, ?_, ?_⟩
    · simp only
      omega
    · rwa [show a + n + (z - n) = a + z by omega]

theorem Coalesced.carve (h : Coalesced (pre ++ ⟨a, z, true⟩ :: post)) :
    Coalesced (pre ++ ⟨a, n, false⟩ :: (rest a z n ++ post)) := by
  obtain ⟨hpre, hpost, -, hnext⟩ := coalesced_middle.mp h
  refine coalesced_middle.mpr ⟨hpre, ?_, fun x _ hx => Bool.false_ne_true hx.2, fun y _ hy =>
    Bool.false_ne_true hy.1⟩
  unfold rest
  split_ifs
  · exact hpost
  · refine List.isChain_cons.mpr ⟨fun y hy => ?_, hpost⟩
    have := hnext y hy
    simpa using this

theorem mem_rest (h : g ∈ rest a z n) : g = ⟨a + n, z - n, true⟩ ∧ n ≠ z := by
  unfold rest at h
  split_ifs at h with heq
  · cases h
  · exact ⟨List.mem_singleton.mp h, heq⟩

theorem used_rest : used (rest a z n) = [] := by
  unfold rest
  split_ifs <;> rfl

end Ferrite.Segments
