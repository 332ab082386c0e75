import Ferrite.Memory.BuddyMemory
import Ferrite.Memory.Heap

/-!
# The memory under the heap

As long as every page of the heap has a frame of its own that the allocator has
handed out, stores to the heap, new pages and released ones change no other word
of the heap.
-/
namespace Ferrite.Memory
open Word DyadicBlocks BuddyAllocator

namespace Heap
variable {P : Pool} {R : Set ℕ} {W W' : Set ℕ} {s t u : Heap} {a v va : ℕ}

/-- The pages of `R` have frames of their own, which are held. -/
structure OwnedBy (P : Pool) (R : Set ℕ) (s : Heap) (held : List Block) : Prop where
  frame : ∀ q ∈ R, ∀ f, s.pages q = some f → ∃ i, f = P.paddr i ∧ (⟨i, 0⟩ : Block) ∈ held
  inj : ∀ q ∈ R, ∀ q' ∈ R, ∀ f, s.pages q = some f → s.pages q' = some f → q = q'
  table : ∀ q ∈ R, ∀ f, s.pages q = some f → s.tables (q / 1024) = true

def Owned (P : Pool) (R : Set ℕ) (s : Heap) : Prop :=
  ∃ free held, Inv P P.pages s.buddy free held ∧ s.OwnedBy P R held

/-- The words of the pages of `R` outside `W` are as before. -/
def Keeps (R W : Set ℕ) (s t : Heap) : Prop :=
  ∀ a v, a / pageSize ∈ R → a ∉ W → s.load a = some v → t.load a = some v

theorem Keeps.trans (h : Keeps R W s t) (h' : Keeps R W' t u) : Keeps R (W ∪ W') s u := by
  intro a v hR hW ha
  rw [Set.mem_union, not_or] at hW
  exact h' a v hR hW.2 (h a v hR hW.1 ha)

theorem Keeps.mono (h : Keeps R W s t) (hW : W ⊆ W') : Keeps R W' s t :=
  fun a v hR ha => h a v hR fun hmem => ha (hW hmem)

theorem load_eq_some : s.load a = some v ↔
    ∃ f, s.pages (a / pageSize) = some f ∧ s.buddy.next (p2v (f + a % pageSize)) = v :=
  Option.map_eq_some_iff

theorem poke_next (b : BuddyAllocator) (a v : ℕ) : (poke b a v).next = Function.update b.next a v := rfl

theorem p2v_paddr_add {i o : ℕ} (hi : i < P.pages) (ho : o < pageSize) :
    p2v (P.paddr i + o) = P.addr i + o := by
  have h : (P.pbase + kernBase) % word = P.base := P.p2v_pbase
  have hfits := P.fits
  rw [p2v, wadd, Pool.paddr, Pool.addr, ← h] at *
  simp only [pageSize, word, kernBase] at *
  omega

/-- Different words of the heap are different words of memory. -/
theorem OwnedBy.word_ne {free : ℕ → List ℕ} {held : List Block} (h : s.OwnedBy P R held)
    (hinv : Inv P P.pages s.buddy free held) {a b f g : ℕ} (ha : a / pageSize ∈ R)
    (hb : b / pageSize ∈ R) (hf : s.pages (a / pageSize) = some f)
    (hg : s.pages (b / pageSize) = some g) (hne : a ≠ b) :
    p2v (f + a % pageSize) ≠ p2v (g + b % pageSize) := by
  obtain ⟨i, rfl, hi⟩ := h.frame _ ha f hf
  obtain ⟨j, rfl, hj⟩ := h.frame _ hb g hg
  have hao := Nat.mod_lt a pageSize_pos
  have hbo := Nat.mod_lt b pageSize_pos
  rw [p2v_paddr_add (hinv.held_lt hi) hao, p2v_paddr_add (hinv.held_lt hj) hbo]
  intro heq
  have hij : i = j ∧ a % pageSize = b % pageSize := by
    simp only [Pool.addr, pageSize] at *
    omega
  have hpage : a / pageSize = b / pageSize := h.inj _ ha _ hb _ hf (hij.1 ▸ hg)
  apply hne
  rw [← Nat.div_add_mod a pageSize, ← Nat.div_add_mod b pageSize, hpage, hij.2]

theorem Owned.store (h : Owned P R s) (ha : a / pageSize ∈ R) (hs : s.store a v = some t) :
    Owned P R t ∧ Keeps R {a} s t ∧ t.load a = some v ∧ t.head = s.head ∧ t.pages = s.pages := by
  obtain ⟨free, held, hinv, howned⟩ := h
  obtain ⟨f, hf, rfl⟩ := Option.map_eq_some_iff.mp hs
  obtain ⟨i, rfl, hi⟩ := howned.frame _ ha f hf
  have hlt := hinv.held_lt hi
  have hao := Nat.mod_lt a pageSize_pos
  refine ⟨⟨free, held, ?_, howned.frame, howned.inj, howned.table⟩, ?_, ?_, rfl, rfl⟩
  · refine hinv.congr_next fun k hk j hj => Function.update_of_ne (fun heq => ?_) ..
    have hjlt := hinv.free_lt hk hj
    rw [p2v_paddr_add hlt hao] at heq
    have hji : j = i := by
      simp only [Pool.addr, pageSize] at heq hao
      omega
    exact hinv.free_ne_held hk hj hi hji
  · intro b w hb hne hload
    obtain ⟨g, hg, rfl⟩ := load_eq_some.mp hload
    have hword := howned.word_ne hinv hb ha hg hf hne
    refine load_eq_some.mpr ⟨g, hg, ?_⟩
    rw [poke_next, Function.update_of_ne hword]
  · refine load_eq_some.mpr ⟨_, hf, ?_⟩
    rw [poke_next, Function.update_self]

theorem Owned.storeByte (h : Owned P R s) (ha : a / pageSize ∈ R) (hv : v < 256)
    (hs : s.storeByte a v = some t) :
    Owned P R t ∧ Keeps R {a} s t ∧ (∃ w, t.load a = some w ∧ w % 256 = v) ∧ t.head = s.head ∧
      t.pages = s.pages := by
  obtain ⟨w, -, hs⟩ := Option.bind_eq_some_iff.mp hs
  obtain ⟨howned, hkeeps, hload, hrest⟩ := h.store ha hs
  exact ⟨howned, hkeeps, ⟨_, hload, by omega⟩, hrest⟩

/-- A call of `buddy_alloc` leaves the heap alone; the new frame is not one of its frames. -/
theorem OwnedBy.alloc {free : ℕ → List ℕ} {held : List Block} (h : s.OwnedBy P R held)
    (hinv : Inv P P.pages s.buddy free held) {paddr : ℕ} {b : BuddyAllocator}
    (hb : s.buddy.buddyAlloc 0 = some (paddr, b)) (hne : paddr ≠ 0) :
    ∃ i free', paddr = P.paddr i ∧ Inv P P.pages b free' (⟨i, 0⟩ :: held) ∧
      OwnedBy P R { s with buddy := b } (⟨i, 0⟩ :: held) ∧ Keeps R ∅ s { s with buddy := b } ∧
      ∀ q ∈ R, s.pages q ≠ some paddr := by
  obtain ⟨i, free', rfl, hinv', hnext⟩ := buddyAlloc_next hinv hb hne
  have hpw := (List.pairwise_append.mp hinv'.tiles.pairwise).2.1
  have hapart := (List.pairwise_cons.mp hpw).1
  refine ⟨i, free', rfl, hinv', ⟨fun q hq f hf => ?_, h.inj, h.table⟩, fun a v ha _ hload => ?_,
    fun q hq hf => ?_⟩
  · obtain ⟨j, hj, hmem⟩ := h.frame q hq f hf
    exact ⟨j, hj, List.mem_cons_of_mem _ hmem⟩
  · obtain ⟨f, hf, rfl⟩ := load_eq_some.mp hload
    obtain ⟨j, rfl, hmem⟩ := h.frame _ ha f hf
    have hlt := hinv.held_lt hmem
    have hao := Nat.mod_lt a pageSize_pos
    refine load_eq_some.mpr ⟨_, hf, ?_⟩
    rw [p2v_paddr_add hlt hao]
    exact hnext.word (List.mem_cons_of_mem _ hmem) (Block.has_start _) hao
  · obtain ⟨j, hj, hmem⟩ := h.frame q hq _ hf
    have hij : i = j := by
      simp only [Pool.paddr, pageSize] at hj
      omega
    exact hapart _ (hij ▸ hmem) i ⟨Block.has_start _, Block.has_start _⟩

theorem OwnedBy.addTable {free : ℕ → List ℕ} {held : List Block} (h : s.OwnedBy P R held)
    (hinv : Inv P P.pages s.buddy free held) {pt pd : ℕ} {b : BuddyAllocator}
    (hno : s.tables pd ≠ true) (hb : s.buddy.buddyAlloc 0 = some (pt, b)) (hne : pt ≠ 0) :
    ∃ free' held', Inv P P.pages b free' held' ∧ held ⊆ held' ∧ (s.addTable b pd).OwnedBy P R held' ∧
      (∀ q ∈ R, (s.addTable b pd).pages q = s.pages q) ∧ Keeps R ∅ s (s.addTable b pd) := by
  obtain ⟨i, free', rfl, hinv', howned, hkeeps, -⟩ := h.alloc hinv hb hne
  have hpages (q : ℕ) (hq : q ∈ R) : (s.addTable b pd).pages q = s.pages q := by
    unfold Heap.addTable
    simp only
    split_ifs with hpd
    · cases hf : s.pages q with
      | none => rfl
      | some f => exact absurd (hpd ▸ h.table q hq f hf) hno
    · rfl
  refine ⟨free', _, hinv', List.subset_cons_self .., ⟨fun q hq f hf => ?_, fun q hq q' hq' f hf hf' => ?_,
    fun q hq f hf => ?_⟩, hpages, fun a v ha hW hload => ?_⟩
  · exact howned.frame q hq f ((hpages q hq).symm.trans hf)
  · exact howned.inj q hq q' hq' f ((hpages q hq).symm.trans hf) ((hpages q' hq').symm.trans hf')
  · simp only [Heap.addTable, Function.update_apply]
    split_ifs
    · rfl
    · exact h.table q hq f ((hpages q hq).symm.trans hf)
  · have hload' := hkeeps a v ha hW hload
    rw [load] at hload' ⊢
    rwa [hpages _ ha]

/-- A new page for a held frame that is no frame of the heap yet. -/
theorem OwnedBy.mapFrame {free : ℕ → List ℕ} {held : List Block} (h : s.OwnedBy P R held)
    (hinv : Inv P P.pages s.buddy free held) {i : ℕ} (hi : (⟨i, 0⟩ : Block) ∈ held)
    (hfresh : ∀ q ∈ R, s.pages q ≠ some (P.paddr i)) (hnone : s.pages (va / pageSize) = none)
    (htable : s.tables (pdIndex va) = true) :
    Owned P R { s with pages := Function.update s.pages (va / pageSize) (some (P.paddr i)) } ∧
      Keeps R ∅ s { s with pages := Function.update s.pages (va / pageSize) (some (P.paddr i)) } := by
  have hcases (q f : ℕ) (hf : Function.update s.pages (va / pageSize) (some (P.paddr i)) q = some f) :
      (q = va / pageSize ∧ f = P.paddr i) ∨ s.pages q = some f := by
    by_cases hq : q = va / pageSize
    · rw [hq, Function.update_self] at hf
      exact .inl ⟨hq, (Option.some.inj hf).symm⟩
    · rw [Function.update_of_ne hq] at hf
      exact .inr hf
  refine ⟨⟨free, held, hinv, ⟨fun q hq f hf => ?_, fun q hq q' hq' f hf hf' => ?_, fun q hq f hf => ?_⟩⟩,
    fun a v ha _ hload => ?_⟩
  · rcases hcases q f hf with ⟨-, rfl⟩ | hf
    · exact ⟨i, rfl, hi⟩
    · exact h.frame q hq f hf
  · rcases hcases q f hf with ⟨hqva, hfi⟩ | hf <;> rcases hcases q' f hf' with ⟨hqva', hfi'⟩ | hf'
    · rw [hqva, hqva']
    · exact absurd (hfi ▸ hf') (hfresh q' hq')
    · exact absurd (hfi' ▸ hf) (hfresh q hq)
    · exact h.inj q hq q' hq' f hf hf'
  · rcases hcases q f hf with ⟨rfl, -⟩ | hf
    · rw [Nat.div_div_eq_div_mul]
      exact htable
    · exact h.table q hq f hf
  · obtain ⟨f, hf, rfl⟩ := load_eq_some.mp hload
    have hne : a / pageSize ≠ va / pageSize := by
      intro heq
      rw [heq, hnone] at hf
      cases hf
    exact load_eq_some.mpr ⟨f, (Function.update_of_ne hne ..).trans hf, rfl⟩

theorem OwnedBy.ensureTable {free : ℕ → List ℕ} {held : List Block} {pd : ℕ} (h : s.OwnedBy P R held)
    (hinv : Inv P P.pages s.buddy free held) (hs : s.ensureTable pd = some t) :
    ∃ free' held', Inv P P.pages t.buddy free' held' ∧ held ⊆ held' ∧ t.OwnedBy P R held' ∧
      (∀ q ∈ R, t.pages q = s.pages q) ∧ Keeps R ∅ s t ∧ t.head = s.head ∧ t.tables pd = true := by
  unfold Heap.ensureTable at hs
  split_ifs at hs with htable
  · cases hs
    exact ⟨free, held, hinv, List.Subset.refl _, h, fun _ _ => rfl, fun _ _ _ _ hload => hload, rfl, htable⟩
  · split at hs
    · cases hs
    · rename_i pt b hb
      split_ifs at hs with hpt
      cases hs
      obtain ⟨free', held', hinv', hsub, howned, hpages, hkeeps⟩ := h.addTable hinv htable hb hpt
      exact ⟨free', held', hinv', hsub, howned, hpages, hkeeps, rfl, Function.update_self ..⟩

theorem OwnedBy.vmmMapPage {free : ℕ → List ℕ} {held : List Block} (h : s.OwnedBy P R held)
    (hinv : Inv P P.pages s.buddy free held) {i : ℕ} {z : ℤ} (hi : (⟨i, 0⟩ : Block) ∈ held)
    (hfresh : ∀ q ∈ R, s.pages q ≠ some (P.paddr i))
    (hs : s.vmmMapPage (P.paddr i) va = some (z, t)) :
    Owned P R t ∧ Keeps R ∅ s t ∧ t.head = s.head := by
  obtain ⟨s₁, hs₁, hs⟩ := Option.map_eq_some_iff.mp hs
  obtain ⟨free₁, held₁, hinv₁, hsub, howned₁, hpages, hkeeps, hhead, htab⟩ := h.ensureTable hinv hs₁
  split_ifs at hs with hmapped
  · cases hs
    exact ⟨⟨free₁, held₁, hinv₁, howned₁⟩, hkeeps, hhead⟩
  · cases hs
    have hfresh₁ (q : ℕ) (hq : q ∈ R) : s₁.pages q ≠ some (P.paddr i) := by
      rw [hpages q hq]
      exact hfresh q hq
    have ⟨howned, hmap⟩ := howned₁.mapFrame hinv₁ (hsub hi) hfresh₁ (by simpa using hmapped) htab
    exact ⟨howned, (hkeeps.trans hmap).mono (by simp), hhead⟩

/-- A new page changes no word of the heap. -/
theorem Owned.mapNewPage (h : Owned P R s) (hs : s.mapNewPage va = some t) :
    Owned P R t ∧ Keeps R ∅ s t ∧ t.head = s.head := by
  obtain ⟨free, held, hinv, howned⟩ := h
  unfold Heap.mapNewPage at hs
  split at hs
  · cases hs
  · rename_i paddr b hb
    split_ifs at hs with hne
    obtain ⟨⟨z, t'⟩, hmap, rfl⟩ := Option.map_eq_some_iff.mp hs
    obtain ⟨i, free', rfl, hinv', howned', hkeeps, hfresh⟩ := howned.alloc hinv hb hne
    obtain ⟨hres, hkeeps', hhead⟩ := howned'.vmmMapPage hinv' List.mem_cons_self hfresh hmap
    exact ⟨hres, (hkeeps.trans hkeeps').mono (by simp), hhead⟩

theorem Owned.mapLoop {n i : ℕ} (h : Owned P R s) (hs : Heap.mapLoop va n i s = some t) :
    Owned P R t ∧ Keeps R ∅ s t ∧ t.head = s.head := by
  induction n generalizing i s with
  | zero =>
      cases hs
      exact ⟨h, fun _ _ _ _ hload => hload, rfl⟩
  | succ n ih =>
      obtain ⟨s₁, hs₁, hs⟩ := Option.bind_eq_some_iff.mp hs
      obtain ⟨h₁, hkeeps, hhead⟩ := h.mapNewPage hs₁
      obtain ⟨h₂, hkeeps', hhead'⟩ := ih h₁ hs
      exact ⟨h₂, (hkeeps.trans hkeeps').mono (by simp), hhead'.trans hhead⟩

/-- Taking a page out of the heap and giving its frame back changes no other page. -/
theorem Owned.release (h : Owned P R s) {q f : ℕ} {b : BuddyAllocator} (hq : q ∈ R)
    (hf : s.pages q = some f) (hb : s.buddy.buddyDealloc f 0 = some b) :
    Owned P R { s with pages := Function.update s.pages q none, buddy := b } ∧
      Keeps R {a | a / pageSize = q} s { s with pages := Function.update s.pages q none, buddy := b } := by
  obtain ⟨free, held, hinv, howned⟩ := h
  obtain ⟨i, rfl, hi⟩ := howned.frame q hq f hf
  have hinv' := hinv.perm (List.perm_cons_erase hi)
  obtain ⟨free', hinv''⟩ := buddyDealloc_spec hinv' hb
  have hnext := buddyDealloc_next hinv' hb
  have hother (q' g : ℕ) (hg : Function.update s.pages q none q' = some g) : q' ≠ q ∧ s.pages q' = some g := by
    by_cases hqq : q' = q
    · rw [hqq, Function.update_self] at hg
      cases hg
    · rw [Function.update_of_ne hqq] at hg
      exact ⟨hqq, hg⟩
  have hheld (q' g : ℕ) (hq' : q' ∈ R) (hne : q' ≠ q) (hg : s.pages q' = some g) :
      ∃ j, g = P.paddr j ∧ (⟨j, 0⟩ : Block) ∈ held.erase ⟨i, 0⟩ := by
    obtain ⟨j, rfl, hj⟩ := howned.frame q' hq' g hg
    refine ⟨j, rfl, (List.mem_erase_of_ne fun heq => hne ?_).mpr hj⟩
    cases heq
    exact howned.inj q' hq' q hq _ hg hf
  refine ⟨⟨free', _, hinv'', fun q' hq' g hg => ?_, fun q₁ h₁ q₂ h₂ g hg₁ hg₂ => ?_, fun q' hq' g hg => ?_⟩,
    fun a v ha hW hload => ?_⟩
  · exact hheld q' g hq' (hother q' g hg).1 (hother q' g hg).2
  · exact howned.inj q₁ h₁ q₂ h₂ g (hother q₁ g hg₁).2 (hother q₂ g hg₂).2
  · exact howned.table q' hq' g (hother q' g hg).2
  · obtain ⟨g, hg, rfl⟩ := load_eq_some.mp hload
    obtain ⟨j, rfl, hj⟩ := hheld _ g ha hW hg
    have hlt := hinv''.held_lt hj
    have hao := Nat.mod_lt a pageSize_pos
    refine load_eq_some.mpr ⟨_, (Function.update_of_ne hW ..).trans hg, ?_⟩
    rw [p2v_paddr_add hlt hao]
    exact hnext.word hj (Block.has_start _) hao

theorem Owned.unmapLoop {n i : ℕ} (h : Owned P R s)
    (hR : ∀ j, i ≤ j → j < i + n → wadd va (j * pageSize) / pageSize ∈ R)
    (hs : Heap.unmapLoop va n i s = some t) :
    Owned P R t ∧
      Keeps R {a | ∃ j, i ≤ j ∧ j < i + n ∧ a / pageSize = wadd va (j * pageSize) / pageSize} s t ∧
      t.head = s.head := by
  induction n generalizing i s with
  | zero =>
      cases hs
      exact ⟨h, fun _ _ _ _ hload => hload, rfl⟩
  | succ n ih =>
      have hrest : ∀ j, i + 1 ≤ j → j < i + 1 + n → wadd va (j * pageSize) / pageSize ∈ R :=
        fun j hj hj' => hR j (by omega) (by omega)
      -- One page: either it is not mapped, or it is released.
      have hstep : ∃ s₁, Heap.unmapLoop va n (i + 1) s₁ = some t ∧ Owned P R s₁ ∧
          Keeps R {a | a / pageSize = wadd va (i * pageSize) / pageSize} s s₁ ∧ s₁.head = s.head := by
        have hq := hR i le_rfl (by omega)
        rw [Heap.unmapLoop] at hs
        unfold vmmUnmapPage at hs
        split_ifs at hs with htable
        · cases hf : s.pages (wadd va (i * pageSize) / pageSize) with
          | none =>
              simp only [hf] at hs
              have hsame : Function.update s.pages (wadd va (i * pageSize) / pageSize) none = s.pages := by
                rw [← hf, Function.update_eq_self]
              rw [hsame] at hs
              exact ⟨s, hs, h, fun _ _ _ _ hload => hload, rfl⟩
          | some f =>
              simp only [hf] at hs
              split at hs
              · cases hs
              · rename_i b hb
                obtain ⟨howned, hkeeps⟩ := h.release hq hf hb
                exact ⟨_, hs, howned, hkeeps, rfl⟩
        · exact ⟨s, hs, h, fun _ _ _ _ hload => hload, rfl⟩
      obtain ⟨s₁, hs₁, h₁, hkeeps, hhead⟩ := hstep
      obtain ⟨h₂, hkeeps', hhead'⟩ := ih h₁ hrest hs₁
      refine ⟨h₂, (hkeeps.trans hkeeps').mono ?_, hhead'.trans hhead⟩
      rintro a (ha | ⟨j, hj, hj', ha⟩)
      · exact ⟨i, le_rfl, by omega, ha⟩
      · exact ⟨j, by omega, by omega, ha⟩

end Heap
end Ferrite.Memory
