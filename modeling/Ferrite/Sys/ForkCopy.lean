import Mathlib
import Ferrite.Memory.AddressSpace
import Ferrite.Memory.BuddyRuns
import Ferrite.Sys.Fork

/-!
# Fork gives an independent copy

The directory that `vmm_copy_pgdir` returns maps what the parent maps, with the
same flags and contents, in frames of its own; whatever is written through the
two directories later, each reads what was written through it.
-/
namespace Ferrite.Sys
open Ferrite.Memory BuddyAllocator Packed Pages

variable {P : Pool} {F : Set ℕ} {m m' : Bytes} {s : Machine} {direct : ℕ → Bool} {parent child va e : ℕ}
  {A : ℕ → Set ℕ}

/-- The page tables of the user part. -/
def tableOf (m : Bytes) (pgdir i : ℕ) : ℕ := pteAddr (entry m pgdir i)

/-- A copy of the user part of a directory in frames that were free. -/
structure IsCopy (F : Set ℕ) (m m' : Bytes) (parent child : ℕ) : Prop where
  mapped : ∀ va, UserAddr va → (translate m' child va).isSome = (translate m parent va).isSome
  flags : ∀ va e e', UserAddr va → translate m parent va = some e → translate m' child va = some e' →
    pteFlags e' = pteFlags e
  contents : ∀ va e e', UserAddr va → translate m parent va = some e → translate m' child va = some e' →
    ∀ o < pageSize, m' (pteAddr e' + o) = m (pteAddr e + o)
  dir : child ∈ F
  tables : ∀ i, 4 ≤ i → i < 768 → present (entry m' child i) = true →
    tableOf m' child i ∈ F ∧ tableOf m' child i ≠ child ∧
      ∀ j, 4 ≤ j → j < 768 → present (entry m' child j) = true →
        tableOf m' child i = tableOf m' child j → i = j
  pages : ∀ va e, UserAddr va → translate m' child va = some e →
    pteAddr e ∈ F ∧ pteAddr e ∉ userTables m' child ∧
      ∀ va' e', UserAddr va' → translate m' child va' = some e' → pteAddr e = pteAddr e' →
        va / pageSize = va' / pageSize
  same : ∀ va, UserAddr va → translate m' parent va = translate m parent va
  apart : Disjoint (userTables m' child ∪ userPages m' child) (userTables m parent ∪ userPages m parent)
  unchanged : ∀ p, pageSize ∣ p → p ∉ F → ∀ o < pageSize, m' (p + o) = m (p + o)

/-- The tables and the pages of a directory in use are not free. -/
theorem UserPart.not_free (h : UserPart direct m F parent) :
    Disjoint F (userTables m parent) ∧ Disjoint F (userPages m parent) := by
  constructor
  · apply Set.disjoint_left.mpr
    rintro p hp (rfl | ⟨i, h4, hi, he, rfl⟩)
    · exact h.inUse hp
    · exact (h.table i h4 hi he).1 hp
  · apply Set.disjoint_left.mpr
    rintro p hp ⟨va, e, hva, he, rfl⟩
    obtain ⟨hpde, hpte, rfl⟩ := translate_eq_some.mp he
    exact (h.page _ hva.pdIndex.1 hva.pdIndex.2 hpde _ (ptIndex_lt va) hpte).1 hp

/-- The table of a copied entry. -/
theorem CopiedDir.tableOf_mem (h : CopiedDir m m' A parent child 768) {i : ℕ} (h4 : 4 ≤ i) (hi : i < 768)
    (he : present (entry m' child i) = true) : tableOf m' child i ∈ A i ∧
      present (entry m parent i) = true ∧
      CopiedTable m m' (A i \ {tableOf m' child i}) (pteAddr (entry m parent i)) (tableOf m' child i) 1024 := by
  cases hpres : present (entry m parent i) with
  | false => exact absurd ((h.absent i h4 hi hpres).symm.trans he) Bool.false_ne_true
  | true =>
      obtain ⟨pt, hpt, hframe, hdst, htable⟩ := h.table i h4 hi hpres
      have htbl : tableOf m' child i = pt := by rw [tableOf, hdst, hframe.pteAddr]
      rw [htbl]
      exact ⟨hpt, rfl, htable⟩

/-- What the copy maps an address to. -/
theorem CopiedDir.translate (h : CopiedDir m m' A parent child 768) (hva : UserAddr va) :
    (Memory.translate m parent va = none ∧ Memory.translate m' child va = none) ∨
      ∃ e p, Memory.translate m parent va = some e ∧ Memory.translate m' child va = some (p ||| pteFlags e) ∧
        IsFrame p ∧ p ∈ A (pdIndex va) ∧ p ≠ tableOf m' child (pdIndex va) ∧
        ∀ o < pageSize, m' (p + o) = m (pteAddr e + o) := by
  obtain ⟨h4, hi⟩ := hva.pdIndex
  cases hpres : present (entry m parent (pdIndex va)) with
  | false =>
      have habsent := h.absent _ h4 hi hpres
      exact .inl ⟨by simp [Memory.translate, hpres], by simp [Memory.translate, habsent]⟩
  | true =>
      obtain ⟨pt, hpt, hframe, hdst, htable⟩ := h.table _ h4 hi hpres
      have htbl : tableOf m' child (pdIndex va) = pt := by rw [tableOf, hdst, hframe.pteAddr]
      have hchild : present (entry m' child (pdIndex va)) = true := by rw [hdst, hframe.present, hpres]
      cases hpte : present (entry m (pteAddr (entry m parent (pdIndex va))) (ptIndex va)) with
      | false =>
          have habsent := htable.absent _ (ptIndex_lt va) hpte
          rw [← htbl, tableOf] at habsent
          exact .inl ⟨by simp [Memory.translate, hpte], by simp [Memory.translate, habsent]⟩
      | true =>
          obtain ⟨p, hp, hpframe, hentry, hbytes⟩ := htable.copied _ (ptIndex_lt va) hpte
          rw [← htbl] at hp hentry
          refine .inr ⟨_, p, translate_eq_some.mpr ⟨hpres, hpte, rfl⟩,
            translate_eq_some.mpr ⟨hchild, ?_, hentry⟩, hpframe, hp.1, hp.2, hbytes⟩
          rw [hpframe.present, hpte]

/-- The page behind an entry of the copy. -/
theorem CopiedDir.page_mem (h : CopiedDir m m' A parent child 768) (hva : UserAddr va)
    (he : Memory.translate m' child va = some e) : pteAddr e ∈ A (pdIndex va) ∧
      pteAddr e ≠ tableOf m' child (pdIndex va) ∧ ∃ x, Memory.translate m parent va = some x := by
  rcases h.translate hva with ⟨-, hnone⟩ | ⟨x, p, hx, hx', hframe, hmem, hne, -⟩
  · rw [hnone] at he
    cases he
  · rw [hx'] at he
    cases he
    rw [hframe.pteAddr]
    exact ⟨hmem, hne, x, hx⟩

theorem CopiedDir.page_inj (h : CopiedDir m m' A parent child 768) {va' e' : ℕ} (hva : UserAddr va)
    (hva' : UserAddr va') (he : Memory.translate m' child va = some e)
    (he' : Memory.translate m' child va' = some e') (heq : pteAddr e = pteAddr e') :
    va / pageSize = va' / pageSize := by
  obtain ⟨hmem, -, x, hx⟩ := h.page_mem hva he
  obtain ⟨hmem', -, x', hx'⟩ := h.page_mem hva' he'
  obtain ⟨h4, hi⟩ := hva.pdIndex
  have hpd : pdIndex va = pdIndex va' := by
    by_contra hne
    exact Set.disjoint_left.mp (h.apart _ hi _ hva'.pdIndex.2 hne) hmem (heq ▸ hmem')
  obtain ⟨hpde, -, hentry⟩ := translate_eq_some.mp he
  obtain ⟨-, -, hentry'⟩ := translate_eq_some.mp he'
  obtain ⟨-, -, htable⟩ := h.tableOf_mem h4 hi hpde
  obtain ⟨-, hsrc, hsrcEntry⟩ := translate_eq_some.mp hx
  obtain ⟨-, hsrc', hsrcEntry'⟩ := translate_eq_some.mp hx'
  rw [← hpd] at hentry' hsrcEntry'
  refine (page_eq_iff va va').mpr ⟨hpd, htable.distinct _ (ptIndex_lt va) _ (ptIndex_lt va') ?_ ?_ ?_⟩
  · rw [hsrcEntry, hsrc]
  · rw [hsrcEntry', hsrc']
  · rw [tableOf, hentry, hentry', heq]

theorem CopiedDir.isCopy (h : CopiedDir m m' A parent child 768) (hparent : UserPart direct m F parent)
    (hchild : child ∈ F) (hA : ∀ i < 768, A i ⊆ F \ {child}) (hsame : SameBut pageSize F m m') :
    IsCopy F m m' parent child := by
  refine ⟨fun va hva => ?_, fun va e e' hva he he' => ?_, fun va e e' hva he he' => ?_, hchild,
    fun i h4 hi he => ?_, fun va e hva he => ?_, fun va hva => ?_, ?_, fun p hp hpF o ho =>
      hsame.byte hp hpF ho⟩
  · rcases h.translate hva with ⟨he, he'⟩ | ⟨e, p, he, he', -⟩ <;> rw [he, he']
    rfl
  · rcases h.translate hva with ⟨hnone, -⟩ | ⟨x, p, hx, hx', hframe, -⟩
    · rw [hnone] at he
      cases he
    · rw [hx] at he
      rw [hx'] at he'
      cases he
      cases he'
      exact (or_pteFlags hframe.dvd hframe.lt _).2.2.1
  · rcases h.translate hva with ⟨hnone, -⟩ | ⟨x, p, hx, hx', hframe, -, -, hbytes⟩
    · rw [hnone] at he
      cases he
    · rw [hx] at he
      rw [hx'] at he'
      cases he
      cases he'
      rwa [hframe.pteAddr]
  · obtain ⟨hmem, -, -⟩ := h.tableOf_mem h4 hi he
    have hF := hA i hi hmem
    refine ⟨hF.1, hF.2, fun j hj4 hj hej heq => ?_⟩
    obtain ⟨hmemj, -, -⟩ := h.tableOf_mem hj4 hj hej
    by_contra hne
    exact Set.disjoint_left.mp (h.apart i hi j hj hne) hmem (heq ▸ hmemj)
  · obtain ⟨hmem, hne, -⟩ := h.page_mem hva he
    have hF := hA _ hva.pdIndex.2 hmem
    refine ⟨hF.1, ?_, fun va' e' hva' he' heq => h.page_inj hva hva' he he' heq⟩
    rintro (heq | ⟨j, hj4, hj, hej, heq⟩)
    · exact hF.2 heq
    · by_cases hij : pdIndex va = j
      · exact hne (hij ▸ heq)
      · obtain ⟨hmemj, -, -⟩ := h.tableOf_mem hj4 hj hej
        rw [tableOf, ← heq] at hmemj
        exact Set.disjoint_left.mp (h.apart _ hva.pdIndex.2 j hj hij) hmem hmemj
  · exact translate_congr hsame hparent.dvd hparent.not_free.1 hva
  · obtain ⟨hFtables, hFpages⟩ := hparent.not_free
    refine (Set.disjoint_union_right.mpr ⟨hFtables, hFpages⟩).mono_left ?_
    rintro p ((rfl | ⟨i, h4, hi, he, rfl⟩) | ⟨va, e, hva, he, rfl⟩)
    · exact hchild
    · exact (hA i hi (h.tableOf_mem h4 hi he).1).1
    · exact (hA _ hva.pdIndex.2 (h.page_mem hva he).1).1

/-! ## Later writes -/

/-- No page of the user part is the directory or one of its tables. -/
def PagesApart (m : Bytes) (pgdir : ℕ) : Prop :=
  ∀ i, 4 ≤ i → i < 768 → present (entry m pgdir i) = true →
    ∀ j < 1024, present (entry m (tableOf m pgdir i) j) = true →
      pteAddr (entry m (tableOf m pgdir i) j) ≠ pgdir ∧
      ∀ k, 4 ≤ k → k < 768 → present (entry m pgdir k) = true →
        pteAddr (entry m (tableOf m pgdir i) j) ≠ tableOf m pgdir k

theorem PagesApart.disjoint (h : PagesApart m parent) :
    Disjoint (userPages m parent) (userTables m parent) := by
  apply Set.disjoint_left.mpr
  rintro p ⟨va, e, hva, he, rfl⟩ htable
  obtain ⟨hpde, hpte, rfl⟩ := translate_eq_some.mp he
  obtain ⟨hdir, htables⟩ := h _ hva.pdIndex.1 hva.pdIndex.2 hpde _ (ptIndex_lt va) hpte
  rcases htable with heq | ⟨k, hk4, hk, hpk, heq⟩
  · exact hdir heq
  · exact htables k hk4 hk hpk heq

inductive Side
  | parent | child
deriving DecidableEq, Repr

def Side.dir (parent child : ℕ) : Side → ℕ
  | .parent => parent
  | .child => child

/-- Each of two directories reads what was written through it. -/
def Independent (m : Bytes) (parent child : ℕ) : Prop :=
  ∀ ws : List (Side × ℕ × Byte), (∀ w ∈ ws, UserAddr w.2.1) → ∀ side va, UserAddr va →
    readByte (runWrites (Side.dir parent child) m ws) (side.dir parent child) va =
      readByte (runWrites (Side.dir parent child) m (ws.filter fun w => w.1 = side))
        (side.dir parent child) va

theorem IsCopy.isolated (h : IsCopy F m m' parent child) (hparent : UserPart direct m F parent)
    (hapart : PagesApart m parent) (hsame : SameBut pageSize F m m') (hdvd : pageSize ∣ child) :
    Isolated m' (Side.dir parent child) := by
  obtain ⟨hFtables, hFpages⟩ := hparent.not_free
  have hpages := userPages_congr hsame hparent.dvd hFtables
  have htables := userTables_congr hsame hparent.dvd hparent.inUse
  have hchildPages : userPages m' child ⊆ F := by
    rintro p ⟨va, e, hva, he, rfl⟩
    exact (h.pages va e hva he).1
  have hchildTables : userTables m' child ⊆ F := by
    rintro p (rfl | ⟨i, h4, hi, he, rfl⟩)
    · exact h.dir
    · exact (h.tables i h4 hi he).1
  have hacross : Disjoint (userPages m' parent) (userPages m' child) := by
    rw [hpages]
    exact (hFpages.mono_left hchildPages).symm
  refine ⟨fun side => ?_, fun side side' => ?_, fun side side' hne => ?_⟩
  · cases side with
    | parent => exact hparent.dvd
    | child => exact hdvd
  · cases side <;> cases side' <;> simp only [Side.dir]
    · rw [hpages, htables]
      exact hapart.disjoint
    · rw [hpages]
      exact (hFpages.mono_left hchildTables).symm
    · rw [htables]
      exact hFtables.mono_left hchildPages
    · apply Set.disjoint_left.mpr
      rintro p ⟨va, e, hva, he, rfl⟩
      exact (h.pages va e hva he).2.1
  · cases side <;> cases side'
    · exact absurd rfl hne
    · exact hacross
    · exact hacross.symm
    · exact absurd rfl hne

/-- When there is memory for the copy, `vmm_copy_pgdir` returns a copy that is independent
of its parent. -/
theorem vmmCopyPgdir_independent {need : ℕ} (hparent : UserPart s.direct s.mem F parent)
    (hapart : PagesApart s.mem parent) (hfree : FreeFrames P s.buddy F)
    (hneed : framesNeeded s.mem parent 4 764 = need)
    (hsupply : Machine.Supplies s.direct (need + 1) s.buddy) :
    ∃ child t, vmmCopyPgdir s parent = some (some child, t) ∧ IsCopy F s.mem t.mem parent child ∧
      Independent t.mem parent child := by
  obtain ⟨child, b, m, A, hcopy, hchild, hA, hdir, hsame⟩ := vmmCopyPgdir_spec hparent hfree hneed hsupply
  have hisCopy := hdir.isCopy hparent hchild hA hsame
  have hiso := hisCopy.isolated hparent hapart hsame (hfree.isFrame hchild).dvd
  exact ⟨child, _, hcopy, hisCopy, fun ws hws side va hva => hiso.readByte_run hws side hva⟩

/-! ## A small parent -/

instance decidableSupplies (direct : ℕ → Bool) :
    (n : ℕ) → (b : BuddyAllocator) → Decidable (Machine.Supplies direct n b)
  | 0, _ => isTrue trivial
  | n + 1, b =>
      have := decidableSupplies direct n
      decidable_of_iff ((b.buddyAlloc 0).any fun r =>
        r.1 ≠ 0 && direct r.1 && decide (Machine.Supplies direct n r.2)) (by
          rw [Option.any_eq_true, Machine.Supplies]
          constructor
          · rintro ⟨⟨p, b'⟩, hb, hr⟩
            simp only [Bool.and_eq_true, decide_eq_true_eq] at hr
            exact ⟨p, b', hb, hr.1.1, hr.1.2, hr.2⟩
          · rintro ⟨p, b', hb, hp, hdirect, hrest⟩
            exact ⟨(p, b'), hb, by simp [hp, hdirect, hrest]⟩)

/-- A page at 16 MiB, whose first byte is 42. -/
def parentMemory : Bytes := fun a =>
  if a = 0x3000 then 42 else setEntry (setEntry (fun _ => 0) 0x1000 4 0x2007) 0x2000 0 0x3007 a

def parentMachine (b : BuddyAllocator) : Machine :=
  { buddy := b, mem := parentMemory, pageDirectory := 0x4000, direct := fun _ => true }

theorem parent_entries : (∀ i < 768, present (entry parentMemory 0x1000 i) = true →
      pteAddr (entry parentMemory 0x1000 i) = 0x2000) ∧
    ∀ j < 1024, present (entry parentMemory 0x2000 j) = true →
      pteAddr (entry parentMemory 0x2000 j) = 0x3000 := by
  decide +kernel

theorem vmmCopyPgdir_independent_small : ∃ (s t : Machine) (F : Set ℕ) (child : ℕ),
    readByte s.mem 0x1000 0x1000000 = some 42 ∧ vmmCopyPgdir s 0x1000 = some (some child, t) ∧
      IsCopy F s.mem t.mem 0x1000 child ∧ Independent t.mem 0x1000 child := by
  have hinit : ((buddyInit smallMachine fun _ => 0).any fun r =>
      v2p r.1.base = 0x800000 && decide (Machine.Supplies (fun _ => true) 3 r.1)) = true := by
    decide +kernel
  obtain ⟨⟨b, m'⟩, hb, hr⟩ := (Option.any_eq_true _ _).mp hinit
  simp only [Bool.and_eq_true, decide_eq_true_eq] at hr
  obtain ⟨P, free, hinv, -⟩ := buddyInit_spec (by decide) hb
  let F : Set ℕ := {p | ∃ i < P.pages, p = P.paddr i}
  have hfree : FreeFrames P b F := ⟨free, [], hinv, fun p => by simp [F]⟩
  have hlow (p : ℕ) (hp : p ∈ F) : 0x3000 < p := by
    obtain ⟨i, hi, rfl⟩ := hp
    have hlt : P.pbase < Word.word := by
      have := P.paddr_lt hi
      simp only [Pool.paddr] at this
      omega
    have hbase := hr.1
    rw [hinv.base_eq, ← P.p2v_pbase, v2p_p2v hlt] at hbase
    simp only [Pool.paddr]
    omega
  have hparent : UserPart (fun _ => true) parentMemory F 0x1000 := by
    refine ⟨by decide, fun h => ?_, rfl, fun i _ hi he => ?_, fun i _ hi he j hj hpte => ?_⟩
    · exact absurd (hlow _ h) (by decide)
    · rw [parent_entries.1 i hi he]
      exact ⟨fun h => absurd (hlow _ h) (by decide), rfl⟩
    · rw [parent_entries.1 i hi he] at hpte ⊢
      rw [parent_entries.2 j hj hpte]
      exact ⟨fun h => absurd (hlow _ h) (by decide), rfl⟩
  have hapart : PagesApart parentMemory 0x1000 := by
    intro i _ hi he j hj hpte
    rw [tableOf, parent_entries.1 i hi he] at hpte ⊢
    rw [parent_entries.2 j hj hpte]
    refine ⟨by decide, fun k _ hk hpk => ?_⟩
    rw [tableOf, parent_entries.1 k hk hpk]
    decide
  have hneed : framesNeeded parentMemory 0x1000 4 764 = 2 := by decide +kernel
  obtain ⟨child, t, hcopy, hisCopy, hind⟩ :=
    vmmCopyPgdir_independent (s := parentMachine b) hparent hapart hfree hneed hr.2
  have hread : readByte parentMemory 0x1000 0x1000000 = some 42 := by decide
  exact ⟨parentMachine b, t, F, child, hread, hcopy, hisCopy, hind⟩

end Ferrite.Sys
