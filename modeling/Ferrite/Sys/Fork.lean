import Mathlib
import Ferrite.Memory.Frames

/-!
# Copying a page directory

`setup_kvm` and `vmm_copy_pgdir`: the kernel's entries are shared, and for the
user part a table is allocated for each table of the parent and a page for each
of its pages.
-/
namespace Ferrite.Sys
open Ferrite.Memory Packed Pages

/-- The loops of `setup_kvm` over `n` entries from `i` on. -/
def copyKernelEntries (src dst : ℕ) : ℕ → ℕ → Bytes → Bytes
  | 0, _, mem => mem
  | n + 1, i, mem =>
      let e := entry mem src i
      copyKernelEntries src dst n (i + 1) (if present e then setEntry mem dst i e else mem)

def setupKvm (s : Machine) : Option (Option ℕ × Machine) :=
  match s.getFreePage with
  | none => none
  | some (none, s) => some (none, s)
  | some (some pgdir, s) =>
      let mem := copyKernelEntries s.pageDirectory pgdir 4 0 s.mem
      let mem := copyKernelEntries s.pageDirectory pgdir 256 768 mem
      some (some pgdir, { s with mem := setEntry mem pgdir 1023 (pgdir ||| pteP ||| pteW ||| pteU) })

/-- The inner loop of `vmm_copy_pgdir` over `n` entries of a table; `false` is a return
for want of memory. -/
def copyPtes (parentPt newPt : ℕ) : ℕ → ℕ → Machine → Option (Bool × Machine)
  | 0, _, s => some (true, s)
  | n + 1, pte, s =>
      let e := entry s.mem parentPt pte
      if !present e then
        copyPtes parentPt newPt n (pte + 1) { s with mem := setEntry s.mem newPt pte 0 }
      else
        match s.getFreePage with
        | none => none
        | some (none, s) => some (false, s)
        | some (some newPage, s) =>
            if !s.direct (pteAddr e) then none
            else
              let mem := copy pageSize s.mem newPage s.mem (pteAddr e)
              copyPtes parentPt newPt n (pte + 1)
                { s with mem := setEntry mem newPt pte (newPage ||| pteFlags e) }

/-- The outer loop of `vmm_copy_pgdir` over `n` entries of the directory. -/
def copyPdes (parent child : ℕ) : ℕ → ℕ → Machine → Option (Option ℕ × Machine)
  | 0, _, s => some (some child, s)
  | n + 1, pde, s =>
      let e := entry s.mem parent pde
      if !present e then copyPdes parent child n (pde + 1) s
      else
        match s.getFreePage with
        | none => none
        | some (none, s) => some (none, s)
        | some (some newPt, s) =>
            if !s.direct (pteAddr e) then none
            else
              match copyPtes (pteAddr e) newPt 1024 0 s with
              | none => none
              | some (false, s) => some (none, s)
              | some (true, s) =>
                  copyPdes parent child n (pde + 1)
                    { s with mem := setEntry s.mem child pde (newPt ||| pteFlags e) }

def vmmCopyPgdir (s : Machine) (parent : ℕ) : Option (Option ℕ × Machine) :=
  match setupKvm s with
  | none => none
  | some (none, s) => some (none, s)
  | some (some child, s) => if !s.direct parent then none else copyPdes parent child 764 4 s

/-! ## One table -/

variable {P : Pool} {A B F F₀ : Set ℕ} {m₀ m m' : Bytes} {s : Machine} {direct : ℕ → Bool}
  {b : BuddyAllocator} {src dst i j k n p rest : ℕ}

/-- How many of `n` entries of a table from `i` on are mapped. -/
def mappedEntries (m : Bytes) (table i n : ℕ) : ℕ :=
  ((List.range' i n).filter fun j => present (entry m table j)).length

theorem mappedEntries_succ (m : Bytes) (table i n : ℕ) : mappedEntries m table i (n + 1) =
    (if present (entry m table i) then 1 else 0) + mappedEntries m table (i + 1) n := by
  rw [mappedEntries, mappedEntries, List.range'_succ, List.filter_cons]
  split_ifs
  · rw [List.length_cons, Nat.add_comm]
  · rw [Nat.zero_add]

theorem mappedEntries_congr {table : ℕ} (h : ∀ j < 1024, entry m' table j = entry m table j) :
    mappedEntries m' table 0 1024 = mappedEntries m table 0 1024 := by
  refine congrArg List.length (List.filter_congr fun j hj => ?_)
  rw [h j (by simpa using hj)]

/-- The first `n` entries of the table `dst` lead to copies of the pages of `src`, in
different frames of `A`. -/
structure CopiedTable (m₀ m : Bytes) (A : Set ℕ) (src dst n : ℕ) : Prop where
  absent : ∀ i < n, present (entry m₀ src i) = false → present (entry m dst i) = false
  copied : ∀ i < n, present (entry m₀ src i) = true → ∃ p ∈ A, IsFrame p ∧
    entry m dst i = p ||| pteFlags (entry m₀ src i) ∧
    ∀ o < pageSize, m (p + o) = m₀ (pteAddr (entry m₀ src i) + o)
  distinct : ∀ i < n, ∀ j < n, present (entry m₀ src i) = true → present (entry m₀ src j) = true →
    pteAddr (entry m dst i) = pteAddr (entry m dst j) → i = j

/-- Changes elsewhere, and more frames. -/
theorem CopiedTable.mono (h : CopiedTable m₀ m A src dst n) (hAB : A ⊆ B)
    (hentry : ∀ i < n, entry m' dst i = entry m dst i)
    (hpage : ∀ p ∈ A, IsFrame p → ∀ o < pageSize, m' (p + o) = m (p + o)) :
    CopiedTable m₀ m' B src dst n := by
  refine ⟨fun i hi he => ?_, fun i hi he => ?_, fun i hi j hj he he' heq => ?_⟩
  · rw [hentry i hi]
    exact h.absent i hi he
  · obtain ⟨p, hp, hframe, hdst, hbytes⟩ := h.copied i hi he
    refine ⟨p, hAB hp, hframe, (hentry i hi).trans hdst, fun o ho => ?_⟩
    rw [hpage p hp hframe o ho, hbytes o ho]
  · rw [hentry i hi, hentry j hj] at heq
    exact h.distinct i hi j hj he he' heq

theorem CopiedTable.skip (h : CopiedTable m₀ m A src dst n)
    (hsrc : present (entry m₀ src n) = false) (hdst : present (entry m dst n) = false) :
    CopiedTable m₀ m A src dst (n + 1) := by
  refine ⟨fun i hi he => ?_, fun i hi he => ?_, fun i hi j hj he he' heq => ?_⟩
  · rcases Nat.lt_succ_iff_lt_or_eq.mp hi with hi | rfl
    · exact h.absent i hi he
    · exact hdst
  · rcases Nat.lt_succ_iff_lt_or_eq.mp hi with hi | rfl
    · exact h.copied i hi he
    · rw [he] at hsrc
      cases hsrc
  · rcases Nat.lt_succ_iff_lt_or_eq.mp hi with hi | rfl <;>
      rcases Nat.lt_succ_iff_lt_or_eq.mp hj with hj | rfl
    · exact h.distinct i hi j hj he he' heq
    · rw [he'] at hsrc
      cases hsrc
    · rw [he] at hsrc
      cases hsrc
    · rfl

theorem CopiedTable.push (h : CopiedTable m₀ m A src dst n) (hp : p ∈ B) (hnew : p ∉ A)
    (hAB : A ⊆ B) (hframe : IsFrame p) (hdst : entry m dst n = p ||| pteFlags (entry m₀ src n))
    (hbytes : ∀ o < pageSize, m (p + o) = m₀ (pteAddr (entry m₀ src n) + o))
    (hsrc : present (entry m₀ src n) = true) : CopiedTable m₀ m B src dst (n + 1) := by
  have hold (i : ℕ) (hi : i < n) (he : present (entry m₀ src i) = true) :
      pteAddr (entry m dst i) ≠ pteAddr (entry m dst n) := by
    obtain ⟨q, hq, hqframe, hqdst, -⟩ := h.copied i hi he
    rw [hqdst, hdst, hqframe.pteAddr, hframe.pteAddr]
    exact fun heq => hnew (heq ▸ hq)
  refine ⟨fun i hi he => ?_, fun i hi he => ?_, fun i hi j hj he he' heq => ?_⟩
  · rcases Nat.lt_succ_iff_lt_or_eq.mp hi with hi | rfl
    · exact h.absent i hi he
    · rw [he] at hsrc
      cases hsrc
  · rcases Nat.lt_succ_iff_lt_or_eq.mp hi with hi | rfl
    · obtain ⟨q, hq, hrest⟩ := h.copied i hi he
      exact ⟨q, hAB hq, hrest⟩
    · exact ⟨p, hp, hframe, hdst, hbytes⟩
  · rcases Nat.lt_succ_iff_lt_or_eq.mp hi with hi | rfl <;>
      rcases Nat.lt_succ_iff_lt_or_eq.mp hj with hj | rfl
    · exact h.distinct i hi j hj he he' heq
    · exact absurd heq (hold i hi he)
    · exact absurd heq.symm (hold j hj he')
    · rfl

/-- A table in use, whose pages are in use: none of them is free, or the new table. -/
structure SourceTable (direct : ℕ → Bool) (m : Bytes) (F : Set ℕ) (src dst : ℕ) : Prop where
  dvd : pageSize ∣ src
  inUse : src ∉ F
  ne : src ≠ dst
  page : ∀ i < 1024, present (entry m src i) = true → pteAddr (entry m src i) ∉ F ∧
    pteAddr (entry m src i) ≠ dst ∧ direct (pteAddr (entry m src i)) = true

/-- The inner loop; `F₀` was free when it began and `F` is free now. -/
theorem copyPtes_spec (hsrc : SourceTable s.direct m₀ F₀ src dst) (hdst : IsFrame dst)
    (hdstF : dst ∉ F₀) (hn : j + n = 1024) (hfree : FreeFrames P s.buddy F) (hF : F ⊆ F₀)
    (hcopied : CopiedTable m₀ s.mem (F₀ \ F) src dst j)
    (hsame : SameBut pageSize (insert dst (F₀ \ F)) m₀ s.mem)
    (hsupply : Machine.Supplies s.direct (mappedEntries m₀ src j n + rest) s.buddy) :
    ∃ b m F', copyPtes src dst n j s = some (true, { s with buddy := b, mem := m }) ∧ F' ⊆ F ∧
      FreeFrames P b F' ∧ CopiedTable m₀ m (F₀ \ F') src dst 1024 ∧
      SameBut pageSize (insert dst (F₀ \ F')) m₀ m ∧ Machine.Supplies s.direct rest b := by
  induction n generalizing j s F with
  | zero =>
      refine ⟨s.buddy, s.mem, F, rfl, subset_rfl, hfree, ?_, hsame, ?_⟩
      · rwa [show 1024 = j by omega]
      · simpa [mappedEntries] using hsupply
  | succ n ih =>
      have hj : j < 1024 := by omega
      have he : entry s.mem src j = entry m₀ src j := by
        refine entry_congr hsame hsrc.dvd (fun hmem => ?_) hj
        rcases Set.mem_insert_iff.mp hmem with heq | hmem
        · exact hsrc.ne heq
        · exact hsrc.inUse hmem.1
      rw [mappedEntries_succ] at hsupply
      rw [copyPtes]
      simp only [he]
      cases hpres : present (entry m₀ src j) with
      | false =>
          rw [hpres] at hsupply
          have hset : SameBut pageSize {dst} s.mem (setEntry s.mem dst j 0) :=
            sameBut_setEntry hdst.dvd rfl hj
          have hold : CopiedTable m₀ (setEntry s.mem dst j 0) (F₀ \ F) src dst j := hcopied.mono subset_rfl
            (fun i hi => entry_setEntry_of_ne (by omega) ..) fun p hp hframe o ho =>
              hset.byte hframe.dvd (fun heq => hdstF (heq ▸ hp.1)) ho
          refine ih hsrc (by omega) hfree hF (hold.skip hpres ?_) ?_ (by simpa using hsupply)
          · rw [entry_setEntry _ _ _ (by decide)]
            decide
          · exact hsame.trans (hset.mono (Set.singleton_subset_iff.mpr (Set.mem_insert ..)))
      | true =>
          have ⟨hpageF, hpagedst, hdirect⟩ := hsrc.page j hj hpres
          have hsupply' : Machine.Supplies s.direct (mappedEntries m₀ src (j + 1) n + rest + 1) s.buddy := by
            rw [hpres, if_pos rfl] at hsupply
            rwa [show mappedEntries m₀ src (j + 1) n + rest + 1 =
              1 + mappedEntries m₀ src (j + 1) n + rest by omega]
          obtain ⟨p, b, hget, hp, hfree', hrest⟩ := Machine.getFreePage_spec hfree hsupply'
          have hframe := hfree.isFrame hp
          have hpdst : p ≠ dst := fun heq => hdstF (heq ▸ hF hp)
          simp only [hget, hdirect, Bool.not_true, Bool.false_eq_true, if_false]
          generalize hzero : copy pageSize s.mem p (fun _ => 0) 0 = m₁
          generalize hcopy : copy pageSize m₁ p m₁ (pteAddr (entry m₀ src j)) = m₂
          have h₁ : SameBut pageSize {p} s.mem m₁ := hzero ▸ .copy hframe.dvd rfl le_rfl
          have h₂ : SameBut pageSize {p} m₁ m₂ := hcopy ▸ .copy hframe.dvd rfl le_rfl
          have h₃ : SameBut pageSize {dst} m₂ (setEntry m₂ dst j (p ||| pteFlags (entry m₀ src j))) :=
            sameBut_setEntry hdst.dvd rfl hj
          have hdvd := dvd_pteAddr (entry_lt m₀ src j)
          have hA : F₀ \ F ⊆ F₀ \ (F \ {p}) := Set.sdiff_subset_sdiff_right Set.sdiff_subset
          have hpA : p ∈ F₀ \ (F \ {p}) := ⟨hF hp, fun h => h.2 rfl⟩
          -- The frames that were taken before are neither the new page nor the table.
          have hold : CopiedTable m₀ (setEntry m₂ dst j (p ||| pteFlags (entry m₀ src j))) (F₀ \ F) src
              dst j := by
            refine hcopied.mono subset_rfl (fun i hi => ?_) fun q hq hqframe o ho => ?_
            · rw [entry_setEntry_of_ne (by omega), entry_congr h₂ hdst.dvd hpdst.symm (by omega),
                entry_congr h₁ hdst.dvd hpdst.symm (by omega)]
            · have hqp : q ≠ p := fun heq => hq.2 (heq ▸ hp)
              have hqdst : q ≠ dst := fun heq => hdstF (heq ▸ hq.1)
              rw [h₃.byte hqframe.dvd hqdst ho, h₂.byte hqframe.dvd hqp ho, h₁.byte hqframe.dvd hqp ho]
          have hbytes (o : ℕ) (ho : o < pageSize) : setEntry m₂ dst j (p ||| pteFlags (entry m₀ src j))
              (p + o) = m₀ (pteAddr (entry m₀ src j) + o) := by
            have hnep : pteAddr (entry m₀ src j) ≠ p := fun heq => hpageF (heq ▸ hF hp)
            rw [h₃.byte hframe.dvd hpdst ho, ← hcopy, copy_add ho, h₁.byte hdvd hnep ho]
            refine hsame.byte hdvd (fun hmem => ?_) ho
            rcases Set.mem_insert_iff.mp hmem with heq | hmem
            · exact hpagedst heq
            · exact hpageF hmem.1
          have hnew := hold.push hpA (fun h => h.2 hp) hA hframe
            (entry_setEntry _ _ _ (hframe.or_lt _)) hbytes hpres
          have hsame' : SameBut pageSize (insert dst (F₀ \ (F \ {p}))) m₀
              (setEntry m₂ dst j (p ||| pteFlags (entry m₀ src j))) := by
            have hp' : ({p} : Set ℕ) ⊆ insert dst (F₀ \ (F \ {p})) :=
              Set.singleton_subset_iff.mpr (Set.mem_insert_of_mem _ hpA)
            have hd' : ({dst} : Set ℕ) ⊆ insert dst (F₀ \ (F \ {p})) :=
              Set.singleton_subset_iff.mpr (Set.mem_insert ..)
            exact (((hsame.mono (Set.insert_subset_insert hA)).trans (h₁.mono hp')).trans
              (h₂.mono hp')).trans (h₃.mono hd')
          obtain ⟨b', m', F', hloop, hF', hres⟩ := ih (s := { s with
            buddy := b, mem := setEntry m₂ dst j (p ||| pteFlags (entry m₀ src j)) })
            hsrc (by omega) hfree' (Set.sdiff_subset.trans hF) hnew hsame' hrest
          exact ⟨b', m', F', hloop, hF'.trans Set.sdiff_subset, hres⟩

/-- The source of a copy may be read in any memory that agrees on it. -/
theorem CopiedTable.source (h : CopiedTable m₀ m A src dst n)
    (hentry : ∀ i < n, entry m₀ src i = entry m' src i)
    (hpage : ∀ i < n, present (entry m' src i) = true → ∀ o < pageSize,
      m₀ (pteAddr (entry m' src i) + o) = m' (pteAddr (entry m' src i) + o)) :
    CopiedTable m' m A src dst n := by
  refine ⟨fun i hi he => ?_, fun i hi he => ?_, fun i hi j hj he he' heq => ?_⟩
  · exact h.absent i hi (by rwa [hentry i hi])
  · obtain ⟨p, hp, hframe, hdst, hbytes⟩ := h.copied i hi (by rwa [hentry i hi])
    rw [hentry i hi] at hdst hbytes
    exact ⟨p, hp, hframe, hdst, fun o ho => (hbytes o ho).trans (hpage i hi he o ho)⟩
  · exact h.distinct i hi j hj (by rwa [hentry i hi]) (by rwa [hentry j hj]) heq

/-- A new table for the table `src`, none of whose pages is free. -/
theorem copyTable_spec (hdvd : pageSize ∣ src) (hinUse : src ∉ F)
    (hpage : ∀ i < 1024, present (entry s.mem src i) = true →
      pteAddr (entry s.mem src i) ∉ F ∧ s.direct (pteAddr (entry s.mem src i)) = true)
    (hfree : FreeFrames P s.buddy F)
    (hsupply : Machine.Supplies s.direct (mappedEntries s.mem src 0 1024 + rest + 1) s.buddy) :
    ∃ pt t b m F', s.getFreePage = some (some pt, t) ∧ t.direct = s.direct ∧
      copyPtes src pt 1024 0 t = some (true, { s with buddy := b, mem := m }) ∧
      pt ∈ F ∧ F' ⊆ F \ {pt} ∧ FreeFrames P b F' ∧
      CopiedTable s.mem m ((F \ F') \ {pt}) src pt 1024 ∧ SameBut pageSize (F \ F') s.mem m ∧
      Machine.Supplies s.direct rest b := by
  obtain ⟨pt, b, hget, hpt, hfree', hrest⟩ := Machine.getFreePage_spec hfree hsupply
  have hframe := hfree.isFrame hpt
  generalize hzero : copy pageSize s.mem pt (fun _ => 0) 0 = m₁ at hget
  have h₁ : SameBut pageSize {pt} s.mem m₁ := hzero ▸ .copy hframe.dvd rfl le_rfl
  have hne : src ≠ pt := fun heq => hinUse (heq ▸ hpt)
  have hentry (i : ℕ) (hi : i < 1024) : entry m₁ src i = entry s.mem src i :=
    entry_congr h₁ hdvd hne hi
  have hmapped := mappedEntries_congr hentry
  have hsrc : SourceTable s.direct m₁ (F \ {pt}) src pt := by
    refine ⟨hdvd, fun h => hinUse h.1, hne, fun i hi he => ?_⟩
    rw [hentry i hi] at he ⊢
    have ⟨hF, hdirect⟩ := hpage i hi he
    exact ⟨fun h => hF h.1, fun heq => hF (heq ▸ hpt), hdirect⟩
  have hempty : CopiedTable m₁ m₁ ((F \ {pt}) \ (F \ {pt})) src pt 0 := ⟨by simp, by simp, by simp⟩
  obtain ⟨b₂, m₂, F', hloop, hF', hfree₂, htable, hsame, hrest₂⟩ :=
    copyPtes_spec (s := { s with buddy := b, mem := m₁ }) hsrc hframe (fun h => h.2 rfl)
      (show 0 + 1024 = 1024 from rfl) hfree' subset_rfl hempty (fun _ _ => rfl) (hmapped.symm ▸ hrest)
  have hpt' : pt ∈ F \ F' := ⟨hpt, fun h => (hF' h).2 rfl⟩
  have htaken : (F \ {pt}) \ F' = (F \ F') \ {pt} := sdiff_right_comm ..
  refine ⟨pt, _, b₂, m₂, F', hget, rfl, hloop, hpt, hF', hfree₂, ?_, ?_, hrest₂⟩
  · rw [← htaken]
    refine htable.source hentry fun i hi he o ho => ?_
    have hF := (hpage i hi he).1
    exact h₁.byte (dvd_pteAddr (entry_lt ..)) (fun heq => hF (heq ▸ hpt)) ho
  · refine (h₁.mono (Set.singleton_subset_iff.mpr hpt')).trans (hsame.mono ?_)
    rw [htaken, Set.insert_subset_iff]
    exact ⟨hpt', Set.sdiff_subset⟩

/-! ## The directory -/

/-- A page directory in use: neither it nor the tables and pages of its user part are
free, and the direct map reaches them. -/
structure UserPart (direct : ℕ → Bool) (m : Bytes) (F : Set ℕ) (pgdir : ℕ) : Prop where
  dvd : pageSize ∣ pgdir
  inUse : pgdir ∉ F
  reached : direct pgdir = true
  table : ∀ i, 4 ≤ i → i < 768 → present (entry m pgdir i) = true →
    pteAddr (entry m pgdir i) ∉ F ∧ direct (pteAddr (entry m pgdir i)) = true
  page : ∀ i, 4 ≤ i → i < 768 → present (entry m pgdir i) = true →
    ∀ j < 1024, present (entry m (pteAddr (entry m pgdir i)) j) = true →
      pteAddr (entry m (pteAddr (entry m pgdir i)) j) ∉ F ∧
      direct (pteAddr (entry m (pteAddr (entry m pgdir i)) j)) = true

/-- The tables and pages of `n` entries of a directory from `i` on. -/
def framesNeeded (m : Bytes) (pgdir i n : ℕ) : ℕ :=
  ((List.range' i n).map fun j =>
    if present (entry m pgdir j) then 1 + mappedEntries m (pteAddr (entry m pgdir j)) 0 1024
    else 0).sum

/-- The entries of `dst` below `n` lead to copies of the tables of `src`; the frames of
the copy of one table are in a set of their own. -/
structure CopiedDir (m₀ m : Bytes) (A : ℕ → Set ℕ) (src dst n : ℕ) : Prop where
  absent : ∀ i, 4 ≤ i → i < n → present (entry m₀ src i) = false → present (entry m dst i) = false
  table : ∀ i, 4 ≤ i → i < n → present (entry m₀ src i) = true → ∃ pt ∈ A i, IsFrame pt ∧
    entry m dst i = pt ||| pteFlags (entry m₀ src i) ∧
    CopiedTable m₀ m (A i \ {pt}) (pteAddr (entry m₀ src i)) pt 1024
  apart : ∀ i < n, ∀ j < n, i ≠ j → Disjoint (A i) (A j)

theorem CopiedDir.mono {A : ℕ → Set ℕ} (h : CopiedDir m₀ m A src dst n)
    (hentry : ∀ i < n, entry m' dst i = entry m dst i)
    (hsame : ∀ i < n, ∀ p ∈ A i, IsFrame p → ∀ o < pageSize, m' (p + o) = m (p + o)) :
    CopiedDir m₀ m' A src dst n := by
  refine ⟨fun i hi hn he => ?_, fun i hi hn he => ?_, h.apart⟩
  · rw [hentry i hn]
    exact h.absent i hi hn he
  · obtain ⟨pt, hpt, hframe, hdst, htable⟩ := h.table i hi hn he
    refine ⟨pt, hpt, hframe, (hentry i hn).trans hdst, htable.mono subset_rfl (fun j hj => ?_)
      fun p hp => hsame i hn p hp.1⟩
    refine get_shift fun o ho => ?_
    rw [add_assoc]
    exact hsame i hn pt hpt hframe _ (by simp only [pageSize]; omega)

theorem CopiedDir.push {A : ℕ → Set ℕ} (h : CopiedDir m₀ m A src dst n) (hB : ∀ i < n, Disjoint (A i) B)
    (habsent : present (entry m₀ src n) = false → present (entry m dst n) = false)
    (htable : present (entry m₀ src n) = true → ∃ pt ∈ B, IsFrame pt ∧
      entry m dst n = pt ||| pteFlags (entry m₀ src n) ∧
      CopiedTable m₀ m (B \ {pt}) (pteAddr (entry m₀ src n)) pt 1024) :
    CopiedDir m₀ m (Function.update A n B) src dst (n + 1) := by
  refine ⟨fun i hi hn he => ?_, fun i hi hn he => ?_, fun i hi j hj hij => ?_⟩
  · rcases Nat.lt_succ_iff_lt_or_eq.mp hn with hn | rfl
    · exact h.absent i hi hn he
    · exact habsent he
  · rcases Nat.lt_succ_iff_lt_or_eq.mp hn with hn | rfl
    · rw [Function.update_of_ne (by omega)]
      exact h.table i hi hn he
    · rw [Function.update_self]
      exact htable he
  · rcases Nat.lt_succ_iff_lt_or_eq.mp hi with hi | rfl <;>
      rcases Nat.lt_succ_iff_lt_or_eq.mp hj with hj | rfl
    · rw [Function.update_of_ne (by omega), Function.update_of_ne (by omega)]
      exact h.apart i hi j hj hij
    · rw [Function.update_of_ne hij, Function.update_self]
      exact hB i hi
    · rw [Function.update_of_ne hij.symm, Function.update_self]
      exact (hB j hj).symm
    · exact absurd rfl hij

/-- The outer loop; `F₀` was free when `vmm_copy_pgdir` began and `F` is free now. -/
theorem copyPdes_spec {parent child : ℕ} {A : ℕ → Set ℕ}
    (hparent : UserPart s.direct m₀ F₀ parent) (hchild : child ∈ F₀) (hframe : IsFrame child)
    (h4 : 4 ≤ i) (hn : i + n = 768) (hfree : FreeFrames P s.buddy F) (hF : F ⊆ F₀ \ {child})
    (hcopied : CopiedDir m₀ s.mem A parent child i) (hA : ∀ j < i, A j ⊆ (F₀ \ {child}) \ F)
    (hempty : ∀ j, i ≤ j → j < 768 → present (entry s.mem child j) = false)
    (hsame : SameBut pageSize (F₀ \ F) m₀ s.mem)
    (hsupply : Machine.Supplies s.direct (framesNeeded m₀ parent i n + rest) s.buddy) :
    ∃ b m A F', copyPdes parent child n i s = some (some child, { s with buddy := b, mem := m }) ∧
      F' ⊆ F ∧ FreeFrames P b F' ∧ CopiedDir m₀ m A parent child 768 ∧
      (∀ j < 768, A j ⊆ (F₀ \ {child}) \ F') ∧ SameBut pageSize (F₀ \ F') m₀ m := by
  induction n generalizing i s F A with
  | zero =>
      have hi : i = 768 := by omega
      subst hi
      exact ⟨s.buddy, s.mem, A, F, rfl, subset_rfl, hfree, hcopied, hA, hsame⟩
  | succ n ih =>
      have hi : i < 768 := by omega
      have he : entry s.mem parent i = entry m₀ parent i :=
        entry_congr hsame hparent.dvd (fun hmem => hparent.inUse hmem.1) (by omega)
      have hcost : framesNeeded m₀ parent i (n + 1) = (if present (entry m₀ parent i) then
          1 + mappedEntries m₀ (pteAddr (entry m₀ parent i)) 0 1024 else 0) +
            framesNeeded m₀ parent (i + 1) n := by
        rw [framesNeeded, List.range'_succ, List.map_cons, List.sum_cons, framesNeeded]
      rw [hcost] at hsupply
      rw [copyPdes]
      simp only [he]
      cases hpres : present (entry m₀ parent i) with
      | false =>
          rw [hpres] at hsupply
          have hnew := hcopied.push (B := ∅) (fun _ _ => Set.disjoint_empty _)
            (fun _ => hempty i le_rfl hi) fun he => absurd (hpres.symm.trans he) Bool.false_ne_true
          refine ih hparent (by omega) (by omega) hfree hF hnew (fun j hj => ?_)
            (fun j hj => hempty j (by omega)) hsame (by simpa using hsupply)
          rcases Nat.lt_succ_iff_lt_or_eq.mp hj with hj | rfl
          · rw [Function.update_of_ne (by omega)]
            exact hA j hj
          · rw [Function.update_self]
            exact Set.empty_subset _
      | true =>
          have ⟨htblF, hdirect⟩ := hparent.table i h4 hi hpres
          have hpages := hparent.page i h4 hi hpres
          have hdvd := dvd_pteAddr (entry_lt m₀ parent i)
          generalize htbl : pteAddr (entry m₀ parent i) = tbl at *
          have hentry (j : ℕ) (hj : j < 1024) : entry s.mem tbl j = entry m₀ tbl j :=
            entry_congr hsame hdvd (fun h => htblF h.1) hj
          have hmapped := mappedEntries_congr hentry
          have hsupply' : Machine.Supplies s.direct (mappedEntries s.mem tbl 0 1024 +
              (framesNeeded m₀ parent (i + 1) n + rest) + 1) s.buddy := by
            rw [hpres, if_pos rfl] at hsupply
            rw [hmapped]
            convert hsupply using 1
            omega
          have hpages' (j : ℕ) (hj : j < 1024) (he : present (entry s.mem tbl j) = true) :
              pteAddr (entry s.mem tbl j) ∉ F ∧ s.direct (pteAddr (entry s.mem tbl j)) = true := by
            rw [hentry j hj] at he ⊢
            exact ⟨fun h => (hpages j hj he).1 (hF h).1, (hpages j hj he).2⟩
          obtain ⟨pt, t, b, m, F', hget, ht, hloop, hpt, hF', hfree', htable, hsame', hrest⟩ :=
            copyTable_spec hdvd (fun h => htblF (hF h).1) hpages' hfree hsupply'
          have hframept := hfree.isFrame hpt
          have hchildpt : child ≠ pt := fun heq => (hF hpt).2 heq.symm
          have hchildF : child ∉ F := fun h => (hF h).2 rfl
          generalize hm : setEntry m child i (pt ||| pteFlags (entry m₀ parent i)) = m'
          have hset : SameBut pageSize {child} m m' := hm ▸ sameBut_setEntry hframe.dvd rfl (by omega)
          have hF'F : F' ⊆ F := hF'.trans Set.sdiff_subset
          -- A byte of a frame that was taken before this round.
          have hbyte (p : ℕ) (hp : p ∉ F) (hpc : p ≠ child) (hpf : pageSize ∣ p) (o : ℕ) (ho : o < pageSize) :
              m' (p + o) = s.mem (p + o) := by
            rw [hset.byte hpf hpc ho, hsame'.byte hpf (fun h => hp h.1) ho]
          have hchildEntry (j : ℕ) (hj : j < 1024) (hji : j ≠ i) : entry m' child j = entry s.mem child j := by
            rw [← hm, entry_setEntry_of_ne hji, entry_congr hsame' hframe.dvd (fun h => hchildF h.1) hj]
          have hold : CopiedDir m₀ m' A parent child i := by
            refine hcopied.mono (fun j hj => hchildEntry j (by omega) (by omega)) fun j hj p hp hpf o ho => ?_
            have := hA j hj hp
            exact hbyte p this.2 this.1.2 hpf.dvd o ho
          have hnew : CopiedTable m₀ m' ((F \ F') \ {pt}) tbl pt 1024 := by
            have hmono : CopiedTable s.mem m' ((F \ F') \ {pt}) tbl pt 1024 := by
              refine htable.mono subset_rfl (fun j hj => ?_) fun p hp hpf o ho => ?_
              · exact entry_congr hset hframept.dvd hchildpt.symm hj
              · exact hset.byte hpf.dvd (fun heq => hchildF (heq ▸ hp.1.1)) ho
            refine hmono.source hentry fun j hj he o ho => ?_
            exact hsame.byte (dvd_pteAddr (entry_lt ..)) (fun h => (hpages j hj he).1 h.1) ho
          have hdir := hold.push (B := F \ F')
            (fun j hj => Set.disjoint_left.mpr fun p hp hp' => (hA j hj hp).2 hp'.1)
            (fun he => absurd (he.symm.trans hpres) Bool.false_ne_true)
            fun _ => ⟨pt, ⟨hpt, fun h => (hF' h).2 rfl⟩, hframept,
              by rw [← hm, entry_setEntry _ _ _ (hframept.or_lt _)], htbl ▸ hnew⟩
          simp only [hget, ht, hdirect, hloop, Bool.not_true, Bool.false_eq_true, if_false, hm]
          have hA' (j : ℕ) (hj : j < i + 1) :
              Function.update A i (F \ F') j ⊆ (F₀ \ {child}) \ F' := by
            rcases Nat.lt_succ_iff_lt_or_eq.mp hj with hj | rfl
            · rw [Function.update_of_ne (by omega)]
              exact (hA j hj).trans (Set.sdiff_subset_sdiff_right hF'F)
            · rw [Function.update_self]
              exact Set.sdiff_subset_sdiff_left hF
          have hempty' (j : ℕ) (hj : i + 1 ≤ j) (hj' : j < 768) : present (entry m' child j) = false := by
            rw [hchildEntry j (by omega) (by omega)]
            exact hempty j (by omega) hj'
          have hsame'' : SameBut pageSize (F₀ \ F') m₀ m' := by
            have hFF : F ⊆ F₀ := hF.trans Set.sdiff_subset
            refine ((hsame.mono (Set.sdiff_subset_sdiff_right hF'F)).trans
              (hsame'.mono (Set.sdiff_subset_sdiff_left hFF))).trans (hset.mono ?_)
            exact Set.singleton_subset_iff.mpr ⟨hchild, fun h => hchildF (hF'F h)⟩
          obtain ⟨b', m'', A', F'', hrec, hF'', hres⟩ := ih (s := { s with buddy := b, mem := m' })
            hparent (by omega) (by omega) hfree' (hF'F.trans hF) hdir hA' hempty' hsame'' hrest
          exact ⟨b', m'', A', F'', hrec, hF''.trans hF'F, hres⟩

/-! ## The kernel part -/

theorem copyKernelEntries_spec (hdst : pageSize ∣ dst) (hn : i + n ≤ 1024) :
    SameBut pageSize {dst} m (copyKernelEntries src dst n i m) ∧
      ∀ j, j < i ∨ i + n ≤ j → entry (copyKernelEntries src dst n i m) dst j = entry m dst j := by
  induction n generalizing i m with
  | zero => exact ⟨fun _ _ => rfl, fun _ _ => rfl⟩
  | succ n ih =>
      rw [copyKernelEntries]
      have ⟨hsame, hentry⟩ := ih (i := i + 1)
        (m := if present (entry m src i) then setEntry m dst i (entry m src i) else m) (by omega)
      constructor
      · refine SameBut.trans ?_ hsame
        split_ifs
        · exact sameBut_setEntry hdst rfl (by omega)
        · exact fun _ _ => rfl
      · intro j hj
        rw [hentry j (by omega)]
        split_ifs
        · exact entry_setEntry_of_ne (by omega) ..
        · rfl

/-- A new directory has no user entries. -/
theorem setupKvm_spec (hfree : FreeFrames P s.buddy F)
    (hsupply : Machine.Supplies s.direct (n + 1) s.buddy) :
    ∃ child b m, setupKvm s = some (some child, { s with buddy := b, mem := m }) ∧ child ∈ F ∧
      FreeFrames P b (F \ {child}) ∧ SameBut pageSize {child} s.mem m ∧
      (∀ i, 4 ≤ i → i < 768 → present (entry m child i) = false) ∧ Machine.Supplies s.direct n b := by
  obtain ⟨child, b, hget, hchild, hfree', hrest⟩ := Machine.getFreePage_spec hfree hsupply
  have hdvd := (hfree.isFrame hchild).dvd
  generalize hzero : copy pageSize s.mem child (fun _ => 0) 0 = m₁ at hget
  have h₁ : SameBut pageSize {child} s.mem m₁ := hzero ▸ .copy hdvd rfl le_rfl
  have ⟨hlow, hlowEntry⟩ := @copyKernelEntries_spec m₁ s.pageDirectory child 0 4 hdvd (by omega)
  generalize hm₂ : copyKernelEntries s.pageDirectory child 4 0 m₁ = m₂ at hlow hlowEntry
  have ⟨hhigh, hhighEntry⟩ := @copyKernelEntries_spec m₂ s.pageDirectory child 768 256 hdvd (by omega)
  generalize hm₃ : copyKernelEntries s.pageDirectory child 256 768 m₂ = m₃ at hhigh hhighEntry
  have hself : SameBut pageSize {child} m₃ (setEntry m₃ child 1023 (child ||| pteP ||| pteW ||| pteU)) :=
    sameBut_setEntry hdvd rfl (by omega)
  refine ⟨child, b, _, ?_, hchild, hfree', ((h₁.trans hlow).trans hhigh).trans hself, fun i hi hi' => ?_,
    hrest⟩
  · simp only [setupKvm, hget, hm₂, hm₃]
  · have hclear : entry m₁ child i = 0 := by
      rw [← hzero, entry, get_copy (by simp only [pageSize]; omega)]
      rfl
    rw [entry_setEntry_of_ne (by omega), hhighEntry i (.inl hi'), hlowEntry i (.inr hi), hclear]
    decide

/-! ## The copy -/

variable {pgdir child : ℕ}

/-- Changes to free frames are not seen in a directory in use. -/
theorem UserPart.congr (h : UserPart direct m F pgdir) (hsame : SameBut pageSize F m m') :
    UserPart direct m' F pgdir ∧ (∀ i < 1024, entry m' pgdir i = entry m pgdir i) ∧
      ∀ i, 4 ≤ i → i < 768 → present (entry m pgdir i) = true → ∀ j < 1024,
        entry m' (pteAddr (entry m pgdir i)) j = entry m (pteAddr (entry m pgdir i)) j := by
  have hdir (i : ℕ) (hi : i < 1024) : entry m' pgdir i = entry m pgdir i :=
    entry_congr hsame h.dvd h.inUse hi
  have htable (i : ℕ) (h4 : 4 ≤ i) (hi : i < 768) (he : present (entry m pgdir i) = true) (j : ℕ)
      (hj : j < 1024) :
      entry m' (pteAddr (entry m pgdir i)) j = entry m (pteAddr (entry m pgdir i)) j :=
    entry_congr hsame (dvd_pteAddr (entry_lt ..)) (h.table i h4 hi he).1 hj
  refine ⟨⟨h.dvd, h.inUse, h.reached, fun i h4 hi he => ?_, fun i h4 hi he j hj hpte => ?_⟩, hdir, htable⟩
  · rw [hdir i (by omega)] at he ⊢
    exact h.table i h4 hi he
  · rw [hdir i (by omega)] at he hpte ⊢
    rw [htable i h4 hi he j hj] at hpte ⊢
    exact h.page i h4 hi he j hj hpte

theorem UserPart.framesNeeded_congr (h : UserPart direct m F pgdir) (hsame : SameBut pageSize F m m') :
    framesNeeded m' pgdir 4 764 = framesNeeded m pgdir 4 764 := by
  obtain ⟨-, hdir, htable⟩ := h.congr hsame
  refine congrArg List.sum (List.map_congr_left fun i hi => ?_)
  have ⟨h4, hi⟩ := List.mem_range'_1.mp hi
  rw [hdir i (by omega)]
  split_ifs with he
  · rw [mappedEntries_congr (htable i h4 hi he)]
  · rfl

theorem UserPart.copied_source {A : ℕ → Set ℕ} (h : UserPart direct m F pgdir)
    (hsame : SameBut pageSize F m m₀) (hcopied : CopiedDir m₀ m' A pgdir dst 768) :
    CopiedDir m m' A pgdir dst 768 := by
  obtain ⟨-, hdir, htable⟩ := h.congr hsame
  refine ⟨fun i h4 hi he => ?_, fun i h4 hi he => ?_, hcopied.apart⟩
  · exact hcopied.absent i h4 hi (by rwa [hdir i (by omega)])
  · obtain ⟨pt, hpt, hframe, hdst, hcopy⟩ := hcopied.table i h4 hi (by rwa [hdir i (by omega)])
    rw [hdir i (by omega)] at hdst hcopy
    refine ⟨pt, hpt, hframe, hdst, hcopy.source (htable i h4 hi he) fun j hj hpte o ho => ?_⟩
    exact hsame.byte (dvd_pteAddr (entry_lt ..)) (h.page i h4 hi he j hj hpte).1 ho

/-- With memory for all its frames a copy is made, and only free frames have changed. -/
theorem vmmCopyPgdir_spec {need : ℕ} (hparent : UserPart s.direct s.mem F pgdir)
    (hfree : FreeFrames P s.buddy F) (hneed : framesNeeded s.mem pgdir 4 764 = need)
    (hsupply : Machine.Supplies s.direct (need + 1) s.buddy) :
    ∃ child b m A, vmmCopyPgdir s pgdir = some (some child, { s with buddy := b, mem := m }) ∧
      child ∈ F ∧ (∀ i < 768, A i ⊆ F \ {child}) ∧ CopiedDir s.mem m A pgdir child 768 ∧
      SameBut pageSize F s.mem m := by
  obtain ⟨child, b, m₀, hsetup, hchild, hfree', hsame, hempty, hrest⟩ := setupKvm_spec hfree hsupply
  have hframe := hfree.isFrame hchild
  have hsameF : SameBut pageSize F s.mem m₀ := hsame.mono (Set.singleton_subset_iff.mpr hchild)
  obtain ⟨hparent', -⟩ := hparent.congr hsameF
  have hcost : framesNeeded m₀ pgdir 4 764 + 0 = need := by
    rw [hparent.framesNeeded_congr hsameF, hneed, Nat.add_zero]
  have hnone : CopiedDir m₀ m₀ (fun _ => ∅) pgdir child 4 :=
    ⟨fun i h4 hi => by omega, fun i h4 hi => by omega, fun _ _ _ _ _ => Set.disjoint_empty _⟩
  obtain ⟨b', m, A, F', hloop, hF', -, hcopied, hA, hsame'⟩ :=
    copyPdes_spec (s := { s with buddy := b, mem := m₀ }) hparent' hchild hframe le_rfl
      (show 4 + 764 = 768 from rfl) hfree' subset_rfl hnone (fun _ _ => Set.empty_subset _) hempty
      (fun _ _ => rfl) (hcost.symm ▸ hrest)
  refine ⟨child, b', m, A, ?_, hchild, fun i hi => (hA i hi).trans Set.sdiff_subset,
    hparent.copied_source hsameF hcopied, hsameF.trans (hsame'.mono Set.sdiff_subset)⟩
  simp only [vmmCopyPgdir, hsetup, hparent.reached, Bool.not_true, Bool.false_eq_true, if_false]
  exact hloop

end Ferrite.Sys
