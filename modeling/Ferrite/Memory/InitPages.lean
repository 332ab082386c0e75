import Ferrite.Memory.Heap
import Ferrite.Memory.MapPage

/-!
# The direct map

`vmm_init_pages` fills one page table for each 4 MiB of physical memory and enters it
twice in the directory, at the physical addresses and at `KERNBASE`. The last table may
be filled in part. Behind them come the directory itself, and the scratch page.
-/
namespace Ferrite.Memory
open BuddyAllocator Packed Pages Word

/-- `PAGE_SIZE * 1024`, what one page table maps. -/
def tableSpan : ℕ := 0x400000

/-- The inner loop of `vmm_init_pages` over `n` entries from `i` on. -/
def fillLoop (pt paddr memoryToMap : ℕ) : ℕ → ℕ → Bytes → Bytes
  | 0, _, mem => mem
  | n + 1, i, mem =>
      let pagePhysAddr := wadd paddr (i * pageSize)
      let pte := if pagePhysAddr < memoryToMap then pagePhysAddr ||| pteP ||| pteW ||| pteU else 0
      fillLoop pt paddr memoryToMap n (i + 1) (setEntry mem pt i pte)

namespace Vmm
variable (s : Vmm)

/-- The outer loop of `vmm_init_pages`. There are no more than 1024 rounds. -/
def initLoop (memoryToMap : ℕ) : ℕ → ℕ → Vmm → Option Vmm
  | 0, _, _ => none
  | fuel + 1, paddr, s =>
      if paddr < memoryToMap then
        let r := memblock s.boot pageSize
        if r.1 = 0 then none
        else if !s.direct r.1 then none
        else
          let mem := fillLoop r.1 paddr memoryToMap 1024 0 s.mem
          let mem := setEntry mem s.pageDirectory (wadd kernBase paddr / tableSpan)
            (r.1 ||| pteP ||| pteW ||| pteU)
          let mem := setEntry mem s.pageDirectory (paddr / tableSpan) (r.1 ||| pteP ||| pteW ||| pteU)
          initLoop memoryToMap fuel (wadd paddr tableSpan) { s with mem := mem, boot := r.2 }
      else some s

/-- `memory_to_map` for the RAM size that the page bitmap stands for. -/
def memoryToMap (bitmapLen : ℕ) : ℕ :=
  let totalRam := bitmapLen * pageSize * 8 % word
  if totalRam < zoneNormal then totalRam else zoneNormal

def vmmInitPages (bitmapLen : ℕ) : Option Vmm := do
  let s := { s with mem := copy pageSize s.mem s.pageDirectory (fun _ => 0) 0 }
  let s ← initLoop (memoryToMap bitmapLen) 1024 0 s
  let s := { s with
    mem := setEntry s.mem s.pageDirectory 1023 (s.pageDirectory ||| pteP ||| pteW)
    cr3 := s.pageDirectory }
  let r := memblock s.boot pageSize
  if r.1 = 0 then none
  else
    let (ret, s) ← vmmMapPage { s with boot := r.2 } r.1 scratchVaddr (pteW ||| pteU)
    if ret < 0 then none else return s

end Vmm

/-! ## One page table -/

variable {m m₀ m' : Bytes} {pt paddr limit n i j k dir : ℕ} {s t : Vmm}

/-- The entry for a page of the direct map. -/
def directEntry (limit page : ℕ) : ℕ := if page < limit then page ||| pteFlags 7 else 0

theorem or_all (p : ℕ) : p ||| pteP ||| pteW ||| pteU = p ||| pteFlags 7 := by
  rw [Nat.or_assoc, Nat.or_assoc]
  rfl

theorem directEntry_lt {page : ℕ} (hlimit : limit < word) : directEntry limit page < word := by
  unfold directEntry
  split_ifs with h
  · exact Vmm.or_lt_word (h.trans hlimit) 7
  · decide

/-- The loop fills the entries from `i` on and leaves those in front. -/
theorem fillLoop_spec (hpt : pageSize ∣ pt) (hlimit : limit < word) (hpaddr : paddr + tableSpan ≤ word)
    (hn : i + n = 1024) : SameBut pageSize {pt} m (fillLoop pt paddr limit n i m) ∧
      ∀ j < 1024, entry (fillLoop pt paddr limit n i m) pt j =
        if i ≤ j then directEntry limit (paddr + j * pageSize) else entry m pt j := by
  induction n generalizing i m with
  | zero =>
      refine ⟨fun _ _ => rfl, fun j hj => ?_⟩
      rw [if_neg (by omega)]
      rfl
  | succ n ih =>
      have hwrap : wadd paddr (i * pageSize) = paddr + i * pageSize := by
        apply wadd_of_lt
        unfold tableSpan at hpaddr
        unfold pageSize
        omega
      unfold fillLoop
      dsimp only
      rw [hwrap, or_all]
      change SameBut pageSize {pt} m
        (fillLoop pt paddr limit n (i + 1) (setEntry m pt i (directEntry limit _))) ∧
        ∀ j < 1024, entry (fillLoop pt paddr limit n (i + 1) (setEntry m pt i (directEntry limit _))) pt j = _
      obtain ⟨hsame, hentry⟩ := @ih (setEntry m pt i (directEntry limit (paddr + i * pageSize)))
          (i + 1) (by omega)
      refine ⟨(sameBut_setEntry hpt (Set.mem_singleton pt) (by omega)).trans hsame, fun j hj => ?_⟩
      rw [hentry j hj]
      by_cases hij : j = i
      · subst hij
        rw [if_neg (by omega), if_pos le_rfl, entry_setEntry _ _ _ (directEntry_lt hlimit)]
      · rw [entry_setEntry_of_ne hij]
        by_cases hle : i ≤ j
        · rw [if_pos (by omega), if_pos hle]
        · rw [if_neg (by omega), if_neg hle]

/-! ## All tables -/

/-- The page table of round `k`. -/
def tableAt (first k : ℕ) : ℕ := first + k * pageSize

/-- The memory after `k` rounds: the tables from `first` on are filled, and hang at two
places of the directory; nothing else has changed. -/
structure Filled (m₀ m : Bytes) (dir first limit k : ℕ) : Prop where
  low : ∀ a < k, entry m dir a = tableAt first a ||| pteFlags 7
  high : ∀ a < k, entry m dir (768 + a) = tableAt first a ||| pteFlags 7
  rest : ∀ i < 1024, ¬ i < k → ¬ (768 ≤ i ∧ i < 768 + k) → entry m dir i = 0
  table : ∀ a < k, ∀ j < 1024, entry m (tableAt first a) j = directEntry limit (a * tableSpan + j * pageSize)
  same : SameBut pageSize {p | p = dir ∨ ∃ a < k, p = tableAt first a} m₀ m

/-- What the boot phase has to provide for `n` page tables and two pages more: pages that
the first page tables reach, behind the directory. -/
structure Enough (s : Vmm) (n : ℕ) : Prop where
  nextFree : pageSize ∣ s.boot.nextFree
  heapEnd : 8 * pageSize ∣ s.boot.heapEnd
  fits : s.boot.nextFree + (n + 2) * pageSize ≤ s.boot.heapEnd
  dir : pageSize ∣ s.pageDirectory
  behind : s.pageDirectory < s.boot.nextFree
  direct : ∀ k < n, s.direct (tableAt s.boot.nextFree k) = true
  active : s.memblockIsActive = true
  empty : ∀ k, s.buddy.freeLists k = 0

theorem tableAt_inj {first a b : ℕ} : tableAt first a = tableAt first b ↔ a = b := by
  unfold tableAt pageSize
  omega

theorem tableAt_le {first a b : ℕ} (h : a ≤ b) : tableAt first a ≤ tableAt first b :=
  Nat.add_le_add_left (Nat.mul_le_mul_right pageSize h) first

theorem tableAt_succ (first k : ℕ) : tableAt first (k + 1) = tableAt first k + pageSize := by
  rw [tableAt, tableAt, Nat.add_one_mul, Nat.add_assoc]

/-- One round: a table is filled and entered twice. -/
theorem Filled.step {first : ℕ} (h : Filled m₀ m dir first limit k) (hdir : pageSize ∣ dir)
    (hfirst : pageSize ∣ first)
    (hne : dir < first) (hk : k < 224) (hlimit : limit < word) (hlt : tableAt first k < word) :
    Filled m₀ (setEntry (setEntry (fillLoop (tableAt first k) (k * tableSpan) limit 1024 0 m) dir (768 + k)
      (tableAt first k ||| pteFlags 7)) dir k (tableAt first k ||| pteFlags 7)) dir first limit (k + 1) := by
  have hdvd (a : ℕ) : pageSize ∣ tableAt first a := Nat.dvd_add hfirst (Dvd.intro_left _ rfl)
  have hdirne (a : ℕ) : dir ≠ tableAt first a := by
    unfold tableAt
    omega
  have hframe : IsFrame (tableAt first k) := ⟨hdvd k, hlt⟩
  obtain ⟨hfillSame, hfill⟩ := @fillLoop_spec m (tableAt first k) (k * tableSpan) limit 1024 0 (hdvd k) hlimit
    (by unfold tableSpan word; omega) (by omega)
  generalize fillLoop (tableAt first k) (k * tableSpan) limit 1024 0 m = m₁ at *
  generalize he : tableAt first k ||| pteFlags 7 = e
  have hlte : e < word := he ▸ hframe.or_lt 7
  generalize hm₂ : setEntry m₁ dir (768 + k) e = m₂
  generalize hm₃ : setEntry m₂ dir k e = m₃
  have hsame₂ : SameBut pageSize {dir} m₁ m₂ := hm₂ ▸ sameBut_setEntry hdir (Set.mem_singleton dir) (by omega)
  have hsame₃ : SameBut pageSize {dir} m₂ m₃ := hm₃ ▸ sameBut_setEntry hdir (Set.mem_singleton dir) (by omega)
  have hdirEntry (i : ℕ) (hi : i < 1024) : entry m₃ dir i = if i = k ∨
      i = 768 + k then e else entry m dir i := by
    rw [← hm₃]
    by_cases hik : i = k
    · rw [hik, entry_setEntry _ _ _ hlte, if_pos (.inl rfl)]
    · rw [entry_setEntry_of_ne hik, ← hm₂]
      by_cases hik' : i = 768 + k
      · rw [hik', entry_setEntry _ _ _ hlte, if_pos (.inr rfl)]
      · rw [entry_setEntry_of_ne hik', if_neg (by tauto)]
        exact entry_congr hfillSame hdir (hdirne k) hi
  constructor
  · intro a ha
    rw [hdirEntry a (by omega)]
    by_cases hak : a = k
    · rw [if_pos (.inl hak), ← he, hak]
    · rw [if_neg (by omega)]
      exact h.low a (by omega)
  · intro a ha
    rw [hdirEntry (768 + a) (by omega)]
    by_cases hak : a = k
    · rw [if_pos (.inr (by rw [hak])), ← he, hak]
    · rw [if_neg (by omega)]
      exact h.high a (by omega)
  · intro i hi hlow hhigh
    rw [hdirEntry i hi, if_neg (by omega)]
    exact h.rest i hi (by omega) (by omega)
  · intro a ha j hj
    rw [entry_congr hsame₃ (hdvd a) (Ne.symm (hdirne a)) hj,
      entry_congr hsame₂ (hdvd a) (Ne.symm (hdirne a)) hj]
    by_cases hak : a = k
    · rw [hak, hfill j hj, if_pos (Nat.zero_le j)]
    · rw [entry_congr hfillSame (hdvd a) (fun heq => hak (tableAt_inj.mp heq)) hj]
      exact h.table a (by omega) j hj
  · have hold : {p | p = dir ∨ ∃ a < k, p = tableAt first a} ⊆
        {p | p = dir ∨ ∃ a < k + 1, p = tableAt first a} := by
      rintro p (hp | ⟨a, ha, hp⟩)
      · exact .inl hp
      · exact .inr ⟨a, by omega, hp⟩
    have htable : ({tableAt first k} : Set ℕ) ⊆ {p | p = dir ∨ ∃ a < k + 1, p = tableAt first a} :=
      Set.singleton_subset_iff.mpr (.inr ⟨k, by omega, rfl⟩)
    have hdirs : ({dir} : Set ℕ) ⊆ {p | p = dir ∨ ∃ a < k + 1, p = tableAt first a} :=
      Set.singleton_subset_iff.mpr (.inl rfl)
    exact (((h.same.mono hold).trans (hfillSame.mono htable)).trans (hsame₂.mono hdirs)).trans
      (hsame₃.mono hdirs)

/-- The number of page tables for the direct map. -/
def tablesFor (limit : ℕ) : ℕ := (limit + (tableSpan - 1)) / tableSpan

theorem lt_tablesFor : k < tablesFor limit ↔ k * tableSpan < limit := by
  unfold tablesFor tableSpan
  omega

-- Otherwise `omega` unfolds the division when it compares two terms.
attribute [irreducible] tablesFor

theorem memblock_eq {b : Memblock} (hfree : pageSize ∣ b.nextFree) (hend : 8 * pageSize ∣ b.heapEnd)
    (hpos : 0 < b.nextFree)
    (hfits : b.nextFree + pageSize ≤ b.heapEnd) : (memblock b pageSize).1 = b.nextFree ∧
      (memblock b pageSize).2.nextFree = b.nextFree + pageSize ∧ (memblock b pageSize).2.heapEnd
        = b.heapEnd := by
  have hlt := b.lt
  have hne : (memblock b pageSize).1 ≠ 0 := by
    unfold memblock
    rw [if_neg (by decide), dif_pos (by rw [wadd_of_lt (by omega)]; exact hfits)]
    dsimp only
    omega
  obtain ⟨heq, -, hnext, hheap⟩ := memblock_page hfree hend hne
  exact ⟨heq, hnext, hheap⟩

/-- The loop over the page tables, from round `k` on. -/
theorem initLoop_spec {fuel first : ℕ} (hlimit : limit ≤ zoneNormal) (hk : k ≤ tablesFor limit)
    (hfuel : tablesFor limit < fuel + k) (h : Filled m₀ s.mem s.pageDirectory first limit k)
    (hdir : pageSize ∣ s.pageDirectory)
    (hfirst : pageSize ∣ first) (hbehind : s.pageDirectory < first) (hnext : s.boot.nextFree = tableAt first k)
    (hend : 8 * pageSize ∣ s.boot.heapEnd) (hfits : tableAt first (tablesFor limit) ≤ s.boot.heapEnd)
    (hdirect : ∀ a < tablesFor limit, s.direct (tableAt first a) = true) :
    ∃ t, Vmm.initLoop limit fuel (k * tableSpan) s = some t ∧ Filled m₀ t.mem s.pageDirectory first limit
      (tablesFor limit) ∧
      t = { s with mem := t.mem, boot := t.boot } ∧ t.boot.nextFree = tableAt first (tablesFor limit) ∧
      t.boot.heapEnd = s.boot.heapEnd := by
  induction fuel generalizing k s with
  | zero => omega
  | succ fuel ih =>
      unfold Vmm.initLoop
      by_cases hmore : k * tableSpan < limit
      · have hkn := lt_tablesFor.mpr hmore
        have hk224 : k < 224 := by
          unfold zoneNormal at hlimit
          unfold tableSpan at hmore
          omega
        have hlt := s.boot.lt
        have hroom : tableAt first k + pageSize ≤ s.boot.heapEnd := by
          rw [← tableAt_succ]
          exact (tableAt_le hkn).trans hfits
        have hdvd : pageSize ∣ s.boot.nextFree := by
          rw [hnext]
          exact Nat.dvd_add hfirst (Dvd.intro_left _ rfl)
        have hpos : 0 < s.boot.nextFree := by
          rw [hnext]
          unfold tableAt
          omega
        obtain ⟨hpt, hnext', hend'⟩ := memblock_eq hdvd hend hpos (by rw [hnext]; exact hroom)
        rcases hr : memblock s.boot pageSize with ⟨pt, boot⟩
        rw [hr] at hpt hnext' hend'
        dsimp only at hpt hnext' hend'
        have hne : pt ≠ 0 := by omega
        have hlast : wadd kernBase (k * tableSpan) / tableSpan = 768 + k := by
          rw [wadd_of_lt (by unfold kernBase tableSpan word; omega)]
          unfold kernBase tableSpan
          omega
        have hfirst' : k * tableSpan / tableSpan = k := Nat.mul_div_cancel k (by decide)
        have hspan : wadd (k * tableSpan) tableSpan = (k + 1) * tableSpan := by
          rw [wadd_of_lt (by unfold tableSpan word; omega)]
          ring
        rw [if_pos hmore]
        dsimp only
        rw [if_neg hne, hpt, hnext, hdirect k hkn, if_neg (by simp), or_all, hlast, hfirst', hspan]
        have hstep := h.step hdir hfirst hbehind hk224 (hlimit.trans_lt (by decide)) (by omega)
        generalize setEntry (setEntry (fillLoop (tableAt first k) (k * tableSpan) limit 1024 0 s.mem)
          s.pageDirectory (768 + k)
          (tableAt first k ||| pteFlags 7)) s.pageDirectory k (tableAt first k ||| pteFlags 7) = m₁ at hstep ⊢
        have hnext₁ : boot.nextFree = tableAt first (k + 1) := by
          rw [hnext', hnext, tableAt_succ]
        have hfuel' : tablesFor limit < fuel + (k + 1) := by omega
        have hend₁ : 8 * pageSize ∣ boot.heapEnd := by
          rw [hend']
          exact hend
        have hfits₁ : tableAt first (tablesFor limit) ≤ boot.heapEnd := by
          rw [hend']
          exact hfits
        obtain ⟨t, ht, hfilled, hrest, hnext₂, hend₂⟩ :=
          @ih (k + 1) { s with mem := m₁, boot := boot }
            (Nat.succ_le_of_lt hkn) hfuel' hstep hdir hbehind hnext₁ hend₁
            hfits₁ hdirect
        refine ⟨t, ht, hfilled, ?_, hnext₂, ?_⟩
        · exact hrest
        · exact hend₂.trans hend'
      · have hkn : k = tablesFor limit := by
          have hnot : ¬ k < tablesFor limit := fun hlt => hmore (lt_tablesFor.mp hlt)
          omega
        rw [if_neg hmore]
        exact ⟨s, rfl, hkn ▸ h, rfl, hkn ▸ hnext, rfl⟩

/-! ## The finished directory -/

/-- The physical address that the processor finds. -/
def physical (mem : Bytes) (pgdir vaddr : ℕ) : Option ℕ :=
  (walk mem pgdir vaddr).map fun e => pteAddr e + vaddr % pageSize

/-- The entries of the directory that `vmm_init_pages` leaves, with `n` tables from `first`
on, the scratch page and its table behind them. -/
structure Finished (m : Bytes) (dir first limit : ℕ) : Prop where
  low : ∀ a < tablesFor limit, entry m dir a = tableAt first a ||| pteFlags 7
  high : ∀ a < tablesFor limit, entry m dir (768 + a) = tableAt first a ||| pteFlags 7
  scratch : entry m dir 1022 = tableAt first (tablesFor limit + 1) ||| pteFlags 7
  own : entry m dir 1023 = dir ||| pteFlags 3
  rest : ∀ i < 1022, ¬ i < tablesFor limit → ¬ (768 ≤ i ∧ i < 768 + tablesFor limit) → entry m dir i = 0
  table : ∀ a < tablesFor limit, ∀ j < 1024,
    entry m (tableAt first a) j = directEntry limit (a * tableSpan + j * pageSize)
  scratchTable : ∀ j < 1024, entry m (tableAt first (tablesFor limit + 1)) j =
    if j = 1023 then tableAt first (tablesFor limit) ||| pteFlags 7 else 0

section finished
variable {first q : ℕ}

theorem tablesFor_le (h : limit ≤ zoneNormal) : tablesFor limit ≤ 224 := by
  unfold tablesFor tableSpan
  unfold zoneNormal at h
  omega

/-- A page of a table of the direct map. -/
theorem walk_direct {e a : ℕ} (hdvd : pageSize ∣ tableAt first a) (hlt : tableAt first a < word)
    (hlimit : limit < word) (hpde : entry m dir (pdIndex q) = tableAt first a ||| pteFlags 7)
    (hpte : entry m (tableAt first a) (ptIndex q) = directEntry limit e) (he : pageSize ∣ e) :
    walk m dir q = if e < limit then some (e ||| pteFlags 7) else none := by
  have hframe : IsFrame (tableAt first a) := ⟨hdvd, hlt⟩
  rw [walk_small (by rw [hpde]; exact hframe.present 7) (by rw [hpde, hframe.large]; rfl), hpde,
    hframe.pteAddr, hpte]
  unfold directEntry
  by_cases hin : e < limit
  · have hpage : IsFrame e := ⟨he, hin.trans hlimit⟩
    rw [if_pos hin, if_pos hin, hpage.present]
    rfl
  · rw [if_neg hin, if_neg hin]
    rfl

theorem page_sum (q : ℕ) : pdIndex q * tableSpan + ptIndex q * pageSize + q % pageSize = q := by
  unfold pdIndex ptIndex tableSpan pageSize
  omega

theorem dvd_page (a j : ℕ) : pageSize ∣ a * tableSpan + j * pageSize :=
  Nat.dvd_add (Dvd.dvd.mul_left (by decide) a) (Dvd.intro_left _ rfl)

namespace Finished
variable (h : Finished m dir first limit) (hlimit : limit ≤ zoneNormal) (hdvd : pageSize ∣ first)
  (hlt : tableAt first (tablesFor limit + 1) < word)
include h hlimit hdvd hlt

/-- Both places of the directory where a table hangs. -/
theorem walk_table {base : ℕ} (hbase : base = 0 ∨ base = 768) (hlo : base ≤ pdIndex q)
    (hhi : pdIndex q < base + tablesFor limit) :
    walk m dir q =
      if (pdIndex q - base) * tableSpan + ptIndex q * pageSize < limit then
        some ((pdIndex q - base) * tableSpan + ptIndex q * pageSize ||| pteFlags 7) else none := by
  have ha : pdIndex q - base < tablesFor limit := by omega
  have hdir : entry m dir (pdIndex q) = tableAt first (pdIndex q - base) ||| pteFlags 7 := by
    rcases hbase with rfl | rfl
    · exact h.low _ ha
    · rw [← h.high _ ha, show 768 + (pdIndex q - 768) = pdIndex q by omega]
  have hpage : tableAt first (pdIndex q - base) < word := (tableAt_le (by omega)).trans_lt hlt
  exact walk_direct (Nat.dvd_add hdvd (Dvd.intro_left _ rfl)) hpage (hlimit.trans_lt (by decide)) hdir
    (h.table _ ha _ (ptIndex_lt q)) (dvd_page _ _)

theorem physical_table {base p : ℕ} (hbase : base = 0 ∨ base = 768) (hp : p < limit) :
    physical m dir (base * tableSpan + p) = some p := by
  have hpd : pdIndex (base * tableSpan + p) = base + pdIndex p := by
    unfold pdIndex tableSpan
    omega
  have hpt : ptIndex (base * tableSpan + p) = ptIndex p := by
    unfold ptIndex tableSpan
    omega
  have hmod : (base * tableSpan + p) % pageSize = p % pageSize := by
    unfold tableSpan pageSize
    omega
  have hsum := page_sum p
  have hin : pdIndex p < tablesFor limit := lt_tablesFor.mpr (by omega)
  have hframe : IsFrame (pdIndex p * tableSpan + ptIndex p * pageSize) := by
    refine ⟨dvd_page _ _, ?_⟩
    have : limit < word := hlimit.trans_lt (by decide)
    omega
  unfold physical
  rw [h.walk_table hlimit hdvd hlt hbase (by omega) (by omega), hpd, hpt, Nat.add_sub_cancel_left,
    if_pos (by omega), hmod,
    Option.map_some, hframe.pteAddr, hsum]

omit hlimit in
theorem walk_scratch : walk m dir scratchVaddr = some (tableAt first (tablesFor limit) ||| pteFlags 7) := by
  have hframe : IsFrame (tableAt first (tablesFor limit + 1)) := ⟨Nat.dvd_add hdvd (Dvd.intro_left _ rfl), hlt⟩
  have hpage : IsFrame (tableAt first (tablesFor limit)) :=
    ⟨Nat.dvd_add hdvd (Dvd.intro_left _ rfl), (tableAt_le (Nat.le_succ _)).trans_lt hlt⟩
  have hpd : pdIndex scratchVaddr = 1022 := by decide
  have hpt : ptIndex scratchVaddr = 1023 := by decide
  have hpde := h.scratch
  have hpte := h.scratchTable 1023 (by omega)
  rw [if_pos rfl] at hpte
  rw [walk_small (by rw [hpd, hpde]; exact hframe.present 7)
    (by rw [hpd, hpde, hframe.large]; rfl), hpd, hpt, hpde,
    hframe.pteAddr, hpte, hpage.present]
  exact if_pos rfl

/-- Everything else is unmapped. -/
theorem walk_none (hwhole : pageSize ∣ limit) (hq : q < word) (hlow : ¬ q < limit)
    (hhigh : ¬ (kernBase ≤ q ∧ q < kernBase + limit)) (hscratch : q / pageSize ≠ scratchVaddr / pageSize)
    (hwindow : pdIndex q ≠ 1023) : walk m dir q = none := by
  have hn := tablesFor_le hlimit
  have hsum := page_sum q
  have hmod := Nat.mod_lt q pageSize_pos
  have hi := pdIndex_lt hq
  obtain ⟨w, rfl⟩ := hwhole
  by_cases hlo : pdIndex q < tablesFor (pageSize * w)
  · rw [h.walk_table hlimit hdvd hlt (.inl rfl) (Nat.zero_le _) (by omega), if_neg]
    intro hin
    apply hlow
    unfold pageSize tableSpan at *
    omega
  · by_cases hhi : 768 ≤ pdIndex q ∧ pdIndex q < 768 + tablesFor (pageSize * w)
    · rw [h.walk_table hlimit hdvd hlt (.inr rfl) hhi.1 hhi.2, if_neg]
      intro hin
      apply hhigh
      unfold pageSize tableSpan at *
      unfold kernBase
      omega
    · by_cases hlast : pdIndex q = 1022
      · have hframe : IsFrame (tableAt first (tablesFor (pageSize * w) + 1)) :=
            ⟨Nat.dvd_add hdvd (Dvd.intro_left _ rfl), hlt⟩
        have hpde : entry m dir (pdIndex q) = tableAt first (tablesFor (pageSize * w) + 1) ||| pteFlags 7 := by
          rw [hlast]
          exact h.scratch
        have hj : ptIndex q ≠ 1023 := by
          intro hj
          exact hscratch ((page_eq_iff _ _).mpr ⟨hlast, hj⟩)
        rw [walk_small (by rw [hpde]; exact hframe.present 7) (by rw [hpde, hframe.large]; rfl),
          hpde, hframe.pteAddr,
          h.scratchTable _ (ptIndex_lt q), if_neg hj]
        rfl
      · apply Memory.walk_none
        rw [h.rest _ (by omega) hlo hhi]
        rfl

end Finished
end finished

/-! ## `vmm_init_pages` -/

/-- The last three entries behind the filled tables. -/
theorem Filled.finish {first : ℕ} (h : Filled m₀ m dir first limit (tablesFor limit))
    (hlimit : limit ≤ zoneNormal)
    (hdir : IsFrame dir) (hfirst : pageSize ∣ first) (hne : dir < first)
    (hlt : tableAt first (tablesFor limit + 1) < word) :
    Finished (Vmm.withTable (setEntry m dir 1023 (dir ||| pteFlags 3)) dir 1022
      (tableAt first (tablesFor limit + 1)) 1023
      (tableAt first (tablesFor limit) ||| pteFlags 7)) dir first limit := by
  have hn := tablesFor_le hlimit
  have hdvd (a : ℕ) : pageSize ∣ tableAt first a := Nat.dvd_add hfirst (Dvd.intro_left _ rfl)
  have hdirne (a : ℕ) : dir ≠ tableAt first a := by
    unfold tableAt
    omega
  have hframe : IsFrame (tableAt first (tablesFor limit + 1)) := ⟨hdvd _, hlt⟩
  have hpage : IsFrame (tableAt first (tablesFor limit)) := ⟨hdvd _, (tableAt_le (Nat.le_succ _)).trans_lt hlt⟩
  generalize hm₁ : setEntry m dir 1023 (dir ||| pteFlags 3) = m₁
  have hsame : SameBut pageSize {dir} m m₁ := hm₁ ▸ sameBut_setEntry hdir.dvd (Set.mem_singleton dir) (by omega)
  have hold (i : ℕ) (hi : i < 1022) :
      entry (Vmm.withTable m₁ dir 1022 (tableAt first (tablesFor limit + 1)) 1023
      (tableAt first (tablesFor limit) ||| pteFlags 7)) dir i = entry m dir i := by
    rw [Vmm.withTable_other hframe hdir.dvd (hdirne _) (by omega) (by omega),
      entry_setEntry_of_ne (by omega), ← hm₁,
      entry_setEntry_of_ne (by omega)]
  constructor
  · intro a ha
    rw [hold a (by omega)]
    exact h.low a ha
  · intro a ha
    rw [hold (768 + a) (by omega)]
    exact h.high a ha
  · rw [Vmm.withTable_other hframe hdir.dvd (hdirne _) (by omega) (by omega),
      entry_setEntry _ _ _ (hframe.or_lt 7)]
  · rw [Vmm.withTable_other hframe hdir.dvd (hdirne _) (by omega) (by omega),
      entry_setEntry_of_ne (by omega), ← hm₁,
      entry_setEntry _ _ _ (hdir.or_lt 3)]
  · intro i hi hlow hhigh
    rw [hold i hi]
    exact h.rest i (by omega) hlow hhigh
  · intro a ha j hj
    have hother : tableAt first a ≠ tableAt first (tablesFor limit + 1) := by
      rw [Ne, tableAt_inj]
      omega
    rw [Vmm.withTable_other hframe (hdvd a) hother hj (by omega),
      entry_setEntry_other (hdvd a) hdir.dvd hj (by omega) (.inl (Ne.symm (hdirne a))),
      entry_congr hsame (hdvd a) (Ne.symm (hdirne a)) hj]
    exact h.table a ha j hj
  · intro j hj
    rw [Vmm.withTable_own (hpage.or_lt 7) hj]

/-- What `vmm_init_pages` has made of the machine `s`: the direct map at both places, the
directory at its last entry and the scratch page, in memory that `memblock` handed out. -/
structure DirectMap (s t : Vmm) (limit : ℕ) : Prop where
  loaded : t.cr3 = s.pageDirectory
  low : ∀ p < limit, physical t.mem t.cr3 p = some p
  high : ∀ p < limit, physical t.mem t.cr3 (kernBase + p) = some p
  own : present (entry t.mem t.cr3 1023) = true ∧ pteAddr (entry t.mem t.cr3 1023) = t.cr3
  scratch : physical t.mem t.cr3 scratchVaddr = some (tableAt s.boot.nextFree (tablesFor limit))
  unmapped : ∀ q < word, ¬ q < limit → ¬ (kernBase ≤ q ∧ q < kernBase + limit) →
    q / pageSize ≠ scratchVaddr / pageSize → pdIndex q ≠ 1023 → walk t.mem t.cr3 q = none
  tables : ∀ a < tablesFor limit, pteAddr (entry t.mem t.cr3 a) = tableAt s.boot.nextFree a ∧
    pteAddr (entry t.mem t.cr3 (768 + a)) = tableAt s.boot.nextFree a
  scratchTable : pteAddr (entry t.mem t.cr3 1022) = tableAt s.boot.nextFree (tablesFor limit + 1)
  span : ∀ a < tablesFor limit, ∀ j < 1024, present (entry t.mem (tableAt s.boot.nextFree a) j) = true →
    pteAddr (entry t.mem (tableAt s.boot.nextFree a) j) = a * tableSpan + j * pageSize
  taken : t.boot.nextFree = tableAt s.boot.nextFree (tablesFor limit + 2)
  frame : SameBut pageSize
    {p | p = t.cr3 ∨ ∃ a < tablesFor limit + 2, p = tableAt s.boot.nextFree a} s.mem t.mem

theorem memoryToMap_le (bitmapLen : ℕ) : Vmm.memoryToMap bitmapLen ≤ zoneNormal := by
  unfold Vmm.memoryToMap
  dsimp only
  split_ifs with h
  · exact h.le
  · exact le_rfl

theorem memoryToMap_eq {bitmapLen : ℕ} (h : bitmapLen * pageSize * 8 < word) :
    Vmm.memoryToMap bitmapLen = min (bitmapLen * pageSize * 8) zoneNormal := by
  unfold Vmm.memoryToMap
  dsimp only
  rw [Nat.mod_eq_of_lt h]
  split_ifs with hlt
  · exact (min_eq_left hlt.le).symm
  · exact (min_eq_right (not_lt.mp hlt)).symm

theorem dvd_memoryToMap {bitmapLen : ℕ} (h : bitmapLen * pageSize * 8 < word) :
    pageSize ∣ Vmm.memoryToMap bitmapLen := by
  rw [memoryToMap_eq h]
  rcases min_choice (bitmapLen * pageSize * 8) zoneNormal with heq | heq
  · rw [heq]
    exact Dvd.dvd.mul_right (Dvd.intro_left _ rfl) 8
  · rw [heq]
    decide

/-- The loop over all tables, from the cleared directory on. -/
theorem Enough.initLoop (h : Enough s (tablesFor limit)) (hlimit : limit ≤ zoneNormal) :
    ∃ m b, Vmm.initLoop limit 1024 0 { s with mem := copy pageSize s.mem s.pageDirectory (fun _ => 0) 0 } =
        some { s with mem := m, boot := b } ∧
      Filled (copy pageSize s.mem s.pageDirectory (fun _ => 0) 0) m s.pageDirectory s.boot.nextFree limit
        (tablesFor limit) ∧
      b.nextFree = tableAt s.boot.nextFree (tablesFor limit) ∧ b.heapEnd = s.boot.heapEnd := by
  have hempty : Filled (copy pageSize s.mem s.pageDirectory (fun _ => 0) 0)
      (copy pageSize s.mem s.pageDirectory (fun _ => 0) 0)
      s.pageDirectory s.boot.nextFree limit 0 :=
    ⟨by simp, by simp, fun i hi _ _ => Vmm.entry_clear hi, by simp, fun _ _ => rfl⟩
  have hn := tablesFor_le hlimit
  have hroom : tableAt s.boot.nextFree (tablesFor limit) ≤ s.boot.heapEnd :=
    (tableAt_le (Nat.le_add_right _ 2)).trans h.fits
  obtain ⟨t, ht, hfilled, hrest, hnext, hend⟩ := initLoop_spec (s := { s with
    mem := copy pageSize s.mem s.pageDirectory (fun _ => 0) 0 }) hlimit (Nat.zero_le _)
    (show tablesFor limit < 1024 + 0 by omega) hempty h.dir h.nextFree h.behind
      (by rw [tableAt, Nat.zero_mul, Nat.add_zero])
    h.heapEnd hroom h.direct
  rw [Nat.zero_mul] at ht
  exact ⟨t.mem, t.boot, ht.trans (congrArg some hrest), hfilled, hnext, hend⟩

/-- The state in which the scratch page is mapped. -/
theorem Enough.valid (h : Enough s (tablesFor limit)) (hlimit : limit ≤ zoneNormal) (P : Pool) {b : Memblock}
    (hfilled : Filled m₀ m s.pageDirectory s.boot.nextFree limit (tablesFor limit))
    (hnext : b.nextFree = tableAt s.boot.nextFree (tablesFor limit + 1)) (hend : b.heapEnd = s.boot.heapEnd) :
    Vmm.Valid P ∅ { s with
      mem := setEntry m s.pageDirectory 1023 (s.pageDirectory ||| pteFlags 3), cr3 := s.pageDirectory,
        boot := b } := by
  have hlt := s.boot.lt
  have hfits := h.fits
  have hbehind := h.behind
  have hn := tablesFor_le hlimit
  have hdir : IsFrame s.pageDirectory := ⟨h.dir, by omega⟩
  have hlast : entry (setEntry m s.pageDirectory 1023 (s.pageDirectory ||| pteFlags 3)) s.pageDirectory 1023 =
      s.pageDirectory ||| pteFlags 3 := entry_setEntry _ _ _ (hdir.or_lt 3)
  -- An entry that is present leads to the directory or to one of the tables.
  have hcases (i : ℕ) (hi : i < 1024)
      (hp : present (entry (setEntry m s.pageDirectory 1023 (s.pageDirectory ||| pteFlags 3))
      s.pageDirectory i) = true) :
      (∃ p f, IsFrame p ∧ f.testBit 7 = false ∧
        (p = s.pageDirectory ∨ ∃ a < tablesFor limit, p = tableAt s.boot.nextFree a) ∧
        entry (setEntry m s.pageDirectory 1023 (s.pageDirectory ||| pteFlags 3)) s.pageDirectory i
          = p ||| pteFlags f) := by
    have htable (a : ℕ) (ha : a < tablesFor limit) : IsFrame (tableAt s.boot.nextFree a) := by
      refine ⟨Nat.dvd_add h.nextFree (Dvd.intro_left _ rfl), ?_⟩
      exact ((tableAt_le (by omega)).trans hfits).trans_lt hlt
    by_cases hi' : i = 1023
    · subst hi'
      exact ⟨s.pageDirectory, 3, hdir, rfl, .inl rfl, hlast⟩
    · rw [entry_setEntry_of_ne hi'] at hp ⊢
      by_cases hlow : i < tablesFor limit
      · exact ⟨_, 7, htable i hlow, rfl, .inr ⟨i, hlow, rfl⟩, hfilled.low i hlow⟩
      · by_cases hhigh : 768 ≤ i ∧ i < 768 + tablesFor limit
        · refine ⟨_, 7, htable (i - 768) (by omega), rfl, .inr ⟨i - 768, by omega, rfl⟩, ?_⟩
          rw [← hfilled.high (i - 768) (by omega), show 768 + (i - 768) = i by omega]
        · rw [hfilled.rest i hi hlow hhigh] at hp
          cases hp
  refine ⟨⟨h.dir, ?_, ?_, fun i hi hp => ?_⟩, ?_, ?_, ?_, fun i hi hp hmem => ?_⟩
  · dsimp only
    rw [hlast]
    exact hdir.pteAddr 3
  · dsimp only
    rw [hlast]
    exact hdir.present 3
  · obtain ⟨p, f, hframe, hf, -, he⟩ := hcases i hi hp
    dsimp only
    rw [he, hframe.large]
    exact hf
  · dsimp only
    rw [h.active]
    exact h.empty
  · dsimp only
    rw [hnext]
    exact Nat.dvd_add h.nextFree (Dvd.intro_left _ rfl)
  · dsimp only
    rw [hend]
    exact h.heapEnd
  · obtain ⟨p, f, hframe, -, hp', he⟩ := hcases i hi hp
    simp only [Vmm.spare, h.active, if_true, Set.mem_ofPred_eq, he, hframe.pteAddr, hnext] at hmem
    rcases hp' with rfl | ⟨a, ha, rfl⟩
    · unfold tableAt pageSize at hmem
      omega
    · unfold tableAt pageSize at hmem
      omega

/-- The finished directory is the direct map. -/
theorem Finished.directMap (h : Finished t.mem s.pageDirectory s.boot.nextFree limit)
    (hlimit : limit ≤ zoneNormal)
    (hdir : IsFrame s.pageDirectory) (hfirst : pageSize ∣ s.boot.nextFree)
    (hlt : tableAt s.boot.nextFree (tablesFor limit + 1) < word) (hwhole : pageSize ∣ limit)
    (hcr3 : t.cr3 = s.pageDirectory) (hnext : t.boot.nextFree = tableAt s.boot.nextFree (tablesFor limit + 2))
    (hsame : SameBut pageSize {p | p = s.pageDirectory ∨ ∃ a < tablesFor limit + 2,
    p = tableAt s.boot.nextFree a}
      s.mem t.mem) : DirectMap s t limit := by
  have hframe (a : ℕ) (ha : a ≤ tablesFor limit + 1) : IsFrame (tableAt s.boot.nextFree a) :=
    ⟨Nat.dvd_add hfirst (Dvd.intro_left _ rfl), (tableAt_le ha).trans_lt hlt⟩
  have hkern : kernBase = 768 * tableSpan := by decide
  rw [← hcr3] at h hdir hsame
  constructor
  · exact hcr3
  · intro p hp
    have hlow := h.physical_table hlimit hfirst hlt (.inl rfl) hp
    rwa [Nat.zero_mul, Nat.zero_add] at hlow
  · intro p hp
    rw [hkern]
    exact h.physical_table hlimit hfirst hlt (.inr rfl) hp
  · rw [h.own]
    exact ⟨hdir.present 3, hdir.pteAddr 3⟩
  · have hmod : scratchVaddr % pageSize = 0 := by decide
    unfold physical
    rw [h.walk_scratch hfirst hlt, Option.map_some, (hframe _ (Nat.le_succ _)).pteAddr, hmod, Nat.add_zero]
  · intro q hq hlow hhigh hne hwindow
    exact h.walk_none hlimit hfirst hlt hwhole hq hlow hhigh hne hwindow
  · intro a ha
    have ha' : a ≤ tablesFor limit + 1 := ha.le.trans (Nat.le_succ _)
    rw [h.low a ha, h.high a ha, (hframe a ha').pteAddr]
    exact ⟨rfl, rfl⟩
  · rw [h.scratch, (hframe _ le_rfl).pteAddr]
  · intro a ha j hj hp
    rw [h.table a ha j hj] at hp ⊢
    unfold directEntry at hp ⊢
    split_ifs at hp ⊢ with hin
    · exact IsFrame.pteAddr ⟨dvd_page a j, hin.trans (hlimit.trans_lt (by decide))⟩ 7
    · cases hp
  · exact hnext
  · exact hsame

/-- With enough memory, `vmm_init_pages` builds the direct map. -/
theorem init_pages_direct_map (s : Vmm) (bitmapLen : ℕ) (hlen : bitmapLen * pageSize * 8 < word)
    (h : Enough s (tablesFor (min (bitmapLen * pageSize * 8) zoneNormal))) :
    ∃ t, s.vmmInitPages bitmapLen = some t ∧ DirectMap s t (min (bitmapLen * pageSize * 8) zoneNormal) := by
  have hlimit := memoryToMap_le bitmapLen
  have hwhole := dvd_memoryToMap hlen
  rw [← memoryToMap_eq hlen] at h ⊢
  generalize hL : Vmm.memoryToMap bitmapLen = limit at *
  have hn := tablesFor_le hlimit
  have hlt := s.boot.lt
  have hfits := h.fits
  have hbehind := h.behind
  have hdir : IsFrame s.pageDirectory := ⟨h.dir, by omega⟩
  have hfirst := h.nextFree
  have hlast : tableAt s.boot.nextFree (tablesFor limit + 1) < word :=
      ((tableAt_le (by omega)).trans hfits).trans_lt hlt
  have hpage : IsFrame (tableAt s.boot.nextFree (tablesFor limit)) :=
    ⟨Nat.dvd_add hfirst (Dvd.intro_left _ rfl), (tableAt_le (Nat.le_succ _)).trans_lt hlast⟩
  obtain ⟨m, b, hloop, hfilled, hnext, hend⟩ := h.initLoop hlimit
  -- The scratch page and the table for it.
  have hscratch : ∃ b₁, memblock b pageSize = (tableAt s.boot.nextFree (tablesFor limit), b₁) ∧
      b₁.nextFree = tableAt s.boot.nextFree (tablesFor limit + 1) ∧ b₁.heapEnd = s.boot.heapEnd := by
    obtain ⟨hp, hnext', hend'⟩ := memblock_eq (b := b) (by rw [hnext]; exact hpage.dvd)
        (by rw [hend]; exact h.heapEnd)
      (by rw [hnext]; unfold tableAt; omega)
      (by rw [hnext, hend, ← tableAt_succ]; exact (tableAt_le (by omega)).trans hfits)
    rcases hr : memblock b pageSize with ⟨p, b₁⟩
    rw [hr] at hp hnext' hend'
    refine ⟨b₁, ?_, ?_, hend'.trans hend⟩
    · rw [show p = tableAt s.boot.nextFree (tablesFor limit) from hp.trans hnext]
    · rw [show b₁.nextFree = b.nextFree + pageSize from hnext', hnext]
      unfold tableAt
      ring
  obtain ⟨b₁, hmem₁, hnext₁, hend₁⟩ := hscratch
  have hsecond : ∃ b₂, memblock b₁ pageSize = (tableAt s.boot.nextFree (tablesFor limit + 1), b₂) ∧
      b₂.nextFree = tableAt s.boot.nextFree (tablesFor limit + 2) := by
    obtain ⟨hp, hnext', -⟩ := memblock_eq (b := b₁)
        (by rw [hnext₁]; exact Nat.dvd_add hfirst (Dvd.intro_left _ rfl))
      (by rw [hend₁]; exact h.heapEnd) (by rw [hnext₁]; unfold tableAt; omega)
      (by rw [hnext₁, hend₁, ← tableAt_succ]; exact hfits)
    rcases hr : memblock b₁ pageSize with ⟨p, b₂⟩
    rw [hr] at hp hnext'
    refine ⟨b₂, ?_, ?_⟩
    · rw [show p = tableAt s.boot.nextFree (tablesFor limit + 1) from hp.trans hnext₁]
    · rw [show b₂.nextFree = b₁.nextFree + pageSize from hnext', hnext₁]
      unfold tableAt
      ring
  obtain ⟨b₂, hmem₂, hnext₂⟩ := hsecond
  obtain ⟨-, P, -, -⟩ := Vmm.exists_frames
  have hv := h.valid hlimit P hfilled hnext₁ hend₁
  generalize hm₁ : setEntry m s.pageDirectory 1023 (s.pageDirectory ||| pteFlags 3) = m₁ at hv
  generalize hs₁ : ({ s with mem := m₁, cr3 := s.pageDirectory, boot := b₁ } : Vmm) = s₁ at hv
  have hpde : present (entry s₁.mem s₁.cr3 (pdIndex scratchVaddr)) = false := by
    have hzero : entry m₁ s.pageDirectory 1022 = 0 := by
      rw [← hm₁, entry_setEntry_of_ne (by omega)]
      exact hfilled.rest 1022 (by omega) (by omega) (by omega)
    rw [← hs₁, show pdIndex scratchVaddr = 1022 from rfl]
    dsimp only
    rw [hzero]
    rfl
  have htf : s₁.tableFrame = some (tableAt s.boot.nextFree (tablesFor limit + 1), { s₁ with boot := b₂ }) := by
    unfold Vmm.tableFrame
    rw [← hs₁]
    dsimp only
    rw [h.active, if_pos rfl, hmem₂]
  have hpos : tableAt s.boot.nextFree (tablesFor limit + 1) ≠ 0 := by
    unfold tableAt
    omega
  have hnew := hv.newTable_eq (by decide) hpde htf hpos
  obtain ⟨hspare, hframe, -, -⟩ := hv.tableFrame htf hpos
  have hmap : s₁.mapFrame (tableAt s.boot.nextFree (tablesFor limit)) scratchVaddr (pteW ||| pteU) =
      some (0, { s₁ with
        boot := b₂, mem := Vmm.withTable s₁.mem s₁.cr3 1022
          (tableAt s.boot.nextFree (tablesFor limit + 1)) 1023 (
          tableAt s.boot.nextFree (tablesFor limit) ||| pteFlags 7) }) :=
    hv.mapFrame_new (by decide) hpde hnew hspare hframe rfl rfl
  have hscratch : tableAt s.boot.nextFree (tablesFor limit) ≠ 0 := by
    unfold tableAt
    omega
  have hfinished := hfilled.finish hlimit hdir hfirst hbehind hlast
  rw [hm₁] at hfinished
  refine ⟨{ s with
    mem := Vmm.withTable m₁ s.pageDirectory 1022 (tableAt s.boot.nextFree (tablesFor limit + 1)) 1023
      (tableAt s.boot.nextFree (tablesFor limit) ||| pteFlags 7)
    cr3 := s.pageDirectory, boot := b₂ }, ?_, ?_⟩
  · unfold Vmm.vmmInitPages
    rw [hL]
    dsimp only
    rw [hloop, Option.bind_eq_bind, Option.bind_some]
    dsimp only
    rw [show s.pageDirectory ||| pteP ||| pteW
      = s.pageDirectory ||| pteFlags 3 from Nat.or_assoc .., hm₁, hmem₁]
    dsimp only
    rw [if_neg hscratch, hs₁, Vmm.vmmMapPage, if_neg hscratch, hmap]
    dsimp only [Option.bind_eq_bind, Option.bind_some]
    rw [if_neg (by decide), ← hs₁]
    rfl
  · have hsame : SameBut pageSize
        {p | p = s.pageDirectory ∨ ∃ a < tablesFor limit + 2, p = tableAt s.boot.nextFree a} s.mem
        (Vmm.withTable m₁ s.pageDirectory 1022 (tableAt s.boot.nextFree (tablesFor limit + 1)) 1023
          (tableAt s.boot.nextFree (tablesFor limit) ||| pteFlags 7)) := by
      have hd : ({s.pageDirectory} : Set ℕ) ⊆
          {p | p = s.pageDirectory ∨ ∃ a < tablesFor limit + 2, p = tableAt s.boot.nextFree a} :=
        Set.singleton_subset_iff.mpr (.inl rfl)
      have ht : ({tableAt s.boot.nextFree (tablesFor limit + 1)} : Set ℕ) ⊆
          {p | p = s.pageDirectory ∨ ∃ a < tablesFor limit + 2, p = tableAt s.boot.nextFree a} :=
        Set.singleton_subset_iff.mpr (.inr ⟨_, by omega, rfl⟩)
      have hold : {p | p = s.pageDirectory ∨ ∃ a < tablesFor limit, p = tableAt s.boot.nextFree a} ⊆
          {p | p = s.pageDirectory ∨ ∃ a < tablesFor limit + 2, p = tableAt s.boot.nextFree a} := by
        rintro p (hp | ⟨a, ha, hp⟩)
        · exact .inl hp
        · exact .inr ⟨a, by omega, hp⟩
      have h₁ : SameBut pageSize _ s.mem (copy pageSize s.mem s.pageDirectory (fun _ => 0) 0) :=
        .copy hdir.dvd (Set.mem_singleton s.pageDirectory) le_rfl
      have h₂ : SameBut pageSize {s.pageDirectory} m m₁ :=
        hm₁ ▸ sameBut_setEntry hdir.dvd (Set.mem_singleton s.pageDirectory) (by omega)
      refine ((h₁.mono hd).trans (hfilled.same.mono hold)).trans ((h₂.mono hd).trans ?_)
      unfold Vmm.withTable
      exact ((((sameBut_setEntry hdir.dvd (Set.mem_singleton s.pageDirectory) (by omega)).mono hd).trans
        ((SameBut.copy hframe.dvd (Set.mem_singleton _) le_rfl).mono ht))).trans
        ((sameBut_setEntry hframe.dvd (Set.mem_singleton _) (by omega)).mono ht)
    exact hfinished.directMap hlimit hdir hfirst hlast hwhole rfl hnext₂ hsame

/-- A machine with 16 MiB before it has an allocator. -/
def bootVmm : Vmm :=
  { buddy :=
      { base := 0, size := 0, freeLists := fun _ => 0, map := fun _ => false, mapSize := 0,
        maxOrder := 0, next := fun _ => 0 },
    mem := fun _ => 0, pageDirectory := 0x100000,
    direct := fun p => decide (p < 0x1000000), cr3 := 0,
    boot := smallMachine, memblockIsActive := true }

theorem init_pages_direct_map_small : ∃ t, bootVmm.vmmInitPages 512 = some t ∧
    DirectMap bootVmm t 0x1000000 := by
  refine init_pages_direct_map bootVmm 512 (by decide) ?_
  have hn : tablesFor (min (512 * pageSize * 8) zoneNormal) = 4 := by
    unfold tablesFor
    decide
  rw [hn]
  refine ⟨?_, ?_, ?_, ?_, ?_, fun k hk => ?_, rfl, fun _ => rfl⟩
  · change pageSize ∣ 0x200000
    decide
  · change 8 * pageSize ∣ 0x1000000
    decide
  · change 0x200000 + (4 + 2) * pageSize ≤ 0x1000000
    decide
  · change pageSize ∣ 0x100000
    decide
  · change 0x100000 < 0x200000
    decide
  · apply decide_eq_true
    change 0x200000 + k * pageSize < 0x1000000
    unfold pageSize
    omega

end Ferrite.Memory
