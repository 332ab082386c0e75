import Ferrite.Memory.AddressSpace
import Ferrite.Memory.BuddyRuns
import Ferrite.Memory.Vmm

/-!
# Mapping one page

`vmm_map_page` takes its frame before it looks at the page, and does not give it back
when the page is taken. Where a page is mapped, an entry appears in one page table, and
so in every part of the address space that uses this table.
-/
namespace Ferrite.Memory
open BuddyAllocator Packed Pages Word

/-! ## Entries in memory -/

section entries
variable {m m' : Bytes} {dir table frame i j k p q f : ℕ}

/-- An address in page `j` of the region that entry `i` of the directory maps. -/
def pageAddr (i j : ℕ) : ℕ := i * 2 ^ 22 + j * 2 ^ 12

theorem pageAddr_pdIndex (hj : j < 1024) : pdIndex (pageAddr i j) = i := by
  unfold pdIndex pageAddr
  omega

theorem pageAddr_ptIndex (hj : j < 1024) : ptIndex (pageAddr i j) = j := by
  unfold ptIndex pageAddr
  omega

theorem pageAddr_lt (hi : i < 1024) (hj : j < 1024) : pageAddr i j < word := by
  unfold pageAddr word
  omega

theorem pdIndex_lt (hq : q < word) : pdIndex q < 1024 := by
  unfold pdIndex
  unfold word at hq
  omega

theorem entry_setEntry_other {d : ℕ} (hd : pageSize ∣ d) (ht : pageSize ∣ table) (hk : k < 1024) (hj : j < 1024)
    (hne : d ≠ table ∨ k ≠ j) (v : ℕ) : entry (setEntry m table j v) d k = entry m d k := by
  by_cases hdt : d = table
  · subst hdt
    exact entry_setEntry_of_ne (hne.resolve_left (not_not.mpr rfl)) ..
  · exact entry_congr (sameBut_setEntry (A := {table}) ht rfl hj) hd hdt hk

theorem walk_none (h : present (entry m dir (pdIndex q)) = false) : walk m dir q = none := by
  unfold walk translate
  dsimp only
  rw [h]
  simp

theorem walk_large (h : present (entry m dir (pdIndex q)) = true)
    (hl : large (entry m dir (pdIndex q)) = true) :
    walk m dir q = some (largePage (entry m dir (pdIndex q)) q) := by
  unfold walk
  dsimp only
  rw [if_pos ⟨h, hl⟩]

theorem walk_small (h : present (entry m dir (pdIndex q)) = true)
    (hl : large (entry m dir (pdIndex q)) = false) :
    walk m dir q =
      if present (entry m (pteAddr (entry m dir (pdIndex q))) (ptIndex q)) then
        some (entry m (pteAddr (entry m dir (pdIndex q))) (ptIndex q)) else none := by
  rw [Vmm.walk_eq_translate fun _ => hl]
  unfold translate
  dsimp only
  rw [h]
  rfl

theorem walk_congr (hd : entry m' dir (pdIndex q) = entry m dir (pdIndex q))
    (ht : present (entry m dir (pdIndex q)) = true →
      entry m' (pteAddr (entry m dir (pdIndex q))) (ptIndex q) = entry m
        (pteAddr (entry m dir (pdIndex q))) (ptIndex q)) :
    walk m' dir q = walk m dir q := by
  unfold walk translate
  dsimp only
  rw [hd]
  cases hp : present (entry m dir (pdIndex q)) with
  | false => simp
  | true => rw [ht hp]

/-- The flags that `vmm_map_page` stores. -/
theorem or_present (p flags : ℕ) : p ||| pteFlags flags ||| pteP = p ||| pteFlags (flags ||| pteP) := by
  unfold pteFlags pteP
  rw [Nat.and_or_distrib_right, Nat.or_assoc, show (1 : ℕ) &&& 0xFFF = 1 from rfl]

theorem present_flags (flags : ℕ) : present (flags ||| pteP) = true := by
  rw [present_eq, pteP]
  have h : (flags ||| 1) % 2 = 1 := by
    rw [Nat.or_mod_two_eq_one]
    exact .inr rfl
  rw [h]
  rfl

theorem IsFrame.large (h : IsFrame p) (f : ℕ) : Memory.large (p ||| pteFlags f) = f.testBit 7 := by
  obtain ⟨k, rfl⟩ := h.dvd
  unfold Memory.large pteFlags pageSize
  rw [Nat.testBit_or, show 0x1000 = 2 ^ 12 from rfl, Nat.testBit_two_pow_mul, Nat.testBit_and,
    show Nat.testBit 0xFFF 7 = true by decide]
  simp

end entries

namespace Vmm
variable {P : Pool} {F : Set ℕ} {s t u : Vmm} {p paddr vaddr flags pt i j : ℕ} {r : ℤ} {b : BuddyAllocator}

/-! ## The allocators -/

/-- The frames that page tables may be taken from. -/
def spare (s : Vmm) (F : Set ℕ) : Set ℕ :=
  {p | if s.memblockIsActive then s.boot.nextFree ≤ p ∧ p < s.boot.heapEnd else p ∈ F}

/-- A state in which the frames in `F` are free: no table of the directory is one that the
allocators still have. Before `buddy_init` the allocator has no block. -/
structure Valid (P : Pool) (F : Set ℕ) (s : Vmm) : Prop where
  recursive : s.Recursive
  frames : if s.memblockIsActive then ∀ k, s.buddy.freeLists k = 0 else FreeFrames P s.buddy F
  nextFree : pageSize ∣ s.boot.nextFree
  heapEnd : 8 * pageSize ∣ s.boot.heapEnd
  inUse : ∀ i < 1024, present (entry s.mem s.cr3 i) = true → pteAddr (entry s.mem s.cr3 i) ∉ s.spare F

theorem buddyAlloc_empty (h : ∀ k, b.freeLists k = 0) (order : ℕ) : b.buddyAlloc order = some (0, b) := by
  unfold buddyAlloc
  split_ifs with hmax
  · rfl
  · simp [h]

namespace Valid
variable (hv : s.Valid P F)
include hv

theorem cr3_not_spare : s.cr3 ∉ s.spare F := by
  have h := hv.inUse 1023 (by omega) hv.recursive.mapped
  rwa [hv.recursive.own] at h

theorem buddy_none (h : s.buddy.buddyAlloc 0 = some (0, b)) : b = s.buddy := by
  have hframes := hv.frames
  split_ifs at hframes with hactive
  · rw [buddyAlloc_empty hframes] at h
    cases h
    rfl
  · exact hframes.alloc_none h

/-- `buddy_alloc(0)` takes a free frame. -/
theorem buddy_some (h : s.buddy.buddyAlloc 0 = some (p, b)) (hp : p ≠ 0) :
    s.memblockIsActive = false ∧ FreeFrames P s.buddy F ∧ p ∈ F ∧ FreeFrames P b (F \ {p}) ∧ IsFrame p ∧
      Valid P (F \ {p}) { s with buddy := b } := by
  have hframes := hv.frames
  split_ifs at hframes with hactive
  · rw [buddyAlloc_empty hframes] at h
    cases h
    exact absurd rfl hp
  · have hoff : s.memblockIsActive = false := by simpa using hactive
    obtain ⟨hF, hfree⟩ := hframes.alloc h hp
    refine ⟨hoff, hframes, hF, hfree, hframes.isFrame hF, ?_⟩
    refine ⟨⟨hv.recursive.dvd, hv.recursive.own, hv.recursive.mapped, hv.recursive.small⟩, ?_,
      hv.nextFree, hv.heapEnd, ?_⟩
    · simpa [hoff] using hfree
    · intro i hi he hmem
      apply hv.inUse i hi he
      simp only [spare, hoff, Set.mem_ofPred_eq, Bool.false_eq_true, if_false] at hmem ⊢
      exact hmem.1

/-- A new page table comes from the spare frames; memory and directory stay. -/
theorem tableFrame (h : s.tableFrame = some (pt, t)) (hpt : pt ≠ 0) :
    pt ∈ s.spare F ∧ IsFrame pt ∧ t.mem = s.mem ∧ t.cr3 = s.cr3 := by
  unfold Vmm.tableFrame at h
  split_ifs at h with hactive
  · obtain ⟨rfl, rfl⟩ := Prod.mk.inj (Option.some.inj h)
    obtain ⟨heq, hle, -⟩ := memblock_page hv.nextFree hv.heapEnd hpt
    have hlt := s.boot.lt
    have hpos := pageSize_pos
    refine ⟨?_, ⟨?_, ?_⟩, rfl, rfl⟩
    · simp only [spare, hactive, if_true, Set.mem_ofPred_eq]
      omega
    · rw [heq]
      exact hv.nextFree
    · omega
  · obtain ⟨⟨p, b⟩, hb, heq⟩ := Option.map_eq_some_iff.mp h
    cases heq
    obtain ⟨hoff, -, hF, -, hframe, -⟩ := hv.buddy_some hb hpt
    refine ⟨?_, hframe, rfl, rfl⟩
    simpa [spare, hoff] using hF

end Valid

/-! ## What `vmm_map_page` does -/

/-- The entry for a new page table. -/
theorem table_flags (pt : ℕ) : pt ||| pteU ||| pteW ||| pteP = pt ||| pteFlags 7 := by
  rw [Nat.or_assoc, Nat.or_assoc]
  rfl

/-- A new table in the directory, at an entry in front of the last one. -/
theorem Recursive.install (h : s.Recursive) (hpt : IsFrame pt) (hi : i < 1023) :
    Recursive { s with mem := setEntry s.mem s.cr3 i (pt ||| pteFlags 7) } := by
  have hlast : entry (setEntry s.mem s.cr3 i (pt ||| pteFlags 7)) s.cr3 1023 = entry s.mem s.cr3 1023 :=
    entry_setEntry_of_ne (by omega) ..
  refine ⟨h.dvd, ?_, ?_, ?_⟩
  · rw [hlast]
    exact h.own
  · rw [hlast]
    exact h.mapped
  · intro k hk hpresent
    by_cases hki : k = i
    · subst hki
      dsimp only
      rw [entry_setEntry _ _ _ (hpt.or_lt 7), hpt.large]
      rfl
    · dsimp only at hpresent ⊢
      rw [entry_setEntry_of_ne hki] at hpresent ⊢
      exact h.small k hk hpresent

/-- The entry of a page, in the table that the directory has for it. -/
def pteOf (m : Bytes) (dir i j : ℕ) : ℕ := entry m (pteAddr (entry m dir i)) j

/-- The memory with an entry in a table that the directory has. -/
def withEntry (m : Bytes) (dir i j e : ℕ) : Bytes := setEntry m (pteAddr (entry m dir i)) j e

/-- The memory with a new page table that has one entry. -/
def withTable (m : Bytes) (dir i pt j e : ℕ) : Bytes :=
  setEntry (copy pageSize (setEntry m dir i (pt ||| pteFlags 7)) pt (fun _ => 0) 0) pt j e

/-- The frame of a new table is cleared. -/
theorem entry_clear {m : Bytes} (hj : j < 1024) : entry (copy pageSize m pt (fun _ => 0) 0) pt j = 0 := by
  unfold entry
  rw [get_copy (by unfold pageSize; omega)]
  rfl

theorem withTable_own {m : Bytes} {dir e k : ℕ} (he : e < word) (hk : k < 1024) :
    entry (withTable m dir i pt j e) pt k = if k = j then e else 0 := by
  unfold withTable
  split_ifs with hkj
  · rw [hkj, entry_setEntry _ _ _ he]
  · rw [entry_setEntry_of_ne hkj, entry_clear hk]

theorem withTable_other {m : Bytes} {dir e d k : ℕ} (hpt : IsFrame pt) (hd : pageSize ∣ d)
    (hne : d ≠ pt) (hk : k < 1024)
    (hj : j < 1024) : entry (withTable m dir i pt j e) d k = entry
    (setEntry m dir i (pt ||| pteFlags 7)) d k := by
  unfold withTable
  rw [entry_setEntry_other hd hpt.dvd hk hj (.inl hne)]
  exact entry_congr (.copy hpt.dvd (Set.mem_singleton pt) le_rfl) hd hne hk

/-- The branch for a missing table puts a cleared one into the directory. -/
theorem Valid.newTable_eq (hv : s.Valid P F) (hi : i < 1024) (hpde : present (entry s.mem s.cr3 i) = false)
    (htf : s.tableFrame = some (pt, t)) (hpt : pt ≠ 0) : s.newTable i =
      some { t with mem := copy pageSize (setEntry s.mem s.cr3 i (pt ||| pteFlags 7)) pt (fun _ => 0) 0 } := by
  have hrec := hv.recursive
  have hi' : i < 1023 := by
    have hne : i ≠ 1023 := by
      intro heq
      rw [heq, hrec.mapped] at hpde
      cases hpde
    omega
  obtain ⟨-, hframe, hmem, hcr3⟩ := hv.tableFrame htf hpt
  have hv' : Recursive t := by
    constructor
    · rw [hcr3]
      exact hrec.dvd
    · rw [hmem, hcr3]
      exact hrec.own
    · rw [hmem, hcr3]
      exact hrec.mapped
    · rw [hmem, hcr3]
      exact hrec.small
  have hinst := hv'.install hframe hi'
  have hnew : entry (setEntry t.mem t.cr3 i (pt ||| pteFlags 7)) t.cr3 i = pt ||| pteFlags 7 :=
    entry_setEntry _ _ _ (hframe.or_lt 7)
  unfold Vmm.newTable
  rw [htf]
  dsimp only
  rw [if_neg hpt, table_flags, Option.bind_eq_bind, hv'.store_directory hi, Option.bind_some,
    hinst.clearPage_table hi (by rw [hnew]; exact hframe.present 7)]
  dsimp only
  rw [hnew, hframe.pteAddr, hmem, hcr3]

theorem Valid.newTable (hv : s.Valid P F) (hi : i < 1024) (hpde : present (entry s.mem s.cr3 i) = false)
    (h : s.newTable i = some u) : ∃ pt ∈ s.spare F, IsFrame pt ∧ u.cr3 = s.cr3 ∧
      u.mem = copy pageSize (setEntry s.mem s.cr3 i (pt ||| pteFlags 7)) pt (fun _ => 0) 0 := by
  cases htf : s.tableFrame with
  | none =>
      unfold Vmm.newTable at h
      rw [htf] at h
      cases h
  | some x =>
      obtain ⟨pt, v⟩ := x
      have hpt : pt ≠ 0 := by
        rintro rfl
        unfold Vmm.newTable at h
        rw [htf] at h
        cases h
      obtain ⟨hspare, hframe, -, hcr3⟩ := hv.tableFrame htf hpt
      rw [hv.newTable_eq hi hpde htf hpt] at h
      obtain rfl := Option.some.inj h
      exact ⟨pt, hspare, hframe, hcr3, rfl⟩

/-- The page of a table that has just been made gets its entry. -/
theorem Valid.mapFrame_new (hv : s.Valid P F) (hva : vaddr < word)
    (hpde : present (entry s.mem s.cr3 (pdIndex vaddr)) = false) (hu : s.newTable (pdIndex vaddr) = some u)
    (hspare : pt ∈ s.spare F) (hframe : IsFrame pt) (hcr3 : u.cr3 = s.cr3)
    (hmem : u.mem = copy pageSize (setEntry s.mem s.cr3 (pdIndex vaddr) (pt ||| pteFlags 7)) pt
    (fun _ => 0) 0) :
    s.mapFrame paddr vaddr flags = some (0, { u with
      mem := withTable s.mem s.cr3 (pdIndex vaddr) pt (ptIndex vaddr)
        (paddr ||| pteFlags (flags ||| pteP)) }) := by
  have hi := pdIndex_lt hva
  have hj := ptIndex_lt vaddr
  have hrec := hv.recursive
  have hne : s.cr3 ≠ pt := fun heq => hv.cr3_not_spare (heq ▸ hspare)
  have hlast : pdIndex vaddr ≠ 1023 := by
    intro heq
    rw [heq, hrec.mapped] at hpde
    cases hpde
  have hsame (k : ℕ) (hk : k < 1024) : entry u.mem u.cr3 k =
      entry (setEntry s.mem s.cr3 (pdIndex vaddr) (pt ||| pteFlags 7)) s.cr3 k := by
    rw [hmem, hcr3]
    exact entry_congr (.copy hframe.dvd (Set.mem_singleton pt) le_rfl) hrec.dvd hne hk
  have hinst := hrec.install hframe (show pdIndex vaddr < 1023 by omega)
  have hrecu : u.Recursive := by
    constructor
    · rw [hcr3]
      exact hrec.dvd
    · rw [hsame 1023 (by omega), hcr3]
      exact hinst.own
    · rw [hsame 1023 (by omega)]
      exact hinst.mapped
    · intro k hk
      rw [hsame k hk]
      exact hinst.small k hk
  have hnew : entry u.mem u.cr3 (pdIndex vaddr) = pt ||| pteFlags 7 := by
    rw [hsame _ hi]
    exact entry_setEntry _ _ _ (hframe.or_lt 7)
  have hpresent : present (entry u.mem u.cr3 (pdIndex vaddr)) = true := by
    rw [hnew]
    exact hframe.present 7
  have hzero : entry u.mem pt (ptIndex vaddr) = 0 := by
    rw [hmem]
    exact entry_clear hj
  unfold Vmm.mapFrame
  rw [hrec.load_directory hi]
  simp only [Option.bind_eq_bind, Option.bind_some, or_present]
  rw [hpde, if_neg (by simp), hu, Option.bind_some, hrecu.load_table hi hj hpresent, Option.bind_some,
    hnew, hframe.pteAddr,
    hzero, if_neg (by decide), hrecu.store_table hi hj hpresent, Option.bind_some, hnew, hframe.pteAddr, hmem]
  rfl

/-- `vmm_map_page` for a frame: the page is taken, or its table gets an entry, or a new table. -/
theorem Valid.mapFrame (hv : s.Valid P F) (hva : vaddr < word)
    (h : s.mapFrame paddr vaddr flags = some (r, t)) :
    (present (entry s.mem s.cr3 (pdIndex vaddr)) = true ∧
      present (pteOf s.mem s.cr3 (pdIndex vaddr) (ptIndex vaddr)) = true ∧ r = -1 ∧ t = s) ∨
    (present (entry s.mem s.cr3 (pdIndex vaddr)) = true ∧
      present (pteOf s.mem s.cr3 (pdIndex vaddr) (ptIndex vaddr)) = false ∧ r = 0 ∧ t.cr3 = s.cr3 ∧
      t.mem = withEntry s.mem s.cr3 (pdIndex vaddr) (ptIndex vaddr) (paddr ||| pteFlags (flags ||| pteP))) ∨
    (present (entry s.mem s.cr3 (pdIndex vaddr)) = false ∧ r = 0 ∧ t.cr3 = s.cr3 ∧
      ∃ pt ∈ s.spare F, IsFrame pt ∧
      t.mem = withTable s.mem s.cr3 (pdIndex vaddr) pt (ptIndex vaddr)
        (paddr ||| pteFlags (flags ||| pteP))) := by
  have hi := pdIndex_lt hva
  have hj := ptIndex_lt vaddr
  have hrec := hv.recursive
  have hcall := h
  unfold Vmm.mapFrame at h
  rw [hrec.load_directory hi] at h
  simp only [Option.bind_eq_bind, Option.bind_some, or_present] at h
  cases hpde : present (entry s.mem s.cr3 (pdIndex vaddr)) with
  | true =>
      have hload : s.load (windowAddr (pdIndex vaddr) (ptIndex vaddr)) =
          some (pteOf s.mem s.cr3 (pdIndex vaddr) (ptIndex vaddr)) := hrec.load_table hi hj hpde
      rw [hpde, if_pos rfl, hload, Option.bind_some] at h
      cases hpte : present (pteOf s.mem s.cr3 (pdIndex vaddr) (ptIndex vaddr)) with
      | true =>
          rw [hpte, if_pos rfl] at h
          cases h
          exact .inl ⟨rfl, rfl, rfl, rfl⟩
      | false =>
          rw [hpte, if_neg (by simp), hrec.store_table hi hj hpde, Option.bind_some] at h
          cases h
          exact .inr (.inl ⟨rfl, rfl, rfl, rfl, rfl⟩)
  | false =>
      rw [hpde, if_neg (by simp)] at h
      obtain ⟨u, hu, -⟩ := Option.bind_eq_some_iff.mp h
      obtain ⟨pt, hspare, hframe, hcr3, hmem⟩ := hv.newTable hi hpde hu
      rw [hv.mapFrame_new hva hpde hu hspare hframe hcr3 hmem] at hcall
      obtain ⟨rfl, rfl⟩ := Prod.mk.inj (Option.some.inj hcall)
      exact .inr (.inr ⟨rfl, rfl, hcr3, pt, hspare, hframe, rfl⟩)

/-! ## The translations afterwards -/

/-- The directory entry through which the changed table is reached: that of the page, or the
last one when the page has no table yet. -/
def slot (s : Vmm) (vaddr : ℕ) : ℕ :=
    if present (entry s.mem s.cr3 (pdIndex vaddr)) then pdIndex vaddr else 1023

/-- No other entry of the directory leads to the table that is changed. -/
def Alone (s : Vmm) (vaddr : ℕ) : Prop :=
  ∀ k < 1024, k ≠ slot s vaddr → present (entry s.mem s.cr3 k) = true →
    pteAddr (entry s.mem s.cr3 k) ≠ pteAddr (entry s.mem s.cr3 (slot s vaddr))

/-- An entry of the directory that was absent, and that leads to no page. -/
def LeadsNowhere (m : Bytes) (e : ℕ) : Prop :=
  large e = false ∧ ∀ k < 1024, present (entry m (pteAddr e) k) = false

section others
variable {e : ℕ}

theorem withEntry_entry {m : Bytes} {dir d k : ℕ} (hd : pageSize ∣ d) (hk : k < 1024) (hj : j < 1024)
    (hne : d ≠ pteAddr (entry m dir i) ∨ k ≠ j) : entry (withEntry m dir i j e) d k = entry m d k :=
  entry_setEntry_other hd (dvd_pteAddr (entry_lt ..)) hk hj hne e

theorem withEntry_self {m : Bytes} {dir : ℕ} (he : e < word) :
    entry (withEntry m dir i j e) (pteAddr (entry m dir i)) j = e := entry_setEntry _ _ _ he

/-- An entry in a table of the directory is the translation of its page. -/
theorem walk_withEntry (hrec : s.Recursive) (hva : vaddr < word)
    (hpde : present (entry s.mem s.cr3 (pdIndex vaddr)) = true)
    (hpte : present (pteOf s.mem s.cr3 (pdIndex vaddr) (ptIndex vaddr)) = false) (he : e < word)
    (hep : present e = true) :
    walk (withEntry s.mem s.cr3 (pdIndex vaddr) (ptIndex vaddr) e) s.cr3 vaddr = some e := by
  have hi := pdIndex_lt hva
  have hj := ptIndex_lt vaddr
  have hdir : entry (withEntry s.mem s.cr3 (pdIndex vaddr) (ptIndex vaddr) e) s.cr3 (pdIndex vaddr) =
      entry s.mem s.cr3 (pdIndex vaddr) := by
    apply withEntry_entry hrec.dvd hi hj
    by_contra hboth
    push Not at hboth
    unfold pteOf at hpte
    rw [← hboth.1, ← hboth.2, hpde] at hpte
    cases hpte
  rw [walk_small (by rw [hdir]; exact hpde) (by rw [hdir]; exact hrec.small _ hi hpde), hdir,
    withEntry_self he, hep]
  rfl

/-- An entry in a table of the directory changes no other translation exactly if the table
hangs at one place, and is not the directory itself, or the entry leads nowhere. -/
theorem others_withEntry_iff (hrec : s.Recursive) (hva : vaddr < word)
    (hpde : present (entry s.mem s.cr3 (pdIndex vaddr)) = true)
    (hpte : present (pteOf s.mem s.cr3 (pdIndex vaddr) (ptIndex vaddr)) = false) (he : e < word)
    (hep : present e = true) :
    (∀ q < word, q / pageSize ≠ vaddr / pageSize →
      walk (withEntry s.mem s.cr3 (pdIndex vaddr) (ptIndex vaddr) e) s.cr3 q = walk s.mem s.cr3 q) ↔
    Alone s vaddr ∧ (pdIndex vaddr = 1023 → LeadsNowhere s.mem e) := by
  have hi := pdIndex_lt hva
  have hj := ptIndex_lt vaddr
  have hslot : slot s vaddr = pdIndex vaddr := if_pos hpde
  generalize hm : withEntry s.mem s.cr3 (pdIndex vaddr) (ptIndex vaddr) e = m'
  have hself : entry m' (pteAddr (entry s.mem s.cr3 (pdIndex vaddr))) (ptIndex vaddr) = e :=
      hm ▸ withEntry_self he
  have hother {d k : ℕ} (hd : pageSize ∣ d) (hk : k < 1024)
      (hne : d ≠ pteAddr (entry s.mem s.cr3 (pdIndex vaddr)) ∨ k ≠ ptIndex vaddr) :
      entry m' d k = entry s.mem d k :=
    hm ▸ withEntry_entry hd hk hj hne
  -- An entry of the directory that is present is not the one that changes.
  have hdir {k : ℕ} (hk : k < 1024) (hp : present (entry s.mem s.cr3 k) = true) :
      entry m' s.cr3 k = entry s.mem s.cr3 k := by
    apply hother hrec.dvd hk
    by_contra hboth
    push Not at hboth
    unfold pteOf at hpte
    rw [← hboth.1, ← hboth.2, hp] at hpte
    cases hpte
  generalize hI : pdIndex vaddr = i at *
  generalize hJ : ptIndex vaddr = j at *
  unfold pteOf at hpte
  have hpage {a c : ℕ} (ha : a < 1024) (hc : c < 1024) (hne : a ≠ i ∨ c ≠ j) :
      pageAddr a c < word ∧ pageAddr a c / pageSize ≠ vaddr / pageSize := by
    refine ⟨pageAddr_lt ha hc, fun heq => ?_⟩
    have hboth := (page_eq_iff _ _).mp heq
    rw [pageAddr_pdIndex hc, pageAddr_ptIndex hc, hI, hJ] at hboth
    rcases hne with hne | hne
    · exact hne hboth.1
    · exact hne hboth.2
  constructor
  · intro h
    constructor
    · -- The same page of another region that has the table.
      intro k hk hki hp heq
      rw [hslot] at hki heq
      have hq := h _ (hpage hk hj (.inl hki)).1 (hpage hk hj (.inl hki)).2
      have hd : entry m' s.cr3 (pdIndex (pageAddr k j)) = entry s.mem s.cr3 k := by
        rw [pageAddr_pdIndex hj]
        exact hdir hk hp
      rw [walk_small (by rw [hd]; exact hp) (by rw [hd]; exact hrec.small k hk hp), hd, heq,
        pageAddr_ptIndex hj, hself,
        hep, walk_small (by rw [pageAddr_pdIndex hj]; exact hp)
          (by rw [pageAddr_pdIndex hj]; exact hrec.small k hk hp),
        pageAddr_pdIndex hj, pageAddr_ptIndex hj, heq, hpte] at hq
      simp at hq
    · -- The region of the entry that the directory gets.
      intro hlast
      subst hlast
      rw [hrec.own] at hself hpte
      have hj' : j ≠ 1023 := by
        intro heq
        rw [heq, hrec.mapped] at hpte
        cases hpte
      have hregion (c : ℕ) (hc : c < 1024) : walk m' s.cr3 (pageAddr j c) = none := by
        rw [h _ (hpage hj hc (.inl hj')).1 (hpage hj hc (.inl hj')).2]
        apply walk_none
        rw [pageAddr_pdIndex hc]
        exact hpte
      have hnew (c : ℕ) (hc : c < 1024) : entry m' s.cr3 (pdIndex (pageAddr j c)) = e := by
        rw [pageAddr_pdIndex hc]
        exact hself
      have hsmall : large e = false := by
        by_contra hlarge
        rw [Bool.not_eq_false] at hlarge
        have hnone := hregion 0 (by omega)
        rw [walk_large (by rw [hnew 0 (by omega)]; exact hep)
          (by rw [hnew 0 (by omega)]; exact hlarge)] at hnone
        cases hnone
      have habsent (c : ℕ) (hc : c < 1024) : present (entry m' (pteAddr e) c) = false := by
        have hnone := hregion c hc
        rw [walk_small (by rw [hnew c hc]; exact hep) (by rw [hnew c hc]; exact hsmall), hnew c hc,
          pageAddr_ptIndex hc]
          at hnone
        simpa using hnone
      have hne : pteAddr e ≠ s.cr3 := by
        intro heq
        have hlast := habsent 1023 (by omega)
        rw [heq, hdir (by omega) hrec.mapped, hrec.mapped] at hlast
        cases hlast
      refine ⟨hsmall, fun c hc => ?_⟩
      rw [← hother (dvd_pteAddr he) hc (.inl (by rw [hrec.own]; exact hne))]
      exact habsent c hc
  · rintro ⟨halone, hnowhere⟩ q hq hne
    have ha := pdIndex_lt hq
    have hc := ptIndex_lt q
    generalize hA : pdIndex q = a at *
    generalize hC : ptIndex q = c at *
    have hpages : a ≠ i ∨ c ≠ j := by
      by_contra hboth
      push Not at hboth
      exact hne ((page_eq_iff _ _).mpr ⟨by rw [hA, hI, hboth.1], by rw [hC, hJ, hboth.2]⟩)
    cases hp : present (entry s.mem s.cr3 a) with
    | true =>
        apply walk_congr
        · rw [hA]
          exact hdir ha hp
        · intro _
          rw [hA, hC]
          apply hother (dvd_pteAddr (entry_lt ..)) hc
          rcases hpages with hai | hcj
          · left
            have := halone a ha (by rw [hslot]; exact hai) hp
            rwa [hslot] at this
          · exact .inr hcj
    | false =>
        have hold : walk s.mem s.cr3 q = none := walk_none (by rw [hA]; exact hp)
        rw [hold]
        by_cases hchanged : s.cr3 ≠ pteAddr (entry s.mem s.cr3 i) ∨ a ≠ j
        · apply walk_none
          rw [hA, hother hrec.dvd ha hchanged]
          exact hp
        · push Not at hchanged
          obtain ⟨hdirT, rfl⟩ := hchanged
          have hlast : i = 1023 := by
            by_contra hi'
            apply halone 1023 (by omega) (by rw [hslot]; exact Ne.symm hi') hrec.mapped
            rw [hrec.own, hslot]
            exact hdirT
          obtain ⟨hsmall, habsent⟩ := hnowhere hlast
          rw [← hdirT] at hself
          have hne' : pteAddr e ≠ s.cr3 := by
            intro heq
            have h1023 := habsent 1023 (by omega)
            rw [heq, hrec.mapped] at h1023
            cases h1023
          rw [walk_small (by rw [hA, hself]; exact hep) (by rw [hA, hself]; exact hsmall), hA, hself, hC,
            hother (dvd_pteAddr he) hc (.inl (by rw [← hdirT]; exact hne')), habsent c hc]
          rfl

/-- The page of the window in which a new table for the page appears. -/
def ShowsNewTable (s : Vmm) (vaddr q : ℕ) : Prop :=
  present (entry s.mem s.cr3 (pdIndex vaddr)) = false ∧ pdIndex q = 1023 ∧ ptIndex q = pdIndex vaddr

theorem walk_withTable (hrec : s.Recursive) (hva : vaddr < word) (hframe : IsFrame pt)
    (hne : s.cr3 ≠ pt) (he : e < word)
    (hep : present e = true) :
    walk (withTable s.mem s.cr3 (pdIndex vaddr) pt (ptIndex vaddr) e) s.cr3 vaddr = some e := by
  have hi := pdIndex_lt hva
  have hj := ptIndex_lt vaddr
  have hdir : entry (withTable s.mem s.cr3 (pdIndex vaddr) pt (ptIndex vaddr) e) s.cr3 (pdIndex vaddr)
      = pt ||| pteFlags 7 := by
    rw [withTable_other hframe hrec.dvd hne hi hj]
    exact entry_setEntry _ _ _ (hframe.or_lt 7)
  rw [walk_small (by rw [hdir]; exact hframe.present 7) (by rw [hdir, hframe.large]; rfl), hdir, hframe.pteAddr,
    withTable_own he hj, if_pos rfl, hep]
  rfl

/-- A new table changes no translation but those of its page and of its own page in the window
exactly if the directory hangs at its last entry only. -/
theorem others_withTable_iff (hv : s.Valid P F) (hva : vaddr < word)
    (hpde : present (entry s.mem s.cr3 (pdIndex vaddr)) = false) (hspare : pt ∈ s.spare F) (hframe : IsFrame pt)
    (he : e < word) :
    (∀ q < word, q / pageSize ≠ vaddr / pageSize → ¬ ShowsNewTable s vaddr q →
      walk (withTable s.mem s.cr3 (pdIndex vaddr) pt (ptIndex vaddr) e) s.cr3 q = walk s.mem s.cr3 q) ↔
    Alone s vaddr := by
  have hrec := hv.recursive
  have hi := pdIndex_lt hva
  have hj := ptIndex_lt vaddr
  have hslot : slot s vaddr = 1023 := by
    unfold slot
    rw [hpde]
    rfl
  have hne : s.cr3 ≠ pt := fun heq => hv.cr3_not_spare (heq ▸ hspare)
  generalize hm : withTable s.mem s.cr3 (pdIndex vaddr) pt (ptIndex vaddr) e = m'
  have hother {d k : ℕ} (hd : pageSize ∣ d) (hdpt : d ≠ pt) (hk : k < 1024)
      (hchanged : d ≠ s.cr3 ∨ k ≠ pdIndex vaddr) : entry m' d k = entry s.mem d k := by
    rw [← hm, withTable_other hframe hd hdpt hk hj]
    exact entry_setEntry_other hd hrec.dvd hk hi hchanged _
  have hnew : entry m' s.cr3 (pdIndex vaddr) = pt ||| pteFlags 7 := by
    rw [← hm, withTable_other hframe hrec.dvd hne hi hj]
    exact entry_setEntry _ _ _ (hframe.or_lt 7)
  have htable {k : ℕ} (hk : k < 1024) : entry m' pt k = if k = ptIndex vaddr then e else 0 :=
      hm ▸ withTable_own he hk
  have hinUse {k : ℕ} (hk : k < 1024) (hp : present (entry s.mem s.cr3 k) = true) :
      pteAddr (entry s.mem s.cr3 k) ≠ pt :=
    fun heq => hv.inUse k hk hp (heq ▸ hspare)
  generalize hI : pdIndex vaddr = i at *
  generalize hJ : ptIndex vaddr = j at *
  have hdir {k : ℕ} (hk : k < 1024) (hki : k ≠ i) : entry m' s.cr3 k = entry s.mem s.cr3 k :=
    hother hrec.dvd hne hk (.inr hki)
  constructor
  · -- The same page of another region whose table is the directory.
    intro h k hk hki hp heq
    rw [hslot] at hki heq
    rw [hrec.own] at heq
    have hne' : k ≠ i := by
      intro hki'
      rw [hki', hpde] at hp
      cases hp
    have hpage : pageAddr k i / pageSize ≠ vaddr / pageSize := by
      intro hsame
      have hboth := (page_eq_iff _ _).mp hsame
      rw [pageAddr_pdIndex hi, hI] at hboth
      exact hne' hboth.1
    have hq := h _ (pageAddr_lt hk hi) hpage fun hshow => hki (by rw [← hshow.2.1, pageAddr_pdIndex hi])
    have hd : entry m' s.cr3 (pdIndex (pageAddr k i)) = entry s.mem s.cr3 k := by
      rw [pageAddr_pdIndex hi]
      exact hdir hk hne'
    rw [walk_small (by rw [hd]; exact hp) (by rw [hd]; exact hrec.small k hk hp), hd, heq,
      pageAddr_ptIndex hi, hnew,
      hframe.present, walk_small (by rw [pageAddr_pdIndex hi]; exact hp)
      (by rw [pageAddr_pdIndex hi]; exact hrec.small k hk hp), pageAddr_pdIndex hi, pageAddr_ptIndex hi,
        heq, hpde] at hq
    cases hq
  · intro halone q hq hpage hshow
    have ha := pdIndex_lt hq
    have hc := ptIndex_lt q
    generalize hA : pdIndex q = a at *
    generalize hC : ptIndex q = c at *
    by_cases hai : a = i
    · subst hai
      have hcj : c ≠ j := by
        intro hcj
        exact hpage ((page_eq_iff _ _).mpr ⟨by rw [hA, hI], by rw [hC, hJ, hcj]⟩)
      have hold : walk s.mem s.cr3 q = none := walk_none (by rw [hA]; exact hpde)
      rw [hold, walk_small (by rw [hA, hnew]; exact hframe.present 7)
        (by rw [hA, hnew, hframe.large]; rfl), hA, hnew,
        hframe.pteAddr, hC, htable hc, if_neg hcj]
      rfl
    · apply walk_congr
      · rw [hA]
        exact hdir ha hai
      · rw [hA, hC]
        intro hp
        apply hother (dvd_pteAddr (entry_lt ..)) (hinUse ha hp) hc
        by_contra hboth
        push Not at hboth
        have hlast : a = 1023 := by
          by_contra hne'
          apply halone a ha (by rw [hslot]; exact hne') hp
          rw [hslot, hrec.own]
          exact hboth.1
        apply hshow
        unfold ShowsNewTable
        rw [hI, hA, hC]
        exact ⟨hpde, hlast, hboth.2⟩

end others

/-! ## All or nothing -/

/-- What a call that took the kernel from `s` to `t` with the result `r` has to achieve: the
page alone is mapped, to the frame and with the flags, or nothing has changed. -/
structure AllOrNothing (P : Pool) (F : Set ℕ) (s t : Vmm) (paddr vaddr flags : ℕ) (r : ℤ) : Prop where
  mapped : r = 0 → ∃ e, walk t.mem t.cr3 vaddr = some e ∧
    (if paddr = 0 then pteAddr e ∈ F else pteAddr e = paddr) ∧
    pteFlags e = pteFlags (flags ||| pteP)
  others : r = 0 → ∀ q < word, q / pageSize ≠ vaddr / pageSize → ¬ ShowsNewTable s vaddr q →
    walk t.mem t.cr3 q = walk s.mem s.cr3 q
  unchanged : r = -1 → ∀ q < word, walk t.mem t.cr3 q = walk s.mem s.cr3 q
  frames : r = -1 → t.boot = s.boot ∧ ∀ G, FreeFrames P s.buddy G → FreeFrames P t.buddy G

/-- A call that fails and changes nothing. -/
theorem AllOrNothing.refl (s : Vmm) (paddr vaddr flags : ℕ) : AllOrNothing P F s s paddr vaddr flags (-1) :=
  ⟨by simp, by simp, fun _ _ _ => rfl, fun _ => ⟨rfl, fun _ hG => hG⟩⟩

/-- `vmm_map_page` is to allocate, and there is no frame. -/
def NoFrame (s : Vmm) (paddr : ℕ) : Prop := paddr = 0 ∧ ∃ b, s.buddy.buddyAlloc 0 = some (0, b)

/-- The frame that is mapped. -/
def Supplied (s : Vmm) (paddr p : ℕ) : Prop :=
  if paddr = 0 then p ≠ 0 ∧ ∃ b, s.buddy.buddyAlloc 0 = some (p, b) else p = paddr

def Taken (s : Vmm) (vaddr : ℕ) : Prop := (walk s.mem s.cr3 vaddr).isSome

/-- The page is free and its table is no part of another region; in the window itself the
frame must not map anything. -/
structure Fits (s : Vmm) (paddr vaddr flags : ℕ) : Prop where
  aligned : pageSize ∣ paddr
  alone : s.Alone vaddr
  window : pdIndex vaddr = 1023 → flags.testBit 7 = false ∧
    ∀ p, s.Supplied paddr p → ∀ k < 1024, present (entry s.mem p k) = false

theorem taken_iff (hrec : s.Recursive) (hva : vaddr < word) : s.Taken vaddr ↔
    present (entry s.mem s.cr3 (pdIndex vaddr)) = true ∧
      present (pteOf s.mem s.cr3 (pdIndex vaddr) (ptIndex vaddr)) = true := by
  unfold Taken
  cases hpde : present (entry s.mem s.cr3 (pdIndex vaddr)) with
  | false =>
      rw [walk_none hpde]
      simp
  | true =>
      have hwalk : walk s.mem s.cr3 vaddr = if present (pteOf s.mem s.cr3 (pdIndex vaddr) (ptIndex vaddr)) then
          some (pteOf s.mem s.cr3 (pdIndex vaddr) (ptIndex vaddr)) else none :=
        walk_small hpde (hrec.small _ (pdIndex_lt hva) hpde)
      rw [hwalk]
      cases hpte : present (pteOf s.mem s.cr3 (pdIndex vaddr) (ptIndex vaddr)) with
      | false => simp
      | true => simp

theorem leadsNowhere_iff {m : Bytes} (hp : IsFrame p) : LeadsNowhere m (p ||| pteFlags (flags ||| pteP)) ↔
    flags.testBit 7 = false ∧ ∀ k < 1024, present (entry m p k) = false := by
  unfold LeadsNowhere
  rw [hp.large, hp.pteAddr, Nat.testBit_or, show pteP.testBit 7 = false from rfl, Bool.or_false]

theorem or_lt_word (hp : p < word) (f : ℕ) : p ||| pteFlags f < word :=
  Nat.or_lt_two_pow hp ((pteFlags_lt f).trans (by decide))

theorem or_present_true (p flags : ℕ) : present (p ||| pteFlags (flags ||| pteP)) = true := by
  rw [← or_present]
  exact present_flags _

/-- A page that is taken stays as it is. -/
theorem Valid.mapFrame_taken (hv : s.Valid P F) (hva : vaddr < word) (htaken : s.Taken vaddr)
    (h : s.mapFrame paddr vaddr flags = some (r, t)) : r = -1 ∧ t = s := by
  obtain ⟨hpde, hpte⟩ := (taken_iff hv.recursive hva).mp htaken
  rcases hv.mapFrame hva h with ⟨-, -, hr, ht⟩ | ⟨-, habsent, -⟩ | ⟨habsent, -⟩
  · exact ⟨hr, ht⟩
  · rw [hpte] at habsent
    cases habsent
  · rw [hpde] at habsent
    cases habsent

/-- A page that is free gets the frame. -/
theorem Valid.mapFrame_free (hv : s.Valid P F) (hva : vaddr < word) (hp : p < word) (hfree : ¬ s.Taken vaddr)
    (h : s.mapFrame p vaddr flags = some (r, t)) : r = 0 ∧
      walk t.mem t.cr3 vaddr = some (p ||| pteFlags (flags ||| pteP)) ∧
      ((∀ q < word, q / pageSize ≠ vaddr / pageSize → ¬ ShowsNewTable s vaddr q →
          walk t.mem t.cr3 q = walk s.mem s.cr3 q) ↔
        s.Alone vaddr ∧ (pdIndex vaddr = 1023 → LeadsNowhere s.mem (p ||| pteFlags (flags ||| pteP)))) := by
  have hrec := hv.recursive
  have he := or_lt_word hp (flags ||| pteP)
  have hep := or_present_true p flags
  rcases hv.mapFrame hva h with ⟨hpde, hpte, -⟩ | ⟨hpde, hpte, hr, hcr3, hmem⟩ |
    ⟨hpde, hr, hcr3, pt, hspare, hframe, hmem⟩
  · exact absurd ((taken_iff hrec hva).mpr ⟨hpde, hpte⟩) hfree
  · rw [hmem, hcr3]
    refine ⟨hr, walk_withEntry hrec hva hpde hpte he hep, ?_⟩
    rw [← others_withEntry_iff hrec hva hpde hpte he hep]
    have hshow (q : ℕ) : ¬ ShowsNewTable s vaddr q := by
      rintro ⟨habsent, -⟩
      rw [hpde] at habsent
      cases habsent
    exact ⟨fun h q hq hne => h q hq hne (hshow q), fun h q hq hne _ => h q hq hne⟩
  · have hne : s.cr3 ≠ pt := fun heq => hv.cr3_not_spare (heq ▸ hspare)
    have hlast : pdIndex vaddr ≠ 1023 := by
      intro heq
      rw [heq, hrec.mapped] at hpde
      cases hpde
    rw [hmem, hcr3]
    refine ⟨hr, walk_withTable hrec hva hframe hne he hep, ?_⟩
    rw [others_withTable_iff hv hva hpde hspare hframe he]
    exact ⟨fun halone => ⟨halone, fun heq => absurd heq hlast⟩, fun h => h.1⟩

/-- A directory at 0x1000 that is its own last table and has one more, with one page at 16 MiB. -/
def onePage : Bytes :=
  setEntry (setEntry (setEntry (fun _ => 0) 0x1000 4 0x2007) 0x2000 0 0x3007) 0x1000 1023 0x1003

def onePageVmm (b : BuddyAllocator) (active : Bool) : Vmm :=
  { buddy := b, mem := onePage, pageDirectory := 0x1000, direct := fun _ => true, cr3 := 0x1000,
    boot := smallMachine,
    memblockIsActive := active }

theorem onePage_entries : ∀ i < 1024, present (entry onePage 0x1000 i) = true →
    pteAddr (entry onePage 0x1000 i) ≤ 0x2000 ∧ large (entry onePage 0x1000 i) = false := by
  decide +kernel

theorem onePage_recursive (b : BuddyAllocator) (active : Bool) : (onePageVmm b active).Recursive := by
  refine ⟨?_, ?_, ?_, fun i hi hp => (onePage_entries i hi hp).2⟩
  · change pageSize ∣ 0x1000
    decide
  · change pteAddr (entry onePage 0x1000 1023) = 0x1000
    decide
  · change present (entry onePage 0x1000 1023) = true
    decide

/-- The allocator of a machine with 16 MiB has frames, all of them behind these pages. -/
theorem exists_frames : ∃ b P F, FreeFrames P b F ∧ (∀ p ∈ F, 0x3000 < p) ∧
    ∃ p b', b.buddyAlloc 0 = some (p, b') ∧ p ≠ 0 := by
  have hinit : ((buddyInit smallMachine fun _ => 0).any fun r =>
      v2p r.1.base = 0x800000 && (r.1.buddyAlloc 0).any fun x => x.1 ≠ 0) = true := by
    decide +kernel
  obtain ⟨⟨b, m'⟩, hb, hr⟩ := (Option.any_eq_true _ _).mp hinit
  obtain ⟨hbase, hr⟩ := Bool.and_eq_true_iff.mp hr
  obtain ⟨⟨p, b'⟩, halloc, hp⟩ := (Option.any_eq_true _ _).mp hr
  obtain ⟨P, free, hinv, -⟩ := buddyInit_spec (by decide) hb
  refine ⟨b, P, {p | ∃ i < P.pages, p = P.paddr i}, ⟨free, [], hinv, fun p => by simp⟩, ?_, p, b',
    halloc, by simpa using hp⟩
  rintro q ⟨i, hi, rfl⟩
  have hlt : P.pbase < word := by
    have := P.paddr_lt hi
    simp only [Pool.paddr] at this
    omega
  have hbase' : v2p b.base = 0x800000 := of_decide_eq_true hbase
  rw [hinv.base_eq, ← P.p2v_pbase, v2p_p2v hlt] at hbase'
  simp only [Pool.paddr]
  omega

theorem onePage_valid {b : BuddyAllocator} (hfree : FreeFrames P b F) (hlow : ∀ p ∈ F, 0x3000 < p) :
    (onePageVmm b false).Valid P F := by
  refine ⟨onePage_recursive b false, hfree, ?_, ?_, fun i hi hp hmem => ?_⟩
  · change pageSize ∣ 0x200000
    decide
  · change 8 * pageSize ∣ 0x1000000
    decide
  · have hle : pteAddr (entry onePage 0x1000 i) ≤ 0x2000 := (onePage_entries i hi hp).1
    have hlt : 0x3000 < pteAddr (entry onePage 0x1000 i) := hlow _ hmem
    omega

theorem onePage_table : entry onePage 0x1000 4 = 0x2007 ∧ entry onePage 0x2000 0 = 0x3007 ∧
    entry onePage 0x2000 1 = 0 := by
  decide

/-- The page at 16 MiB is taken, the one behind it is free. -/
theorem onePage_mapFrame (b : BuddyAllocator) (p : ℕ) :
    (onePageVmm b false).mapFrame p 0x1000000 7 = some (-1, onePageVmm b false) ∧
      (onePageVmm b false).mapFrame p 0x1001000 7 =
        some (0, { onePageVmm b false with mem := setEntry onePage 0x2000 1 (p ||| pteFlags 7 ||| pteP) }) := by
  have hrec := onePage_recursive b false
  obtain ⟨hdir, htaken, hfree⟩ := onePage_table
  have hload : (onePageVmm b false).load (windowAddr 1023 4) = some 0x2007 := by
    rw [hrec.load_directory (by omega)]
    exact congrArg some hdir
  have hpresent : present (entry (onePageVmm b false).mem (onePageVmm b false).cr3 4) = true := by
    change present (entry onePage 0x1000 4) = true
    rw [hdir]
    rfl
  have haddr : pteAddr (entry (onePageVmm b false).mem (onePageVmm b false).cr3 4) = 0x2000 := by
    change pteAddr (entry onePage 0x1000 4) = 0x2000
    rw [hdir]
    rfl
  have hentry (j : ℕ) (hj : j < 1024) : (onePageVmm b false).load (windowAddr 4 j) = some
      (entry onePage 0x2000 j) := by
    rw [hrec.load_table (by omega) hj hpresent, haddr]
    rfl
  unfold mapFrame
  rw [show pdIndex 0x1000000 = 4 from rfl, show ptIndex 0x1000000 = 0 from rfl,
    show pdIndex 0x1001000 = 4 from rfl,
    show ptIndex 0x1001000 = 1 from rfl, hload]
  simp only [Option.bind_eq_bind, Option.bind_some]
  rw [if_pos (show present 0x2007 = true from rfl), if_pos (show present 0x2007 = true from rfl),
    hentry 0 (by omega),
    hentry 1 (by omega), htaken, hfree, Option.bind_some, Option.bind_some,
      if_pos (show present 0x3007 = true from rfl),
    if_neg (show ¬ present 0 = true from by decide), hrec.store_table (by omega) (by omega) hpresent, haddr]
  exact ⟨rfl, rfl⟩

end Vmm
end Ferrite.Memory
