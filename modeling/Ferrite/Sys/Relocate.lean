import Mathlib
import Ferrite.Library.Patches
import Ferrite.Sys.LoaderBounds

/-!
# The relocated text

What a module holds when its `init_module` is called, for an object whose allocated sections are
one `.text` and sections named `.rodata*`: each word of the text that has a relocation is the word
of the file plus the value of its symbol. Of the sections named `.rodata*` only the last is
copied, and `section_addrs` has no entry for an absolute symbol.
-/
namespace Ferrite.Sys
open Packed Word Packed.Image Loops

/-- `SHN_ABS`, and the first reserved number of a section. -/
def shnAbs : ℕ := 0xfff1
def shnLoreserve : ℕ := 0xff00

/-- `r_offset`, the type, and the symbol of the relocation at `rel`. -/
def relOffset (I : Image) (rel : ℕ) : ℕ := get 4 I.byte rel
def relType (I : Image) (rel : ℕ) : ℕ := get 4 I.byte (wadd rel 4) % 256
def relSymbol (I : Image) (symtab rel : ℕ) : ℕ := symbolAt symtab (get 4 I.byte (wadd rel 4) / 256)

/-- The fields of the symbol at `sym`. -/
def symName (I : Image) (sym : ℕ) : ℕ := get 4 I.byte sym
def symValue (I : Image) (sym : ℕ) : ℕ := get 4 I.byte (wadd sym 4)
def symType (I : Image) (sym : ℕ) : ℕ := get 1 I.byte (wadd sym 12) % 16
def symSection (I : Image) (sym : ℕ) : ℕ := get 2 I.byte (wadd sym 14)

/-- The relocations of the text in section `i`, and all of them in the order of the loader. -/
def relocationsIn (I : Image) (i : ℕ) : List ℕ :=
  if RelText I i then (List.range (relCount I i)).map (relIn I i) else []
def relocations (I : Image) : List ℕ := (List.range (sectionCount I)).flatMap (relocationsIn I)

/-- The address of the copy of section `k`. -/
def copyAddr (I : Image) (S : Sections) (code k : ℕ) : Option ℕ :=
  if lastNamed I (cstr textName) (sectionCount I) = some k then some code
  else if lastNamed I rodataName (sectionCount I) = some k then some (wadd code (sectionSize I S.text))
  else none

/-- The value of the symbol at `sym`, by what it refers to. -/
inductive Denotes (env : LoadEnv) (I : Image) (S : Sections) (code sym : ℕ) : ℕ → Prop
  | exported {k : ℕ} {s : List Byte} : symSection I sym = 0 → symbolNames[k]? = some s →
      I.Starts (wadd (sectionOffset I S.strtab) (symName I sym)) (cstr s) → Denotes env I S code sym
        (env.exported k)
  | absolute : symSection I sym = shnAbs → Denotes env I S code sym (symValue I sym)
  | defined {base : ℕ} : symSection I sym ≠ 0 → symSection I sym < shnLoreserve →
      copyAddr I S code (symSection I sym) = some base → Denotes env I S code sym (wadd base (symValue I sym))

/-- A symbol that a relocation may refer to: one of an exported name, an absolute one, or one of
an allocated section. -/
def SymbolAllowed (I : Image) (S : Sections) (sym : ℕ) : Prop :=
  (symSection I sym = 0 ∧ symType I sym ≠ sttSection ∧
    ∃ s ∈ symbolNames, I.Starts (wadd (sectionOffset I S.strtab) (symName I sym)) (cstr s)) ∨
  (symSection I sym = shnAbs ∧ symType I sym ≠ sttSection) ∨
  (0 < symSection I sym ∧ symSection I sym < sectionCount I ∧
    (Named I (cstr textName) (symSection I sym) ∨ Named I rodataName (symSection I sym)) ∧
    (symType I sym = sttSection → symValue I sym = 0))

instance (I : Image) (S : Sections) : DecidablePred (SymbolAllowed I S) := fun _ =>
  inferInstanceAs (Decidable (_ ∨ _ ∨ _))

/-- A relocatable object: the relocations are of words of the text that lie apart, with symbols of
the three kinds. -/
structure Relocatable (I : Image) (S : Sections) : Prop where
  sections : sectionsOf I = some S
  count : sectionCount I ≤ shnLoreserve
  in_text : ∀ rel ∈ relocations I, relOffset I rel + 4 ≤ sectionSize I S.text
  apart : (relocations I).Pairwise (FieldsApart 4 (relOffset I))
  symbols : ∀ rel ∈ relocations I, SymbolAllowed I S (relSymbol I (sectionOffset I S.symtab) rel)

/-- The word that a relocation asks for: the word of the file, the value of the symbol, and the
place of the word. -/
def wordFor (type orig s place : ℕ) : ℕ :=
  if type = r386_32 then wadd orig s else wsub (wadd orig s) place

/-- The words of the text are what the relocations ask for. -/
def TextRelocated (env : LoadEnv) (I : Image) (S : Sections) (m : Started) : Prop :=
  ∀ rel ∈ relocations I, ∃ s, Denotes env I S m.layout.code (relSymbol I (sectionOffset I S.symtab) rel) s ∧
    get 4 m.mem (relOffset I rel) = wordFor (relType I rel)
      (get 4 I.byte (sectionOffset I S.text + relOffset I rel)) s (wadd m.layout.code (relOffset I rel))

/-- The loader takes the right address for the symbol at `sym`. -/
def SymbolServed (env : LoadEnv) (I : Image) (S : Sections) (code sym : ℕ) : Prop :=
  symSection I sym = 0 ∨
  (symSection I sym = shnAbs ∧ ∃ w ∈ env.pastAddrs shnAbs, w % word = 0) ∨
  (symSection I sym < shnLoreserve ∧ ∃ base ∈ copyAddr I S code (symSection I sym),
    symSection I sym < maxSections ∨ ∃ w ∈ env.pastAddrs (symSection I sym), w % word = base % word)

variable {env : LoadEnv} {I : Image} {L : Layout} {S : Sections} {rel sym : ℕ} {mem mem' : Bytes} {m : Started}

/-! ## The words after the loops -/

/-- The address that the loader takes for the symbol of a relocation. -/
def addrTaken (env : LoadEnv) (I : Image) (L : Layout) (rel : ℕ) : ℕ :=
  ((symbolAddr env I L (relSymbol I L.symtab rel)).getD none).getD 0

/-- What the loader adds to the word of a relocation. -/
def addend (env : LoadEnv) (I : Image) (L : Layout) (rel : ℕ) : ℕ :=
  if relType I rel = r386_32 then addrTaken env I L rel
  else wsub (addrTaken env I L rel) (wadd L.code (relOffset I rel))

/-- One relocation, as a patch. -/
def relocPatch (env : LoadEnv) (I : Image) (L : Layout) : Bytes → ℕ → Bytes :=
  patch 4 (relOffset I) fun rel w => wadd w (addend env I L rel)

/-- The symbol of the relocation has been found. -/
def Resolved (env : LoadEnv) (I : Image) (L : Layout) (rel : ℕ) : Prop :=
  symbolAddr env I L (relSymbol I L.symtab rel) = some (some (addrTaken env I L rel))

theorem relocate_patch (h : relocate env I L rel mem = some (.ok mem')) :
    mem' = relocPatch env I L mem rel ∧ Resolved env I L rel := by
  unfold relocate rOffset rInfo at h
  simp only [Option.bind_eq_bind, read_bind_eq_some] at h
  obtain ⟨-, -, h⟩ := h
  obtain ⟨addr, haddr, h⟩ := Option.bind_eq_some_iff.mp h
  have haddr' : symbolAddr env I L (relSymbol I L.symtab rel) = some addr := haddr
  cases addr with
  | none => cases h
  | some addr =>
      have htaken : addrTaken env I L rel = addr := by simp [addrTaken, haddr']
      refine ⟨?_, by rw [Resolved, haddr', htaken]⟩
      have haddend : addend env I L rel =
          if relType I rel = r386_32 then addr else wsub addr (wadd L.code (relOffset I rel)) := by
        rw [addend, htaken]
      have hput : ∀ v, addWord L mem (relOffset I rel) v = some mem' → addend env I L rel = v →
          mem' = relocPatch env I L mem rel := by
        intro v hv hadd
        unfold addWord at hv
        split_ifs at hv
        rw [relocPatch, patch, hadd, ← Option.some_inj.mp hv]
      split_ifs at h with h1 h2
      · obtain ⟨w, hw, h⟩ := Option.bind_eq_some_iff.mp h
        cases h
        exact hput addr hw (by rw [haddend, relType, if_pos h1])
      · obtain ⟨w, hw, h⟩ := Option.bind_eq_some_iff.mp h
        cases h
        exact hput _ hw (by rw [haddend, relType, if_neg h1, relOffset])
      · cases h

theorem relocateFrom_patches {rels n : ℕ} (h : relocateFrom env I L rels n 0 mem = some (.ok mem')) :
    mem' = ((List.range n).map (relAt rels)).foldl (relocPatch env I L) mem ∧
      ∀ rel ∈ (List.range n).map (relAt rels), Resolved env I L rel := by
  obtain ⟨rfl, hall⟩ := (relocateFrom_loop rels).ok_eq (fun j mem mem' => relocate_patch) h
  constructor
  · rw [List.foldl_map, List.range_eq_range']
  · intro rel hrel
    obtain ⟨j, hj, rfl⟩ := List.mem_map.mp hrel
    exact hall j (Nat.zero_le j) (by simpa using hj)

theorem relocateSection_patches {i : ℕ}
    (h : relocateSection env I L (namesAt I) (header I i) mem = some (.ok mem')) :
    mem' = (relocationsIn I i).foldl (relocPatch env I L) mem ∧ ∀ rel ∈ relocationsIn I i,
      Resolved env I L rel := by
  obtain ⟨-, -, -, h⟩ := relocateSection_eq_some.mp h
  unfold relocationsIn
  split_ifs at h ⊢
  · exact relocateFrom_patches h
  · cases h
    exact ⟨rfl, nofun⟩

/-- The loops over the sections and their relocations apply the relocations one after the other. -/
theorem relocateSections_patches
    (h : relocateSections env I L (get 4 I.byte 32) (namesAt I) (sectionCount I) 0 mem = some (.ok mem')) :
    mem' = (relocations I).foldl (relocPatch env I L) mem ∧ ∀ rel ∈ relocations I, Resolved env I L rel := by
  obtain ⟨rfl, hall⟩ := (relocateSections_loop _ _).ok_eq (fun i mem mem' => relocateSection_patches) h
  constructor
  · rw [relocations, List.foldl_flatMap, List.range_eq_range']
  · intro rel hrel
    obtain ⟨i, hi, hrel⟩ := List.mem_flatMap.mp hrel
    exact hall i (Nat.zero_le i) (by simpa using hi) rel hrel

/-! ## The symbols -/

/-- The lookup of an exported name finds its address. -/
theorem lookupFrom_exported {name a : ℕ} {l : List (List Byte)} {i : ℕ}
    (hname : ∃ s ∈ l, I.Starts name (cstr s)) (h : lookupFrom env I name l i = some a) :
    ∃ k s, l[k]? = some s ∧ I.Starts name (cstr s) ∧ a = env.exported (i + k) := by
  induction l generalizing i with
  | nil => simp at hname
  | cons s l ih =>
      unfold lookupFrom at h
      simp only [Option.bind_eq_bind, startsWith_bind_eq_some, decide_eq_true_eq] at h
      obtain ⟨-, h⟩ := h
      split_ifs at h with hs
      · exact ⟨0, s, rfl, hs, (Option.some_inj.mp h).symm⟩
      · have hrest : ∃ s ∈ l, I.Starts name (cstr s) := by
          obtain ⟨t, ht, hstarts⟩ := hname
          rcases List.mem_cons.mp ht with rfl | ht
          · exact absurd hstarts hs
          · exact ⟨t, ht, hstarts⟩
        obtain ⟨k, t, hk, ht, rfl⟩ := ih hrest h
        exact ⟨k + 1, t, hk, ht, by rw [Nat.add_right_comm, Nat.add_assoc]⟩

/-- The address that the loader takes, by the kind of the symbol. -/
theorem symbolAddr_eq {addr : ℕ} (h : symbolAddr env I L sym = some (some addr)) :
    (symType I sym = sttSection ∧ sectionAddr env L (symSection I sym) = some addr) ∨
    (symType I sym ≠ sttSection ∧ symSection I sym = 0 ∧
      ksymLookup env I (wadd L.strtab (symName I sym)) = some addr) ∨
    (symType I sym ≠ sttSection ∧ symSection I sym ≠ 0 ∧
      ∃ base, sectionAddr env L (symSection I sym) = some base ∧ addr = wadd base (symValue I sym)) := by
  unfold symbolAddr stInfo stShndx at h
  simp only [Option.bind_eq_bind, read_bind_eq_some] at h
  obtain ⟨-, -, h⟩ := h
  split_ifs at h with hsection hzero
  · obtain ⟨base, hbase, h⟩ := Option.bind_eq_some_iff.mp h
    cases h
    exact Or.inl ⟨hsection, hbase⟩
  · obtain ⟨-, h⟩ := read_bind_eq_some.mp h
    obtain ⟨a, ha, h⟩ := Option.bind_eq_some_iff.mp h
    split_ifs at h
    · cases h
      exact Or.inr (Or.inl ⟨hsection, hzero, ha⟩)
    · cases h
  · obtain ⟨base, hbase, h⟩ := Option.bind_eq_some_iff.mp h
    obtain ⟨-, h⟩ := read_bind_eq_some.mp h
    cases h
    exact Or.inr (Or.inr ⟨hsection, hzero, base, hbase, rfl⟩)

theorem symValue_lt : symValue I sym < word := get_lt 4 I.byte _

/-- The section of an allocated symbol has the address of its copy in `section_addrs`. -/
theorem addrsOf_copyAddr {code k base : ℕ} (hS : sectionsOf I = some S) (hk : k < maxSections)
    (h : copyAddr I S code k = some base) : addrsOf I S code k = base := by
  obtain ⟨-, hnum, -⟩ := sectionsOf_eq_some hS
  unfold copyAddr at h
  split_ifs at h with htext hrodata
  · obtain ⟨hlt, hname, -⟩ := lastNamed_eq_some.mp htext
    have hin : k < min S.shnum maxSections := lt_min (hnum ▸ hlt) hk
    rw [addrsOf, if_pos hin, if_pos hname, Option.some_inj.mp h]
  · obtain ⟨hlt, hname, -⟩ := lastNamed_eq_some.mp hrodata
    have hin : k < min S.shnum maxSections := lt_min (hnum ▸ hlt) hk
    have htext : ¬ Named I (cstr textName) k := fun hname' =>
      absurd (starts_unique (by decide) (by decide) hname' hname) (by decide)
    rw [addrsOf, if_pos hin, if_neg htext, if_pos hname, Option.some_inj.mp h]

/-- The address that is taken is the value of the symbol when the loader serves such symbols. -/
theorem denotes_iff {code addr : ℕ} (hS : sectionsOf I = some S) (hcount : sectionCount I ≤ shnLoreserve)
    (hsym : SymbolAllowed I S sym) (h : symbolAddr env I (layoutOf I S code) sym = some (some addr)) :
    (∃ s, Denotes env I S code sym s ∧ s % word = addr % word) ↔ SymbolServed env I S code sym := by
  have hvalue := @symValue_lt I sym
  rcases hsym with ⟨hzero, htype, hname⟩ | ⟨habs, htype⟩ | ⟨hpos, hlt, hnamed, hsection⟩
  · rcases symbolAddr_eq h with ⟨ht, -⟩ | ⟨-, -, hlookup⟩ | ⟨-, hne, -⟩
    · exact absurd ht htype
    · obtain ⟨k, s, hk, hs, haddr⟩ := lookupFrom_exported hname hlookup
      rw [Nat.zero_add] at haddr
      exact ⟨fun _ => Or.inl hzero, fun _ => ⟨_, .exported hzero hk hs, by rw [haddr]⟩⟩
    · exact absurd hzero hne
  · have hne : symSection I sym ≠ 0 := by simp [habs, shnAbs]
    have hreserved : ¬ symSection I sym < shnLoreserve := by simp [habs, shnAbs, shnLoreserve]
    rcases symbolAddr_eq h with ⟨ht, -⟩ | ⟨-, hz, -⟩ | ⟨-, -, base, hbase, rfl⟩
    · exact absurd ht htype
    · exact absurd hz hne
    · have hpast : env.pastAddrs shnAbs = some base := by
        rw [habs] at hbase
        exact hbase
      have hdenotes : ∀ s, Denotes env I S code sym s ↔ s = symValue I sym := by
        intro s
        constructor
        · intro hs
          cases hs with
          | exported hz => exact absurd hz hne
          | absolute => rfl
          | defined _ hr => exact absurd hr hreserved
        · rintro rfl
          exact .absolute habs
      have hzero : symValue I sym % word = wadd base (symValue I sym) % word ↔ base % word = 0 := by
        unfold wadd word at *
        omega
      rw [habs] at hne hreserved
      simp only [hdenotes, exists_eq_left, hzero, SymbolServed, habs, hne, hreserved, hpast, Option.mem_def,
        Option.some_inj, exists_eq_left', false_or, true_and, false_and, or_false]
  · have hne : symSection I sym ≠ 0 := by omega
    have hreserved : symSection I sym < shnLoreserve := by omega
    have habs : symSection I sym ≠ shnAbs := by
      unfold shnAbs
      unfold shnLoreserve at hreserved
      omega
    obtain ⟨base, hbase, haddr⟩ : ∃ base, sectionAddr env (layoutOf I S code) (symSection I sym) = some base ∧
        addr % word = wadd base (symValue I sym) % word := by
      rcases symbolAddr_eq h with ⟨ht, hbase⟩ | ⟨-, hz, -⟩ | ⟨-, -, base, hbase, rfl⟩
      · exact ⟨addr, hbase, by simp [hsection ht, wadd]⟩
      · exact absurd hz hne
      · exact ⟨base, hbase, rfl⟩
    have hdenotes : ∀ s, Denotes env I S code sym s ↔
        ∃ base' ∈ copyAddr I S code (symSection I sym), wadd base' (symValue I sym) = s := by
      intro s
      constructor
      · intro hs
        cases hs with
        | exported hz => exact absurd hz hne
        | absolute ha => exact absurd ha habs
        | defined _ _ hbase => exact ⟨_, hbase, rfl⟩
      · rintro ⟨base', hbase', rfl⟩
        exact .defined hne hreserved hbase'
    -- The entry is the address of the copy, or what lies behind the array.
    have hentry : ∀ base' ∈ copyAddr I S code (symSection I sym),
        (wadd base' (symValue I sym) % word = addr % word ↔ symSection I sym < maxSections ∨
          ∃ w ∈ env.pastAddrs (symSection I sym), w % word = base' % word) := by
      intro base' hbase'
      have hmod : wadd base' (symValue I sym) % word = addr % word ↔ base % word = base' % word := by
        rw [haddr]
        unfold wadd word at *
        omega
      rw [hmod]
      unfold sectionAddr at hbase
      split_ifs at hbase with hk
      · have heq : base = base' := by
          rw [← Option.some_inj.mp hbase, ← addrsOf_copyAddr hS hk hbase']
          rfl
        simp [heq, hk]
      · simp [hbase, hk]
    simp only [hdenotes, SymbolServed, hne, habs, hreserved, false_or, false_and, true_and]
    constructor
    · rintro ⟨s, ⟨base', hbase', rfl⟩, hs⟩
      exact ⟨base', hbase', (hentry base' hbase').mp hs⟩
    · rintro ⟨base', hbase', hs⟩
      exact ⟨_, ⟨base', hbase', rfl⟩, (hentry base' hbase').mpr hs⟩

/-! ## The relocated text -/

/-- The addend of the loader makes the word that is asked for when the address is right. -/
theorem wordFor_eq_iff {orig s addr place type : ℕ} (hplace : place < word) :
    wadd orig (if type = r386_32 then addr else wsub addr place) = wordFor type orig s place ↔
      s % word = addr % word := by
  unfold wordFor wadd wsub
  unfold word at *
  split_ifs <;> omega

/-- The memory of a module that is loaded: the copies, with the relocations applied. -/
theorem loadModule_mem (hS : sectionsOf I = some S) (h : loadModule env I = some (.ok m)) :
    PlacesInside I S ∧ m.layout = layoutOf I S m.layout.code ∧
      m.mem = (relocations I).foldl (relocPatch env I m.layout) (copied env I S) ∧
      ∀ rel ∈ relocations I, Resolved env I m.layout rel := by
  obtain ⟨S', hfind, L, mem, hplace, hlink⟩ := loadModule_eq_ok.mp h
  obtain ⟨-, -, hscan, hS'⟩ := findSections_eq_ok.mp hfind
  obtain rfl := Option.some_inj.mp (hS.symm.trans hS')
  obtain ⟨-, code, -, hinside, rfl, rfl⟩ := (placeSections_eq_ok hS hscan).mp hplace
  obtain ⟨mem', hreloc, -, value, -, init, -, rfl⟩ := linkModule_eq_ok.mp hlink
  obtain ⟨hoff, hnum, hnames, -⟩ := sectionsOf_eq_some hS
  rw [hoff, hnum, hnames] at hreloc
  obtain ⟨hmem, hall⟩ := relocateSections_patches hreloc
  exact ⟨hinside, rfl, hmem, hall⟩

/-- A word of the text before the relocations is the word of the file. -/
theorem copied_text {o : ℕ} (ho : o + 4 ≤ sectionSize I S.text) :
    get 4 (copied env I S) o = get 4 I.byte (sectionOffset I S.text + o) := by
  have htext : get 4 (copy (sectionSize I S.text) env.fresh 0 I.byte (sectionOffset I S.text)) o =
      get 4 I.byte (sectionOffset I S.text + o) := by
    have hcopy : get 4 (copy (sectionSize I S.text) env.fresh 0 I.byte (sectionOffset I S.text)) (0 + o) =
        get 4 I.byte (sectionOffset I S.text + o) := get_copy ho
    rwa [Nat.zero_add] at hcopy
  rw [← htext, copied]
  cases S.rodata with
  | none => rfl
  | some hdr => exact get_copy_of_disjoint (Or.inl ho)

/-- The words of the text are what the relocations ask for exactly when the loader takes the
right address for the symbol of every relocation: an exported symbol, or one of the text or of
the last section of read-only data with a number below 256. For another number, and for an
absolute symbol, it depends on what lies behind `section_addrs`. -/
theorem text_relocated_iff (env : LoadEnv) (I : Image) (S : Sections) (m : Started) (hI : Relocatable I S)
    (h : loadModule env I = some (.ok m)) : TextRelocated env I S m ↔ ∀ rel ∈ relocations I,
      SymbolServed env I S m.layout.code (relSymbol I (sectionOffset I S.symtab) rel) := by
  obtain ⟨-, hlayout, hmem, hresolved⟩ := loadModule_mem hI.sections h
  apply forall₂_congr
  intro rel hrel
  have hsymtab : m.layout.symtab = sectionOffset I S.symtab := by
    rw [hlayout]
    rfl
  have haddr := hresolved rel hrel
  rw [Resolved, hsymtab, hlayout] at haddr
  rw [← denotes_iff hI.sections hI.count (hI.symbols rel hrel) haddr, ← hlayout]
  have hword : get 4 m.mem (relOffset I rel) = wadd (get 4 I.byte (sectionOffset I S.text + relOffset I rel))
      (addend env I m.layout rel) := by
    rw [hmem, relocPatch, get_patches hI.apart hrel, copied_text (hI.in_text rel hrel)]
    exact Nat.mod_eq_of_lt (wadd_lt _ _)
  rw [hword]
  apply exists_congr
  intro s
  apply and_congr_right
  intro _
  exact wordFor_eq_iff (wadd_lt _ _)

/-! ## An object -/

/-- The bytes of a field of four bytes, and a header of a section. -/
def field32 (v : ℕ) : List ℕ := [v % 256, v / 256 % 256, v / 65536 % 256, v / 16777216]
def headerBytes (name type flags offset size : ℕ) : List ℕ :=
  [name, type, flags, 0, offset, size, 0, 0, 4, 0].flatMap field32

/-- The bytes of a symbol. -/
def symbolBytes (name value info shndx : ℕ) : List ℕ :=
  [name, value, 0].flatMap field32 ++ [info, 0, shndx % 256, shndx / 256]

/-- The byte at `i` of a file in pieces, the last piece first, each with its offset. -/
def pieceAt : List (ℕ × List ℕ) → ℕ → ℕ
  | [], _ => 0
  | (o, bytes) :: rest, i => if o ≤ i then bytes.getD (i - o) 0 else pieceAt rest i

/-- An object with a text of two words, the second of which has a relocation with symbol `k` of
five: the null symbol, the one of the text, the absolute symbol `4660`, `init_module` at the
start of the text, and `printk`. There are six sections, with their names in the last. -/
def objectPieces (k : ℕ) : List (ℕ × List ℕ) :=
  [(408, headerBytes 27 3 0 168 37), (368, headerBytes 19 3 0 148 20), (328, headerBytes 11 2 0 68 80),
    (288, headerBytes 1 9 0 60 8), (248, headerBytes 5 1 6 52 8), (208, headerBytes 0 0 0 0 0),
    -- `.shstrtab` and `.strtab`.
    (168, [0, 46, 114, 101, 108, 46, 116, 101, 120, 116, 0, 46, 115, 121, 109, 116, 97, 98, 0,
      46, 115, 116, 114, 116, 97, 98, 0, 46, 115, 104, 115, 116, 114, 116, 97, 98, 0]),
    (148, [0, 105, 110, 105, 116, 95, 109, 111, 100, 117, 108, 101, 0, 112, 114, 105, 110, 116, 107, 0]),
    -- `.symtab`, `.rel.text` and `.text`.
    (132, symbolBytes 13 0 16 0), (116, symbolBytes 1 0 18 1), (100, symbolBytes 0 4660 16 0xfff1),
    (84, symbolBytes 0 0 3 1), (68, symbolBytes 0 0 0 0), (60, [4, 256 * k + 1].flatMap field32),
    (52, [195, 0].flatMap field32),
    (40, [52, 0, 0, 0, 0, 0, 40, 0, 6, 0, 5, 0]), (20, [1, 0, 0, 208, 0].flatMap field32),
    (0, [0x7f, 69, 76, 70, 1, 1, 1, 0, 0, 0, 0, 0, 0, 0, 0, 0, 1, 0, 3, 0])]

def objectImage (k : ℕ) : Image := ⟨448, fun i => .ofNat 8 (pieceAt (objectPieces k) i)⟩

def objectSections : Sections := ⟨208, 6, 168, 328, 368, 248, none⟩

/-- A kernel that has memory at 2 MiB, and a stack with the word 7 behind the array. -/
def stackEnv : LoadEnv :=
  { smallEnv with
    kmalloc := fun _ => some 2097152
    pastAddrs := fun _ => some 7 }

/-- The second word of the text of the module that is loaded. -/
def loadedWord (env : LoadEnv) (I : Image) : Option (ℕ × ℕ) :=
  match loadModule env I with
  | some (.ok m) => some (m.layout.code, get 4 m.mem 4)
  | _ => none

theorem exists_of_loadedWord {p : ℕ × ℕ} (h : loadedWord env I = some p) :
    ∃ m, loadModule env I = some (.ok m) ∧ m.layout.code = p.1 ∧ get 4 m.mem 4 = p.2 := by
  unfold loadedWord at h
  split at h
  case h_1 m hm =>
    obtain rfl := Option.some_inj.mp h
    exact ⟨m, hm, rfl, rfl⟩
  case h_2 => cases h

theorem object_relocatable : ∀ k ∈ [2, 4], Relocatable (objectImage k) objectSections := by
  intro k hk
  have hrel : relocations (objectImage k) = [60] := by
    revert k
    decide
  constructor
  · revert k
    decide
  · revert k
    decide
  · rw [hrel]
    revert k
    decide
  · simp [hrel]
  · rw [hrel]
    revert k
    decide

theorem text_relocated_iff_printk : ∃ m, loadModule stackEnv (objectImage 4) = some (.ok m) ∧
    (TextRelocated stackEnv (objectImage 4) objectSections m ↔ ∀ rel ∈ relocations (objectImage 4),
      SymbolServed stackEnv (objectImage 4) objectSections m.layout.code
        (relSymbol (objectImage 4) (sectionOffset (objectImage 4) objectSections.symtab) rel)) := by
  have hword : loadedWord stackEnv (objectImage 4) = some (2097152, 1048576) := by decide
  obtain ⟨m, hm, -⟩ := exists_of_loadedWord hword
  exact ⟨m, hm, text_relocated_iff stackEnv (objectImage 4) objectSections m
    (object_relocatable 4 (by decide)) hm⟩

/-- The value of an absolute symbol is added to a word of the stack. -/
theorem not_text_relocated_absolute : ¬ ∀ (env : LoadEnv) (I : Image) (S : Sections) (m : Started),
    Relocatable I S → loadModule env I = some (.ok m) → TextRelocated env I S m := by
  intro h
  have hword : loadedWord stackEnv (objectImage 2) = some (2097152, 4667) := by decide
  obtain ⟨m, hm, -, hmem⟩ := exists_of_loadedWord hword
  have hrel : 60 ∈ relocations (objectImage 2) := by decide
  obtain ⟨s, hs, hvalue⟩ := h stackEnv (objectImage 2) objectSections m
      (object_relocatable 2 (by decide)) hm 60 hrel
  have hoffset : relOffset (objectImage 2) 60 = 4 := by decide
  have htype : relType (objectImage 2) 60 = r386_32 := by decide
  have horig : get 4 (objectImage 2).byte (sectionOffset (objectImage 2) objectSections.text + 4) = 0 := by
    decide
  rw [hoffset, htype, horig, hmem, wordFor, if_pos rfl] at hvalue
  have hsection : symSection (objectImage 2)
      (relSymbol (objectImage 2) (sectionOffset (objectImage 2) objectSections.symtab) 60)
        = shnAbs := by decide
  cases hs with
  | exported hz =>
      rw [hsection] at hz
      cases hz
  | absolute =>
      have hsym : symValue (objectImage 2)
          (relSymbol (objectImage 2) (sectionOffset (objectImage 2) objectSections.symtab) 60) = 4660 := by
        decide
      rw [hsym] at hvalue
      cases hvalue
  | defined _ hlt =>
      rw [hsection] at hlt
      exact absurd hlt (by decide)

end Ferrite.Sys
