import Ferrite.Sys.LoaderSections

/-!
# What the loader touches

The conditions under which the loader stays inside of the image, of the memory of the module,
of `section_addrs` and of the table of exported symbols. Each loop is inside when its steps are
inside up to the one that it leaves at.
-/
namespace Ferrite.Sys
open Packed Word Packed.Image Loops

/-- The environment in which nothing is known of what lies behind the tables. -/
def LoadEnv.checked (env : LoadEnv) : LoadEnv :=
  { env with pastAddrs := fun _ => none, pastSymbols := fun _ => none }

/-- The string at `name` lies in the image and is the name of an exported symbol. -/
def Exported (I : Image) (name : ℕ) : Prop := ∃ s ∈ symbolNames, I.Within name (cstr s) ∧ I.Starts name (cstr s)

/-- What is read and looked up for the symbol at `sym`. -/
def SymbolInside (I : Image) (L : Layout) (sym : ℕ) : Prop :=
  wadd sym 12 + 1 ≤ I.len ∧ wadd sym 14 + 2 ≤ I.len ∧
    if get 1 I.byte (wadd sym 12) % 16 = sttSection then get 2 I.byte (wadd sym 14) < maxSections
    else if get 2 I.byte (wadd sym 14) = 0 then
      sym + 4 ≤ I.len ∧ Exported I (wadd L.strtab (get 4 I.byte sym))
    else get 2 I.byte (wadd sym 14) < maxSections ∧ wadd sym 4 + 4 ≤ I.len

def KnownType (I : Image) (rel : ℕ) : Prop :=
  get 4 I.byte (wadd rel 4) % 256 = r386_32 ∨ get 4 I.byte (wadd rel 4) % 256 = r386Pc32

/-- What is touched for the relocation at `rel`. -/
def RelocationInside (I : Image) (L : Layout) (rel : ℕ) : Prop :=
  rel + 4 ≤ I.len ∧ wadd rel 4 + 4 ≤ I.len ∧
    SymbolInside I L (symbolAt L.symtab (get 4 I.byte (wadd rel 4) / 256)) ∧
    (KnownType I rel → get 4 I.byte rel + 4 ≤ L.total)

variable {env : LoadEnv} {I : Image} {L : Layout} {name sym rel k i n : ℕ} {mem : Bytes}

/-! ## Symbols -/

theorem symbolNames_ne : ∀ s ∈ symbolNames, (0 : Byte) ∉ s := by decide

theorem lookupFrom_isSome {l : List (List Byte)} (hl : ∀ s ∈ l, (0 : Byte) ∉ s) :
    (lookupFrom env.checked I name l i).isSome ↔ ∃ s ∈ l, I.Within name (cstr s) ∧ I.Starts name (cstr s) := by
  induction l generalizing i with
  | nil => simp [lookupFrom, LoadEnv.checked]
  | cons s l ih =>
      have hrest := ih (i := i + 1) fun t ht => hl t (List.mem_cons_of_mem s ht)
      unfold lookupFrom
      simp only [Option.bind_eq_bind, startsWith_bind_isSome, decide_eq_true_eq, List.exists_mem_cons_iff]
      split_ifs with h
      · constructor
        · rintro ⟨hw, -⟩
          exact Or.inl ⟨hw, h⟩
        · rintro (⟨hw, -⟩ | ⟨t, ht, hw, hstarts⟩)
          · exact ⟨hw, rfl⟩
          · exact ⟨hw.of_starts hstarts (hl s List.mem_cons_self), rfl⟩
      · rw [hrest]
        constructor
        · rintro ⟨-, ht⟩
          exact Or.inr ht
        · rintro (⟨-, hs⟩ | ⟨t, ht, hw, hstarts⟩)
          · exact absurd hs h
          · exact ⟨hw.of_starts hstarts (hl s List.mem_cons_self), t, ht, hw, hstarts⟩

theorem lookupFrom_ne_zero {l : List (List Byte)} {a : ℕ} (h : lookupFrom env.checked I name l i = some a) :
    a ≠ 0 := by
  induction l generalizing i with
  | nil => simp [lookupFrom, LoadEnv.checked] at h
  | cons s l ih =>
      unfold lookupFrom at h
      obtain ⟨b, -, h⟩ := Option.bind_eq_some_iff.mp h
      split_ifs at h
      · obtain rfl := Option.some_inj.mp h
        exact env.exported_ne i
      · exact ih h

theorem ksymLookup_isSome : (ksymLookup env.checked I name).isSome ↔ Exported I name :=
  lookupFrom_isSome symbolNames_ne

theorem sectionAddr_isSome : (sectionAddr env.checked L k).isSome ↔ k < maxSections := by
  unfold sectionAddr
  split_ifs with h <;> simp [h, LoadEnv.checked]

theorem symbolAddr_isSome : (symbolAddr env.checked I L sym).isSome ↔ SymbolInside I L sym := by
  unfold symbolAddr SymbolInside stInfo stShndx
  simp only [Option.bind_eq_bind, read_bind_isSome]
  apply and_congr_right
  intro _
  apply and_congr_right
  intro _
  split_ifs with hsection hzero
  · rw [← sectionAddr_isSome]
    cases sectionAddr env.checked L (get 2 I.byte (wadd sym 14)) <;> rfl
  · simp only [stName, read_bind_isSome]
    apply and_congr_right
    intro _
    rw [← ksymLookup_isSome]
    cases hlookup : ksymLookup env.checked I (wadd L.strtab (get 4 I.byte sym)) with
    | none => rfl
    | some a =>
        have ha : a ≠ 0 := lookupFrom_ne_zero hlookup
        simp [ha]
  · rw [← sectionAddr_isSome]
    cases sectionAddr env.checked L (get 2 I.byte (wadd sym 14)) with
    | none => simp
    | some a => simp [stValue, read_bind_isSome]

/-- Every symbol that is looked up inside of the table is found. -/
theorem symbolAddr_found {r : Option ℕ} (h : symbolAddr env.checked I L sym = some r) : r ≠ none := by
  unfold symbolAddr at h
  obtain ⟨info, -, h⟩ := Option.bind_eq_some_iff.mp h
  obtain ⟨shndx, -, h⟩ := Option.bind_eq_some_iff.mp h
  split_ifs at h with hsection hzero
  · obtain ⟨a, -, h⟩ := Option.bind_eq_some_iff.mp h
    simp [← Option.some_inj.mp h]
  · obtain ⟨value, -, h⟩ := Option.bind_eq_some_iff.mp h
    obtain ⟨a, hlookup, h⟩ := Option.bind_eq_some_iff.mp h
    rw [if_pos (lookupFrom_ne_zero hlookup)] at h
    simp [← Option.some_inj.mp h]
  · obtain ⟨a, -, h⟩ := Option.bind_eq_some_iff.mp h
    obtain ⟨value, -, h⟩ := Option.bind_eq_some_iff.mp h
    simp [← Option.some_inj.mp h]

/-! ## Relocations -/

theorem relocate_eq_some {r : Except LoadError Bytes} : relocate env.checked I L rel mem = some r ↔
    RelocationInside I L rel ∧ ∃ addr, symbolAddr env.checked I L
      (symbolAt L.symtab (get 4 I.byte (wadd rel 4) / 256)) =
      some (some addr) ∧
        (if get 4 I.byte (wadd rel 4) % 256 = r386_32 then
          .ok (put 4 mem (get 4 I.byte rel) (wadd (get 4 mem (get 4 I.byte rel)) addr))
        else if get 4 I.byte (wadd rel 4) % 256 = r386Pc32 then
          .ok (put 4 mem (get 4 I.byte rel) (wadd (get 4 mem (get 4 I.byte rel))
            (wsub addr (wadd L.code (get 4 I.byte rel)))))
        else .error (.relocation L.code)) = r := by
  unfold relocate rOffset rInfo RelocationInside
  simp only [Option.bind_eq_bind, read_bind_eq_some, and_assoc]
  apply and_congr_right
  intro _
  apply and_congr_right
  intro _
  rw [← @symbolAddr_isSome env]
  cases hsym : symbolAddr env.checked I L (symbolAt L.symtab (get 4 I.byte (wadd rel 4) / 256)) with
  | none => simp
  | some addr =>
      cases addr with
      | none => exact absurd rfl (symbolAddr_found hsym)
      | some addr =>
          simp only [Option.bind_some, addWord, KnownType]
          split_ifs <;> simp_all

theorem relocate_isSome : (relocate env.checked I L rel mem).isSome ↔ RelocationInside I L rel := by
  rw [Option.isSome_iff_exists]
  simp only [relocate_eq_some]
  constructor
  · rintro ⟨r, h, -⟩
    exact h
  · intro h
    obtain ⟨r, hr⟩ := Option.isSome_iff_exists.mp ((@symbolAddr_isSome env I L _).mpr h.2.2.1)
    obtain ⟨addr, rfl⟩ := Option.ne_none_iff_exists'.mp (symbolAddr_found hr)
    exact ⟨_, h, addr, hr, rfl⟩

theorem relocate_ok : (∃ mem', relocate env.checked I L rel mem = some (.ok mem')) ↔
    RelocationInside I L rel ∧ KnownType I rel := by
  constructor
  · rintro ⟨mem', h⟩
    obtain ⟨hin, addr, -, h⟩ := relocate_eq_some.mp h
    refine ⟨hin, ?_⟩
    unfold KnownType
    split_ifs at h with h1 h2
    · exact Or.inl h1
    · exact Or.inr h2
  · rintro ⟨hin, hknown⟩
    obtain ⟨r, hr⟩ := Option.isSome_iff_exists.mp ((@relocate_isSome env I L rel mem).mpr hin)
    obtain ⟨-, addr, -, h⟩ := relocate_eq_some.mp hr
    unfold KnownType at hknown
    split_ifs at h with h1 h2
    · exact ⟨_, h ▸ hr⟩
    · exact ⟨_, h ▸ hr⟩
    · exact absurd hknown (not_or.mpr ⟨h1, h2⟩)

/-- Section `i` holds relocations of the text. -/
def RelText (I : Image) (i : ℕ) : Prop := get 4 I.byte (wadd (header I i) 4) = shtRel ∧
    Named I (cstr relTextName) i

instance (I : Image) : DecidablePred (RelText I) := fun _ => inferInstanceAs (Decidable (_ ∧ _))

/-- `rels[j]` of section `i`, and their number. -/
def relIn (I : Image) (i j : ℕ) : ℕ := relAt (sectionOffset I (header I i)) j
def relCount (I : Image) (i : ℕ) : ℕ := sectionSize I (header I i) / 8

/-- All relocations of the text in section `i` have a type that the loader knows. -/
def SectionKnown (I : Image) (i : ℕ) : Prop := RelText I i → ∀ j < relCount I i, KnownType I (relIn I i j)

/-- What is touched for section `i` by the loop over the relocations. -/
def RelocationsInside (I : Image) (L : Layout) (i : ℕ) : Prop :=
  wadd (header I i) 4 + 4 ≤ I.len ∧
    (get 4 I.byte (wadd (header I i) 4) = shtRel →
      header I i + 4 ≤ I.len ∧ I.Within (sectionName I i) (cstr relTextName)) ∧
    (RelText I i → wadd (header I i) 16 + 4 ≤ I.len ∧ wadd (header I i) 20 + 4 ≤ I.len ∧
      ∀ j < relCount I i, (∀ k < j, KnownType I (relIn I i k)) → RelocationInside I L (relIn I i j))

theorem relocateFrom_loop (rels : ℕ) : Loop (fun j => relocate env I L (relAt rels j))
    (relocateFrom env I L rels) where
  done _ _ := rfl
  next n j mem := by
    conv => lhs; unfold relocateFrom
    apply congrArg
    funext r
    cases r <;> rfl

theorem relocateSections_loop (shoff shstrtab : ℕ) :
    Loop (fun i => relocateSection env I L shstrtab (sectionAt shoff i))
      (relocateSections env I L shoff shstrtab) where
  done _ _ := rfl
  next n i mem := by
    conv => lhs; unfold relocateSections
    apply congrArg
    funext r
    cases r <;> rfl

theorem relocateAll_ok {rels : ℕ} : (∃ mem', relocateFrom env.checked I L rels n 0 mem = some (.ok mem')) ↔
    ∀ j < n, RelocationInside I L (relAt rels j) ∧ KnownType I (relAt rels j) := by
  rw [(relocateFrom_loop rels).ok_iff fun j mem => relocate_ok]
  simp

theorem relocateAll_isSome {rels : ℕ} : (relocateFrom env.checked I L rels n 0 mem).isSome ↔
    ∀ j < n, (∀ k < j, KnownType I (relAt rels k)) → RelocationInside I L (relAt rels j) := by
  rw [(relocateFrom_loop rels).isSome_iff (fun j mem => relocate_isSome) fun j mem => relocate_ok]
  simp

/-- What the loop does with a section, by what it reads of its header. -/
theorem relocateSection_eq_some {r : Except LoadError Bytes} :
    relocateSection env I L (namesAt I) (header I i) mem = some r ↔ wadd (header I i) 4 + 4 ≤ I.len ∧
      (get 4 I.byte (wadd (header I i) 4) = shtRel →
        header I i + 4 ≤ I.len ∧ I.Within (sectionName I i) (cstr relTextName)) ∧
      (RelText I i → wadd (header I i) 16 + 4 ≤ I.len ∧ wadd (header I i) 20 + 4 ≤ I.len) ∧
      (if RelText I i then relocateFrom env I L (sectionOffset I (header I i)) (relCount I i) 0 mem
      else some (.ok mem)) = some r := by
  unfold relocateSection shType shName shOffset shSize
  simp only [Option.bind_eq_bind, read_bind_eq_some]
  apply and_congr_right
  intro _
  by_cases htype : get 4 I.byte (wadd (header I i) 4) = shtRel
  · rw [if_neg (not_not.mpr htype)]
    simp only [read_bind_eq_some, startsWith_bind_eq_some, htype, forall_const, and_assoc]
    apply and_congr_right
    intro _
    apply and_congr_right
    intro _
    by_cases hname : I.Starts (wadd (namesAt I) (get 4 I.byte (header I i))) (cstr relTextName)
    · have hrel : RelText I i := ⟨htype, hname⟩
      rw [if_pos (decide_eq_true hname), if_pos hrel]
      simp only [read_bind_eq_some, hrel, forall_const, and_assoc]
      exact Iff.rfl
    · have hrel : ¬ RelText I i := fun h => hname h.2
      simp [hname, hrel]
  · have hrel : ¬ RelText I i := fun h => htype h.1
    rw [if_pos htype, if_neg hrel]
    simp [htype, hrel]

theorem relocateSection_isSome :
    (relocateSection env.checked I L (namesAt I) (header I i) mem).isSome ↔ RelocationsInside I L i := by
  rw [Option.isSome_iff_exists]
  simp only [relocateSection_eq_some, RelocationsInside, exists_and_left]
  apply and_congr_right
  intro _
  apply and_congr_right
  intro _
  rw [← Option.isSome_iff_exists]
  by_cases hrel : RelText I i
  · rw [if_pos hrel, relocateAll_isSome]
    simp only [hrel, forall_const, and_assoc]
    exact Iff.rfl
  · rw [if_neg hrel]
    simp [hrel]

theorem relocateSection_ok :
    (∃ mem', relocateSection env.checked I L (namesAt I) (header I i) mem = some (.ok mem')) ↔
    RelocationsInside I L i ∧ SectionKnown I i := by
  simp only [relocateSection_eq_some, RelocationsInside, SectionKnown, exists_and_left, and_assoc]
  apply and_congr_right
  intro _
  apply and_congr_right
  intro _
  by_cases hrel : RelText I i
  · rw [if_pos hrel, relocateAll_ok]
    simp only [hrel, forall_const, and_assoc]
    apply and_congr_right
    intro _
    apply and_congr_right
    intro _
    constructor
    · intro h
      exact ⟨fun j hj _ => (h j hj).1, fun j hj => (h j hj).2⟩
    · rintro ⟨hin, hknown⟩ j hj
      exact ⟨hin j hj fun k hk => hknown k (hk.trans hj), hknown j hj⟩
  · rw [if_neg hrel]
    simp [hrel]

/-- The loop over all sections. -/
theorem relocateAllSections_isSome :
    (relocateSections env.checked I L (get 4 I.byte 32) (namesAt I) n 0 mem).isSome ↔
    ∀ i < n, (∀ k < i, SectionKnown I k) → RelocationsInside I L i := by
  rw [(relocateSections_loop _ _).isSome_iff (fun i mem => relocateSection_isSome) fun i mem =>
    relocateSection_ok]
  simp

theorem relocateAllSections_ok :
    (∃ mem', relocateSections env.checked I L (get 4 I.byte 32) (namesAt I) n 0 mem = some (.ok mem')) ↔
      ∀ i < n, RelocationsInside I L i ∧ SectionKnown I i := by
  rw [(relocateSections_loop _ _).ok_iff fun i mem => relocateSection_ok]
  simp

/-! ## The search for a function -/

/-- The name of symbol `i`. -/
def symbolName (I : Image) (L : Layout) (i : ℕ) : ℕ := wadd L.strtab (get 4 I.byte (symbolAt L.symtab i))

def SymbolNamed (I : Image) (L : Layout) (s : List Byte) (i : ℕ) : Prop := I.Starts (symbolName I L i) (cstr s)

/-- What the search touches of symbol `i`. -/
def EntryInside (I : Image) (L : Layout) (s : List Byte) (i : ℕ) : Prop :=
  symbolAt L.symtab i + 4 ≤ I.len ∧ I.Within (symbolName I L i) (cstr s) ∧
    (SymbolNamed I L s i → wadd (symbolAt L.symtab i) 4 + 4 ≤ I.len)

/-- The search among `n` symbols reads the image up to the first of the name. -/
def SearchInside (I : Image) (L : Layout) (s : List Byte) (n : ℕ) : Prop :=
  ∀ i < n, (∀ k < i, ¬ SymbolNamed I L s k) → EntryInside I L s i

/-- The first of `n` symbols of a name. -/
def FirstNamed (I : Image) (L : Layout) (s : List Byte) (n k : ℕ) : Prop :=
  k < n ∧ SymbolNamed I L s k ∧ ∀ j < k, ¬ SymbolNamed I L s j

variable {s : List Byte}

theorem findSymbol_isSome : (findSymbol I L s n i).isSome ↔
    ∀ k, i ≤ k → k < i + n → (∀ j, i ≤ j → j < k → ¬ SymbolNamed I L s j) → EntryInside I L s k := by
  induction n generalizing i with
  | zero =>
      rw [findSymbol]
      exact ⟨fun _ k hk hk' => by omega, fun _ => rfl⟩
  | succ n ih =>
      rw [reached_succ, ← ih]
      conv => lhs; unfold findSymbol
      unfold EntryInside stName
      simp only [Option.bind_eq_bind, read_bind_isSome, startsWith_bind_isSome, and_assoc]
      apply and_congr_right
      intro _
      apply and_congr_right
      intro _
      by_cases hname : I.Starts (symbolName I L i) (cstr s)
      · have hname' : SymbolNamed I L s i := hname
        rw [symbolName] at hname
        simp [hname, hname', stValue, read_bind_isSome]
      · have hname' : ¬ SymbolNamed I L s i := hname
        rw [symbolName] at hname
        simp [hname, hname']

theorem findSymbol_spec {r : Option ℕ} (h : findSymbol I L s n i = some r) :
    (r = none ∧ ∀ k, i ≤ k → k < i + n → ¬ SymbolNamed I L s k) ∨
      ∃ k, i ≤ k ∧ k < i + n ∧ SymbolNamed I L s k ∧ (∀ j, i ≤ j → j < k → ¬ SymbolNamed I L s j) ∧
        r = some (get 4 I.byte (wadd (symbolAt L.symtab k) 4)) := by
  induction n generalizing i with
  | zero =>
      obtain rfl := Option.some_inj.mp h
      exact Or.inl ⟨rfl, fun k hk hk' => by omega⟩
  | succ n ih =>
      unfold findSymbol stName at h
      simp only [Option.bind_eq_bind, read_bind_eq_some, startsWith_bind_eq_some] at h
      obtain ⟨-, -, h⟩ := h
      by_cases hname : I.Starts (wadd L.strtab (get 4 I.byte (symbolAt L.symtab i))) (cstr s)
      · rw [if_pos (decide_eq_true hname), stValue, read_bind_eq_some] at h
        obtain rfl := Option.some_inj.mp h.2
        exact Or.inr ⟨i, le_refl i, by omega, hname, fun j hj hj' => by omega, rfl⟩
      · simp only [hname, decide_false, Bool.false_eq_true, if_false] at h
        rcases ih h with ⟨rfl, hnone⟩ | ⟨k, hk, hk', hnamed, hfirst, hr⟩
        · exact Or.inl ⟨rfl, range_succ.mpr ⟨hname, hnone⟩⟩
        · refine Or.inr ⟨k, by omega, by omega, hnamed, fun j hj hj' => ?_, hr⟩
          rcases Nat.eq_or_lt_of_le hj with heq | hlt
          · exact heq ▸ hname
          · exact hfirst j hlt hj'

theorem searchInside_iff : (findSymbol I L s n 0).isSome ↔ SearchInside I L s n := by
  rw [findSymbol_isSome]
  simp [SearchInside]

/-- The module has a function of that name. -/
def HasFunction (I : Image) (L : Layout) (s : List Byte) (n : ℕ) : Prop :=
  ∃ k, FirstNamed I L s n k ∧ wadd L.code (get 4 I.byte (wadd (symbolAt L.symtab k) 4)) ≠ 0

theorem functionAt_ne_none {r : Option ℕ} (h : findSymbol I L s n 0 = some r) :
    functionAt L r ≠ none ↔ HasFunction I L s n := by
  unfold HasFunction FirstNamed
  rcases findSymbol_spec h with ⟨rfl, hnone⟩ | ⟨k, hk, hk', hnamed, hfirst, rfl⟩
  · simp only [functionAt]
    constructor
    · exact fun h => absurd rfl h
    · rintro ⟨k, ⟨hk, hnamed, -⟩, -⟩
      exact absurd hnamed (hnone k (by omega) (by omega))
  · have hunique : ∀ m, FirstNamed I L s n m → m = k := by
      rintro m ⟨hm, hm', hbefore⟩
      rcases Nat.lt_trichotomy m k with hlt | heq | hlt
      · exact absurd hm' (hfirst m (by omega) hlt)
      · exact heq
      · exact absurd hnamed (hbefore k hlt)
    simp only [functionAt]
    constructor
    · intro h
      refine ⟨k, ⟨by omega, hnamed, fun j hj => hfirst j (by omega) hj⟩, ?_⟩
      intro hz
      simp [hz] at h
    · rintro ⟨m, hm, hne⟩
      obtain rfl := hunique m hm
      simp [hne]

/-! ## The call -/

/-- The module that has been started is entered in the list. -/
def Entered (R : Registry) (ret : ℤ) (record : Bool) (args : Option ModuleName) : Prop :=
  0 ≤ ret ∧ record = true ∧ args.getD unknownName ∉ R.names

/-- The relocations and the tables of symbols stay inside, once the sections have been copied. -/
def LinkInside (I : Image) (S : Sections) (L : Layout) (entered : Prop) : Prop :=
  (∀ i < sectionCount I, (∀ k < i, SectionKnown I k) → RelocationsInside I L i) ∧
    ((∀ i < sectionCount I, SectionKnown I i) → wadd S.symtab 20 + 4 ≤ I.len ∧
      SearchInside I L initName (sectionSize I S.symtab / 16) ∧
      (HasFunction I L initName (sectionSize I S.symtab / 16) → entered →
        SearchInside I L cleanupName (sectionSize I S.symtab / 16)))

/-- Everything that the loader touches lies inside. -/
def ImageInside (env : LoadEnv) (I : Image) (entered : Prop) : Prop :=
  I.Within 0 elfIdent ∧ (I.Starts 0 elfIdent → ScanInside I ∧ ∀ S ∈ sectionsOf I, SizesInside I S ∧
    ∀ code ∈ env.kmalloc (totalSize I S), PlacesInside I S ∧ LinkInside I S (layoutOf I S code) entered)

variable {S : Sections} {R : Registry} {ret : ℤ} {record : Bool} {args : Option ModuleName}

theorem entered_iff {code size : ℕ} :
    ¬ (ret < 0 ∨ (R.create (args.getD unknownName) code size record).isNone) ↔ Entered R ret record args := by
  unfold Entered Registry.create
  rw [← Registry.find_none]
  cases R.find (args.getD unknownName) with
  | some mod => simp
  | none =>
      cases record with
      | false => simp
      | true => simp

theorem startModule_isSome {m : Started} : (startModule I R ret record args m).isSome ↔
    (Entered R ret record args → SearchInside I m.layout cleanupName m.numSyms) := by
  have hentered := @entered_iff R ret record args m.layout.code m.layout.total
  unfold startModule
  by_cases h : ret < 0 ∨
    (R.create (m.call ret record args none).name m.layout.code m.layout.total record).isNone
  · have hnot : ¬ Entered R ret record args := fun he => hentered.mpr he h
    rw [if_pos h]
    simp [hnot]
  · have hin : Entered R ret record args := hentered.mp h
    rw [if_neg h, ← searchInside_iff]
    cases findSymbol I m.layout cleanupName m.numSyms 0 <;> simp [hin]

/-- A module that is linked, and what it was made of. -/
theorem linkModule_eq_ok {env : LoadEnv} {m : Started} : linkModule env I S L mem = some (.ok m) ↔ ∃ mem',
    relocateSections env I L S.shoff S.shstrtab S.shnum 0 mem = some (.ok mem') ∧ wadd S.symtab 20 + 4 ≤ I.len ∧
      ∃ value, findSymbol I L initName (sectionSize I S.symtab / 16) 0 = some value ∧
        ∃ init, functionAt L value = some init ∧
          (⟨L, mem', sectionSize I S.symtab / 16, init⟩ : Started) = m := by
  unfold linkModule
  constructor
  · intro h
    obtain ⟨r, hreloc, h⟩ := Option.bind_eq_some_iff.mp h
    cases r with
    | error e => cases h
    | ok mem' =>
        obtain ⟨hsize, h⟩ := read_bind_eq_some.mp h
        obtain ⟨value, hvalue, h⟩ := Option.bind_eq_some_iff.mp h
        refine ⟨mem', hreloc, hsize, value, hvalue, ?_⟩
        cases hinit : functionAt L value with
        | none =>
            rw [hinit] at h
            cases h
        | some init =>
            rw [hinit] at h
            exact ⟨init, rfl, Except.ok.inj (Option.some_inj.mp h)⟩
  · rintro ⟨mem', hreloc, hsize, value, hvalue, init, hinit, rfl⟩
    refine Option.bind_eq_some_iff.mpr ⟨_, hreloc, read_bind_eq_some.mpr ⟨hsize, ?_⟩⟩
    refine Option.bind_eq_some_iff.mpr ⟨_, hvalue, ?_⟩
    rw [hinit]
    rfl

theorem linkInit_isSome {S : Sections} {mem : Bytes} :
    ((shSize I S.symtab).bind fun size => (findSymbol I L initName (size / 16) 0).bind fun value =>
      match functionAt L value with
      | none => some (Except.error (LoadError.noInit L.code))
      | some init => some (Except.ok (⟨L, mem, size / 16, init⟩ : Started))).isSome ↔
    wadd S.symtab 20 + 4 ≤ I.len ∧ SearchInside I L initName (sectionSize I S.symtab / 16) := by
  rw [shSize, read_bind_isSome, ← searchInside_iff, sectionSize]
  apply and_congr_right
  intro _
  cases findSymbol I L initName (get 4 I.byte (wadd S.symtab 20) / 16) 0 with
  | none => rfl
  | some value =>
      rw [Option.bind_some]
      cases functionAt L value <;> rfl

theorem linkModule_isSome (hS : sectionsOf I = some S) : (linkModule env.checked I S L mem).isSome ↔
    (∀ i < sectionCount I, (∀ k < i, SectionKnown I k) → RelocationsInside I L i) ∧
      ((∀ i < sectionCount I, SectionKnown I i) → wadd S.symtab 20 + 4 ≤ I.len ∧
        SearchInside I L initName (sectionSize I S.symtab / 16)) := by
  obtain ⟨hoff, hnum, hnames, -⟩ := sectionsOf_eq_some hS
  unfold linkModule
  rw [Option.bind_eq_bind, goesOn_isSome_iff fun e => rfl, hoff, hnum, hnames, relocateAllSections_isSome]
  apply and_congr_right
  intro hin
  have hok := @relocateAllSections_ok env I L (sectionCount I) mem
  constructor
  · intro h hknown
    obtain ⟨mem', hmem⟩ := hok.mpr fun i hi => ⟨hin i hi fun k hk => hknown k (hk.trans hi), hknown i hi⟩
    exact linkInit_isSome.mp (h mem' hmem)
  · intro h mem' hmem
    have hall := hok.mp ⟨mem', hmem⟩
    exact linkInit_isSome.mpr (h fun i hi => (hall i hi).2)

theorem loadModule_eq_ok {env : LoadEnv} {m : Started} : loadModule env I = some (.ok m) ↔
    ∃ S, findSections I = some (.ok S) ∧ ∃ L mem, placeSections env I S = some (.ok (L, mem)) ∧
      linkModule env I S L mem = some (.ok m) := by
  unfold loadModule
  constructor
  · intro h
    obtain ⟨r, hfind, h⟩ := Option.bind_eq_some_iff.mp h
    cases r with
    | error e => cases h
    | ok S =>
        obtain ⟨r, hplace, h⟩ := Option.bind_eq_some_iff.mp h
        cases r with
        | error e => cases h
        | ok p => exact ⟨S, hfind, p.1, p.2, hplace, h⟩
  · rintro ⟨S, hfind, L, mem, hplace, h⟩
    exact Option.bind_eq_some_iff.mpr ⟨_, hfind, Option.bind_eq_some_iff.mpr ⟨_, hplace, h⟩⟩

theorem loadModule_isSome {env : LoadEnv} : (loadModule env I).isSome ↔ (findSections I).isSome ∧
    ∀ S, findSections I = some (.ok S) → (placeSections env I S).isSome ∧
      ∀ L mem, placeSections env I S = some (.ok (L, mem)) → (linkModule env I S L mem).isSome := by
  unfold loadModule
  rw [Option.bind_eq_bind, goesOn_isSome_iff fun e => rfl]
  apply and_congr_right
  intro _
  apply forall₂_congr
  intro S _
  simp only [Option.bind_eq_bind]
  rw [goesOn_isSome_iff fun e => rfl]
  simp only [Prod.forall]

/-- A module is linked when all is inside, all types are known, and it has an `init_module`. -/
theorem exists_linkModule_ok (hS : sectionsOf I = some S) (h : (linkModule env.checked I S L mem).isSome) :
    (∃ m, linkModule env.checked I S L mem = some (.ok m)) ↔ (∀ i < sectionCount I, SectionKnown I i) ∧
      HasFunction I L initName (sectionSize I S.symtab / 16) := by
  obtain ⟨hoff, hnum, hnames, -⟩ := sectionsOf_eq_some hS
  obtain ⟨hin, hsearch⟩ := (linkModule_isSome hS).mp h
  simp only [linkModule_eq_ok, hoff, hnum, hnames]
  constructor
  · rintro ⟨m, mem', hmem, -, value, hvalue, init, hinit, -⟩
    constructor
    · exact fun i hi => (relocateAllSections_ok.mp ⟨mem', hmem⟩ i hi).2
    · exact (functionAt_ne_none hvalue).mp (by simp [hinit])
  · rintro ⟨hknown, hfun⟩
    obtain ⟨mem', hmem⟩ := relocateAllSections_ok.mpr fun i hi =>
      ⟨hin i hi fun k hk => hknown k (hk.trans hi), hknown i hi⟩
    obtain ⟨value, hvalue⟩ := Option.isSome_iff_exists.mp (searchInside_iff.mpr (hsearch hknown).2)
    obtain ⟨init, hinit⟩ := Option.ne_none_iff_exists'.mp ((functionAt_ne_none hvalue).mpr hfun)
    exact ⟨_, mem', hmem, (hsearch hknown).1, value, hvalue, init, hinit, rfl⟩

theorem sysInitModule_isSome_iff : (sysInitModule env.checked I R ret record args).isSome ↔
    ImageInside env I (Entered R ret record args) := by
  unfold sysInitModule
  rw [Option.bind_eq_bind, goesOn_isSome_iff fun e => rfl]
  simp only [startModule_isSome]
  constructor
  · rintro ⟨hload, hstart⟩
    obtain ⟨hfind, hload⟩ := loadModule_isSome.mp hload
    obtain ⟨hident, hscan⟩ := findSections_isSome.mp hfind
    refine ⟨hident, fun hstarts => ⟨hscan hstarts, fun S hS => ?_⟩⟩
    have hscan := hscan hstarts
    have hok := findSections_eq_ok.mpr ⟨hident, hstarts, hscan, hS⟩
    obtain ⟨hplace, hlink⟩ := hload S hok
    obtain ⟨hsizes, hplaces⟩ := (placeSections_isSome hS hscan).mp hplace
    refine ⟨hsizes, fun code hcode => ⟨hplaces code hcode, ?_⟩⟩
    have hplaced := (placeSections_eq_ok hS hscan).mpr ⟨hsizes, code, hcode, hplaces code hcode, rfl, rfl⟩
    have hlink := hlink _ _ hplaced
    obtain ⟨hin, hsearch⟩ := (linkModule_isSome hS).mp hlink
    refine ⟨hin, fun hknown => ⟨(hsearch hknown).1, (hsearch hknown).2, fun hfun hentered => ?_⟩⟩
    obtain ⟨m, hm⟩ := (exists_linkModule_ok hS hlink).mpr ⟨hknown, hfun⟩
    have hclean := hstart m (loadModule_eq_ok.mpr ⟨S, hok, _, _, hplaced, hm⟩) hentered
    obtain ⟨mem', -, -, value, -, init, -, rfl⟩ := linkModule_eq_ok.mp hm
    exact hclean
  · rintro ⟨hident, h⟩
    constructor
    · refine loadModule_isSome.mpr ⟨findSections_isSome.mpr ⟨hident, fun hstarts => (h hstarts).1⟩,
        fun S hok => ?_⟩
      obtain ⟨-, hstarts, hscan, hS⟩ := findSections_eq_ok.mp hok
      obtain ⟨hsizes, hcodes⟩ := (h hstarts).2 S hS
      constructor
      · exact (placeSections_isSome hS hscan).mpr ⟨hsizes, fun code hcode => (hcodes code hcode).1⟩
      · intro L mem hplaced
        obtain ⟨-, code, hcode, -, rfl, -⟩ := (placeSections_eq_ok hS hscan).mp hplaced
        obtain ⟨-, hin, hsearch⟩ := hcodes code hcode
        exact (linkModule_isSome hS).mpr ⟨hin, fun hknown => ⟨(hsearch hknown).1, (hsearch hknown).2.1⟩⟩
    · intro m hm hentered
      obtain ⟨S, hok, L, mem, hplaced, hm⟩ := loadModule_eq_ok.mp hm
      obtain ⟨-, hstarts, hscan, hS⟩ := findSections_eq_ok.mp hok
      obtain ⟨-, code, hcode, -, rfl, -⟩ := (placeSections_eq_ok hS hscan).mp hplaced
      obtain ⟨-, -, hsearch⟩ := ((h hstarts).2 S hS).2 code hcode
      have hlink := Option.isSome_iff_exists.mpr ⟨_, hm⟩
      obtain ⟨hknown, hfun⟩ := (exists_linkModule_ok hS hlink).mp ⟨m, hm⟩
      obtain ⟨mem', -, -, value, -, init, -, rfl⟩ := linkModule_eq_ok.mp hm
      exact (hsearch hknown).2.2 hfun hentered

/-- The lookup of the name at `name` ends in the table, and has the result zero for a name that
is not exported. -/
def LookupInside (env : LoadEnv) (I : Image) (name : ℕ) : Prop :=
  ∃ addr, ksymLookup env.checked I name = some addr ∧ (¬ Exported I name → addr = 0)

/-- Loading an image touches nothing outside exactly when all that its bytes lead to is inside,
and a lookup ends in the table exactly for the names that it holds. -/
theorem image_safe_iff (env : LoadEnv) (I : Image) (R : Registry) (ret : ℤ) (record : Bool)
    (args : Option ModuleName) :
    ((sysInitModule env.checked I R ret record args).isSome ↔ ImageInside env I (Entered R ret record args)) ∧
      ∀ name, LookupInside env I name ↔ Exported I name := by
  refine ⟨sysInitModule_isSome_iff, fun name => ?_⟩
  rw [← @ksymLookup_isSome env, Option.isSome_iff_exists]
  constructor
  · rintro ⟨addr, haddr, -⟩
    exact ⟨addr, haddr⟩
  · rintro ⟨addr, haddr⟩
    have hexported : Exported I name := ksymLookup_isSome.mp (Option.isSome_iff_exists.mpr ⟨addr, haddr⟩)
    exact ⟨addr, haddr, fun h => absurd hexported h⟩

/-- A file that ends behind the four bytes of its magic number. -/
def magicOnly : Image := ⟨4, fun i => elfIdent.getD i 0⟩

/-- A kernel whose symbols lie at addresses from 1 MiB on, and without memory. -/
def smallEnv : LoadEnv where
  kmalloc _ := none
  fresh _ := 0
  exported i := 1048576 + i
  exported_ne _ := by omega
  pastAddrs _ := none
  pastSymbols _ := none

/-- The loader reads the header of an image without a look at its length. -/
theorem not_image_safe_magicOnly : ¬ ∀ (env : LoadEnv) (I : Image) (R : Registry) (ret : ℤ) (record : Bool)
    (args : Option ModuleName), (sysInitModule env.checked I R ret record args).isSome ∧
      ∀ name, LookupInside env I name := by
  intro h
  have hsafe := (h smallEnv magicOnly ⟨[]⟩ 0 true none).1
  have hstuck : findSections magicOnly = none := by decide
  simp [sysInitModule, loadModule, hstuck] at hsafe

end Ferrite.Sys
