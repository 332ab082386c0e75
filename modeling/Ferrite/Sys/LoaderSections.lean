import Ferrite.Library.Loops
import Ferrite.Sys.Loader

/-!
# What the loader finds

The headers and the names of an image, as its bytes give them wherever they lie, and what the
loops of the loader over the sections make of them: of several sections with one name it keeps
the last, and what it reads on the way is the name of every section.
-/
namespace Ferrite.Sys
open Packed Word Packed.Image

/-- `sections[i]`. -/
def header (I : Image) (i : ℕ) : ℕ := sectionAt (get 4 I.byte 32) i

/-- `ehdr->e_shnum`. -/
def sectionCount (I : Image) : ℕ := get 2 I.byte 48

/-- `shstrtab`. -/
def namesAt (I : Image) : ℕ := get 4 I.byte (wadd (header I (get 2 I.byte 50)) 16)

/-- The name of section `i`. -/
def sectionName (I : Image) (i : ℕ) : ℕ := wadd (namesAt I) (get 4 I.byte (header I i))

def Named (I : Image) (s : List Byte) (i : ℕ) : Prop := I.Starts (sectionName I i) s

instance (I : Image) (s : List Byte) : DecidablePred (Named I s) := fun _ =>
  inferInstanceAs (Decidable (I.Starts _ s))

/-- The last of the first `n` sections with a name. -/
def lastNamed (I : Image) (s : List Byte) : ℕ → Option ℕ
  | 0 => none
  | n + 1 => if Named I s n then some n else lastNamed I s n

/-- The header of the last of the first `n` sections with a name. -/
def headerOf (I : Image) (s : List Byte) (n : ℕ) : Option ℕ := (lastNamed I s n).map (header I)

/-- What the first loop has found after `n` sections. -/
def found (I : Image) (n : ℕ) : Found :=
  ⟨headerOf I (cstr symtabName) n, headerOf I (cstr strtabName) n, headerOf I (cstr textName) n,
    headerOf I rodataName n⟩

/-- What the names in the image give the loader to go on with. -/
def sectionsOf (I : Image) : Option Sections :=
  match found I (sectionCount I) with
  | ⟨some symtab, some strtab, some text, rodata⟩ =>
      some ⟨get 4 I.byte 32, sectionCount I, namesAt I, symtab, strtab, text, rodata⟩
  | _ => none

/-- The names that the loops look for. -/
def wantedNames : List (List Byte) := [cstr symtabName, cstr strtabName, cstr textName, rodataName]

/-- The name at `name` is read inside of the image. -/
def NameInside (I : Image) (name : ℕ) : Prop := ∀ s ∈ wantedNames, I.Within name s

variable {I : Image} {s : List Byte} {i n name hdr : ℕ} {f f' : Found}

theorem lastNamed_eq_some : lastNamed I s n = some i ↔ i < n ∧ Named I s i ∧ ∀ j, i < j → j < n →
    ¬ Named I s j := by
  induction n with
  | zero => simp [lastNamed]
  | succ n ih =>
      unfold lastNamed
      split_ifs with h
      · constructor
        · rintro ⟨⟩
          exact ⟨by omega, h, fun j hj hj' => by omega⟩
        · rintro ⟨hi, -, hlast⟩
          rcases Nat.eq_or_lt_of_le (Nat.le_of_lt_succ hi) with heq | hlt
          · rw [heq]
          · exact absurd h (hlast n hlt (by omega))
      · rw [ih]
        constructor
        · rintro ⟨hi, hname, hlast⟩
          refine ⟨by omega, hname, fun j hj hj' => ?_⟩
          rcases Nat.eq_or_lt_of_le (Nat.le_of_lt_succ hj') with heq | hlt
          · exact heq ▸ h
          · exact hlast j hj hlt
        · rintro ⟨hi, hname, hlast⟩
          rcases Nat.eq_or_lt_of_le (Nat.le_of_lt_succ hi) with heq | hlt
          · exact absurd (heq ▸ hname) h
          · exact ⟨hlt, hname, fun j hj hj' => hlast j hj (by omega)⟩

/-! ## One name -/

theorem not_mem_name : (0 : Byte) ∉ symtabName ∧ (0 : Byte) ∉ strtabName ∧ (0 : Byte) ∉ textName ∧
    (0 : Byte) ∉ rodataName ∧ (0 : Byte) ∉ relTextName := by decide

/-- A name that equals one of the constants is read far enough for all of them. -/
theorem nameInside_of_starts (hs : (0 : Byte) ∉ s) (hw : I.Within name (cstr s)) (h : I.Starts name (cstr s)) :
    NameInside I name := by
  obtain ⟨hsym, hstr, htext, hro, -⟩ := not_mem_name
  intro t ht
  simp only [wantedNames, List.mem_cons, List.not_mem_nil, or_false] at ht
  rcases ht with rfl | rfl | rfl | rfl
  · exact hw.of_starts h hsym
  · exact hw.of_starts h hstr
  · exact hw.of_starts h htext
  · exact (hw.of_starts h hro).left

/-- At most one of the constants is the name. -/
theorem starts_unique {t : List Byte} (hs : s ∈ wantedNames) (ht : t ∈ wantedNames) (h : I.Starts name s)
    (h' : I.Starts name t) : s = t := by
  have hdiff : ∀ s ∈ wantedNames, ∀ t ∈ wantedNames, (∀ k < 3, s[k]? = t[k]?) → s = t := by decide
  have hlong : ∀ s ∈ wantedNames, 3 ≤ s.length := by decide
  apply hdiff s hs t ht
  intro k hk
  have := hlong s hs
  have := hlong t ht
  exact h.agree h' k (by omega) (by omega)

theorem nameInside_iff : NameInside I name ↔ I.Within name (cstr symtabName) ∧ I.Within name (cstr strtabName) ∧
    I.Within name (cstr textName) ∧ I.Within name rodataName := by
  simp [NameInside, wantedNames]

/-- The comparisons note the header under the name that it has. -/
theorem noteSection_eq_some : noteSection I hdr name f = some f' ↔ NameInside I name ∧
    (⟨if I.Starts name (cstr symtabName) then some hdr else f.symtab,
      if I.Starts name (cstr strtabName) then some hdr else f.strtab,
      if I.Starts name (cstr textName) then some hdr else f.text,
      if I.Starts name rodataName then some hdr else f.rodata⟩ : Found) = f' := by
  unfold noteSection
  simp only [Option.bind_eq_bind, startsWith_bind_eq_some, decide_eq_true_eq]
  have hother : ∀ s ∈ wantedNames, I.Starts name s → ∀ t ∈ wantedNames, t ≠ s → ¬ I.Starts name t :=
    fun s hs h t ht hne h' => hne (starts_unique ht hs h' h)
  obtain ⟨hsym, hstr, htext, -⟩ := not_mem_name
  -- The comparisons that are left out after a match would have read no further.
  have hin : ∀ s, (0 : Byte) ∉ s → I.Starts name (cstr s) → I.Within name (cstr s) → NameInside I name :=
    fun s hs h hw => nameInside_of_starts hs hw h
  by_cases h1 : I.Starts name (cstr symtabName)
  · have hrest := hother _ (by decide) h1
    have hin := hin symtabName hsym h1
    rw [nameInside_iff] at hin ⊢
    simp [h1, hrest (cstr strtabName) (by decide) (by decide),
      hrest (cstr textName) (by decide) (by decide),
      hrest rodataName (by decide) (by decide)]
    tauto
  by_cases h2 : I.Starts name (cstr strtabName)
  · have hrest := hother _ (by decide) h2
    have hin := hin strtabName hstr h2
    rw [nameInside_iff] at hin ⊢
    simp [h1, h2, startsWith_bind_eq_some, hrest (cstr textName) (by decide) (by decide),
      hrest rodataName (by decide) (by decide)]
    tauto
  by_cases h3 : I.Starts name (cstr textName)
  · have hrest := hother _ (by decide) h3
    have hin := hin textName htext h3
    rw [nameInside_iff] at hin ⊢
    simp [h1, h2, h3, startsWith_bind_eq_some, hrest rodataName (by decide) (by decide)]
    tauto
  rw [nameInside_iff]
  by_cases h4 : I.Starts name rodataName <;> simp [h1, h2, h3, h4, startsWith_bind_eq_some] <;> tauto

/-! ## All sections -/

/-- The header of section `i` and its name are read inside of the image. -/
def SectionInside (I : Image) (i : ℕ) : Prop := header I i + 4 ≤ I.len ∧ NameInside I (sectionName I i)

/-- What the search for the sections reads lies inside of the image. -/
def ScanInside (I : Image) : Prop :=
  52 ≤ I.len ∧ wadd (header I (get 2 I.byte 50)) 16 + 4 ≤ I.len ∧ ∀ i < sectionCount I, SectionInside I i

theorem headerOf_succ : headerOf I s (n + 1) = if Named I s n then some (header I n) else headerOf I s n := by
  unfold headerOf
  rw [lastNamed]
  split_ifs <;> rfl

theorem scanSections_eq_some : scanSections I (get 4 I.byte 32) (namesAt I) n i (found I i) = some f' ↔
    (∀ k, i ≤ k → k < i + n → SectionInside I k) ∧ found I (i + n) = f' := by
  induction n generalizing i with
  | zero =>
      rw [scanSections, Option.some_inj]
      exact (and_iff_right fun k hk hk' => by omega).symm
  | succ n ih =>
      have hstep : ∀ f, noteSection I (header I i) (sectionName I i) (found I i) = some f ↔
          NameInside I (sectionName I i) ∧ found I (i + 1) = f := by
        intro f
        rw [noteSection_eq_some]
        simp only [found, headerOf_succ]
        exact Iff.rfl
      unfold scanSections
      simp only [shName, Option.bind_eq_bind, read_bind_eq_some]
      rw [Loops.range_succ, SectionInside, and_assoc, and_assoc, ← Nat.add_assoc, Nat.add_right_comm i n 1]
      apply and_congr_right
      intro _
      constructor
      · intro h
        obtain ⟨f, hf, h⟩ := Option.bind_eq_some_iff.mp h
        obtain ⟨hname, rfl⟩ := (hstep f).mp hf
        exact ⟨hname, ih.mp h⟩
      · rintro ⟨hname, h⟩
        exact Option.bind_eq_some_iff.mpr ⟨_, (hstep _).mpr ⟨hname, rfl⟩, ih.mpr h⟩

/-- The second loop repeats comparisons of the first. -/
theorem fillAddrs_eq {text rodata : ℕ} {addrs : ℕ → ℕ} (h : ∀ k, i ≤ k → k < i + n → SectionInside I k) :
    fillAddrs I (get 4 I.byte 32) (namesAt I) text rodata n i addrs = some fun k =>
      if i ≤ k ∧ k < i + n then
        if Named I (cstr textName) k then text else if Named I rodataName k then rodata else addrs k
      else addrs k := by
  induction n generalizing i addrs with
  | zero =>
      unfold fillAddrs
      congr
      funext k
      rw [if_neg (by omega)]
  | succ n ih =>
      obtain ⟨⟨hheader, hname⟩, hrest⟩ := Loops.range_succ.mp h
      have hread : shName I (sectionAt (get 4 I.byte 32) i) = some (get 4 I.byte (header I i)) :=
        read_eq_some.mpr ⟨hheader, rfl⟩
      obtain ⟨-, -, htext, hrodata⟩ := nameInside_iff.mp hname
      have htext : I.startsWith (sectionName I i) (cstr textName) = some (decide (Named I (cstr textName) i)) :=
        startsWith_eq_some.mpr ⟨htext, rfl⟩
      have hrodata : I.startsWith (sectionName I i) rodataName = some (decide (Named I rodataName i)) :=
        startsWith_eq_some.mpr ⟨hrodata, rfl⟩
      rw [sectionName] at htext hrodata
      have hstep : fillAddrs I (get 4 I.byte 32) (namesAt I) text rodata (n + 1) i addrs =
          fillAddrs I (get 4 I.byte 32) (namesAt I) text rodata n (i + 1) (Function.update addrs i
            (if Named I (cstr textName) i then text else if Named I rodataName i then rodata
              else addrs i)) := by
        conv => lhs; unfold fillAddrs
        simp only [hread, htext, hrodata, Option.bind_eq_bind, Option.bind_some, decide_eq_true_eq]
        split_ifs
        · rfl
        · rfl
        · rw [Function.update_eq_self]
      rw [hstep, ih hrest]
      congr
      funext k
      rcases eq_or_ne k i with rfl | hne
      · have hbefore : ¬ (k + 1 ≤ k ∧ k < k + 1 + n) := by omega
        have hhere : k ≤ k ∧ k < k + (n + 1) := by omega
        simp only [if_neg hbefore, if_pos hhere, Function.update_self]
      · have hrange : i + 1 ≤ k ∧ k < i + 1 + n ↔ i ≤ k ∧ k < i + (n + 1) := by omega
        simp only [hrange, Function.update_of_ne hne]

theorem scanAll_eq_some : scanSections I (get 4 I.byte 32) (namesAt I)
    (sectionCount I) 0 ⟨none, none, none, none⟩ =
    some f ↔ (∀ i < sectionCount I, SectionInside I i) ∧ found I (sectionCount I) = f := by
  have hstart : found I 0 = ⟨none, none, none, none⟩ := rfl
  rw [← hstart, scanSections_eq_some]
  simp

/-- What `findSections` reads and finds. -/
theorem findSections_eq_some {r : Except LoadError Sections} : findSections I = some r ↔ I.Within 0 elfIdent ∧
    if I.Starts 0 elfIdent then ScanInside I ∧ (match sectionsOf I with
      | some S => .ok S
      | none => .error .sections) = r
    else .error .header = r := by
  unfold findSections verifyElfHeader
  simp only [Option.bind_eq_bind, startsWith_bind_eq_some, decide_eq_true_eq]
  apply and_congr_right
  intro _
  split_ifs
  · simp only [shOffset, read_bind_eq_some]
    constructor
    · rintro ⟨-, hndx, hnames, -, hscan⟩
      obtain ⟨f, hf, hr⟩ := Option.bind_eq_some_iff.mp hscan
      obtain ⟨hall, rfl⟩ := scanAll_eq_some.mp hf
      refine ⟨⟨hndx, hnames, hall⟩, ?_⟩
      rw [← Option.some_inj, ← hr]
      unfold sectionsOf
      rcases found I (sectionCount I) with ⟨_ | _, _ | _, _ | _, _⟩ <;> rfl
    · rintro ⟨⟨hlen, hnames, hall⟩, hr⟩
      refine ⟨by omega, by omega, hnames, by omega,
        Option.bind_eq_some_iff.mpr ⟨_, scanAll_eq_some.mpr ⟨hall, rfl⟩, ?_⟩⟩
      rw [← hr]
      unfold sectionsOf
      rcases found I (sectionCount I) with ⟨_ | _, _ | _, _ | _, _⟩ <;> rfl
  · exact Option.some_inj

theorem findSections_isSome : (findSections I).isSome ↔ I.Within 0 elfIdent ∧
    (I.Starts 0 elfIdent → ScanInside I) := by
  rw [Option.isSome_iff_exists]
  simp only [findSections_eq_some]
  by_cases h : I.Starts 0 elfIdent <;> simp [h]

theorem findSections_eq_ok {S : Sections} : findSections I = some (.ok S) ↔ I.Within 0 elfIdent ∧
    I.Starts 0 elfIdent ∧
    ScanInside I ∧ sectionsOf I = some S := by
  rw [findSections_eq_some]
  by_cases h : I.Starts 0 elfIdent
  · cases sectionsOf I <;> simp [h]
  · simp [h]

/-! ## The memory of the module -/

/-- `sh_offset` and `sh_size`. -/
def sectionOffset (I : Image) (hdr : ℕ) : ℕ := get 4 I.byte (wadd hdr 16)
def sectionSize (I : Image) (hdr : ℕ) : ℕ := get 4 I.byte (wadd hdr 20)

/-- `total_size`. -/
def totalSize (I : Image) (S : Sections) : ℕ := wadd (sectionSize I S.text) (S.rodata.elim 0 (sectionSize I))

/-- The bytes of a section are copied inside of the image and of the memory. -/
def CopyInside (I : Image) (total dst hdr : ℕ) : Prop := wadd hdr 16 + 4 ≤ I.len ∧ wadd hdr 20 + 4 ≤ I.len ∧
  (sectionSize I hdr = 0 ∨ sectionOffset I hdr + sectionSize I hdr ≤ I.len ∧ dst + sectionSize I hdr ≤ total)

/-- What is read for the size of the memory lies inside of the image. -/
def SizesInside (I : Image) (S : Sections) : Prop :=
  wadd S.text 20 + 4 ≤ I.len ∧ ∀ hdr ∈ S.rodata, wadd hdr 20 + 4 ≤ I.len

/-- What is read and written while the sections are laid out is inside. -/
def PlacesInside (I : Image) (S : Sections) : Prop :=
  CopyInside I (totalSize I S) 0 S.text ∧
  (∀ hdr ∈ S.rodata, CopyInside I (totalSize I S) (sectionSize I S.text) hdr) ∧
  wadd S.symtab 16 + 4 ≤ I.len ∧ wadd S.strtab 16 + 4 ≤ I.len

/-- `section_addrs` after its loop. -/
def addrsOf (I : Image) (S : Sections) (code k : ℕ) : ℕ :=
  if k < min S.shnum maxSections then
    if Named I (cstr textName) k then code else if Named I rodataName k then wadd code
      (sectionSize I S.text) else 0
  else 0

def layoutOf (I : Image) (S : Sections) (code : ℕ) : Layout :=
  ⟨code, totalSize I S, sectionOffset I S.symtab, sectionOffset I S.strtab, addrsOf I S code⟩

/-- The memory after the copies. -/
def copied (env : LoadEnv) (I : Image) (S : Sections) : Bytes :=
  let mem := copy (sectionSize I S.text) env.fresh 0 I.byte (sectionOffset I S.text)
  S.rodata.elim mem fun hdr => copy (sectionSize I hdr) mem (sectionSize I S.text) I.byte (sectionOffset I hdr)

variable {env : LoadEnv} {S : Sections}

theorem sectionsOf_eq_some (h : sectionsOf I = some S) : S.shoff = get 4 I.byte 32 ∧ S.shnum = sectionCount I ∧
    S.shstrtab = namesAt I ∧ found I (sectionCount I)
      = ⟨some S.symtab, some S.strtab, some S.text, S.rodata⟩ := by
  unfold sectionsOf at h
  split at h
  case h_1 hfound =>
    obtain rfl := Option.some_inj.mp h
    exact ⟨rfl, rfl, rfl, hfound⟩
  case h_2 => cases h

theorem copySection_eq_some {total dst : ℕ} {mem mem' : Bytes} : copySection I total dst hdr mem = some mem' ↔
    CopyInside I total dst hdr ∧ copy (sectionSize I hdr) mem dst I.byte (sectionOffset I hdr) = mem' := by
  unfold copySection shOffset shSize
  simp only [Option.bind_eq_bind, read_bind_eq_some]
  rw [CopyInside, and_assoc, and_assoc]
  apply and_congr_right
  intro _
  apply and_congr_right
  intro _
  simp only [sectionSize, sectionOffset]
  split_ifs with h
  · rw [and_iff_right h]
    exact Option.some_inj
  · exact ⟨nofun, fun hand => absurd hand.1 h⟩

theorem fillAddrs_all {code : ℕ} (hS : sectionsOf I = some S) (hscan : ScanInside I) :
    fillAddrs I S.shoff S.shstrtab code (wadd code (sectionSize I S.text)) (min S.shnum maxSections) 0
      (fun _ => 0) = some (addrsOf I S code) := by
  obtain ⟨hoff, hnum, hnames, -⟩ := sectionsOf_eq_some hS
  rw [hoff, hnames, fillAddrs_eq]
  · congr
    funext k
    simp [addrsOf]
  · intro k _ hk
    apply hscan.2.2 k
    omega

theorem copyRodata_eq_some {total dst : ℕ} {mem mem' : Bytes} {rodata : Option ℕ} :
    (rodata.elim (some mem) fun hdr => copySection I total dst hdr mem) = some mem' ↔
      (∀ hdr ∈ rodata, CopyInside I total dst hdr) ∧
        (rodata.elim mem fun hdr => copy (sectionSize I hdr) mem dst I.byte (sectionOffset I hdr)) = mem' := by
  cases rodata with
  | none => simp
  | some hdr => simp [copySection_eq_some]

theorem placeSections_eq_some {r : Except LoadError (Layout × Bytes)} (hS : sectionsOf I = some S)
    (hscan : ScanInside I) : placeSections env I S = some r ↔ SizesInside I S ∧
      match env.kmalloc (totalSize I S) with
      | none => .error .memory = r
      | some code => PlacesInside I S ∧ .ok (layoutOf I S code, copied env I S) = r := by
  have hsizes : ∀ {A : Type} {f : ℕ → Option A} {a : A}, (S.rodata.elim (some 0) (shSize I)).bind f = some a ↔
      (∀ hdr ∈ S.rodata, wadd hdr 20 + 4 ≤ I.len) ∧ f (S.rodata.elim 0 (sectionSize I)) = some a := by
    intro A f a
    cases S.rodata with
    | none => simp
    | some hdr =>
        rw [Option.elim_some, shSize, read_bind_eq_some]
        simp [sectionSize]
  unfold placeSections
  simp only [Option.bind_eq_bind, shSize, read_bind_eq_some] at hsizes ⊢
  rw [hsizes, SizesInside, and_assoc]
  apply and_congr_right
  intro _
  apply and_congr_right
  intro _
  have htotal : wadd (get 4 I.byte (wadd S.text 20)) (S.rodata.elim 0 (sectionSize I)) = totalSize I S := rfl
  rw [htotal]
  cases env.kmalloc (totalSize I S) with
  | none => exact Option.some_inj
  | some code =>
      have hfill : fillAddrs I S.shoff S.shstrtab code (wadd code (sectionSize I S.text))
          (min S.shnum maxSections) 0
          (fun _ => 0) = some (addrsOf I S code) := fillAddrs_all hS hscan
      constructor
      · intro h
        obtain ⟨mem, htext, h⟩ := Option.bind_eq_some_iff.mp h
        obtain ⟨htext', rfl⟩ := copySection_eq_some.mp htext
        obtain ⟨mem, hro, h⟩ := Option.bind_eq_some_iff.mp h
        obtain ⟨hro', rfl⟩ := copyRodata_eq_some.mp hro
        rw [sectionSize] at hfill
        simp only [hfill, Option.bind_some, shOffset, read_bind_eq_some] at h
        exact ⟨⟨htext', hro', h.1, h.2.1⟩, Option.some_inj.mp h.2.2⟩
      · rintro ⟨⟨htext, hro, hsym, hstr⟩, rfl⟩
        refine Option.bind_eq_some_iff.mpr ⟨_, copySection_eq_some.mpr ⟨htext, rfl⟩, ?_⟩
        refine Option.bind_eq_some_iff.mpr ⟨_, copyRodata_eq_some.mpr ⟨hro, rfl⟩, ?_⟩
        rw [sectionSize] at hfill
        simp only [hfill, Option.bind_some, shOffset, read_bind_eq_some]
        exact ⟨hsym, hstr, rfl⟩

theorem placeSections_isSome (hS : sectionsOf I = some S) (hscan : ScanInside I) :
    (placeSections env I S).isSome ↔ SizesInside I S ∧ ∀ code ∈ env.kmalloc (totalSize I S),
      PlacesInside I S := by
  rw [Option.isSome_iff_exists]
  simp only [placeSections_eq_some hS hscan]
  cases env.kmalloc (totalSize I S) <;> simp

theorem placeSections_eq_ok {L : Layout} {mem : Bytes} (hS : sectionsOf I = some S) (hscan : ScanInside I) :
    placeSections env I S = some (.ok (L, mem)) ↔ SizesInside I S ∧ ∃ code ∈ env.kmalloc (totalSize I S),
      PlacesInside I S ∧ layoutOf I S code = L ∧ copied env I S = mem := by
  rw [placeSections_eq_some hS hscan]
  cases env.kmalloc (totalSize I S) <;> simp

end Ferrite.Sys
