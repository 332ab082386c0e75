import Ferrite.Library.Image
import Ferrite.Library.Word
import Ferrite.Sys.Modules

/-!
# Loading a module

`sys_init_module`: the sections of the image are found by name, the text and the read-only
data are copied to new memory, the relocations of the text are applied, and `init_module` is
looked up and called. Positions in the image are offsets from its first byte, and positions in
the memory of the module offsets from `mod_mem`.

A read that leaves the image and a write that leaves the memory of the module have no result.
What lies behind `section_addrs` and behind the table of exported symbols belongs to the
environment; an environment that knows nothing of it makes these accesses fail as well.
-/
namespace Ferrite.Sys
open Fs Packed Word

/-- What the loader is given: memory, and the addresses of the exported symbols. `pastAddrs`
are the words behind `section_addrs`, and `pastSymbols` is what `ksym_lookup` returns for the
name at an offset when it runs past the end of its table. -/
structure LoadEnv where
  kmalloc : ℕ → Option ℕ
  fresh : Bytes
  exported : ℕ → ℕ
  exported_ne : ∀ i, exported i ≠ 0
  pastAddrs : ℕ → Option ℕ
  pastSymbols : ℕ → Option ℕ

/-- The string with the end that `strcmp` looks for. -/
def cstr (s : List Byte) : List Byte := s ++ [0]

/-- `"\177ELF"`, `ELFCLASS32`, `ELFDATA2LSB` and `EV_CURRENT`. -/
def elfIdent : List Byte := [0x7f, 69, 76, 70, 1, 1, 1]

/-- `".symtab"`, `".strtab"`, `".text"`, `".rodata"` and `".rel.text"`. -/
def symtabName : List Byte := [46, 115, 121, 109, 116, 97, 98]
def strtabName : List Byte := [46, 115, 116, 114, 116, 97, 98]
def textName : List Byte := [46, 116, 101, 120, 116]
def rodataName : List Byte := [46, 114, 111, 100, 97, 116, 97]
def relTextName : List Byte := [46, 114, 101, 108, 46, 116, 101, 120, 116]

/-- `"init_module"` and `"cleanup_module"`. -/
def initName : List Byte := [105, 110, 105, 116, 95, 109, 111, 100, 117, 108, 101]
def cleanupName : List Byte := [99, 108, 101, 97, 110, 117, 112, 95, 109, 111, 100, 117, 108, 101]

/-- The table `symbols`: `printk`, `kmalloc`, `kfree`, `register_keyboard_callback`,
`unregister_keyboard_callback`, `register_timer_callback`, `unregister_timer_callback`. -/
def symbolNames : List (List Byte) :=
  [[112, 114, 105, 110, 116, 107],
   [107, 109, 97, 108, 108, 111, 99],
   [107, 102, 114, 101, 101],
   [114, 101, 103, 105, 115, 116, 101, 114, 95, 107, 101, 121, 98, 111, 97, 114, 100, 95, 99, 97, 108, 108,
    98, 97, 99, 107],
   [117, 110, 114, 101, 103, 105, 115, 116, 101, 114, 95, 107, 101, 121, 98, 111, 97, 114, 100, 95, 99, 97,
    108, 108, 98, 97, 99, 107],
   [114, 101, 103, 105, 115, 116, 101, 114, 95, 116, 105, 109, 101, 114, 95, 99, 97, 108, 108, 98, 97, 99,
    107],
   [117, 110, 114, 101, 103, 105, 115, 116, 101, 114, 95, 116, 105, 109, 101, 114, 95, 99, 97, 108, 108, 98,
    97, 99, 107]]

/-- `SHT_REL`, `STT_SECTION`, `R_386_32` and `R_386_PC32`. -/
def shtRel : ℕ := 9
def sttSection : ℕ := 3
def r386_32 : ℕ := 1
def r386Pc32 : ℕ := 2

/-- The length of `section_addrs`. -/
def maxSections : ℕ := 256

/-- `sections[i]`, `symtab[i]` and `rels[j]`. -/
def sectionAt (shoff i : ℕ) : ℕ := wadd shoff (40 * i)
def symbolAt (symtab i : ℕ) : ℕ := wadd symtab (16 * i)
def relAt (rels j : ℕ) : ℕ := wadd rels (8 * j)

variable (env : LoadEnv) (I : Image)

def verifyElfHeader : Option Bool := I.startsWith 0 elfIdent

/-! ## Sections -/

/-- The fields of `elf32_shdr_t`, for the header at `hdr`. -/
def shName (hdr : ℕ) : Option ℕ := I.read 4 hdr
def shType (hdr : ℕ) : Option ℕ := I.read 4 (wadd hdr 4)
def shOffset (hdr : ℕ) : Option ℕ := I.read 4 (wadd hdr 16)
def shSize (hdr : ℕ) : Option ℕ := I.read 4 (wadd hdr 20)

/-- The headers that have been found, by the names of their sections. -/
structure Found where
  symtab : Option ℕ
  strtab : Option ℕ
  text : Option ℕ
  rodata : Option ℕ

/-- The comparisons with one name. -/
def noteSection (hdr name : ℕ) (f : Found) : Option Found := do
  if ← I.startsWith name (cstr symtabName) then return { f with symtab := some hdr }
  else if ← I.startsWith name (cstr strtabName) then return { f with strtab := some hdr }
  else if ← I.startsWith name (cstr textName) then return { f with text := some hdr }
  else if ← I.startsWith name rodataName then return { f with rodata := some hdr }
  else return f

/-- The first loop over `n` sections from `i` on. -/
def scanSections (shoff shstrtab : ℕ) : ℕ → ℕ → Found → Option Found
  | 0, _, f => some f
  | n + 1, i, f => do
      let name ← shName I (sectionAt shoff i)
      let f ← noteSection I (sectionAt shoff i) (wadd shstrtab name) f
      scanSections shoff shstrtab n (i + 1) f

/-- The headers that the loader goes on with. -/
structure Sections where
  shoff : ℕ
  shnum : ℕ
  shstrtab : ℕ
  symtab : ℕ
  strtab : ℕ
  text : ℕ
  rodata : Option ℕ
deriving DecidableEq

def findSections : Option (Except LoadError Sections) := do
  if ← verifyElfHeader I then
    let shoff ← I.read 4 32
    let shstrndx ← I.read 2 50
    let shstrtab ← shOffset I (sectionAt shoff shstrndx)
    let shnum ← I.read 2 48
    match ← scanSections I shoff shstrtab shnum 0 ⟨none, none, none, none⟩ with
    | ⟨some symtab, some strtab, some text, rodata⟩ =>
        return .ok ⟨shoff, shnum, shstrtab, symtab, strtab, text, rodata⟩
    | _ => return .error .sections
  else return .error .header

/-! ## Memory -/

/-- `memcpy` of a section to offset `dst` of the `total` bytes of the module. -/
def copySection (total dst hdr : ℕ) (mem : Bytes) : Option Bytes := do
  let offset ← shOffset I hdr
  let size ← shSize I hdr
  if size = 0 ∨ offset + size ≤ I.len ∧ dst + size ≤ total then return copy size mem dst I.byte offset
  else none

/-- The loop that fills `section_addrs`, over `n` sections from `i` on. -/
def fillAddrs (shoff shstrtab text rodata : ℕ) : ℕ → ℕ → (ℕ → ℕ) → Option (ℕ → ℕ)
  | 0, _, addrs => some addrs
  | n + 1, i, addrs => do
      let name ← shName I (sectionAt shoff i)
      if ← I.startsWith (wadd shstrtab name) (cstr textName) then
        fillAddrs shoff shstrtab text rodata n (i + 1) (Function.update addrs i text)
      else if ← I.startsWith (wadd shstrtab name) rodataName then
        fillAddrs shoff shstrtab text rodata n (i + 1) (Function.update addrs i rodata)
      else fillAddrs shoff shstrtab text rodata n (i + 1) addrs

/-- What the relocation loop works with: the memory of the module, the tables of symbols and
of strings, and `section_addrs`. -/
structure Layout where
  code : ℕ
  total : ℕ
  symtab : ℕ
  strtab : ℕ
  addrs : ℕ → ℕ

def placeSections (S : Sections) : Option (Except LoadError (Layout × Bytes)) := do
  let textSize ← shSize I S.text
  let rodataSize ← S.rodata.elim (some 0) (shSize I)
  let total := wadd textSize rodataSize
  match env.kmalloc total with
  | none => return .error .memory
  | some code =>
      let mem ← copySection I total 0 S.text env.fresh
      let mem ← S.rodata.elim (some mem) fun hdr => copySection I total textSize hdr mem
      let addrs ← fillAddrs I S.shoff S.shstrtab code (wadd code textSize)
        (min S.shnum maxSections) 0 fun _ => 0
      let symtab ← shOffset I S.symtab
      let strtab ← shOffset I S.strtab
      return .ok (⟨code, total, symtab, strtab, addrs⟩, mem)

/-! ## Relocations -/

/-- The fields of `Elf32_Sym` and `Elf32_Rel`. -/
def stName (sym : ℕ) : Option ℕ := I.read 4 sym
def stValue (sym : ℕ) : Option ℕ := I.read 4 (wadd sym 4)
def stInfo (sym : ℕ) : Option ℕ := I.read 1 (wadd sym 12)
def stShndx (sym : ℕ) : Option ℕ := I.read 2 (wadd sym 14)
def rOffset (rel : ℕ) : Option ℕ := I.read 4 rel
def rInfo (rel : ℕ) : Option ℕ := I.read 4 (wadd rel 4)

/-- `section_addrs[k]`. -/
def sectionAddr (L : Layout) (k : ℕ) : Option ℕ := if k < maxSections then some (L.addrs k) else env.pastAddrs k

/-- The loop of `ksym_lookup`, over the entries of the table from `i` on. -/
def lookupFrom (name : ℕ) : List (List Byte) → ℕ → Option ℕ
  | [], _ => env.pastSymbols name
  | s :: rest, i => do
      if ← I.startsWith name (cstr s) then return env.exported i
      else lookupFrom name rest (i + 1)

def ksymLookup (name : ℕ) : Option ℕ := lookupFrom env I name symbolNames 0

/-- `sym_addr`, or none for a symbol that is not found, whose name is printed. -/
def symbolAddr (L : Layout) (sym : ℕ) : Option (Option ℕ) := do
  let info ← stInfo I sym
  let shndx ← stShndx I sym
  if info % 16 = sttSection then return some (← sectionAddr env L shndx)
  else if shndx = 0 then
    let name ← stName I sym
    let addr ← ksymLookup env I (wadd L.strtab name)
    if addr ≠ 0 then return some addr
    else if I.hasEnd (wadd L.strtab name) then return none
    else none
  else
    let addr ← sectionAddr env L shndx
    let value ← stValue I sym
    return some (wadd addr value)

/-- `*location += addr` for the word at an offset of the memory. -/
def addWord (L : Layout) (mem : Bytes) (offset addr : ℕ) : Option Bytes :=
  if offset + 4 ≤ L.total then some (put 4 mem offset (wadd (get 4 mem offset) addr)) else none

/-- The relocation at `rel`. -/
def relocate (L : Layout) (rel : ℕ) (mem : Bytes) : Option (Except LoadError Bytes) := do
  let offset ← rOffset I rel
  let info ← rInfo I rel
  match ← symbolAddr env I L (symbolAt L.symtab (info / 256)) with
  | none => return .error (.symbol L.code)
  | some addr =>
      if info % 256 = r386_32 then return .ok (← addWord L mem offset addr)
      else if info % 256 = r386Pc32 then return .ok (← addWord L mem offset (wsub addr (wadd L.code offset)))
      else return .error (.relocation L.code)

/-- The loop over `n` relocations from `j` on. -/
def relocateFrom (L : Layout) (rels : ℕ) : ℕ → ℕ → Bytes → Option (Except LoadError Bytes)
  | 0, _, mem => some (.ok mem)
  | n + 1, j, mem => do
      match ← relocate env I L (relAt rels j) mem with
      | .error e => return .error e
      | .ok mem => relocateFrom L rels n (j + 1) mem

/-- What the loop over the sections does with one section. -/
def relocateSection (L : Layout) (shstrtab hdr : ℕ) (mem : Bytes) : Option (Except LoadError Bytes) := do
  if (← shType I hdr) ≠ shtRel then return .ok mem
  else
    let name ← shName I hdr
    if ← I.startsWith (wadd shstrtab name) (cstr relTextName) then
      let rels ← shOffset I hdr
      let size ← shSize I hdr
      relocateFrom env I L rels (size / 8) 0 mem
    else return .ok mem

/-- The loop over `n` sections from `i` on. -/
def relocateSections (L : Layout) (shoff shstrtab : ℕ) : ℕ → ℕ → Bytes → Option (Except LoadError Bytes)
  | 0, _, mem => some (.ok mem)
  | n + 1, i, mem => do
      match ← relocateSection env I L shstrtab (sectionAt shoff i) mem with
      | .error e => return .error e
      | .ok mem => relocateSections L shoff shstrtab n (i + 1) mem

/-! ## The functions of the module -/

/-- `st_value` of the first symbol of a name, of `n` symbols from `i` on. -/
def findSymbol (L : Layout) (s : List Byte) : ℕ → ℕ → Option (Option ℕ)
  | 0, _ => some none
  | n + 1, i => do
      let name ← stName I (symbolAt L.symtab i)
      if ← I.startsWith (wadd L.strtab name) (cstr s) then return some (← stValue I (symbolAt L.symtab i))
      else findSymbol L s n (i + 1)

/-- The address of a function of the module. -/
def functionAt (L : Layout) (value : Option ℕ) : Option ℕ :=
  match value with
  | none => none
  | some value => if wadd L.code value = 0 then none else some (wadd L.code value)

/-- A module whose `init_module` is about to be called. -/
structure Started where
  layout : Layout
  mem : Bytes
  numSyms : ℕ
  init : ℕ

/-- The relocations, and the search for `init_module`. -/
def linkModule (S : Sections) (L : Layout) (mem : Bytes) : Option (Except LoadError Started) := do
  match ← relocateSections env I L S.shoff S.shstrtab S.shnum 0 mem with
  | .error e => return .error e
  | .ok mem =>
      let size ← shSize I S.symtab
      match functionAt L (← findSymbol I L initName (size / 16) 0) with
      | none => return .error (.noInit L.code)
      | some init => return .ok ⟨L, mem, size / 16, init⟩

/-- `sys_init_module` up to the call of `init_module`. -/
def loadModule : Option (Except LoadError Started) := do
  match ← findSections I with
  | .error e => return .error e
  | .ok S =>
      match ← placeSections env I S with
      | .error e => return .error e
      | .ok (L, mem) => linkModule env I S L mem

/-- The call for a module that is loaded. -/
def Started.call (m : Started) (ret : ℤ) (mem : Bool) (args : Option ModuleName)
    (cleanup : Option ℕ) : InitCall :=
  ⟨.ok ⟨m.layout.code, m.layout.total, m.init, cleanup⟩, ret, mem, args⟩

/-- The call of `init_module`, which returns `ret`, and what follows it. The table of symbols
is searched again for `cleanup_module` when the module is in the list. -/
def startModule (R : Registry) (ret : ℤ) (mem : Bool) (args : Option ModuleName) (m : Started) :
    Option (ℤ × List ModuleEffect × Registry) := do
  if ret < 0 ∨ (R.create (m.call ret mem args none).name m.layout.code m.layout.total mem).isNone then
    return R.sysInitModule (m.call ret mem args none)
  else
    let value ← findSymbol I m.layout cleanupName m.numSyms 0
    return R.sysInitModule (m.call ret mem args (functionAt m.layout value))

/-- `sys_init_module`. -/
def sysInitModule (R : Registry) (ret : ℤ) (mem : Bool) (args : Option ModuleName) :
    Option (ℤ × List ModuleEffect × Registry) := do
  match ← loadModule env I with
  | .error e => return R.sysInitModule ⟨.error e, ret, mem, args⟩
  | .ok m => startModule I R ret mem args m

end Ferrite.Sys
