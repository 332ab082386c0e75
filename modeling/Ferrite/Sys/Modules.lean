import Ferrite.Fs.Errno
import Ferrite.Library.Packed
import Ferrite.Library.Runs

/-!
# The list of modules

`module_find`, `module_create`, `module_remove`, `sys_delete_module` and what `sys_init_module`
does once an image is loaded. A name is the bytes of a C string in front of its NUL. A call
returns its result, what it did beside (the functions of modules that it ran and the code that
it gave back), and the list.

`module_create` copies the first `MOD_MAX_NAME` bytes of a name and ends them with a NUL, so a
longer name is stored short. What `sys_init_module` looks for first is the name as it was given.
-/
namespace Ferrite.Sys
open Fs Packed Runs

/-- `MOD_MAX_NAME`. -/
def modMaxName : ℕ := 64

/-- `O_TRUNC`. -/
def oTrunc : ℕ := 0o1000

abbrev ModuleName := List Byte

/-- `module_t`; `code` is the address of its memory. -/
structure Module where
  name : ModuleName
  code : ℕ
  size : ℕ
  init : ℕ
  cleanup : Option ℕ
  refCount : ℤ
deriving DecidableEq

/-- The functions of modules that a call runs, and the memory of code that it gives back. -/
inductive ModuleEffect
  | init (fn : ℕ) (ret : ℤ)
  | cleanup (fn : ℕ)
  | kfree (addr : ℕ)
deriving DecidableEq

/-- The exits of `sys_init_module` in front of the call of `init_module`, with the address of
the memory if there is some already. -/
inductive LoadError
  | header
  | sections
  | memory
  | symbol (code : ℕ)
  | relocation (code : ℕ)
  | noInit (code : ℕ)
deriving DecidableEq

namespace LoadError

def errno : LoadError → ℤ
  | memory => -enomem
  | _ => -einval

def effects : LoadError → List ModuleEffect
  | symbol code | relocation code | noInit code => [.kfree code]
  | _ => []

theorem errno_neg (e : LoadError) : e.errno < 0 := by
  cases e <;> simp [errno, enomem, einval]

end LoadError

/-- An image that is loaded. -/
structure Loaded where
  code : ℕ
  size : ℕ
  init : ℕ
  cleanup : Option ℕ
deriving DecidableEq

/-- A call of `sys_init_module`: what the loader makes of the image, what `init_module` returns,
whether there is memory for the record, and the string of arguments. -/
structure InitCall where
  load : Except LoadError Loaded
  ret : ℤ
  mem : Bool
  args : Option ModuleName

/-- `"unknown"`. -/
def unknownName : ModuleName := [117, 110, 107, 110, 111, 119, 110]

/-- `module_name`. -/
def InitCall.name (c : InitCall) : ModuleName := c.args.getD unknownName

/-- The string that is left of a name in a field of `MOD_MAX_NAME` bytes. -/
def storedName (name : ModuleName) : ModuleName := name.take (modMaxName - 1)

structure Registry where
  modules : List Module
deriving DecidableEq

namespace Registry
variable (R : Registry)

/-- `module_find`. -/
def find (name : ModuleName) : Option Module := R.modules.find? fun mod => mod.name = name

/-- `module_create`. -/
def create (name : ModuleName) (code size : ℕ) (mem : Bool) : Option (Module × Registry) :=
  match R.find name with
  | some _ => none
  | none =>
      if mem then
        let mod : Module :=
          { name := storedName name, code := code, size := size, init := 0, cleanup := none, refCount := 0 }
        some (mod, ⟨mod :: R.modules⟩)
      else none

/-- What the removal of a module does beside. -/
def unload (mod : Module) : List ModuleEffect :=
  (mod.cleanup.map ModuleEffect.cleanup).toList ++ if mod.code = 0 then [] else [.kfree mod.code]

/-- The loop of `module_remove`. -/
def removeLoop (name : ModuleName) : List Module → ℤ × List ModuleEffect × List Module
  | [] => (-enoent, [], [])
  | mod :: rest =>
      if mod.name = name then
        if mod.refCount > 0 then (-ebusy, [], mod :: rest) else (0, unload mod, rest)
      else
        match removeLoop name rest with
        | (err, effects, rest) => (err, effects, mod :: rest)

def remove (name : ModuleName) : ℤ × List ModuleEffect × Registry :=
  match removeLoop name R.modules with
  | (err, effects, modules) => (err, effects, ⟨modules⟩)

/-- `mod->ref_count = 0` for the module that is found. -/
def dropRefs (name : ModuleName) : List Module → List Module
  | [] => []
  | mod :: rest =>
      if mod.name = name then { mod with refCount := 0 } :: rest else mod :: dropRefs name rest

/-- `sys_delete_module`. The test of the length of the copy has no effect. -/
def sysDeleteModule (nameUser : Option ModuleName) (flags : ℕ) : ℤ × List ModuleEffect × Registry :=
  match nameUser with
  | none => (-einval, [], R)
  | some nameUser =>
      let name := storedName nameUser
      if flags &&& oTrunc ≠ 0 then
        match R.find name with
        | none => (-enoent, [], R)
        | some _ => remove ⟨dropRefs name R.modules⟩ name
      else R.remove name

/-- `sys_init_module`. -/
def sysInitModule (c : InitCall) : ℤ × List ModuleEffect × Registry :=
  match c.load with
  | .error e => (e.errno, e.effects, R)
  | .ok l =>
      if c.ret < 0 then (c.ret, [.init l.init c.ret, .kfree l.code], R)
      else
        match R.create c.name l.code l.size c.mem with
        | none => (-enomem, [.init l.init c.ret, .kfree l.code], R)
        | some (mod, T) =>
            let mod := { mod with init := l.init, cleanup := l.cleanup }
            (0, [.init l.init c.ret], ⟨mod :: T.modules.tail⟩)

def names : List ModuleName := R.modules.map Module.name

end Registry

/-! ## Calls -/

inductive ModuleCall
  | init (c : InitCall)
  | delete (nameUser : Option ModuleName) (flags : ℕ)

def Registry.call (R : Registry) : ModuleCall → ℤ × List ModuleEffect × Registry
  | .init c => R.sysInitModule c
  | .delete nameUser flags => R.sysDeleteModule nameUser flags

def ModuleStep (R : Registry) (e : ModuleCall) (T : Registry) : Prop := (R.call e).2.2 = T

/-- Code is given back only if its init function did not succeed, or its cleanup function ran. -/
def Undone (effects : List ModuleEffect) : Prop :=
  ∀ addr, .kfree addr ∈ effects →
    (∀ fn ret, .init fn ret ∈ effects → ret < 0) ∨ ∃ fn, .cleanup fn ∈ effects

/-- An error leaves the list and gives nothing back that is in use. After a success a module is
new, and deleting the name that was given removes it and nothing else. -/
def InitCall.Settled (c : InitCall) (R : Registry) : Prop :=
  match R.sysInitModule c with
  | (err, effects, T) =>
      (err < 0 → T = R ∧ Undone effects) ∧
      (0 ≤ err → ∃ mod, T.modules = mod :: R.modules ∧
        (∀ l, c.load = .ok l → mod.code = l.code) ∧
        ∀ flags, T.sysDeleteModule (some c.name) flags = (0, Registry.unload mod, R))

/-- A deletion removes the module whose name is asked for and no other. -/
def CallSettled (R : Registry) : ModuleCall → Prop
  | .init c => c.Settled R
  | .delete nameUser flags => ∀ name ∈ nameUser, ∀ mod ∈ R.modules, mod.name = storedName name →
      R.sysDeleteModule nameUser flags = (0, Registry.unload mod, ⟨R.modules.erase mod⟩)

/-- The init function succeeds only for a name whose stored form no module has, and then there
is memory for the record. -/
def CallFresh (R : Registry) : ModuleCall → Prop
  | .init c => ∀ l, c.load = .ok l → 0 ≤ c.ret → storedName c.name ∉ R.names ∧ c.mem = true
  | .delete _ _ => True

namespace Registry
variable {R T : Registry} {name : ModuleName} {mods : List Module} {c : InitCall} {e : ModuleCall}

/-- No module is in use, and its name fits the field. -/
def Idle (R : Registry) : Prop := ∀ mod ∈ R.modules, mod.refCount = 0 ∧ mod.name.length < modMaxName

/-! ## Deleting -/

theorem mem_dropRefs {mod : Module} (h : mod ∈ dropRefs name mods) :
    ∃ old ∈ mods, mod.name = old.name ∧ (mod.refCount = old.refCount ∨ mod.refCount = 0) := by
  induction mods with
  | nil => cases h
  | cons first rest ih =>
      unfold dropRefs at h
      split at h
      · cases h with
        | head => exact ⟨first, List.mem_cons_self, rfl, .inr rfl⟩
        | tail _ h => exact ⟨mod, List.mem_cons_of_mem _ h, rfl, .inl rfl⟩
      · cases h with
        | head => exact ⟨mod, List.mem_cons_self, rfl, .inl rfl⟩
        | tail _ h =>
            have ⟨old, hold, hrest⟩ := ih h
            exact ⟨old, List.mem_cons_of_mem _ hold, hrest⟩

theorem map_dropRefs (name : ModuleName) (mods : List Module) :
    (dropRefs name mods).map Module.name = mods.map Module.name := by
  induction mods with
  | nil => rfl
  | cons first rest ih =>
      unfold dropRefs
      split
      · rfl
      · rw [List.map_cons, List.map_cons, ih]

/-- What is left after a removal are modules of the list, in its order. -/
theorem removeLoop_sublist (name : ModuleName) (mods : List Module) :
    List.Sublist (removeLoop name mods).2.2 mods := by
  induction mods with
  | nil => exact List.Sublist.refl []
  | cons first rest ih =>
      unfold removeLoop
      split
      · split
        · exact List.Sublist.refl _
        · exact List.sublist_cons_self first rest
      · exact ih.cons_cons first

/-- A call of `sys_delete_module` leaves modules of the list, apart from their counts. -/
theorem sysDeleteModule_spec (nameUser : Option ModuleName) (flags : ℕ) :
    List.Sublist (R.sysDeleteModule nameUser flags).2.2.names R.names ∧
      (R.Idle → (R.sysDeleteModule nameUser flags).2.2.Idle) := by
  unfold sysDeleteModule
  split
  · exact ⟨List.Sublist.refl _, id⟩
  · rename_i nameUser
    simp only
    split
    · split
      · exact ⟨List.Sublist.refl _, id⟩
      · have hsub := removeLoop_sublist (storedName nameUser) (dropRefs (storedName nameUser) R.modules)
        constructor
        · have hnames := hsub.map Module.name
          rw [map_dropRefs] at hnames
          exact hnames
        · intro hidle mod hmod
          have ⟨old, hold, hname, hcount⟩ := mem_dropRefs (hsub.subset hmod)
          have ⟨hzero, hshort⟩ := hidle old hold
          rw [hname]
          rcases hcount with hcount | hcount
          · rw [hcount]
            exact ⟨hzero, hshort⟩
          · exact ⟨hcount, hshort⟩
    · have hsub := removeLoop_sublist (storedName nameUser) R.modules
      exact ⟨hsub.map Module.name, fun hidle mod hmod => hidle mod (hsub.subset hmod)⟩

theorem dropRefs_idle (h : ∀ mod ∈ mods, mod.refCount = 0) : dropRefs name mods = mods := by
  induction mods with
  | nil => rfl
  | cons first rest ih =>
      unfold dropRefs
      split
      · rw [← h first List.mem_cons_self]
      · rw [ih fun mod hmod => h mod (List.mem_cons_of_mem _ hmod)]

/-- The one module of a name is removed. -/
theorem removeLoop_mem {mod : Module} (hmod : mod ∈ mods) (hnames : (mods.map Module.name).Nodup)
    (hcount : mod.refCount = 0) : removeLoop mod.name mods = (0, unload mod, mods.erase mod) := by
  have hnot : ¬ mod.refCount > 0 := by
    rw [hcount]
    decide
  induction mods with
  | nil => cases hmod
  | cons first rest ih =>
      have ⟨hfirst, hrest⟩ := List.nodup_cons.mp hnames
      unfold removeLoop
      cases hmod with
      | head => rw [if_pos rfl, if_neg hnot, List.erase_cons_head]
      | tail _ hmod =>
          have hname : mod.name ∈ rest.map Module.name := List.mem_map_of_mem hmod
          have hne : first.name ≠ mod.name := fun heq => hfirst (heq ▸ hname)
          have hne' : first ≠ mod := fun heq => hne (congrArg Module.name heq)
          rw [if_neg hne, ih hmod hrest, List.erase_cons_tail (by simpa using hne')]

/-- A module is removed under any name that is stored as its own. -/
theorem sysDeleteModule_mem {mod : Module} (hidle : R.Idle) (hnames : R.names.Nodup)
    (hmod : mod ∈ R.modules) (hname : mod.name = storedName name) (flags : ℕ) :
    R.sysDeleteModule (some name) flags = (0, unload mod, ⟨R.modules.erase mod⟩) := by
  have hremove : R.remove (storedName name) = (0, unload mod, ⟨R.modules.erase mod⟩) := by
    unfold remove
    rw [← hname, removeLoop_mem hmod hnames (hidle mod hmod).1]
  have hdrop : dropRefs (storedName name) R.modules = R.modules :=
    dropRefs_idle fun mod hmod => (hidle mod hmod).1
  unfold sysDeleteModule
  simp only [hdrop]
  cases hfind : R.find (storedName name) with
  | some _ => simp only [hremove, ite_self]
  | none => exact absurd (decide_eq_true hname) (List.find?_eq_none.mp hfind mod hmod)

/-! ## Loading -/

theorem find_none : R.find name = none ↔ name ∉ R.names := by
  unfold find names
  rw [List.find?_eq_none, List.mem_map]
  constructor
  · intro h hmem
    obtain ⟨mod, hmod, hname⟩ := hmem
    exact h mod hmod (decide_eq_true hname)
  · intro h mod hmod hname
    exact h ⟨mod, hmod, of_decide_eq_true hname⟩

theorem create_none {code size : ℕ} {mem : Bool} (h : R.create name code size mem = none) :
    name ∈ R.names ∨ mem = false := by
  unfold create at h
  cases hfind : R.find name with
  | some mod =>
      by_contra hno
      have hnone := find_none.mpr fun hmem => hno (.inl hmem)
      rw [hfind] at hnone
      cases hnone
  | none =>
      rw [hfind] at h
      cases mem with
      | true => cases h
      | false => exact .inr rfl

/-- What the call does with a module whose init function succeeds. -/
theorem sysInitModule_ok {l : Loaded} (hload : c.load = .ok l) (hret : 0 ≤ c.ret) :
    ((c.name ∈ R.names ∨ c.mem = false) ∧
      R.sysInitModule c = (-enomem, [.init l.init c.ret, .kfree l.code], R)) ∨
    (c.name ∉ R.names ∧ c.mem = true ∧ R.sysInitModule c = (0, [.init l.init c.ret],
      ⟨⟨storedName c.name, l.code, l.size, l.init, l.cleanup, 0⟩ :: R.modules⟩)) := by
  unfold sysInitModule
  rw [hload]
  simp only
  rw [if_neg (not_lt.mpr hret)]
  cases hfind : R.find c.name with
  | some mod =>
      have hcreate : R.create c.name l.code l.size c.mem = none := by
        unfold create
        rw [hfind]
      rw [hcreate]
      exact .inl ⟨create_none hcreate, rfl⟩
  | none =>
      cases hmem : c.mem with
      | false =>
          have hcreate : R.create c.name l.code l.size false = none := by
            unfold create
            rw [hfind]
            rfl
          rw [hcreate]
          exact .inl ⟨.inr rfl, rfl⟩
      | true =>
          have hcreate : R.create c.name l.code l.size true =
              some (⟨storedName c.name, l.code, l.size, 0, none, 0⟩,
                ⟨⟨storedName c.name, l.code, l.size, 0, none, 0⟩ :: R.modules⟩) := by
            unfold create
            rw [hfind]
            rfl
          rw [hcreate]
          exact .inr ⟨find_none.mp hfind, rfl, rfl⟩

/-- A call whose init function is not reached or fails changes nothing. -/
theorem sysInitModule_failed (h : ∀ l, c.load = .ok l → c.ret < 0) :
    (R.sysInitModule c).1 < 0 ∧ (R.sysInitModule c).2.2 = R ∧ Undone (R.sysInitModule c).2.1 := by
  unfold sysInitModule
  cases hload : c.load with
  | error e =>
      refine ⟨e.errno_neg, rfl, ?_⟩
      intro addr _
      apply Or.inl
      intro fn ret hmem
      cases e <;> simp [LoadError.effects] at hmem
  | ok l =>
      have hret := h l hload
      simp only
      rw [if_pos hret]
      refine ⟨hret, rfl, ?_⟩
      intro addr _
      apply Or.inl
      intro fn ret hmem
      simp only [List.mem_cons, ModuleEffect.init.injEq, reduceCtorEq, List.not_mem_nil, or_false] at hmem
      rw [hmem.2]
      exact hret

theorem not_undone {fn code : ℕ} {ret : ℤ} (hret : 0 ≤ ret) :
    ¬ Undone [.init fn ret, .kfree code] := by
  intro h
  rcases h code (by simp) with hinit | ⟨cl, hcl⟩
  · have := hinit fn ret List.mem_cons_self
    omega
  · simp at hcl

theorem storedName_length (name : ModuleName) : (storedName name).length < modMaxName := by
  unfold storedName
  rw [List.length_take]
  have : modMaxName - 1 < modMaxName := by decide
  omega

theorem storedName_short (h : name.length < modMaxName) : storedName name = name :=
  List.take_of_length_le (Nat.le_sub_one_of_lt h)

theorem Idle.init (h : R.Idle) (c : InitCall) : (R.sysInitModule c).2.2.Idle := by
  by_cases hc : ∀ l, c.load = .ok l → c.ret < 0
  · have ⟨_, hsame, _⟩ := sysInitModule_failed (R := R) hc
    rw [hsame]
    exact h
  · push Not at hc
    have ⟨l, hload, hret⟩ := hc
    rcases sysInitModule_ok (R := R) hload hret with ⟨_, heq⟩ | ⟨_, _, heq⟩
    · rw [heq]
      exact h
    · rw [heq]
      intro mod hmod
      cases hmod with
      | head => exact ⟨rfl, storedName_length c.name⟩
      | tail _ hmod => exact h mod hmod

theorem Idle.call (h : R.Idle) (hs : ModuleStep R e T) : T.Idle := by
  subst hs
  cases e with
  | init c => exact h.init c
  | delete nameUser flags => exact (sysDeleteModule_spec nameUser flags).2 h

theorem Idle.short (h : R.Idle) (hname : name ∈ R.names) : name.length < modMaxName := by
  obtain ⟨mod, hmod, rfl⟩ := List.mem_map.mp hname
  exact (h mod hmod).2

/-- A call of `sys_init_module` keeps the names distinct and is settled exactly if the name
is fresh. -/
theorem settled_iff (hidle : R.Idle) (hnames : R.names.Nodup) :
    ((R.sysInitModule c).2.2.names.Nodup ∧ c.Settled R) ↔ CallFresh R (.init c) := by
  by_cases hc : ∀ l, c.load = .ok l → c.ret < 0
  · have ⟨herr, hsame, hundone⟩ := sysInitModule_failed (R := R) hc
    have hfresh : CallFresh R (.init c) := by
      intro l hload hret
      have := hc l hload
      omega
    refine ⟨fun _ => hfresh, fun _ => ⟨?_, ?_, ?_⟩⟩
    · rw [hsame]
      exact hnames
    · intro _
      exact ⟨hsame, hundone⟩
    · intro hpos
      exact absurd herr (not_lt.mpr hpos)
  · push Not at hc
    have ⟨l, hload, hret⟩ := hc
    unfold CallFresh InitCall.Settled
    rcases sysInitModule_ok (R := R) hload hret with ⟨hbad, heq⟩ | ⟨hname, hmem, heq⟩
    · rw [heq]
      constructor
      · intro h
        have ⟨_, hundone⟩ := h.2.1 (by decide)
        exact absurd hundone (not_undone hret)
      · intro h
        have ⟨hstored, hmem⟩ := h l hload hret
        rcases hbad with hin | hno
        · rw [storedName_short (hidle.short hin)] at hstored
          exact absurd hin hstored
        · rw [hno] at hmem
          cases hmem
    · rw [heq]
      constructor
      · intro h _ _ _
        exact ⟨(List.nodup_cons.mp h.1).1, hmem⟩
      · intro h
        refine ⟨List.nodup_cons.mpr ⟨(h l hload hret).1, hnames⟩, ?_, ?_⟩
        · intro hneg
          exact absurd hneg (lt_irrefl 0)
        · intro _
          refine ⟨_, rfl, ?_, ?_⟩
          · intro l' hload'
            rw [hload] at hload'
            cases hload'
            rfl
          · intro flags
            have hidle' := hidle.init c
            rw [heq] at hidle'
            have hdelete := @sysDeleteModule_mem _ c.name _ hidle'
              (List.nodup_cons.mpr ⟨(h l hload hret).1, hnames⟩) List.mem_cons_self rfl flags
            rw [List.erase_cons_head] at hdelete
            exact hdelete

theorem call_settled_iff (hidle : R.Idle) (hnames : R.names.Nodup) (hs : ModuleStep R e T) :
    (T.names.Nodup ∧ CallSettled R e) ↔ CallFresh R e := by
  subst hs
  cases e with
  | init c => exact settled_iff hidle hnames
  | delete nameUser flags =>
      have hsub := (sysDeleteModule_spec (R := R) nameUser flags).1
      refine ⟨fun _ => trivial, fun _ => ⟨hsub.nodup hnames, ?_⟩⟩
      intro name hname mod hmod heq
      cases hname
      exact sysDeleteModule_mem hidle hnames hmod heq flags

end Registry

/-! ## Runs -/

/-- In a run from boot the names stay distinct and every load is settled exactly if each init
function that succeeds belongs to a name that no module has in its stored form, and there is
memory for the record. -/
theorem registry_consistent_iff {T : Registry} {tr : List (Registry × ModuleCall)}
    (h : Trace ModuleStep ⟨[]⟩ tr T) :
    (Throughout (fun R => R.names.Nodup) tr T ∧ ∀ x ∈ tr, CallSettled x.1 x.2) ↔
      ∀ x ∈ tr, CallFresh x.1 x.2 := by
  have hstart : Registry.Idle ⟨[]⟩ ∧ (Registry.names ⟨[]⟩).Nodup :=
    ⟨fun _ hmod => (by cases hmod), List.nodup_nil⟩
  have hidle : Throughout Registry.Idle tr T :=
    h.throughout (fun _ _ _ hR hs => hR.call hs) hstart.1
  have hiff := h.throughout_and_iff (I := fun R => R.Idle ∧ R.names.Nodup) (J := CallSettled)
    (C := CallFresh) (fun R e T hR hs => by
      rw [← Registry.call_settled_iff hR.1 hR.2 hs]
      exact ⟨fun hT => ⟨hT.1.2, hT.2⟩, fun hT => ⟨⟨hR.1.call hs, hT.1⟩, hT.2⟩⟩) hstart
  rw [← hiff]
  unfold Throughout
  constructor
  · intro hall
    exact ⟨⟨fun x hx => ⟨hidle.1 x hx, hall.1.1 x hx⟩, hidle.2, hall.1.2⟩, hall.2⟩
  · intro hall
    exact ⟨⟨fun x hx => (hall.1.1 x hx).2, hall.1.2.2⟩, hall.2⟩

/-- A call with an image whose init function succeeds. -/
def loadOk (code : ℕ) (name : ModuleName) : ModuleCall :=
  .init { load := .ok ⟨code, 64, code, some (code + 16)⟩, ret := 0, mem := true, args := some name }

/-- A module is loaded, deleted and loaded again. -/
def reload : List ModuleCall := [loadOk 4096 [97], .delete (some [97]) 0, loadOk 8192 [97]]

def Registry.callState (R : Registry) (e : ModuleCall) : Option Registry := some (R.call e).2.2

theorem moduleTrace {T : Registry} {es : List ModuleCall} (h : exec Registry.callState ⟨[]⟩ es = some T) :
    Trace ModuleStep ⟨[]⟩ (history Registry.callState ⟨[]⟩ es) T :=
  (exec_trace h).imp (C := fun _ _ => True) (fun _ _ _ _ hs => Option.some.inj hs) fun _ _ => trivial

theorem registry_consistent_iff_reload :
    Throughout (fun R => R.names.Nodup) (history Registry.callState ⟨[]⟩ reload)
        ⟨[⟨[97], 8192, 64, 8192, some 8208, 0⟩]⟩ ∧
      ∀ x ∈ history Registry.callState ⟨[]⟩ reload, CallSettled x.1 x.2 := by
  apply (registry_consistent_iff (moduleTrace (by decide))).mpr
  change ∀ x ∈ [(⟨[]⟩, loadOk 4096 [97]),
    (⟨[⟨[97], 4096, 64, 4096, some 4112, 0⟩]⟩, .delete (some [97]) 0),
    (⟨[]⟩, loadOk 8192 [97])], CallFresh x.1 x.2
  simp only [List.forall_mem_cons, List.not_mem_nil, false_implies, implies_true, and_true]
  refine ⟨?_, trivial, ?_⟩
  · intro _ _ _
    exact ⟨by decide, rfl⟩
  · intro _ _ _
    exact ⟨by decide, rfl⟩

/-- A module is loaded a second time: its init function has run when the name is found. -/
theorem not_registry_consistent_twice : ¬ ∀ (tr : List (Registry × ModuleCall)) (T : Registry),
    Trace ModuleStep ⟨[]⟩ tr T →
      Throughout (fun R => R.names.Nodup) tr T ∧ ∀ x ∈ tr, CallSettled x.1 x.2 := by
  intro hclaim
  have htr : Trace ModuleStep ⟨[]⟩
      (history Registry.callState ⟨[]⟩ [loadOk 4096 [97], loadOk 8192 [97]]) _ := moduleTrace rfl
  have ⟨_, hsettled⟩ := hclaim _ _ htr
  have hsecond : CallSettled ⟨[⟨[97], 4096, 64, 4096, some 4112, 0⟩]⟩ (loadOk 8192 [97]) :=
    hsettled _ (List.mem_cons_of_mem _ List.mem_cons_self)
  have hundone : Undone [.init 8192 0, .kfree 8192] := (hsecond.1 (by decide)).2
  exact Registry.not_undone le_rfl hundone

end Ferrite.Sys
