import Ferrite.Fs.InodeLookup
import Ferrite.Fs.MountCrossing

/-!
# Histories of mounts and lookups

Successful mounts, lookups, and gets and puts of other callers in any order. A
lookup ends where the walk through the mounted tree ends as long as the slot of
every mounted directory keeps a reference of its own: `vfs_mount` puts back the
one it took.
-/
namespace Ferrite.Fs
open Namespaces Runs

inductive MountEvent
  | lookup (caller : Caller) (path : Path) (env : LookupEnv)
  | get (sb ino : ℕ) (env : ReadEnv)
  | put (i : ℕ)
  | mount (caller : Caller) (name : Path) (flags : ℕ) (env : MountEnv)

namespace Mounts
variable (s : Mounts)

def call : MountEvent → Option Mounts
  | .lookup caller path env => (s.vfsLookup caller path env).map fun r => { s with cache := r.2 }
  | .get sb ino env => some { s with cache := (s.cache.inodeGet sb ino env).2 }
  | .put i => (s.cache.inodePut i).map fun c => { s with cache := c }
  | .mount caller name flags env =>
      (s.vfsMount caller name flags env).bind fun r => if r.1 = 0 then some r.2 else none

/-- The memory that `kmalloc` returned for a new superblock is in no slot. -/
def Fresh : MountEvent → Prop
  | .mount _ _ _ env => ∀ i < maxInodes, (s.cache.slots i).sb ≠ some env.sb
  | _ => True

/-- Only the root file system is mounted. -/
def Booted : Prop :=
  ∃ (s₀ : Mounts) (caller : Caller) (flags : ℕ) (env : MountEnv), s₀.cache.Cold ∧
    s₀.mounted = (fun _ => none) ∧ s₀.vfsMount caller ['/'] flags env = some (0, s)

/-- Where the walk along a path leads, from the directory in the slot of the caller. -/
def resolve (caller : Caller) (path : Path) : Option Node :=
  (s.cache.node (base caller path)).bind fun b => walk (entryOf s.entries) s.mounted b (components path)

/-- The walk along a path meets the directory `d`. -/
def Passes (caller : Caller) (path : Path) (d : Node) : Prop :=
  ∃ b, s.cache.node (base caller path) = some b ∧
    d ∈ visited (entryOf s.entries) s.mounted b (components path)

/-- The walk along a path starts in the file system of a superblock. -/
def StartsIn (caller : Caller) (path : Path) (sb : ℕ) : Prop :=
  ∃ b, s.cache.node (base caller path) = some b ∧ b.1 = sb

/-- A lookup ends where the walk leads, and not in a file system whose mount point it does
not pass; the path of a new mount leads to the mounted root. -/
def CrossesExactly : MountEvent → Prop
  | .lookup caller path env => ∀ i c, s.vfsLookup caller path env = some (some i, c) →
      c.node i = s.resolve caller path ∧
        ∀ d m, s.mounted d = some m → ¬ s.Passes caller path d → ¬ s.StartsIn caller path m.1 →
          (c.slots i).sb ≠ some m.1
  | .mount caller name flags env => ∀ t, s.vfsMount caller name flags env = some (0, t) →
      t.resolve caller name = some (env.sb, ext2RootIno)
  | _ => True

/-- The path leads over its last name to a directory that it has not met before, on which
nothing is mounted and to which there is a reference already. -/
structure MountPoint (caller : Caller) (name : Path) : Prop where
  notRoot : name ≠ ['/']
  last : ∃ (b x d : Node) (names : List (List Char)) (n : List Char) (i : ℕ),
    s.cache.node (base caller name) = some b ∧ components name = names ++ [n] ∧
    walk (entryOf s.entries) s.mounted b names = some x ∧ entryOf s.entries x n = some d ∧
    d ∉ visited (entryOf s.entries) s.mounted b names ∧ s.mounted d = none ∧ s.cache.node i = some d

/-- No count is about to wrap, a put does not take the last reference to a mounted
directory, and a mount is on a directory that someone else refers to. -/
def Pinned (e : MountEvent) : Prop :=
  s.cache.Roomy ∧ match e with
    | .put i => (s.cache.slots i).count = 1 → (s.cache.slots i).mount = none
    | .mount caller name _ _ => s.MountPoint caller name
    | _ => True

end Mounts

def MountStep (s : Mounts) (e : MountEvent) (t : Mounts) : Prop := s.call e = some t ∧ s.Fresh e

/-! ## Lookups -/

namespace InodeCache
variable {c c' : InodeCache} {mounted : Node → Option Node} {d m : Node} {i r sb : ℕ}

theorem Anchored.setSuper (h : Anchored mounted c) (hsb : ∀ d m, mounted d = some m → m.1 ≠ sb)
    (x : Superblock) : Anchored mounted { c with supers := Function.update c.supers sb x } where
  lt := h.lt
  idle := h.idle
  live := h.live
  unique := h.unique
  mount i d hd := by
    refine (h.mount i d hd).trans (Option.bind_congr fun m hm => ?_)
    exact congrArg Superblock.rootNode (Function.update_of_ne (hsb d m hm) ..).symm
  pinned := h.pinned
  rooted d m hm := by
    obtain ⟨r, hr, hnode⟩ := h.rooted d m hm
    refine ⟨r, ?_, hnode⟩
    rw [← hr]
    exact congrArg Superblock.rootNode (Function.update_of_ne (hsb d m hm) ..)

/-- Linking the slot of a directory to a root node mounts the root on the directory. -/
theorem Anchored.link (h : Anchored mounted c) (hd : c.node i = some d)
    (hroot : (c.supers m.1).rootNode = some r) (hm : c.node r = some m) :
    Anchored (Function.update mounted d (some m)) (c.setSlot i { c.slots i with mount := some r }) := by
  have hslot (j : ℕ) : ((c.setSlot i { c.slots i with mount := some r }).slots j).count =
      (c.slots j).count ∧ ((c.setSlot i { c.slots i with mount := some r }).slots j).sb =
      (c.slots j).sb ∧ (c.setSlot i { c.slots i with mount := some r }).node j = c.node j := by
    by_cases hji : j = i <;> simp [setSlot, node, hji]
  refine ⟨fun j hj => h.lt j ((hslot j).1 ▸ hj), fun j hj => ?_, fun j hj => ?_,
    fun j k e hje hke => ?_, fun j e he => ?_, fun e x hx => ?_, fun e x hx => ?_⟩
  · rw [(hslot j).1] at hj
    have hji : j ≠ i := fun hji => h.count_ne_zero hd (hji ▸ hj)
    rw [(hslot j).2.1, show (c.setSlot i _).slots j = c.slots j by simp [setSlot, hji]]
    exact h.idle j hj
  · rw [(hslot j).2.1]
    exact h.live j ((hslot j).1 ▸ hj)
  · exact h.unique j k e ((hslot j).2.2 ▸ hje) ((hslot k).2.2 ▸ hke)
  · rw [(hslot j).2.2] at he
    by_cases hji : j = i
    · have hed : e = d := Option.some.inj (he.symm.trans (hji ▸ hd))
      rw [hji, hed, Function.update_self]
      simpa [setSlot] using hroot.symm
    · have hed : e ≠ d := fun hed => hji (h.unique j i d (hed ▸ he) hd)
      rw [Function.update_of_ne hed]
      simpa [setSlot, hji] using h.mount j e he
  · by_cases hed : e = d
    · exact ⟨i, by rw [(hslot i).2.2, hd, hed]⟩
    · rw [Function.update_of_ne hed] at hx
      obtain ⟨k, hk⟩ := h.pinned e x hx
      exact ⟨k, (hslot k).2.2.trans hk⟩
  · by_cases hed : e = d
    · rw [hed, Function.update_self] at hx
      cases hx
      exact ⟨r, hroot, (hslot r).2.2.trans hm⟩
    · rw [Function.update_of_ne hed] at hx
      obtain ⟨k, hk, hnode⟩ := h.rooted e x hx
      exact ⟨k, hk, (hslot k).2.2.trans hnode⟩

/-- A superblock that no slot has is the superblock of no mounted root. -/
theorem Anchored.over_ne (h : Anchored mounted c) (hsb : ∀ i < maxInodes, (c.slots i).sb ≠ some sb)
    (hm : mounted d = some m) : m.1 ≠ sb := by
  intro heq
  obtain ⟨r, -, hnode⟩ := h.rooted d m hm
  have hr := (node_eq_some.mp hnode).1
  exact hsb r (h.lt r (h.count_ne_zero hnode)) (heq ▸ hr)

end InodeCache

namespace Mounts
open InodeCache
variable {s t : Mounts} {caller : Caller} {path name : Path} {c c' : InodeCache} {r : Option ℕ}

theorem vfsLookup_eq {env : LookupEnv} (h : path ≠ []) :
    s.vfsLookup caller path env = s.lookupFrom caller (base caller path) (components path) env := by
  unfold vfsLookup lookupFrom
  simp only [if_neg h]

theorem lookupFrom_spec {start : ℕ} {names : List (List Char)} {env : LookupEnv}
    (h : Anchored s.mounted s.cache) (hroom : s.cache.Roomy)
    (hr : s.lookupFrom caller start names env = some (r, c')) :
    (r = none ∧ Holds s.mounted s.cache c' []) ∨ ∃ i e, r = some i ∧ Holds s.mounted s.cache c' [i] ∧
      c'.node i = some e ∧
      ((s.cache.node start).bind fun b => walk (entryOf s.entries) s.mounted b names) = some e := by
  unfold lookupFrom at hr
  cases hsb : (s.cache.slots start).sb with
  | none =>
      simp only [hsb] at hr
      split at hr <;> cases hr
      exact .inl ⟨rfl, .refl h⟩
  | some b =>
      simp only [hsb] at hr
      have hnode : s.cache.node start = some (b, (s.cache.slots start).ino) :=
        node_eq_some.mpr ⟨hsb, rfl⟩
      rw [hnode, Option.bind_some]
      split_ifs at hr with hnil hperm hsplit
      · rcases inodeGet_spec (Option.some.inj hr) with ⟨hnone, rfl⟩ | ⟨i, hi, hg⟩
        · exact .inl ⟨hnone, .refl h⟩
        · refine .inr ⟨i, _, hi, (Holds.refl h).get hroom (by simp) hg, hg.node, ?_⟩
          rw [hnil, walk]
      · cases hr
        exact .inl ⟨rfl, .refl h⟩
      · cases hr
        exact .inl ⟨rfl, .refl h⟩
      · cases hget : s.cache.inodeGet b (s.cache.slots start).ino (env.read 0) with
        | mk new c =>
            rw [hget] at hr
            rcases inodeGet_spec hget with ⟨rfl, rfl⟩ | ⟨i, rfl, hg⟩
            · cases hr
              exact .inl ⟨rfl, .refl h⟩
            · have hheld := (Holds.refl h).get hroom (by simp) hg
              exact hheld.lookupLoop hroom hg.node hr

theorem vfsLookup_spec {env : LookupEnv} (h : Anchored s.mounted s.cache) (hroom : s.cache.Roomy)
    (hr : s.vfsLookup caller path env = some (r, c')) :
    (r = none ∧ Holds s.mounted s.cache c' []) ∨ ∃ i e, r = some i ∧ Holds s.mounted s.cache c' [i] ∧
      c'.node i = some e ∧ s.resolve caller path = some e := by
  by_cases hpath : path = []
  · unfold vfsLookup at hr
    simp only [hpath, if_true] at hr
    cases hr
    exact .inl ⟨rfl, .refl h⟩
  · rw [vfsLookup_eq hpath] at hr
    exact lookupFrom_spec h hroom hr

/-- The root of a new file system is in a slot of its own. -/
theorem readSuper_spec {mounted : Node → Option Node} {sb r : ℕ} {super : Superblock} {env : ReadEnv}
    (h : Anchored mounted c) (hsb : ∀ i < maxInodes, (c.slots i).sb ≠ some sb)
    (hr : readSuper c sb super env = some (r, c')) :
    Anchored mounted c' ∧ (c'.supers sb).rootNode = some r ∧ c'.node r = some (sb, ext2RootIno) ∧
      ∀ i, (c.slots i).count ≠ 0 → c'.slots i = c.slots i := by
  have hmounted := fun d m (hm : mounted d = some m) => h.over_ne hsb hm
  have hset := h.setSuper hmounted { super with rootNode := none }
  unfold readSuper at hr
  simp only at hr
  split at hr
  · cases hr
  · rename_i r' c₁ hget
    cases hr
    rcases inodeGet_spec hget with ⟨hnone, -⟩ | ⟨i, hi, hg⟩
    · cases hnone
    · cases hi
      have hzero : (c.slots r).count = 0 := by
        rcases hg.slot with ⟨hnode, -⟩ | ⟨hzero, -⟩
        · have hlive := hset.count_ne_zero hnode
          exact absurd (node_eq_some.mp hnode).1 (hsb r (h.lt r hlive))
        · exact hzero
      have hgot : Anchored mounted c₁ := by
        apply hset.got hg
        rw [show (({ c with supers := _ } : InodeCache).slots r).count = 0 from hzero]
        decide
      refine ⟨hgot.setSuper hmounted _, ?_, hg.node, fun j hj => ?_⟩
      · simp
      · have hji : j ≠ r := fun hji => hj (hji ▸ hzero)
        exact hg.other j hji

/-- Mounting on a directory with a reference besides the one of the call. -/
theorem mountOn_spec {env : MountEnv} {i : ℕ} {d : Node} (h : Anchored s.mounted c)
    (hsb : ∀ i < maxInodes, (c.slots i).sb ≠ some env.sb) (hd : c.node i = some d)
    (hcount : (c.slots i).count ≠ 1) (hr : s.mountOn c name (some i) env = some (0, t)) :
    t.mounted = Function.update s.mounted d (some (env.sb, ext2RootIno)) ∧ t.entries = s.entries ∧
      Anchored t.mounted t.cache ∧ ∀ j, (c.slots j).count ≠ 0 → t.cache.node j = c.node j := by
  unfold mountOn at hr
  cases hsuper : env.super with
  | error e =>
      rw [hsuper] at hr
      obtain ⟨c', -, hc'⟩ := Option.map_eq_some_iff.mp hr
      cases e <;> cases hc'
  | ok super =>
      rw [hsuper] at hr
      simp only at hr
      split at hr
      · cases hr
      · rename_i r c₁ hread
        obtain ⟨hanch, hroot, hnode, hkept⟩ := readSuper_spec h hsb hread
        have hi := hkept i (h.count_ne_zero hd)
        have hd₁ : c₁.node i = some d := by rw [node_congr hi, hd]
        split at hr
        · obtain ⟨c', -, hc'⟩ := Option.map_eq_some_iff.mp hr
          cases hc'
        · simp only [Option.elim, Option.bind_some, hd₁, recordMount] at hr
          obtain ⟨c', hput, hc'⟩ := Option.map_eq_some_iff.mp hr
          cases hc'
          have hlinked := hanch.link hd₁ hroot hnode
          have hone : ((c₁.setSlot i { c₁.slots i with mount := some r }).slots i).count ≠ 1 := by
            simpa [setSlot, hi] using hcount
          refine ⟨rfl, rfl, hlinked.put hput fun h₁ => absurd h₁ hone, fun j hj => ?_⟩
          have hset : (c₁.setSlot i { c₁.slots i with mount := some r }).node j = c.node j := by
            rw [← node_congr (hkept j hj)]
            by_cases hji : j = i <;> simp [setSlot, node, hji]
          rw [← hset]
          obtain ⟨-, hother, hslot⟩ := inodePut_spec hput
          by_cases hji : j = i
          · rcases hslot with ⟨-, rfl⟩ | ⟨h₁, -⟩ | ⟨-, -, -, hsame, -⟩
            · rfl
            · exact absurd h₁ hone
            · rw [hji, hsame]
          · exact node_congr (hother j hji)

/-- The path of a mount point leads to the directory itself. -/
theorem MountPoint.resolve (h : s.MountPoint caller name) :
    ∃ (b d : Node) (names : List (List Char)) (n : List Char) (x : Node) (i : ℕ),
      s.resolve caller name = some d ∧ s.cache.node (base caller name) = some b ∧
      components name = names ++ [n] ∧ walk (entryOf s.entries) s.mounted b names = some x ∧
      entryOf s.entries x n = some d ∧ d ∉ visited (entryOf s.entries) s.mounted b names ∧
      s.cache.node i = some d := by
  obtain ⟨b, x, d, names, n, i, hb, hcomp, hx, hd, hfresh, hmounted, hi⟩ := h.last
  refine ⟨b, d, names, n, x, i, ?_, hb, hcomp, hx, hd, hfresh, hi⟩
  rw [Mounts.resolve, hb, Option.bind_some, hcomp, walk_append, hx, Option.bind_some, walk, hd,
    Option.bind_some, walk, cross, hmounted, Option.getD_none]

theorem vfsMount_spec {flags : ℕ} {env : MountEnv} (h : Anchored s.mounted s.cache)
    (hroom : s.cache.Roomy) (hpoint : s.MountPoint caller name)
    (hsb : ∀ i < maxInodes, (s.cache.slots i).sb ≠ some env.sb)
    (hr : s.vfsMount caller name flags env = some (0, t)) :
    ∃ d, t.mounted = Function.update s.mounted d (some (env.sb, ext2RootIno)) ∧
      Anchored t.mounted t.cache ∧ t.resolve caller name = some (env.sb, ext2RootIno) := by
  obtain ⟨b, d, names, n, x, k, hres, hb, hcomp, hx, hd, hfresh, hk⟩ := hpoint.resolve
  unfold vfsMount at hr
  by_cases hlen : nameMax ≤ name.length
  · rw [if_pos hlen] at hr
    cases hr
  rw [if_neg hlen, if_neg hpoint.notRoot] at hr
  split at hr
  · cases hr
  · cases hr
  · rename_i i c hlook
    rcases vfsLookup_spec h hroom hlook with ⟨hnone, -⟩ | ⟨i', e, hi, hheld, hnode, he⟩
    · cases hnone
    cases hi
    have hed : e = d := Option.some.inj (he.symm.trans hres)
    rw [hed] at hnode
    split_ifs at hr with hdir hmount hflags
    · obtain ⟨c', -, hc'⟩ := Option.map_eq_some_iff.mp hr
      cases hc'
    · obtain ⟨c', -, hc'⟩ := Option.map_eq_some_iff.mp hr
      cases hc'
    · cases hr
    -- The slot is the one that was in use before the call, so it has two references.
    have hki : k = i := by
      refine hheld.anchored.unique k i d ?_ hnode
      rw [hheld.node k (h.count_ne_zero hk), hk]
    have hlive := h.count_ne_zero hk
    rw [hki] at hlive
    have hcount := hheld.count i
    rw [List.count_singleton_self] at hcount
    have hwas (j : ℕ) (hj : (c.slots j).count ≠ 0) : (s.cache.slots j).count ≠ 0 := by
      intro hzero
      have hj' := hheld.count j
      have hij : j ≠ i := fun hji => hlive (hji ▸ hzero)
      rw [List.count_singleton, if_neg (by simpa using Ne.symm hij)] at hj'
      exact hj (by bv_omega)
    have hsb' : ∀ j < maxInodes, (c.slots j).sb ≠ some env.sb := by
      intro j hj heq
      have hlivej : (c.slots j).count ≠ 0 := by
        intro hzero
        rw [(hheld.anchored.idle j hzero).1] at heq
        cases heq
      have hnodej := hheld.node j (hwas j hlivej)
      have hnew : c.node j = some (env.sb, (c.slots j).ino) := node_eq_some.mpr ⟨heq, rfl⟩
      exact hsb j hj (node_eq_some.mp (hnodej.symm.trans hnew)).1
    obtain ⟨hmounted, hentries, hanch, hkept⟩ :=
      mountOn_spec hheld.anchored hsb' hnode (by bv_omega) hr
    refine ⟨d, hmounted, hanch, ?_⟩
    have hbase := h.count_ne_zero hb
    rw [Mounts.resolve, hkept _ (hheld.live hbase), hheld.node _ hbase, hb, Option.bind_some, hmounted,
      hentries, hcomp]
    exact walk_mount hx hd hfresh _

/-- Every mounted file system is mounted on one directory. -/
def Separate (mounted : Node → Option Node) : Prop :=
  ∀ d d' m m', mounted d = some m → mounted d' = some m' → m.1 = m'.1 → d = d'

theorem Separate.update {mounted : Node → Option Node} (h : Separate mounted) {m : Node}
    (hm : ∀ d x, mounted d = some x → x.1 ≠ m.1) (d : Node) :
    Separate (Function.update mounted d (some m)) := by
  intro e e' x x' hx hx' heq
  by_cases he : e = d <;> by_cases he' : e' = d
  · rw [he, he']
  · rw [he, Function.update_self] at hx
    rw [Function.update_of_ne he'] at hx'
    cases hx
    exact absurd heq.symm (hm e' x' hx')
  · rw [he', Function.update_self] at hx'
    rw [Function.update_of_ne he] at hx
    cases hx'
    exact absurd heq (hm e x hx)
  · rw [Function.update_of_ne he] at hx
    rw [Function.update_of_ne he'] at hx'
    exact h e e' x x' hx hx' heq

/-- A walk that does not pass the mount point of a file system stays out of it. -/
theorem resolve_outside (hsep : Separate s.mounted) {d m e : Node} (hmounted : s.mounted d = some m)
    (hpass : ¬ s.Passes caller path d) (hstart : ¬ s.StartsIn caller path m.1)
    (h : s.resolve caller path = some e) : e.1 ≠ m.1 := by
  obtain ⟨b, hb, hwalk⟩ := Option.bind_eq_some_iff.mp h
  refine @walk_inside _ _ _ _ b e _ (fun x => x.1 ≠ m.1) ?_ (fun heq => hstart ⟨b, hb, heq⟩) ?_ hwalk
  · intro x n y hx hy
    obtain ⟨ino, -, rfl⟩ := Option.map_eq_some_iff.mp hy
    exact hx
  · intro x hx r hr heq
    exact hpass ⟨b, hb, hsep x d r m hr hmounted heq ▸ hx⟩

/-- The links are right, and no file system is mounted twice. -/
def Tree (s : Mounts) : Prop := Anchored s.mounted s.cache ∧ Separate s.mounted

theorem Tree.step {e : MountEvent} (h : s.Tree) (hp : s.Pinned e) (hst : MountStep s e t) :
    t.Tree ∧ s.CrossesExactly e := by
  obtain ⟨hanch, hsep⟩ := h
  obtain ⟨hroom, hp⟩ := hp
  obtain ⟨hst, hfresh⟩ := hst
  cases e with
  | lookup caller path env =>
      obtain ⟨⟨r, c⟩, hr, ht⟩ := Option.map_eq_some_iff.mp hst
      cases ht
      constructor
      · rcases vfsLookup_spec hanch hroom hr with ⟨-, hheld⟩ | ⟨i, e, -, hheld, -⟩
        · exact ⟨hheld.anchored, hsep⟩
        · exact ⟨hheld.anchored, hsep⟩
      · intro i c' hr'
        rcases vfsLookup_spec hanch hroom hr' with ⟨hnone, -⟩ | ⟨j, e, hj, hheld, hnode, hres⟩
        · cases hnone
        · cases hj
          refine ⟨hnode.trans hres.symm, fun d m hm hpass hstart hsb => ?_⟩
          have he := (node_eq_some.mp hnode).1
          rw [he] at hsb
          exact resolve_outside hsep hm hpass hstart hres (Option.some.inj hsb)
  | get sb ino env =>
      cases hst
      refine ⟨⟨?_, hsep⟩, trivial⟩
      cases hget : s.cache.inodeGet sb ino env with
      | mk r c =>
          rcases inodeGet_spec hget with ⟨-, rfl⟩ | ⟨i, -, hg⟩
          · exact hanch
          · have hi := hroom i hg.lt
            exact hanch.got hg (by bv_omega)
  | put i =>
      obtain ⟨c, hput, hc⟩ := Option.map_eq_some_iff.mp hst
      cases hc
      exact ⟨⟨hanch.put hput hp, hsep⟩, trivial⟩
  | mount caller name flags env =>
      constructor
      · obtain ⟨⟨z, u⟩, hr, hu⟩ := Option.bind_eq_some_iff.mp hst
        split_ifs at hu with hz
        cases hu
        cases hz
        obtain ⟨d, hmounted, hanch', -⟩ := vfsMount_spec hanch hroom hp hfresh hr
        refine ⟨hanch', hmounted ▸ hsep.update (fun d x hx => ?_) d⟩
        exact hanch.over_ne hfresh hx
      · intro u hr
        obtain ⟨d, -, -, hres⟩ := vfsMount_spec hanch hroom hp hfresh hr
        exact hres

theorem Booted.tree (h : s.Booted) : s.Tree := by
  obtain ⟨s₀, caller, flags, env, hcold, hmounted, hr⟩ := h
  have hanch : Anchored s₀.mounted s₀.cache := by
    have hslot (i : ℕ) : s₀.cache.slots i = .zero := hcold i
    have hnode (i : ℕ) : s₀.cache.node i = none := by rw [node, hslot]; rfl
    refine ⟨fun i hi => ?_, fun i _ => ?_, fun i hi => ?_, fun i j d hd => ?_, fun i d hd => ?_,
      fun d m hm => ?_, fun d m hm => ?_⟩
    · exact absurd (congrArg VfsInode.count (hslot i)) hi
    · rw [hslot]
      exact ⟨rfl, rfl⟩
    · exact absurd (congrArg VfsInode.count (hslot i)) hi
    · rw [hnode] at hd
      cases hd
    · rw [hnode] at hd
      cases hd
    · rw [hmounted] at hm
      cases hm
    · rw [hmounted] at hm
      cases hm
  have hsb : ∀ i < maxInodes, (s₀.cache.slots i).sb ≠ some env.sb := by
    intro i _
    rw [hcold i]
    intro h
    cases h
  unfold vfsMount mountOn at hr
  simp only [List.length_singleton, if_true] at hr
  rw [if_neg (by decide)] at hr
  cases hsuper : env.super with
  | error e =>
      rw [hsuper] at hr
      obtain ⟨c', -, hc'⟩ := Option.map_eq_some_iff.mp hr
      cases e <;> cases hc'
  | ok super =>
      rw [hsuper] at hr
      simp only at hr
      split at hr
      · cases hr
      · rename_i r c hread
        obtain ⟨hanch', -⟩ := readSuper_spec hanch hsb hread
        split at hr
        · cases hr
        · cases hr
          refine ⟨hanch', fun d d' m m' hm => ?_⟩
          rw [show recordMount s₀.mounted _ _ = s₀.mounted from rfl, hmounted] at hm
          cases hm

/-- Lookups cross mounts exactly in every history in which the slots of the mounted
directories stay in use. -/
theorem mounts_crossed_exactly {tr : List (Mounts × MountEvent)} {u : Mounts} (hs : s.Booted)
    (h : Trace MountStep s tr u) (hc : ∀ x ∈ tr, x.1.Pinned x.2) :
    ∀ x ∈ tr, x.1.CrossesExactly x.2 :=
  (h.throughout_and_of (fun _ _ _ hs hc hst => hs.step hc hst) hs.tree hc).2

/-! ## Two file systems -/

/-- A directory with the inode numbers 2, 12 and 13 in the blocks from 5 on. -/
def treeDevice : BlockDevice :=
  { sectorSize := 512
    bytes := Packed.put 2 (Packed.put 2 (Packed.put 2 (fun _ => 0) (5 * 1024 + 128) 0o040755)
      (5 * 1024 + 11 * 128) 0o040755) (5 * 1024 + 12 * 128) 0o040755 }

/-- Before the root file system is mounted; it has the directories `mnt` and `etc`. -/
def unmounted : Mounts :=
  { cache :=
      { slots := fun _ => .zero, supers := fun _ => smallSuper, devices := fun _ => treeDevice
        nullReads := 0 }
    entries := fun sb ino name =>
      if sb = 10 ∧ ino = 2 then
        if name = ['m', 'n', 't'] then some 12 else if name = ['e', 't', 'c'] then some 13 else none
      else none
    table := []
    mounted := fun _ => none }

def mountedAt (sb : ℕ) : MountEnv :=
  { lookup := { split := true, read := fun _ => someMemory }, sb := sb, super := .ok smallSuper
    read := someMemory, entry := true }

def rootUser : Caller := { euid := 0, egid := 0, groups := [], root := 0, pwd := 0 }

def bootMount : MountEvent := .mount rootUser ['/'] 0 (mountedAt 10)
def mountMnt : MountEvent := .mount rootUser ['/', 'm', 'n', 't'] 0 (mountedAt 11)
def lookupMnt : MountEvent := .lookup rootUser ['/', 'm', 'n', 't'] (mountedAt 11).lookup
def lookupEtc : MountEvent := .lookup rootUser ['/', 'e', 't', 'c'] (mountedAt 11).lookup

theorem booted_of_call {s₀ : Mounts} (hcold : s₀.cache.Cold) (hmounted : s₀.mounted = fun _ => none)
    (h : s₀.call bootMount = some s) : s.Booted := by
  simp only [call, bootMount] at h
  obtain ⟨⟨z, u⟩, hr, hu⟩ := Option.bind_eq_some_iff.mp h
  split_ifs at hu with hz
  cases hu
  cases hz
  exact ⟨s₀, rootUser, 0, mountedAt 10, hcold, hmounted, hr⟩

instance (s : Mounts) (e : MountEvent) : Decidable (s.Fresh e) := by
  cases e <;> unfold Fresh <;> infer_instance

instance (c : InodeCache) : Decidable c.Roomy := by
  unfold InodeCache.Roomy
  infer_instance

/-- Someone refers to `mnt` before the mount. -/
def pinnedRun : List MountEvent := [.get 10 12 someMemory, mountMnt, lookupMnt, lookupEtc]

theorem mounts_crossed_exactly_pinned : ∃ (s u : Mounts) (tr : List (Mounts × MountEvent)),
    s.Booted ∧ Trace MountStep s tr u ∧ u.resolve rootUser ['/', 'm', 'n', 't'] = some (11, 2) ∧
      ∀ x ∈ tr, x.1.CrossesExactly x.2 := by
  have hrun : ((unmounted.call bootMount).any fun s =>
      ((exec call s pinnedRun).any fun u =>
        u.resolve rootUser ['/', 'm', 'n', 't'] = some (11, 2)) &&
      (history call s pinnedRun).all fun x => x.1.Fresh x.2 && x.1.cache.Roomy && match x.2 with
        | .mount caller name _ _ =>
            name ≠ ['/'] && components name = [['m', 'n', 't']] &&
            x.1.cache.node (base caller name) = some (10, 2) && x.1.cache.node 1 = some (10, 12) &&
            x.1.mounted (10, 12) = none && entryOf x.1.entries (10, 2) ['m', 'n', 't'] = some (10, 12)
        | _ => true) = true := by
    decide +kernel
  obtain ⟨s, hs, hrest⟩ := (Option.any_eq_true _ _).mp hrun
  obtain ⟨hexec, hall⟩ := Bool.and_eq_true_iff.mp hrest
  obtain ⟨u, hu, hend⟩ := (Option.any_eq_true _ _).mp hexec
  have hx := fun x hx => List.all_eq_true.mp hall x hx
  simp only [Bool.and_eq_true, decide_eq_true_eq] at hx
  have htr : Trace MountStep s (history call s pinnedRun) u :=
    (exec_trace hu).imp (C := fun s e => s.Fresh e) (fun _ _ _ hf hst => ⟨hst, hf⟩)
      fun x hmem => (hx x hmem).1.1
  have hbooted := booted_of_call (fun _ => rfl) rfl hs
  refine ⟨s, u, _, hbooted, htr, of_decide_eq_true hend,
    mounts_crossed_exactly hbooted htr fun x hmem => ⟨(hx x hmem).1.2, ?_⟩⟩
  have hev := mem_history hmem
  have hlast := (hx x hmem).2
  simp only [pinnedRun, List.mem_cons, List.not_mem_nil, or_false] at hev
  rcases hev with he | he | he | he <;> rw [he] at hlast ⊢
  · trivial
  · simp only [mountMnt, Bool.and_eq_true, decide_eq_true_eq] at hlast
    obtain ⟨⟨⟨⟨⟨hne, hcomp⟩, hbase⟩, hi⟩, hmounted⟩, hentry⟩ := hlast
    exact ⟨hne, _, _, _, [], _, 1, hbase, hcomp, rfl, hentry, List.not_mem_nil, hmounted, hi⟩
  · trivial
  · trivial

/-- `/mnt` is mounted on, and its slot is taken for `/etc`. -/
theorem not_mounts_crossed_exactly_etc : ¬ ∀ (s u : Mounts) (tr : List (Mounts × MountEvent)),
    s.Booted → Trace MountStep s tr u → ∀ x ∈ tr, x.1.CrossesExactly x.2 := by
  intro hclaim
  have hrun : ((unmounted.call bootMount).any fun s =>
      s.Fresh mountMnt && (s.call mountMnt).any fun t =>
        t.resolve rootUser ['/', 'e', 't', 'c'] = some (10, 13) &&
        (t.vfsLookup rootUser ['/', 'e', 't', 'c'] (mountedAt 11).lookup).any fun r =>
          r.1 = some 2 && r.2.node 2 = some (11, 2)) = true := by
    decide +kernel
  obtain ⟨s, hs, hrest⟩ := (Option.any_eq_true _ _).mp hrun
  obtain ⟨hfresh, hmount⟩ := Bool.and_eq_true_iff.mp hrest
  obtain ⟨t, ht, hetc⟩ := (Option.any_eq_true _ _).mp hmount
  obtain ⟨hwalk, hlook⟩ := Bool.and_eq_true_iff.mp hetc
  obtain ⟨⟨r, c⟩, hr, hend⟩ := (Option.any_eq_true _ _).mp hlook
  simp only [Bool.and_eq_true, decide_eq_true_eq] at hwalk hend
  have hmountStep : MountStep s mountMnt t := ⟨ht, of_decide_eq_true hfresh⟩
  have hlookStep : MountStep t lookupEtc { t with cache := c } :=
    ⟨Option.map_eq_some_iff.mpr ⟨_, hr, rfl⟩, trivial⟩
  have hbooted := booted_of_call (fun _ => rfl) rfl hs
  have hcross := hclaim s _ _ hbooted (.cons hmountStep (.single hlookStep)) (t, lookupEtc)
    (List.mem_cons_of_mem _ List.mem_cons_self)
  have hnode := (hcross 2 c (hend.1 ▸ hr)).1
  rw [hend.2] at hnode
  exact absurd (hnode.trans hwalk) (by decide)

end Mounts

end Ferrite.Fs
