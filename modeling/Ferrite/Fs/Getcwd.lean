import Ferrite.Fs.EntryCalls

/-!
# The path of the working directory

`sys_getcwd` builds the path from its end: it looks up `..`, searches the parent
for the entry with the inode number of the child, and goes on from the parent.
But `..` is looked up in the working directory each time, so the parent is found
once only.
-/
namespace Ferrite.Fs
open InodeCache Namespaces

/-- What the lookups of `sys_getcwd` learn, that of `..` in each round and those of the mounts. -/
structure CwdEnv where
  cwd : ReadEnv
  parent : ℕ → LookupEnv
  mount : ℕ → ℕ → LookupEnv

/-- The search of a directory for the first entry with an inode number, by
`ext2_find_entry_by_ino`. Without memory the copy of the entry lies at address 0. -/
abbrev NameOf := Node → ℕ → Option Path

namespace Mounts
variable (s : Mounts)

/-- `find_mount_by_inode`: the root in the entry of the first mount point that is linked to
the node in a slot. -/
def findMount (caller : Caller) (env : ℕ → LookupEnv) (mountedRoot : ℕ) :
    List MountEntry → InodeCache → Option (Option ℕ × InodeCache)
  | [], c => some (none, c)
  | e :: table, c =>
      match { s with cache := c }.vfsLookup caller e.name (env table.length) with
      | none => none
      | some (none, c) => findMount caller env mountedRoot table c
      | some (some i, c) =>
          match (c.slots i).mount with
          | none => do
              let c ← c.inodePut i
              findMount caller env mountedRoot table c
          | some r =>
              if (c.slots r).sb = (c.slots mountedRoot).sb ∧
                  (c.slots r).ino = (c.slots mountedRoot).ino then
                (c.inodePut i).map fun c => (some e.root, c)
              else do
                let c ← c.inodePut i
                findMount caller env mountedRoot table c

def dotDot : Path := ['.', '.']

/-- The loop up to the root, from the round `k` on; `tail` is what has been written to the end of
`tmp`. It gives no result when the fuel is used up. -/
def cwdLoop (nameOf : NameOf) (caller : Caller) (env : CwdEnv) :
    ℕ → ℕ → ℕ → Path → InodeCache → Option (Except ℤ Path × InodeCache)
  | 0, _, _, _, _ => none
  | fuel + 1, k, current, tail, c =>
      if current = caller.root then (c.inodePut current).map fun c => (.ok tail, c)
      else
        match { s with cache := c }.vfsLookup caller dotDot (env.parent k) with
        | none => none
        | some (none, c) => (c.inodePut current).map fun c => (.error (-eio), c)
        | some (some parent, c) =>
            if (c.slots parent).sb = (c.slots current).sb ∧
                (c.slots parent).ino = (c.slots current).ino then do
              let c ← c.inodePut parent
              let r ← s.findMount caller (env.mount k) current s.table c
              let c ← r.2.inodePut current
              match r.1 with
              | none => return (.error (-eio), c)
              | some root => cwdLoop nameOf caller env fuel (k + 1) root tail c
            else do
              let d ← c.node parent
              match nameOf d (c.slots current).ino with
              | none =>
                  let c ← c.inodePut current
                  let c ← c.inodePut parent
                  return (.error (-1), c)
              | some name =>
                  if 255 - tail.length < name.length + 1 then
                    let c ← c.inodePut current
                    let c ← c.inodePut parent
                    return (.error (-enametoolong), c)
                  else
                    let c ← c.inodePut current
                    cwdLoop nameOf caller env fuel (k + 1) parent ('/' :: name ++ tail) c

/-- The string that `sys_getcwd` writes to `buf`, without the zero at its end; it returns the
length with the zero. `pwd` may be `NULL`, as `buf` may. -/
def sysGetcwd (nameOf : NameOf) (fuel : ℕ) (caller : Caller) (pwd : Option ℕ) (buf : Bool) (size : ℕ)
    (env : CwdEnv) : Option (Except ℤ Path × InodeCache) :=
  if !buf || size = 0 then some (.error (-einval), s.cache)
  else
    let c := if pwd = none then retain s.cache caller.root else s.cache
    let pwd := pwd.getD caller.root
    if pwd = caller.root then
      if size < 2 then some (.error (-erange), c) else some (.ok ['/'], c)
    else
      match (c.slots pwd).sb with
      | none => none
      | some b =>
          match c.inodeGet b (c.slots pwd).ino env.cwd with
          | (none, c) => some (.error (-eio), c)
          | (some current, c) =>
              (s.cwdLoop nameOf { caller with pwd := pwd } env fuel 0 current [] c).map fun r =>
                (r.1.bind fun path => if size < path.length + 1 then .error (-erange) else .ok path, r.2)

/-- The directories of one file system below the root of a process, by the names on the way. -/
inductive Descends (s : Mounts) (nameOf : NameOf) (root : Node) : List Path → Node → Prop
  | root : s.mounted root = none → Descends s nameOf root [] root
  | child {names : List Path} {d e : Node} {name : Path} : Descends s nameOf root names d →
      entryOf s.entries d name = some e → nameOf d e.2 = some name → entryOf s.entries e dotDot = some d →
      name ≠ [] → '/' ∉ name → e ≠ root → e ≠ d → s.mounted e = none → (∀ x, s.mounted x ≠ some e) →
      Descends s nameOf root (names ++ [name]) e

/-- The absolute path over some names. -/
def pathOver (names : List Path) : Path :=
  if names = [] then ['/'] else (names.map fun name => '/' :: name).flatten

/-- `sys_getcwd` writes an absolute path that leads to the working directory, of the length of
the one over the names, or says that the buffer is too small; no count changes. -/
structure GetcwdWorks (s : Mounts) (nameOf : NameOf) (caller : Caller) (names : List Path) (w : Node)
    (size : ℕ) (env : CwdEnv) : Prop where
  ok : (pathOver names).length + 1 ≤ size → ∃ fuel p c,
    s.sysGetcwd nameOf fuel caller (some caller.pwd) true size env = some (.ok p, c) ∧
      p.length = (pathOver names).length ∧ absolute p = true ∧
      (∀ lenv : LookupEnv, lenv.split = true → ∃ i c', { s with cache := c }.vfsLookup caller p lenv =
        some (some i, c') ∧ c'.node i = some w) ∧
      ∀ j, (c.slots j).count = (s.cache.slots j).count
  small : size < (pathOver names).length + 1 → ∃ fuel c,
    s.sysGetcwd nameOf fuel caller (some caller.pwd) true size env = some (.error (-erange), c) ∧
      ∀ j, (c.slots j).count = (s.cache.slots j).count

end Mounts

namespace InodeCache
variable {c c' c₀ c₁ : InodeCache} {mounted : Node → Option Node} {held held' : List ℕ} {i j : ℕ}
  {d : Node}

/-- A call inside a call. -/
theorem Holds.append (h : Holds mounted c₀ c₁ held) (h' : Holds mounted c₁ c held') :
    Holds mounted c₀ c (held' ++ held) where
  start := h.start
  anchored := h'.anchored
  supers := h'.supers.trans h.supers
  mount k := (h'.mount k).trans (h.mount k)
  count k := by
    rw [h'.count, h.count, List.count_append]
    omega
  node k hk := (h'.node k (h.live hk)).trans (h.node k hk)

/-- The counts are far from wrapping. -/
def Low (c : InodeCache) : Prop := ∀ j < maxInodes, (c.slots j).count.toNat ≤ 65000

theorem Low.roomy (hlow : c₀.Low) (h : Holds mounted c₀ c held) (hheld : held.length ≤ 8) : c.Roomy := by
  intro j hj
  have hcount := h.count j
  have hle := held.count_le_length (a := j)
  have := hlow j hj
  omega

/-- A slot that holds a node keeps it while the call holds a reference to it. -/
theorem Holds.node_of_held (h : Holds mounted c₀ c₁ held) (hi : i ∈ held) (hd : c₁.node i = some d)
    (h' : Holds mounted c₁ c held') : c.node i = some d := by
  have hcount := h.count i
  have hpos : 0 < held.count i := List.count_pos_iff.mpr hi
  rw [h'.node i (by bv_omega), hd]

theorem inodePut_some (h : 2 ≤ (c.slots i).count.toNat) : ∃ c', c.inodePut i = some c' := by
  unfold inodePut
  simp only
  rw [if_neg (by bv_omega), if_neg (by bv_omega)]
  exact ⟨_, rfl⟩

end InodeCache

namespace Mounts
variable {s : Mounts} {caller : Caller} {nameOf : NameOf} {env : CwdEnv} {c c' c₀ : InodeCache}
  {current i : ℕ} {d e root : Node} {tail : Path} {held : List ℕ}

/-- No mount point is linked to a node that is not a mounted root. -/
theorem findMount_none {table : List MountEntry} {menv : ℕ → LookupEnv} (hlow : c₀.Low)
    (h : Holds s.mounted c₀ c [current]) (hd : c.node current = some d) (hplain : ∀ x, s.mounted x ≠ some d)
    {r : Option ℕ} (hr : s.findMount caller menv current table c = some (r, c')) :
    r = none ∧ Holds s.mounted c₀ c' [current] := by
  induction table generalizing c with
  | nil =>
      cases hr
      exact ⟨rfl, h⟩
  | cons e table ih =>
      rw [findMount] at hr
      split at hr
      · cases hr
      · rename_i c₁ hlook
        rcases vfsLookup_spec (s := { s with cache := c }) h.anchored (hlow.roomy h (by simp)) hlook with
          ⟨-, hh⟩ | ⟨j, x, hj, -⟩
        · exact ih (h.append hh) (h.node_of_held List.mem_cons_self hd hh) hr
        · cases hj
      · rename_i i c₁ hlook
        rcases vfsLookup_spec (s := { s with cache := c }) h.anchored (hlow.roomy h (by simp)) hlook with
          ⟨hi, -⟩ | ⟨j, x, hj, hh, hx, -⟩
        · cases hi
        cases hj
        have hheld := h.append hh
        have hcur := h.node_of_held List.mem_cons_self hd hh
        have hback {c₂ : InodeCache} (hput : c₁.inodePut i = some c₂) :
            Holds s.mounted c₀ c₂ [current] ∧ c₂.node current = some d := by
          obtain ⟨hh₂, hkept⟩ := hheld.put hput
          exact ⟨hh₂, (hkept current List.mem_cons_self).trans hcur⟩
        split at hr
        · obtain ⟨c₂, hput, hr⟩ := Option.bind_eq_some_iff.mp hr
          exact ih (hback hput).1 (hback hput).2 hr
        · rename_i q hlink
          split at hr
          · -- What a slot is linked to is a mounted root.
            rename_i hsame
            have hmount := hheld.anchored.mount i x hx
            rw [hlink] at hmount
            obtain ⟨m, hm, hroot⟩ := Option.bind_eq_some_iff.mp hmount.symm
            obtain ⟨q', hq', hnode⟩ := hheld.anchored.rooted x m hm
            obtain rfl : q' = q := Option.some.inj (hq'.symm.trans hroot)
            have hmd : m = d := by
              have hm₂ := node_eq_some.mp hnode
              have hd₂ := node_eq_some.mp hcur
              rw [hm₂.1, hm₂.2, hd₂.1, hd₂.2] at hsame
              exact Prod.ext (Option.some.inj hsame.1) hsame.2
            exact absurd (hmd ▸ hm) (hplain x)
          · obtain ⟨c₂, hput, hr⟩ := Option.bind_eq_some_iff.mp hr
            exact ih (hback hput).1 (hback hput).2 hr

variable {w : Node} {lenv : LookupEnv} {fuel k : ℕ} {r : Except ℤ Path}

/-- `..` leads from the working directory to its parent, whatever the loop has come to. -/
theorem lookup_parent {p : Option ℕ} (hlow : c₀.Low) (h : Holds s.mounted c₀ c held)
    (hheld : held.length ≤ 1) (hpwd : c₀.node caller.pwd = some w)
    (hup : entryOf s.entries w dotDot = some d) (hd : s.mounted d = none)
    (hr : { s with cache := c }.vfsLookup caller dotDot lenv = some (p, c')) :
    (p = none ∧ Holds s.mounted c₀ c' held) ∨
      ∃ i, p = some i ∧ Holds s.mounted c₀ c' (i :: held) ∧ c'.node i = some d ∧
        ∀ j x, j ∈ held → c.node j = some x → c'.node j = some x := by
  rcases vfsLookup_spec (s := { s with cache := c }) h.anchored (hlow.roomy h (by omega)) hr with
    ⟨hp, hh⟩ | ⟨i, e, hp, hh, he, hres⟩
  · exact .inl ⟨hp, h.append hh⟩
  · refine .inr ⟨i, hp, h.append hh, ?_, fun j x hj hx => h.node_of_held hj hx hh⟩
    have hlive := h.start.count_ne_zero hpwd
    have hbase : base caller dotDot = caller.pwd := rfl
    have hcomp : components dotDot = [dotDot] := by decide
    rw [resolve, hbase, hcomp, h.node _ hlive, hpwd, Option.bind_some, walk, hup, Option.bind_some,
      walk, cross, hd, Option.getD_none] at hres
    exact he.trans hres.symm

/-- Once the loop has come to the parent of the working directory, it finds the same again. -/
theorem cwdLoop_stuck (hlow : c₀.Low) (h : Holds s.mounted c₀ c [current])
    (hcur : c.node current = some d) (hpwd : c₀.node caller.pwd = some w)
    (hup : entryOf s.entries w dotDot = some d) (hd : s.mounted d = none)
    (hplain : ∀ x, s.mounted x ≠ some d) (hroot : c₀.node caller.root = some root) (hne : d ≠ root)
    (hr : s.cwdLoop nameOf caller env fuel k current tail c = some (r, c')) : r = .error (-eio) := by
  cases fuel with
  | zero => cases hr
  | succ fuel =>
      have hslot : current ≠ caller.root := by
        intro heq
        have hsame := h.node _ (h.start.count_ne_zero hroot)
        rw [← heq, hcur, heq, hroot] at hsame
        exact hne (Option.some.inj hsame)
      rw [cwdLoop, if_neg hslot] at hr
      split at hr
      · cases hr
      · obtain ⟨c₂, -, hc₂⟩ := Option.map_eq_some_iff.mp hr
        exact (Prod.mk.inj hc₂).1.symm
      · rename_i p c₁ hlook
        rcases lookup_parent hlow h (by simp) hpwd hup hd hlook with
          ⟨hp, -⟩ | ⟨i, hp, hh, hi, hkept₁⟩
        · cases hp
        cases hp
        have hcur₁ := hkept₁ current d List.mem_cons_self hcur
        have ⟨hpsb, hpino⟩ := node_eq_some.mp hi
        have ⟨hcsb, hcino⟩ := node_eq_some.mp hcur₁
        rw [if_pos ⟨hpsb.trans hcsb.symm, hpino.trans hcino.symm⟩] at hr
        obtain ⟨c₂, hput, hr⟩ := Option.bind_eq_some_iff.mp hr
        obtain ⟨⟨m, c₃⟩, hmount, hr⟩ := Option.bind_eq_some_iff.mp hr
        obtain ⟨hh₂, hkept⟩ := hh.put hput
        obtain ⟨hm, -⟩ := findMount_none hlow hh₂ ((hkept current List.mem_cons_self).trans hcur₁) hplain hmount
        obtain ⟨c₄, -, hr⟩ := Option.bind_eq_some_iff.mp hr
        rw [hm] at hr
        cases hr
        rfl

/-- The loop from a working directory whose parent is not the root. -/
theorem cwdLoop_deep (hlow : c₀.Low) (h : Holds s.mounted c₀ c [current]) (hcur : c.node current = some w)
    (hpwd : c₀.node caller.pwd = some w) (hroot : c₀.node caller.root = some root) (hwroot : w ≠ root)
    (hup : entryOf s.entries w dotDot = some d) (hwd : w ≠ d) (hdroot : d ≠ root)
    (hd : s.mounted d = none) (hplain : ∀ x, s.mounted x ≠ some d)
    (hr : s.cwdLoop nameOf caller env fuel k current tail c = some (r, c')) :
    r = .error (-eio) ∨ r = .error (-1) ∨ r = .error (-enametoolong) := by
  cases fuel with
  | zero => cases hr
  | succ fuel =>
      have hslot : current ≠ caller.root := by
        intro heq
        have hsame := h.node _ (h.start.count_ne_zero hroot)
        rw [← heq, hcur, heq, hroot] at hsame
        exact hwroot (Option.some.inj hsame)
      rw [cwdLoop, if_neg hslot] at hr
      split at hr
      · cases hr
      · obtain ⟨c₂, -, hc₂⟩ := Option.map_eq_some_iff.mp hr
        exact .inl (Prod.mk.inj hc₂).1.symm
      · rename_i p c₁ hlook
        rcases lookup_parent hlow h (by simp) hpwd hup hd hlook with
          ⟨hp, -⟩ | ⟨i, hp, hh, hi, hkept₁⟩
        · cases hp
        cases hp
        have hcur₁ := hkept₁ current w List.mem_cons_self hcur
        have ⟨hpsb, hpino⟩ := node_eq_some.mp hi
        have ⟨hcsb, hcino⟩ := node_eq_some.mp hcur₁
        have hdiff : ¬ ((c₁.slots p).sb = (c₁.slots current).sb ∧
            (c₁.slots p).ino = (c₁.slots current).ino) := by
          intro ⟨hsb, hino⟩
          rw [hpsb, hcsb] at hsb
          rw [hpino, hcino] at hino
          exact hwd (Prod.ext (Option.some.inj hsb).symm hino.symm)
        rw [if_neg hdiff, hi] at hr
        simp only [Option.bind_eq_bind, Option.bind_some] at hr
        split at hr
        · obtain ⟨c₂, -, hr⟩ := Option.bind_eq_some_iff.mp hr
          obtain ⟨c₃, -, hr⟩ := Option.bind_eq_some_iff.mp hr
          cases hr
          exact .inr (.inl rfl)
        · split at hr
          · obtain ⟨c₂, -, hr⟩ := Option.bind_eq_some_iff.mp hr
            obtain ⟨c₃, -, hr⟩ := Option.bind_eq_some_iff.mp hr
            cases hr
            exact .inr (.inr rfl)
          · obtain ⟨c₂, hput, hr⟩ := Option.bind_eq_some_iff.mp hr
            obtain ⟨hh₂, hkept⟩ := hh.swap.put hput
            have hp₂ := (hkept p List.mem_cons_self).trans hi
            exact .inl (cwdLoop_stuck hlow hh₂ hp₂ hpwd hup hd hplain hroot hdroot hr)

/-- Two or more directories below the root the path is not found. -/
theorem getcwd_deep (hanch : Anchored s.mounted s.cache) (hlow : s.cache.Low)
    (hpwd : s.cache.node caller.pwd = some w) (hroot : s.cache.node caller.root = some root)
    (hwroot : w ≠ root) (hup : entryOf s.entries w dotDot = some d) (hwd : w ≠ d) (hdroot : d ≠ root)
    (hd : s.mounted d = none) (hplain : ∀ x, s.mounted x ≠ some d) {size : ℕ}
    (hr : s.sysGetcwd nameOf fuel caller (some caller.pwd) true size env = some (r, c')) :
    r = .error (-einval) ∨ r = .error (-eio) ∨ r = .error (-1) ∨ r = .error (-enametoolong) := by
  have hslot : caller.pwd ≠ caller.root := by
    intro heq
    rw [heq, hroot] at hpwd
    exact hwroot (Option.some.inj hpwd).symm
  have ⟨hsb, hino⟩ := node_eq_some.mp hpwd
  unfold sysGetcwd at hr
  simp only [Bool.not_true, Bool.false_or, reduceCtorEq, if_false, Option.getD_some, if_neg hslot, hsb,
    hino] at hr
  split_ifs at hr with hsize
  · cases hr
    exact .inl rfl
  · have hlt := hanch.lt _ (hanch.count_ne_zero hpwd)
    obtain ⟨cur, c₁, hget, hg⟩ := inodeGet_cached hlt hpwd env.cwd
    simp only [hget] at hr
    obtain ⟨⟨r', c₂⟩, hloop, hr⟩ := Option.map_eq_some_iff.mp hr
    have hheld := (Holds.refl hanch).get (hlow.roomy (.refl hanch) (by simp)) (by simp) hg
    obtain ⟨hr, -⟩ := Prod.mk.inj hr
    have herr := cwdLoop_deep hlow hheld hg.node hpwd hroot hwroot hup hwd hdroot hd hplain hloop
    rcases herr with rfl | rfl | rfl
    · exact .inr (.inl hr.symm)
    · exact .inr (.inr (.inl hr.symm))
    · exact .inr (.inr (.inr hr.symm))

end Mounts

/-! ## Directories that stay as they are -/

namespace InodeCache
open Packed
variable {c c' c₂ : InodeCache} {i j b ino : ℕ} {d : Node} {renv : ReadEnv} {r : Option ℕ}

/-- A directory in the cache, as it is on the device. -/
structure Steady (c : InodeCache) (i : ℕ) (d : Node) : Prop where
  node : c.node i = some d
  op : (c.slots i).op = some .ext2Dir
  dir : isDir (c.slots i).mode = true
  stored : ∀ stack, get 2 (c.readRecord (c.supers d.1) d.2 stack) 0 = (c.slots i).mode ∧
    get 2 (c.readRecord (c.supers d.1) d.2 stack) 2 = (c.slots i).uid ∧
    get 2 (c.readRecord (c.supers d.1) d.2 stack) 24 = (c.slots i).gid

/-- A slot looks the same. -/
structure Alike (c c' : InodeCache) (i : ℕ) : Prop where
  node : c'.node i = c.node i
  op : (c'.slots i).op = (c.slots i).op
  mode : (c'.slots i).mode = (c.slots i).mode
  uid : (c'.slots i).uid = (c.slots i).uid
  gid : (c'.slots i).gid = (c.slots i).gid
  supers : c'.supers = c.supers
  devices : c'.devices = c.devices

theorem Alike.trans (h : Alike c c' i) (h' : Alike c' c₂ i) : Alike c c₂ i :=
  ⟨h'.node.trans h.node, h'.op.trans h.op, h'.mode.trans h.mode, h'.uid.trans h.uid,
    h'.gid.trans h.gid, h'.supers.trans h.supers, h'.devices.trans h.devices⟩

theorem Alike.permission (h : Alike c c' i) (caller : Caller) (mask : ℕ) :
    vfsPermission (c'.slots i) caller mask = vfsPermission (c.slots i) caller mask := by
  unfold vfsPermission
  rw [h.mode, h.uid, h.gid]

theorem Steady.alike (h : Steady c i d) (ha : Alike c c' i) : Steady c' i d where
  node := ha.node.trans h.node
  op := ha.op.trans h.op
  dir := ha.mode ▸ h.dir
  stored stack := by
    rw [ha.mode, ha.uid, ha.gid, ha.supers]
    unfold readRecord
    rw [ha.devices]
    exact h.stored stack

theorem alike_of_slot (h : c'.slots i = c.slots i) (hsupers : c'.supers = c.supers)
    (hdevices : c'.devices = c.devices) : Alike c c' i :=
  ⟨node_congr h, by rw [h], by rw [h], by rw [h], by rw [h], hsupers, hdevices⟩

theorem readInode_devices : (c.readInode i renv).devices = c.devices := by
  unfold readInode
  split <;> rfl

theorem inodeGet_devices (h : c.inodeGet b ino renv = (r, c')) : c'.devices = c.devices := by
  unfold inodeGet inodeGetEmpty at h
  simp only at h
  split at h
  · split at h
    · cases h
      exact readInode_devices
    · cases h
      rfl
  · split at h
    · cases h
      rfl
    · split at h
      · cases h
        exact readInode_devices
      · cases h
        rfl

/-- Reading a steady directory again changes nothing. -/
theorem Steady.readInode {n : VfsInode} (h : Steady c i d) (hn : n.sb = some d.1) (hino : n.ino = d.2)
    (hop : n.op = (c.slots i).op) (hmode : n.mode = (c.slots i).mode) (huid : n.uid = (c.slots i).uid)
    (hgid : n.gid = (c.slots i).gid) : Alike c ((c.setSlot i n).readInode i renv) i := by
  have hset : Alike c (c.setSlot i n) i := by
    refine ⟨?_, ?_, ?_, ?_, ?_, rfl, rfl⟩
    · rw [h.node]
      exact node_eq_some.mpr (by rw [setSlot_self]; exact ⟨hn, hino⟩)
    · rwa [setSlot_self]
    · rwa [setSlot_self]
    · rwa [setSlot_self]
    · rwa [setSlot_self]
  obtain ⟨hmode', huid', hgid'⟩ := h.stored renv.stack
  have hops : opsFor (c.slots i).mode = some .ext2Dir := by
    unfold opsFor
    rw [if_pos h.dir]
  have hload : Alike c ((c.setSlot i n).setSlot i
      (n.load (c.supers d.1).dev (c.readRecord (c.supers d.1) d.2 renv.stack))) i := by
    refine ⟨?_, ?_, ?_, ?_, ?_, rfl, rfl⟩
    · rw [h.node]
      exact node_eq_some.mpr (by rw [setSlot_self]; exact ⟨hn, hino⟩)
    · rw [setSlot_self, h.op]
      simp only [VfsInode.load, hmode', hops, Option.some_or]
    · rw [setSlot_self]
      exact hmode'
    · rw [setSlot_self]
      exact huid'
    · rw [setSlot_self]
      exact hgid'
  unfold InodeCache.readInode
  rw [setSlot_self, hn, hino]
  cases n.u with
  | null =>
      cases renv.mem with
      | false => exact hset
      | true => exact hload
  | ext2 node => exact hload
  | socket k => exact hload

theorem Steady.get (h : Steady c i d) (hlive : (c.slots i).count ≠ 0)
    (hr : c.inodeGet b ino renv = (r, c')) : Alike c c' i := by
  have hdevices := inodeGet_devices hr
  rcases inodeGet_spec hr with ⟨-, rfl⟩ | ⟨k, hk, hg⟩
  · exact alike_of_slot rfl rfl rfl
  · by_cases hki : i = k
    · have ⟨hsb, hino⟩ := node_eq_some.mp h.node
      unfold inodeGet inodeGetEmpty at hr
      cases hfind : c.find b ino with
      | some k' =>
          obtain ⟨hb, hi⟩ := find_spec hfind
          simp only [hfind] at hr
          have hkk : k' = i := by
            split at hr <;> exact (Option.some.inj ((Prod.mk.inj hr).1.trans hk)).trans hki.symm
          rw [hkk] at hr
          split at hr
          · cases hr
            exact h.readInode hsb hino rfl rfl rfl rfl
          · cases hr
            have hset : (c.setSlot i { c.slots i with count := (c.slots i).count + 1 }).slots i =
                { c.slots i with count := (c.slots i).count + 1 } := setSlot_self ..
            refine ⟨?_, ?_, ?_, ?_, ?_, rfl, rfl⟩
            · unfold InodeCache.node
              rw [hset]
            · rw [hset]
            · rw [hset]
            · rw [hset]
            · rw [hset]
      | none =>
          -- A free slot is taken, and this one is in use.
          rcases hg.slot with ⟨hnode, -⟩ | ⟨hzero, -⟩
          · have hmem := List.find?_eq_none.mp hfind k (List.mem_range.mpr hg.lt)
            exact absurd (node_eq_some.mp hnode) (by simpa using hmem)
          · exact absurd (hki ▸ hzero) hlive
    · exact alike_of_slot (hg.other i hki) hg.supers hdevices

theorem inodePut_devices (h : c.inodePut j = some c') : c'.devices = c.devices := by
  unfold inodePut at h
  simp only at h
  split_ifs at h
  · cases h
    rfl
  · split at h
    · cases h
      rfl
    · split_ifs at h
      cases h
      rfl
  · cases h
    rfl

/-- A put that leaves a node in its slot leaves the slot as it is. -/
theorem alike_put (h : c.inodePut j = some c') (hnode : c'.node i = c.node i) : Alike c c' i := by
  have hdevices := inodePut_devices h
  have hsupers := (inodePut_spec h).1
  have hslot : (c'.slots i).op = (c.slots i).op ∧ (c'.slots i).mode = (c.slots i).mode ∧
      (c'.slots i).uid = (c.slots i).uid ∧ (c'.slots i).gid = (c.slots i).gid := by
    unfold inodePut at h
    simp only at h
    split_ifs at h
    · cases h
      exact ⟨rfl, rfl, rfl, rfl⟩
    · split at h
      · cases h
        by_cases hij : i = j <;> simp [setSlot, hij]
      · split_ifs at h
        cases h
        by_cases hij : i = j <;> simp [setSlot, hij]
    · cases h
      by_cases hij : i = j <;> simp [setSlot, hij]
  exact ⟨hnode, hslot.1, hslot.2.1, hslot.2.2.1, hslot.2.2.2, hsupers, hdevices⟩

end InodeCache

namespace Mounts
variable {s : Mounts} {caller : Caller} {nameOf : NameOf} {env : CwdEnv} {c c' c₀ : InodeCache}
  {current i j : ℕ} {d e root w x y : Node} {path name tail : Path} {lenv : LookupEnv}

/-- Every steady directory of a cache looks the same in another. -/
def AllAlike (c c' : InodeCache) : Prop := ∀ i d, c.Steady i d → c.Alike c' i

/-- A lookup of one name, in a steady directory that the caller may search, of something that
is in the cache and has nothing mounted on it. -/
theorem lookup_one (h : Anchored s.mounted c) (hroom : c.Roomy) (hb : Steady c (base caller path) x)
    (hpath : path ≠ []) (hcomp : components path = [name])
    (hperm : vfsPermission (c.slots (base caller path)) caller 1 = true) (hsplit : lenv.split = true)
    (hentry : entryOf s.entries x name = some y) (hy : c.node j = some y) (hmount : s.mounted y = none) :
    ∃ c', { s with cache := c }.vfsLookup caller path lenv = some (some j, c') ∧
      Holds s.mounted c c' [j] ∧ AllAlike c c' := by
  have hlt {k : ℕ} {z : Node} (hk : c.node k = some z) : k < maxInodes :=
    h.lt k (h.count_ne_zero hk)
  have ⟨hsb, hino⟩ := node_eq_some.mp hb.node
  obtain ⟨ino, hino', hyi⟩ := Option.map_eq_some_iff.mp hentry
  -- The directory is read again, into its own slot.
  obtain ⟨k, c₁, hget, hg⟩ := inodeGet_cached (hlt hb.node) hb.node (lenv.read 0)
  have hh₁ := (Holds.refl h).get hroom (by simp) hg
  have halike₁ : AllAlike c c₁ := fun i d hi => hi.get (h.count_ne_zero hi.node) hget
  have hk : k = base caller path := by
    apply hh₁.anchored.unique _ _ x hg.node
    rw [(halike₁ _ _ hb).node, hb.node]
  rw [hk] at hh₁ hget hg
  have hb₁ := hb.alike (halike₁ _ _ hb)
  -- The entry is in the cache, too.
  have hy₁ : c₁.node j = some y := (hh₁.node j (h.count_ne_zero hy)).trans hy
  obtain ⟨q, c₂, hget₂, hg₂⟩ := inodeGet_cached (hlt hy) hy₁ (lenv.read 1)
  have hh₂ := hh₁.get hroom (by simp) hg₂
  have halike₂ : AllAlike c c₂ := by
    intro i d hi
    have hlive := hh₁.live (h.count_ne_zero hi.node)
    exact (halike₁ i d hi).trans ((hi.alike (halike₁ i d hi)).get hlive hget₂)
  have hq : q = j := by
    apply hh₂.anchored.unique _ _ y hg₂.node
    rw [hh₂.node j (h.count_ne_zero hy), hy]
  rw [hq] at hh₂ hget₂ hg₂
  have htwo : 2 ≤ (c₂.slots (base caller path)).count.toNat := by
    have hcount := hh₂.count (base caller path)
    have hpos : 0 < [j, base caller path].count (base caller path) :=
      List.count_pos_iff.mpr (List.mem_cons_of_mem _ List.mem_cons_self)
    have := h.count_ne_zero hb.node
    bv_omega
  obtain ⟨c₃, hput⟩ := inodePut_some htwo
  obtain ⟨hh₃, hkept⟩ := hh₂.swap.put hput
  have hj₃ : c₃.node j = some y := (hkept j List.mem_cons_self).trans hg₂.node
  have hlink : (c₃.slots j).mount = none := by
    rw [hh₃.anchored.mount j y hj₃, hmount, Option.bind_none]
  refine ⟨c₃, ?_, hh₃, fun i d hi => ?_⟩
  · have hy2 : y = (x.1, ino) := hyi.symm
    have hlookup : c₁.lookupOp s.entries (base caller path) name (lenv.read 1) = some (some j, c₂) := by
      have ⟨hsb₁, hino₁⟩ := node_eq_some.mp hb₁.node
      unfold lookupOp
      rw [hy2] at hget₂
      simp only [hb₁.op, hb₁.dir, hsb₁, hino₁, ne_eq, not_true_eq_false, if_false, Bool.not_true,
        Bool.false_eq_true, hino', hget₂]
    have hcross : c₃.crossMount j (lenv.read 0) = some (j, c₃) := by
      unfold crossMount
      rw [hlink]
    have hloop : c₁.lookupLoop s.entries caller lenv.read [name] (base caller path) =
        some (some j, c₃) := by
      rw [lookupLoop]
      simp only [List.length_nil, Nat.mul_zero, Nat.zero_add, hlookup, Option.bind_eq_bind, hput,
        Option.bind_some, hcross, List.isEmpty_nil, Bool.not_true, Bool.and_false, Bool.false_and,
        Bool.false_eq_true, if_false, lookupLoop]
    rw [vfsLookup_eq hpath, hcomp]
    unfold lookupFrom
    simp [hsb, hino, hperm, hsplit, hget, hloop]
  · refine (halike₂ i d hi).trans (alike_put hput ?_)
    rw [hh₃.node i (h.count_ne_zero hi.node), hh₂.node i (h.count_ne_zero hi.node)]

/-- The whole call for a directory of the root, from its start to the loop. -/
theorem getcwd_start (h : Anchored s.mounted s.cache) (hlow : s.cache.Low)
    (hw : Steady s.cache caller.pwd w) (hroot : s.cache.node caller.root = some root) (hne : w ≠ root)
    {size : ℕ} (hsize : size ≠ 0) : ∃ c₁, Holds s.mounted s.cache c₁ [caller.pwd] ∧
      AllAlike s.cache c₁ ∧ ∀ fuel, s.sysGetcwd nameOf fuel caller (some caller.pwd) true size env =
        (s.cwdLoop nameOf caller env fuel 0 caller.pwd [] c₁).map fun r =>
          (r.1.bind fun path => if size < path.length + 1 then .error (-erange) else .ok path, r.2) := by
  have hslot : caller.pwd ≠ caller.root := by
    intro heq
    have hnode := hw.node
    rw [heq, hroot] at hnode
    exact hne (Option.some.inj hnode).symm
  have ⟨hsb, hino⟩ := node_eq_some.mp hw.node
  have hlt := h.lt _ (h.count_ne_zero hw.node)
  obtain ⟨k, c₁, hget, hg⟩ := inodeGet_cached hlt hw.node env.cwd
  have hheld := (Holds.refl h).get (hlow.roomy (.refl h) (by simp)) (by simp) hg
  have halike : AllAlike s.cache c₁ := fun i d hi => hi.get (h.count_ne_zero hi.node) hget
  have hk : k = caller.pwd := by
    apply hheld.anchored.unique _ _ w hg.node
    rw [(halike _ _ hw).node, hw.node]
  rw [hk] at hget hheld
  refine ⟨c₁, hheld, halike, fun fuel => ?_⟩
  unfold sysGetcwd
  simp only [Bool.not_true, Bool.false_or, hsize, decide_false, Bool.false_eq_true, reduceCtorEq,
    if_false, Option.getD_some, if_neg hslot, hsb, hino, hget]

/-- The path of a directory of the root is found. -/
theorem getcwd_one (h : Anchored s.mounted s.cache) (hlow : s.cache.Low)
    (hw : Steady s.cache caller.pwd w) (hroot : s.cache.node caller.root = some root) (hne : w ≠ root)
    (hup : entryOf s.entries w dotDot = some root) (hmount : s.mounted root = none)
    (hname : nameOf root w.2 = some name) (hfits : name.length + 2 ≤ 256)
    (hperm : vfsPermission (s.cache.slots caller.pwd) caller 1 = true)
    (hsplit : (env.parent 0).split = true) {size : ℕ} (hsize : size ≠ 0) :
    ∃ c', s.sysGetcwd nameOf 2 caller (some caller.pwd) true size env =
        some (if size < name.length + 2 then .error (-erange) else .ok ('/' :: name), c') ∧
      Holds s.mounted s.cache c' [] ∧ AllAlike s.cache c' := by
  have hslot : caller.pwd ≠ caller.root := by
    intro heq
    have hnode := hw.node
    rw [heq, hroot] at hnode
    exact hne (Option.some.inj hnode).symm
  obtain ⟨c₁, hh₁, halike₁, hcall⟩ := @getcwd_start s caller nameOf env root w h hlow hw hroot hne size hsize
  have hw₁ := hw.alike (halike₁ _ _ hw)
  have hroot₁ : c₁.node caller.root = some root := (hh₁.node _ (h.count_ne_zero hroot)).trans hroot
  have hperm₁ : vfsPermission (c₁.slots caller.pwd) caller 1 = true := by
    rw [(halike₁ _ _ hw).permission, hperm]
  obtain ⟨c₂, hlook, hh₂, halike₂⟩ := @lookup_one s caller c₁ caller.root w root dotDot dotDot
    (env.parent 0) hh₁.anchored (hlow.roomy hh₁ (by simp)) hw₁ (by decide) (by decide) hperm₁ hsplit hup
    hroot₁ hmount
  have hheld := hh₁.append hh₂
  have hw₂ : c₂.node caller.pwd = some w := hh₁.node_of_held List.mem_cons_self hw₁.node hh₂
  have hroot₂ : c₂.node caller.root = some root :=
    (hheld.node _ (h.count_ne_zero hroot)).trans hroot
  have htwo {c : InodeCache} {held : List ℕ} {i : ℕ} {d : Node} (hh : Holds s.mounted s.cache c held)
      (hi : i ∈ held) (hd : s.cache.node i = some d) : 2 ≤ (c.slots i).count.toNat := by
    have hcount := hh.count i
    have hpos : 0 < held.count i := List.count_pos_iff.mpr hi
    have := h.count_ne_zero hd
    bv_omega
  obtain ⟨c₃, hput⟩ := inodePut_some (htwo hheld (List.mem_cons_of_mem _ List.mem_cons_self) hw.node)
  obtain ⟨hh₃, -⟩ := hheld.swap.put hput
  obtain ⟨c₄, hput₂⟩ := inodePut_some (htwo hh₃ List.mem_cons_self hroot)
  obtain ⟨hh₄, -⟩ := hh₃.put hput₂
  have hdiff : ¬ ((c₂.slots caller.root).sb = (c₂.slots caller.pwd).sb ∧
      (c₂.slots caller.root).ino = (c₂.slots caller.pwd).ino) := by
    intro ⟨hsb, hino⟩
    have hr := node_eq_some.mp hroot₂
    have hp := node_eq_some.mp hw₂
    rw [hr.1, hp.1] at hsb
    rw [hr.2, hp.2] at hino
    exact hne (Prod.ext (Option.some.inj hsb).symm hino.symm)
  refine ⟨c₄, ?_, hh₄, fun i d hi => ?_⟩
  · have hino : (c₂.slots caller.pwd).ino = w.2 := (node_eq_some.mp hw₂).2
    have hloop : s.cwdLoop nameOf caller env 2 0 caller.pwd [] c₁ = some (.ok ('/' :: name), c₄) := by
      rw [cwdLoop, if_neg hslot]
      simp only [hlook, if_neg hdiff]
      simp only [hroot₂, Option.bind_eq_bind, Option.bind_some, hino, hname,
        List.length_nil, if_neg (show ¬ 255 - 0 < name.length + 1 by omega), hput, cwdLoop, if_true,
        hput₂, Option.map_some, List.append_nil]
    rw [hcall, hloop]
    rfl
  · have hlive := h.count_ne_zero hi.node
    refine (((halike₁ i d hi).trans (halike₂ i d (hi.alike (halike₁ i d hi)))).trans
      (alike_put hput ?_)).trans (alike_put hput₂ ?_)
    · rw [hh₃.node i hlive, hheld.node i hlive]
    · rw [hh₄.node i hlive, hh₃.node i hlive]

/-- Without the permission to search the working directory, or without memory, nothing is found. -/
theorem getcwd_denied (h : Anchored s.mounted s.cache) (hlow : s.cache.Low)
    (hw : Steady s.cache caller.pwd w) (hroot : s.cache.node caller.root = some root) (hne : w ≠ root)
    (hdenied : vfsPermission (s.cache.slots caller.pwd) caller 1 = false ∨ (env.parent 0).split = false)
    {size fuel : ℕ} {r : Except ℤ Path} (hsize : size ≠ 0)
    (hr : s.sysGetcwd nameOf fuel caller (some caller.pwd) true size env = some (r, c')) :
    r = .error (-eio) := by
  have hslot : caller.pwd ≠ caller.root := by
    intro heq
    have hnode := hw.node
    rw [heq, hroot] at hnode
    exact hne (Option.some.inj hnode).symm
  obtain ⟨c₁, hh₁, halike₁, hcall⟩ := @getcwd_start s caller nameOf env root w h hlow hw hroot hne size hsize
  rw [hcall] at hr
  obtain ⟨⟨r', c₂⟩, hloop, hr⟩ := Option.map_eq_some_iff.mp hr
  obtain ⟨hr, -⟩ := Prod.mk.inj hr
  have herr : r' = .error (-eio) := by
    cases fuel with
    | zero => cases hloop
    | succ fuel =>
        have hlook : { s with cache := c₁ }.vfsLookup caller dotDot (env.parent 0) = some (none, c₁) := by
          have hw₁ := hw.alike (halike₁ _ _ hw)
          have ⟨hsb, hino⟩ := node_eq_some.mp hw₁.node
          have hcomp : components dotDot = [dotDot] := by decide
          have hbase : base caller dotDot = caller.pwd := rfl
          rw [vfsLookup_eq (by decide)]
          unfold lookupFrom
          rw [hbase, hcomp]
          simp only [hsb, (halike₁ _ _ hw).permission]
          rcases hdenied with hd | hd <;> simp [hd]
        rw [cwdLoop, if_neg hslot, hlook] at hloop
        obtain ⟨c₃, -, hc₃⟩ := Option.map_eq_some_iff.mp hloop
        exact (Prod.mk.inj hc₃).1.symm
  rw [herr] at hr
  exact hr.symm

theorem count_eq {mounted : Node → Option Node} (h : Holds mounted c₀ c []) (j : ℕ) :
    (c.slots j).count = (c₀.slots j).count := by
  have := h.count j
  rw [List.count_nil, Nat.add_zero] at this
  exact BitVec.eq_of_toNat_eq this

/-- In the root itself the path is that of the root. -/
theorem getcwd_root (h : Anchored s.mounted s.cache) (hpwd : caller.pwd = caller.root)
    (hroot : s.cache.node caller.root = some root) {size : ℕ} (hsize : size ≠ 0) :
    s.GetcwdWorks nameOf caller [] root size env := by
  have hcall (fuel : ℕ) : s.sysGetcwd nameOf fuel caller (some caller.pwd) true size env =
      if size < 2 then some (.error (-erange), s.cache) else some (.ok ['/'], s.cache) := by
    unfold sysGetcwd
    simp [hsize, hpwd]
  refine ⟨fun hle => ⟨0, ['/'], s.cache, ?_, rfl, rfl, fun lenv _ => ?_, fun j => rfl⟩,
    fun hlt => ⟨0, s.cache, ?_, fun j => rfl⟩⟩
  · rw [hcall, if_neg]
    simp [pathOver] at hle
    omega
  · have ⟨hsb, hino⟩ := node_eq_some.mp hroot
    have hlt := h.lt _ (h.count_ne_zero hroot)
    obtain ⟨i, c', hget, hg⟩ := inodeGet_cached hlt hroot (lenv.read 0)
    have hcomp : components ['/'] = [] := by decide
    have hbase : base caller ['/'] = caller.root := rfl
    refine ⟨i, c', ?_, hg.node⟩
    rw [vfsLookup_eq (by decide)]
    unfold lookupFrom
    simp [hbase, hcomp, hsb, hino, hget]
  · rw [hcall, if_pos]
    simp [pathOver] at hlt
    omega

/-- `sys_getcwd` works exactly if there is any room in the buffer and the working directory is the
root, or a directory of the root that the caller may search, with memory for the lookup of `..`. -/
theorem getcwd_works_iff {names : List Path} {size : ℕ} (h : Anchored s.mounted s.cache)
    (hlow : s.cache.Low) (hroot : Steady s.cache caller.root root) (hw : Steady s.cache caller.pwd w)
    (hdesc : Descends s nameOf root names w) (hfits : (pathOver names).length + 1 ≤ 256)
    (hsearch : vfsPermission (s.cache.slots caller.root) caller 1 = true) :
    s.GetcwdWorks nameOf caller names w size env ↔ size ≠ 0 ∧ (names.length = 0 ∨ names.length = 1 ∧
      vfsPermission (s.cache.slots caller.pwd) caller 1 = true ∧ (env.parent 0).split = true) := by
  -- An empty buffer is refused with another error.
  have hempty (hworks : s.GetcwdWorks nameOf caller names w size env) : size ≠ 0 := by
    intro hsize
    obtain ⟨fuel, c, hcall, -⟩ := hworks.small (by omega)
    unfold sysGetcwd at hcall
    simp only [hsize, decide_true, Bool.or_true, if_true] at hcall
    have herr := congrArg Prod.fst (Option.some.inj hcall)
    exact absurd (Except.error.inj herr) (by decide)
  cases hdesc with
  | root hmount =>
      have hpwd : caller.pwd = caller.root := h.unique _ _ root hw.node hroot.node
      constructor
      · intro hworks
        exact ⟨hempty hworks, .inl rfl⟩
      · rintro ⟨hsize, -⟩
        exact getcwd_root h hpwd hroot.node hsize
  | @child names d _ name hd hentry hname hup hnil hslash hwroot hwd hmount hplain =>
      cases hd with
      | root hrmount =>
          have hpath : pathOver ([] ++ [name]) = '/' :: name := by simp [pathOver]
          rw [hpath] at hfits
          have hlen : name.length + 2 ≤ 256 := hfits
          constructor
          · intro hworks
            have hsize := hempty hworks
            refine ⟨hsize, .inr ⟨rfl, ?_⟩⟩
            by_contra hdenied
            have hdenied' : vfsPermission (s.cache.slots caller.pwd) caller 1 = false ∨
                (env.parent 0).split = false := by
              rw [not_and_or] at hdenied
              simpa using hdenied
            have hcall {fuel : ℕ} {r : Except ℤ Path} {c : InodeCache}
                (hr : s.sysGetcwd nameOf fuel caller (some caller.pwd) true size env = some (r, c)) :=
              getcwd_denied h hlow hw hroot.node hwroot hdenied' hsize hr
            by_cases hle : (pathOver ([] ++ [name])).length + 1 ≤ size
            · obtain ⟨fuel, p, c, hr, -⟩ := hworks.ok hle
              cases hcall hr
            · obtain ⟨fuel, c, hr, -⟩ := hworks.small (by omega)
              exact absurd (Except.error.inj (hcall hr)) (by decide)
          · intro ⟨hsize, hone⟩
            obtain ⟨hperm, hsplit⟩ : vfsPermission (s.cache.slots caller.pwd) caller 1 = true ∧
                (env.parent 0).split = true := by
              rcases hone with hzero | ⟨-, hrest⟩
              · cases hzero
              · exact hrest
            obtain ⟨c', hr, hheld, halike⟩ := @getcwd_one s caller nameOf env root w name h hlow hw
              hroot.node hwroot hup hrmount hname hlen hperm hsplit size hsize
            refine ⟨fun hle => ?_, fun hlt => ?_⟩
            · rw [hpath, List.length_cons] at hle
              rw [if_neg (by omega)] at hr
              refine ⟨2, _, c', hr, by rw [hpath], rfl, fun lenv hsplit' => ?_, count_eq hheld⟩
              -- The name leads from the root back to the working directory.
              have hroot' := hroot.alike (halike _ _ hroot)
              have hw' : c'.node caller.pwd = some w :=
                (hheld.node _ (h.count_ne_zero hw.node)).trans hw.node
              have hcomp : components ('/' :: name) = [name] := by
                rw [components_eq, Words.words_cons_self, Words.words_of_not_mem hslash hnil]
              have hperm' : vfsPermission (c'.slots caller.root) caller 1 = true := by
                rw [(halike _ _ hroot).permission, hsearch]
              obtain ⟨c₂, hlook, hh₂, -⟩ := @lookup_one s caller c' caller.pwd root w ('/' :: name) name
                lenv hheld.anchored (hlow.roomy hheld (by simp)) hroot' (by simp) hcomp hperm' hsplit'
                hentry hw' hmount
              exact ⟨_, c₂, hlook, (hh₂.node _ (hheld.live (h.count_ne_zero hw.node))).trans hw'⟩
            · rw [hpath, List.length_cons] at hlt
              rw [if_pos (by omega)] at hr
              exact ⟨2, c', hr, count_eq hheld⟩
      | @child names' d' _ name' hd' hentry' hname' hup' hnil' hslash' hdroot hdd' hdmount hdplain =>
          refine iff_of_false (fun hworks => ?_) ?_
          · have hcall {fuel : ℕ} {r : Except ℤ Path} {c : InodeCache}
                (hr : s.sysGetcwd nameOf fuel caller (some caller.pwd) true size env = some (r, c)) :=
              getcwd_deep h hlow hw.node hroot.node hwroot hup hwd hdroot hdmount hdplain hr
            by_cases hle : (pathOver (names' ++ [name'] ++ [name])).length + 1 ≤ size
            · obtain ⟨fuel, p, c, hr, -⟩ := hworks.ok hle
              rcases hcall hr with hr | hr | hr | hr <;> cases hr
            · obtain ⟨fuel, c, hr, -⟩ := hworks.small (by omega)
              rcases hcall hr with hr | hr | hr | hr <;>
                exact absurd (Except.error.inj hr) (by decide)
          · rintro ⟨-, hzero | ⟨hone, -⟩⟩
            · simp at hzero
            · simp at hone

/-! ## A directory in a directory -/

/-- The directory `a` with the directory `b` in it. -/
def chainTree : Mounts :=
  { unmounted with
    entries := fun _ ino name =>
      if ino = 2 ∧ name = ['a'] then some 12
      else if ino = 12 ∧ name = ['b'] then some 13
      else if ino = 12 ∧ name = dotDot then some 2
      else if ino = 13 ∧ name = dotDot then some 12
      else none }

def chainNames : NameOf := fun d ino =>
  if d.2 = 2 ∧ ino = 12 then some ['a'] else if d.2 = 12 ∧ ino = 13 then some ['b'] else none

/-- The working directory is in the slot 1. -/
def inSlotOne : Caller := { rootUser with pwd := 1 }

def cwdMemory : CwdEnv :=
  { cwd := someMemory, parent := fun _ => (mountedAt 10).lookup
    mount := fun _ _ => (mountedAt 10).lookup }

instance (c : InodeCache) : Decidable c.Low := by
  unfold InodeCache.Low
  infer_instance

/-- What the check of a run says of the directory `d` in the slot `i`. -/
def steadyCheck (c : InodeCache) (i : ℕ) (d : Node) : Bool :=
  decide (c.node i = some d) && decide ((c.slots i).op = some .ext2Dir) && isDir (c.slots i).mode &&
    decide (c.Readable d.1 d.2) &&
    decide (
      Packed.get 2 (c.devices (c.supers d.1).dev).bytes ((c.supers d.1).recordOffset d.2 + 0) =
        (c.slots i).mode ∧
      Packed.get 2 (c.devices (c.supers d.1).dev).bytes ((c.supers d.1).recordOffset d.2 + 2) =
        (c.slots i).uid ∧
      Packed.get 2 (c.devices (c.supers d.1).dev).bytes ((c.supers d.1).recordOffset d.2 + 24) =
        (c.slots i).gid)

theorem steady_of_check {c : InodeCache} {i : ℕ} {d : Node} (h : steadyCheck c i d = true) :
    Steady c i d := by
  simp only [steadyCheck, Bool.and_eq_true, decide_eq_true_eq] at h
  obtain ⟨⟨⟨⟨hnode, hop⟩, hdir⟩, hread⟩, hmode, huid, hgid⟩ := h
  refine ⟨hnode, hop, hdir, fun stack => ⟨?_, ?_, ?_⟩⟩
  · rw [← hmode, hread.get_readRecord (by omega)]
  · rw [← huid, hread.get_readRecord (by omega)]
  · rw [← hgid, hread.get_readRecord (by omega)]

/-- The mount of the root file system changes the slots and the table only. -/
theorem mounted_of_call {s₀ s : Mounts} (h : s₀.call bootMount = some s) :
    s.mounted = s₀.mounted ∧ s.entries = s₀.entries := by
  simp only [call, bootMount] at h
  obtain ⟨⟨z, u⟩, hr, hu⟩ := Option.bind_eq_some_iff.mp h
  split_ifs at hu with hz
  cases hu
  unfold vfsMount mountOn at hr
  simp only [List.length_singleton, if_true] at hr
  rw [if_neg (by decide)] at hr
  cases hsuper : (mountedAt 10).super with
  | error e =>
      rw [hsuper] at hr
      obtain ⟨c, -, hc⟩ := Option.map_eq_some_iff.mp hr
      cases hc
      exact ⟨rfl, rfl⟩
  | ok super =>
      rw [hsuper] at hr
      simp only at hr
      cases hread : readSuper s₀.cache (mountedAt 10).sb super (mountedAt 10).read with
      | none =>
          rw [hread] at hr
          cases hr
      | some x =>
          rw [hread] at hr
          dsimp only at hr
          split at hr
          · cases hr
          · cases hr
            exact ⟨rfl, rfl⟩

/-- After boot a directory is read into the slot 1. -/
theorem chain_of_check {ino : ℕ} (hrun : ((chainTree.call bootMount).any fun s =>
      s.cache.Roomy && (s.call (.get 10 ino someMemory)).any fun t => t.cache.Low &&
        steadyCheck t.cache 0 (10, 2) && steadyCheck t.cache 1 (10, ino) &&
        (vfsPermission (t.cache.slots 0) inSlotOne 1 && vfsPermission (t.cache.slots 1) inSlotOne 1)) = true) :
    ∃ t : Mounts, Anchored t.mounted t.cache ∧ t.cache.Low ∧ Steady t.cache 0 (10, 2) ∧
      Steady t.cache 1 (10, ino) ∧ (vfsPermission (t.cache.slots 0) inSlotOne 1 = true ∧
      vfsPermission (t.cache.slots 1) inSlotOne 1 = true) ∧ t.entries = chainTree.entries ∧
      t.mounted = fun _ => none := by
  obtain ⟨s, hs, hrest⟩ := (Option.any_eq_true _ _).mp hrun
  obtain ⟨hroom, hrest⟩ := Bool.and_eq_true_iff.mp hrest
  obtain ⟨t, ht, hrest⟩ := (Option.any_eq_true _ _).mp hrest
  obtain ⟨hrest, hperm⟩ := Bool.and_eq_true_iff.mp hrest
  obtain ⟨hrest, hone⟩ := Bool.and_eq_true_iff.mp hrest
  obtain ⟨hlow, hzero⟩ := Bool.and_eq_true_iff.mp hrest
  obtain ⟨hmounted, hentries⟩ := mounted_of_call hs
  have hbooted := booted_of_call (fun _ => rfl) rfl hs
  have hstep : MountStep s (.get 10 ino someMemory) t := ⟨ht, trivial⟩
  have htree := (hbooted.tree.step ⟨of_decide_eq_true hroom, trivial⟩ hstep).1
  refine ⟨t, htree.1, of_decide_eq_true hlow, steady_of_check hzero, steady_of_check hone,
    Bool.and_eq_true_iff.mp hperm, ?_, ?_⟩
  all_goals cases ht
  · exact hentries
  · exact hmounted

/-- The directory `a` of the root. -/
theorem descends_a {t : Mounts} (hentries : t.entries = chainTree.entries)
    (hmounted : t.mounted = fun _ => none) : Descends t chainNames (10, 2) ([] ++ [['a']]) (10, 12) := by
  refine .child (.root (by rw [hmounted])) ?_ rfl ?_ (by decide) (by decide) (by decide) (by decide)
    (by rw [hmounted]) fun x => ?_
  · rw [hentries]
    rfl
  · rw [hentries]
    rfl
  · rw [hmounted]
    exact fun h => nomatch h

theorem getcwd_works_iff_a : ∃ t : Mounts, Descends t chainNames (10, 2) ([] ++ [['a']]) (10, 12) ∧
    t.GetcwdWorks chainNames inSlotOne ([] ++ [['a']]) (10, 12) 256 cwdMemory := by
  obtain ⟨t, hanch, hlow, hzero, hone, ⟨hsearch, hperm⟩, hentries, hmounted⟩ :=
    @chain_of_check 12 (by decide +kernel)
  have hdesc := descends_a hentries hmounted
  refine ⟨t, hdesc, ?_⟩
  exact (getcwd_works_iff hanch hlow hzero hone hdesc (by decide) hsearch).mpr
    ⟨by decide, .inr ⟨rfl, hperm, rfl⟩⟩

/-- The working directory is `/a/b`. -/
theorem not_getcwd_works_nested : ¬ ∀ (t : Mounts) (nameOf : NameOf) (caller : Caller) (root w : Node)
    (names : List Path) (size : ℕ) (env : CwdEnv), Anchored t.mounted t.cache → t.cache.Low →
      Steady t.cache caller.root root → Steady t.cache caller.pwd w → Descends t nameOf root names w →
      (pathOver names).length + 1 ≤ 256 → vfsPermission (t.cache.slots caller.root) caller 1 = true →
      vfsPermission (t.cache.slots caller.pwd) caller 1 = true → (∀ n, (env.parent n).split = true) →
      t.GetcwdWorks nameOf caller names w size env := by
  intro hclaim
  obtain ⟨t, hanch, hlow, hzero, hone, ⟨hsearch, hperm⟩, hentries, hmounted⟩ :=
    @chain_of_check 13 (by decide +kernel)
  have hup : entryOf t.entries (10, 13) dotDot = some (10, 12) := by
    rw [hentries]
    rfl
  have hdesc : Descends t chainNames (10, 2) ([] ++ [['a']] ++ [['b']]) (10, 13) := by
    refine .child (descends_a hentries hmounted) ?_ rfl hup (by decide) (by decide) (by decide)
      (by decide) (by rw [hmounted]) fun x => ?_
    · rw [hentries]
      rfl
    · rw [hmounted]
      exact fun h => nomatch h
  have hworks := hclaim t chainNames inSlotOne _ _ _ 256 cwdMemory hanch hlow hzero hone hdesc
    (by decide) hsearch hperm fun _ => rfl
  obtain ⟨fuel, p, c, hr, -⟩ := hworks.ok (by decide)
  have hfails := getcwd_deep hanch hlow hone.node hzero.node (by decide) hup (by decide) (by decide)
    (by rw [hmounted]) (fun x => by rw [hmounted]; exact fun h => nomatch h) hr
  rcases hfails with h | h | h | h <;> cases h

end Mounts
end Ferrite.Fs
