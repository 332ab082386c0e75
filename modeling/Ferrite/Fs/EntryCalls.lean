import Ferrite.Fs.Create
import Ferrite.Fs.Descriptors
import Ferrite.Fs.PathCalls
import Ferrite.Fs.PathSafety

/-!
# Calls that create and remove a name

`sys_open` with `O_CREAT`, `sys_unlink` and `sys_mknod` part a path each in its
own way. Each should act on the entry of the last component, in the directory to
which `vfs_lookup` follows the components in front of it.
-/
namespace Ferrite.Fs
open Namespaces Words

/-- What `ext2_create` returns: an error, or the slot of the new inode. -/
abbrev CreateOp := ℕ → ℕ → Path → Mounts → Option (Except ℤ ℕ × Mounts)

namespace Mounts
variable (s : Mounts)

/-- The directory and the name in `sys_open` and `sys_unlink`. -/
def slashTarget (caller : Caller) (path : Path) (env : LookupEnv) :
    Option (Option (ℕ × Path) × InodeCache) :=
  match strrchr path with
  | none => some (none, s.cache)
  | some k =>
      (s.vfsLookup caller (path.take (if k = 0 then 1 else k)) env).map fun r =>
        (r.1.map fun dir => (dir, path.drop (k + 1)), r.2)

/-- `sys_open` up to `fd_alloc`; `truncate` is the operation of the node, if it has one. -/
def openNode (create : CreateOp) (truncate : ℕ → Mounts → Option (ℤ × Mounts)) (caller : Caller)
    (path : Path) (flags : BitVec 32) (mode : ℕ) (env : PathEnv) : Option (Except ℤ ℕ × Mounts) :=
  match s.vfsLookup caller path env.existing with
  | none => none
  | some (none, c) =>
      let t := { s with cache := c }
      if flags &&& oCreat = 0 then some (.error (-enoent), t)
      else
        match t.slashTarget caller path env.parent with
        | none => none
        | some (none, c) => some (.error (-enoent), { t with cache := c })
        | some (some (dir, name), c) =>
            if !vfsPermission (c.slots dir) caller 3 then
              (c.inodePut dir).map fun c => (.error (-eperm), { t with cache := c })
            -- `create` of anything but a directory is `NULL`.
            else if (c.slots dir).op ≠ some .ext2Dir then none
            else do
              let r ← create (sIfreg ||| mode &&& 0o777) dir name { t with cache := c }
              let c ← r.2.cache.inodePut dir
              return (r.1, { r.2 with cache := c })
  | some (some node, c) =>
      let acc := flags &&& oAccmode
      let mask := (if acc = oRdonly ∨ acc = oRdwr then mayRead else 0) |||
        (if acc = oWronly ∨ acc = oRdwr then mayWrite else 0)
      if flags &&& oCreat ≠ 0 ∧ flags &&& oExcl ≠ 0 then
        (c.inodePut node).map fun c => (.error (-eexist), { s with cache := c })
      else if !vfsPermission (c.slots node) caller mask.toNat then
        (c.inodePut node).map fun c => (.error (-eperm), { s with cache := c })
      else if flags &&& oTrunc ≠ 0 ∧ flags &&& (oWronly ||| oRdwr) ≠ 0 then
        match (c.slots node).op with
        | none => none
        | some .chrdev | some .socket => some (.ok node, { s with cache := c })
        | some .ext2Dir | some .ext2File => do
            let r ← truncate node { s with cache := c }
            if r.1 < 0 then
              let c ← r.2.cache.inodePut node
              return (.error r.1, { r.2 with cache := c })
            else return (.ok node, r.2)
      else some (.ok node, { s with cache := c })

/-- The operation is that of the root, whatever the directory is. -/
def sysUnlink (unlink : DirOp) (caller : Caller) (path : Path) (env : LookupEnv) :
    Option (ℤ × Mounts) :=
  if (s.cache.slots caller.root).op ≠ some .ext2Dir then some (-eperm, s)
  else if strrchr path = none then some (-1, s)
  else
    match s.slashTarget caller path env with
    | none => none
    | some (none, c) => some (-enotdir, { s with cache := c })
    | some (some (dir, name), c) =>
        if !vfsPermission (c.slots dir) caller 3 then
          (c.inodePut dir).map fun c => (-eacces, { s with cache := c })
        else do
          let r ← unlink dir name { s with cache := c }
          let c ← r.2.cache.inodePut dir
          return (r.1, { r.2 with cache := c })

/-- The directory and the name on which `sys_unlink` acts. -/
def unlinkTarget (caller : Caller) (path : Path) (env : LookupEnv) :
    Option (Option (ℕ × Path) × InodeCache) :=
  if (s.cache.slots caller.root).op ≠ some .ext2Dir then some (none, s.cache)
  else s.slashTarget caller path env

/-- One more reference to a slot. -/
def retain (c : InodeCache) (i : ℕ) : InodeCache :=
  c.setSlot i { c.slots i with count := (c.slots i).count + 1 }

/-- `dir_namei` without a base. For the lookup the last slash is overwritten by the end of the
string, also if it is the first character. -/
def dirNamei (caller : Caller) (pathname : Path) (env : LookupEnv) :
    Option (Except ℤ (ℕ × Path) × InodeCache) :=
  let base := caller.root
  let c := retain s.cache base
  match strrchr pathname with
  | none => some (.ok (base, pathname), c)
  | some k =>
      if pathname.drop (k + 1) = [] then (c.inodePut base).map fun c => (.error (-eisdir), c)
      else do
        let r ← { s with cache := c }.vfsLookup caller (pathname.take k) env
        let c ← r.2.inodePut base
        match r.1 with
        | none => return (.error (-enoent), c)
        | some inode =>
            if !isDir (c.slots inode).mode then
              let c ← c.inodePut inode
              return (.error (-enotdir), c)
            else return (.ok (inode, pathname.drop (k + 1)), c)

/-- The operation gives the reference to the directory back. -/
def vfsMknod (mknod : ℕ → ℕ → DirOp) (caller : Caller) (path : Path) (mode dev : ℕ) (env : LookupEnv) :
    Option (ℤ × Mounts) :=
  match s.dirNamei caller path env with
  | none => none
  | some (.error e, c) => some (e, { s with cache := c })
  | some (.ok (dir, name), c) =>
      if name.length = 0 then (c.inodePut dir).map fun c => (-enoent, { s with cache := c })
      else if !vfsPermission (c.slots dir) caller 3 then
        (c.inodePut dir).map fun c => (-eacces, { s with cache := c })
      else if (c.slots dir).op ≠ some .ext2Dir then
        (c.inodePut dir).map fun c => (-eperm, { s with cache := c })
      else mknod mode dev dir name { s with cache := c }

def sysMknod (mknod : ℕ → ℕ → DirOp) (caller : Caller) (path : Path) (mode dev : ℕ) (env : LookupEnv) :
    Option (ℤ × Mounts) :=
  if isDir mode || (!isFifo mode && caller.euid ≠ 0) then some (-eperm, s)
  else if mode &&& sIfmt = 0 then s.vfsMknod mknod caller path (mode ||| sIfreg) dev env
  else if isReg mode || isChr mode || isBlk mode then s.vfsMknod mknod caller path mode dev env
  else some (-einval, s)

/-! ## The entry of a path -/

/-- The entry of the last component, in the directory to which the others lead. -/
def entryOfPath (caller : Caller) (path : Path) (env : LookupEnv) :
    Option (Option (ℕ × Path) × InodeCache) :=
  (s.lookupFrom caller (base caller path) (components path).dropLast env).map fun r =>
    (r.1.map fun dir => (dir, (components path).getLast?.getD []), r.2)

/-- The directory and the name a call acts on. -/
def targetIn (r : Option (Option (ℕ × Path) × InodeCache)) : Option (Option (Node × Path)) :=
  r.map fun r => r.1.bind fun t =>
    if isDir (r.2.slots t.1).mode then (r.2.node t.1).map fun d => (d, t.2) else none

/-- The entry is made, changed, or removed. -/
def setEntry (entries : ℕ → ℕ → List Char → Option ℕ) (d : Node) (name : Path) (ino : Option ℕ) :
    ℕ → ℕ → List Char → Option ℕ :=
  fun b i n => if b = d.1 ∧ i = d.2 ∧ n = name then ino else entries b i n

/-- A new entry has been made; nothing is mounted on the new inode, and the caller stays where it is. -/
structure Makes (s t : Mounts) (caller : Caller) (path : Path) (d : Node) (name : Path) (ino : ℕ) : Prop where
  new : s.entries d.1 d.2 name = none
  entries : t.entries = setEntry s.entries d name (some ino)
  mounted : t.mounted = s.mounted
  bare : s.mounted (d.1, ino) = none
  base : t.cache.node (base caller path) = s.cache.node (base caller path)

/-- An entry has been removed. -/
structure Removes (s t : Mounts) (caller : Caller) (path : Path) (d : Node) (name : Path) : Prop where
  entries : t.entries = setEntry s.entries d name none
  mounted : t.mounted = s.mounted
  base : t.cache.node (base caller path) = s.cache.node (base caller path)

/-- A call acts on the entry of the path, so that after it has made the entry the path leads to
the new inode, and after it has removed the entry nowhere. -/
structure ActsOnEntry (s : Mounts) (caller : Caller) (path : Path) (env : LookupEnv)
    (target : Option (Option (Node × Path))) : Prop where
  entry : target = targetIn (s.entryOfPath caller path env)
  made : ∀ d name, target = some (some (d, name)) → ∀ t ino, Makes s t caller path d name ino →
    t.resolve caller path = some (d.1, ino)
  removed : ∀ d name, target = some (some (d, name)) → ∀ t, Removes s t caller path d name →
    t.resolve caller path = none

/-- A directory of a file system in the cache, which is still one when it is read again. -/
structure HoldsDir (c : InodeCache) (i : ℕ) (env : ReadEnv) : Prop where
  lt : i < maxInodes
  node : c.node i ≠ none
  op : (c.slots i).op = some .ext2Dir
  dir : isDir (c.slots i).mode = true
  read : ∀ d j c', c.node i = some d → c.inodeGet d.1 d.2 env = (some j, c') →
    isDir (c'.slots j).mode = true

variable {s t : Mounts} {caller : Caller} {path name : Path} {env : LookupEnv} {d b : Node} {ino : ℕ}
  {entries : ℕ → ℕ → List Char → Option ℕ}

/-! ## What a path leads to afterwards -/

theorem setEntry_self (v : Option ℕ) : setEntry entries d name v d.1 d.2 name = v := by
  simp [setEntry]

theorem entryOf_setEntry {v : Option ℕ}
    (h : entryOf entries b path ≠ entryOf (setEntry entries d name v) b path) :
    b = d ∧ path = name := by
  by_contra hne
  apply h
  unfold entryOf setEntry
  rw [if_neg]
  intro ⟨h₁, h₂, h₃⟩
  exact hne ⟨Prod.ext h₁ h₂, h₃⟩

/-- A walk over the last entry, in the directory to which the entries in front of it lead. -/
theorem walk_concat {mounted : Node → Option Node} {names : List Path}
    (h : walk (entryOf entries) mounted b names = some d) :
    walk (entryOf entries) mounted b (names ++ [name]) =
      (entries d.1 d.2 name).map fun ino => cross mounted (d.1, ino) := by
  rw [walk_append, h, Option.bind_some, walk, entryOf]
  cases entries d.1 d.2 name <;> rfl

theorem walk_made {mounted : Node → Option Node} {names : List Path}
    (h : walk (entryOf entries) mounted b names = some d) (hnew : entries d.1 d.2 name = none)
    (hbare : mounted (d.1, ino) = none) :
    walk (entryOf (setEntry entries d name (some ino))) mounted b (names ++ [name]) = some (d.1, ino) := by
  have hkept : walk (entryOf (setEntry entries d name (some ino))) mounted b names = some d := by
    refine walk_mono (fun x n e hx => ?_) h
    by_contra hne
    obtain ⟨rfl, rfl⟩ := entryOf_setEntry (fun heq => hne (heq ▸ hx))
    rw [entryOf, hnew] at hx
    cases hx
  rw [walk_concat hkept, setEntry_self, Option.map_some, cross, hbare, Option.getD_none]

theorem walk_removed {mounted : Node → Option Node} {names : List Path}
    (h : walk (entryOf entries) mounted b names = some d) :
    walk (entryOf (setEntry entries d name none)) mounted b (names ++ [name]) = none := by
  cases hw : walk (entryOf (setEntry entries d name none)) mounted b names with
  | none => rw [walk_append, hw, Option.bind_none]
  | some e =>
      -- The walk does without the entry, so it leads to the same directory.
      have hback : walk (entryOf entries) mounted b names = some e := by
        refine walk_mono (fun x n y hx => ?_) hw
        by_contra hne
        obtain ⟨rfl, rfl⟩ := entryOf_setEntry (fun heq => hne (heq.trans hx))
        rw [entryOf, setEntry_self] at hx
        cases hx
      have hed : e = d := Option.some.inj (hback.symm.trans h)
      rw [hed] at hw
      rw [walk_concat hw, setEntry_self, Option.map_none]

open InodeCache

theorem targetIn_some {r : Option (Option (ℕ × Path) × InodeCache)} (h : targetIn r = some (some (d, name))) :
    ∃ i c, r = some (some (i, name), c) ∧ c.node i = some d := by
  obtain ⟨⟨x, c⟩, hr, hx⟩ := Option.map_eq_some_iff.mp h
  obtain ⟨⟨i, n⟩, hi, hn⟩ := Option.bind_eq_some_iff.mp hx
  split_ifs at hn
  obtain ⟨e, he, heq⟩ := Option.map_eq_some_iff.mp hn
  cases heq
  exact ⟨i, c, hr.trans (congrArg some (Prod.ext hi rfl)), he⟩

theorem components_concat (h : components path ≠ []) :
    (components path).dropLast ++ [(components path).getLast?.getD []] = components path := by
  rw [List.getLast?_eq_some_getLast h, Option.getD_some]
  exact List.dropLast_append_getLast h

/-- A call whose target is the entry of the path acts on it. -/
theorem ActsOnEntry.of_entry (hanch : Anchored s.mounted s.cache) (hroom : s.cache.Roomy)
    (hne : components path ≠ []) {target : Option (Option (Node × Path))}
    (h : target = targetIn (s.entryOfPath caller path env)) : s.ActsOnEntry caller path env target := by
  -- The directory of the target is where the components but the last lead.
  have hwalk (d : Node) (name : Path) (ht : target = some (some (d, name))) :
      ∃ b, s.cache.node (base caller path) = some b ∧
        walk (entryOf s.entries) s.mounted b (components path).dropLast = some d ∧
        components path = (components path).dropLast ++ [name] := by
    obtain ⟨i, c, hr, hnode⟩ := targetIn_some (h.symm.trans ht)
    obtain ⟨⟨x, c'⟩, hlook, hx⟩ := Option.map_eq_some_iff.mp hr
    obtain ⟨hxi, rfl⟩ := Prod.mk.inj hx
    obtain ⟨k, hk, hki⟩ := Option.map_eq_some_iff.mp hxi
    obtain ⟨rfl, rfl⟩ := Prod.mk.inj hki
    rcases lookupFrom_spec hanch hroom hlook with ⟨hnone, -⟩ | ⟨j, e, hj, -, hnode', hres⟩
    · simp only at hk
      rw [hnone] at hk
      cases hk
    · simp only at hk
      obtain rfl : j = k := Option.some.inj (hj.symm.trans hk)
      obtain ⟨b, hb, hw⟩ := Option.bind_eq_some_iff.mp hres
      obtain rfl : e = d := Option.some.inj (hnode'.symm.trans hnode)
      exact ⟨b, hb, hw, (components_concat hne).symm⟩
  refine ⟨h, fun d name ht t ino hmakes => ?_, fun d name ht t hremoves => ?_⟩
  · obtain ⟨b, hb, hw, hcomp⟩ := hwalk d name ht
    rw [resolve, hmakes.base, hb, Option.bind_some, hmakes.mounted, hmakes.entries, hcomp]
    exact walk_made hw hmakes.new hmakes.bare
  · obtain ⟨b, hb, hw, hcomp⟩ := hwalk d name ht
    rw [resolve, hremoves.base, hb, Option.bind_some, hremoves.mounted, hremoves.entries, hcomp]
    exact walk_removed hw

/-! ## Paths with a slash -/

theorem entryOfPath_slash {k : ℕ} (hlast : path.getLast? ≠ some '/') (hk : strrchr path = some k) :
    s.entryOfPath caller path env =
      (s.vfsLookup caller (path.take (if k = 0 then 1 else k)) env).map fun r =>
        (r.1.map fun dir => (dir, path.drop (k + 1)), r.2) := by
  obtain ⟨hcomp, habs, hnil⟩ := components_parent hlast hk
  have hname := words_of_lastIndex hk (drop_lastIndex_ne_nil hk hlast)
  unfold entryOfPath
  rw [vfsLookup_eq hnil, base_eq, base_eq, habs, hcomp, components_eq, hname]
  simp

/-- Without a slash the entry is one of the working directory. -/
theorem entryOfPath_bare (hne : path ≠ []) (hk : strrchr path = none)
    (hpwd : HoldsDir s.cache caller.pwd (env.read 0)) :
    targetIn (s.entryOfPath caller path env) =
      some ((s.cache.node caller.pwd).map fun d => (d, path)) := by
  have hnot := lastIndex_eq_none.mp hk
  obtain ⟨d, hd⟩ := Option.ne_none_iff_exists'.mp hpwd.node
  have ⟨hsb, hino⟩ := node_eq_some.mp hd
  obtain ⟨i, c', hget, hg⟩ := inodeGet_cached hpwd.lt hd (env.read 0)
  have hdir := hpwd.read d i c' hd hget
  unfold entryOfPath lookupFrom targetIn
  rw [components_eq, words_of_not_mem hnot hne, base_eq, absolute_of_not_mem hnot]
  simp [hsb, hino, hget, hdir, hg.node, hd]

theorem components_ne_nil (hne : path ≠ []) (hlast : path.getLast? ≠ some '/') :
    components path ≠ [] := by
  cases hk : strrchr path with
  | none =>
      rw [components_eq, words_of_not_mem (lastIndex_eq_none.mp hk) hne]
      exact List.cons_ne_nil _ _
  | some k =>
      rw [components_eq, words_of_lastIndex hk (drop_lastIndex_ne_nil hk hlast)]
      simp

theorem slashTarget_acts_iff (hanch : Anchored s.mounted s.cache) (hroom : s.cache.Roomy)
    (hne : path ≠ []) (hlast : path.getLast? ≠ some '/')
    (hpwd : HoldsDir s.cache caller.pwd (env.read 0)) :
    s.ActsOnEntry caller path env (targetIn (s.slashTarget caller path env)) ↔ '/' ∈ path := by
  have hcomp := components_ne_nil hne hlast
  cases hk : strrchr path with
  | none =>
      have hnot := lastIndex_eq_none.mp hk
      refine iff_of_false (fun hacts => ?_) hnot
      have hentry := hacts.entry
      rw [entryOfPath_bare hne hk hpwd, slashTarget, hk] at hentry
      obtain ⟨d, hd⟩ := Option.ne_none_iff_exists'.mp hpwd.node
      rw [hd] at hentry
      cases hentry
  | some k =>
      have hmem : '/' ∈ path := by
        by_contra hnot
        rw [strrchr, lastIndex_eq_none.mpr hnot] at hk
        cases hk
      refine iff_of_true (.of_entry hanch hroom hcomp ?_) hmem
      rw [entryOfPath_slash hlast hk, slashTarget, hk]

/-! ## A lookup with one more reference to the root -/

section Retain
variable {c c₀ c' : InodeCache} {i r sb : ℕ} {renv : ReadEnv}

/-- An inode with one more reference. -/
def oneMore (n : VfsInode) : VfsInode := { n with count := n.count + 1 }

theorem retain_slots (c : InodeCache) (r j : ℕ) :
    (retain c r).slots j = if j = r then oneMore (c.slots j) else c.slots j := by
  unfold retain setSlot oneMore
  by_cases hjr : j = r <;> simp [hjr]

theorem retain_setSlot_of_ne {n : VfsInode} (h : i ≠ r) :
    (retain c r).setSlot i n = retain (c.setSlot i n) r := by
  unfold retain setSlot
  simp only [InodeCache.mk.injEq, and_true]
  rw [Function.update_comm h, Function.update_of_ne (Ne.symm h)]

/-- A change to a slot that leaves the count to itself, or adds to it. -/
theorem retain_setSlot {f : VfsInode → VfsInode} (hf : ∀ n, f (oneMore n) = oneMore (f n)) :
    (retain c r).setSlot i (f ((retain c r).slots i)) = retain (c.setSlot i (f (c.slots i))) r := by
  by_cases hir : i = r
  · rw [retain_slots, if_pos hir, hf, hir]
    unfold retain setSlot oneMore
    simp
  · rw [retain_slots, if_neg hir]
    exact retain_setSlot_of_ne hir

theorem retain_readInode : (retain c r).readInode i renv = retain (c.readInode i renv) r := by
  have hslot : ((retain c r).slots i).sb = (c.slots i).sb ∧ ((retain c r).slots i).u = (c.slots i).u ∧
      ((retain c r).slots i).ino = (c.slots i).ino := by
    rw [retain_slots]
    split_ifs <;> exact ⟨rfl, rfl, rfl⟩
  unfold readInode
  rw [hslot.1, hslot.2.1, hslot.2.2]
  have hload (b : ℕ) := @retain_setSlot c i r
    (fun n => n.load (c.supers b).dev (c.readRecord (c.supers b) (c.slots i).ino renv.stack))
    fun n => rfl
  cases (c.slots i).sb with
  | none => rfl
  | some b =>
      cases (c.slots i).u with
      | null =>
          cases renv.mem with
          | false => rfl
          | true => exact hload b
      | ext2 node => exact hload b
      | socket k => exact hload b

theorem retain_find (sb ino : ℕ) : (retain c r).find sb ino = c.find sb ino := by
  unfold InodeCache.find
  congr 1
  funext j
  rw [retain_slots]
  split_ifs <;> rfl

/-- The slot is in use, and one more reference does not wrap its count. -/
def Spare (c : InodeCache) (r : ℕ) : Prop :=
  1 ≤ (c.slots r).count.toNat ∧ (c.slots r).count.toNat ≤ 65534

theorem retain_free (h : Spare c r) : (retain c r).free = c.free := by
  unfold free
  congr 1
  funext j
  rw [retain_slots]
  obtain ⟨hlow, hhigh⟩ := h
  split_ifs with hjr
  · rw [hjr]
    unfold oneMore
    simp only [decide_eq_decide]
    bv_omega
  · rfl

theorem retain_inodeGet (h : Spare c r) : (retain c r).inodeGet sb ino renv =
    ((c.inodeGet sb ino renv).1, retain (c.inodeGet sb ino renv).2 r) := by
  have hsock (j : ℕ) : isSock ((retain c r).slots j).mode = isSock (c.slots j).mode := by
    rw [retain_slots]
    split_ifs <;> rfl
  unfold inodeGet
  rw [retain_find]
  cases c.find sb ino with
  | some i =>
      have hset := @retain_setSlot c i r oneMore fun n => rfl
      simp only [hsock]
      unfold oneMore at hset
      rw [hset, retain_readInode]
      split <;> rfl
  | none =>
      simp only [inodeGetEmpty]
      rw [show ((List.range maxInodes).find? fun i => ((retain c r).slots i).count = 0) =
        (retain c r).free from rfl, retain_free h,
        show ((List.range maxInodes).find? fun i => (c.slots i).count = 0) = c.free from rfl]
      cases hfree : c.free with
      | none => rfl
      | some i =>
          have hir : i ≠ r := by
            intro hir
            have hzero := free_count hfree
            have hlow := h.1
            rw [hir] at hzero
            rw [hzero] at hlow
            exact absurd hlow (by decide)
          simp only [hsock]
          rw [retain_slots, if_neg hir, retain_setSlot_of_ne hir, retain_readInode]
          split <;> rfl

theorem retain_inodePut (h : Spare c r) (hi : i = r → 2 ≤ (c.slots r).count.toNat) :
    (retain c r).inodePut i = (c.inodePut i).map fun c => retain c r := by
  obtain ⟨hlow, hhigh⟩ := h
  by_cases hir : i = r
  · have hcount := hi hir
    have hset := @retain_setSlot c i r (fun n => { n with count := n.count - 1 }) (by
      intro n
      unfold oneMore
      simp only [VfsInode.mk.injEq, and_true, true_and]
      bv_omega)
    unfold inodePut
    simp only
    rw [hset, if_neg, if_neg, if_neg, if_neg, Option.map_some]
    all_goals
      rw [hir]
      try rw [retain_slots, if_pos rfl]
      try unfold oneMore
      try simp only
      bv_omega
  · unfold inodePut
    simp only
    rw [retain_slots, if_neg hir, retain_setSlot_of_ne hir, retain_setSlot_of_ne hir]
    split_ifs with h₀ h₁
    · rfl
    · cases (c.slots i).sb with
      | none => rfl
      | some b =>
          simp only
          rw [show (retain c r).supers = c.supers from rfl]
          split_ifs <;> rfl
    · rfl

variable {read : ℕ → ReadEnv} {names : List Path} {held : List ℕ}

/-- There is room for the references of the walk in the slot. -/
def SpareAll (c : InodeCache) (r : ℕ) : Prop :=
  1 ≤ (c.slots r).count.toNat ∧ (c.slots r).count.toNat ≤ 65532

theorem spare_of_carries (hspare : SpareAll c₀ r) (h : Carries c₀ c held) (hheld : held.length ≤ 2) :
    Spare c r := by
  obtain ⟨hlow, hhigh⟩ := hspare
  have hcount := h.count r
  have hle := held.count_le_length (a := r)
  exact ⟨by omega, by omega⟩

theorem two_le_of_carries (hspare : SpareAll c₀ r) (h : Carries c₀ c held) (hi : i ∈ held) (hir : i = r) :
    2 ≤ (c.slots r).count.toNat := by
  have hcount := h.count r
  have hpos : 0 < held.count r := List.count_pos_iff.mpr (hir ▸ hi)
  have hlow := hspare.1
  omega

/-- Putting a reference of the walk back. -/
theorem retain_put (hspare : SpareAll c₀ r) (h : Carries c₀ c held) (hheld : held.length ≤ 2)
    (hi : i ∈ held) : (retain c r).inodePut i = (c.inodePut i).map fun c => retain c r :=
  retain_inodePut (spare_of_carries hspare h hheld) (two_le_of_carries hspare h hi)

theorem retain_crossMount (hroom : c₀.Roomy) (hspare : SpareAll c₀ r) (h : Carries c₀ c [i]) :
    (retain c r).crossMount i renv =
      (c.crossMount i renv).map fun x => (x.1, retain x.2 r) := by
  have hfields (j : ℕ) : ((retain c r).slots j).mount = (c.slots j).mount ∧
      ((retain c r).slots j).sb = (c.slots j).sb ∧ ((retain c r).slots j).ino = (c.slots j).ino := by
    rw [retain_slots]
    split_ifs <;> exact ⟨rfl, rfl, rfl⟩
  unfold crossMount
  rw [(hfields i).1]
  cases (c.slots i).mount with
  | none => rfl
  | some q =>
      simp only [(hfields q).2.1, (hfields q).2.2]
      cases hsb : (c.slots q).sb with
      | none => rfl
      | some b =>
          simp only [retain_inodeGet (spare_of_carries hspare h (by simp))]
          cases hget : c.inodeGet b (c.slots q).ino renv with
          | mk m c₁ =>
              rcases inodeGet_spec hget with ⟨rfl, -⟩ | ⟨k, rfl, hg⟩
              · rfl
              · have hcarries := h.get hroom (by simp) hsb hg
                simp only [retain_put hspare hcarries (by simp) (List.mem_cons_of_mem _ List.mem_cons_self),
                  Option.map_map]
                rfl

theorem retain_lookupOp (h : Spare c r) : (retain c r).lookupOp entries i name renv =
    (c.lookupOp entries i name renv).map fun x => (x.1, retain x.2 r) := by
  have hfields : ((retain c r).slots i).op = (c.slots i).op ∧
      ((retain c r).slots i).mode = (c.slots i).mode ∧ ((retain c r).slots i).sb = (c.slots i).sb ∧
      ((retain c r).slots i).ino = (c.slots i).ino := by
    rw [retain_slots]
    split_ifs <;> exact ⟨rfl, rfl, rfl, rfl⟩
  unfold lookupOp
  rw [hfields.1, hfields.2.1, hfields.2.2.1, hfields.2.2.2]
  split_ifs
  · rfl
  · rfl
  · cases (c.slots i).sb with
    | none => rfl
    | some b =>
        simp only
        cases entries b (c.slots i).ino name with
        | none => rfl
        | some ino => simp only [retain_inodeGet h, Option.map_some]

/-- One more reference to a slot in use does not change where a walk ends. -/
theorem retain_lookupLoop (hroom : c₀.Roomy) (hspare : SpareAll c₀ r) (h : Carries c₀ c [i])
    (hd : c.node i = some d) : (retain c r).lookupLoop entries caller read names i =
      (c.lookupLoop entries caller read names i).map fun x => (x.1, retain x.2 r) := by
  induction names generalizing c i d with
  | nil => rfl
  | cons name names ih =>
      rw [lookupLoop, lookupLoop, retain_lookupOp (spare_of_carries hspare h (by simp))]
      cases hlookup : c.lookupOp entries i name (read (2 * names.length + 1)) with
      | none => rfl
      | some x =>
          obtain ⟨new, c₁⟩ := x
          rcases lookupOp_spec hd hlookup with ⟨rfl, rfl⟩ | ⟨j, e, rfl, hentry, hg⟩
          · simp only [Option.map_some, retain_put hspare h (by simp) List.mem_cons_self, Option.map_map]
            rfl
          · have hsb : (c.slots i).sb = some e.1 := by
              obtain ⟨ino, -, rfl⟩ := Option.map_eq_some_iff.mp hentry
              exact (node_eq_some.mp hd).1
            have hcarries₁ := h.get hroom (by simp) hsb hg
            obtain ⟨c₂, hput, hcarries, hkept⟩ := hcarries₁.swap.put
            have he : c₂.node j = some e := (hkept j List.mem_cons_self).trans hg.node
            obtain ⟨k, c₃, y, hcross, hcarries', hy⟩ :=
              hcarries.crossMount hroom he (read (2 * names.length))
            have hmode : ((retain c₃ r).slots k).mode = (c₃.slots k).mode := by
              rw [retain_slots]
              split_ifs <;> rfl
            have hperm : vfsPermission ((retain c₃ r).slots k) caller 1 =
                vfsPermission (c₃.slots k) caller 1 := by
              rw [retain_slots]
              split_ifs <;> rfl
            simp only [Option.map_some, Option.bind_eq_bind,
              retain_put hspare hcarries₁ (by simp) (List.mem_cons_of_mem _ List.mem_cons_self), hput,
              Option.bind_some, retain_crossMount hroom hspare hcarries, hcross, hmode, hperm]
            split
            · simp only [retain_put hspare hcarries' (by simp) List.mem_cons_self]
              cases c₃.inodePut k <;> rfl
            · exact ih hcarries' hy

theorem retain_lookupFrom {start : ℕ} (hgrounded : s.cache.Grounded) (hroom : s.cache.Roomy)
    (hspare : SpareAll s.cache r) :
    { s with cache := retain s.cache r }.lookupFrom caller start names env =
      (s.lookupFrom caller start names env).map fun x => (x.1, retain x.2 r) := by
  have hfields : ((retain s.cache r).slots start).sb = (s.cache.slots start).sb ∧
      ((retain s.cache r).slots start).ino = (s.cache.slots start).ino ∧
      vfsPermission ((retain s.cache r).slots start) caller 1 =
        vfsPermission (s.cache.slots start) caller 1 := by
    rw [retain_slots]
    split_ifs <;> exact ⟨rfl, rfl, rfl⟩
  have hspare' := spare_of_carries hspare (.refl hgrounded) (by simp)
  unfold lookupFrom
  simp only
  rw [hfields.1, hfields.2.1, hfields.2.2]
  cases hsb : (s.cache.slots start).sb with
  | none =>
      simp only
      split_ifs <;> rfl
  | some b =>
      simp only [retain_inodeGet hspare']
      split_ifs with hnil hperm hsplit
      · rfl
      · rfl
      · rfl
      · cases hget : s.cache.inodeGet b (s.cache.slots start).ino (env.read 0) with
        | mk new c₁ =>
            rcases inodeGet_spec hget with ⟨rfl, -⟩ | ⟨i, rfl, hg⟩
            · rfl
            · have hcarries := (Carries.refl hgrounded).get hroom (by simp) hsb hg
              exact retain_lookupLoop hroom hspare hcarries hg.node

end Retain

/-! ## `dir_namei` -/

theorem put_retain {c : InodeCache} {r : ℕ} (h : Spare c r) : (retain c r).inodePut r = some c := by
  obtain ⟨hlow, hhigh⟩ := h
  unfold inodePut
  simp only
  rw [retain_slots, if_pos rfl]
  unfold oneMore
  simp only
  rw [if_neg (by bv_omega), if_neg (by bv_omega)]
  unfold retain setSlot
  simp only [Function.update_idem, Option.some.injEq]
  rw [BitVec.add_sub_cancel]
  exact congrArg (fun slots => { c with slots := slots }) (Function.update_eq_self r c.slots)

/-- The directory and the name on which `sys_mknod` acts. -/
def mknodTarget (s : Mounts) (caller : Caller) (path : Path) (env : LookupEnv) :
    Option (Option (ℕ × Path) × InodeCache) :=
  (s.dirNamei caller path env).map fun r => (r.1.toOption, r.2)

/-- With a slash behind the first character `dir_namei` finds the entry of the path. -/
theorem mknodTarget_slash {k : ℕ} (hgrounded : s.cache.Grounded) (hroom : s.cache.Roomy)
    (hspare : SpareAll s.cache caller.root) (hlast : path.getLast? ≠ some '/')
    (hk : strrchr path = some (k + 1)) :
    targetIn (s.mknodTarget caller path env) = targetIn (s.entryOfPath caller path env) := by
  have hnil := drop_lastIndex_ne_nil hk hlast
  have htake : path.take (k + 1) ≠ [] := by
    have := (components_parent hlast hk).2.2
    rwa [if_neg (Nat.succ_ne_zero k)] at this
  rw [entryOfPath_slash hlast hk, if_neg (Nat.succ_ne_zero k)]
  unfold mknodTarget dirNamei
  simp only [hk, if_neg hnil]
  rw [vfsLookup_eq htake, vfsLookup_eq htake, retain_lookupFrom hgrounded hroom hspare]
  cases hlook : s.lookupFrom caller (base caller (path.take (k + 1))) (components (path.take (k + 1))) env with
  | none => rfl
  | some x =>
      obtain ⟨r, c⟩ := x
      have hcarries := vfsLookup_carries hgrounded hroom ((vfsLookup_eq htake).trans hlook)
      have hput := put_retain (spare_of_carries hspare hcarries (by cases r <;> simp))
      simp only [Option.map_some, Option.bind_eq_bind, Option.bind_some, hput]
      cases r with
      | none => rfl
      | some i =>
          simp only
          cases hdir : isDir (c.slots i).mode with
          | true => rfl
          | false =>
              obtain ⟨c', hput', -⟩ := hcarries.put
              simp [hput', targetIn, hdir, Except.toOption]

/-- Without a slash `dir_namei` takes the root. -/
theorem mknodTarget_bare (hk : strrchr path = none) (hroot : isDir (s.cache.slots caller.root).mode = true) :
    targetIn (s.mknodTarget caller path env) =
      some ((s.cache.node caller.root).map fun d => (d, path)) := by
  unfold mknodTarget dirNamei targetIn
  simp only [hk, Option.map_some, Except.toOption, Option.bind_some]
  have hslot : (retain s.cache caller.root).slots caller.root = oneMore (s.cache.slots caller.root) := by
    rw [retain_slots, if_pos rfl]
  have hnode : (retain s.cache caller.root).node caller.root = s.cache.node caller.root := by
    unfold node
    rw [hslot]
    rfl
  rw [hslot, hnode, if_pos (by exact hroot)]

/-- If the only slash is the first character, the path is empty when `dir_namei` looks it up. -/
theorem mknodTarget_root (hspare : Spare s.cache caller.root) (hlast : path.getLast? ≠ some '/')
    (hk : strrchr path = some 0) : targetIn (s.mknodTarget caller path env) = some none := by
  have hnil := drop_lastIndex_ne_nil hk hlast
  unfold mknodTarget dirNamei
  simp only [hk, if_neg hnil, List.take_zero]
  unfold vfsLookup
  simp [put_retain hspare, targetIn, Except.toOption]

/-- The entry of a path whose only slash is the first character is one of the root. -/
theorem entryOfPath_root (hlast : path.getLast? ≠ some '/') (hk : strrchr path = some 0)
    (hroot : HoldsDir s.cache caller.root (env.read 0)) :
    ∃ t, targetIn (s.entryOfPath caller path env) = some (some t) := by
  obtain ⟨d, hd⟩ := Option.ne_none_iff_exists'.mp hroot.node
  have ⟨hsb, hino⟩ := node_eq_some.mp hd
  obtain ⟨i, c', hget, hg⟩ := inodeGet_cached hroot.lt hd (env.read 0)
  have hdir := hroot.read d i c' hd hget
  obtain ⟨hcomp, habs, hnil⟩ := components_parent hlast hk
  have hslash : path.take 1 = ['/'] := by
    obtain ⟨heq, -⟩ := lastIndex_eq_some hk
    rw [heq]
    rfl
  rw [entryOfPath_slash hlast hk, if_pos rfl, hslash, vfsLookup_eq (by decide)]
  refine ⟨(d, path.drop 1), ?_⟩
  have hnames : components ['/'] = [] := by decide
  have hbase : base caller ['/'] = caller.root := rfl
  unfold lookupFrom targetIn
  simp [hnames, hbase, hsb, hino, hget, hdir, hg.node]

theorem mknod_acts_iff (hanch : Anchored s.mounted s.cache) (hgrounded : s.cache.Grounded)
    (hroom : s.cache.Roomy) (hspare : SpareAll s.cache caller.root) (hne : path ≠ [])
    (hlast : path.getLast? ≠ some '/') (hroot : HoldsDir s.cache caller.root (env.read 0))
    (hpwd : HoldsDir s.cache caller.pwd (env.read 0)) :
    s.ActsOnEntry caller path env (targetIn (s.mknodTarget caller path env)) ↔
      (∃ k, strrchr path = some (k + 1)) ∨
        '/' ∉ path ∧ s.cache.node caller.root = s.cache.node caller.pwd := by
  cases hk : strrchr path with
  | none =>
      have hnot := lastIndex_eq_none.mp hk
      have hcomp := components_ne_nil hne hlast
      obtain ⟨d, hd⟩ := Option.ne_none_iff_exists'.mp hpwd.node
      have hentry := entryOfPath_bare hne hk hpwd
      have htarget := @mknodTarget_bare s caller path env hk hroot.dir
      constructor
      · intro hacts
        refine .inr ⟨hnot, ?_⟩
        have heq := hacts.entry
        rw [htarget, hentry, hd] at heq
        obtain ⟨e, he, hed⟩ := Option.map_eq_some_iff.mp (Option.some.inj heq)
        rw [he, hd, (Prod.mk.inj hed).1]
      · intro hsame
        rcases hsame with ⟨k, hk'⟩ | ⟨-, hsame⟩
        · cases hk'
        · refine .of_entry hanch hroom hcomp ?_
          rw [htarget, hentry, hsame]
  | some k =>
      have hmem : '/' ∈ path := by
        by_contra hnot
        rw [strrchr, lastIndex_eq_none.mpr hnot] at hk
        cases hk
      cases k with
      | zero =>
          refine iff_of_false (fun hacts => ?_) ?_
          · have hspare' := spare_of_carries hspare (.refl hgrounded) (by simp)
            obtain ⟨t, ht⟩ := @entryOfPath_root s caller path env hlast hk hroot
            have heq := hacts.entry
            rw [mknodTarget_root hspare' hlast hk, ht] at heq
            cases heq
          · rintro (⟨k, hk'⟩ | ⟨hnot, -⟩)
            · cases hk'
            · exact hnot hmem
      | succ k =>
          refine iff_of_true (.of_entry hanch hroom (components_ne_nil hne hlast) ?_) (.inl ⟨k, rfl⟩)
          exact mknodTarget_slash hgrounded hroom hspare hlast hk

theorem holdsDir_of_check {c : InodeCache} {i : ℕ} {renv : ReadEnv}
    (h : (decide (i < maxInodes) && decide ((c.slots i).op = some .ext2Dir) && isDir (c.slots i).mode &&
      (c.node i).any fun d =>
        let r := c.inodeGet d.1 d.2 renv
        r.1.all fun j => isDir (r.2.slots j).mode) = true) : HoldsDir c i renv := by
  simp only [Bool.and_eq_true, decide_eq_true_eq] at h
  obtain ⟨⟨⟨hlt, hop⟩, hdir⟩, hread⟩ := h
  obtain ⟨d, hd, hall⟩ := (Option.any_eq_true _ _).mp hread
  refine ⟨hlt, by simp [hd], hop, hdir, fun e j c' he hget => ?_⟩
  obtain rfl : d = e := Option.some.inj (hd.symm.trans he)
  rw [hget] at hall
  simpa using hall

end Mounts
end Ferrite.Fs
