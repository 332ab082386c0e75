import Ferrite.Fs.PathWalk
import Ferrite.Library.Words

/-!
# Calls that take a path apart

`sys_mkdir` and `sys_rmdir` part a path at its last slash, look the first part up
and hand the rest to the file system as the name. What the file system does with
it is a parameter. A path that is written with more slashes than it needs has the
same parent and the same name.
-/
namespace Ferrite.Fs
open Words

/-- `strrchr(path, '/')`. -/
def strrchr (path : Path) : Option ℕ := lastIndex '/' path

/-- The length that is left when the slashes at the end of the first `len` characters are gone. -/
def trimmedLength (path : Path) : ℕ → ℕ
  | len + 2 => if path[len + 1]? = some '/' then trimmedLength path (len + 1) else len + 2
  | len => len

def vfsNormalizePath (path : Path) (size : ℕ) : Except ℤ Path :=
  if path.length = 0 ∨ size ≤ path.length then .error (-einval)
  else .ok (path.take (trimmedLength path path.length))

/-- An operation of an inode, from the slot of the directory and the name of the entry. -/
abbrev DirOp := ℕ → Path → Mounts → Option (ℤ × Mounts)

/-- What `sys_mkdir` and `sys_rmdir` learn: their lookups, and whether there is memory for
the path of the parent. -/
structure PathEnv where
  existing : LookupEnv
  parent : LookupEnv
  memory : Bool

namespace Mounts
variable (s : Mounts)

/-- The parent in a normalized path. Without memory the copy goes to address 0, which is mapped,
and `vfs_lookup(NULL)` finds nothing. -/
def parentOf (caller : Caller) (clean : Path) (env : PathEnv) : Option (Option ℕ × InodeCache) :=
  match strrchr clean with
  | none =>
      let pwd := s.cache.slots caller.pwd
      match pwd.sb with
      | none => none
      | some b =>
          match s.cache.inodeGet b pwd.ino (env.parent.read 0) with
          | (none, _) => none
          | (some i, c) => some (some i, c)
  | some k =>
      if !env.memory then some (none, s.cache)
      else s.vfsLookup caller (clean.take (if k = 0 then 1 else k)) env.parent

def nameOf (clean : Path) : Path :=
  match strrchr clean with
  | none => clean
  | some k => clean.drop (k + 1)

/-- From the parent on; only directories of ext2 have the operations. -/
def handOver (op : DirOp) (missing : ℤ) (caller : Caller) (parent : Option (Option ℕ × InodeCache))
    (name : Path) : Option (ℤ × Mounts) :=
  match parent with
  | none => none
  | some (none, c) => some (missing, { s with cache := c })
  | some (some dir, c) =>
      if name.length = 0 then (c.inodePut dir).map fun c => (-eexist, { s with cache := c })
      else if !vfsPermission (c.slots dir) caller 3 then
        (c.inodePut dir).map fun c => (-eacces, { s with cache := c })
      else if (c.slots dir).op ≠ some .ext2Dir then
        (c.inodePut dir).map fun c => (-enotdir, { s with cache := c })
      else do
        let r ← op dir name { s with cache := c }
        let c ← r.2.cache.inodePut dir
        return (r.1, { r.2 with cache := c })

def sysMkdir (mkdir : ℕ → DirOp) (caller : Caller) (path : Path) (mode : ℕ) (env : PathEnv) :
    Option (ℤ × Mounts) :=
  match vfsNormalizePath path 256 with
  | .error e => some (e, s)
  | .ok clean =>
      match s.vfsLookup caller clean env.existing with
      | none => none
      | some (some i, c) => (c.inodePut i).map fun c => (-eexist, { s with cache := c })
      | some (none, c) =>
          let t := { s with cache := c }
          t.handOver (mkdir (sIfdir ||| mode &&& 0o777)) (-enoent) caller (t.parentOf caller clean env)
            (nameOf clean)

def sysRmdir (rmdir : DirOp) (caller : Caller) (path : Path) (env : PathEnv) : Option (ℤ × Mounts) :=
  match vfsNormalizePath path 256 with
  | .error e => some (e, s)
  | .ok clean =>
      s.handOver rmdir (-enotdir) caller (s.parentOf caller clean env) (nameOf clean)

/-! ## The components of a path -/

/-- The directory to which components lead, from the root or from the working directory. The
working directory itself takes no memory, and has to be there. -/
def parentAt (caller : Caller) (absolute : Bool) (names : List Path) (env : PathEnv) :
    Option (Option ℕ × InodeCache) :=
  if absolute then
    if !env.memory then some (none, s.cache) else s.lookupFrom caller caller.root names env.parent
  else if names = [] then (s.lookupFrom caller caller.pwd [] env.parent).filter fun r => r.1.isSome
  else if !env.memory then some (none, s.cache)
  else s.lookupFrom caller caller.pwd names env.parent

/-- Making the directory that the last component names. -/
def mkdirAt (mkdir : ℕ → DirOp) (caller : Caller) (absolute : Bool) (names : List Path) (mode : ℕ)
    (env : PathEnv) : Option (ℤ × Mounts) :=
  match s.lookupFrom caller (if absolute then caller.root else caller.pwd) names env.existing with
  | none => none
  | some (some i, c) => (c.inodePut i).map fun c => (-eexist, { s with cache := c })
  | some (none, c) =>
      let t := { s with cache := c }
      t.handOver (mkdir (sIfdir ||| mode &&& 0o777)) (-enoent) caller
        (t.parentAt caller absolute names.dropLast env) (names.getLast?.getD [])

/-- Removing the directory that the last component names. -/
def rmdirAt (rmdir : DirOp) (caller : Caller) (absolute : Bool) (names : List Path) (env : PathEnv) :
    Option (ℤ × Mounts) :=
  s.handOver rmdir (-enotdir) caller (s.parentAt caller absolute names.dropLast env)
    (names.getLast?.getD [])

end Mounts

/-- Whether a path starts at the root. -/
def absolute (path : Path) : Bool := path.head? = some '/'

variable {path clean : Path} {k n : ℕ}

theorem components_eq (path : Path) : components path = words '/' path := rfl

/-! ## Normalized paths -/

theorem trimmedLength_spec (hn : 1 ≤ n) (hle : n ≤ path.length) :
    1 ≤ trimmedLength path n ∧ trimmedLength path n ≤ n ∧
      words '/' (path.take (trimmedLength path n)) = words '/' (path.take n) ∧
      (trimmedLength path n = 1 ∨ (path.take (trimmedLength path n)).getLast? ≠ some '/') := by
  induction n using trimmedLength.induct path with
  | case1 len hslash ih =>
      rw [trimmedLength, if_pos hslash]
      obtain ⟨hpos, hlt, hwords, hlast⟩ := ih (by omega) (by omega)
      refine ⟨hpos, by omega, ?_, hlast⟩
      rw [hwords, List.take_add_one (i := len + 1), hslash, Option.toList_some, words_concat_self]
  | case2 len hslash =>
      rw [trimmedLength, if_neg hslash]
      refine ⟨by omega, le_refl _, rfl, .inr ?_⟩
      have hlt : len + 1 < path.length := by omega
      rw [List.getLast?_take, if_neg (by omega), show len + 2 - 1 = len + 1 from rfl,
        List.getElem?_eq_getElem hlt, Option.some_or, ← List.getElem?_eq_getElem hlt]
      exact hslash
  | case3 len hlen =>
      obtain rfl : len = 1 := by
        cases len with
        | zero => omega
        | succ len =>
            cases len with
            | zero => rfl
            | succ len => exact absurd rfl (hlen len)
      exact ⟨le_refl _, le_refl _, rfl, .inl rfl⟩

/-- A path of some component is normalized to one that has the same components and does not end
in a slash. -/
theorem normalized (hlen : path.length < 256) (hne : components path ≠ []) :
    ∃ clean, vfsNormalizePath path 256 = .ok clean ∧ components clean = components path ∧
      absolute clean = absolute path ∧ clean ≠ [] ∧ clean.getLast? ≠ some '/' := by
  have hpath : path ≠ [] := by
    intro hpath
    rw [hpath] at hne
    exact hne (by decide)
  have hpos : 1 ≤ path.length := List.length_pos_iff.mpr hpath
  obtain ⟨hone, hle, hwords, hlast⟩ := trimmedLength_spec hpos (le_refl _)
  rw [List.take_length, ← components_eq, ← components_eq] at hwords
  refine ⟨_, if_neg (by omega), hwords, ?_, ?_, ?_⟩
  · rw [absolute, absolute, List.head?_take, if_neg (by omega)]
  · intro hnil
    rw [hnil] at hwords
    exact hne (hwords.symm.trans (by decide))
  · rcases hlast with hlen₁ | hlast
    · -- One character is left, which is not a slash because there is a component.
      intro hslash
      have htake : path.take (trimmedLength path path.length) = ['/'] := by
        rw [hlen₁] at hslash ⊢
        cases path with
        | nil => exact absurd rfl hpath
        | cons c path => simpa using hslash
      rw [htake] at hwords
      exact hne (hwords.symm.trans (by decide))
    · exact hlast

/-! ## Parent and name -/

namespace Mounts
variable {s : Mounts} {caller : Caller} {env : PathEnv}

theorem base_eq (caller : Caller) (path : Path) :
    base caller path = if absolute path then caller.root else caller.pwd := by
  unfold base absolute
  split_ifs <;> simp_all

theorem nameOf_eq (hne : clean ≠ []) (hlast : clean.getLast? ≠ some '/') :
    nameOf clean = (components clean).getLast?.getD [] := by
  unfold nameOf
  rw [components_eq]
  cases hk : strrchr clean with
  | none => rw [words_of_not_mem (lastIndex_eq_none.mp hk) hne]; rfl
  | some k =>
      rw [words_of_lastIndex hk (drop_lastIndex_ne_nil hk hlast)]
      simp

/-- The path up to the last slash leads where the components but the last do. -/
theorem components_parent (hlast : clean.getLast? ≠ some '/') (hk : strrchr clean = some k) :
    components (clean.take (if k = 0 then 1 else k)) = (components clean).dropLast ∧
      absolute (clean.take (if k = 0 then 1 else k)) = absolute clean ∧
      clean.take (if k = 0 then 1 else k) ≠ [] := by
  obtain ⟨heq, -⟩ := lastIndex_eq_some hk
  have hclean : clean ≠ [] := by
    intro hnil
    rw [hnil] at hk
    cases hk
  have hdrop := words_of_lastIndex hk (drop_lastIndex_ne_nil hk hlast)
  rw [components_eq, components_eq, hdrop, List.dropLast_concat]
  by_cases hzero : k = 0
  · -- The only slash is the first character.
    rw [hzero] at heq ⊢
    have htake : clean.take 1 = ['/'] := by
      rw [heq]
      rfl
    rw [if_pos rfl, htake, List.take_zero, words_nil]
    refine ⟨by decide, ?_, by decide⟩
    rw [heq]
    rfl
  · rw [if_neg hzero]
    refine ⟨rfl, ?_, ?_⟩
    · rw [absolute, absolute, List.head?_take, if_neg hzero]
    · intro hnil
      rcases List.take_eq_nil_iff.mp hnil with h | h
      · exact hzero h
      · exact hclean h

theorem absolute_of_not_mem (h : '/' ∉ clean) : absolute clean = false := by
  unfold absolute
  cases clean with
  | nil => rfl
  | cons c clean =>
      have hc : c ≠ '/' := fun hc => h (hc ▸ List.mem_cons_self)
      simp [hc]

theorem parentOf_eq (hne : clean ≠ []) (hlast : clean.getLast? ≠ some '/') :
    s.parentOf caller clean env =
      s.parentAt caller (absolute clean) (components clean).dropLast env := by
  unfold parentOf parentAt
  cases hk : strrchr clean with
  | none =>
      have hnot := lastIndex_eq_none.mp hk
      rw [components_eq, words_of_not_mem hnot hne, absolute_of_not_mem hnot]
      simp only [Bool.false_eq_true, if_false, List.dropLast_singleton, if_true]
      unfold lookupFrom
      cases hsb : (s.cache.slots caller.pwd).sb with
      | none => simp [hsb]
      | some b =>
          simp only [hsb, if_true]
          cases hget : s.cache.inodeGet b (s.cache.slots caller.pwd).ino (env.parent.read 0) with
          | mk r c => cases r <;> rfl
  | some k =>
      obtain ⟨hcomp, habs, hnil⟩ := components_parent hlast hk
      simp only
      rw [vfsLookup_eq hnil, base_eq, hcomp, habs]
      cases habs' : absolute clean with
      | true => simp
      | false =>
          -- A relative path with a slash has a component in front of it.
          have hparent : (components clean).dropLast ≠ [] := by
            rw [← hcomp]
            rw [habs'] at habs
            cases htake : clean.take (if k = 0 then 1 else k) with
            | nil => exact absurd htake hnil
            | cons c rest =>
                rw [htake] at habs
                apply words_cons_ne_nil
                intro hc
                simp [absolute, hc] at habs
          simp [hparent]

/-- `mkdir` and `rmdir` depend on a path by its components and where it starts. -/
theorem calls_by_components (mkdir : ℕ → DirOp) (rmdir : DirOp) (mode : ℕ) (hlen : path.length < 256)
    (hne : components path ≠ []) :
    s.sysMkdir mkdir caller path mode env =
        s.mkdirAt mkdir caller (absolute path) (components path) mode env ∧
      s.sysRmdir rmdir caller path env =
        s.rmdirAt rmdir caller (absolute path) (components path) env := by
  obtain ⟨clean, hclean, hcomp, habs, hnil, hlast⟩ := normalized hlen hne
  unfold sysMkdir sysRmdir mkdirAt rmdirAt
  rw [hclean]
  simp only
  rw [vfsLookup_eq hnil, base_eq, hcomp, habs]
  simp only [parentOf_eq hnil hlast, nameOf_eq hnil hlast, hcomp, habs, and_true]

/-- A file system that takes every name. -/
def takes : DirOp := fun _ _ t => some (0, t)

def plentyOfMemory : PathEnv :=
  { existing := (mountedAt 10).lookup, parent := (mountedAt 10).lookup, memory := true }

end Mounts
end Ferrite.Fs
