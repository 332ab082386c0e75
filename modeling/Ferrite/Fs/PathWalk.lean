import Ferrite.Fs.MountRuns

/-!
# The directories of a path walk

Which inodes `vfs_lookup` looks a component up in, whether the caller may search
them, and whether they have an operation to call. The operations are those that
`inode_get` left in the slot, so they depend on the type of the inode and on what
the slot held before.
-/
namespace Ferrite.Fs
open Namespaces Runs

namespace InodeCache

/-- The inodes that the loop looks a component up in, as they are then. -/
def searched (entries : ℕ → ℕ → List Char → Option ℕ) (caller : Caller) (read : ℕ → ReadEnv) :
    List (List Char) → ℕ → InodeCache → List VfsInode
  | [], _, _ => []
  | name :: names, current, c =>
      c.slots current ::
        match c.lookupOp entries current name (read (2 * names.length + 1)) with
        | some (some new, c) =>
            Option.getD (do
              let c ← c.inodePut current
              let r ← c.crossMount new (read (2 * names.length))
              if isDir (r.2.slots r.1).mode && !names.isEmpty &&
                  !vfsPermission (r.2.slots r.1) caller 1 then
                return []
              else return searched entries caller read names r.1 r.2) []
        | _ => []

end InodeCache

namespace Mounts
variable (s : Mounts)

/-- The inodes that a lookup looks a component up in; the first is the one it starts from. -/
def searched (caller : Caller) (path : Path) (env : LookupEnv) : List VfsInode :=
  let n := s.cache.slots (base caller path)
  match n.sb with
  | none => []
  | some b =>
      if components path = [] ∨ !vfsPermission n caller 1 ∨ !env.split then []
      else
        match s.cache.inodeGet b n.ino (env.read 0) with
        | (none, _) => []
        | (some i, c) => c.searched s.entries caller env.read (components path) i

end Mounts

/-! ## Search permission -/

namespace InodeCache
variable {c c' : InodeCache} {entries : ℕ → ℕ → List Char → Option ℕ} {caller : Caller}
  {read : ℕ → ReadEnv} {names : List (List Char)} {name : List Char} {env : ReadEnv} {i j : ℕ}
  {r : Option ℕ}

theorem lookupOp_some (h : c.lookupOp entries i name env = some (r, c')) :
    (c.slots i).op = some .ext2Dir ∧ (r ≠ none → isDir (c.slots i).mode = true) := by
  unfold lookupOp at h
  split_ifs at h with hop hdir
  · cases h
    exact ⟨by simpa using hop, fun hr => absurd rfl hr⟩
  · exact ⟨by simpa using hop, fun _ => by simpa using hdir⟩

/-- What the loop has asked of the inodes it has looked a component up in. -/
theorem lookupLoop_searched (h : c.lookupLoop entries caller read names i = some (r, c')) :
    (∀ d ∈ c.searched entries caller read names i, d.op = some .ext2Dir) ∧
      (r ≠ none → (∀ d ∈ c.searched entries caller read names i, isDir d.mode = true) ∧
        ∀ d ∈ (c.searched entries caller read names i).tail, vfsPermission d caller 1 = true) := by
  induction names generalizing c i with
  | nil => simp [searched]
  | cons name names ih =>
      rw [InodeCache.lookupLoop] at h
      rw [InodeCache.searched]
      split at h
      · cases h
      · rename_i c₁ hop
        obtain ⟨hdirop, -⟩ := lookupOp_some hop
        obtain ⟨c₂, -, hc₂⟩ := Option.map_eq_some_iff.mp h
        cases hc₂
        rw [hop]
        exact ⟨by simpa using hdirop, fun hr => absurd rfl hr⟩
      · rename_i new c₁ hop
        obtain ⟨hdirop, hdir⟩ := lookupOp_some hop
        have hdir := hdir (by simp)
        obtain ⟨c₂, hput, h⟩ := Option.bind_eq_some_iff.mp h
        obtain ⟨⟨k, c₃⟩, hcross, h⟩ := Option.bind_eq_some_iff.mp h
        simp only [hop, hput, hcross, Option.bind_eq_bind, Option.bind_some]
        split at h
        · rename_i hdenied
          obtain ⟨c₄, -, hc₄⟩ := Option.bind_eq_some_iff.mp h
          cases hc₄
          rw [if_pos hdenied]
          exact ⟨by simpa using hdirop, fun hr => absurd rfl hr⟩
        · rename_i hallowed
          rw [if_neg hallowed]
          obtain ⟨hops, hrest⟩ := ih h
          refine ⟨by simpa using ⟨hdirop, hops⟩, fun hr => ?_⟩
          obtain ⟨hdirs, hperm⟩ := hrest hr
          refine ⟨by simpa using ⟨hdir, hdirs⟩, ?_⟩
          -- The next inode is a directory if a component is looked up in it, so it was checked.
          cases names with
          | nil => simp [searched]
          | cons name' names =>
              have hnext := hdirs (c₃.slots k) (by simp [searched])
              have hmay : vfsPermission (c₃.slots k) caller 1 = true := by
                simpa [hnext] using hallowed
              intro d hd
              rw [InodeCache.searched] at hd hperm
              rcases List.mem_cons.mp hd with rfl | hd
              · exact hmay
              · exact hperm d hd

/-- A loop that comes to an end has looked every component up. -/
theorem lookupLoop_length (h : c.lookupLoop entries caller read names i = some (some j, c')) :
    (c.searched entries caller read names i).length = names.length := by
  induction names generalizing c i with
  | nil => rfl
  | cons name names ih =>
      rw [InodeCache.lookupLoop] at h
      rw [InodeCache.searched]
      split at h
      · cases h
      · obtain ⟨c₂, -, hc₂⟩ := Option.map_eq_some_iff.mp h
        cases hc₂
      · rename_i new c₁ hop
        obtain ⟨c₂, hput, h⟩ := Option.bind_eq_some_iff.mp h
        obtain ⟨⟨k, c₃⟩, hcross, h⟩ := Option.bind_eq_some_iff.mp h
        simp only [hop, hput, hcross, Option.bind_eq_bind, Option.bind_some]
        split at h
        · obtain ⟨c₄, -, hc₄⟩ := Option.bind_eq_some_iff.mp h
          cases hc₄
        · rename_i hallowed
          rw [if_neg hallowed, List.length_cons, List.length_cons]
          exact congrArg Nat.succ (ih h)

end InodeCache

namespace Mounts
open InodeCache
variable {s : Mounts} {caller : Caller} {path : Path} {env : LookupEnv} {i : ℕ} {c : InodeCache}

/-- A lookup of components starts from the inode of the base, read again by `inode_get`. -/
theorem vfsLookup_components {r : Option ℕ} (hne : components path ≠ [])
    (h : s.vfsLookup caller path env = some (r, c)) :
    (r = none ∧ c = s.cache ∧ s.searched caller path env = []) ∨
      vfsPermission (s.cache.slots (base caller path)) caller 1 = true ∧ ∃ b k c₁,
        (s.cache.slots (base caller path)).sb = some b ∧
        Got s.cache c₁ k (b, (s.cache.slots (base caller path)).ino) ∧
        s.searched caller path env = c₁.searched s.entries caller env.read (components path) k ∧
        c₁.lookupLoop s.entries caller env.read (components path) k = some (r, c) := by
  have hpath : path ≠ [] := by
    intro hpath
    rw [hpath] at hne
    exact hne (by decide)
  unfold vfsLookup at h
  unfold Mounts.searched
  simp only [if_neg hpath] at h
  cases hsb : (s.cache.slots (base caller path)).sb with
  | none =>
      simp only [hsb] at h ⊢
      split at h <;> cases h
      exact .inl ⟨rfl, rfl, trivial⟩
  | some b =>
      simp only [hsb, hne, if_false] at h
      simp only [hsb, hne, false_or]
      split_ifs at h with hperm hsplit
      · cases h
        exact .inl ⟨rfl, rfl, by rw [if_pos (.inl hperm)]⟩
      · cases h
        exact .inl ⟨rfl, rfl, by rw [if_pos (.inr hsplit)]⟩
      · rw [if_neg (by simp only [not_or]; exact ⟨hperm, hsplit⟩)]
        cases hget : s.cache.inodeGet b (s.cache.slots (base caller path)).ino (env.read 0) with
        | mk new c₁ =>
            rw [hget] at h
            rcases inodeGet_spec hget with ⟨rfl, rfl⟩ | ⟨k, rfl, hg⟩
            · cases h
              exact .inl ⟨rfl, rfl, rfl⟩
            · exact .inr ⟨by simpa using hperm, b, k, c₁, rfl, hg, rfl, h⟩

/-- A lookup that returns an inode has looked every component up, each in an inode that the
caller may search. The first is the root or the working directory, which is checked as it is
before `inode_get` reads it again; the others have been checked behind the mount they cross. -/
theorem search_permission (h : s.vfsLookup caller path env = some (some i, c))
    (hne : components path ≠ []) :
    vfsPermission (s.cache.slots (base caller path)) caller 1 = true ∧ ∃ d ds,
      s.searched caller path env = d :: ds ∧ ds.length + 1 = (components path).length ∧
      d.sb = (s.cache.slots (base caller path)).sb ∧
      d.ino = (s.cache.slots (base caller path)).ino ∧
      ∀ x ∈ ds, vfsPermission x caller 1 = true := by
  rcases vfsLookup_components hne h with ⟨hnone, -⟩ | ⟨hperm, b, k, c₁, hsb, hg, hsearched, hloop⟩
  · cases hnone
  refine ⟨hperm, ?_⟩
  rw [hsearched]
  obtain ⟨-, hrest⟩ := lookupLoop_searched hloop
  obtain ⟨-, htail⟩ := hrest (by simp)
  have hlen := lookupLoop_length hloop
  have ⟨hnode, hino⟩ := node_eq_some.mp hg.node
  cases hcomp : components path with
  | nil => exact absurd hcomp hne
  | cons name names =>
      rw [hcomp] at htail hlen
      rw [InodeCache.searched] at htail hlen ⊢
      exact ⟨_, _, rfl, hlen, hnode.trans hsb.symm, hino, htail⟩

/-- Every directory of the tree has the entry `x`. -/
def deepTree : Mounts :=
  { unmounted with entries := fun _ ino name => if name = ['x'] then some (min (ino + 10) 13) else none }

def stranger : Caller := { rootUser with euid := 7, egid := 7 }

theorem search_permission_stranger : ∃ (s : Mounts) (i : ℕ) (c : InodeCache) (d : VfsInode)
    (ds : List VfsInode),
    s.vfsLookup stranger ['/', 'x', '/', '/', 'x'] (mountedAt 10).lookup = some (some i, c) ∧
      s.searched stranger ['/', 'x', '/', '/', 'x'] (mountedAt 10).lookup = d :: ds ∧
      ds.length + 1 = 2 ∧ ∀ x ∈ ds, vfsPermission x stranger 1 = true := by
  have hrun : ((deepTree.call bootMount).any fun s =>
      (s.vfsLookup stranger ['/', 'x', '/', '/', 'x'] (mountedAt 10).lookup).any fun r =>
        r.1.isSome) = true := by
    decide
  obtain ⟨s, -, hrest⟩ := (Option.any_eq_true _ _).mp hrun
  obtain ⟨⟨r, c⟩, hr, hsome⟩ := (Option.any_eq_true _ _).mp hrest
  obtain ⟨i, rfl⟩ := Option.isSome_iff_exists.mp hsome
  obtain ⟨-, d, ds, hsearched, hlen, -, -, hperm⟩ := search_permission hr (by decide)
  exact ⟨s, i, c, d, ds, hr, hsearched, hlen, hperm⟩

end Mounts

end Ferrite.Fs
