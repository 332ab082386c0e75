import Ferrite.Fs.Errno
import Ferrite.Fs.InodeCache
import Ferrite.Library.Namespaces

/-!
# Mounting and path lookup

`vfs_lookup` and `vfs_mount` over the inode cache. The link from a directory to
what is mounted on it is the field `i_mount` of a slot of the cache. What a
directory holds is a table: the search of its blocks by `ext2_find_entry` is not
part of this model. What was mounted where is kept beside the kernel's state.

A call that aborts, or calls or reads through `NULL`, has no result.
-/
namespace Ferrite.Fs
open Namespaces

/-- A directory or file: its superblock and inode number. -/
abbrev Node := ℕ × ℕ

abbrev Path := List Char

/-- `split(path, '/')`: the words between the slashes. -/
def components (path : Path) : List (List Char) := (path.splitOn '/').filter (· ≠ [])

/-- The credentials of the caller, with the groups up to `NOGROUP`, and the slots
of its `root` and `pwd`. -/
structure Caller where
  euid : ℕ
  egid : ℕ
  groups : List ℕ
  root : ℕ
  pwd : ℕ

/-- Whether `split` has memory, and what each `inode_get` of the call learns. -/
structure LookupEnv where
  split : Bool
  read : ℕ → ReadEnv

/-- Why `vfs_mount` gets no superblock: the name of the device, the device, `kmalloc`,
or no file system of the type that reads it. -/
inductive MountFault
  | path | device | memory | type

def MountFault.errno : MountFault → ℤ
  | .path => -einval
  | .device => -ebusy
  | .memory => -enomem
  | .type => -einval

/-- What `vfs_mount` learns: the address of the new superblock, its contents or why there
is none, and whether there is memory for the entry. -/
structure MountEnv where
  lookup : LookupEnv
  sb : ℕ
  super : Except MountFault Superblock
  read : ReadEnv
  entry : Bool

/-- An element of `mount_table`. -/
structure MountEntry where
  name : Path
  mountPoint : Option ℕ
  sb : ℕ
  root : ℕ

structure Mounts where
  cache : InodeCache
  entries : ℕ → ℕ → List Char → Option ℕ
  table : List MountEntry
  /-- The roots that were mounted, by the directory they were mounted on. -/
  mounted : Node → Option Node

def ext2RootIno : ℕ := 2
def nameMax : ℕ := 255

def msRemount : ℕ := 32

/-- An entry of a directory, as a node of the same superblock. -/
def entryOf (entries : ℕ → ℕ → List Char → Option ℕ) (d : Node) (name : List Char) : Option Node :=
  (entries d.1 d.2 name).map fun ino => (d.1, ino)

/-- `vfs_permission`; the test of `ext2_permission` for root comes first and gives the same. -/
def vfsPermission (n : VfsInode) (caller : Caller) (mask : ℕ) : Bool :=
  let mode :=
    if caller.euid = n.uid then n.mode >>> 6
    else if n.gid = caller.egid || n.gid ∈ caller.groups then n.mode >>> 3
    else n.mode
  mode &&& mask &&& 0o7 = mask || caller.euid = 0

namespace InodeCache

/-- The node in a slot. -/
def node (c : InodeCache) (i : ℕ) : Option Node :=
  (c.slots i).sb.map fun b => (b, (c.slots i).ino)

/-- Following `i_mount` of the inode just resolved. -/
def crossMount (c : InodeCache) (new : ℕ) (env : ReadEnv) : Option (ℕ × InodeCache) :=
  match (c.slots new).mount with
  | none => some (new, c)
  | some r =>
      match (c.slots r).sb with
      | none => none
      | some b =>
          match c.inodeGet b (c.slots r).ino env with
          | (none, _) => none
          | (some m, c) => (c.inodePut new).map fun c => (m, c)

/-- `current->i_op->lookup`; only directories of ext2 have one. -/
def lookupOp (c : InodeCache) (entries : ℕ → ℕ → List Char → Option ℕ) (current : ℕ)
    (name : List Char) (env : ReadEnv) : Option (Option ℕ × InodeCache) :=
  if (c.slots current).op ≠ some .ext2Dir then none
  else if !isDir (c.slots current).mode then some (none, c)
  else
    match (c.slots current).sb with
    | none => none
    | some b =>
        match entries b (c.slots current).ino name with
        | none => some (none, c)
        | some ino => some (c.inodeGet b ino env)

/-- The loop over the components, with one reference to `current`. -/
def lookupLoop (entries : ℕ → ℕ → List Char → Option ℕ) (caller : Caller) (read : ℕ → ReadEnv) :
    List (List Char) → ℕ → InodeCache → Option (Option ℕ × InodeCache)
  | [], current, c => some (some current, c)
  | name :: names, current, c =>
      match c.lookupOp entries current name (read (2 * names.length + 1)) with
      | none => none
      | some (none, c) => (c.inodePut current).map fun c => (none, c)
      | some (some new, c) => do
          let c ← c.inodePut current
          let r ← c.crossMount new (read (2 * names.length))
          if isDir (r.2.slots r.1).mode && !names.isEmpty &&
              !vfsPermission (r.2.slots r.1) caller 1 then
            let c ← r.2.inodePut r.1
            return (none, c)
          else lookupLoop entries caller read names r.1 r.2

end InodeCache

/-- What was mounted where, after one more mount. -/
def recordMount (mounted : Node → Option Node) (d : Option Node) (root : Node) :
    Node → Option Node :=
  match d with
  | none => mounted
  | some d => Function.update mounted d (some root)

namespace Mounts
variable (s : Mounts)

/-- The slot a lookup starts from. -/
def base (caller : Caller) (path : Path) : ℕ :=
  if path.head? = some '/' then caller.root else caller.pwd

def vfsLookup (caller : Caller) (path : Path) (env : LookupEnv) :
    Option (Option ℕ × InodeCache) :=
  let c := s.cache
  if path = [] then some (none, c)
  else
    let n := c.slots (base caller path)
    match n.sb with
    | none =>
        if components path ≠ [] ∧ (!vfsPermission n caller 1 || !env.split) then some (none, c)
        else none
    | some b =>
        if components path = [] then some (c.inodeGet b n.ino (env.read 0))
        else if !vfsPermission n caller 1 then some (none, c)
        else if !env.split then some (none, c)
        else
          match c.inodeGet b n.ino (env.read 0) with
          | (none, c) => some (none, c)
          | (some i, c) => c.lookupLoop s.entries caller env.read (components path) i

/-- A lookup of components, from a slot. -/
def lookupFrom (caller : Caller) (start : ℕ) (names : List (List Char)) (env : LookupEnv) :
    Option (Option ℕ × InodeCache) :=
  let c := s.cache
  let n := c.slots start
  match n.sb with
  | none =>
      if names ≠ [] ∧ (!vfsPermission n caller 1 || !env.split) then some (none, c)
      else none
  | some b =>
      if names = [] then some (c.inodeGet b n.ino (env.read 0))
      else if !vfsPermission n caller 1 then some (none, c)
      else if !env.split then some (none, c)
      else
        match c.inodeGet b n.ino (env.read 0) with
        | (none, c) => some (none, c)
        | (some i, c) => c.lookupLoop s.entries caller env.read names i

/-- `ext2_superblock_read`, after the device has been read. -/
def readSuper (c : InodeCache) (sb : ℕ) (super : Superblock) (env : ReadEnv) :
    Option (ℕ × InodeCache) :=
  let c := { c with supers := Function.update c.supers sb { super with rootNode := none } }
  match c.inodeGet sb ext2RootIno env with
  | (none, _) => none
  | (some r, c) =>
      some (r, { c with supers := Function.update c.supers sb { super with rootNode := some r } })

/-- `inode_put` of a pointer that may be `NULL`. -/
def put (c : InodeCache) : Option ℕ → Option InodeCache
  | none => some c
  | some i => c.inodePut i

/-- `vfs_mount` after the mount point has been looked up. -/
def mountOn (c : InodeCache) (name : Path) (mountInode : Option ℕ) (env : MountEnv) :
    Option (ℤ × Mounts) :=
  match env.super with
  | .error e => (put c mountInode).map fun c => (e.errno, { s with cache := c })
  | .ok super =>
      match readSuper c env.sb super env.read with
      | none => none
      | some (r, c) =>
          if !env.entry then
            match mountInode with
            | none => none
            | some i =>
                ((c.setSlot i { c.slots i with mount := none }).inodePut i).map fun c =>
                  (-enomem, { s with cache := c })
          else
            let linked := mountInode.elim c fun i => c.setSlot i { c.slots i with mount := some r }
            (put linked mountInode).map fun c' =>
              (0, { s with
                cache := c'
                table := ⟨name, mountInode, env.sb, r⟩ :: s.table
                mounted := recordMount s.mounted (mountInode.bind c.node) (env.sb, ext2RootIno) })

def vfsMount (caller : Caller) (name : Path) (flags : ℕ) (env : MountEnv) : Option (ℤ × Mounts) :=
  if nameMax ≤ name.length then some (-enametoolong, s)
  else if name = ['/'] then s.mountOn s.cache name none env
  else
    match s.vfsLookup caller name env.lookup with
    | none => none
    | some (none, c) => some (-enoent, { s with cache := c })
    | some (some i, c) =>
        if !isDir (c.slots i).mode then
          (c.inodePut i).map fun c => (-enotdir, { s with cache := c })
        else if (c.slots i).mount ≠ none then
          if flags &&& msRemount = 0 then
            (c.inodePut i).map fun c => (-ebusy, { s with cache := c })
          else some (-enosys, { s with cache := c })
        else s.mountOn c name (some i) env

end Mounts
end Ferrite.Fs
