import Ferrite.Library.Packed
import Ferrite.Library.Runs
import Ferrite.Library.Word

/-!
# The inode cache

The slots of `inode_cache` with everything a slot keeps when its count drops to
zero, and the functions that fill and release them: `inode_get_empty`,
`inode_get`, `inode_put`, `ext2_read_inode` and `__alloc_socket`. A pointer to an
inode is the number of its slot, a superblock is a number too. A device read
succeeds; `kmalloc` may fail.

`inode_put` reads `n->i_sb->s_root_node` without a test. Low memory is mapped, so
the read through `NULL` does not fault: it is recorded, and finds no root node.
-/
namespace Ferrite.Fs
open Packed Word

/-- `MAX_INODES`. -/
def maxInodes : ℕ := 256

/-- `S_IFMT` and the types of the mode of an inode. -/
def sIfmt : ℕ := 0o170000
def sIfsock : ℕ := 0o140000
def sIfreg : ℕ := 0o100000
def sIfblk : ℕ := 0o060000
def sIfdir : ℕ := 0o040000
def sIfchr : ℕ := 0o020000

def isSock (mode : ℕ) : Bool := mode &&& sIfmt = sIfsock
def isReg (mode : ℕ) : Bool := mode &&& sIfmt = sIfreg
def isBlk (mode : ℕ) : Bool := mode &&& sIfmt = sIfblk
def isDir (mode : ℕ) : Bool := mode &&& sIfmt = sIfdir
def isChr (mode : ℕ) : Bool := mode &&& sIfmt = sIfchr

/-- The tables of inode operations. -/
inductive InodeOps
  | ext2Dir | ext2File | chrdev | socket
deriving DecidableEq, Repr

/-- The union `u`. What hangs on it is a copy of the inode on disk, or a socket. -/
inductive Payload
  | null
  | ext2 (inode : Bytes)
  | socket (s : ℕ)

structure VfsInode where
  dev : ℕ
  rdev : ℕ
  ino : ℕ
  uid : ℕ
  gid : ℕ
  size : ℕ
  mode : ℕ
  count : BitVec 16
  links : ℕ
  atime : ℕ
  mtime : ℕ
  ctime : ℕ
  mount : Option ℕ
  sb : Option ℕ
  op : Option InodeOps
  u : Payload

/-- A zeroed slot. -/
def VfsInode.zero : VfsInode :=
  { dev := 0, rdev := 0, ino := 0, uid := 0, gid := 0, size := 0, mode := 0, count := 0, links := 0,
    atime := 0, mtime := 0, ctime := 0, mount := none, sb := none, op := none, u := .null }

/-- The operations that `ext2_read_inode` stores for a mode; it keeps the old ones for others. -/
def opsFor (mode : ℕ) : Option InodeOps :=
  if isDir mode then some .ext2Dir
  else if isReg mode then some .ext2File
  else if isChr mode then some .chrdev
  else none

/-- The stores of `ext2_read_inode` for the inode record `node`. -/
def VfsInode.load (n : VfsInode) (dev : ℕ) (node : Bytes) : VfsInode :=
  let mode := get 2 node 0
  { n with
    rdev := if isChr mode || isBlk mode then get 4 node 40 % 2 ^ 16 else n.rdev
    dev := dev
    atime := get 4 node 8
    ctime := get 4 node 12
    mtime := get 4 node 16
    links := get 2 node 26
    mode := mode
    size := get 4 node 4
    uid := get 2 node 2
    gid := get 2 node 24
    op := (opsFor mode).or n.op
    u := .ext2 node }

/-- A `vfs_superblock_t` of ext2, as far as the cache uses it; `inodeTable g` is
`bg_inode_table` of the group `g`. -/
structure Superblock where
  dev : ℕ
  blocksize : ℕ
  rootNode : Option ℕ
  inodesPerGroup : ℕ
  inodeSize : ℕ
  inodeTable : ℕ → ℕ

structure BlockDevice where
  sectorSize : ℕ
  bytes : Bytes

structure InodeCache where
  slots : ℕ → VfsInode
  supers : ℕ → Superblock
  devices : ℕ → BlockDevice
  /-- How often `inode_put` has read through a `NULL` `i_sb`. -/
  nullReads : ℕ

/-- What a call learns from the allocator, and what lies on the stack behind its buffer. -/
structure ReadEnv where
  mem : Bool
  stack : Bytes

/-- The offset of an inode record on the device, in `u32`. -/
def Superblock.recordAddr (sb : Superblock) (ino : ℕ) : ℕ :=
  let blockGroup := wsub ino 1 / sb.inodesPerGroup
  let index := wsub ino 1 % sb.inodesPerGroup
  let offsetInTable := index * sb.inodeSize % word
  wadd (sb.inodeTable blockGroup * sb.blocksize % word) offsetInTable

namespace InodeCache
variable (s : InodeCache)

def setSlot (i : ℕ) (n : VfsInode) : InodeCache := { s with slots := Function.update s.slots i n }

/-- The 256 bytes of the copy; what lies behind the sector comes from the stack. -/
def readRecord (sb : Superblock) (ino : ℕ) (stack : Bytes) : Bytes :=
  let d := s.devices sb.dev
  let addr := sb.recordAddr ino
  let buff : Bytes := copy d.sectorSize stack 0 d.bytes (addr / d.sectorSize * d.sectorSize)
  copy 256 (fun _ => 0) 0 buff (addr % d.sectorSize)

/-- `ext2_read_inode`; without memory for the copy it returns early. -/
def readInode (i : ℕ) (env : ReadEnv) : InodeCache :=
  match (s.slots i).sb, (s.slots i).u, env.mem with
  | some b, .null, true | some b, .ext2 _, _ | some b, .socket _, _ =>
      let sb := s.supers b
      s.setSlot i ((s.slots i).load sb.dev (s.readRecord sb (s.slots i).ino env.stack))
  | _, _, _ => s

def inodeGetEmpty (sb : Option ℕ) (ino : ℕ) (env : ReadEnv) : Option ℕ × InodeCache :=
  match (List.range maxInodes).find? fun i => (s.slots i).count = 0 with
  | none => (none, s)
  | some i =>
      let t := s.setSlot i { s.slots i with sb := sb, ino := ino, count := 1 }
      -- The mode is the one that the slot had before.
      if sb.isSome && !isSock (s.slots i).mode then (some i, t.readInode i env) else (some i, t)

/-- The slot that holds an inode of a superblock. -/
def find (sb ino : ℕ) : Option ℕ :=
  (List.range maxInodes).find? fun i => (s.slots i).sb = some sb ∧ (s.slots i).ino = ino

def inodeGet (sb ino : ℕ) (env : ReadEnv) : Option ℕ × InodeCache :=
  match s.find sb ino with
  | some i =>
      let t := s.setSlot i { s.slots i with count := (s.slots i).count + 1 }
      if !isSock (s.slots i).mode then (some i, t.readInode i env) else (some i, t)
  | none => s.inodeGetEmpty (some sb) ino env

/-- Aborts when the root node of a superblock loses its last reference. -/
def inodePut (i : ℕ) : Option InodeCache :=
  let n := s.slots i
  if n.count = 0 then some s
  else if n.count = 1 then
    let t := s.setSlot i { n with count := 0, sb := none, ino := 0 }
    match n.sb with
    | none => some { t with nullReads := s.nullReads + 1 }
    | some b => if (s.supers b).rootNode = some i then none else some t
  else some (s.setSlot i { n with count := n.count - 1 })

/-- `__alloc_socket`; no superblock, so nothing is read. -/
def allocSocket (sock now uid gid : ℕ) (env : ReadEnv) : Option ℕ × InodeCache :=
  match s.inodeGetEmpty none 0 env with
  | (none, t) => (none, t)
  | (some i, t) =>
      (some i, t.setSlot i { t.slots i with
        ctime := now, mtime := now, atime := now, mode := sIfsock ||| 0o666, dev := 0, size := 0
        links := 1, uid := uid, gid := gid, op := some .socket, u := .socket sock })

end InodeCache

/-! ## Histories -/

inductive CacheCall
  | get (sb ino : ℕ) (env : ReadEnv)
  | getEmpty (sb : Option ℕ) (ino : ℕ) (env : ReadEnv)
  | socket (sock now uid gid : ℕ) (env : ReadEnv)
  | put (i : ℕ)
  -- The devices and superblocks change.
  | disk (supers : ℕ → Superblock) (devices : ℕ → BlockDevice)

def InodeCache.call (s : InodeCache) : CacheCall → Option InodeCache
  | .get sb ino env => some (s.inodeGet sb ino env).2
  | .getEmpty sb ino env => some (s.inodeGetEmpty sb ino env).2
  | .socket sock now uid gid env => some (s.allocSocket sock now uid gid env).2
  | .put i => s.inodePut i
  | .disk supers devices => some { s with supers := supers, devices := devices }

def CacheStep (s : InodeCache) (e : CacheCall) (t : InodeCache) : Prop := s.call e = some t

/-- At boot all slots are zero. -/
def InodeCache.Cold (s : InodeCache) : Prop := ∀ i, s.slots i = .zero

end Ferrite.Fs
