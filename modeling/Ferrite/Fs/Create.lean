import Ferrite.Fs.AllocAgree
import Ferrite.Fs.Rmdir
import Ferrite.Fs.WriteEntry

/-!
# Making an inode and its entry

`ext2_create`, `ext2_mkdir` and `ext2_mknod` take an inode, write it and add the entry. One
transfer may fail, which then leaves the device as it is. `inode_get` hands out inodes as in
`ext2_rmdir`, and `held` tells whether the reference to the new one is kept.
-/
namespace Ferrite.Fs
open Packed Word Records

def sIflnk : ℕ := 0o120000
def sIfifo : ℕ := 0o010000
def sIsgid : ℕ := 0o002000

def isLnk (mode : ℕ) : Bool := mode &&& sIfmt = sIflnk
def isFifo (mode : ℕ) : Bool := mode &&& sIfmt = sIfifo

/-- The transfers of the three calls. -/
inductive MakeStep
  | find (i : ℕ)
  | inode (t : Transfer)
  | block (t : Transfer)
  | storeNew
  | entry (e : EntryStep)
  | storeDots
  | storeAgain
  | storeDir
deriving DecidableEq

namespace MakeStep

def ofInode : Option MakeStep → Option Transfer
  | some (inode t) => some t
  | _ => none

def ofBlock : Option MakeStep → Option Transfer
  | some (block t) => some t
  | _ => none

def ofEntry : Option MakeStep → Option EntryStep
  | some (entry e) => some e
  | _ => none

end MakeStep

/-- What a call gets from the rest of the kernel: the inodes, memory, the time and the
process. -/
structure MakeEnv where
  nodes : Inodes
  mem : Bool
  now : ℕ
  euid : ℕ
  egid : ℕ

/-- The result, the inode of the directory, the new inode if one was taken, whether its
reference is kept and the entry written, and the file system. -/
structure Make where
  result : ℤ
  dir : VfsInode
  node : Option VfsInode
  held : Bool
  created : Bool
  fs : Ext2

/-- What is written of a name; its length has eight bits. -/
def newEntry (ino : ℕ) (name : List Byte) : DirEntry :=
  { inode := ino, recLen := 0, name := name.take (name.length % 256) }

/-- `ext2_new_inode` fills the inode that `inode_get` hands out. The inode on disk that it
fills beside is not used. -/
def VfsInode.fresh (n : VfsInode) (dev ino mode now : ℕ) : VfsInode :=
  { n with
    mount := none, dev := dev, ino := ino, mode := mode % 2 ^ 16, uid := 0, gid := 0, size := 0
    atime := now, mtime := now, ctime := now, links := 1 }

/-- The inode of a directory with one block. -/
def VfsInode.withBlock (n : VfsInode) (blocksize : ℕ) (blockNum : ℤ) : VfsInode :=
  let inode := put 4 (put 4 (put 4 n.raw 4 blocksize) 28 (blocksize / 512)) 40 (ofS32 blockNum)
  { n with size := blocksize, links := 2 }.setRaw
    ((List.range 14).foldl (fun inode i => put 4 inode (40 + 4 * (i + 1)) 0) inode)

/-- The block of a new directory. -/
def dotsBlock (ino parent blocksize : ℕ) : Bytes :=
  let current : DirEntry := { inode := ino, recLen := align (8 + 1) 4, name := [46] }
  let parent : DirEntry := { inode := parent, recLen := wsub blocksize current.recLen, name := [46, 46] }
  copy (8 + 2) (copy (8 + 1) (fun _ => 0) 0 current.bytes 0) current.recLen parent.bytes 0

namespace Ext2
variable (s : Ext2)

/-- `ext2_find_entry`; a read that fails ends the search without a record. -/
def findEntryOn (fault : Option MakeStep) (dir : VfsInode) (name : List Byte) : Option (Option DirEntry) :=
  let blocks := min (ceilDiv dir.size s.blocksize) 12
  let reached := match fault with
    | some (.find i) => min blocks i
    | _ => blocks
  s.scanFrom dir.raw (hasName name) reached 0

def newNode (fault : Option MakeStep) (env : MakeEnv) (dev mode : ℕ) : Option VfsInode × Option ℤ × Ext2 :=
  match s.newInode (MakeStep.ofInode fault) mode true env.mem with
  | (none, err, t) => (none, err, t)
  | (some ino, err, t) =>
      match env.nodes ino with
      | none => (none, some (-enomem), t)
      | some (_, node) => (some (node.fresh dev ino mode env.now), err, t)

/-- `write_inode`, which may fail. -/
def storeInode (fails : Bool) (node : VfsInode) : ℤ × VfsInode × Ext2 :=
  if fails then (-1, node, s) else (0, s.writeInode node)

def create (fault : Option MakeStep) (env : MakeEnv) (dir : VfsInode) (name : List Byte)
    (mode : ℕ) : Option Make :=
  match s.newNode fault env dir.dev mode with
  | (none, err, s) => some ⟨err.getD 0, dir, none, false, false, s⟩
  | (some node, _, s) =>
      match s.storeInode (fault = some .storeNew) node with
      | (err, node, s) =>
          if err < 0 then some ⟨err, dir, node, false, false, (s.freeInode node).2⟩
          else
            match s.writeEntry (MakeStep.ofEntry fault) dir (newEntry node.ino name) with
            | none => none
            | some (err, dir, s) =>
                if err < 0 then some ⟨-err, dir, node, false, false, (s.freeInode node).2⟩
                else
                  match s.storeInode (fault = some .storeDir) dir with
                  | (err, dir, s) => some ⟨err, dir, node, ¬ err < 0, true, s⟩

/-- What `ext2_mkdir` does once the entry is written. -/
def fillDir (fault : Option MakeStep) (now : ℕ) (dir node : VfsInode) : Make :=
  match s.storeInode (fault = some .storeNew) node with
  | (err, node, s) =>
      if err < 0 then ⟨err, dir, node, false, true, s⟩
      else if fault = some .storeDots then ⟨-1, dir, node, true, true, s⟩
      else
        let s := s.write (s.blockSector (iBlock node.raw 0)) s.sectors (dotsBlock node.ino dir.ino s.blocksize)
        match s.storeInode (fault = some .storeAgain) node with
        | (err, node, s) =>
            if err < 0 then ⟨-1, dir, node, true, true, s⟩
            else
              let dir := { dir with links := (dir.links + 1) % 2 ^ 16, ctime := now, mtime := now }
              match s.storeInode (fault = some .storeDir) dir with
              | (err, dir, s) => ⟨err, dir, node, false, true, s⟩

def mkdir (fault : Option MakeStep) (env : MakeEnv) (dir : VfsInode) (name : List Byte)
    (mode : ℕ) : Option Make :=
  if !isDir dir.mode then some ⟨-1, dir, none, false, false, s⟩
  else
    match s.findEntryOn fault dir name with
    | none => none
    | some (some _) => some ⟨-1, dir, none, false, false, s⟩
    | some none =>
        match s.newNode fault env dir.dev mode with
        | (none, err, s) => some ⟨err.getD 0, dir, none, false, false, s⟩
        | (some node, err, s) =>
            match s.newBlock (MakeStep.ofBlock fault) with
            | (blockNum, stored, s) =>
                let err := (stored.or err).getD 0
                if err < 0 then some ⟨err, dir, node, true, false, s⟩
                else
                  let node := node.withBlock s.blocksize blockNum
                  match s.writeEntry (MakeStep.ofEntry fault) dir (newEntry node.ino name) with
                  | none => none
                  | some (err, dir, s) =>
                      if err < 0 then some ⟨err, dir, node, false, false, s⟩ else s.fillDir fault
                        env.now dir node

/-- The inode of a new node with the owner, the mode and what the mode needs. Links, block
devices and pipes are not supported. -/
def nodeFor (env : MakeEnv) (dir node : VfsInode) (mode rdev : ℕ) : VfsInode × Bool :=
  let node := { node with uid := env.euid, gid := env.egid, mode := mode % 2 ^ 16, op := none }
  if isReg node.mode then ({ node with op := some .ext2File }, true)
  else if isDir node.mode then
    let sgid := if dir.mode &&& sIsgid = 0 then 0 else sIsgid
    ({ node with op := some .ext2Dir, mode := node.mode ||| sgid }, true)
  else if isLnk node.mode then (node, false)
  else if isChr node.mode then ({ node with op := some .chrdev, rdev := rdev % 2 ^ 16 }, true)
  else if isBlk node.mode then ({ node with rdev := rdev % 2 ^ 16 }, false)
  else if isFifo node.mode then (node, false)
  else (node, true)

/-- What `ext2_mknod` does with an inode of a mode that is supported. -/
def linkNode (fault : Option MakeStep) (dir node : VfsInode) (name : List Byte) : Option Make :=
  match s.storeInode (fault = some .storeNew) node with
  | (_, node, s) =>
      match s.writeEntry (MakeStep.ofEntry fault) dir (newEntry node.ino name) with
      | none => none
      | some (err, dir, s) =>
          if err = 0 then some ⟨0, dir, node, false, true, s⟩
          else
            match s.writeInode { node with links := 0 } with
            | (node, s) => some ⟨err, dir, node, false, false, s⟩

def mknod (fault : Option MakeStep) (env : MakeEnv) (dir : VfsInode) (name : List Byte)
    (mode rdev : ℕ) : Option Make :=
  match s.findEntryOn fault dir name with
  | none => none
  | some (some _) => some ⟨-eexist, dir, none, false, false, s⟩
  | some none =>
      match s.newNode fault env dir.dev mode with
      | (none, err, s) =>
          let err := err.getD (-1)
          some ⟨if err = 0 then -enospc else err, dir, none, false, false, s⟩
      | (some node, _, s) =>
          match nodeFor env dir node mode rdev with
          | (node, false) => some ⟨-enosys, dir, node, false, false, s⟩
          | (node, true) => s.linkNode fault dir node name

end Ext2
end Ferrite.Fs
