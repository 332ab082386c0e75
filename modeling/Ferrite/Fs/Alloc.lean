import Ferrite.Fs.Ext2Inode
import Ferrite.Fs.Ext2Read

/-!
# Allocating blocks and inodes

`ext2_new_block`, `ext2_new_inode` and their inverses on a device where one transfer may
fail, which leaves the device as it is. Each changes the counters in memory first and then
writes the bitmap, the group descriptor and the superblock.
-/
namespace Ferrite.Fs
open Packed Word

/-- The transfers of a call. -/
inductive Transfer
  | readBitmap
  | writeBitmap
  | readDesc
  | writeDesc
  | writeSuper
  | zeroBlock
deriving DecidableEq

/-- What a bitmap stands for. -/
inductive Pool
  | blocks
  | inodes
deriving DecidableEq

namespace Pool

/-- The fields of a group descriptor with the block of the bitmap and the number of clear
bits, and the field of the superblock with their number in all groups. -/
def bitmapField : Pool → ℕ
  | blocks => 0
  | inodes => 4
def countField : Pool → ℕ
  | blocks => 12
  | inodes => 14
def totalField : Pool → ℕ
  | blocks => 12
  | inodes => 16

end Pool

/-- `find_free_bit_in_bitmap`. -/
def findFreeBit (bitmap : Bytes) (size : ℕ) : Option ℕ :=
  (List.range (8 * size)).find? fun k => bit bitmap k = false

namespace Ext2
variable (s : Ext2)

def inodesCount : ℕ := get 4 s.es 0

def bitmapBlock (p : Pool) (g : ℕ) : ℕ := get 4 (s.groupDesc g) p.bitmapField
def freeCount (p : Pool) (g : ℕ) : ℕ := get 2 (s.groupDesc g) p.countField
def freeTotal (p : Pool) : ℕ := get 4 s.es p.totalField
def bitmap (p : Pool) (g : ℕ) : Bytes := s.readBlock (s.bitmapBlock p g)

/-- Adds to the counters, in 16 and in 32 bits. -/
def tally (p : Pool) (g small large : ℕ) : Ext2 :=
  s.count g p.countField (s.freeCount p g + small) p.totalField (s.freeTotal p + large)

/-- Adds to the number of directories of a group, if there is something to add. -/
def addDirs (g n : ℕ) : Ext2 :=
  let used := get 2 (s.groupDesc g) 16
  if n = 0 then s
  else { s with groupDesc := Function.update s.groupDesc g (put 2 (s.groupDesc g) 16 (used + n)) }

/-- Writes a bitmap, the group descriptor and the superblock, up to the transfer that fails. -/
def store (fault : Option Transfer) (p : Pool) (g : ℕ) (bitmap : Bytes) : Option Transfer × Ext2 :=
  let t := s.write (s.bitmapBlock p g * s.sectors % word) s.sectors bitmap
  match fault with
  | some .writeBitmap => (fault, s)
  | some .readDesc => (fault, t)
  | some .writeDesc => (fault, t)
  | some .writeSuper => (fault, t.bgdWrite g)
  | _ => (none, (t.bgdWrite g).superblockWrite)

/-- Takes the first clear bit of the first group with one: the group and the bit, or the
error that is stored. The bit is clear, so that the test of the old bit has no effect. -/
def take (fault : Option Transfer) (p : Pool) (groups dirs : ℕ) (unwritten : Option ℤ) :
    ((ℕ × ℕ) ⊕ Option ℤ) × Ext2 :=
  match (List.range groups).find? fun g => s.freeCount p g ≠ 0 with
  | none => (.inr (some (-enospc)), s)
  | some g =>
      if fault = some .readBitmap then (.inr (some (-eio)), s)
      else
        match findFreeBit (s.bitmap p g) s.blocksize with
        | none => (.inr (some (-enospc)), s)
        | some k =>
            match ((s.tally p g 0xFFFF (word - 1)).addDirs g dirs).store fault p g
              (setBit (s.bitmap p g) k) with
            | (none, t) => (.inl (g, k), t)
            | (some .writeBitmap, t) => (.inr unwritten, t)
            | (some _, t) => (.inr (some (-eio)), t)

/-- Clears a bit that is set. -/
def release (fault : Option Transfer) (p : Pool) (g k dirs : ℕ) (clear : ℤ) : ℤ × Ext2 :=
  if fault = some .readBitmap then (-eio, s)
  else if bit (s.bitmap p g) k = false then (clear, s)
  else
    match ((s.tally p g 1 1).addDirs g dirs).store fault p g (clearBit (s.bitmap p g) k) with
    | (none, t) => (0, t)
    | (some _, t) => (-eio, t)

/-! ## The functions -/

/-- `ext2_new_block`: the result, what is stored in `*err`, and the file system. Zeroing the
block may fail without effect on the result. -/
def newBlock (fault : Option Transfer) : ℤ × Option ℤ × Ext2 :=
  if s.freeBlocksCount = 0 then (0, some (-enospc), s)
  else
    match s.take fault .blocks (ceilDiv s.blocksCount s.blocksPerGroup) 0 none with
    | (.inr err, t) => (-1, err, t)
    | (.inl (g, k), t) =>
        let blockNum := wadd (wadd k (s.blocksPerGroup * g % word)) s.firstDataBlock
        let zeroed := t.write (blockNum * s.sectors % word) s.sectors fun _ => 0
        (toS32 blockNum, some 0, if fault = some .zeroBlock then t else zeroed)

/-- `ext2_new_inode`, with the inode it returns; `slot` tells whether the inode cache has a
slot, and `mem` whether there is memory. -/
def newInode (fault : Option Transfer) (mode : ℕ) (slot mem : Bool) : Option ℕ × Option ℤ × Ext2 :=
  let dirs := if isDir mode then 1 else 0
  match s.take fault .inodes (ceilDiv s.inodesCount s.inodesPerGroup) dirs (some (-eio)) with
  | (.inr err, t) => (none, err, t)
  | (.inl (g, k), t) =>
      if slot && mem then (some (wadd (wadd k (s.inodesPerGroup * g % word)) 1), some 0, t)
      else (none, some (-enomem), t)

/-- `ext2_free_block`. -/
def freeBlockOn (fault : Option Transfer) (blockNum : ℕ) : ℤ × Ext2 :=
  let index := wsub blockNum s.firstDataBlock
  s.release fault .blocks (index / s.blocksPerGroup) (index % s.blocksPerGroup) 0 (-einval)

/-- `ext2_free_inode`. -/
def freeInodeOn (fault : Option Transfer) (node : VfsInode) : ℤ × Ext2 :=
  let index := wsub node.ino 1
  s.release fault .inodes (index / s.inodesPerGroup) (index % s.inodesPerGroup)
    (if isDir node.mode then 0xFFFF else 0) (-1)

/-! ## Without a fault -/

theorem freeBlockOn_none (b : ℕ) : s.freeBlockOn none b = s.freeBlock b := by
  unfold freeBlockOn freeBlock release
  extract_lets index g bitmap k t u
  rw [if_neg (by simp)]
  by_cases hbit : bit bitmap k = false
  · rw [if_pos hbit]
    exact if_pos hbit
  · rw [if_neg hbit]
    exact if_neg hbit

theorem freeInodeOn_none (node : VfsInode) : s.freeInodeOn none node = s.freeInode node := by
  unfold freeInodeOn freeInode release
  extract_lets index g bitmap k t u v
  rw [if_neg (by simp)]
  by_cases hbit : bit bitmap k = false
  · rw [if_pos hbit]
    exact if_pos hbit
  · rw [if_neg hbit]
    by_cases hdir : isDir node.mode
    · rw [if_pos hdir]
      have hu : u = t.dirGone g := if_pos hdir
      rw [show v = u.write (u.inodeBitmap g * u.sectors % word) u.sectors (clearBit bitmap k) from rfl, hu]
      exact if_neg hbit
    · rw [if_neg hdir]
      have hu : u = t := if_neg hdir
      rw [show v = u.write (u.inodeBitmap g * u.sectors % word) u.sectors (clearBit bitmap k) from rfl, hu]
      exact if_neg hbit

end Ext2
end Ferrite.Fs
