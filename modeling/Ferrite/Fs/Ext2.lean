import Ferrite.Fs.Errno
import Ferrite.Fs.InodeCache

/-!
# The ext2 file system

The device, the superblock and the group descriptors in memory, and the functions
that read and write blocks and inodes. All three are bytes; the fields of the
structures on disk are read at their offsets. Transfers succeed, and a buffer holds
nothing behind what was read into it.
-/
namespace Ferrite.Fs
open Packed Word

/-- `ide_read` and `ide_write` transfer 256 words a sector. -/
def sectorSize : ℕ := 512

/-- The block device with `s_es` and `s_group_desc`. -/
structure Ext2 where
  disk : Bytes
  es : Bytes
  groupDesc : ℕ → Bytes

/-- `u.i_ext2`. -/
def VfsInode.raw (n : VfsInode) : Bytes :=
  match n.u with
  | .ext2 inode => inode
  | _ => fun _ => 0

def VfsInode.setRaw (n : VfsInode) (inode : Bytes) : VfsInode := { n with u := .ext2 inode }

/-- `i_block[i]` and `i_size` of the copy of the inode on disk. -/
def iBlock (inode : Bytes) (i : ℕ) : ℕ := get 4 inode (40 + 4 * i)
def iSize (inode : Bytes) : ℕ := get 4 inode 4

namespace Ext2
variable (s : Ext2)

/-! ## Fields of the superblock and of the group descriptors -/

def freeBlocksCount : ℕ := get 4 s.es 12
def freeInodesCount : ℕ := get 4 s.es 16
def firstDataBlock : ℕ := get 4 s.es 20
def logBlockSize : ℕ := get 4 s.es 24
def blocksize : ℕ := 1024 * 2 ^ get 4 s.es 24 % word
def blocksPerGroup : ℕ := get 4 s.es 32
def inodesPerGroup : ℕ := get 4 s.es 40
def inodeSize : ℕ := get 2 s.es 88

def blockBitmap (g : ℕ) : ℕ := get 4 (s.groupDesc g) 0
def inodeBitmap (g : ℕ) : ℕ := get 4 (s.groupDesc g) 4
def inodeTable (g : ℕ) : ℕ := get 4 (s.groupDesc g) 8

/-! ## Transfers -/

def read (lba count : ℕ) : Bytes := copy (count * sectorSize) (fun _ => 0) 0 s.disk (lba * sectorSize)

def write (lba count : ℕ) (buff : Bytes) : Ext2 :=
  { s with disk := copy (count * sectorSize) s.disk (lba * sectorSize) buff 0 }

/-- The sectors of a block. -/
def sectors : ℕ := s.blocksize / sectorSize

/-- `ext2_read_block`. -/
def readBlock (blockNum : ℕ) : Bytes := s.read (blockNum * s.sectors % word) s.sectors

/-- The sector of a block as the functions on files and directories compute it. -/
def blockSector (blockNum : ℕ) : ℕ := blockNum * s.blocksize % word / sectorSize

def bgdWrite (g : ℕ) : Ext2 :=
  let sector := 4 + g / 16
  s.write sector 1 (copy 32 (s.read sector 1) (32 * (g % 16)) (s.groupDesc g) 0)

def superblockWrite : Ext2 := s.write 2 2 s.es

/-! ## Blocks and inodes -/

/-- A group with a changed counter, as a field of two bytes, and the whole with one of four. -/
def count (g field value total sum : ℕ) : Ext2 :=
  { s with
    groupDesc := Function.update s.groupDesc g (put 2 (s.groupDesc g) field value)
    es := put 4 s.es total sum }

def freeBlock (blockNum : ℕ) : ℤ × Ext2 :=
  let index := wsub blockNum s.firstDataBlock
  let g := index / s.blocksPerGroup
  let bitmap := s.readBlock (s.blockBitmap g)
  let k := index % s.blocksPerGroup
  if bit bitmap k = false then (-einval, s)
  else
    let s := s.count g 12 (get 2 (s.groupDesc g) 12 + 1) 12 (s.freeBlocksCount + 1)
    let s := s.write (s.blockBitmap g * s.sectors % word) s.sectors (clearBit bitmap k)
    (0, (s.bgdWrite g).superblockWrite)

/-- `bg_used_dirs_count` less one. -/
def dirGone (g : ℕ) : Ext2 :=
  let used := get 2 (s.groupDesc g) 16
  { s with groupDesc := Function.update s.groupDesc g (put 2 (s.groupDesc g) 16 (used + 0xFFFF)) }

def freeInode (node : VfsInode) : ℤ × Ext2 :=
  let index := wsub node.ino 1
  let g := index / s.inodesPerGroup
  let bitmap := s.readBlock (s.inodeBitmap g)
  let k := index % s.inodesPerGroup
  if bit bitmap k = false then (-1, s)
  else
    let s := s.count g 14 (get 2 (s.groupDesc g) 14 + 1) 16 (s.freeInodesCount + 1)
    let s := if isDir node.mode then s.dirGone g else s
    let s := s.write (s.inodeBitmap g * s.sectors % word) s.sectors (clearBit bitmap k)
    (0, (s.bgdWrite g).superblockWrite)

/-- The byte address of an inode on the device. -/
def inodeAddr (ino : ℕ) : ℕ :=
  let g := wsub ino 1 / s.inodesPerGroup
  let localIndex := wsub ino 1 % s.inodesPerGroup
  wadd (s.inodeTable g * s.blocksize % word) (localIndex * s.inodeSize % word)

/-- What `ext2_write_inode` stores in the copy of the inode. -/
def stamp (node : VfsInode) : Bytes :=
  let inode := node.raw
  let inode := if isChr node.mode || isBlk node.mode then put 4 inode 40 node.rdev else inode
  let inode := put 2 inode 0 node.mode
  let inode := put 4 inode 4 node.size
  let inode := put 2 inode 2 node.uid
  let inode := put 2 inode 24 node.gid
  let inode := put 4 inode 8 node.atime
  let inode := put 4 inode 16 node.mtime
  let inode := put 4 inode 12 node.ctime
  let inode := put 4 inode 20 0
  put 2 inode 26 node.links

def writeInode (node : VfsInode) : VfsInode × Ext2 :=
  let addr := s.inodeAddr node.ino
  let inode := stamp node
  let sector := addr / sectorSize
  (node.setRaw inode, s.write sector 1 (copy s.inodeSize (s.read sector 1) (addr % sectorSize) inode 0))

/-! ## Blocks on the device -/

variable {s} {lba lba' n n' b c k : ℕ} {buff : Bytes}

theorem word_sectors : sectorSize ∣ word := ⟨2 ^ 23, by decide⟩

/-- A whole number of sectors. -/
theorem sector_dvd_blocksize : sectorSize ∣ s.blocksize := by
  have hdvd : sectorSize ∣ 1024 * 2 ^ get 4 s.es 24 := Dvd.dvd.mul_right ⟨2, by decide⟩ _
  exact (Nat.dvd_mod_iff word_sectors).mpr hdvd

theorem sectors_mul : s.sectors * sectorSize = s.blocksize := Nat.div_mul_cancel sector_dvd_blocksize

theorem blockSector_mul (b : ℕ) : s.blockSector b * sectorSize = b * s.blocksize % word := by
  apply Nat.div_mul_cancel
  exact (Nat.dvd_mod_iff word_sectors).mpr (Dvd.dvd.mul_left sector_dvd_blocksize b)

@[simp] theorem write_es : (s.write lba n buff).es = s.es := rfl
@[simp] theorem write_groupDesc : (s.write lba n buff).groupDesc = s.groupDesc := rfl
@[simp] theorem write_blocksize : (s.write lba n buff).blocksize = s.blocksize := rfl
@[simp] theorem write_sectors : (s.write lba n buff).sectors = s.sectors := rfl
@[simp] theorem write_blockSector : (s.write lba n buff).blockSector b = s.blockSector b := rfl

theorem read_of_lt (hk : k < n * sectorSize) : s.read lba n k = s.disk (lba * sectorSize + k) := by
  have hcopy : s.read lba n (0 + k) = s.disk (lba * sectorSize + k) := copy_add hk
  rwa [zero_add] at hcopy

theorem read_of_le (hk : n * sectorSize ≤ k) : s.read lba n k = 0 := copy_of_le (by rwa [zero_add])

theorem write_disk_of_lt (hk : k < n * sectorSize) :
    (s.write lba n buff).disk (lba * sectorSize + k) = buff k := by
  have hcopy : (s.write lba n buff).disk (lba * sectorSize + k) = buff (0 + k) := copy_add hk
  rwa [zero_add] at hcopy

theorem write_disk_of_apart (hk : k < lba * sectorSize ∨ (lba + n) * sectorSize ≤ k) :
    (s.write lba n buff).disk k = s.disk k := by
  rcases hk with hk | hk
  · exact copy_of_lt hk
  · exact copy_of_le (by rwa [← Nat.add_mul])

/-- What was written is read. -/
theorem read_write_self (hbuff : ∀ k, n * sectorSize ≤ k → buff k = 0) :
    (s.write lba n buff).read lba n = buff := by
  funext k
  by_cases hk : k < n * sectorSize
  · rw [read_of_lt hk, write_disk_of_lt hk]
  · rw [read_of_le (not_lt.mp hk), hbuff k (not_lt.mp hk)]

/-- Other sectors keep what they hold. -/
theorem read_write_apart (h : lba + n ≤ lba' ∨ lba' + n' ≤ lba) :
    (s.write lba n buff).read lba' n' = s.read lba' n' := by
  funext k
  by_cases hk : k < n' * sectorSize
  · rw [read_of_lt hk, read_of_lt hk, write_disk_of_apart]
    rcases h with h | h
    · have := Nat.mul_le_mul_right sectorSize h
      exact .inr (by omega)
    · have := Nat.mul_le_mul_right sectorSize h
      rw [Nat.add_mul] at this
      exact .inl (by omega)
  · rw [read_of_le (not_lt.mp hk), read_of_le (not_lt.mp hk)]

/-- A block size is a power of two. -/
theorem blocksize_eq_pow (hbs : 0 < s.blocksize) : s.blocksize = 2 ^ (s.logBlockSize + 10) := by
  have hpow : s.blocksize = 2 ^ (s.logBlockSize + 10) % 2 ^ 32 := by
    rw [pow_add, Nat.mul_comm]
    rfl
  rw [hpow] at hbs ⊢
  by_cases hlog : s.logBlockSize + 10 < 32
  · exact Nat.mod_eq_of_lt (Nat.pow_lt_pow_right (by omega) hlog)
  · have hzero := Nat.mod_eq_zero_of_dvd (pow_dvd_pow 2 (not_lt.mp hlog))
    omega

theorem blocksize_lt : s.blocksize < word := Nat.mod_lt _ (by simp [word])

theorem blocksize_dvd_word (hbs : 0 < s.blocksize) : s.blocksize ∣ word := by
  have hlt : s.blocksize < 2 ^ 32 := blocksize_lt
  rw [blocksize_eq_pow hbs] at hlt ⊢
  exact pow_dvd_pow 2 ((Nat.pow_lt_pow_iff_right (by decide)).mp hlt).le

theorem blocksize_dvd_address (hbs : 0 < s.blocksize) : s.blocksize ∣ b * s.blocksize % word :=
  (Nat.dvd_mod_iff (blocksize_dvd_word hbs)).mpr (Nat.dvd_mul_left ..)

/-- Blocks of different sectors do not overlap. -/
theorem blockSector_apart (hbs : 0 < s.blocksize) (h : s.blockSector b ≠ s.blockSector c) :
    s.blockSector b + s.sectors ≤ s.blockSector c ∨ s.blockSector c + s.sectors ≤ s.blockSector b := by
  have hdvd (b : ℕ) : s.sectors ∣ s.blockSector b :=
    Nat.div_dvd_div sector_dvd_blocksize (blocksize_dvd_address hbs)
  obtain ⟨x, hx⟩ := hdvd b
  obtain ⟨y, hy⟩ := hdvd c
  rw [hx, hy] at h ⊢
  rcases Nat.lt_or_gt_of_ne (fun hxy : x = y => h (by rw [hxy])) with hlt | hlt
  · exact .inl ((Nat.mul_succ ..).symm.le.trans (Nat.mul_le_mul_left _ hlt))
  · exact .inr ((Nat.mul_succ ..).symm.le.trans (Nat.mul_le_mul_left _ hlt))

end Ext2
end Ferrite.Fs
