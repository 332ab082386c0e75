import Ferrite.Fs.Ext2
import Ferrite.Library.Records

/-!
# Directories

A block of a directory is a chain of records, and `ext2_delete_entry` hides the first
record of a name behind the record before it. A record that is not in use has the inode
number zero and still has a name.
-/
namespace Ferrite.Fs
open Packed Word Records

/-- `ext2_entry_t`; the length of the name is `name_len`. -/
structure DirEntry where
  inode : ℕ
  recLen : ℕ
  name : List Byte
deriving DecidableEq

/-- The record at an offset. -/
def entryAt (b : Bytes) (o : ℕ) : DirEntry :=
  { inode := get 4 b o
    recLen := get 2 b (o + 4)
    name := (List.range (get 1 b (o + 6))).map fun k => b (o + 8 + k) }

/-- `strncmp` of two names of one length is zero; a NUL ends both. -/
def strncmpEq : List Byte → List Byte → Bool
  | a :: l, b :: r => a == b && (a == 0 || strncmpEq l r)
  | _, _ => true

/-- The test of `ext2_delete_entry` on a record. -/
def sameName (name : List Byte) (e : DirEntry) : Bool :=
  name.length == e.name.length && strncmpEq name e.name

/-- The offsets of the record before the first one of that name, and of that one. The buffer
is left after `bs` rounds at the latest, or never. -/
def deleteLoop (b : Bytes) (bs : ℕ) (name : List Byte) : ℕ → ℕ → ℕ → Option (Option (ℕ × ℕ))
  | 0, _, _ => none
  | fuel + 1, offset, prev =>
      if offset < bs then
        if sameName name (entryAt b offset) then some (some (prev, offset))
        else deleteLoop b bs name fuel (wadd offset (entryAt b offset).recLen) offset
      else some none

namespace Ext2
variable (s : Ext2)

/-- Block `i` of a directory or a file as it is read into the buffer. -/
def dirBlock (inode : Bytes) (i : ℕ) : Bytes := s.read (s.blockSector (iBlock inode i)) s.sectors

/-- The loop over the blocks from `i` on. -/
def deleteFrom (inode : Bytes) (name : List Byte) : ℕ → ℕ → Option (ℤ × Ext2)
  | 0, _ => some (-1, s)
  | n + 1, i =>
      if iBlock inode i = 0 then some (-1, s)
      else
        let buff := s.dirBlock inode i
        (deleteLoop buff s.blocksize name (s.blocksize + 1) 0 0).bind fun found =>
          match found with
          | none => deleteFrom inode name n (i + 1)
          | some (prev, offset) =>
              let recLen := (entryAt buff prev).recLen + (entryAt buff offset).recLen
              some (0, s.write (s.blockSector (iBlock inode i)) s.sectors (put 2 buff (prev + 4) recLen))

/-- `ext2_delete_entry`; of the entry it gets, only the name counts. -/
def deleteEntry (dir : VfsInode) (name : List Byte) : Option (ℤ × Ext2) :=
  s.deleteFrom dir.raw name (min (ceilDiv dir.size s.blocksize) 12) 0

end Ext2

/-! ## Well-formed directories -/

/-- A record has room for its name. -/
def DirEntry.Fits (r : DirEntry) : Prop := 8 + r.name.length ≤ r.recLen

instance : DecidablePred DirEntry.Fits := fun r => inferInstanceAs (Decidable (_ ≤ _))

/-- The names and inodes of the records in use. -/
def live (rs : List DirEntry) : List (List Byte × ℕ) :=
  (rs.filter (·.inode ≠ 0)).map fun r => (r.name, r.inode)

/-- From an offset on, the records of a block end with the block. -/
abbrev BlockHolds (b : Bytes) (bs o : ℕ) (rs : List DirEntry) : Prop :=
  Chain (entryAt b) DirEntry.recLen DirEntry.Fits bs o rs

/-- A well-formed directory with these records in its blocks. -/
structure DirHolds (s : Ext2) (dir : VfsInode) (blocks : List (List DirEntry)) : Prop where
  count : 1 ≤ blocks.length ∧ blocks.length ≤ 12
  size : dir.size = blocks.length * s.blocksize ∧ dir.size < word
  allocated : ∀ i < blocks.length, iBlock dir.raw i ≠ 0
  apart : ∀ i < blocks.length, ∀ j < blocks.length,
    s.blockSector (iBlock dir.raw i) = s.blockSector (iBlock dir.raw j) → i = j
  chains : ∀ i rs, blocks[i]? = some rs → BlockHolds (s.dirBlock dir.raw i) s.blocksize 0 rs
  names : ((live blocks.flatten).map Prod.fst).Nodup
  terminated : ∀ e ∈ live blocks.flatten, 0 ∉ e.1

/-- Blocks of a directory that hold chains of such records. -/
structure DirChains (ok : DirEntry → Prop) (s : Ext2) (dir : VfsInode)
    (blocks : List (List DirEntry)) : Prop where
  size : dir.size = blocks.length * s.blocksize ∧ dir.size < word
  apart : ∀ i < blocks.length, ∀ j < blocks.length,
    s.blockSector (iBlock dir.raw i) = s.blockSector (iBlock dir.raw j) → i = j
  chains : ∀ i rs, blocks[i]? = some rs →
    Chain (entryAt (s.dirBlock dir.raw i)) DirEntry.recLen ok s.blocksize 0 rs

theorem DirHolds.dirChains {s : Ext2} {dir : VfsInode} {blocks : List (List DirEntry)}
    (h : DirHolds s dir blocks) :
    DirChains DirEntry.Fits s dir blocks := ⟨h.size, h.apart, h.chains⟩

theorem fits_pos (r : DirEntry) (h : r.Fits) : 0 < r.recLen := by
  unfold DirEntry.Fits at h
  omega

theorem length_le_of_chain {b : Bytes} {bs o : ℕ} {rs : List DirEntry} (hchain : BlockHolds b bs o rs) :
    o + rs.length ≤ bs :=
  Chain.length_le fits_pos hchain

end Ferrite.Fs
