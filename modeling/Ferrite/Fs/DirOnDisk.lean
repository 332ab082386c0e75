import Ferrite.Fs.NewInode

/-!
# A directory on the device

Where the inode and the blocks of a directory lie apart from the bookkeeping, from the other
inodes and from the free blocks, they are kept while an inode and a block are allocated and
other inodes are written. Then `ext2_write_entry` finds the directory that was there.
-/
namespace Ferrite.Fs
open Packed Word Records

namespace Ext2

/-- The sectors with the inode or with a block of a directory. -/
def DirSector (s : Ext2) (dir : VfsInode) (n x : ℕ) : Prop :=
  x = s.inodeAddr dir.ino / sectorSize ∨ ∃ i < n, ¬ Apart (s.blockSector (iBlock dir.raw i)) s.sectors x 1

/-- The directory on another state of the device is the same. -/
structure KeepsDir (s t : Ext2) (dir : VfsInode) (n : ℕ) : Prop where
  layout : SameLayout s t
  blocks : ∀ i < n, t.dirBlock dir.raw i = s.dirBlock dir.raw i
  record : ∀ k < 128, t.disk (s.inodeAddr dir.ino + k) = s.disk (s.inodeAddr dir.ino + k)

end Ext2

/-- A well-formed directory in use whose inode in memory is that on the device, apart from
everything else. -/
structure DirOnDisk (s : Ext2) (dir : VfsInode) (blocks : List (List DirEntry)) : Prop where
  holds : DirHolds s dir blocks
  directory : isDir dir.mode = true
  inode : 1 ≤ dir.ino ∧ dir.ino ≤ s.inodesCount ∧ s.inodeBit dir.ino = true
  record : 128 ≤ s.inodeSize ∧ s.inodeAddr dir.ino % sectorSize + 128 ≤ sectorSize
  stored : (s.readInode dir).mode = dir.mode ∧ (s.readInode dir).size = dir.size ∧
    ∀ i < 12, iBlock (s.readInode dir).raw i = iBlock dir.raw i
  books : ∀ x, s.DirSector dir blocks.length x → ¬ s.Books x
  inodes : ∀ ino, 1 ≤ ino → ino ≤ s.inodesCount →
    (∀ i < blocks.length, Apart (s.blockSector (iBlock dir.raw i)) s.sectors (s.inodeAddr ino / sectorSize) 1) ∧
      (ino ≠ dir.ino → s.inodeAddr dir.ino + 128 ≤ s.inodeAddr ino ∨ s.inodeAddr ino + s.inodeSize
        ≤ s.inodeAddr dir.ino)
  spare : ∀ b, s.InRange b → s.blockBit b = false → ∀ x, s.DirSector dir blocks.length x →
    Apart (b * s.sectors % word) s.sectors x 1

namespace Ext2

variable {s t u : Ext2} {dir dir' node : VfsInode} {blocks : List (List DirEntry)} {n i k p w o ino : ℕ}

/-! ## What is kept -/

theorem SameLayout.blockSector (hl : SameLayout s t) (b : ℕ) : t.blockSector b = s.blockSector b := by
  unfold Ext2.blockSector
  rw [hl.blocksize]

theorem SameLayout.dirBlock (hl : SameLayout s t) (inode : Bytes) (i : ℕ)
    (hdisk : ∀ p, ¬ Apart (s.blockSector (iBlock inode i)) s.sectors (p / sectorSize) 1 → t.disk p = s.disk p) :
    t.dirBlock inode i = s.dirBlock inode i := by
  have hsec : 0 < sectorSize := by decide
  unfold Ext2.dirBlock
  rw [hl.blockSector, hl.sectors]
  funext k
  by_cases hk : k < s.sectors * sectorSize
  · rw [read_of_lt hk, read_of_lt hk]
    apply hdisk
    have hdiv : (s.blockSector (iBlock inode i) * sectorSize + k) / sectorSize
        = s.blockSector (iBlock inode i) + k / sectorSize := by
      rw [Nat.mul_comm, Nat.mul_add_div hsec]
    have hlt : k / sectorSize < s.sectors := (Nat.div_lt_iff_lt_mul hsec).mpr hk
    rw [hdiv]
    generalize k / sectorSize = q at hlt
    unfold Apart
    omega
  · rw [read_of_le (not_lt.mp hk), read_of_le (not_lt.mp hk)]

theorem KeepsDir.refl (s : Ext2) (dir : VfsInode) (n : ℕ) : KeepsDir s s dir n :=
  ⟨SameLayout.refl s, fun _ _ => rfl, fun _ _ => rfl⟩

/-- What keeps the sectors keeps the directory. -/
theorem KeepsDir.of_sectors (hd : DirOnDisk s dir blocks) (hl : SameLayout s t)
    (hdisk : ∀ p, s.DirSector dir blocks.length (p / sectorSize) → t.disk p = s.disk p) :
    KeepsDir s t dir blocks.length where
  layout := hl
  blocks i hi := hl.dirBlock dir.raw i fun p hp => hdisk p (.inr ⟨i, hi, hp⟩)
  record k hk := by
    apply hdisk
    left
    have hrecord := hd.record.2
    unfold sectorSize at hrecord ⊢
    omega

/-- Writing an inode only changes its own bytes. -/
theorem writeInode_disk_apart (h : p < s.inodeAddr node.ino ∨ s.inodeAddr node.ino + s.inodeSize ≤ p) :
    (s.writeInode node).2.disk p = s.disk p := by
  by_cases hsec : p / sectorSize = s.inodeAddr node.ino / sectorSize
  · have hdm := Nat.div_add_mod' p sectorSize
    have hdm' := Nat.div_add_mod' (s.inodeAddr node.ino) sectorSize
    have hlt : p % sectorSize < sectorSize := Nat.mod_lt _ (by decide)
    have hlt' : p % sectorSize < 1 * sectorSize := by omega
    rw [hsec] at hdm
    have hp : p = s.inodeAddr node.ino / sectorSize * sectorSize + p % sectorSize := hdm.symm
    unfold writeInode
    dsimp only
    generalize s.inodeAddr node.ino = addr at *
    conv_lhs => rw [hp]
    rw [write_disk_of_lt hlt']
    have hcopy : copy s.inodeSize (s.read (addr / sectorSize) 1) (addr % sectorSize) (stamp node) 0
        (p % sectorSize)
        = s.read (addr / sectorSize) 1 (p % sectorSize) := by
      rcases h with h | h
      · exact copy_of_lt (by omega)
      · exact copy_of_le (by omega)
    rw [hcopy, read_of_lt hlt', ← hp]
  · exact writeInode_disk hsec

/-- The other inodes may be written. -/
theorem KeepsDir.writeInode (hd : DirOnDisk s dir blocks) (hk : KeepsDir s t dir blocks.length)
    (hino : 1 ≤ node.ino ∧ node.ino ≤ s.inodesCount) (hne : node.ino ≠ dir.ino) :
    KeepsDir s (t.writeInode node).2 dir blocks.length := by
  obtain ⟨hblocks, hinode⟩ := hd.inodes node.ino hino.1 hino.2
  have haddr := hk.layout.inodeAddr (p := node.ino)
  refine ⟨hk.layout.trans writeInode_layout, ?_, ?_⟩
  · intro i hi
    rw [← hk.blocks i hi]
    apply SameLayout.dirBlock writeInode_layout
    intro p hp
    apply writeInode_disk
    intro hsec
    rw [hk.layout.blockSector, hk.layout.sectors, hsec, haddr] at hp
    exact hp (hblocks i hi)
  · intro k hk'
    rw [← hk.record k hk']
    apply writeInode_disk_apart
    rw [haddr, hk.layout.inodeSize]
    have := hinode hne
    omega

/-! ## The inode that is read again -/

theorem readInode_get (h : s.inodeAddr dir.ino % sectorSize + 128 ≤ sectorSize) (ho : o + w ≤ 128) :
    get w (s.readInode dir).raw o = get w s.disk (s.inodeAddr dir.ino + o) := by
  apply get_shift
  intro k hk
  have hdm := Nat.div_add_mod' (s.inodeAddr dir.ino) sectorSize
  have hraw : (s.readInode dir).raw = copy 256 (fun _ => 0) 0 (s.read (s.inodeAddr dir.ino / sectorSize) 1)
      (s.inodeAddr dir.ino % sectorSize) := rfl
  have hcopy : (s.readInode dir).raw (0 + (o + k))
      = s.read (s.inodeAddr dir.ino / sectorSize) 1 (s.inodeAddr dir.ino % sectorSize + (o + k)) := by
    rw [hraw]
    exact copy_add (by omega)
  rw [Nat.zero_add] at hcopy
  rw [hcopy, read_of_lt (by omega)]
  congr 1
  omega

theorem readInode_size (dir : VfsInode) : (s.readInode dir).size = iSize (s.readInode dir).raw := rfl

/-- The inode is read as before. -/
theorem KeepsDir.readInode (hd : DirOnDisk s dir blocks) (hk : KeepsDir s t dir blocks.length) :
    (t.readInode dir).mode = dir.mode ∧ (t.readInode dir).size = dir.size ∧
      ∀ i < 12, iBlock (t.readInode dir).raw i = iBlock dir.raw i := by
  have haddr := hk.layout.inodeAddr (p := dir.ino)
  have hfield (w o : ℕ) (ho : o + w ≤ 128) : get w (t.readInode dir).raw o = get w (s.readInode dir).raw o := by
    rw [readInode_get (by rw [haddr]; exact hd.record.2) ho, readInode_get hd.record.2 ho, haddr]
    apply get_shift
    intro k hk'
    rw [Nat.add_assoc]
    exact hk.record (o + k) (by omega)
  obtain ⟨hmode, hsize, hblocks⟩ := hd.stored
  refine ⟨(hfield 2 0 (by omega)).trans hmode, (hfield 4 4 (by omega)).trans hsize, ?_⟩
  intro i hi
  rw [← hblocks i hi]
  exact hfield 4 (40 + 4 * i) (by omega)

/-! ## Allocating -/

/-- The new inode is another one. -/
theorem NewInode.ne_dir (hnew : NewInode s t ino) (hd : DirOnDisk s dir blocks) : ino ≠ dir.ino := by
  rintro rfl
  have hclear := hnew.clear
  rw [hd.inode.2.2] at hclear
  cases hclear

theorem NewInode.layout (hnew : NewInode s t ino) : SameLayout s t := by
  obtain ⟨v, w, ht, -⟩ := hnew.tallied
  exact ht.layout

theorem NewInode.keepsDir (hnew : NewInode s t ino) (hd : DirOnDisk s dir blocks) :
    KeepsDir s t dir blocks.length :=
  .of_sectors hd hnew.layout fun p hp => hnew.frame p (hd.books _ hp)

/-- No block is taken or freed. -/
theorem NewInode.blockBit {b : ℕ} (hnew : NewInode s t ino) (hs : s.Pools) (hb : s.InRange b) :
    t.blockBit b = s.blockBit b := by
  have hlt : b - s.firstDataBlock < s.blocksCount - s.firstDataBlock := by
    have := hb.1
    have := hb.2
    omega
  have hgroup : s.groupOf b < s.groups .blocks := (div_lt_groups (p := .blocks) (hs.perGroup .blocks).1 hlt).1
  have hmap : t.bitmap .blocks (s.groupOf b) = s.bitmap .blocks (s.groupOf b) :=
    hnew.flipped.others .blocks _ hgroup (by simp)
  have hbit (u : Ext2) : u.blockBit b = bit (u.bitmap .blocks (u.groupOf b)) (u.bitOf b) := rfl
  rw [hbit, hbit, hnew.layout.groupOf, hnew.layout.bitOf, hmap]

theorem NewInode.keepsDir_block (hnew : NewInode s t ino) (hd : DirOnDisk s dir blocks) (hs : s.Pools)
    (hblock : BlockTaken t u) : KeepsDir s u dir blocks.length := by
  obtain ⟨v, w, ht, -⟩ := hnew.tallied
  apply KeepsDir.of_sectors hd (hnew.layout.trans hblock.layout)
  intro p hp
  rw [hblock.frame p]
  · exact hnew.frame p (hd.books _ hp)
  · rw [ht.books]
    exact hd.books _ hp
  · intro b hb hclear
    have hb' := hnew.layout.inRange.mp hb
    rw [hnew.blockBit hs hb'] at hclear
    rw [hnew.layout.sectors]
    exact hd.spare b hb' hclear _ hp

end Ext2

variable {s t : Ext2} {dir dir' : VfsInode} {blocks : List (List DirEntry)}

/-- A directory depends on its size and its blocks. -/
theorem DirHolds.carry (h : DirHolds s dir blocks) (hbs : t.blocksize = s.blocksize)
    (hsize : dir'.size = dir.size)
    (hptr : ∀ i < blocks.length, iBlock dir'.raw i = iBlock dir.raw i)
    (hdata : ∀ i < blocks.length, t.dirBlock dir.raw i = s.dirBlock dir.raw i) : DirHolds t dir' blocks := by
  have hsector (b : ℕ) : t.blockSector b = s.blockSector b := by
    unfold Ext2.blockSector
    rw [hbs]
  refine ⟨h.count, ?_, ?_, ?_, ?_, h.names, h.terminated⟩
  · rw [hsize, hbs]
    exact h.size
  · intro i hi
    rw [hptr i hi]
    exact h.allocated i hi
  · intro i hi j hj heq
    rw [hptr i hi, hptr j hj, hsector, hsector] at heq
    exact h.apart i hi j hj heq
  · intro i rs hi
    have hlt := (List.getElem?_eq_some_iff.mp hi).1
    have hblock : t.dirBlock dir'.raw i = s.dirBlock dir.raw i := by
      rw [← hdata i hlt]
      unfold Ext2.dirBlock
      rw [hptr i hlt]
    rw [hblock, hbs]
    exact h.chains i rs hi

/-- The directory as it is read again. -/
theorem DirOnDisk.reread (hd : DirOnDisk s dir blocks) (hk : Ext2.KeepsDir s t dir blocks.length) :
    DirHolds t (t.readInode dir) blocks := by
  obtain ⟨-, hsize, hptr⟩ := hk.readInode hd
  have hcount := hd.holds.count.2
  exact hd.holds.carry hk.layout.blocksize hsize (fun i hi => hptr i (by omega)) hk.blocks

end Ferrite.Fs
