import Ferrite.Fs.Ext2Blocks

/-!
# Writing an inode back

`ext2_write_inode` stores the fields of the inode in its copy and writes the copy into one
sector of the inode table. The deletion time is always zero there.
-/
namespace Ferrite.Fs
open Packed Word

namespace Ext2
variable {s : Ext2} {node : VfsInode} {inode : Bytes} {n m p w o : ℕ}

/-! ## The copy of the inode -/

@[simp] theorem raw_setRaw : (node.setRaw inode).raw = inode := rfl

theorem not_device (h : isReg node.mode = true) : (isChr node.mode || isBlk node.mode) = false := by
  unfold isReg at h
  unfold isChr isBlk
  rw [of_decide_eq_true h]
  decide

/-- The stores of `ext2_write_inode` end before the number of blocks. -/
theorem get_stamp (h : (isChr node.mode || isBlk node.mode) = false) (ho : 28 ≤ o) :
    get w (stamp node) o = get w node.raw o := by
  unfold stamp
  dsimp only
  rw [h, if_neg Bool.false_ne_true]
  iterate 9 rw [get_put_of_disjoint (by omega)]

theorem iSize_stamp (node : VfsInode) : iSize (stamp node) = node.size % 2 ^ 32 := by
  unfold stamp iSize
  dsimp only
  iterate 7 rw [get_put_of_disjoint (by omega)]
  exact get_put ..

/-! ## What changes on the device -/

theorem Apart.symm {a c : ℕ} (h : Apart a n c m) : Apart c m a n := Or.symm h

theorem writeInode_disk (h : p / sectorSize ≠ s.inodeAddr node.ino / sectorSize) :
    (s.writeInode node).2.disk p = s.disk p := by
  have hapart : Apart (s.inodeAddr node.ino / sectorSize) 1 (p / sectorSize) 1 := by
    unfold Apart
    omega
  unfold writeInode
  dsimp only
  exact write_disk_of_sector hapart

theorem writeInode_layout : SameLayout s (s.writeInode node).2 := by
  unfold writeInode
  exact SameLayout.write

theorem writeInode_blockBit {b : ℕ} (hb : s.InRange b)
    (h : ∀ g, s.IsGroup g → Apart (s.bitmapSector g) s.sectors (s.inodeAddr node.ino / sectorSize) 1) :
    (s.writeInode node).2.blockBit b = s.blockBit b := by
  have hread : (s.writeInode node).2.readBlock (s.blockBitmap (s.groupOf b))
      = s.readBlock (s.blockBitmap (s.groupOf b)) := by
    unfold writeInode
    dsimp only
    exact readBlock_write_apart (Apart.symm (h _ hb.isGroup))
  unfold blockBit
  rw [writeInode_layout.groupOf, writeInode_layout.bitOf, writeInode_layout.blockBitmap, hread]

end Ext2
end Ferrite.Fs
