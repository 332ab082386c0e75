import Ferrite.Fs.Ext2

/-!
# The block bitmaps

`ext2_free_block` clears one bit in the bitmap of the group of a block and changes the
counters. Where the bitmaps lie apart and behind the group descriptors, nothing else on
the device changes.
-/
namespace Ferrite.Fs
open Packed Word

/-- Two ranges of sectors that do not meet. -/
def Apart (a n c m : ℕ) : Prop := a + n ≤ c ∨ c + m ≤ a

namespace Ext2
variable (s : Ext2)

def blocksCount : ℕ := get 4 s.es 4

/-- The group of a block, and the number of its bit there. -/
def groupOf (b : ℕ) : ℕ := (b - s.firstDataBlock) / s.blocksPerGroup
def bitOf (b : ℕ) : ℕ := (b - s.firstDataBlock) % s.blocksPerGroup

/-- A number of a block of the file system. -/
def InRange (b : ℕ) : Prop := s.firstDataBlock ≤ b ∧ b < s.blocksCount

/-- The first sector of the bitmap of a group. -/
def bitmapSector (g : ℕ) : ℕ := s.blockBitmap g * s.sectors % word

/-- The bit of a block on the device. -/
def blockBit (b : ℕ) : Bool := bit (s.readBlock (s.blockBitmap (s.groupOf b))) (s.bitOf b)

/-- The groups that hold blocks of the file system. -/
def IsGroup (g : ℕ) : Prop := ∃ b, s.InRange b ∧ s.groupOf b = g

/-- Each bitmap has a bit for each block, lies behind the superblock and the group
descriptors and apart from the other bitmaps. -/
structure Bitmaps : Prop where
  blocksize : 0 < s.blocksize
  perGroup : 0 < s.blocksPerGroup ∧ s.blocksPerGroup ≤ 8 * s.blocksize
  behind : ∀ g h, s.IsGroup g → s.IsGroup h → 4 + h / 16 < s.bitmapSector g
  apart : ∀ g h, s.IsGroup g → s.IsGroup h → g ≠ h →
    Apart (s.bitmapSector g) s.sectors (s.bitmapSector h) s.sectors

/-- A sector that freeing a block may write. -/
def FreeWrites (x : ℕ) : Prop :=
  (2 ≤ x ∧ x < 4) ∨ ∃ g, s.IsGroup g ∧ (x = 4 + g / 16 ∨ ¬ Apart (s.bitmapSector g) s.sectors x 1)

/-- What locates blocks and inodes is the same. -/
structure SameLayout (s s' : Ext2) : Prop where
  blocksize : s'.blocksize = s.blocksize
  blocksCount : s'.blocksCount = s.blocksCount
  firstDataBlock : s'.firstDataBlock = s.firstDataBlock
  blocksPerGroup : s'.blocksPerGroup = s.blocksPerGroup
  inodesPerGroup : s'.inodesPerGroup = s.inodesPerGroup
  inodeSize : s'.inodeSize = s.inodeSize
  blockBitmap : ∀ g, s'.blockBitmap g = s.blockBitmap g
  inodeBitmap : ∀ g, s'.inodeBitmap g = s.inodeBitmap g
  inodeTable : ∀ g, s'.inodeTable g = s.inodeTable g

/-- The bits of these blocks are cleared, and nothing else changes outside of the sectors
that say so. -/
structure Freed (s s' : Ext2) (blocks : ℕ → Prop) : Prop where
  layout : SameLayout s s'
  bits : ∀ b, s.InRange b → (s'.blockBit b = true ↔ s.blockBit b = true ∧ ¬ blocks b)
  frame : ∀ p, ¬ s.FreeWrites (p / sectorSize) → s'.disk p = s.disk p

variable {s} {s' s'' : Ext2} {b c g lba n p : ℕ} {buff : Bytes} {A B : ℕ → Prop}

/-! ## The layout -/

theorem SameLayout.refl (s : Ext2) : SameLayout s s :=
  ⟨rfl, rfl, rfl, rfl, rfl, rfl, fun _ => rfl, fun _ => rfl, fun _ => rfl⟩

theorem SameLayout.trans (h : SameLayout s s') (h' : SameLayout s' s'') : SameLayout s s'' where
  blocksize := h'.blocksize.trans h.blocksize
  blocksCount := h'.blocksCount.trans h.blocksCount
  firstDataBlock := h'.firstDataBlock.trans h.firstDataBlock
  blocksPerGroup := h'.blocksPerGroup.trans h.blocksPerGroup
  inodesPerGroup := h'.inodesPerGroup.trans h.inodesPerGroup
  inodeSize := h'.inodeSize.trans h.inodeSize
  blockBitmap g := (h'.blockBitmap g).trans (h.blockBitmap g)
  inodeBitmap g := (h'.inodeBitmap g).trans (h.inodeBitmap g)
  inodeTable g := (h'.inodeTable g).trans (h.inodeTable g)

theorem SameLayout.write : SameLayout s (s.write lba n buff) :=
  ⟨rfl, rfl, rfl, rfl, rfl, rfl, fun _ => rfl, fun _ => rfl, fun _ => rfl⟩

/-- The counters of free blocks, of free inodes and of directories locate nothing. -/
theorem SameLayout.count {field value total sum : ℕ} (hfield : 12 ≤ field)
    (htotal : 12 ≤ total ∧ total + 4 ≤ 20) : SameLayout s (s.count g field value total sum) := by
  have hes (w o : ℕ) (ho : o + w ≤ 12 ∨ 20 ≤ o) :
      get w (s.count g field value total sum).es o = get w s.es o :=
    get_put_of_disjoint (by omega)
  have hgroup (w o i : ℕ) (ho : o + w ≤ 12) :
      get w ((s.count g field value total sum).groupDesc i) o = get w (s.groupDesc i) o := by
    by_cases hi : i = g
    · subst hi
      rw [Ext2.count]
      dsimp only
      rw [Function.update_self]
      exact get_put_of_disjoint (by omega)
    · rw [Ext2.count]
      dsimp only
      rw [Function.update_of_ne hi]
  have hlog := hes 4 24 (by omega)
  refine ⟨?_, hes 4 4 (by omega), hes 4 20 (by omega), hes 4 32 (by omega), hes 4 40 (by omega),
    hes 2 88 (by omega), fun i => hgroup 4 0 i (by omega), fun i => hgroup 4 4 i (by omega),
    fun i => hgroup 4 8 i (by omega)⟩
  unfold Ext2.blocksize
  rw [hlog]

theorem SameLayout.sectors (h : SameLayout s s') : s'.sectors = s.sectors := by
  unfold Ext2.sectors
  rw [h.blocksize]

theorem SameLayout.inRange (h : SameLayout s s') : s'.InRange b ↔ s.InRange b := by
  unfold InRange
  rw [h.firstDataBlock, h.blocksCount]

theorem SameLayout.groupOf (h : SameLayout s s') : s'.groupOf b = s.groupOf b := by
  unfold Ext2.groupOf
  rw [h.firstDataBlock, h.blocksPerGroup]

theorem SameLayout.bitOf (h : SameLayout s s') : s'.bitOf b = s.bitOf b := by
  unfold Ext2.bitOf
  rw [h.firstDataBlock, h.blocksPerGroup]

theorem SameLayout.isGroup (h : SameLayout s s') : s'.IsGroup g ↔ s.IsGroup g := by
  unfold IsGroup
  simp only [h.inRange, h.groupOf]

theorem SameLayout.bitmapSector (h : SameLayout s s') : s'.bitmapSector g = s.bitmapSector g := by
  unfold Ext2.bitmapSector
  rw [h.blockBitmap, h.sectors]

theorem SameLayout.freeWrites (h : SameLayout s s') : s'.FreeWrites p ↔ s.FreeWrites p := by
  unfold FreeWrites
  simp only [h.isGroup, h.bitmapSector, h.sectors]

theorem SameLayout.inodeAddr (h : SameLayout s s') : s'.inodeAddr p = s.inodeAddr p := by
  unfold Ext2.inodeAddr
  dsimp only
  rw [h.inodesPerGroup, h.inodeTable, h.blocksize, h.inodeSize]

theorem SameLayout.bitmaps (h : SameLayout s s') (hs : s.Bitmaps) : s'.Bitmaps where
  blocksize := h.blocksize ▸ hs.blocksize
  perGroup := by
    rw [h.blocksPerGroup, h.blocksize]
    exact hs.perGroup
  behind g i hg hi := by
    rw [h.bitmapSector]
    exact hs.behind g i (h.isGroup.mp hg) (h.isGroup.mp hi)
  apart g i hg hi hne := by
    rw [h.bitmapSector, h.bitmapSector, h.sectors]
    exact hs.apart g i (h.isGroup.mp hg) (h.isGroup.mp hi) hne

/-! ## Bits -/

theorem Freed.refl (s : Ext2) : Freed s s fun _ => False :=
  ⟨SameLayout.refl s, fun _ _ => by simp, fun _ _ => rfl⟩

theorem Freed.trans (h : Freed s s' A) (h' : Freed s' s'' B) : Freed s s'' fun b => A b ∨ B b where
  layout := h.layout.trans h'.layout
  bits b hb := by
    rw [h'.bits b (h.layout.inRange.mpr hb), h.bits b hb]
    tauto
  frame p hp := (h'.frame p fun h' => hp (h.layout.freeWrites.mp h')).trans (h.frame p hp)

theorem Freed.congr (h : Freed s s' A) (hAB : ∀ b, A b ↔ B b) : Freed s s' B where
  layout := h.layout
  bits b hb := by rw [h.bits b hb, hAB]
  frame := h.frame

/-- Where a write is, by sectors. -/
theorem write_disk_of_sector (h : Apart lba n (p / sectorSize) 1) :
    (s.write lba n buff).disk p = s.disk p := by
  apply write_disk_of_apart
  have hsec : 0 < sectorSize := by decide
  rcases h with h | h
  · exact .inr ((Nat.le_div_iff_mul_le hsec).mp h)
  · exact .inl ((Nat.div_lt_iff_lt_mul hsec).mp h)

theorem readBlock_write_apart (h : Apart lba n (b * s.sectors % word) s.sectors) :
    (s.write lba n buff).readBlock b = s.readBlock b := read_write_apart h

theorem readBlock_of_le {k : ℕ} (hk : s.blocksize ≤ k) : s.readBlock b k = 0 :=
  read_of_le (by rwa [sectors_mul])

/-- The group descriptor and the superblock are written back in front of the bitmaps. -/
theorem tail_disk (hp : ¬ (2 ≤ p / sectorSize ∧ p / sectorSize < 4)) (hg : p / sectorSize ≠ 4 + g / 16) :
    (s.bgdWrite g).superblockWrite.disk p = s.disk p := by
  unfold superblockWrite bgdWrite
  rw [write_disk_of_sector (by unfold Apart; omega)]
  exact write_disk_of_sector (by unfold Apart; omega)

theorem tail_readBlock (h : 4 + g / 16 < b * s.sectors % word) :
    (s.bgdWrite g).superblockWrite.readBlock b = s.readBlock b := by
  unfold superblockWrite bgdWrite
  rw [readBlock_write_apart (.inl (by rw [write_sectors]; omega)),
    readBlock_write_apart (.inl (by omega))]

theorem tail_layout : SameLayout s (s.bgdWrite g).superblockWrite :=
  SameLayout.write.trans SameLayout.write

theorem InRange.index (hb : s.InRange b) : wsub b s.firstDataBlock = b - s.firstDataBlock :=
  wsub_of_le hb.1 (hb.2.trans (get_lt 4 s.es 4))

theorem InRange.isGroup (hb : s.InRange b) : s.IsGroup (s.groupOf b) := ⟨b, hb, rfl⟩

/-- A block is its group and its bit. -/
theorem InRange.eq_of (hb : s.InRange b) (hc : s.InRange c) (hg : s.groupOf b = s.groupOf c)
    (hk : s.bitOf b = s.bitOf c) : b = c := by
  have hdb := Nat.div_add_mod (b - s.firstDataBlock) s.blocksPerGroup
  have hdc := Nat.div_add_mod (c - s.firstDataBlock) s.blocksPerGroup
  unfold Ext2.groupOf at hg
  unfold Ext2.bitOf at hk
  rw [hg, hk] at hdb
  have := hb.1
  have := hc.1
  omega

theorem clearBit_of_le {k : ℕ} (hb : s.Bitmaps) (hk : s.blocksize ≤ k) :
    clearBit (s.readBlock b) (s.bitOf c) k = 0 := by
  have hbit : s.bitOf c < s.blocksPerGroup := Nat.mod_lt _ hb.perGroup.1
  have hper := hb.perGroup.2
  unfold clearBit
  rw [Function.update_of_ne (by omega), readBlock_of_le hk]

/-- The bitmap of the group of a block with the bit of the block cleared. -/
def withoutBit (s : Ext2) (b : ℕ) : Bytes := clearBit (s.readBlock (s.blockBitmap (s.groupOf b))) (s.bitOf b)

/-- The device with that bitmap and the counters. -/
def cleared (s : Ext2) (b : ℕ) : Ext2 :=
  (s.count (s.groupOf b) 12 (get 2 (s.groupDesc (s.groupOf b)) 12 + 1) 12 (s.freeBlocksCount + 1)).write
    (s.bitmapSector (s.groupOf b)) s.sectors (s.withoutBit b)

theorem cleared_layout : SameLayout s (s.cleared b) :=
  (SameLayout.count (by omega) (by omega)).trans .write

theorem freeBlock_eq (hb : s.InRange b) (hbit : s.blockBit b = true) :
    s.freeBlock b = (0, ((s.cleared b).bgdWrite (s.groupOf b)).superblockWrite) := by
  have hcount : SameLayout s (s.count (s.groupOf b) 12 (get 2 (s.groupDesc (s.groupOf b)) 12 + 1) 12
      (s.freeBlocksCount + 1)) := .count (by omega) (by omega)
  have hmap := hcount.bitmapSector (g := s.groupOf b)
  have hsec := hcount.sectors
  unfold blockBit at hbit
  unfold freeBlock cleared
  rw [hb.index]
  dsimp only
  change (if bit (s.readBlock (s.blockBitmap (s.groupOf b))) (s.bitOf b) = false then _ else _) = _
  rw [hbit, if_neg (by simp), ← hmap, ← hsec]
  rfl

theorem cleared_disk (h : Apart (s.bitmapSector (s.groupOf b)) s.sectors (p / sectorSize) 1) :
    (s.cleared b).disk p = s.disk p :=
  write_disk_of_sector (s := s.count ..) h

theorem cleared_readBlock_self (hs : s.Bitmaps) :
    (s.cleared b).readBlock (s.blockBitmap (s.groupOf b)) = s.withoutBit b := by
  have hsec := (cleared_layout (s := s) (b := b)).sectors
  unfold readBlock
  rw [hsec]
  apply read_write_self
  intro k hk
  rw [sectors_mul] at hk
  exact clearBit_of_le hs hk

theorem cleared_readBlock_other (h : Apart (s.bitmapSector (s.groupOf b)) s.sectors (c * s.sectors % word)
    s.sectors) : (s.cleared b).readBlock c = s.readBlock c := by
  have hsec := (cleared_layout (s := s) (b := b)).sectors
  unfold readBlock
  rw [hsec]
  exact read_write_apart (s := s.count ..) h

/-- Freeing a block in use clears its bit. -/
theorem freeBlock_spec (hs : s.Bitmaps) (hb : s.InRange b) (hbit : s.blockBit b = true) :
    (s.freeBlock b).1 = 0 ∧ Freed s (s.freeBlock b).2 fun c => c = b := by
  rw [freeBlock_eq hb hbit]
  have hlayout : SameLayout s ((s.cleared b).bgdWrite (s.groupOf b)).superblockWrite :=
    cleared_layout.trans tail_layout
  refine ⟨rfl, hlayout, ?_, ?_⟩
  · intro c hc
    have hbehind := hs.behind (s.groupOf c) (s.groupOf b) hc.isGroup hb.isGroup
    unfold blockBit
    rw [hlayout.groupOf, hlayout.bitOf, hlayout.blockBitmap,
      tail_readBlock (by rw [cleared_layout.sectors]; exact hbehind)]
    by_cases hg : s.groupOf c = s.groupOf b
    · rw [hg, cleared_readBlock_self hs, withoutBit, bit_clearBit]
      by_cases hk : s.bitOf c = s.bitOf b
      · cases hc.eq_of hb hg hk
        simp
      · rw [Function.update_of_ne hk]
        have hne : c ≠ b := fun h => hk (by rw [h])
        simp [hne]
    · have hne : c ≠ b := fun h => hg (by rw [h])
      rw [cleared_readBlock_other (hs.apart _ _ hb.isGroup hc.isGroup (Ne.symm hg))]
      simp [hne]
  · intro p hp
    unfold FreeWrites at hp
    push Not at hp
    have hgroup := hp.2 _ hb.isGroup
    rw [tail_disk (by have := hp.1; omega) hgroup.1, cleared_disk hgroup.2]

end Ext2
end Ferrite.Fs
