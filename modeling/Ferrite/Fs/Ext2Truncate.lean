import Ferrite.Fs.Ext2Inode
import Ferrite.Fs.Ext2Read

/-!
# Changing the size of a file

`ext2_truncate` frees the blocks behind a smaller size up to the first one that is not
allocated, and a larger size only is stored. `sys_truncate` and `sys_ftruncate` pass on
every length.
-/
namespace Ferrite.Fs
open Packed Word

def iBlocks (inode : Bytes) : ℕ := get 4 inode 28

/-- From `i` on, the first of `n` direct blocks that is not allocated. -/
def allocatedUpTo (inode : Bytes) : ℕ → ℕ → ℕ
  | 0, i => i
  | n + 1, i => if iBlock inode i = 0 then i else allocatedUpTo inode n (i + 1)

/-- The new size and the times in both copies of the inode. -/
def resized (node : VfsInode) (len : ℤ) (now : ℕ) : VfsInode :=
  { node with size := ofS32 len, mtime := now, ctime := now }.setRaw
    (put 4 (put 4 (put 4 node.raw 4 (ofS32 len)) 16 now) 12 now)

namespace Ext2
variable (s : Ext2)

/-- The loop that frees, from block `i` on. -/
def freeTail : Ext2 → Bytes → ℕ → ℕ → Bytes × Ext2
  | s, inode, 0, _ => (inode, s)
  | s, inode, n + 1, i =>
      if iBlock inode i = 0 then (inode, s)
      else freeTail (s.freeBlock (iBlock inode i)).2 (put 4 inode (40 + 4 * i) 0) n (i + 1)

def truncate (node : VfsInode) (len : ℤ) (now : ℕ) : ℤ × VfsInode × Ext2 :=
  if !isReg node.mode then (-einval, node, s)
  else if toS32 node.size < len then (0, s.writeInode (resized node len now))
  else
    let blocksNeeded := ceilDiv (ofS32 len) s.blocksize
    let tail := s.freeTail node.raw (12 - blocksNeeded) blocksNeeded
    let node := resized (node.setRaw tail.1) len now
    let blocks := allocatedUpTo node.raw 12 0 * s.blocksize % word / 512
    (0, tail.2.writeInode (node.setRaw (put 4 node.raw 28 blocks)))

/-! ## What the call is for -/

/-- The number of direct blocks that are allocated. -/
def allocated (inode : Bytes) : ℕ := Nat.count (fun i => iBlock inode i ≠ 0) 12

/-- A file with the new size: its bytes are the old ones, or zero behind them; the blocks
behind the size are free, and `i_blocks` counts the others. -/
structure Truncated (s : Ext2) (node : VfsInode) (len : ℤ) (node' : VfsInode) (s' : Ext2) : Prop where
  nonneg : 0 ≤ len
  size : (node'.size : ℤ) = len ∧ iSize node'.raw = node'.size
  contents : ∀ p : ℕ, (p : ℤ) < len → p < 12 * s.blocksize →
    s'.fileByte node'.raw p = if p < node.size then s.fileByte node.raw p else 0
  pointers : ∀ i < 12, ceilDiv len.toNat s.blocksize ≤ i → iBlock node'.raw i = 0
  freed : ∀ b, s.InRange b → (s'.blockBit b = true ↔ s.blockBit b = true ∧
    ¬ ∃ i < 12, ceilDiv len.toNat s.blocksize ≤ i ∧ iBlock node.raw i ≠ 0 ∧ iBlock node.raw i = b)
  blocks : iBlocks node'.raw = allocated node'.raw * (s.blocksize / 512)

/-- A regular file on a device where its blocks are its own: in use, different, and apart
from the bitmaps and from its inode. -/
structure FileHolds (s : Ext2) (node : VfsInode) : Prop where
  bitmaps : s.Bitmaps
  blocksize : s.blocksize ≤ 2 ^ 16
  regular : isReg node.mode = true
  size : iSize node.raw = node.size
  used : ∀ i < 12, iBlock node.raw i ≠ 0 →
    s.InRange (iBlock node.raw i) ∧ s.blockBit (iBlock node.raw i) = true
  distinct : ∀ i < 12, ∀ j < 12, iBlock node.raw i ≠ 0 → iBlock node.raw i = iBlock node.raw j → i = j
  data : ∀ i < 12, iBlock node.raw i ≠ 0 → ∀ x, iBlock node.raw i * s.sectors ≤ x →
    x < iBlock node.raw i * s.sectors + s.sectors →
    ¬ s.FreeWrites x ∧ x ≠ s.inodeAddr node.ino / sectorSize
  inode : ∀ g, s.IsGroup g → Apart (s.bitmapSector g) s.sectors (s.inodeAddr node.ino / sectorSize) 1

/-- Of the blocks from `a` to `b`, no one is allocated behind one that is not. -/
def NoGap (inode : Bytes) (a b : ℕ) : Prop :=
  ∀ i j, a ≤ i → i < j → j < b → iBlock inode i = 0 → iBlock inode j = 0

/-- When the call does that. -/
def TruncatesRight (s : Ext2) (node : VfsInode) (len : ℤ) : Prop :=
  let needed := ceilDiv len.toNat s.blocksize
  0 ≤ len ∧
    if toS32 node.size < len then
      (∀ p : ℕ, node.size ≤ p → (p : ℤ) < len → p < 12 * s.blocksize → s.fileByte node.raw p = 0) ∧
        (∀ i < 12, needed ≤ i → iBlock node.raw i = 0) ∧
        iBlocks node.raw = allocated node.raw * (s.blocksize / 512)
    else NoGap node.raw needed 12 ∧ NoGap node.raw 0 (min needed 12)

variable {s} {s' : Ext2} {node : VfsInode} {inode : Bytes} {len : ℤ} {now n i j m p v w o : ℕ}

/-! ## Fields of the inode -/

theorem iBlock_put : iBlock (put 4 inode (40 + 4 * i) 0) j = if j = i then 0 else iBlock inode j := by
  unfold iBlock
  split_ifs with h
  · rw [h, get_put_of_lt (by decide)]
  · exact get_put_of_disjoint (by omega)

theorem get_resized (ho : 20 ≤ o) : get w (resized node len now).raw o = get w node.raw o := by
  unfold resized VfsInode.setRaw VfsInode.raw
  dsimp only
  iterate 3 rw [get_put_of_disjoint (by omega)]

theorem ofS32_lt (x : ℤ) : ofS32 x < 2 ^ 32 := by
  unfold ofS32 word
  omega

theorem ofS32_of_nonneg {x : ℤ} (h : 0 ≤ x) (hx : x < 2 ^ 31) : ofS32 x = x.toNat := by
  unfold ofS32 word
  omega

/-! ## The loops over the blocks -/

theorem le_allocatedUpTo (inode : Bytes) (n i : ℕ) :
    i ≤ allocatedUpTo inode n i ∧ allocatedUpTo inode n i ≤ i + n := by
  induction n generalizing i with
  | zero => exact ⟨le_rfl, le_rfl⟩
  | succ n ih =>
      rw [allocatedUpTo]
      split_ifs with h
      · omega
      · have := ih (i + 1)
        omega

theorem allocatedUpTo_below (hij : i ≤ j) (hj : j < allocatedUpTo inode n i) : iBlock inode j ≠ 0 := by
  induction n generalizing i with
  | zero =>
      rw [allocatedUpTo] at hj
      omega
  | succ n ih =>
      rw [allocatedUpTo] at hj
      split_ifs at hj with h
      · omega
      · rcases Nat.eq_or_lt_of_le hij with rfl | hlt
        · exact h
        · exact ih hlt hj

theorem allocatedUpTo_at (h : allocatedUpTo inode n i < i + n) :
    iBlock inode (allocatedUpTo inode n i) = 0 := by
  induction n generalizing i with
  | zero =>
      rw [allocatedUpTo] at h
      omega
  | succ n ih =>
      rw [allocatedUpTo] at h ⊢
      split_ifs at h ⊢ with h₀
      · exact h₀
      · exact ih (by omega)

theorem allocatedUpTo_congr {inode' : Bytes} (h : ∀ j, i ≤ j → iBlock inode' j = iBlock inode j) :
    allocatedUpTo inode' n i = allocatedUpTo inode n i := by
  induction n generalizing i with
  | zero => rfl
  | succ n ih =>
      rw [allocatedUpTo, allocatedUpTo, h i le_rfl, ih fun j hj => h j (by omega)]

/-- The blocks behind a run are all free exactly when the run is followed by no other. -/
theorem noGap_iff (hm : m = allocatedUpTo inode n i) :
    NoGap inode i (i + n) ↔ ∀ j, m ≤ j → j < i + n → iBlock inode j = 0 := by
  subst hm
  constructor
  · intro h j hj hjn
    have hzero := allocatedUpTo_at (lt_of_le_of_lt hj hjn)
    rcases Nat.eq_or_lt_of_le hj with heq | hlt
    · rwa [← heq]
    · exact h _ j (le_allocatedUpTo ..).1 hlt hjn hzero
  · intro h a b ha hab hb hzero
    apply h b _ hb
    by_contra hlt
    exact allocatedUpTo_below (n := n) ha (by omega) hzero

/-- The count stops at the first block that is not allocated. -/
theorem allocatedUpTo_eq_allocated :
    allocatedUpTo inode 12 0 = allocated inode ↔ NoGap inode 0 12 := by
  have hle := (le_allocatedUpTo inode 12 0).2
  rw [noGap_iff (n := 12) (i := 0) rfl]
  obtain ⟨m, hm⟩ : ∃ m, m = allocatedUpTo inode 12 0 := ⟨_, rfl⟩
  have hbelow : Nat.count (fun i => iBlock inode i ≠ 0) m = m := by
    rw [Nat.count_iff_forall]
    intro j hj
    exact allocatedUpTo_below (Nat.zero_le j) (hm ▸ hj)
  have hsum : allocated inode
      = m + Nat.count (fun k => iBlock inode (m + k) ≠ 0) (12 - m) := by
    unfold allocated
    conv_lhs => rw [show 12 = m + (12 - m) by omega]
    rw [Nat.count_add, hbelow]
  rw [← hm, hsum, Nat.left_eq_add, Nat.count_iff_forall_not]
  constructor
  · intro h j hj hjn
    have hfree := h (j - m) (by omega)
    rw [show m + (j - m) = j by omega] at hfree
    exact not_not.mp hfree
  · intro h k hk
    exact not_not.mpr (h (m + k) (by omega) (by omega))

/-- What the loop frees and clears. -/
theorem freeTail_spec {b : Bytes} (hs : s.Bitmaps)
    (hused : ∀ j, i ≤ j → j < i + n → iBlock b j ≠ 0 →
      s.InRange (iBlock b j) ∧ s.blockBit (iBlock b j) = true)
    (hdistinct : ∀ j k, i ≤ j → j < k → k < i + n → iBlock b j ≠ 0 → iBlock b j ≠ iBlock b k) :
    (∀ j, iBlock (s.freeTail b n i).1 j
        = if i ≤ j ∧ j < allocatedUpTo b n i then 0 else iBlock b j) ∧
      (∀ w o, o + w ≤ 40 → get w (s.freeTail b n i).1 o = get w b o) ∧
      Freed s (s.freeTail b n i).2
        fun c => ∃ j, i ≤ j ∧ j < allocatedUpTo b n i ∧ iBlock b j = c := by
  induction n generalizing s b i with
  | zero =>
      refine ⟨fun j => ?_, fun w o _ => rfl, (Freed.refl s).congr fun c => ?_⟩
      · rw [allocatedUpTo, if_neg (by omega)]
        rfl
      · rw [allocatedUpTo]
        constructor
        · exact False.elim
        · rintro ⟨j, hij, hj, -⟩
          omega
  | succ n ih =>
      rw [freeTail, allocatedUpTo]
      split_ifs with h₀
      · refine ⟨fun j => ?_, fun w o _ => rfl, (Freed.refl s).congr fun c => ?_⟩
        · rw [if_neg (by omega)]
        · constructor
          · exact False.elim
          · rintro ⟨j, hij, hj, -⟩
            omega
      · have hi := hused i le_rfl (by omega) h₀
        have hfree := (freeBlock_spec hs hi.1 hi.2).2
        have hnext (j : ℕ) (hj : i + 1 ≤ j) : iBlock (put 4 b (40 + 4 * i) 0) j = iBlock b j := by
          rw [iBlock_put, if_neg (by omega)]
        have hsame : allocatedUpTo (put 4 b (40 + 4 * i) 0) n (i + 1) = allocatedUpTo b n (i + 1) := by
          exact allocatedUpTo_congr hnext
        obtain ⟨hptr, hfields, hfreed⟩ := ih (i := i + 1) (hfree.layout.bitmaps hs)
          (b := put 4 b (40 + 4 * i) 0)
          (fun j hj hjn hne => by
            rw [hnext j hj] at hne ⊢
            have hused' := hused j (by omega) (by omega) hne
            refine ⟨hfree.layout.inRange.mpr hused'.1, (hfree.bits _ hused'.1).mpr ⟨hused'.2, ?_⟩⟩
            exact (hdistinct i j le_rfl (by omega) (by omega) h₀).symm)
          (fun j k hj hjk hk hne => by
            rw [hnext j hj] at hne ⊢
            rw [hnext k (by omega)]
            exact hdistinct j k (by omega) hjk (by omega) hne)
        rw [hsame] at hptr hfreed
        refine ⟨fun j => ?_, fun w o ho => ?_, (hfree.trans hfreed).congr fun c => ?_⟩
        · have := (le_allocatedUpTo b n (i + 1)).1
          rw [hptr, iBlock_put]
          split_ifs <;> first | rfl | omega
        · rw [hfields w o ho, get_put_of_disjoint (by omega)]
        · constructor
          · rintro (rfl | ⟨j, hij, hj, rfl⟩)
            · exact ⟨i, le_rfl, (le_allocatedUpTo _ n (i + 1)).1, rfl⟩
            · exact ⟨j, by omega, hj, (hnext j hij).symm⟩
          · rintro ⟨j, hij, hj, rfl⟩
            rcases Nat.eq_or_lt_of_le hij with rfl | hlt
            · exact .inl rfl
            · exact .inr ⟨j, hlt, hj, hnext j hlt⟩

/-! ## The bytes of the file -/

theorem fileByte_congr {inode' : Bytes} (hbs : s'.blocksize = s.blocksize)
    (hptr : iBlock inode' (p / s.blocksize) = iBlock inode (p / s.blocksize))
    (hdisk : iBlock inode (p / s.blocksize) ≠ 0 →
      s'.disk (iBlock inode (p / s.blocksize) * s.blocksize + p % s.blocksize)
        = s.disk (iBlock inode (p / s.blocksize) * s.blocksize + p % s.blocksize)) :
    s'.fileByte inode' p = s.fileByte inode p := by
  unfold fileByte
  dsimp only
  rw [hbs, hptr]
  split_ifs with h₀
  · rfl
  · exact hdisk h₀

/-- The sector of a byte of a block. -/
theorem sector_of_block (b : ℕ) (hbs : 0 < s.blocksize) :
    let x := (b * s.blocksize + p % s.blocksize) / sectorSize
    b * s.sectors ≤ x ∧ x < b * s.sectors + s.sectors := by
  have hmod := Nat.mod_lt p hbs
  have hsec : 0 < sectorSize := by decide
  dsimp only
  rw [Nat.le_div_iff_mul_le hsec, Nat.div_lt_iff_lt_mul hsec, Nat.add_mul, Nat.mul_assoc, sectors_mul]
  omega

/-- Neither freeing blocks nor writing the inode changes a byte of the file. -/
theorem FileHolds.disk_same (h : FileHolds s node) {A : ℕ → Prop} {final : VfsInode}
    (hfreed : Freed s s' A) (hino : final.ino = node.ino) (hi : i < 12) (hne : iBlock node.raw i ≠ 0) :
    (s'.writeInode final).2.disk (iBlock node.raw i * s.blocksize + p % s.blocksize)
      = s.disk (iBlock node.raw i * s.blocksize + p % s.blocksize) := by
  have hsector := sector_of_block (p := p) (iBlock node.raw i) h.bitmaps.blocksize
  have hdata := h.data i hi hne _ hsector.1 hsector.2
  rw [writeInode_disk (by rw [hino, hfreed.layout.inodeAddr]; exact hdata.2), hfreed.frame _ hdata.1]

theorem lt_ceilDiv {k : ℕ} (hpos : 0 < s.blocksize) (hbs : s.blocksize ≤ 2 ^ 16) (hk : k < 2 ^ 31)
    (hp : p < k) : p / s.blocksize < ceilDiv k s.blocksize := by
  have hw : word = 2 ^ 32 := rfl
  unfold ceilDiv
  have hle := Nat.div_mul_le_self p s.blocksize
  rw [Nat.mod_eq_of_lt (by omega), Nat.lt_div_iff_mul_lt hpos]
  omega

/-! ## A smaller size -/

section Smaller
variable (s node len now)

/-- The inode that `ext2_truncate` writes after it has freed blocks. -/
def shrunk (s : Ext2) (node : VfsInode) (len : ℤ) (now : ℕ) : VfsInode :=
  let needed := ceilDiv (ofS32 len) s.blocksize
  let node := resized (node.setRaw (s.freeTail node.raw (12 - needed) needed).1) len now
  node.setRaw (put 4 node.raw 28 (allocatedUpTo node.raw 12 0 * s.blocksize % word / 512))

end Smaller

theorem truncate_shrunk (hreg : isReg node.mode = true) (hlen : ¬ toS32 node.size < len) :
    s.truncate node len now = (0, (s.freeTail node.raw (12 - ceilDiv (ofS32 len) s.blocksize)
      (ceilDiv (ofS32 len) s.blocksize)).2.writeInode (shrunk s node len now)) := by
  unfold truncate
  rw [hreg, if_neg (by simp), if_neg hlen]
  rfl

theorem iBlock_shrunk (hreg : isReg node.mode = true) :
    iBlock (stamp (shrunk s node len now)) j = iBlock (s.freeTail node.raw
      (12 - ceilDiv (ofS32 len) s.blocksize) (ceilDiv (ofS32 len) s.blocksize)).1 j := by
  have hreg' : isReg (shrunk s node len now).mode = true := hreg
  unfold iBlock
  rw [get_stamp (not_device hreg') (by omega)]
  unfold shrunk
  dsimp only
  rw [raw_setRaw, get_put_of_disjoint (by omega), get_resized (by omega), raw_setRaw]

/-- The number that is stored counts the blocks in front of the first gap. -/
theorem iBlocks_shrunk (len : ℤ) (now : ℕ) (hreg : isReg node.mode = true) (hbs : s.blocksize ≤ 2 ^ 16) :
    iBlocks (stamp (shrunk s node len now))
      = allocatedUpTo (stamp (shrunk s node len now)) 12 0 * (s.blocksize / 512) := by
  have hreg' : isReg (shrunk s node len now).mode = true := hreg
  have hle := (le_allocatedUpTo (stamp (shrunk s node len now)) 12 0).2
  have hw : word = 2 ^ 32 := rfl
  have hsame (j : ℕ) : iBlock (stamp (shrunk s node len now)) j
      = iBlock (resized (node.setRaw (s.freeTail node.raw (12 - ceilDiv (ofS32 len) s.blocksize)
          (ceilDiv (ofS32 len) s.blocksize)).1) len now).raw j := by
    rw [iBlock_shrunk hreg]
    unfold iBlock
    rw [get_resized (by omega), raw_setRaw]
  have hcount := allocatedUpTo_congr (n := 12) (i := 0) fun j _ => hsame j
  have hmul := Nat.mul_le_mul hle hbs
  have hraw : get 4 (shrunk s node len now).raw 28
      = allocatedUpTo (resized (node.setRaw (s.freeTail node.raw (12 - ceilDiv (ofS32 len) s.blocksize)
          (ceilDiv (ofS32 len) s.blocksize)).1) len now).raw 12 0 * s.blocksize % word / 512 % 256 ^ 4 := by
    unfold shrunk
    dsimp only
    rw [raw_setRaw, get_put]
  have hdiv : allocatedUpTo (stamp (shrunk s node len now)) 12 0 * s.blocksize / 512
      = allocatedUpTo (stamp (shrunk s node len now)) 12 0 * (s.blocksize / 512) :=
    Nat.mul_div_assoc _ sector_dvd_blocksize
  unfold iBlocks
  have hlt : allocatedUpTo (stamp (shrunk s node len now)) 12 0 * s.blocksize < 256 ^ 4 := by omega
  rw [get_stamp (not_device hreg') le_rfl, hraw, ← hcount, Nat.mod_eq_of_lt (b := word) hlt,
    Nat.mod_eq_of_lt ((Nat.div_le_self _ _).trans_lt hlt), hdiv]

/-- What is left of the blocks. -/
theorem FileHolds.shrunk_blocks (h : FileHolds s node) (len : ℤ) (now : ℕ) :
    (∀ j < 12, iBlock (stamp (shrunk s node len now)) j
        = if ceilDiv (ofS32 len) s.blocksize ≤ j ∧ j < allocatedUpTo node.raw
            (12 - ceilDiv (ofS32 len) s.blocksize) (ceilDiv (ofS32 len) s.blocksize)
          then 0 else iBlock node.raw j) ∧
      Freed s (s.freeTail node.raw (12 - ceilDiv (ofS32 len) s.blocksize)
        (ceilDiv (ofS32 len) s.blocksize)).2 fun b => ∃ j, ceilDiv (ofS32 len) s.blocksize ≤ j ∧
          j < allocatedUpTo node.raw (12 - ceilDiv (ofS32 len) s.blocksize)
            (ceilDiv (ofS32 len) s.blocksize) ∧ iBlock node.raw j = b := by
  have hspec := freeTail_spec (s := s) (n := 12 - ceilDiv (ofS32 len) s.blocksize)
    (i := ceilDiv (ofS32 len) s.blocksize) h.bitmaps
    (fun j hj hjn hne => h.used j (by omega) hne)
    (fun j k hj hjk hk hne heq => by
      have := h.distinct j (by omega) k (by omega) hne heq
      omega)
  refine ⟨fun j _ => ?_, hspec.2.2⟩
  rw [iBlock_shrunk h.regular, hspec.1]

theorem toS32_le (x : ℕ) : toS32 x ≤ x := by
  unfold toS32
  split_ifs <;> omega

/-- The inode stays apart from the bitmaps. -/
theorem FileHolds.inode_apart (h : FileHolds s node) (hlayout : SameLayout s s') (final : VfsInode)
    (hino : final.ino = node.ino) :
    ∀ g, s'.IsGroup g →
      Apart (s'.bitmapSector g) s'.sectors (s'.inodeAddr final.ino / sectorSize) 1 := by
  intro g hg
  rw [hlayout.bitmapSector, hlayout.sectors, hlayout.inodeAddr, hino]
  exact h.inode g (hlayout.isGroup.mp hg)

/-- A smaller size is right when no block is allocated behind one that is not. -/
theorem FileHolds.shrink_iff (h : FileHolds s node) (hlen : 0 ≤ len) (hlt : len < 2 ^ 31)
    (hsmall : ¬ toS32 node.size < len) :
    Truncated s node len (s.truncate node len now).2.1 (s.truncate node len now).2.2 ↔
      NoGap node.raw (ceilDiv len.toNat s.blocksize) 12 ∧
        NoGap node.raw 0 (min (ceilDiv len.toNat s.blocksize) 12) := by
  have hofs := ofS32_of_nonneg hlen hlt
  obtain ⟨hptr, hfreed⟩ := h.shrunk_blocks len now
  rw [truncate_shrunk h.regular hsmall]
  rw [hofs] at hptr hfreed ⊢
  obtain ⟨m, hm⟩ : ∃ m, m = allocatedUpTo node.raw (12 - ceilDiv len.toNat s.blocksize)
      (ceilDiv len.toNat s.blocksize) := ⟨_, rfl⟩
  have hbehind := noGap_iff hm
  rw [← hm] at hptr hfreed
  dsimp only
  have hraw : ((s.freeTail node.raw (12 - ceilDiv len.toNat s.blocksize)
      (ceilDiv len.toNat s.blocksize)).2.writeInode (shrunk s node len now)).1.raw
      = stamp (shrunk s node len now) := rfl
  have hblocks := iBlocks_shrunk len now h.regular h.blocksize
  have hkept (j : ℕ) (hj : j < min (ceilDiv len.toNat s.blocksize) 12) :
      iBlock (stamp (shrunk s node len now)) j = iBlock node.raw j := by
    rw [hptr j (by omega), if_neg (by omega)]
  constructor
  · intro ht
    have hptr' := ht.pointers
    have hcount := ht.blocks
    rw [hraw] at hptr' hcount
    constructor
    · intro i j hi hij hj
      rw [show ceilDiv len.toNat s.blocksize + (12 - ceilDiv len.toNat s.blocksize) = 12 by omega] at hbehind
      refine hbehind.mpr (fun k hk hk12 => ?_) i j hi hij hj
      have hge := (le_allocatedUpTo node.raw (12 - ceilDiv len.toNat s.blocksize)
        (ceilDiv len.toNat s.blocksize)).1
      have hzero := hptr' k hk12 (by omega)
      rwa [hptr k hk12, if_neg (by omega)] at hzero
    · have hpos : 0 < s.blocksize / 512 :=
        Nat.div_pos (Nat.le_of_dvd h.bitmaps.blocksize sector_dvd_blocksize) (by decide)
      have hgap := allocatedUpTo_eq_allocated.mp
        (Nat.eq_of_mul_eq_mul_right hpos (hblocks.symm.trans hcount))
      intro i j hi hij hj
      rw [← hkept i (by omega), ← hkept j hj]
      exact hgap i j hi hij (by omega)
  · rintro ⟨htail, hhead⟩
    have hzero (j : ℕ) (hj : ceilDiv len.toNat s.blocksize ≤ j) (hj12 : j < 12) (hmj : m ≤ j) :
        iBlock node.raw j = 0 := by
      rw [show ceilDiv len.toNat s.blocksize + (12 - ceilDiv len.toNat s.blocksize) = 12 by omega] at hbehind
      exact hbehind.mp htail j hmj hj12
    have hafter (j : ℕ) (hj12 : j < 12) (hj : ceilDiv len.toNat s.blocksize ≤ j) :
        iBlock (stamp (shrunk s node len now)) j = 0 := by
      rw [hptr j hj12]
      split_ifs with hjm
      · rfl
      · exact hzero j hj hj12 (by omega)
    refine ⟨hlen, ⟨?_, ?_⟩, ?_, hafter, ?_, ?_⟩
    · exact (congrArg Nat.cast hofs).trans (Int.toNat_of_nonneg hlen)
    · rw [hraw, iSize_stamp]
      exact Nat.mod_eq_of_lt (ofS32_lt len)
    · intro p hp hp12
      have hblock := lt_ceilDiv (p := p) h.bitmaps.blocksize h.blocksize (k := len.toNat) (by omega) (by omega)
      have hblock12 := (Nat.div_lt_iff_lt_mul h.bitmaps.blocksize).mpr hp12
      rw [if_pos (by have := toS32_le node.size; omega), hraw]
      exact fileByte_congr (hfreed.layout.trans writeInode_layout).blocksize (hkept _ (by omega))
        fun hne => h.disk_same hfreed rfl hblock12 hne
    · intro b hb
      rw [writeInode_blockBit (hfreed.layout.inRange.mpr hb)
        (h.inode_apart hfreed.layout (shrunk s node len now) rfl),
        hfreed.bits b hb]
      apply and_congr_right
      intro _
      apply not_congr
      constructor
      · rintro ⟨j, hj, hjm, rfl⟩
        have hne := allocatedUpTo_below hj (hm ▸ hjm)
        have hle := (le_allocatedUpTo node.raw (12 - ceilDiv len.toNat s.blocksize)
          (ceilDiv len.toNat s.blocksize)).2
        exact ⟨j, by omega, hj, hne, rfl⟩
      · rintro ⟨j, hj12, hj, hne, rfl⟩
        refine ⟨j, hj, ?_, rfl⟩
        by_contra hmj
        exact hne (hzero j hj hj12 (by omega))
    · rw [hraw, hblocks, allocatedUpTo_eq_allocated.mpr]
      intro i j hi hij hj hgap
      rcases Nat.lt_or_ge j (ceilDiv len.toNat s.blocksize) with hlow | hhigh
      · rw [hkept i (by omega)] at hgap
        rw [hkept j (by omega)]
        exact hhead i j hi hij (by omega) hgap
      · exact hafter j hj hhigh

/-! ## A larger size -/

theorem truncate_grown (hreg : isReg node.mode = true) (hlen : toS32 node.size < len) :
    s.truncate node len now = (0, s.writeInode (resized node len now)) := by
  unfold truncate
  rw [hreg, if_neg (by simp), if_pos hlen]

theorem get_grown (hreg : isReg node.mode = true) (ho : 28 ≤ o) :
    get w (stamp (resized node len now)) o = get w node.raw o := by
  have hreg' : isReg (resized node len now).mode = true := hreg
  rw [get_stamp (not_device hreg') ho, get_resized (by omega)]

/-- A larger size is right when the blocks that are allocated already hold zeros there. -/
theorem FileHolds.grow_iff (h : FileHolds s node) (hlen : 0 ≤ len) (hlt : len < 2 ^ 31)
    (hlarge : toS32 node.size < len) :
    Truncated s node len (s.truncate node len now).2.1 (s.truncate node len now).2.2 ↔
      (∀ p : ℕ, node.size ≤ p → (p : ℤ) < len → p < 12 * s.blocksize → s.fileByte node.raw p = 0) ∧
        (∀ i < 12, ceilDiv len.toNat s.blocksize ≤ i → iBlock node.raw i = 0) ∧
        iBlocks node.raw = allocated node.raw * (s.blocksize / 512) := by
  have hofs := ofS32_of_nonneg hlen hlt
  rw [truncate_grown h.regular hlarge]
  dsimp only
  have hraw : (s.writeInode (resized node len now)).1.raw = stamp (resized node len now) := rfl
  have hptr (j : ℕ) : iBlock (stamp (resized node len now)) j = iBlock node.raw j :=
    get_grown h.regular (by omega)
  have hblocks : iBlocks (stamp (resized node len now)) = iBlocks node.raw := get_grown h.regular le_rfl
  have hcount : allocated (stamp (resized node len now)) = allocated node.raw := by
    unfold allocated
    simp only [hptr]
  have hbyte (p : ℕ) (hp : p < 12 * s.blocksize) :
      (s.writeInode (resized node len now)).2.fileByte (stamp (resized node len now)) p
        = s.fileByte node.raw p :=
    fileByte_congr writeInode_layout.blocksize (hptr _) fun hne =>
      h.disk_same (Freed.refl s) rfl ((Nat.div_lt_iff_lt_mul h.bitmaps.blocksize).mpr hp) hne
  constructor
  · intro ht
    have hcontents := ht.contents
    have hpointers := ht.pointers
    have hnumber := ht.blocks
    rw [hraw] at hcontents hpointers hnumber
    refine ⟨fun p hsize hp hp12 => ?_, fun i hi hneeded => ?_, ?_⟩
    · rw [← hbyte p hp12, hcontents p hp hp12, if_neg (by omega)]
    · rw [← hptr]
      exact hpointers i hi hneeded
    · rw [← hblocks, ← hcount, hnumber]
  · rintro ⟨hzeros, hpointers, hnumber⟩
    refine ⟨hlen, ⟨?_, ?_⟩, ?_, ?_, ?_, ?_⟩
    · exact (congrArg Nat.cast hofs).trans (Int.toNat_of_nonneg hlen)
    · rw [hraw, iSize_stamp]
      exact Nat.mod_eq_of_lt (ofS32_lt len)
    · intro p hp hp12
      rw [hraw, hbyte p hp12]
      split_ifs with hsize
      · rfl
      · exact hzeros p (by omega) hp hp12
    · intro i hi hneeded
      rw [hraw, hptr]
      exact hpointers i hi hneeded
    · intro b hb
      rw [writeInode_blockBit hb (h.inode_apart (SameLayout.refl s) (resized node len now) rfl)]
      constructor
      · intro hbit
        refine ⟨hbit, ?_⟩
        rintro ⟨i, hi, hneeded, hne, -⟩
        exact hne (hpointers i hi hneeded)
      · exact And.left
    · rw [hraw, hblocks, hcount, hnumber]

/-- A device of 64 blocks in one group, with bytes of ones, and a file of 1000 bytes in
block 20. -/
def smallDisk : Ext2 where
  disk := fun _ => 255
  es := put 2 (put 4 (put 4 (put 4 (put 4 (fun _ => 0) 4 64) 20 1) 32 8192) 40 16) 88 128
  groupDesc := fun _ => put 4 (put 4 (put 4 (fun _ => 0) 0 3) 4 4) 8 5

def smallFile : VfsInode :=
  { VfsInode.zero with
    ino := 12, mode := sIfreg, size := 1000, u := .ext2 (put 4 (put 4 (put 4 (fun _ => 0) 4 1000) 28 2) 40 20) }

theorem smallDisk_group {g : ℕ} (h : smallDisk.IsGroup g) : g = 0 := by
  obtain ⟨b, hb, rfl⟩ := h
  have hcount : smallDisk.blocksCount = 64 := by decide
  have hper : smallDisk.blocksPerGroup = 8192 := by decide
  unfold InRange at hb
  unfold groupOf
  rw [hper]
  omega

theorem smallDisk_bitmap : smallDisk.bitmapSector 0 = 6 ∧ smallDisk.sectors = 2 := by decide

theorem smallFile_inode : smallDisk.inodeAddr smallFile.ino / sectorSize = 12 := by decide

theorem smallFile_blocks : ∀ i < 12, iBlock smallFile.raw i ≠ 0 → i = 0 ∧ iBlock smallFile.raw i = 20 := by
  decide

theorem smallFile_holds : FileHolds smallDisk smallFile where
  bitmaps :=
    { blocksize := by decide
      perGroup := by decide
      behind := fun g i hg hi => by
        rw [smallDisk_group hg, smallDisk_group hi, smallDisk_bitmap.1]
        decide
      apart := fun g i hg hi hne =>
        absurd ((smallDisk_group hg).trans (smallDisk_group hi).symm) hne }
  blocksize := by decide
  regular := by decide
  size := by decide
  used i hi hne := by
    rw [(smallFile_blocks i hi hne).2]
    unfold InRange
    decide
  distinct i hi j hj hne heq := by
    rw [(smallFile_blocks i hi hne).1, (smallFile_blocks j hj (heq ▸ hne)).1]
  data i hi hne x hx hx' := by
    rw [(smallFile_blocks i hi hne).2, smallDisk_bitmap.2] at hx hx'
    rw [smallFile_inode]
    refine ⟨?_, by omega⟩
    rintro (hsuper | ⟨g, hg, hx₁⟩)
    · omega
    · rw [smallDisk_group hg, smallDisk_bitmap.1, smallDisk_bitmap.2] at hx₁
      unfold Apart at hx₁
      omega
  inode g hg := by
    rw [smallDisk_group hg, smallDisk_bitmap.1, smallDisk_bitmap.2, smallFile_inode]
    exact .inl (by decide)

end Ext2
end Ferrite.Fs
