import Ferrite.Fs.AllocAtomic
import Ferrite.Fs.Create

/-!
# A new inode and a new block

What `ext2_new_inode` changes: one bit, the counters that count it, and nothing outside of
the sectors with the superblock, the group descriptors and the bitmaps. `ext2_free_inode`
takes it back. `ext2_new_block` writes a free block besides.
-/
namespace Ferrite.Fs
open Packed Word

namespace Ext2
variable (s : Ext2)

/-- The sectors of the superblock, of the descriptors and of the bitmaps. -/
def Books (x : ℕ) : Prop :=
  (2 ≤ x ∧ x < 4) ∨ ∃ p g, g < s.groups p ∧ (x = 4 + g / 16 ∨ ¬ Apart (s.bitmapStart p g) s.sectors x 1)

/-- The group of an inode, and its bit there. -/
def inodeGroup (ino : ℕ) : ℕ := (ino - 1) / s.inodesPerGroup
def inodeIndex (ino : ℕ) : ℕ := (ino - 1) % s.inodesPerGroup

/-- An inode that was free is in use. -/
structure NewInode (s t : Ext2) (ino : ℕ) : Prop where
  range : 1 ≤ ino ∧ ino ≤ s.inodesCount
  clear : s.inodeBit ino = false
  tallied : ∃ v w, Tallied s t .inodes (s.inodeGroup ino) v w ∧ w ≠ s.freeTotal .inodes
  flipped : Flipped s t .inodes (s.inodeGroup ino) (s.inodeIndex ino) true
  agree : t.Agree
  frame : ∀ n, ¬ s.Books (n / sectorSize) → t.disk n = s.disk n

/-- The bitmaps and the counters are the same. -/
structure SameBooks (s t : Ext2) : Prop where
  bits : ∀ p, ∀ g < s.groups p, bit (t.bitmap p g) = bit (s.bitmap p g)
  counts : ∀ p, ∀ g < s.groups p, t.freeCount p g = s.freeCount p g
  totals : ∀ p, t.freeTotal p = s.freeTotal p

variable {s} {t u : Ext2} {p : Pool} {g k v w n ino mode : ℕ} {fault : Option Transfer} {buff : Bytes}
variable {node : VfsInode}

/-! ## What is written -/

theorem store_disk (h : ¬ (2 ≤ n / sectorSize ∧ n / sectorSize < 4)) (hg : n / sectorSize ≠ 4 + g / 16)
    (hmap : Apart (s.bitmapBlock p g * s.sectors % word) s.sectors (n / sectorSize) 1) :
    (s.store fault p g buff).2.disk n = s.disk n := by
  have hbitmap : (s.write (s.bitmapBlock p g * s.sectors % word) s.sectors buff).disk n = s.disk n :=
    write_disk_of_sector hmap
  have hdesc : ((s.write (s.bitmapBlock p g * s.sectors % word) s.sectors buff).bgdWrite g).disk n = s.disk n :=
    (write_disk_of_sector (by unfold Apart; omega)).trans hbitmap
  have hall : ((s.write (s.bitmapBlock p g * s.sectors % word) s.sectors buff).bgdWrite
      g).superblockWrite.disk n
      = s.disk n := (tail_disk h hg).trans hbitmap
  match fault with
  | none => exact hall
  | some .readBitmap => exact hall
  | some .writeBitmap => rfl
  | some .readDesc => exact hbitmap
  | some .writeDesc => exact hbitmap
  | some .writeSuper => exact hdesc
  | some .zeroBlock => exact hall

/-- With counters that have changed, only sectors of the bookkeeping are written. -/
theorem Tallied.store_disk (ht : Tallied s u p g v w) (hdisk : u.disk = s.disk) (hg : g < s.groups p)
    (hn : ¬ s.Books (n / sectorSize)) : (u.store fault p g buff).2.disk n = s.disk n := by
  unfold Books at hn
  push Not at hn
  obtain ⟨hsuper, hrest⟩ := hn
  obtain ⟨hdesc, hmap⟩ := hrest p g hg
  rw [← hdisk]
  apply Ext2.store_disk (by omega) hdesc
  rw [ht.layout.bitmapBlock, ht.layout.sectors]
  exact hmap

/-- Taking a bit, whatever fails. -/
theorem Agree.taking_tallied (ha : s.Agree) (hs : s.Pools) (hg : g < s.groups p) (hk : k < s.bitsIn p g)
    (hclear : bit (s.bitmap p g) k = false) (dirs : ℕ) (fault : Option Transfer) :
    (∃ v w, Tallied s (s.taking p g k dirs fault).2 p g v w ∧ w ≠ s.freeTotal p) ∧
      ∀ n, ¬ s.Books (n / sectorSize) → (s.taking p g k dirs fault).2.disk n = s.disk n := by
  obtain ⟨v, w, ht, hne, hv, hw⟩ := ha.taken hs hg hk hclear dirs
  have hcount := ha.counts p g hg
  refine ⟨⟨v, w, ht.store fault _, by omega⟩, ?_⟩
  intro n hn
  exact ht.store_disk addDirs_disk hg hn

theorem Agree.taking_flipped (ha : s.Agree) (hs : s.Pools) (hg : g < s.groups p) (hk : k < s.bitsIn p g)
    (hclear : bit (s.bitmap p g) k = false) (dirs : ℕ) (hfault : fault ≠ some .writeBitmap) :
    Flipped s (s.taking p g k dirs fault).2 p g k true := by
  obtain ⟨v, w, ht, -⟩ := ha.taken hs hg hk hclear dirs
  have hbits := bitsIn_le hs p g
  apply ht.store_flipped addDirs_disk hs hg (bit_setBit _ k) _ hfault
  intro x hx
  rw [setBit_of_le (by omega) hx, bitmap_of_le hx]

/-! ## Numbers of inodes -/

theorem inode_number (hk : k < s.bitsIn .inodes g) (hper : s.bitsIn .inodes g ≤ s.inodesPerGroup) :
    wadd (wadd k (s.inodesPerGroup * g % word)) 1 = g * s.inodesPerGroup + k + 1 ∧
      g * s.inodesPerGroup + k + 1 ≤ s.inodesCount ∧ s.inodeGroup (g * s.inodesPerGroup + k + 1) = g ∧
      s.inodeIndex (g * s.inodesPerGroup + k + 1) = k := by
  have hbits : s.bitsIn .inodes g = min s.inodesPerGroup (s.inodesCount - g * s.inodesPerGroup) := rfl
  have hlt : s.inodesCount < 2 ^ 32 := get_lt 4 s.es 0
  have hw : word = 2 ^ 32 := rfl
  refine ⟨?_, by omega, ?_, ?_⟩
  · rw [Nat.mul_comm s.inodesPerGroup, Nat.mod_eq_of_lt (by omega),
      wadd_of_lt (show k + g * s.inodesPerGroup < word by omega), wadd_of_lt (by omega), Nat.add_comm k]
  · rw [inodeGroup, Nat.add_sub_cancel, Nat.mul_comm, Nat.mul_add_div (by omega), Nat.div_eq_of_lt (by omega),
      Nat.add_zero]
  · rw [inodeIndex, Nat.add_sub_cancel, Nat.mul_comm, Nat.mul_add_mod, Nat.mod_eq_of_lt (by omega)]

/-! ## The call -/

/-- A transfer that fails with the counters changed. -/
def Spoils (fault : Option Transfer) : Prop := fault ≠ none ∧ fault ≠ some .readBitmap ∧ fault ≠ some .zeroBlock

theorem take_spoiled {groups dirs : ℕ}
    (hfind : (List.range groups).find? (fun g => s.freeCount p g ≠ 0) = some g)
    (hbit : findFreeBit (s.bitmap p g) s.blocksize = some k) (hfault : Spoils fault) (err : Option ℤ) :
    s.take fault p groups dirs err
      = (.inr (if fault = some .writeBitmap then err else some (-eio)), (s.taking p g k dirs fault).2) := by
  obtain ⟨hnone, hread, hzero⟩ := hfault
  rw [take_found hfind hbit hread]
  match fault with
  | none => exact absurd rfl hnone
  | some .readBitmap => exact absurd rfl hread
  | some .writeBitmap => rfl
  | some .readDesc => rfl
  | some .writeDesc => rfl
  | some .writeSuper => rfl
  | some .zeroBlock => exact absurd rfl hzero

theorem take_taken {groups dirs : ℕ} {err : Option ℤ}
    (hfind : (List.range groups).find? (fun g => s.freeCount p g ≠ 0) = some g)
    (hbit : findFreeBit (s.bitmap p g) s.blocksize = some k) (hfault : fault = none ∨ fault = some .zeroBlock) :
    s.take fault p groups dirs err = (.inl (g, k), (s.taking p g k dirs fault).2) := by
  rcases hfault with rfl | rfl
  · exact take_found hfind hbit (by simp)
  · exact take_found hfind hbit (by simp)

theorem Agree.newInode_taken (ha : s.Agree) (hs : s.Pools) (hg : g < s.groups .inodes)
    (hk : k < s.bitsIn .inodes g)
    (hclear : bit (s.bitmap .inodes g) k = false) (dirs : ℕ) {fault : Option Transfer}
    (hfault : fault ≠ some .writeBitmap) :
    NewInode s (s.taking .inodes g k dirs fault).2 (g * s.inodesPerGroup + k + 1) := by
  obtain ⟨htallied, hframe⟩ := ha.taking_tallied hs hg hk hclear dirs fault
  obtain ⟨-, hrange, hgroup, hindex⟩ := inode_number hk (min_le_left ..)
  refine ⟨⟨by omega, hrange⟩, ?_, ?_, ?_, (ha.taking hs hg hk hclear dirs fault).1 hfault, hframe⟩
  · have hbit : s.inodeBit (g * s.inodesPerGroup + k + 1)
        = bit (s.bitmap .inodes (s.inodeGroup (g * s.inodesPerGroup + k + 1)))
            (s.inodeIndex (g * s.inodesPerGroup + k + 1)) := rfl
    rw [hbit, hgroup, hindex]
    exact hclear
  · rw [hgroup]
    exact htallied
  · rw [hgroup, hindex]
    exact ha.taking_flipped hs hg hk hclear dirs hfault

/-- How `ext2_new_inode` ends when the inode cache has a slot and there is memory. -/
theorem Agree.newInode_spec (ha : s.Agree) (hs : s.Pools) (fault : Option Transfer) (mode : ℕ) :
    ((s.Full .inodes (ceilDiv s.inodesCount s.inodesPerGroup) ∨ fault = some .readBitmap) ∧
      ∃ e < 0, s.newInode fault mode true true = (none, some e, s)) ∨
    (¬ s.Full .inodes (ceilDiv s.inodesCount s.inodesPerGroup) ∧ Spoils fault ∧
      ∃ t, t.freeTotal .inodes ≠ s.freeTotal .inodes ∧ s.newInode fault mode true true =
        (none, some (-eio), t)) ∨
    (¬ s.Full .inodes (ceilDiv s.inodesCount s.inodesPerGroup) ∧ (fault = none ∨ fault = some .zeroBlock) ∧
      ∃ ino t, NewInode s t ino ∧ s.newInode fault mode true true = (some ino, some 0, t)) := by
  unfold newInode
  extract_lets dirs
  by_cases hfull : s.Full .inodes (ceilDiv s.inodesCount s.inodesPerGroup)
  · left
    rw [take_full hfull]
    exact ⟨.inl hfull, -enospc, by decide, rfl⟩
  obtain ⟨g, hfind⟩ := exists_group hfull
  have hle : ceilDiv s.inodesCount s.inodesPerGroup ≤ s.groups .inodes := Nat.div_le_div_right (Nat.mod_le ..)
  have hg := ha.group_lt hfind (.inl hle)
  obtain ⟨k, hbit, hk⟩ := ha.exists_bit hs hg (by simpa using (List.find?_range_eq_some.mp hfind).1)
  have hclear := (findFreeBit_spec hbit).2.1
  by_cases hread : fault = some .readBitmap
  · left
    refine ⟨.inr hread, -eio, by decide, ?_⟩
    unfold take
    rw [hfind, hread]
    rfl
  right
  by_cases htaken : fault = none ∨ fault = some .zeroBlock
  · right
    have hwrite : fault ≠ some .writeBitmap := by rcases htaken with rfl | rfl <;> simp
    have hnew := ha.newInode_taken hs hg hk hclear dirs hwrite
    refine ⟨hfull, htaken, _, _, hnew, ?_⟩
    rw [take_taken hfind hbit htaken]
    dsimp only
    rw [(inode_number hk (min_le_left ..)).1]
    rfl
  · left
    have hspoils : Spoils fault := ⟨fun h => htaken (.inl h), hread, fun h => htaken (.inr h)⟩
    refine ⟨hfull, hspoils, (s.taking .inodes g k dirs fault).2, ?_, ?_⟩
    · obtain ⟨⟨v, w, ht, hw⟩, -⟩ := ha.taking_tallied hs hg hk hclear dirs fault
      rw [ht.here.2]
      exact hw
    · rw [take_spoiled hfind hbit hspoils, ite_self]

/-! ## Taking it back -/

theorem Tallied.pools (ht : Tallied s t p g v w) (hs : s.Pools) : t.Pools where
  perGroup q := by
    rw [ht.perGroup, ht.layout.blocksize]
    exact hs.perGroup q
  behind q h r i hh hi := by
    rw [ht.groups] at hh hi
    rw [ht.bitmapStart]
    exact hs.behind q h r i hh hi
  apart q h r i hh hi hne := by
    rw [ht.groups] at hh hi
    rw [ht.bitmapStart, ht.bitmapStart, ht.layout.sectors]
    exact hs.apart q h r i hh hi hne

theorem Tallied.books {x : ℕ} (ht : Tallied s t p g v w) : t.Books x ↔ s.Books x := by
  unfold Books
  simp only [ht.groups, ht.bitmapStart, ht.layout.sectors]

/-- Counters that agree with the same bits are the same. -/
theorem Agree.sameBooks (ha : s.Agree) (hu : u.Agree) (hgroups : ∀ q, u.groups q = s.groups q)
    (hbitsIn : ∀ q h, u.bitsIn q h = s.bitsIn q h)
    (hbits : ∀ q, ∀ h < s.groups q, bit (u.bitmap q h) = bit (s.bitmap q h)) : SameBooks s u := by
  have hclear (q : Pool) (h : ℕ) (hh : h < s.groups q) : u.clearBits q h = s.clearBits q h := by
    unfold clearBits
    rw [hbits q h hh, hbitsIn]
  refine ⟨hbits, ?_, ?_⟩
  · intro q h hh
    rw [hu.counts q h (by rw [hgroups]; exact hh), hclear q h hh, ha.counts q h hh]
  · intro q
    have hmap : (List.range (s.groups q)).map (u.clearBits q) = (List.range (s.groups q)).map
        (s.clearBits q) := by
      apply List.map_congr_left
      intro h hh
      exact hclear q h (List.mem_range.mp hh)
    rw [hu.totals q, ha.totals q, hgroups, hmap]

/-- An inode in use is released by clearing its bit. -/
theorem freeInode_set (s : Ext2) (node : VfsInode)
    (hset : bit (s.bitmap .inodes (s.inodeGroup node.ino)) (s.inodeIndex node.ino) = true)
    (hino : 1 ≤ node.ino ∧ node.ino ≤ s.inodesCount) :
    ∃ dirs, (s.freeInode node).2 =
      (((s.tally .inodes (s.inodeGroup node.ino) 1 1).addDirs (s.inodeGroup node.ino)
      dirs).store none .inodes (s.inodeGroup node.ino)
        (clearBit (s.bitmap .inodes (s.inodeGroup node.ino)) (s.inodeIndex node.ino))).2 := by
  have hindex : wsub node.ino 1 = node.ino - 1 := wsub_of_le hino.1 (hino.2.trans_lt (get_lt 4 s.es 0))
  have hcall : s.freeInodeOn none node = s.release none .inodes (s.inodeGroup node.ino) (s.inodeIndex node.ino)
      (if isDir node.mode then 0xFFFF else 0) (-1) := by
    unfold freeInodeOn inodeGroup inodeIndex
    rw [hindex]
  refine ⟨if isDir node.mode then 0xFFFF else 0, ?_⟩
  rw [← freeInodeOn_none, hcall]
  unfold release
  rw [if_neg (by simp), hset, if_neg (by simp)]
  rfl

/-- `ext2_free_inode` takes a new inode back. -/
theorem NewInode.undo (hnew : NewInode s t ino) (ha : s.Agree) (hs : s.Pools) (hnode : node.ino = ino) :
    SameBooks s (t.freeInode node).2 ∧ SameLayout s (t.freeInode node).2 ∧
      ∀ n, ¬ s.Books (n / sectorSize) → (t.freeInode node).2.disk n = s.disk n := by
  obtain ⟨hrange, hclear, ⟨v, w, ht, -⟩, hflip, hagree, hframe⟩ := hnew
  subst hnode
  have hper : 0 < s.inodesPerGroup := (hs.perGroup .inodes).1
  obtain ⟨hg, hk⟩ := div_lt_groups (p := .inodes) (x := node.ino - 1) hper
    (show node.ino - 1 < s.inodesCount by omega)
  have hgroup : t.inodeGroup node.ino = s.inodeGroup node.ino := by
    unfold inodeGroup
    rw [ht.layout.inodesPerGroup]
  have hindex : t.inodeIndex node.ino = s.inodeIndex node.ino := by
    unfold inodeIndex
    rw [ht.layout.inodesPerGroup]
  have hclear' : bit (s.bitmap .inodes (s.inodeGroup node.ino)) (s.inodeIndex node.ino) = false := hclear
  have hset : bit (t.bitmap .inodes (s.inodeGroup node.ino)) (s.inodeIndex node.ino) = true := by
    rw [hflip.bits, Function.update_self]
  have hg' : s.inodeGroup node.ino < t.groups .inodes := by
    rw [ht.groups]
    exact hg
  have hk' : s.inodeIndex node.ino < t.bitsIn .inodes (s.inodeGroup node.ino) := by
    rw [ht.bitsIn]
    exact hk
  have hpools := ht.pools hs
  obtain ⟨dirs, hfree⟩ := freeInode_set t node (by rw [hgroup, hindex]; exact hset)
    ⟨hrange.1, by rw [ht.inodesCount]; exact hrange.2⟩
  rw [hgroup, hindex] at hfree
  obtain ⟨v', w', ht', -, hv', hw'⟩ := hagree.released hpools hg' hk' hset dirs
  have hbuff : ∀ x, t.blocksize ≤ x →
      clearBit (t.bitmap .inodes (s.inodeGroup node.ino)) (s.inodeIndex node.ino) x = 0 := by
    intro x hx
    have hle := bitsIn_le hpools .inodes (s.inodeGroup node.ino)
    rw [clearBit_out (by omega) hx, bitmap_of_le hx]
  have hnone : (none : Option Transfer) ≠ some .writeBitmap := by simp
  have hflip' := ht'.store_flipped addDirs_disk hpools hg' (bit_clearBit _ (s.inodeIndex node.ino)) hbuff hnone
  have hagree' := hagree.store hpools ht' addDirs_disk hg'
      (bit_clearBit _ (s.inodeIndex node.ino)) hbuff hv' hw' hnone
  have ht'' := ht'.store none (clearBit (t.bitmap .inodes (s.inodeGroup node.ino)) (s.inodeIndex node.ino))
  rw [← hfree] at hflip' hagree' ht''
  refine ⟨?_, ht.layout.trans ht''.layout, ?_⟩
  · apply ha.sameBooks hagree'
    · intro q
      rw [ht''.groups, ht.groups]
    · intro q h
      rw [ht''.bitsIn, ht.bitsIn]
    · intro q h hh
      by_cases hhere : (q, h) = (.inodes, s.inodeGroup node.ino)
      · cases hhere
        rw [hflip'.bits, hflip.bits, Function.update_idem]
        exact Function.update_eq_self_iff.mpr hclear'.symm
      · rw [hflip'.others q h (by rw [ht.groups]; exact hh) hhere, hflip.others q h hh hhere]
  · intro n hn
    rw [hfree, ht'.store_disk addDirs_disk hg' (by rw [ht.books]; exact hn)]
    exact hframe n hn

/-! ## A new block -/

/-- `ext2_new_block` stores an error. -/
def BlockFails (s : Ext2) (fault : Option Transfer) : Prop :=
  s.freeBlocksCount = 0 ∨ s.Full .blocks (ceilDiv s.blocksCount s.blocksPerGroup) ∨
    (fault ≠ none ∧ fault ≠ some .zeroBlock ∧ fault ≠ some .writeBitmap)

/-- Taking a block changes no counter of inodes, and on the device only the bookkeeping and
a free block. -/
structure BlockTaken (s t : Ext2) : Prop where
  layout : SameLayout s t
  inodes : t.freeTotal .inodes = s.freeTotal .inodes
  frame : ∀ n, ¬ s.Books (n / sectorSize) →
    (∀ b, s.InRange b → s.blockBit b = false → Apart (b * s.sectors % word) s.sectors (n / sectorSize) 1) →
    t.disk n = s.disk n

theorem BlockTaken.refl (s : Ext2) : BlockTaken s s := ⟨SameLayout.refl s, rfl, fun _ _ _ => rfl⟩

theorem Agree.blockTaken (ha : s.Agree) (hs : s.Pools) (hg : g < s.groups .blocks) (hk : k < s.bitsIn .blocks g)
    (hclear : bit (s.bitmap .blocks g) k = false) (fault : Option Transfer) :
    BlockTaken s (s.taking .blocks g k 0 fault).2 := by
  obtain ⟨⟨v, w, ht, -⟩, hframe⟩ := ha.taking_tallied hs hg hk hclear 0 fault
  exact ⟨ht.layout, ht.totals .inodes (by simp), fun n hn _ => hframe n hn⟩

/-- The block that is zeroed is a free one. -/
theorem BlockTaken.zero {b : ℕ} (h : BlockTaken s t) (hb : s.IsFirstFree b) :
    BlockTaken s (t.write (b * s.sectors % word) s.sectors fun _ => 0) where
  layout := h.layout.trans .write
  inodes := h.inodes
  frame n hn hfree := (write_disk_of_sector (hfree b hb.1 hb.2.1)).trans (h.frame n hn hfree)

/-- How `ext2_new_block` ends; without a stored error `*err` stays zero. -/
theorem Agree.newBlock_spec (ha : s.Agree) (hs : s.Pools) (fault : Option Transfer) :
    ∃ r err t, s.newBlock fault = (r, err, t) ∧ BlockTaken s t ∧ (err.getD 0 < 0 ↔ s.BlockFails fault) := by
  have herr : (-eio : ℤ) < 0 := by decide
  have hspc : (-enospc : ℤ) < 0 := by decide
  by_cases hzero : s.freeBlocksCount = 0
  · exact ⟨0, some (-enospc), s, if_pos hzero, .refl s, iff_of_true hspc (.inl hzero)⟩
  rw [newBlock_eq hzero]
  by_cases hfull : s.Full .blocks (ceilDiv s.blocksCount s.blocksPerGroup)
  · rw [take_full hfull]
    exact ⟨-1, some (-enospc), s, rfl, .refl s, iff_of_true hspc (.inr (.inl hfull))⟩
  obtain ⟨g, hfind⟩ := exists_group hfull
  have hg := ha.group_lt hfind (.inr hzero)
  obtain ⟨k, hbit, hk⟩ := ha.exists_bit hs hg (by simpa using (List.find?_range_eq_some.mp hfind).1)
  have hclear := (findFreeBit_spec hbit).2.1
  have htaken := ha.blockTaken hs hg hk hclear fault
  by_cases hread : fault = some .readBitmap
  · refine ⟨-1, some (-eio), s, ?_, .refl s, iff_of_true herr (.inr (.inr (by simp [hread])))⟩
    unfold take
    rw [hfind, hread]
    rfl
  by_cases hok : fault = none ∨ fault = some .zeroBlock
  · have hfirst := ha.isFirstFree hs hfind hg hbit hk
    rw [take_taken hfind hbit hok]
    dsimp only
    rw [hfirst.number]
    refine ⟨_, some 0, if fault = some .zeroBlock then (s.taking .blocks g k 0 fault).2
      else (s.taking .blocks g k 0 fault).2.write
        ((g * s.blocksPerGroup + k + s.firstDataBlock) * s.sectors % word)
        s.sectors fun _ => 0, rfl, ?_, ?_⟩
    · split_ifs
      · exact htaken
      · exact htaken.zero hfirst
    · apply iff_of_false (show ¬ (0 : ℤ) < 0 by decide)
      rintro (h | h | h)
      · exact hzero h
      · exact hfull h
      · rcases hok with rfl | rfl
        · exact h.1 rfl
        · exact h.2.1 rfl
  · have hspoils : Spoils fault := ⟨fun h => hok (.inl h), hread, fun h => hok (.inr h)⟩
    rw [take_spoiled hfind hbit hspoils]
    refine ⟨-1, if fault = some .writeBitmap then none else some (-eio), _, rfl, htaken, ?_⟩
    by_cases hwrite : fault = some .writeBitmap
    · rw [if_pos hwrite]
      apply iff_of_false (show ¬ (0 : ℤ) < 0 by decide)
      rintro (h | h | h)
      · exact hzero h
      · exact hfull h
      · exact h.2.2 hwrite
    · rw [if_neg hwrite]
      exact iff_of_true herr (.inr (.inr ⟨hspoils.1, hspoils.2.2, hwrite⟩))

end Ext2
end Ferrite.Fs
