import Ferrite.Fs.AllocAgree

/-!
# Failing allocations

A call that reports failure leaves the counters in step with the bitmaps, unless it is the
write of the bitmap that fails.
-/
namespace Ferrite.Fs
open Packed Word

inductive AllocCall
  | newBlock
  | newInode (mode : ℕ) (slot mem : Bool)
  | freeBlock (blockNum : ℕ)
  | freeInode (node : VfsInode)

namespace Ext2
variable (s : Ext2)

/-- A call that reports failure leaves counters that agree, and an allocation that does has
stored an error. The result 0 of `ext2_new_block` is a failure with an error. -/
def FailsClean (fault : Option Transfer) : AllocCall → Prop
  | .newBlock =>
      (s.newBlock fault).1 < 0 ∨ ((s.newBlock fault).1 = 0 ∧ ∃ e < 0, (s.newBlock fault).2.1 = some e) →
        (s.newBlock fault).2.2.Agree ∧ ∃ e < 0, (s.newBlock fault).2.1 = some e
  | .newInode mode slot mem =>
      (s.newInode fault mode slot mem).1 = none →
        (s.newInode fault mode slot mem).2.2.Agree ∧ ∃ e < 0, (s.newInode fault mode slot mem).2.1 = some e
  | .freeBlock b => (s.freeBlockOn fault b).1 < 0 → (s.freeBlockOn fault b).2.Agree
  | .freeInode node => (s.freeInodeOn fault node).1 < 0 → (s.freeInodeOn fault node).2.Agree

/-- What is freed is a block or an inode of the file system. -/
def Frees : AllocCall → Prop
  | .freeBlock b => s.InRange b
  | .freeInode node => 1 ≤ node.ino ∧ node.ino ≤ s.inodesCount
  | _ => True

/-- The bit of an inode. -/
def inodeBit (ino : ℕ) : Bool :=
  bit (s.bitmap .inodes ((ino - 1) / s.inodesPerGroup)) ((ino - 1) % s.inodesPerGroup)

/-- The first block that is not in use. -/
def IsFirstFree (b : ℕ) : Prop :=
  s.InRange b ∧ s.blockBit b = false ∧ ∀ c < b, s.InRange c → s.blockBit c = true

/-- No group that is looked at has a clear bit. -/
def Full (p : Pool) (groups : ℕ) : Prop := ∀ g < groups, s.freeCount p g = 0

/-- The write of the bitmap is not reached or does not fail; a block that is returned has a
number that is not negative as an `int`. -/
def Spared (fault : Option Transfer) : AllocCall → Prop
  | .newBlock =>
      s.freeBlocksCount = 0 ∨ s.Full .blocks (ceilDiv s.blocksCount s.blocksPerGroup) ∨
        (fault ≠ some .writeBitmap ∧
          (fault = none ∨ fault = some .zeroBlock → ∀ b, s.IsFirstFree b → b < 2 ^ 31))
  | .newInode _ _ _ => s.Full .inodes (ceilDiv s.inodesCount s.inodesPerGroup) ∨ fault ≠ some .writeBitmap
  | .freeBlock b => s.blockBit b = false ∨ fault ≠ some .writeBitmap
  | .freeInode node => s.inodeBit node.ino = false ∨ fault ≠ some .writeBitmap

variable {s} {t : Ext2} {p : Pool} {g k n groups dirs : ℕ} {fault : Option Transfer} {unwritten : Option ℤ}
variable {b : Bytes} {clear : ℤ}

/-! ## The search for a bit -/

theorem findFreeBit_spec {size : ℕ} (h : findFreeBit b size = some k) :
    k < 8 * size ∧ bit b k = false ∧ ∀ j < k, bit b j = true := by
  obtain ⟨hbit, hmem, hlow⟩ := List.find?_range_eq_some.mp h
  refine ⟨List.mem_range.mp hmem, of_decide_eq_true hbit, ?_⟩
  intro j hj
  simpa using hlow j hj

/-- A group with clear bits has a first one. -/
theorem Agree.exists_bit (ha : s.Agree) (hs : s.Pools) (hg : g < s.groups p) (hcount : s.freeCount p g ≠ 0) :
    ∃ k, findFreeBit (s.bitmap p g) s.blocksize = some k ∧ k < s.bitsIn p g := by
  rw [ha.counts p g hg] at hcount
  obtain ⟨j, hj, hclear⟩ := exists_clear hcount
  have hle := (bitsIn_le hs p g).1
  cases hfind : findFreeBit (s.bitmap p g) s.blocksize with
  | none =>
      have hall := List.find?_range_eq_none.mp hfind j (by omega)
      rw [hclear] at hall
      cases hall
  | some k =>
      refine ⟨k, rfl, ?_⟩
      by_contra hk
      have hlow := (findFreeBit_spec hfind).2.2 j (by omega)
      rw [hclear] at hlow
      cases hlow

/-- The first group with clear bits is one that has bits. -/
theorem Agree.group_lt (ha : s.Agree)
    (hfind : (List.range groups).find? (fun g => s.freeCount p g ≠ 0) = some g)
    (h : groups ≤ s.groups p ∨ s.freeTotal p ≠ 0) : g < s.groups p := by
  obtain ⟨hcount, hmem, hlow⟩ := List.find?_range_eq_some.mp hfind
  rcases h with hle | htotal
  · exact (List.mem_range.mp hmem).trans_le hle
  · by_contra hge
    apply htotal
    rw [ha.totals p]
    apply List.sum_eq_zero
    intro x hx
    obtain ⟨h, hh, rfl⟩ := List.mem_map.mp hx
    have hlt := List.mem_range.mp hh
    have hzero := hlow h (by omega)
    rw [← ha.counts p h hlt]
    simpa using hzero

/-! ## Taking and releasing -/

theorem take_full (h : s.Full p groups) : s.take fault p groups dirs unwritten =
    (.inr (some (-enospc)), s) := by
  have hnone : (List.range groups).find? (fun g => s.freeCount p g ≠ 0) = none := by
    rw [List.find?_range_eq_none]
    intro g hg
    simp [h g hg]
  unfold take
  rw [hnone]

theorem exists_group (h : ¬ s.Full p groups) :
    ∃ g, (List.range groups).find? (fun g => s.freeCount p g ≠ 0) = some g := by
  rw [← Option.isSome_iff_exists, List.find?_isSome]
  unfold Full at h
  push Not at h
  obtain ⟨g, hg, hcount⟩ := h
  exact ⟨g, List.mem_range.mpr hg, by simpa using hcount⟩

/-- The changed counters with the changed bitmap, on the way to the device. -/
def taking (s : Ext2) (p : Pool) (g k dirs : ℕ) (fault : Option Transfer) : Option Transfer × Ext2 :=
  ((s.tally p g 0xFFFF (word - 1)).addDirs g dirs).store fault p g (setBit (s.bitmap p g) k)

theorem take_found (hfind : (List.range groups).find? (fun g => s.freeCount p g ≠ 0) = some g)
    (hbit : findFreeBit (s.bitmap p g) s.blocksize = some k) (hfault : fault ≠ some .readBitmap) :
    s.take fault p groups dirs unwritten =
      match s.taking p g k dirs fault with
      | (none, t) => (.inl (g, k), t)
      | (some .writeBitmap, t) => (.inr unwritten, t)
      | (some _, t) => (.inr (some (-eio)), t) := by
  unfold take
  rw [hfind]
  dsimp only
  rw [if_neg hfault, hbit]
  rfl

theorem setBit_of_le (hk : k < 8 * n) {x : ℕ} (hx : n ≤ x) : setBit b k x = b x :=
  Function.update_of_ne (by omega) ..

theorem clearBit_out (hk : k < 8 * n) {x : ℕ} (hx : n ≤ x) : clearBit b k x = b x :=
  Function.update_of_ne (by omega) ..

theorem Agree.taking (ha : s.Agree) (hs : s.Pools) (hg : g < s.groups p) (hk : k < s.bitsIn p g)
    (hclear : bit (s.bitmap p g) k = false) (dirs : ℕ) (fault : Option Transfer) :
    (fault ≠ some .writeBitmap → (s.taking p g k dirs fault).2.Agree) ∧
      ¬ (s.taking p g k dirs (some .writeBitmap)).2.Agree := by
  obtain ⟨v, w, ht, hne, hv, hw⟩ := ha.taken hs hg hk hclear dirs
  have hdisk : ((s.tally p g 0xFFFF (word - 1)).addDirs g dirs).disk = s.disk := addDirs_disk
  have hbits := bitsIn_le hs p g
  constructor
  · intro hfault
    apply ha.store hs ht hdisk hg (bit_setBit _ k) _ hv hw hfault
    intro x hx
    rw [setBit_of_le (by omega) hx, bitmap_of_le hx]
  · exact ha.not_tallied ht hdisk hg hne

/-- How a call that finds a group ends, by the transfer that fails. -/
theorem Agree.take_cases (ha : s.Agree) (hs : s.Pools) (fault : Option Transfer) (dirs : ℕ)
    (unwritten : Option ℤ)
    (hfind : (List.range groups).find? (fun g => s.freeCount p g ≠ 0) = some g) (hg : g < s.groups p) :
    (fault = some .readBitmap ∧ s.take fault p groups dirs unwritten = (.inr (some (-eio)), s)) ∨
    (fault = some .writeBitmap ∧ ∃ t, ¬ t.Agree ∧ s.take fault p groups dirs unwritten = (.inr unwritten, t)) ∨
    ((fault ≠ none ∧ fault ≠ some .zeroBlock ∧ fault ≠ some .writeBitmap) ∧
      ∃ t, t.Agree ∧ s.take fault p groups dirs unwritten = (.inr (some (-eio)), t)) ∨
    ((fault = none ∨ fault = some .zeroBlock) ∧ ∃ k t, t.Agree ∧ k < s.bitsIn p g ∧
      findFreeBit (s.bitmap p g) s.blocksize = some k ∧
      s.take fault p groups dirs unwritten = (.inl (g, k), t)) := by
  have hcount := (List.find?_range_eq_some.mp hfind).1
  obtain ⟨k, hbit, hk⟩ := ha.exists_bit hs hg (by simpa using hcount)
  have htaking := ha.taking hs hg hk (findFreeBit_spec hbit).2.1 dirs
  match fault with
  | some .readBitmap =>
      left
      refine ⟨rfl, ?_⟩
      unfold take
      rw [hfind]
      rfl
  | some .writeBitmap =>
      right; left
      exact ⟨rfl, _, (htaking none).2, take_found hfind hbit (by simp)⟩
  | some .readDesc =>
      right; right; left
      exact ⟨by simp, _, (htaking (some .readDesc)).1 (by simp), take_found hfind hbit (by simp)⟩
  | some .writeDesc =>
      right; right; left
      exact ⟨by simp, _, (htaking (some .writeDesc)).1 (by simp), take_found hfind hbit (by simp)⟩
  | some .writeSuper =>
      right; right; left
      exact ⟨by simp, _, (htaking (some .writeSuper)).1 (by simp), take_found hfind hbit (by simp)⟩
  | some .zeroBlock =>
      right; right; right
      exact ⟨by simp, k, _, (htaking (some .zeroBlock)).1 (by simp), hk, hbit, take_found hfind hbit (by simp)⟩
  | none =>
      right; right; right
      exact ⟨by simp, k, _, (htaking none).1 (by simp), hk, hbit, take_found hfind hbit (by simp)⟩

/-! ## The block that is returned -/

theorem IsFirstFree.unique {b c : ℕ} (hb : s.IsFirstFree b) (hc : s.IsFirstFree c) : b = c := by
  rcases Nat.lt_trichotomy b c with hlt | heq | hlt
  · have hset := hc.2.2 b hlt hb.1
    rw [hb.2.1] at hset
    cases hset
  · exact heq
  · have hset := hb.2.2 c hlt hc.1
    rw [hc.2.1] at hset
    cases hset

theorem InRange.bitOf_lt {c : ℕ} (hc : s.InRange c) (hper : 0 < s.blocksPerGroup) :
    s.bitOf c < s.bitsIn .blocks (s.groupOf c) := by
  have hdm := Nat.div_add_mod' (c - s.firstDataBlock) s.blocksPerGroup
  have hlt := Nat.mod_lt (c - s.firstDataBlock) hper
  have := hc.1
  have := hc.2
  change (c - s.firstDataBlock) % s.blocksPerGroup < min s.blocksPerGroup
    (s.blocksCount - s.firstDataBlock - (c - s.firstDataBlock) / s.blocksPerGroup * s.blocksPerGroup)
  omega

/-- In a group without clear bits, all blocks are in use. -/
theorem Agree.all_set {j : ℕ} (ha : s.Agree) (hg : g < s.groups p) (hcount : s.freeCount p g = 0)
    (hj : j < s.bitsIn p g) : bit (s.bitmap p g) j = true := by
  rw [ha.counts p g hg] at hcount
  have hnone := Nat.count_iff_forall_not.mp hcount j hj
  simpa using hnone

theorem div_lt_or_mod_lt {x m : ℕ} (h : x < g * m + k) (hk : k < m) : x / m < g ∨ (x / m = g ∧ x % m < k) := by
  have hdm := Nat.div_add_mod' x m
  rcases Nat.lt_trichotomy (x / m) g with hlt | heq | hgt
  · exact .inl hlt
  · rw [heq] at hdm
    exact .inr ⟨heq, by omega⟩
  · have hmul := Nat.mul_le_mul_right m (Nat.succ_le_of_lt hgt)
    rw [Nat.succ_mul] at hmul
    omega

/-- The group and the bit of a block that is given by them. -/
theorem block_number (g : ℕ) (hk : k < s.blocksPerGroup) :
    s.groupOf (g * s.blocksPerGroup + k + s.firstDataBlock) = g ∧
      s.bitOf (g * s.blocksPerGroup + k + s.firstDataBlock) = k := by
  have hdiv : (g * s.blocksPerGroup + k) / s.blocksPerGroup = g := by
    rw [Nat.mul_comm, Nat.mul_add_div (by omega), Nat.div_eq_of_lt hk, Nat.add_zero]
  have hmod : (g * s.blocksPerGroup + k) % s.blocksPerGroup = k := by
    rw [Nat.mul_comm, Nat.mul_add_mod, Nat.mod_eq_of_lt hk]
  rw [groupOf, bitOf, Nat.add_sub_cancel, hdiv, hmod]
  exact ⟨rfl, rfl⟩

/-- The first clear bit of the first group with one is that of the first free block. -/
theorem Agree.isFirstFree (ha : s.Agree) (hs : s.Pools)
    (hfind : (List.range groups).find? (fun g => s.freeCount .blocks g ≠ 0) = some g)
    (hg : g < s.groups .blocks)
    (hbit : findFreeBit (s.bitmap .blocks g) s.blocksize = some k) (hk : k < s.bitsIn .blocks g) :
    s.IsFirstFree (g * s.blocksPerGroup + k + s.firstDataBlock) := by
  have hper : 0 < s.blocksPerGroup := (hs.perGroup .blocks).1
  have hbits : s.bitsIn .blocks g
      = min s.blocksPerGroup (s.blocksCount - s.firstDataBlock - g * s.blocksPerGroup) := rfl
  obtain ⟨-, hclear, hlow⟩ := findFreeBit_spec hbit
  obtain ⟨-, hmem, hbefore⟩ := List.find?_range_eq_some.mp hfind
  obtain ⟨hgroup, hbitOf⟩ := block_number (s := s) g (show k < s.blocksPerGroup by omega)
  refine ⟨⟨Nat.le_add_left .., by omega⟩, ?_, ?_⟩
  · unfold blockBit
    rw [hgroup, hbitOf]
    exact hclear
  · intro c hlt hc
    have hcbit := hc.bitOf_lt hper
    rcases div_lt_or_mod_lt (show c - s.firstDataBlock < g * s.blocksPerGroup + k by have := hc.1; omega)
      (by omega) with hgc | ⟨hgc, hkc⟩
    · have hzero : s.freeCount .blocks (s.groupOf c) = 0 := by simpa using hbefore (s.groupOf c) hgc
      have hset : bit (s.bitmap .blocks (s.groupOf c)) (s.bitOf c) = true :=
        ha.all_set (hgc.trans hg) hzero hcbit
      exact hset
    · unfold blockBit
      rw [show s.groupOf c = g from hgc]
      exact hlow _ hkc

/-- The number that is computed is the number of that block. -/
theorem IsFirstFree.number (hb : s.IsFirstFree (g * s.blocksPerGroup + k + s.firstDataBlock)) :
    wadd (wadd k (s.blocksPerGroup * g % word)) s.firstDataBlock
      = g * s.blocksPerGroup + k + s.firstDataBlock := by
  have hlt := hb.1.2.trans (get_lt 4 s.es 4)
  have hw : word = 256 ^ 4 := rfl
  rw [Nat.mul_comm s.blocksPerGroup, Nat.mod_eq_of_lt (by omega),
    wadd_of_lt (show k + g * s.blocksPerGroup < word by omega),
    wadd_of_lt (by omega), Nat.add_comm k]

/-! ## The four functions -/

/-- How `ext2_new_block` ends. -/
theorem newBlock_eq (hzero : s.freeBlocksCount ≠ 0) : s.newBlock fault =
    match s.take fault .blocks (ceilDiv s.blocksCount s.blocksPerGroup) 0 none with
    | (.inr err, t) => (-1, err, t)
    | (.inl (g, k), t) =>
        let blockNum := wadd (wadd k (s.blocksPerGroup * g % word)) s.firstDataBlock
        let zeroed := t.write (blockNum * s.sectors % word) s.sectors fun _ => 0
        (toS32 blockNum, some 0, if fault = some .zeroBlock then t else zeroed) :=
  if_neg hzero

theorem Agree.newBlock_cases (ha : s.Agree) (hs : s.Pools) (fault : Option Transfer) :
    ((s.freeBlocksCount = 0 ∨ s.Full .blocks (ceilDiv s.blocksCount s.blocksPerGroup)) ∧
      ∃ r, s.newBlock fault = (r, some (-enospc), s)) ∨
    (¬ (s.freeBlocksCount = 0 ∨ s.Full .blocks (ceilDiv s.blocksCount s.blocksPerGroup)) ∧
      ((fault = some .writeBitmap ∧ ∃ t, s.newBlock fault = (-1, none, t)) ∨
      ((fault ≠ none ∧ fault ≠ some .zeroBlock ∧ fault ≠ some .writeBitmap) ∧
        ∃ t, t.Agree ∧ s.newBlock fault = (-1, some (-eio), t)) ∨
      ((fault = none ∨ fault = some .zeroBlock) ∧
        ∃ b t, s.IsFirstFree b ∧ s.newBlock fault = (toS32 b, some 0, t)))) := by
  by_cases hzero : s.freeBlocksCount = 0
  · exact .inl ⟨.inl hzero, 0, if_pos hzero⟩
  by_cases hfull : s.Full .blocks (ceilDiv s.blocksCount s.blocksPerGroup)
  · rw [newBlock_eq hzero, take_full hfull]
    exact .inl ⟨.inr hfull, -1, rfl⟩
  right
  refine ⟨not_or.mpr ⟨hzero, hfull⟩, ?_⟩
  obtain ⟨g, hfind⟩ := exists_group hfull
  have hg := ha.group_lt hfind (.inr hzero)
  rw [newBlock_eq hzero]
  rcases ha.take_cases hs fault 0 none hfind hg with
    ⟨rfl, htake⟩ | ⟨rfl, t, -, htake⟩ | ⟨hfault, t, ht, htake⟩ | ⟨hfault, k, t, -, hk, hbit, htake⟩
  · right; left
    rw [htake]
    exact ⟨by simp, s, ha, rfl⟩
  · left
    rw [htake]
    exact ⟨rfl, t, rfl⟩
  · right; left
    rw [htake]
    exact ⟨hfault, t, ht, rfl⟩
  · right; right
    have hfirst := ha.isFirstFree hs hfind hg hbit hk
    refine ⟨hfault, g * s.blocksPerGroup + k + s.firstDataBlock,
      if fault = some .zeroBlock then t
      else t.write ((g * s.blocksPerGroup + k + s.firstDataBlock) * s.sectors % word) s.sectors
        fun _ => 0, hfirst, ?_⟩
    rw [htake]
    dsimp only
    rw [hfirst.number]

theorem Agree.newBlock_iff (ha : s.Agree) (hs : s.Pools) : s.FailsClean fault .newBlock ↔
    s.Spared fault .newBlock := by
  unfold FailsClean Spared
  rcases ha.newBlock_cases hs fault with
    ⟨hfull, r, hnew⟩ | ⟨hfree, ⟨rfl, t, hnew⟩ | ⟨hfault, t, ht, hnew⟩ | ⟨hfault, b, t, hb, hnew⟩⟩
  · rw [hnew]
    apply iff_of_true
    · exact fun _ => ⟨ha, -enospc, by decide, rfl⟩
    · rcases hfull with hzero | hfull
      · exact .inl hzero
      · exact .inr (.inl hfull)
  · rw [hnew]
    apply iff_of_false
    · intro hclean
      obtain ⟨-, e, -, he⟩ := hclean (.inl (show (-1 : ℤ) < 0 by decide))
      cases he
    · rintro (hzero | hfull | hwrite)
      · exact hfree (.inl hzero)
      · exact hfree (.inr hfull)
      · exact hwrite.1 rfl
  · rw [hnew]
    apply iff_of_true
    · exact fun _ => ⟨ht, -eio, by decide, rfl⟩
    · refine .inr (.inr ⟨hfault.2.2, ?_⟩)
      rintro (hnone | hzero)
      · exact absurd hnone hfault.1
      · exact absurd hzero hfault.2.1
  · rw [hnew]
    have hlt : b < 2 ^ 32 := hb.1.2.trans (get_lt 4 s.es 4)
    constructor
    · intro hclean
      refine .inr (.inr ⟨by rcases hfault with rfl | rfl <;> simp, ?_⟩)
      intro _ c hc
      cases hb.unique hc
      by_contra hbig
      have hneg : toS32 b < 0 := by
        unfold toS32
        rw [if_neg hbig]
        omega
      obtain ⟨-, e, he, heq⟩ := hclean (.inl hneg)
      cases heq
      exact absurd he (by decide)
    · rintro (hzero | hfull | ⟨-, hfits⟩)
      · exact absurd (.inl hzero) hfree
      · exact absurd (.inr hfull) hfree
      · have hsmall := hfits hfault b hb
        rintro (hneg | ⟨-, e, he, heq⟩)
        · unfold toS32 at hneg
          dsimp only at hneg
          rw [if_pos hsmall] at hneg
          omega
        · cases heq
          exact absurd he (by decide)

/-- How `ext2_new_inode` ends. -/
theorem Agree.newInode_cases (ha : s.Agree) (hs : s.Pools) (fault : Option Transfer) (mode : ℕ)
    (slot mem : Bool) :
    (s.Full .inodes (ceilDiv s.inodesCount s.inodesPerGroup) ∧
      s.newInode fault mode slot mem = (none, some (-enospc), s)) ∨
    (¬ s.Full .inodes (ceilDiv s.inodesCount s.inodesPerGroup) ∧
      ((fault = some .writeBitmap ∧ ∃ t, ¬ t.Agree ∧ s.newInode fault mode slot mem = (none, some (-eio), t)) ∨
      (fault ≠ some .writeBitmap ∧ ∃ t, t.Agree ∧
        ((∃ e < 0, s.newInode fault mode slot mem = (none, some e, t)) ∨
          ∃ ino, s.newInode fault mode slot mem = (some ino, some 0, t))))) := by
  unfold newInode
  extract_lets dirs
  by_cases hfull : s.Full .inodes (ceilDiv s.inodesCount s.inodesPerGroup)
  · rw [take_full hfull]
    exact .inl ⟨hfull, rfl⟩
  right
  refine ⟨hfull, ?_⟩
  obtain ⟨g, hfind⟩ := exists_group hfull
  have hle : ceilDiv s.inodesCount s.inodesPerGroup ≤ s.groups .inodes := Nat.div_le_div_right (Nat.mod_le ..)
  have hg := ha.group_lt hfind (.inl hle)
  rcases ha.take_cases hs fault dirs (some (-eio)) hfind hg with
    ⟨rfl, htake⟩ | ⟨rfl, t, ht, htake⟩ | ⟨hfault, t, ht, htake⟩ | ⟨hfault, k, t, ht, -, -, htake⟩
  · right
    rw [htake]
    exact ⟨by simp, s, ha, .inl ⟨-eio, by decide, rfl⟩⟩
  · left
    rw [htake]
    exact ⟨rfl, t, ht, rfl⟩
  · right
    rw [htake]
    exact ⟨hfault.2.2, t, ht, .inl ⟨-eio, by decide, rfl⟩⟩
  · right
    rw [htake]
    refine ⟨by rcases hfault with rfl | rfl <;> simp, t, ht, ?_⟩
    cases slot && mem
    · exact .inl ⟨-enomem, by decide, rfl⟩
    · exact .inr ⟨_, rfl⟩

theorem Agree.newInode_iff {mode : ℕ} {slot mem : Bool} (ha : s.Agree) (hs : s.Pools) :
    s.FailsClean fault (.newInode mode slot mem) ↔ s.Spared fault (.newInode mode slot mem) := by
  unfold FailsClean Spared
  dsimp only
  rcases ha.newInode_cases hs fault mode slot mem with
    ⟨hfull, hnew⟩ | ⟨hfree, ⟨rfl, t, ht, hnew⟩ | ⟨hfault, t, ht, ⟨e, he, hnew⟩ | ⟨ino, hnew⟩⟩⟩
  · rw [hnew]
    exact iff_of_true (fun _ => ⟨ha, -enospc, by decide, rfl⟩) (.inl hfull)
  · rw [hnew]
    apply iff_of_false
    · exact fun hclean => ht (hclean rfl).1
    · rintro (hfull | hwrite)
      · exact hfree hfull
      · exact hwrite rfl
  · rw [hnew]
    exact iff_of_true (fun _ => ⟨ht, e, he, rfl⟩) (.inr hfault)
  · rw [hnew]
    apply iff_of_true _ (.inr hfault)
    intro hnone
    cases hnone

/-- How a release ends. -/
theorem Agree.release_iff (ha : s.Agree) (hs : s.Pools) (hg : g < s.groups p) (hk : k < s.bitsIn p g)
    (fault : Option Transfer) (dirs : ℕ) (clear : ℤ) :
    ((s.release fault p g k dirs clear).1 < 0 → (s.release fault p g k dirs clear).2.Agree) ↔
      (bit (s.bitmap p g) k = false ∨ fault ≠ some .writeBitmap) := by
  unfold release
  by_cases hread : fault = some .readBitmap
  · rw [if_pos hread, hread]
    exact iff_of_true (fun _ => ha) (.inr (by simp))
  rw [if_neg hread]
  by_cases hclear : bit (s.bitmap p g) k = false
  · rw [if_pos hclear]
    exact iff_of_true (fun _ => ha) (.inl hclear)
  rw [if_neg hclear]
  have hset : bit (s.bitmap p g) k = true := by simpa using hclear
  obtain ⟨v, w, ht, hne, hv, hw⟩ := ha.released hs hg hk hset dirs
  have hdisk : ((s.tally p g 1 1).addDirs g dirs).disk = s.disk := addDirs_disk
  have hbits := bitsIn_le hs p g
  by_cases hwrite : fault = some .writeBitmap
  · rw [hwrite]
    apply iff_of_false
    · exact fun hclean => ha.not_tallied ht hdisk hg hne (hclean (show -eio < 0 by decide))
    · rintro (h | h)
      · exact hclear h
      · exact h rfl
  · have hagree : (((s.tally p g 1 1).addDirs g dirs).store fault p g (clearBit (s.bitmap p g) k)).2.Agree := by
      apply ha.store hs ht hdisk hg (bit_clearBit _ k) _ hv hw hwrite
      intro x hx
      rw [clearBit_out (by omega) hx, bitmap_of_le hx]
    apply iff_of_true _ (.inr hwrite)
    match ((s.tally p g 1 1).addDirs g dirs).store fault p g (clearBit (s.bitmap p g) k), hagree with
    | (none, _), h => exact fun _ => h
    | (some _, _), h => exact fun _ => h

theorem div_lt_groups {p : Pool} {x : ℕ} (hper : 0 < s.perGroup p) (hx : x < s.poolSize p) :
    x / s.perGroup p < s.groups p ∧ x % s.perGroup p < s.bitsIn p (x / s.perGroup p) := by
  have hdm := Nat.div_add_mod' x (s.perGroup p)
  have hlt := Nat.mod_lt x hper
  constructor
  · apply (Nat.div_lt_iff_lt_mul hper).mpr
    have hceil := Nat.lt_div_mul_add (a := s.poolSize p + s.perGroup p - 1) hper
    unfold groups
    omega
  · unfold bitsIn
    omega

theorem Agree.freeBlock_iff {b : ℕ} (ha : s.Agree) (hs : s.Pools) (hb : s.InRange b) :
    s.FailsClean fault (.freeBlock b) ↔ s.Spared fault (.freeBlock b) := by
  have hlt : b - s.firstDataBlock < s.poolSize .blocks := by
    have := hb.1
    have := hb.2
    change b - s.firstDataBlock < s.blocksCount - s.firstDataBlock
    omega
  obtain ⟨hg, hk⟩ := div_lt_groups (hs.perGroup .blocks).1 hlt
  have hcall : s.freeBlockOn fault b = s.release fault .blocks (s.groupOf b) (s.bitOf b) 0 (-einval) := by
    unfold freeBlockOn
    rw [hb.index]
    rfl
  unfold FailsClean Spared
  dsimp only
  rw [hcall]
  exact ha.release_iff hs hg hk fault 0 (-einval)

theorem Agree.freeInode_iff {node : VfsInode} (ha : s.Agree) (hs : s.Pools)
    (hnode : 1 ≤ node.ino ∧ node.ino ≤ s.inodesCount) :
    s.FailsClean fault (.freeInode node) ↔ s.Spared fault (.freeInode node) := by
  have hlt : node.ino - 1 < s.poolSize .inodes := by
    change node.ino - 1 < s.inodesCount
    omega
  obtain ⟨hg, hk⟩ := div_lt_groups (hs.perGroup .inodes).1 hlt
  have hindex : wsub node.ino 1 = node.ino - 1 :=
    wsub_of_le hnode.1 (hnode.2.trans_lt (get_lt 4 s.es 0))
  have hcall : s.freeInodeOn fault node = s.release fault .inodes ((node.ino - 1) / s.inodesPerGroup)
      ((node.ino - 1) % s.inodesPerGroup) (if isDir node.mode then 0xFFFF else 0) (-1) := by
    unfold freeInodeOn
    rw [hindex]
  unfold FailsClean Spared
  dsimp only
  rw [hcall]
  exact ha.release_iff hs hg hk fault (if isDir node.mode then 0xFFFF else 0) (-1)

/-- On a file system with counters that agree, a call that reports failure leaves them so,
and an allocation has stored an error, exactly if the write of the bitmap does not fail and
the block that is returned has a number below 2³¹. -/
theorem fails_clean_iff (s : Ext2) (ha : s.Agree) (hs : s.Pools) (fault : Option Transfer) (call : AllocCall)
    (hcall : s.Frees call) : s.FailsClean fault call ↔ s.Spared fault call :=
  match call with
  | .newBlock => ha.newBlock_iff hs
  | .newInode _ _ _ => ha.newInode_iff hs
  | .freeBlock _ => ha.freeBlock_iff hs hcall
  | .freeInode _ => ha.freeInode_iff hs hcall

/-- A file system of eight blocks and eight inodes, with one of each free. -/
def tinyDisk : Ext2 where
  disk := fun x => if x = 3072 ∨ x = 4096 then 127 else 255
  es := put 2 (put 4 (put 4 (put 4 (put 4 (put 4 (put 4 (fun _ => 0) 0 8) 4 9) 12 1) 16 1) 20 1) 32 8) 40 8
  groupDesc := fun _ => put 2 (put 2 (put 4 (put 4 (put 4 (fun _ => 0) 0 3) 4 4) 8 5) 12 1) 14 1

theorem tinyDisk_groups (p : Pool) : tinyDisk.groups p = 1 := by
  cases p <;> decide

theorem tinyDisk_clear (p : Pool) : tinyDisk.freeCount p 0 = 1 ∧ tinyDisk.freeTotal p = 1 ∧
    tinyDisk.clearBits p 0 = 1 := by
  cases p <;> decide

theorem tinyDisk_agree : tinyDisk.Agree where
  counts p g hg := by
    rw [tinyDisk_groups, Nat.lt_one_iff] at hg
    rw [hg, (tinyDisk_clear p).1, (tinyDisk_clear p).2.2]
  totals p := by
    rw [tinyDisk_groups, (tinyDisk_clear p).2.1]
    simp [(tinyDisk_clear p).2.2]

theorem tinyDisk_start (p : Pool) : tinyDisk.bitmapStart p 0 = (if p = .blocks then 6 else 8) ∧
    tinyDisk.sectors = 2 := by
  cases p <;> decide

theorem tinyDisk_pools : tinyDisk.Pools where
  perGroup p := by cases p <;> decide
  behind p g q h hg hh := by
    rw [tinyDisk_groups, Nat.lt_one_iff] at hg hh
    rw [hg, hh, (tinyDisk_start p).1]
    cases p <;> decide
  apart p g q h hg hh hne := by
    rw [tinyDisk_groups, Nat.lt_one_iff] at hg hh
    subst hg hh
    rw [(tinyDisk_start p).1, (tinyDisk_start q).1, (tinyDisk_start q).2]
    unfold Apart
    cases p <;> cases q <;> first | exact absurd rfl hne | decide

theorem fails_clean_iff_desc : (tinyDisk.freeBlockOn (some .writeDesc) 1).2.Agree :=
  (fails_clean_iff tinyDisk tinyDisk_agree tinyDisk_pools (some .writeDesc) (.freeBlock 1)
    (show tinyDisk.InRange 1 by unfold InRange; decide)).mpr (.inr (by decide)) (by decide)

/-- The write of the bitmap fails. -/
theorem not_fails_clean : ¬ ∀ (s : Ext2) (fault : Option Transfer) (call : AllocCall),
    s.Agree → s.Pools → s.Frees call → s.FailsClean fault call := by
  intro h
  have hclean := h tinyDisk (some .writeBitmap) .newBlock tinyDisk_agree tinyDisk_pools trivial
  rcases (tinyDisk_agree.newBlock_iff tinyDisk_pools).mp hclean with hzero | hfull | hwrite
  · have hone : tinyDisk.freeBlocksCount = 1 := by decide
    omega
  · have hgroups : 0 < ceilDiv tinyDisk.blocksCount tinyDisk.blocksPerGroup := by decide
    have hzero := hfull 0 hgroups
    rw [(tinyDisk_clear .blocks).1] at hzero
    cases hzero
  · exact hwrite.1 rfl

end Ext2
end Ferrite.Fs
