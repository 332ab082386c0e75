import Ferrite.Fs.FileWrite
import Ferrite.Library.Runs
import Ferrite.Library.Shelf

/-!
# Runs of the allocators

Without faults, the blocks and the inodes are two shelves of numbers: every call returns what it
returns on the shelves, in any order of calls, as long as no block with bookkeeping is freed. So no
number is handed out again before it is freed, and the counters say how many are free.
-/
namespace Ferrite.Fs
open Packed Word Runs Shelves

/-- What a call returns; the two that allocate store an error besides. -/
inductive AllocResult
  | block (result : ℤ) (err : Option ℤ)
  | inode (ino : Option ℕ) (err : Option ℤ)
  | freed (result : ℤ)
deriving DecidableEq

namespace Ext2
variable (s : Ext2)

def call : AllocCall → AllocResult × Ext2
  | .newBlock => (.block (s.newBlock none).1 (s.newBlock none).2.1, (s.newBlock none).2.2)
  | .newInode mode slot mem =>
      (.inode (s.newInode none mode slot mem).1 (s.newInode none mode slot mem).2.1,
        (s.newInode none mode slot mem).2.2)
  | .freeBlock b => (.freed (s.freeBlockOn none b).1, (s.freeBlockOn none b).2)
  | .freeInode node => (.freed (s.freeInodeOn none node).1, (s.freeInodeOn none node).2)

/-! ## What the calls are for -/

/-- The number of the first block or inode. -/
def low : Pool → ℕ
  | .blocks => s.firstDataBlock
  | .inodes => 1

/-- The bit of a number. -/
def bitOn (p : Pool) (n : ℕ) : Bool :=
  bit (s.bitmap p ((n - s.low p) / s.perGroup p)) ((n - s.low p) % s.perGroup p)

/-- The numbers whose bits are set are in use. -/
def shelf (p : Pool) : Shelf where
  low := s.low p
  size := s.poolSize p
  used := (Finset.Ico (s.low p) (s.low p + s.poolSize p)).filter fun n => s.bitOn p n = true
  inside := Finset.filter_subset ..

end Ext2

/-- The calls on two shelves. -/
def callOn (shelves : Pool → Shelf) : AllocCall → AllocResult × (Pool → Shelf)
  | .newBlock =>
      match (shelves .blocks).take with
      | (none, _) => (.block 0 (some (-enospc)), shelves)
      | (some b, shelf) => (.block (toS32 b) (some 0), Function.update shelves .blocks shelf)
  | .newInode _ slot mem =>
      match (shelves .inodes).take with
      | (none, _) => (.inode none (some (-enospc)), shelves)
      | (some ino, shelf) =>
          (if slot && mem then .inode (some ino) (some 0) else .inode none (some (-enomem)),
            Function.update shelves .inodes shelf)
  | .freeBlock b =>
      let put := (shelves .blocks).put b
      if put.1 then (.freed 0, Function.update shelves .blocks put.2) else (.freed (-einval), shelves)
  | .freeInode node =>
      let put := (shelves .inodes).put node.ino
      if put.1 then (.freed 0, Function.update shelves .inodes put.2) else (.freed (-1), shelves)

namespace Ext2

/-- A block without bookkeeping. -/
def Holdable (s : Ext2) (b : ℕ) : Prop :=
  ∀ x, b * s.sectors % word ≤ x → x < b * s.sectors % word + s.sectors → ¬ s.Books x

/-- What is freed is a number of the file system, and not a block with bookkeeping. -/
def Allowed (s : Ext2) : AllocCall → Prop
  | .freeBlock b => s.InRange b ∧ s.Holdable b
  | .freeInode node => 1 ≤ node.ino ∧ node.ino ≤ s.inodesCount
  | _ => True

/-- Counters that agree with the bitmaps, and free blocks without bookkeeping; the number of
groups is computed without overflow. -/
structure Sound (s : Ext2) : Prop where
  agree : s.Agree
  pools : s.Pools
  whole : s.blocksCount + s.blocksPerGroup ≤ word ∧ s.inodesCount + s.inodesPerGroup ≤ word
  spare : ∀ b, s.InRange b → s.blockBit b = false → s.Holdable b

/-- Sound again, with the same calls allowed. -/
structure Follows (s t : Ext2) : Prop where
  sound : t.Sound
  allowed : ∀ call, s.Allowed call → t.Allowed call

/-- One bit has been set or cleared, and the counters count it. -/
structure Changed (s t : Ext2) (p : Pool) (g k : ℕ) (c : Bool) : Prop where
  tallied : ∃ v w, Tallied s t p g v w
  flipped : Flipped s t p g k c
  agree : t.Agree

variable {s t : Ext2} {p q : Pool} {g k n groups : ℕ} {c : Bool} {e : AllocCall × AllocResult}

/-! ## Numbers, groups and bits -/

theorem Tallied.low {v w : ℕ} (ht : Tallied s t p g v w) (q : Pool) : t.low q = s.low q := by
  cases q
  · exact ht.layout.firstDataBlock
  · rfl

theorem number_place (hk : k < s.perGroup p) :
    (s.low p + (g * s.perGroup p + k) - s.low p) / s.perGroup p = g ∧
      (s.low p + (g * s.perGroup p + k) - s.low p) % s.perGroup p = k := by
  rw [Nat.add_sub_cancel_left, Nat.mul_comm]
  exact ⟨by rw [Nat.mul_add_div (by omega), Nat.div_eq_of_lt hk, Nat.add_zero],
    by rw [Nat.mul_add_mod, Nat.mod_eq_of_lt hk]⟩

/-- A number of the pool has a bit in one of its groups. -/
theorem place_lt (hs : s.Pools) (h : s.low p ≤ n ∧ n < s.low p + s.poolSize p) :
    (n - s.low p) / s.perGroup p < s.groups p ∧
      (n - s.low p) % s.perGroup p < s.bitsIn p ((n - s.low p) / s.perGroup p) :=
  div_lt_groups (hs.perGroup p).1 (by omega)

theorem number_of_place (h : s.low p ≤ n) :
    s.low p + ((n - s.low p) / s.perGroup p * s.perGroup p + (n - s.low p) % s.perGroup p) = n := by
  rw [Nat.div_add_mod']
  omega

theorem mem_used : n ∈ (s.shelf p).used ↔ (s.low p ≤ n ∧ n < s.low p + s.poolSize p) ∧ s.bitOn p n = true := by
  unfold shelf
  rw [Finset.mem_filter, Finset.mem_Ico]

theorem mem_free_shelf : n ∈ (s.shelf p).free ↔
    (s.low p ≤ n ∧ n < s.low p + s.poolSize p) ∧ s.bitOn p n = false := by
  rw [Shelf.mem_free, mem_used, ← Bool.not_eq_true]
  change (s.low p ≤ n ∧ n < s.low p + s.poolSize p) ∧ _ ↔ _
  tauto

/-- Where a number is, given by a group and a bit. -/
theorem number_mem (hk : k < s.bitsIn p g) :
    s.low p ≤ s.low p + (g * s.perGroup p + k) ∧ s.low p + (g * s.perGroup p + k) < s.low p + s.poolSize p := by
  have hbits : s.bitsIn p g = min (s.perGroup p) (s.poolSize p - g * s.perGroup p) := rfl
  omega

theorem bitOn_number (hk : k < s.bitsIn p g) :
    s.bitOn p (s.low p + (g * s.perGroup p + k)) = bit (s.bitmap p g) k := by
  have hlt : k < s.perGroup p := hk.trans_le (min_le_left ..)
  unfold bitOn
  rw [(number_place hlt).1, (number_place hlt).2]

/-! ## One bit -/

theorem Changed.bitOn (h : Changed s t p g k c) (hs : s.Pools) (hg : g < s.groups p) (hk : k < s.bitsIn p g)
    (hn : s.low q ≤ n ∧ n < s.low q + s.poolSize q) :
    t.bitOn q n = if q = p ∧ n = s.low p + (g * s.perGroup p + k) then c else s.bitOn q n := by
  obtain ⟨⟨v, w, ht⟩, hflip, -⟩ := h
  have hplace := number_of_place hn.1
  have hgroup := (place_lt hs hn).1
  unfold Ext2.bitOn
  rw [ht.low, ht.perGroup]
  by_cases hhere : (q, (n - s.low q) / s.perGroup q) = (p, g)
  · obtain ⟨rfl, hdiv⟩ := Prod.mk.inj hhere
    rw [hdiv] at hplace ⊢
    rw [hflip.bits]
    by_cases hbit : (n - s.low q) % s.perGroup q = k
    · rw [hbit] at hplace ⊢
      rw [Function.update_self, if_pos ⟨rfl, hplace.symm⟩]
    · rw [Function.update_of_ne hbit, if_neg]
      rintro ⟨-, heq⟩
      omega
  · rw [hflip.others q _ hgroup hhere, if_neg]
    rintro ⟨rfl, rfl⟩
    have hlt : k < s.perGroup q := hk.trans_le (min_le_left ..)
    rw [(number_place hlt).1] at hhere
    exact hhere rfl

/-- The number of the bit has been added to the shelf or dropped from it. -/
theorem Changed.mem_used (h : Changed s t p g k c) (hs : s.Pools) (hg : g < s.groups p)
    (hk : k < s.bitsIn p g) : n ∈ (t.shelf q).used ↔
      if q = p ∧ n = s.low p + (g * s.perGroup p + k) then c = true else n ∈ (s.shelf q).used := by
  obtain ⟨v, w, ht⟩ := h.tallied
  have hnumber := number_mem hk
  rw [Ext2.mem_used, Ext2.mem_used, ht.low, ht.poolSize]
  by_cases hn : s.low q ≤ n ∧ n < s.low q + s.poolSize q
  · rw [h.bitOn hs hg hk hn]
    split_ifs
    · exact and_iff_right hn
    · rfl
  · rw [if_neg]
    · tauto
    · rintro ⟨rfl, rfl⟩
      exact hn hnumber

theorem Changed.shelf_eq (h : Changed s t p g k c) {shelf : Shelf} (hlow : shelf.low = s.low p)
    (hsize : shelf.size = s.poolSize p) (hused : shelf.used = (t.shelf p).used)
    (hother : ∀ q, q ≠ p → (t.shelf q).used = (s.shelf q).used) : t.shelf = Function.update s.shelf p shelf := by
  obtain ⟨v, w, ht⟩ := h.tallied
  funext q
  by_cases hq : q = p
  · subst hq
    rw [Function.update_self]
    exact Shelf.ext ((ht.low q).trans hlow.symm) ((ht.poolSize q).trans hsize.symm) hused.symm
  · rw [Function.update_of_ne hq]
    exact Shelf.ext (ht.low q) (ht.poolSize q) (hother q hq)

theorem Changed.shelf_add (h : Changed s t p g k true) (hs : s.Pools) (hg : g < s.groups p)
    (hk : k < s.bitsIn p g) (hfree : s.low p + (g * s.perGroup p + k) ∈ (s.shelf p).free) :
    t.shelf = Function.update s.shelf p ((s.shelf p).add _ hfree) := by
  refine h.shelf_eq rfl rfl ?_ fun q hq => ?_
  · ext n
    rw [h.mem_used hs hg hk]
    unfold Shelf.add
    rw [Finset.mem_insert]
    split_ifs with hn
    · exact iff_of_true (.inl hn.2) rfl
    · exact or_iff_right fun heq => hn ⟨rfl, heq⟩
  · ext n
    rw [h.mem_used hs hg hk, if_neg fun hn => hq hn.1]

theorem Changed.shelf_drop (h : Changed s t p g k false) (hs : s.Pools) (hg : g < s.groups p)
    (hk : k < s.bitsIn p g) :
    t.shelf = Function.update s.shelf p ((s.shelf p).drop (s.low p + (g * s.perGroup p + k))) := by
  refine h.shelf_eq rfl rfl ?_ fun q hq => ?_
  · ext n
    rw [h.mem_used hs hg hk]
    unfold Shelf.drop
    rw [Finset.mem_erase]
    split_ifs with hn
    · simp [hn.2]
    · exact and_iff_right fun heq => hn ⟨rfl, heq⟩
  · ext n
    rw [h.mem_used hs hg hk, if_neg fun hn => hq hn.1]

theorem Tallied.holdable {v w b : ℕ} (ht : Tallied s t p g v w) : t.Holdable b ↔ s.Holdable b := by
  unfold Holdable
  simp only [ht.layout.sectors, ht.books]

theorem Tallied.allowed {v w : ℕ} (ht : Tallied s t p g v w) (call : AllocCall) :
    t.Allowed call ↔ s.Allowed call := by
  cases call with
  | newBlock => exact Iff.rfl
  | newInode mode slot mem => exact Iff.rfl
  | freeBlock b => exact and_congr ht.layout.inRange ht.holdable
  | freeInode node =>
      unfold Allowed
      rw [ht.inodesCount]

theorem inRange_iff {b : ℕ} : s.InRange b ↔ s.low .blocks ≤ b ∧ b < s.low .blocks + s.poolSize .blocks := by
  unfold InRange low poolSize
  dsimp only
  omega

theorem Sound.follows (hs : s.Sound) : Follows s s := ⟨hs, fun _ hc => hc⟩

theorem Changed.follows (h : Changed s t p g k c) (hs : s.Sound) (hg : g < s.groups p) (hk : k < s.bitsIn p g)
    (hfreed : c = false → p = .blocks → s.Holdable (s.low p + (g * s.perGroup p + k))) : Follows s t := by
  obtain ⟨v, w, ht⟩ := h.tallied
  refine ⟨⟨h.agree, ht.pools hs.pools, ?_, ?_⟩, fun call hc => (ht.allowed call).mpr hc⟩
  · rw [ht.layout.blocksCount, ht.layout.blocksPerGroup, ht.inodesCount, ht.layout.inodesPerGroup]
    exact hs.whole
  · intro b hb hclear
    have hb' := ht.layout.inRange.mp hb
    have hbit : t.bitOn .blocks b = false := hclear
    rw [h.bitOn hs.pools hg hk (inRange_iff.mp hb')] at hbit
    rw [ht.holdable]
    split_ifs at hbit with hhere
    · obtain ⟨rfl, rfl⟩ := hhere
      exact hfreed hbit rfl
    · exact hs.spare b hb' hbit

/-- Another write outside of the books. -/
theorem Changed.write {lba : ℕ} {b : Bytes} (h : Changed s t p g k c) (hs : s.Pools) (hg : g < s.groups p)
    (hdata : ∀ x, lba ≤ x → x < lba + t.sectors → ¬ t.Books x) :
    Changed s (t.write lba t.sectors b) p g k c := by
  obtain ⟨⟨v, w, ht⟩, hflip, hagree⟩ := h
  have hpools := ht.pools hs
  have hmap (q : Pool) (i : ℕ) (hi : i < s.groups q) : (t.write lba t.sectors b).bitmap q i = t.bitmap q i :=
    bitmap_write hpools hdata (by rw [ht.groups]; exact hi)
  refine ⟨⟨v, w, ht.write⟩, ⟨?_, ?_⟩, hagree.write hpools hdata⟩
  · rw [hmap p g hg, hflip.bits]
  · intro q i hi hne
    rw [hmap q i hi, hflip.others q i hi hne]

/-! ## The first free number -/

theorem Agree.free_empty (ha : s.Agree) (hs : s.Pools) (h : ∀ g < s.groups p, s.freeCount p g = 0) :
    (s.shelf p).free = ∅ := by
  rw [Finset.eq_empty_iff_forall_notMem]
  intro n hn
  obtain ⟨hrange, hclear⟩ := mem_free_shelf.mp hn
  obtain ⟨hg, hk⟩ := place_lt hs hrange
  have hset := ha.all_set hg (h _ hg) hk
  exact Bool.false_ne_true (hclear.symm.trans hset)

/-- The first clear bit of the first group with one is that of the least free number. -/
theorem Agree.least_free (ha : s.Agree) (hs : s.Pools)
    (hfind : (List.range groups).find? (fun g => s.freeCount p g ≠ 0) = some g)
    (hbit : findFreeBit (s.bitmap p g) s.blocksize = some k) (hk : k < s.bitsIn p g) :
    s.low p + (g * s.perGroup p + k) ∈ (s.shelf p).free ∧
      ∀ n ∈ (s.shelf p).free, s.low p + (g * s.perGroup p + k) ≤ n := by
  obtain ⟨-, hclear, hlow⟩ := findFreeBit_spec hbit
  obtain ⟨-, hmem, hbefore⟩ := List.find?_range_eq_some.mp hfind
  refine ⟨mem_free_shelf.mpr ⟨number_mem hk, (bitOn_number hk).trans hclear⟩, ?_⟩
  intro n hn
  obtain ⟨hrange, hfree⟩ := mem_free_shelf.mp hn
  obtain ⟨hgroup, hplace⟩ := place_lt hs hrange
  by_contra hlt
  have hset : s.bitOn p n = true := by
    unfold Ext2.bitOn
    rcases div_lt_or_mod_lt (show n - s.low p < g * s.perGroup p + k by omega)
      (hk.trans_le (min_le_left ..)) with hless | ⟨hsame, hindex⟩
    · exact ha.all_set hgroup (by simpa using hbefore _ hless) hplace
    · rw [hsame]
      exact hlow _ hindex
  rw [hfree] at hset
  cases hset

/-! ## The calls -/

/-- A bit is taken, or all numbers are in use. -/
theorem Sound.take_spec (hs : s.Sound) (dirs : ℕ) (err : Option ℤ) (hall : s.groups p ≤ groups)
    (hlast : groups ≤ s.groups p ∨ s.freeTotal p ≠ 0) :
    ((∀ g < s.groups p, s.freeCount p g = 0) ∧ s.take none p groups dirs err = (.inr (some (-enospc)), s)) ∨
    ∃ g k t, g < s.groups p ∧ k < s.bitsIn p g ∧ Changed s t p g k true ∧
      (∃ h : s.low p + (g * s.perGroup p + k) ∈ (s.shelf p).free,
        (s.shelf p).take = (some (s.low p + (g * s.perGroup p + k)), (s.shelf p).add _ h)) ∧
      s.take none p groups dirs err = (.inl (g, k), t) := by
  by_cases hfull : s.Full p groups
  · left
    exact ⟨fun g hg => hfull g (hg.trans_le hall), take_full hfull⟩
  · right
    obtain ⟨g, hfind⟩ := exists_group hfull
    have hg := hs.agree.group_lt hfind hlast
    obtain ⟨k, hbit, hk⟩ := hs.agree.exists_bit hs.pools hg (by simpa using (List.find?_range_eq_some.mp hfind).1)
    have hclear := (findFreeBit_spec hbit).2.1
    obtain ⟨v, w, ht, -⟩ := hs.agree.taken hs.pools hg hk hclear dirs
    have hfault : (none : Option Transfer) ≠ some .writeBitmap := by simp
    obtain ⟨hfree, hleast⟩ := hs.agree.least_free hs.pools hfind hbit hk
    refine ⟨g, k, (s.taking p g k dirs none).2, hg, hk, ⟨⟨v, w, ht.store none _⟩, ?_, ?_⟩,
      ⟨hfree, Shelf.take_least hfree hleast⟩, take_taken hfind hbit (.inl rfl)⟩
    · exact hs.agree.taking_flipped hs.pools hg hk hclear dirs hfault
    · exact (hs.agree.taking hs.pools hg hk hclear dirs none).1 hfault

/-- A bit is cleared, or it was clear. -/
theorem Sound.release_spec (hs : s.Sound) (hg : g < s.groups p) (hk : k < s.bitsIn p g) (dirs : ℕ) (clear : ℤ) :
    (bit (s.bitmap p g) k = false ∧ s.release none p g k dirs clear = (clear, s)) ∨
    (bit (s.bitmap p g) k = true ∧ ∃ t, Changed s t p g k false ∧ s.release none p g k dirs clear = (0, t)) := by
  by_cases hclear : bit (s.bitmap p g) k = false
  · left
    refine ⟨hclear, ?_⟩
    unfold release
    rw [if_neg (by simp), if_pos hclear]
  · right
    have hset : bit (s.bitmap p g) k = true := by simpa using hclear
    obtain ⟨v, w, ht, -, hv, hw⟩ := hs.agree.released hs.pools hg hk hset dirs
    have hfault : (none : Option Transfer) ≠ some .writeBitmap := by simp
    have hbuff : ∀ x, s.blocksize ≤ x → clearBit (s.bitmap p g) k x = 0 := by
      intro x hx
      have hle := (bitsIn_le hs.pools p g).1
      rw [clearBit_out (by omega) hx, bitmap_of_le hx]
    refine ⟨hset, _, ⟨⟨v, w, ht.store none (clearBit (s.bitmap p g) k)⟩, ?_, ?_⟩, ?_⟩
    · exact ht.store_flipped addDirs_disk hs.pools hg (bit_clearBit _ k) hbuff hfault
    · exact hs.agree.store hs.pools ht addDirs_disk hg (bit_clearBit _ k) hbuff hv hw hfault
    · unfold release
      rw [if_neg (by simp), if_neg hclear]
      rfl

theorem ceilDiv_eq {a b : ℕ} (h : a + b ≤ word) (hb : 0 < b) : ceilDiv a b = (a + b - 1) / b := by
  unfold ceilDiv
  rw [Nat.mod_eq_of_lt (by omega)]

theorem Sound.groups_le (hs : s.Sound) :
    s.groups .blocks ≤ ceilDiv s.blocksCount s.blocksPerGroup ∧
      s.groups .inodes = ceilDiv s.inodesCount s.inodesPerGroup := by
  have hblocks : 0 < s.blocksPerGroup := (hs.pools.perGroup .blocks).1
  have hinodes : 0 < s.inodesPerGroup := (hs.pools.perGroup .inodes).1
  rw [ceilDiv_eq hs.whole.1 hblocks, ceilDiv_eq hs.whole.2 hinodes]
  refine ⟨?_, rfl⟩
  change (s.blocksCount - s.firstDataBlock + s.blocksPerGroup - 1) / s.blocksPerGroup ≤ _
  exact Nat.div_le_div_right (by omega)

/-- The counter of the superblock is zero when those of the groups are. -/
theorem Agree.total_eq_zero (ha : s.Agree) : s.freeTotal p = 0 ↔ ∀ g < s.groups p, s.freeCount p g = 0 := by
  rw [ha.totals p, List.sum_eq_zero_iff]
  constructor
  · intro h g hg
    rw [ha.counts p g hg]
    exact h _ (List.mem_map_of_mem (List.mem_range.mpr hg))
  · intro h x hx
    obtain ⟨g, hg, rfl⟩ := List.mem_map.mp hx
    have hlt := List.mem_range.mp hg
    rw [← ha.counts p g hlt]
    exact h g hlt

theorem Sound.newBlock_call (hs : s.Sound) :
    callOn s.shelf .newBlock = ((s.call .newBlock).1, (s.call .newBlock).2.shelf) ∧ Follows s (s.call .newBlock).2 := by
  unfold call callOn
  by_cases hzero : s.freeBlocksCount = 0
  · rw [Shelf.take_full (hs.agree.free_empty hs.pools ((hs.agree.total_eq_zero (p := .blocks)).mp hzero))]
    unfold newBlock
    rw [if_pos hzero]
    exact ⟨rfl, hs.follows⟩
  rw [newBlock_eq hzero]
  rcases hs.take_spec 0 none hs.groups_le.1 (.inr hzero) with
    ⟨hfull, -⟩ | ⟨g, k, t, hg, hk, hchanged, ⟨hfree, hshelf⟩, htake⟩
  · exact absurd ((hs.agree.total_eq_zero (p := .blocks)).mpr hfull) hzero
  · obtain ⟨hrange, hclear⟩ := mem_free_shelf.mp hfree
    obtain ⟨v, w, ht⟩ := hchanged.tallied
    have hnumber : wadd (wadd k (s.blocksPerGroup * g % word)) s.firstDataBlock
        = s.low .blocks + (g * s.perGroup .blocks + k) := by
      have hlt := (inRange_iff.mpr hrange).2.trans (get_lt 4 s.es 4)
      change s.firstDataBlock + (g * s.blocksPerGroup + k) < 256 ^ 4 at hlt
      have hw : word = 256 ^ 4 := rfl
      rw [Nat.mul_comm s.blocksPerGroup, Nat.mod_eq_of_lt (by omega),
        wadd_of_lt (show k + g * s.blocksPerGroup < word by omega), wadd_of_lt (by omega), Nat.add_comm k,
        Nat.add_comm _ s.firstDataBlock]
      rfl
    rw [hshelf, htake]
    dsimp only
    rw [hnumber, if_neg (by simp)]
    generalize hb : s.low .blocks + (g * s.perGroup .blocks + k) = b at *
    have hdata : ∀ x, b * s.sectors % word ≤ x → x < b * s.sectors % word + t.sectors → ¬ t.Books x := by
      intro x hx hlt
      rw [ht.layout.sectors] at hlt
      rw [ht.books]
      exact hs.spare b (inRange_iff.mpr hrange) hclear x hx hlt
    have hwritten := hchanged.write (b := fun _ => 0) hs.pools hg hdata
    rw [ht.layout.sectors] at hwritten
    refine ⟨?_, hwritten.follows hs hg hk fun h => absurd h (by simp)⟩
    subst hb
    rw [hwritten.shelf_add hs.pools hg hk hfree]

theorem Sound.newInode_call (hs : s.Sound) (mode : ℕ) (slot mem : Bool) :
    callOn s.shelf (.newInode mode slot mem)
        = ((s.call (.newInode mode slot mem)).1, (s.call (.newInode mode slot mem)).2.shelf) ∧
      Follows s (s.call (.newInode mode slot mem)).2 := by
  unfold call callOn newInode
  dsimp only
  rcases hs.take_spec (if isDir mode then 1 else 0) (some (-eio)) hs.groups_le.2.le (.inl hs.groups_le.2.ge) with
    ⟨hfull, htake⟩ | ⟨g, k, t, hg, hk, hchanged, ⟨hfree, hshelf⟩, htake⟩
  · rw [Shelf.take_full (hs.agree.free_empty hs.pools hfull), htake]
    exact ⟨rfl, hs.follows⟩
  · have hnumber : wadd (wadd k (s.inodesPerGroup * g % word)) 1 = s.low .inodes + (g * s.perGroup .inodes + k) :=
      (inode_number hk (min_le_left ..)).1.trans (Nat.add_comm _ 1)
    have hsound := hchanged.follows hs hg hk fun h => absurd h (by simp)
    have hnext := hchanged.shelf_add hs.pools hg hk hfree
    rw [hshelf, htake]
    dsimp only
    rw [hnumber]
    cases slot && mem with
    | true =>
        rw [if_pos rfl, if_pos rfl]
        exact ⟨by rw [hnext], hsound⟩
    | false =>
        rw [if_neg Bool.false_ne_true, if_neg Bool.false_ne_true]
        exact ⟨by rw [hnext], hsound⟩

/-- Giving a number back. -/
theorem Sound.release_call (hs : s.Sound) (hn : s.low p ≤ n ∧ n < s.low p + s.poolSize p)
    (hok : p = .blocks → s.Holdable n) (dirs : ℕ) (clear : ℤ) :
    ∃ t shelf, Follows s t ∧ (((s.shelf p).put n = (true, shelf) ∧ t.shelf = Function.update s.shelf p shelf ∧
        s.release none p ((n - s.low p) / s.perGroup p) ((n - s.low p) % s.perGroup p) dirs clear = (0, t)) ∨
      ((s.shelf p).put n = (false, shelf) ∧ t = s ∧
        s.release none p ((n - s.low p) / s.perGroup p) ((n - s.low p) % s.perGroup p) dirs clear = (clear, t))) := by
  obtain ⟨hg, hk⟩ := place_lt hs.pools hn
  have hplace := number_of_place hn.1
  rcases hs.release_spec hg hk dirs clear with ⟨hclear, hrelease⟩ | ⟨hset, t, hchanged, hrelease⟩
  · have hfree : n ∉ (s.shelf p).used := by
      rw [mem_used]
      rintro ⟨-, hset⟩
      exact Bool.false_ne_true (hclear.symm.trans hset)
    exact ⟨s, _, hs.follows, .inr ⟨Shelf.put_free hfree, rfl, hrelease⟩⟩
  · have hused : n ∈ (s.shelf p).used := mem_used.mpr ⟨hn, hset⟩
    have hdrop := hchanged.shelf_drop hs.pools hg hk
    rw [hplace] at hdrop
    refine ⟨t, _, hchanged.follows hs hg hk fun _ hp => ?_, .inl ⟨Shelf.put_used hused, hdrop, hrelease⟩⟩
    rw [hplace]
    exact hok hp

theorem call_freeBlock {b : ℕ} {r : ℤ} (h : s.freeBlockOn none b = (r, t)) :
    s.call (.freeBlock b) = (.freed r, t) := by
  have hcall : s.call (.freeBlock b) = (.freed (s.freeBlockOn none b).1, (s.freeBlockOn none b).2) := rfl
  rw [hcall, h]

theorem call_freeInode {node : VfsInode} {r : ℤ} (h : s.freeInodeOn none node = (r, t)) :
    s.call (.freeInode node) = (.freed r, t) := by
  have hcall : s.call (.freeInode node) = (.freed (s.freeInodeOn none node).1, (s.freeInodeOn none node).2) := rfl
  rw [hcall, h]

theorem Sound.freeBlock_call (hs : s.Sound) {b : ℕ} (hb : s.InRange b ∧ s.Holdable b) :
    callOn s.shelf (.freeBlock b) = ((s.call (.freeBlock b)).1, (s.call (.freeBlock b)).2.shelf) ∧
      Follows s (s.call (.freeBlock b)).2 := by
  have hcall : s.freeBlockOn none b = s.release none .blocks ((b - s.low .blocks) / s.perGroup .blocks)
      ((b - s.low .blocks) % s.perGroup .blocks) 0 (-einval) := by
    unfold freeBlockOn
    rw [hb.1.index]
    rfl
  obtain ⟨t, shelf, ht, ⟨hput, hshelf, hrelease⟩ | ⟨hput, rfl, hrelease⟩⟩ :=
    hs.release_call (inRange_iff.mp hb.1) (fun _ => hb.2) 0 (-einval)
  · rw [call_freeBlock (hcall.trans hrelease)]
    refine ⟨?_, ht⟩
    unfold callOn
    dsimp only
    rw [hput, hshelf, if_pos rfl]
  · rw [call_freeBlock (hcall.trans hrelease)]
    refine ⟨?_, ht⟩
    unfold callOn
    dsimp only
    rw [hput, if_neg Bool.false_ne_true]

theorem Sound.freeInode_call (hs : s.Sound) {node : VfsInode} (hino : 1 ≤ node.ino ∧ node.ino ≤ s.inodesCount) :
    callOn s.shelf (.freeInode node) = ((s.call (.freeInode node)).1, (s.call (.freeInode node)).2.shelf) ∧
      Follows s (s.call (.freeInode node)).2 := by
  have hcall : s.freeInodeOn none node = s.release none .inodes ((node.ino - s.low .inodes) / s.perGroup .inodes)
      ((node.ino - s.low .inodes) % s.perGroup .inodes) (if isDir node.mode then 0xFFFF else 0) (-1) := by
    have hindex : wsub node.ino 1 = node.ino - 1 := wsub_of_le hino.1 (hino.2.trans_lt (get_lt 4 s.es 0))
    unfold freeInodeOn
    rw [hindex]
    rfl
  have hrange : s.low .inodes ≤ node.ino ∧ node.ino < s.low .inodes + s.poolSize .inodes := by
    change 1 ≤ node.ino ∧ node.ino < 1 + s.inodesCount
    omega
  obtain ⟨t, shelf, ht, ⟨hput, hshelf, hrelease⟩ | ⟨hput, rfl, hrelease⟩⟩ :=
    hs.release_call hrange (by simp) (if isDir node.mode then 0xFFFF else 0) (-1)
  · rw [call_freeInode (hcall.trans hrelease)]
    refine ⟨?_, ht⟩
    unfold callOn
    dsimp only
    rw [hput, hshelf, if_pos rfl]
  · rw [call_freeInode (hcall.trans hrelease)]
    refine ⟨?_, ht⟩
    unfold callOn
    dsimp only
    rw [hput, if_neg Bool.false_ne_true]

/-- Every call does what it does on the shelves. -/
theorem Sound.call (hs : s.Sound) {c : AllocCall} (hc : s.Allowed c) :
    callOn s.shelf c = ((s.call c).1, (s.call c).2.shelf) ∧ Follows s (s.call c).2 := by
  cases c with
  | newBlock => exact hs.newBlock_call
  | newInode mode slot mem => exact hs.newInode_call mode slot mem
  | freeBlock b => exact hs.freeBlock_call hc
  | freeInode node => exact hs.freeInode_call hc

/-! ## The counters -/

/-- The bits of the pool one after the other. -/
def poolBit (s : Ext2) (p : Pool) (i : ℕ) : Bool := bit (s.bitmap p (i / s.perGroup p)) (i % s.perGroup p)

theorem sum_clearBits (hper : 0 < s.perGroup p) (n : ℕ) :
    ((List.range n).map (s.clearBits p)).sum = clears (s.poolBit p) (min (n * s.perGroup p) (s.poolSize p)) := by
  induction n with
  | zero =>
      rw [Nat.zero_mul, Nat.zero_min]
      rfl
  | succ n ih =>
      have hbits : s.bitsIn p n = min (s.perGroup p) (s.poolSize p - n * s.perGroup p) := rfl
      have hnext : min ((n + 1) * s.perGroup p) (s.poolSize p)
          = min (n * s.perGroup p) (s.poolSize p) + s.bitsIn p n := by
        rw [Nat.succ_mul]
        omega
      have hgroup : s.clearBits p n
          = clears (fun k => s.poolBit p (min (n * s.perGroup p) (s.poolSize p) + k)) (s.bitsIn p n) := by
        apply clears_congr
        intro k hk
        have hlt : k < s.perGroup p := by omega
        have hplace := number_place (s := s) (g := n) hlt
        rw [Nat.add_sub_cancel_left] at hplace
        rw [show min (n * s.perGroup p) (s.poolSize p) = n * s.perGroup p by omega, poolBit, hplace.1, hplace.2]
      rw [List.range_succ, List.map_append, List.sum_append, ih, hnext, List.map_cons, List.map_nil, List.sum_cons,
        List.sum_nil, Nat.add_zero, hgroup]
      unfold clears
      rw [Nat.count_add]

/-- A counter of free blocks or inodes says how many there are. -/
theorem Agree.freeTotal_eq (ha : s.Agree) (hs : s.Pools) (p : Pool) : s.freeTotal p = (s.shelf p).free.card := by
  have hper := (hs.perGroup p).1
  have hall : s.poolSize p ≤ s.groups p * s.perGroup p := by
    have hdm := Nat.div_add_mod' (s.poolSize p + s.perGroup p - 1) (s.perGroup p)
    have hlt := Nat.mod_lt (s.poolSize p + s.perGroup p - 1) hper
    change s.poolSize p ≤ (s.poolSize p + s.perGroup p - 1) / s.perGroup p * s.perGroup p
    omega
  rw [ha.totals, sum_clearBits hper, min_eq_right hall, clears, Nat.count_eq_card_filter_range]
  apply Finset.card_nbij' (fun i => s.low p + i) fun n => n - s.low p
  · intro i hi
    obtain ⟨hi, hclear⟩ := Finset.mem_filter.mp hi
    have hlt := Finset.mem_range.mp hi
    refine mem_free_shelf.mpr ⟨by dsimp only; omega, ?_⟩
    unfold bitOn
    rw [Nat.add_sub_cancel_left]
    exact hclear
  · intro n hn
    obtain ⟨hrange, hclear⟩ := mem_free_shelf.mp hn
    exact Finset.mem_filter.mpr ⟨Finset.mem_range.mpr (by dsimp only; omega), hclear⟩
  · intro i _
    exact Nat.add_sub_cancel_left ..
  · intro n hn
    have hrange := (mem_free_shelf.mp hn).1
    dsimp only
    omega

/-! ## Runs -/

/-- The calls return what they return on the shelves, whatever their order, and afterwards the
counters say how many numbers are free. -/
theorem alloc_refines (s : Ext2) (calls : List AllocCall) (hs : s.Sound) (hc : ∀ c ∈ calls, s.Allowed c) :
    play callOn s.shelf calls = ((play call s calls).1, (play call s calls).2.shelf) ∧
      (play call s calls).2.Sound ∧
      ∀ p, (play call s calls).2.freeTotal p = ((play call s calls).2.shelf p).free.card := by
  obtain ⟨hplay, hend⟩ := play_abstract (g := callOn) (I := Sound) (C := Allowed) (a := shelf)
    (fun s c hs hc => ⟨(hs.call hc).1, (hs.call hc).2.sound⟩)
    (fun s c hs hc c' hc' => (hs.call hc).2.allowed c' hc') hs hc
  exact ⟨hplay, hend, hend.agree.freeTotal_eq hend.pools⟩

theorem tinyDisk_holdable : tinyDisk.Holdable 8 := by
  have hstart : 8 * tinyDisk.sectors % word = 16 ∧ tinyDisk.sectors = 2 := by decide
  intro x hx hlt
  rw [hstart.1] at hx hlt
  rw [hstart.2] at hlt
  rintro (hsuper | ⟨p, g, hg, hbook⟩)
  · omega
  · rw [tinyDisk_groups, Nat.lt_one_iff] at hg
    rw [hg, (tinyDisk_start p).1, (tinyDisk_start p).2] at hbook
    unfold Apart at hbook
    cases p <;> simp at hbook <;> omega

theorem tinyDisk_range : tinyDisk.firstDataBlock = 1 ∧ tinyDisk.blocksCount = 9 := by decide

theorem tinyDisk_sound : tinyDisk.Sound where
  agree := tinyDisk_agree
  pools := tinyDisk_pools
  whole := by decide
  spare b hb hclear := by
    obtain ⟨hlow, hhigh⟩ := hb
    rw [tinyDisk_range.1] at hlow
    rw [tinyDisk_range.2] at hhigh
    have hset : ∀ b < 8, 1 ≤ b → tinyDisk.blockBit b = true := by decide
    have hb : b = 8 := by
      by_contra hne
      exact Bool.false_ne_true (hclear.symm.trans (hset b (by omega) hlow))
    subst hb
    exact tinyDisk_holdable

theorem tinyDisk_allowed : tinyDisk.Allowed (.freeBlock 8) :=
  ⟨⟨tinyDisk_range.1.le.trans (by decide), by rw [tinyDisk_range.2]; decide⟩, tinyDisk_holdable⟩

theorem alloc_refines_tiny :
    (play callOn tinyDisk.shelf [.newBlock, .newBlock, .freeBlock 8, .newBlock]).1
      = (play call tinyDisk [.newBlock, .newBlock, .freeBlock 8, .newBlock]).1 :=
  congrArg Prod.fst (alloc_refines tinyDisk [.newBlock, .newBlock, .freeBlock 8, .newBlock] tinyDisk_sound
    (by simpa [Allowed] using tinyDisk_allowed)).1

/-- A call with its result that hands out a number. -/
inductive Gives : Pool → ℕ → AllocCall × AllocResult → Prop
  | block {b : ℕ} : b < word → Gives .blocks b (.newBlock, .block (toS32 b) (some 0))
  | inode {mode ino : ℕ} {slot mem : Bool} {err : Option ℤ} :
      Gives .inodes ino (.newInode mode slot mem, .inode (some ino) err)

/-- A call with its result that takes a number back. -/
inductive TakesBack : Pool → ℕ → AllocCall × AllocResult → Prop
  | block (b : ℕ) : TakesBack .blocks b (.freeBlock b, .freed 0)
  | inode (node : VfsInode) : TakesBack .inodes node.ino (.freeInode node, .freed 0)

/-- A call that is allowed, with its result. -/
def Calls (s : Ext2) (e : AllocCall × AllocResult) (t : Ext2) : Prop := s.Allowed e.1 ∧ s.call e.1 = (e.2, t)

theorem Calls.result {call : AllocCall} {result : AllocResult} (hc : s.Allowed call)
    (h : (s.call call).1 = result) : Calls s (call, result) (s.call call).2 := ⟨hc, Prod.ext h rfl⟩

theorem Calls.shelf (h : Calls s e t) (hs : s.Sound) : callOn s.shelf e.1 = (e.2, t.shelf) ∧ t.Sound := by
  obtain ⟨hcall, hfollows⟩ := hs.call h.1
  rw [h.2] at hcall hfollows
  exact ⟨hcall, hfollows.sound⟩

theorem toS32_inj {a b : ℕ} (ha : a < word) (hb : b < word) (h : toS32 a = toS32 b) : a = b := by
  have hw : word = 2 ^ 32 := rfl
  unfold toS32 at h
  split_ifs at h <;> omega

/-- A number that is handed out was free and is in use. -/
theorem Gives.spec (hgives : Gives p n e) (h : Calls s e t) (hs : s.Sound) :
    n ∉ (s.shelf p).used ∧ n ∈ (t.shelf p).used := by
  obtain ⟨hshelf, -⟩ := h.shelf hs
  cases hgives with
  | block hn =>
      unfold callOn at hshelf
      dsimp only at hshelf
      rcases htake : (s.shelf .blocks).take with ⟨_ | b, shelf⟩
      · rw [htake] at hshelf
        cases (AllocResult.block.inj (Prod.mk.inj hshelf).1).2
      · rw [htake] at hshelf
        obtain ⟨hfree, hused⟩ := Shelf.take_some htake
        obtain ⟨hresult, hnext⟩ := Prod.mk.inj hshelf
        have hb := inRange_iff.mpr (mem_free_shelf.mp hfree).1
        obtain rfl : b = n := toS32_inj (hb.2.trans (get_lt 4 s.es 4)) hn (AllocResult.block.inj hresult).1
        rw [← hnext, Function.update_self, hused]
        exact ⟨((s.shelf .blocks).mem_free.mp hfree).2, Finset.mem_insert_self ..⟩
  | inode =>
      unfold callOn at hshelf
      dsimp only at hshelf
      rcases htake : (s.shelf .inodes).take with ⟨_ | ino, shelf⟩
      · rw [htake] at hshelf
        cases (AllocResult.inode.inj (Prod.mk.inj hshelf).1).1
      · rw [htake] at hshelf
        obtain ⟨hfree, hused⟩ := Shelf.take_some htake
        obtain ⟨hresult, hnext⟩ := Prod.mk.inj hshelf
        split_ifs at hresult
        · obtain rfl := Option.some.inj (AllocResult.inode.inj hresult).1
          rw [← hnext, Function.update_self, hused]
          exact ⟨((s.shelf .inodes).mem_free.mp hfree).2, Finset.mem_insert_self ..⟩
        · cases (AllocResult.inode.inj hresult).1

theorem mem_update {shelves : Pool → Shelf} {shelf : Shelf} (hsub : (shelves p).used ⊆ shelf.used)
    (hn : n ∈ (shelves q).used) : n ∈ (Function.update shelves p shelf q).used := by
  by_cases hq : q = p
  · subst hq
    rw [Function.update_self]
    exact hsub hn
  · rwa [Function.update_of_ne hq]

theorem eq_of_drop {shelves : Pool → Shelf} {b : ℕ} (hn : n ∈ (shelves p).used)
    (hgone : n ∉ (Function.update shelves q ((shelves q).drop b) p).used) : p = q ∧ n = b := by
  by_cases hp : p = q
  · subst hp
    rw [Function.update_self, Shelf.drop, Finset.mem_erase] at hgone
    exact ⟨rfl, by_contra fun hne => hgone ⟨hne, hn⟩⟩
  · rw [Function.update_of_ne hp] at hgone
    exact absurd hn hgone

/-- A number stays in use until it is taken back. -/
theorem Calls.takesBack (h : Calls s e t) (hs : s.Sound) (hn : n ∈ (s.shelf p).used)
    (hgone : n ∉ (t.shelf p).used) : TakesBack p n e := by
  obtain ⟨hshelf, -⟩ := h.shelf hs
  obtain ⟨call, result⟩ := e
  have hstays {q : Pool} {shelf : Shelf} (hsub : (s.shelf q).used ⊆ shelf.used)
      (hnext : Function.update s.shelf q shelf = t.shelf) : TakesBack p n (call, result) := by
    rw [← hnext] at hgone
    exact absurd (mem_update hsub hn) hgone
  cases call with
  | newBlock =>
      unfold callOn at hshelf
      dsimp only at hshelf
      rcases htake : (s.shelf .blocks).take with ⟨_ | b, shelf⟩
      · rw [htake] at hshelf
        rw [← (Prod.mk.inj hshelf).2] at hgone
        exact absurd hn hgone
      · rw [htake] at hshelf
        exact hstays (by rw [(Shelf.take_some htake).2]; exact Finset.subset_insert ..) (Prod.mk.inj hshelf).2
  | newInode mode slot mem =>
      unfold callOn at hshelf
      dsimp only at hshelf
      rcases htake : (s.shelf .inodes).take with ⟨_ | ino, shelf⟩
      · rw [htake] at hshelf
        rw [← (Prod.mk.inj hshelf).2] at hgone
        exact absurd hn hgone
      · rw [htake] at hshelf
        exact hstays (by rw [(Shelf.take_some htake).2]; exact Finset.subset_insert ..) (Prod.mk.inj hshelf).2
  | freeBlock b =>
      unfold callOn at hshelf
      dsimp only at hshelf
      by_cases hb : b ∈ (s.shelf .blocks).used
      · rw [Shelf.put_used hb, if_pos rfl] at hshelf
        obtain ⟨rfl, hnext⟩ := Prod.mk.inj hshelf
        rw [← hnext] at hgone
        obtain ⟨rfl, rfl⟩ := eq_of_drop hn hgone
        exact .block n
      · rw [Shelf.put_free hb, if_neg Bool.false_ne_true] at hshelf
        rw [← (Prod.mk.inj hshelf).2] at hgone
        exact absurd hn hgone
  | freeInode node =>
      unfold callOn at hshelf
      dsimp only at hshelf
      by_cases hino : node.ino ∈ (s.shelf .inodes).used
      · rw [Shelf.put_used hino, if_pos rfl] at hshelf
        obtain ⟨rfl, hnext⟩ := Prod.mk.inj hshelf
        rw [← hnext] at hgone
        obtain ⟨rfl, rfl⟩ := eq_of_drop hn hgone
        exact .inode node
      · rw [Shelf.put_free hino, if_neg Bool.false_ne_true] at hshelf
        rw [← (Prod.mk.inj hshelf).2] at hgone
        exact absurd hn hgone

/-- Between two calls that hand out the same number, one takes it back. -/
theorem not_given_twice (s u : Ext2) (p : Pool) (n : ℕ) (before between after : List (Ext2 × AllocCall × AllocResult))
    (x y : Ext2 × AllocCall × AllocResult) (hs : s.Sound)
    (hrun : Trace Calls s (before ++ x :: (between ++ y :: after)) u) (hx : Gives p n x.2) (hy : Gives p n y.2) :
    ∃ z ∈ between, TakesBack p n z.2 := by
  have hsound (s : Ext2) (e : AllocCall × AllocResult) (t : Ext2) (hs : s.Sound) (h : Calls s e t) : t.Sound :=
    (h.shelf hs).2
  obtain ⟨t, hbefore, hfirst⟩ := hrun.of_append
  have ht := (hbefore.throughout hsound hs).2
  cases hfirst with
  | @cons _ t' _ e _ hst hrest =>
      have hgiven := (hx.spec hst ht).2
      have ht' := hsound t e t' ht hst
      obtain ⟨w, hbetween, hlast⟩ := hrest.of_append
      have hw := (hbetween.throughout hsound ht').2
      cases hlast with
      | @cons _ w' _ e' _ hst' _ =>
          have hfree := (hy.spec hst' hw).1
          obtain ⟨z, hz, z', ⟨hzsound, hzused⟩, hstep, hends⟩ := hrest.exists_end
            (P := fun s => s.Sound ∧ n ∈ (s.shelf p).used) rfl ⟨ht', hgiven⟩ fun h => hfree h.2
          exact ⟨z, hz, hstep.takesBack hzsound hzused fun h => hends ⟨hsound _ _ _ hzsound hstep, h⟩⟩

/-- The only free block is handed out, freed and handed out again. -/
def tinyOne : Ext2 := (tinyDisk.call .newBlock).2
def tinyTwo : Ext2 := (tinyOne.call (.freeBlock 8)).2
def tinyThree : Ext2 := (tinyTwo.call .newBlock).2

theorem gives_eight : Gives .blocks 8 (.newBlock, .block 8 (some 0)) := by
  have h : (8 : ℤ) = toS32 8 := by decide
  rw [h]
  exact .block (by decide)

theorem tinyRun : Trace Calls tinyDisk [(tinyDisk, .newBlock, .block 8 (some 0)), (tinyOne, .freeBlock 8, .freed 0),
    (tinyTwo, .newBlock, .block 8 (some 0))] tinyThree := by
  have hone : (tinyDisk.call .newBlock).1 = .block 8 (some 0) := by decide +kernel
  have htwo : (tinyOne.call (.freeBlock 8)).1 = .freed 0 := by decide +kernel
  have hthree : (tinyTwo.call .newBlock).1 = .block 8 (some 0) := by decide +kernel
  have hallowed : tinyOne.Allowed (.freeBlock 8) :=
    (tinyDisk_sound.call (c := .newBlock) trivial).2.allowed _ tinyDisk_allowed
  exact .cons (.result trivial hone) (.cons (.result hallowed htwo) (.cons (.result trivial hthree) (.nil _)))

theorem not_given_twice_tiny : ∃ z ∈ [(tinyOne, AllocCall.freeBlock 8, AllocResult.freed 0)], TakesBack .blocks 8 z.2 :=
  not_given_twice tinyDisk tinyThree .blocks 8 [] [(tinyOne, .freeBlock 8, .freed 0)] []
    (tinyDisk, .newBlock, .block 8 (some 0)) (tinyTwo, .newBlock, .block 8 (some 0)) tinyDisk_sound tinyRun
    gives_eight gives_eight

end Ext2
end Ferrite.Fs
