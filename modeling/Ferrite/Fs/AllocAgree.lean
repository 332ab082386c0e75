import Ferrite.Fs.Alloc
import Mathlib.Algebra.Order.BigOperators.Group.List

/-!
# Counters and bitmaps

The counters in memory agree with the bitmaps on the device when each says how many bits
are clear. Between the change of the counters and the write of the bitmap they do not.
-/
namespace Ferrite.Fs
open Packed Word

namespace Ext2
variable (s : Ext2)

/-- The bits of a group, and how many things there are in all. -/
def perGroup : Pool → ℕ
  | .blocks => s.blocksPerGroup
  | .inodes => s.inodesPerGroup
def poolSize : Pool → ℕ
  | .blocks => s.blocksCount - s.firstDataBlock
  | .inodes => s.inodesCount

def groups (p : Pool) : ℕ := (s.poolSize p + s.perGroup p - 1) / s.perGroup p

/-- The bits of a group that stand for something, and how many of them are clear. -/
def bitsIn (p : Pool) (g : ℕ) : ℕ := min (s.perGroup p) (s.poolSize p - g * s.perGroup p)
def clearBits (p : Pool) (g : ℕ) : ℕ := clears (bit (s.bitmap p g)) (s.bitsIn p g)

/-- The counters of the groups and of the superblock are those of the bitmaps. -/
structure Agree : Prop where
  counts : ∀ p, ∀ g < s.groups p, s.freeCount p g = s.clearBits p g
  totals : ∀ p, s.freeTotal p = ((List.range (s.groups p)).map (s.clearBits p)).sum

def bitmapStart (p : Pool) (g : ℕ) : ℕ := s.bitmapBlock p g * s.sectors % word

/-- The bitmaps have the bits of their groups, and lie behind the descriptors and apart. -/
structure Pools : Prop where
  perGroup : ∀ p, 0 < s.perGroup p ∧ s.perGroup p ≤ 8 * s.blocksize ∧ s.perGroup p < 2 ^ 16
  behind : ∀ p g q h, g < s.groups p → h < s.groups q → 4 + h / 16 < s.bitmapStart p g
  apart : ∀ p g q h, g < s.groups p → h < s.groups q → (p, g) ≠ (q, h) →
    Apart (s.bitmapStart p g) s.sectors (s.bitmapStart q h) s.sectors

/-- The counters of one group of a pool are other ones, and nothing else that counts. -/
structure Tallied (s t : Ext2) (p : Pool) (g v w : ℕ) : Prop where
  layout : SameLayout s t
  inodesCount : t.inodesCount = s.inodesCount
  here : t.freeCount p g = v ∧ t.freeTotal p = w
  counts : ∀ q h, (q, h) ≠ (p, g) → t.freeCount q h = s.freeCount q h
  totals : ∀ q, q ≠ p → t.freeTotal q = s.freeTotal q

/-- One bit of the bitmaps is another one. -/
structure Flipped (s t : Ext2) (p : Pool) (g k : ℕ) (c : Bool) : Prop where
  bits : bit (t.bitmap p g) = Function.update (bit (s.bitmap p g)) k c
  others : ∀ q h, h < s.groups q → (q, h) ≠ (p, g) → t.bitmap q h = s.bitmap q h

variable {s} {t u : Ext2} {p q : Pool} {g h k v w n lba : ℕ} {c : Bool} {buff : Bytes}

/-! ## The layout -/

theorem SameLayout.bitmapBlock (hl : SameLayout s t) (p : Pool) (g : ℕ) :
    t.bitmapBlock p g = s.bitmapBlock p g := by
  cases p
  · exact hl.blockBitmap g
  · exact hl.inodeBitmap g

theorem Tallied.perGroup (ht : Tallied s t p g v w) (q : Pool) : t.perGroup q = s.perGroup q := by
  cases q
  · exact ht.layout.blocksPerGroup
  · exact ht.layout.inodesPerGroup

theorem Tallied.poolSize (ht : Tallied s t p g v w) (q : Pool) : t.poolSize q = s.poolSize q := by
  cases q
  · unfold Ext2.poolSize
    rw [ht.layout.blocksCount, ht.layout.firstDataBlock]
  · exact ht.inodesCount

theorem Tallied.groups (ht : Tallied s t p g v w) (q : Pool) : t.groups q = s.groups q := by
  unfold Ext2.groups
  rw [ht.poolSize, ht.perGroup]

theorem Tallied.bitsIn (ht : Tallied s t p g v w) (q : Pool) (h : ℕ) : t.bitsIn q h = s.bitsIn q h := by
  unfold Ext2.bitsIn
  rw [ht.poolSize, ht.perGroup]

theorem Tallied.bitmapStart (ht : Tallied s t p g v w) (q : Pool) (h : ℕ) :
    t.bitmapStart q h = s.bitmapStart q h := by
  unfold Ext2.bitmapStart
  rw [ht.layout.bitmapBlock, ht.layout.sectors]

/-! ## The counters -/

theorem tallied_count (s : Ext2) (p : Pool) (g v w : ℕ) :
    Tallied s (s.count g p.countField v p.totalField w) p g (v % 2 ^ 16) (w % 2 ^ 32) where
  layout := by
    cases p
    · exact .count (by decide) (by decide)
    · exact .count (by decide) (by decide)
  inodesCount := by
    cases p <;> exact get_put_of_disjoint (by decide)
  here := by
    constructor
    · unfold freeCount Ext2.count
      dsimp only
      rw [Function.update_self]
      exact get_put 2 _ _ _
    · exact get_put 4 _ _ _
  counts q h hne := by
    unfold freeCount Ext2.count
    dsimp only
    by_cases hg : h = g
    · subst hg
      rw [Function.update_self]
      cases p <;> cases q <;> first | exact absurd rfl hne | exact get_put_of_disjoint (by decide)
    · rw [Function.update_of_ne hg]
  totals q hne := by
    cases p <;> cases q <;> first | exact absurd rfl hne | exact get_put_of_disjoint (by decide)

theorem get_addDirs {m o : ℕ} (i : ℕ) (ho : o + m ≤ 16) :
    get m ((s.addDirs g n).groupDesc i) o = get m (s.groupDesc i) o := by
  unfold addDirs
  split_ifs with hn
  · rfl
  · dsimp only
    by_cases hi : i = g
    · subst hi
      rw [Function.update_self]
      exact get_put_of_disjoint (by omega)
    · rw [Function.update_of_ne hi]

theorem addDirs_es : (s.addDirs g n).es = s.es := by
  unfold addDirs
  split_ifs <;> rfl

theorem addDirs_disk : (s.addDirs g n).disk = s.disk := by
  unfold addDirs
  split_ifs <;> rfl

/-- The number of directories counts nothing here. -/
theorem Tallied.addDirs (ht : Tallied s t p g v w) (i n : ℕ) : Tallied s (t.addDirs i n) p g v w := by
  have hcount (q : Pool) (h : ℕ) : (t.addDirs i n).freeCount q h = t.freeCount q h := by
    cases q <;> exact get_addDirs h (by decide)
  have htotal (q : Pool) : (t.addDirs i n).freeTotal q = t.freeTotal q := by
    unfold freeTotal
    rw [addDirs_es]
  have hlayout : SameLayout t (t.addDirs i n) := by
    refine ⟨?_, ?_, ?_, ?_, ?_, ?_, fun h => get_addDirs h (by decide), fun h => get_addDirs h (by decide),
      fun h => get_addDirs h (by decide)⟩
    · unfold Ext2.blocksize
      rw [addDirs_es]
    · unfold Ext2.blocksCount
      rw [addDirs_es]
    · unfold Ext2.firstDataBlock
      rw [addDirs_es]
    · unfold Ext2.blocksPerGroup
      rw [addDirs_es]
    · unfold Ext2.inodesPerGroup
      rw [addDirs_es]
    · unfold Ext2.inodeSize
      rw [addDirs_es]
  have hinodes : (t.addDirs i n).inodesCount = t.inodesCount := by
    unfold Ext2.inodesCount
    rw [addDirs_es]
  exact ⟨ht.layout.trans hlayout, hinodes.trans ht.inodesCount, by rw [hcount, htotal]; exact ht.here,
    fun q h hne => (hcount q h).trans (ht.counts q h hne), fun q hne => (htotal q).trans (ht.totals q hne)⟩

/-- A write to the device changes no counter in memory. -/
theorem Tallied.write (ht : Tallied s t p g v w) : Tallied s (t.write lba n buff) p g v w :=
  ⟨ht.layout.trans .write, ht.inodesCount, ht.here, ht.counts, ht.totals⟩

theorem Tallied.bgdWrite (ht : Tallied s t p g v w) (i : ℕ) : Tallied s (t.bgdWrite i) p g v w := ht.write

theorem Tallied.superblockWrite (ht : Tallied s t p g v w) : Tallied s t.superblockWrite p g v w := ht.write

/-! ## The bitmaps -/

theorem bitmap_of_le {x : ℕ} (hx : s.blocksize ≤ x) : s.bitmap p g x = 0 := readBlock_of_le hx

/-- What is written in the place of a bitmap is the bitmap, and the others stay. -/
theorem Tallied.flip (ht : Tallied s t p g v w) (hdisk : t.disk = s.disk) (hs : s.Pools) (hg : g < s.groups p)
    (hbits : bit buff = Function.update (bit (s.bitmap p g)) k c) (hzero : ∀ x, s.blocksize ≤ x → buff x = 0) :
    Flipped s (t.write (t.bitmapBlock p g * t.sectors % word) t.sectors buff) p g k c where
  bits := by
    have hread : (t.write (t.bitmapBlock p g * t.sectors % word) t.sectors buff).bitmap p g = buff := by
      apply read_write_self
      intro x hx
      rw [sectors_mul, write_blocksize, ht.layout.blocksize] at hx
      exact hzero x hx
    rw [hread, hbits]
  others q h hh hne := by
    have hsame : t.bitmap q h = s.bitmap q h := by
      unfold bitmap readBlock read
      rw [hdisk, ht.layout.bitmapBlock, ht.layout.sectors]
    have hapart := hs.apart p g q h hg hh (Ne.symm hne)
    rw [← ht.bitmapStart, ← ht.bitmapStart, ← ht.layout.sectors] at hapart
    rw [← hsame]
    exact readBlock_write_apart hapart

/-- A write in front of the bitmaps changes none. -/
theorem Flipped.write (hf : Flipped s t p g k c) (ht : Tallied s t p g v w) (hg : g < s.groups p)
    (hlba : ∀ q h, h < s.groups q → lba + n ≤ s.bitmapStart q h) : Flipped s (t.write lba n buff) p g k c := by
  have hread (q : Pool) (h : ℕ) (hh : h < s.groups q) : (t.write lba n buff).bitmap q h = t.bitmap q h := by
    have hlow := hlba q h hh
    rw [← ht.bitmapStart] at hlow
    exact readBlock_write_apart (.inl hlow)
  refine ⟨?_, ?_⟩
  · rw [hread p g hg, hf.bits]
  · intro q h hh hne
    rw [hread q h hh, hf.others q h hh hne]

theorem Flipped.bgdWrite {i : ℕ} (hf : Flipped s t p g k c) (ht : Tallied s t p g v w) (hs : s.Pools)
    (hg : g < s.groups p) (hi : i < s.groups q) : Flipped s (t.bgdWrite i) p g k c := by
  apply hf.write ht hg
  intro r h hh
  have := hs.behind r h q i hh hi
  omega

theorem Flipped.superblockWrite (hf : Flipped s t p g k c) (ht : Tallied s t p g v w) (hs : s.Pools)
    (hg : g < s.groups p) : Flipped s t.superblockWrite p g k c := by
  apply hf.write ht hg
  intro r h hh
  have := hs.behind r h r h hh hh
  omega

/-! ## Agreement -/

/-- A sum changes by the change of one of its terms. -/
theorem sum_change {f e : ℕ → ℕ} {n g : ℕ} (hg : g < n) (hf : ∀ h, h ≠ g → e h = f h) :
    ((List.range n).map e).sum + f g = ((List.range n).map f).sum + e g := by
  induction n with
  | zero => omega
  | succ n ih =>
      rw [List.range_succ, List.map_append, List.map_append, List.sum_append, List.sum_append]
      simp only [List.map_cons, List.map_nil, List.sum_cons, List.sum_nil, Nat.add_zero]
      by_cases hgn : g = n
      · subst hgn
        have hsame : (List.range g).map e = (List.range g).map f := by
          apply List.map_congr_left
          intro h hh
          exact hf h (by have := List.mem_range.mp hh; omega)
        rw [hsame]
        omega
      · have := ih (by omega)
        rw [hf n (Ne.symm hgn)]
        omega

/-- The groups together have as many bits as there are things. -/
theorem sum_bitsIn_le (p : Pool) (n : ℕ) : ((List.range n).map (s.bitsIn p)).sum ≤ s.poolSize p := by
  suffices h : ((List.range n).map (s.bitsIn p)).sum = min (n * s.perGroup p) (s.poolSize p) by
    rw [h]
    exact min_le_right ..
  induction n with
  | zero => simp
  | succ n ih =>
      rw [List.range_succ, List.map_append, List.sum_append, ih, Nat.succ_mul]
      simp only [List.map_cons, List.map_nil, List.sum_cons, List.sum_nil, bitsIn]
      omega

theorem clearBits_le (s : Ext2) (p : Pool) (g : ℕ) : s.clearBits p g ≤ s.bitsIn p g := clears_le _ _

theorem le_sum {f : ℕ → ℕ} {n g : ℕ} (hg : g < n) : f g ≤ ((List.range n).map f).sum :=
  List.le_sum_of_mem (List.mem_map_of_mem (List.mem_range.mpr hg))

/-- The number of clear bits with one bit changed. -/
def flippedBits (s : Ext2) (p : Pool) (g k : ℕ) (c : Bool) : ℕ :=
  clears (Function.update (bit (s.bitmap p g)) k c) (s.bitsIn p g)

/-- Counters that change with a bit agree again. -/
theorem Agree.flip (ha : s.Agree) (ht : Tallied s t p g v w) (hf : Flipped s t p g k c) (hg : g < s.groups p)
    (hv : v = s.flippedBits p g k c) (hw : w + s.clearBits p g = s.freeTotal p + s.flippedBits p g k c) :
    t.Agree := by
  have hself : t.clearBits p g = s.flippedBits p g k c := by
    unfold clearBits
    rw [hf.bits, ht.bitsIn]
    rfl
  have hother (q : Pool) (h : ℕ) (hh : h < s.groups q) (hne : (q, h) ≠ (p, g)) :
      t.clearBits q h = s.clearBits q h := by
    unfold clearBits
    rw [hf.others q h hh hne, ht.bitsIn]
  refine ⟨?_, ?_⟩
  · intro q h hh
    rw [ht.groups] at hh
    by_cases hpg : (q, h) = (p, g)
    · cases hpg
      rw [ht.here.1, hself, hv]
    · rw [ht.counts q h hpg, hother q h hh hpg, ha.counts q h hh]
  · intro q
    rw [ht.groups]
    have hmap (f : ℕ → ℕ) (hf : ∀ h < s.groups q, t.clearBits q h = f h) :
        (List.range (s.groups q)).map (t.clearBits q) = (List.range (s.groups q)).map f := by
      apply List.map_congr_left
      intro h hh
      exact hf h (List.mem_range.mp hh)
    by_cases hqp : q = p
    · subst hqp
      have hchange := sum_change (f := s.clearBits q)
          (e := Function.update (s.clearBits q) g (s.flippedBits q g k c))
        hg fun h hne => Function.update_of_ne hne ..
      rw [Function.update_self] at hchange
      have htotal := ha.totals q
      rw [hmap (Function.update (s.clearBits q) g (s.flippedBits q g k c)), ht.here.2]
      · omega
      · intro h hh
        by_cases hgh : h = g
        · subst hgh
          rw [Function.update_self, hself]
        · rw [Function.update_of_ne hgh]
          exact hother q h hh fun heq => hgh (congrArg Prod.snd heq)
    · rw [ht.totals q hqp, hmap (s.clearBits q), ha.totals q]
      intro h hh
      exact hother q h hh fun heq => hqp (congrArg Prod.fst heq)

/-! ## One call -/

/-- Where only the counters have changed, they do not agree. -/
theorem Agree.not_tallied (ha : s.Agree) (ht : Tallied s t p g v w) (hdisk : t.disk = s.disk)
    (hg : g < s.groups p)
    (hv : v ≠ s.freeCount p g) : ¬ t.Agree := by
  intro ht'
  have hsame : t.clearBits p g = s.clearBits p g := by
    unfold clearBits bitmap readBlock read
    rw [ht.bitsIn, hdisk, ht.layout.bitmapBlock, ht.layout.sectors]
  have hcount := ht'.counts p g (by rw [ht.groups]; exact hg)
  rw [ht.here.1, hsame, ← ha.counts p g hg] at hcount
  exact hv hcount

theorem Tallied.store (ht : Tallied s t p g v w) (fault : Option Transfer) (buff : Bytes) :
    Tallied s (t.store fault p g buff).2 p g v w := by
  have ht₁ : Tallied s (t.write (t.bitmapBlock p g * t.sectors % word) t.sectors buff) p g v w := ht.write
  match fault with
  | none => exact (ht₁.bgdWrite g).superblockWrite
  | some .readBitmap => exact (ht₁.bgdWrite g).superblockWrite
  | some .writeBitmap => exact ht
  | some .readDesc => exact ht₁
  | some .writeDesc => exact ht₁
  | some .writeSuper => exact ht₁.bgdWrite g
  | some .zeroBlock => exact (ht₁.bgdWrite g).superblockWrite

/-- The bitmap is written first of all. -/
theorem Tallied.store_flipped {fault : Option Transfer} (ht : Tallied s t p g v w) (hdisk : t.disk = s.disk)
    (hs : s.Pools) (hg : g < s.groups p) (hbits : bit buff = Function.update (bit (s.bitmap p g)) k c)
    (hzero : ∀ x, s.blocksize ≤ x → buff x = 0) (hfault : fault ≠ some .writeBitmap) :
    Flipped s (t.store fault p g buff).2 p g k c := by
  have hflip := ht.flip hdisk hs hg hbits hzero
  have ht₁ : Tallied s (t.write (t.bitmapBlock p g * t.sectors % word) t.sectors buff) p g v w := ht.write
  have hdesc := hflip.bgdWrite ht₁ hs hg hg
  have hsuper := hdesc.superblockWrite (ht₁.bgdWrite g) hs hg
  match fault with
  | none => exact hsuper
  | some .readBitmap => exact hsuper
  | some .writeBitmap => exact absurd rfl hfault
  | some .readDesc => exact hflip
  | some .writeDesc => exact hflip
  | some .writeSuper => exact hdesc
  | some .zeroBlock => exact hsuper

/-- Once the bitmap is written, the counters agree. -/
theorem Agree.store {fault : Option Transfer} (ha : s.Agree) (hs : s.Pools) (ht : Tallied s t p g v w)
    (hdisk : t.disk = s.disk) (hg : g < s.groups p)
    (hbits : bit buff = Function.update (bit (s.bitmap p g)) k c) (hzero : ∀ x, s.blocksize ≤ x → buff x = 0)
    (hv : v = s.flippedBits p g k c) (hw : w + s.clearBits p g = s.freeTotal p + s.flippedBits p g k c)
    (hfault : fault ≠ some .writeBitmap) : (t.store fault p g buff).2.Agree :=
  ha.flip (ht.store fault buff) (ht.store_flipped hdisk hs hg hbits hzero hfault) hg hv hw

theorem bitsIn_le (hs : s.Pools) (p : Pool) (g : ℕ) : s.bitsIn p g ≤ 8 * s.blocksize ∧
    s.bitsIn p g < 2 ^ 16 := by
  have hper := hs.perGroup p
  unfold bitsIn
  omega

theorem poolSize_lt (s : Ext2) (p : Pool) : s.poolSize p < 2 ^ 32 := by
  cases p
  · exact (Nat.sub_le s.blocksCount s.firstDataBlock).trans_lt (get_lt 4 s.es 4)
  · exact get_lt 4 s.es 0

/-- The counters and the bitmap when a clear bit is taken. -/
theorem Agree.taken (ha : s.Agree) (hs : s.Pools) (hg : g < s.groups p) (hk : k < s.bitsIn p g)
    (hclear : bit (s.bitmap p g) k = false) (dirs : ℕ) :
    ∃ v w, Tallied s ((s.tally p g 0xFFFF (word - 1)).addDirs g dirs) p g v w ∧ v ≠ s.freeCount p g ∧
      v = s.flippedBits p g k true ∧ w + s.clearBits p g = s.freeTotal p + s.flippedBits p g k true := by
  have hset := clears_set hk hclear
  have hcount := ha.counts p g hg
  have htotal := ha.totals p
  have hle := le_sum (f := s.clearBits p) hg
  have hbits := (bitsIn_le hs p g).2
  have hcle := s.clearBits_le p g
  have hlt : s.freeTotal p < 2 ^ 32 := get_lt 4 s.es _
  have hw : word = 2 ^ 32 := rfl
  refine ⟨_, _, (tallied_count s p g _ _).addDirs g dirs, ?_, ?_, ?_⟩
  all_goals
    unfold flippedBits clearBits at *
    omega

/-- The counters and the bitmap when a set bit is released. -/
theorem Agree.released (ha : s.Agree) (hs : s.Pools) (hg : g < s.groups p) (hk : k < s.bitsIn p g)
    (hset : bit (s.bitmap p g) k = true) (dirs : ℕ) :
    ∃ v w, Tallied s ((s.tally p g 1 1).addDirs g dirs) p g v w ∧ v ≠ s.freeCount p g ∧
      v = s.flippedBits p g k false ∧ w + s.clearBits p g = s.freeTotal p + s.flippedBits p g k false := by
  have hclear := clears_clear hk hset
  have hcount := ha.counts p g hg
  have htotal := ha.totals p
  have hbits := (bitsIn_le hs p g).2
  have hcle : s.flippedBits p g k false ≤ s.bitsIn p g := clears_le _ _
  -- no more bits than things are clear afterwards
  have hsum : ((List.range (s.groups p)).map
      (Function.update (s.clearBits p) g (s.flippedBits p g k false))).sum ≤ s.poolSize p := by
    apply (List.sum_le_sum _).trans (sum_bitsIn_le p (s.groups p))
    intro h _
    by_cases hgh : h = g
    · subst hgh
      rwa [Function.update_self]
    · rw [Function.update_of_ne hgh]
      exact s.clearBits_le p h
  have hchange := sum_change (f := s.clearBits p)
    (e := Function.update (s.clearBits p) g (s.flippedBits p g k false)) hg
    fun h hne => Function.update_of_ne hne ..
  rw [Function.update_self] at hchange
  have hsize := s.poolSize_lt p
  refine ⟨_, _, (tallied_count s p g _ _).addDirs g dirs, ?_, ?_, ?_⟩
  all_goals
    unfold flippedBits clearBits at *
    omega

end Ext2
end Ferrite.Fs
