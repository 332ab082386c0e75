import Ferrite.Fs.Ext2Truncate
import Ferrite.Fs.NewInode
import Ferrite.Fs.Positions

/-!
# Writing a file

`ext2_file_write` writes block after block through `ext2_write_block`, and allocates the
blocks that are missing. It always passes on the size of a block: the bytes behind the buffer
are written with the last block, and behind an offset in the first one the copy runs over the
end of the staging buffer.
-/
namespace Ferrite.Fs
open Packed Word

/-- The transfers that fail: for a block of the file those of `ext2_new_block` and of
`ext2_write_block`, and the two of `ext2_write_inode`. -/
structure WriteFaults where
  allocation : ℕ → Option Transfer
  load : ℕ → Bool
  store : ℕ → Bool
  loadInode : Bool
  storeInode : Bool

/-- No transfer fails. -/
def WriteFaults.none : WriteFaults := ⟨fun _ => .none, fun _ => false, fun _ => false, false, false⟩

/-- The device, the copy of the inode and the bytes written between two rounds; `buffer` and
`staging` are the ends of what was read from the buffer and written to the staging buffer. -/
structure Writing where
  fs : Ext2
  inode : Bytes
  written : ℕ
  buffer : ℕ
  staging : ℕ

/-- The result of the call with what it leaves. -/
structure FileWrite where
  result : ℤ
  node : VfsInode
  pos : ℤ
  fs : Ext2
  buffer : ℕ
  staging : ℕ

namespace Ext2
variable (s : Ext2)

/-! ## The functions -/

/-- `ext2_write_block` where no transfer fails. What a copy overwrites behind the staging buffer is
not part of the model. -/
def writeBlock (blockNum : ℕ) (buff : Bytes) (offset len : ℕ) : Ext2 :=
  let sectorPos := s.blockSector blockNum
  s.write sectorPos s.sectors (copy len (s.read sectorPos s.sectors) offset buff 0)

/-- The number of a block of the file, which is allocated if there is none, with the inode; or the error. -/
def fileBlock (fault : Option Transfer) (inode : Bytes) (i : ℕ) : Except ℤ (ℕ × Bytes) × Ext2 :=
  if iBlock inode i = 0 then
    match s.newBlock fault with
    | (blockNum, err, s) =>
        if err.getD 0 ≠ 0 then (.error (err.getD 0), s)
        else (.ok (ofS32 blockNum, put 4 inode (40 + 4 * i) (ofS32 blockNum)), s)
  else (.ok (iBlock inode i, inode), s)

/-- The bytes that a round counts. -/
def bytesToWrite (count : ℤ) (blockOffset written : ℕ) : ℕ :=
  let bytes := s.blocksize - blockOffset
  if ofS32 count < wadd written bytes then wsub (ofS32 count) written else bytes

/-- The loop from the block `i` on, with what it returns early. -/
def writeLoop (faults : WriteFaults) (buff : Bytes) (count : ℤ) (offset start stop : ℕ) :
    ℕ → ℕ → Writing → Option (Option ℤ × Writing)
  | 0, _, _ => none
  | fuel + 1, i, w =>
      if stop < i then some (none, w)
      else if 12 ≤ i then some (some (if 0 < w.written then toS32 w.written else -efbig), w)
      else
        match w.fs.fileBlock (faults.allocation i) w.inode i with
        | (.error err, fs) => some (some err, { w with fs := fs })
        | (.ok (blockNum, inode), fs) =>
            let failed := some (if 0 < w.written then toS32 w.written else -1)
            let blockOffset := if i = start then offset % fs.blocksize else 0
            if faults.load i then some (failed, { w with fs := fs, inode := inode })
            else
              let buffer := max w.buffer (w.written + fs.blocksize)
              let staging := max w.staging (blockOffset + fs.blocksize)
              if faults.store i then some (failed, ⟨fs, inode, w.written, buffer, staging⟩)
              else
                let written := wadd w.written (fs.bytesToWrite count blockOffset w.written)
                let fs := fs.writeBlock blockNum (fun k => buff (w.written + k)) blockOffset fs.blocksize
                writeLoop faults buff count offset start stop fuel (i + 1) ⟨fs, inode, written, buffer, staging⟩

/-- The times, the size if the file grows, and the number of sectors, in the inode and in its copy. -/
def grownNode (node : VfsInode) (inode : Bytes) (stop : ℤ) (now : ℕ) : VfsInode :=
  let inode := put 4 (put 4 inode 12 now) 16 now
  let grows := toS32 (iSize inode) < stop
  let inode := if grows then put 4 inode 4 (ofS32 stop) else inode
  let allocated := ((List.range 12).filter fun i => iBlock inode i ≠ 0).length
  { node with ctime := now, mtime := now, size := if grows then ofS32 stop else node.size }.setRaw
    (put 4 inode 28 (allocated * s.blocksize % word / 512))

/-- `ext2_file_write`. -/
def fileWrite (faults : WriteFaults) (node : VfsInode) (flags : ℕ) (pos : ℤ) (buff : Bytes) (count : ℤ)
    (now : ℕ) : Option FileWrite :=
  if flags % 4 = 0 then some ⟨-ebadf, node, pos, s, 0, 0⟩
  else if !isReg node.mode then some ⟨-1, node, pos, s, 0, 0⟩
  else if s.blocksize = 0 then none
  else
    let offset := ofS32 pos
    let start := offset / s.blocksize
    let stop := ofS32 (pos + count - 1) / s.blocksize
    (writeLoop faults buff count offset start stop 13 start ⟨s, node.raw, 0, 0, 0⟩).map fun
      | (some result, w) => ⟨result, node.setRaw w.inode, pos, w.fs, w.buffer, w.staging⟩
      | (none, w) =>
          let node := w.fs.grownNode node w.inode (long (pos + count)) now
          if faults.loadInode then ⟨-1, node, pos, w.fs, w.buffer, w.staging⟩
          else if faults.storeInode then ⟨-1, node.setRaw (stamp node), pos, w.fs, w.buffer, w.staging⟩
          else
            let (node, fs) := w.fs.writeInode node
            ⟨toS32 w.written, node, long (wadd offset w.written), fs, w.buffer, w.staging⟩

/-! ## What is in order -/

/-- A block that holds nothing but data: no part of it is bookkeeping or the inode. -/
def IsData (node : VfsInode) (b : ℕ) : Prop :=
  ∀ x, b * s.sectors ≤ x → x < b * s.sectors + s.sectors → ¬ s.Books x ∧ x ≠ s.inodeAddr node.ino / sectorSize

/-- Of the `n` blocks from `i` on, those that are not allocated. -/
def holes (inode : Bytes) : ℕ → ℕ → ℕ
  | 0, _ => 0
  | n + 1, i => (if iBlock inode i = 0 then 1 else 0) + holes inode n (i + 1)

/-- A free block was taken. -/
structure Allocated (s t : Ext2) (b : ℕ) : Prop where
  first : s.IsFirstFree b
  layout : SameLayout s t
  agree : t.Agree
  pools : t.Pools
  books : ∀ x, t.Books x ↔ s.Books x
  bits : ∀ c, s.InRange c → (t.blockBit c = true ↔ s.blockBit c = true ∨ c = b)
  total : t.freeTotal .blocks + 1 = s.freeTotal .blocks
  frame : ∀ n, ¬ s.Books (n / sectorSize) → Apart (b * s.sectors) s.sectors (n / sectorSize) 1 →
    t.disk n = s.disk n

end Ext2

/-- A regular file with direct blocks: its blocks are in use and different, and they and the
free blocks hold data. The bytes of the device have addresses of 32 bits. -/
structure FileOnDisk (s : Ext2) (node : VfsInode) : Prop where
  agree : s.Agree
  pools : s.Pools
  blocksize : s.blocksize ≤ 2 ^ 16
  addresses : s.blocksCount * s.blocksize ≤ word
  regular : isReg node.mode = true
  size : iSize node.raw = node.size ∧ node.size ≤ 12 * s.blocksize
  record : 128 ≤ s.inodeSize ∧ s.inodeAddr node.ino % sectorSize + 128 ≤ sectorSize
  used : ∀ i < 12, iBlock node.raw i ≠ 0 →
    s.InRange (iBlock node.raw i) ∧ s.blockBit (iBlock node.raw i) = true ∧ s.IsData node (iBlock node.raw i)
  distinct : ∀ i < 12, ∀ j < 12, iBlock node.raw i ≠ 0 → iBlock node.raw i = iBlock node.raw j → i = j
  spare : ∀ b, s.InRange b → s.blockBit b = false → b ≠ 0 ∧ s.IsData node b

/-- With another copy of its inode the file has the block `i`, and its other blocks are the same. -/
structure HasBlock (s t : Ext2) (node : VfsInode) (inode : Bytes) (i : ℕ) : Prop where
  file : FileOnDisk t (node.setRaw inode)
  layout : Ext2.SameLayout s t
  fields : ∀ w o, o + w ≤ 40 → get w inode o = get w node.raw o
  here : iBlock inode i ≠ 0
  blocks : ∀ j, j ≠ i → iBlock inode j = iBlock node.raw j
  total : t.freeTotal .blocks + (if iBlock node.raw i = 0 then 1 else 0) = s.freeTotal .blocks
  others : ∀ p, p / s.blocksize < 12 → p / s.blocksize ≠ i → t.fileByte inode p = s.fileByte node.raw p

namespace Ext2
variable {s t u : Ext2} {node : VfsInode} {inode buff : Bytes} {p : Pool} {g b c i k n lba x : ℕ}

/-! ## Writing data -/

theorem apart_of_sectors {a m : ℕ} (hn : 0 < n) (hm : 0 < m) (h : ∀ x, c ≤ x → x < c + m → Apart a n x 1) :
    Apart a n c m := by
  have hfirst := h c (le_refl c) (by omega)
  have hhere := h a
  unfold Apart at *
  omega

theorem sectors_pos (hpos : 0 < s.blocksize) : 0 < s.sectors := by
  have hmul := sectors_mul (s := s)
  by_contra hzero
  rw [Nat.eq_zero_of_not_pos hzero] at hmul
  omega

theorem Pools.blocksize_pos (hs : s.Pools) : 0 < s.blocksize := by
  have hper := hs.perGroup .blocks
  omega

/-- Outside of the bookkeeping, a write does not reach a bitmap. -/
theorem bitmap_write (hs : s.Pools) (hdata : ∀ x, lba ≤ x → x < lba + s.sectors → ¬ s.Books x)
    (hg : g < s.groups p) : (s.write lba s.sectors buff).bitmap p g = s.bitmap p g := by
  have hpos := sectors_pos hs.blocksize_pos
  have hapart : Apart (s.bitmapStart p g) s.sectors lba s.sectors := by
    apply apart_of_sectors hpos hpos
    intro x hx hlt
    by_contra hmeet
    exact hdata x hx hlt (.inr ⟨p, g, hg, .inr hmeet⟩)
  exact readBlock_write_apart hapart.symm

theorem Agree.write (ha : s.Agree) (hs : s.Pools) (hdata : ∀ x, lba ≤ x → x < lba + s.sectors → ¬ s.Books x) :
    (s.write lba s.sectors buff).Agree := by
  have hclear (p : Pool) (g : ℕ) (hg : g < s.groups p) :
      (s.write lba s.sectors buff).clearBits p g = s.clearBits p g := by
    unfold clearBits
    rw [bitmap_write hs hdata hg]
    rfl
  refine ⟨?_, ?_⟩
  · intro p g hg
    rw [hclear p g hg]
    exact ha.counts p g hg
  · intro p
    have hmap : (List.range (s.groups p)).map ((s.write lba s.sectors buff).clearBits p)
        = (List.range (s.groups p)).map (s.clearBits p) := by
      apply List.map_congr_left
      intro g hg
      exact hclear p g (List.mem_range.mp hg)
    exact (ha.totals p).trans (congrArg List.sum hmap.symm)

theorem Pools.write (hs : s.Pools) : (s.write lba n buff).Pools := ⟨hs.perGroup, hs.behind, hs.apart⟩

theorem InRange.group_lt (hs : s.Pools) (hb : s.InRange b) : s.groupOf b < s.groups .blocks := by
  have hlt : b - s.firstDataBlock < s.blocksCount - s.firstDataBlock := by
    have := hb.1
    have := hb.2
    omega
  exact (div_lt_groups (p := .blocks) (hs.perGroup .blocks).1 hlt).1

theorem blockBit_write (hs : s.Pools) (hdata : ∀ x, lba ≤ x → x < lba + s.sectors → ¬ s.Books x)
    (hb : s.InRange b) : (s.write lba s.sectors buff).blockBit b = s.blockBit b := by
  have hmap : (s.write lba s.sectors buff).bitmap .blocks (s.groupOf b) = s.bitmap .blocks (s.groupOf b) :=
    bitmap_write hs hdata (hb.group_lt hs)
  exact congrArg (fun map => bit map (s.bitOf b)) hmap

/-! ## A block for a hole -/

/-- With a free block, a group is found. -/
theorem Agree.exists_free (ha : s.Agree) (hs : s.Pools) (haddr : s.blocksCount * s.blocksize ≤ word)
    (hfree : s.freeTotal .blocks ≠ 0) : ¬ s.Full .blocks (ceilDiv s.blocksCount s.blocksPerGroup) := by
  intro hfull
  have hper := hs.perGroup .blocks
  have hpow := blocksize_eq_pow hs.blocksize_pos
  have hlarge : 2 ^ 10 ≤ s.blocksize := by
    rw [hpow]
    exact Nat.pow_le_pow_right (by decide) (by omega)
  have hcount : s.blocksCount * 2 ^ 10 ≤ word := (Nat.mul_le_mul_left _ hlarge).trans haddr
  have hgroups : s.groups .blocks ≤ ceilDiv s.blocksCount s.blocksPerGroup := by
    unfold ceilDiv
    unfold word at hcount
    change (s.blocksCount - s.firstDataBlock + s.blocksPerGroup - 1) / s.blocksPerGroup ≤ _
    change 0 < s.blocksPerGroup ∧ _ ∧ s.blocksPerGroup < 2 ^ 16 at hper
    rw [Nat.mod_eq_of_lt (by unfold word; omega)]
    exact Nat.div_le_div_right (by omega)
  apply hfree
  rw [ha.totals]
  apply List.sum_eq_zero
  intro x hx
  obtain ⟨g, hg, rfl⟩ := List.mem_map.mp hx
  have hlt := List.mem_range.mp hg
  rw [← ha.counts .blocks g hlt]
  exact hfull g (hlt.trans_le hgroups)

/-- Sectors of a block of the device have addresses that do not wrap. -/
theorem InRange.sector_lt (hb : s.InRange b) (hpos : 0 < s.blocksize)
    (haddr : s.blocksCount * s.blocksize ≤ word) :
    b * s.blocksize < word ∧ b * s.sectors < word := by
  have hmul : (b + 1) * s.blocksize ≤ s.blocksCount * s.blocksize := Nat.mul_le_mul_right _ hb.2
  have hle : b * s.sectors ≤ b * s.blocksize := Nat.mul_le_mul_left _ (Nat.div_le_self ..)
  rw [Nat.succ_mul] at hmul
  omega

/-- With a free block there is one to take. -/
theorem Agree.newBlock_free (ha : s.Agree) (hs : s.Pools) (haddr : s.blocksCount * s.blocksize ≤ word)
    (hfree : s.freeTotal .blocks ≠ 0)
    (hspare : ∀ b, s.InRange b → s.blockBit b = false →
      ∀ x, b * s.sectors ≤ x → x < b * s.sectors + s.sectors → ¬ s.Books x) :
    ∃ b t, s.newBlock none = (toS32 b, some 0, t) ∧ Allocated s t b := by
  have hzero : s.freeBlocksCount ≠ 0 := hfree
  obtain ⟨g, hfind⟩ := exists_group (ha.exists_free hs haddr hfree)
  have hg := ha.group_lt hfind (.inr hfree)
  obtain ⟨k, hbit, hk⟩ := ha.exists_bit hs hg (by simpa using (List.find?_range_eq_some.mp hfind).1)
  have hclear := (findFreeBit_spec hbit).2.1
  have hfirst := ha.isFirstFree hs hfind hg hbit hk
  obtain ⟨v, w, htally, -, hv, hw⟩ := ha.taken hs hg hk hclear 0
  have ht : Tallied s (s.taking .blocks g k 0 none).2 .blocks g v w := htally.store none _
  have hflip := ha.taking_flipped hs hg hk hclear 0 (show (none : Option Transfer) ≠ some .writeBitmap by simp)
  have hagree := (ha.taking hs hg hk hclear 0 none).1 (by simp)
  have hframe := (ha.taking_tallied hs hg hk hclear 0 none).2
  have hset := clears_set hk hclear
  have hnumber := hfirst.number
  have hper : k < s.blocksPerGroup := (lt_min_iff.mp hk).1
  obtain ⟨hgroup, hbitOf⟩ := block_number (s := s) g hper
  generalize g * s.blocksPerGroup + k + s.firstDataBlock = b at *
  have hpos := hs.blocksize_pos
  have hlt := (hfirst.1.sector_lt hpos haddr).2
  generalize hu : (s.taking .blocks g k 0 none).2 = u at *
  have hpools := ht.pools hs
  have hdata : ∀ x, b * s.sectors ≤ x → x < b * s.sectors + u.sectors → ¬ u.Books x := by
    intro x hx hx'
    rw [ht.books]
    rw [ht.layout.sectors] at hx'
    exact hspare b hfirst.1 hfirst.2.1 x hx hx'
  refine ⟨b, u.write (b * s.sectors) u.sectors fun _ => 0, ?_, ?_⟩
  · rw [newBlock_eq hzero, take_taken hfind hbit (.inl rfl), hu]
    dsimp only
    rw [hnumber, if_neg (by simp), ht.layout.sectors, Nat.mod_eq_of_lt hlt]
  · refine ⟨hfirst, ht.layout.trans .write, hagree.write hpools hdata, hpools.write, ?_, ?_, ?_, ?_⟩
    · exact fun x => ht.books
    · intro c hc
      rw [blockBit_write hpools hdata (ht.layout.inRange.mpr hc)]
      have hbit (t : Ext2) : t.blockBit c = bit (t.bitmap .blocks (t.groupOf c)) (t.bitOf c) := rfl
      rw [hbit, hbit, ht.layout.groupOf, ht.layout.bitOf]
      by_cases hcg : s.groupOf c = g
      · rw [hcg, hflip.bits]
        by_cases hck : s.bitOf c = k
        · have heq : c = b := hc.eq_of hfirst.1 (hcg.trans hgroup.symm) (hck.trans hbitOf.symm)
          rw [hck, Function.update_self]
          simp [heq]
        · have hne : c ≠ b := by
            rintro rfl
            exact hck hbitOf
          rw [Function.update_of_ne hck]
          simp [hne]
      · have hne : c ≠ b := by
          rintro rfl
          exact hcg hgroup
        rw [hflip.others .blocks _ (hc.group_lt hs) (by simp [hcg])]
        simp [hne]
    · have htotal : u.freeTotal .blocks = w := ht.here.2
      unfold flippedBits clearBits at hw
      change u.freeTotal .blocks + 1 = _
      omega
    · intro n hn hapart
      rw [write_disk_of_sector (by rw [ht.layout.sectors]; exact hapart), hframe n hn]

/-- Two blocks do not share a sector. -/
theorem block_apart (hpos : 0 < s.blocksize) (hne : b ≠ c) (hx : c * s.sectors ≤ x)
    (hlt : x < c * s.sectors + s.sectors) : Apart (b * s.sectors) s.sectors x 1 := by
  have hsec := sectors_pos hpos
  unfold Apart
  rcases Nat.lt_or_gt_of_ne hne with hbc | hcb
  · have hmul := Nat.mul_le_mul_right s.sectors (show b + 1 ≤ c from hbc)
    rw [Nat.succ_mul] at hmul
    omega
  · have hmul := Nat.mul_le_mul_right s.sectors (show c + 1 ≤ b from hcb)
    rw [Nat.succ_mul] at hmul
    omega

theorem SameLayout.isData (hl : SameLayout s t) (hbooks : ∀ x, t.Books x ↔ s.Books x) :
    t.IsData node b ↔ s.IsData node b := by
  unfold IsData
  simp only [hl.sectors, hl.inodeAddr, hbooks]

end Ext2

namespace FileOnDisk
open Ext2
variable {s t : Ext2} {node : VfsInode} {inode buff : Bytes} {b c i p : ℕ}

theorem blocksize_pos (hf : FileOnDisk s node) : 0 < s.blocksize := hf.pools.blocksize_pos

theorem congr (hf : FileOnDisk s node) : FileOnDisk s (node.setRaw node.raw) :=
  ⟨hf.agree, hf.pools, hf.blocksize, hf.addresses, hf.regular, hf.size, hf.record, hf.used,
    hf.distinct, hf.spare⟩

/-- The sector of a byte of a block of the file. -/
theorem sector_data (hf : FileOnDisk s node) (hi : p / s.blocksize < 12)
    (hne : iBlock node.raw (p / s.blocksize) ≠ 0) :
    let x := (iBlock node.raw (p / s.blocksize) * s.blocksize + p % s.blocksize) / sectorSize
    ¬ s.Books x ∧ x ≠ s.inodeAddr node.ino / sectorSize := by
  have hx := sector_of_block (s := s) (p := p) (iBlock node.raw (p / s.blocksize)) hf.blocksize_pos
  exact (hf.used _ hi hne).2.2 _ hx.1 hx.2

/-- A hole gets a block. -/
theorem allocated (hf : FileOnDisk s node) (hi : i < 12) (hhole : iBlock node.raw i = 0)
    (hb : Allocated s t b) :
    HasBlock s t node (put 4 node.raw (40 + 4 * i) b) i := by
  obtain ⟨hne, hdata⟩ := hf.spare b hb.first.1 hb.first.2.1
  have hlt : b < 256 ^ 4 := hb.first.1.2.trans (get_lt 4 s.es 4)
  have hhere : iBlock (put 4 node.raw (40 + 4 * i) b) i = b := get_put_of_lt hlt
  have hblocks (j : ℕ) (hj : j ≠ i) : iBlock (put 4 node.raw (40 + 4 * i) b) j = iBlock node.raw j :=
    get_put_of_disjoint (by omega)
  have hfields (w o : ℕ) (ho : o + w ≤ 40) : get w (put 4 node.raw (40 + 4 * i) b) o = get w node.raw o :=
    get_put_of_disjoint (by omega)
  have hfresh (j : ℕ) (hj : j < 12) : iBlock node.raw j ≠ b := by
    intro heq
    have hset := (hf.used j hj (by rw [heq]; exact hne)).2.1
    rw [heq, hb.first.2.1] at hset
    cases hset
  have hisData (c : ℕ) : t.IsData node c ↔ s.IsData node c := hb.layout.isData hb.books
  refine ⟨?_, hb.layout, hfields, by rw [hhere]; exact hne, hblocks, ?_, ?_⟩
  · constructor
    · exact hb.agree
    · exact hb.pools
    · rw [hb.layout.blocksize]
      exact hf.blocksize
    · rw [hb.layout.blocksize, hb.layout.blocksCount]
      exact hf.addresses
    · exact hf.regular
    · rw [hb.layout.blocksize]
      exact ⟨(hfields 4 4 (by omega)).trans hf.size.1, hf.size.2⟩
    · rw [hb.layout.inodeSize, hb.layout.inodeAddr]
      exact hf.record
    · intro j hj hused
      rw [raw_setRaw] at hused ⊢
      rw [hb.layout.inRange]
      by_cases hji : j = i
      · rw [hji, hhere]
        exact ⟨hb.first.1, (hb.bits b hb.first.1).mpr (.inr rfl), (hisData b).mpr hdata⟩
      · rw [hblocks j hji] at hused ⊢
        obtain ⟨hrange, hset, hdata⟩ := hf.used j hj hused
        exact ⟨hrange, (hb.bits _ hrange).mpr (.inl hset), (hisData _).mpr hdata⟩
    · intro j hj k hk hused heq
      rw [raw_setRaw] at hused heq
      by_cases hji : j = i
      · by_cases hki : k = i
        · rw [hji, hki]
        · rw [hji, hhere, hblocks k hki] at heq
          exact absurd heq.symm (hfresh k hk)
      · rw [hblocks j hji] at hused heq
        by_cases hki : k = i
        · rw [hki, hhere] at heq
          exact absurd heq (hfresh j hj)
        · rw [hblocks k hki] at heq
          exact hf.distinct j hj k hk hused heq
    · intro c hc hclear
      rw [hb.layout.inRange] at hc
      have hbits := hb.bits c hc
      have hclear' : s.blockBit c = false := by
        by_contra hset
        have := hbits.mpr (.inl (by simpa using hset))
        rw [hclear] at this
        cases this
      obtain ⟨hc0, hdata⟩ := hf.spare c hc hclear'
      exact ⟨hc0, (hisData c).mpr hdata⟩
  · rw [if_pos hhole]
    exact hb.total
  · intro p hp hpi
    apply fileByte_congr hb.layout.blocksize (hblocks _ hpi)
    intro hused
    obtain ⟨hbooks, -⟩ := hf.sector_data hp hused
    apply hb.frame _ hbooks
    have hx := sector_of_block (s := s) (p := p) (iBlock node.raw (p / s.blocksize)) hf.blocksize_pos
    exact block_apart hf.blocksize_pos (hfresh _ hp).symm hx.1 hx.2

/-- A block that the file has is found, and another one is allocated. -/
theorem fileBlock (hf : FileOnDisk s node) (hi : i < 12)
    (hfree : iBlock node.raw i = 0 → s.freeTotal .blocks ≠ 0) :
    ∃ inode t, s.fileBlock none node.raw i = (.ok (iBlock inode i, inode), t) ∧ HasBlock s t node inode i := by
  unfold Ext2.fileBlock
  by_cases hhole : iBlock node.raw i = 0
  · obtain ⟨b, t, hnew, hb⟩ := hf.agree.newBlock_free hf.pools hf.addresses (hfree hhole)
      fun b hb hclear x hx hlt => ((hf.spare b hb hclear).2 x hx hlt).1
    have hlt : b < word := hb.first.1.2.trans (get_lt 4 s.es 4)
    rw [if_pos hhole, hnew]
    dsimp only
    rw [if_neg (by simp), ofS32_toS32 hlt]
    refine ⟨_, t, ?_, hf.allocated hi hhole hb⟩
    have hhere : iBlock (put 4 node.raw (40 + 4 * i) b) i = b := get_put_of_lt hlt
    rw [hhere]
  · rw [if_neg hhole]
    exact ⟨node.raw, s, rfl, hf.congr, .refl s, fun _ _ _ => rfl, hhole, fun _ _ => rfl,
      by rw [if_neg hhole, Nat.add_zero], fun _ _ _ => rfl⟩

/-- A write of data leaves everything in order. -/
theorem write (hf : FileOnDisk s node) {lba : ℕ}
    (hdata : ∀ x, lba ≤ x → x < lba + s.sectors → ¬ s.Books x) :
    FileOnDisk (s.write lba s.sectors buff) node where
  agree := hf.agree.write hf.pools hdata
  pools := hf.pools.write
  blocksize := hf.blocksize
  addresses := hf.addresses
  regular := hf.regular
  size := hf.size
  record := hf.record
  used i hi hne := by
    obtain ⟨hrange, hset, hdata'⟩ := hf.used i hi hne
    exact ⟨hrange, (blockBit_write hf.pools hdata hrange).trans hset, hdata'⟩
  distinct := hf.distinct
  spare b hb hclear := by
    rw [blockBit_write hf.pools hdata hb] at hclear
    exact hf.spare b hb hclear

/-- The sectors of a block of the file. -/
theorem blockSector (hf : FileOnDisk s node) (hi : i < 12) (hne : iBlock node.raw i ≠ 0) :
    s.blockSector (iBlock node.raw i) = iBlock node.raw i * s.sectors := by
  have hlt := ((hf.used i hi hne).1.sector_lt hf.blocksize_pos hf.addresses).1
  unfold Ext2.blockSector
  rw [Nat.mod_eq_of_lt hlt]
  apply Nat.div_eq_of_eq_mul_left (by decide)
  rw [Nat.mul_assoc, sectors_mul]

end FileOnDisk

namespace HasBlock
open Ext2
variable {s t : Ext2} {node : VfsInode} {inode buff src : Bytes} {i offset p : ℕ}

/-- Writing the block changes no other one. -/
theorem write (h : HasBlock s t node inode i) (hi : i < 12) :
    HasBlock s (t.write (t.blockSector (iBlock inode i)) t.sectors buff) node inode i := by
  have hsector : t.blockSector (iBlock inode i) = iBlock inode i * t.sectors := h.file.blockSector hi h.here
  obtain ⟨hrange, -, hdata⟩ := h.file.used i hi h.here
  rw [hsector]
  refine ⟨h.file.write fun x hx hlt => (hdata x hx hlt).1, h.layout.trans .write, h.fields, h.here, h.blocks,
    h.total, ?_⟩
  intro p hp hpi
  rw [← h.others p hp hpi]
  have hbs : t.blocksize = s.blocksize := h.layout.blocksize
  have hsame : (t.write (iBlock inode i * t.sectors) t.sectors buff).blocksize = t.blocksize := rfl
  refine fileByte_congr hsame rfl fun hused => ?_
  rw [hbs] at hused ⊢
  have hne : iBlock inode i ≠ iBlock inode (p / s.blocksize) := fun heq =>
    hpi (h.file.distinct i hi _ hp h.here heq).symm
  have hx := sector_of_block (s := t) (p := p) (iBlock inode (p / s.blocksize)) h.file.blocksize_pos
  rw [hbs] at hx
  exact write_disk_of_sector (block_apart h.file.blocksize_pos hne hx.1 hx.2)

/-- What the block holds then. -/
theorem writeBlock_here (h : HasBlock s t node inode i) (hi : i < 12) (hp : p / s.blocksize = i)
    (hoffset : offset ≤ p % s.blocksize) :
    (t.writeBlock (iBlock inode i) src offset s.blocksize).fileByte inode p = src
      (p % s.blocksize - offset) := by
  have hbs : t.blocksize = s.blocksize := h.layout.blocksize
  have hsector : t.blockSector (iBlock inode i) = iBlock inode i * t.sectors := h.file.blockSector hi h.here
  have hlt : p % s.blocksize < t.sectors * sectorSize := by
    rw [sectors_mul, hbs]
    exact Nat.mod_lt _ (hbs ▸ h.file.blocksize_pos)
  have hp' : p / (t.writeBlock (iBlock inode i) src offset s.blocksize).blocksize = i :=
    (congrArg (p / ·) hbs).trans hp
  unfold fileByte
  dsimp only
  rw [hp', if_neg h.here]
  have haddr : iBlock inode i * t.blocksize = t.blockSector (iBlock inode i) * sectorSize := by
    rw [hsector, Nat.mul_assoc, sectors_mul]
  unfold writeBlock
  dsimp only
  rw [write_blocksize, haddr, hbs, write_disk_of_lt hlt]
  have hsplit : p % s.blocksize = offset + (p % s.blocksize - offset) := by omega
  have hin : p % s.blocksize - offset < s.blocksize := (Nat.sub_le ..).trans_lt
      (by rwa [sectors_mul, hbs] at hlt)
  have hcopy : copy s.blocksize (t.read (t.blockSector (iBlock inode i)) t.sectors) offset src 0
      (offset + (p % s.blocksize - offset)) = src (0 + (p % s.blocksize - offset)) := copy_add hin
  rw [← hsplit, Nat.zero_add] at hcopy
  exact hcopy

end HasBlock
/-! ## The call without its bytes -/

namespace Ext2
variable {s : Ext2} {p : Pool} {g : ℕ} {bitmap : Bytes}

theorem store_layout (fault : Option Transfer) : SameLayout s (s.store fault p g bitmap).2 := by
  have hone : SameLayout s (s.write (s.bitmapBlock p g * s.sectors % word) s.sectors bitmap) := .write
  have htwo : SameLayout s ((s.write (s.bitmapBlock p g * s.sectors % word) s.sectors bitmap).bgdWrite g) :=
    hone.trans .write
  match fault with
  | none => exact htwo.trans .write
  | some .readBitmap => exact htwo.trans .write
  | some .writeBitmap => exact .refl s
  | some .readDesc => exact hone
  | some .writeDesc => exact hone
  | some .writeSuper => exact htwo
  | some .zeroBlock => exact htwo.trans .write

theorem take_layout (s : Ext2) (fault : Option Transfer) (groups : ℕ) (err : Option ℤ) :
    SameLayout s (s.take fault .blocks groups 0 err).2 := by
  have htally (g k : ℕ) : SameLayout s (s.taking .blocks g k 0 fault).2 := by
    have hcount : SameLayout s ((s.tally .blocks g 0xFFFF (word - 1)).addDirs g 0) :=
      .count (by decide) (by decide)
    exact hcount.trans (store_layout fault)
  unfold take
  cases (List.range groups).find? fun g => s.freeCount .blocks g ≠ 0 with
  | none => exact .refl s
  | some g =>
      dsimp only
      split_ifs
      · exact .refl s
      · cases findFreeBit (s.bitmap .blocks g) s.blocksize with
        | none => exact .refl s
        | some k =>
            have hlayout := htally g k
            unfold taking at hlayout
            dsimp only
            generalize ((s.tally .blocks g 0xFFFF (word - 1)).addDirs g 0).store fault .blocks g
              (setBit (s.bitmap .blocks g) k) = stored at *
            obtain ⟨failed, t⟩ := stored
            match failed with
            | none => exact hlayout
            | some .readBitmap => exact hlayout
            | some .writeBitmap => exact hlayout
            | some .readDesc => exact hlayout
            | some .writeDesc => exact hlayout
            | some .writeSuper => exact hlayout
            | some .zeroBlock => exact hlayout

theorem newBlock_layout (s : Ext2) (fault : Option Transfer) : SameLayout s (s.newBlock fault).2.2 := by
  by_cases hzero : s.freeBlocksCount = 0
  · rw [show s.newBlock fault = (0, some (-enospc), s) from if_pos hzero]
    exact .refl s
  rw [newBlock_eq hzero]
  have hlayout := s.take_layout fault (ceilDiv s.blocksCount s.blocksPerGroup) none
  generalize s.take fault .blocks (ceilDiv s.blocksCount s.blocksPerGroup) 0 none = taken at *
  obtain ⟨found, t⟩ := taken
  match found with
  | .inr err => exact hlayout
  | .inl (g, k) =>
      dsimp only
      split_ifs
      · exact hlayout
      · exact hlayout.trans .write

theorem fileBlock_layout (s : Ext2) (fault : Option Transfer) (inode : Bytes) (i : ℕ) :
    SameLayout s (s.fileBlock fault inode i).2 := by
  have hlayout := newBlock_layout s fault
  unfold fileBlock
  split_ifs with hhole
  · generalize s.newBlock fault = new at *
    obtain ⟨blockNum, err, t⟩ := new
    dsimp only
    split_ifs
    · exact hlayout
    · exact hlayout
  · exact .refl s

end Ext2

namespace OpenFile
open Ext2
variable {f : OpenFile}

/-- The block of a round is the one that the answer of the allocator gives. -/
theorem allocate_of_disk (node : VfsInode) (s : Ext2) (fault : Option Transfer) (inode : Bytes) (i : ℕ) :
    ∃ answer : ℤ × ℤ, ∀ a : Answers, a.newBlock i = answer → allocate a (node.setRaw inode) i =
      match s.fileBlock fault inode i with
      | (.error err, _) => .error err
      | (.ok (_, inode), _) => .ok (node.setRaw inode) := by
  obtain ⟨blockNum, err, t, hnew⟩ : ∃ blockNum err t, s.newBlock fault = (blockNum, err, t) := ⟨_, _, _, rfl⟩
  refine ⟨(blockNum, err.getD 0), fun a ha => ?_⟩
  unfold allocate fileBlock
  rw [raw_setRaw, ha, hnew]
  dsimp only
  split_ifs
  · rfl
  · rfl
  · rfl

/-- The answers of the allocator to the loop make it the one that does not see the bytes. -/
theorem writeBlocks_of_disk (node : VfsInode) (faults : WriteFaults) (buff : Bytes) (count : ℤ) (start stop : ℕ)
    (hstack : f.blocksize ≤ kernelStack) : ∀ (fuel i : ℕ) (w : Writing), w.fs.blocksize = f.blocksize →
      ∃ newBlock : ℕ → ℤ × ℤ, ∀ a : Answers, a.device = true → (∀ j, i ≤ j → a.newBlock j = newBlock j) →
        (∀ j, a.stores j = (!faults.load j && !faults.store j)) →
        f.writeBlocks a count start stop fuel i w.written (node.setRaw w.inode) =
          (writeLoop faults buff count (ofS32 f.pos) start stop fuel i w).map fun r =>
            (r.1.elim (.ok r.2.written) .error, node.setRaw r.2.inode) := by
  intro fuel
  induction fuel with
  | zero =>
      intro i w _
      exact ⟨fun _ => (0, 0), fun _ _ _ _ => rfl⟩
  | succ fuel ih =>
      intro i w hbs
      obtain ⟨answer, halloc⟩ := allocate_of_disk node w.fs (faults.allocation i) w.inode i
      have hlayout := fileBlock_layout w.fs (faults.allocation i) w.inode i
      by_cases hstop : stop < i
      · refine ⟨fun _ => answer, fun a _ _ _ => ?_⟩
        rw [writeBlocks, writeLoop, if_pos hstop, if_pos hstop]
        rfl
      by_cases hfar : 12 ≤ i
      · refine ⟨fun _ => answer, fun a _ _ _ => ?_⟩
        rw [writeBlocks, writeLoop, if_neg hstop, if_neg hstop, if_pos hfar, if_pos hfar]
        rfl
      obtain ⟨found, t, hblock⟩ : ∃ found t, w.fs.fileBlock (faults.allocation i) w.inode i = (found, t) :=
        ⟨_, _, rfl⟩
      rw [hblock] at halloc hlayout
      have hbs' : t.blocksize = f.blocksize := hlayout.blocksize.trans hbs
      have hround : f.roundBytes count start i w.written =
          t.bytesToWrite count (if i = start then ofS32 f.pos % t.blocksize else 0) w.written := by
        unfold roundBytes bytesToWrite
        rw [hbs']
      cases found with
      | error err =>
          refine ⟨fun _ => answer, fun a _ ha _ => ?_⟩
          rw [writeBlocks, writeLoop, if_neg hstop, if_neg hstop, if_neg hfar, if_neg hfar,
            halloc a (ha i (le_refl i)),
            hblock]
          rfl
      | ok block =>
          obtain ⟨blockNum, inode⟩ := block
          by_cases hfails : faults.load i = true ∨ faults.store i = true
          · refine ⟨fun _ => answer, fun a hdev ha hstores => ?_⟩
            have hstored : a.stores i = false := by
              rw [hstores]
              rcases hfails with h | h <;> simp [h]
            rw [writeBlocks, writeLoop, if_neg hstop, if_neg hstop, if_neg hfar, if_neg hfar,
              halloc a (ha i (le_refl i)), hblock]
            unfold OpenFile.writeBlock
            rw [hdev, if_neg (show ¬ (!true) = true by decide), if_neg (not_lt.mpr hstack), hstored]
            dsimp only
            by_cases hload : faults.load i = true
            · rw [if_pos hload]
              rfl
            · rw [if_neg hload, if_pos (hfails.resolve_left hload)]
              rfl
          · rw [not_or] at hfails
            obtain ⟨hload, hstore⟩ := hfails
            let skip := if i = start then ofS32 f.pos % t.blocksize else 0
            obtain ⟨answers, hrest⟩ := ih (i + 1)
              ⟨t.writeBlock blockNum (fun k => buff (w.written + k)) skip t.blocksize, inode,
                wadd w.written (t.bytesToWrite count skip w.written), max w.buffer (w.written + t.blocksize),
                max w.staging (skip + t.blocksize)⟩ hbs'
            refine ⟨fun j => if j = i then answer else answers j, fun a hdev ha hstores => ?_⟩
            have hstored : a.stores i = true := by
              rw [hstores]
              simp [hload, hstore]
            have hanswer : a.newBlock i = answer := (ha i (le_refl i)).trans (if_pos rfl)
            have hlater (j : ℕ) (hj : i + 1 ≤ j) : a.newBlock j = answers j :=
              (ha j (by omega)).trans (if_neg (by omega))
            rw [writeBlocks, writeLoop, if_neg hstop, if_neg hstop, if_neg hfar, if_neg hfar,
              halloc a hanswer, hblock]
            unfold OpenFile.writeBlock
            rw [hdev, if_neg (show ¬ (!true) = true by decide), if_neg (not_lt.mpr hstack), hstored]
            dsimp only
            rw [if_neg hload, if_neg hstore, hround]
            exact hrest a hdev hlater hstores

/-- With these answers the call returns what it returns on the device, and leaves the same position. -/
theorem fileWrite_of_disk (s : Ext2) (faults : WriteFaults) (buff : Bytes) (count : ℤ) (now : ℕ)
    (hext : f.inode.u = .ext2 f.inode.raw) (hbs : s.blocksize = f.blocksize)
    (hstack : f.blocksize ≤ kernelStack) :
    ∃ a : Answers, (f.fileWrite a count).map (fun r => (r.1, r.2.pos)) =
      (s.fileWrite faults f.inode f.flags f.pos buff count now).map fun r => (r.result, r.pos) := by
  obtain ⟨newBlock, hloop⟩ := writeBlocks_of_disk (f := f) f.inode faults buff count
    (ofS32 f.pos / f.blocksize) (ofS32 (f.pos + count - 1) / f.blocksize) hstack 13 (ofS32 f.pos / f.blocksize)
    ⟨s, f.inode.raw, 0, 0, 0⟩ hbs
  let a : Answers := ⟨true, fun _ => .ok fun _ => 0, newBlock, fun j => !faults.load j && !faults.store j,
    !faults.loadInode && !faults.storeInode, now, 0⟩
  refine ⟨a, ?_⟩
  have hrun := hloop a rfl (fun _ _ => rfl) fun _ => rfl
  have hnode : f.inode.setRaw f.inode.raw = f.inode := by
    unfold VfsInode.setRaw
    rw [← hext]
  rw [hnode] at hrun
  unfold OpenFile.fileWrite Ext2.fileWrite
  rw [hbs]
  by_cases hflags : f.flags % 4 = 0
  · rw [if_pos hflags, if_pos hflags]
    rfl
  rw [if_neg hflags, if_neg hflags]
  by_cases hreg : (!isReg f.inode.mode) = true
  · rw [if_pos hreg, if_pos hreg]
    rfl
  rw [if_neg hreg, if_neg hreg]
  by_cases hzero : f.blocksize = 0
  · rw [if_pos hzero, if_pos hzero]
    rfl
  rw [if_neg hzero, if_neg hzero]
  dsimp only at hrun ⊢
  rw [hrun]
  generalize writeLoop faults buff count (ofS32 f.pos) (ofS32 f.pos / f.blocksize)
    (ofS32 (f.pos + count - 1) / f.blocksize) 13 (ofS32 f.pos / f.blocksize) ⟨s, f.inode.raw, 0, 0, 0⟩ = ended
  match ended with
  | none => rfl
  | some (some err, w) => rfl
  | some (none, w) =>
      dsimp only [Option.map_some, Option.elim]
      cases hload : faults.loadInode with
      | true => simp [a, hload]
      | false =>
          cases hstore : faults.storeInode with
          | true => simp [a, hload, hstore]
          | false => simp [a, hload, hstore]

end OpenFile
end Ferrite.Fs
