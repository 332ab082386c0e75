import Ferrite.Fs.Ext2Inode
import Ferrite.Fs.GroupTable

/-!
# Writing an inode and reading it again

`ext2_write_inode` copies as many bytes as an inode takes on the device, and
`ext2_read_inode` always 256. A copy that leaves the buffer of one sector, or the structure
in memory, is no result. There is memory for the copy of the inode.
-/
namespace Ferrite.Fs
open Packed Word
open Ext2 (stamp)

namespace Superblock
variable (sb : Superblock)

def writeInode (d : BlockDevice) (n : VfsInode) : Option (VfsInode × BlockDevice) :=
  let absoluteAddr := sb.recordAddr n.ino
  let sectorPos := absoluteAddr / d.sectorSize
  let offsetInSector := absoluteAddr % d.sectorSize
  if 256 < sb.inodeSize ∨ d.sectorSize < offsetInSector + sb.inodeSize then none
  else
    let buff := d.readTo (fun _ => 0) sectorPos 1
    some (n.setRaw (stamp n), d.writeFrom sectorPos 1 (copy sb.inodeSize buff offsetInSector (stamp n) 0))

def readInode (d : BlockDevice) (n : VfsInode) : Option VfsInode :=
  let addr := sb.recordAddr n.ino
  let sectorPos := addr / d.sectorSize
  let offset := addr % d.sectorSize
  if d.sectorSize < offset + 256 then none
  else some (n.load sb.dev (copy 256 (fun _ => 0) 0 (d.readTo (fun _ => 0) sectorPos 1) offset))

end Superblock

/-- The fields of an inode have the sizes of their types. -/
structure VfsInode.InRange (n : VfsInode) : Prop where
  words : n.size < 2 ^ 32 ∧ n.atime < 2 ^ 32 ∧ n.mtime < 2 ^ 32 ∧ n.ctime < 2 ^ 32
  halves : n.mode < 2 ^ 16 ∧ n.uid < 2 ^ 16 ∧ n.gid < 2 ^ 16 ∧ n.links < 2 ^ 16 ∧ n.rdev < 2 ^ 16

/-- What is restored: the fields of the inode, the device of a special file and the block pointers. -/
structure VfsInode.SameAs (n m : VfsInode) : Prop where
  mode : m.mode = n.mode
  size : m.size = n.size
  owner : m.uid = n.uid ∧ m.gid = n.gid
  times : m.atime = n.atime ∧ m.mtime = n.mtime ∧ m.ctime = n.ctime
  links : m.links = n.links
  rdev : (isChr n.mode || isBlk n.mode) = true → m.rdev = n.rdev
  blocks : ∀ i < 15, iBlock m.raw i = iBlock n.raw i

/-- Writing `a` and reading it again restores it, and reading `b` gives what it gave before;
no copy leaves its buffer. -/
structure WriteReread (sb : Superblock) (sectorSize a b : ℕ) : Prop where
  restored : ∀ (d : BlockDevice) (n : VfsInode), d.sectorSize = sectorSize → n.InRange → n.ino = a →
    ∃ n' d', sb.writeInode d n = some (n', d') ∧
      ∀ m : VfsInode, m.ino = a → ∃ m', sb.readInode d' m = some m' ∧ n'.SameAs m'
  unaffected : ∀ (d : BlockDevice) (n m : VfsInode), d.sectorSize = sectorSize → n.InRange → n.ino = a →
    m.ino = b → ∃ n' d' m', sb.writeInode d n = some (n', d') ∧ sb.readInode d m = some m' ∧
      sb.readInode d' m = some m'

/-- The structure has room for an inode, the 256 bytes from the start of both lie in one
sector, and those of `b` do not meet the inode `a`. -/
def RecordsApart (sb : Superblock) (sectorSize a b : ℕ) : Prop :=
  sb.inodeSize ≤ 256 ∧ sb.recordAddr a % sectorSize + 256 ≤ sectorSize ∧
    sb.recordAddr b % sectorSize + 256 ≤ sectorSize ∧
    (sb.recordAddr a + sb.inodeSize ≤ sb.recordAddr b ∨ sb.recordAddr b + 256 ≤ sb.recordAddr a)

variable {sb : Superblock} {d : BlockDevice} {n m : VfsInode} {a b i sectorSize : ℕ} {inode : Bytes}

/-! ## The stored fields -/

/-- The record that is stored tells the fields. -/
theorem stamp_fields (h : n.InRange) :
    get 2 (stamp n) 0 = n.mode ∧ get 4 (stamp n) 4 = n.size ∧
      (get 2 (stamp n) 2 = n.uid ∧ get 2 (stamp n) 24 = n.gid) ∧
      (get 4 (stamp n) 8 = n.atime ∧ get 4 (stamp n) 16 = n.mtime ∧ get 4 (stamp n) 12 = n.ctime) ∧
      get 2 (stamp n) 26 = n.links := by
  obtain ⟨⟨hsize, hatime, hmtime, hctime⟩, hmode, huid, hgid, hlinks, -⟩ := h
  unfold stamp
  dsimp only
  refine ⟨?_, ?_, ⟨?_, ?_⟩, ⟨?_, ?_, ?_⟩, ?_⟩
  · iterate 8 rw [get_put_of_disjoint (by omega)]
    exact get_put_of_lt hmode
  · iterate 7 rw [get_put_of_disjoint (by omega)]
    exact get_put_of_lt hsize
  · iterate 6 rw [get_put_of_disjoint (by omega)]
    exact get_put_of_lt huid
  · iterate 5 rw [get_put_of_disjoint (by omega)]
    exact get_put_of_lt hgid
  · iterate 4 rw [get_put_of_disjoint (by omega)]
    exact get_put_of_lt hatime
  · iterate 3 rw [get_put_of_disjoint (by omega)]
    exact get_put_of_lt hmtime
  · iterate 2 rw [get_put_of_disjoint (by omega)]
    exact get_put_of_lt hctime
  · exact get_put_of_lt hlinks

/-- The first block pointer of a special file is its device. -/
theorem stamp_rdev (h : n.InRange) (hdev : (isChr n.mode || isBlk n.mode) = true) :
    get 4 (stamp n) 40 = n.rdev := by
  unfold stamp
  dsimp only
  iterate 9 rw [get_put_of_disjoint (by omega)]
  rw [hdev, if_pos rfl]
  exact get_put_of_lt (h.halves.2.2.2.2.trans (by decide))

/-- A record that agrees with the stored one up to the last block pointer restores the inode. -/
theorem SameAs.load (h : n.InRange) (hget : ∀ w o, o + w ≤ 128 → get w inode o = get w (stamp n) o) (dev : ℕ) :
    (n.setRaw (stamp n)).SameAs (m.load dev inode) := by
  obtain ⟨hmode, hsize, ⟨huid, hgid⟩, ⟨hatime, hmtime, hctime⟩, hlinks⟩ := stamp_fields h
  refine ⟨(hget 2 0 (by omega)).trans hmode, (hget 4 4 (by omega)).trans hsize,
    ⟨(hget 2 2 (by omega)).trans huid, (hget 2 24 (by omega)).trans hgid⟩,
    ⟨(hget 4 8 (by omega)).trans hatime, (hget 4 16 (by omega)).trans hmtime,
      (hget 4 12 (by omega)).trans hctime⟩, (hget 2 26 (by omega)).trans hlinks, ?_,
    fun i hi => hget 4 (40 + 4 * i) (by omega)⟩
  intro hdev
  have hdev' : (isChr (get 2 inode 0) || isBlk (get 2 inode 0)) = true := by
    rw [hget 2 0 (by omega), hmode]
    exact hdev
  unfold VfsInode.load
  dsimp only
  rw [hdev', if_pos rfl, hget 4 40 (by omega), stamp_rdev h hdev]
  exact Nat.mod_eq_of_lt h.halves.2.2.2.2

/-! ## On the device -/

theorem writeInode_eq (sb : Superblock) (d : BlockDevice) (n : VfsInode) (hsize : sb.inodeSize ≤ 256)
    (hfits : sb.recordAddr n.ino % d.sectorSize + sb.inodeSize ≤ d.sectorSize) :
    ∃ d', sb.writeInode d n = some (n.setRaw (stamp n), d') ∧ d'.sectorSize = d.sectorSize ∧
      d'.bytes = copy sb.inodeSize d.bytes (sb.recordAddr n.ino) (stamp n) 0 := by
  unfold Superblock.writeInode
  dsimp only
  rw [if_neg (by omega)]
  refine ⟨_, rfl, d.writeFrom_sectorSize .., ?_⟩
  rw [writeFrom_patch hfits, Nat.div_add_mod']

/-- The superblock of the model of the file system, as the inode cache sees it. -/
def Ext2.superblock (s : Ext2) (dev : ℕ) : Superblock :=
  { dev := dev, blocksize := s.blocksize, rootNode := none, inodesPerGroup := s.inodesPerGroup,
    inodeSize := s.inodeSize, inodeTable := s.inodeTable }

/-- On sectors of 512 bytes this is the write of that model. -/
theorem Ext2.writeInode_device (s : Ext2) (dev : ℕ) (hsize : s.inodeSize ≤ 256)
    (hfits : s.inodeAddr n.ino % Fs.sectorSize + s.inodeSize ≤ Fs.sectorSize) :
    (s.superblock dev).writeInode ⟨Fs.sectorSize, s.disk⟩ n
      = some ((s.writeInode n).1, ⟨Fs.sectorSize, (s.writeInode n).2.disk⟩) := by
  have haddr : (s.superblock dev).recordAddr n.ino = s.inodeAddr n.ino := rfl
  unfold Superblock.writeInode Ext2.writeInode
  rw [haddr]
  generalize s.inodeAddr n.ino = addr at hfits ⊢
  apply (if_neg _).trans
  · rfl
  · exact show ¬ (256 < s.inodeSize ∨ Fs.sectorSize < addr % Fs.sectorSize + s.inodeSize) by omega

/-- What is read is the 256 bytes at the address. -/
theorem readInode_record (hfits : sb.recordAddr m.ino % d.sectorSize + 256 ≤ d.sectorSize) :
    sb.readInode d m = some (m.load sb.dev (copy 256 (fun _ => 0) 0 d.bytes (sb.recordAddr m.ino))) := by
  have hcopy : copy 256 (fun _ => 0) 0 (d.readTo (fun _ => 0) (sb.recordAddr m.ino / d.sectorSize) 1)
      (sb.recordAddr m.ino % d.sectorSize) = copy 256 (fun _ => 0) 0 d.bytes (sb.recordAddr m.ino) := by
    funext k
    have hdm := Nat.div_add_mod' (sb.recordAddr m.ino) d.sectorSize
    unfold BlockDevice.readTo copy
    split_ifs with hk
    · congr 1
      omega
    · omega
    · rfl
  unfold Superblock.readInode
  dsimp only
  rw [if_neg (by omega), hcopy]

/-- What is written at one address is read there. -/
theorem get_record (hsize : 128 ≤ sb.inodeSize) (bytes src : Bytes) (addr : ℕ) {w o : ℕ} (ho : o + w ≤ 128) :
    get w (copy 256 (fun _ => 0) 0 (copy sb.inodeSize bytes addr src 0) addr) o = get w src o := by
  apply get_shift
  intro k hk
  have hcopy : copy 256 (fun _ => 0) 0 (copy sb.inodeSize bytes addr src 0) addr (0 + (o + k))
      = copy sb.inodeSize bytes addr src 0 (addr + (o + k)) := copy_add (by omega)
  rw [Nat.zero_add] at hcopy
  rw [hcopy, copy_add (by omega), Nat.zero_add]

/-- What is written apart from the 256 bytes at an address is not read there. -/
theorem record_apart {bytes src : Bytes} {x y : ℕ} (h : x + sb.inodeSize ≤ y ∨ y + 256 ≤ x) :
    copy 256 (fun _ => 0) 0 (copy sb.inodeSize bytes x src 0) y = copy 256 (fun _ => 0) 0 bytes y := by
  funext k
  unfold copy
  split_ifs with hk hx
  · omega
  · rfl
  · rfl

theorem RecordsApart.writeReread (hapart : RecordsApart sb sectorSize a b) (h128 : 128 ≤ sb.inodeSize) :
    WriteReread sb sectorSize a b where
  restored d n hd hn hino := by
    obtain ⟨hsize, ha, hb, -⟩ := hapart
    obtain ⟨d', hwrite, hd', hbytes⟩ := writeInode_eq sb d n hsize (by rw [hino, hd]; omega)
    refine ⟨_, d', hwrite, ?_⟩
    intro m hm
    refine ⟨_, readInode_record (by rw [hm, hd', hd]; omega), ?_⟩
    apply SameAs.load hn
    intro w o ho
    rw [hbytes, hm, hino]
    exact get_record h128 _ _ _ ho
  unaffected d n m hd hn hino hm := by
    obtain ⟨hsize, ha, hb, hbetween⟩ := hapart
    obtain ⟨d', hwrite, hd', hbytes⟩ := writeInode_eq sb d n hsize (by rw [hino, hd]; omega)
    refine ⟨_, d', _, hwrite, readInode_record (by rw [hm, hd]; omega), ?_⟩
    rw [readInode_record (by rw [hm, hd', hd]; omega), hbytes, record_apart]
    rw [hino, hm]
    exact hbetween

/-! ## Where they are not apart -/

/-- An inode of zeros, and a device of ones. -/
def blank (ino : ℕ) : VfsInode := { VfsInode.zero with ino := ino }
def onesDevice (sectorSize : ℕ) : BlockDevice := { sectorSize := sectorSize, bytes := fun _ => 1 }

@[simp] theorem blank_ino (ino : ℕ) : (blank ino).ino = ino := rfl
@[simp] theorem onesDevice_sectorSize : (onesDevice sectorSize).sectorSize = sectorSize := rfl

theorem blank_inRange (ino : ℕ) : (blank ino).InRange := by
  constructor <;> simp [blank, VfsInode.zero]

theorem put_zeros (n o : ℕ) : put n (fun _ => 0) o 0 = fun _ => 0 := by
  funext i
  unfold put
  rw [Nat.zero_div]
  exact ite_self _

theorem stamp_blank (ino : ℕ) : stamp (blank ino) = fun _ => 0 := by
  have hdev : (isChr 0 || isBlk 0) = false := by decide
  unfold stamp
  simp only [blank, VfsInode.zero, VfsInode.raw, hdev, put_zeros, Bool.false_eq_true, if_false]

/-- A write with a result has been one in its buffers. -/
theorem writeInode_some {n' : VfsInode} {d' : BlockDevice} (h : sb.writeInode d n = some (n', d')) :
    sb.inodeSize ≤ 256 ∧ d'.sectorSize = d.sectorSize ∧
      d'.bytes = copy sb.inodeSize d.bytes (sb.recordAddr n.ino) (stamp n) 0 := by
  by_cases hout : 256 < sb.inodeSize ∨ d.sectorSize < sb.recordAddr n.ino % d.sectorSize + sb.inodeSize
  · unfold Superblock.writeInode at h
    dsimp only at h
    rw [if_pos hout] at h
    cases h
  · obtain ⟨d'', hwrite, hsector, hbytes⟩ := writeInode_eq sb d n (by omega) (by omega)
    rw [hwrite] at h
    cases h
    exact ⟨by omega, hsector, hbytes⟩

theorem readInode_some (h : sb.readInode d n = some m) : sb.recordAddr n.ino % d.sectorSize + 256
    ≤ d.sectorSize := by
  by_contra hbig
  unfold Superblock.readInode at h
  dsimp only at h
  rw [if_pos (not_le.mp hbig)] at h
  cases h

theorem copy_ones {y k : ℕ} (hk : k < 256) : copy 256 (fun _ => 0) 0 (fun _ => 1) y k = 1 :=
  if_pos ⟨Nat.zero_le k, by omega⟩

theorem copy_zeros {x y k w : ℕ} (hk : k < 256) (hx : x ≤ y + k ∧ y + k < x + w) :
    copy 256 (fun _ => 0) 0 (copy w (fun _ => 1) x (fun _ => 0) 0) y k = 0 := by
  unfold copy
  rw [if_pos ⟨Nat.zero_le k, by omega⟩, Nat.sub_zero, if_pos hx]

theorem raw_load (dev : ℕ) (inode : Bytes) : (n.load dev inode).raw = inode := rfl

/-- Zeros that are written where ones are read show. -/
theorem WriteReread.apart (h : WriteReread sb sectorSize a b) (h128 : 128 ≤ sb.inodeSize) :
    RecordsApart sb sectorSize a b := by
  obtain ⟨n', d', hwrite, hrest⟩ := h.restored (onesDevice sectorSize) (blank a) rfl (blank_inRange a) rfl
  obtain ⟨m', hread, -⟩ := hrest (blank a) rfl
  obtain ⟨n'', d'', m'', hwrite', hbefore, hafter⟩ :=
    h.unaffected (onesDevice sectorSize) (blank a) (blank b) rfl (blank_inRange a) rfl rfl
  obtain ⟨hsize, hsector, -⟩ := writeInode_some hwrite
  obtain ⟨-, hsector', hbytes⟩ := writeInode_some hwrite'
  have ha := readInode_some hread
  have hb := readInode_some hbefore
  rw [hsector] at ha
  rw [blank_ino, onesDevice_sectorSize] at ha hb
  refine ⟨hsize, ha, hb, ?_⟩
  by_contra hmeet
  rw [readInode_record (by rw [blank_ino, hsector', onesDevice_sectorSize]; exact hb), hbytes] at hafter
  rw [readInode_record (by rw [blank_ino, onesDevice_sectorSize]; exact hb)] at hbefore
  have hsame := congrArg (fun r => r.map VfsInode.raw) (hbefore.trans hafter.symm)
  simp only [Option.map_some, raw_load, Option.some.injEq, blank_ino, stamp_blank] at hsame
  have hbyte := congrFun hsame (sb.recordAddr a - sb.recordAddr b)
  rw [onesDevice, copy_ones (by omega), copy_zeros (by omega) (by omega)] at hbyte
  exact absurd hbyte (by decide)

/-- Write and read fit together exactly where the records are apart. -/
theorem write_reread_iff (sb : Superblock) (sectorSize a b : ℕ) (h : 128 ≤ sb.inodeSize) :
    WriteReread sb sectorSize a b ↔ RecordsApart sb sectorSize a b := by
  constructor
  · intro hreread
    exact hreread.apart h
  · intro hapart
    exact hapart.writeReread h

/-- Inodes of 256 bytes behind block 5. -/
def wideSuper : Superblock :=
  { dev := 3, blocksize := 1024, rootNode := none, inodesPerGroup := 16, inodeSize := 256,
    inodeTable := fun _ => 5 }

theorem write_reread_iff_wide : WriteReread wideSuper 512 2 3 :=
  (write_reread_iff wideSuper 512 2 3 (by decide)).mpr (by unfold RecordsApart; decide)

/-- The 256 bytes that are read of the fourth inode of 128 bytes leave the sector. -/
theorem narrow_inode_overrun : ¬ ∀ (sb : Superblock) (g : Geometry) (a b : ℕ), g.Valid →
    sb.blocksize = g.blocksize →
    (∃ k, sb.inodeSize = 2 ^ k) → 128 ≤ sb.inodeSize → sb.inodeSize ≤ g.sectorSize → 0 < sb.inodesPerGroup →
    1 ≤ a → 1 ≤ b → a ≠ b → WriteReread sb g.sectorSize a b := by
  intro h
  have hapart := (h { wideSuper with inodeSize := 128 } Geometry.small 4 1 Geometry.small_valid rfl ⟨7, rfl⟩
    (by decide) (by decide) (by decide) (by decide) (by decide) (by decide)).apart (by decide)
  unfold RecordsApart at hapart
  revert hapart
  decide

end Ferrite.Fs
