import Ferrite.Fs.Geometry

/-!
# The group descriptors on the device

`ext2_bgd_read` takes the place of the table from the block size, and `ext2_bgd_write`
from the size of the superblock. What lies in memory where the table is read to is not
known before.
-/
namespace Ferrite.Fs
open Packed Word

namespace BlockDevice
variable (d : BlockDevice)

/-- Reads sectors to a place in memory. -/
def readTo (memory : Bytes) (lba count : ℕ) : Bytes :=
  copy (count * d.sectorSize) memory 0 d.bytes (lba * d.sectorSize)

def writeFrom (lba count : ℕ) (buff : Bytes) : BlockDevice :=
  { d with bytes := copy (count * d.sectorSize) d.bytes (lba * d.sectorSize) buff 0 }

@[simp] theorem writeFrom_sectorSize (lba count : ℕ) (buff : Bytes) :
    (d.writeFrom lba count buff).sectorSize = d.sectorSize := rfl

end BlockDevice

/-- The superblock in memory with its table, and its device. -/
structure Mounted where
  dev : BlockDevice
  groupDesc : ℕ → Bytes

/-- The table that `ext2_bgd_read` makes of what is in memory and on the device. -/
def bgdRead (g : Geometry) (n : ℕ) (dev : BlockDevice) (memory : Bytes) : ℕ → Bytes :=
  let amountOfBytes := n * 32 % word
  let size := ceilDiv amountOfBytes dev.sectorSize
  let bgdBlock := if g.blocksize = 1024 then 2 else 1
  let bgdPos := bgdBlock * g.blocksize % word / dev.sectorSize
  let bgd := dev.readTo memory bgdPos size
  fun i k => bgd (32 * i + k)

namespace Mounted
variable (m : Mounted)

/-- `ext2_bgd_write`; it divides by the number of descriptors in a sector. -/
def bgdWrite (i : ℕ) : Option Mounted :=
  let bgdPerSector := m.dev.sectorSize / 32
  if bgdPerSector = 0 then none
  else
    let sector := wadd (ceilDiv (1024 + 1024) m.dev.sectorSize) (i / bgdPerSector)
    let offset := 32 * (i % bgdPerSector)
    let buff := m.dev.readTo (fun _ => 0) sector 1
    some { m with dev := m.dev.writeFrom sector 1 (copy 32 buff offset (m.groupDesc i) 0) }

/-- A change of a descriptor in memory with its write. -/
def change (i : ℕ) (desc : Bytes) : Option Mounted :=
  { m with groupDesc := Function.update m.groupDesc i desc }.bgdWrite i

def changes : Mounted → List (ℕ × Bytes) → Option Mounted
  | m, [] => some m
  | m, c :: cs => (m.change c.1 c.2).bind fun m => changes m cs

end Mounted

namespace Geometry
variable (g : Geometry)

/-- The place of a descriptor on the device: the table is in the block after that of the superblock. -/
def descriptorAddr (i : ℕ) : ℕ := (if g.blocksize = 1024 then 2 else 1) * g.blocksize + 32 * i

/-- Reading the table again gives what is in memory, and a write stays in its descriptor. -/
structure TableSurvives (n : ℕ) : Prop where
  remount : ∀ (dev : BlockDevice) (memory memory' : Bytes) (cs : List (ℕ × Bytes)),
    dev.sectorSize = g.sectorSize → (∀ c ∈ cs, c.1 < n) →
    ∃ m, Mounted.changes ⟨dev, bgdRead g n dev memory⟩ cs = some m ∧
      ∀ i < n, ∀ k < 32, bgdRead g n m.dev memory' i k = m.groupDesc i k
  frame : ∀ (m : Mounted) (i : ℕ), m.dev.sectorSize = g.sectorSize → i < n →
    ∃ m', m.bgdWrite i = some m' ∧
      ∀ x, x < g.descriptorAddr i ∨ g.descriptorAddr i + 32 ≤ x → m'.dev.bytes x = m.dev.bytes x

/-- A sector holds a descriptor, reader and writer use one place, and the size of the table
with a sector fits 32 bits. -/
def TableFits (n : ℕ) : Prop :=
  n = 0 ∨ (32 ≤ g.sectorSize ∧ (g.blocksize ≤ 2048 ∨ g.sectorSize = g.blocksize) ∧
    32 * n + g.sectorSize ≤ word)

end Geometry

variable {g : Geometry} {n i k : ℕ} {dev : BlockDevice} {memory : Bytes} {m m' : Mounted}

/-! ## The two places -/

/-- The writer rounds the end of the superblock up to a sector. -/
theorem Geometry.Valid.writer_start (h : g.Valid) :
    ceilDiv (1024 + 1024) g.sectorSize * g.sectorSize = max 2048 g.sectorSize := by
  obtain ⟨j, hj, hpow⟩ := h.sectorSize_pow
  have hlt : g.sectorSize ≤ 2 ^ 31 := by
    rw [hpow]
    exact Nat.pow_le_pow_right (by decide) (by omega)
  have hw : word = 2 ^ 32 := rfl
  have hpos := h.sectorSize_pos
  rw [ceilDiv, Nat.mod_eq_of_lt (by omega)]
  rcases Nat.lt_or_ge 11 j with hbig | hsmall
  · have hle : 2048 < g.sectorSize := by
      rw [hpow]
      exact show 2 ^ 11 < 2 ^ j from Nat.pow_lt_pow_right (by decide) hbig
    have hone : (1024 + 1024 + g.sectorSize - 1) / g.sectorSize = 1 :=
      Nat.div_eq_of_lt_le (by omega) (by omega)
    rw [hone, Nat.one_mul, max_eq_right hle.le]
  · have hdvd : g.sectorSize ∣ 2048 := by
      rw [hpow]
      exact pow_dvd_pow 2 hsmall
    obtain ⟨q, hq⟩ := hdvd
    have hle : g.sectorSize ≤ 2048 := Nat.le_of_dvd (by decide) ⟨q, hq⟩
    rw [show 1024 + 1024 + g.sectorSize - 1 = g.sectorSize * q + (g.sectorSize - 1) by omega,
      Nat.mul_add_div hpos, Nat.div_eq_of_lt (by omega), Nat.add_zero, Nat.mul_comm, ← hq, max_eq_left hle]

theorem Geometry.Valid.reader_start (h : g.Valid) : g.descriptorAddr i = max 2048 g.blocksize + 32 * i := by
  obtain ⟨j, hj, -, hpow⟩ := h.pow
  unfold Geometry.descriptorAddr
  congr 1
  rcases Nat.lt_or_ge 10 j with hbig | hsmall
  · have hle : 2048 ≤ g.blocksize := by
      rw [hpow]
      exact show 2 ^ 11 ≤ 2 ^ j from Nat.pow_le_pow_right (by decide) hbig
    rw [if_neg (by omega), Nat.one_mul, max_eq_right hle]
  · have heq : g.blocksize = 1024 := by
      rw [hpow, show j = 10 by omega]
      rfl
    rw [if_pos heq, heq]
    rfl

/-- The reader reads the first descriptors from their places, as many as it has a size for. -/
theorem bgdRead_eq (h : g.Valid) (hsize : dev.sectorSize = g.sectorSize) (i k : ℕ) :
    bgdRead g n dev memory i k =
      if 32 * i + k < ceilDiv (n * 32 % word) g.sectorSize * g.sectorSize then
        dev.bytes (g.descriptorAddr i + k) else memory (32 * i + k) := by
  have hstart := h.reader_start (i := 0)
  obtain ⟨j, hj, hj', hpow⟩ := h.pow
  have hlt : g.blocksize ≤ 2 ^ 31 := by
    rw [hpow]
    exact Nat.pow_le_pow_right (by decide) (by omega)
  have hw : word = 2 ^ 32 := rfl
  have hpos : (if g.blocksize = 1024 then 2 else 1) * g.blocksize < word := by
    unfold Geometry.descriptorAddr at hstart
    omega
  have hdvd : g.sectorSize ∣ (if g.blocksize = 1024 then 2 else 1) * g.blocksize := Dvd.dvd.mul_left h.dvd _
  unfold bgdRead BlockDevice.readTo Geometry.descriptorAddr
  rw [hsize, Nat.mod_eq_of_lt hpos, Nat.div_mul_cancel hdvd]
  unfold copy
  simp only [Nat.zero_le, true_and, Nat.zero_add, Nat.sub_zero, Nat.add_assoc]

/-- Where the size of the table fits, all of it is read. -/
theorem size_covers (hn : 32 * n + g.sectorSize ≤ word) (hpos : 0 < g.sectorSize) :
    32 * n ≤ ceilDiv (n * 32 % word) g.sectorSize * g.sectorSize := by
  rw [ceilDiv, Nat.mod_eq_of_lt (show n * 32 < word by omega), Nat.mod_eq_of_lt (by omega)]
  have hdiv := Nat.div_add_mod (n * 32 + g.sectorSize - 1) g.sectorSize
  have hmod := Nat.mod_lt (n * 32 + g.sectorSize - 1) hpos
  rw [Nat.mul_comm] at hdiv
  omega

/-- Otherwise the end of it is not. -/
theorem size_short (hn : word < 32 * n + g.sectorSize) (hpos : 0 < n) (hsec : g.sectorSize < word) :
    ceilDiv (n * 32 % word) g.sectorSize * g.sectorSize < 32 * n := by
  have hle := Nat.div_mul_le_self ((n * 32 % word + g.sectorSize - 1) % word) g.sectorSize
  have hlt : (n * 32 % word + g.sectorSize - 1) % word < word := Nat.mod_lt _ (by decide)
  rcases Nat.lt_or_ge (n * 32) word with hsmall | hbig
  · have hwrap : (n * 32 % word + g.sectorSize - 1) % word = n * 32 + g.sectorSize - 1 - word := by
      rw [Nat.mod_eq_of_lt hsmall, Nat.mod_eq_sub_mod (by omega), Nat.mod_eq_of_lt (by omega)]
    rw [ceilDiv, hwrap, Nat.div_eq_of_lt (by omega), Nat.zero_mul]
    omega
  · have := hle.trans_lt hlt
    unfold ceilDiv
    omega

/-! ## One write -/

/-- A sector that is read, changed and written back changes in the new bytes only. -/
theorem writeFrom_patch {d : BlockDevice} {sector offset n : ℕ} {src : Bytes}
    (hfits : offset + n ≤ d.sectorSize) :
    (d.writeFrom sector 1 (copy n (d.readTo (fun _ => 0) sector 1) offset src 0)).bytes
      = copy n d.bytes (sector * d.sectorSize + offset) src 0 := by
  funext x
  unfold BlockDevice.writeFrom BlockDevice.readTo
  dsimp only
  rw [Nat.one_mul]
  by_cases hx : sector * d.sectorSize ≤ x ∧ x < sector * d.sectorSize + d.sectorSize
  · obtain ⟨y, rfl⟩ := Nat.exists_eq_add_of_le hx.1
    rw [copy_add (by omega), Nat.zero_add]
    by_cases hy : offset ≤ y ∧ y < offset + n
    · obtain ⟨z, rfl⟩ := Nat.exists_eq_add_of_le hy.1
      rw [copy_add (by omega), ← Nat.add_assoc, copy_add (by omega)]
    · unfold copy
      rw [if_neg hy, if_pos (by omega), if_neg (by omega), Nat.sub_zero]
  · unfold copy
    rw [if_neg hx, if_neg (by omega)]

/-- Where a sector holds a descriptor, the writer changes its 32 bytes behind the start. -/
theorem bgdWrite_eq (h : g.Valid) (hsize : m.dev.sectorSize = g.sectorSize) (h32 : 32 ≤ g.sectorSize)
    (hi : 32 * i + g.sectorSize ≤ word) :
    ∃ m', m.bgdWrite i = some m' ∧ m'.groupDesc = m.groupDesc ∧ m'.dev.sectorSize = g.sectorSize ∧
      m'.dev.bytes = copy 32 m.dev.bytes (max 2048 g.sectorSize + 32 * i) (m.groupDesc i) 0 := by
  obtain ⟨j, hj, hpow⟩ := h.sectorSize_pow
  have h5 : 5 ≤ j := (Nat.pow_le_pow_iff_right (a := 2) (by decide)).mp (hpow ▸ h32)
  have hsector : 32 * (g.sectorSize / 32) = g.sectorSize := by
    rw [hpow]
    exact Nat.mul_div_cancel' (pow_dvd_pow 2 h5)
  have hper : 0 < g.sectorSize / 32 := Nat.div_pos h32 (by decide)
  have hstart := h.writer_start
  have hceil := Nat.mul_le_mul_left (ceilDiv (1024 + 1024) g.sectorSize) h32
  have hdiv := Nat.div_add_mod i (g.sectorSize / 32)
  have hmod := Nat.mod_lt i hper
  have hquot := Nat.div_le_self i (g.sectorSize / 32)
  have hsum : ceilDiv (1024 + 1024) g.sectorSize + i / (g.sectorSize / 32) < word := by
    have hw : word = 2 ^ 32 := rfl
    omega
  have haddr : (ceilDiv (1024 + 1024) g.sectorSize + i / (g.sectorSize / 32)) * g.sectorSize
      + 32 * (i % (g.sectorSize / 32)) = max 2048 g.sectorSize + 32 * i := by
    calc (ceilDiv (1024 + 1024) g.sectorSize + i / (g.sectorSize / 32)) * g.sectorSize
          + 32 * (i % (g.sectorSize / 32))
        = ceilDiv (1024 + 1024) g.sectorSize * g.sectorSize
            + (i / (g.sectorSize / 32) * g.sectorSize + 32 * (i % (g.sectorSize / 32))) := by ring
      _ = max 2048 g.sectorSize
            + 32 * (g.sectorSize / 32 * (i / (g.sectorSize / 32)) + i % (g.sectorSize / 32)) := by
          rw [hstart]
          conv_lhs => rw [show i / (g.sectorSize / 32) * g.sectorSize
            = i / (g.sectorSize / 32) * (32 * (g.sectorSize / 32)) by rw [hsector]]
          ring
      _ = max 2048 g.sectorSize + 32 * i := by rw [hdiv]
  have hfits : 32 * (i % (g.sectorSize / 32)) + 32 ≤ m.dev.sectorSize := by
    rw [hsize]
    omega
  unfold Mounted.bgdWrite
  dsimp only
  rw [hsize, if_neg hper.ne']
  refine ⟨_, rfl, rfl, hsize, ?_⟩
  rw [writeFrom_patch hfits, hsize, wadd_of_lt hsum, haddr]

/-- On sectors of 512 bytes this is the write of the model of the file system. -/
theorem Ext2.bgdWrite_mounted (s : Ext2) (hi : i < word) :
    Mounted.bgdWrite ⟨⟨sectorSize, s.disk⟩, s.groupDesc⟩ i
      = some ⟨⟨sectorSize, (s.bgdWrite i).disk⟩, s.groupDesc⟩ := by
  have hw : word = 2 ^ 32 := rfl
  have hper : sectorSize / 32 = 16 := rfl
  have hsector : wadd (ceilDiv (1024 + 1024) sectorSize) (i / 16) = 4 + i / 16 :=
    wadd_of_lt (show 4 + i / 16 < word by omega)
  unfold Mounted.bgdWrite
  dsimp only
  rw [hper, if_neg (by decide), hsector]
  rfl

/-! ## Runs -/

/-- On the device is what is in memory. -/
def Synced (g : Geometry) (n : ℕ) (m : Mounted) : Prop :=
  ∀ i < n, ∀ k < 32, m.dev.bytes (g.descriptorAddr i + k) = m.groupDesc i k

theorem same_start (h : g.Valid) (hplace : g.blocksize ≤ 2048 ∨ g.sectorSize = g.blocksize) (i : ℕ) :
    max 2048 g.sectorSize + 32 * i = g.descriptorAddr i := by
  have hle := h.sectorSize_le
  rw [h.reader_start]
  omega

theorem descriptorAddr_apart {j : ℕ} (hij : i ≠ j) (hk : k < 32) :
    g.descriptorAddr j + k < g.descriptorAddr i ∨ g.descriptorAddr i + 32 ≤ g.descriptorAddr j + k := by
  unfold Geometry.descriptorAddr
  omega

/-- A change keeps the device in step with the memory. -/
theorem Synced.change (hs : Synced g n m) (desc : Bytes) (h : g.Valid) (hfits : g.TableFits n)
    (hsize : m.dev.sectorSize = g.sectorSize) (hi : i < n) :
    ∃ m', m.change i desc = some m' ∧ Synced g n m' ∧ m'.dev.sectorSize = g.sectorSize := by
  obtain hn | ⟨h32, hplace, hn⟩ := hfits
  · omega
  let t : Mounted := { m with groupDesc := Function.update m.groupDesc i desc }
  obtain ⟨m', hm', hgroup, hsec, hbytes⟩ := bgdWrite_eq (m := t) (i := i) h hsize h32 (by omega)
  refine ⟨m', hm', ?_, hsec⟩
  intro j hj k hk
  rw [hgroup, hbytes, same_start h hplace]
  by_cases hij : i = j
  · subst hij
    rw [copy_add hk, Nat.zero_add]
  · rw [show t.groupDesc j = m.groupDesc j from Function.update_of_ne (Ne.symm hij) .., ← hs j hj k hk]
    rcases descriptorAddr_apart (g := g) hij hk with hlow | hhigh
    · exact copy_of_lt hlow
    · exact copy_of_le hhigh

theorem Synced.changes {cs : List (ℕ × Bytes)} (hs : Synced g n m) (h : g.Valid) (hfits : g.TableFits n)
    (hsize : m.dev.sectorSize = g.sectorSize) (hcs : ∀ c ∈ cs, c.1 < n) :
    ∃ m', m.changes cs = some m' ∧ Synced g n m' ∧ m'.dev.sectorSize = g.sectorSize := by
  induction cs generalizing m with
  | nil => exact ⟨m, rfl, hs, hsize⟩
  | cons c cs ih =>
      obtain ⟨m', hm', hs', hsize'⟩ := hs.change c.2 h hfits hsize (hcs c List.mem_cons_self)
      rw [Mounted.changes, hm', Option.bind_some]
      exact ih hs' hsize' fun c' hc' => hcs c' (List.mem_cons_of_mem _ hc')

/-- All descriptors are read from their places. -/
theorem bgdRead_place (h : g.Valid) (hsize : dev.sectorSize = g.sectorSize) (hfits : g.TableFits n)
    (hi : i < n) (hk : k < 32) : bgdRead g n dev memory i k = dev.bytes (g.descriptorAddr i + k) := by
  obtain hn | ⟨-, -, hn⟩ := hfits
  · omega
  have hcover := size_covers hn h.sectorSize_pos
  rw [bgdRead_eq h hsize, if_pos (by omega)]

/-- The table survives where it fits. -/
theorem Geometry.TableFits.survives (hfits : g.TableFits n) (h : g.Valid) : g.TableSurvives n where
  remount dev memory memory' cs hsize hcs := by
    have hstart : Synced g n ⟨dev, bgdRead g n dev memory⟩ := fun i hi k hk =>
      (bgdRead_place h hsize hfits hi hk).symm
    obtain ⟨m, hm, hs, hsize'⟩ := hstart.changes h hfits hsize hcs
    refine ⟨m, hm, ?_⟩
    intro i hi k hk
    rw [bgdRead_place h hsize' hfits hi hk, hs i hi k hk]
  frame m i hsize hi := by
    obtain hn | ⟨h32, hplace, hn⟩ := hfits
    · omega
    obtain ⟨m', hm', -, -, hbytes⟩ := bgdWrite_eq (m := m) (i := i) h hsize h32 (by omega)
    refine ⟨m', hm', ?_⟩
    intro x hx
    rw [hbytes, same_start h hplace]
    rcases hx with hlow | hhigh
    · exact copy_of_lt hlow
    · exact copy_of_le hhigh

/-! ## Where it does not fit -/

/-- A device of zeros, with a first descriptor that is not zero. -/
def oneDescriptor (g : Geometry) : Mounted :=
  { dev := { sectorSize := g.sectorSize, bytes := fun _ => 0 }, groupDesc := fun _ _ => 1 }

/-- A write of the first descriptor that stays in its place shows that writer and reader agree. -/
theorem Geometry.TableSurvives.same_place (hs : g.TableSurvives n) (h : g.Valid) (hn : 0 < n) :
    32 ≤ g.sectorSize ∧ (g.blocksize ≤ 2048 ∨ g.sectorSize = g.blocksize) := by
  obtain ⟨m', hm', hframe⟩ := hs.frame (oneDescriptor g) 0 rfl hn
  have h32 : 32 ≤ g.sectorSize := by
    by_contra hlt
    have hzero : g.sectorSize / 32 = 0 := Nat.div_eq_of_lt (by omega)
    unfold Mounted.bgdWrite at hm'
    rw [show (oneDescriptor g).dev.sectorSize = g.sectorSize from rfl, hzero] at hm'
    cases hm'
  have hlt := h.lt
  have hle := h.sectorSize_le
  refine ⟨h32, ?_⟩
  by_contra hplace
  obtain ⟨m'', hm'', -, -, hbytes⟩ := bgdWrite_eq (m := oneDescriptor g) (i := 0) h rfl h32 (by omega)
  obtain rfl : m' = m'' := Option.some.inj (hm'.symm.trans hm'')
  have hstart := h.reader_start (i := 0)
  have hkeep := hframe (max 2048 g.sectorSize + 32 * 0 + 0) (.inl (by omega))
  rw [hbytes, copy_add (by decide)] at hkeep
  exact absurd hkeep (show (1 : Byte) ≠ 0 by decide)

/-- Reading twice into different memory gives the same table only when all of it is read. -/
theorem Geometry.TableSurvives.size_fits (hs : g.TableSurvives n) (h : g.Valid) (hn : 0 < n) :
    32 * n + g.sectorSize ≤ word := by
  by_contra hshort
  have hend := size_short (not_le.mp hshort) hn (h.sectorSize_le.trans_lt h.lt)
  let dev : BlockDevice := { sectorSize := g.sectorSize, bytes := fun _ => 0 }
  obtain ⟨m, hm, hsame⟩ := hs.remount dev (fun _ => 0) (fun _ => 1) [] rfl (by simp)
  cases hm
  have hlast := hsame (n - 1) (by omega) 31 (by decide)
  rw [bgdRead_eq h rfl, if_neg (by omega)] at hlast
  change (1 : Byte) = bgdRead g n dev (fun _ => 0) (n - 1) 31 at hlast
  rw [bgdRead_eq h rfl, if_neg (by omega)] at hlast
  exact absurd hlast (show (1 : Byte) ≠ 0 by decide)

/-- The table survives exactly where it fits. -/
theorem group_table_iff (g : Geometry) (h : g.Valid) (n : ℕ) : g.TableSurvives n ↔ g.TableFits n := by
  constructor
  · intro hs
    rcases Nat.eq_zero_or_pos n with hn | hn
    · exact .inl hn
    · obtain ⟨h32, hplace⟩ := hs.same_place h hn
      exact .inr ⟨h32, hplace, hs.size_fits h hn⟩
  · intro hfits
    exact hfits.survives h

theorem group_table_iff_small : Geometry.small.TableSurvives 16 :=
  (group_table_iff Geometry.small Geometry.small_valid 16).mpr (by unfold Geometry.TableFits; decide)

/-- With blocks of 4096 bytes on sectors of 512, the writer stays before the table. -/
theorem large_block_table_lost : ¬ ∀ (g : Geometry) (n : ℕ), g.Valid → n < word → g.TableSurvives n := by
  intro h
  have hvalid : Geometry.Valid ⟨4096, 512⟩ := ⟨⟨2, rfl⟩, by decide, by decide⟩
  have hplace := ((h ⟨4096, 512⟩ 1 hvalid (by decide)).same_place hvalid (by decide)).2
  revert hplace
  decide

end Ferrite.Fs
