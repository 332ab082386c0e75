import Ferrite.Fs.Ext2
import Mathlib.Data.Nat.Prime.Basic

/-!
# The sectors of a block

Each function that transfers a block computes the first sector and the number of sectors
by itself, from the sectors of a block or from the byte address of the block.
-/
namespace Ferrite.Fs
open Packed Word

/-- `s_blocksize` and `d_sector_size`. -/
structure Geometry where
  blocksize : ℕ
  sectorSize : ℕ

namespace Geometry
variable (g : Geometry)

/-- A block size of ext2 and a sector size that divides it. -/
structure Valid : Prop where
  blocksize : ∃ log, g.blocksize = 1024 * 2 ^ log
  lt : g.blocksize < word
  dvd : g.sectorSize ∣ g.blocksize

def sectors : ℕ := g.blocksize / g.sectorSize

/-- The first sector and the number of sectors: the number of the block times its sectors. -/
def bySectors (blockNum : ℕ) : ℕ × ℕ := (blockNum * g.sectors % word, g.sectors)

/-- The same from the byte address of the block. -/
def byBytes (blockNum : ℕ) : ℕ × ℕ := (blockNum * g.blocksize % word / g.sectorSize, g.sectors)

/-! ## The functions -/

def readBlock : ℕ → ℕ × ℕ := g.bySectors
def writeBlock : ℕ → ℕ × ℕ := g.byBytes
def fileRead : ℕ → ℕ × ℕ := g.byBytes
def findEntry : ℕ → ℕ × ℕ := g.byBytes
def deleteEntry : ℕ → ℕ × ℕ := g.byBytes
def writeEntry : ℕ → ℕ × ℕ := g.byBytes
def mkdir : ℕ → ℕ × ℕ := g.byBytes

def paths : List (Geometry → ℕ → ℕ × ℕ) :=
  [readBlock, writeBlock, fileRead, findEntry, deleteEntry, writeEntry, mkdir]

/-- All of them transfer the sectors of the block. -/
def PathsAgree (blockNum : ℕ) : Prop := ∀ path ∈ paths, path g blockNum = (blockNum * g.sectors, g.sectors)

variable {g} {b : ℕ}

/-! ## Powers of two -/

theorem Valid.pow (h : g.Valid) : ∃ k, 10 ≤ k ∧ k < 32 ∧ g.blocksize = 2 ^ k := by
  obtain ⟨log, hlog⟩ := h.blocksize
  have hpow : g.blocksize = 2 ^ (10 + log) := by
    rw [hlog, pow_add]
    rfl
  refine ⟨10 + log, Nat.le_add_right .., ?_, hpow⟩
  apply (Nat.pow_lt_pow_iff_right (a := 2) (by decide)).mp
  rw [← hpow]
  exact h.lt

theorem Valid.sectorSize_pow (h : g.Valid) : ∃ k, k < 32 ∧ g.sectorSize = 2 ^ k := by
  obtain ⟨k, -, hk, hpow⟩ := h.pow
  obtain ⟨j, hj, hsector⟩ := (Nat.dvd_prime_pow Nat.prime_two).mp (hpow ▸ h.dvd)
  exact ⟨j, by omega, hsector⟩

theorem Valid.sectorSize_pos (h : g.Valid) : 0 < g.sectorSize := by
  obtain ⟨k, -, hk⟩ := h.sectorSize_pow
  rw [hk]
  exact Nat.two_pow_pos k

theorem Valid.sectorSize_le (h : g.Valid) : g.sectorSize ≤ g.blocksize := by
  obtain ⟨k, -, -, hk⟩ := h.pow
  apply Nat.le_of_dvd _ h.dvd
  rw [hk]
  exact Nat.two_pow_pos k

theorem Valid.sectorSize_dvd_word (h : g.Valid) : g.sectorSize ∣ word := by
  obtain ⟨k, hlt, hk⟩ := h.sectorSize_pow
  rw [hk]
  exact pow_dvd_pow 2 hlt.le

theorem Valid.sectors_mul (h : g.Valid) : g.sectors * g.sectorSize = g.blocksize := Nat.div_mul_cancel h.dvd

/-! ## Agreement -/

theorem bySectors_eq (hb : b * g.sectors < word) : g.bySectors b = (b * g.sectors, g.sectors) := by
  rw [bySectors, Nat.mod_eq_of_lt hb]

/-- The byte address has to fit 32 bits. -/
theorem Valid.byBytes_eq_iff (h : g.Valid) :
    g.byBytes b = (b * g.sectors, g.sectors) ↔ b * g.blocksize < word := by
  have hbytes : b * g.sectors * g.sectorSize = b * g.blocksize := by rw [Nat.mul_assoc, h.sectors_mul]
  have hdvd : g.sectorSize ∣ b * g.blocksize % word :=
    (Nat.dvd_mod_iff h.sectorSize_dvd_word).mpr (Dvd.dvd.mul_left h.dvd b)
  rw [byBytes, Prod.mk.injEq, and_iff_left rfl, Nat.div_eq_iff_eq_mul_left h.sectorSize_pos hdvd, hbytes]
  exact Nat.mod_eq_iff_lt (by decide)

/-- The functions agree exactly on the blocks with a byte address of 32 bits. -/
theorem paths_agree_iff (g : Geometry) (h : g.Valid) (b : ℕ) (hb : b * g.sectors < word) :
    g.PathsAgree b ↔ b * g.blocksize < word := by
  rw [← h.byBytes_eq_iff]
  constructor
  · intro hpaths
    exact hpaths writeBlock (by simp [paths])
  · intro hbytes path hpath
    simp only [paths, List.mem_cons, List.not_mem_nil, or_false] at hpath
    rcases hpath with rfl | rfl | rfl | rfl | rfl | rfl | rfl
    · exact bySectors_eq hb
    all_goals exact hbytes

/-- Blocks of 1024 bytes on sectors of 512. -/
def small : Geometry := ⟨1024, 512⟩

theorem small_valid : small.Valid := ⟨⟨0, rfl⟩, by decide, by decide⟩

theorem paths_agree_iff_small : small.PathsAgree 5 :=
  (paths_agree_iff small small_valid 5 (by decide)).mpr (by decide)

/-- Behind four gigabytes, only `ext2_read_block` finds the block. -/
theorem far_block_missed : ¬ ∀ (g : Geometry) (b : ℕ), g.Valid → b * g.sectors < word → g.PathsAgree b := by
  intro h
  have hmkdir := h small (2 ^ 22) small_valid (by decide) mkdir (by simp [paths])
  revert hmkdir
  decide

end Geometry

/-! ## The sectors of the model -/

namespace Ext2
variable (s : Ext2)

/-- The geometry of a device with sectors of 512 bytes. -/
def geometry : Geometry := ⟨s.blocksize, sectorSize⟩

theorem geometry_valid (hbs : 0 < s.blocksize) : s.geometry.Valid where
  blocksize := ⟨s.logBlockSize, by
    rw [geometry, blocksize_eq_pow hbs, pow_add, Nat.mul_comm]
    rfl⟩
  lt := Nat.mod_lt _ (by decide)
  dvd := sector_dvd_blocksize

theorem readBlock_geometry (b : ℕ) :
    s.readBlock b = s.read (s.geometry.readBlock b).1 (s.geometry.readBlock b).2 := rfl

theorem blockSector_geometry (b : ℕ) : (s.blockSector b, s.sectors) = s.geometry.byBytes b := rfl

end Ext2
end Ferrite.Fs
