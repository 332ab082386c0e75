import Ferrite.Fs.Ext2

/-!
# Reading a file

`ext2_file_read` copies block after block. An unallocated block has the number
zero, and so it is read from the first block of the device.
-/
namespace Ferrite.Fs
open Packed Word

def oWronlyFlag : ℕ := 1

/-- The number of bytes a read is to return. -/
def readLength (bs size pos : ℕ) (count : ℤ) : ℕ := min count.toNat (min (size - pos) (12 * bs - pos))

/-- A `u32` taken as an `s32`, and back. -/
def toS32 (x : ℕ) : ℤ := if x < 2 ^ 31 then x else x - 2 ^ 32
def ofS32 (x : ℤ) : ℕ := (x % word).toNat

namespace Ext2
variable (s : Ext2)

/-- The loop over the blocks; `memcpy` with a negative length faults. -/
def readLoop (inode : Bytes) (count : ℤ) : ℕ → ℕ → List Byte → Option (ℕ × List Byte)
  | 0, _, _ => none
  | fuel + 1, offset, out =>
      if (out.length : ℤ) < count ∧ offset < iSize inode then
        let i := offset / s.blocksize
        if 12 ≤ i then some (offset, out)
        else
          let offsetInBlock := offset % s.blocksize
          let bytesInThisBlock := toS32 (wsub s.blocksize offsetInBlock)
          let bytesRemaining := toS32 (wsub (iSize inode) offset)
          let bytesToCopy := min (min bytesInThisBlock (count - out.length)) bytesRemaining
          if bytesToCopy < 0 then none
          else
            let block := s.read (s.blockSector (iBlock inode i)) s.sectors
            let bytes := (List.range bytesToCopy.toNat).map fun k => block (offsetInBlock + k)
            readLoop inode count fuel (offset + bytesToCopy.toNat) (out ++ bytes)
      else some (offset, out)

/-- The result, the bytes copied and the new position. A block takes one round. -/
def fileRead (node : VfsInode) (flags pos : ℕ) (count : ℤ) : Option (ℤ × List Byte × ℕ) :=
  if flags % 4 = oWronlyFlag then some (-ebadf, [], pos)
  else if !isReg node.mode then some (-einval, [], pos)
  else
    (s.readLoop node.raw count 14 pos []).map fun r => (r.2.length, r.2, r.1)

/-- A byte of a file. What no block holds is zero. -/
def fileByte (inode : Bytes) (p : ℕ) : Byte :=
  let b := iBlock inode (p / s.blocksize)
  if b = 0 then 0 else s.disk (b * s.blocksize + p % s.blocksize)

/-- The byte that is read in its place. -/
def servedByte (inode : Bytes) (p : ℕ) : Byte :=
  s.disk (iBlock inode (p / s.blocksize) * s.blocksize % word + p % s.blocksize)

/-! ## Signed differences -/

variable {s}

theorem toS32_wsub {a b : ℕ} (hba : b ≤ a) (ha : a < word) (h : a - b < 2 ^ 31) :
    toS32 (wsub a b) = (a - b : ℕ) := by
  rw [wsub_of_le hba ha, toS32, if_pos h]

theorem toS32_neg {a b : ℕ} (hba : b ≤ a) (ha : a < word) (h : 2 ^ 31 ≤ a - b) :
    toS32 (wsub a b) < 0 := by
  have hw : word = 2 ^ 32 := rfl
  rw [wsub_of_le hba ha, toS32, if_neg (by omega)]
  omega

/-- The three bounds of a round as one number. -/
theorem least_of_three (a b c : ℕ) : ∃ n : ℕ, min (min (a : ℤ) b) c = n ∧ n ≤ a ∧ n ≤ b ∧ n ≤ c
    ∧ (n = a ∨ n = b ∨ n = c) := ⟨min (min a b) c, by omega⟩

/-! ## The loop over the blocks -/

theorem size_lt (inode : Bytes) : iSize inode < word := get_lt 4 inode 4

/-- A byte of a block in the buffer. -/
theorem read_block {b k : ℕ} (hk : k < s.blocksize) :
    s.read (s.blockSector b) s.sectors k = s.disk (b * s.blocksize % word + k) := by
  rw [read_of_lt (by rwa [sectors_mul]), blockSector_mul]

/-- What one round copies. -/
theorem round_bytes {inode : Bytes} {offset n : ℕ} (hn : offset % s.blocksize + n ≤ s.blocksize) :
    ((List.range n).map fun k =>
        s.read (s.blockSector (iBlock inode (offset / s.blocksize))) s.sectors
          (offset % s.blocksize + k))
      = (List.range n).map fun k => s.servedByte inode (offset + k) := by
  apply List.map_congr_left
  intro k hk
  have hlt : offset % s.blocksize + k < s.blocksize := by
    have := List.mem_range.mp hk
    omega
  have hsum : offset + k = (offset % s.blocksize + k) + s.blocksize * (offset / s.blocksize) := by
    have := Nat.mod_add_div offset s.blocksize
    omega
  have hdiv : (offset + k) / s.blocksize = offset / s.blocksize := by
    rw [hsum, Nat.add_mul_div_left _ _ (by omega), Nat.div_eq_of_lt hlt, zero_add]
  have hmod : (offset + k) % s.blocksize = offset % s.blocksize + k := by
    rw [hsum, Nat.add_mul_mod_self_left, Nat.mod_eq_of_lt hlt]
  rw [read_block hlt, servedByte, hdiv, hmod]

/-- The loop is left at the length of the read. -/
theorem readLoop_stop {inode : Bytes} {count : ℤ} {fuel pos : ℕ} {out : List Byte}
    (hbs : 0 < s.blocksize)
    (hlen : readLength s.blocksize (iSize inode) pos count ≤ out.length) :
    s.readLoop inode count (fuel + 1) (pos + out.length) out = some (pos + out.length, out) := by
  rw [readLoop]
  dsimp only
  by_cases hc : (out.length : ℤ) < count ∧ pos + out.length < iSize inode
  · have hi : 12 ≤ (pos + out.length) / s.blocksize := by
      by_contra hlt
      have hblock := (Nat.div_lt_iff_lt_mul hbs).mp (not_le.mp hlt)
      unfold readLength at hlen
      omega
    rw [if_pos hc, if_pos hi]
  · rw [if_neg hc]

/-- A round that copies `n` bytes. -/
theorem readLoop_round {inode : Bytes} {count : ℤ} {fuel offset n : ℕ} {out : List Byte}
    (hc : (out.length : ℤ) < count ∧ offset < iSize inode) (hi : offset / s.blocksize < 12)
    (hmin : min (min (toS32 (wsub s.blocksize (offset % s.blocksize))) (count - out.length))
      (toS32 (wsub (iSize inode) offset)) = n)
    (hn : offset % s.blocksize + n ≤ s.blocksize) :
    s.readLoop inode count (fuel + 1) offset out
      = s.readLoop inode count fuel (offset + n)
          (out ++ (List.range n).map fun k => s.servedByte inode (offset + k)) := by
  rw [readLoop, if_pos hc]
  dsimp only
  rw [if_neg (not_le.mpr hi), hmin, if_neg (by omega), Int.toNat_natCast, round_bytes hn]

/-- From any round on, the loop serves the rest of the read. -/
theorem readLoop_spec {inode : Bytes} (count : ℤ) {pos : ℕ} (hbs : 0 < s.blocksize)
    (hmax : s.blocksize < 2 ^ 31) (hfar : iSize inode - pos < 2 ^ 31) :
    ∀ (fuel : ℕ) (out : List Byte), out.length ≤ readLength s.blocksize (iSize inode) pos count →
      (out.length < readLength s.blocksize (iSize inode) pos count →
        13 ≤ fuel + (pos + out.length) / s.blocksize) →
      s.readLoop inode count (fuel + 1) (pos + out.length) out
        = some (pos + readLength s.blocksize (iSize inode) pos count,
            out ++ (List.range (readLength s.blocksize (iSize inode) pos count - out.length)).map
              fun k => s.servedByte inode (pos + out.length + k)) := by
  intro fuel
  induction fuel with
  | zero =>
      intro out hle hfuel
      have hend : readLength s.blocksize (iSize inode) pos count ≤ out.length := by
        by_contra hlt
        have hblock := (Nat.div_lt_iff_lt_mul (y := 12) hbs).mpr
          (show pos + out.length < 12 * s.blocksize by unfold readLength at hlt; omega)
        have := hfuel (by omega)
        omega
      rw [readLoop_stop hbs hend, le_antisymm hend hle, Nat.sub_self]
      simp
  | succ fuel ih =>
      intro out hle hfuel
      rcases Nat.lt_or_ge out.length (readLength s.blocksize (iSize inode) pos count) with hlt | hend
      · have hbound : (out.length : ℤ) < count ∧ pos + out.length < iSize inode
            ∧ pos + out.length < 12 * s.blocksize := by
          unfold readLength at hlt
          omega
        have hblock : (pos + out.length) / s.blocksize < 12 :=
          (Nat.div_lt_iff_lt_mul hbs).mpr hbound.2.2
        have hoff := Nat.mod_lt (pos + out.length) hbs
        have hw : word = 2 ^ 32 := rfl
        have hin : toS32 (wsub s.blocksize ((pos + out.length) % s.blocksize))
            = (s.blocksize - (pos + out.length) % s.blocksize : ℕ) :=
          toS32_wsub hoff.le (by omega) (by omega)
        have hrem : toS32 (wsub (iSize inode) (pos + out.length))
            = (iSize inode - (pos + out.length) : ℕ) :=
          toS32_wsub hbound.2.1.le (size_lt inode) (by omega)
        have hcount : count - out.length = (count.toNat - out.length : ℕ) := by
          have := hbound.1
          omega
        obtain ⟨n, hn, hn₁, hn₂, hn₃, hlast⟩ := least_of_three
          (s.blocksize - (pos + out.length) % s.blocksize) (count.toNat - out.length)
          (iSize inode - (pos + out.length))
        have hfits : (pos + out.length) % s.blocksize + n ≤ s.blocksize :=
          Nat.add_le_of_le_sub' hoff.le hn₁
        rw [← hin, ← hcount, ← hrem] at hn
        rw [readLoop_round ⟨hbound.1, hbound.2.1⟩ hblock hn hfits]
        clear hn hin hrem hcount
        have hnext : (out ++ (List.range n).map fun k => s.servedByte inode (pos + out.length + k)).length
            = out.length + n := by
          rw [List.length_append, List.length_map, List.length_range]
        have hle' : out.length + n ≤ readLength s.blocksize (iSize inode) pos count := by
          have hdm := Nat.mod_add_div (pos + out.length) s.blocksize
          have hfit : s.blocksize * ((pos + out.length) / s.blocksize) + s.blocksize
              ≤ 12 * s.blocksize := by
            rw [← Nat.mul_succ, Nat.mul_comm]
            exact Nat.mul_le_mul_right _ hblock
          unfold readLength
          omega
        have hfuel' : out.length + n < readLength s.blocksize (iSize inode) pos count →
            13 ≤ fuel + (pos + (out.length + n)) / s.blocksize := by
          intro hmore
          -- a round that is not the last one ends with its block
          have hfull : n = s.blocksize - (pos + out.length) % s.blocksize := by
            unfold readLength at hmore
            omega
          have hdm := Nat.mod_add_div (pos + out.length) s.blocksize
          have hup : (pos + (out.length + n)) / s.blocksize = (pos + out.length) / s.blocksize + 1 := by
            rw [show pos + (out.length + n)
                = s.blocksize * ((pos + out.length) / s.blocksize + 1) by rw [Nat.mul_succ]; omega]
            exact Nat.mul_div_cancel_left _ hbs
          have := hfuel hlt
          omega
        have hrest := ih (out ++ (List.range n).map fun k => s.servedByte inode (pos + out.length + k))
          (by rw [hnext]; exact hle') (by rw [hnext]; exact hfuel')
        rw [hnext, ← Nat.add_assoc] at hrest
        rw [hrest, List.append_assoc, show readLength s.blocksize (iSize inode) pos count - out.length
            = n + (readLength s.blocksize (iSize inode) pos count - (out.length + n)) by omega,
          List.range_add, List.map_append, List.map_map]
        congr 4
        apply List.map_congr_left
        intro k _
        rw [Function.comp_apply, Nat.add_assoc (pos + out.length)]
      · rw [readLoop_stop hbs hend, le_antisymm hend hle, Nat.sub_self]
        simp

/-- A file that reaches 2³¹ bytes behind the position faults on the first round. -/
theorem readLoop_fault {inode : Bytes} {count : ℤ} {pos fuel : ℕ} (hbs : 0 < s.blocksize)
    (hr : readLength s.blocksize (iSize inode) pos count ≠ 0) (hfar : 2 ^ 31 ≤ iSize inode - pos) :
    s.readLoop inode count (fuel + 1) pos [] = none := by
  have hlt : 0 < count ∧ pos < iSize inode ∧ pos < 12 * s.blocksize := by
    unfold readLength at hr
    omega
  have hblock : pos / s.blocksize < 12 := (Nat.div_lt_iff_lt_mul hbs).mpr hlt.2.2
  have hneg := toS32_neg hlt.2.1.le (size_lt inode) hfar
  rw [readLoop, if_pos (by simpa using ⟨hlt.1, hlt.2.1⟩)]
  dsimp only
  rw [if_neg (not_le.mpr hblock), if_pos]
  exact (min_le_right ..).trans_lt hneg

/-! ## The bytes that are served -/

/-- The read of one byte is right. A hole is read from the first block of the device,
and a block behind 4 GiB from its address modulo 2³². -/
def ServedRight (s : Ext2) (inode : Bytes) (p : ℕ) : Prop :=
  let b := iBlock inode (p / s.blocksize)
  let q := p % s.blocksize
  if b = 0 then s.disk q = 0
  else s.disk (b * s.blocksize % word + q) = s.disk (b * s.blocksize + q)

theorem servedRight_iff {inode : Bytes} {p : ℕ} :
    ServedRight s inode p ↔ s.servedByte inode p = s.fileByte inode p := by
  unfold ServedRight servedByte fileByte
  dsimp only
  split_ifs with hb
  · rw [hb, Nat.zero_mul, Nat.zero_mod, Nat.zero_add]
  · rfl

/-- Blocks within 4 GiB are read where they are. -/
theorem servedRight_of_lt {inode : Bytes} {p : ℕ} (hb : iBlock inode (p / s.blocksize) ≠ 0)
    (hlt : iBlock inode (p / s.blocksize) * s.blocksize < word) : ServedRight s inode p := by
  unfold ServedRight
  dsimp only
  rw [if_neg hb, Nat.mod_eq_of_lt hlt]

/-- What a read of a regular file does. -/
theorem fileRead_eq {node : VfsInode} {flags pos : ℕ} {count : ℤ} (hreg : isReg node.mode = true)
    (hflags : flags % 4 ≠ oWronlyFlag) (hbs : 0 < s.blocksize) (hmax : s.blocksize < 2 ^ 31) :
    s.fileRead node flags pos count =
      let r := readLength s.blocksize (iSize node.raw) pos count
      if r ≠ 0 ∧ 2 ^ 31 ≤ iSize node.raw - pos then none
      else some ((r : ℤ), (List.range r).map fun k => s.servedByte node.raw (pos + k), pos + r) := by
  dsimp only
  unfold fileRead
  rw [if_neg hflags, hreg, if_neg (by simp)]
  split_ifs with hfault
  · rw [readLoop_fault hbs hfault.1 hfault.2]
    rfl
  · have hloop : s.readLoop node.raw count 14 pos []
        = some (pos + readLength s.blocksize (iSize node.raw) pos count,
            (List.range (readLength s.blocksize (iSize node.raw) pos count)).map
              fun k => s.servedByte node.raw (pos + k)) := by
      rcases Nat.eq_zero_or_pos (readLength s.blocksize (iSize node.raw) pos count) with h₀ | hpos
      · have hstop : s.readLoop node.raw count 14 (pos + 0) [] = some (pos + 0, []) :=
          readLoop_stop hbs h₀.le
        rw [h₀]
        simpa using hstop
      · have hfar : iSize node.raw - pos < 2 ^ 31 := by
          have := fun h => hfault ⟨hpos.ne', h⟩
          omega
        have hspec := readLoop_spec count hbs hmax hfar 13 [] (Nat.zero_le _) fun _ =>
          Nat.le_add_right ..
        simpa using hspec
    rw [hloop]
    simp

/-- A read returns the bytes of the file exactly when the file ends less than 2³¹ bytes
behind the position, each hole stands over a zero of the first block, and each block is
found at its address. -/
theorem file_read_iff (s : Ext2) (node : VfsInode) (flags pos : ℕ) (count : ℤ)
    (hreg : isReg node.mode = true) (hflags : flags % 4 ≠ oWronlyFlag)
    (hbs : 0 < s.blocksize) (hmax : s.blocksize < 2 ^ 31) :
    (let r := readLength s.blocksize (iSize node.raw) pos count
     s.fileRead node flags pos count
        = some ((r : ℤ), (List.range r).map fun k => s.fileByte node.raw (pos + k), pos + r))
      ↔ (pos < iSize node.raw → pos < 12 * s.blocksize → 0 < count → iSize node.raw - pos < 2 ^ 31)
        ∧ ∀ p, pos ≤ p → p < iSize node.raw → p < 12 * s.blocksize → p - pos < count →
            ServedRight s node.raw p := by
  dsimp only
  rw [fileRead_eq hreg hflags hbs hmax]
  dsimp only
  have hmem : ∀ k, k < readLength s.blocksize (iSize node.raw) pos count ↔ pos + k < iSize node.raw
      ∧ pos + k < 12 * s.blocksize ∧ (k : ℤ) < count := by
    intro k
    unfold readLength
    omega
  constructor
  · intro h
    split_ifs at h with hfault
    have hbytes := (Prod.mk.injEq .. ▸ (Prod.mk.injEq .. ▸ Option.some.inj h).2).1
    refine ⟨fun hsize hend hcount => ?_, fun p hp hsize hend hcount => ?_⟩
    · by_contra hfar
      apply hfault
      refine ⟨?_, by omega⟩
      have := (hmem 0).mpr ⟨hsize, hend, by exact_mod_cast hcount⟩
      omega
    · have hk := (hmem (p - pos)).mpr ⟨by omega, by omega, by omega⟩
      have hbyte := List.map_inj_left.mp hbytes (p - pos) (List.mem_range.mpr hk)
      rw [Nat.add_sub_cancel' hp] at hbyte
      exact servedRight_iff.mpr hbyte
  · rintro ⟨hfar, hserved⟩
    rw [if_neg]
    · congr 3
      apply List.map_congr_left
      intro k hk
      have hin := (hmem k).mp (List.mem_range.mp hk)
      exact servedRight_iff.mp (hserved (pos + k) (by omega) hin.1 hin.2.1 (by omega))
    · rintro ⟨hr, hlarge⟩
      have hin := (hmem 0).mp (Nat.pos_of_ne_zero hr)
      have := hfar hin.1 hin.2.1 (by simpa using hin.2.2)
      omega

/-- A file of three bytes on a device of ones, with no block. -/
def holeFile : VfsInode :=
  { VfsInode.zero with mode := sIfreg, u := .ext2 (put 4 (fun _ => 0) 4 3) }
def onesDisk : Ext2 := { disk := fun _ => 1, es := fun _ => 0, groupDesc := fun _ _ => 0 }

/-- The hole is read as the first bytes of the device. -/
theorem hole_leaks : ¬ ∀ (s : Ext2) (node : VfsInode) (flags pos : ℕ) (count : ℤ),
    isReg node.mode = true → flags % 4 ≠ oWronlyFlag → 0 < s.blocksize → s.blocksize < 2 ^ 31 →
    let r := readLength s.blocksize (iSize node.raw) pos count
    s.fileRead node flags pos count
      = some ((r : ℤ), (List.range r).map fun k => s.fileByte node.raw (pos + k), pos + r) := by
  intro h
  have hread := h onesDisk holeFile 0 0 2 (by decide) (by decide) (by decide) (by decide)
  have hserved : onesDisk.fileRead holeFile 0 0 2 = some (2, [1, 1], 2) := by decide
  rw [hserved] at hread
  revert hread
  decide

/-- Over a device of zeros the hole is read as it should be. -/
theorem file_read_iff_zeros :
    fileRead { onesDisk with disk := fun _ => 0 } holeFile 0 1 5 = some (2, [0, 0], 3) := by
  have hread := (file_read_iff { onesDisk with disk := fun _ => 0 } holeFile 0 1 5 (by decide)
    (by decide) (by decide) (by decide)).mpr
  have hsize : iSize holeFile.raw = 3 := by decide
  rw [hsize] at hread
  rw [hread ⟨by omega, fun p _ _ _ _ => by unfold ServedRight; simp⟩]
  decide

end Ext2
end Ferrite.Fs
