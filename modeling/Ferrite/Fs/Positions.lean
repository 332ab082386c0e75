import Ferrite.Fs.Descriptors
import Ferrite.Fs.ReadDir
import Ferrite.Library.Runs
import Mathlib.Algebra.Order.Group.Int

/-!
# Positions of open files

The calls that read or set `f_pos`: `sys_lseek`, `sys_read`, `sys_write` and `sys_readdir`. Here
transfers may fail. What the device, the allocator of blocks and the clock answer belongs to a
call, by the block of the file, since a call asks for each block once.
-/
namespace Ferrite.Fs
open Packed Word Runs

def seekSet : ℕ := 0
def seekCur : ℕ := 1
def seekEnd : ℕ := 2

/-- What a `long` holds. -/
def long (z : ℤ) : ℤ := z.bmod (2 ^ 32)

/-- The buffers of a block are on the stack of the kernel, which is a page. -/
def kernelStack : ℕ := 4096

/-- An open file with the superblock's `s_log_block_size`. -/
structure OpenFile where
  inode : VfsInode
  op : Option FileOps
  flags : ℕ
  log : ℕ
  pos : ℤ

/-- `newBlock` is the number and the error; `driver` is what a driver or a socket returns, whose
operations leave the position alone. -/
structure Answers where
  device : Bool
  block : ℕ → Except ℤ Bytes
  newBlock : ℕ → ℤ × ℤ
  stores : ℕ → Bool
  writesInode : Bool
  now : ℕ
  driver : ℤ

namespace OpenFile
variable (f : OpenFile) (a : Answers)

def blocksize : ℕ := 1024 * 2 ^ f.log % word

/-! ## `sys_lseek` -/

/-- No file operations of an inode on a file system have an `lseek` of their own. -/
def lseek (offset : ℤ) (whence : ℕ) : ℤ × OpenFile :=
  if whence = seekSet then
    if offset < 0 then (-einval, f) else (offset, { f with pos := offset })
  else if whence = seekCur then
    let pos := long (f.pos + offset)
    if pos < 0 then (-einval, f) else (pos, { f with pos := pos })
  else if whence = seekEnd then
    let pos := long (f.inode.size + offset)
    (pos, { f with pos := pos })
  else (-einval, f)

/-! ## `ext2_file_read` -/

/-- The loop over the blocks: the offset behind it, unless a transfer fails, and the bytes copied.
A division by zero and a negative length of `memcpy` fault. -/
def readBlocks (count : ℤ) : ℕ → ℕ → List Byte → Option (Option ℕ × List Byte)
  | 0, _, _ => none
  | fuel + 1, offset, out =>
      if (out.length : ℤ) < count ∧ offset < iSize f.inode.raw then
        if f.blocksize = 0 then none
        else
          let i := offset / f.blocksize
          if 12 ≤ i then some (some offset, out)
          else
            let offsetInBlock := offset % f.blocksize
            let bytesInThisBlock := toS32 (wsub f.blocksize offsetInBlock)
            let bytesRemaining := toS32 (wsub (iSize f.inode.raw) offset)
            let bytesToCopy := min (min bytesInThisBlock (count - out.length)) bytesRemaining
            match a.block i with
            | .error _ => some (none, out)
            | .ok block =>
                if bytesToCopy < 0 then none
                else
                  let bytes := (List.range bytesToCopy.toNat).map fun k => block (offsetInBlock + k)
                  readBlocks count fuel (offset + bytesToCopy.toNat) (out ++ bytes)
      else some (some offset, out)

/-- The result, the bytes copied and the file. -/
def fileRead (count : ℤ) : Option (ℤ × List Byte × OpenFile) :=
  if f.flags % 4 = oWronlyFlag then some (-ebadf, [], f)
  else if !a.device then some (-1, [], f)
  else if !isReg f.inode.mode then some (-einval, [], f)
  else if kernelStack < f.blocksize then none
  else
    (f.readBlocks a count 14 (ofS32 f.pos) []).map fun
      | (none, out) => (-1, out, f)
      | (some offset, out) => (out.length, out, { f with pos := long offset })

/-! ## `ext2_file_write` -/

/-- `ext2_write_block` for a block of the file, as far as it fails or not. -/
def writeBlock (i : ℕ) : Option Bool :=
  if !a.device then some false
  else if kernelStack < f.blocksize then none
  else some (a.stores i)

/-- The block that is allocated for a hole, in the inode, or the error. -/
def allocate (inode : VfsInode) (i : ℕ) : Except ℤ VfsInode :=
  if iBlock inode.raw i = 0 then
    if (a.newBlock i).2 ≠ 0 then .error (a.newBlock i).2
    else .ok (inode.setRaw (put 4 inode.raw (40 + 4 * i) (ofS32 (a.newBlock i).1)))
  else .ok inode

/-- The bytes of a round: those of the block behind the offset, up to `count`. -/
def roundBytes (count : ℤ) (start i written : ℕ) : ℕ :=
  let blockOffset := if i = start then ofS32 f.pos % f.blocksize else 0
  let bytes := f.blocksize - blockOffset
  if ofS32 count < wadd written bytes then wsub (ofS32 count) written else bytes

/-- The loop from the block `i` on: the number of bytes written, or what it returns with, and the inode. -/
def writeBlocks (count : ℤ) (start stop : ℕ) : ℕ → ℕ → ℕ → VfsInode → Option (Except ℤ ℕ × VfsInode)
  | 0, _, _, _ => none
  | fuel + 1, i, written, inode =>
      if stop < i then some (.ok written, inode)
      else if 12 ≤ i then some (.error (if 0 < written then toS32 written else -efbig), inode)
      else
        match allocate a inode i with
        | .error e => some (.error e, inode)
        | .ok inode =>
            match f.writeBlock a i with
            | none => none
            | some false => some (.error (if 0 < written then toS32 written else -1), inode)
            | some true =>
                writeBlocks count start stop fuel (i + 1)
                  (wadd written (f.roundBytes count start i written)) inode

/-- The times, the size if the file grows, and the number of sectors. -/
def grown (inode : VfsInode) (stop : ℤ) : VfsInode :=
  let inode := { inode with ctime := a.now, mtime := a.now }
  let raw := put 4 (put 4 inode.raw 12 a.now) 16 a.now
  let inode :=
    if toS32 (iSize raw) < stop then { inode.setRaw (put 4 raw 4 (ofS32 stop)) with size := ofS32 stop }
    else inode.setRaw raw
  let allocated := ((List.range 12).filter fun i => iBlock inode.raw i ≠ 0).length
  inode.setRaw (put 4 inode.raw 28 (allocated * f.blocksize % word / 512))

/-- The result and the file. -/
def fileWrite (count : ℤ) : Option (ℤ × OpenFile) :=
  if f.flags % 4 = 0 then some (-ebadf, f)
  else if !isReg f.inode.mode then some (-1, f)
  else if f.blocksize = 0 then none
  else
    let start := ofS32 f.pos / f.blocksize
    let stop := ofS32 (f.pos + count - 1) / f.blocksize
    (f.writeBlocks a count start stop 13 start 0 f.inode).map fun
      | (.error e, inode) => (e, { f with inode := inode })
      | (.ok written, inode) =>
          let f := { f with inode := f.grown a inode (long (f.pos + count)) }
          if !a.writesInode then (-1, f)
          else (toS32 written, { f with pos := long (wadd (ofS32 f.pos) written) })

/-! ## `ext2_readdir` -/

/-- The walk through the blocks; a shift by 32 and more is undefined. -/
def walkBlocks : ℕ → ℤ → Option (Except ℤ (Walk DirEntry) × ℤ)
  | 0, _ => none
  | fuel + 1, pos =>
      if pos < toS32 f.inode.size then
        if 32 ≤ f.log + 10 then none
        else
          let offset := ofS32 pos &&& (f.blocksize - 1)
          let block := ofS32 (pos / 2 ^ (f.log + 10))
          if 12 ≤ block then some (.ok .far, pos)
          else if kernelStack < f.blocksize then none
          else
            match a.block block with
            | .error e => some (.error e, pos)
            | .ok b =>
                match walkBlock b f.blocksize (toS32 f.inode.size) Ext2.inUse (f.blocksize + 1) offset pos with
                | (some result, pos) => some (.ok result, pos)
                | (none, pos) => walkBlocks fuel pos
      else some (.ok .ended, pos)

/-- The result, the entry and the file. -/
def readdir : Option (ℤ × Option Dirent × OpenFile) :=
  if !isDir f.inode.mode then some (-enotdir, none, f)
  else
    (f.walkBlocks a 14 f.pos).map fun (result, pos) =>
      let f := { f with pos := pos }
      match result with
      | .error e => (e, none, f)
      | .ok (.hit e) => (e.name.length, some ⟨toS32 e.inode, pos, e.name.length, e.name⟩, f)
      | .ok .bad => (-eio, none, f)
      | .ok .far => (-enosys, none, f)
      | .ok .ended => (0, none, f)

/-! ## The calls -/

def sysRead (count : ℤ) : Option (ℤ × List Byte × OpenFile) :=
  match f.op with
  | some .ext2File => f.fileRead a count
  | some .ext2Dir => some (-eisdir, [], f)
  | some .driver | some .socket => some (a.driver, [], f)
  | some .chrdev | none => some (-1, [], f)

def sysWrite (count : ℤ) : Option (ℤ × OpenFile) :=
  match f.op with
  | some .ext2File => f.fileWrite a count
  | some .driver | some .socket => some (a.driver, f)
  | some .ext2Dir | some .chrdev | none => some (-1, f)

def sysReaddir : Option (ℤ × Option Dirent × OpenFile) :=
  match f.op with
  | some .ext2Dir => f.readdir a
  | _ => some (-1, none, f)

end OpenFile

/-- The calls with the registers of their arguments, and what others do to the inode between two. -/
inductive Call
  | lseek (offset whence : ℕ)
  | read (count : ℕ) (a : Answers)
  | write (count : ℕ) (a : Answers)
  | readdir (a : Answers)
  | elsewhere (inode : VfsInode)

namespace OpenFile

/-- The result and the file after a call that comes back. -/
def call (f : OpenFile) : Call → Option (ℤ × OpenFile)
  | .lseek offset whence => some (f.lseek (long offset) (whence % word))
  | .read count a => (f.sysRead a (long count)).map fun r => (r.1, r.2.2)
  | .write count a => f.sysWrite a (long count)
  | .readdir a => (f.sysReaddir a).map fun r => (r.1, r.2.2)
  | .elsewhere inode => some (0, { f with inode := inode })

def Step (f : OpenFile) (c : Call) (g : OpenFile) : Prop := ∃ result, f.call c = some (result, g)

/-- A `long` that is not negative. -/
def ValidPos (f : OpenFile) : Prop := 0 ≤ f.pos ∧ f.pos < 2 ^ 31

/-- What `whence` counts from. -/
def base (f : OpenFile) (whence : ℕ) : Option ℤ :=
  if whence = seekSet then some 0
  else if whence = seekCur then some f.pos
  else if whence = seekEnd then some f.inode.size
  else none

/-- A failed seek leaves the position alone; another returns the new one, which is the sum. -/
def SeekExact (f : OpenFile) (offset : ℤ) (whence : ℕ) : Prop :=
  let (result, g) := f.lseek offset whence
  (result < 0 → g.pos = f.pos) ∧
    (0 ≤ result → result = g.pos ∧ ∃ b, f.base whence = some b ∧ g.pos = b + offset)

/-- The end of the file and the offset add up to a position. -/
def EndFits (f : OpenFile) (offset : ℤ) (whence : ℕ) : Prop :=
  whence = seekEnd → 0 ≤ f.inode.size + offset ∧ f.inode.size + offset < 2 ^ 31

def SeekRight (f : OpenFile) : Call → Prop
  | .lseek offset whence => f.SeekExact (long offset) (whence % word)
  | _ => True

def SeekFits (f : OpenFile) : Call → Prop
  | .lseek offset whence => f.EndFits (long offset) (whence % word)
  | _ => True

end OpenFile

variable {f g : OpenFile} {a : Answers} {offset count b p z : ℤ} {whence : ℕ}

/-! ## Seeking -/

theorem long_range (z : ℤ) : -2 ^ 31 ≤ long z ∧ long z < 2 ^ 31 := by
  have hle := Int.le_bmod (x := z) (m := 2 ^ 32) (by decide)
  have hlt := Int.bmod_lt (x := z) (m := 2 ^ 32) (by decide)
  unfold long
  omega

theorem long_of_lt (h : 0 ≤ z) (hz : z < 2 ^ 31) : long z = z := by
  apply Int.bmod_eq_of_le
  · omega
  · omega

/-- A sum of a position and an offset that is no position wraps to a negative number. -/
theorem long_eq_or_neg (h : -2 ^ 31 ≤ z) (hz : z < 2 ^ 32) : long z = z ∨ long z < 0 := by
  unfold long
  rw [Int.bmod_def]
  omega

namespace OpenFile

theorem seek_failed (hf : f.ValidPos) (h : f.lseek offset whence = (-einval, f)) :
    (f.lseek offset whence).2.ValidPos ∧ f.SeekExact offset whence := by
  unfold SeekExact
  rw [h]
  refine ⟨hf, fun _ => rfl, fun hle => ?_⟩
  unfold einval at hle
  omega

theorem seek_moved_iff (hb : f.base whence = some b) (h : f.lseek offset whence = (p, { f with pos := p })) :
    ((f.lseek offset whence).2.ValidPos ∧ f.SeekExact offset whence) ↔ 0 ≤ p ∧ p < 2 ^ 31 ∧ p = b + offset := by
  unfold SeekExact ValidPos
  rw [h, hb]
  constructor
  · rintro ⟨⟨hnonneg, hlt⟩, -, hright⟩
    obtain ⟨-, c, hc, hsum⟩ := hright hnonneg
    cases hc
    exact ⟨hnonneg, hlt, hsum⟩
  · rintro ⟨hnonneg, hlt, hsum⟩
    exact ⟨⟨hnonneg, hlt⟩, fun hneg => absurd hneg (not_lt.mpr hnonneg), fun _ => ⟨rfl, b, rfl, hsum⟩⟩

/-- A seek is right exactly if the sum from the end of the file, when it is one, is a position. -/
theorem lseek_iff (hf : f.ValidPos) (hlow : -2 ^ 31 ≤ offset) (hhigh : offset < 2 ^ 31) :
    ((f.lseek offset whence).2.ValidPos ∧ f.SeekExact offset whence) ↔ f.EndFits offset whence := by
  obtain ⟨hnonneg, hlt⟩ := hf
  by_cases hend : whence = seekEnd
  · subst hend
    rw [seek_moved_iff (b := f.inode.size) rfl rfl]
    unfold EndFits
    constructor
    · rintro ⟨h₀, h₁, hsum⟩ -
      rw [← hsum]
      exact ⟨h₀, h₁⟩
    · intro hfits
      obtain ⟨h₀, h₁⟩ := hfits rfl
      rw [long_of_lt h₀ h₁]
      exact ⟨h₀, h₁, rfl⟩
  · rw [iff_true_right (show f.EndFits offset whence from fun h => absurd h hend)]
    by_cases hset : whence = seekSet
    · subst hset
      by_cases hneg : offset < 0
      · exact seek_failed ⟨hnonneg, hlt⟩ (if_pos hneg)
      · have hmoved : f.lseek offset seekSet = (offset, { f with pos := offset }) := if_neg hneg
        exact (seek_moved_iff rfl hmoved).mpr ⟨not_lt.mp hneg, hhigh, (zero_add offset).symm⟩
    by_cases hcur : whence = seekCur
    · subst hcur
      by_cases hneg : long (f.pos + offset) < 0
      · exact seek_failed ⟨hnonneg, hlt⟩ (if_pos hneg)
      · have hmoved : f.lseek offset seekCur =
            (long (f.pos + offset), { f with pos := long (f.pos + offset) }) :=
          if_neg hneg
        have hsum := (long_eq_or_neg (z := f.pos + offset) (by omega) (by omega)).resolve_right hneg
        exact (seek_moved_iff rfl hmoved).mpr ⟨not_lt.mp hneg, (long_range _).2, hsum⟩
    · apply seek_failed ⟨hnonneg, hlt⟩
      unfold lseek
      rw [if_neg hset, if_neg hcur, if_neg hend]

/-! ## Reading -/

/-- What is left of a block ends with it. -/
theorem block_room {bs offset n : ℕ} (hbs : 0 < bs) (h : offset / bs < n) :
    offset + (bs - offset % bs) ≤ n * bs := by
  have hmod := Nat.mod_lt offset hbs
  have hdiv := Nat.mod_add_div offset bs
  have hle : (offset / bs + 1) * bs ≤ n * bs := Nat.mul_le_mul_right _ h
  rw [Nat.add_mul, Nat.one_mul, Nat.mul_comm] at hle
  omega

theorem least_le_room (n : ℕ) (x y : ℤ) : (min (min (n : ℤ) x) y).toNat ≤ n := by omega

theorem readBlocks_le {m : ℕ} (hbs : f.blocksize ≤ kernelStack) (hm : 12 * f.blocksize ≤ m) :
    ∀ {fuel offset : ℕ} {out out' : List Byte} {o : ℕ}, offset ≤ m →
      f.readBlocks a count fuel offset out = some (some o, out') → o ≤ m := by
  intro fuel
  induction fuel with
  | zero =>
      intro offset out out' o _ h
      cases h
  | succ fuel ih =>
      intro offset out out' o hle h
      rw [readBlocks] at h
      by_cases hmore : (out.length : ℤ) < count ∧ offset < iSize f.inode.raw
      · rw [if_pos hmore] at h
        by_cases hzero : f.blocksize = 0
        · rw [if_pos hzero] at h
          cases h
        rw [if_neg hzero] at h
        dsimp only at h
        by_cases hfar : 12 ≤ offset / f.blocksize
        · rw [if_pos hfar] at h
          cases h
          exact hle
        rw [if_neg hfar] at h
        cases hblock : a.block (offset / f.blocksize) with
        | error e =>
            rw [hblock] at h
            cases h
        | ok block =>
            rw [hblock] at h
            dsimp only at h
            split_ifs at h with hneg
            apply ih ?_ h
            -- a round ends with its block at the latest
            have hmod := Nat.mod_lt offset (Nat.pos_of_ne_zero hzero)
            have hroom := block_room (Nat.pos_of_ne_zero hzero) (not_le.mp hfar)
            have hin : toS32 (wsub f.blocksize (offset % f.blocksize)) =
                (f.blocksize - offset % f.blocksize : ℕ) := by
              unfold kernelStack at hbs
              exact Ext2.toS32_wsub hmod.le (by unfold word; omega) (by omega)
            rw [hin]
            exact (Nat.add_le_add_left (least_le_room ..) offset).trans (hroom.trans hm)
      · rw [if_neg hmore] at h
        cases h
        exact hle

theorem ofS32_pos (hf : f.ValidPos) : ofS32 f.pos = f.pos.toNat := by
  obtain ⟨hnonneg, hlt⟩ := hf
  unfold ofS32 word
  omega

theorem fileRead_valid {result : ℤ} {out : List Byte} (hf : f.ValidPos)
    (h : f.fileRead a count = some (result, out, g)) :
    g.ValidPos := by
  obtain ⟨hnonneg, hlt⟩ := hf
  unfold fileRead at h
  split_ifs at h with hflags hdevice hreg hstack
  · cases h
    exact ⟨hnonneg, hlt⟩
  · cases h
    exact ⟨hnonneg, hlt⟩
  · cases h
    exact ⟨hnonneg, hlt⟩
  · obtain ⟨⟨stop, out'⟩, hloop, heq⟩ := Option.map_eq_some_iff.mp h
    cases stop with
    | none =>
        cases heq
        exact ⟨hnonneg, hlt⟩
    | some o =>
        cases heq
        have hbs := not_lt.mp hstack
        rw [ofS32_pos ⟨hnonneg, hlt⟩] at hloop
        have hle : o ≤ 2 ^ 31 - 1 :=
          readBlocks_le hbs (by unfold kernelStack at hbs; omega) (by omega) hloop
        have hpos : long (o : ℤ) = o := long_of_lt (by omega) (by omega)
        unfold ValidPos
        dsimp only
        rw [hpos]
        omega

/-! ## Writing -/

theorem writeBlock_fits {i : ℕ} (h : f.writeBlock a i = some true) : f.blocksize ≤ kernelStack := by
  unfold writeBlock at h
  split_ifs at h with hdevice hstack
  · cases h
  · exact not_lt.mp hstack

/-- A round writes what is left of its block, and no more than `count` in all. -/
theorem roundBytes_le (start i : ℕ) {written : ℕ} (hw : written ≤ ofS32 count)
    (hlt : written + f.blocksize < word) :
    f.roundBytes count start i written ≤ f.blocksize - (if i = start then ofS32 f.pos % f.blocksize else 0) ∧
      written + f.roundBytes count start i written ≤ ofS32 count := by
  have hcount : ofS32 count < word := by
    unfold ofS32 word
    omega
  unfold roundBytes
  dsimp only
  generalize (if i = start then ofS32 f.pos % f.blocksize else 0) = skip
  rw [wadd_of_lt (by omega)]
  split_ifs with hmore
  · rw [wsub_of_le hw hcount]
    omega
  · omega

/-- The loop ends where the write began, or with a direct block. -/
theorem writeBlocks_le {start stop m : ℕ} (hstart : start = ofS32 f.pos / f.blocksize) (hpos : 0 < f.blocksize)
    (hm : f.blocksize ≤ kernelStack → 12 * f.blocksize ≤ m) :
    ∀ {fuel i written w : ℕ} {inode inode' : VfsInode}, written ≤ ofS32 count → ofS32 f.pos + written ≤ m →
      ((i = start ∧ written = 0) ∨ (start < i ∧ ofS32 f.pos + written ≤ i * f.blocksize)) →
      f.writeBlocks a count start stop fuel i written inode = some (.ok w, inode') → ofS32 f.pos + w ≤ m := by
  intro fuel
  induction fuel with
  | zero =>
      intro i written w inode inode' _ _ _ h
      cases h
  | succ fuel ih =>
      intro i written w inode inode' hw hle hround h
      rw [writeBlocks] at h
      by_cases hstop : stop < i
      · rw [if_pos hstop] at h
        cases h
        exact hle
      rw [if_neg hstop] at h
      by_cases hfar : 12 ≤ i
      · rw [if_pos hfar] at h
        cases h
      rw [if_neg hfar] at h
      cases hnode : allocate a inode i with
      | error e =>
          rw [hnode] at h
          cases h
      | ok node =>
          rw [hnode] at h
          dsimp only at h
          cases hwrite : f.writeBlock a i with
          | none =>
              rw [hwrite] at h
              cases h
          | some stored =>
              rw [hwrite] at h
              cases stored with
              | false => cases h
              | true =>
                  have hbs := writeBlock_fits hwrite
                  have hlast : (i + 1) * f.blocksize ≤ 12 * f.blocksize := Nat.mul_le_mul_right _ (by omega)
                  have hnext : (i + 1) * f.blocksize = i * f.blocksize + f.blocksize := Nat.succ_mul ..
                  have hsmall : written + f.blocksize < word := by
                    unfold kernelStack at hbs
                    unfold word
                    rcases hround with ⟨-, hzero⟩ | ⟨-, hend⟩
                    · omega
                    · omega
                  obtain ⟨hbytes, hcount⟩ := roundBytes_le start i hw hsmall
                  have hend : ofS32 f.pos + (written + f.roundBytes count start i written) ≤
                      (i + 1) * f.blocksize := by
                    rcases hround with ⟨hi, hzero⟩ | ⟨hi, hend⟩
                    · rw [if_pos hi] at hbytes
                      have hroom := block_room hpos (show ofS32 f.pos / f.blocksize < i + 1 by omega)
                      omega
                    · omega
                  have hsum := wadd_of_lt (show written + f.roundBytes count start i written < word by omega)
                  rw [hsum] at h
                  exact ih hcount (hend.trans (hlast.trans (hm hbs))) (.inr ⟨by omega, hend⟩) h

theorem fileWrite_valid {result : ℤ} (hf : f.ValidPos) (h : f.fileWrite a count = some (result, g)) :
    g.ValidPos := by
  have hpos := ofS32_pos hf
  obtain ⟨hnonneg, hlt⟩ := hf
  unfold fileWrite at h
  by_cases hflags : f.flags % 4 = 0
  · rw [if_pos hflags] at h
    cases h
    exact ⟨hnonneg, hlt⟩
  rw [if_neg hflags] at h
  by_cases hreg : (!isReg f.inode.mode) = true
  · rw [if_pos hreg] at h
    cases h
    exact ⟨hnonneg, hlt⟩
  rw [if_neg hreg] at h
  by_cases hzero : f.blocksize = 0
  · rw [if_pos hzero] at h
    cases h
  · rw [if_neg hzero] at h
    obtain ⟨⟨r, inode⟩, hloop, heq⟩ := Option.map_eq_some_iff.mp h
    cases r with
    | error e =>
        cases heq
        exact ⟨hnonneg, hlt⟩
    | ok written =>
        have hle : ofS32 f.pos + written ≤ 2 ^ 31 - 1 := by
          apply writeBlocks_le rfl (Nat.pos_of_ne_zero hzero) ?_ (Nat.zero_le _) (by omega)
            (.inl ⟨rfl, rfl⟩) hloop
          intro hbs
          unfold kernelStack at hbs
          omega
        dsimp only at heq
        split_ifs at heq
        · cases heq
          exact ⟨hnonneg, hlt⟩
        · cases heq
          unfold ValidPos
          dsimp only
          rw [wadd_of_lt (by unfold word; omega), long_of_lt (by omega) (by omega)]
          omega

/-! ## Listing -/

/-- A walk in a block is at most two blocks long. -/
theorem walkBlock_le {α : Type} (b : Bytes) {bs : ℕ} (limit : ℤ) (visit : Bytes → ℕ → Option α) :
    ∀ (fuel : ℕ) {offset : ℕ} (pos : ℤ), offset ≤ 2 * bs →
      pos ≤ (walkBlock b bs limit visit fuel offset pos).2 ∧
        (walkBlock b bs limit visit fuel offset pos).2 + offset ≤ pos + 2 * bs := by
  intro fuel
  induction fuel with
  | zero =>
      intro offset pos hle
      unfold walkBlock
      omega
  | succ fuel ih =>
      intro offset pos hle
      rw [walkBlock]
      dsimp only
      split_ifs with hmore hbad
      · dsimp only
        omega
      · cases visit b offset with
        | some x =>
            dsimp only
            omega
        | none =>
            have hrest := ih (pos + (entryAt b offset).recLen)
                (show offset + (entryAt b offset).recLen ≤ 2 * bs by omega)
            dsimp only
            omega
      · dsimp only
        omega

theorem blocksize_eq (h : ¬32 ≤ f.log + 10) : f.blocksize = 2 ^ (f.log + 10) := by
  have hpow : 2 ^ (f.log + 10) = 1024 * 2 ^ f.log := by rw [Nat.pow_add, Nat.mul_comm]
  have hlt : 2 ^ (f.log + 10) < 2 ^ 32 := Nat.pow_lt_pow_right (by decide) (by omega)
  unfold blocksize word
  rw [← hpow]
  exact Nat.mod_eq_of_lt hlt

/-- A position in a direct block. -/
theorem near_of_block {k : ℕ} {pos : ℤ} (hnonneg : 0 ≤ pos) (hlt : pos < 2 ^ 31)
    (h : ofS32 (pos / 2 ^ k) < 12) :
    pos < 12 * (2 ^ k : ℕ) := by
  have hpow : (0 : ℤ) < 2 ^ k := Int.pow_pos (by decide)
  have hle : pos / 2 ^ k ≤ pos := Int.ediv_le_self _ hnonneg
  have hquot : 0 ≤ pos / 2 ^ k := Int.ediv_nonneg hnonneg hpow.le
  have hdiv : pos / 2 ^ k < 12 := by
    unfold ofS32 word at h
    omega
  have hmul := (Int.ediv_lt_iff_lt_mul hpow).mp hdiv
  push_cast
  exact hmul

theorem walkBlocks_valid : ∀ {fuel : ℕ} {pos p : ℤ} {r : Except ℤ (Walk DirEntry)}, 0 ≤ pos → pos < 2 ^ 31 →
    f.walkBlocks a fuel pos = some (r, p) → 0 ≤ p ∧ p < 2 ^ 31 := by
  intro fuel
  induction fuel with
  | zero =>
      intro pos p r _ _ h
      cases h
  | succ fuel ih =>
      intro pos p r hnonneg hlt h
      rw [walkBlocks] at h
      by_cases hmore : pos < toS32 f.inode.size
      · rw [if_pos hmore] at h
        by_cases hshift : 32 ≤ f.log + 10
        · rw [if_pos hshift] at h
          cases h
        rw [if_neg hshift] at h
        dsimp only at h
        by_cases hfar : 12 ≤ ofS32 (pos / 2 ^ (f.log + 10))
        · rw [if_pos hfar] at h
          cases h
          exact ⟨hnonneg, hlt⟩
        rw [if_neg hfar] at h
        by_cases hstack : kernelStack < f.blocksize
        · rw [if_pos hstack] at h
          cases h
        rw [if_neg hstack] at h
        cases hblock : a.block (ofS32 (pos / 2 ^ (f.log + 10))) with
        | error e =>
            rw [hblock] at h
            cases h
            exact ⟨hnonneg, hlt⟩
        | ok b =>
            rw [hblock] at h
            dsimp only at h
            have hnear := near_of_block hnonneg hlt (not_le.mp hfar)
            rw [← blocksize_eq hshift] at hnear
            have hwalk := walkBlock_le b (toS32 f.inode.size) Ext2.inUse (f.blocksize + 1) pos
              (show ofS32 pos &&& (f.blocksize - 1) ≤ 2 * f.blocksize from Nat.and_le_right.trans (by omega))
            generalize walkBlock b f.blocksize (toS32 f.inode.size) Ext2.inUse (f.blocksize + 1)
              (ofS32 pos &&& (f.blocksize - 1)) pos = w at h hwalk
            obtain ⟨found, next⟩ := w
            have hnext : 0 ≤ next ∧ next < 2 ^ 31 := by
              unfold kernelStack at hstack
              dsimp only at hwalk
              omega
            cases found with
            | some result =>
                cases h
                exact hnext
            | none => exact ih hnext.1 hnext.2 h
      · rw [if_neg hmore] at h
        cases h
        exact ⟨hnonneg, hlt⟩

theorem readdir_valid {result : ℤ} {d : Option Dirent} (hf : f.ValidPos)
    (h : f.readdir a = some (result, d, g)) :
    g.ValidPos := by
  unfold readdir at h
  split_ifs at h with hdir
  · cases h
    exact hf
  · obtain ⟨⟨r, p⟩, hwalk, heq⟩ := Option.map_eq_some_iff.mp h
    have hp := walkBlocks_valid hf.1 hf.2 hwalk
    cases r with
    | error e =>
        cases heq
        exact hp
    | ok w =>
        cases w <;> cases heq <;> exact hp

/-! ## A device that never fails -/

/-- The loop with the blocks of the disk is the one that cannot fail. -/
theorem readBlocks_of_disk {s : Ext2} (hbs : s.blocksize = f.blocksize) (hpos : 0 < f.blocksize)
    (hblock : ∀ i, a.block i = .ok (s.read (s.blockSector (iBlock f.inode.raw i)) s.sectors)) :
    ∀ {fuel offset : ℕ} {out : List Byte}, f.readBlocks a count fuel offset out =
      (s.readLoop f.inode.raw count fuel offset out).map fun r => (some r.1, r.2) := by
  intro fuel
  induction fuel with
  | zero => intros; rfl
  | succ fuel ih =>
      intro offset out
      rw [readBlocks, Ext2.readLoop, hbs, if_neg hpos.ne']
      dsimp only
      rw [hblock]
      dsimp only
      split_ifs with hmore hfar hneg
      · rfl
      · rfl
      · exact ih
      · rfl

theorem fileRead_of_disk {s : Ext2} (hf : f.ValidPos) (hbs : s.blocksize = f.blocksize) (hpos : 0 < f.blocksize)
    (hstack : f.blocksize ≤ kernelStack) (hdevice : a.device = true)
    (hblock : ∀ i, a.block i = .ok (s.read (s.blockSector (iBlock f.inode.raw i)) s.sectors)) :
    f.fileRead a count = (s.fileRead f.inode f.flags (ofS32 f.pos) count).map
      fun r => (r.1, r.2.1, { f with pos := long r.2.2 }) := by
  have hsame : { f with pos := long (ofS32 f.pos) } = f := by
    rw [ofS32_pos hf, Int.toNat_of_nonneg hf.1, long_of_lt hf.1 hf.2]
  unfold fileRead Ext2.fileRead
  rw [readBlocks_of_disk hbs hpos hblock, if_neg (not_lt.mpr hstack),
    if_neg (show ¬((!a.device) = true) by rw [hdevice]; decide)]
  by_cases hflags : f.flags % 4 = oWronlyFlag
  · rw [if_pos hflags, if_pos hflags, Option.map_some, hsame]
  rw [if_neg hflags, if_neg hflags]
  by_cases hreg : (!isReg f.inode.mode) = true
  · rw [if_pos hreg, if_pos hreg, Option.map_some, hsame]
  · rw [if_neg hreg, if_neg hreg, Option.map_map, Option.map_map]
    rfl

theorem readdir_of_disk {s : Ext2} (hlog : s.logBlockSize = f.log) (hsmall : f.log + 10 < 32)
    (hstack : f.blocksize ≤ kernelStack) (hblock : ∀ i, a.block i = .ok (s.readBlock (iBlock f.inode.raw i))) :
    f.readdir a = (s.readdir f.inode f.pos).map fun r => (r.1, r.2.1, { f with pos := r.2.2 }) := by
  have hbs : s.blocksize = f.blocksize := by
    unfold Ext2.blocksize blocksize
    rw [← hlog]
    rfl
  have hwalk : ∀ {fuel : ℕ} {pos : ℤ}, f.walkBlocks a fuel pos =
      (s.walk f.inode.raw (toS32 f.inode.size) Ext2.inUse fuel pos).map fun r => (.ok r.1, r.2) := by
    intro fuel
    induction fuel with
    | zero => intros; rfl
    | succ fuel ih =>
        intro pos
        rw [walkBlocks, Ext2.walk, hbs, hlog, if_neg (show ¬32 ≤ f.log + 10 from not_le.mpr hsmall)]
        dsimp only
        rw [hblock, if_neg (not_lt.mpr hstack)]
        dsimp only
        split_ifs with hmore hfar
        · rfl
        · generalize walkBlock _ _ _ _ _ _ _ = w
          obtain ⟨found, next⟩ := w
          cases found with
          | none => exact ih
          | some result => rfl
        · rfl
  unfold readdir Ext2.readdir
  rw [hwalk]
  split_ifs with hdir
  · rfl
  · rw [Option.map_map, Option.map_map]
    congr 1
    funext r
    obtain ⟨w, p⟩ := r
    cases w <;> rfl

/-! ## Sequences of calls -/

/-- What is not an operation of ext2 leaves the file as it is. -/
theorem sysRead_valid {result : ℤ} {out : List Byte} (hf : f.ValidPos)
    (h : f.sysRead a count = some (result, out, g)) :
    g.ValidPos := by
  unfold sysRead at h
  split at h
  · exact fileRead_valid hf h
  all_goals
    cases h
    exact hf

theorem sysWrite_valid {result : ℤ} (hf : f.ValidPos) (h : f.sysWrite a count = some (result, g)) :
    g.ValidPos := by
  unfold sysWrite at h
  split at h
  · exact fileWrite_valid hf h
  all_goals
    cases h
    exact hf

theorem sysReaddir_valid {result : ℤ} {d : Option Dirent} (hf : f.ValidPos)
    (h : f.sysReaddir a = some (result, d, g)) :
    g.ValidPos := by
  unfold sysReaddir at h
  split at h
  · exact readdir_valid hf h
  · cases h
    exact hf

/-- No call but a seek can make a position invalid. -/
theorem call_valid {result : ℤ} (hf : f.ValidPos) {c : Call} (h : f.call c = some (result, g))
    (hc : ∀ offset whence, c ≠ .lseek offset whence) : g.ValidPos := by
  cases c with
  | lseek offset whence => exact absurd rfl (hc offset whence)
  | read count a =>
      obtain ⟨⟨r, out, t⟩, hread, heq⟩ := Option.map_eq_some_iff.mp h
      cases heq
      exact sysRead_valid hf hread
  | write count a => exact sysWrite_valid hf h
  | readdir a =>
      obtain ⟨⟨r, d, t⟩, hlist, heq⟩ := Option.map_eq_some_iff.mp h
      cases heq
      exact sysReaddir_valid hf hlist
  | elsewhere inode =>
      cases h
      exact hf

/-- A call keeps the position valid and a seek is right exactly if a sum from the end is a position. -/
theorem step_iff {c : Call} (hf : f.ValidPos) (h : f.Step c g) : (g.ValidPos ∧ f.SeekRight c) ↔
    f.SeekFits c := by
  obtain ⟨result, h⟩ := h
  cases c with
  | lseek offset whence =>
      obtain ⟨hlow, hhigh⟩ := long_range offset
      have hseek : f.lseek (long offset) (whence % word) = (result, g) := Option.some.inj h
      have hiff := @lseek_iff f _ (whence % word) hf hlow hhigh
      rw [hseek] at hiff
      exact hiff
  | read count a => exact iff_of_true ⟨call_valid hf h (by simp), trivial⟩ trivial
  | write count a => exact iff_of_true ⟨call_valid hf h (by simp), trivial⟩ trivial
  | readdir a => exact iff_of_true ⟨call_valid hf h (by simp), trivial⟩ trivial
  | elsewhere inode => exact iff_of_true ⟨call_valid hf h (by simp), trivial⟩ trivial

/-- From `sys_open` on, the position is valid throughout and every seek is right exactly if for
every seek from the end the sum of the size and the offset is a position. -/
theorem positions_valid_iff (f g : OpenFile) (calls : List (OpenFile × Call)) (hopen : f.pos = 0)
    (h : Trace Step f calls g) :
    (Throughout ValidPos calls g ∧ ∀ x ∈ calls, x.1.SeekRight x.2) ↔ ∀ x ∈ calls, x.1.SeekFits x.2 := by
  have hf : f.ValidPos := by
    unfold ValidPos
    rw [hopen]
    decide
  exact h.throughout_and_iff (fun _ _ _ hs hstep => step_iff hs hstep) hf

/-- A file of ten bytes. -/
def tenBytes : OpenFile := ⟨{ VfsInode.zero with size := 10, mode := 0o100644 }, some .ext2File, 0, 0, 0⟩

/-- Three bytes before the end. -/
theorem positions_valid_iff_ten : Throughout ValidPos [(tenBytes, Call.lseek (2 ^ 32 - 3) 2)]
    { tenBytes with pos := 7 } := by
  have hstep : tenBytes.Step (.lseek (2 ^ 32 - 3) 2) { tenBytes with pos := 7 } := ⟨7, rfl⟩
  refine ((positions_valid_iff _ _ _ rfl (.single hstep)).mpr ?_).1
  intro x hx
  obtain rfl := List.mem_singleton.mp hx
  change tenBytes.EndFits (long (2 ^ 32 - 3 : ℕ)) (2 % word)
  unfold EndFits
  decide

/-- One byte before the beginning of an empty file. -/
theorem not_positions_valid : ¬ ∀ (f g : OpenFile) (calls : List (OpenFile × Call)), f.pos = 0 →
    Trace Step f calls g → Throughout ValidPos calls g ∧ ∀ x ∈ calls, x.1.SeekRight x.2 := by
  intro hall
  have hstep : Step ⟨VfsInode.zero, some .ext2File, 0, 0, 0⟩
      (.lseek (2 ^ 32 - 1) 2) ⟨VfsInode.zero, some .ext2File, 0, 0, -1⟩ :=
    ⟨-1, rfl⟩
  obtain ⟨⟨-, hvalid, -⟩, -⟩ := hall _ _ _ rfl (.single hstep)
  exact absurd hvalid (by decide)

end OpenFile
end Ferrite.Fs
