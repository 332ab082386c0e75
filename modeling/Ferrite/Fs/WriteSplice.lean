import Ferrite.Fs.CreateTrace
import Ferrite.Fs.FileWrite

/-!
# A write as a splice

Where `ext2_file_write` writes whole blocks from the buffer and comes to no thirteenth one, it
replaces the bytes from the position on and nothing else. Any other write reads behind the
buffer, writes behind the staging buffer, or returns early with the position it had.
-/
namespace Ferrite.Fs
open Packed Word

namespace Ext2
variable (s : Ext2)

/-- The holes that the call comes to are no more than the free blocks. -/
def Room (node : VfsInode) (pos count : ℤ) : Prop :=
  let start := ofS32 pos / s.blocksize
  let stop := ofS32 (pos + count - 1) / s.blocksize
  holes node.raw (min (stop + 1) 12 - start) start ≤ s.freeTotal .blocks

/-- The file after a write that returns a number of bytes: these come from the buffer, and the
others are the old ones. -/
structure Spliced (node : VfsInode) (pos : ℕ) (buff : Bytes) (count : ℕ) (r : FileWrite) : Prop where
  result : r.result ≤ count
  bytes : ∀ k : ℕ, k < r.result → r.fs.fileByte r.node.raw (pos + k) = buff k
  rest : ∀ p : ℕ, p < node.size → ¬ (pos ≤ p ∧ p < pos + r.result) → r.fs.fileByte r.node.raw p
    = s.fileByte node.raw p
  size : (r.node.size : ℤ) = max (node.size : ℤ) (pos + r.result)
  copies : iSize r.node.raw = r.node.size ∧ get 4 r.fs.disk (s.inodeAddr node.ino + 4) = r.node.size
  pos : r.pos = pos + r.result
  buffer : r.buffer ≤ count
  staging : r.staging ≤ s.blocksize

/-- What the call is for. A write of no bytes changes none, whatever it returns. -/
def Splices (node : VfsInode) (flags pos : ℕ) (buff : Bytes) (count now : ℕ) : Prop :=
  ∃ r, s.fileWrite .none node flags pos buff count now = some r ∧
    (0 ≤ r.result → s.Spliced node pos buff count r) ∧
    (count = 0 → ∀ p < node.size, r.fs.fileByte r.node.raw p = s.fileByte node.raw p)

/-- The write is refused, or is one of whole blocks. At the position zero, a write of no bytes
goes through all blocks. -/
def WholeBlocks (node : VfsInode) (flags pos : ℕ) (buff : Bytes) (count : ℕ) : Prop :=
  flags % 4 = 0 ∨ 12 * s.blocksize ≤ pos ∨
    (s.blocksize ∣ pos ∧ s.blocksize ∣ count ∧ pos + count ≤ 12 * s.blocksize ∧
      (count = 0 → pos = 0 → ∀ p < node.size, s.fileByte node.raw p = buff (p % s.blocksize)))

/-- What a round does. -/
structure Round (w w' : Writing) (node : VfsInode) (buff : Bytes) (count skip i : ℕ) : Prop where
  block : HasBlock w.fs w'.fs (node.setRaw w.inode) w'.inode i
  here : ∀ p, p / w.fs.blocksize = i → skip ≤ p % w.fs.blocksize →
    w'.fs.fileByte w'.inode p = buff (w.written + (p % w.fs.blocksize - skip))
  written : w'.written = min count (w.written + (w.fs.blocksize - skip))
  buffer : w'.buffer = max w.buffer (w.written + w.fs.blocksize)
  staging : w'.staging = max w.staging (skip + w.fs.blocksize)

/-- What the rounds of the blocks from `i` to `n` do, each on a whole block. -/
structure Rounds (w w' : Writing) (node : VfsInode) (buff : Bytes) (count i n : ℕ) : Prop where
  file : FileOnDisk w'.fs (node.setRaw w'.inode)
  layout : SameLayout w.fs w'.fs
  bytes : ∀ p, p / w.fs.blocksize < 12 → w'.fs.fileByte w'.inode p =
    if i ≤ p / w.fs.blocksize ∧ p / w.fs.blocksize < n then
      buff (min count (w.written + (p / w.fs.blocksize - i) * w.fs.blocksize) + p % w.fs.blocksize)
    else w.fs.fileByte w.inode p
  written : w'.written = min count (w.written + (n - i) * w.fs.blocksize)
  buffer : w'.buffer =
    if i < n then max w.buffer
      (min count (w.written + (n - 1 - i) * w.fs.blocksize) + w.fs.blocksize) else w.buffer
  staging : w'.staging = if i < n then max w.staging w.fs.blocksize else w.staging

variable {s} {t : Ext2} {node : VfsInode} {inode buff : Bytes} {w w' : Writing}
variable {fuel count offset start stop skip i n p now : ℕ}

/-! ## Rounds -/

theorem ofS32_natCast (h : n < word) : ofS32 n = n := by
  unfold ofS32
  rw [Int.emod_eq_of_lt (by omega) (by exact_mod_cast h), Int.toNat_natCast]

/-- What is written after a round. -/
theorem written_round (hw : w.written ≤ count) (hcount : count < 2 ^ 31) (hbs : t.blocksize ≤ 2 ^ 16) :
    wadd w.written (t.bytesToWrite count skip w.written) = min count (w.written + (t.blocksize - skip)) := by
  have hword : word = 2 ^ 32 := rfl
  unfold bytesToWrite
  dsimp only
  rw [ofS32_natCast (by omega), wadd_of_lt (show w.written + (t.blocksize - skip) < word by omega)]
  split_ifs with hmore
  · rw [wsub_of_le hw (by omega), wadd_of_lt (by omega)]
    omega
  · rw [wadd_of_lt (by omega)]
    omega

theorem writeLoop_round (buff : Bytes) (offset start stop fuel : ℕ)
    (hf : FileOnDisk w.fs (node.setRaw w.inode)) (hi : i < 12) (hstop : i ≤ stop)
    (hfree : iBlock w.inode i = 0 → w.fs.freeTotal .blocks ≠ 0) (hw : w.written ≤ count)
    (hcount : count < 2 ^ 31) : ∃ w', writeLoop .none buff count offset start stop (fuel + 1) i w =
        writeLoop .none buff count offset start stop fuel (i + 1) w' ∧
      Round w w' node buff count (if i = start then offset % w.fs.blocksize else 0) i := by
  obtain ⟨inode, t, hblock, hhas⟩ := hf.fileBlock hi hfree
  have hbs : t.blocksize = w.fs.blocksize := hhas.layout.blocksize
  rw [writeLoop, if_neg (by omega), if_neg (by omega)]
  rw [raw_setRaw] at hblock
  rw [show WriteFaults.none.allocation i = none from rfl, hblock]
  dsimp only
  rw [if_neg (show ¬ WriteFaults.none.load i = true from Bool.false_ne_true),
    if_neg (show ¬ WriteFaults.none.store i = true from Bool.false_ne_true), hbs,
    written_round hw hcount (hbs ▸ hf.blocksize)]
  refine ⟨_, rfl, ⟨hhas.write hi, ?_, by rw [hbs], rfl, rfl⟩⟩
  intro p hp hskip
  exact hhas.writeBlock_here hi hp hskip

/-! ## The loop -/

theorem holes_congr {inode' : Bytes} (h : ∀ j, i ≤ j → iBlock inode' j = iBlock inode j) :
    holes inode' n i = holes inode n i := by
  induction n generalizing i with
  | zero => rfl
  | succ n ih =>
      rw [holes, holes, h i (le_refl i), ih fun j hj => h j (by omega)]

/-- No block is left. -/
theorem Rounds.refl (hf : FileOnDisk w.fs (node.setRaw w.inode)) (hw : w.written ≤ count) (hn : n ≤ i) :
    Rounds w w node buff count i n := by
  have hnone : ¬ i < n := by omega
  refine ⟨hf, .refl _, ?_, ?_, by rw [if_neg hnone], by rw [if_neg hnone]⟩
  · intro p _
    rw [if_neg (by omega)]
  · rw [Nat.sub_eq_zero_of_le hn]
    omega

/-- A round on a whole block, and the rounds behind it. -/
theorem Rounds.cons {w₁ : Writing} (hw : w.written ≤ count) (hi : i < n)
    (hround : Round w w₁ node buff count 0 i)
    (hrest : Rounds w₁ w' node buff count (i + 1) n) : Rounds w w' node buff count i n := by
  have hbs : w₁.fs.blocksize = w.fs.blocksize := hround.block.layout.blocksize
  obtain ⟨k, rfl⟩ : ∃ k, n = i + 1 + k := ⟨n - (i + 1), by omega⟩
  have hwritten := hround.written
  have hbuffer := hround.buffer
  have hstaging := hround.staging
  rw [Nat.sub_zero] at hwritten
  rw [Nat.zero_add] at hstaging
  refine ⟨hrest.file, hround.block.layout.trans hrest.layout, ?_, ?_, ?_, ?_⟩
  · intro p hp
    rw [hrest.bytes p (by rw [hbs]; exact hp), hbs]
    by_cases hpi : p / w.fs.blocksize = i
    · rw [if_neg (by omega), hround.here p hpi (Nat.zero_le _), if_pos (by omega), hpi, Nat.sub_self,
        Nat.zero_mul, Nat.add_zero, Nat.sub_zero, min_eq_right hw]
    · rw [hround.block.others p hp hpi]
      by_cases hin : i + 1 ≤ p / w.fs.blocksize ∧ p / w.fs.blocksize < i + 1 + k
      · have hsucc : p / w.fs.blocksize - i = p / w.fs.blocksize - (i + 1) + 1 := by omega
        rw [if_pos hin, if_pos (by omega), hsucc, Nat.succ_mul, hwritten]
        refine congrArg buff ?_
        omega
      · rw [if_neg hin, if_neg (by omega)]
        rfl
  · rw [hrest.written, hbs, hwritten, Nat.add_sub_cancel_left,
      show i + 1 + k - i = k + 1 by omega, Nat.succ_mul]
    omega
  · rw [hrest.buffer, hbs, hwritten, hbuffer, if_pos hi]
    cases k with
    | zero =>
        rw [if_neg (by omega), show i + 1 + 0 - 1 - i = 0 by omega, Nat.zero_mul]
        omega
    | succ k =>
        rw [if_pos (by omega), show i + 1 + (k + 1) - 1 - (i + 1) = k by omega,
          show i + 1 + (k + 1) - 1 - i = k + 1 by omega, Nat.succ_mul]
        omega
  · rw [hrest.staging, hbs, hstaging, if_pos hi]
    split_ifs
    · omega
    · rfl

/-- From a block on that is written from its beginning. -/
theorem writeLoop_rounds (buff : Bytes) (offset start stop : ℕ) (hcount : count < 2 ^ 31) :
    ∀ {fuel i : ℕ} {w : Writing},
    FileOnDisk w.fs (node.setRaw w.inode) → w.written ≤ count → start ≤ i → i ≤ 12 → 13 ≤ fuel + i →
    (i = start → offset % w.fs.blocksize = 0) →
    holes w.inode (min (stop + 1) 12 - i) i ≤ w.fs.freeTotal .blocks →
    ∃ w', writeLoop .none buff count offset start stop fuel i w =
        some (if 12 ≤ stop then some (if 0 < w'.written then toS32 w'.written else -efbig) else none, w') ∧
      Rounds w w' node buff count i (min (stop + 1) 12) := by
  intro fuel
  induction fuel with
  | zero =>
      intro i w _ _ _ hi hfuel
      omega
  | succ fuel ih =>
      intro i w hf hw hstart hi hfuel hskip hroom
      by_cases hstop : stop < i
      · refine ⟨w, ?_, .refl hf hw (by omega)⟩
        rw [writeLoop, if_pos hstop, if_neg (by omega)]
      by_cases hfar : 12 ≤ i
      · refine ⟨w, ?_, .refl hf hw (by omega)⟩
        rw [writeLoop, if_neg hstop, if_pos hfar, if_pos (show 12 ≤ stop by omega)]
      · obtain ⟨k, hk⟩ : ∃ k, min (stop + 1) 12 - i = k + 1 := ⟨min (stop + 1) 12 - (i + 1), by omega⟩
        rw [hk, holes] at hroom
        have hfree : iBlock w.inode i = 0 → w.fs.freeTotal .blocks ≠ 0 := by
          intro hhole
          rw [if_pos hhole] at hroom
          omega
        obtain ⟨w₁, heq, hround⟩ := writeLoop_round buff offset start stop fuel hf (by omega)
            (by omega) hfree hw hcount
        have hzero : (if i = start then offset % w.fs.blocksize else 0) = 0 := by
          split_ifs with h
          · exact hskip h
          · rfl
        rw [hzero] at hround
        have htotal := hround.block.total
        rw [raw_setRaw] at htotal
        have hroom₁ : holes w₁.inode (min (stop + 1) 12 - (i + 1)) (i + 1) ≤ w₁.fs.freeTotal .blocks := by
          rw [holes_congr fun j hj => hround.block.blocks j (by omega), raw_setRaw,
            show min (stop + 1) 12 - (i + 1) = k by omega]
          omega
        obtain ⟨w', hloop, hrest⟩ := ih hround.block.file (hround.written ▸ min_le_left ..)
            (by omega) (by omega)
          (by omega) (by omega) hroom₁
        exact ⟨w', heq.trans hloop, .cons hw (by omega) hround hrest⟩

/-! ## The inode -/

theorem writeInode_field (node : VfsInode) {v o : ℕ}
    (hrecord : 128 ≤ s.inodeSize ∧ s.inodeAddr node.ino % sectorSize + 128 ≤ sectorSize)
    (ho : o + v ≤ 128) :
    get v (s.writeInode node).2.disk (s.inodeAddr node.ino + o) = get v (stamp node) o := by
  apply get_shift
  intro i hi
  have hdm := Nat.div_add_mod' (s.inodeAddr node.ino) sectorSize
  unfold writeInode
  dsimp only
  generalize s.inodeAddr node.ino = addr at *
  have hsplit : addr + o + i = addr / sectorSize * sectorSize + (addr % sectorSize + (o + i)) := by omega
  rw [hsplit, write_disk_of_lt (by omega), copy_add (by omega), Nat.zero_add]

/-- The inode that is written back has the greater size and the same blocks. -/
theorem grownNode_spec (hsize : iSize inode = node.size) (hlt : node.size < 2 ^ 31)
    (hn : n < 2 ^ 31) (now : ℕ) :
    let node' := t.grownNode node inode n now
    node'.mode = node.mode ∧ node'.ino = node.ino ∧ node'.size = max node.size n ∧
      ∀ i < 12, iBlock node'.raw i = iBlock inode i := by
  have hraw : toS32 (iSize (put 4 (put 4 inode 12 now) 16 now)) = node.size := by
    unfold iSize at hsize ⊢
    rw [get_put_of_disjoint (by omega), get_put_of_disjoint (by omega), hsize, toS32, if_pos hlt]
  have hblock (i : ℕ) (raw : Bytes) (v : ℕ) (hfield : ∀ j, 40 ≤ j → get 4 raw j = get 4 inode j) :
      iBlock (put 4 raw 28 v) i = iBlock inode i := by
    unfold iBlock
    rw [get_put_of_disjoint (by omega), hfield _ (by omega)]
  unfold grownNode
  dsimp only
  by_cases hgrow : toS32 (iSize (put 4 (put 4 inode 12 now) 16 now)) < n
  · rw [if_pos hgrow, if_pos hgrow]
    refine ⟨rfl, rfl, ?_, fun i _ => hblock i _ _ fun j hj => ?_⟩
    · have hword : word = 2 ^ 32 := rfl
      change ofS32 n = max node.size n
      rw [ofS32_natCast (by omega)]
      omega
    · iterate 3 rw [get_put_of_disjoint (by omega)]
  · rw [if_neg hgrow, if_neg hgrow]
    refine ⟨rfl, rfl, ?_, fun i _ => hblock i _ _ fun j hj => ?_⟩
    · change node.size = max node.size n
      omega
    · iterate 2 rw [get_put_of_disjoint (by omega)]

/-- The file with the inode written back. -/
theorem stored_spec (hf : FileOnDisk t (node.setRaw inode)) (hlt : node.size < 2 ^ 31)
    (hn : n < 2 ^ 31) (now : ℕ) :
    let r := t.writeInode (t.grownNode node inode n now)
    r.1.size = max node.size n ∧ iSize r.1.raw = r.1.size ∧
      get 4 r.2.disk (t.inodeAddr node.ino + 4) = r.1.size ∧
      ∀ p, p / t.blocksize < 12 → r.2.fileByte r.1.raw p = t.fileByte inode p := by
  have hcopy : iSize inode = node.size := hf.size.1
  obtain ⟨hmode, hino, hsize, hblocks⟩ := grownNode_spec (t := t) hcopy hlt hn now
  generalize t.grownNode node inode n now = node' at *
  have hreg : isReg node'.mode = true := by
    rw [hmode]
    exact hf.regular
  have hstamp : iSize (stamp node') = node'.size := by
    rw [iSize_stamp, Nat.mod_eq_of_lt (by omega)]
  refine ⟨hsize, hstamp, ?_, ?_⟩
  · have hfield := writeInode_field (s := t) (v := 4) (o := 4) node' (by rw [hino]; exact hf.record) (by omega)
    rw [hino] at hfield
    exact hfield.trans hstamp
  · intro p hp
    have hptr : iBlock (stamp node') (p / t.blocksize) = iBlock inode (p / t.blocksize) := by
      rw [← hblocks _ hp]
      exact get_stamp (not_device hreg) (by omega)
    refine fileByte_congr writeInode_layout.blocksize hptr fun hused => ?_
    apply writeInode_disk
    rw [hino]
    exact (hf.sector_data hp hused).2

/-! ## The call -/

/-- The state before the first round. -/
def unwritten (s : Ext2) (inode : Bytes) : Writing := ⟨s, inode, 0, 0, 0⟩

/-- The last block of a write. -/
def lastBlock (s : Ext2) (pos count : ℕ) : ℕ := ofS32 ((pos : ℤ) + count - 1) / s.blocksize

/-- What the call makes of the end of its loop. -/
def finish (node : VfsInode) (pos count now : ℕ) : Option ℤ × Writing → FileWrite
  | (some result, w) => ⟨result, node.setRaw w.inode, pos, w.fs, w.buffer, w.staging⟩
  | (none, w) =>
      let r := w.fs.writeInode (w.fs.grownNode node w.inode (long ((pos : ℤ) + count)) now)
      ⟨toS32 w.written, r.1, long (wadd pos w.written), r.2, w.buffer, w.staging⟩

section Call
variable {flags pos : ℕ} {r : FileWrite}

theorem fileWrite_open (buff : Bytes) (count now : ℕ) (hflags : flags % 4 ≠ 0) (hf : FileOnDisk s node)
    (hpos : pos < 2 ^ 31) :
    s.fileWrite .none node flags pos buff count now =
      (writeLoop .none buff count pos (pos / s.blocksize) (s.lastBlock pos count) 13 (pos / s.blocksize)
        (s.unwritten node.raw)).map (finish node pos count now) := by
  have hword : word = 2 ^ 32 := rfl
  unfold fileWrite
  rw [if_neg hflags, hf.regular, if_neg (by simp), if_neg hf.blocksize_pos.ne', ofS32_natCast (by omega)]
  rfl

theorem splices_iff (h : s.fileWrite .none node flags pos buff count now = some r) :
    s.Splices node flags pos buff count now ↔ (0 ≤ r.result → s.Spliced node pos buff count r) ∧
      (count = 0 → ∀ p < node.size, r.fs.fileByte r.node.raw p = s.fileByte node.raw p) := by
  unfold Splices
  rw [h]
  simp

/-- Without a byte to write nothing changes. -/
theorem Spliced.unchanged (h : s.Spliced node pos buff count r) (hzero : count = 0) (hp : p < node.size) :
    r.fs.fileByte r.node.raw p = s.fileByte node.raw p := by
  have hresult := h.result
  exact h.rest p hp (by omega)

theorem Spliced.splices (h : s.Spliced node pos buff count r)
    (hcall : s.fileWrite .none node flags pos buff count now = some r) :
    s.Splices node flags pos buff count now :=
  (splices_iff hcall).mpr ⟨fun _ => h, fun hzero _ hp => h.unchanged hzero hp⟩

/-- The blocks of a write are those of its bytes; before the first byte there is no block. -/
theorem lastBlock_eq (hpos : pos < 2 ^ 31) (hcount : count < 2 ^ 31) (h : pos + count ≠ 0) :
    s.lastBlock pos count = (pos + count - 1) / s.blocksize := by
  have hword : word = 2 ^ 32 := rfl
  have hcast : (pos : ℤ) + count - 1 = ((pos + count - 1 : ℕ) : ℤ) := by omega
  unfold lastBlock
  rw [hcast, ofS32_natCast (by omega)]

theorem lastBlock_zero (hpos : 0 < s.blocksize) (hbs : s.blocksize ≤ 2 ^ 16) : 12 ≤ s.lastBlock 0 0 := by
  have hvalue : ofS32 (((0 : ℕ) : ℤ) + (0 : ℕ) - 1) = 2 ^ 32 - 1 := by decide
  unfold lastBlock
  rw [hvalue, Nat.le_div_iff_mul_le hpos]
  omega

/-- An early return with bytes written has the old position. -/
theorem not_spliced_early (hresult : 0 < r.result) (hpos : r.pos = pos) :
    ¬ s.Spliced node pos buff count r := by
  intro h
  have hmoved := h.pos
  omega

/-- A loop that has come to its end, with the bytes in their places. -/
theorem spliced_finish (hf : FileOnDisk s node) (hfile : FileOnDisk w.fs (node.setRaw w.inode))
    (hl : SameLayout s w.fs) (hwritten : w.written = count) (hsum : pos + count < 2 ^ 31)
    (hend : ∀ k < count, (pos + k) / s.blocksize < 12)
    (hnew : ∀ k < count, w.fs.fileByte w.inode (pos + k) = buff k)
    (hold : ∀ p < node.size, ¬ (pos ≤ p ∧ p < pos + count) → w.fs.fileByte w.inode p = s.fileByte node.raw p)
    (hbuffer : w.buffer ≤ count) (hstaging : w.staging ≤ s.blocksize) (now : ℕ) :
    s.Spliced node pos buff count (finish node pos count now (none, w)) := by
  have hword : word = 2 ^ 32 := rfl
  have hsize : node.size < 2 ^ 31 := by
    have := hf.size.2
    have := hf.blocksize
    omega
  have hin (p : ℕ) (hp : p < node.size) : p / s.blocksize < 12 := by
    have := hf.size.2
    exact (Nat.div_lt_iff_lt_mul hf.blocksize_pos).mpr (by omega)
  have hlong : long ((pos : ℤ) + count) = ((pos + count : ℕ) : ℤ) := by
    rw [long_of_lt (by omega) (by omega)]
    push_cast
    rfl
  obtain ⟨hsz, hcopy, hdisk, hbytes⟩ := stored_spec hfile hsize hsum now
  have hresult : toS32 w.written = count := by
    rw [hwritten, toS32, if_pos (by omega)]
  rw [hl.blocksize] at hbytes
  rw [hl.inodeAddr] at hdisk
  unfold finish
  rw [hlong]
  refine ⟨?_, ?_, ?_, ?_, ⟨hcopy, hdisk⟩, ?_, hbuffer, hstaging⟩
  · exact hresult.le
  · intro k hk
    dsimp only at hk ⊢
    have hk' : k < count := by omega
    rw [hbytes _ (hend k hk')]
    exact hnew k hk'
  · intro p hp hout
    dsimp only at hout ⊢
    rw [hbytes _ (hin p hp)]
    exact hold p hp (by omega)
  · dsimp only
    rw [hsz, hresult]
    push_cast
    rfl
  · dsimp only
    rw [hresult, wadd_of_lt (by omega), hwritten, long_of_lt (by omega) (by omega)]
    push_cast
    rfl

/-- A write behind the direct blocks does nothing. -/
theorem splices_far (hflags : flags % 4 ≠ 0) (hf : FileOnDisk s node) (hpos : pos < 2 ^ 31)
    (hcount : count < 2 ^ 31)
    (hfar : 12 * s.blocksize ≤ pos) : s.Splices node flags pos buff count now := by
  have hbs := hf.blocksize_pos
  have hstart : 12 ≤ pos / s.blocksize := (Nat.le_div_iff_mul_le hbs).mpr hfar
  have hlast := lastBlock_eq (s := s) hpos hcount (by omega)
  have hcall := fileWrite_open buff count now hflags hf hpos
  rw [writeLoop] at hcall
  by_cases hstop : s.lastBlock pos count < pos / s.blocksize
  · have hzero : count = 0 := by
      by_contra hne
      have hle := Nat.div_le_div_right (c := s.blocksize) (show pos ≤ pos + count - 1 by omega)
      omega
    rw [if_pos hstop] at hcall
    exact (spliced_finish hf hf.congr (.refl s) hzero.symm (by omega) (by omega) (by omega) (fun _ _ _ => rfl)
      (Nat.zero_le _) (Nat.zero_le _) now).splices hcall
  · rw [if_neg hstop, if_pos hstart,
      if_neg (show ¬ 0 < (s.unwritten node.raw).written from Nat.lt_irrefl 0)] at hcall
    refine (splices_iff hcall).mpr ⟨fun h => ?_, fun _ _ _ => rfl⟩
    exact absurd (show (0 : ℤ) ≤ -efbig from h) (by decide)

/-- What the loop returns when it ends with the block `last`. -/
def exit (last written : ℕ) : Option ℤ :=
  if 12 ≤ last then some (if 0 < written then toS32 written else -efbig) else none

/-- The first round, on the rest of its block, and the rounds behind it. -/
theorem fileWrite_rounds (hflags : flags % 4 ≠ 0) (hf : FileOnDisk s node) (hpos : pos < 2 ^ 31)
    (hcount : count < 2 ^ 31) (hroom : s.Room node pos count) (hnear : pos < 12 * s.blocksize)
    (hle : pos / s.blocksize ≤ s.lastBlock pos count) (buff : Bytes) (now : ℕ) :
    ∃ w₁ w', Round (s.unwritten node.raw) w₁ node buff count (pos % s.blocksize) (pos / s.blocksize) ∧
      Rounds w₁ w' node buff count (pos / s.blocksize + 1) (min (s.lastBlock pos count + 1) 12) ∧
      s.fileWrite .none node flags pos buff count now =
        some (finish node pos count now (exit (s.lastBlock pos count) w'.written, w')) := by
  have hword : word = 2 ^ 32 := rfl
  have hstart : pos / s.blocksize < 12 := (Nat.div_lt_iff_lt_mul hf.blocksize_pos).mpr hnear
  unfold Room at hroom
  rw [ofS32_natCast (by omega)] at hroom
  change holes node.raw (min (s.lastBlock pos count + 1) 12 - pos / s.blocksize)
    (pos / s.blocksize) ≤ _ at hroom
  rw [fileWrite_open buff count now hflags hf hpos]
  generalize s.lastBlock pos count = last at *
  generalize hi : pos / s.blocksize = start at *
  obtain ⟨k, hk⟩ : ∃ k, min (last + 1) 12 - start = k + 1 := ⟨min (last + 1) 12 - (start + 1), by omega⟩
  rw [hk, holes] at hroom
  have hfree : iBlock node.raw start = 0 → s.freeTotal .blocks ≠ 0 := by
    intro hhole
    rw [if_pos hhole] at hroom
    omega
  obtain ⟨w₁, heq, hround⟩ :=
      writeLoop_round (w := s.unwritten node.raw) buff pos start last 12 hf.congr hstart hle
    hfree (Nat.zero_le count) hcount
  rw [if_pos rfl] at hround
  have htotal := hround.block.total
  rw [raw_setRaw] at htotal
  have hroom₁ : holes w₁.inode (min (last + 1) 12 - (start + 1)) (start + 1) ≤ w₁.fs.freeTotal .blocks := by
    rw [holes_congr fun j hj => hround.block.blocks j (by omega), raw_setRaw,
      show min (last + 1) 12 - (start + 1) = k by omega]
    change w₁.fs.freeTotal .blocks + (if iBlock node.raw start = 0 then 1 else 0)
      = s.freeTotal .blocks at htotal
    change holes node.raw k (start + 1) ≤ _
    omega
  have hfile : FileOnDisk w₁.fs (node.setRaw w₁.inode) := hround.block.file
  obtain ⟨w', hloop, hrest⟩ := writeLoop_rounds buff pos start last hcount hfile
      (hround.written ▸ min_le_left ..)
    (show start ≤ start + 1 by omega) (by omega) (show 13 ≤ 12 + (start + 1) by omega) (by omega) hroom₁
  exact ⟨w₁, w', hround, hrest, by rw [heq, hloop]; rfl⟩

/-- An offset in the first block. -/
theorem not_splices_skewed (hflags : flags % 4 ≠ 0) (hf : FileOnDisk s node) (hpos : pos < 2 ^ 31)
    (hcount : count < 2 ^ 31) (hroom : s.Room node pos count) (hnear : pos < 12 * s.blocksize)
    (hskew : ¬ s.blocksize ∣ pos) : ¬ s.Splices node flags pos buff count now := by
  have hbs := hf.blocksize_pos
  have hskip : pos % s.blocksize ≠ 0 := fun h => hskew (Nat.dvd_of_mod_eq_zero h)
  have hmod := Nat.mod_lt pos hbs
  have hdm := Nat.div_add_mod' pos s.blocksize
  have hlast := lastBlock_eq (s := s) hpos hcount (by omega)
  have hle : pos / s.blocksize ≤ s.lastBlock pos count := by
    rw [hlast, Nat.le_div_iff_mul_le hbs]
    omega
  obtain ⟨w₁, w', hround, hrest, hcall⟩ := fileWrite_rounds hflags hf hpos hcount hroom hnear hle buff now
  have hstaging := hround.staging
  have hwritten := hround.written
  have hstaging' := hrest.staging
  have hwritten' := hrest.written
  change w₁.staging = max 0 (pos % s.blocksize + s.blocksize) at hstaging
  change w₁.written = min count (0 + (s.blocksize - pos % s.blocksize)) at hwritten
  have hover : s.blocksize < w'.staging := by
    rw [hstaging']
    split_ifs <;> omega
  have hsigned : toS32 w'.written = w'.written := by
    rw [toS32, if_pos (by omega)]
  intro h
  obtain ⟨hspliced, -⟩ := (splices_iff hcall).mp h
  unfold exit at hspliced
  by_cases hfar : 12 ≤ s.lastBlock pos count
  · -- the loop has come to the thirteenth block with bytes written
    have hsome : 0 < w'.written := by
      have hend : 12 * s.blocksize ≤ pos + count - 1 := by
        rw [hlast, Nat.le_div_iff_mul_le hbs] at hfar
        exact hfar
      omega
    rw [if_pos hfar, if_pos hsome] at hspliced
    exact not_spliced_early (by change (0 : ℤ) < toS32 w'.written; omega) rfl (hspliced (by
      change (0 : ℤ) ≤ toS32 w'.written; omega))
  · rw [if_neg hfar] at hspliced
    have hstaged := (hspliced (by change (0 : ℤ) ≤ toS32 w'.written; omega)).staging
    change w'.staging ≤ _ at hstaged
    omega

/-- At the position zero, a write of no bytes puts the buffer into every block. -/
theorem splices_nothing_iff (hflags : flags % 4 ≠ 0) (hf : FileOnDisk s node) (hroom : s.Room node 0 0) :
    s.Splices node flags 0 buff 0 now ↔ ∀ p < node.size, s.fileByte node.raw p = buff (p % s.blocksize) := by
  have hbs := hf.blocksize_pos
  have hfar := lastBlock_zero hbs hf.blocksize
  obtain ⟨w₁, w', hround, hrest, hcall⟩ := fileWrite_rounds hflags hf (show 0 < 2 ^ 31 by omega)
    (show 0 < 2 ^ 31 by omega) hroom (by omega) (by rw [Nat.zero_div]; omega) buff now
  rw [Nat.zero_mod, Nat.zero_div] at hround
  rw [Nat.zero_div] at hrest
  have hall := Rounds.cons (w := s.unwritten node.raw) (Nat.zero_le 0) (by omega) hround hrest
  have hwritten : w'.written = 0 := by
    have := hall.written
    omega
  unfold exit at hcall
  rw [if_pos hfar, if_neg (by omega)] at hcall
  rw [splices_iff hcall]
  have hbyte (p : ℕ) (hp : p < node.size) : w'.fs.fileByte w'.inode p = buff (p % s.blocksize) := by
    have hin : p / s.blocksize < 12 := by
      have := hf.size.2
      exact (Nat.div_lt_iff_lt_mul hbs).mpr (by omega)
    refine (hall.bytes p hin).trans ?_
    rw [if_pos ⟨Nat.zero_le _, by change p / s.blocksize < _; omega⟩, Nat.zero_min, Nat.zero_add]
    rfl
  constructor
  · rintro ⟨-, hsame⟩ p hp
    rw [← hbyte p hp]
    exact (hsame rfl p hp).symm
  · intro hsame
    refine ⟨fun h => absurd (show (0 : ℤ) ≤ -efbig from h) (by decide), fun _ p hp => ?_⟩
    exact (hbyte p hp).trans (hsame p hp).symm

/-- From the beginning of a block on. -/
theorem splices_aligned_iff (hflags : flags % 4 ≠ 0) (hf : FileOnDisk s node) (hpos : pos < 2 ^ 31)
    (hcount : count < 2 ^ 31) (hroom : s.Room node pos count) (hnear : pos < 12 * s.blocksize)
    (hdvd : s.blocksize ∣ pos) (hsome : pos + count ≠ 0) :
    s.Splices node flags pos buff count now ↔ s.blocksize ∣ count ∧ pos + count ≤ 12 * s.blocksize := by
  have hbs := hf.blocksize_pos
  have hlast := lastBlock_eq (s := s) hpos hcount hsome
  obtain ⟨start, rfl⟩ := hdvd
  have hdiv : s.blocksize * start / s.blocksize = start := Nat.mul_div_cancel_left _ hbs
  by_cases hle : start ≤ s.lastBlock (s.blocksize * start) count
  · obtain ⟨w₁, w', hround, hrest, hcall⟩ := fileWrite_rounds hflags hf hpos hcount hroom hnear
      (by rw [hdiv]; exact hle) buff now
    rw [hdiv, Nat.mul_mod_right] at hround
    rw [hdiv] at hrest
    have hstart : start < 12 := by
      rw [Nat.mul_comm] at hnear
      exact Nat.lt_of_mul_lt_mul_right hnear
    have hall := Rounds.cons (w := s.unwritten node.raw) (Nat.zero_le count) (by omega) hround hrest
    generalize hl : s.lastBlock (s.blocksize * start) count = last at *
    obtain ⟨k, rfl⟩ : ∃ k, last = start + k := ⟨last - start, by omega⟩
    -- the last byte is in the last block
    have hlow : (start + k) * s.blocksize ≤ s.blocksize * start + count - 1 :=
      (Nat.le_div_iff_mul_le hbs).mp hlast.le
    have hhigh : s.blocksize * start + count - 1 < (start + k + 1) * s.blocksize :=
      (Nat.div_lt_iff_lt_mul hbs).mp (by omega)
    rw [Nat.succ_mul] at hhigh
    rw [Nat.add_mul, Nat.mul_comm start] at hlow hhigh
    have hwritten : w'.written = min count (0 + (min (start + k + 1) 12 - start) * s.blocksize) := hall.written
    by_cases hfar : 12 ≤ start + k
    · have hmul : 12 * s.blocksize ≤ start * s.blocksize + k * s.blocksize := by
        rw [← Nat.add_mul]
        exact Nat.mul_le_mul_right _ hfar
      rw [Nat.mul_comm start] at hmul
      have hroom : s.blocksize ≤ (min (start + k + 1) 12 - start) * s.blocksize :=
          Nat.le_mul_of_pos_left _ (by omega)
      apply iff_of_false
      · intro h
        obtain ⟨hspliced, -⟩ := (splices_iff hcall).mp h
        have hsigned : toS32 w'.written = w'.written := by
          rw [toS32, if_pos (by omega)]
        unfold exit at hspliced
        rw [if_pos hfar, if_pos (show 0 < w'.written by omega)] at hspliced
        exact not_spliced_early (by change (0 : ℤ) < toS32 w'.written; omega) rfl (hspliced (by
          change (0 : ℤ) ≤ toS32 w'.written; omega))
      · omega
    · have hn : min (start + k + 1) 12 = start + (k + 1) := by omega
      rw [hn, Nat.add_sub_cancel_left, Nat.succ_mul] at hwritten
      have hbuffer : w'.buffer = k * s.blocksize + s.blocksize := by
        refine hall.buffer.trans ?_
        rw [hn, if_pos (by omega), show start + (k + 1) - 1 - start = k by omega]
        change max 0 (min count (0 + k * s.blocksize) + s.blocksize) = _
        omega
      have hmul : (start + k + 1) * s.blocksize ≤ 12 * s.blocksize := Nat.mul_le_mul_right _ (by omega)
      rw [Nat.succ_mul, Nat.add_mul, Nat.mul_comm start] at hmul
      unfold exit at hcall
      rw [if_neg hfar] at hcall
      constructor
      · intro h
        obtain ⟨hspliced, -⟩ := (splices_iff hcall).mp h
        have hresult : (0 : ℤ) ≤ toS32 w'.written := by
          rw [toS32, if_pos (by omega)]
          omega
        have hle : w'.buffer ≤ count := (hspliced hresult).buffer
        have hwhole : count = (k + 1) * s.blocksize := by
          rw [Nat.succ_mul]
          omega
        exact ⟨⟨k + 1, by rw [hwhole, Nat.mul_comm]⟩, by omega⟩
      · rintro ⟨⟨q, rfl⟩, hend⟩
        have hlt : s.blocksize * k < s.blocksize * q := by
          rw [Nat.mul_comm _ k]
          omega
        have hge : s.blocksize * q < s.blocksize * (k + 2) := by
          rw [Nat.mul_comm _ (k + 2), Nat.add_mul]
          omega
        obtain rfl : q = k + 1 := by
          have := Nat.lt_of_mul_lt_mul_left hlt
          have := Nat.lt_of_mul_lt_mul_left hge
          omega
        have hblock (j : ℕ) (hj : j < s.blocksize * (k + 1)) : j / s.blocksize < k + 1 :=
          Nat.div_lt_of_lt_mul hj
        have hsmall := hf.blocksize
        refine (spliced_finish hf hall.file hall.layout ?_ (by omega) ?_ ?_ ?_ ?_ ?_ now).splices hcall
        · rw [hwritten, Nat.mul_succ, Nat.mul_comm k]
          omega
        · intro j hj
          rw [Nat.mul_add_div hbs]
          have := hblock j hj
          omega
        · intro j hj
          have hj' := hblock j hj
          have hdm := Nat.div_add_mod' j s.blocksize
          have hdiv' : (s.blocksize * start + j) / s.blocksize = start + j / s.blocksize :=
              Nat.mul_add_div hbs ..
          refine (hall.bytes _ (by change (s.blocksize * start + j) / s.blocksize < 12; omega)).trans ?_
          change (if start ≤ (s.blocksize * start + j) / s.blocksize ∧
            (s.blocksize * start + j) / s.blocksize < _ then
            buff (min _ (0 + ((s.blocksize * start + j) / s.blocksize - start) * s.blocksize)
              + (s.blocksize * start + j) % s.blocksize) else _) = _
          rw [hdiv', hn, if_pos ⟨Nat.le_add_right .., Nat.add_lt_add_left hj' _⟩, Nat.add_sub_cancel_left,
            Nat.mul_add_mod]
          refine congrArg buff ?_
          generalize j / s.blocksize * s.blocksize = x at *
          omega
        · intro p hp hout
          have hin : p / s.blocksize < 12 := by
            have := hf.size.2
            exact (Nat.div_lt_iff_lt_mul hbs).mpr (by omega)
          refine (hall.bytes p hin).trans (if_neg ?_)
          rintro ⟨hfirst, hlast'⟩
          change start ≤ p / s.blocksize at hfirst
          change p / s.blocksize < _ at hlast'
          rw [Nat.le_div_iff_mul_le hbs, Nat.mul_comm] at hfirst
          rw [hn, Nat.div_lt_iff_lt_mul hbs, Nat.add_mul, Nat.mul_comm start, Nat.mul_comm (k + 1)] at hlast'
          exact hout ⟨hfirst, hlast'⟩
        · rw [hbuffer, Nat.mul_succ, Nat.mul_comm k]
        · refine (hall.staging).trans_le ?_
          rw [if_pos (by omega)]
          change max 0 s.blocksize ≤ _
          omega
  · have hzero : count = 0 := by
      by_contra hne
      have hfirst : start ≤ (s.blocksize * start + count - 1) / s.blocksize := by
        rw [Nat.le_div_iff_mul_le hbs, Nat.mul_comm]
        omega
      omega
    subst hzero
    have hcall := fileWrite_open buff 0 now hflags hf hpos
    rw [hdiv, writeLoop, if_pos (not_le.mp hle)] at hcall
    refine iff_of_true ?_ ⟨Nat.dvd_zero _, hnear.le⟩
    exact (spliced_finish (w := s.unwritten node.raw) hf hf.congr (.refl s) rfl hpos
      (fun k hk => absurd hk (Nat.not_lt_zero k))
      (fun k hk => absurd hk (Nat.not_lt_zero k)) (fun _ _ _ => rfl) (Nat.zero_le _)
        (Nat.zero_le _) now).splices hcall

end Call

/-- A write to a regular file with free blocks is a splice exactly if it is refused, lies behind
the direct blocks or is one of whole blocks; without a byte to write and at the position zero,
if every block has the bytes of the buffer already. -/
theorem write_splices_iff (s : Ext2) (node : VfsInode) (flags pos : ℕ) (buff : Bytes) (count now : ℕ)
    (hf : FileOnDisk s node) (hpos : pos < 2 ^ 31) (hcount : count < 2 ^ 31) (hroom : s.Room node pos count) :
    s.Splices node flags pos buff count now ↔ s.WholeBlocks node flags pos buff count := by
  unfold WholeBlocks
  by_cases hflags : flags % 4 = 0
  · refine iff_of_true ?_ (.inl hflags)
    have hcall : s.fileWrite .none node flags pos buff count now
        = some ⟨-ebadf, node, pos, s, 0, 0⟩ := if_pos hflags
    exact (splices_iff hcall).mpr ⟨fun h => absurd (show (0 : ℤ) ≤ -ebadf from h) (by decide), fun _ _ _ => rfl⟩
  by_cases hfar : 12 * s.blocksize ≤ pos
  · exact iff_of_true (splices_far hflags hf hpos hcount hfar) (.inr (.inl hfar))
  rw [or_iff_right hflags, or_iff_right hfar]
  by_cases hdvd : s.blocksize ∣ pos
  · by_cases hsome : pos + count = 0
    · obtain ⟨rfl, rfl⟩ : pos = 0 ∧ count = 0 := by omega
      rw [splices_nothing_iff hflags hf hroom]
      simp
    · rw [splices_aligned_iff hflags hf hpos hcount hroom (by omega) hdvd hsome]
      constructor
      · rintro ⟨hwhole, hend⟩
        exact ⟨hdvd, hwhole, hend, by omega⟩
      · rintro ⟨-, hwhole, hend, -⟩
        exact ⟨hwhole, hend⟩
  · exact iff_of_false (not_splices_skewed hflags hf hpos hcount hroom (by omega) hdvd) fun h => hdvd h.1

/-- A file without a byte. -/
def emptyFile : VfsInode := { VfsInode.zero with ino := 3, mode := sIfreg, u := .ext2 fun _ => 0 }

theorem emptyFile_holes : ∀ i < 12, iBlock emptyFile.raw i = 0 := by decide

theorem emptyFile_onDisk : FileOnDisk rootDisk emptyFile where
  agree := rootDisk_agree
  pools := rootDisk_pools
  blocksize := by decide
  addresses := by decide
  regular := by decide
  size := by decide
  record := by decide
  used i hi hne := absurd (emptyFile_holes i hi) hne
  distinct i hi _ _ hne := absurd (emptyFile_holes i hi) hne
  spare b hb hclear := by
    have hcount : rootDisk.blocksCount = 9 := by decide
    have hsector : rootDisk.inodeAddr emptyFile.ino / sectorSize = 10 := by decide
    have hused : ∀ c < 7, rootDisk.blockBit c = true := by decide
    have hlt := hb.2
    have hge : 7 ≤ b := by
      by_contra hsmall
      rw [hused b (by omega)] at hclear
      cases hclear
    refine ⟨by omega, fun x hx hx' => ?_⟩
    rw [(rootDisk_start .blocks).2] at hx hx'
    rw [hsector]
    refine ⟨?_, by omega⟩
    rintro (hsuper | ⟨p, g, hg, hbook⟩)
    · omega
    · rw [rootDisk_groups, Nat.lt_one_iff] at hg
      rw [hg, (rootDisk_start p).1, (rootDisk_start p).2] at hbook
      unfold Apart at hbook
      cases p <;> simp at hbook <;> omega

/-- A block of the buffer becomes the file. -/
theorem write_splices_iff_block : rootDisk.Splices emptyFile 1 0 (fun _ => 7) 1024 0 :=
  (write_splices_iff rootDisk emptyFile 1 0 (fun _ => 7) 1024 0 emptyFile_onDisk (by decide) (by decide)
    (by unfold Room; decide)).mpr (.inr (.inr (by decide)))

/-- With one byte of the buffer, 1023 bytes behind it are written. -/
theorem byte_not_spliced : ¬ ∀ (s : Ext2) (node : VfsInode) (flags pos : ℕ) (buff : Bytes) (count now : ℕ),
    FileOnDisk s node → pos < 2 ^ 31 → count < 2 ^ 31 → s.Room node pos count →
    s.Splices node flags pos buff count now := by
  intro h
  have hsplices := h rootDisk emptyFile 1 0 (fun _ => 7) 1 0 emptyFile_onDisk (by decide) (by decide)
    (by unfold Room; decide)
  rw [splices_aligned_iff (by decide) emptyFile_onDisk (by decide) (by decide) (by unfold Room; decide)
    (by decide) (Nat.dvd_zero _) (by decide)] at hsplices
  revert hsplices
  decide

end Ext2
end Ferrite.Fs
