import Ferrite.Fs.DeleteEntry
import Ferrite.Fs.Ext2Read

/-!
# Listing a directory

`ext2_readdir` and `ext2_is_empty_dir` walk the records from a position on, through the
blocks. What a record means to the walk is the difference between them.
-/
namespace Ferrite.Fs
open Packed Word Records

/-- How a walk ends: at a record, at a length that cannot be, behind the direct blocks, or
at the end of the directory. -/
inductive Walk (α : Type)
  | hit (a : α)
  | bad
  | far
  | ended
deriving DecidableEq

/-- What `sys_readdir` hands out. -/
structure Dirent where
  ino : ℤ
  off : ℤ
  reclen : ℕ
  name : List Byte
deriving DecidableEq

/-- The name and the inode it tells. -/
def Dirent.entry (d : Dirent) : List Byte × ℕ := (d.name, ofS32 d.ino)

/-- The walk in one block; `none` stands for the end of the block. Each record takes a
byte at least. -/
def walkBlock {α : Type} (b : Bytes) (bs : ℕ) (limit : ℤ) (visit : Bytes → ℕ → Option α) :
    ℕ → ℕ → ℤ → Option (Walk α) × ℤ
  | 0, _, pos => (none, pos)
  | fuel + 1, offset, pos =>
      if offset < bs ∧ pos < limit then
        let recLen := (entryAt b offset).recLen
        if recLen = 0 ∨ bs < recLen then (some .bad, pos)
        else
          match visit b offset with
          | some a => (some (.hit a), pos + recLen)
          | none => walkBlock b bs limit visit fuel (offset + recLen) (pos + recLen)
      else (none, pos)

namespace Ext2
variable (s : Ext2)

/-- The walk through the blocks, each of which it leaves behind. -/
def walk {α : Type} (inode : Bytes) (limit : ℤ) (visit : Bytes → ℕ → Option α) : ℕ → ℤ → Option (Walk α × ℤ)
  | 0, _ => none
  | fuel + 1, pos =>
      if pos < limit then
        let offset := ofS32 pos &&& (s.blocksize - 1)
        let block := ofS32 (pos / 2 ^ (s.logBlockSize + 10))
        if 12 ≤ block then some (.far, pos)
        else
          let b := s.readBlock (iBlock inode block)
          match walkBlock b s.blocksize limit visit (s.blocksize + 1) offset pos with
          | (some result, pos) => some (result, pos)
          | (none, pos) => walk inode limit visit fuel pos
      else some (.ended, pos)

/-- A record in use ends a call of `ext2_readdir`. -/
def inUse (b : Bytes) (o : ℕ) : Option DirEntry :=
  if (entryAt b o).inode ≠ 0 then some (entryAt b o) else none

/-- The result, the entry, and the new position. -/
def readdir (node : VfsInode) (pos : ℤ) : Option (ℤ × Option Dirent × ℤ) :=
  if !isDir node.mode then some (-enotdir, none, pos)
  else
    (s.walk node.raw (toS32 node.size) inUse 14 pos).map fun
      | (.hit e, pos) => (e.name.length, some ⟨toS32 e.inode, pos, e.name.length, e.name⟩, pos)
      | (.bad, pos) => (-eio, none, pos)
      | (.far, pos) => (-enosys, none, pos)
      | (.ended, pos) => (0, none, pos)

/-- A record in use that is neither `.` nor `..`. -/
def other (b : Bytes) (o : ℕ) : Option Unit :=
  let e := entryAt b o
  if e.inode ≠ 0 ∧ (2 < e.name.length ∨ b (o + 8) ≠ 46 ∨ (e.name.length = 2 ∧ b (o + 9) ≠ 46)) then some ()
  else none

def isEmptyDir (node : VfsInode) : Option ℤ :=
  if !isDir node.mode then some (-enotdir)
  else
    (s.walk node.raw node.size other 14 0).map fun
      | (.hit _, _) => -enotempty
      | (.bad, _) => -eio
      | (.far, _) => -eio
      | (.ended, _) => 0

/-- So many calls of `ext2_readdir` on one file, in a row. -/
def listing (node : VfsInode) : ℕ → ℤ → Option (List (ℤ × Option Dirent × ℤ))
  | 0, _ => some []
  | n + 1, pos => (s.readdir node pos).bind fun r => (listing node n r.2.2).map (r :: ·)

end Ext2

/-! ## Well-formed directories -/

/-- The records of the blocks as `ext2_read_block` reads them; names in use are not empty,
and a `long` holds every position. -/
structure DirListed (s : Ext2) (dir : VfsInode) (blocks : List (List DirEntry)) : Prop where
  directory : isDir dir.mode = true
  count : 1 ≤ blocks.length ∧ blocks.length ≤ 12
  size : dir.size = blocks.length * s.blocksize ∧ dir.size < 2 ^ 31
  chains : ∀ i rs, blocks[i]? = some rs → BlockHolds (s.readBlock (iBlock dir.raw i)) s.blocksize 0 rs
  names : ∀ r ∈ blocks.flatten, r.inode ≠ 0 → r.name ≠ []

/-- A position between records, and the records behind it. -/
def Stands (bs : ℕ) (blocks : List (List DirEntry)) (pos : ℕ) (rest : List DirEntry) : Prop :=
  ∃ A pre post C, blocks = A ++ (pre ++ post) :: C ∧ pos = A.length * bs + total DirEntry.recLen pre ∧
    rest = post ++ C.flatten

variable {α : Type} {s : Ext2} {dir : VfsInode} {b : Bytes} {bs o k n pos : ℕ} {limit : ℤ}
variable {v : Bytes → ℕ → Option α} {f : DirEntry → Option α} {a : α}
variable {e : DirEntry} {pre post rest tail : List DirEntry} {blocks A C : List (List DirEntry)}

/-! ## Positions -/

theorem ofS32_natCast (h : n < 2 ^ 32) : ofS32 n = n := by
  have hw : (word : ℤ) = 2 ^ 32 := rfl
  unfold ofS32
  rw [hw]
  omega

theorem toS32_of_lt (h : n < 2 ^ 31) : toS32 n = n := if_pos h

namespace Ext2

theorem offset_at {i t : ℕ} (ht : t < s.blocksize) (hlt : i * s.blocksize + t < 2 ^ 32) :
    ofS32 (i * s.blocksize + t : ℕ) &&& (s.blocksize - 1) = t := by
  have hpow := blocksize_eq_pow (s := s) (by omega)
  have hmod : (i * s.blocksize + t) % s.blocksize = t := by
    rw [Nat.mul_comm, Nat.mul_add_mod, Nat.mod_eq_of_lt ht]
  rw [ofS32_natCast hlt]
  conv_lhs => rw [show s.blocksize - 1 = 2 ^ (s.logBlockSize + 10) - 1 by rw [← hpow]]
  rw [Nat.and_two_pow_sub_one_eq_mod, ← hpow, hmod]

theorem block_at {i t : ℕ} (ht : t < s.blocksize) (hlt : i * s.blocksize + t < 2 ^ 32) :
    ofS32 (((i * s.blocksize + t : ℕ) : ℤ) / 2 ^ (s.logBlockSize + 10)) = i := by
  have hpow := blocksize_eq_pow (s := s) (by omega)
  have hdiv : (i * s.blocksize + t) / s.blocksize = i := by
    rw [Nat.mul_comm, Nat.mul_add_div (by omega), Nat.div_eq_of_lt ht, Nat.add_zero]
  have hle : i ≤ i * s.blocksize + t := (Nat.le_mul_of_pos_right i (by omega)).trans (Nat.le_add_right ..)
  have hcast : ((i * s.blocksize + t : ℕ) : ℤ) / 2 ^ (s.logBlockSize + 10)
      = ((i * s.blocksize + t) / s.blocksize : ℕ) := by
    rw [hpow]
    norm_cast
  rw [hcast, hdiv]
  exact ofS32_natCast (by omega)

end Ext2

/-! ## The walk in one block -/

/-- The lengths of a chain are possible. -/
theorem recLen_bounds (hchain : BlockHolds b bs o (pre ++ e :: post)) :
    e.recLen ≠ 0 ∧ e.recLen ≤ bs ∧ o + total DirEntry.recLen pre + e.recLen ≤ bs := by
  obtain ⟨hfits, hend⟩ := Chain.bounds hchain
  have hpos := fits_pos e hfits
  omega

theorem recLen_bounds_head (hchain : BlockHolds b bs o (e :: post)) :
    e.recLen ≠ 0 ∧ e.recLen ≤ bs ∧ o + e.recLen ≤ bs := by
  have hbounds := recLen_bounds (show BlockHolds b bs o ([] ++ e :: post) from hchain)
  rwa [total_nil, Nat.add_zero] at hbounds

theorem walkBlock_pass {r : DirEntry} {rs : List DirEntry} {p : ℤ} (hchain : BlockHolds b bs o (r :: rs))
    (hvisit : v b o = none) (hp : p < limit) :
    walkBlock b bs limit v (k + 1) o p
      = walkBlock b bs limit v k (o + r.recLen) (p + r.recLen) := by
  have hbounds := recLen_bounds_head hchain
  rw [walkBlock, hchain.1, if_pos ⟨by omega, hp⟩]
  dsimp only
  rw [if_neg (by omega), hvisit]

/-- Nothing is met up to the end of the block. -/
theorem walkBlock_none {p : ℤ} (hchain : BlockHolds b bs o rest)
    (hvisit : ∀ x, entryAt b x ∈ rest → v b x = none) (hp : p + (bs - o : ℕ) ≤ limit)
    (hfuel : rest.length < k) :
    walkBlock b bs limit v k o p = (none, p + (bs - o : ℕ)) := by
  induction rest generalizing o p k with
  | nil =>
      have hend : o = bs := hchain
      obtain ⟨k, rfl⟩ : ∃ j, k = j + 1 := ⟨k - 1, by omega⟩
      rw [walkBlock, if_neg (by omega), hend, Nat.sub_self]
      simp
  | cons r rest ih =>
      obtain ⟨k, rfl⟩ : ∃ j, k = j + 1 := ⟨k - 1, by omega⟩
      have hbounds := recLen_bounds_head hchain
      rw [List.length_cons] at hfuel
      rw [walkBlock_pass hchain (hvisit o (hchain.1 ▸ List.mem_cons_self)) (by omega),
        ih hchain.2.2 (fun x hx => hvisit x (List.mem_cons_of_mem _ hx)) (by omega) (by omega)]
      congr 1
      omega

/-- The walk stops at the first record that it is after. -/
theorem walkBlock_hit {p : ℤ} (hchain : BlockHolds b bs o (pre ++ e :: post))
    (hnone : ∀ x, entryAt b x ∈ pre → v b x = none)
    (hhit : v b (o + total DirEntry.recLen pre) = some a) (hp : p + (bs - o : ℕ) ≤ limit)
    (hfuel : pre.length < k) :
    walkBlock b bs limit v k o p
      = (some (.hit a), p + (total DirEntry.recLen pre + e.recLen : ℕ)) := by
  induction pre generalizing o p k with
  | nil =>
      obtain ⟨k, rfl⟩ : ∃ j, k = j + 1 := ⟨k - 1, by omega⟩
      have hbounds := recLen_bounds_head hchain
      rw [total_nil] at hhit
      rw [Nat.add_zero] at hhit
      rw [walkBlock, show entryAt b o = e from hchain.1, if_pos (by omega)]
      dsimp only
      rw [if_neg (by omega), hhit, total_nil, Nat.zero_add]
  | cons r pre ih =>
      obtain ⟨k, rfl⟩ : ∃ j, k = j + 1 := ⟨k - 1, by omega⟩
      have hbounds := recLen_bounds_head hchain
      have hlast := recLen_bounds hchain
      rw [total_cons] at hlast hhit
      rw [List.length_cons] at hfuel
      have hhit' : v b (o + r.recLen + total DirEntry.recLen pre) = some a := by
        rwa [Nat.add_assoc]
      rw [walkBlock_pass hchain (hnone o (hchain.1 ▸ List.mem_cons_self)) (by omega),
        ih hchain.2.2 (fun x hx => hnone x (List.mem_cons_of_mem _ hx)) hhit' (by omega) (by omega),
        total_cons]
      congr 1
      push_cast
      ring

/-! ## The walk through the blocks -/

theorem DirListed.chain (h : DirListed s dir (A ++ rest :: C)) :
    BlockHolds (s.readBlock (iBlock dir.raw A.length)) s.blocksize 0 rest :=
  h.chains A.length rest (by simp)

/-- The end of the block after its records. -/
theorem DirListed.total_eq (h : DirListed s dir (A ++ rest :: C)) :
    total DirEntry.recLen rest = s.blocksize := by
  have hend := h.chain.end_eq
  omega

theorem DirListed.size_eq (h : DirListed s dir (A ++ rest :: C)) :
    dir.size = A.length * s.blocksize + s.blocksize + C.length * s.blocksize := by
  rw [h.size.1, List.length_append, List.length_cons, Nat.add_mul, Nat.add_mul]
  omega

/-- A round of the walk takes up the block where the position stands. -/
theorem DirListed.walk_round (h : DirListed s dir (A ++ (pre ++ post) :: C)) (hpost : post ≠ []) :
    s.walk dir.raw dir.size v (k + 1) (A.length * s.blocksize + total DirEntry.recLen pre : ℕ)
      = match walkBlock (s.readBlock (iBlock dir.raw A.length)) s.blocksize dir.size v
          (s.blocksize + 1) (total DirEntry.recLen pre)
          (A.length * s.blocksize + total DirEntry.recLen pre : ℕ) with
        | (some result, pos) => some (result, pos)
        | (none, pos) => s.walk dir.raw dir.size v k pos := by
  obtain ⟨e, post, rfl⟩ := List.exists_cons_of_ne_nil hpost
  have hsize := h.size_eq
  have hlt := h.size.2
  have hbounds := recLen_bounds h.chain
  have hcount := h.count.2
  rw [List.length_append, List.length_cons] at hcount
  have ht : total DirEntry.recLen pre < s.blocksize := by omega
  rw [Ext2.walk, if_pos (by omega)]
  dsimp only
  rw [Ext2.offset_at ht (by omega), Ext2.block_at ht (by omega), if_neg (by omega)]

/-- Behind the last record of a block, the next block begins. -/
theorem DirListed.next_block (h : DirListed s dir (A ++ rest :: C)) :
    A.length * s.blocksize + total DirEntry.recLen rest
      = (A ++ [rest]).length * s.blocksize + total DirEntry.recLen [] := by
  rw [h.total_eq, List.length_append, List.length_singleton, Nat.add_mul, Nat.one_mul, total_nil, Nat.add_zero]

theorem walk_at_end : s.walk dir.raw dir.size v (k + 1) dir.size = some (Walk.ended, (dir.size : ℤ)) := by
  rw [Ext2.walk, if_neg (lt_irrefl _)]

/-- The walk meets nothing in the rest of a block. -/
theorem DirListed.walk_rest (h : DirListed s dir (A ++ (pre ++ post) :: C)) (hpost : post ≠ [])
    (hnone : ∀ b x, entryAt b x ∈ post → v b x = none) :
    s.walk dir.raw dir.size v (k + 1) (A.length * s.blocksize + total DirEntry.recLen pre : ℕ)
      = s.walk dir.raw dir.size v k
          (A.length * s.blocksize + total DirEntry.recLen (pre ++ post) : ℕ) := by
  have hsize := h.size_eq
  have htotal := h.total_eq
  have hchain := (chain_append.mp h.chain).2
  have hlen := length_le_of_chain hchain
  rw [Nat.zero_add] at hchain hlen
  rw [total_append] at htotal
  rw [h.walk_round hpost, walkBlock_none hchain (hnone _) (by omega) (by omega), total_append]
  dsimp only
  congr 1
  omega

/-- The walk meets nothing and comes to the end of the directory. -/
theorem DirListed.walk_ended (h : DirListed s dir (A ++ (pre ++ post) :: C))
    (hnone : ∀ b x, entryAt b x ∈ post ++ C.flatten → v b x = none) (hfuel : C.length + 1 < k) :
    s.walk dir.raw dir.size v k (A.length * s.blocksize + total DirEntry.recLen pre : ℕ)
      = some (Walk.ended, (dir.size : ℤ)) := by
  induction C generalizing A pre post k with
  | nil =>
      have hsize := h.size_eq
      have htotal := h.total_eq
      obtain ⟨k, rfl⟩ : ∃ j, k = j + 1 + 1 := ⟨k - 2, by rw [List.length_nil] at hfuel; omega⟩
      have hend : A.length * s.blocksize + total DirEntry.recLen (pre ++ post) = dir.size := by
        rw [htotal, hsize, List.length_nil]
        omega
      by_cases hpost : post = []
      · subst hpost
        rw [List.append_nil] at hend
        rw [hend, walk_at_end]
      · rw [h.walk_rest hpost fun b x hx => hnone b x (List.mem_append_left _ hx), hend, walk_at_end]
  | cons c C ih =>
      rw [List.length_cons] at hfuel
      obtain ⟨k, rfl⟩ : ∃ j, k = j + 1 := ⟨k - 1, by omega⟩
      have hnext : DirListed s dir ((A ++ [pre ++ post]) ++ ([] ++ c) :: C) := by simpa using h
      have hnone' : ∀ b x, entryAt b x ∈ c ++ C.flatten → v b x = none := fun b x hx =>
        hnone b x (List.mem_append_right _ hx)
      by_cases hpost : post = []
      · subst hpost
        have hpos := h.next_block
        rw [List.append_nil] at hpos hnext
        rw [hpos, ih hnext hnone' (by omega)]
      · rw [h.walk_rest hpost fun b x hx => hnone b x (List.mem_append_left _ hx), h.next_block,
          ih hnext hnone' (by omega)]

/-- The record that the walk is after is in this block. -/
theorem DirListed.walk_hit_here {dead : List DirEntry}
    (h : DirListed s dir (A ++ (pre ++ (dead ++ e :: post)) :: C))
    (hnone : ∀ b x, entryAt b x ∈ dead → v b x = none)
    (hhit : ∀ b x, entryAt b x = e → v b x = some a) :
    ∃ p : ℕ, s.walk dir.raw dir.size v (k + 1)
        (A.length * s.blocksize + total DirEntry.recLen pre : ℕ) = some (Walk.hit a, (p : ℤ)) ∧
      Stands s.blocksize (A ++ (pre ++ (dead ++ e :: post)) :: C) p (post ++ C.flatten) := by
  have hsize := h.size_eq
  have htotal := h.total_eq
  have hchain := (chain_append.mp h.chain).2
  have hrec := (chain_append.mp hchain).2.1
  have hlen := length_le_of_chain hchain
  rw [total_append] at htotal
  rw [Nat.zero_add] at hchain hrec hlen
  rw [List.length_append] at hlen
  refine ⟨A.length * s.blocksize + total DirEntry.recLen (pre ++ dead ++ [e]), ?_,
    A, pre ++ dead ++ [e], post, C, by simp, rfl, rfl⟩
  rw [h.walk_round (by simp), walkBlock_hit hchain (hnone _) (hhit _ _ hrec) (by omega) (by omega)]
  simp only [total_append, total_cons, total_nil]
  congr 2
  omega

/-- The walk stops at the first record that it is after, and behind that record. -/
theorem DirListed.walk_hit {dead : List DirEntry} (h : DirListed s dir (A ++ (pre ++ post) :: C))
    (hrest : post ++ C.flatten = dead ++ e :: tail)
    (hnone : ∀ b x, entryAt b x ∈ dead → v b x = none)
    (hhit : ∀ b x, entryAt b x = e → v b x = some a) (hfuel : C.length < k) :
    ∃ p : ℕ, s.walk dir.raw dir.size v k (A.length * s.blocksize + total DirEntry.recLen pre : ℕ)
        = some (Walk.hit a, (p : ℤ)) ∧ Stands s.blocksize (A ++ (pre ++ post) :: C) p tail := by
  induction C generalizing A pre post dead k with
  | nil =>
      obtain ⟨k, rfl⟩ : ∃ j, k = j + 1 := ⟨k - 1, by rw [List.length_nil] at hfuel; omega⟩
      rw [List.flatten_nil, List.append_nil] at hrest
      subst hrest
      have hhere := h.walk_hit_here (k := k) hnone hhit
      rwa [List.flatten_nil, List.append_nil] at hhere
  | cons c C ih =>
      rw [List.length_cons] at hfuel
      obtain ⟨k, rfl⟩ : ∃ j, k = j + 1 := ⟨k - 1, by omega⟩
      have hnext : DirListed s dir ((A ++ [pre ++ post]) ++ ([] ++ c) :: C) := by simpa using h
      -- the rest of this block is passed
      have hpass (dead' : List DirEntry) (hdead : dead = post ++ dead')
          (hlater : c ++ C.flatten = dead' ++ e :: tail) :
          ∃ p : ℕ, s.walk dir.raw dir.size v (k + 1)
              (A.length * s.blocksize + total DirEntry.recLen pre : ℕ) = some (Walk.hit a, (p : ℤ)) ∧
            Stands s.blocksize (A ++ (pre ++ post) :: c :: C) p tail := by
        subst hdead
        have hnone' : ∀ b x, entryAt b x ∈ dead' → v b x = none := fun b x hx =>
          hnone b x (List.mem_append_right _ hx)
        have hstands : (A ++ [pre ++ post]) ++ ([] ++ c) :: C = A ++ (pre ++ post) :: c :: C := by simp
        by_cases hpost : post = []
        · subst hpost
          have hpos := h.next_block
          obtain ⟨p, hp, hstand⟩ := ih (k := k + 1) hnext hlater hnone' (by omega)
          rw [List.append_nil] at hpos hp
          rw [hstands] at hstand
          exact ⟨p, hpos ▸ hp, hstand⟩
        · obtain ⟨p, hp, hstand⟩ := ih (k := k) hnext hlater hnone' (by omega)
          rw [hstands] at hstand
          refine ⟨p, ?_, hstand⟩
          rw [h.walk_rest hpost fun b x hx => hnone b x (List.mem_append_left _ hx), h.next_block, hp]
      rcases List.append_eq_append_iff.mp hrest with ⟨dead', hdead, hlater⟩ | ⟨t, rfl, ht⟩
      · exact hpass dead' hdead hlater
      · cases t with
        | nil => exact hpass [] (by simp) ht.symm
        | cons e' t =>
            obtain ⟨rfl, rfl⟩ := List.cons.inj ht
            exact h.walk_hit_here hnone hhit

theorem Stands.start (h : blocks ≠ []) : Stands bs blocks 0 blocks.flatten := by
  obtain ⟨rs, C, rfl⟩ := List.exists_cons_of_ne_nil h
  exact ⟨[], [], rs, C, rfl, by simp, rfl⟩

theorem Stands.mem (h : Stands bs blocks pos rest) (he : e ∈ rest) : e ∈ blocks.flatten := by
  obtain ⟨A, pre, post, C, rfl, -, rfl⟩ := h
  rw [List.flatten_append, List.flatten_cons, List.append_assoc]
  exact List.mem_append_right _ (List.mem_append_right _ he)

theorem DirListed.inode_lt (h : DirListed s dir blocks) (he : e ∈ blocks.flatten) : e.inode < word := by
  obtain ⟨rs, hrs, he⟩ := List.mem_flatten.mp he
  obtain ⟨i, hi⟩ := List.mem_iff_getElem?.mp hrs
  obtain ⟨x, rfl⟩ := (h.chains i rs hi).exists_read he
  exact get_lt 4 _ _

theorem ofS32_toS32 (h : n < word) : ofS32 (toS32 n) = n := by
  have hw : (word : ℤ) = 2 ^ 32 := rfl
  have hw' : word = 2 ^ 32 := rfl
  unfold ofS32 toS32
  rw [hw]
  split_ifs <;> omega

/-! ## Records in use -/

theorem live_eq_nil_iff : live rest = [] ↔ ∀ r ∈ rest, r.inode = 0 := by
  unfold live
  rw [List.map_eq_nil_iff, List.filter_eq_nil_iff]
  simp

/-- The first record in use, behind records that are not. -/
theorem live_eq_cons {x : List Byte × ℕ} {l : List (List Byte × ℕ)} (h : live rest = x :: l) :
    ∃ dead e tail, rest = dead ++ e :: tail ∧ (∀ r ∈ dead, r.inode = 0) ∧ e.inode ≠ 0 ∧
      x = (e.name, e.inode) ∧ live tail = l := by
  unfold live at h
  obtain ⟨e, l', hfilter, hx, hl⟩ := List.map_eq_cons_iff.mp h
  obtain ⟨dead, tail, hrest, hdead, he, htail⟩ := List.filter_eq_cons_iff.mp hfilter
  refine ⟨dead, e, tail, hrest, ?_, by simpa using he, hx.symm, by rw [live, htail, hl]⟩
  intro r hr
  simpa using hdead r hr

/-! ## Listing -/

theorem inUse_none (h : (entryAt b o).inode = 0) : Ext2.inUse b o = none := if_neg (not_not.mpr h)

theorem inUse_some (h : entryAt b o = e) (he : e.inode ≠ 0) : Ext2.inUse b o = some e := by
  subst h
  exact if_pos he

theorem readdir_eq (hdir : isDir dir.mode = true) (p : ℤ) :
    s.readdir dir p = (s.walk dir.raw (toS32 dir.size) Ext2.inUse 14 p).map fun
      | (.hit e, pos) => ((e.name.length : ℤ), some ⟨toS32 e.inode, pos, e.name.length, e.name⟩, pos)
      | (.bad, pos) => (-eio, none, pos)
      | (.far, pos) => (-enosys, none, pos)
      | (.ended, pos) => (0, none, pos) := by
  unfold Ext2.readdir
  rw [hdir]
  rfl

/-- A call hands out the next record in use. -/
theorem DirListed.readdir_hit {dead : List DirEntry} (h : DirListed s dir blocks)
    (hpos : Stands s.blocksize blocks pos (dead ++ e :: tail)) (hdead : ∀ r ∈ dead, r.inode = 0)
    (he : e.inode ≠ 0) :
    ∃ p : ℕ, Stands s.blocksize blocks p tail ∧
      s.readdir dir pos
        = some ((e.name.length : ℤ), some ⟨toS32 e.inode, p, e.name.length, e.name⟩, (p : ℤ)) := by
  obtain ⟨A, pre, post, C, rfl, rfl, hrest⟩ := hpos
  have hcount := h.count.2
  rw [List.length_append, List.length_cons] at hcount
  obtain ⟨p, hwalk, hstands⟩ := h.walk_hit (k := 14) (v := Ext2.inUse) hrest.symm
    (fun b x hx => inUse_none (hdead _ hx)) (fun b x hx => inUse_some hx he) (by omega)
  refine ⟨p, hstands, ?_⟩
  rw [readdir_eq h.directory, toS32_of_lt h.size.2, hwalk]
  rfl

/-- Behind the last record in use, a call hands out nothing. -/
theorem DirListed.readdir_ended (h : DirListed s dir blocks) (hpos : Stands s.blocksize blocks pos rest)
    (hdead : ∀ r ∈ rest, r.inode = 0) : s.readdir dir pos = some (0, none, (dir.size : ℤ)) := by
  obtain ⟨A, pre, post, C, rfl, rfl, rfl⟩ := hpos
  have hcount := h.count.2
  rw [List.length_append, List.length_cons] at hcount
  rw [readdir_eq h.directory, toS32_of_lt h.size.2,
    h.walk_ended (fun b x hx => inUse_none (hdead _ hx)) (by omega)]
  rfl

theorem DirListed.readdir_at_end (h : DirListed s dir blocks) :
    s.readdir dir dir.size = some (0, none, (dir.size : ℤ)) := by
  rw [readdir_eq h.directory, toS32_of_lt h.size.2, walk_at_end]
  rfl

theorem DirListed.listing_at_end (h : DirListed s dir blocks) (n : ℕ) :
    s.listing dir n dir.size = some (List.replicate n (0, none, (dir.size : ℤ))) := by
  induction n with
  | zero => rfl
  | succ n ih =>
      rw [Ext2.listing, h.readdir_at_end, Option.bind_some, ih]
      rfl

/-- The calls from a position on hand out the records in use behind it, and then nothing. -/
theorem DirListed.listing_from (h : DirListed s dir blocks)
    (hpos : Stands s.blocksize blocks pos rest) (n : ℕ) :
    ∃ rs, s.listing dir ((live rest).length + n) pos
        = some (rs ++ List.replicate n (0, none, (dir.size : ℤ))) ∧
      rs.map (fun r => (r.1, r.2.1.map Dirent.entry))
        = (live rest).map fun e => ((e.1.length : ℤ), some e) := by
  generalize hlive : live rest = l
  induction l generalizing rest pos with
  | nil =>
      have hdead := live_eq_nil_iff.mp hlive
      refine ⟨[], ?_, rfl⟩
      cases n with
      | zero => rfl
      | succ n =>
          rw [List.length_nil, Nat.zero_add, Ext2.listing, h.readdir_ended hpos hdead, Option.bind_some,
            h.listing_at_end, Option.map_some, List.nil_append]
          rfl
  | cons x l ih =>
      obtain ⟨dead, e, tail, rfl, hdead, he, rfl, htail⟩ := live_eq_cons hlive
      obtain ⟨p, hstands, hread⟩ := h.readdir_hit hpos hdead he
      obtain ⟨rs, hlist, hmap⟩ := ih hstands htail
      refine ⟨((e.name.length : ℤ), some ⟨toS32 e.inode, p, e.name.length, e.name⟩, (p : ℤ)) :: rs, ?_, ?_⟩
      · rw [List.length_cons, Nat.add_right_comm, Ext2.listing, hread, Option.bind_some, hlist]
        rfl
      · have hino := ofS32_toS32 (h.inode_lt (hpos.mem (List.mem_append_right _ List.mem_cons_self)))
        rw [List.map_cons, List.map_cons, hmap]
        simp only [Option.map_some, Dirent.entry, hino]

/-- Repeated calls hand out every record in use once and in order, and then nothing more. -/
theorem readdir_enumerates (s : Ext2) (dir : VfsInode) (blocks : List (List DirEntry))
    (h : DirListed s dir blocks) (n : ℕ) :
    ∃ rs, s.listing dir ((live blocks.flatten).length + n) 0
        = some (rs ++ List.replicate n (0, none, (dir.size : ℤ))) ∧
      rs.map (fun r => (r.1, r.2.1.map Dirent.entry))
        = (live blocks.flatten).map fun e => ((e.1.length : ℤ), some e) :=
  h.listing_from (Stands.start (List.ne_nil_of_length_pos h.count.1)) n

/-- The directory of the example for `ext2_delete_entry`, listed. -/
theorem home_listed : DirListed homeDisk homeDir homeBlocks := by
  refine ⟨by decide, by decide, by decide, ?_, by decide⟩
  intro i rs hi
  match i with
  | 0 =>
      cases hi
      decide +kernel
  | 1 =>
      cases hi
      decide +kernel
  | i + 2 => cases hi

theorem readdir_enumerates_home : ∃ rs, homeDisk.listing homeDir (4 + 2) 0
      = some (rs ++ List.replicate 2 (0, none, 2048)) ∧
    rs.map (fun r => (r.1, r.2.1.map Dirent.entry))
      = [(1, some ([46], 2)), (2, some ([46, 46], 2)), (1, some ([97], 12)), (1, some ([98], 13))] :=
  readdir_enumerates homeDisk homeDir homeBlocks home_listed 2

end Ferrite.Fs
