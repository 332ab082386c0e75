import Ferrite.Fs.GroupTable
import Ferrite.Fs.Mount

/-!
# Reading a superblock

`ext2_superblock_read` and what it calls, on a device with any content. A division by
zero, a shift by the width of a word and an access through `NULL` are faults, and what
the calls learn from the allocator and the driver is given.
-/
namespace Ferrite.Fs
open Packed Word

inductive Fault
  | divideByZero | wideShift | nullPointer
deriving DecidableEq

/-- `EXT2_MAGIC`. -/
def ext2Magic : ℕ := 0xEF53

def divide (a b : ℕ) : Except Fault ℕ := if b = 0 then .error .divideByZero else .ok (a / b)

/-- `CEIL_DIV`, which divides. -/
def ceilDivide (a b : ℕ) : Except Fault ℕ := if b = 0 then .error .divideByZero else .ok (ceilDiv a b)

/-- `1024 << n`. -/
def shiftKilo (n : ℕ) : Except Fault ℕ := if 32 ≤ n then .error .wideShift else .ok (1024 * 2 ^ n % word)

/-- Whether `kmalloc` returns memory; `MAXIMUM_SLAB_ALLOCATION` is 16384. -/
def kmallocs (memory : Bool) (n : ℕ) : Bool := n ≠ 0 && n < 16384 && memory

/-- One allocation with the read into it: whether there is memory, what it holds, and whether
the device answers. -/
structure Fetch where
  memory : Bool
  heap : Bytes
  read : Bool

structure ImageEnv where
  /-- The device, if it can be read. -/
  dev : Option BlockDevice
  es : Fetch
  bgd : Fetch
  inode : Fetch
  /-- What lies on the stack behind the buffer of one sector. -/
  stack : Bytes
  /-- Where `s_group_desc` points in the memory for the superblock, before any store to it. -/
  stray : Option Bytes

/-- `s_group_desc`, with the number of bytes that have been read into the table. -/
inductive GroupDesc
  | stray (memory : Option Bytes)
  | table (memory : Bytes) (size : ℕ)

/-- What can be read through the pointer, nothing through `NULL`. -/
def GroupDesc.memory : GroupDesc → Option Bytes
  | .stray memory => memory
  | .table memory _ => some memory

/-- The `vfs_superblock_t` that is filled. -/
structure LoadedSuper where
  dev : ℕ
  blocksize : ℕ
  es : Bytes
  groupsCount : ℕ
  groupDesc : GroupDesc
  rootNode : Option ℕ

namespace ImageEnv
variable (env : ImageEnv)

/-- `ext2_bgd_read`; where it fails, `s_group_desc` stays as it is. -/
def bgdRead (d : BlockDevice) (blocksize numBlockGroups : ℕ) : Except Fault GroupDesc :=
  let amountOfBytes := numBlockGroups * 32 % word
  if !kmallocs env.bgd.memory amountOfBytes then .ok (.stray env.stray)
  else do
    let size ← ceilDivide amountOfBytes d.sectorSize
    let bgdBlock := if blocksize = 1024 then 2 else 1
    let bgdPos ← divide (bgdBlock * blocksize % word) d.sectorSize
    if !env.bgd.read then return .stray env.stray
    return .table (d.readTo env.bgd.heap bgdPos size) (size * d.sectorSize)

end ImageEnv

namespace LoadedSuper
variable (u : LoadedSuper)

def blocksCount : ℕ := get 4 u.es 4
def blocksPerGroup : ℕ := get 4 u.es 32
def inodesPerGroup : ℕ := get 4 u.es 40
def inodeSize : ℕ := get 2 u.es 88

/-- The superblock as the functions on inodes see it, with the descriptors at `table`. -/
def superblock (table : Bytes) : Superblock :=
  { dev := u.dev, blocksize := u.blocksize, rootNode := u.rootNode, inodesPerGroup := u.inodesPerGroup,
    inodeSize := u.inodeSize, inodeTable := fun g => get 4 table (32 * g + 8) }

/-- `ext2_read_inode`; its result is not looked at. -/
def readInode (env : ImageEnv) (d : BlockDevice) (n : VfsInode) : Except Fault VfsInode :=
  match n.u, env.inode.memory with
  | .null, false => .ok n
  | _, _ => do
      let n := match n.u with
        | .null => n.setRaw env.inode.heap
        | _ => n
      let _ ← divide (wsub n.ino 1) u.inodesPerGroup
      match u.groupDesc.memory with
      | none => .error .nullPointer
      | some table => do
          let addr := (u.superblock table).recordAddr n.ino
          let sectorPos ← divide addr d.sectorSize
          if !env.inode.read then return n
          let buff : Bytes := copy d.sectorSize env.stack 0 d.bytes (sectorPos * d.sectorSize)
          return n.load u.dev (copy 256 (fun _ => 0) 0 buff (addr % d.sectorSize))

/-- The end of `inode_get` and of `inode_get_empty`, for the slot that they have found. -/
def readSlot (env : ImageEnv) (d : BlockDevice) (c : InodeCache) (i : ℕ) (n : VfsInode) :
    Except Fault (Option ℕ × InodeCache) :=
  if isSock n.mode then .ok (some i, c.setSlot i n)
  else (u.readInode env d n).map fun n => (some i, c.setSlot i n)

def inodeGetEmpty (env : ImageEnv) (d : BlockDevice) (c : InodeCache) (sb ino : ℕ) :
    Except Fault (Option ℕ × InodeCache) :=
  match (List.range maxInodes).find? fun i => (c.slots i).count = 0 with
  | none => .ok (none, c)
  | some i => u.readSlot env d c i { c.slots i with sb := some sb, ino := ino, count := 1 }

def inodeGet (env : ImageEnv) (d : BlockDevice) (c : InodeCache) (sb ino : ℕ) :
    Except Fault (Option ℕ × InodeCache) :=
  match c.find sb ino with
  | some i => u.readSlot env d c i { c.slots i with count := (c.slots i).count + 1 }
  | none => u.inodeGetEmpty env d c sb ino

end LoadedSuper

namespace ImageEnv
variable (env : ImageEnv)

/-- The superblock as the device has it. -/
def esRead (d : BlockDevice) : Bytes :=
  d.readTo env.es.heap (1024 / d.sectorSize) (ceilDiv 1024 d.sectorSize)

/-- `ext2_superblock_read` from the store to `s_blocksize` on. -/
def fillSuper (c : InodeCache) (sb dev : ℕ) (d : BlockDevice) (es : Bytes) :
    Except Fault (Option LoadedSuper × InodeCache) := do
  let blocksize ← shiftKilo (get 4 es 24)
  let groupsCount ← ceilDivide (get 4 es 4) (get 4 es 32)
  let groupDesc ← env.bgdRead d blocksize groupsCount
  let u : LoadedSuper :=
    { dev := dev, blocksize := blocksize, es := es, groupsCount := groupsCount, groupDesc := groupDesc
      rootNode := none }
  let (r, c) ← u.inodeGet env d c sb ext2RootIno
  match r with
  | none => .error .nullPointer
  | some i => .ok (some { u with rootNode := some i }, c.setSlot i { c.slots i with sb := some sb })

/-- `ext2_superblock_read` of the superblock `sb` for the device `dev`. -/
def superblockRead (c : InodeCache) (sb dev : ℕ) : Except Fault (Option LoadedSuper × InodeCache) :=
  match env.dev with
  | none => .ok (none, c)
  | some d =>
      if !kmallocs env.es.memory 1024 then .ok (none, c)
      else do
        let count ← ceilDivide 1024 d.sectorSize
        let startPos ← divide 1024 d.sectorSize
        if !env.es.read then return (none, c)
        let es := d.readTo env.es.heap startPos count
        if get 2 es 56 ≠ ext2Magic then return (none, c)
        env.fillSuper c sb dev d es

/-! ## What a mount relies on -/

end ImageEnv

/-- The geometry can be computed with, the table is from the device and the root is a directory. -/
structure LoadedSuper.Valid (u : LoadedSuper) (d : BlockDevice) (c : InodeCache) : Prop where
  blocksize : d.sectorSize ∣ u.blocksize
  counts : u.blocksPerGroup ≠ 0 ∧ u.inodesPerGroup ≠ 0 ∧ u.inodeSize ≠ 0
  groups : ∃ memory size start, u.groupDesc = .table memory size ∧ 32 * u.groupsCount ≤ size ∧
    ∀ k < size, memory k = d.bytes (start * d.sectorSize + k)
  root : ∃ i, u.rootNode = some i ∧ isDir (c.slots i).mode = true

/-- No fault, and no superblock or a valid one. -/
def Delivers (dev : Option BlockDevice) : Except Fault (Option LoadedSuper × InodeCache) → Prop
  | .error _ => False
  | .ok (none, _) => True
  | .ok (some u, c) => ∃ d, dev = some d ∧ u.Valid d c

/-- The slot of the root: one that holds it, or the first that is free. -/
def InodeCache.rootSlot (c : InodeCache) (sb : ℕ) : Option ℕ :=
  (c.find sb ext2RootIno).or ((List.range maxInodes).find? fun i => (c.slots i).count = 0)

namespace ImageEnv
variable (env : ImageEnv)

/-- There is no device, no memory, or no superblock of this kind on the device. -/
def Refuses : Prop :=
  env.dev = none ∨ ∃ d, env.dev = some d ∧ (env.es.memory = false ∨
    d.sectorSize ≠ 0 ∧ (env.es.read = false ∨ get 2 (env.esRead d) 56 ≠ ext2Magic))

/-- The table of the groups on the device. -/
def imageTable (d : BlockDevice) (blocksize groupsCount : ℕ) : Bytes :=
  d.readTo env.bgd.heap ((if blocksize = 1024 then 2 else 1) * blocksize % word / d.sectorSize)
    (ceilDiv (groupsCount * 32 % word) d.sectorSize)

/-- The superblock that the device describes. -/
def imageSuper (d : BlockDevice) (dev : ℕ) : LoadedSuper :=
  let es := env.esRead d
  let blocksize := 1024 * 2 ^ get 4 es 24 % word
  let groupsCount := ceilDiv (get 4 es 4) (get 4 es 32)
  { dev := dev, blocksize := blocksize, es := es, groupsCount := groupsCount, rootNode := none
    groupDesc := .table (env.imageTable d blocksize groupsCount)
      (ceilDiv (groupsCount * 32 % word) d.sectorSize * d.sectorSize) }

/-- The mode of the root: that of its record, or the one that the slot had before if the record
cannot be read. -/
def rootMode (d : BlockDevice) (dev : ℕ) (n : VfsInode) : ℕ :=
  let u := env.imageSuper d dev
  if env.inode.read && (env.inode.memory || match n.u with | .null => false | _ => true) then
    let table := env.imageTable d u.blocksize u.groupsCount
    let addr := (u.superblock table).recordAddr ext2RootIno
    let buff : Bytes := copy d.sectorSize env.stack 0 d.bytes (addr / d.sectorSize * d.sectorSize)
    get 2 (copy 256 (fun _ => 0) 0 buff (addr % d.sectorSize)) 0
  else n.mode

/-- The device describes a file system that can be mounted, and everything is read from it. -/
structure Accepts (c : InodeCache) (sb dev : ℕ) (d : BlockDevice) : Prop where
  memory : env.es.memory = true ∧ env.bgd.memory = true
  read : env.es.read = true ∧ env.bgd.read = true
  sector : d.sectorSize ≠ 0
  magic : get 2 (env.esRead d) 56 = ext2Magic
  shift : get 4 (env.esRead d) 24 < 32
  blocksize : d.sectorSize ∣ (env.imageSuper d dev).blocksize
  counts : (env.imageSuper d dev).blocksPerGroup ≠ 0 ∧ (env.imageSuper d dev).inodesPerGroup ≠ 0 ∧
    (env.imageSuper d dev).inodeSize ≠ 0
  groups : (env.imageSuper d dev).groupsCount ≠ 0 ∧ 32 * (env.imageSuper d dev).groupsCount < 16384 ∧
    32 * (env.imageSuper d dev).groupsCount + d.sectorSize ≤ word
  root : ∃ i, c.rootSlot sb = some i ∧ isSock (c.slots i).mode = false ∧
    isDir (env.rootMode d dev (c.slots i)) = true

end ImageEnv

variable {env : ImageEnv} {u : LoadedSuper} {d : BlockDevice} {c : InodeCache} {sb dev : ℕ}

/-! ## The calls -/

theorem divide_of_ne {a b : ℕ} (h : b ≠ 0) : divide a b = .ok (a / b) := if_neg h

theorem ceilDivide_of_ne {a b : ℕ} (h : b ≠ 0) : ceilDivide a b = .ok (ceilDiv a b) := if_neg h

namespace ImageEnv

theorem bgdRead_eq {blocksize n : ℕ} (hd : d.sectorSize ≠ 0) : env.bgdRead d blocksize n =
    .ok (if kmallocs env.bgd.memory (n * 32 % word) && env.bgd.read then
      .table (env.imageTable d blocksize n) (ceilDiv (n * 32 % word) d.sectorSize * d.sectorSize)
    else .stray env.stray) := by
  unfold bgdRead
  simp only [ceilDivide_of_ne hd, divide_of_ne hd]
  cases kmallocs env.bgd.memory (n * 32 % word) <;> cases env.bgd.read <;> rfl

/-- What is read of the table is on the device. -/
theorem imageTable_read (env : ImageEnv) (d : BlockDevice) (blocksize n : ℕ) :
    ∃ start, ∀ k < ceilDiv (n * 32 % word) d.sectorSize * d.sectorSize,
      env.imageTable d blocksize n k = d.bytes (start * d.sectorSize + k) := by
  refine ⟨(if blocksize = 1024 then 2 else 1) * blocksize % word / d.sectorSize, fun k hk => ?_⟩
  have hcopy := @copy_add _ 0 ((if blocksize = 1024 then 2 else 1) * blocksize % word / d.sectorSize *
    d.sectorSize) env.bgd.heap d.bytes k hk
  rwa [Nat.zero_add] at hcopy

end ImageEnv

/-! ## The table -/

/-- All descriptors are read exactly if there are some and `kmalloc` takes their size. -/
theorem table_fits_iff {g sectorSize : ℕ} (hs : sectorSize ≠ 0) :
    (g * 32 % word ≠ 0 ∧ g * 32 % word < 16384) ∧
        32 * g ≤ ceilDiv (g * 32 % word) sectorSize * sectorSize ↔
      g ≠ 0 ∧ 32 * g < 16384 ∧ 32 * g + sectorSize ≤ word := by
  have hword : word = 4294967296 := rfl
  constructor
  · rintro ⟨⟨hne, hlt⟩, hle⟩
    have hround := Nat.div_mul_le_self ((g * 32 % word + sectorSize - 1) % word) sectorSize
    have hmod : (g * 32 % word + sectorSize - 1) % word < word := Nat.mod_lt _ (by decide)
    unfold ceilDiv at hle
    have hg : g * 32 % word = g * 32 := Nat.mod_eq_of_lt (by omega)
    rw [hg] at hne hlt hle hround
    refine ⟨by omega, by omega, ?_⟩
    by_contra hbig
    -- The sum wraps, and what is left is less than a sector.
    have hsmall : sectorSize ≤ (g * 32 + sectorSize - 1) % word := by
      by_contra hless
      rw [Nat.div_eq_of_lt (not_le.mp hless)] at hle
      omega
    rw [hword] at hsmall hbig hmod
    omega
  · rintro ⟨hne, hlt, hle⟩
    have hg : g * 32 % word = g * 32 := Nat.mod_eq_of_lt (by omega)
    rw [hg, ceilDiv, Nat.mod_eq_of_lt (by omega)]
    refine ⟨⟨by omega, by omega⟩, ?_⟩
    have hlt' := Nat.lt_div_mul_add (a := g * 32 + sectorSize - 1) (Nat.pos_of_ne_zero hs)
    omega

/-! ## The root -/

namespace LoadedSuper

/-- `inode_get` reads the inode into its slot. -/
theorem inodeGet_none (h : c.rootSlot sb = none) :
    u.inodeGet env d c sb ext2RootIno = .ok (none, c) := by
  unfold InodeCache.rootSlot at h
  obtain ⟨hfind, hfree⟩ := Option.or_eq_none_iff.mp h
  unfold inodeGet inodeGetEmpty
  rw [hfind]
  dsimp only
  rw [hfree]

theorem inodeGet_some {i : ℕ} (h : c.rootSlot sb = some i) : ∃ n : VfsInode, n.ino = ext2RootIno ∧
    n.mode = (c.slots i).mode ∧ n.u = (c.slots i).u ∧
    u.inodeGet env d c sb ext2RootIno = u.readSlot env d c i n := by
  unfold InodeCache.rootSlot at h
  unfold inodeGet inodeGetEmpty
  cases hfind : c.find sb ext2RootIno with
  | some j =>
      rw [hfind] at h
      cases h
      have hino := List.find?_some hfind
      simp only [decide_eq_true_eq] at hino
      dsimp only
      exact ⟨{ c.slots i with count := (c.slots i).count + 1 }, hino.2, rfl, rfl, rfl⟩
  | none =>
      rw [hfind] at h
      dsimp only
      rw [Option.none_or] at h
      rw [h]
      exact ⟨{ c.slots i with sb := some sb, ino := ext2RootIno, count := 1 }, rfl, rfl, rfl, rfl⟩

/-- Through a table that is read, `ext2_read_inode` has no fault. -/
theorem readInode_mode {n : VfsInode} (hd : d.sectorSize ≠ 0)
    (hcounts : (env.imageSuper d dev).inodesPerGroup ≠ 0) (hino : n.ino = ext2RootIno) :
    ∃ m, (env.imageSuper d dev).readInode env d n = .ok m ∧ m.mode = env.rootMode d dev n := by
  have hloaded (u : LoadedSuper) (node : Bytes) (n' : VfsInode) : (n'.load u.dev node).mode
      = get 2 node 0 := rfl
  have hset (raw : Bytes) : (n.setRaw raw).ino = ext2RootIno := hino
  unfold readInode ImageEnv.rootMode
  simp only [divide_of_ne hcounts, divide_of_ne hd]
  rw [show (env.imageSuper d dev).groupDesc.memory = some (env.imageTable d
    (env.imageSuper d dev).blocksize (env.imageSuper d dev).groupsCount) from rfl]
  cases hu : n.u <;> cases hmemory : env.inode.memory <;> cases hread : env.inode.read
  all_goals simp only [hset, hino]
  all_goals refine ⟨_, rfl, ?_⟩
  -- The mode is that of the record where there is one, and the old one elsewhere.
  all_goals first
    | rw [hloaded, if_pos (by decide)]
    | rw [if_neg (by decide)]
  all_goals rfl

end LoadedSuper

/-! ## The superblock -/

/-- A superblock that is not valid with any root is not delivered. -/
theorem not_delivers (h : ∀ r c', ¬ { u with rootNode := r }.Valid d c') (hdev : env.dev = some d) :
    ¬ Delivers env.dev ((u.inodeGet env d c sb ext2RootIno).bind fun x => match x.1 with
      | none => .error .nullPointer
      | some i => .ok (some { u with rootNode := some i },
          x.2.setSlot i { x.2.slots i with sb := some sb })) := by
  intro hdel
  cases hget : u.inodeGet env d c sb ext2RootIno with
  | error e =>
      rw [hget] at hdel
      exact hdel
  | ok x =>
      obtain ⟨r, c'⟩ := x
      rw [hget] at hdel
      cases r with
      | none => exact hdel
      | some i =>
          obtain ⟨d', hd', hvalid⟩ := hdel
          cases hdev.symm.trans hd'
          exact h _ _ hvalid

/-- With the table of the device the root decides. -/
theorem image_delivers_iff (hdev : env.dev = some d) (hd : d.sectorSize ≠ 0)
    (hvalid : ∀ r c', (∃ i, r = some i ∧ isDir (c'.slots i).mode = true) →
      { env.imageSuper d dev with rootNode := r }.Valid d c')
    (hcounts : (env.imageSuper d dev).inodesPerGroup ≠ 0) :
    Delivers env.dev (((env.imageSuper d dev).inodeGet env d c sb ext2RootIno).bind fun x => match x.1 with
        | none => .error .nullPointer
        | some i => .ok (some { env.imageSuper d dev with rootNode := some i },
            x.2.setSlot i { x.2.slots i with sb := some sb })) ↔
      ∃ i, c.rootSlot sb = some i ∧ isSock (c.slots i).mode = false ∧
        isDir (env.rootMode d dev (c.slots i)) = true := by
  cases hslot : c.rootSlot sb with
  | none =>
      rw [LoadedSuper.inodeGet_none hslot]
      exact iff_of_false (fun h => h) (by rintro ⟨i, hi, -⟩; cases hi)
  | some i =>
      obtain ⟨n, hino, hmode, hu, hget⟩ :=
        @LoadedSuper.inodeGet_some env (env.imageSuper d dev) d c sb i hslot
      rw [hget]
      have hroot : env.rootMode d dev n = env.rootMode d dev (c.slots i) := by
        unfold ImageEnv.rootMode
        rw [hmode, hu]
      -- The store to the superblock of the root leaves its mode.
      have hdelivers (m : VfsInode) : Delivers env.dev
          (.ok (some { env.imageSuper d dev with rootNode := some i },
          (c.setSlot i m).setSlot i { (c.setSlot i m).slots i with sb := some sb })) ↔
            isDir m.mode = true := by
        constructor
        · rintro ⟨d', -, h⟩
          obtain ⟨j, hj, hdir⟩ := h.root
          cases hj
          simpa [InodeCache.setSlot] using hdir
        · intro hdir
          exact ⟨d, hdev, hvalid _ _ ⟨i, rfl, by simpa [InodeCache.setSlot] using hdir⟩⟩
      unfold LoadedSuper.readSlot
      split_ifs with hsock
      · refine (hdelivers n).trans (iff_of_false ?_ ?_)
        · intro hdir
          simp only [isDir, isSock, decide_eq_true_eq] at hdir hsock
          rw [hsock] at hdir
          cases hdir
        · rintro ⟨j, hj, hno, -⟩
          cases hj
          rw [← hmode, hsock] at hno
          cases hno
      · obtain ⟨m, hm, hmmode⟩ := @LoadedSuper.readInode_mode env d dev n hd hcounts hino
        rw [hm]
        refine (hdelivers m).trans ?_
        rw [hmmode, hroot]
        constructor
        · intro hdir
          exact ⟨i, rfl, by rw [← hmode]; simpa using hsock, hdir⟩
        · rintro ⟨j, hj, -, hdir⟩
          cases hj
          exact hdir

theorem fillSuper_delivers_iff (hdev : env.dev = some d) (hd : d.sectorSize ≠ 0)
    (hmemory : env.es.memory = true) (hread : env.es.read = true)
    (hmagic : get 2 (env.esRead d) 56 = ext2Magic) :
    Delivers env.dev (env.fillSuper c sb dev d (env.esRead d)) ↔ env.Accepts c sb dev d := by
  unfold ImageEnv.fillSuper
  by_cases hshift : get 4 (env.esRead d) 24 < 32
  · by_cases hbpg : get 4 (env.esRead d) 32 = 0
    · rw [shiftKilo, if_neg (by omega), ceilDivide, if_pos hbpg]
      exact iff_of_false (fun h => h) fun h => h.counts.1 hbpg
    · rw [shiftKilo, if_neg (by omega), ceilDivide_of_ne hbpg]
      simp only [bind, Except.bind, ImageEnv.bgdRead_eq hd]
      have hfits := @table_fits_iff (env.imageSuper d dev).groupsCount d.sectorSize hd
      cases hgroup : kmallocs env.bgd.memory
          (ceilDiv (get 4 (env.esRead d) 4) (get 4 (env.esRead d) 32) * 32 % word) && env.bgd.read with
      | false =>
          refine iff_of_false (not_delivers (u := { env.imageSuper d dev with groupDesc := .stray env.stray })
            (fun r c' h => ?_) hdev) fun h => ?_
          · obtain ⟨memory, size, start, hdesc, -⟩ := h.groups
            cases hdesc
          · have hsize := (hfits.mpr h.groups).1
            have hmem : kmallocs env.bgd.memory ((env.imageSuper d dev).groupsCount * 32 % word) = true := by
              simp [kmallocs, hsize.1, hsize.2, h.memory.2]
            rw [h.read.2, Bool.and_true] at hgroup
            exact Bool.false_ne_true (hgroup.symm.trans hmem)
      | true =>
          obtain ⟨hmem, hbgd⟩ := Bool.and_eq_true_iff.mp hgroup
          simp only [kmallocs, Bool.and_eq_true, decide_eq_true_eq] at hmem
          by_cases hgeo : d.sectorSize ∣ (env.imageSuper d dev).blocksize ∧
            (env.imageSuper d dev).inodesPerGroup ≠ 0 ∧ (env.imageSuper d dev).inodeSize ≠ 0 ∧
            32 * (env.imageSuper d dev).groupsCount ≤
              ceilDiv ((env.imageSuper d dev).groupsCount * 32 % word) d.sectorSize * d.sectorSize
          · obtain ⟨hblock, hipg, hsize, hle⟩ := hgeo
            refine (image_delivers_iff hdev hd (fun r c' hr => ?_) hipg).trans ?_
            · obtain ⟨start, hstart⟩ := env.imageTable_read d (env.imageSuper d dev).blocksize
                (env.imageSuper d dev).groupsCount
              exact ⟨hblock, ⟨hbpg, hipg, hsize⟩, ⟨_, _, start, rfl, hle, hstart⟩, hr⟩
            · constructor
              · intro hroot
                exact ⟨⟨hmemory, hmem.2⟩, ⟨hread, hbgd⟩, hd, hmagic, hshift, hblock, ⟨hbpg, hipg, hsize⟩,
                  hfits.mp ⟨hmem.1, hle⟩, hroot⟩
              · intro h
                exact h.root
          · refine iff_of_false (not_delivers (u := env.imageSuper d dev) (fun r c' h => ?_) hdev) fun h => ?_
            · obtain ⟨memory, size, start, hdesc, hle, -⟩ := h.groups
              cases hdesc
              exact hgeo ⟨h.blocksize, h.counts.2.1, h.counts.2.2, hle⟩
            · exact hgeo ⟨h.blocksize, h.counts.2.1, h.counts.2.2, (hfits.mpr h.groups).2⟩
  · rw [shiftKilo, if_pos (by omega)]
    exact iff_of_false (fun h => h) fun h => hshift h.shift

/-- `ext2_superblock_read` returns `NULL` or a valid superblock exactly if it can tell that there
is none, or if the device describes one and everything but the root can be read. -/
theorem superblock_validated_iff (env : ImageEnv) (c : InodeCache) (sb dev : ℕ) :
    Delivers env.dev (env.superblockRead c sb dev) ↔
      env.Refuses ∨ ∃ d, env.dev = some d ∧ env.Accepts c sb dev d := by
  unfold ImageEnv.superblockRead ImageEnv.Refuses
  cases hdev : env.dev with
  | none => exact iff_of_true trivial (.inl (.inl rfl))
  | some d =>
      dsimp only
      cases hmemory : env.es.memory with
      | false => exact iff_of_true trivial (.inl (.inr ⟨d, rfl, .inl rfl⟩))
      | true =>
          rw [show (!kmallocs true 1024) = false from rfl]
          simp only [Bool.false_eq_true, if_false]
          by_cases hd : d.sectorSize = 0
          · rw [ceilDivide, if_pos hd]
            refine iff_of_false (fun h => h) ?_
            rintro ((h | ⟨d', hd', h | h⟩) | ⟨d', hd', h⟩)
            · cases h
            · cases h
            · cases hd'
              exact h.1 hd
            · cases hd'
              exact h.sector hd
          · rw [ceilDivide_of_ne hd, divide_of_ne hd]
            cases hread : env.es.read with
            | false => exact iff_of_true trivial (.inl (.inr ⟨d, rfl, .inr ⟨hd, .inl rfl⟩⟩))
            | true =>
                by_cases hmagic : get 2 (env.esRead d) 56 = ext2Magic
                · have hfill := @fillSuper_delivers_iff env d c sb dev hdev hd hmemory hread hmagic
                  simp only [bind, Except.bind, Bool.not_true, Bool.false_eq_true, if_false]
                  rw [show d.readTo env.es.heap (1024 / d.sectorSize) (ceilDiv 1024 d.sectorSize) =
                    env.esRead d from rfl, if_neg (not_not_intro hmagic), ← hdev]
                  refine hfill.trans ⟨fun h => .inr ⟨d, hdev, h⟩, ?_⟩
                  rintro ((h | ⟨d', hd', h | ⟨-, h | h⟩⟩) | ⟨d', hd', h⟩)
                  · cases hdev.symm.trans h
                  · cases h
                  · cases h
                  · cases hdev.symm.trans hd'
                    exact absurd hmagic h
                  · cases hdev.symm.trans hd'
                    exact h
                · simp only [bind, Except.bind, Bool.not_true, Bool.false_eq_true, if_false]
                  rw [show d.readTo env.es.heap (1024 / d.sectorSize) (ceilDiv 1024 d.sectorSize) =
                    env.esRead d from rfl, if_pos hmagic]
                  exact iff_of_true trivial (.inl (.inr ⟨d, rfl, .inr ⟨hd, .inr hmagic⟩⟩))

/-! ## A small image -/

/-- One group of 64 blocks, with 16 inodes of 128 bytes from block 5 on. -/
def smallImage : Bytes :=
  let es := put 2 (put 2 (put 4 (put 4 (put 4 (fun _ => 0) 1028 64) 1056 8192) 1064 16) 1080 ext2Magic) 1112 128
  put 2 (put 4 es 2056 5) (5 * 1024 + 128) 0o040755

/-- The device answers, up to the table of the groups. -/
def smallEnv (table : Bool) : ImageEnv :=
  { dev := some ⟨512, smallImage⟩, es := ⟨true, fun _ => 0, true⟩, bgd := ⟨true, fun _ => 0, table⟩
    inode := ⟨true, fun _ => 0, true⟩, stack := fun _ => 0, stray := none }

def bootCache : InodeCache :=
  { slots := fun _ => .zero, supers := fun _ => ⟨0, 0, none, 0, 0, fun _ => 0⟩
    devices := fun _ => ⟨512, smallImage⟩, nullReads := 0 }

example : (smallEnv true).Accepts bootCache 10 3 ⟨512, smallImage⟩ where
  memory := ⟨rfl, rfl⟩
  read := ⟨rfl, rfl⟩
  sector := by decide
  magic := by decide
  shift := by decide
  blocksize := by decide
  counts := by decide
  groups := by decide
  root := ⟨0, by decide, by decide, by decide⟩

/-- The read of the table fails, and the superblock points nowhere. -/
theorem table_unread_fault : (smallEnv false).superblockRead bootCache 10 3 = .error .nullPointer := by
  have hfault : (match (smallEnv false).superblockRead bootCache 10 3 with
      | .error e => decide (e = .nullPointer)
      | .ok _ => false) = true := by
    decide
  cases hread : (smallEnv false).superblockRead bootCache 10 3 with
  | error e =>
      rw [hread] at hfault
      rw [of_decide_eq_true hfault]
  | ok x =>
      rw [hread] at hfault
      cases hfault

theorem not_superblock_validated_unread : ¬ ∀ (env : ImageEnv) (c : InodeCache) (sb dev : ℕ),
    Delivers env.dev (env.superblockRead c sb dev) := by
  intro hclaim
  have hdelivers := hclaim (smallEnv false) bootCache 10 3
  rw [table_unread_fault] at hdelivers
  exact hdelivers

end Ferrite.Fs
