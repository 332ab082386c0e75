import Ferrite.Fs.InodeCache

/-!
# What `inode_get` returns

A slot that `inode_get` returns should mirror the inode on the device, whatever
the slot held before. Whether the device is read at all is decided by the mode
that is left in the slot, so this needs that no free slot was a socket; and a
socket has no superblock, so the last `inode_put` of one reads through `NULL`.

The addresses are computed in `u32`, and the record must lie in one sector. The
operations are stored for directories, regular files and character devices only.
-/
namespace Ferrite.Fs
open Packed Runs Word

/-- The byte at which an inode record starts on the device. -/
def Superblock.recordOffset (sb : Superblock) (ino : ℕ) : ℕ :=
  sb.inodeTable ((ino - 1) / sb.inodesPerGroup) * sb.blocksize +
    (ino - 1) % sb.inodesPerGroup * sb.inodeSize

/-- The fields of an inode are those of the record at `loc`. -/
structure VfsInode.Mirrors (n : VfsInode) (bytes : Bytes) (loc : ℕ) : Prop where
  mode : n.mode = get 2 bytes loc
  uid : n.uid = get 2 bytes (loc + 2)
  size : n.size = get 4 bytes (loc + 4)
  atime : n.atime = get 4 bytes (loc + 8)
  ctime : n.ctime = get 4 bytes (loc + 12)
  mtime : n.mtime = get 4 bytes (loc + 16)
  gid : n.gid = get 2 bytes (loc + 24)
  links : n.links = get 2 bytes (loc + 26)
  op : n.op = opsFor (get 2 bytes loc)
  blocks : ∃ node, n.u = .ext2 node ∧
    ∀ j < 15, get 4 node (40 + 4 * j) = get 4 bytes (loc + (40 + 4 * j))

namespace InodeCache
variable {s t : InodeCache} {i sb ino : ℕ} {env : ReadEnv}

/-- The slot `i` is the inode `ino` of `sb`, as it is on the device. -/
def Faithful (s : InodeCache) (i sb ino : ℕ) : Prop :=
  (s.slots i).sb = some sb ∧ (s.slots i).ino = ino ∧
    (s.slots i).Mirrors (s.devices (s.supers sb).dev).bytes ((s.supers sb).recordOffset ino)

/-- The record of a valid inode number lies below 4 GiB, within a sector, and is
of a type that has operations. -/
structure Readable (s : InodeCache) (sb ino : ℕ) : Prop where
  pos : 1 ≤ ino
  lt : ino < word
  below : (s.supers sb).recordOffset ino < word
  inSector : (s.supers sb).recordOffset ino % (s.devices (s.supers sb).dev).sectorSize + 128 ≤
    (s.devices (s.supers sb).dev).sectorSize
  typed : (opsFor (get 2 (s.devices (s.supers sb).dev).bytes ((s.supers sb).recordOffset ino))).isSome

/-- The first free slot. -/
def free (s : InodeCache) : Option ℕ :=
  (List.range maxInodes).find? fun i => (s.slots i).count = 0

/-- What is read into the slot is there to be read, and there is memory for it. -/
def Loads (s : InodeCache) (sb ino : ℕ) (env : ReadEnv) (slot : Option ℕ) : Prop :=
  ∀ i ∈ slot, Readable s sb ino ∧ ((s.slots i).u = .null → env.mem = true)

/-! ## Reading a record -/

theorem Readable.recordAddr (h : Readable s sb ino) :
    (s.supers sb).recordAddr ino = (s.supers sb).recordOffset ino := by
  have hb := h.below
  have hpred : wsub ino 1 = ino - 1 := wsub_of_le h.pos h.lt
  unfold Superblock.recordOffset at hb ⊢
  unfold Superblock.recordAddr
  rw [hpred]
  simp only
  rw [Nat.mod_eq_of_lt (by omega), Nat.mod_eq_of_lt (by omega), wadd_of_lt hb]

/-- A field of the copy is the field on the device. -/
theorem Readable.get_readRecord (h : Readable s sb ino) {m q : ℕ} (hq : q + m ≤ 128)
    (stack : Bytes) : get m (s.readRecord (s.supers sb) ino stack) q =
      get m (s.devices (s.supers sb).dev).bytes ((s.supers sb).recordOffset ino + q) := by
  have hs := h.inSector
  set loc := (s.supers sb).recordOffset ino
  set d := s.devices (s.supers sb).dev
  have hloc := Nat.div_add_mod' loc d.sectorSize
  apply get_shift
  intro j hj
  have hcopy := @copy_add 256 0 (loc % d.sectorSize) (fun _ => 0)
    (copy d.sectorSize stack 0 d.bytes (loc / d.sectorSize * d.sectorSize)) (q + j) (by omega)
  have hbuff := @copy_add d.sectorSize 0 (loc / d.sectorSize * d.sectorSize) stack d.bytes
    (loc % d.sectorSize + (q + j)) (by omega)
  rw [Nat.zero_add] at hcopy hbuff
  rw [readRecord, h.recordAddr, hcopy, hbuff]
  congr 1
  omega

/-- Reading a record makes a slot mirror it. -/
theorem Readable.mirrors_load (h : Readable s sb ino) (n : VfsInode) (stack : Bytes) :
    (n.load (s.supers sb).dev (s.readRecord (s.supers sb) ino stack)).Mirrors
      (s.devices (s.supers sb).dev).bytes ((s.supers sb).recordOffset ino) := by
  have hmode := h.get_readRecord (m := 2) (q := 0) (by omega) stack
  rw [Nat.add_zero] at hmode
  obtain ⟨op, hop⟩ := Option.isSome_iff_exists.mp h.typed
  refine ⟨hmode, h.get_readRecord (by omega) stack, h.get_readRecord (by omega) stack,
    h.get_readRecord (by omega) stack, h.get_readRecord (by omega) stack,
    h.get_readRecord (by omega) stack, h.get_readRecord (by omega) stack,
    h.get_readRecord (by omega) stack, ?_, _, rfl, fun j hj => h.get_readRecord (by omega) stack⟩
  simp only [VfsInode.load, hmode, hop, Option.some_or]

@[simp] theorem setSlot_self (s : InodeCache) (i : ℕ) (n : VfsInode) :
    (s.setSlot i n).slots i = n := by simp [setSlot]
theorem setSlot_of_ne {j : ℕ} {n : VfsInode} (h : j ≠ i) : (s.setSlot i n).slots j = s.slots j := by
  simp [setSlot, h]

/-- A slot of a superblock is read, if there is memory for the copy. -/
theorem readInode_eq (hsb : (s.slots i).sb = some sb) (hmem : (s.slots i).u = .null → env.mem = true) :
    s.readInode i env = s.setSlot i ((s.slots i).load (s.supers sb).dev
      (s.readRecord (s.supers sb) (s.slots i).ino env.stack)) := by
  unfold readInode
  rw [hsb]
  cases hu : (s.slots i).u with
  | null => simp only [hmem hu]
  | ext2 node => rfl
  | socket k => rfl

/-- The slot `i` after its fields have been set and the record has been read. -/
theorem Readable.faithful {n : VfsInode} (h : Readable s sb ino) (hsb : n.sb = some sb)
    (hino : n.ino = ino) (hmem : n.u = .null → env.mem = true) :
    ((s.setSlot i n).readInode i env).Faithful i sb ino := by
  have hread := @readInode_eq (s.setSlot i n) i sb env (by rwa [setSlot_self]) (by rwa [setSlot_self])
  have hr : Readable (s.setSlot i n) sb ino := ⟨h.pos, h.lt, h.below, h.inSector, h.typed⟩
  rw [hread]
  unfold Faithful
  rw [setSlot_self, setSlot_self, hino]
  exact ⟨hsb, hino, hr.mirrors_load n env.stack⟩

/-! ## Histories -/

/-- Only a live inode without a superblock is a socket. -/
def NoStaleSocket (s : InodeCache) : Prop :=
  ∀ i, isSock (s.slots i).mode = true → (s.slots i).count ≠ 0 ∧ (s.slots i).sb = none

theorem not_isSock_of_opsFor {mode : ℕ} (h : (opsFor mode).isSome) : isSock mode = false := by
  unfold opsFor isDir isReg isChr at h
  unfold isSock
  split_ifs at h with h₁ h₂ h₃
  · rw [of_decide_eq_true h₁]
    rfl
  · rw [of_decide_eq_true h₂]
    rfl
  · rw [of_decide_eq_true h₃]
    rfl
  · cases h

theorem Readable.not_isSock {n : VfsInode} (h : Readable s sb ino) (stack : Bytes) :
    isSock (n.load (s.supers sb).dev (s.readRecord (s.supers sb) ino stack)).mode = false := by
  have := not_isSock_of_opsFor h.typed
  rwa [← (h.mirrors_load n stack).mode] at this

/-- One slot changes. -/
theorem NoStaleSocket.setSlot {n : VfsInode} (h : NoStaleSocket s)
    (hn : isSock n.mode = true → n.count ≠ 0 ∧ n.sb = none) : NoStaleSocket (s.setSlot i n) := by
  intro j hj
  by_cases hji : j = i
  · subst hji
    rw [setSlot_self] at hj ⊢
    exact hn hj
  · rw [setSlot_of_ne hji] at hj ⊢
    exact h j hj

theorem NoStaleSocket.readInode {n : VfsInode} (h : NoStaleSocket s) (hr : Readable s sb ino)
    (hsb : n.sb = some sb) (hino : n.ino = ino) (hmem : n.u = .null → env.mem = true) :
    NoStaleSocket ((s.setSlot i n).readInode i env) := by
  have hread := @readInode_eq (s.setSlot i n) i sb env (by rwa [setSlot_self]) (by rwa [setSlot_self])
  have hr' : Readable (s.setSlot i n) sb ino := ⟨hr.pos, hr.lt, hr.below, hr.inSector, hr.typed⟩
  rw [hread, setSlot_self, hino]
  intro j hj
  by_cases hji : j = i
  · subst hji
    rw [setSlot_self] at hj
    have := hr'.not_isSock (n := n) env.stack
    rw [this] at hj
    cases hj
  · rw [setSlot_of_ne hji, setSlot_of_ne hji] at hj ⊢
    exact h j hj

theorem free_count (h : s.free = some i) : (s.slots i).count = 0 := by
  simpa using List.find?_some h

theorem find_spec (h : s.find sb ino = some i) :
    (s.slots i).sb = some sb ∧ (s.slots i).ino = ino := by
  simpa using List.find?_some h

/-- A free slot is taken for an inode of a superblock. -/
theorem NoStaleSocket.getEmpty (h : NoStaleSocket s) (hl : Loads s sb ino env s.free)
    {r : Option ℕ} (hs : s.inodeGetEmpty (some sb) ino env = (r, t)) :
    NoStaleSocket t ∧ ∀ i ∈ r, t.Faithful i sb ino := by
  unfold inodeGetEmpty at hs
  rw [show ((List.range maxInodes).find? fun i => (s.slots i).count = 0) = s.free from rfl] at hs
  cases hfree : s.free with
  | none =>
      rw [hfree] at hs
      cases hs
      exact ⟨h, fun i hi => by cases hi⟩
  | some i =>
      have ⟨hr, hmem⟩ := hl i hfree
      have hnot : isSock (s.slots i).mode = false := by
        by_contra hsock
        exact (h i (by simpa using hsock)).1 (free_count hfree)
      rw [hfree] at hs
      simp only [hnot, Option.isSome_some, Bool.not_false, Bool.and_self, if_true, Prod.mk.injEq] at hs
      obtain ⟨rfl, rfl⟩ := hs
      refine ⟨h.readInode hr rfl rfl hmem, fun j hj => ?_⟩
      cases hj
      exact hr.faithful rfl rfl hmem

theorem NoStaleSocket.get (h : NoStaleSocket s)
    (hl : Loads s sb ino env ((s.find sb ino).or s.free)) {r : Option ℕ}
    (hs : s.inodeGet sb ino env = (r, t)) : NoStaleSocket t ∧ ∀ i ∈ r, t.Faithful i sb ino := by
  unfold inodeGet at hs
  cases hfind : s.find sb ino with
  | none =>
      rw [hfind] at hs hl
      exact h.getEmpty hl hs
  | some i =>
      rw [hfind] at hs hl
      have ⟨hr, hmem⟩ := hl i rfl
      have ⟨hsb, hino⟩ := find_spec hfind
      have hnot : isSock (s.slots i).mode = false := by
        by_contra hsock
        have := (h i (by simpa using hsock)).2
        rw [hsb] at this
        cases this
      simp only [hnot, Bool.not_false, if_true, Prod.mk.injEq] at hs
      obtain ⟨rfl, rfl⟩ := hs
      refine ⟨h.readInode hr hsb hino hmem, fun j hj => ?_⟩
      cases hj
      exact hr.faithful hsb hino hmem

/-- A free slot is taken without a superblock. -/
theorem NoStaleSocket.getBare (h : NoStaleSocket s) {r : Option ℕ}
    (hs : s.inodeGetEmpty none ino env = (r, t)) :
    NoStaleSocket t ∧ ∀ i ∈ r, (t.slots i).count = 1 ∧ (t.slots i).sb = none := by
  unfold inodeGetEmpty at hs
  rw [show ((List.range maxInodes).find? fun i => (s.slots i).count = 0) = s.free from rfl] at hs
  cases hfree : s.free with
  | none =>
      rw [hfree] at hs
      cases hs
      exact ⟨h, fun i hi => by cases hi⟩
  | some i =>
      rw [hfree] at hs
      simp only [Option.isSome_none, Bool.false_and, Bool.false_eq_true, if_false, Prod.mk.injEq] at hs
      obtain ⟨rfl, rfl⟩ := hs
      refine ⟨h.setSlot fun _ => ⟨by simp, rfl⟩, fun j hj => ?_⟩
      cases hj
      rw [setSlot_self]
      exact ⟨rfl, rfl⟩

theorem NoStaleSocket.socket {sock now uid gid : ℕ} (h : NoStaleSocket s) :
    NoStaleSocket (s.allocSocket sock now uid gid env).2 := by
  unfold allocSocket
  cases hget : s.inodeGetEmpty none 0 env with
  | mk r t =>
      have ⟨ht, hslot⟩ := h.getBare hget
      cases r with
      | none => exact ht
      | some i =>
          have ⟨hcount, hsb⟩ := hslot i rfl
          exact ht.setSlot fun _ => ⟨by simp [hcount], hsb⟩

/-- A put that does not give the last reference to an inode without a superblock back. -/
theorem NoStaleSocket.put (h : NoStaleSocket s)
    (hl : (s.slots i).count = 1 → (s.slots i).sb ≠ none) (hs : s.inodePut i = some t) :
    NoStaleSocket t ∧ t.nullReads = s.nullReads := by
  unfold inodePut at hs
  simp only at hs
  split_ifs at hs with h₀ h₁
  · cases hs
    exact ⟨h, rfl⟩
  · obtain ⟨b, hb⟩ := Option.ne_none_iff_exists'.mp (hl h₁)
    rw [hb] at hs
    simp only at hs
    split_ifs at hs with hroot
    cases hs
    refine ⟨h.setSlot fun hsock => ?_, rfl⟩
    have := (h i hsock).2
    rw [hb] at this
    cases this
  · cases hs
    refine ⟨h.setSlot fun hsock => ⟨?_, (h i hsock).2⟩, rfl⟩
    simp only
    bv_omega

end InodeCache

variable {s t u : InodeCache} {e : CacheCall}

/-- What `inode_get` returns is faithful, and `inode_put` does not read through `NULL`. -/
def CallFaithful (s : InodeCache) : CacheCall → Prop
  | .get sb ino env => ∀ i t, s.inodeGet sb ino env = (some i, t) → t.Faithful i sb ino
  | .put i => ∀ t, s.inodePut i = some t → t.nullReads = s.nullReads
  | _ => True

/-- What is read is there to be read, and the last reference to a socket is not put. -/
def Sound (s : InodeCache) : CacheCall → Prop
  | .get sb ino env => s.Loads sb ino env ((s.find sb ino).or s.free)
  | .getEmpty (some sb) ino env => s.Loads sb ino env s.free
  | .put i => (s.slots i).count = 1 → (s.slots i).sb ≠ none
  | _ => True

theorem InodeCache.NoStaleSocket.call (h : s.NoStaleSocket) (hc : Sound s e)
    (hs : CacheStep s e t) : t.NoStaleSocket ∧ CallFaithful s e := by
  unfold CacheStep InodeCache.call at hs
  cases e with
  | get sb ino env =>
      cases hs
      refine ⟨(h.get hc rfl).1, fun i t hget => ?_⟩
      exact (h.get hc hget).2 i rfl
  | getEmpty sb ino env =>
      cases hs
      cases sb with
      | none => exact ⟨(h.getBare rfl).1, trivial⟩
      | some sb => exact ⟨(h.getEmpty hc rfl).1, trivial⟩
  | socket sock now uid gid env =>
      cases hs
      exact ⟨h.socket, trivial⟩
  | put i =>
      refine ⟨(h.put hc hs).1, fun t' ht' => ?_⟩
      exact (h.put hc ht').2
  | disk supers devices =>
      cases hs
      exact ⟨h, trivial⟩

theorem InodeCache.Cold.noStaleSocket (h : s.Cold) : s.NoStaleSocket := by
  intro i hi
  rw [h i] at hi
  exact absurd hi (by decide)

/-- In every run whose steps are sound every lookup is faithful, and nothing is
read through `NULL`. -/
theorem lookup_faithful {tr : List (InodeCache × CacheCall)} (hs : s.Cold)
    (h : Trace CacheStep s tr u) (hc : ∀ x ∈ tr, Sound x.1 x.2) :
    ∀ x ∈ tr, CallFaithful x.1 x.2 :=
  (h.throughout_and_of (fun _ _ _ hs hc hst => hs.call hc hst) hs.noStaleSocket hc).2

/-! ## A small file system -/

/-- One group of sixteen inodes in the block 5 of a device, on which the inode 2
is a directory and the inode 11 a file of 300 bytes. -/
def smallSuper : Superblock :=
  { dev := 0, blocksize := 1024, rootNode := none, inodesPerGroup := 16, inodeSize := 128
    inodeTable := fun _ => 5 }

def smallDevice : BlockDevice :=
  { sectorSize := 512
    bytes := put 4 (put 2 (put 2 (fun _ => 0) (5 * 1024 + 128) 0o040755) (5 * 1024 + 10 * 128) 0o100644)
      (5 * 1024 + 10 * 128 + 4) 300 }

def coldCache : InodeCache :=
  { slots := fun _ => .zero, supers := fun _ => smallSuper, devices := fun _ => smallDevice
    nullReads := 0 }

def someMemory : ReadEnv := { mem := true, stack := fun _ => 0 }

theorem coldCache_cold : coldCache.Cold := fun _ => rfl

/-- The root and the file are looked up; the file is put and looked up again. -/
def lookups : List CacheCall :=
  [.get 0 2 someMemory, .get 0 11 someMemory, .put 1, .get 0 11 someMemory]

instance (s : InodeCache) (sb ino : ℕ) : Decidable (s.Readable sb ino) :=
  decidable_of_iff (1 ≤ ino ∧ ino < word ∧ (s.supers sb).recordOffset ino < word ∧
    (s.supers sb).recordOffset ino % (s.devices (s.supers sb).dev).sectorSize + 128 ≤
      (s.devices (s.supers sb).dev).sectorSize ∧
    (opsFor (get 2 (s.devices (s.supers sb).dev).bytes ((s.supers sb).recordOffset ino))).isSome)
    ⟨fun h => ⟨h.1, h.2.1, h.2.2.1, h.2.2.2.1, h.2.2.2.2⟩,
      fun h => ⟨h.pos, h.lt, h.below, h.inSector, h.typed⟩⟩

theorem lookup_faithful_file : ∃ (u : InodeCache) (tr : List (InodeCache × CacheCall)),
    Trace CacheStep coldCache tr u ∧ (u.slots 1).size = 300 ∧
      ∀ x ∈ tr, CallFaithful x.1 x.2 := by
  have hrun : ((exec InodeCache.call coldCache lookups).any fun u => (u.slots 1).size = 300) = true := by
    decide
  have hsound : ((history InodeCache.call coldCache lookups).all fun x =>
      match x.2 with
      | .get sb ino _ => decide (x.1.Readable sb ino)
      | .put i => (x.1.slots i).sb.isSome
      | _ => true) = true := by
    decide
  obtain ⟨u, hu, hsize⟩ := (Option.any_eq_true _ _).mp hrun
  have htr : Trace CacheStep coldCache _ u := exec_trace hu
  refine ⟨u, _, htr, of_decide_eq_true hsize,
    lookup_faithful coldCache_cold htr fun x hx => ?_⟩
  have hmem := mem_history hx
  have hx := List.all_eq_true.mp hsound x hx
  simp only [lookups, List.mem_cons, List.not_mem_nil, or_false] at hmem
  rcases hmem with he | he | he | he <;> rw [he] at hx ⊢
  · exact fun i _ => ⟨of_decide_eq_true hx, fun _ => rfl⟩
  · exact fun i _ => ⟨of_decide_eq_true hx, fun _ => rfl⟩
  · exact fun _ => Option.isSome_iff_ne_none.mp hx
  · exact fun i _ => ⟨of_decide_eq_true hx, fun _ => rfl⟩

/-- A socket is closed, and its slot taken for the root directory. -/
theorem not_lookup_faithful_socket : ¬ ∀ (s u : InodeCache) (tr : List (InodeCache × CacheCall)),
    s.Cold → Trace CacheStep s tr u → ∀ x ∈ tr, CallFaithful x.1 x.2 := by
  intro hclaim
  have hrun : ((exec InodeCache.call coldCache [.socket 0 0 0 0 someMemory, .put 0]).any fun s =>
      let r := s.inodeGet 0 2 someMemory
      r.1 = some 0 && (r.2.slots 0).mode ≠ get 2 (r.2.devices (r.2.supers 0).dev).bytes
        ((r.2.supers 0).recordOffset 2)) = true := by
    decide
  obtain ⟨s, hs, hstale⟩ := (Option.any_eq_true _ _).mp hrun
  simp only [Bool.and_eq_true, decide_eq_true_eq] at hstale
  have hget : CacheStep s (.get 0 2 someMemory) (s.inodeGet 0 2 someMemory).2 := rfl
  have htr := (exec_trace hs).append (.single hget)
  have hfaithful := hclaim _ _ _ coldCache_cold htr (s, .get 0 2 someMemory)
    (List.mem_append_right _ List.mem_cons_self)
  exact hstale.2 (hfaithful 0 _ (Prod.ext hstale.1 rfl)).2.2.mode

end Ferrite.Fs
