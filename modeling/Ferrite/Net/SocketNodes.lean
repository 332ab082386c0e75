import Ferrite.Fs.AllocAtomic
import Ferrite.Fs.InodeSlots
import Ferrite.Net.Unix

/-!
# Sockets behind inodes

What `unix_connect` finds behind the inode of a path: the slots of the inode cache, whose union
`u` holds a socket or the copy of an inode on disk, and the sockets. `unix_bind` stores its
socket in the slot of the inode that it creates. `inode_get` leaves a slot alone whose mode is
the one of a socket, and reads the inode from disk into every other.

The steps of a lookup are calls of `inode_get` and `inode_put`; the last one is part of the
connect. The writes of a bind to the disk, like all others, are changes of the devices.
-/
namespace Ferrite.Net
open Fs Runs Word

/-- `socket_t` with `path` of its data, of which it matters whether it is empty. The code keeps
no record of the last two: the inode that was made for the socket when it was bound, and whether
`socket_release` has run. -/
structure SocketNode where
  state : SocketState
  conn : Option ℕ
  named : Bool
  inode : Option ℕ
  node : Option (ℕ × ℕ)
  released : Bool

structure SocketNodes where
  cache : InodeCache
  sockets : ℕ → Option SocketNode

/-- What `unix_bind` meets after the lookups: the file system of the parent, what `ext2_create`
returns once it has its inode, and whether there is memory to register the socket. -/
structure BindEnv where
  fault : Option Transfer
  fs : Ext2
  sb : ℕ
  now : ℕ
  env : ReadEnv
  mem : Bool
  stored : ℤ
  registered : Bool

namespace SocketNodes
variable (s : SocketNodes)

def setCache (cache : InodeCache) : SocketNodes := { s with cache := cache }
def setSocket (k : ℕ) (sock : SocketNode) : SocketNodes :=
  { s with sockets := Function.update s.sockets k (some sock) }

/-- `socket_create` with the address of the new socket, and what `fd_alloc` returns. A socket
without an inode is freed, and an inode without a descriptor is put. `sys_accept` makes the
socket of a connection in the same way. -/
def socketCreate (k now uid gid : ℕ) (env : ReadEnv) (fd : Bool) : Option SocketNodes :=
  match s.cache.allocSocket k now uid gid env with
  | (none, cache) => some (s.setCache cache)
  | (some i, cache) =>
      let t := (s.setCache cache).setSocket k ⟨.unconnected, none, false, some i, none, false⟩
      if fd then some t else (cache.inodePut i).map t.setCache

/-- What `unix_bind` does with the socket after `create`; `inode` is `sock_inode`. -/
def nameSocket (k : ℕ) (sock : SocketNode) (inode : Option ℕ) (registered : Bool) : ℤ × SocketNodes :=
  let node := inode.bind fun i => (s.cache.slots i).sb.map fun sb => (sb, (s.cache.slots i).ino)
  let cache := inode.elim s.cache fun i => s.cache.setSlot i { s.cache.slots i with u := .socket k }
  let t := (s.setCache cache).setSocket k { sock with named := registered, inode := inode, node := node }
  (if registered then 0 else -1, t)

/-- `unix_bind` from the call of `create` on. `ext2_create` negates the error of
`ext2_write_entry`, which then does not count as one; `sock_inode` is `NULL`. -/
def unixBind (k : ℕ) (b : BindEnv) : Option (ℤ × SocketNodes) := do
  let sock ← s.sockets k
  if sock.named then return (-einval, s)
  else
    match ← s.cache.ext2NewInode b.fault b.fs b.sb (sIfsock ||| 0o666) b.now b.env b.mem with
    | (none, err, _, cache) =>
        if err.getD 0 < 0 then return (err.getD 0, s.setCache cache)
        else return (s.setCache cache).nameSocket k sock none b.registered
    | (some i, _, _, cache) =>
        if b.stored = 0 then return (s.setCache cache).nameSocket k sock (some i) b.registered
        else
          let cache ← cache.inodePut i
          if b.stored < 0 then return (b.stored, s.setCache cache)
          else return (s.setCache cache).nameSocket k sock none b.registered

/-- `unix_connect` from the last step of the lookup on. What is no socket has no fields. -/
def unixConnect (k sb ino : ℕ) (env : ReadEnv) : Option (ℤ × SocketNodes) := do
  match s.cache.inodeGet sb ino env with
  | (none, cache) => return (-2, s.setCache cache)
  | (some i, cache) =>
      let s := s.setCache cache
      if !isSock (cache.slots i).mode then
        let cache ← cache.inodePut i
        return (-111, s.setCache cache)
      else
        match (cache.slots i).u with
        | .socket server => do
            let server' ← s.sockets server
            if server'.conn.isSome then return (-1, s)
            else
              let sock ← s.sockets k
              let s := s.setSocket k { sock with conn := some server }
              let server' ← s.sockets server
              let s := s.setSocket server { server' with conn := some k }
              let sock ← s.sockets k
              return (0, s.setSocket k { sock with state := .connecting })
        | _ => none

/-- `socket_release` for the socket of a file. -/
def socketRelease (k : ℕ) : Option SocketNodes := do
  let sock ← s.sockets k
  return s.setSocket k { sock with state := .disconnecting, conn := none, named := false, released := true }

/-- What the other functions do to a socket: its state and its peer. -/
def traffic (k : ℕ) (state : SocketState) (conn : Option ℕ) : Option SocketNodes := do
  let sock ← s.sockets k
  return s.setSocket k { sock with state := state, conn := conn }

end SocketNodes

/-! ## Calls -/

inductive NodeCall
  | get (sb ino : ℕ) (env : ReadEnv)
  | put (i : ℕ)
  | newInode (fault : Option Transfer) (fs : Ext2) (sb mode now : ℕ) (env : ReadEnv) (mem : Bool)
  | disk (supers : ℕ → Superblock) (devices : ℕ → BlockDevice)
  | socket (k now uid gid : ℕ) (env : ReadEnv) (fd : Bool)
  | bind (k : ℕ) (b : BindEnv)
  | connect (k sb ino : ℕ) (env : ReadEnv)
  | release (k : ℕ)
  | traffic (k : ℕ) (state : SocketState) (conn : Option ℕ)

def SocketNodes.call (s : SocketNodes) : NodeCall → Option SocketNodes
  | .get sb ino env => some (s.setCache (s.cache.inodeGet sb ino env).2)
  | .put i => (s.cache.inodePut i).map s.setCache
  | .newInode fault fs sb mode now env mem =>
      (s.cache.ext2NewInode fault fs sb mode now env mem).map fun r => s.setCache r.2.2.2
  | .disk supers devices => some (s.setCache { s.cache with supers := supers, devices := devices })
  | .socket k now uid gid env fd => s.socketCreate k now uid gid env fd
  | .bind k b => (s.unixBind k b).map Prod.snd
  | .connect k sb ino env => (s.unixConnect k sb ino env).map Prod.snd
  | .release k => s.socketRelease k
  | .traffic k state conn => s.traffic k state conn

/-- `kmalloc` returns nothing that is allocated, and the callers of `create`, `mkdir` and
`mknod` other than `unix_bind` pass a mode that is none of a socket. -/
def NodeStep (s : SocketNodes) (e : NodeCall) (t : SocketNodes) : Prop :=
  (∀ k now uid gid env fd, e = .socket k now uid gid env fd → s.sockets k = none) ∧
    (∀ fault fs sb mode now env mem, e = .newInode fault fs sb mode now env mem →
      isSock (mode % 2 ^ 16) = false) ∧
    s.call e = some t

/-- At boot the cache is empty and there is no socket; the disk is arbitrary. -/
def SocketNodes.Boot (s : SocketNodes) : Prop := s.cache.Cold ∧ ∀ k, s.sockets k = none

/-! ## What is behind an inode -/

/-- The socket is bound to the inode `ino` of `sb` in the slot `i`, and has not been released. -/
structure SocketNode.Serves (sock : SocketNode) (i sb ino : ℕ) : Prop where
  named : sock.named = true
  inode : sock.inode = some i
  node : sock.node = some (sb, ino)
  live : sock.released = false

/-- Behind the inode in slot `i` there is a socket that is bound to it. -/
def BoundBy (sockets : ℕ → Option SocketNode) (i : ℕ) (n : VfsInode) : Prop :=
  ∃ k sock sb, n.u = .socket k ∧ sockets k = some sock ∧ n.sb = some sb ∧ sock.Serves i sb n.ino

/-- An inode that a lookup can find is no socket, or has its socket behind it. -/
def SlotServed (sockets : ℕ → Option SocketNode) (i : ℕ) (n : VfsInode) : Prop :=
  n.sb ≠ none → isSock n.mode = true → BoundBy sockets i n

namespace SocketNodes
variable (s : SocketNodes)

def Served : Prop := ∀ i, SlotServed s.sockets i (s.cache.slots i)

/-- What a connect takes for the server is a socket that is bound to the inode. -/
def ConnectBound (sb ino : ℕ) (env : ReadEnv) : Prop :=
  ∀ i cache, s.cache.inodeGet sb ino env = (some i, cache) → isSock (cache.slots i).mode = true →
    BoundBy s.sockets i (cache.slots i)

/-- The record of an inode on disk is none of a socket, if it is read into the slot `i`. -/
def PlainRecord (i sb ino : ℕ) (env : ReadEnv) : Prop :=
  ((s.cache.slots i).u = .null → env.mem = true) →
    isSock (Packed.get 2 (s.cache.readRecord (s.cache.supers sb) ino env.stack) 0) = false

/-- The lookup finds the inode as a socket in the cache, or reads a record that is none of a
socket into a slot that was none either. -/
def SafeLookup (sb ino : ℕ) (env : ReadEnv) : Prop :=
  match s.cache.find sb ino with
  | some i => isSock (s.cache.slots i).mode = true ∨ s.PlainRecord i sb ino env
  | none => ∀ i ∈ s.cache.free,
      if isSock (s.cache.slots i).mode then
        BoundBy s.sockets i { s.cache.slots i with sb := some sb, ino := ino, count := 1 }
      else s.PlainRecord i sb ino env

/-- What `ext2_new_inode` gets from the bitmaps: the number of the inode, and the file system. -/
def newNumber (fault : Option Transfer) (fs : Ext2) (mode : ℕ) : Option (ℕ × Ext2) :=
  match fs.take fault .inodes (ceilDiv fs.inodesCount fs.inodesPerGroup) (if isDir mode then 1 else 0)
    (some (-eio)) with
  | (.inl (g, k), fs) => some (wadd (wadd k (fs.inodesPerGroup * g % word)) 1, fs)
  | _ => none

/-- The cache when `ext2_new_inode` looks the new number up. -/
def onDevice (sb : ℕ) (fs : Ext2) : SocketNodes := s.setCache (s.cache.onDevice sb fs)

/-- An inode that is given back without memory for its copy was not in the cache, or its lookup
is safe. -/
def SafeNew (fault : Option Transfer) (fs : Ext2) (sb mode : ℕ) (env : ReadEnv) (mem : Bool) : Prop :=
  mem = true ∨ ∀ r ∈ newNumber fault fs mode,
    (s.onDevice sb r.2).cache.find sb r.1 = none ∨ (s.onDevice sb r.2).SafeLookup sb r.1 env

end SocketNodes

/-- The steps that leave its socket behind every inode: lookups are safe, a bind succeeds, for a
socket that has not been released, or its inode leaves the cache again, and no socket is released
while an inode has it. -/
def CallServed (s : SocketNodes) : NodeCall → Prop
  | .get sb ino env | .connect _ sb ino env => s.SafeLookup sb ino env
  | .newInode fault fs sb mode _ env mem => s.SafeNew fault fs sb mode env mem
  | .bind k b => ∀ sock ∈ s.sockets k, sock.named = false →
      s.SafeNew b.fault b.fs b.sb (sIfsock ||| 0o666) b.env b.mem ∧
        if b.stored = 0 then sock.released = false ∧ b.registered = true
        else ∀ r ∈ SocketNodes.newNumber b.fault b.fs (sIfsock ||| 0o666),
          (s.onDevice b.sb r.2).cache.find b.sb r.1 = none
  | .release k => ∀ i, (s.cache.slots i).sb ≠ none → isSock (s.cache.slots i).mode = true →
      (s.cache.slots i).u ≠ .socket k
  | _ => True

namespace SocketNodes
variable {s t : SocketNodes} {c : InodeCache} {i k sb ino : ℕ} {env : ReadEnv} {n : VfsInode}
variable {sockets sockets' : ℕ → Option SocketNode}

/-! ## Slots -/

theorem slotServed_of_plain (h : isSock n.mode = false) : SlotServed sockets i n := by
  intro _ hsock
  rw [h] at hsock
  cases hsock

theorem slotServed_of_bare (h : n.sb = none) : SlotServed sockets i n := fun hsb => absurd h hsb

/-- A change of the count changes nothing behind the inode. -/
theorem SlotServed.count {count : BitVec 16} (h : SlotServed sockets i n) :
    SlotServed sockets i { n with count := count } := h

/-- The sockets that serve an inode are kept. -/
theorem SlotServed.mono (h : SlotServed sockets i n)
    (hkeep : ∀ k sock, n.u = .socket k → sockets k = some sock → sock.named = true → ∃ sock',
    sockets' k = some sock' ∧
      sock'.named = sock.named ∧ sock'.inode = sock.inode ∧ sock'.node = sock.node ∧
        sock'.released = sock.released) :
    SlotServed sockets' i n := by
  intro hsb hsock
  obtain ⟨k, sock, sb, hu, hk, hsb, hserves⟩ := h hsb hsock
  obtain ⟨sock', hk', hnamed, hinode, hnode, hlive⟩ := hkeep k sock hu hk hserves.named
  refine ⟨k, sock', sb, hu, hk', hsb, ?_⟩
  constructor
  · rw [hnamed, hserves.named]
  · rw [hinode, hserves.inode]
  · rw [hnode, hserves.node]
  · rw [hlive, hserves.live]

theorem Served.setSlot (h : s.Served) (hn : SlotServed s.sockets i n) :
    (s.setCache (s.cache.setSlot i n)).Served := by
  intro j
  by_cases hji : j = i
  · subst hji
    exact (InodeCache.setSlot_self s.cache j n).symm ▸ hn
  · have hslot : (s.cache.setSlot i n).slots j = s.cache.slots j := InodeCache.setSlot_of_ne hji
    exact hslot.symm ▸ h j

/-- A slot that is no socket is read again. -/
theorem Served.readInode (h : s.Served) (hplain : isSock n.mode = false)
    (hrecord : ∀ sb, n.sb = some sb → (n.u = .null → env.mem = true) →
      isSock (Packed.get 2 (s.cache.readRecord (s.cache.supers sb) n.ino env.stack) 0) = false) :
    (s.setCache ((s.cache.setSlot i n).readInode i env)).Served := by
  have hset : (s.setCache (s.cache.setSlot i n)).Served := h.setSlot (slotServed_of_plain hplain)
  unfold InodeCache.readInode
  rw [InodeCache.setSlot_self]
  split
  · rename_i b hsb hu hmem
    exact hset.setSlot (slotServed_of_plain (hrecord b hsb fun _ => hmem))
  · rename_i b record hsb hu
    exact hset.setSlot (slotServed_of_plain (hrecord b hsb fun hnull => by simp [hu] at hnull))
  · rename_i b sock hsb hu
    exact hset.setSlot (slotServed_of_plain (hrecord b hsb fun hnull => by simp [hu] at hnull))
  · exact hset

/-! ## Lookups -/

theorem inodeGet_found (hfind : c.find sb ino = some i) : c.inodeGet sb ino env =
    (some i, if isSock (c.slots i).mode then c.setSlot i { c.slots i with count := (c.slots i).count + 1 }
      else (c.setSlot i { c.slots i with count := (c.slots i).count + 1 }).readInode i env) := by
  unfold InodeCache.inodeGet
  rw [hfind]
  simp only
  cases isSock (c.slots i).mode <;> rfl

theorem inodeGet_free (hfind : c.find sb ino = none) (hfree : c.free = some i) : c.inodeGet sb ino env =
    (some i, if isSock (c.slots i).mode then c.setSlot i
      { c.slots i with sb := some sb, ino := ino, count := 1 }
      else (c.setSlot i { c.slots i with sb := some sb, ino := ino, count := 1 }).readInode i env) := by
  unfold InodeCache.inodeGet InodeCache.inodeGetEmpty
  unfold InodeCache.free at hfree
  rw [hfind, hfree]
  simp only [Option.isSome_some, Bool.true_and]
  cases isSock (c.slots i).mode <;> rfl

theorem inodeGet_full (hfind : c.find sb ino = none) (hfree : c.free = none) :
    c.inodeGet sb ino env = (none, c) := by
  unfold InodeCache.inodeGet InodeCache.inodeGetEmpty
  unfold InodeCache.free at hfree
  rw [hfind, hfree]

/-- A safe lookup leaves its socket behind every inode. -/
theorem Served.get (h : s.Served) (hsafe : s.SafeLookup sb ino env) :
    (s.setCache (s.cache.inodeGet sb ino env).2).Served := by
  unfold SafeLookup at hsafe
  cases hfind : s.cache.find sb ino with
  | some i =>
      rw [hfind] at hsafe
      have hslot := InodeCache.find_spec hfind
      rw [inodeGet_found hfind]
      split_ifs with hsock
      · exact h.setSlot (SlotServed.count (h i))
      · have hplain : isSock
            (VfsInode.mode { s.cache.slots i with count := (s.cache.slots i).count + 1 }) = false :=
          Bool.eq_false_iff.mpr hsock
        apply h.readInode hplain
        intro b hb hmem
        have hb' : sb = b := Option.some_inj.mp (hslot.1.symm.trans hb)
        rw [← hb', hslot.2]
        exact (hsafe.resolve_left hsock) hmem
  | none =>
      rw [hfind] at hsafe
      cases hfree : s.cache.free with
      | none =>
          rw [inodeGet_full hfind hfree]
          exact h
      | some i =>
          have hsafe := hsafe i hfree
          rw [inodeGet_free hfind hfree]
          split_ifs at hsafe ⊢ with hsock
          · exact h.setSlot fun _ _ => hsafe
          · have hplain : isSock
                (VfsInode.mode { s.cache.slots i with sb := some sb, ino := ino, count := 1 }) = false :=
              Bool.eq_false_iff.mpr hsock
            apply h.readInode hplain
            intro b hb hmem
            obtain rfl := Option.some_inj.mp hb
            exact hsafe hmem

/-- A record that is read leaves no socket behind the inode. -/
theorem plain_of_bound (hsb : n.sb = some sb) (hmem : n.u = .null → env.mem = true)
    (hbound : isSock (((c.setSlot i n).readInode i env).slots i).mode = true →
      BoundBy sockets i (((c.setSlot i n).readInode i env).slots i)) :
    isSock (Packed.get 2 (c.readRecord (c.supers sb) n.ino env.stack) 0) = false := by
  have hself : (c.setSlot i n).slots i = n := InodeCache.setSlot_self c i n
  have hread := @InodeCache.readInode_eq (c.setSlot i n) i sb env (hself.symm ▸ hsb) (hself.symm ▸ hmem)
  rw [hread, InodeCache.setSlot_self, hself] at hbound
  by_contra hsock
  obtain ⟨k, sock, b, hu, -⟩ := hbound (Bool.eq_true_of_not_eq_false hsock)
  cases hu

/-- A connect takes a bound socket for the server exactly when its lookup is safe. -/
theorem Served.connectBound_iff (h : s.Served) : s.ConnectBound sb ino env ↔ s.SafeLookup sb ino env := by
  constructor
  · intro hbound
    unfold SafeLookup
    cases hfind : s.cache.find sb ino with
    | some i =>
        have hslot := InodeCache.find_spec hfind
        have hget := @inodeGet_found s.cache i sb ino env hfind
        cases hsock : isSock (s.cache.slots i).mode with
        | true => exact Or.inl hsock
        | false =>
            rw [hsock] at hget
            right
            intro hmem
            have hplain := plain_of_bound (n := { s.cache.slots i with count := (s.cache.slots i).count + 1 })
              hslot.1 hmem (hbound i _ hget)
            rwa [hslot.2] at hplain
    | none =>
        intro i hfree
        have hget := @inodeGet_free s.cache i sb ino env hfind hfree
        cases hsock : isSock (s.cache.slots i).mode with
        | true =>
            rw [hsock] at hget
            have hserved := hbound i _ hget
            simp only [if_true, InodeCache.setSlot_self] at hserved
            exact hserved hsock
        | false =>
            rw [hsock] at hget
            intro hmem
            exact plain_of_bound (n := { s.cache.slots i with sb := some sb, ino := ino, count := 1 }) rfl hmem
              (hbound i _ hget)
  · intro hsafe i cache hget hsock
    have hserved := h.get hsafe
    rw [hget] at hserved
    have hsb := (InodeCache.inodeGet_slot hget).1
    exact hserved i (by simp [setCache, hsb]) hsock

/-! ## The other calls on inodes -/

theorem Served.put (h : s.Served) (hput : s.cache.inodePut i = some c) : (s.setCache c).Served := by
  unfold InodeCache.inodePut at hput
  simp only at hput
  split_ifs at hput with hzero hone
  · cases hput
    exact h
  · have hclear : (s.setCache
        (s.cache.setSlot i { s.cache.slots i with count := 0, sb := none, ino := 0 })).Served :=
      h.setSlot (slotServed_of_bare rfl)
    split at hput
    · cases hput
      exact hclear
    · split_ifs at hput
      cases hput
      exact hclear
  · cases hput
    exact h.setSlot (SlotServed.count (h i))

/-- The slot of a new socket has no superblock. -/
theorem Served.allocSocket {now uid gid : ℕ} (h : s.Served) :
    (s.setCache (s.cache.allocSocket k now uid gid env).2).Served ∧
      ∀ i, (s.cache.allocSocket k now uid gid env).1 = some i →
        ((s.cache.allocSocket k now uid gid env).2.slots i).sb = none := by
  unfold InodeCache.allocSocket InodeCache.inodeGetEmpty
  cases hfree : (List.range maxInodes).find? fun i => (s.cache.slots i).count = 0 with
  | none =>
      refine ⟨h, ?_⟩
      intro r hr
      cases hr
  | some i =>
      have hbare : (s.setCache
          (s.cache.setSlot i { s.cache.slots i with sb := none, ino := 0, count := 1 })).Served :=
        h.setSlot (slotServed_of_bare rfl)
      simp only [Option.isSome_none, Bool.false_and, Bool.false_eq_true, if_false]
      constructor
      · apply hbare.setSlot
        apply slotServed_of_bare
        simp
      · rintro j ⟨⟩
        simp

/-- What `ext2_new_inode` does to the cache. -/
theorem ext2NewInode_cases {fault : Option Transfer} {fs fs' : Ext2} {mode now : ℕ} {mem : Bool} {r : Option ℕ}
    {err : Option ℤ} {d : InodeCache}
    (h : c.ext2NewInode fault fs sb mode now env mem = some (r, err, fs', d)) :
    (r = none ∧ ∃ fs₁, d = c.onDevice sb fs₁) ∨ ∃ num fs₁, newNumber fault fs mode = some (num, fs₁) ∧
      ((r = none ∧ (c.onDevice sb fs₁).inodeGet sb num env = (none, d)) ∨
        ∃ i e, (c.onDevice sb fs₁).inodeGet sb num env = (some i, e) ∧
          ((mem = true ∧ r = some i ∧
              d = e.setSlot i { (e.slots i).fresh (e.supers sb).dev num mode now with sb := some sb }) ∨
            (mem = false ∧ r = none ∧ e.inodePut i = some d))) := by
  unfold InodeCache.ext2NewInode at h
  unfold newNumber
  simp only at h
  split at h
  · cases h
    exact Or.inl ⟨rfl, _, rfl⟩
  · rename_i g k fs₁ htake
    right
    rw [htake]
    refine ⟨_, fs₁, rfl, ?_⟩
    split at h
    · rename_i e hget
      cases h
      exact Or.inl ⟨rfl, hget⟩
    · rename_i i e hget
      refine Or.inr ⟨i, e, hget, ?_⟩
      split_ifs at h with hmem
      · cases h
        exact Or.inl ⟨hmem, rfl, rfl⟩
      · obtain ⟨f, hput, hf⟩ := Option.map_eq_some_iff.mp h
        cases hf
        exact Or.inr ⟨Bool.eq_false_iff.mpr hmem, rfl, hput⟩

/-- `inode_get` touches no slot but the one it returns, and takes a free slot with one reference. -/
theorem inodeGet_frame {d : InodeCache} (h : c.inodeGet sb ino env = (some i, d)) :
    (∀ j, j ≠ i → d.slots j = c.slots j) ∧ (c.find sb ino = none → (d.slots i).count = 1) := by
  have hread : ∀ n j, j ≠ i → ((c.setSlot i n).readInode i env).slots j = c.slots j := by
    intro n j hj
    unfold InodeCache.readInode
    split <;> simp [InodeCache.setSlot, hj]
  cases hfind : c.find sb ino with
  | some k =>
      rw [inodeGet_found hfind] at h
      cases h
      constructor
      · intro j hj
        split_ifs
        · exact InodeCache.setSlot_of_ne hj
        · exact hread _ j hj
      · intro hnone
        cases hnone
  | none =>
      cases hfree : c.free with
      | none =>
          rw [inodeGet_full hfind hfree] at h
          cases h
      | some k =>
          rw [inodeGet_free hfind hfree] at h
          cases h
          constructor
          · intro j hj
            split_ifs
            · exact InodeCache.setSlot_of_ne hj
            · exact hread _ j hj
          · intro _
            split_ifs
            · rw [InodeCache.setSlot_self]
            · rw [(InodeCache.readInode_slot _ i env i).2.2, InodeCache.setSlot_self]

/-- The slots are those of a served state but for one, which is served itself. -/
theorem Served.of_frame {d : InodeCache} (h : s.Served) (hframe : ∀ j, j ≠ i → d.slots j = s.cache.slots j)
    (hn : SlotServed s.sockets i (d.slots i)) : (s.setCache d).Served := by
  intro j
  by_cases hji : j = i
  · subst hji
    exact hn
  · exact (hframe j hji).symm ▸ h j

/-- The put of the only reference leaves no inode in the slot. -/
theorem inodePut_last {d : InodeCache} (hcount : (c.slots i).count = 1) (hput : c.inodePut i = some d) :
    (∀ j, j ≠ i → d.slots j = c.slots j) ∧ (d.slots i).sb = none := by
  have hclear : ∀ m, (c.setSlot i m).slots i = m ∧ ∀ j, j ≠ i → (c.setSlot i m).slots j = c.slots j :=
    fun m => ⟨InodeCache.setSlot_self c i m, fun j hj => InodeCache.setSlot_of_ne hj⟩
  unfold InodeCache.inodePut at hput
  simp only at hput
  have hne : ¬ (c.slots i).count = 0 := by
    rw [hcount]
    decide
  rw [if_neg hne, if_pos hcount] at hput
  split at hput
  · cases hput
    exact ⟨(hclear _).2, by rw [(hclear _).1]⟩
  · split_ifs at hput
    cases hput
    exact ⟨(hclear _).2, by rw [(hclear _).1]⟩

/-- An inode that is given back was taken for this call, or its lookup was safe. -/
theorem Served.getPut {d e : InodeCache} (h : s.Served) (hget : s.cache.inodeGet sb ino env = (some i, d))
    (hsafe : s.cache.find sb ino = none ∨ s.SafeLookup sb ino env) (hput : d.inodePut i = some e) :
    (s.setCache e).Served := by
  rcases hsafe with hfind | hsafe
  · obtain ⟨hframe, hcount⟩ := inodeGet_frame hget
    obtain ⟨hframe', hbare⟩ := inodePut_last (hcount hfind) hput
    apply h.of_frame fun j hj => (hframe' j hj).trans (hframe j hj)
    exact slotServed_of_bare hbare
  · have hserved := h.get hsafe
    rw [hget] at hserved
    exact hserved.put hput

theorem inodeGet_none_eq {d : InodeCache} (h : c.inodeGet sb ino env = (none, d)) : d = c := by
  cases hfind : c.find sb ino with
  | some k =>
      rw [inodeGet_found hfind] at h
      cases h
  | none =>
      cases hfree : c.free with
      | none =>
          rw [inodeGet_full hfind hfree] at h
          cases h
          rfl
      | some k =>
          rw [inodeGet_free hfind hfree] at h
          cases h

section
variable {fault : Option Transfer} {fs fs' : Ext2} {mode now : ℕ} {mem : Bool} {err : Option ℤ} {d : InodeCache}

theorem Served.newInode_none (h : s.Served) (hsafe : s.SafeNew fault fs sb mode env mem)
    (hnew : s.cache.ext2NewInode fault fs sb mode now env mem = some (none, err, fs', d)) :
    (s.setCache d).Served := by
  rcases ext2NewInode_cases hnew with ⟨-, fs₁, rfl⟩ | ⟨num, fs₁, hnum, hcases⟩
  · exact h
  · have hdev : (s.onDevice sb fs₁).Served := h
    rcases hcases with ⟨-, hget⟩ | ⟨i, e, hget, ⟨-, hr, -⟩ | ⟨hmem, -, hput⟩⟩
    · have hd := inodeGet_none_eq hget
      exact hd ▸ hdev
    · cases hr
    · have hsafe := hsafe.resolve_left (by simp [hmem]) _ hnum
      exact hdev.getPut hget hsafe hput

/-- The slot of a new inode, with the number that it got. -/
theorem newInode_some (hnew : c.ext2NewInode fault fs sb mode now env mem = some (some i, err, fs', d)) :
    (∀ j, j ≠ i → d.slots j = c.slots j) ∧ (d.slots i).sb = some sb ∧ (d.slots i).mode = mode % 2 ^ 16 ∧
      ∃ r, newNumber fault fs mode = some r ∧
        ((c.onDevice sb r.2).find sb r.1 = none → (d.slots i).count = 1) := by
  rcases ext2NewInode_cases hnew with ⟨hr, -⟩ |
    ⟨num, fs₁, hnum, ⟨hr, -⟩ | ⟨k, e, hget, ⟨-, hr, rfl⟩ | ⟨-, hr, -⟩⟩⟩
  · cases hr
  · cases hr
  · obtain rfl := Option.some_inj.mp hr
    obtain ⟨hframe, hcount⟩ := inodeGet_frame hget
    refine ⟨fun j hj => (InodeCache.setSlot_of_ne hj).trans (hframe j hj), ?_, ?_, _, hnum, ?_⟩
    · rw [InodeCache.setSlot_self]
    · rw [InodeCache.setSlot_self]
      rfl
    · intro hfind
      rw [InodeCache.setSlot_self]
      exact hcount hfind
  · cases hr

end

/-! ## The calls on sockets -/

/-- Sockets that serve no inode may change. -/
theorem Served.setSocket {sock : SocketNode} (h : s.Served)
    (hk : ∀ old, s.sockets k = some old → old.named = true → sock.named = true ∧ sock.inode = old.inode ∧
      sock.node = old.node ∧ sock.released = old.released) : (s.setSocket k sock).Served := by
  intro i
  apply SlotServed.mono (h i)
  intro k' old _ hold hnamed
  unfold SocketNodes.setSocket
  by_cases hkk : k' = k
  · subst hkk
    obtain ⟨h1, h2, h3, h4⟩ := hk old hold hnamed
    exact ⟨sock, Function.update_self .., h1.trans hnamed.symm, h2, h3, h4⟩
  · exact ⟨old, (Function.update_of_ne hkk ..).trans hold, rfl, rfl, rfl, rfl⟩

/-- The state and the peer of a socket may change. -/
theorem Served.touch {sock : SocketNode} {state : SocketState} {conn : Option ℕ} (h : s.Served)
    (hk : s.sockets k = some sock) : (s.setSocket k { sock with state := state, conn := conn }).Served := by
  apply h.setSocket
  intro old hold hnamed
  obtain rfl := Option.some_inj.mp (hk.symm.trans hold)
  exact ⟨hnamed, rfl, rfl, rfl⟩

/-- A socket that is named without an inode serves none. -/
theorem Served.nameSocket_none {sock : SocketNode} {registered : Bool} (h : s.Served)
    (hk : s.sockets k = some sock)
    (hnamed : sock.named = false) : (s.nameSocket k sock none registered).2.Served := by
  apply Served.setSocket (s := s.setCache s.cache) h
  intro old hold hold'
  obtain rfl := Option.some_inj.mp (hk.symm.trans hold)
  rw [hnamed] at hold'
  cases hold'

theorem Served.release (h : s.Served)
    (hfree : ∀ i, (s.cache.slots i).sb ≠ none → isSock (s.cache.slots i).mode = true →
    (s.cache.slots i).u ≠ .socket k) (hrel : s.socketRelease k = some t) : t.Served := by
  obtain ⟨sock, -, ht⟩ := Option.bind_eq_some_iff.mp hrel
  cases ht
  intro i hsb hsock
  obtain ⟨k', old, sb, hu, hold, hslot, hserves⟩ := h i hsb hsock
  have hkk : k' ≠ k := by
    rintro rfl
    exact hfree i hsb hsock hu
  exact ⟨k', old, sb, hu, (Function.update_of_ne hkk ..).trans hold, hslot, hserves⟩

/-- The socket is stored behind the inode that was made for it. -/
theorem Served.nameSocket {d : InodeCache} {sock : SocketNode} (h : s.Served) (hk : s.sockets k = some sock)
    (hnamed : sock.named = false) (hlive : sock.released = false)
    (hframe : ∀ j, j ≠ i → d.slots j = s.cache.slots j) (hsb : (d.slots i).sb = some sb) :
    ((s.setCache d).nameSocket k sock (some i) true).2.Served := by
  intro j
  by_cases hji : j = i
  · subst hji
    intro _ _
    have hslot : (((s.setCache d).nameSocket k sock (some j) true).2.cache.slots j) =
        { d.slots j with u := .socket k } := InodeCache.setSlot_self d j _
    rw [hslot]
    refine ⟨k, _, sb, rfl, Function.update_self .., hsb, ?_⟩
    constructor
    · rfl
    · rfl
    · simp [setCache, hsb]
    · exact hlive
  · have hslot : (((s.setCache d).nameSocket k sock (some i) true).2.cache.slots j) = s.cache.slots j :=
      (InodeCache.setSlot_of_ne hji).trans (hframe j hji)
    rw [hslot]
    apply SlotServed.mono (h j)
    intro k' old _ hold hold'
    have hkk : k' ≠ k := by
      rintro rfl
      rw [Option.some_inj.mp (hk.symm.trans hold)] at hnamed
      rw [hnamed] at hold'
      cases hold'
    exact ⟨old, (Function.update_of_ne hkk ..).trans hold, rfl, rfl, rfl, rfl⟩

theorem Served.bind {b : BindEnv} {err : ℤ} (h : s.Served) (hc : CallServed s (.bind k b))
    (hbind : s.unixBind k b = some (err, t)) : t.Served := by
  obtain ⟨sock, hk, hbind⟩ := Option.bind_eq_some_iff.mp hbind
  cases hnamed : sock.named with
  | true =>
      rw [hnamed] at hbind
      cases hbind
      exact h
  | false =>
      obtain ⟨hsafe, hstored⟩ := hc sock hk hnamed
      rw [hnamed] at hbind
      simp only [Bool.false_eq_true, if_false] at hbind
      obtain ⟨⟨r, err, fs', d⟩, hnew, hbind⟩ := Option.bind_eq_some_iff.mp hbind
      cases r with
      | none =>
          have hd := h.newInode_none hsafe hnew
          simp only at hbind
          split_ifs at hbind
          · cases hbind
            exact hd
          · cases hbind
            exact Served.nameSocket_none hd hk hnamed
      | some i =>
          obtain ⟨hframe, hsb, -, r, hnum, hcount⟩ := newInode_some hnew
          simp only at hbind
          by_cases hzero : b.stored = 0
          · rw [if_pos hzero] at hbind hstored
            cases hbind
            rw [hstored.2]
            exact h.nameSocket hk hnamed hstored.1 hframe hsb
          · -- The inode that was made is put again.
            rw [if_neg hzero] at hbind hstored
            obtain ⟨e, hput, hbind⟩ := Option.bind_eq_some_iff.mp hbind
            obtain ⟨hframe', hbare⟩ := inodePut_last (hcount (hstored r hnum)) hput
            have he : (s.setCache e).Served :=
              h.of_frame (fun j hj => (hframe' j hj).trans (hframe j hj)) (slotServed_of_bare hbare)
            split_ifs at hbind
            · cases hbind
              exact he
            · cases hbind
              exact Served.nameSocket_none he hk hnamed

theorem Served.create {now uid gid : ℕ} {fd : Bool} (h : s.Served) (hk : s.sockets k = none)
    (hcreate : s.socketCreate k now uid gid env fd = some t) : t.Served := by
  obtain ⟨hcache, hbare⟩ := @Served.allocSocket s k env now uid gid h
  unfold SocketNodes.socketCreate at hcreate
  cases halloc : s.cache.allocSocket k now uid gid env with
  | mk r c =>
      rw [halloc] at hcreate hcache hbare
      cases r with
      | none =>
          cases hcreate
          exact hcache
      | some i =>
          have hset : ((s.setCache c).setSocket k ⟨.unconnected, none, false, some i, none, false⟩).Served := by
            apply hcache.setSocket
            intro old hold
            rw [setCache, hk] at hold
            cases hold
          simp only at hcreate
          split_ifs at hcreate
          · cases hcreate
            exact hset
          · obtain ⟨d, hput, rfl⟩ := Option.map_eq_some_iff.mp hcreate
            exact hset.put hput

theorem Served.connect {r : ℤ} (h : s.Served) (hsafe : s.SafeLookup sb ino env)
    (hconnect : s.unixConnect k sb ino env = some (r, t)) : t.Served := by
  have hget := h.get hsafe
  unfold SocketNodes.unixConnect at hconnect
  cases hnode : s.cache.inodeGet sb ino env with
  | mk node c =>
      rw [hnode] at hconnect hget
      cases node with
      | none =>
          cases hconnect
          exact hget
      | some i =>
          simp only at hconnect
          split_ifs at hconnect with hsock
          · obtain ⟨d, hput, ht⟩ := Option.bind_eq_some_iff.mp hconnect
            cases ht
            exact hget.put hput
          · split at hconnect
            · rename_i server _
              obtain ⟨server', hserver, hconnect⟩ := Option.bind_eq_some_iff.mp hconnect
              split_ifs at hconnect
              · cases hconnect
                exact hget
              · obtain ⟨sock, hk, hconnect⟩ := Option.bind_eq_some_iff.mp hconnect
                have hclient := @Served.touch (s.setCache c) k sock sock.state (some server) hget hk
                obtain ⟨server', hserver, hconnect⟩ := Option.bind_eq_some_iff.mp hconnect
                have hpeer := @Served.touch _ server server' server'.state (some k) hclient hserver
                obtain ⟨sock, hk, hconnect⟩ := Option.bind_eq_some_iff.mp hconnect
                cases hconnect
                exact hpeer.touch hk
            · cases hconnect

theorem Served.call {e : NodeCall} (h : s.Served) (hc : CallServed s e) (hs : NodeStep s e t) : t.Served := by
  obtain ⟨hfresh, hmode, hcall⟩ := hs
  cases e with
  | get sb ino env =>
      cases hcall
      exact h.get hc
  | put i =>
      obtain ⟨c, hput, rfl⟩ := Option.map_eq_some_iff.mp hcall
      exact h.put hput
  | newInode fault fs sb mode now env mem =>
      obtain ⟨⟨r, err, fs', d⟩, hnew, rfl⟩ := Option.map_eq_some_iff.mp hcall
      cases r with
      | none => exact h.newInode_none hc hnew
      | some i =>
          obtain ⟨hframe, -, hslot, -⟩ := newInode_some hnew
          apply h.of_frame hframe
          apply slotServed_of_plain
          rw [hslot]
          exact hmode fault fs sb mode now env mem rfl
  | disk supers devices =>
      cases hcall
      exact h
  | socket k now uid gid env fd => exact h.create (hfresh k now uid gid env fd rfl) hcall
  | bind k b =>
      obtain ⟨r, hbind, rfl⟩ := Option.map_eq_some_iff.mp hcall
      exact h.bind hc hbind
  | connect k sb ino env =>
      obtain ⟨r, hconnect, rfl⟩ := Option.map_eq_some_iff.mp hcall
      exact h.connect hc hconnect
  | release k => exact h.release hc hcall
  | traffic k state conn =>
      obtain ⟨sock, hk, ht⟩ := Option.bind_eq_some_iff.mp hcall
      cases ht
      exact h.touch hk

theorem Boot.served (h : s.Boot) : s.Served := by
  intro i
  apply slotServed_of_bare
  rw [h.1 i]
  rfl

end SocketNodes

variable {s t : SocketNodes} {tr : List (SocketNodes × NodeCall)}

/-- In every run from boot whose steps leave its socket behind every inode, a connect takes a
socket that is bound to the inode and has not been released, and in the states that are reached
the next connect does so exactly when its lookup is safe. -/
theorem connect_reaches_bound (hs : s.Boot) (h : Trace NodeStep s tr t) (hc : ∀ x ∈ tr, CallServed x.1 x.2) :
    (∀ x ∈ tr, ∀ k sb ino env, x.2 = .connect k sb ino env → x.1.ConnectBound sb ino env) ∧
      ∀ sb ino env, t.ConnectBound sb ino env ↔ t.SafeLookup sb ino env := by
  obtain ⟨hall, ht⟩ := h.throughout_of (fun s e t hs hc hst => hs.call hc hst) hs.served hc
  constructor
  · intro x hx k sb ino env he
    have hsafe : CallServed x.1 x.2 := hc x hx
    rw [he] at hsafe
    exact (hall x hx).connectBound_iff.mpr hsafe
  · intro sb ino env
    exact ht.connectBound_iff

/-! ## A bind and an old file -/

/-- The first inode of a small file system is made for socket `1`. -/
def tinyBind : BindEnv :=
  { fault := none, fs := Ext2.tinyDisk, sb := 0, now := 0, env := someMemory, mem := true, stored := 0,
    registered := true }

def bootNodes : SocketNodes := ⟨coldCache, fun _ => none⟩

theorem bootNodes_boot : bootNodes.Boot := ⟨coldCache_cold, fun _ => rfl⟩

/-- Whether the slot of an inode holds a socket, and which. -/
def socketBehind (s : SocketNodes) (sb ino : ℕ) : Option ℕ := do
  let i ← s.cache.find sb ino
  match (s.cache.slots i).u with
  | .socket k => some k
  | _ => none

/-- A socket is made and bound; its inode has the number 8. -/
theorem connect_reaches_bound_bind : ∃ (t : SocketNodes) (tr : List (SocketNodes × NodeCall)),
    Trace NodeStep bootNodes tr t ∧ socketBehind t 0 8 = some 1 ∧
      ∀ sb ino env, t.ConnectBound sb ino env ↔ t.SafeLookup sb ino env := by
  have hrun : ((bootNodes.call (.socket 1 0 0 0 someMemory true)).any fun s =>
      ((s.sockets 1).any fun sock => !sock.released) && (s.call (.bind 1 tinyBind)).any fun t =>
        decide (socketBehind t 0 8 = some 1)) = true := by decide +kernel
  obtain ⟨s, hs, hrest⟩ := (Option.any_eq_true _ _).mp hrun
  obtain ⟨hsock, hbind⟩ := (Bool.and_eq_true _ _).mp hrest
  obtain ⟨t, ht, hslot⟩ := (Option.any_eq_true _ _).mp hbind
  have htr : Trace NodeStep bootNodes
      [(bootNodes, .socket 1 0 0 0 someMemory true), (s, .bind 1 tinyBind)] t := by
    apply Trace.cons ⟨fun _ _ _ _ _ _ h => by cases h; rfl, nofun, hs⟩
    exact Trace.single ⟨nofun, nofun, ht⟩
  have hserved : ∀ x ∈ [(bootNodes, .socket 1 0 0 0 someMemory true), (s, .bind 1 tinyBind)],
      CallServed x.1 x.2 := by
    intro x hx
    simp only [List.mem_cons, List.not_mem_nil, or_false] at hx
    rcases hx with rfl | rfl
    · trivial
    · intro sock hk _
      rw [Option.mem_def.mp hk] at hsock
      exact ⟨Or.inl rfl, by simpa using hsock, rfl⟩
  exact ⟨t, _, htr, of_decide_eq_true hslot, (connect_reaches_bound bootNodes_boot htr hserved).2⟩

/-- A disk on which an earlier boot has left a file of a socket as inode 11. -/
def oldNodes : SocketNodes :=
  { bootNodes with cache := { coldCache with devices := fun _ =>
    { smallDevice with bytes := Packed.put 2 smallDevice.bytes (5 * 1024 + 10 * 128) 0o140755 } } }

/-- A connect to that file takes the copy of its inode for the server. -/
theorem not_connect_bound_old : ¬ ∀ (s t : SocketNodes) (tr : List (SocketNodes × NodeCall)), s.Boot →
    Trace NodeStep s tr t → ∀ sb ino env, t.ConnectBound sb ino env := by
  intro h
  have hold := h oldNodes oldNodes [] ⟨coldCache_cold, fun _ => rfl⟩ (.nil _) 0 11 someMemory
  have hget : (oldNodes.cache.inodeGet 0 11 someMemory).1 = some 0 := by decide
  have hmode : isSock ((oldNodes.cache.inodeGet 0 11 someMemory).2.slots 0).mode = true := by decide
  obtain ⟨k, sock, sb, hu, hk, -⟩ := hold 0 _ (Prod.ext hget rfl) hmode
  cases hk

end Ferrite.Net
