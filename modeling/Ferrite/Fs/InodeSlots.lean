import Ferrite.Fs.Create
import Ferrite.Fs.InodeLookup

/-!
# The slots of the inode cache

`inode_get` looks for the superblock and the number in all slots, whatever their count, and
only if none has them it takes a slot of count zero. `inode_put` clears both with the last
reference. So the slots that carry a superblock carry distinct inodes, over all histories.

`ext2_new_inode` is here with the slot that it fills; what it does to the bitmap, the group
descriptor and the superblock is `Ext2.take`.
-/
namespace Ferrite.Fs
open Packed Runs Word

namespace InodeCache

section
variable (s : InodeCache)

/-- The device of a superblock, as a file system has left it. -/
def onDevice (sb : ℕ) (fs : Ext2) : InodeCache :=
  let dev := (s.supers sb).dev
  { s with devices := Function.update s.devices dev { s.devices dev with bytes := fs.disk } }

/-- `ext2_new_inode`: the slot, what is stored in `*err`, the file system and the cache. It
aborts where `inode_put` does. -/
def ext2NewInode (fault : Option Transfer) (fs : Ext2) (sb mode now : ℕ) (env : ReadEnv) (mem : Bool) :
    Option (Option ℕ × Option ℤ × Ext2 × InodeCache) :=
  let dirs := if isDir mode then 1 else 0
  match fs.take fault .inodes (ceilDiv fs.inodesCount fs.inodesPerGroup) dirs (some (-eio)) with
  | (.inr err, fs) => some (none, err, fs, s.onDevice sb fs)
  | (.inl (g, k), fs) =>
      let nodeNum := wadd (wadd k (fs.inodesPerGroup * g % word)) 1
      match (s.onDevice sb fs).inodeGet sb nodeNum env with
      | (none, t) => some (none, some (-enomem), fs, t)
      | (some i, t) =>
          if mem then
            let inode := (t.slots i).fresh (t.supers sb).dev nodeNum mode now
            some (some i, some 0, fs, t.setSlot i { inode with sb := some sb })
          else (t.inodePut i).map fun t => (none, some (-enomem), fs, t)

end

/-! ## What a slot stands for -/

variable {s t : InodeCache} {i j sb ino : ℕ} {env : ReadEnv}

/-- The slots that carry a superblock carry distinct inodes. -/
def Distinct (s : InodeCache) : Prop :=
  ∀ i < maxInodes, ∀ j < maxInodes, (s.slots i).sb ≠ none → (s.slots i).sb = (s.slots j).sb →
    (s.slots i).ino = (s.slots j).ino → i = j

theorem Cold.distinct (h : s.Cold) : s.Distinct := by
  intro i _ j _ hsb
  rw [h i] at hsb
  exact absurd rfl hsb

/-- No slot gets another inode. -/
theorem Distinct.congr (h : s.Distinct) (hsb : ∀ i, (t.slots i).sb = (s.slots i).sb)
    (hino : ∀ i, (t.slots i).ino = (s.slots i).ino) : t.Distinct := by
  intro i hi j hj hne heq hnum
  rw [hsb] at hne
  rw [hsb, hsb] at heq
  rw [hino, hino] at hnum
  exact h i hi j hj hne heq hnum

/-- A slot gets an inode that no other slot carries. -/
theorem Distinct.setSlot {n : VfsInode} (h : s.Distinct)
    (hn : ∀ j < maxInodes, j ≠ i →
      n.sb ≠ none → n.sb = (s.slots j).sb → n.ino ≠ (s.slots j).ino) :
    (s.setSlot i n).Distinct := by
  intro j hj k hk hne heq hnum
  by_cases hji : j = i
  · subst hji
    by_cases hkj : k = j
    · exact hkj.symm
    · rw [setSlot_self] at hne heq hnum
      rw [setSlot_of_ne hkj] at heq hnum
      exact absurd hnum (hn k hk hkj hne heq)
  · by_cases hki : k = i
    · subst hki
      rw [setSlot_of_ne hji] at hne heq hnum
      rw [setSlot_self] at heq hnum
      rw [heq] at hne
      exact absurd hnum.symm (hn j hj hji hne heq.symm)
    · rw [setSlot_of_ne hji] at hne heq hnum
      rw [setSlot_of_ne hki] at heq hnum
      exact h j hj k hk hne heq hnum

/-- A slot keeps its inode. -/
theorem Distinct.setSlot_same {n : VfsInode} (h : s.Distinct) (hsb : n.sb = (s.slots i).sb)
    (hino : n.ino = (s.slots i).ino) : (s.setSlot i n).Distinct := by
  apply h.congr
  · intro j
    by_cases hji : j = i
    · subst hji
      rw [setSlot_self, hsb]
    · rw [setSlot_of_ne hji]
  · intro j
    by_cases hji : j = i
    · subst hji
      rw [setSlot_self, hino]
    · rw [setSlot_of_ne hji]

/-- Reading the record leaves the superblock, the number and the count. -/
theorem readInode_slot (s : InodeCache) (i : ℕ) (env : ReadEnv) (j : ℕ) :
    ((s.readInode i env).slots j).sb = (s.slots j).sb ∧
      ((s.readInode i env).slots j).ino = (s.slots j).ino ∧
      ((s.readInode i env).slots j).count = (s.slots j).count := by
  unfold readInode
  split
  all_goals first
    | exact ⟨rfl, rfl, rfl⟩
    | by_cases hji : j = i
      · subst hji
        rw [setSlot_self]
        exact ⟨rfl, rfl, rfl⟩
      · rw [setSlot_of_ne hji]
        exact ⟨rfl, rfl, rfl⟩

theorem Distinct.readInode (h : s.Distinct) : (s.readInode i env).Distinct :=
  h.congr (fun j => (readInode_slot s i env j).1) fun j => (readInode_slot s i env j).2.1

/-! ## The calls -/

theorem find_lt (h : s.find sb ino = some i) : i < maxInodes :=
  List.mem_range.mp (List.mem_of_find?_eq_some h)

theorem find_none (h : s.find sb ino = none) (hj : j < maxInodes) (hsb : (s.slots j).sb = some sb) :
    (s.slots j).ino ≠ ino := by
  intro hino
  have hno := List.find?_eq_none.mp h j (List.mem_range.mpr hj)
  exact hno (decide_eq_true ⟨hsb, hino⟩)

/-- The one slot that carries an inode is the one that is found. -/
theorem Distinct.find (h : s.Distinct) (hi : i < maxInodes) (hsb : (s.slots i).sb = some sb) :
    s.find sb (s.slots i).ino = some i := by
  cases hfind : s.find sb (s.slots i).ino with
  | none => exact absurd rfl (find_none hfind hi hsb)
  | some j =>
      have ⟨hjsb, hjino⟩ := find_spec hfind
      have hne : (s.slots j).sb ≠ none := by
        rw [hjsb]
        exact Option.some_ne_none sb
      rw [h j (find_lt hfind) i hi hne (hjsb.trans hsb.symm) hjino]

/-- A free slot is taken for an inode that no slot carries, or for none. -/
theorem Distinct.getEmpty {b : Option ℕ} (h : s.Distinct) (hb : ∀ sb ∈ b, s.find sb ino = none) :
    (s.inodeGetEmpty b ino env).2.Distinct := by
  unfold inodeGetEmpty
  split
  · exact h
  · rename_i i _
    have hset : (s.setSlot i { s.slots i with sb := b, ino := ino, count := 1 }).Distinct := by
      apply h.setSlot
      intro j hj _ hne heq hino
      cases b with
      | none => exact hne rfl
      | some sb => exact find_none (hb sb rfl) hj heq.symm hino.symm
    simp only
    split
    · exact hset.readInode
    · exact hset

theorem Distinct.get (h : s.Distinct) : (s.inodeGet sb ino env).2.Distinct := by
  unfold inodeGet
  split
  · rename_i i _
    have hset : (s.setSlot i { s.slots i with count := (s.slots i).count + 1 }).Distinct :=
      h.setSlot_same rfl rfl
    simp only
    split
    · exact hset.readInode
    · exact hset
  · rename_i hfind
    exact h.getEmpty fun b hb => by
      cases hb
      exact hfind

/-- The slot that `inode_get` returns carries the inode. -/
theorem inodeGet_slot (hget : s.inodeGet sb ino env = (some i, t)) :
    (t.slots i).sb = some sb ∧ (t.slots i).ino = ino := by
  unfold inodeGet at hget
  cases hfind : s.find sb ino with
  | some k =>
      rw [hfind] at hget
      simp only at hget
      have ⟨hsb, hino⟩ := find_spec hfind
      split at hget
      · cases hget
        have ⟨h₁, h₂, _⟩ :=
          readInode_slot (s.setSlot i { s.slots i with count := (s.slots i).count + 1 }) i env i
        rw [h₁, h₂, setSlot_self]
        exact ⟨hsb, hino⟩
      · cases hget
        rw [setSlot_self]
        exact ⟨hsb, hino⟩
  | none =>
      rw [hfind] at hget
      simp only [inodeGetEmpty] at hget
      split at hget
      · cases hget
      · split at hget
        · cases hget
          have ⟨h₁, h₂, _⟩ :=
            readInode_slot (s.setSlot i { s.slots i with sb := some sb, ino := ino, count := 1 }) i env i
          rw [h₁, h₂, setSlot_self]
          exact ⟨rfl, rfl⟩
        · cases hget
          rw [setSlot_self]
          exact ⟨rfl, rfl⟩

/-- `inode_get` returns nothing only if no slot is free. -/
theorem inodeGet_none (hget : (s.inodeGet sb ino env).1 = none) (hi : i < maxInodes) :
    (s.slots i).count ≠ 0 := by
  unfold inodeGet at hget
  split at hget
  · simp only at hget
    split at hget <;> cases hget
  · unfold inodeGetEmpty at hget
    split at hget
    · rename_i hfree
      have hno := List.find?_eq_none.mp hfree i (List.mem_range.mpr hi)
      exact fun hcount => hno (decide_eq_true hcount)
    · simp only at hget
      split at hget <;> cases hget

theorem Distinct.put (h : s.Distinct) (hput : s.inodePut i = some t) : t.Distinct := by
  have hclear : (s.setSlot i { s.slots i with count := 0, sb := none, ino := 0 }).Distinct :=
    h.setSlot fun _ _ _ hne => absurd rfl hne
  unfold inodePut at hput
  simp only at hput
  split at hput
  · cases hput
    exact h
  · split at hput
    · split at hput
      · cases hput
        exact hclear
      · split at hput
        · cases hput
        · cases hput
          exact hclear
    · cases hput
      exact h.setSlot_same rfl rfl

theorem Distinct.allocSocket {sock now uid gid : ℕ} (h : s.Distinct) :
    (s.allocSocket sock now uid gid env).2.Distinct := by
  have hget : (s.inodeGetEmpty none 0 env).2.Distinct := h.getEmpty fun b hb => by cases hb
  unfold InodeCache.allocSocket
  cases hempty : s.inodeGetEmpty none 0 env with
  | mk r u =>
      rw [hempty] at hget
      cases r with
      | none => exact hget
      | some i => exact hget.setSlot_same rfl rfl

theorem Distinct.newInode {fault : Option Transfer} {fs fs' : Ext2} {mode now : ℕ} {mem : Bool}
    {r : Option ℕ} {err : Option ℤ} (h : s.Distinct)
    (hnew : s.ext2NewInode fault fs sb mode now env mem = some (r, err, fs', t)) :
    t.Distinct := by
  unfold ext2NewInode at hnew
  simp only at hnew
  split at hnew
  · cases hnew
    exact h
  · rename_i g k fs₁ _
    have hget :
        ((s.onDevice sb fs₁).inodeGet sb (wadd (wadd k (fs₁.inodesPerGroup * g % word)) 1) env).2.Distinct :=
      Distinct.get h
    split at hnew
    · rename_i hcall
      rw [hcall] at hget
      cases hnew
      exact hget
    · rename_i i u hcall
      rw [hcall] at hget
      have ⟨hsb, hino⟩ := inodeGet_slot hcall
      split at hnew
      · cases hnew
        exact hget.setSlot_same hsb.symm hino.symm
      · obtain ⟨v, hput, hv⟩ := Option.map_eq_some_iff.mp hnew
        cases hv
        exact hget.put hput

end InodeCache

/-! ## Histories -/

/-- The calls that take and give back slots; `disk` stands for all else that changes the
devices and the superblocks. -/
inductive SlotCall
  | get (sb ino : ℕ) (env : ReadEnv)
  | getEmpty (ino : ℕ) (env : ReadEnv)
  | socket (sock now uid gid : ℕ) (env : ReadEnv)
  | newInode (fault : Option Transfer) (fs : Ext2) (sb mode now : ℕ) (env : ReadEnv) (mem : Bool)
  | put (i : ℕ)
  | disk (supers : ℕ → Superblock) (devices : ℕ → BlockDevice)

def InodeCache.slotCall (s : InodeCache) : SlotCall → Option InodeCache
  | .get sb ino env => some (s.inodeGet sb ino env).2
  | .getEmpty ino env => some (s.inodeGetEmpty none ino env).2
  | .socket sock now uid gid env => some (s.allocSocket sock now uid gid env).2
  | .newInode fault fs sb mode now env mem =>
      (s.ext2NewInode fault fs sb mode now env mem).map fun r => r.2.2.2
  | .put i => s.inodePut i
  | .disk supers devices => some { s with supers := supers, devices := devices }

def SlotStep (s : InodeCache) (e : SlotCall) (t : InodeCache) : Prop := s.slotCall e = some t

theorem InodeCache.Distinct.slotCall {s t : InodeCache} {e : SlotCall} (h : s.Distinct)
    (hs : SlotStep s e t) : t.Distinct := by
  unfold SlotStep InodeCache.slotCall at hs
  cases e with
  | get sb ino env =>
      cases hs
      exact h.get
  | getEmpty ino env =>
      cases hs
      exact h.getEmpty fun b hb => by cases hb
  | socket sock now uid gid env =>
      cases hs
      exact h.allocSocket
  | newInode fault fs sb mode now env mem =>
      obtain ⟨⟨r, err, fs', u⟩, hnew, hu⟩ := Option.map_eq_some_iff.mp hs
      cases hu
      exact h.newInode hnew
  | put i => exact h.put hs
  | disk supers devices =>
      cases hs
      exact h

/-- Two live slots of one inode of a file system are the same. -/
def InodeCache.OneSlot (s : InodeCache) : Prop :=
  ∀ i < maxInodes, ∀ j < maxInodes, (s.slots i).count ≠ 0 → (s.slots j).count ≠ 0 →
    (s.slots i).sb ≠ none → (s.slots i).sb = (s.slots j).sb → (s.slots i).ino = (s.slots j).ino → i = j

/-- A socket, and two references to the root directory. -/
def twoHolders : List SlotCall :=
  [.socket 0 0 0 0 someMemory, .get 0 2 someMemory, .get 0 2 someMemory]

end Ferrite.Fs
