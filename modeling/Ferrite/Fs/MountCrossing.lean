import Ferrite.Fs.Mount

/-!
# Lookups cross mounts exactly

The link from a directory to what is mounted on it lives in a slot of the inode
cache. `Anchored` says that the links are right: each mounted directory has a
slot, and a slot has a link exactly when its node is a mounted directory. The
cache keeps this as long as the slot of a mounted directory keeps a reference,
which `vfs_mount` itself gives back.
-/
namespace Ferrite.Fs
open Namespaces Runs

namespace InodeCache
variable {c c' : InodeCache} {i j sb ino : ℕ} {d : Node} {env : ReadEnv}

theorem node_eq_some : c.node i = some d ↔ (c.slots i).sb = some d.1 ∧ (c.slots i).ino = d.2 := by
  unfold node
  cases hsb : (c.slots i).sb with
  | none => simp
  | some b => simp [Prod.ext_iff]

theorem node_congr (h : c'.slots i = c.slots i) : c'.node i = c.node i := by
  rw [node, node, h]

/-! ## What a call changes -/

/-- `c'` holds one more reference to the node `d`, in the slot `i`. -/
structure Got (c c' : InodeCache) (i : ℕ) (d : Node) : Prop where
  supers : c'.supers = c.supers
  lt : i < maxInodes
  node : c'.node i = some d
  mount : (c'.slots i).mount = (c.slots i).mount
  other : ∀ j, j ≠ i → c'.slots j = c.slots j
  slot : (c.node i = some d ∧ (c'.slots i).count = (c.slots i).count + 1) ∨
    ((c.slots i).count = 0 ∧ (c'.slots i).count = 1 ∧ ∀ j < maxInodes, c.node j ≠ some d)

/-- Reading an inode leaves its node, count and link alone. -/
theorem readInode_frame (c : InodeCache) (i : ℕ) (env : ReadEnv) :
    (c.readInode i env).supers = c.supers ∧
    (∀ j, j ≠ i → (c.readInode i env).slots j = c.slots j) ∧
    ((c.readInode i env).slots i).sb = (c.slots i).sb ∧
    ((c.readInode i env).slots i).ino = (c.slots i).ino ∧
    ((c.readInode i env).slots i).mount = (c.slots i).mount ∧
    ((c.readInode i env).slots i).count = (c.slots i).count := by
  unfold readInode
  split
  all_goals
    refine ⟨rfl, fun j hj => ?_, ?_⟩
    · simp [setSlot, hj]
    · simp [setSlot, VfsInode.load]

/-- A slot that has been given its node, and perhaps been read. -/
theorem got_of_setSlot {n : VfsInode} {b : Bool} (hlt : i < maxInodes) (hsb : n.sb = some d.1)
    (hino : n.ino = d.2) (hmount : n.mount = (c.slots i).mount)
    (hslot : (c.node i = some d ∧ n.count = (c.slots i).count + 1) ∨
      ((c.slots i).count = 0 ∧ n.count = 1 ∧ ∀ j < maxInodes, c.node j ≠ some d)) :
    Got c (if b then (c.setSlot i n).readInode i env else c.setSlot i n) i d := by
  have hset : (c.setSlot i n).slots i = n := by simp [setSlot]
  cases b with
  | false =>
      refine ⟨rfl, hlt, node_eq_some.mpr ?_, ?_, fun j hj => by simp [setSlot, hj], ?_⟩
      · simpa [hset] using ⟨hsb, hino⟩
      · simpa [hset] using hmount
      · simpa [hset] using hslot
  | true =>
      obtain ⟨h₁, h₂, h₃, h₄, h₅, h₆⟩ := readInode_frame (c.setSlot i n) i env
      rw [hset] at h₃ h₄ h₅ h₆
      refine ⟨h₁, hlt, node_eq_some.mpr ?_, ?_, fun j hj => ?_, ?_⟩
      · simpa [h₃, h₄] using ⟨hsb, hino⟩
      · simpa [h₅] using hmount
      · simpa [setSlot, hj] using h₂ j hj
      · simpa [h₆] using hslot

theorem inodeGet_spec {r : Option ℕ} (h : c.inodeGet sb ino env = (r, c')) :
    (r = none ∧ c' = c) ∨ ∃ i, r = some i ∧ Got c c' i (sb, ino) := by
  unfold inodeGet at h
  cases hfind : c.find sb ino with
  | some i =>
      have hspec : (c.slots i).sb = some sb ∧ (c.slots i).ino = ino := by
        simpa using List.find?_some hfind
      have hlt : i < maxInodes := List.mem_range.mp (List.mem_of_find?_eq_some hfind)
      simp only [hfind] at h
      refine .inr ⟨i, ?_, ?_⟩
      · split at h <;> exact (Prod.mk.inj h).1.symm
      · have hgot := @got_of_setSlot c i (sb, ino) env
          { c.slots i with count := (c.slots i).count + 1 } (!isSock (c.slots i).mode) hlt hspec.1
          hspec.2 rfl (.inl ⟨node_eq_some.mpr hspec, rfl⟩)
        split at h <;> rename_i hb <;> simp only [hb, if_true] at hgot <;>
          exact (Prod.mk.inj h).2 ▸ hgot
  | none =>
      simp only [hfind, inodeGetEmpty] at h
      cases hfree : (List.range maxInodes).find? fun i => (c.slots i).count = 0 with
      | none =>
          simp only [hfree, Prod.mk.injEq] at h
          exact .inl ⟨h.1.symm, h.2.symm⟩
      | some i =>
          have hcount : (c.slots i).count = 0 := by simpa using List.find?_some hfree
          have hlt : i < maxInodes := List.mem_range.mp (List.mem_of_find?_eq_some hfree)
          have habsent : ∀ j < maxInodes, c.node j ≠ some (sb, ino) := by
            intro j hj hnode
            have := List.find?_eq_none.mp hfind j (List.mem_range.mpr hj)
            exact this (by simpa using node_eq_some.mp hnode)
          simp only [hfree] at h
          refine .inr ⟨i, ?_, ?_⟩
          · split at h <;> exact (Prod.mk.inj h).1.symm
          · have hgot := @got_of_setSlot c i (sb, ino) env
              { c.slots i with sb := some sb, ino := ino, count := 1 }
              ((some sb).isSome && !isSock (c.slots i).mode) hlt rfl rfl rfl
              (.inr ⟨hcount, rfl, habsent⟩)
            split at h <;> rename_i hb <;> simp only [hb, if_true] at hgot <;>
              exact (Prod.mk.inj h).2 ▸ hgot

/-! ## The links -/

/-- Every mounted directory has a slot, and the slots of mounted directories, and no
others, link to the root of what is mounted. -/
structure Anchored (mounted : Node → Option Node) (c : InodeCache) : Prop where
  lt : ∀ i, (c.slots i).count ≠ 0 → i < maxInodes
  idle : ∀ i, (c.slots i).count = 0 → (c.slots i).sb = none ∧ (c.slots i).mount = none
  live : ∀ i, (c.slots i).count ≠ 0 → (c.slots i).sb ≠ none
  unique : ∀ i j d, c.node i = some d → c.node j = some d → i = j
  mount : ∀ i d, c.node i = some d →
    (c.slots i).mount = (mounted d).bind fun m => (c.supers m.1).rootNode
  pinned : ∀ d m, mounted d = some m → ∃ i, c.node i = some d
  rooted : ∀ d m, mounted d = some m → ∃ r, (c.supers m.1).rootNode = some r ∧ c.node r = some m

variable {mounted : Node → Option Node}

theorem Anchored.count_ne_zero (h : Anchored mounted c) (hd : c.node i = some d) :
    (c.slots i).count ≠ 0 := by
  intro hzero
  have := (node_eq_some.mp hd).1
  rw [(h.idle i hzero).1] at this
  cases this

/-- Without a link the node in a slot is not a mounted directory. -/
theorem Anchored.over_eq_none (h : Anchored mounted c) (hd : c.node i = some d)
    (hm : (c.slots i).mount = none) : mounted d = none := by
  by_contra hne
  obtain ⟨m, hmounted⟩ := Option.ne_none_iff_exists'.mp hne
  obtain ⟨r, hr, -⟩ := h.rooted d m hmounted
  have := h.mount i d hd
  rw [hm, hmounted, Option.bind_some, hr] at this
  cases this

theorem Anchored.got (h : Anchored mounted c) (hg : Got c c' i d)
    (hwrap : (c.slots i).count + 1 ≠ 0) : Anchored mounted c' := by
  -- The node of every slot but `i` is as before, and that of `i` only if it was in use.
  have hback (j : ℕ) (e : Node) (he : c'.node j = some e) :
      c.node j = some e ∨ (j = i ∧ e = d ∧ (c.slots i).count = 0) := by
    by_cases hji : j = i
    · subst hji
      have hed : e = d := Option.some.inj (he.symm.trans hg.node)
      rcases hg.slot with ⟨hnode, -⟩ | ⟨hzero, -⟩
      · exact .inl (hed ▸ hnode)
      · exact .inr ⟨rfl, hed, hzero⟩
    · rw [node_congr (hg.other j hji)] at he
      exact .inl he
  have hforth (j : ℕ) (e : Node) (he : c.node j = some e) : c'.node j = some e := by
    by_cases hji : j = i
    · subst hji
      rcases hg.slot with ⟨hnode, -⟩ | ⟨hzero, -⟩
      · rw [hg.node, ← hnode, he]
      · exact absurd hzero (h.count_ne_zero he)
    · rwa [node_congr (hg.other j hji)]
  have habsent (hzero : (c.slots i).count = 0) (j : ℕ) : c.node j ≠ some d := by
    intro hnode
    rcases hg.slot with ⟨hold, -⟩ | ⟨-, -, hnone⟩
    · exact h.count_ne_zero hold hzero
    · exact hnone j (h.lt j (h.count_ne_zero hnode)) hnode
  have hcount : (c'.slots i).count ≠ 0 := by
    rcases hg.slot with ⟨-, hc⟩ | ⟨-, hc, -⟩ <;> rw [hc]
    · exact hwrap
    · decide
  refine ⟨fun j hj => ?_, fun j hj => ?_, fun j hj => ?_, fun j k e hje hke => ?_,
    fun j e he => ?_, fun e m hmounted => ?_, fun e m hmounted => ?_⟩
  · by_cases hji : j = i
    · exact hji ▸ hg.lt
    · rw [hg.other j hji] at hj
      exact h.lt j hj
  · by_cases hji : j = i
    · exact absurd (hji ▸ hj) hcount
    · rw [hg.other j hji] at hj ⊢
      exact h.idle j hj
  · by_cases hji : j = i
    · rw [hji, (node_eq_some.mp hg.node).1]
      exact Option.some_ne_none _
    · rw [hg.other j hji] at hj ⊢
      exact h.live j hj
  · rcases hback j e hje with hj | ⟨hj, hjd, hzero⟩ <;> rcases hback k e hke with hk | ⟨hk, hkd, hzero'⟩
    · exact h.unique j k e hj hk
    · exact absurd (hkd ▸ hj) (habsent hzero' j)
    · exact absurd (hjd ▸ hk) (habsent hzero k)
    · exact hj.trans hk.symm
  · rw [hg.supers]
    have hsame : (c'.slots j).mount = (c.slots j).mount := by
      by_cases hji : j = i
      · exact hji ▸ hg.mount
      · rw [hg.other j hji]
    rw [hsame]
    rcases hback j e he with hj | ⟨hj, hjd, hzero⟩
    · exact h.mount j e hj
    · have hnone : mounted d = none := by
        by_contra hne
        obtain ⟨m, hmounted⟩ := Option.ne_none_iff_exists'.mp hne
        obtain ⟨k, hk⟩ := h.pinned d m hmounted
        exact habsent hzero k hk
      rw [hj, hjd, hnone, (h.idle i hzero).2, Option.bind_none]
  · obtain ⟨k, hk⟩ := h.pinned e m hmounted
    exact ⟨k, hforth k e hk⟩
  · obtain ⟨r, hr, hnode⟩ := h.rooted e m hmounted
    exact ⟨r, hg.supers ▸ hr, hforth r m hnode⟩

/-- A put leaves every slot alone but its own, which goes idle with its last reference. -/
theorem inodePut_spec (h : c.inodePut i = some c') : c'.supers = c.supers ∧
    (∀ j, j ≠ i → c'.slots j = c.slots j) ∧
    ((c.slots i).count = 0 ∧ c' = c ∨
      ((c.slots i).count = 1 ∧ (c'.slots i).count = 0 ∧ (c'.slots i).sb = none ∧
        (c'.slots i).mount = (c.slots i).mount ∧
        ∀ b, (c.slots i).sb = some b → (c.supers b).rootNode ≠ some i) ∨
      ((c.slots i).count ≠ 0 ∧ (c.slots i).count ≠ 1 ∧
        (c'.slots i).count = (c.slots i).count - 1 ∧ c'.node i = c.node i ∧
        (c'.slots i).mount = (c.slots i).mount)) := by
  unfold inodePut at h
  simp only at h
  split_ifs at h with h₀ h₁
  · cases h
    exact ⟨rfl, fun j _ => rfl, .inl ⟨h₀, rfl⟩⟩
  · cases hsb : (c.slots i).sb with
    | none =>
        rw [hsb] at h
        cases h
        refine ⟨rfl, fun j hj => by simp [setSlot, hj], .inr (.inl ⟨h₁, ?_⟩)⟩
        simp [setSlot]
    | some b =>
        rw [hsb] at h
        simp only at h
        split_ifs at h with hroot
        cases h
        refine ⟨rfl, fun j hj => by simp [setSlot, hj], .inr (.inl ⟨h₁, ?_⟩)⟩
        simpa [setSlot] using hroot
  · cases h
    refine ⟨rfl, fun j hj => by simp [setSlot, hj], .inr (.inr ⟨h₀, h₁, ?_⟩)⟩
    simp [setSlot, node]

/-- A node stays in its slot unless the last reference is put. -/
theorem inodePut_node (h : c.inodePut i = some c') (hj : (c.slots j).count.toNat ≠ 1) :
    c'.node j = c.node j := by
  obtain ⟨-, hother, hslot⟩ := inodePut_spec h
  by_cases hji : j = i
  · rcases hslot with ⟨-, rfl⟩ | ⟨hone, -⟩ | ⟨-, -, -, hnode, -⟩
    · rfl
    · exact absurd (by rw [hji, hone]; rfl) hj
    · rw [hji, hnode]
  · exact node_congr (hother j hji)

/-- A put may take the last reference from a slot without a link only. -/
theorem Anchored.put (h : Anchored mounted c) (hp : c.inodePut i = some c')
    (hlast : (c.slots i).count = 1 → (c.slots i).mount = none) : Anchored mounted c' := by
  obtain ⟨hsupers, hother, ⟨-, rfl⟩ | ⟨hone, hzero, hsb, hmount, hroot⟩ |
    ⟨h₀, h₁, hcount, hnode, hmount⟩⟩ := inodePut_spec hp
  · exact h
  · have hgone : c'.node i = none := by rw [node, hsb, Option.map_none]
    have hne {j : ℕ} {e : Node} (he : c'.node j = some e) : j ≠ i := by
      intro hji
      rw [hji, hgone] at he
      cases he
    refine ⟨fun j hj => ?_, fun j hj => ?_, fun j hj => ?_, fun j k e hje hke => ?_,
      fun j e he => ?_, fun e m hmounted => ?_, fun e m hmounted => ?_⟩
    · have hji : j ≠ i := fun hji => hj (hji ▸ hzero)
      exact h.lt j (hother j hji ▸ hj)
    · by_cases hji : j = i
      · rw [hji]
        exact ⟨hsb, hmount.trans (hlast hone)⟩
      · rw [hother j hji] at hj ⊢
        exact h.idle j hj
    · have hji : j ≠ i := fun hji => hj (hji ▸ hzero)
      rw [hother j hji] at hj ⊢
      exact h.live j hj
    · rw [node_congr (hother j (hne hje))] at hje
      rw [node_congr (hother k (hne hke))] at hke
      exact h.unique j k e hje hke
    · have hji := hne he
      rw [node_congr (hother j hji)] at he
      rw [hother j hji, hsupers]
      exact h.mount j e he
    · obtain ⟨k, hk⟩ := h.pinned e m hmounted
      have hki : k ≠ i := by
        intro hki
        have := h.over_eq_none (hki ▸ hk) (hlast hone)
        rw [hmounted] at this
        cases this
      exact ⟨k, by rwa [node_congr (hother k hki)]⟩
    · obtain ⟨r, hr, hnode⟩ := h.rooted e m hmounted
      have hri : r ≠ i := by
        intro hri
        exact hroot m.1 (hri ▸ (node_eq_some.mp hnode).1) (hri ▸ hr)
      exact ⟨r, hsupers ▸ hr, by rwa [node_congr (hother r hri)]⟩
  · have hsame (j : ℕ) : c'.node j = c.node j := by
      by_cases hji : j = i
      · rw [hji, hnode]
      · exact node_congr (hother j hji)
    have hlinks (j : ℕ) : (c'.slots j).mount = (c.slots j).mount := by
      by_cases hji : j = i
      · rw [hji, hmount]
      · rw [hother j hji]
    have hlive (j : ℕ) : (c'.slots j).count = 0 ↔ (c.slots j).count = 0 := by
      by_cases hji : j = i
      · rw [hji, hcount]
        exact iff_of_false (by bv_omega) h₀
      · rw [hother j hji]
    have hsbs (j : ℕ) : (c'.slots j).sb = none ↔ (c.slots j).sb = none := by
      have := hsame j
      simp only [node] at this
      rw [← Option.map_eq_none_iff, this, Option.map_eq_none_iff]
    refine ⟨fun j hj => h.lt j (mt (hlive j).mpr hj), fun j hj => ?_, fun j hj => ?_,
      fun j k e hje hke => ?_, fun j e he => ?_, fun e m hmounted => ?_, fun e m hmounted => ?_⟩
    · have := h.idle j ((hlive j).mp hj)
      exact ⟨(hsbs j).mpr this.1, (hlinks j).trans this.2⟩
    · exact mt (hsbs j).mp (h.live j (mt (hlive j).mpr hj))
    · exact h.unique j k e (hsame j ▸ hje) (hsame k ▸ hke)
    · rw [hlinks, hsupers]
      exact h.mount j e (hsame j ▸ he)
    · obtain ⟨k, hk⟩ := h.pinned e m hmounted
      exact ⟨k, (hsame k).trans hk⟩
    · obtain ⟨r, hr, hnode⟩ := h.rooted e m hmounted
      exact ⟨r, hsupers ▸ hr, (hsame r).trans hnode⟩

/-! ## References of a lookup -/

/-- A lookup began in `c₀` and holds the references in the list on top. -/
structure Holds (mounted : Node → Option Node) (c₀ c : InodeCache) (held : List ℕ) : Prop where
  start : Anchored mounted c₀
  anchored : Anchored mounted c
  supers : c.supers = c₀.supers
  mount : ∀ j, (c.slots j).mount = (c₀.slots j).mount
  count : ∀ j, (c.slots j).count.toNat = (c₀.slots j).count.toNat + held.count j
  node : ∀ j, (c₀.slots j).count ≠ 0 → c.node j = c₀.node j

/-- No count is so high that the references of one lookup could wrap it. -/
def Roomy (c : InodeCache) : Prop := ∀ j < maxInodes, (c.slots j).count.toNat ≤ 65533

variable {c₀ : InodeCache} {held : List ℕ} {r : Option ℕ}

theorem Holds.refl (h : Anchored mounted c) : Holds mounted c c [] :=
  ⟨h, h, rfl, fun _ => rfl, fun _ => by simp, fun _ _ => rfl⟩

theorem Holds.swap (h : Holds mounted c₀ c [i, j]) : Holds mounted c₀ c [j, i] where
  start := h.start
  anchored := h.anchored
  supers := h.supers
  mount := h.mount
  count k := by rw [h.count, (List.Perm.swap j i []).count_eq]
  node := h.node

/-- What was in use when the lookup began stays in use. -/
theorem Holds.live (h : Holds mounted c₀ c held) (hi : (c₀.slots i).count ≠ 0) :
    (c.slots i).count ≠ 0 := by
  have := h.count i
  bv_omega

theorem Holds.get (h : Holds mounted c₀ c held) (hroom : c₀.Roomy) (hheld : held.length ≤ 1)
    (hg : Got c c' i d) : Holds mounted c₀ c' (i :: held) := by
  have hcount := h.count i
  have hi := hroom i hg.lt
  have hle := held.count_le_length (a := i)
  refine ⟨h.start, h.anchored.got hg (by bv_omega), hg.supers.trans h.supers, fun j => ?_, fun j => ?_,
    fun j hj => ?_⟩
  · rw [← h.mount]
    by_cases hji : j = i
    · exact hji ▸ hg.mount
    · rw [hg.other j hji]
  · by_cases hji : j = i
    · rw [hji, List.count_cons_self]
      rcases hg.slot with ⟨-, hnew⟩ | ⟨hzero, hnew, -⟩ <;> bv_omega
    · rw [hg.other j hji, h.count, List.count_cons_of_ne (Ne.symm hji)]
  · rw [← h.node j hj]
    by_cases hji : j = i
    · rcases hg.slot with ⟨hold, -⟩ | ⟨hzero, -⟩
      · rw [hji, hg.node, hold]
      · exact absurd hzero (hji ▸ h.live hj)
    · exact node_congr (hg.other j hji)

/-- Putting back one of the references; those that are still held keep their nodes. -/
theorem Holds.put (h : Holds mounted c₀ c (i :: held)) (hp : c.inodePut i = some c') :
    Holds mounted c₀ c' held ∧ ∀ j ∈ held, c'.node j = c.node j := by
  have hi := h.count i
  rw [List.count_cons_self] at hi
  have hlast : (c.slots i).count = 1 → (c.slots i).mount = none := by
    intro hone
    have hidle : (c₀.slots i).count = 0 := by bv_omega
    rw [h.mount, (h.start.idle i hidle).2]
  obtain ⟨hsupers, hother, hslot⟩ := inodePut_spec hp
  have hnode (j : ℕ) (hj : (c.slots j).count.toNat ≠ 1) : c'.node j = c.node j := inodePut_node hp hj
  refine ⟨⟨h.start, h.anchored.put hp hlast, hsupers.trans h.supers, fun j => ?_, fun j => ?_,
    fun j hj => ?_⟩, fun j hj => ?_⟩
  · rw [← h.mount]
    by_cases hji : j = i
    · rcases hslot with ⟨-, rfl⟩ | ⟨-, -, -, hmount, -⟩ | ⟨-, -, -, -, hmount⟩
      · rfl
      · rw [hji, hmount]
      · rw [hji, hmount]
    · rw [hother j hji]
  · by_cases hji : j = i
    · rw [hji]
      rcases hslot with ⟨hzero, rfl⟩ | ⟨hone, hzero, -⟩ | ⟨h₀, h₁, hcount, -⟩ <;> bv_omega
    · rw [hother j hji, h.count, List.count_cons_of_ne (Ne.symm hji)]
  · rw [← h.node j hj]
    by_cases hji : j = i
    · refine hnode j ?_
      rw [hji] at hj ⊢
      bv_omega
    · exact node_congr (hother j hji)
  · have hpos : 0 < held.count j := List.count_pos_iff.mpr hj
    by_cases hji : j = i
    · refine hnode j ?_
      rw [hji] at hpos ⊢
      omega
    · exact node_congr (hother j hji)

theorem Holds.crossMount (h : Holds mounted c₀ c [i]) (hroom : c₀.Roomy) (hd : c.node i = some d)
    (hr : c.crossMount i env = some (j, c')) :
    Holds mounted c₀ c' [j] ∧ c'.node j = some (cross mounted d) := by
  unfold InodeCache.crossMount at hr
  have hmount := h.anchored.mount i d hd
  cases hm : (c.slots i).mount with
  | none =>
      rw [hm] at hr
      cases hr
      rw [cross, h.anchored.over_eq_none hd hm]
      exact ⟨h, hd⟩
  | some r =>
      rw [hm] at hr hmount
      obtain ⟨m, hmounted, hroot⟩ := Option.bind_eq_some_iff.mp hmount.symm
      obtain ⟨r', hr', hnode⟩ := h.anchored.rooted d m hmounted
      have hrr : r' = r := Option.some.inj (hr'.symm.trans hroot)
      rw [hrr] at hnode
      obtain ⟨hsb, hino⟩ := node_eq_some.mp hnode
      simp only [hsb, hino] at hr
      cases hget : c.inodeGet m.1 m.2 env with
      | mk new c₁ =>
          rw [hget] at hr
          rcases inodeGet_spec hget with ⟨rfl, -⟩ | ⟨k, rfl, hg⟩
          · cases hr
          · obtain ⟨c₂, hput, hc₂⟩ := Option.map_eq_some_iff.mp hr
            cases hc₂
            obtain ⟨hheld, hkept⟩ := (h.get hroom (by simp) hg).swap.put hput
            refine ⟨hheld, ?_⟩
            rw [hkept j List.mem_cons_self, hg.node, cross, hmounted, Option.getD_some]

theorem lookupOp_spec {entries : ℕ → ℕ → List Char → Option ℕ} {name : List Char}
    (hd : c.node i = some d) (h : c.lookupOp entries i name env = some (r, c')) :
    (r = none ∧ c' = c) ∨ ∃ j e, r = some j ∧ entryOf entries d name = some e ∧ Got c c' j e := by
  obtain ⟨hsb, hino⟩ := node_eq_some.mp hd
  unfold lookupOp at h
  split_ifs at h with hop hdir
  · cases h
    exact .inl ⟨rfl, rfl⟩
  · simp only [hsb, hino] at h
    cases hentry : entries d.1 d.2 name with
    | none =>
        rw [hentry] at h
        cases h
        exact .inl ⟨rfl, rfl⟩
    | some ino =>
        rw [hentry] at h
        rcases inodeGet_spec (Option.some.inj h) with hnone | ⟨j, hj, hg⟩
        · exact .inl hnone
        · exact .inr ⟨j, (d.1, ino), hj, by rw [entryOf, hentry, Option.map_some], hg⟩

theorem Holds.lookupLoop {entries : ℕ → ℕ → List Char → Option ℕ} {caller : Caller}
    {read : ℕ → ReadEnv} {names : List (List Char)} (hroom : c₀.Roomy) (h : Holds mounted c₀ c [i])
    (hd : c.node i = some d) (hr : c.lookupLoop entries caller read names i = some (r, c')) :
    (r = none ∧ Holds mounted c₀ c' []) ∨ ∃ j e, r = some j ∧ Holds mounted c₀ c' [j] ∧
      c'.node j = some e ∧ walk (entryOf entries) mounted d names = some e := by
  -- The reference to the directory is exchanged for one to its entry, then to what is mounted there.
  induction names generalizing c i d with
  | nil =>
      cases hr
      exact .inr ⟨i, d, rfl, h, hd, rfl⟩
  | cons name names ih =>
      rw [InodeCache.lookupLoop] at hr
      split at hr
      · cases hr
      · rename_i c₁ hop
        obtain ⟨c₂, hput, hc₂⟩ := Option.map_eq_some_iff.mp hr
        cases hc₂
        rcases lookupOp_spec hd hop with ⟨-, rfl⟩ | ⟨j, e, hj, -⟩
        · exact .inl ⟨rfl, (h.put hput).1⟩
        · cases hj
      · rename_i new c₁ hop
        rcases lookupOp_spec hd hop with ⟨hnew, -⟩ | ⟨j, e, hj, hentry, hg⟩
        · cases hnew
        cases hj
        obtain ⟨c₂, hput, hr⟩ := Option.bind_eq_some_iff.mp hr
        obtain ⟨⟨k, c₃⟩, hcross, hr⟩ := Option.bind_eq_some_iff.mp hr
        obtain ⟨hheld, hkept⟩ := (h.get hroom (by simp) hg).swap.put hput
        have he : c₂.node new = some e := (hkept new List.mem_cons_self).trans hg.node
        obtain ⟨hheld', hk⟩ := hheld.crossMount hroom he hcross
        split at hr
        · obtain ⟨c₄, hput', hr⟩ := Option.bind_eq_some_iff.mp hr
          cases hr
          exact .inl ⟨rfl, (hheld'.put hput').1⟩
        · rw [walk, hentry, Option.bind_some]
          exact ih hheld' hk hr

end InodeCache
end Ferrite.Fs
