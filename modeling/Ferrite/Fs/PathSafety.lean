import Ferrite.Fs.PathWalk

/-!
# Path walks through anything but directories

`vfs_lookup` calls the lookup operation of what a component resolves to without a
test. Everything else a walk dereferences is there: a mounted root and the root of
a superblock keep the reference that the mount took.
-/
namespace Ferrite.Fs
open Namespaces Runs

/-- The root of every file system in use is in a slot of its own, in use too, and what
is linked to a slot is such a root. -/
structure InodeCache.Grounded (c : InodeCache) : Prop where
  lt : ∀ i, (c.slots i).sb ≠ none → i < maxInodes
  root : ∀ i b r, (c.slots i).sb = some b → (c.supers b).rootNode = some r →
    (c.slots r).count ≠ 0 ∧ (c.slots r).sb = some b
  mount : ∀ i r, (c.slots i).mount = some r →
    ∃ b, (c.slots r).sb = some b ∧ (c.supers b).rootNode = some r

namespace InodeCache

/-- The operations that `inode_get` leaves: those for the type of the inode on the device; for
a type without any, in a slot that a socket has left and without memory those of the slot. -/
def opsGot (c : InodeCache) (sb ino : ℕ) (env : ReadEnv) : Option InodeOps :=
  match (c.find sb ino).or c.free with
  | none => none
  | some i =>
      let n := c.slots i
      if isSock n.mode then n.op
      else
        match n.u, env.mem with
        | .null, false => n.op
        | _, _ => (opsFor (Packed.get 2 (c.readRecord (c.supers sb) ino env.stack) 0)).or n.op

/-- The operations of what a component leads to, or of what is mounted there. -/
def opsBehind (entries : ℕ → ℕ → List Char → Option ℕ) (c : InodeCache) (current : ℕ)
    (name : List Char) (env : ReadEnv) (new : ℕ) (c' : InodeCache) (env' : ReadEnv) : Option InodeOps :=
  match (c'.slots new).mount with
  | none =>
      (c.slots current).sb.bind fun b =>
        (entries b (c.slots current).ino name).bind fun ino => c.opsGot b ino env
  | some r => (c'.slots r).sb.bind fun b => c'.opsGot b (c'.slots r).ino env'

/-- The operations of the inodes that the loop comes to with components left. -/
def opsOnWay (entries : ℕ → ℕ → List Char → Option ℕ) (caller : Caller) (read : ℕ → ReadEnv) :
    List (List Char) → ℕ → InodeCache → List (Option InodeOps)
  | [], _, _ => []
  | name :: names, current, c =>
      match c.lookupOp entries current name (read (2 * names.length + 1)) with
      | some (some new, c₁) =>
          Option.getD (do
            let c₂ ← c₁.inodePut current
            let r ← c₂.crossMount new (read (2 * names.length))
            if names.isEmpty || isDir (r.2.slots r.1).mode &&
                !vfsPermission (r.2.slots r.1) caller 1 then
              return []
            else
              return c.opsBehind entries current name (read (2 * names.length + 1)) new c₂
                (read (2 * names.length)) :: opsOnWay entries caller read names r.1 r.2) []
      | _ => []

end InodeCache

namespace Mounts

/-- The operations of the inode a lookup starts from and of those it comes to with components left. -/
def opsOnWay (s : Mounts) (caller : Caller) (path : Path) (env : LookupEnv) : List (Option InodeOps) :=
  let n := s.cache.slots (base caller path)
  match n.sb with
  | none => []
  | some b =>
      if components path = [] ∨ !vfsPermission n caller 1 ∨ !env.split then []
      else
        match s.cache.inodeGet b n.ino (env.read 0) with
        | (none, _) => []
        | (some i, c) =>
            s.cache.opsGot b n.ino (env.read 0) ::
              c.opsOnWay s.entries caller env.read (components path) i

/-- Inodes are asked for in file systems that are in use. -/
def Known (s : Mounts) : MountEvent → Prop
  | .get sb _ _ => ∃ i, (s.cache.slots i).sb = some sb
  | _ => True

/-- `vfs_lookup` returns, and not an inode if a component is looked up in what is not a
directory. -/
def FailsCleanly (s : Mounts) (caller : Caller) (path : Path) (env : LookupEnv) : Prop :=
  ∃ r c, s.vfsLookup caller path env = some (r, c) ∧
    ((∃ d ∈ s.searched caller path env, isDir d.mode = false) → r = none)

end Mounts

namespace InodeCache
variable {c c' c₀ : InodeCache} {i j r b sb ino : ℕ} {d : Node} {env : ReadEnv} {held : List ℕ}

/-! ## Operations -/

theorem inodePut_op (h : c.inodePut i = some c') (j : ℕ) : (c'.slots j).op = (c.slots j).op := by
  unfold inodePut at h
  simp only at h
  split_ifs at h
  · cases h
    rfl
  · split at h
    · cases h
      by_cases hji : j = i <;> simp [setSlot, hji]
    · split_ifs at h
      cases h
      by_cases hji : j = i <;> simp [setSlot, hji]
  · cases h
    by_cases hji : j = i <;> simp [setSlot, hji]

theorem readInode_op {n : VfsInode} (hsb : n.sb = some sb) (hino : n.ino = ino) (hop : n.op = (c.slots i).op)
    (hu : n.u = (c.slots i).u) : (((c.setSlot i n).readInode i env).slots i).op =
    match (c.slots i).u, env.mem with
    | .null, false => (c.slots i).op
    | _, _ => (opsFor (Packed.get 2 (c.readRecord (c.supers sb) ino env.stack) 0)).or (c.slots i).op := by
  unfold readInode
  rw [setSlot_self, hsb, hu]
  cases hpay : (c.slots i).u with
  | null =>
      cases hmem : env.mem with
      | false => simpa using hop
      | true => simp [setSlot_self, VfsInode.load, hop, hino]; rfl
  | ext2 node => simp [setSlot_self, VfsInode.load, hop, hino]; rfl
  | socket k => simp [setSlot_self, VfsInode.load, hop, hino]; rfl

theorem inodeGet_op (h : c.inodeGet sb ino env = (some i, c')) :
    (c'.slots i).op = c.opsGot sb ino env := by
  unfold inodeGet at h
  unfold opsGot
  cases hfind : c.find sb ino with
  | some k =>
      obtain ⟨hsb, hino⟩ := find_spec hfind
      simp only [hfind, Option.some_or] at h ⊢
      split at h
      · rename_i hsock
        cases h
        rw [if_neg (by simpa using hsock)]
        exact readInode_op hsb hino rfl rfl
      · rename_i hsock
        cases h
        rw [if_pos (by simpa using hsock), setSlot_self]
  | none =>
      simp only [hfind, Option.none_or, inodeGetEmpty] at h ⊢
      rw [show ((List.range maxInodes).find? fun i => (c.slots i).count = 0) = c.free from rfl] at h
      cases hfree : c.free with
      | none =>
          rw [hfree] at h
          cases h
      | some k =>
          simp only [hfree, Option.isSome_some, Bool.true_and] at h ⊢
          split at h
          · rename_i hsock
            cases h
            rw [if_neg (by simpa using hsock)]
            exact readInode_op rfl rfl rfl rfl
          · rename_i hsock
            cases h
            rw [if_pos (by simpa using hsock), setSlot_self]

variable {entries : ℕ → ℕ → List Char → Option ℕ} {caller : Caller} {read : ℕ → ReadEnv}
  {names : List (List Char)} {name : List Char}

theorem op_behind {env' : ReadEnv} {new : ℕ} {c₁ c₂ : InodeCache}
    (hlookup : c.lookupOp entries i name env = some (some new, c₁)) (hput : c₁.inodePut i = some c₂)
    (hcross : c₂.crossMount new env' = some (j, c')) :
    (c'.slots j).op = c.opsBehind entries i name env new c₂ env' := by
  unfold crossMount at hcross
  unfold opsBehind
  cases hm : (c₂.slots new).mount with
  | none =>
      rw [hm] at hcross
      cases hcross
      unfold lookupOp at hlookup
      split_ifs at hlookup
      · cases hlookup
      · split at hlookup
        · cases hlookup
        · rename_i b hsb
          simp only [inodePut_op hput, hsb, Option.bind_some]
          split at hlookup
          · cases hlookup
          · rename_i ino hentry
            rw [hentry, Option.bind_some]
            exact inodeGet_op (Option.some.inj hlookup)
  | some r =>
      simp only [hm] at hcross ⊢
      cases hsb : (c₂.slots r).sb with
      | none =>
          rw [hsb] at hcross
          cases hcross
      | some b =>
          simp only [hsb] at hcross
          cases hget : c₂.inodeGet b (c₂.slots r).ino env' with
          | mk m c₃ =>
              cases m with
              | none =>
                  rw [hget] at hcross
                  cases hcross
              | some m =>
                  rw [hget] at hcross
                  obtain ⟨c₄, hput', hc₄⟩ := Option.map_eq_some_iff.mp hcross
                  cases hc₄
                  rw [inodePut_op hput', inodeGet_op hget, Option.bind_some]

/-- The inodes that are searched have the operations that `inode_get` left. -/
theorem map_op_searched (hne : names ≠ []) : (c.searched entries caller read names i).map VfsInode.op =
    (c.slots i).op :: c.opsOnWay entries caller read names i := by
  induction names generalizing c i with
  | nil => exact absurd rfl hne
  | cons name names ih =>
      rw [InodeCache.searched, InodeCache.opsOnWay, List.map_cons]
      congr 1
      cases hlookup : c.lookupOp entries i name (read (2 * names.length + 1)) with
      | none => rfl
      | some r =>
          obtain ⟨new, c₁⟩ := r
          cases new with
          | none => rfl
          | some new =>
              dsimp only
              cases hput : c₁.inodePut i with
              | none => rfl
              | some c₂ =>
                  simp only [Option.bind_eq_bind, Option.bind_some]
                  cases hcross : c₂.crossMount new (read (2 * names.length)) with
                  | none => rfl
                  | some r =>
                      obtain ⟨k, c₃⟩ := r
                      simp only [Option.bind_some]
                      cases names with
                      | nil => simp [InodeCache.searched]
                      | cons name' names =>
                          rw [← op_behind hlookup hput hcross]
                          have hih := @ih c₃ k (by simp)
                          cases hdir : isDir (c₃.slots k).mode with
                          | false => simp [hih]
                          | true => cases hperm : vfsPermission (c₃.slots k) caller 1 <;> simp [hih]

theorem sb_of_node (h : c'.node i = c.node i) : (c'.slots i).sb = (c.slots i).sb := by
  have := congrArg (Option.map Prod.fst) h
  simpa [node, Option.map_map, Function.comp_def] using this

theorem Grounded.got (h : Grounded c) (hg : Got c c' i d) (hwrap : (c.slots i).count + 1 ≠ 0)
    (hroot : ∀ r, (c.supers d.1).rootNode = some r → (c.slots r).count ≠ 0 ∧ (c.slots r).sb = some d.1) :
    Grounded c' := by
  -- A slot in use keeps its superblock.
  have hkept (k : ℕ) (b : ℕ) (hk : (c.slots k).count ≠ 0 ∧ (c.slots k).sb = some b) :
      (c'.slots k).count ≠ 0 ∧ (c'.slots k).sb = some b := by
    by_cases hki : k = i
    · rw [hki] at hk ⊢
      rcases hg.slot with ⟨hnode, hcount⟩ | ⟨hzero, -⟩
      · rw [hcount, (node_eq_some.mp hg.node).1, ← (node_eq_some.mp hnode).1]
        exact ⟨hwrap, hk.2⟩
      · exact absurd hzero hk.1
    · rwa [hg.other k hki]
  refine ⟨fun k hk => ?_, fun k b r hk hr => ?_, fun k r hk => ?_⟩
  · by_cases hki : k = i
    · exact hki ▸ hg.lt
    · rw [hg.other k hki] at hk
      exact h.lt k hk
  · rw [hg.supers] at hr
    by_cases hki : k = i
    · rw [hki, (node_eq_some.mp hg.node).1] at hk
      cases hk
      exact hkept r _ (hroot r hr)
    · rw [hg.other k hki] at hk
      exact hkept r b (h.root k b r hk hr)
  · have hlink : (c.slots k).mount = some r := by
      by_cases hki : k = i
      · rwa [hki, ← hg.mount, ← hki]
      · rwa [hg.other k hki] at hk
    obtain ⟨b, hb, hr⟩ := h.mount k r hlink
    exact ⟨b, (hkept r b (h.root r b r hb hr)).2, hg.supers ▸ hr⟩

theorem Grounded.put (h : Grounded c) (hp : c.inodePut i = some c') : Grounded c' := by
  obtain ⟨hsupers, hother, ⟨-, rfl⟩ | ⟨hone, hzero, hsb, hmount, hroot⟩ |
    ⟨h₀, h₁, hcount, hnode, hmount⟩⟩ := inodePut_spec hp
  · exact h
  · -- The slot was not the root of its superblock.
    have hne {k b r : ℕ} (hk : (c.slots k).sb = some b) (hr : (c.supers b).rootNode = some r) : r ≠ i := by
      intro hri
      have hsbr := (h.root k b r hk hr).2
      exact hroot b (hri ▸ hsbr) (hri ▸ hr)
    refine ⟨fun k hk => ?_, fun k b r hk hr => ?_, fun k r hk => ?_⟩
    · have hki : k ≠ i := fun hki => hk (hki ▸ hsb)
      exact h.lt k (hother k hki ▸ hk)
    · have hki : k ≠ i := by
        intro hki
        rw [hki, hsb] at hk
        cases hk
      rw [hother k hki] at hk
      rw [hsupers] at hr
      rw [hother r (hne hk hr)]
      exact h.root k b r hk hr
    · have hlink : (c.slots k).mount = some r := by
        by_cases hki : k = i
        · rwa [hki, ← hmount, ← hki]
        · rwa [hother k hki] at hk
      obtain ⟨b, hb, hr⟩ := h.mount k r hlink
      refine ⟨b, ?_, hsupers ▸ hr⟩
      rwa [hother r (hne hb hr)]
  · have hsame (k : ℕ) : (c'.slots k).sb = (c.slots k).sb ∧ (c'.slots k).mount = (c.slots k).mount ∧
        ((c'.slots k).count = 0 ↔ (c.slots k).count = 0) := by
      by_cases hki : k = i
      · rw [hki, hcount]
        exact ⟨sb_of_node hnode, hmount, iff_of_false (by bv_omega) h₀⟩
      · rw [hother k hki]
        exact ⟨rfl, rfl, Iff.rfl⟩
    refine ⟨fun k hk => ?_, fun k b r hk hr => ?_, fun k r hk => ?_⟩
    · exact h.lt k ((hsame k).1 ▸ hk)
    · rw [(hsame k).1] at hk
      rw [hsupers] at hr
      obtain ⟨hlive, hsb⟩ := h.root k b r hk hr
      exact ⟨mt (hsame r).2.2.mp hlive, (hsame r).1.trans hsb⟩
    · rw [(hsame k).2.1] at hk
      obtain ⟨b, hb, hr⟩ := h.mount k r hk
      exact ⟨b, (hsame r).1.trans hb, hsupers ▸ hr⟩

/-! ## References of a walk -/

/-- A walk began in `c₀` and holds the references in the list on top. -/
structure Carries (c₀ c : InodeCache) (held : List ℕ) : Prop where
  start : Grounded c₀
  grounded : Grounded c
  supers : c.supers = c₀.supers
  count : ∀ j, (c.slots j).count.toNat = (c₀.slots j).count.toNat + held.count j
  known : ∀ j b, (c.slots j).sb = some b → ∃ k, (c₀.slots k).sb = some b

theorem Carries.refl (h : Grounded c) : Carries c c [] :=
  ⟨h, h, rfl, fun _ => by simp, fun j _ hj => ⟨j, hj⟩⟩

theorem Carries.swap (h : Carries c₀ c [i, j]) : Carries c₀ c [j, i] where
  start := h.start
  grounded := h.grounded
  supers := h.supers
  count k := by rw [h.count, (List.Perm.swap j i []).count_eq]
  known := h.known

theorem Carries.get (h : Carries c₀ c held) (hroom : c₀.Roomy) (hheld : held.length ≤ 1)
    (hd : (c.slots j).sb = some d.1) (hg : Got c c' i d) : Carries c₀ c' (i :: held) := by
  have hcount := h.count i
  have hi := hroom i hg.lt
  have hle := held.count_le_length (a := i)
  refine ⟨h.start, h.grounded.got hg (by bv_omega) fun r hr => h.grounded.root j _ r hd hr,
    hg.supers.trans h.supers, fun k => ?_, fun k b hk => ?_⟩
  · by_cases hki : k = i
    · rw [hki, List.count_cons_self]
      rcases hg.slot with ⟨-, hnew⟩ | ⟨hzero, hnew, -⟩ <;> bv_omega
    · rw [hg.other k hki, h.count, List.count_cons_of_ne (Ne.symm hki)]
  · by_cases hki : k = i
    · rw [hki, (node_eq_some.mp hg.node).1] at hk
      exact h.known j b (hd.trans hk)
    · rw [hg.other k hki] at hk
      exact h.known k b hk

/-- A reference of the walk can be put back; those that are still held keep their nodes. -/
theorem Carries.put (h : Carries c₀ c (i :: held)) :
    ∃ c', c.inodePut i = some c' ∧ Carries c₀ c' held ∧ ∀ j ∈ held, c'.node j = c.node j := by
  have hi := h.count i
  rw [List.count_cons_self] at hi
  have hsome : ∃ c', c.inodePut i = some c' := by
    unfold inodePut
    simp only
    split_ifs with h₀ h₁
    · exact ⟨c, rfl⟩
    · cases hsb : (c.slots i).sb with
      | none => exact ⟨_, rfl⟩
      | some b =>
          -- The root of a superblock has a reference besides that of the walk.
          have hroot : (c.supers b).rootNode ≠ some i := by
            intro hr
            obtain ⟨k, hk⟩ := h.known i b hsb
            have hlive := (h.start.root k b i hk (h.supers ▸ hr)).1
            rw [h₁] at hi
            bv_omega
          simp only [if_neg hroot]
          exact ⟨_, rfl⟩
    · exact ⟨_, rfl⟩
  obtain ⟨c', hp⟩ := hsome
  obtain ⟨hsupers, hother, hslot⟩ := inodePut_spec hp
  refine ⟨c', hp, ⟨h.start, h.grounded.put hp, hsupers.trans h.supers, fun k => ?_, fun k b hk => ?_⟩,
    fun k hk => ?_⟩
  · by_cases hki : k = i
    · rw [hki]
      rcases hslot with ⟨hzero, rfl⟩ | ⟨hone, hzero, -⟩ | ⟨h₀, h₁, hcount, -⟩ <;> bv_omega
    · rw [hother k hki, h.count, List.count_cons_of_ne (Ne.symm hki)]
  · by_cases hki : k = i
    · rw [hki] at hk
      rcases hslot with ⟨-, rfl⟩ | ⟨-, -, hsb, -⟩ | ⟨-, -, -, hnode, -⟩
      · exact h.known i b hk
      · rw [hsb] at hk
        cases hk
      · rw [sb_of_node hnode] at hk
        exact h.known i b hk
    · rw [hother k hki] at hk
      exact h.known k b hk
  · have hpos : 0 < held.count k := List.count_pos_iff.mpr hk
    by_cases hki : k = i
    · apply inodePut_node hp
      rw [hki] at hpos ⊢
      omega
    · exact node_congr (hother k hki)

/-- An inode in the cache can be asked for again. -/
theorem inodeGet_cached (hlt : r < maxInodes) (hd : c.node r = some d) (env : ReadEnv) :
    ∃ i c', c.inodeGet d.1 d.2 env = (some i, c') ∧ Got c c' i d := by
  cases hget : c.inodeGet d.1 d.2 env with
  | mk new c' =>
      rcases inodeGet_spec hget with ⟨rfl, -⟩ | ⟨i, rfl, hg⟩
      · have hfind : c.find d.1 d.2 = none := by
          unfold inodeGet at hget
          split at hget
          · split at hget <;> cases hget
          · assumption
        have := List.find?_eq_none.mp hfind r (List.mem_range.mpr hlt)
        exact absurd (node_eq_some.mp hd) (by simpa using this)
      · exact ⟨i, c', rfl, hg⟩

/-- What is linked to the inode just resolved is there, and its superblock is known. -/
theorem Carries.crossMount (h : Carries c₀ c [i]) (hroom : c₀.Roomy) (hd : c.node i = some d)
    (env : ReadEnv) : ∃ j c' e, c.crossMount i env = some (j, c') ∧ Carries c₀ c' [j] ∧
      c'.node j = some e := by
  unfold InodeCache.crossMount
  cases hm : (c.slots i).mount with
  | none => exact ⟨i, c, d, rfl, h, hd⟩
  | some r =>
      obtain ⟨b, hb, hr⟩ := h.grounded.mount i r hm
      have hlt := h.grounded.lt r (by rw [hb]; exact Option.some_ne_none b)
      have hnode : c.node r = some (b, (c.slots r).ino) := node_eq_some.mpr ⟨hb, rfl⟩
      obtain ⟨j, c₁, hget, hg⟩ := inodeGet_cached hlt hnode env
      obtain ⟨c₂, hput, hcarries, hkept⟩ := (h.get hroom (by simp) hb hg).swap.put
      refine ⟨j, c₂, _, ?_, hcarries, (hkept j List.mem_cons_self).trans hg.node⟩
      simp only [hb, hget, hput, Option.map_some]

theorem lookupOp_of_dir (hop : (c.slots i).op = some .ext2Dir) (hd : c.node i = some d) :
    ∃ r c', c.lookupOp entries i name env = some (r, c') := by
  obtain ⟨hsb, hino⟩ := node_eq_some.mp hd
  unfold lookupOp
  simp only [hop, hsb, hino, ne_eq, not_true_eq_false, if_false]
  split
  · exact ⟨_, _, rfl⟩
  · cases entries d.1 d.2 name with
    | none => exact ⟨_, _, rfl⟩
    | some ino => exact ⟨_, _, rfl⟩

/-- A walk through inodes with the operations of a directory calls and reads nothing at `NULL`. -/
theorem Carries.lookupLoop (hroom : c₀.Roomy) (h : Carries c₀ c [i]) (hd : c.node i = some d)
    (hops : ∀ n ∈ c.searched entries caller read names i, n.op = some .ext2Dir) :
    ∃ r c', c.lookupLoop entries caller read names i = some (r, c') := by
  induction names generalizing c i d with
  | nil => exact ⟨_, _, rfl⟩
  | cons name names ih =>
      have hop := hops (c.slots i) (by simp [searched])
      obtain ⟨new, c₁, hlookup⟩ :=
        @lookupOp_of_dir c i d (read (2 * names.length + 1)) entries name hop hd
      rw [InodeCache.lookupLoop, hlookup]
      rw [InodeCache.searched, hlookup] at hops
      rcases lookupOp_spec hd hlookup with ⟨rfl, rfl⟩ | ⟨j, e, rfl, hentry, hg⟩
      · obtain ⟨c₂, hput, -⟩ := h.put
        simp only [hput, Option.map_some]
        exact ⟨_, _, rfl⟩
      · have hsb : (c.slots i).sb = some e.1 := by
          obtain ⟨ino, -, rfl⟩ := Option.map_eq_some_iff.mp hentry
          exact (node_eq_some.mp hd).1
        obtain ⟨c₂, hput, hcarries, hkept⟩ := (h.get hroom (by simp) hsb hg).swap.put
        have he : c₂.node j = some e := (hkept j List.mem_cons_self).trans hg.node
        obtain ⟨k, c₃, x, hcross, hcarries', hx⟩ :=
          hcarries.crossMount hroom he (read (2 * names.length))
        simp only [hput, hcross, Option.bind_eq_bind, Option.bind_some] at hops ⊢
        split
        · obtain ⟨c₄, hput', -⟩ := hcarries'.put
          rw [hput']
          exact ⟨_, _, rfl⟩
        · rename_i hallowed
          rw [if_neg hallowed] at hops
          exact ih hcarries' hx fun n hn => hops n (List.mem_cons_of_mem _ hn)

/-- After a walk only the reference that it returns is left. -/
theorem Carries.after_lookupLoop {r : Option ℕ} (hroom : c₀.Roomy) (h : Carries c₀ c [i])
    (hd : c.node i = some d) (hr : c.lookupLoop entries caller read names i = some (r, c')) :
    Carries c₀ c' r.toList := by
  induction names generalizing c i d with
  | nil =>
      cases hr
      exact h
  | cons name names ih =>
      rw [InodeCache.lookupLoop] at hr
      split at hr
      · cases hr
      · rename_i c₁ hlookup
        rcases lookupOp_spec hd hlookup with ⟨-, rfl⟩ | ⟨j, e, hj, -⟩
        · obtain ⟨c₂, hput, hcarries, -⟩ := h.put
          rw [hput] at hr
          cases hr
          exact hcarries
        · cases hj
      · rename_i new c₁ hlookup
        rcases lookupOp_spec hd hlookup with ⟨hnew, -⟩ | ⟨j, e, hj, hentry, hg⟩
        · cases hnew
        cases hj
        have hsb : (c.slots i).sb = some e.1 := by
          obtain ⟨ino, -, rfl⟩ := Option.map_eq_some_iff.mp hentry
          exact (node_eq_some.mp hd).1
        obtain ⟨c₂, hput, hcarries, hkept⟩ := (h.get hroom (by simp) hsb hg).swap.put
        have he : c₂.node new = some e := (hkept new List.mem_cons_self).trans hg.node
        obtain ⟨k, c₃, x, hcross, hcarries', hx⟩ :=
          hcarries.crossMount hroom he (read (2 * names.length))
        simp only [hput, hcross, Option.bind_eq_bind, Option.bind_some] at hr
        split at hr
        · obtain ⟨c₄, hput', hcarries₄, -⟩ := hcarries'.put
          rw [hput'] at hr
          cases hr
          exact hcarries₄
        · exact ih hcarries' hx hr

/-! ## Mounts -/

/-- The memory of a new superblock is in no slot. -/
theorem Grounded.readSuper {super : Superblock} (h : Grounded c) (hsb : ∀ i, (c.slots i).sb ≠ some sb)
    (hr : Mounts.readSuper c sb super env = some (r, c')) :
    Grounded c' ∧ (c'.slots r).sb = some sb ∧ (c'.supers sb).rootNode = some r := by
  have hset (x : Superblock) : Grounded { c with supers := Function.update c.supers sb x } := by
    refine ⟨h.lt, fun i b r hb hr => ?_, fun i r hi => ?_⟩
    · have hne : b ≠ sb := fun hbsb => hsb i (hbsb ▸ hb)
      simp only [Function.update_of_ne hne] at hr
      exact h.root i b r hb hr
    · obtain ⟨b, hb, hroot⟩ := h.mount i r hi
      have hne : b ≠ sb := fun hbsb => hsb r (hbsb ▸ hb)
      exact ⟨b, hb, by simpa [Function.update_of_ne hne] using hroot⟩
  unfold Mounts.readSuper at hr
  simp only at hr
  split at hr
  · cases hr
  · rename_i r' c₁ hget
    cases hr
    rcases inodeGet_spec hget with ⟨hnone, -⟩ | ⟨i, hi, hg⟩
    · cases hnone
    cases hi
    have hzero : (c.slots r).count = 0 := by
      rcases hg.slot with ⟨hnode, -⟩ | ⟨hzero, -⟩
      · exact absurd (node_eq_some.mp hnode).1 (hsb r)
      · exact hzero
    have hgot : Grounded c₁ := by
      apply (hset { super with rootNode := none }).got hg
      · rw [show (({ c with supers := _ } : InodeCache).slots r).count = 0 from hzero]
        decide
      · intro k hk
        simp at hk
    have hnew := (node_eq_some.mp hg.node).1
    have hlive : (c₁.slots r).count ≠ 0 := by
      rcases hg.slot with ⟨hnode, -⟩ | ⟨-, hone, -⟩
      · exact absurd (node_eq_some.mp hnode).1 (hsb r)
      · rw [hone]
        decide
    refine ⟨⟨hgot.lt, fun k b q hb hq => ?_, fun k q hk => ?_⟩, hnew, by simp⟩
    · by_cases hbsb : b = sb
      · rw [hbsb] at hq ⊢
        simp only [Function.update_self, Option.some.injEq] at hq
        exact hq ▸ ⟨hlive, hnew⟩
      · simp only [Function.update_of_ne hbsb] at hq
        exact hgot.root k b q hb hq
    · obtain ⟨b, hb, hroot⟩ := hgot.mount k q hk
      refine ⟨b, hb, ?_⟩
      by_cases hbsb : b = sb
      · rw [hbsb, hg.supers] at hroot
        simp at hroot
      · simpa [Function.update_of_ne hbsb] using hroot

/-- A slot is linked to the root of a superblock. -/
theorem Grounded.link (h : Grounded c) (hr : (c.slots r).sb = some sb)
    (hroot : (c.supers sb).rootNode = some r) (i : ℕ) :
    Grounded (c.setSlot i { c.slots i with mount := some r }) := by
  have hslot (j : ℕ) : ((c.setSlot i { c.slots i with mount := some r }).slots j).count =
      (c.slots j).count ∧ ((c.setSlot i { c.slots i with mount := some r }).slots j).sb =
      (c.slots j).sb := by
    by_cases hji : j = i <;> simp [setSlot, hji]
  refine ⟨fun j hj => h.lt j ((hslot j).2 ▸ hj), fun j b q hb hq => ?_, fun j q hq => ?_⟩
  · rw [(hslot j).2] at hb
    rw [(hslot q).1, (hslot q).2]
    exact h.root j b q hb hq
  · by_cases hji : j = i
    · simp only [setSlot, hji, Function.update_self, Option.some.injEq] at hq
      exact ⟨sb, (hslot q).2.trans (hq ▸ hr), hq ▸ hroot⟩
    · simp only [setSlot, Function.update_of_ne hji] at hq
      obtain ⟨b, hb, hbr⟩ := h.mount j q hq
      exact ⟨b, (hslot q).2.trans hb, hbr⟩

end InodeCache

namespace Mounts
open InodeCache
variable {s t u : Mounts} {caller : Caller} {path name : Path} {env : LookupEnv} {c : InodeCache}

theorem vfsLookup_carries {r : Option ℕ} (h : s.cache.Grounded) (hroom : s.cache.Roomy)
    (hr : s.vfsLookup caller path env = some (r, c)) : Carries s.cache c r.toList := by
  by_cases hne : components path = []
  · unfold vfsLookup at hr
    split at hr
    · cases hr
      exact .refl h
    · cases hsb : (s.cache.slots (base caller path)).sb with
      | none => simp [hsb, hne] at hr
      | some b =>
          simp only [hsb] at hr
          rcases inodeGet_spec (Option.some.inj hr) with ⟨rfl, rfl⟩ | ⟨i, rfl, hg⟩
          · exact .refl h
          · exact (Carries.refl h).get hroom (by simp) hsb hg
  · rcases vfsLookup_components hne hr with ⟨rfl, rfl, -⟩ | ⟨-, b, k, c₁, hsb, hg, -, hloop⟩
    · exact .refl h
    · exact ((Carries.refl h).get hroom (by simp) hsb hg).after_lookupLoop hroom hg.node hloop

theorem put_grounded {i : Option ℕ} {c' : InodeCache} (h : c.Grounded) (hp : Mounts.put c i = some c') :
    c'.Grounded := by
  cases i with
  | none =>
      cases hp
      exact h
  | some i => exact h.put hp

theorem mountOn_grounded {i : Option ℕ} {env : MountEnv} (h : c.Grounded)
    (hsb : ∀ i, (c.slots i).sb ≠ some env.sb) (hr : s.mountOn c name i env = some (0, t)) :
    t.cache.Grounded := by
  unfold mountOn at hr
  cases hsuper : env.super with
  | error e =>
      rw [hsuper] at hr
      obtain ⟨c', -, hc'⟩ := Option.map_eq_some_iff.mp hr
      cases e <;> cases hc'
  | ok super =>
      rw [hsuper] at hr
      simp only at hr
      split at hr
      · cases hr
      · rename_i r c₁ hread
        obtain ⟨hgrounded, hnew, hroot⟩ := h.readSuper hsb hread
        split at hr
        · cases i with
          | none => cases hr
          | some i =>
              obtain ⟨c', -, hc'⟩ := Option.map_eq_some_iff.mp hr
              cases hc'
        · obtain ⟨c', hput, hc'⟩ := Option.map_eq_some_iff.mp hr
          cases hc'
          cases i with
          | none => exact put_grounded hgrounded hput
          | some i => exact put_grounded (hgrounded.link hnew hroot i) hput

theorem vfsMount_grounded {flags : ℕ} {env : MountEnv} (h : s.cache.Grounded) (hroom : s.cache.Roomy)
    (hsb : ∀ i, (s.cache.slots i).sb ≠ some env.sb)
    (hr : s.vfsMount caller name flags env = some (0, t)) : t.cache.Grounded := by
  unfold vfsMount at hr
  by_cases hlen : nameMax ≤ name.length
  · rw [if_pos hlen] at hr
    cases hr
  by_cases hroot : name = ['/']
  · rw [if_neg hlen, if_pos hroot] at hr
    exact mountOn_grounded h hsb hr
  rw [if_neg hlen, if_neg hroot] at hr
  split at hr
  · cases hr
  · cases hr
  · rename_i i c hlook
    have hcarries := vfsLookup_carries h hroom hlook
    have hsb' (j : ℕ) : (c.slots j).sb ≠ some env.sb := by
      intro hj
      obtain ⟨k, hk⟩ := hcarries.known j env.sb hj
      exact hsb k hk
    split_ifs at hr
    · obtain ⟨c', -, hc'⟩ := Option.map_eq_some_iff.mp hr
      cases hc'
    · obtain ⟨c', -, hc'⟩ := Option.map_eq_some_iff.mp hr
      cases hc'
    · cases hr
    · exact mountOn_grounded hcarries.grounded hsb' hr

theorem Booted.grounded (h : s.Booted) : s.cache.Grounded := by
  obtain ⟨s₀, caller, flags, env, hcold, -, hr⟩ := h
  have hslot (i : ℕ) : s₀.cache.slots i = .zero := hcold i
  have hgrounded : s₀.cache.Grounded := by
    refine ⟨fun i hi => ?_, fun i b r hb _ => ?_, fun i r hi => ?_⟩
    · exact absurd (congrArg VfsInode.sb (hslot i)) hi
    · rw [hslot] at hb
      cases hb
    · rw [hslot] at hi
      cases hi
  apply vfsMount_grounded hgrounded ?_ ?_ hr
  · intro i _
    rw [hslot]
    decide
  · intro i
    rw [hslot]
    intro h
    cases h

/-- A call keeps the roots in place. -/
theorem grounded_step {e : MountEvent} (h : s.cache.Grounded) (hc : s.cache.Roomy ∧ s.Known e)
    (hst : MountStep s e t) : t.cache.Grounded := by
  obtain ⟨hroom, hknown⟩ := hc
  obtain ⟨hst, hfresh⟩ := hst
  cases e with
  | lookup caller path env =>
      obtain ⟨⟨r, c⟩, hr, ht⟩ := Option.map_eq_some_iff.mp hst
      cases ht
      exact (vfsLookup_carries h hroom hr).grounded
  | get sb ino env =>
      cases hst
      obtain ⟨k, hk⟩ := hknown
      cases hget : s.cache.inodeGet sb ino env with
      | mk r c =>
          rcases inodeGet_spec hget with ⟨-, rfl⟩ | ⟨i, -, hg⟩
          · exact h
          · exact ((Carries.refl h).get hroom (by simp) hk hg).grounded
  | put i =>
      obtain ⟨c, hput, hc⟩ := Option.map_eq_some_iff.mp hst
      cases hc
      exact h.put hput
  | mount caller name flags env =>
      obtain ⟨⟨z, u⟩, hr, hu⟩ := Option.bind_eq_some_iff.mp hst
      split_ifs at hu with hz
      cases hu
      cases hz
      apply vfsMount_grounded h hroom ?_ hr
      intro i hi
      have hlt := h.lt i (by rw [hi]; exact Option.some_ne_none _)
      exact hfresh i hlt hi

/-! ## Clean failure -/

/-- The inodes that a lookup searches have the operations that `inode_get` left. -/
theorem map_op_searched : (s.searched caller path env).map VfsInode.op = s.opsOnWay caller path env := by
  unfold Mounts.searched Mounts.opsOnWay
  cases hsb : (s.cache.slots (base caller path)).sb with
  | none => simp only [hsb, List.map_nil]
  | some b =>
      simp only [hsb]
      split_ifs with hskip
      · rfl
      · rw [not_or] at hskip
        cases hget : s.cache.inodeGet b (s.cache.slots (base caller path)).ino (env.read 0) with
        | mk r c =>
            cases r with
            | none => rfl
            | some i =>
                simp only
                rw [InodeCache.map_op_searched hskip.1, inodeGet_op hget]

theorem searched_nil (h : components path = []) : s.searched caller path env = [] := by
  unfold Mounts.searched
  simp only [h, true_or, if_true]
  split <;> rfl

/-- What a lookup has found of the inodes it has looked a component up in. -/
theorem vfsLookup_searched {r : Option ℕ} (hr : s.vfsLookup caller path env = some (r, c)) :
    (∀ d ∈ s.searched caller path env, d.op = some .ext2Dir) ∧
      (r ≠ none → ∀ d ∈ s.searched caller path env, isDir d.mode = true) := by
  by_cases hne : components path = []
  · simp [searched_nil hne]
  rcases vfsLookup_components hne hr with ⟨-, -, hnil⟩ | ⟨-, b, k, c₁, -, -, hsearched, hloop⟩
  · simp [hnil]
  · obtain ⟨hops, hrest⟩ := lookupLoop_searched hloop
    rw [hsearched]
    exact ⟨hops, fun hr => (hrest hr).1⟩

/-- A lookup calls and reads nothing at `NULL`. -/
theorem vfsLookup_returns (h : s.cache.Grounded) (hroom : s.cache.Roomy)
    (hbase : (s.cache.slots (base caller path)).sb ≠ none)
    (hops : ∀ d ∈ s.searched caller path env, d.op = some .ext2Dir) :
    ∃ r c, s.vfsLookup caller path env = some (r, c) := by
  obtain ⟨b, hsb⟩ := Option.ne_none_iff_exists'.mp hbase
  unfold vfsLookup
  unfold Mounts.searched at hops
  simp only [hsb] at hops ⊢
  split_ifs with hpath hnil hperm hsplit
  · exact ⟨_, _, rfl⟩
  · exact ⟨_, _, rfl⟩
  · exact ⟨_, _, rfl⟩
  · exact ⟨_, _, rfl⟩
  · rw [if_neg (by simp only [not_or]; exact ⟨hnil, hperm, hsplit⟩)] at hops
    cases hget : s.cache.inodeGet b (s.cache.slots (base caller path)).ino (env.read 0) with
    | mk new c₁ =>
        rw [hget] at hops
        rcases inodeGet_spec hget with ⟨rfl, -⟩ | ⟨i, rfl, hg⟩
        · exact ⟨_, _, rfl⟩
        · exact ((Carries.refl h).get hroom (by simp) hsb hg).lookupLoop hroom hg.node hops

/-- In a file system in use every lookup fails cleanly at what is not a directory, provided that
whatever it comes to with components left has the operations of a directory. -/
theorem failsCleanly_iff (h : s.cache.Grounded) (hroom : s.cache.Roomy)
    (hbase : (s.cache.slots (base caller path)).sb ≠ none) :
    s.FailsCleanly caller path env ↔ ∀ op ∈ s.opsOnWay caller path env, op = some .ext2Dir := by
  rw [← map_op_searched, List.forall_mem_map]
  constructor
  · intro hclean
    obtain ⟨r, c, hr, -⟩ := hclean
    exact (vfsLookup_searched hr).1
  · intro hops
    obtain ⟨r, c, hr⟩ := vfsLookup_returns h hroom hbase hops
    refine ⟨r, c, hr, fun hfile => ?_⟩
    by_contra hsome
    obtain ⟨d, hd, hnot⟩ := hfile
    have hdir := (vfsLookup_searched hr).2 hsome d hd
    rw [hnot] at hdir
    cases hdir

/-- After every history of mounts, lookups, gets and puts `vfs_lookup` fails cleanly at what is
not a directory exactly if the inode it starts from, and each that a component but the last
leads to, gets the operations of a directory from `inode_get`. -/
theorem walk_fails_cleanly_iff {tr : List (Mounts × MountEvent)} (hs : s.Booted)
    (h : Trace MountStep s tr u) (hc : ∀ x ∈ tr, x.1.cache.Roomy ∧ x.1.Known x.2)
    (hroom : u.cache.Roomy) (hbase : (u.cache.slots (base caller path)).sb ≠ none) :
    u.FailsCleanly caller path env ↔ ∀ op ∈ u.opsOnWay caller path env, op = some .ext2Dir := by
  have hgrounded := (h.throughout_of (I := fun s => s.cache.Grounded)
    (fun _ _ _ hs hc hst => grounded_step hs hc hst) hs.grounded hc).2
  exact failsCleanly_iff hgrounded hroom hbase

/-- A file system is mounted on `/mnt`, in which nothing is found. -/
theorem walk_fails_cleanly_iff_mnt : ∃ (s u : Mounts) (tr : List (Mounts × MountEvent)),
    s.Booted ∧ Trace MountStep s tr u ∧
      u.FailsCleanly rootUser ['/', 'm', 'n', 't', '/', 'x'] (mountedAt 11).lookup := by
  have hrun : ((unmounted.call bootMount).any fun s =>
      ((exec call s pinnedRun).any fun u => u.cache.Roomy && (u.cache.slots 0).sb = some 10 &&
        u.opsOnWay rootUser ['/', 'm', 'n', 't', '/', 'x'] (mountedAt 11).lookup =
          [some .ext2Dir, some .ext2Dir]) &&
      (history call s pinnedRun).all fun x =>
        x.1.Fresh x.2 && x.1.cache.Roomy && (x.1.cache.slots 0).sb = some 10) = true := by
    decide +kernel
  obtain ⟨s, hs, hrest⟩ := (Option.any_eq_true _ _).mp hrun
  obtain ⟨hexec, hall⟩ := Bool.and_eq_true_iff.mp hrest
  obtain ⟨u, hu, hend⟩ := (Option.any_eq_true _ _).mp hexec
  have hx := fun x hx => List.all_eq_true.mp hall x hx
  simp only [Bool.and_eq_true, decide_eq_true_eq] at hx hend
  obtain ⟨⟨hroom, hbase⟩, hops⟩ := hend
  have htr : Trace MountStep s (history call s pinnedRun) u :=
    (exec_trace hu).imp (C := fun s e => s.Fresh e) (fun _ _ _ hf hst => ⟨hst, hf⟩)
      fun x hmem => (hx x hmem).1.1
  have hbooted := booted_of_call (fun _ => rfl) rfl hs
  have hknown : ∀ x ∈ history call s pinnedRun, x.1.cache.Roomy ∧ x.1.Known x.2 := by
    intro x hmem
    refine ⟨(hx x hmem).1.2, ?_⟩
    have hev := mem_history hmem
    simp only [pinnedRun, List.mem_cons, List.not_mem_nil, or_false] at hev
    rcases hev with he | he | he | he <;> rw [he]
    · exact ⟨0, (hx x hmem).2⟩
    · trivial
    · trivial
    · trivial
  have hbase' : (u.cache.slots (base rootUser ['/', 'm', 'n', 't', '/', 'x'])).sb ≠ none := by
    rw [show base rootUser ['/', 'm', 'n', 't', '/', 'x'] = 0 from rfl, hbase]
    exact Option.some_ne_none _
  refine ⟨s, u, _, hbooted, htr, (walk_fails_cleanly_iff hbooted htr hknown hroom hbase').mpr ?_⟩
  rw [hops]
  decide

/-- A root directory with the regular file `f`. -/
def unmountedFile : Mounts :=
  { unmounted with
    cache :=
      { slots := fun _ => .zero, supers := fun _ => smallSuper, devices := fun _ => smallDevice
        nullReads := 0 }
    entries := fun _ _ name => if name = ['f'] then some 11 else none }

/-- After boot `/f/x` calls the lookup operation of the file `f`. -/
theorem not_walk_fails_cleanly_file : ¬ ∀ (s : Mounts) (caller : Caller) (path : Path) (env : LookupEnv),
    s.Booted → s.cache.Roomy → (s.cache.slots (base caller path)).sb ≠ none →
      s.FailsCleanly caller path env := by
  intro hclaim
  have hrun : ((unmountedFile.call bootMount).any fun s => s.cache.Roomy &&
      (s.cache.slots 0).sb = some 10 &&
      (s.vfsLookup rootUser ['/', 'f', '/', 'x'] (mountedAt 11).lookup).isNone) = true := by
    decide +kernel
  obtain ⟨s, hs, hrest⟩ := (Option.any_eq_true _ _).mp hrun
  simp only [Bool.and_eq_true, decide_eq_true_eq, Option.isNone_iff_eq_none] at hrest
  obtain ⟨⟨hroom, hbase⟩, hcrash⟩ := hrest
  have hbase' : (s.cache.slots (base rootUser ['/', 'f', '/', 'x'])).sb ≠ none := by
    rw [show base rootUser ['/', 'f', '/', 'x'] = 0 from rfl, hbase]
    exact Option.some_ne_none _
  obtain ⟨r, c, hr, -⟩ := hclaim s _ _ (mountedAt 11).lookup (booted_of_call (fun _ => rfl) rfl hs)
    hroom hbase'
  rw [hcrash] at hr
  cases hr

end Mounts
end Ferrite.Fs
