import Ferrite.Fs.DirOnDisk

/-!
# Creations that fail

`ext2_create` takes the new inode back when it cannot be written and when the entry cannot be
written, in which case it returns a positive error number. `ext2_mkdir` and `ext2_mknod` take
nothing back.
-/
namespace Ferrite.Fs
open Packed Word Records

/-- The calls with their modes. -/
inductive MakeCall
  | create (mode : ℕ)
  | mkdir (mode : ℕ)
  | mknod (mode rdev : ℕ)

/-- Modes that `ext2_mknod` has no support for. -/
def unsupported (mode : ℕ) : Bool := isLnk mode || isBlk mode || isFifo mode

/-- The entry can be written: no transfer for it fails, and a block that is read has a record
with room. -/
def EntryWritten (fault : Option EntryStep) (blocks : List (List DirEntry)) : Prop :=
  fault ≠ some .loadDir ∧ fault ≠ some .store ∧
    ∃ r ∈ (blocks.take (reached fault blocks.length)).flatten, r.HasRoom

namespace Ext2
variable (s : Ext2)

def make (fault : Option MakeStep) (env : MakeEnv) (dir : VfsInode) (name : List Byte) : MakeCall → Option Make
  | .create mode => s.create fault env dir name mode
  | .mkdir mode => s.mkdir fault env dir name mode
  | .mknod mode rdev => s.mknod fault env dir name mode rdev

/-- A failure without a trace: the bitmaps, the counters and the directory are the same, and
no reference is kept. -/
structure Clean (dir : VfsInode) (n : ℕ) (r : Make) : Prop where
  negative : r.result < 0
  books : SameBooks s r.fs
  directory : ∀ i < n, r.fs.dirBlock dir.raw i = s.dirBlock dir.raw i
  released : r.held = false

/-- A call that does not write the entry fails without a trace. -/
def NoTrace (fault : Option MakeStep) (env : MakeEnv) (dir : VfsInode) (name : List Byte) (n : ℕ)
    (call : MakeCall) : Prop :=
  ∀ r, s.make fault env dir name call = some r → r.created = false → s.Clean dir n r

/-- No inode is free, or the bitmap is not read. -/
def NoInode (fault : Option MakeStep) : Prop :=
  s.Full .inodes (ceilDiv s.inodesCount s.inodesPerGroup) ∨ MakeStep.ofInode fault = some .readBitmap

/-- No transfer fails between the inode and the entry, and there is room for it. -/
def Creates (fault : Option MakeStep) (blocks : List (List DirEntry)) : Prop :=
  ¬ Spoils (MakeStep.ofInode fault) ∧ EntryWritten (MakeStep.ofEntry fault) blocks

/-- Nothing is taken, or the entry is written; only `ext2_create` takes an inode back, when
it cannot be written. -/
def Harmless (fault : Option MakeStep) (dir : VfsInode) (name : List Byte) (blocks : List (List DirEntry)) :
    MakeCall → Prop
  | .create _ => s.NoInode fault ∨ fault = some .storeNew ∨ Creates fault blocks
  | .mkdir _ => s.findEntryOn fault dir name ≠ some none ∨ s.NoInode fault ∨
      (Creates fault blocks ∧ ¬ s.BlockFails (MakeStep.ofBlock fault))
  | .mknod mode _ => s.findEntryOn fault dir name ≠ some none ∨ s.NoInode fault ∨
      (unsupported (mode % 2 ^ 16) = false ∧ Creates fault blocks)

variable {s} {t u : Ext2} {fault : Option MakeStep} {env : MakeEnv} {dir node : VfsInode} {name : List Byte}
variable {mode rdev n : ℕ} {blocks : List (List DirEntry)} {call : MakeCall} {r : Make} {entry : DirEntry}

/-! ## Traces -/

theorem SameBooks.refl (s : Ext2) : SameBooks s s := ⟨fun _ _ _ => rfl, fun _ _ _ => rfl, fun _ => rfl⟩

theorem Clean.unchanged (hr : r.result < 0) (hfs : r.fs = s) (hheld : r.held = false) : s.Clean dir n r := by
  refine ⟨hr, ?_, ?_, hheld⟩
  · rw [hfs]
    exact .refl s
  · intro i _
    rw [hfs]

theorem noTrace_iff (h : s.make fault env dir name call = some r) :
    s.NoTrace fault env dir name n call ↔ (r.created = false → s.Clean dir n r) := by
  unfold NoTrace
  rw [h]
  simp

theorem noTrace_clean (h : s.make fault env dir name call = some r) (hr : s.Clean dir n r) :
    s.NoTrace fault env dir name n call := (noTrace_iff h).mpr fun _ => hr

/-- A failure that restores everything. -/
theorem noTrace_restored {err : ℤ} {dir' : VfsInode} {made : Option VfsInode} (herr : err < 0)
    (h : s.make fault env dir name call = some ⟨err, dir', made, false, false, u⟩) (hbooks : SameBooks s u)
    (hk : KeepsDir s u dir n) : s.NoTrace fault env dir name n call :=
  noTrace_clean h ⟨herr, hbooks, hk.blocks, rfl⟩

theorem noTrace_created (h : s.make fault env dir name call = some r) (hr : r.created = true) :
    s.NoTrace fault env dir name n call := by
  apply (noTrace_iff h).mpr
  intro hcreated
  rw [hr] at hcreated
  cases hcreated

/-- An inode that stays in use is a trace. -/
theorem not_noTrace_total {err : ℤ} {dir' : VfsInode} {made : Option VfsInode} {held : Bool}
    (h : s.make fault env dir name call = some ⟨err, dir', made, held, false, u⟩)
    (htotal : u.freeTotal .inodes ≠ s.freeTotal .inodes) : ¬ s.NoTrace fault env dir name n call := by
  intro hno
  exact htotal (((noTrace_iff h).mp hno rfl).books.totals .inodes)

theorem not_noTrace_sign {err : ℤ} {dir' : VfsInode} {made : Option VfsInode} {held : Bool}
    (h : s.make fault env dir name call = some ⟨err, dir', made, held, false, u⟩) (hsign : 0 ≤ err) :
    ¬ s.NoTrace fault env dir name n call := by
  intro hno
  have hneg : err < 0 := ((noTrace_iff h).mp hno rfl).negative
  omega

/-! ## The new inode -/

/-- How the call for a new inode ends. -/
theorem Agree.newNode_spec (ha : s.Agree) (hs : s.Pools) (hmem : env.mem = true)
    (hnodes : ∀ ino, (env.nodes ino).isSome) (fault : Option MakeStep) (dev mode : ℕ) :
    (s.NoInode fault ∧ ∃ e < 0, s.newNode fault env dev mode = (none, some e, s)) ∨
    (¬ s.NoInode fault ∧ Spoils (MakeStep.ofInode fault) ∧ ∃ t, t.freeTotal .inodes ≠ s.freeTotal .inodes ∧
      s.newNode fault env dev mode = (none, some (-eio), t)) ∨
    (¬ s.NoInode fault ∧ ¬ Spoils (MakeStep.ofInode fault) ∧ ∃ node t, NewInode s t node.ino ∧
      s.newNode fault env dev mode = (some node, some 0, t)) := by
  unfold newNode NoInode
  rw [hmem]
  rcases ha.newInode_spec hs (MakeStep.ofInode fault) mode with
    ⟨hno, e, he, hcall⟩ | ⟨hfree, hspoils, t, ht, hcall⟩ | ⟨hfree, htaken, ino, t, hnew, hcall⟩
  · rw [hcall]
    exact .inl ⟨hno, e, he, rfl⟩
  · rw [hcall]
    refine .inr (.inl ⟨?_, hspoils, t, ht, rfl⟩)
    rintro (h | h)
    · exact hfree h
    · exact hspoils.2.1 h
  · obtain ⟨⟨j, node⟩, hnode⟩ := Option.isSome_iff_exists.mp (hnodes ino)
    rw [hcall]
    dsimp only
    rw [hnode]
    refine .inr (.inr ⟨?_, ?_, node.fresh dev ino mode env.now, t, hnew, rfl⟩)
    · rintro (h | h)
      · exact hfree h
      · rw [h] at htaken
        simp at htaken
    · rintro ⟨hnone, -, hzero⟩
      exact htaken.elim hnone hzero

theorem NewInode.total (hnew : NewInode s t n) : t.freeTotal .inodes ≠ s.freeTotal .inodes := by
  obtain ⟨v, w, ht, hne⟩ := hnew.tallied
  rw [ht.here.2]
  exact hne

theorem writeInode_total (s : Ext2) (node : VfsInode) (p : Pool) : (s.writeInode node).2.freeTotal p
    = s.freeTotal p := by
  unfold freeTotal writeInode
  dsimp only
  rw [write_es]

/-! ## The entry -/

/-- How the call that writes the entry ends. -/
theorem writeEntry_spec (hd : DirOnDisk s dir blocks) (hpos : 0 < s.blocksize)
    (hk : KeepsDir s u dir blocks.length)
    (fault : Option EntryStep) (entry : DirEntry) :
    (EntryWritten fault blocks ∧ ∃ w, u.writeEntry fault dir entry = some (0, u.readInode dir, w)) ∨
    (¬ EntryWritten fault blocks ∧ ∃ dir', u.writeEntry fault dir entry = some (-1, dir', u)) := by
  have hholds := hd.reread hk
  unfold EntryWritten
  by_cases hload : fault = some .loadDir
  · exact .inr ⟨fun h => h.1 hload, dir, if_pos hload⟩
  by_cases hroom : ∃ r ∈ (blocks.take (reached fault blocks.length)).flatten, r.HasRoom
  · obtain ⟨A, pre, r, post, C, htake, hA, hpre, hr⟩ := exists_first_of hroom
    have hsplit : blocks = A ++ (pre ++ r :: post) :: (C ++ blocks.drop (reached fault blocks.length)) := by
      have happend := List.take_append_drop (reached fault blocks.length) blocks
      rw [htake, List.append_assoc, List.cons_append] at happend
      exact happend.symm
    have hlen : A.length < reached fault blocks.length := by
      have hlen' := congrArg List.length htake
      rw [List.length_take, List.length_append, List.length_cons] at hlen'
      omega
    have hfound := DirChains.writeEntry_found fits_pos (hsplit ▸ hholds.dirChains) hload hA hpre hr
      (hsplit ▸ hlen) entry
    rw [hfound]
    by_cases hstore : fault = some .store
    · right
      rw [if_pos hstore]
      exact ⟨fun h => h.2.1 hstore, _, rfl⟩
    · left
      rw [if_neg hstore]
      exact ⟨⟨hload, hstore, hroom⟩, _, rfl⟩
  · right
    have hfull : ∀ r ∈ (blocks.take (reached fault blocks.length)).flatten, ¬ r.HasRoom := by
      intro r hr h
      exact hroom ⟨r, hr, h⟩
    have hupos : 0 < u.blocksize := by rw [hk.layout.blocksize]; exact hpos
    exact ⟨fun h => hroom h.2.2, _, hholds.dirChains.writeEntry_full fits_pos hupos hload hfull entry⟩

/-! ## `ext2_create` -/

theorem storeInode_true (s : Ext2) (node : VfsInode) : s.storeInode true node = (-1, node, s) := rfl
theorem storeInode_false (s : Ext2) (node : VfsInode) : s.storeInode false node = (0, s.writeInode node) := rfl

theorem Agree.create_iff (ha : s.Agree) (hs : s.Pools) (hd : DirOnDisk s dir blocks) (hmem : env.mem = true)
    (hnodes : ∀ ino, (env.nodes ino).isSome) :
    s.NoTrace fault env dir name blocks.length (.create mode) ↔ s.Harmless fault dir name blocks
      (.create mode) := by
  have hpos : 0 < s.blocksize := by have := hs.perGroup .blocks; omega
  have hmake : s.make fault env dir name (.create mode) = s.create fault env dir name mode := rfl
  unfold Harmless
  dsimp only
  unfold create at hmake
  rcases ha.newNode_spec hs hmem hnodes fault dir.dev mode with
    ⟨hno, e, he, hnew⟩ | ⟨hsome, hspoils, t, ht, hnew⟩ | ⟨hsome, hkept, node, t, hnode, hnew⟩
  · rw [hnew] at hmake
    exact iff_of_true (noTrace_clean hmake (.unchanged he rfl rfl)) (.inl hno)
  · rw [hnew] at hmake
    apply iff_of_false
    · exact not_noTrace_total hmake ht
    · rintro (h | rfl | h)
      · exact hsome h
      · exact hspoils.1 rfl
      · exact h.1 hspoils
  rw [hnew] at hmake
  dsimp only at hmake
  by_cases hstore : fault = some .storeNew
  · rw [decide_eq_true hstore, storeInode_true] at hmake
    dsimp only at hmake
    rw [if_pos (by decide)] at hmake
    obtain ⟨hbooks, hlayout, hframe⟩ := hnode.undo ha hs rfl
    have hkeeps := KeepsDir.of_sectors hd hlayout fun p hp => hframe p (hd.books _ hp)
    exact iff_of_true (noTrace_restored (by decide) hmake hbooks hkeeps) (.inr (.inl hstore))
  have hkeeps : KeepsDir s (t.writeInode node).2 dir blocks.length :=
    (hnode.keepsDir hd).writeInode hd hnode.range (hnode.ne_dir hd)
  rw [decide_eq_false hstore, storeInode_false] at hmake
  rcases hwrite : t.writeInode node with ⟨node', u⟩
  rw [hwrite] at hmake hkeeps
  dsimp only at hmake
  rw [if_neg (by decide)] at hmake
  rcases writeEntry_spec hd hpos hkeeps (MakeStep.ofEntry fault) (newEntry node'.ino name) with
    ⟨hwritten, w, hentry⟩ | ⟨hnot, dir', hentry⟩
  · rw [hentry] at hmake
    dsimp only at hmake
    rw [if_neg (by decide)] at hmake
    rcases hdir : w.storeInode (fault = some .storeDir) (u.readInode dir) with ⟨err, dir', w'⟩
    rw [hdir] at hmake
    exact iff_of_true (noTrace_created hmake rfl) (.inr (.inr ⟨hkept, hwritten⟩))
  · rw [hentry] at hmake
    dsimp only at hmake
    rw [if_pos (by decide)] at hmake
    apply iff_of_false
    · exact not_noTrace_sign hmake (by decide)
    · rintro (h | h | h)
      · exact hsome h
      · exact hstore h
      · exact hnot h.2

/-! ## `ext2_mkdir` -/

/-- The new inode is no block. -/
theorem NewInode.blockFails (hnew : NewInode s t n) (f : Option Transfer) : t.BlockFails f ↔
    s.BlockFails f := by
  obtain ⟨v, w, ht, -⟩ := hnew.tallied
  have htotal : t.freeBlocksCount = s.freeBlocksCount := ht.totals .blocks (by simp)
  have hfull (k : ℕ) : t.Full .blocks k ↔ s.Full .blocks k := by
    unfold Full
    simp only [ht.counts .blocks _ (show (Pool.blocks, _) ≠ _ by simp)]
  unfold BlockFails
  rw [htotal, hfull, ht.layout.blocksCount, ht.layout.blocksPerGroup]

theorem fillDir_created (s : Ext2) (fault : Option MakeStep) (now : ℕ) (dir node : VfsInode) :
    (s.fillDir fault now dir node).created = true := by
  unfold fillDir
  rcases s.storeInode (fault = some .storeNew) node with ⟨err, node', t⟩
  dsimp only
  split_ifs <;> rfl

theorem Agree.mkdir_iff (ha : s.Agree) (hs : s.Pools) (hd : DirOnDisk s dir blocks) (hmem : env.mem = true)
    (hnodes : ∀ ino, (env.nodes ino).isSome) :
    s.NoTrace fault env dir name blocks.length (.mkdir mode) ↔ s.Harmless fault dir name blocks
      (.mkdir mode) := by
  have hpos : 0 < s.blocksize := by have := hs.perGroup .blocks; omega
  have hmake : s.make fault env dir name (.mkdir mode) = s.mkdir fault env dir name mode := rfl
  have hdir := hd.directory
  unfold Harmless
  dsimp only
  unfold mkdir at hmake
  rw [hdir, if_neg (by simp)] at hmake
  match hfind : s.findEntryOn fault dir name with
  | none =>
      rw [hfind] at hmake
      apply iff_of_true _ (.inl (by simp))
      intro r hr
      rw [hmake] at hr
      cases hr
  | some (some e) =>
      rw [hfind] at hmake
      exact iff_of_true (noTrace_clean hmake (.unchanged (show (-1 : ℤ) < 0 by decide) rfl rfl))
        (.inl (by simp))
  | some none =>
      rw [hfind] at hmake
      dsimp only at hmake
      rcases ha.newNode_spec hs hmem hnodes fault dir.dev mode with
        ⟨hno, e, he, hnew⟩ | ⟨hsome, hspoils, t, ht, hnew⟩ | ⟨hsome, hkept, node, t, hnode, hnew⟩
      · rw [hnew] at hmake
        exact iff_of_true (noTrace_clean hmake (.unchanged he rfl rfl)) (.inr (.inl hno))
      · rw [hnew] at hmake
        apply iff_of_false
        · exact not_noTrace_total hmake ht
        · rintro (h | h | h)
          · exact h rfl
          · exact hsome h
          · exact h.1.1 hspoils
      rw [hnew] at hmake
      dsimp only at hmake
      obtain ⟨v, w, ht, -⟩ := hnode.tallied
      obtain ⟨r, err, u, hblock, htaken, herr⟩ := hnode.agree.newBlock_spec (ht.pools hs)
          (MakeStep.ofBlock fault)
      have hor : (err.or (some 0)).getD 0 = err.getD 0 := by cases err <;> rfl
      have htotal : u.freeTotal .inodes ≠ s.freeTotal .inodes := by
        rw [htaken.inodes]
        exact hnode.total
      rw [hblock] at hmake
      dsimp only at hmake
      rw [hor] at hmake
      rw [hnode.blockFails] at herr
      by_cases hfails : s.BlockFails (MakeStep.ofBlock fault)
      · rw [if_pos (herr.mpr hfails)] at hmake
        apply iff_of_false
        · exact not_noTrace_total hmake htotal
        · rintro (h | h | h)
          · exact h rfl
          · exact hsome h
          · exact h.2 hfails
      rw [if_neg fun h => hfails (herr.mp h)] at hmake
      have hkeeps := hnode.keepsDir_block hd hs htaken
      rcases writeEntry_spec hd hpos hkeeps (MakeStep.ofEntry fault)
          (newEntry (node.withBlock u.blocksize r).ino name) with ⟨hwritten, w', hentry⟩ | ⟨hnot, dir', hentry⟩
      · rw [hentry] at hmake
        dsimp only at hmake
        rw [if_neg (by decide)] at hmake
        exact iff_of_true (noTrace_created hmake (fillDir_created ..)) (.inr (.inr ⟨⟨hkept, hwritten⟩, hfails⟩))
      · rw [hentry] at hmake
        dsimp only at hmake
        rw [if_pos (by decide)] at hmake
        apply iff_of_false
        · exact not_noTrace_total hmake htotal
        · rintro (h | h | h)
          · exact h rfl
          · exact hsome h
          · exact hnot h.1.2

/-! ## `ext2_mknod` -/

theorem unsupported_of_type {type : ℕ} (h : mode &&& sIfmt = type)
    (hno : type ≠ sIflnk ∧ type ≠ sIfblk ∧ type ≠ sIfifo) : unsupported mode = false := by
  unfold unsupported isLnk isBlk isFifo
  rw [h, decide_eq_false hno.1, decide_eq_false hno.2.1, decide_eq_false hno.2.2]
  rfl

/-- Whether a mode has support. -/
theorem nodeFor_spec (env : MakeEnv) (dir node : VfsInode) (mode rdev : ℕ) :
    ∃ node', nodeFor env dir node mode rdev = (node', !unsupported (mode % 2 ^ 16)) ∧ node'.ino = node.ino := by
  unfold nodeFor
  dsimp only
  by_cases hreg : isReg (mode % 2 ^ 16)
  · rw [if_pos hreg, unsupported_of_type (of_decide_eq_true hreg) (by decide)]
    exact ⟨_, rfl, rfl⟩
  rw [if_neg hreg]
  by_cases hdir : isDir (mode % 2 ^ 16)
  · rw [if_pos hdir, unsupported_of_type (of_decide_eq_true hdir) (by decide)]
    exact ⟨_, rfl, rfl⟩
  rw [if_neg hdir]
  unfold unsupported
  by_cases hlnk : isLnk (mode % 2 ^ 16)
  · rw [if_pos hlnk, hlnk]
    exact ⟨_, rfl, rfl⟩
  rw [if_neg hlnk, Bool.of_not_eq_true hlnk]
  by_cases hchr : isChr (mode % 2 ^ 16)
  · have hsupported := unsupported_of_type (of_decide_eq_true hchr) (by decide)
    unfold unsupported at hsupported
    rw [Bool.of_not_eq_true hlnk] at hsupported
    rw [if_pos hchr, hsupported]
    exact ⟨_, rfl, rfl⟩
  rw [if_neg hchr]
  by_cases hblk : isBlk (mode % 2 ^ 16)
  · rw [if_pos hblk, hblk]
    exact ⟨_, rfl, rfl⟩
  rw [if_neg hblk, Bool.of_not_eq_true hblk]
  by_cases hfifo : isFifo (mode % 2 ^ 16)
  · rw [if_pos hfifo, hfifo]
    exact ⟨_, rfl, rfl⟩
  · rw [if_neg hfifo, Bool.of_not_eq_true hfifo]
    exact ⟨_, rfl, rfl⟩

/-- The new inode is written, or not, beside the directory. -/
theorem storeInode_keeps (node : VfsInode) (hd : DirOnDisk s dir blocks) (hk : KeepsDir s t dir blocks.length)
    (hino : 1 ≤ node.ino ∧ node.ino ≤ s.inodesCount) (hne : node.ino ≠ dir.ino) (fails : Bool) :
    ∃ err node' u, t.storeInode fails node = (err, node', u) ∧ KeepsDir s u dir blocks.length ∧
      u.freeTotal .inodes = t.freeTotal .inodes := by
  cases fails with
  | true => exact ⟨-1, node, t, storeInode_true t node, hk, rfl⟩
  | false =>
      exact ⟨0, _, _, storeInode_false t node, hk.writeInode hd hino hne, writeInode_total t node .inodes⟩

theorem Agree.mknod_iff (ha : s.Agree) (hs : s.Pools) (hd : DirOnDisk s dir blocks) (hmem : env.mem = true)
    (hnodes : ∀ ino, (env.nodes ino).isSome) :
    s.NoTrace fault env dir name blocks.length (.mknod mode rdev)
      ↔ s.Harmless fault dir name blocks (.mknod mode rdev) := by
  have hpos : 0 < s.blocksize := by have := hs.perGroup .blocks; omega
  have hmake : s.make fault env dir name (.mknod mode rdev) = s.mknod fault env dir name mode rdev := rfl
  unfold Harmless
  dsimp only
  unfold mknod at hmake
  match hfind : s.findEntryOn fault dir name with
  | none =>
      rw [hfind] at hmake
      apply iff_of_true _ (.inl (by simp))
      intro r hr
      rw [hmake] at hr
      cases hr
  | some (some e) =>
      rw [hfind] at hmake
      exact iff_of_true (noTrace_clean hmake (.unchanged (show -eexist < 0 by decide) rfl rfl)) (.inl (by simp))
  | some none =>
      rw [hfind] at hmake
      dsimp only at hmake
      rcases ha.newNode_spec hs hmem hnodes fault dir.dev mode with
        ⟨hno, e, he, hnew⟩ | ⟨hsome, hspoils, t, ht, hnew⟩ | ⟨hsome, hkept, node, t, hnode, hnew⟩
      · rw [hnew] at hmake
        dsimp only [Option.getD_some] at hmake
        rw [if_neg he.ne] at hmake
        exact iff_of_true (noTrace_clean hmake (.unchanged he rfl rfl)) (.inr (.inl hno))
      · rw [hnew] at hmake
        apply iff_of_false
        · exact not_noTrace_total hmake ht
        · rintro (h | h | h)
          · exact h rfl
          · exact hsome h
          · exact h.2.1 hspoils
      rw [hnew] at hmake
      dsimp only at hmake
      obtain ⟨node', hfor, hino⟩ := nodeFor_spec env dir node mode rdev
      rw [hfor] at hmake
      cases hmode : unsupported (mode % 2 ^ 16) with
      | true =>
          rw [hmode] at hmake
          apply iff_of_false
          · exact not_noTrace_total hmake hnode.total
          · rintro (h | h | h)
            · exact h rfl
            · exact hsome h
            · exact Bool.noConfusion h.1
      | false =>
          rw [hmode, Bool.not_false] at hmake
          obtain ⟨err, node'', u, hstore, hkeeps, htotal⟩ := storeInode_keeps node' hd (hnode.keepsDir hd)
            (hino ▸ hnode.range) (hino ▸ hnode.ne_dir hd) (fault = some .storeNew)
          dsimp only at hmake
          unfold linkNode at hmake
          rw [hstore] at hmake
          dsimp only at hmake
          rcases writeEntry_spec hd hpos hkeeps (MakeStep.ofEntry fault) (newEntry node''.ino name) with
            ⟨hwritten, w, hentry⟩ | ⟨hnot, dir', hentry⟩
          · rw [hentry] at hmake
            dsimp only at hmake
            rw [if_pos rfl] at hmake
            exact iff_of_true (noTrace_created hmake rfl) (.inr (.inr ⟨rfl, hkept, hwritten⟩))
          · rw [hentry] at hmake
            dsimp only at hmake
            rw [if_neg (by decide)] at hmake
            have hlast : (u.writeInode { node'' with links := 0 }).2.freeTotal .inodes ≠
                s.freeTotal .inodes := by
              rw [writeInode_total, htotal]
              exact hnode.total
            apply iff_of_false
            · exact not_noTrace_total hmake hlast
            · rintro (h | h | h)
              · exact h rfl
              · exact hsome h
              · exact hnot h.2.2

/-- On a file system with counters that agree, when the inode cache and the memory suffice, a
call that does not write the entry leaves no trace exactly if it has taken nothing, or is
`ext2_create` and cannot write the inode. -/
theorem no_trace_iff (s : Ext2) (ha : s.Agree) (hs : s.Pools) (dir : VfsInode) (blocks : List (List DirEntry))
    (hd : DirOnDisk s dir blocks) (env : MakeEnv) (hmem : env.mem = true)
    (hnodes : ∀ ino, (env.nodes ino).isSome)
    (fault : Option MakeStep) (name : List Byte) (call : MakeCall) :
    s.NoTrace fault env dir name blocks.length call ↔ s.Harmless fault dir name blocks call :=
  match call with
  | .create _ => ha.create_iff hs hd hmem hnodes
  | .mkdir _ => ha.mkdir_iff hs hd hmem hnodes
  | .mknod _ _ => ha.mknod_iff hs hd hmem hnodes

/-- A file system of eight blocks and eight inodes with one inode and two blocks free, and
its root directory in block 6. -/
def rootDisk : Ext2 where
  disk := fun x =>
    if x = 3072 then 0x3F
    else if x = 4096 then 0x7F
    else if x = 5248 then 0xED
    else if x = 5249 then 0x41
    else if x = 5253 then 4
    else if x = 5288 then 6
    else if 6144 ≤ x then
      (([2, 0, 0, 0, 12, 0, 1, 2, 46, 0, 0, 0, 2, 0, 0, 0, 0xF4, 3, 2, 2, 46, 46] :
      List Byte)[x - 6144]?).getD 0
    else 0
  es := put 2 (put 4 (put 4 (put 4 (put 4 (put 4 (put 4 (put 4 (fun _ => 0) 0 8) 4 9) 12 2) 16 1) 20 1)
    32 8) 40 8) 88 128
  groupDesc := fun _ => put 2 (put 2 (put 4 (put 4 (put 4 (fun _ => 0) 0 3) 4 4) 8 5) 12 2) 14 1

def rootDir : VfsInode :=
  { VfsInode.zero with ino := 2, mode := 0o40755, size := 1024, u := .ext2 (put 4 (fun _ => 0) 40 6) }

def rootBlocks : List (List DirEntry) := [[⟨2, 12, [46]⟩, ⟨2, 1012, [46, 46]⟩]]

theorem rootDisk_groups (p : Pool) : rootDisk.groups p = 1 := by
  cases p <;> decide

theorem rootDisk_clear (p : Pool) :
    rootDisk.freeCount p 0 = rootDisk.clearBits p 0 ∧ rootDisk.freeTotal p = rootDisk.clearBits p 0 := by
  cases p <;> decide

theorem rootDisk_agree : rootDisk.Agree where
  counts p g hg := by
    rw [rootDisk_groups, Nat.lt_one_iff] at hg
    rw [hg, (rootDisk_clear p).1]
  totals p := by
    rw [rootDisk_groups, (rootDisk_clear p).2]
    simp

theorem rootDisk_start (p : Pool) :
    rootDisk.bitmapStart p 0 = (if p = .blocks then 6 else 8) ∧ rootDisk.sectors = 2 := by
  cases p <;> decide

theorem rootDisk_pools : rootDisk.Pools where
  perGroup p := by cases p <;> decide
  behind p g q h hg hh := by
    rw [rootDisk_groups, Nat.lt_one_iff] at hg hh
    rw [hg, hh, (rootDisk_start p).1]
    cases p <;> decide
  apart p g q h hg hh hne := by
    rw [rootDisk_groups, Nat.lt_one_iff] at hg hh
    subst hg hh
    rw [(rootDisk_start p).1, (rootDisk_start q).1, (rootDisk_start q).2]
    unfold Apart
    cases p <;> cases q <;> first | exact absurd rfl hne | decide

theorem rootDir_sector {x : ℕ} (h : rootDisk.DirSector rootDir rootBlocks.length x) : x = 10 ∨
    x = 12 ∨ x = 13 := by
  have haddr : rootDisk.inodeAddr rootDir.ino / sectorSize = 10 := by decide
  have hblock : rootDisk.blockSector (iBlock rootDir.raw 0) = 12 := by decide
  rcases h with h | ⟨i, hi, h⟩
  · left
    rw [h, haddr]
  · obtain rfl : i = 0 := Nat.lt_one_iff.mp hi
    rw [hblock, (rootDisk_start .blocks).2] at h
    unfold Apart at h
    omega

theorem rootDir_onDisk : DirOnDisk rootDisk rootDir rootBlocks where
  holds := by
    refine ⟨by decide, by decide, by decide, by decide, ?_, by decide,
      by decide⟩
    intro i rs hi
    match i with
    | 0 =>
        cases hi
        decide +kernel
    | i + 1 => cases hi
  directory := by decide
  inode := by decide
  record := by decide
  stored := by decide
  books x hx hbooks := by
    have hsector := rootDir_sector hx
    rcases hbooks with hsuper | ⟨p, g, hg, hbook⟩
    · omega
    · rw [rootDisk_groups, Nat.lt_one_iff] at hg
      rw [hg, (rootDisk_start p).1, (rootDisk_start p).2] at hbook
      unfold Apart at hbook
      cases p <;> simp at hbook <;> omega
  inodes ino hino hle := by
    have hcount : rootDisk.inodesCount = 8 := by decide
    have haddr : ∀ i < 9, 1 ≤ i → rootDisk.inodeAddr i = 5120 + (i - 1) * 128 := by decide
    have hsize : rootDisk.inodeSize = 128 := by decide
    have hblock : rootDisk.blockSector (iBlock rootDir.raw 0) = 12 := by decide
    have hdir : rootDir.ino = 2 := rfl
    rw [hcount] at hle
    rw [haddr ino (by omega) hino, haddr rootDir.ino (by decide) (by decide), hsize, hdir]
    constructor
    · intro i hi
      obtain rfl : i = 0 := Nat.lt_one_iff.mp hi
      rw [hblock, (rootDisk_start .blocks).2]
      unfold Apart sectorSize
      omega
    · omega
  spare b hb hclear x hx := by
    have hfirst : rootDisk.firstDataBlock = 1 := by decide
    have hcount : rootDisk.blocksCount = 9 := by decide
    have hsector := rootDir_sector hx
    have hused : ∀ c < 7, rootDisk.blockBit c = true := by decide
    have hlt := hb.2
    have hge : 7 ≤ b := by
      by_contra hsmall
      rw [hused b (by omega)] at hclear
      cases hclear
    rw [(rootDisk_start .blocks).2, Nat.mod_eq_of_lt (by unfold word; omega)]
    unfold Apart
    omega

def freshEnv : MakeEnv :=
    { nodes := fun _ => some (5, VfsInode.zero), mem := true, now := 0, euid := 0, egid := 0 }

theorem no_trace_iff_store : rootDisk.NoTrace (some .storeNew) freshEnv rootDir [97] rootBlocks.length
    (.create sIfreg) :=
  (no_trace_iff rootDisk rootDisk_agree rootDisk_pools rootDir rootBlocks rootDir_onDisk freshEnv
    rfl (fun _ => rfl)
    (some .storeNew) [97] (.create sIfreg)).mpr (.inr (.inl rfl))

/-- The directory is not read again. -/
theorem trace_after_failure : ¬ ∀ (s : Ext2) (dir : VfsInode) (blocks : List (List DirEntry)) (env : MakeEnv)
    (fault : Option MakeStep) (name : List Byte) (call : MakeCall), s.Agree → s.Pools → DirOnDisk s dir blocks →
    env.mem = true → (∀ ino, (env.nodes ino).isSome) → s.NoTrace fault env dir name blocks.length call := by
  intro h
  have hno := h rootDisk rootDir rootBlocks freshEnv (some (.entry .loadDir)) [97]
      (.create sIfreg) rootDisk_agree
    rootDisk_pools rootDir_onDisk rfl fun _ => rfl
  rcases (rootDisk_agree.create_iff rootDisk_pools rootDir_onDisk rfl fun _ => rfl).mp hno with hnone |
    hstore | hcreates
  · rcases hnone with hfull | hread
    · have hgroups : 0 < ceilDiv rootDisk.inodesCount rootDisk.inodesPerGroup := by decide
      have hfree : rootDisk.freeCount .inodes 0 = 1 := by decide
      rw [hfull 0 hgroups] at hfree
      cases hfree
    · cases hread
  · cases hstore
  · exact hcreates.2.1 rfl

end Ext2
end Ferrite.Fs
