import Ferrite.Fs.FindEntry

/-!
# Removing a directory

`ext2_rmdir` lets `ext2_is_empty_dir` decide whether a directory may go. The inode cache
is what `inode_get` hands out: for the number of an inode the slot and the inode in it,
where the count is that of the slot afterwards. Reference counts are not followed further.
-/
namespace Ferrite.Fs
open Packed Word Records

/-- What `inode_get` hands out on one file system. -/
abbrev Inodes := ℕ → Option (ℕ × VfsInode)

/-- The result of a call with the inodes of the directory and of the target afterwards. -/
structure Rmdir where
  result : ℤ
  dir : VfsInode
  node : Option VfsInode
  fs : Ext2

namespace Ext2
variable (s : Ext2)

/-- Frees the direct blocks from `i` on, up to the first that is not allocated. -/
def freeBlocks : Ext2 → Bytes → ℕ → ℕ → Ext2
  | s, _, 0, _ => s
  | s, inode, n + 1, i =>
      if iBlock inode i = 0 then s else freeBlocks (s.freeBlock (iBlock inode i)).2 inode n (i + 1)

/-- What `ext2_rmdir` does without the name. -/
def freeDir (dir node : VfsInode) (now : ℕ) : Rmdir :=
  let freed := s.freeInode node
  if freed.1 < 0 then ⟨freed.1, dir, node, freed.2⟩
  else
    let s := freed.2.freeBlocks node.raw 12 0
    let parent := s.writeInode { dir with links := (dir.links + 0xFFFF) % 2 ^ 16, mtime := now, ctime := now }
    let target := parent.2.writeInode (node.setRaw (put 4 node.raw 20 now))
    ⟨0, parent.1, target.1, target.2⟩

/-- What it does with an empty directory. -/
def removeDir (dir node : VfsInode) (name : List Byte) (now : ℕ) : Option Rmdir :=
  let node := if 1 < node.count then { node with size := 0 } else node
  match s.deleteEntry dir name with
  | none => none
  | some (result, s) => if result < 0 then some ⟨result, dir, node, s⟩ else some (s.freeDir dir node now)

/-- `ext2_rmdir` for the directory in the slot `i` of the inode cache. -/
def rmdir (nodes : Inodes) (i : ℕ) (dir : VfsInode) (name : List Byte) (now : ℕ) : Option Rmdir :=
  match s.findEntry dir name with
  | none => none
  | some none => some ⟨-1, dir, none, s⟩
  | some (some entry) =>
      match nodes entry.inode with
      | none => some ⟨-eperm, dir, none, s⟩
      | some (j, node) =>
          if node.dev ≠ dir.dev then some ⟨-eperm, dir, node, s⟩
          else if i = j then some ⟨-eperm, dir, node, s⟩
          else if !isDir node.mode then some ⟨-enotdir, dir, node, s⟩
          else
            match s.isEmptyDir node with
            | none => none
            | some empty =>
                if empty < 0 then some ⟨-enotempty, dir, node, s⟩ else s.removeDir dir node name now

end Ext2

/-- `.` and `..`. -/
def IsDots (name : List Byte) : Prop := name = [46] ∨ name = [46, 46]

/-- No record in use has another name. -/
def OnlyDots (blocks : List (List DirEntry)) : Prop := ∀ e ∈ live blocks.flatten, IsDots e.1

variable {s : Ext2} {dir node : VfsInode} {b : Bytes} {o : ℕ} {e : DirEntry} {blocks : List (List DirEntry)}

/-! ## The check -/

theorem name_of_length_one (h : (entryAt b o).name.length = 1) : (entryAt b o).name = [b (o + 8)] := by
  rw [length_name] at h
  simp only [entryAt, h, List.range_one, List.map_singleton, Nat.add_zero]

theorem name_of_length_two (h : (entryAt b o).name.length = 2) :
    (entryAt b o).name = [b (o + 8), b (o + 9)] := by
  rw [length_name] at h
  simp only [entryAt, h, List.range_succ, List.range_zero, List.nil_append, List.cons_append, List.map_cons,
    List.map_nil, Nat.add_zero, Nat.add_assoc, Nat.reduceAdd]

theorem IsDots.length_le {name : List Byte} (h : IsDots name) : name.length ≤ 2 := by
  rcases h with rfl | rfl <;> decide

/-- The check of single bytes is one of the name. -/
theorem isDots_iff (hne : (entryAt b o).name ≠ []) : IsDots (entryAt b o).name ↔
    ¬ (2 < (entryAt b o).name.length ∨ b (o + 8) ≠ 46 ∨ ((entryAt b o).name.length = 2 ∧ b (o + 9) ≠ 46)) := by
  have hpos := List.length_pos_of_ne_nil hne
  by_cases hlong : 2 < (entryAt b o).name.length
  · apply iff_of_false
    · intro h
      have := h.length_le
      omega
    · exact not_not.mpr (.inl hlong)
  by_cases hone : (entryAt b o).name.length = 1
  · rw [IsDots, name_of_length_one hone]
    simp
  · rw [IsDots, name_of_length_two (by omega)]
    simp

theorem other_none (h : (entryAt b o).inode ≠ 0 → IsDots (entryAt b o).name) : Ext2.other b o = none := by
  apply if_neg
  rintro ⟨hused, hother⟩
  have hne : (entryAt b o).name ≠ [] := by
    rcases h hused with h | h <;> simp [h]
  exact (isDots_iff hne).mp (h hused) hother

theorem other_some (h : entryAt b o = e) (hused : e.inode ≠ 0) (hne : e.name ≠ []) (hdots : ¬ IsDots e.name) :
    Ext2.other b o = some () := by
  subst h
  apply if_pos
  rw [isDots_iff hne, not_not] at hdots
  exact ⟨hused, hdots⟩

theorem isEmptyDir_eq (hdir : isDir node.mode = true) :
    s.isEmptyDir node = (s.walk node.raw node.size Ext2.other 14 0).map fun
      | (.hit _, _) => -enotempty
      | (.bad, _) => -eio
      | (.far, _) => -eio
      | (.ended, _) => 0 := by
  unfold Ext2.isEmptyDir
  rw [hdir]
  rfl

/-- The check passes over a directory without other names. -/
theorem DirListed.isEmptyDir_zero (h : DirListed s node blocks) (hdots : OnlyDots blocks) :
    s.isEmptyDir node = some 0 := by
  obtain ⟨rs, C, rfl⟩ := List.exists_cons_of_ne_nil (List.ne_nil_of_length_pos h.count.1)
  have hcount := h.count.2
  have hstart : DirListed s node ([] ++ ([] ++ rs) :: C) := h
  have hwalk := hstart.walk_ended (v := Ext2.other) (k := 14)
    (fun b x hx => other_none fun hused => hdots _ (mem_live_of (by simpa using hx) hused))
    (by rw [List.length_cons] at hcount; omega)
  rw [List.length_nil, Nat.zero_mul, total_nil, Nat.add_zero] at hwalk
  rw [isEmptyDir_eq h.directory, show (0 : ℤ) = (0 : ℕ) from rfl, hwalk]
  rfl

/-- The check stops at the first other name. -/
theorem DirListed.isEmptyDir_other (h : DirListed s node blocks) (hdots : ¬ OnlyDots blocks) :
    s.isEmptyDir node = some (-enotempty) := by
  classical
  obtain ⟨rs, C, rfl⟩ := List.exists_cons_of_ne_nil (List.ne_nil_of_length_pos h.count.1)
  have hcount := h.count.2
  let q (e : DirEntry) : Bool := decide (e.inode ≠ 0 ∧ ¬ IsDots e.name)
  have hsome : ((rs :: C).flatten.find? q).isSome := by
    unfold OnlyDots at hdots
    push Not at hdots
    obtain ⟨x, hx, hother⟩ := hdots
    obtain ⟨e, he, hused, hname, -⟩ := mem_live hx
    rw [List.find?_isSome]
    exact ⟨e, he, decide_eq_true ⟨hused, hname ▸ hother⟩⟩
  obtain ⟨e, he⟩ := Option.isSome_iff_exists.mp hsome
  obtain ⟨hq, dead, tail, hsplit, hdead⟩ := List.find?_eq_some_iff_append.mp he
  obtain ⟨hused, hother⟩ := of_decide_eq_true hq
  have hstart : DirListed s node ([] ++ ([] ++ rs) :: C) := h
  have hmem : e ∈ (rs :: C).flatten := hsplit ▸ List.mem_append_right _ List.mem_cons_self
  obtain ⟨p, hwalk, -⟩ := hstart.walk_hit (v := Ext2.other) (k := 14) hsplit
    (fun b x hx => other_none fun hused => by
      have hnot := hdead _ hx
      simp only [q, Bool.not_eq_true', decide_eq_false_iff_not, not_and, not_not] at hnot
      exact hnot hused)
    (fun b x hx => other_some hx hused (h.names e hmem hused) hother)
    (by rw [List.length_cons] at hcount; omega)
  rw [List.length_nil, Nat.zero_mul, total_nil, Nat.add_zero] at hwalk
  rw [isEmptyDir_eq h.directory, show (0 : ℤ) = (0 : ℕ) from rfl, hwalk]
  rfl

/-- A directory that may not go: no directory at all, the directory itself, or one with
another name in use. -/
def Kept (s : Ext2) (i j : ℕ) (node : VfsInode) : Prop :=
  isDir node.mode = false ∨ i = j ∨ ∃ blocks, DirListed s node blocks ∧ ¬ OnlyDots blocks

/-- A directory counts as empty exactly when it has no other names, and only such a
directory is removed. -/
theorem only_empty_dirs_removed (s : Ext2) :
    (∀ node blocks, DirListed s node blocks → (s.isEmptyDir node = some 0 ↔ OnlyDots blocks)) ∧
    ∀ (nodes : Inodes) (i j : ℕ) (dir node : VfsInode) (name : List Byte) (now : ℕ) (entry : DirEntry),
      s.findEntry dir name = some (some entry) → nodes entry.inode = some (j, node) → Kept s i j node →
      ∃ result < 0, s.rmdir nodes i dir name now = some ⟨result, dir, node, s⟩ := by
  constructor
  · intro node blocks h
    constructor
    · intro hzero
      by_contra hdots
      rw [h.isEmptyDir_other hdots] at hzero
      cases hzero
    · exact h.isEmptyDir_zero
  · intro nodes i j dir node name now entry hentry hnode hkept
    unfold Ext2.rmdir
    rw [hentry]
    dsimp only
    rw [hnode]
    dsimp only
    split_ifs with hdev hself hdir
    · exact ⟨-eperm, by decide, rfl⟩
    · exact ⟨-eperm, by decide, rfl⟩
    · exact ⟨-enotdir, by decide, rfl⟩
    · rcases hkept with hmode | hslot | ⟨blocks, hlisted, hdots⟩
      · simp [hmode] at hdir
      · exact absurd hslot hself
      · rw [hlisted.isEmptyDir_other hdots]
        exact ⟨-enotempty, by decide, rfl⟩

/-- The directory of the example is kept, being in use as its own entry `a`. -/
theorem only_empty_dirs_removed_home :
    homeDisk.isEmptyDir homeDir ≠ some 0 ∧
    ∃ result < 0, homeDisk.rmdir (fun _ => some (1, homeDir)) 0 homeDir [97] 7
      = some ⟨result, homeDir, homeDir, homeDisk⟩ := by
  have hdots : ¬ OnlyDots homeBlocks := fun h => absurd (h ([97], 12) (by decide)) (by unfold IsDots; decide)
  constructor
  · rw [ne_eq, (only_empty_dirs_removed homeDisk).1 homeDir homeBlocks home_listed]
    exact hdots
  · exact (only_empty_dirs_removed homeDisk).2 _ 0 1 homeDir homeDir [97] 7 ⟨12, 12, [97]⟩
      (home_holds.findEntry_eq (by decide) (by decide)) rfl (.inr (.inr ⟨homeBlocks, home_listed, hdots⟩))

end Ferrite.Fs
