import Ferrite.Fs.Edited
import Ferrite.Fs.CreateLookup
import Ferrite.Fs.WriteSplice

/-!
# Removing files and directories

`ext2_unlink` takes the entry out of the directory and a link from the inode; with the last one it
gives back the leading direct blocks and the inode. `ext2_rmdir` gives back those of an empty
directory. Reference counts are not followed.
-/
namespace Ferrite.Fs
open Packed Word Records Shelves

/-- The result of a call with the inodes of the directory and of the file afterwards. -/
structure Unlink where
  result : ℤ
  dir : VfsInode
  node : Option VfsInode
  fs : Ext2

/-- The inode after the entry has gone. -/
def VfsInode.withoutLink (node : VfsInode) (now : ℕ) : VfsInode :=
  { node with links := (node.links + 0xFFFF) % 2 ^ 16, ctime := now }

namespace Ext2
variable (s : Ext2)

/-- The inode with a link less, and the file system without the inode if it was the last one. -/
def lessLink (node : VfsInode) (now : ℕ) : VfsInode × Ext2 :=
  let node := node.withoutLink now
  if node.links = 0 then
    let node := node.setRaw (put 4 node.raw 20 now)
    (node, ((s.freeBlocks node.raw 12 0).freeInode node).2)
  else (node, s)

/-- What `ext2_unlink` does without the entry. -/
def dropLink (dir node : VfsInode) (now : ℕ) : Unlink :=
  let less := s.lessLink node now
  let parent := less.2.writeInode { dir with ctime := now, mtime := now }
  let file := parent.2.writeInode less.1
  ⟨0, parent.1, file.1, file.2⟩

/-- `ext2_unlink`. With the inodes fixed, it never ends when the one handed out has another number. -/
def unlink (nodes : Inodes) (dir : VfsInode) (name : List Byte) (now : ℕ) : Option Unlink :=
  match s.findEntry dir name with
  | none => none
  | some none => some ⟨-enoent, dir, none, s⟩
  | some (some entry) =>
      match nodes entry.inode with
      | none => some ⟨-enoent, dir, none, s⟩
      | some (_, node) =>
          if isDir node.mode then some ⟨-eperm, dir, node, s⟩
          else if entry.inode ≠ node.ino then none
          else if node.links = 0 then some ⟨-enoent, dir, node, s⟩
          else
            match s.deleteEntry dir name with
            | none => none
            | some (result, s) => if result ≠ 0 then some ⟨result, dir, node, s⟩ else some
              (s.dropLink dir node now)

/-- The leading direct blocks and the inode. -/
def owned (node : VfsInode) : Pool → Finset ℕ
  | .blocks => blocksFrom node.raw 12 0
  | .inodes => {node.ino}

/-- What goes with the last link of a file. -/
def lastLink (node : VfsInode) (p : Pool) : Finset ℕ := if node.links = 1 then owned node p else ∅

variable {s} {t u : Ext2} {dir node : VfsInode} {A B : Pool → Finset ℕ} {W V : ℕ → Prop} {p : Pool}
variable {b k n i : ℕ} {inode : Bytes}

/-! ## The directory afterwards -/

/-- An inode in use, with blocks in use of its own, apart from the directory. -/
structure Owns (s : Ext2) (dir node : VfsInode) (n : ℕ) : Prop where
  links : 1 ≤ node.links ∧ node.links < 2 ^ 16
  inode : 1 ≤ node.ino ∧ node.ino ≤ s.inodesCount ∧ s.inodeBit node.ino = true
  other : node.ino ≠ dir.ino
  record : s.inodeAddr node.ino % sectorSize + 128 ≤ sectorSize
  books : ¬ s.Books (s.inodeAddr node.ino / sectorSize)
  blocks : ∀ i < 12, iBlock node.raw i ≠ 0 →
    s.InRange (iBlock node.raw i) ∧ s.blockBit (iBlock node.raw i) = true ∧ s.Holdable (iBlock node.raw i) ∧
      ∀ x, s.DirSector dir n x → Apart (iBlock node.raw i * s.sectors % word) s.sectors x 1
  distinct : ∀ i < 12, ∀ j < 12, iBlock node.raw i ≠ 0 → iBlock node.raw i = iBlock node.raw j → i = j

section Directory
variable {dir' : VfsInode} {blocks blocks' : List (List DirEntry)} {now : ℕ} {name : List Byte}

theorem SameLayout.dirSector (hl : SameLayout s t) (hino : dir'.ino = dir.ino)
    (hptr : ∀ i < n, iBlock dir'.raw i = iBlock dir.raw i) {x : ℕ} :
    t.DirSector dir' n x ↔ s.DirSector dir n x := by
  unfold DirSector
  rw [hino, hl.inodeAddr, hl.sectors]
  refine or_congr_right (exists_congr fun i => and_congr_right fun hi => ?_)
  rw [hptr i hi, hl.blockSector]

/-- A directory stays one when its blocks and its inode are kept, or written anew. -/
theorem Edited.dirOnDisk (hk : Edited s t A W) (hd : DirOnDisk s dir blocks)
    (hlen : blocks'.length = blocks.length)
    (hholds : DirHolds t dir' blocks') (hino : dir'.ino = dir.ino) (hmode : dir'.mode = dir.mode)
    (hptr : ∀ i < blocks.length, iBlock dir'.raw i = iBlock dir.raw i)
    (hstored : (t.readInode dir').mode = dir'.mode ∧ (t.readInode dir').size = dir'.size ∧
      ∀ i < 12, iBlock (t.readInode dir').raw i = iBlock dir'.raw i)
    (hinodes : dir.ino ∉ A .inodes)
    (hblocks : ∀ b ∈ A .blocks, ∀ x, s.DirSector dir blocks.length x →
    Apart (b * s.sectors % word) s.sectors x 1) :
    DirOnDisk t dir' blocks' := by
  have hl := hk.layout
  have hcount := hk.count
  have hsector (x : ℕ) (hx : t.DirSector dir' blocks'.length x) : s.DirSector dir blocks.length x := by
    rw [hlen] at hx
    exact (hl.dirSector hino hptr).mp hx
  refine ⟨hholds, ?_, ?_, ?_, hstored, ?_, ?_, ?_⟩
  · rw [hmode]
    exact hd.directory
  · have hused := (mem_used_inodes hd.inode.1).mpr hd.inode.2
    have hstays : dir.ino ∈ (t.shelf .inodes).used := by
      rw [hk.used]
      exact Finset.mem_sdiff.mpr ⟨hused, hinodes⟩
    rw [hino]
    exact ⟨hd.inode.1, (mem_used_inodes hd.inode.1).mp hstays⟩
  · rw [hl.inodeSize, hino, hl.inodeAddr]
    exact hd.record
  · intro x hx
    rw [hl.books hcount]
    exact hd.books x (hsector x hx)
  · intro ino hle hge
    rw [hcount] at hge
    obtain ⟨hfirst, hsecond⟩ := hd.inodes ino hle hge
    rw [hl.inodeAddr, hl.inodeSize, hino, hl.inodeAddr]
    refine ⟨?_, hsecond⟩
    intro i hi
    rw [hlen] at hi
    rw [hptr i hi, hl.blockSector, hl.sectors]
    exact hfirst i hi
  · intro b hb hclear x hx
    have hb' := hl.inRange.mp hb
    have hx' := hsector x hx
    rw [hl.sectors]
    by_cases hfree : s.blockBit b = false
    · exact hd.spare b hb' hfree x hx'
    · have hgone : b ∈ A .blocks := by
        by_contra hnot
        have hstays : b ∈ (t.shelf .blocks).used := by
          rw [hk.used]
          exact Finset.mem_sdiff.mpr ⟨mem_used_blocks.mpr ⟨hb', by simpa using hfree⟩, hnot⟩
        rw [(mem_used_blocks.mp hstays).2] at hclear
        cases hclear
      exact hblocks b hgone x hx'

theorem mode_stamp (node : VfsInode) : get 2 (stamp node) 0 = node.mode % 2 ^ 16 := by
  unfold stamp
  dsimp only
  iterate 8 rw [get_put_of_disjoint (by omega)]
  exact get_put ..

theorem links_stamp (node : VfsInode) : get 2 (stamp node) 26 = node.links % 2 ^ 16 := by
  unfold stamp
  dsimp only
  exact get_put ..

theorem dtime_stamp (node : VfsInode) : get 4 (stamp node) 20 = 0 := by
  unfold stamp
  dsimp only
  rw [get_put_of_disjoint (by omega), get_put, Nat.zero_mod]

/-- What the record of a directory holds. -/
theorem stored_iff (h : s.inodeAddr dir.ino % sectorSize + 128 ≤ sectorSize) :
    ((s.readInode dir).mode = dir.mode ∧ (s.readInode dir).size = dir.size ∧
      ∀ i < 12, iBlock (s.readInode dir).raw i = iBlock dir.raw i) ↔
    get 2 s.disk (s.inodeAddr dir.ino + 0) = dir.mode ∧ get 4 s.disk (s.inodeAddr dir.ino + 4) = dir.size ∧
      ∀ i < 12, get 4 s.disk (s.inodeAddr dir.ino + (40 + 4 * i)) = iBlock dir.raw i := by
  have hmode : (s.readInode dir).mode = get 2 s.disk (s.inodeAddr dir.ino + 0) := readInode_get h (by omega)
  have hsize : (s.readInode dir).size = get 4 s.disk (s.inodeAddr dir.ino + 4) := readInode_get h (by omega)
  have hptr (i : ℕ) (hi : i < 12) :
      iBlock (s.readInode dir).raw i = get 4 s.disk (s.inodeAddr dir.ino + (40 + 4 * i)) :=
    readInode_get h (by omega)
  rw [hmode, hsize]
  exact and_congr_right fun _ => and_congr_right fun _ => forall_congr' fun i => imp_congr_right fun hi => by
    rw [hptr i hi]

/-! ## The entry -/

theorem Edited.owns (hk : Edited s t (fun _ => ∅) W) (hf : Owns s dir node n) : Owns t dir node n := by
  have hl := hk.layout
  refine ⟨hf.links, ?_, hf.other, ?_, ?_, ?_, hf.distinct⟩
  · have hused : node.ino ∈ (t.shelf .inodes).used := by
      rw [hk.used, Finset.sdiff_empty]
      exact (mem_used_inodes hf.inode.1).mpr hf.inode.2
    exact ⟨hf.inode.1, (mem_used_inodes hf.inode.1).mp hused⟩
  · rw [hl.inodeAddr]
    exact hf.record
  · rw [hl.books hk.count, hl.inodeAddr]
    exact hf.books
  · intro i hi hne
    obtain ⟨hrange, hbit, hhold, hapart⟩ := hf.blocks i hi hne
    have hused : iBlock node.raw i ∈ (t.shelf .blocks).used := by
      rw [hk.used, Finset.sdiff_empty]
      exact mem_used_blocks.mpr ⟨hrange, hbit⟩
    obtain ⟨hrange', hbit'⟩ := mem_used_blocks.mp hused
    refine ⟨hrange', hbit', ?_, ?_⟩
    · intro x
      rw [hl.sectors, hl.books hk.count]
      exact hhold x
    · intro x hx
      rw [hl.sectors]
      exact hapart x ((hl.dirSector rfl fun _ _ => rfl).mp hx)

/-- The entry goes, and nothing outside of the blocks of the directory changes. -/
theorem Sound.deleteEntry (hs : s.Sound) (hd : DirOnDisk s dir blocks)
    (hentry : (name, n) ∈ live blocks.flatten)
    (hok : Removable s dir blocks name n) :
    ∃ t blocks', s.deleteEntry dir name = some (0, t) ∧ Edited s t (fun _ => ∅)
      (s.DirSector dir blocks.length) ∧
      DirOnDisk t dir blocks' ∧ blocks'.length = blocks.length ∧
      live blocks'.flatten = (live blocks.flatten).erase (name, n) := by
  obtain ⟨t, blocks', hdelete, hholds, hlive⟩ := hok.sound hd.holds hentry
  obtain ⟨e, he, -, hname, -⟩ := mem_live hentry
  have hpos := hd.holds.blocksize_pos he
  let W (x : ℕ) : Prop := ∃ i < blocks.length, ¬ Apart (s.blockSector (iBlock dir.raw i)) s.sectors x 1
  have hkept : Edited s t (fun _ => ∅) W := by
    obtain ⟨A, pre, f, post, C, hsplit, hA, hpre, hf⟩ := exists_first ⟨e, he, hname⟩
    have hwrite := (hsplit ▸ hd.holds).delete (hd.holds.terminated _ hentry) hA hpre hf
    obtain ⟨-, rfl⟩ := Prod.mk.inj (Option.some.inj (hdelete.symm.trans hwrite))
    have hsector (x : ℕ) (hx : s.blockSector (iBlock dir.raw A.length) ≤ x ∧
        x < s.blockSector (iBlock dir.raw A.length) + s.sectors) : W x := by
      refine ⟨A.length, by simp [hsplit], ?_⟩
      unfold Apart
      omega
    exact (hs.write fun x hle hlt => hd.books x (.inr (hsector x ⟨hle, hlt⟩))).congr (fun _ => rfl) hsector
  have hl := hkept.layout
  have hlen : blocks'.length = blocks.length := by
    have hsize := hholds.size.1
    rw [hl.blocksize, hd.holds.size.1] at hsize
    exact (Nat.eq_of_mul_eq_mul_right hpos hsize).symm
  have hrecord : ∀ k < 128, t.disk (s.inodeAddr dir.ino + k) = s.disk (s.inodeAddr dir.ino + k) := by
    intro k hk
    have hsector : (s.inodeAddr dir.ino + k) / sectorSize = s.inodeAddr dir.ino / sectorSize := by
      have := hd.record.2
      unfold sectorSize at *
      omega
    apply hkept.frame
    · rw [hsector]
      exact hd.books _ (.inl rfl)
    · rw [hsector]
      rintro ⟨i, hi, hmeet⟩
      exact hmeet ((hd.inodes dir.ino hd.inode.1 hd.inode.2.1).1 i hi)
  have hstored : (t.readInode dir).mode = dir.mode ∧ (t.readInode dir).size = dir.size ∧
      ∀ i < 12, iBlock (t.readInode dir).raw i = iBlock dir.raw i := by
    have hfield (w o : ℕ) (ho : o + w ≤ 128) : get w t.disk (s.inodeAddr dir.ino + o)
        = get w s.disk (s.inodeAddr dir.ino + o) :=
      get_shift fun k hk => by
        rw [Nat.add_assoc]
        exact hrecord (o + k) (by omega)
    obtain ⟨hmode, hsize, hptr⟩ := (stored_iff hd.record.2).mp hd.stored
    rw [stored_iff (by rw [hl.inodeAddr]; exact hd.record.2), hl.inodeAddr, hfield 2 0 (by omega),
      hfield 4 4 (by omega)]
    refine ⟨hmode, hsize, ?_⟩
    intro i hi
    rw [hfield 4 (40 + 4 * i) (by omega)]
    exact hptr i hi
  exact ⟨t, blocks', hdelete, hkept.congr (fun _ => rfl) fun _ => .inr,
    hkept.dirOnDisk hd hlen hholds rfl rfl (fun _ _ => rfl) hstored
    (Finset.notMem_empty _) (by simp), hlen, hlive⟩

/-! ## The link -/

theorem Owns.freeBlocks (hs : s.Sound) (hf : Owns s dir node n)
    (hptr : ∀ i, iBlock inode i = iBlock node.raw i) :
    Edited s (s.freeBlocks inode 12 0)
      (Function.update (fun _ => ∅) .blocks (owned node .blocks)) fun _ => False := by
  have hrun : allocatedUpTo inode 12 0 = allocatedUpTo node.raw 12 0 := allocatedUpTo_congr fun j _ => hptr j
  have hsame : blocksFrom inode 12 0 = owned node .blocks := by
    unfold owned blocksFrom
    rw [hrun]
    exact Finset.image_congr fun i _ => hptr i
  rw [← hsame]
  apply hs.freeBlocks
  · intro j _ hj hne
    rw [hptr] at hne ⊢
    obtain ⟨hrange, hbit, hhold, -⟩ := hf.blocks j (by omega) hne
    exact ⟨mem_used_blocks.mpr ⟨hrange, hbit⟩, hhold⟩
  · intro j l _ hjl hl hne heq
    rw [hptr] at hne heq
    rw [hptr] at heq
    exact hjl.ne (hf.distinct j (by omega) l (by omega) hne heq)

/-- The blocks and then the inode are given back. -/
theorem Owns.freed {node' : VfsInode} (hs : s.Sound) (hf : Owns s dir node n)
    (hptr : ∀ i, iBlock node'.raw i = iBlock node.raw i) (hino : node'.ino = node.ino) :
    Edited s ((s.freeBlocks node'.raw 12 0).freeInode node').2 (owned node) fun _ => False := by
  have hblocks := hf.freeBlocks hs hptr
  have hused : node'.ino ∈ ((s.freeBlocks node'.raw 12 0).shelf .inodes).used := by
    rw [hblocks.used, Function.update_of_ne (by decide), Finset.sdiff_empty, hino]
    exact (mem_used_inodes hf.inode.1).mpr hf.inode.2
  have hinode := (hblocks.sound.freeInode (hino ▸ hf.inode.1) hused).2
  refine (hblocks.trans hinode).congr (fun p => ?_) fun x h => h.elim id id
  cases p with
  | blocks => rw [Function.update_self, Function.update_of_ne (by decide), Finset.union_empty]
  | inodes =>
      rw [Function.update_self, Function.update_of_ne (by decide), Finset.empty_union, hino]
      rfl

theorem withoutLink_ino (node : VfsInode) (now : ℕ) : (node.withoutLink now).ino = node.ino := by
  rw [VfsInode.withoutLink]

theorem withoutLink_raw (node : VfsInode) (now : ℕ) : (node.withoutLink now).raw = node.raw := by
  rw [VfsInode.withoutLink, VfsInode.raw, VfsInode.raw]

theorem Owns.withoutLink_links (hf : Owns s dir node n) (now : ℕ) :
    (node.withoutLink now).links = node.links - 1 := by
  have := hf.links
  rw [VfsInode.withoutLink]
  dsimp only
  omega

theorem Owns.lessLink (hs : s.Sound) (hf : Owns s dir node n) (now : ℕ) :
    ∃ node' u, s.lessLink node now = (node', u) ∧ Edited s u (lastLink node) (fun _ => False) ∧
      node'.ino = node.ino ∧ node'.links = node.links - 1 := by
  have hlinks := hf.withoutLink_links now
  have hino := withoutLink_ino node now
  have hraw := withoutLink_raw node now
  unfold Ext2.lessLink
  generalize node.withoutLink now = less at *
  dsimp only
  by_cases hlast : node.links = 1
  · rw [if_pos (by omega)]
    refine ⟨_, _, rfl, (hf.freed hs (fun i => ?_) ((setRaw_ino less _).trans hino)).congr
      (fun p => (if_pos hlast).symm) fun _ h => h, hino, hlinks⟩
    rw [raw_setRaw, hraw]
    exact get_put_of_disjoint (by omega)
  · have := hf.links
    rw [if_neg (by omega)]
    exact ⟨less, s, rfl, (Edited.refl hs).congr (fun p => (if_neg hlast).symm) fun _ h => h, hino, hlinks⟩

/-! ## The call -/

/-- What is left when the name is gone. -/
structure Unlinked (s : Ext2) (dir node : VfsInode) (blocks : List (List DirEntry)) (name : List Byte)
    (r : Unlink) : Prop where
  result : r.result = 0
  edited : Edited s r.fs (lastLink node) fun x =>
    s.DirSector dir blocks.length x ∨ x = s.inodeAddr node.ino / sectorSize
  directory : ∃ blocks', DirOnDisk r.fs r.dir blocks' ∧
    live blocks'.flatten = (live blocks.flatten).erase (name, node.ino)
  links : get 2 r.fs.disk (s.inodeAddr node.ino + 26) = node.links - 1
  dtime : get 4 r.fs.disk (s.inodeAddr node.ino + 20) = 0

theorem lastLink_sub (node : VfsInode) (p : Pool) : lastLink node p ⊆ owned node p := by
  unfold lastLink
  split_ifs
  · exact Finset.Subset.refl _
  · exact Finset.empty_subset _

theorem mem_owned_blocks (h : b ∈ owned node .blocks) : ∃ i < 12, iBlock node.raw i ≠ 0 ∧
    iBlock node.raw i = b := by
  unfold owned blocksFrom at h
  obtain ⟨i, hi, rfl⟩ := Finset.mem_image.mp h
  have hrun := (Finset.mem_Ico.mp hi).2
  have hle := (le_allocatedUpTo node.raw 12 0).2
  exact ⟨i, by omega, allocatedUpTo_below (Nat.zero_le i) hrun, rfl⟩

/-- The inodes of the directory and of a file are written, after numbers have been given back. -/
theorem Owns.written {node' : VfsInode} (hf : Owns s dir node blocks.length) (parent : VfsInode)
    (hd : DirOnDisk s dir blocks) (hfreed : Edited s u A fun _ => False) (hA : ∀ p, A p ⊆ owned node p)
    (hino : parent.ino = dir.ino) (hmode : parent.mode = dir.mode) (hsize : parent.size = dir.size)
    (hraw : parent.raw = dir.raw) (hnode : node'.ino = node.ino) :
    DirOnDisk ((u.writeInode parent).2.writeInode node').2 (u.writeInode parent).1 blocks ∧
      Edited s ((u.writeInode parent).2.writeInode node').2 A
        (fun x => s.DirSector dir blocks.length x ∨ x = s.inodeAddr node.ino / sectorSize) ∧
      ∀ w o, o + w ≤ 128 →
        get w ((u.writeInode parent).2.writeInode node').2.disk (s.inodeAddr dir.ino + o) = get w
          (stamp parent) o ∧
          get w ((u.writeInode parent).2.writeInode node').2.disk (s.inodeAddr node.ino + o)
            = get w (stamp node') o := by
  have hul := hfreed.layout
  have hpaddr : u.inodeAddr parent.ino = s.inodeAddr dir.ino := by rw [hul.inodeAddr, hino]
  have hwrite : Edited u (u.writeInode parent).2 (fun _ => ∅) fun x =>
      x = u.inodeAddr parent.ino / sectorSize := by
    apply hfreed.sound.writeInode
    rw [hul.books hfreed.count, hpaddr]
    exact hd.books _ (.inl rfl)
  have hvl := hul.trans hwrite.layout
  have haddr : (u.writeInode parent).2.inodeAddr node'.ino
      = s.inodeAddr node.ino := by rw [hvl.inodeAddr, hnode]
  have hwrite' : Edited (u.writeInode parent).2 ((u.writeInode parent).2.writeInode node').2 (fun _ => ∅)
      fun x => x = (u.writeInode parent).2.inodeAddr node'.ino / sectorSize := by
    apply hwrite.sound.writeInode
    rw [haddr, hwrite.layout.books hwrite.count, hul.books hfreed.count]
    exact hf.books
  have hk : Edited s ((u.writeInode parent).2.writeInode node').2 A fun x =>
      x = s.inodeAddr dir.ino / sectorSize ∨ x = s.inodeAddr node.ino / sectorSize := by
    refine ((hfreed.trans hwrite).trans hwrite').congr (fun p => ?_) fun x hx => ?_
    · rw [Finset.union_empty, Finset.union_empty]
    · rw [hpaddr, haddr] at hx
      exact hx.imp_left fun h => h.resolve_left id
  -- the record of the directory is apart from that of the file, which is written after it
  have hparent (w o : ℕ) (ho : o + w ≤ 128) :
      get w ((u.writeInode parent).2.writeInode node').2.disk (s.inodeAddr dir.ino + o) = get w
        (stamp parent) o := by
    have hrecord : 128 ≤ u.inodeSize ∧ u.inodeAddr parent.ino % sectorSize + 128 ≤ sectorSize := by
      rw [hul.inodeSize, hpaddr]
      exact hd.record
    rw [← writeInode_field parent hrecord ho, hpaddr]
    apply get_congr
    intro x hx hlt
    apply writeInode_disk_apart
    rw [haddr, hvl.inodeSize]
    have := (hd.inodes node.ino hf.inode.1 hf.inode.2.1).2 hf.other
    omega
  have hfile (w o : ℕ) (ho : o + w ≤ 128) :
      get w ((u.writeInode parent).2.writeInode node').2.disk (s.inodeAddr node.ino + o) = get w
        (stamp node') o := by
    rw [← haddr]
    apply writeInode_field node' _ ho
    rw [haddr, hvl.inodeSize]
    exact ⟨hd.record.1, hf.record⟩
  refine ⟨?_, hk.congr (fun _ => rfl) fun x hx => hx.imp_left .inl, fun w o ho =>
    ⟨hparent w o ho, hfile w o ho⟩⟩
  have hnot : (isChr parent.mode || isBlk parent.mode) = false := by
    have hdir := hd.directory
    unfold isDir at hdir
    unfold isChr isBlk
    rw [hmode, of_decide_eq_true hdir]
    decide
  have hptr (i : ℕ) : iBlock (u.writeInode parent).1.raw i = iBlock dir.raw i := by
    rw [writeInode_fst, raw_setRaw, ← hraw]
    exact get_stamp hnot (by omega)
  have hdino : (u.writeInode parent).1.ino = dir.ino := (writeInode_ino u parent).trans hino
  have hdmode : (u.writeInode parent).1.mode = dir.mode := hmode
  have hdsize : (u.writeInode parent).1.size = dir.size := hsize
  have hholds : DirHolds ((u.writeInode parent).2.writeInode node').2 (u.writeInode parent).1 blocks := by
    refine hd.holds.carry hk.layout.blocksize hdsize (fun i _ => hptr i) fun i hi => ?_
    apply hk.layout.dirBlock
    intro p hp
    refine hk.frame p (hd.books _ (.inr ⟨i, hi, hp⟩)) ?_
    rintro (hsec | hsec)
    · rw [hsec] at hp
      exact hp ((hd.inodes dir.ino hd.inode.1 hd.inode.2.1).1 i hi)
    · rw [hsec] at hp
      exact hp ((hd.inodes node.ino hf.inode.1 hf.inode.2.1).1 i hi)
  obtain ⟨hsmode, hssize, -⟩ := (stored_iff hd.record.2).mp hd.stored
  refine hk.dirOnDisk hd rfl hholds hdino hdmode (fun i _ => hptr i) ?_ ?_ ?_
  · rw [stored_iff (by rw [hdino, hk.layout.inodeAddr]; exact hd.record.2), hdino, hk.layout.inodeAddr,
      hparent 2 0 (by omega), hparent 4 4 (by omega), mode_stamp, hdmode, hdsize, hmode]
    refine ⟨?_, ?_, ?_⟩
    · rw [← hsmode]
      exact Nat.mod_eq_of_lt (get_lt 2 ..)
    · have hstamp : get 4 (stamp parent) 4 = parent.size % 2 ^ 32 := iSize_stamp parent
      rw [hstamp, hsize, ← hssize]
      exact Nat.mod_eq_of_lt (get_lt 4 ..)
    · intro i hi
      rw [hparent 4 (40 + 4 * i) (by omega), hptr, ← hraw]
      exact get_stamp hnot (by omega)
  · intro hmem
    exact hf.other (Finset.mem_singleton.mp (hA .inodes hmem)).symm
  · intro b hb x hx
    obtain ⟨i, hi, hne, rfl⟩ := mem_owned_blocks (hA .blocks hb)
    exact (hf.blocks i hi hne).2.2.2 x hx

/-- What `ext2_unlink` does to the inodes. -/
theorem Owns.dropLink (hs : s.Sound) (hd : DirOnDisk s dir blocks) (hf : Owns s dir node blocks.length)
    (now : ℕ) :
    ∃ r, s.dropLink dir node now = r ∧ r.result = 0 ∧ DirOnDisk r.fs r.dir blocks ∧
      Edited s r.fs (lastLink node)
        (fun x => s.DirSector dir blocks.length x ∨ x = s.inodeAddr node.ino / sectorSize) ∧
      get 2 r.fs.disk (s.inodeAddr node.ino + 26) = node.links - 1 ∧
      get 4 r.fs.disk (s.inodeAddr node.ino + 20) = 0 := by
  obtain ⟨node', u, hless, hfreed, hino, hlinks⟩ := hf.lessLink hs now
  unfold Ext2.dropLink
  rw [hless]
  dsimp only
  generalize hparent : { dir with ctime := now, mtime := now } = parent
  obtain ⟨hdir, hedited, hfields⟩ := hf.written parent hd hfreed (lastLink_sub node)
    (by rw [← hparent]) (by rw [← hparent]) (by rw [← hparent])
      (by rw [← hparent, VfsInode.raw, VfsInode.raw]) hino
  refine ⟨_, rfl, rfl, hdir, hedited, ?_, ?_⟩
  · have := hf.links
    rw [(hfields 2 26 (by omega)).2, links_stamp, hlinks]
    exact Nat.mod_eq_of_lt (by omega)
  · rw [(hfields 4 20 (by omega)).2, dtime_stamp]

/-- The record that a name leads to, when the first record of the name is in use. -/
theorem findEntry_live (hd : DirHolds s dir blocks) (hne : name ≠ []) (hentry : (name, n) ∈ live blocks.flatten)
    (hfirst : FirstInUse blocks name) : ∃ e, s.findEntry dir name = some (some e) ∧ e.inode = n := by
  obtain ⟨x, hx, -, hname, -⟩ := mem_live hentry
  have hsome : (blocks.flatten.find? fun r => r.name = name).isSome :=
    List.find?_isSome.mpr ⟨x, hx, decide_eq_true hname⟩
  obtain ⟨e, hfind⟩ := Option.isSome_iff_exists.mp hsome
  have hename : e.name = name := by simpa using List.find?_some hfind
  have hmem := mem_live_of (List.mem_of_find?_eq_some hfind) (hfirst e hfind)
  rw [hename] at hmem
  refine ⟨e, ?_, hd.inode_eq hmem hentry⟩
  rw [hd.findEntry_eq hne (hd.terminated _ hentry), hfind]

/-- The name of a file goes, with the file if it is the last one, when its record is in use and has
another one before it in its block. -/
theorem unlink_removes (s : Ext2) (nodes : Inodes) (dir node : VfsInode) (slot : ℕ)
    (blocks : List (List DirEntry)) (name : List Byte) (now : ℕ) (hs : s.Sound) (hd : DirOnDisk s dir blocks)
    (hf : Owns s dir node blocks.length) (hreg : isReg node.mode = true)
    (hnode : nodes node.ino = some (slot, node)) (hne : name ≠ [])
    (hentry : (name, node.ino) ∈ live blocks.flatten) (hfirst : FirstInUse blocks name)
    (hok : Removable s dir blocks name node.ino) :
    ∃ r, s.unlink nodes dir name now = some r ∧ Unlinked s dir node blocks name r := by
  obtain ⟨e, hfindEntry, hino⟩ := findEntry_live hd.holds hne hentry hfirst
  obtain ⟨t, blocks', hdelete, hkept, hd', hlen, hlive⟩ := hs.deleteEntry hd hentry hok
  have hl := hkept.layout
  have hf' := hkept.owns hf
  rw [← hlen] at hf'
  obtain ⟨r, hr, hzero, hdir, hkept', hlinks, hdtime⟩ := hf'.dropLink hkept.sound hd' now
  have hnot : isDir node.mode = false := by
    unfold isReg at hreg
    unfold isDir
    rw [of_decide_eq_true hreg]
    decide
  have hone := hf.links.1
  refine ⟨r, ?_, hzero, ?_, ⟨blocks', hdir, hlive⟩, ?_, ?_⟩
  · unfold unlink
    rw [hfindEntry]
    dsimp only
    rw [hino, hnode]
    dsimp only
    rw [hnot, if_neg Bool.false_ne_true, if_neg (not_not.mpr rfl), if_neg (by omega), hdelete]
    dsimp only
    rw [if_neg (not_not.mpr rfl), hr]
  · refine (hkept.trans hkept').congr (fun p => Finset.empty_union _) fun x hx => ?_
    rw [hlen] at hx
    rcases hx with hx | hx | hx
    · exact .inl hx
    · exact .inl ((hl.dirSector rfl fun _ _ => rfl).mp hx)
    · rw [hl.inodeAddr] at hx
      exact .inr hx
  · rw [hl.inodeAddr] at hlinks
    exact hlinks
  · rw [hl.inodeAddr] at hdtime
    exact hdtime

/-! ## Directories -/

/-- What is left when a directory is gone. -/
structure DirRemoved (s : Ext2) (dir node : VfsInode) (blocks : List (List DirEntry)) (name : List Byte)
    (r : Rmdir) : Prop where
  result : r.result = 0
  edited : Edited s r.fs (owned node) fun x =>
    s.DirSector dir blocks.length x ∨ x = s.inodeAddr node.ino / sectorSize
  directory : ∃ blocks', DirOnDisk r.fs r.dir blocks' ∧
    live blocks'.flatten = (live blocks.flatten).erase (name, node.ino)
  links : get 2 r.fs.disk (s.inodeAddr dir.ino + 26) = (dir.links + 0xFFFF) % 2 ^ 16

theorem Owns.congr {node' : VfsInode} (hf : Owns s dir node n) (hlinks : node'.links = node.links)
    (hino : node'.ino = node.ino) (hraw : node'.raw = node.raw) : Owns s dir node' n := by
  obtain ⟨hone, hinode, hother, hrecord, hbooks, hblocks, hdistinct⟩ := hf
  rw [← hlinks] at hone
  rw [← hino] at hinode hother hrecord hbooks
  rw [← hraw] at hblocks hdistinct
  exact ⟨hone, hinode, hother, hrecord, hbooks, hblocks, hdistinct⟩

/-- What `ext2_rmdir` does to the inodes. -/
theorem Owns.freeDir (hs : s.Sound) (hd : DirOnDisk s dir blocks)
    (hf : Owns s dir node blocks.length) (now : ℕ) :
    ∃ r, s.freeDir dir node now = r ∧ r.result = 0 ∧ DirOnDisk r.fs r.dir blocks ∧
      Edited s r.fs (owned node)
        (fun x => s.DirSector dir blocks.length x ∨ x = s.inodeAddr node.ino / sectorSize) ∧
      get 2 r.fs.disk (s.inodeAddr dir.ino + 26) = (dir.links + 0xFFFF) % 2 ^ 16 := by
  obtain ⟨hzero, hinode⟩ := hs.freeInode hf.inode.1 ((mem_used_inodes hf.inode.1).mpr hf.inode.2)
  -- the blocks are still the node's own without its inode
  have hblocks : Edited (s.freeInode node).2 ((s.freeInode node).2.freeBlocks node.raw 12 0)
      (Function.update (fun _ => ∅) .blocks (owned node .blocks)) fun _ => False := by
    apply hinode.sound.freeBlocks
    · intro j _ hj hne
      obtain ⟨hrange, hbit, hhold, -⟩ := hf.blocks j (by omega) hne
      refine ⟨?_, fun x => ?_⟩
      · rw [hinode.used, Function.update_of_ne (by decide), Finset.sdiff_empty]
        exact mem_used_blocks.mpr ⟨hrange, hbit⟩
      · rw [hinode.layout.sectors, hinode.layout.books hinode.count]
        exact hhold x
    · intro j l _ hjl hl hne heq
      exact hjl.ne (hf.distinct j (by omega) l (by omega) hne heq)
  have hfreed : Edited s ((s.freeInode node).2.freeBlocks node.raw 12 0) (owned node) fun _ => False := by
    refine (hinode.trans hblocks).congr (fun p => ?_) fun x h => h.elim id id
    cases p with
    | blocks => rw [Function.update_self, Function.update_of_ne (by decide), Finset.empty_union]
    | inodes =>
        rw [Function.update_self, Function.update_of_ne (by decide), Finset.union_empty]
        rfl
  unfold Ext2.freeDir
  dsimp only
  rw [hzero, if_neg (by decide)]
  generalize hlinks : (dir.links + 0xFFFF) % 2 ^ 16 = links
  generalize hparent : { dir with links := links, mtime := now, ctime := now } = parent
  obtain ⟨hdir, hedited, hfields⟩ := hf.written parent hd hfreed (fun _ => Finset.Subset.refl _)
    (by rw [← hparent]) (by rw [← hparent]) (by rw [← hparent]) (by rw [← hparent, VfsInode.raw, VfsInode.raw])
    (setRaw_ino node _)
  refine ⟨_, rfl, rfl, hdir, hedited, ?_⟩
  rw [(hfields 2 26 (by omega)).1, links_stamp, ← hparent]
  dsimp only
  omega

/-- An empty directory goes, when the first record of its name is in use and has another one before it
in its block. -/
theorem rmdir_removes (s : Ext2) (nodes : Inodes) (i slot : ℕ) (dir node : VfsInode)
    (blocks kept : List (List DirEntry)) (name : List Byte) (now : ℕ) (hs : s.Sound)
    (hd : DirOnDisk s dir blocks)
    (hf : Owns s dir node blocks.length) (hlisted : DirListed s node kept) (hdots : OnlyDots kept)
    (hnode : nodes node.ino = some (slot, node)) (hslot : i ≠ slot) (hdev : node.dev = dir.dev)
    (hne : name ≠ [])
    (hentry : (name, node.ino) ∈ live blocks.flatten) (hfirst : FirstInUse blocks name)
    (hok : Removable s dir blocks name node.ino) :
    ∃ r, s.rmdir nodes i dir name now = some r ∧ DirRemoved s dir node blocks name r := by
  obtain ⟨e, hfindEntry, hino⟩ := findEntry_live hd.holds hne hentry hfirst
  obtain ⟨t, blocks', hdelete, hkept, hd', hlen, hlive⟩ := hs.deleteEntry hd hentry hok
  have hl := hkept.layout
  have hf' := hkept.owns hf
  rw [← hlen] at hf'
  obtain ⟨node', hnode', hsame, howned⟩ : ∃ node',
      (if 1 < node.count then { node with size := 0 } else node) = node' ∧
      Owns t dir node' blocks'.length ∧ owned node' = owned node ∧ node'.ino = node.ino := by
    refine ⟨_, rfl, ?_⟩
    split_ifs
    · exact ⟨hf'.congr rfl rfl rfl, rfl, rfl⟩
    · exact ⟨hf', rfl, rfl⟩
  obtain ⟨r, hr, hzero, hdir, hedited, hlinks⟩ := hsame.freeDir hkept.sound hd' now
  rw [howned.1, howned.2] at hedited
  refine ⟨r, ?_, hzero, ?_, ⟨blocks', hdir, hlive⟩, ?_⟩
  · unfold rmdir
    rw [hfindEntry]
    dsimp only
    rw [hino, hnode]
    dsimp only
    rw [if_neg (not_not.mpr hdev), if_neg hslot, hlisted.directory, if_neg (by simp),
      hlisted.isEmptyDir_zero hdots]
    dsimp only
    rw [if_neg (by decide)]
    unfold removeDir
    rw [hnode', hdelete]
    dsimp only
    rw [if_neg (by decide), hr]
  · refine (hkept.trans hedited).congr (fun p => Finset.empty_union _) fun x hx => ?_
    rw [hlen] at hx
    rcases hx with hx | hx | hx
    · exact .inl hx
    · exact .inl ((hl.dirSector rfl fun _ _ => rfl).mp hx)
    · rw [hl.inodeAddr] at hx
      exact .inr hx
  · rw [hl.inodeAddr] at hlinks
    exact hlinks

end Directory

/-! ## A file and a directory that are removed -/

/-- A root directory in the block 6 with an empty file and, in the block 7, an empty directory. -/
def treeDisk : Ext2 where
  disk := fun x =>
    if x = 3072 then 0x7F
    else if x = 4096 then 0x7F
    else if x = 5248 then 0xED
    else if x = 5249 then 0x41
    else if x = 5253 then 4
    else if x = 5288 then 6
    else if 7168 ≤ x then
      (([4, 0, 0, 0, 12, 0, 1, 2, 46, 0, 0, 0, 2, 0, 0, 0, 0xF4, 3, 2, 2, 46, 46] :
      List Byte)[x - 7168]?).getD 0
    else if 6144 ≤ x then
      (([2, 0, 0, 0, 12, 0, 1, 2, 46, 0, 0, 0, 2, 0, 0, 0, 12, 0, 2, 2, 46, 46, 0, 0,
        3, 0, 0, 0, 12, 0, 1, 1, 97, 0, 0, 0, 4, 0, 0, 0, 0xDC, 3, 1, 2, 98] : List Byte)[x - 6144]?).getD 0
    else 0
  es := put 4 rootDisk.es 12 1
  groupDesc := fun g => put 2 (rootDisk.groupDesc g) 12 1

def treeBlocks : List (List DirEntry) := [[⟨2, 12, [46]⟩, ⟨2, 12, [46, 46]⟩, ⟨3, 12, [97]⟩, ⟨4, 988, [98]⟩]]

/-- Its inodes 3 and 4. -/
def treeFile : VfsInode :=
  { VfsInode.zero with ino := 3, mode := 0o100644, links := 1, u := .ext2 fun _ => 0 }

def treeDir : VfsInode :=
  { VfsInode.zero with
    ino := 4, mode := 0o40755, size := 1024, links := 2, u := .ext2 (put 4 (fun _ => 0) 40 7) }

theorem treeDisk_groups (p : Pool) : treeDisk.groups p = 1 := by
  cases p <;> decide

theorem treeDisk_start (p : Pool) :
    treeDisk.bitmapStart p 0 = (if p = .blocks then 6 else 8) ∧ treeDisk.sectors = 2 := by
  cases p <;> decide

theorem treeDisk_books {x : ℕ} (h : treeDisk.Books x) : x < 10 := by
  rcases h with hsuper | ⟨p, g, hg, hbook⟩
  · omega
  · rw [treeDisk_groups, Nat.lt_one_iff] at hg
    rw [hg, (treeDisk_start p).1, (treeDisk_start p).2] at hbook
    unfold Apart at hbook
    cases p <;> simp at hbook <;> omega

/-- Only the block 8 is free. -/
theorem treeDisk_free {b : ℕ} (hb : treeDisk.InRange b) (hclear : treeDisk.blockBit b = false) : b = 8 := by
  have hcount : treeDisk.blocksCount = 9 := by decide
  have hset : ∀ c < 8, treeDisk.blockBit c = true := by decide
  have := hb.2
  by_contra hne
  rw [hset b (by omega)] at hclear
  cases hclear

theorem treeDisk_sound : treeDisk.Sound where
  agree := by
    have hclear (p : Pool) :
        treeDisk.freeCount p 0 = treeDisk.clearBits p 0 ∧ treeDisk.freeTotal p = treeDisk.clearBits p 0 := by
      cases p <;> decide
    refine ⟨fun p g hg => ?_, fun p => ?_⟩
    · rw [treeDisk_groups, Nat.lt_one_iff] at hg
      rw [hg, (hclear p).1]
    · rw [treeDisk_groups, (hclear p).2]
      simp
  pools := by
    refine ⟨fun p => by cases p <;> decide, fun p g q h hg hh => ?_, fun p g q h hg hh hne => ?_⟩
    · rw [treeDisk_groups, Nat.lt_one_iff] at hg hh
      rw [hg, hh, (treeDisk_start p).1]
      cases p <;> decide
    · rw [treeDisk_groups, Nat.lt_one_iff] at hg hh
      subst hg hh
      rw [(treeDisk_start p).1, (treeDisk_start q).1, (treeDisk_start q).2]
      unfold Apart
      cases p <;> cases q <;> first | exact absurd rfl hne | decide
  whole := by decide
  spare b hb hclear x hx _ hbooks := by
    obtain rfl := treeDisk_free hb hclear
    have hstart : 8 * treeDisk.sectors % word = 16 := by decide
    have := treeDisk_books hbooks
    omega

theorem treeDisk_sector {x : ℕ} (h : treeDisk.DirSector rootDir treeBlocks.length x) : x = 10 ∨
    x = 12 ∨ x = 13 := by
  have haddr : treeDisk.inodeAddr rootDir.ino / sectorSize = 10 := by decide
  have hblock : treeDisk.blockSector (iBlock rootDir.raw 0) = 12 := by decide
  rcases h with h | ⟨i, hi, h⟩
  · left
    rw [h, haddr]
  · obtain rfl : i = 0 := Nat.lt_one_iff.mp hi
    rw [hblock, (treeDisk_start .blocks).2] at h
    unfold Apart at h
    omega

theorem treeDisk_holds : DirHolds treeDisk rootDir treeBlocks := by
  refine ⟨by decide, by decide, by decide, by decide,
    ?_, by decide, by decide⟩
  intro i rs hi
  cases i with
  | zero =>
      cases hi
      decide +kernel
  | succ i => cases hi

theorem treeDisk_listed : DirListed treeDisk treeDir [[⟨4, 12, [46]⟩, ⟨2, 1012, [46, 46]⟩]] := by
  refine ⟨by decide, by decide, by decide, ?_, by decide⟩
  intro i rs hi
  cases i with
  | zero =>
      cases hi
      decide +kernel
  | succ i => cases hi

theorem treeDisk_onDisk : DirOnDisk treeDisk rootDir treeBlocks where
  holds := treeDisk_holds
  directory := by decide
  inode := by decide
  record := by decide
  stored := by decide
  books x hx hbooks := by
    have := treeDisk_sector hx
    have := treeDisk_books hbooks
    omega
  inodes ino hino hle := by
    have hcount : treeDisk.inodesCount = 8 := by decide
    have haddr : ∀ i < 9, 1 ≤ i → treeDisk.inodeAddr i = 5120 + (i - 1) * 128 := by decide
    have hsize : treeDisk.inodeSize = 128 := by decide
    have hblock : treeDisk.blockSector (iBlock rootDir.raw 0) = 12 := by decide
    have hdir : rootDir.ino = 2 := rfl
    rw [hcount] at hle
    rw [haddr ino (by omega) hino, haddr rootDir.ino (by decide) (by decide), hsize, hdir]
    constructor
    · intro i hi
      obtain rfl : i = 0 := Nat.lt_one_iff.mp hi
      rw [hblock, (treeDisk_start .blocks).2]
      unfold Apart sectorSize
      omega
    · omega
  spare b hb hclear x hx := by
    obtain rfl := treeDisk_free hb hclear
    have := treeDisk_sector hx
    rw [(treeDisk_start .blocks).2]
    unfold Apart word
    omega

theorem treeFile_owns : Owns treeDisk rootDir treeFile treeBlocks.length where
  links := by decide
  inode := by decide
  other := by decide
  record := by decide
  books := by
    have hsector : treeDisk.inodeAddr treeFile.ino / sectorSize = 10 := by decide
    rw [hsector]
    exact fun h => absurd (treeDisk_books h) (by decide)
  blocks i hi hne := by
    have hzero : ∀ i < 12, iBlock treeFile.raw i = 0 := by decide
    exact absurd (hzero i hi) hne
  distinct i hi j _ hne := by
    have hzero : ∀ i < 12, iBlock treeFile.raw i = 0 := by decide
    exact absurd (hzero i hi) hne

theorem treeDir_owns : Owns treeDisk rootDir treeDir treeBlocks.length where
  links := by decide
  inode := by decide
  other := by decide
  record := by decide
  books := by
    have hsector : treeDisk.inodeAddr treeDir.ino / sectorSize = 10 := by decide
    rw [hsector]
    exact fun h => absurd (treeDisk_books h) (by decide)
  blocks i hi hne := by
    have hseven : ∀ i < 12, iBlock treeDir.raw i ≠ 0 → iBlock treeDir.raw i = 7 := by decide
    rw [hseven i hi hne]
    have hstart : 7 * treeDisk.sectors % word = 14 := by decide
    refine ⟨by unfold InRange; decide, by decide, fun x hx _ hbooks => ?_, fun x hx => ?_⟩
    · have := treeDisk_books hbooks
      omega
    · have := treeDisk_sector hx
      rw [(treeDisk_start .blocks).2]
      unfold Apart word
      omega
  distinct := by decide

theorem unlink_removes_file : ∃ r, treeDisk.unlink (fun _ => some (5, treeFile)) rootDir [97] 7 = some r ∧
    Unlinked treeDisk rootDir treeFile treeBlocks [97] r :=
  unlink_removes treeDisk (fun _ => some (5, treeFile)) rootDir treeFile 5 treeBlocks [97] 7 treeDisk_sound
    treeDisk_onDisk treeFile_owns (by decide) rfl (by decide) (by decide) (by unfold FirstInUse; decide)
    (.behind (show treeBlocks = [] ++
    ([⟨2, 12, [46]⟩] ++ ⟨2, 12, [46, 46]⟩ :: ⟨3, 12, [97]⟩ :: [⟨4, 988, [98]⟩]) :: []
      from rfl) (by decide) rfl (by decide) (by decide))

theorem rmdir_removes_empty : ∃ r, treeDisk.rmdir (fun _ => some (5, treeDir)) 1 rootDir [98] 7 = some r ∧
    DirRemoved treeDisk rootDir treeDir treeBlocks [98] r :=
  rmdir_removes treeDisk (fun _ => some (5, treeDir)) 1 5 rootDir treeDir treeBlocks
    [[⟨4, 12, [46]⟩, ⟨2, 1012, [46, 46]⟩]] [98] 7 treeDisk_sound treeDisk_onDisk treeDir_owns treeDisk_listed
    (by unfold OnlyDots IsDots; decide) rfl (by decide) rfl (by decide) (by decide)
      (by unfold FirstInUse; decide)
    (.behind (show treeBlocks = [] ++
    ([⟨2, 12, [46]⟩, ⟨2, 12, [46, 46]⟩] ++ ⟨3, 12, [97]⟩ :: ⟨4, 988, [98]⟩ :: []) :: []
      from rfl) (by decide) rfl (by decide) (by decide))

end Ext2
end Ferrite.Fs
