import Ferrite.Fs.AllocRuns

/-!
# What is kept while numbers are given back

The functions that remove a file or a directory write data blocks and inodes, and free blocks and
inodes. Each step keeps the file system sound, and the numbers in use but for those given back.
-/
namespace Ferrite.Fs
open Packed Word Shelves

namespace Ext2

/-- The numbers of `gone` are free, and apart from the bookkeeping only the sectors of `written`
are other ones. -/
structure Edited (s t : Ext2) (gone : Pool → Finset ℕ) (written : ℕ → Prop) : Prop where
  layout : SameLayout s t
  count : t.inodesCount = s.inodesCount
  sound : t.Sound
  used : ∀ p, (t.shelf p).used = (s.shelf p).used \ gone p
  frame : ∀ x, ¬ s.Books (x / sectorSize) → ¬ written (x / sectorSize) → t.disk x = s.disk x

/-- The direct blocks from `i` on, up to the first that is not allocated. -/
def blocksFrom (inode : Bytes) (n i : ℕ) : Finset ℕ :=
  (Finset.Ico i (allocatedUpTo inode n i)).image (iBlock inode)

variable {s t u : Ext2} {dir node : VfsInode} {A B : Pool → Finset ℕ} {W V : ℕ → Prop} {p : Pool}
variable {b g k n i lba : ℕ} {buff inode : Bytes}

theorem SameLayout.perGroup (hl : SameLayout s t) (p : Pool) : t.perGroup p = s.perGroup p := by
  cases p
  · exact hl.blocksPerGroup
  · exact hl.inodesPerGroup

theorem SameLayout.poolSize (hl : SameLayout s t) (hcount : t.inodesCount = s.inodesCount) (p : Pool) :
    t.poolSize p = s.poolSize p := by
  cases p
  · unfold Ext2.poolSize
    rw [hl.blocksCount, hl.firstDataBlock]
  · exact hcount

theorem SameLayout.books (hl : SameLayout s t) (hcount : t.inodesCount = s.inodesCount) {x : ℕ} :
    t.Books x ↔ s.Books x := by
  have hgroups (p : Pool) : t.groups p = s.groups p := by
    unfold Ext2.groups
    rw [hl.poolSize hcount, hl.perGroup]
  have hstart (p : Pool) (g : ℕ) : t.bitmapStart p g = s.bitmapStart p g := by
    unfold Ext2.bitmapStart
    rw [hl.bitmapBlock, hl.sectors]
  unfold Books
  simp only [hgroups, hstart, hl.sectors]

theorem Edited.refl (hs : s.Sound) : Edited s s (fun _ => ∅) fun _ => False where
  layout := SameLayout.refl s
  count := rfl
  sound := hs
  used _ := (Finset.sdiff_empty).symm
  frame _ _ _ := rfl

theorem Edited.unchanged (hs : s.Sound) (p : Pool) :
    Edited s s (Function.update (fun _ => ∅) p ∅) fun _ => False := by
  rw [Function.update_eq_self p fun _ => (∅ : Finset ℕ)]
  exact .refl hs

theorem Edited.trans (h : Edited s t A W) (h' : Edited t u B V) :
    Edited s u (fun p => A p ∪ B p) fun x => W x ∨ V x where
  layout := h.layout.trans h'.layout
  count := h'.count.trans h.count
  sound := h'.sound
  used p := by rw [h'.used, h.used, sdiff_sdiff_left, Finset.sup_eq_union]
  frame x hbooks hwritten := by
    rw [h'.frame x _ fun hv => hwritten (.inr hv), h.frame x hbooks fun hw => hwritten (.inl hw)]
    rwa [h.layout.books h.count]

theorem Edited.congr (h : Edited s t A W) (hgone : ∀ p, A p = B p) (hwritten : ∀ x, W x → V x) :
    Edited s t B V where
  layout := h.layout
  count := h.count
  sound := h.sound
  used p := by rw [h.used, hgone]
  frame x hbooks hv := h.frame x hbooks fun hw => hv (hwritten _ hw)

/-! ## Writing data -/

/-- A device with the same sectors of bookkeeping has the same bitmaps. -/
theorem bitmap_congr {d : Bytes} (hdisk : ∀ x, s.Books (x / sectorSize) → d x = s.disk x)
    (hg : g < s.groups p) :
    bitmap { s with disk := d } p g = s.bitmap p g := by
  have hsec : 0 < sectorSize := by decide
  funext k
  by_cases hk : k < s.sectors * sectorSize
  · have hread (t : Ext2) (hk : k < t.sectors * sectorSize) :
        t.bitmap p g k = t.disk (t.bitmapStart p g * sectorSize + k) := read_of_lt hk
    rw [hread { s with disk := d } hk, hread s hk]
    apply hdisk
    have hdiv : (s.bitmapStart p g * sectorSize + k) / sectorSize = s.bitmapStart p g + k / sectorSize := by
      rw [Nat.mul_comm, Nat.mul_add_div hsec]
    have hlt : k / sectorSize < s.sectors := (Nat.div_lt_iff_lt_mul hsec).mpr hk
    refine .inr ⟨p, g, hg, .inr ?_⟩
    change ¬ Apart (s.bitmapStart p g) s.sectors ((s.bitmapStart p g * sectorSize + k) / sectorSize) 1
    rw [hdiv]
    generalize k / sectorSize = q at hlt
    unfold Apart
    omega
  · rw [sectors_mul] at hk
    rw [bitmap_of_le (not_lt.mp hk), bitmap_of_le (s := { s with disk := d }) (not_lt.mp hk)]

theorem Sound.setDisk {d : Bytes} (hs : s.Sound) (hdisk : ∀ x, s.Books (x / sectorSize) → d x = s.disk x)
    (hframe : ∀ x, ¬ s.Books (x / sectorSize) → ¬ W (x / sectorSize) → d x = s.disk x) :
    Edited s { s with disk := d } (fun _ => ∅) W := by
  have hmap (p : Pool) (g : ℕ) (hg : g < s.groups p) : bitmap { s with disk := d } p g = s.bitmap p g :=
    bitmap_congr hdisk hg
  have hbitOn (p : Pool) (n : ℕ) (hn : s.low p ≤ n ∧ n < s.low p + s.poolSize p) :
      bitOn { s with disk := d } p n = s.bitOn p n :=
    congrArg (fun b => bit b ((n - s.low p) % s.perGroup p)) (hmap p _ (place_lt hs.pools hn).1)
  have hclear (p : Pool) (g : ℕ) (hg : g < s.groups p) :
      clearBits { s with disk := d } p g = s.clearBits p g := by
    unfold clearBits
    rw [hmap p g hg]
    rfl
  refine ⟨⟨rfl, rfl, rfl, rfl, rfl, rfl, fun _ => rfl, fun _ => rfl, fun _ => rfl⟩, rfl,
    ⟨⟨?_, ?_⟩, ?_, hs.whole, ?_⟩,
    ?_, hframe⟩
  · intro p g hg
    rw [hclear p g hg]
    exact hs.agree.counts p g hg
  · intro p
    refine (hs.agree.totals p).trans (congrArg List.sum (List.map_congr_left ?_))
    intro g hg
    exact (hclear p g (List.mem_range.mp hg)).symm
  · exact ⟨hs.pools.perGroup, hs.pools.behind, hs.pools.apart⟩
  · intro b hb hfree
    exact hs.spare b hb ((hbitOn .blocks b (inRange_iff.mp hb)).symm.trans hfree)
  · intro p
    ext n
    rw [Finset.sdiff_empty, mem_used, mem_used]
    apply and_congr_right
    intro hn
    rw [hbitOn p n hn]

/-- Sectors without bookkeeping may be written. -/
theorem Sound.write (hs : s.Sound) (hdata : ∀ x, lba ≤ x → x < lba + n → ¬ s.Books x) :
    Edited s (s.write lba n buff) (fun _ => ∅) fun x => lba ≤ x ∧ x < lba + n := by
  have hdisk (x : ℕ) (hx : ¬ (lba ≤ x / sectorSize ∧ x / sectorSize < lba + n)) :
      (s.write lba n buff).disk x = s.disk x := by
    apply write_disk_of_sector
    unfold Apart
    omega
  refine hs.setDisk (d := (s.write lba n buff).disk)
    (fun x hbook => hdisk x fun hx => ?_) fun x _ hx => hdisk x hx
  exact hdata _ hx.1 hx.2 hbook

theorem Sound.writeInode (hs : s.Sound) (hbooks : ¬ s.Books (s.inodeAddr node.ino / sectorSize)) :
    Edited s (s.writeInode node).2 (fun _ => ∅) fun x => x = s.inodeAddr node.ino / sectorSize := by
  have hwrite : (s.writeInode node).2 = s.write (s.inodeAddr node.ino / sectorSize) 1
      (copy s.inodeSize (s.read (s.inodeAddr node.ino / sectorSize) 1) (s.inodeAddr node.ino % sectorSize)
        (stamp node) 0) := rfl
  rw [hwrite]
  refine (hs.write fun x hle hlt => ?_).congr (fun _ => rfl) fun x hx => ?_
  · obtain rfl : x = s.inodeAddr node.ino / sectorSize := by omega
    exact hbooks
  · omega

/-! ## Giving back -/

theorem Sound.release_disk (hs : s.Sound) (hg : g < s.groups p) (hk : k < s.bitsIn p g) (dirs : ℕ) (clear : ℤ)
    {x : ℕ} (hx : ¬ s.Books (x / sectorSize)) : (s.release none p g k dirs clear).2.disk x = s.disk x := by
  unfold release
  rw [if_neg (by simp)]
  by_cases hclear : bit (s.bitmap p g) k = false
  · rw [if_pos hclear]
  · rw [if_neg hclear]
    obtain ⟨v, w, ht, -⟩ := hs.agree.released hs.pools hg hk (by simpa using hclear) dirs
    have hstore : (((s.tally p g 1 1).addDirs g dirs).store none p g
        (clearBit (s.bitmap p g) k)).2.disk x = s.disk x :=
      ht.store_disk addDirs_disk hg hx
    exact hstore

/-- A number in use is given back. -/
theorem Sound.release_edited (hs : s.Sound) (hused : n ∈ (s.shelf p).used) (hok : p = .blocks → s.Holdable n)
    (dirs : ℕ) (clear : ℤ) :
    (s.release none p ((n - s.low p) / s.perGroup p) ((n - s.low p) % s.perGroup p) dirs clear).1 = 0 ∧
      Edited s (s.release none p ((n - s.low p) / s.perGroup p) ((n - s.low p) % s.perGroup p) dirs clear).2
        (Function.update (fun _ => ∅) p {n}) fun _ => False := by
  obtain ⟨hn, hset⟩ := mem_used.mp hused
  obtain ⟨hg, hk⟩ := place_lt hs.pools hn
  have hplace := number_of_place hn.1
  rcases hs.release_spec hg hk dirs clear with ⟨hclear, -⟩ | ⟨-, t, hchanged, hrelease⟩
  · exact absurd (hclear.symm.trans hset) Bool.false_ne_true
  obtain ⟨v, w, ht⟩ := hchanged.tallied
  have hdisk (x : ℕ) (hx : ¬ s.Books (x / sectorSize)) := hs.release_disk hg hk dirs clear hx
  have hfollows := hchanged.follows hs hg hk fun _ hp => by
    rw [hplace]
    exact hok hp
  have hdrop := hchanged.shelf_drop hs.pools hg hk
  rw [hplace] at hdrop
  rw [hrelease] at hdisk ⊢
  refine ⟨rfl, ht.layout, ht.inodesCount, hfollows.sound, ?_, fun x hx _ => hdisk x hx⟩
  intro q
  rw [hdrop]
  by_cases hq : q = p
  · subst hq
    rw [Function.update_self, Function.update_self, Finset.sdiff_singleton_eq_erase]
    rfl
  · rw [Function.update_of_ne hq, Function.update_of_ne hq, Finset.sdiff_empty]

theorem mem_used_blocks : b ∈ (s.shelf .blocks).used ↔ s.InRange b ∧ s.blockBit b = true := by
  rw [mem_used, inRange_iff]
  rfl

theorem mem_used_inodes (hino : 1 ≤ n) : n ∈ (s.shelf .inodes).used ↔ n ≤ s.inodesCount ∧
    s.inodeBit n = true := by
  have hrange : (s.low .inodes ≤ n ∧ n < s.low .inodes + s.poolSize .inodes) ↔ n ≤ s.inodesCount := by
    change 1 ≤ n ∧ n < 1 + s.inodesCount ↔ _
    omega
  rw [mem_used, hrange]
  rfl

theorem Sound.freeBlock (hs : s.Sound) (hused : b ∈ (s.shelf .blocks).used) (hok : s.Holdable b) :
    Edited s (s.freeBlock b).2 (Function.update (fun _ => ∅) .blocks {b}) fun _ => False := by
  have hcall : s.freeBlockOn none b = s.release none .blocks ((b - s.low .blocks) / s.perGroup .blocks)
      ((b - s.low .blocks) % s.perGroup .blocks) 0 (-einval) := by
    unfold freeBlockOn
    rw [(mem_used_blocks.mp hused).1.index]
    rfl
  rw [← freeBlockOn_none, hcall]
  exact (hs.release_edited hused (fun _ => hok) 0 (-einval)).2

theorem Sound.freeInode (hs : s.Sound) (hino : 1 ≤ node.ino) (hused : node.ino ∈ (s.shelf .inodes).used) :
    (s.freeInode node).1 = 0 ∧
      Edited s (s.freeInode node).2 (Function.update (fun _ => ∅) .inodes {node.ino}) fun _ => False := by
  have hle := ((mem_used_inodes hino).mp hused).1
  have hcall : s.freeInodeOn none node = s.release none .inodes
      ((node.ino - s.low .inodes) / s.perGroup .inodes)
      ((node.ino - s.low .inodes) % s.perGroup .inodes) (if isDir node.mode then 0xFFFF else 0) (-1) := by
    have hindex : wsub node.ino 1 = node.ino - 1 := wsub_of_le hino (hle.trans_lt (get_lt 4 s.es 0))
    unfold freeInodeOn
    rw [hindex]
    rfl
  rw [← freeInodeOn_none, hcall]
  exact hs.release_edited hused (by simp) _ (-1)

theorem blocksFrom_zero (inode : Bytes) (i : ℕ) : blocksFrom inode 0 i = ∅ := by
  unfold blocksFrom allocatedUpTo
  rw [Finset.Ico_self, Finset.image_empty]

theorem blocksFrom_hole (h : iBlock inode i = 0) : blocksFrom inode (n + 1) i = ∅ := by
  unfold blocksFrom allocatedUpTo
  rw [if_pos h, Finset.Ico_self, Finset.image_empty]

theorem blocksFrom_succ (h : iBlock inode i ≠ 0) :
    blocksFrom inode (n + 1) i = insert (iBlock inode i) (blocksFrom inode n (i + 1)) := by
  unfold blocksFrom
  rw [allocatedUpTo, if_neg h, ← Finset.image_insert]
  congr 1
  ext j
  have := (le_allocatedUpTo inode n (i + 1)).1
  simp only [Finset.mem_Ico, Finset.mem_insert]
  omega

/-- Different blocks in use are given back up to the first that is not allocated. -/
theorem Sound.freeBlocks (hs : s.Sound)
    (hused : ∀ j, i ≤ j → j < i + n → iBlock inode j ≠ 0 →
      iBlock inode j ∈ (s.shelf .blocks).used ∧ s.Holdable (iBlock inode j))
    (hdistinct : ∀ j l, i ≤ j → j < l → l < i + n → iBlock inode j ≠ 0 → iBlock inode j ≠ iBlock inode l) :
    Edited s (s.freeBlocks inode n i) (Function.update (fun _ => ∅) .blocks (blocksFrom inode n i))
      fun _ => False := by
  induction n generalizing s i with
  | zero =>
      rw [Ext2.freeBlocks, blocksFrom_zero]
      exact .unchanged hs .blocks
  | succ n ih =>
      rw [Ext2.freeBlocks]
      by_cases hhole : iBlock inode i = 0
      · rw [if_pos hhole, blocksFrom_hole hhole]
        exact .unchanged hs .blocks
      · rw [if_neg hhole, blocksFrom_succ hhole]
        obtain ⟨hfirst, hok⟩ := hused i le_rfl (by omega) hhole
        have hstep := hs.freeBlock hfirst hok
        have hrest := ih (s := (s.freeBlock (iBlock inode i)).2) (i := i + 1) hstep.sound
          (fun j hj hjn hne => by
            obtain ⟨hmem, hhold⟩ := hused j (by omega) (by omega) hne
            refine ⟨?_, ?_⟩
            · rw [hstep.used, Function.update_self, Finset.mem_sdiff, Finset.mem_singleton]
              exact ⟨hmem, (hdistinct i j le_rfl (by omega) (by omega) hhole).symm⟩
            · intro x
              rw [hstep.layout.sectors, hstep.layout.books hstep.count]
              exact hhold x)
          (fun j l hj hjl hl hne => hdistinct j l (by omega) hjl (by omega) hne)
        refine (hstep.trans hrest).congr (fun p => ?_) fun x h => h.elim id id
        cases p with
        | blocks => rw [Function.update_self, Function.update_self, Function.update_self, Finset.insert_eq]
        | inodes => rfl

end Ext2
end Ferrite.Fs
