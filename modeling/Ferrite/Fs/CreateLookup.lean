import Ferrite.Fs.CreateTrace

/-!
# Creating a file and looking it up

The length of a name goes through eight bits, and the entry is copied into whatever room
the first record with some has. Where the name is shorter and the room long enough, the new
inode is found, unless a record in front that is not in use has the name.
-/
namespace Ferrite.Fs
open Packed Word Records

/-- What `ext2_lookup` returns for the number of an inode. -/
def handOut (nodes : Inodes) (ino : ℕ) : ℤ × Option (ℕ × VfsInode) :=
  match nodes ino with
  | none => (-enomem, none)
  | some node => (0, some node)

namespace Ext2
variable (s : Ext2)

def lookup (nodes : Inodes) (dir : VfsInode) (name : List Byte) : Option (ℤ × Option (ℕ × VfsInode)) :=
  if !isDir dir.mode then some (-enotdir, none)
  else
    match s.findEntry dir name with
    | none => none
    | some none => some (-enoent, none)
    | some (some entry) => some (handOut nodes entry.inode)

/-- Whatever inodes there are, the name leads to the one of this number. -/
def Resolves (dir : VfsInode) (name : List Byte) (ino : ℕ) : Prop :=
  ∀ nodes, s.lookup nodes dir name = some (handOut nodes ino)

/-- After a call with that result the name leads to the new inode, the other names to where
they led, and the directory is a well-formed one with different names. -/
structure CreatedWell (dir : VfsInode) (blocks : List (List DirEntry)) (name : List Byte)
    (r : Make) : Prop where
  finds : ∃ node, r.node = some node ∧ r.fs.Resolves r.dir name node.ino
  others : ∀ e ∈ live blocks.flatten, e.1 ≠ [] → s.Resolves dir e.1 e.2 → r.fs.Resolves r.dir e.1 e.2
  names : ∃ blocks', DirHolds r.fs r.dir blocks'

/-- A call that reports success has created well. -/
def CreatesWell (env : MakeEnv) (dir : VfsInode) (blocks : List (List DirEntry)) (name : List Byte)
    (call : MakeCall) : Prop :=
  ∀ r, s.make none env dir name call = some r → r.result = 0 → s.CreatedWell dir blocks name r

/-- The inode of the first clear bit in the first group with one. -/
def FirstFree (ino : ℕ) : Prop :=
  ∃ g k, (List.range (ceilDiv s.inodesCount s.inodesPerGroup)).find?
    (fun g => s.freeCount .inodes g ≠ 0) = some g ∧
    findFreeBit (s.bitmap .inodes g) s.blocksize = some k ∧ ino = g * s.inodesPerGroup + k + 1

/-- No inode is free, or there is no memory or no slot in the cache for it. -/
def NoNode (env : MakeEnv) : Prop :=
  s.Full .inodes (ceilDiv s.inodesCount s.inodesPerGroup) ∨ env.mem = false ∨
    ∃ ino, s.FirstFree ino ∧ env.nodes ino = none

end Ext2

/-- The name is short enough, the first record with room has enough of it, and neither it nor
a record in front has the name. -/
def FitsFirst (blocks : List (List DirEntry)) (name : List Byte) : Prop :=
  name.length < 256 ∧ ∃ before r after, blocks.flatten = before ++ r :: after ∧ (∀ e ∈ before, ¬ e.HasRoom) ∧
    r.HasRoom ∧ 8 + name.length ≤ r.recLen - r.size ∧ ∀ e ∈ before ++ [r], e.name ≠ name

/-- `ext2_mknod` refuses a name with a record, in use or not, and a mode without support. -/
def Refuses (blocks : List (List DirEntry)) (name : List Byte) : MakeCall → Prop
  | .mknod mode _ => (∃ e ∈ blocks.flatten, e.name = name) ∨ unsupported (mode % 2 ^ 16) = true
  | _ => False

variable {s t u w : Ext2} {dir d d' node : VfsInode} {name : List Byte} {ino : ℕ} {e r entry : DirEntry}
variable {pre post before after rs : List DirEntry} {blocks A C : List (List DirEntry)} {env : MakeEnv}
variable {mode rdev : ℕ} {call : MakeCall} {fault : Option MakeStep}

/-! ## Looking up -/

/-- A name leads to the inode of its first record. -/
theorem resolves_iff : s.Resolves dir name ino ↔
    isDir dir.mode = true ∧ ∃ e, s.findEntry dir name = some (some e) ∧ e.inode = ino := by
  unfold Ext2.Resolves Ext2.lookup
  constructor
  · intro h
    have hsome := h fun i => some (i, VfsInode.zero)
    split_ifs at hsome with hdir
    · cases hsome
    · refine ⟨by simpa using hdir, ?_⟩
      match hfind : s.findEntry dir name with
      | none =>
          rw [hfind] at hsome
          cases hsome
      | some none =>
          rw [hfind] at hsome
          cases hsome
      | some (some e) =>
          rw [hfind] at hsome
          exact ⟨e, rfl, by simpa [handOut] using hsome⟩
  · rintro ⟨hdir, e, hfind, rfl⟩ nodes
    rw [hdir, hfind]
    rfl

theorem DirHolds.resolves_iff (h : DirHolds s dir blocks) (hdir : isDir dir.mode = true) (hne : name ≠ [])
    (hnul : 0 ∉ name) : s.Resolves dir name ino ↔
      ∃ e, blocks.flatten.find? (fun r => r.name = name) = some e ∧ e.inode = ino := by
  rw [Fs.resolves_iff, h.findEntry_eq hne hnul]
  simp [hdir]

/-- Names of records have less than 256 bytes. -/
theorem DirHolds.length_lt (h : DirHolds s dir blocks) (he : e ∈ blocks.flatten) : e.name.length < 256 := by
  obtain ⟨rs, hrs, he⟩ := List.mem_flatten.mp he
  obtain ⟨i, hi⟩ := List.mem_iff_getElem?.mp hrs
  obtain ⟨x, hx⟩ := (h.chains i rs hi).exists_read he
  rw [← hx]
  exact length_name_lt _ x

/-! ## The new record among the others -/

theorem newEntry_name (ino : ℕ) (h : name.length < 256) : (newEntry ino name).name = name := by
  unfold newEntry
  dsimp only
  rw [Nat.mod_eq_of_lt h, List.take_length]

theorem newEntry_length (ino : ℕ) (name : List Byte) : (newEntry ino name).name.length < 256 := by
  unfold newEntry
  dsimp only
  rw [List.length_take]
  omega

theorem find?_add (before after : List DirEntry) {q : DirEntry → Bool} (hcut : q r.cut = q r)
    (hnew : q (entry.rest r) = false) :
    ((before ++ r.cut :: entry.rest r :: after).find? q).map DirEntry.inode
      = ((before ++ r :: after).find? q).map DirEntry.inode := by
  rw [List.find?_append, List.find?_append, List.find?_cons, List.find?_cons, List.find?_cons, hcut, hnew]
  cases before.find? q with
  | some e => rfl
  | none =>
      cases q r with
      | true => rfl
      | false => rfl

/-- A name that no record in use has is that of a record not in use, if of any. -/
theorem unused_of_fresh (hfresh : name ∉ (live rs).map Prod.fst) (he : e ∈ rs) (hname : e.name = name) :
    e.inode = 0 := by
  by_contra hused
  apply hfresh
  rw [← hname]
  exact List.mem_map.mpr ⟨_, mem_live_of he hused, rfl⟩

/-! ## After the entry is written -/

/-- The directory on two states of the device with the same blocks. -/
structure SameDir (s : Ext2) (d : VfsInode) (t : Ext2) (d' : VfsInode) (n : ℕ) : Prop where
  blocksize : t.blocksize = s.blocksize
  mode : d'.mode = d.mode
  size : d'.size = d.size
  pointers : ∀ i < n, iBlock d'.raw i = iBlock d.raw i
  data : ∀ i < n, t.dirBlock d.raw i = s.dirBlock d.raw i

theorem SameDir.holds (h : SameDir s d t d' blocks.length) (hd : DirHolds s d blocks) : DirHolds t d' blocks :=
  hd.carry h.blocksize h.size h.pointers h.data

theorem SameDir.symm {n : ℕ} (h : SameDir s d t d' n) : SameDir t d' s d n where
  blocksize := h.blocksize.symm
  mode := h.mode.symm
  size := h.size.symm
  pointers i hi := (h.pointers i hi).symm
  data i hi := by
    have hdata := h.data i hi
    unfold Ext2.dirBlock at hdata ⊢
    rw [h.pointers i hi]
    exact hdata.symm

theorem SameDir.length (h : SameDir s d t d' blocks.length) {blocks' : List (List DirEntry)}
    (hpos : 0 < s.blocksize)
    (hd : d.size = blocks.length * s.blocksize) (h' : DirHolds t d' blocks') :
    blocks'.length = blocks.length := by
  have hsize := h'.size.1
  rw [h.size, h.blocksize, hd] at hsize
  exact (Nat.eq_of_mul_eq_mul_right hpos hsize).symm

/-- The first record with room takes the entry, and on the device that results, or one with
the same directory, the creation has gone well exactly if the entry fits. -/
theorem DirHolds.createdWell_iff {w' : Ext2} (hs : DirHolds s dir (A ++ (pre ++ r :: post) :: C))
    (hsdir : isDir dir.mode = true) (h : DirHolds u d (A ++ (pre ++ r :: post) :: C))
    (hdir : isDir d.mode = true)
    (hroom : r.HasRoom) (hino : ino < 2 ^ 32) (hused : ino ≠ 0) (hne : name ≠ []) (hnul : 0 ∉ name)
    (hfresh : name ∉ (live (A ++ (pre ++ r :: post) :: C).flatten).map Prod.fst)
    (hw : SameDir (writeDirBlock u d A.length
    (Ext2.addTo (u.dirBlock d.raw A.length) (total DirEntry.recLen pre)
      (total DirEntry.recLen pre) (newEntry ino name))) d w' d' (A ++ (pre ++ r :: post) :: C).length)
    {held created : Bool} (hnode : node.ino = ino) :
    s.CreatedWell dir (A ++ (pre ++ r :: post) :: C) name ⟨0, d', some node, held, created, w'⟩ ↔
      name.length < 256 ∧ 8 + name.length ≤ r.recLen - r.size ∧ ∀ e ∈ (A.flatten ++ pre) ++ [r],
        e.name ≠ name := by
  have hpos : 0 < u.blocksize := h.blocksize_pos (e := r) (by simp)
  have hdir' : isDir d'.mode = true := by rw [hw.mode]; exact hdir
  have hold : (A ++ (pre ++ r :: post) :: C).flatten = (A.flatten ++ pre) ++ r :: (post ++ C.flatten) := by simp
  have hnew : (A ++ (pre ++ r.cut :: (newEntry ino name).rest r :: post) :: C).flatten
      = (A.flatten ++ pre) ++ r.cut :: (newEntry ino name).rest r :: (post ++ C.flatten) := by simp
  have hadd (hshort : name.length < 256) (hfit : 8 + name.length ≤ r.recLen - r.size) :
      DirHolds w' d' (A ++ (pre ++ r.cut :: (newEntry ino name).rest r :: post) :: C) := by
    have hname := newEntry_name ino hshort
    have hlen : (A ++ (pre ++ r.cut :: (newEntry ino name).rest r :: post) :: C).length
        = (A ++ (pre ++ r :: post) :: C).length := by simp
    apply SameDir.holds (hlen ▸ hw)
    exact h.add hroom hino hused (newEntry_length ino name) (by rw [hname]; exact hnul)
      (by rw [hname]; exact hfit)
      (by rw [hname]; exact hfresh)
  constructor
  · rintro ⟨⟨node', hnode', hfinds⟩, -, blocks', hblocks'⟩
    obtain rfl : node = node' := Option.some.inj hnode'
    rw [hnode] at hfinds
    -- a record of the name is found, so the name is short
    obtain ⟨e, he, heino⟩ := (hblocks'.resolves_iff hdir' hne hnul).mp hfinds
    have hename : e.name = name := by simpa using List.find?_some he
    have hshort : name.length < 256 := hename ▸ hblocks'.length_lt (List.mem_of_find?_eq_some he)
    have hname := newEntry_name ino hshort
    have hlen := hw.length hpos h.size.1 hblocks'
    have hfit : 8 + name.length ≤ r.recLen - r.size := by
      have hback := hw.symm
      rw [← hlen] at hback
      have hfit' := h.fits_of_add hroom (show (newEntry ino name).inode < 2 ^ 32 from hino)
          (newEntry_length ino name)
        (hback.holds hblocks')
      rwa [hname] at hfit'
    refine ⟨hshort, hfit, ?_⟩
    intro e' he' hname'
    have hholds := hadd hshort hfit
    obtain ⟨e, he, heino⟩ := (hholds.resolves_iff hdir' hne hnul).mp hfinds
    -- the first record of the name is one that is not in use
    have hsome : (((A.flatten ++ pre) ++ [r.cut]).find? fun r => r.name = name).isSome := by
      rw [List.find?_isSome]
      rcases List.mem_append.mp he' with he' | he'
      · exact ⟨e', List.mem_append_left _ he', by simpa using hname'⟩
      · obtain rfl : e' = r := List.mem_singleton.mp he'
        exact ⟨e'.cut, List.mem_append_right _ (List.mem_singleton.mpr rfl), decide_eq_true hname'⟩
    obtain ⟨f, hf⟩ := Option.isSome_iff_exists.mp hsome
    have hfirst : (A ++ (pre ++ r.cut :: (newEntry ino name).rest r :: post) :: C).flatten.find?
        (fun r => r.name = name)
        = some f := by
      rw [hnew, List.append_cons, List.find?_append, hf]
      rfl
    obtain rfl : f = e := Option.some.inj (hfirst.symm.trans he)
    have hfname : f.name = name := by simpa using List.find?_some hf
    have hfmem := List.mem_of_find?_eq_some hf
    have hzero : f.inode = 0 := by
      rcases List.mem_append.mp hfmem with hmem | hmem
      · apply unused_of_fresh hfresh _ hfname
        rw [hold]
        exact List.mem_append_left _ hmem
      · obtain rfl : f = r.cut := List.mem_singleton.mp hmem
        have hr : r ∈ (A ++ (pre ++ r :: post) :: C).flatten := by
          rw [hold]
          exact List.mem_append_right _ List.mem_cons_self
        have hunused : r.inode = 0 := unused_of_fresh hfresh hr hfname
        exact hunused
    exact hused (heino.symm.trans hzero)
  · rintro ⟨hshort, hfit, hfront⟩
    have hholds := hadd hshort hfit
    have hname := newEntry_name ino hshort
    refine ⟨⟨node, rfl, ?_⟩, ?_, _, hholds⟩
    · rw [hnode]
      apply (hholds.resolves_iff hdir' hne hnul).mpr
      refine ⟨(newEntry ino name).rest r, ?_, rfl⟩
      have hnone : ((A.flatten ++ pre) ++ [r.cut]).find? (fun r => r.name = name) = none := by
        rw [List.find?_eq_none]
        intro e he heq
        have heq' : e.name = name := by simpa using heq
        rcases List.mem_append.mp he with he | he
        · exact hfront e (List.mem_append_left _ he) heq'
        · obtain rfl : e = r.cut := List.mem_singleton.mp he
          exact hfront r (List.mem_append_right _ (List.mem_singleton.mpr rfl)) heq'
      rw [hnew, List.append_cons, List.find?_append, hnone, List.find?_cons]
      have hself : decide (((newEntry ino name).rest r).name = name) = true := decide_eq_true hname
      rw [hself]
      rfl
    · rintro ⟨nm, i⟩ hmem hnm hres
      have hother : name ≠ nm := by
        rintro rfl
        exact hfresh (List.mem_map.mpr ⟨_, hmem, rfl⟩)
      have hnul' := hs.terminated _ hmem
      obtain ⟨e, he, heino⟩ := (hs.resolves_iff hsdir hnm hnul').mp hres
      have hnot : decide (((newEntry ino name).rest r).name = nm) = false := by
        apply decide_eq_false
        rw [show ((newEntry ino name).rest r).name = name from hname]
        exact hother
      have hsame := find?_add (A.flatten ++ pre) (post ++ C.flatten) (q := fun r => decide (r.name = nm))
          (r := r) rfl hnot
      rw [← hold, ← hnew, he] at hsame
      obtain ⟨e', he', heq⟩ := Option.map_eq_some_iff.mp hsame
      exact (hholds.resolves_iff hdir' hnm hnul').mpr ⟨e', he', heq.trans heino⟩

/-! ## The calls -/

/-- The record with room in front of all others is one. -/
theorem first_unique {q : DirEntry → Prop} {before' after' : List DirEntry} {r' : DirEntry}
    (h : before ++ r :: after = before' ++ r' :: after') (hb : ∀ e ∈ before, ¬ q e) (hr : q r)
    (hb' : ∀ e ∈ before', ¬ q e) (hr' : q r') : before = before' ∧ r = r' := by
  induction before generalizing before' with
  | nil =>
      cases before' with
      | nil => exact ⟨rfl, (List.cons.inj h).1⟩
      | cons e before' =>
          obtain rfl : r = e := (List.cons.inj h).1
          exact absurd hr (hb' r List.mem_cons_self)
  | cons e before ih =>
      cases before' with
      | nil =>
          obtain rfl : e = r' := (List.cons.inj h).1
          exact absurd hr' (hb e List.mem_cons_self)
      | cons e' before' =>
          obtain ⟨rfl, htail⟩ := List.cons.inj h
          obtain ⟨rfl, rfl⟩ := ih htail (fun x hx => hb x (List.mem_cons_of_mem _ hx))
            fun x hx => hb' x (List.mem_cons_of_mem _ hx)
          exact ⟨rfl, rfl⟩

theorem fitsFirst_iff (hA : ∀ e ∈ A.flatten, ¬ e.HasRoom) (hpre : ∀ e ∈ pre, ¬ e.HasRoom) (hr : r.HasRoom) :
    FitsFirst (A ++ (pre ++ r :: post) :: C) name ↔
      name.length < 256 ∧ 8 + name.length ≤ r.recLen - r.size ∧ ∀ e ∈ (A.flatten ++ pre) ++ [r],
        e.name ≠ name := by
  have hflat : (A ++ (pre ++ r :: post) :: C).flatten = (A.flatten ++ pre) ++
      r :: (post ++ C.flatten) := by simp
  have hfront : ∀ e ∈ A.flatten ++ pre, ¬ e.HasRoom := by
    intro e he
    exact (List.mem_append.mp he).elim (hA e) (hpre e)
  constructor
  · rintro ⟨hshort, before, r', after, hsplit, hbefore, hr', hfit, hnames⟩
    rw [hflat] at hsplit
    obtain ⟨rfl, rfl⟩ := first_unique hsplit hfront hr hbefore hr'
    exact ⟨hshort, hfit, hnames⟩
  · rintro ⟨hshort, hfit, hnames⟩
    exact ⟨hshort, _, r, _, hflat, hfront, hr, hfit, hnames⟩

namespace Ext2

theorem writeInode_fst (s : Ext2) (node : VfsInode) : (s.writeInode node).1 = node.setRaw (stamp node) := by
  unfold writeInode
  rfl

theorem setRaw_ino (node : VfsInode) (inode : Bytes) : (node.setRaw inode).ino = node.ino := by
  cases node
  rfl

theorem writeInode_ino (s : Ext2) (node : VfsInode) : (s.writeInode node).1.ino = node.ino := by
  rw [writeInode_fst, setRaw_ino]

/-- Writing the inode of the directory changes neither it nor its blocks. -/
theorem sameDir_writeInode {w' : Ext2} (hd : DirOnDisk s dir blocks) (hl : SameLayout s w)
    (hino : d.ino = dir.ino)
    (hdir : isDir d.mode = true) (hptr : ∀ i < blocks.length, iBlock d.raw i = iBlock dir.raw i)
    (hwrite : w.writeInode d = (d', w')) : SameDir w d w' d' blocks.length := by
  have hd' : d' = d.setRaw (stamp d) := by
    rw [← writeInode_fst w d, hwrite]
  have hlayout : SameLayout w w' := by
    have h : SameLayout w (w.writeInode d).2 := writeInode_layout
    rwa [hwrite] at h
  have hdisk (p : ℕ) (hp : p / sectorSize ≠ w.inodeAddr d.ino / sectorSize) : w'.disk p = w.disk p := by
    have h : (w.writeInode d).2.disk p = w.disk p := writeInode_disk hp
    rwa [hwrite] at h
  subst hd'
  refine ⟨hlayout.blocksize, rfl, rfl, ?_, ?_⟩
  · intro i hi
    have hnot : (isChr d.mode || isBlk d.mode) = false := by
      unfold isDir at hdir
      unfold isChr isBlk
      rw [of_decide_eq_true hdir]
      decide
    exact get_stamp hnot (by omega)
  · intro i hi
    apply hlayout.dirBlock
    intro p hp
    apply hdisk
    intro hsec
    rw [hptr i hi, hl.blockSector, hl.sectors, hsec, hino, hl.inodeAddr] at hp
    exact hp ((hd.inodes dir.ino hd.inode.1 hd.inode.2.1).1 i hi)

/-- The entry that is written, when a record has room. -/
theorem writeEntry_found (entry : DirEntry) (hd : u.readInode dir = d)
    (h : DirHolds u d (A ++ (pre ++ r :: post) :: C))
    (hA : ∀ e ∈ A.flatten, ¬ e.HasRoom) (hpre : ∀ e ∈ pre, ¬ e.HasRoom) (hr : r.HasRoom) :
    u.writeEntry none dir entry = some (0, d, writeDirBlock u d A.length
      (addTo (u.dirBlock d.raw A.length) (total DirEntry.recLen pre) (total DirEntry.recLen pre) entry)) := by
  have hreached : A.length < reached none (A ++ (pre ++ r :: post) :: C).length := by
    unfold reached
    simp
  rw [← hd] at h ⊢
  rw [h.dirChains.writeEntry_found fits_pos (by simp) hA hpre hr hreached, if_neg (by simp)]

/-- A call that reports no success. -/
theorem createsWell_failed {err : ℤ} {dir' : VfsInode} {made : Option VfsInode} {held created : Bool}
    (hf : fault = none) (herr : err ≠ 0)
    (h : s.make fault env dir name call = some ⟨err, dir', made, held, created, u⟩) :
    s.CreatesWell env dir blocks name call := by
  intro r hr hzero
  rw [← hf, h] at hr
  obtain rfl := Option.some.inj hr
  exact absurd hzero herr

theorem createsWell_iff {dir' : VfsInode} {made : Option VfsInode} {held created : Bool} (hf : fault = none)
    (h : s.make fault env dir name call = some ⟨0, dir', made, held, created, u⟩) :
    s.CreatesWell env dir blocks name call ↔
      s.CreatedWell dir blocks name ⟨0, dir', made, held, created, u⟩ := by
  unfold CreatesWell
  rw [← hf, h]
  simp

theorem load_ino (n : VfsInode) (dev : ℕ) (inode : Bytes) : (n.load dev inode).ino = n.ino := by
  cases n
  rfl

theorem readInode_ino (s : Ext2) (n : VfsInode) : (s.readInode n).ino = n.ino := load_ino ..

/-- The directory as it is when the entry is written. -/
theorem exists_reread (hd : DirOnDisk s dir blocks) (hk : KeepsDir s u dir blocks.length) :
    ∃ d, u.readInode dir = d ∧ DirHolds u d blocks ∧ iSize d.raw = d.size ∧ d.ino = dir.ino ∧
      isDir d.mode = true ∧ ∀ i < blocks.length, iBlock d.raw i = iBlock dir.raw i := by
  obtain ⟨hmode, -, hptr⟩ := hk.readInode hd
  have hcount := hd.holds.count.2
  refine ⟨_, rfl, hd.reread hk, (readInode_size dir).symm, readInode_ino u dir, ?_, fun i hi =>
    hptr i (by omega)⟩
  rw [hmode]
  exact hd.directory

theorem mem_flatten_of_take {n : ℕ} (h : e ∈ (blocks.take n).flatten) : e ∈ blocks.flatten := by
  obtain ⟨rs, hrs, he⟩ := List.mem_flatten.mp h
  exact List.mem_flatten.mpr ⟨rs, List.mem_of_mem_take hrs, he⟩

/-- How the call for a new inode ends when no transfer fails. -/
theorem Agree.newNode_whole (ha : s.Agree) (hs : s.Pools)
    (hinode : MakeStep.ofInode fault = none) (env : MakeEnv)
    (dev mode : ℕ) :
    (s.NoNode env ∧ ∃ e t, e < 0 ∧ s.newNode fault env dev mode = (none, some e, t)) ∨
    (¬ s.NoNode env ∧ ∃ node t, NewInode s t node.ino ∧ s.newNode fault env dev mode
      = (some node, some 0, t)) := by
  unfold newNode newInode NoNode
  rw [hinode]
  dsimp only
  by_cases hfull : s.Full .inodes (ceilDiv s.inodesCount s.inodesPerGroup)
  · left
    rw [take_full hfull]
    exact ⟨.inl hfull, -enospc, s, by decide, rfl⟩
  obtain ⟨g, hfind⟩ := exists_group hfull
  have hle : ceilDiv s.inodesCount s.inodesPerGroup ≤ s.groups .inodes := Nat.div_le_div_right (Nat.mod_le ..)
  have hg := ha.group_lt hfind (.inl hle)
  obtain ⟨k, hbit, hk⟩ := ha.exists_bit hs hg (by simpa using (List.find?_range_eq_some.mp hfind).1)
  obtain ⟨hnumber, -⟩ := inode_number hk (min_le_left ..)
  have hfirst : s.FirstFree (g * s.inodesPerGroup + k + 1) := ⟨g, k, hfind, hbit, rfl⟩
  rw [take_taken hfind hbit (.inl rfl)]
  dsimp only
  rw [hnumber]
  cases hmem : env.mem with
  | false => exact .inl ⟨.inr (.inl rfl), -enomem, _, by decide, rfl⟩
  | true =>
      rw [if_pos (by decide)]
      cases hnode : env.nodes (g * s.inodesPerGroup + k + 1) with
      | none =>
          left
          dsimp only
          rw [hnode]
          exact ⟨.inr (.inr ⟨_, hfirst, hnode⟩), -enomem, _, by decide, rfl⟩
      | some found =>
          right
          have hnew := ha.newInode_taken hs hg hk (findFreeBit_spec hbit).2.1 (if isDir mode then 1 else 0)
            (show (none : Option Transfer) ≠ some .writeBitmap by simp)
          refine ⟨?_, found.2.fresh dev (g * s.inodesPerGroup + k + 1) mode env.now, _, hnew, ?_⟩
          · rintro (h | h | ⟨ino, ⟨g', k', hfind', hbit', rfl⟩, hnone⟩)
            · exact hfull h
            · cases h
            · obtain rfl : g = g' := Option.some.inj (hfind.symm.trans hfind')
              obtain rfl : k = k' := Option.some.inj (hbit.symm.trans hbit')
              rw [hnode] at hnone
              cases hnone
          · dsimp only
            rw [hnode]

theorem create_well (hf : fault = none) (ha : s.Agree) (hs : s.Pools) (hd : DirOnDisk s dir blocks)
    (hne : name ≠ [])
    (hnul : 0 ∉ name) (hfresh : name ∉ (live blocks.flatten).map Prod.fst) :
    s.CreatesWell env dir blocks name (.create mode) ↔ s.NoNode env ∨ (∀ e ∈ blocks.flatten, ¬ e.HasRoom) ∨
      Refuses blocks name (.create mode) ∨ FitsFirst blocks name := by
  have hpos : 0 < s.blocksize := by have := hs.perGroup .blocks; omega
  have hinode : MakeStep.ofInode fault = none := by rw [hf]; rfl
  have hwhole : MakeStep.ofEntry fault = none := by rw [hf]; rfl
  have hmake : s.make fault env dir name (.create mode) = s.create fault env dir name mode := rfl
  unfold create at hmake
  rcases ha.newNode_whole hs hinode env dir.dev mode with
    ⟨hno, e, t, he, hnew⟩ | ⟨hsome, node, t, hnode, hnew⟩
  · rw [hnew] at hmake
    exact iff_of_true (createsWell_failed hf he.ne hmake) (.inl hno)
  rw [hnew] at hmake
  dsimp only at hmake
  have hkeeps : KeepsDir s (t.writeInode node).2 dir blocks.length :=
    (hnode.keepsDir hd).writeInode hd hnode.range (hnode.ne_dir hd)
  have hino := writeInode_ino t node
  rw [decide_eq_false (by rw [hf]; simp), storeInode_false] at hmake
  rcases hwrite : t.writeInode node with ⟨node', u⟩
  rw [hwrite] at hmake hkeeps hino
  dsimp only at hmake hino hkeeps
  rw [if_neg (by decide)] at hmake
  by_cases hroom : ∃ e ∈ blocks.flatten, e.HasRoom
  · obtain ⟨A, pre, r, post, C, rfl, hA, hpre, hr⟩ := exists_first_of hroom
    obtain ⟨d, hread, hholds, hraw, hdino, hdir, hptr⟩ := exists_reread hd hkeeps
    have hentry := writeEntry_found (newEntry node'.ino name) hread hholds hA hpre hr
    rw [hwhole, hentry] at hmake
    dsimp only at hmake
    rw [if_neg (by decide), decide_eq_false (by rw [hf]; simp), storeInode_false] at hmake
    rcases hlast : (writeDirBlock u d A.length (addTo (u.dirBlock d.raw A.length) (total DirEntry.recLen pre)
      (total DirEntry.recLen pre) (newEntry node'.ino name))).writeInode d with ⟨d', w'⟩
    have hsame := sameDir_writeInode hd (hkeeps.layout.trans .write) hdino hdir hptr hlast
    rw [hlast] at hmake
    dsimp only at hmake
    have hrange := hnode.range
    have hlt : s.inodesCount < 2 ^ 32 := get_lt 4 s.es 0
    rw [createsWell_iff hf hmake, fitsFirst_iff hA hpre hr]
    refine (hd.holds.createdWell_iff hd.directory hholds hdir hr (by omega) (by omega) hne hnul hfresh
      hsame rfl).trans
      ⟨fun h => .inr (.inr (.inr h)), ?_⟩
    rintro (h | h | h | h)
    · exact absurd h hsome
    · exact absurd hr (h r (by simp))
    · exact absurd h id
    · exact h
  · have hfull : ∀ e ∈ blocks.flatten, ¬ e.HasRoom := fun e he h => hroom ⟨e, he, h⟩
    rcases writeEntry_spec hd hpos hkeeps none
      (newEntry node'.ino name) with ⟨⟨-, -, r, hr, hroom'⟩, -⟩ | ⟨-, dir', hentry⟩
    · exact absurd hroom' (hfull r (mem_flatten_of_take hr))
    · rw [hwhole, hentry] at hmake
      dsimp only at hmake
      rw [if_pos (by decide)] at hmake
      exact iff_of_true (createsWell_failed hf (by decide) hmake) (.inr (.inl hfull))

theorem SameDir.refl (s : Ext2) (d : VfsInode) (n : ℕ) : SameDir s d s d n :=
  ⟨rfl, rfl, rfl, fun _ _ => rfl, fun _ _ => rfl⟩

theorem mknod_well (hf : fault = none) (ha : s.Agree) (hs : s.Pools) (hd : DirOnDisk s dir blocks)
    (hne : name ≠ [])
    (hnul : 0 ∉ name) (hfresh : name ∉ (live blocks.flatten).map Prod.fst) :
    s.CreatesWell env dir blocks name (.mknod mode rdev) ↔ s.NoNode env ∨ (∀ e ∈ blocks.flatten, ¬ e.HasRoom) ∨
      Refuses blocks name (.mknod mode rdev) ∨ FitsFirst blocks name := by
  have hpos : 0 < s.blocksize := by have := hs.perGroup .blocks; omega
  have hinode : MakeStep.ofInode fault = none := by rw [hf]; rfl
  have hwhole : MakeStep.ofEntry fault = none := by rw [hf]; rfl
  have hmake : s.make fault env dir name (.mknod mode rdev) = s.mknod fault env dir name mode rdev := rfl
  have hfind : s.findEntryOn fault dir name = some (blocks.flatten.find? fun r => r.name = name) := by
    rw [hf]
    exact hd.holds.findEntry_eq hne hnul
  unfold mknod at hmake
  rw [hfind] at hmake
  cases hfirst : blocks.flatten.find? fun r => r.name = name with
  | some e =>
      rw [hfirst] at hmake
      have he : e.name = name := by simpa using List.find?_some hfirst
      exact iff_of_true (createsWell_failed hf (by decide) hmake)
        (.inr (.inr (.inl (.inl ⟨e, List.mem_of_find?_eq_some hfirst, he⟩))))
  | none =>
      rw [hfirst] at hmake
      dsimp only at hmake
      rcases ha.newNode_whole hs hinode env dir.dev mode with
        ⟨hno, e, t, he, hnew⟩ | ⟨hsome, node, t, hnode, hnew⟩
      · rw [hnew] at hmake
        dsimp only [Option.getD_some] at hmake
        rw [if_neg he.ne] at hmake
        exact iff_of_true (createsWell_failed hf he.ne hmake) (.inl hno)
      rw [hnew] at hmake
      dsimp only at hmake
      obtain ⟨node', hfor, hino⟩ := nodeFor_spec env dir node mode rdev
      rw [hfor] at hmake
      cases hmode : unsupported (mode % 2 ^ 16) with
      | true =>
          rw [hmode] at hmake
          exact iff_of_true (createsWell_failed hf (by decide) hmake) (.inr (.inr (.inl (.inr hmode))))
      | false =>
          rw [hmode, Bool.not_false] at hmake
          dsimp only at hmake
          have hrange : 1 ≤ node'.ino ∧ node'.ino ≤ s.inodesCount := hino ▸ hnode.range
          have hkeeps : KeepsDir s (t.writeInode node').2 dir blocks.length :=
            (hnode.keepsDir hd).writeInode hd hrange (hino ▸ hnode.ne_dir hd)
          have hino' := writeInode_ino t node'
          unfold linkNode at hmake
          rw [decide_eq_false (by rw [hf]; simp), storeInode_false] at hmake
          rcases hwrite : t.writeInode node' with ⟨made, u⟩
          rw [hwrite] at hmake hkeeps hino'
          dsimp only at hmake hino' hkeeps
          by_cases hroom : ∃ e ∈ blocks.flatten, e.HasRoom
          · obtain ⟨A, pre, r, post, C, rfl, hA, hpre, hr⟩ := exists_first_of hroom
            obtain ⟨d, hread, hholds, hraw, hdino, hdir, hptr⟩ := exists_reread hd hkeeps
            have hentry := writeEntry_found (newEntry made.ino name) hread hholds hA hpre hr
            rw [hwhole, hentry] at hmake
            dsimp only at hmake
            rw [if_pos rfl] at hmake
            have hlt : s.inodesCount < 2 ^ 32 := get_lt 4 s.es 0
            rw [createsWell_iff hf hmake, fitsFirst_iff hA hpre hr]
            refine (hd.holds.createdWell_iff hd.directory hholds hdir hr (by omega) (by omega) hne hnul hfresh
              (SameDir.refl _ d _) rfl).trans ⟨fun h => .inr (.inr (.inr h)), ?_⟩
            rintro (h | h | (⟨e, he, hname⟩ | h) | h)
            · exact absurd h hsome
            · exact absurd hr (h r (by simp))
            · have hnone := List.find?_eq_none.mp hfirst e he
              exact absurd (decide_eq_true hname) hnone
            · rw [hmode] at h
              cases h
            · exact h
          · have hfull : ∀ e ∈ blocks.flatten, ¬ e.HasRoom := fun e he h => hroom ⟨e, he, h⟩
            rcases writeEntry_spec hd hpos hkeeps none (newEntry made.ino name) with
              ⟨⟨-, -, r, hr, hroom'⟩, -⟩ | ⟨-, dir', hentry⟩
            · exact absurd hroom' (hfull r (mem_flatten_of_take hr))
            · rw [hwhole, hentry] at hmake
              dsimp only at hmake
              rw [if_neg (by decide)] at hmake
              rcases hlast : u.writeInode { made with links := 0 } with ⟨made', w⟩
              rw [hlast] at hmake
              exact iff_of_true (createsWell_failed hf (by decide) hmake) (.inr (.inl hfull))

theorem rootBlocks_fits (h : name.length ≤ 255) (hdots : ∀ e ∈ rootBlocks.flatten, e.name ≠ name) :
    FitsFirst rootBlocks name := by
  refine ⟨by omega, [⟨2, 12, [46]⟩], ⟨2, 1012, [46, 46]⟩, [], rfl, ?_, ?_, ?_, hdots⟩
  · intro e he
    rw [List.mem_singleton.mp he]
    decide
  · decide
  · have hslack : (1000 : ℕ) ≤ (⟨2, 1012, [46, 46]⟩ : DirEntry).recLen -
        (⟨2, 1012, [46, 46]⟩ : DirEntry).size := by decide
    omega

end Ext2
end Ferrite.Fs
