import Ferrite.Fs.ReadDir

/-!
# Finding a directory entry

`ext2_find_entry` takes the first record with the name, in use or not. A listing of the
directory leaves out the records that are not in use.
-/
namespace Ferrite.Fs
open Packed Word Records

/-- The offset of the first record of a block that passes a test. The buffer is left after
`bs` rounds at the latest, or never. -/
def scanLoop (b : Bytes) (bs : ℕ) (test : Bytes → ℕ → Bool) : ℕ → ℕ → Option (Option ℕ)
  | 0, _ => none
  | fuel + 1, offset =>
      if offset < bs then
        if test b offset then some (some offset)
        else scanLoop b bs test fuel (wadd offset (entryAt b offset).recLen)
      else some none

/-- The test of `ext2_find_entry`: the length, the first byte and `strncmp`. -/
def hasName (name : List Byte) (b : Bytes) (o : ℕ) : Bool :=
  name.length == (entryAt b o).name.length && name.headD 0 == b (o + 8) && strncmpEq name (entryAt b o).name

namespace Ext2
variable (s : Ext2)

/-- The loop over the blocks from `i` on. -/
def scanFrom (inode : Bytes) (test : Bytes → ℕ → Bool) : ℕ → ℕ → Option (Option DirEntry)
  | 0, _ => some none
  | n + 1, i =>
      if iBlock inode i = 0 then some none
      else
        let buff := s.dirBlock inode i
        (scanLoop buff s.blocksize test (s.blocksize + 1) 0).bind fun found =>
          match found with
          | none => scanFrom inode test n (i + 1)
          | some offset => some (some (entryAt buff offset))

/-- The record that `ext2_find_entry` copies; without one it returns -1. -/
def findEntry (dir : VfsInode) (name : List Byte) : Option (Option DirEntry) :=
  s.scanFrom dir.raw (hasName name) (min (ceilDiv dir.size s.blocksize) 12) 0

/-- What calls of `ext2_readdir` hand out that start at the beginning of the directory. -/
def Lists (dir : VfsInode) (entry : List Byte × ℕ) : Prop :=
  ∃ n rs, s.listing dir n 0 = some rs ∧ ∃ r ∈ rs, r.2.1.map Dirent.entry = some entry

/-- A name is found when it is listed, with the inode that is listed. -/
structure FindsListed (dir : VfsInode) (name : List Byte) : Prop where
  found_iff : (∃ e, s.findEntry dir name = some (some e)) ↔ ∃ ino, s.Lists dir (name, ino)
  listed : ∀ e, s.findEntry dir name = some (some e) → s.Lists dir (name, e.inode) ∧ e.inode ≠ 0

end Ext2

variable {s : Ext2} {dir : VfsInode} {b : Bytes} {bs o k n : ℕ} {name : List Byte} {p : ℤ}
variable {test : Bytes → ℕ → Bool} {q : DirEntry → Bool} {rs : List DirEntry} {blocks : List (List DirEntry)}

/-- The first record of the name is in use, if there is one. -/
def FirstInUse (blocks : List (List DirEntry)) (name : List Byte) : Prop :=
  ∀ e, blocks.flatten.find? (fun r => r.name = name) = some e → e.inode ≠ 0

/-! ## The search -/

/-- The search in a block finds the first record with the property that is tested. -/
theorem scanLoop_eq (hbs : bs < word) (hchain : BlockHolds b bs o rs)
    (htest : ∀ x, entryAt b x ∈ rs → test b x = q (entryAt b x)) (hfuel : rs.length < k) :
    (scanLoop b bs test k o).map (·.map (entryAt b)) = some (rs.find? q) := by
  induction rs generalizing o k with
  | nil =>
      have hend : o = bs := hchain
      obtain ⟨k, rfl⟩ : ∃ j, k = j + 1 := ⟨k - 1, by omega⟩
      rw [scanLoop, if_neg (by omega)]
      rfl
  | cons r rs ih =>
      obtain ⟨k, rfl⟩ : ∃ j, k = j + 1 := ⟨k - 1, by omega⟩
      have hbounds := recLen_bounds_head hchain
      obtain ⟨hr, -, hrest⟩ := hchain
      rw [List.length_cons] at hfuel
      rw [scanLoop, if_pos (by omega), htest o (hr ▸ List.mem_cons_self), hr, List.find?_cons]
      cases hq : q r with
      | true =>
          rw [if_pos rfl, Option.map_some, Option.map_some, hr]
      | false =>
          rw [if_neg Bool.false_ne_true, wadd_of_lt (by omega)]
          exact ih hrest (fun x hx => htest x (List.mem_cons_of_mem _ hx)) (by omega)

namespace Ext2

/-- The search through the blocks finds the first record of all. -/
theorem scanFrom_eq {inode : Bytes} {i : ℕ} (halloc : ∀ j < blocks.length, iBlock inode (i + j) ≠ 0)
    (hchains : ∀ j rs, blocks[j]? = some rs → BlockHolds (s.dirBlock inode (i + j)) s.blocksize 0 rs)
    (htest : ∀ b x, entryAt b x ∈ blocks.flatten → test b x = q (entryAt b x)) :
    s.scanFrom inode test blocks.length i = some (blocks.flatten.find? q) := by
  induction blocks generalizing i with
  | nil => rfl
  | cons rs blocks ih =>
      have hi : iBlock inode i ≠ 0 := halloc 0 (Nat.succ_pos _)
      have hchain : BlockHolds (s.dirBlock inode i) s.blocksize 0 rs := hchains 0 rs rfl
      have hlen := length_le_of_chain hchain
      have hloop := scanLoop_eq (k := s.blocksize + 1) blocksize_lt hchain
        (fun x hx => htest _ x (by rw [List.flatten_cons]; exact List.mem_append_left _ hx)) (by omega)
      have hrest := ih (i := i + 1)
        (fun j hj => by
          rw [Nat.add_assoc, Nat.add_comm 1]
          exact halloc (j + 1) (Nat.succ_lt_succ hj))
        (fun j rs' hj => by
          rw [Nat.add_assoc, Nat.add_comm 1]
          exact hchains (j + 1) rs' hj)
        (fun b x hx => htest b x (by rw [List.flatten_cons]; exact List.mem_append_right _ hx))
      rw [List.length_cons, scanFrom, if_neg hi, List.flatten_cons, List.find?_append]
      dsimp only
      rcases Option.map_eq_some_iff.mp hloop with ⟨found, hfound, hmap⟩
      rw [hfound, Option.bind_some, ← hmap]
      cases found with
      | none => exact hrest
      | some offset => rfl

end Ext2

/-- On a record with a name, the test is whether it has the name. -/
theorem hasName_eq (hne : name ≠ []) (hname : 0 ∉ name) (b : Bytes) (x : ℕ) :
    hasName name b x = decide ((entryAt b x).name = name) := by
  rw [Bool.eq_iff_iff, decide_eq_true_iff, ← sameName_iff hname]
  unfold hasName sameName
  rw [Bool.and_right_comm, Bool.and_eq_true, and_iff_left_iff_imp]
  intro h
  have heq := (sameName_iff hname).mp h
  rw [beq_iff_eq]
  obtain ⟨c, l, rfl⟩ := List.exists_cons_of_ne_nil hne
  have hlen := congrArg List.length heq
  rw [length_name, List.length_cons] at hlen
  have hhead := congrArg (·.headD 0) heq
  simp only [entryAt, hlen, List.range_succ_eq_map, List.map_cons, List.headD_cons, Nat.add_zero] at hhead
  exact hhead.symm

theorem DirHolds.blocks_eq (h : DirHolds s dir blocks) (hpos : 0 < s.blocksize) :
    min (ceilDiv dir.size s.blocksize) 12 = blocks.length := by
  have hlt := h.size.1 ▸ h.size.2
  rw [h.size.1, Ext2.ceilDiv_mul hpos hlt, min_eq_left h.count.2]

/-- The first record of the name is found, in use or not. -/
theorem DirHolds.findEntry_eq (h : DirHolds s dir blocks) (hne : name ≠ []) (hname : 0 ∉ name) :
    s.findEntry dir name = some (blocks.flatten.find? fun r => r.name = name) := by
  rcases Nat.eq_zero_or_pos s.blocksize with hzero | hpos
  · -- no block has room for a record
    have hnil : blocks.flatten = [] := by
      apply List.eq_nil_iff_forall_not_mem.mpr
      intro e he
      have := h.blocksize_pos he
      omega
    rw [Ext2.findEntry, hzero, ceilDiv, Nat.div_zero, Nat.zero_min, hnil]
    rfl
  rw [Ext2.findEntry, h.blocks_eq hpos]
  apply Ext2.scanFrom_eq
  · intro j hj
    rw [Nat.zero_add]
    exact h.allocated j hj
  · intro j rs hj
    rw [Nat.zero_add]
    exact h.chains j rs hj
  · intro b x _
    exact hasName_eq hne hname b x

/-! ## What is listed -/

/-- More calls hand out more. -/
theorem listing_extends {rs rs' : List (ℤ × Option Dirent × ℤ)} (h : s.listing dir k p = some rs)
    (h' : s.listing dir (k + n) p = some rs') : rs <+: rs' := by
  induction k generalizing p rs rs' with
  | zero =>
      cases h
      exact List.nil_prefix
  | succ k ih =>
      rw [Nat.add_right_comm] at h'
      obtain ⟨r, hr, h⟩ := Option.bind_eq_some_iff.mp h
      obtain ⟨r', hr', h'⟩ := Option.bind_eq_some_iff.mp h'
      obtain ⟨l, hl, rfl⟩ := Option.map_eq_some_iff.mp h
      obtain ⟨l', hl', rfl⟩ := Option.map_eq_some_iff.mp h'
      obtain rfl : r = r' := Option.some.inj (hr.symm.trans hr')
      exact (List.prefix_cons_inj r).mpr (ih hl hl')

/-- The records in use are listed, and nothing else. -/
theorem DirListed.lists_iff (h : DirListed s dir blocks) (x : List Byte × ℕ) :
    s.Lists dir x ↔ x ∈ live blocks.flatten := by
  have hstart : Stands s.blocksize blocks 0 blocks.flatten := Stands.start (List.ne_nil_of_length_pos h.count.1)
  constructor
  · rintro ⟨n, rs, hrs, r, hr, hx⟩
    obtain ⟨rs', hlist, hmap⟩ := h.listing_from hstart n
    rw [Nat.add_comm] at hlist
    have hmem := (listing_extends hrs hlist).mem hr
    rcases List.mem_append.mp hmem with hmem | hmem
    · have himage := List.mem_map_of_mem (f := fun r => (r.1, r.2.1.map Dirent.entry)) hmem
      rw [hmap, List.mem_map] at himage
      obtain ⟨e, he, heq⟩ := himage
      rw [hx] at heq
      obtain rfl : e = x := Option.some.inj (congrArg Prod.snd heq)
      exact he
    · rw [(List.mem_replicate.mp hmem).2] at hx
      cases hx
  · intro hx
    obtain ⟨rs, hlist, hmap⟩ := h.listing_from hstart 0
    have himage := List.mem_map_of_mem (f := fun e : List Byte × ℕ => ((e.1.length : ℤ), some e)) hx
    rw [← hmap, List.mem_map] at himage
    obtain ⟨r, hr, heq⟩ := himage
    exact ⟨_, _, hlist, r, List.mem_append_left _ hr, congrArg Prod.snd heq⟩

/-- Search and listing agree exactly on a name whose first record is in use, and on a
name without a record. -/
theorem find_entry_iff (s : Ext2) (dir : VfsInode) (blocks : List (List DirEntry)) (name : List Byte)
    (h : DirHolds s dir blocks) (hl : DirListed s dir blocks) (hne : name ≠ []) (hname : 0 ∉ name) :
    s.FindsListed dir name ↔ FirstInUse blocks name := by
  have hfind := h.findEntry_eq hne hname
  constructor
  · intro hp e he
    exact (hp.listed e (hfind.trans (congrArg some he))).2
  · intro hfirst
    have hlisted (e : DirEntry) (he : s.findEntry dir name = some (some e)) :
        s.Lists dir (name, e.inode) ∧ e.inode ≠ 0 := by
      rw [hfind, Option.some.injEq] at he
      have hin := hfirst e he
      have hmem := List.mem_of_find?_eq_some he
      have hnamed : e.name = name := by simpa using List.find?_some he
      exact ⟨(hl.lists_iff _).mpr (hnamed ▸ mem_live_of hmem hin), hin⟩
    refine ⟨⟨fun ⟨e, he⟩ => ⟨e.inode, (hlisted e he).1⟩, fun ⟨ino, hino⟩ => ?_⟩, hlisted⟩
    obtain ⟨r, hr, -, hnamed, -⟩ := mem_live ((hl.lists_iff _).mp hino)
    have hsome : (blocks.flatten.find? fun r => r.name = name).isSome := by
      rw [List.find?_isSome]
      exact ⟨r, hr, decide_eq_true hnamed⟩
    obtain ⟨e, he⟩ := Option.isSome_iff_exists.mp hsome
    exact ⟨e, hfind.trans (congrArg some he)⟩

/-- A directory with `.` and a record of the name `a` that is not in use. -/
def deadBlocks : List (List DirEntry) := [[⟨2, 12, [46]⟩, ⟨0, 1012, [97]⟩]]

def deadDisk : Ext2 where
  disk := fun i =>
    (([2, 0, 0, 0, 12, 0, 1, 2, 46, 0, 0, 0, 0, 0, 0, 0, 0xF4, 3, 1, 1, 97] : List Byte)[i % 1024]?).getD 0
  es := fun _ => 0
  groupDesc := fun _ _ => 0

def deadDir : VfsInode :=
  { VfsInode.zero with mode := sIfdir, size := 1024, u := .ext2 (put 4 (fun _ => 0) 40 1) }

theorem dead_holds : DirHolds deadDisk deadDir deadBlocks := by
  refine ⟨by decide, by decide, by decide, by decide, ?_, by decide,
    by decide⟩
  intro i rs hi
  match i with
  | 0 =>
      cases hi
      decide +kernel
  | i + 1 => cases hi

theorem dead_listed : DirListed deadDisk deadDir deadBlocks := by
  refine ⟨by decide, by decide, by decide, ?_, by decide⟩
  intro i rs hi
  match i with
  | 0 =>
      cases hi
      decide +kernel
  | i + 1 => cases hi

theorem find_entry_iff_dot : deadDisk.FindsListed deadDir [46] :=
  (find_entry_iff deadDisk deadDir deadBlocks [46] dead_holds dead_listed (by decide) (by decide)).mpr
    fun e he => by
      obtain rfl : (⟨2, 12, [46]⟩ : DirEntry) = e := Option.some.inj he
      decide

/-- The record is found that is not in use. -/
theorem dead_record_found : ¬ ∀ (s : Ext2) (dir : VfsInode) (blocks : List (List DirEntry)) (name : List Byte),
    DirHolds s dir blocks → DirListed s dir blocks → name ≠ [] → 0 ∉ name → s.FindsListed dir name := by
  intro h
  have hfinds := h deadDisk deadDir deadBlocks [97] dead_holds dead_listed (by decide) (by decide)
  exact (hfinds.listed ⟨0, 1012, [97]⟩ (dead_holds.findEntry_eq (by decide) (by decide))).2 rfl

end Ferrite.Fs
