import Ferrite.Fs.CreateTrace

/-!
# An entry more in a directory

`ext2_write_entry` divides the first record that is longer than its name needs, whether what
it gives up is enough for the new entry or not. Records that are not in use may have names
longer than themselves, and such a name changes with the bytes behind its record.
-/
namespace Ferrite.Fs
open Packed Word Records

namespace DirEntry
variable (e : DirEntry)

/-- A record holds its fields, and its name if it is in use. -/
def Sound : Prop := 8 ≤ e.recLen ∧ (e.inode ≠ 0 → e.size ≤ e.recLen)

instance : DecidablePred Sound := fun _ => inferInstanceAs (Decidable (_ ∧ _))

/-- What the name leaves of the length. -/
def slack : ℕ := e.recLen - e.size

/-- The record of a place before and after a change of bytes that are not its own. -/
def Alike (a b : DirEntry) : Prop := b.recLen = a.recLen ∧ b.inode = a.inode ∧ (a.inode ≠ 0 → b = a)

end DirEntry

/-- The first record with room, which is divided, has enough of it. -/
def EnoughRoom (blocks : List (List DirEntry)) (entry : DirEntry) : Prop :=
  ∀ r, blocks.flatten.find? (fun r => r.HasRoom) = some r → entry.size ≤ r.slack

/-- A call that succeeds leaves a directory with the entries it had and the new one, and a call
for which no record has enough room fails and changes no block. -/
structure Adds (s : Ext2) (blocks : List (List DirEntry)) (entry : DirEntry) (result : ℤ) (dir : VfsInode)
    (t : Ext2) : Prop where
  added : result = 0 → ∃ blocks', DirChains DirEntry.Sound t dir blocks' ∧
    (live blocks'.flatten).Perm ((entry.name, entry.inode) :: live blocks.flatten)
  refused : (∀ r ∈ blocks.flatten, r.slack < entry.size) →
    result < 0 ∧ ∀ i < blocks.length, t.dirBlock dir.raw i = s.dirBlock dir.raw i

/-- Every call returns so, whatever transfer fails. -/
def AddsEntry (s : Ext2) (dir : VfsInode) (blocks : List (List DirEntry)) (entry : DirEntry) : Prop :=
  ∀ fault, ∃ result dir' t, s.writeEntry fault dir entry = some (result, dir', t) ∧
    Adds s blocks entry result dir' t

variable {s : Ext2} {dir : VfsInode} {b b' : Bytes} {bs o x : ℕ} {r entry : DirEntry}
variable {pre post rs rs' : List DirEntry} {blocks A C : List (List DirEntry)}

theorem sound_pos (r : DirEntry) (h : r.Sound) : 0 < r.recLen := Nat.lt_of_lt_of_le (by decide) h.1

/-! ## Bytes of other records -/

theorem alike_of_eq (hx : (entryAt b x).Sound) (h : ∀ y, x ≤ y → y < x + (entryAt b x).recLen → b' y = b y) :
    DirEntry.Alike (entryAt b x) (entryAt b' x) := by
  obtain ⟨hlong, hused⟩ := hx
  refine ⟨?_, ?_, ?_⟩
  · exact get_congr fun y hy hy' => h y (by omega) (by omega)
  · exact get_congr fun y hy hy' => h y (by omega) (by omega)
  · intro hino
    have hsize := size_bounds (length_name_lt b x)
    have hle := hused hino
    exact entryAt_congr fun y hy hy' => h y hy (by omega)

theorem sound_of_alike {a c : DirEntry} (ha : a.Sound) (h : DirEntry.Alike a c) : c.Sound ∧
    c.recLen = a.recLen := by
  obtain ⟨hlen, hino, heq⟩ := h
  refine ⟨⟨hlen ▸ ha.1, ?_⟩, hlen⟩
  intro hused
  rw [heq (hino ▸ hused)]
  exact ha.2 (hino ▸ hused)

theorem live_alike (h : List.Forall₂ DirEntry.Alike rs rs') : live rs' = live rs := by
  induction h with
  | nil => rfl
  | @cons a c rs rs' hac _ ih =>
      obtain ⟨-, hino, heq⟩ := hac
      by_cases ha : a.inode = 0
      · rw [live_cons_unused ha, live_cons_unused (hino.trans ha), ih]
      · rw [heq ha, live_cons_used ha, live_cons_used ha, ih]

/-- The records in front of the one that is divided. -/
theorem alike_addTo (entry : DirEntry) (hr : entryAt b o = r) (hroom : r.HasRoom) (hx : (entryAt b x).Sound)
    (hle : x + (entryAt b x).recLen ≤ o) : DirEntry.Alike (entryAt b x)
    (entryAt (Ext2.addTo b o o entry) x) := by
  rw [addTo_eq hr hroom]
  apply alike_of_eq hx
  intro y hy hy'
  rw [copy_of_lt (by omega), put_of_lt (by omega)]

/-! ## Enough room -/

theorem sound_cut (hlen : r.name.length < 256) : r.cut.Sound := by
  have hsize := size_bounds hlen
  exact ⟨show 8 ≤ r.size by omega, fun _ => show r.size ≤ r.size from le_rfl⟩

theorem sound_rest (hname : entry.name.length < 256) (hfit : entry.size ≤ r.slack) : (entry.rest r).Sound := by
  have hsize := size_bounds hname
  exact ⟨show 8 ≤ r.slack by omega, fun _ => hfit⟩

/-- The chain with the record divided. -/
theorem chain_add (h : Chain (entryAt b) DirEntry.recLen DirEntry.Sound bs 0 (pre ++ r :: post))
    (hroom : r.HasRoom)
    (hino : entry.inode < 2 ^ 32) (hname : entry.name.length < 256) (hfit : entry.size ≤ r.slack) :
    ∃ pre', List.Forall₂ DirEntry.Alike pre pre' ∧
      Chain (entryAt (Ext2.addTo b (total DirEntry.recLen pre) (total DirEntry.recLen pre) entry))
        DirEntry.recLen DirEntry.Sound bs 0
        (pre' ++ r.cut :: entry.rest r :: post) := by
  obtain ⟨hpre, hr, -, hpost⟩ := chain_append.mp h
  rw [Nat.zero_add] at hpre hr hpost
  have hlen := hr ▸ length_name_lt b (total DirEntry.recLen pre)
  have hsize := size_bounds hname
  have hroom' := hroom
  unfold DirEntry.HasRoom at hroom'
  have hdivided : r.size + (r.recLen - r.size) = r.recLen := by omega
  obtain ⟨pre', hpre', hall⟩ : ∃ pre',
      Chain (entryAt (Ext2.addTo b (total DirEntry.recLen pre) (total DirEntry.recLen pre) entry))
      DirEntry.recLen DirEntry.Sound (total DirEntry.recLen pre) 0 pre' ∧
        List.Forall₂ DirEntry.Alike pre pre' :=
    hpre.altered (fun _ _ => sound_of_alike) fun x _ hx hle => alike_addTo entry hr hroom hx hle
  have htotal := hpre'.end_eq
  refine ⟨pre', hall, chain_append.mpr ?_⟩
  rw [htotal]
  refine ⟨hpre', entryAt_addTo_self entry hr hroom, sound_cut hlen, entryAt_addTo_new hr hroom hino hname,
    sound_rest hname hfit, ?_⟩
  have hend : total DirEntry.recLen pre + r.cut.recLen + (entry.rest r).recLen
      = total DirEntry.recLen pre + r.recLen := by
    rw [Nat.add_assoc]
    exact congrArg (total DirEntry.recLen pre + ·) hdivided
  rw [hend]
  apply hpost.congr
  intro x hx _ _
  apply entryAt_congr
  intro y hy _
  exact addTo_of_le hr hroom (by unfold DirEntry.slack at hfit; omega)

/-- The directory with the record divided. -/
theorem DirChains.add (h : DirChains DirEntry.Sound s dir (A ++ (pre ++ r :: post) :: C)) (hroom : r.HasRoom)
    (hused : entry.inode ≠ 0) (hino : entry.inode < 2 ^ 32) (hname : entry.name.length < 256)
    (hfit : entry.size ≤ r.slack) :
    ∃ blocks', DirChains DirEntry.Sound (writeDirBlock s dir A.length (Ext2.addTo (s.dirBlock dir.raw A.length)
        (total DirEntry.recLen pre) (total DirEntry.recLen pre) entry)) dir blocks' ∧
      (live blocks'.flatten).Perm
        ((entry.name, entry.inode) :: live (A ++ (pre ++ r :: post) :: C).flatten) := by
  have hpos : 0 < s.blocksize := h.blocksize_pos sound_pos (e := r) (by simp)
  have hchain : Chain (entryAt (s.dirBlock dir.raw A.length)) DirEntry.recLen DirEntry.Sound s.blocksize 0
      (pre ++ r :: post) :=
    h.chains A.length _ (by simp)
  have hbounds := hchain.bounds.2
  have hsize := size_bounds hname
  obtain ⟨-, hr, -, -⟩ := chain_append.mp hchain
  rw [Nat.zero_add] at hr hbounds
  obtain ⟨pre', hall, hadd⟩ := chain_add hchain hroom hino hname hfit
  refine ⟨A ++ (pre' ++ r.cut :: entry.rest r :: post) :: C, h.replaced hpos ?_ hadd, ?_⟩
  · intro k hk
    rw [addTo_of_le hr hroom (by unfold DirEntry.slack at hfit; omega)]
    exact dirBlock_zero hk
  · obtain ⟨X, Y, hold, hnew⟩ := live_add A C pre' post (r := r) hused
    have hlive : live (A ++ (pre' ++ r :: post) :: C).flatten
        = live (A ++ (pre ++ r :: post) :: C).flatten := by
      rw [live_flatten, live_flatten, live_append, live_append, live_alike hall]
    rw [hnew, ← hlive, hold]
    exact List.perm_middle

/-! ## Less room -/

theorem not_sound_new (hr : entryAt b o = r) (hroom : r.HasRoom) (hused : entry.inode ≠ 0)
    (hino : entry.inode < 2 ^ 32)
    (hname : entry.name.length < 256) (hend : o + r.recLen ≤ bs) (hshort : r.slack < entry.size) :
    ¬ (entryAt (within bs (Ext2.addTo b o o entry)) (o + r.size)).Sound := by
  rintro ⟨hlong, hfits⟩
  unfold DirEntry.slack at hshort
  by_cases hfields : 8 ≤ r.recLen - r.size
  · obtain ⟨hinode, hrec, hlen⟩ := entryAt_within_new hr hroom hino hname hend hfields
    have hsize : (entryAt (within bs (Ext2.addTo b o o entry)) (o + r.size)).size = entry.size :=
      congrArg (fun n => align (8 + n) 4) hlen
    have hle := hfits (hinode ▸ hused)
    omega
  · have hrec := @recLen_within_new _ bs _ _ _ hr hroom hino hname (not_le.mp hfields)
    omega

/-- What is a directory afterwards has had the room. -/
theorem DirChains.room_of_add (h : DirChains DirEntry.Sound s dir (A ++ (pre ++ r :: post) :: C))
    (hroom : r.HasRoom)
    (hused : entry.inode ≠ 0) (hino : entry.inode < 2 ^ 32) (hname : entry.name.length < 256)
    (h' : DirChains DirEntry.Sound (writeDirBlock s dir A.length (Ext2.addTo (s.dirBlock dir.raw A.length)
        (total DirEntry.recLen pre) (total DirEntry.recLen pre) entry)) dir blocks) : entry.size ≤ r.slack := by
  by_contra hshort
  have hpos : 0 < s.blocksize := h.blocksize_pos sound_pos (e := r) (by simp)
  have hchain : Chain (entryAt (s.dirBlock dir.raw A.length)) DirEntry.recLen DirEntry.Sound s.blocksize 0
      (pre ++ r :: post) :=
    h.chains A.length _ (by simp)
  have hbounds := hchain.bounds.2
  obtain ⟨hpre, hr, -, -⟩ := chain_append.mp hchain
  rw [Nat.zero_add] at hpre hr hbounds
  have hsize := size_bounds (hr ▸ length_name_lt _ (total DirEntry.recLen pre))
  have hroom' := hroom
  unfold DirEntry.HasRoom at hroom'
  have hlen : blocks.length = (A ++ (pre ++ r :: post) :: C).length :=
    Nat.eq_of_mul_eq_mul_right hpos (h'.size.1.symm.trans h.size.1)
  have hA : A.length < blocks.length := by
    rw [hlen]
    simp
  rw [← writeDirBlock_within] at h'
  have hchain' := h'.chains A.length _ (List.getElem?_eq_getElem hA)
  have hbuff : ∀ k, s.blocksize ≤ k →
      within s.blocksize (Ext2.addTo (s.dirBlock dir.raw A.length) (total DirEntry.recLen pre)
      (total DirEntry.recLen pre) entry) k = 0 := fun k hk => if_neg (by omega)
  rw [dirBlock_write_self hbuff] at hchain'
  change Chain _ _ _ s.blocksize 0 _ at hchain'
  -- the chain comes by the record that is cut
  obtain ⟨rest, hrest⟩ := hpre.follow (by omega) (fun x _ hx hle => by
    have hlow := (alike_addTo entry hr hroom hx hle).1
    rw [← hlow]
    apply get_congr
    intro y hy hy'
    exact if_pos (by have := hx.1; omega)) hchain'
  cases rest with
  | nil =>
      have hstop : total DirEntry.recLen pre = s.blocksize := hrest
      omega
  | cons c rest =>
      obtain ⟨hc, -, hrest⟩ := hrest
      have hcut : c.recLen = r.size := by
        rw [← hc, ← show r.cut.recLen = r.size from rfl, ← entryAt_addTo_self entry hr hroom]
        apply get_congr
        intro y hy hy'
        exact if_pos (by omega)
      rw [hcut] at hrest
      cases rest with
      | nil =>
          have hstop : total DirEntry.recLen pre + r.size = s.blocksize := hrest
          omega
      | cons f rest =>
          obtain ⟨hf, hsound, -⟩ := hrest
          rw [← hf] at hsound
          exact not_sound_new hr hroom hused hino hname hbounds (not_le.mp hshort) hsound

/-! ## The call -/

theorem mem_flatten_of_take {n : ℕ} (hr : r ∈ (blocks.take n).flatten) : r ∈ blocks.flatten := by
  obtain ⟨rs, hrs, hr⟩ := List.mem_flatten.mp hr
  exact List.mem_flatten.mpr ⟨rs, List.mem_of_mem_take hrs, hr⟩

theorem DirChains.writeEntry_refused (h : DirChains DirEntry.Sound s (s.readInode dir) blocks)
    (hpos : 0 < s.blocksize) (fault : Option EntryStep)
    (hfull : ∀ r ∈ (blocks.take (reached fault blocks.length)).flatten, ¬ r.HasRoom) (entry : DirEntry) :
    ∃ dir', s.writeEntry fault dir entry = some (-1, dir', s) := by
  by_cases hload : fault = some .loadDir
  · exact ⟨dir, if_pos hload⟩
  · exact ⟨_, h.writeEntry_full sound_pos hpos hload hfull entry⟩

theorem DirChains.writeEntry_room
    (h : DirChains DirEntry.Sound s (s.readInode dir) (A ++ (pre ++ r :: post) :: C))
    (hA : ∀ e ∈ A.flatten, ¬ e.HasRoom) (hpre : ∀ e ∈ pre, ¬ e.HasRoom) (hr : r.HasRoom)
    (fault : Option EntryStep)
    (entry : DirEntry) :
    (fault ≠ none ∧ ∃ dir', s.writeEntry fault dir entry = some (-1, dir', s)) ∨
      s.writeEntry fault dir entry = some (0, s.readInode dir, writeDirBlock s (s.readInode dir) A.length
        (Ext2.addTo (s.dirBlock (s.readInode dir).raw A.length) (total DirEntry.recLen pre)
          (total DirEntry.recLen pre) entry)) := by
  have hpos : 0 < s.blocksize := h.blocksize_pos sound_pos (e := r) (by simp)
  by_cases hload : fault = some .loadDir
  · exact .inl ⟨by simp [hload], dir, if_pos hload⟩
  by_cases hreached : A.length < reached fault (A ++ (pre ++ r :: post) :: C).length
  · rw [h.writeEntry_found sound_pos hload hA hpre hr hreached entry]
    split_ifs with hstore
    · exact .inl ⟨by simp [hstore], _, rfl⟩
    · exact .inr rfl
  · have hfull : ∀ e ∈ ((A ++ (pre ++ r :: post) :: C).take
        (reached fault (A ++ (pre ++ r :: post) :: C).length)).flatten, ¬ e.HasRoom := by
      intro e he
      rw [List.take_append_of_le_length (not_lt.mp hreached)] at he
      exact hA e (mem_flatten_of_take he)
    refine .inl ⟨?_, h.writeEntry_refused hpos fault hfull entry⟩
    rintro rfl
    apply hreached
    unfold reached
    simp

theorem Adds.failed (s : Ext2) (blocks : List (List DirEntry)) (entry : DirEntry) (dir : VfsInode) :
    Adds s blocks entry (-1) dir s where
  added h := by cases h
  refused _ := ⟨by decide, fun _ _ => rfl⟩

/-- The call adds the entry, or changes nothing, exactly if the first record with room has
room for it. -/
theorem adds_entry_iff (s : Ext2) (dir : VfsInode) (blocks : List (List DirEntry)) (entry : DirEntry)
    (h : DirChains DirEntry.Sound s (s.readInode dir) blocks) (hpos : 0 < s.blocksize) (hused : entry.inode ≠ 0)
    (hino : entry.inode < 2 ^ 32) (hname : entry.name.length < 256) :
    AddsEntry s dir blocks entry ↔ EnoughRoom blocks entry := by
  by_cases hroom : ∃ r ∈ blocks.flatten, r.HasRoom
  · obtain ⟨A, pre, r, post, C, rfl, hA, hpre, hr⟩ := exists_first_of hroom
    have hfirst : (A ++ (pre ++ r :: post) :: C).flatten.find? (fun r => r.HasRoom) = some r := by
      rw [List.flatten_append, List.flatten_cons, List.append_assoc, List.cons_append]
      apply List.find?_eq_some_iff_append.mpr
      refine ⟨by simpa using hr, A.flatten ++ pre, post ++ C.flatten, (List.append_assoc ..).symm, ?_⟩
      intro e he
      rcases List.mem_append.mp he with he | he
      · simpa using hA e he
      · simpa using hpre e he
    have henough : EnoughRoom (A ++ (pre ++ r :: post) :: C) entry ↔ entry.size ≤ r.slack := by
      unfold EnoughRoom
      rw [hfirst]
      simp
    rw [henough]
    constructor
    · intro hadds
      obtain ⟨result, dir', t, hcall, hadds⟩ := hadds none
      have hwritten := (h.writeEntry_room hA hpre hr none entry).resolve_left fun hfault => hfault.1 rfl
      rw [hwritten] at hcall
      cases hcall
      obtain ⟨blocks', hblocks', -⟩ := hadds.added rfl
      exact h.room_of_add hr hused hino hname hblocks'
    · intro hfit fault
      rcases h.writeEntry_room hA hpre hr fault entry with ⟨-, hfailed⟩ | hwritten
      · obtain ⟨dir', hfailed⟩ := hfailed
        exact ⟨-1, dir', s, hfailed, .failed s _ entry dir'⟩
      · refine ⟨0, _, _, hwritten, fun _ => h.add hr hused hino hname hfit, ?_⟩
        intro hless
        exact absurd (hless r (by simp)) (not_lt.mpr hfit)
  · have hfull : ∀ r ∈ blocks.flatten, ¬ r.HasRoom := fun r hr hr' => hroom ⟨r, hr, hr'⟩
    apply iff_of_true
    · intro fault
      have htaken := fun r hr => hfull r (mem_flatten_of_take (n := reached fault blocks.length) hr)
      obtain ⟨dir', hfailed⟩ := h.writeEntry_refused hpos fault htaken entry
      exact ⟨-1, dir', s, hfailed, .failed s blocks entry dir'⟩
    · intro r hr
      exact absurd (by simpa using List.find?_some hr) (hfull r (List.mem_of_find?_eq_some hr))

theorem rootDir_sound : DirChains DirEntry.Sound Ext2.rootDisk
    (Ext2.rootDisk.readInode Ext2.rootDir) Ext2.rootBlocks := by
  have hchains := (Ext2.rootDir_onDisk.reread (Ext2.KeepsDir.refl _ _ _)).dirChains
  refine ⟨hchains.size, hchains.apart, ?_⟩
  intro i rs hi
  apply (hchains.chains i rs hi).imp
  intro r hr _
  have hall : ∀ r ∈ Ext2.rootBlocks.flatten, r.Sound := by decide
  exact hall r (List.mem_flatten.mpr ⟨rs, List.mem_of_getElem? hi, hr⟩)

theorem adds_entry_root : AddsEntry Ext2.rootDisk Ext2.rootDir Ext2.rootBlocks ⟨5, 0, [97]⟩ :=
  (adds_entry_iff Ext2.rootDisk Ext2.rootDir Ext2.rootBlocks ⟨5, 0, [97]⟩ rootDir_sound
    (by decide) (by decide)
    (by decide) (by decide)).mpr (by
      intro r hr
      have hroot : Ext2.rootBlocks.flatten.find? (fun r => r.HasRoom) = some ⟨2, 1012, [46, 46]⟩ := by decide
      cases hroot.symm.trans hr
      decide)

/-- A directory whose first record is four bytes longer than it needs to be. -/
def looseDisk : Ext2 :=
  { Ext2.rootDisk with
    disk := fun x =>
      if 6144 ≤ x then
        (([2, 0, 0, 0, 16, 0, 1, 2, 46, 0, 0, 0, 0, 0, 0, 0, 2, 0, 0, 0, 0xF0, 3, 2, 2, 46, 46] :
        List Byte)[x - 6144]?).getD 0
      else Ext2.rootDisk.disk x }

theorem looseDisk_sound : DirChains DirEntry.Sound looseDisk (looseDisk.readInode Ext2.rootDir)
    [[⟨2, 16, [46]⟩, ⟨2, 1008, [46, 46]⟩]] := by
  refine ⟨by decide, by decide, ?_⟩
  intro i rs hi
  match i with
  | 0 =>
      cases hi
      decide +kernel
  | i + 1 => cases hi

/-- Four bytes are taken for an entry of twelve. -/
theorem not_adds_entry : ¬ ∀ (s : Ext2) (dir : VfsInode) (blocks : List (List DirEntry)) (entry : DirEntry),
    DirChains DirEntry.Sound s (s.readInode dir) blocks → 0 < s.blocksize → entry.inode ≠ 0 →
      entry.inode < 2 ^ 32 →
    1 ≤ entry.name.length → entry.name.length < 256 → AddsEntry s dir blocks entry := by
  intro hall
  have hadds := hall looseDisk Ext2.rootDir _ ⟨5, 0, [97]⟩ looseDisk_sound (by decide)
      (by decide) (by decide)
    (by decide) (by decide)
  obtain ⟨result, dir', t, hcall, hadds⟩ := hadds none
  have hloose : DirChains DirEntry.Sound looseDisk (looseDisk.readInode Ext2.rootDir)
      ([] ++ ([] ++ ⟨2, 16, [46]⟩ :: [⟨2, 1008, [46, 46]⟩]) :: []) := looseDisk_sound
  have hwritten := (hloose.writeEntry_room (by simp) (by simp) (by decide) none
    ⟨5, 0, [97]⟩).resolve_left fun hfault => hfault.1 rfl
  rw [hwritten] at hcall
  cases hcall
  obtain ⟨blocks', hblocks', -⟩ := hadds.added rfl
  have hfit := hloose.room_of_add (by decide) (by decide) (by decide) (by decide) hblocks'
  exact absurd hfit (by decide)

end Ferrite.Fs
