import Ferrite.Fs.FindEntry

/-!
# Adding a directory entry

`ext2_write_entry` reads the inode of the directory again and looks for the first record
that is longer than its name needs, however little. The new record goes behind that name
and takes what is left of the length.
-/
namespace Ferrite.Fs
open Packed Word Records

/-- The transfers of `ext2_write_entry`. -/
inductive EntryStep
  | loadDir
  | scan (i : ℕ)
  | store
deriving DecidableEq

namespace DirEntry
variable (e : DirEntry)

/-- `ALIGN(sizeof(ext2_entry_t) + name_len, 4)`. -/
def size : ℕ := align (8 + e.name.length) 4

def HasRoom : Prop := e.size < e.recLen

instance : DecidablePred HasRoom := fun e => inferInstanceAs (Decidable (e.size < e.recLen))

/-- The entry in memory; `file_type` is zero. -/
def bytes : Bytes :=
  put 1 (put 2 (put 4 (fun i => if i < 8 then 0 else e.name.getD (i - 8) 0) 0 e.inode) 4
    e.recLen) 6 e.name.length

end DirEntry

/-- The loop over a block that starts at the byte `base` of the directory: the offset where
it ends, and the record that `e` points to then. -/
def roomLoop (b : Bytes) (bs base limit : ℕ) : ℕ → ℕ → Option ℕ → Option (ℕ × Option ℕ)
  | 0, _, _ => none
  | fuel + 1, offset, e =>
      if offset < bs ∧ wadd base offset ≤ limit then
        if (entryAt b offset).HasRoom then some (offset, some offset)
        else roomLoop b bs base limit fuel (wadd offset (entryAt b offset).recLen) (some offset)
      else some (offset, e)

namespace Ext2
variable (s : Ext2)

/-- `ext2_read_inode`; the number of the device is the one it had. -/
def readInode (n : VfsInode) : VfsInode :=
  let addr := s.inodeAddr n.ino
  n.load n.dev (copy 256 (fun _ => 0) 0 (s.read (addr / sectorSize) 1) (addr % sectorSize))

/-- The loop over the blocks from `i` on: the block, the offset and the record. -/
def roomFrom (inode : Bytes) (limit : ℕ) : ℕ → ℕ → Option (Option (ℕ × ℕ × ℕ))
  | 0, _ => some none
  | n + 1, i =>
      match roomLoop (s.dirBlock inode i) s.blocksize (i * s.blocksize % word) limit
        (s.blocksize + 1) 0 none with
      | none => none
      | some (offset, e) =>
          if offset < s.blocksize then some (e.map fun e => (i, offset, e)) else roomFrom inode limit n (i + 1)

/-- A block with the record `e` cut to its size, and the entry behind `offset`. -/
def addTo (b : Bytes) (offset e : ℕ) (entry : DirEntry) : Bytes :=
  let r := entryAt b e
  let entry := { entry with recLen := wsub r.recLen r.size }
  copy (8 + entry.name.length) (put 2 b (e + 4) r.size) (offset + r.size) entry.bytes 0

/-- The search; a transfer that fails ends it as a block does that is not there. -/
def findRoom (fault : Option EntryStep) (inode : Bytes) (size : ℕ) : Option (Option (ℕ × ℕ × ℕ)) :=
  let maxBlock := ceilDiv size s.blocksize
  let reached := match fault with
    | some (.scan i) => min maxBlock i
    | _ => maxBlock
  s.roomFrom inode (iSize inode) reached 0

/-- `ext2_write_entry`: the result, the inode of the directory as it was read, and the file
system. -/
def writeEntry (fault : Option EntryStep) (dir : VfsInode) (entry : DirEntry) : Option (ℤ × VfsInode × Ext2) :=
  if fault = some .loadDir then some (-1, dir, s)
  else
    let dir := s.readInode dir
    match s.findRoom fault dir.raw dir.size with
    | none => none
    | some none => some (-1, dir, s)
    | some (some (i, offset, e)) =>
        if fault = some .store then some (-1, dir, s)
        else
          let buff := addTo (s.dirBlock dir.raw i) offset e entry
          some (0, dir, s.write (s.blockSector (iBlock dir.raw i)) s.sectors buff)

end Ext2

variable {s : Ext2} {dir : VfsInode} {b : Bytes} {bs o k n base limit : ℕ} {e r entry : DirEntry}
variable {pre post rs : List DirEntry} {blocks A C : List (List DirEntry)} {ok : DirEntry → Prop}

theorem length_name_lt (b : Bytes) (o : ℕ) : (entryAt b o).name.length < 256 := by
  rw [length_name]
  exact get_lt 1 b (o + 6)

theorem recLen_lt (b : Bytes) (o : ℕ) : (entryAt b o).recLen < 2 ^ 16 := get_lt 2 b (o + 4)

/-- The size of a record is enough for the name, and little more. -/
theorem size_bounds (hlen : e.name.length < 256) : 8 + e.name.length ≤ e.size ∧ e.size < 268 := by
  have halign : align (8 + e.name.length) (2 ^ 2) = (8 + e.name.length + (2 ^ 2 - 1)) / 2 ^ 2 * 2 ^ 2 :=
    align_two_pow (by decide) (by unfold word; omega)
  change align (8 + e.name.length) 4 = _ at halign
  unfold DirEntry.size
  omega

/-! ## The search -/

/-- A block without room is passed. -/
theorem roomLoop_full {p : Option ℕ} (hbs : bs < word) (hok : ∀ r, ok r → 0 < r.recLen)
    (hchain : Chain (entryAt b) DirEntry.recLen ok bs o rs) (hlim : base + bs ≤ limit) (hlt : limit < word)
    (hfull : ∀ r ∈ rs, ¬ r.HasRoom) (hfuel : rs.length < k) :
    ∃ p', roomLoop b bs base limit k o p = some (bs, p') := by
  induction rs generalizing o k p with
  | nil =>
      have hend : o = bs := hchain
      obtain ⟨k, rfl⟩ : ∃ j, k = j + 1 := ⟨k - 1, by omega⟩
      rw [roomLoop, if_neg (by omega), hend]
      exact ⟨p, rfl⟩
  | cons r rs ih =>
      obtain ⟨k, rfl⟩ : ∃ j, k = j + 1 := ⟨k - 1, by omega⟩
      obtain ⟨hr, hrok, hrest⟩ := hchain
      have hpos := hok r hrok
      have hend := hrest.end_eq
      rw [List.length_cons] at hfuel
      rw [roomLoop, wadd_of_lt (by omega), if_pos (by omega), hr, if_neg (hfull r List.mem_cons_self),
        wadd_of_lt (by omega)]
      exact ih hrest (fun r hr => hfull r (List.mem_cons_of_mem _ hr)) (by omega)

/-- The search stops at the first record with room. -/
theorem roomLoop_found {p : Option ℕ} (hbs : bs < word) (hok : ∀ r, ok r → 0 < r.recLen)
    (hchain : Chain (entryAt b) DirEntry.recLen ok bs o (pre ++ r :: post)) (hlim : base + bs ≤ limit)
    (hlt : limit < word) (hpre : ∀ e ∈ pre, ¬ e.HasRoom) (hr : r.HasRoom)
    (hfuel : pre.length < k) :
    roomLoop b bs base limit k o p
      = some (o + total DirEntry.recLen pre, some (o + total DirEntry.recLen pre)) := by
  induction pre generalizing o k p with
  | nil =>
      obtain ⟨k, rfl⟩ : ∃ j, k = j + 1 := ⟨k - 1, by omega⟩
      obtain ⟨hread, hrok, hrest⟩ := hchain
      have hpos := hok r hrok
      have hend := hrest.end_eq
      rw [roomLoop, wadd_of_lt (by omega), if_pos (by omega), hread, if_pos hr]
      rfl
  | cons e pre ih =>
      obtain ⟨k, rfl⟩ : ∃ j, k = j + 1 := ⟨k - 1, by omega⟩
      obtain ⟨he, heok, hrest⟩ := hchain
      have hpos := hok e heok
      have hend := hrest.end_eq
      rw [List.length_cons] at hfuel
      rw [roomLoop, wadd_of_lt (by omega), if_pos (by omega), he, if_neg (hpre e List.mem_cons_self),
        wadd_of_lt (by omega), total_cons, ← Nat.add_assoc]
      exact ih hrest (fun e he => hpre e (List.mem_cons_of_mem _ he)) (by omega)

namespace Ext2

/-- The blocks without room are passed. -/
theorem roomFrom_skip (s : Ext2) (inode : Bytes) (A : List (List DirEntry)) (n i limit : ℕ)
    (hok : ∀ r, ok r → 0 < r.recLen)
    (hchains : ∀ j rs, A[j]? = some rs →
    Chain (entryAt (s.dirBlock inode (i + j))) DirEntry.recLen ok s.blocksize 0 rs)
    (hlim : (i + A.length) * s.blocksize ≤ limit) (hlt : limit < word) (hfull : ∀ r ∈ A.flatten, ¬ r.HasRoom) :
    s.roomFrom inode limit (A.length + n) i = s.roomFrom inode limit n (i + A.length) := by
  induction A generalizing i with
  | nil => simp
  | cons rs A ih =>
      rw [List.length_cons] at hlim
      have hbase : i * s.blocksize + s.blocksize ≤ limit := by
        have hmul := Nat.mul_le_mul_right s.blocksize (show i + 1 ≤ i + (A.length + 1) by omega)
        rw [Nat.succ_mul] at hmul
        omega
      have hchain : Chain (entryAt (s.dirBlock inode i)) DirEntry.recLen ok s.blocksize 0 rs := hchains 0 rs rfl
      have hlen := hchain.length_le hok
      obtain ⟨p, hloop⟩ := roomLoop_full (k := s.blocksize + 1) (p := none) blocksize_lt hok hchain hbase hlt
        (fun r hr => hfull r (List.mem_flatten.mpr ⟨rs, List.mem_cons_self, hr⟩)) (by omega)
      rw [List.length_cons, Nat.add_right_comm, roomFrom, Nat.mod_eq_of_lt (by omega), hloop]
      dsimp only
      rw [if_neg (lt_irrefl _), ih (i + 1), Nat.add_assoc, Nat.add_comm 1]
      · intro j rs' hj
        rw [Nat.add_assoc, Nat.add_comm 1]
        exact hchains (j + 1) rs' hj
      · rw [Nat.add_assoc, Nat.add_comm 1]
        exact hlim
      · intro r hr
        obtain ⟨rs', hrs', hr'⟩ := List.mem_flatten.mp hr
        exact hfull r (List.mem_flatten.mpr ⟨rs', List.mem_cons_of_mem _ hrs', hr'⟩)

end Ext2

/-- How many blocks are looked at. -/
def reached (fault : Option EntryStep) (count : ℕ) : ℕ :=
  match fault with
  | some (.scan i) => min count i
  | _ => count

theorem DirChains.findRoom_eq (h : DirChains ok s dir blocks) (hpos : 0 < s.blocksize)
    (hraw : iSize dir.raw = dir.size)
    (fault : Option EntryStep) :
    s.findRoom fault dir.raw dir.size = s.roomFrom dir.raw (blocks.length * s.blocksize)
      (reached fault blocks.length) 0 := by
  have hcount : ceilDiv dir.size s.blocksize = blocks.length := by
    rw [h.size.1, Ext2.ceilDiv_mul hpos (h.size.1 ▸ h.size.2)]
  unfold Ext2.findRoom
  rw [hcount, hraw, h.size.1]
  rfl

/-- No room is found where there is none in the blocks that are looked at. -/
theorem DirChains.findRoom_none (hok : ∀ r, ok r → 0 < r.recLen) (h : DirChains ok s dir blocks)
    (hpos : 0 < s.blocksize)
    (hraw : iSize dir.raw = dir.size) {fault : Option EntryStep}
    (hfull : ∀ r ∈ (blocks.take (reached fault blocks.length)).flatten, ¬ r.HasRoom) :
    s.findRoom fault dir.raw dir.size = some none := by
  have hle : reached fault blocks.length ≤ blocks.length := by
    unfold reached
    split <;> omega
  have hlen : (blocks.take (reached fault blocks.length)).length = reached fault blocks.length := by
    rw [List.length_take, min_eq_left hle]
  have hskip := Ext2.roomFrom_skip s dir.raw (blocks.take (reached fault blocks.length)) 0 0
      (blocks.length * s.blocksize) hok
    (fun j rs hj => by
      rw [Nat.zero_add]
      rw [List.getElem?_take] at hj
      split_ifs at hj
      exact h.chains j rs hj)
    (by rw [Nat.zero_add, hlen]; exact Nat.mul_le_mul_right _ hle) (h.size.1 ▸ h.size.2) hfull
  rw [hlen, Nat.add_zero] at hskip
  rw [h.findRoom_eq hpos hraw, hskip]
  rfl

/-- The first record with room is found, if its block is looked at. -/
theorem DirChains.findRoom_found (hok : ∀ r, ok r → 0 < r.recLen)
    (h : DirChains ok s dir (A ++ (pre ++ r :: post) :: C))
    (hraw : iSize dir.raw = dir.size) {fault : Option EntryStep} (hA : ∀ e ∈ A.flatten, ¬ e.HasRoom)
    (hpre : ∀ e ∈ pre, ¬ e.HasRoom) (hr : r.HasRoom)
    (hreached : A.length < reached fault (A ++ (pre ++ r :: post) :: C).length) :
    s.findRoom fault dir.raw dir.size
      = some (some (A.length, total DirEntry.recLen pre, total DirEntry.recLen pre)) := by
  have hpos : 0 < s.blocksize := h.blocksize_pos hok (e := r) (by simp)
  have hlt := h.size.1 ▸ h.size.2
  have hchain : Chain (entryAt (s.dirBlock dir.raw A.length)) DirEntry.recLen ok s.blocksize 0
      (pre ++ r :: post) :=
    h.chains A.length _ (by simp)
  have hlen := hchain.length_le hok
  obtain ⟨hrok, hbounds⟩ := hchain.bounds
  have hrpos := hok r hrok
  rw [h.findRoom_eq hpos hraw]
  rw [List.length_append, List.length_cons] at hlen
  generalize hcount : (A ++ (pre ++ r :: post) :: C).length = count at hlt hreached ⊢
  have hA' : A.length < count := by
    rw [← hcount]
    simp
  have hmul := Nat.mul_le_mul_right s.blocksize (Nat.succ_le_of_lt hA')
  rw [Nat.succ_mul] at hmul
  obtain ⟨n, hn⟩ : ∃ n, reached fault count = A.length + (n + 1) :=
      ⟨reached fault count - A.length - 1, by omega⟩
  rw [hn, Ext2.roomFrom_skip s dir.raw A (n + 1) 0 _ hok (fun j rs hj => by
      rw [Nat.zero_add]
      exact h.chains j rs ((List.getElem?_append_left (List.getElem?_eq_some_iff.mp hj).1).trans hj))
    (by rw [Nat.zero_add]; omega) hlt hA, Nat.zero_add, Ext2.roomFrom, Nat.mod_eq_of_lt (by omega),
    roomLoop_found Ext2.blocksize_lt hok hchain (by omega) hlt hpre hr (by omega)]
  dsimp only
  rw [if_pos (by omega), Nat.zero_add]
  rfl

/-- The call fails when no block that is looked at has room. -/
theorem DirChains.writeEntry_full (hok : ∀ r, ok r → 0 < r.recLen) (h : DirChains ok s (s.readInode dir) blocks)
    (hpos : 0 < s.blocksize) {fault : Option EntryStep} (hload : fault ≠ some .loadDir)
    (hfull : ∀ r ∈ (blocks.take (reached fault blocks.length)).flatten, ¬ r.HasRoom) (entry : DirEntry) :
    s.writeEntry fault dir entry = some (-1, s.readInode dir, s) := by
  unfold Ext2.writeEntry
  rw [if_neg hload]
  dsimp only
  rw [h.findRoom_none hok hpos rfl hfull]

/-- The call divides the first record with room, unless the block cannot be written. -/
theorem DirChains.writeEntry_found (hok : ∀ r, ok r → 0 < r.recLen)
    (h : DirChains ok s (s.readInode dir) (A ++ (pre ++ r :: post) :: C)) {fault : Option EntryStep}
    (hload : fault ≠ some .loadDir) (hA : ∀ e ∈ A.flatten, ¬ e.HasRoom) (hpre : ∀ e ∈ pre, ¬ e.HasRoom)
    (hr : r.HasRoom) (hreached : A.length < reached fault (A ++ (pre ++ r :: post) :: C).length)
    (entry : DirEntry) :
    s.writeEntry fault dir entry =
      if fault = some .store then some (-1, s.readInode dir, s)
      else some (0, s.readInode dir, writeDirBlock s (s.readInode dir) A.length
        (Ext2.addTo (s.dirBlock (s.readInode dir).raw A.length) (total DirEntry.recLen pre)
          (total DirEntry.recLen pre) entry)) := by
  unfold Ext2.writeEntry
  rw [if_neg hload]
  dsimp only
  rw [h.findRoom_found hok rfl hA hpre hr hreached]
  rfl

/-! ## The block afterwards -/

theorem get_bytes (hino : e.inode < 2 ^ 32) (hrec : e.recLen < 2 ^ 16) (hname : e.name.length < 256) :
    get 4 e.bytes 0 = e.inode ∧ get 2 e.bytes 4 = e.recLen ∧ get 1 e.bytes 6 = e.name.length := by
  unfold DirEntry.bytes
  refine ⟨?_, ?_, get_put_of_lt hname⟩
  · rw [get_put_of_disjoint (by omega), get_put_of_disjoint (by omega)]
    exact get_put_of_lt hino
  · rw [get_put_of_disjoint (by omega)]
    exact get_put_of_lt hrec

theorem name_bytes : e.bytes (8 + k) = e.name.getD k 0 := by
  unfold DirEntry.bytes
  rw [put_of_le (by omega), put_of_le (by omega), put_of_le (by omega), if_neg (by omega),
    Nat.add_sub_cancel_left]

/-- An entry that is copied is read. -/
theorem entryAt_copy (hino : e.inode < 2 ^ 32) (hrec : e.recLen < 2 ^ 16) (hname : e.name.length < 256) :
    entryAt (copy (8 + e.name.length) b o e.bytes 0) o = e := by
  obtain ⟨hget4, hget2, hget1⟩ := get_bytes hino hrec hname
  have hfield (m q : ℕ) (hq : q + m ≤ 8) :
      get m (copy (8 + e.name.length) b o e.bytes 0) (o + q) = get m e.bytes q := by
    rw [get_copy (by omega), Nat.zero_add]
  have hzero := hfield 4 0 (by omega)
  rw [Nat.add_zero] at hzero
  unfold entryAt
  rw [hzero, hfield 2 4 (by omega), hfield 1 6 (by omega), hget4, hget2, hget1]
  congr 1
  apply List.ext_getElem
  · rw [List.length_map, List.length_range]
  · intro k hk hk'
    rw [List.getElem_map, List.getElem_range, Nat.add_assoc, copy_add (by omega), Nat.zero_add, name_bytes,
      List.getD_eq_getElem _ _ hk']

/-- The entry that is written has the rest of the length. -/
def DirEntry.rest (entry r : DirEntry) : DirEntry := { entry with recLen := r.recLen - r.size }

/-- The record with room, cut to its size. -/
def DirEntry.cut (r : DirEntry) : DirEntry := { r with recLen := r.size }

theorem addTo_eq (hr : entryAt b o = r) (hroom : r.HasRoom) :
    Ext2.addTo b o o entry
      = copy (8 + entry.name.length) (put 2 b (o + 4) r.size) (o + r.size) (entry.rest r).bytes 0 := by
  have hlt := hr ▸ recLen_lt b o
  have hsub : wsub r.recLen r.size = r.recLen - r.size := wsub_of_le hroom.le (by unfold word; omega)
  unfold Ext2.addTo
  rw [hr]
  dsimp only
  rw [hsub]
  rfl

/-- In front of the record nothing changes. -/
theorem entryAt_addTo_low (entry : DirEntry) {x : ℕ} (hr : entryAt b o = r) (hroom : r.HasRoom)
    (hx : (entryAt b x).Fits)
    (hle : x + (entryAt b x).recLen ≤ o) : entryAt (Ext2.addTo b o o entry) x = entryAt b x := by
  unfold DirEntry.Fits at hx
  rw [addTo_eq hr hroom]
  apply entryAt_congr
  intro y hy hy'
  rw [copy_of_lt (by omega), put_of_lt (by omega)]

/-- The record itself is cut. -/
theorem entryAt_addTo_self (entry : DirEntry) (hr : entryAt b o = r) (hroom : r.HasRoom) :
    entryAt (Ext2.addTo b o o entry) o = r.cut := by
  have hlen := hr ▸ length_name_lt b o
  have hsize := size_bounds hlen
  have hput : entryAt (put 2 b (o + 4) r.size) o = r.cut := by
    rw [entryAt_put_self, hr, Nat.mod_eq_of_lt (by omega)]
    rfl
  rw [addTo_eq hr hroom, ← hput]
  apply entryAt_congr
  intro y hy hy'
  rw [hput] at hy'
  have : r.cut.name = r.name := rfl
  rw [this] at hy'
  exact copy_of_lt (by omega)

/-- Behind it stands the new one. -/
theorem entryAt_addTo_new (hr : entryAt b o = r) (hroom : r.HasRoom) (hino : entry.inode < 2 ^ 32)
    (hname : entry.name.length < 256) : entryAt (Ext2.addTo b o o entry) (o + r.size) = entry.rest r := by
  have hlt := hr ▸ recLen_lt b o
  rw [addTo_eq hr hroom]
  exact entryAt_copy (e := entry.rest r) hino (show r.recLen - r.size < 2 ^ 16 by omega) hname

theorem addTo_of_le {x : ℕ} (hr : entryAt b o = r) (hroom : r.HasRoom)
    (hx : o + r.size + (8 + entry.name.length) ≤ x) :
    Ext2.addTo b o o entry x = b x := by
  have hsize := size_bounds (hr ▸ length_name_lt b o)
  rw [addTo_eq hr hroom, copy_of_le hx, put_of_le (by omega)]

/-- An entry that fits into the room makes the block one with a record more. -/
theorem BlockHolds.add (h : BlockHolds b bs 0 (pre ++ r :: post)) (hroom : r.HasRoom)
    (hino : entry.inode < 2 ^ 32)
    (hname : entry.name.length < 256) (hfit : 8 + entry.name.length ≤ r.recLen - r.size) :
    BlockHolds (Ext2.addTo b (total DirEntry.recLen pre) (total DirEntry.recLen pre) entry) bs 0
      (pre ++ r.cut :: entry.rest r :: post) := by
  obtain ⟨-, hr, hfits, -⟩ := chain_append.mp h
  rw [Nat.zero_add] at hr
  have hsize := size_bounds (hr ▸ length_name_lt b (total DirEntry.recLen pre))
  apply Chain.split h
  · intro x hx hle
    rw [Nat.zero_add] at hle
    exact entryAt_addTo_low entry hr hroom hx hle
  · rw [Nat.zero_add]
    exact entryAt_addTo_self entry hr hroom
  · exact show 8 + r.name.length ≤ r.size from hsize.1
  · rw [Nat.zero_add]
    exact entryAt_addTo_new hr hroom hino hname
  · exact show 8 + entry.name.length ≤ r.recLen - r.size from hfit
  · exact show r.size + (r.recLen - r.size) = r.recLen by have := hroom.le; omega
  · intro x hx
    rw [Nat.zero_add] at hx
    apply entryAt_congr
    intro y hy _
    exact addTo_of_le hr hroom (by omega)

theorem get_two (b : Bytes) (o : ℕ) : get 2 b o = (b o).toNat + 256 * (b (o + 1)).toNat := rfl

/-- What reaches the device of a buffer. -/
def within (bs : ℕ) (b : Bytes) : Bytes := fun k => if k < bs then b k else 0

theorem writeDirBlock_within {i : ℕ} : writeDirBlock s dir i (within s.blocksize b)
    = writeDirBlock s dir i b := by
  unfold writeDirBlock Ext2.write
  congr 1
  funext k
  unfold copy
  split_ifs with hk
  · unfold within
    rw [if_pos (by rw [Ext2.sectors_mul] at hk; omega)]
  · rfl

/-- With room for its fields the entry can be read. -/
theorem entryAt_within_new (hr : entryAt b o = r) (hroom : r.HasRoom) (hino : entry.inode < 2 ^ 32)
    (hname : entry.name.length < 256) (hend : o + r.recLen ≤ bs) (hlong : 8 ≤ r.recLen - r.size) :
    (entryAt (within bs (Ext2.addTo b o o entry)) (o + r.size)).inode = entry.inode ∧
      (entryAt (within bs (Ext2.addTo b o o entry)) (o + r.size)).recLen = r.recLen - r.size ∧
      (entryAt (within bs (Ext2.addTo b o o entry)) (o + r.size)).name.length = entry.name.length := by
  have hpos := hroom
  unfold DirEntry.HasRoom at hpos
  have hnew := entryAt_addTo_new hr hroom hino hname
  have hfield (m q : ℕ) (hq : q + m ≤ 8) :
      get m (within bs (Ext2.addTo b o o entry)) (o + r.size + q) = get m (Ext2.addTo b o o entry)
        (o + r.size + q) := by
    apply get_congr
    intro x hx hx'
    exact if_pos (by omega)
  refine ⟨?_, ?_, ?_⟩
  · have h := congrArg DirEntry.inode hnew
    rw [show (entry.rest r).inode = entry.inode from rfl] at h
    rw [← h]
    exact hfield 4 0 (by omega)
  · have h := congrArg DirEntry.recLen hnew
    rw [show (entry.rest r).recLen = r.recLen - r.size from rfl] at h
    rw [← h]
    exact hfield 2 4 (by omega)
  · have h := congrArg (fun e => e.name.length) hnew
    rw [length_name] at h ⊢
    rw [hfield 1 6 (by omega), h]
    rfl

/-- Without it, what is read has no longer length: such a length has no second byte. -/
theorem recLen_within_new (hr : entryAt b o = r) (hroom : r.HasRoom) (hino : entry.inode < 2 ^ 32)
    (hname : entry.name.length < 256) (hshort : r.recLen - r.size < 8) :
    (entryAt (within bs (Ext2.addTo b o o entry)) (o + r.size)).recLen ≤ r.recLen - r.size := by
  have hlt := hr ▸ recLen_lt b o
  have hpos := hroom
  unfold DirEntry.HasRoom at hpos
  have hbytes (x : ℕ) (hx : x < 8) : Ext2.addTo b o o entry (o + r.size + x) = (entry.rest r).bytes x := by
    rw [addTo_eq hr hroom, copy_add (by omega), Nat.zero_add]
  have hle : get 2 (within bs (Ext2.addTo b o o entry)) (o + r.size + 4) ≤ r.recLen - r.size := by
    have hrec : get 2 (entry.rest r).bytes 4 = r.recLen - r.size :=
      (get_bytes (e := entry.rest r) hino (show r.recLen - r.size < 2 ^ 16 by omega) hname).2.1
    rw [get_two] at hrec ⊢
    have h4 : (within bs (Ext2.addTo b o o entry) (o + r.size + 4)).toNat ≤ ((entry.rest r).bytes 4).toNat := by
      unfold within
      split_ifs
      · rw [hbytes 4 (by omega)]
      · exact Nat.zero_le _
    have h5 : (within bs (Ext2.addTo b o o entry) (o + r.size + 4 + 1)).toNat ≤
        ((entry.rest r).bytes (4 + 1)).toNat := by
      unfold within
      split_ifs
      · rw [Nat.add_assoc, hbytes (4 + 1) (by omega)]
      · exact Nat.zero_le _
    omega
  exact hle

/-- An entry for which there is less room leaves no chain of records in the block. -/
theorem not_fits_after (hr : entryAt b o = r) (hroom : r.HasRoom) (hino : entry.inode < 2 ^ 32)
    (hname : entry.name.length < 256) (hend : o + r.recLen ≤ bs)
    (hshort : r.recLen - r.size < 8 + entry.name.length) :
    ¬ (entryAt (within bs (Ext2.addTo b o o entry)) (o + r.size)).Fits := by
  intro hfits
  unfold DirEntry.Fits at hfits
  by_cases hlong : 8 ≤ r.recLen - r.size
  · obtain ⟨-, hrec, hlen⟩ := entryAt_within_new hr hroom hino hname hend hlong
    omega
  · have hrec := @recLen_within_new _ bs _ _ _ hr hroom hino hname (not_le.mp hlong)
    omega

/-! ## The directory afterwards -/

/-- The entry in use is one more among those of the directory. -/
theorem live_add (A C : List (List DirEntry)) (pre post : List DirEntry) (hused : entry.inode ≠ 0) : ∃ X Y,
    live (A ++ (pre ++ r :: post) :: C).flatten = X ++ Y ∧
    live (A ++ (pre ++ r.cut :: entry.rest r :: post) :: C).flatten = X ++ (entry.name, entry.inode) :: Y := by
  refine ⟨live A.flatten ++ live (pre ++ [r]), live post ++ live C.flatten, ?_, ?_⟩
  · have hcons : live (r :: post) = live [r] ++ live post := by rw [← live_append, List.singleton_append]
    rw [live_flatten, live_append, live_append, hcons]
    simp only [List.append_assoc]
  · have hcut : live (r.cut :: entry.rest r :: post) = live [r] ++ (entry.name, entry.inode) :: live post := by
      rw [← List.singleton_append, live_append, live_cons_used (e := entry.rest r) hused]
      congr 1
      exact live_with_recLen
    rw [live_flatten, live_append, hcut, live_append]
    simp

/-- The directory with the new entry. -/
theorem DirHolds.add (h : DirHolds s dir (A ++ (pre ++ r :: post) :: C)) (hroom : r.HasRoom)
    (hino : entry.inode < 2 ^ 32) (hused : entry.inode ≠ 0) (hname : entry.name.length < 256)
    (hnul : 0 ∉ entry.name)
    (hfit : 8 + entry.name.length ≤ r.recLen - r.size)
    (hfresh : entry.name ∉ (live (A ++ (pre ++ r :: post) :: C).flatten).map Prod.fst) :
    DirHolds (writeDirBlock s dir A.length (Ext2.addTo (s.dirBlock dir.raw A.length) (total DirEntry.recLen pre)
      (total DirEntry.recLen pre) entry)) dir (A ++ (pre ++ r.cut :: entry.rest r :: post) :: C) := by
  have hpos : 0 < s.blocksize := h.blocksize_pos (e := r) (by simp)
  have hchain : BlockHolds (s.dirBlock dir.raw A.length) s.blocksize 0 (pre ++ r :: post) :=
      h.chains A.length _ (by simp)
  have hbounds := recLen_bounds hchain
  obtain ⟨-, hr, -, -⟩ := chain_append.mp hchain
  rw [Nat.zero_add] at hr hbounds
  obtain ⟨X, Y, hold, hnew⟩ := live_add A C pre post (r := r) hused
  have hnames := h.names
  have hterm := h.terminated
  rw [hold, List.map_append] at hnames hfresh
  rw [hold] at hterm
  apply h.replaced hpos
  · intro k hk
    rw [addTo_of_le hr hroom (by omega)]
    exact dirBlock_zero hk
  · exact hchain.add hroom hino hname hfit
  · rw [hnew, List.map_append, List.map_cons]
    exact (List.perm_middle.nodup_iff).mpr (List.nodup_cons.mpr ⟨hfresh, hnames⟩)
  · intro x hx
    rw [hnew] at hx
    rcases List.mem_append.mp hx with hx | hx
    · exact hterm x (List.mem_append_left _ hx)
    · rcases List.mem_cons.mp hx with rfl | hx
      · exact hnul
      · exact hterm x (List.mem_append_right _ hx)

/-- Only with enough room it is a directory again. -/
theorem DirHolds.fits_of_add (h : DirHolds s dir (A ++ (pre ++ r :: post) :: C)) (hroom : r.HasRoom)
    (hino : entry.inode < 2 ^ 32) (hname : entry.name.length < 256)
    (h' : DirHolds (writeDirBlock s dir A.length (Ext2.addTo (s.dirBlock dir.raw A.length)
      (total DirEntry.recLen pre) (total DirEntry.recLen pre) entry)) dir blocks) :
    8 + entry.name.length ≤ r.recLen - r.size := by
  by_contra hshort
  have hpos : 0 < s.blocksize := h.blocksize_pos (e := r) (by simp)
  have hchain : BlockHolds (s.dirBlock dir.raw A.length) s.blocksize 0 (pre ++ r :: post) :=
      h.chains A.length _ (by simp)
  have hbounds := recLen_bounds hchain
  obtain ⟨hpre, hr, hfits, -⟩ := chain_append.mp hchain
  rw [Nat.zero_add] at hr hbounds
  have hsize := size_bounds (hr ▸ length_name_lt _ (total DirEntry.recLen pre))
  have hroom' := hroom
  unfold DirEntry.HasRoom at hroom'
  rw [← writeDirBlock_within] at h'
  obtain ⟨rs', -, hchain'⟩ := h.of_replaced hpos (fun k hk => if_neg (by omega)) h'
  -- the records up to the one that is cut are there
  have hcut : entryAt (within s.blocksize (Ext2.addTo (s.dirBlock dir.raw A.length) (total DirEntry.recLen pre)
      (total DirEntry.recLen pre) entry)) (total DirEntry.recLen pre) = r.cut := by
    have hself := entryAt_addTo_self entry hr hroom
    rw [← hself]
    apply entryAt_congr
    intro x _ hx
    rw [hself] at hx
    exact if_pos (show x < s.blocksize by have : r.cut.name = r.name := rfl; rw [this] at hx; omega)
  have hstart : BlockHolds
      (within s.blocksize (Ext2.addTo (s.dirBlock dir.raw A.length) (total DirEntry.recLen pre)
      (total DirEntry.recLen pre) entry)) (total DirEntry.recLen pre + r.size) 0 (pre ++ [r.cut]) := by
    apply chain_append.mpr
    rw [Nat.zero_add]
    refine ⟨?_, hcut, show 8 + r.name.length ≤ r.size from hsize.1, rfl⟩
    rw [Nat.zero_add] at hpre
    apply hpre.congr
    intro x _ hx hle
    have hlow := entryAt_addTo_low entry hr hroom hx hle
    rw [← hlow]
    unfold DirEntry.Fits at hx
    apply entryAt_congr
    intro y _ hy
    rw [hlow] at hy
    exact if_pos (by omega)
  obtain ⟨rest, -, hrest⟩ := hstart.unique_start (by omega) hchain'
  cases rest with
  | nil =>
      have hstop : total DirEntry.recLen pre + r.size = s.blocksize := hrest
      omega
  | cons e rest =>
      obtain ⟨he, hfits', -⟩ := hrest
      rw [← he] at hfits'
      exact not_fits_after hr hroom hino hname (by omega) (by omega) hfits'

end Ferrite.Fs
