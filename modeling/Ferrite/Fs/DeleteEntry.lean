import Ferrite.Fs.Ext2Dir

/-!
# Removing a directory entry

`ext2_delete_entry` takes the first record with the name, in use or not, and gives its
length to the record before it in the block; the first record of a block is taken for
its own predecessor.
-/
namespace Ferrite.Fs
open Packed Word Records

variable {s : Ext2} {dir : VfsInode} {b : Bytes} {bs o p : ℕ} {name : List Byte} {ino : ℕ}
variable {e f : DirEntry} {pre post rs : List DirEntry} {blocks A C : List (List DirEntry)}
  {ok : DirEntry → Prop}

/-! ## Comparing names -/

theorem strncmpEq_iff {l r : List Byte} (hlen : l.length = r.length) (hl : 0 ∉ l) :
    strncmpEq l r = true ↔ r = l := by
  induction l generalizing r with
  | nil =>
      cases r with
      | nil => simp [strncmpEq]
      | cons c r => cases hlen
  | cons a l ih =>
      cases r with
      | nil => cases hlen
      | cons c r =>
          have ha : a ≠ 0 := fun h => hl (h ▸ List.mem_cons_self)
          have hrest := ih (Nat.succ.inj hlen) fun h => hl (List.mem_cons_of_mem _ h)
          simp only [strncmpEq, Bool.and_eq_true, Bool.or_eq_true, beq_iff_eq, ha, false_or, hrest,
            List.cons.injEq]
          exact and_congr_left fun _ => eq_comm

theorem sameName_iff (hname : 0 ∉ name) : sameName name e = true ↔ e.name = name := by
  unfold sameName
  rw [Bool.and_eq_true, beq_iff_eq]
  constructor
  · rintro ⟨hlen, hcmp⟩
    exact (strncmpEq_iff hlen hname).mp hcmp
  · intro h
    exact ⟨by rw [h], (strncmpEq_iff (by rw [h]) hname).mpr h⟩

/-! ## The loop over a block -/

/-- The loop passes records of other names and keeps the offset of the last one. -/
theorem deleteLoop_skip (fuel : ℕ) (hname : 0 ∉ name) (hbs : bs < word) (hchain : BlockHolds b bs o (pre ++ rs))
    (hother : ∀ e ∈ pre, e.name ≠ name) (p : ℕ) :
    deleteLoop b bs name (pre.length + fuel) o p
      = deleteLoop b bs name fuel (o + total DirEntry.recLen pre)
          (if pre = [] then p else o + total DirEntry.recLen pre.dropLast) := by
  induction pre generalizing o p with
  | nil => simp
  | cons r pre ih =>
      have hend := hchain.end_eq
      obtain ⟨hr, hfits, hrest⟩ := hchain
      have hpos := fits_pos r hfits
      rw [List.cons_append, total_cons] at hend
      have hne : sameName name (entryAt b o) = false := by
        rw [← Bool.not_eq_true, sameName_iff hname, hr]
        exact hother r List.mem_cons_self
      rw [List.length_cons, Nat.add_right_comm, deleteLoop, if_pos (by omega), hne,
        if_neg Bool.false_ne_true, hr, wadd_of_lt (by omega),
        ih hrest fun e he => hother e (List.mem_cons_of_mem _ he), if_neg (List.cons_ne_nil r pre),
        total_cons, Nat.add_assoc]
      cases pre with
      | nil => simp
      | cons r' pre => simp [Nat.add_assoc]

/-- The loop leaves a block without the name. -/
theorem deleteLoop_none (hname : 0 ∉ name) (hbs : bs < word) (hchain : BlockHolds b bs 0 rs)
    (hother : ∀ e ∈ rs, e.name ≠ name) : deleteLoop b bs name (bs + 1) 0 0 = some none := by
  have hlen := length_le_of_chain hchain
  have hend := hchain.end_eq
  have hnil : BlockHolds b bs 0 (rs ++ []) := (List.append_nil rs).symm ▸ hchain
  have hskip := deleteLoop_skip (bs - rs.length + 1) hname hbs hnil hother 0
  rw [show rs.length + (bs - rs.length + 1) = bs + 1 by omega] at hskip
  rw [hskip, deleteLoop, if_neg (by omega)]

/-- The loop stops at the first record of the name. -/
theorem deleteLoop_found (hname : 0 ∉ name) (hbs : bs < word)
    (hchain : BlockHolds b bs 0 (pre ++ f :: post)) (hother : ∀ e ∈ pre, e.name ≠ name)
    (hf : f.name = name) :
    deleteLoop b bs name (bs + 1) 0 0
      = some (some (total DirEntry.recLen pre.dropLast, total DirEntry.recLen pre)) := by
  have hlen := length_le_of_chain hchain
  have hend := hchain.end_eq
  obtain ⟨-, hrec, hfits, -⟩ := chain_append.mp hchain
  have hpos := fits_pos f hfits
  have hskip := deleteLoop_skip (bs - pre.length + 1) hname hbs hchain hother 0
  rw [List.length_append] at hlen
  rw [total_append, total_cons] at hend
  rw [show pre.length + (bs - pre.length + 1) = bs + 1 by omega] at hskip
  rw [hskip, deleteLoop, if_pos (by omega), (sameName_iff hname).mpr (hrec ▸ hf), if_pos rfl,
    Nat.zero_add, Nat.zero_add]
  split_ifs with hpre
  · rw [hpre]
    rfl
  · rfl

/-! ## The loop over the blocks -/

namespace Ext2

theorem deleteFrom_skip {inode : Bytes} {n i : ℕ} (hname : 0 ∉ name)
    (halloc : ∀ j < A.length, iBlock inode (i + j) ≠ 0)
    (hchain : ∀ j rs, A[j]? = some rs → BlockHolds (s.dirBlock inode (i + j)) s.blocksize 0 rs)
    (hother : ∀ e ∈ A.flatten, e.name ≠ name) :
    s.deleteFrom inode name (A.length + n) i = s.deleteFrom inode name n (i + A.length) := by
  induction A generalizing i with
  | nil => simp
  | cons rs A ih =>
      have hblock : deleteLoop (s.dirBlock inode i) s.blocksize name (s.blocksize + 1) 0 0
          = some none := by
        apply deleteLoop_none hname blocksize_lt (hchain 0 rs rfl)
        intro e he
        exact hother e (List.mem_flatten.mpr ⟨rs, List.mem_cons_self, he⟩)
      have hi : iBlock inode i ≠ 0 := halloc 0 (Nat.succ_pos _)
      rw [List.length_cons, Nat.add_right_comm, deleteFrom, if_neg hi]
      dsimp only
      rw [hblock, Option.bind_some, ih, Nat.add_assoc, Nat.add_comm 1]
      · intro j hj
        rw [Nat.add_assoc, Nat.add_comm 1]
        exact halloc (j + 1) (Nat.succ_lt_succ hj)
      · intro j rs' hj
        rw [Nat.add_assoc, Nat.add_comm 1]
        exact hchain (j + 1) rs' hj
      · intro e he
        obtain ⟨rs', hrs', he'⟩ := List.mem_flatten.mp he
        exact hother e (List.mem_flatten.mpr ⟨rs', List.mem_cons_of_mem _ hrs', he'⟩)

theorem ceilDiv_mul {n : ℕ} (hbs : 0 < s.blocksize) (hlt : n * s.blocksize < word) :
    ceilDiv (n * s.blocksize) s.blocksize = n := by
  obtain ⟨q, hq⟩ := blocksize_dvd_word hbs
  have hn : n < q := by
    rw [hq, Nat.mul_comm] at hlt
    exact Nat.lt_of_mul_lt_mul_left hlt
  have hle := Nat.mul_le_mul_right s.blocksize (Nat.succ_le_of_lt hn)
  rw [Nat.succ_mul, Nat.mul_comm q, ← hq] at hle
  rw [ceilDiv, Nat.mod_eq_of_lt (by omega), Nat.add_sub_assoc hbs, Nat.mul_comm,
    Nat.mul_add_div hbs, Nat.div_eq_of_lt (by omega), Nat.add_zero]

end Ext2

theorem DirChains.blocksize_pos (hok : ∀ r, ok r → 0 < r.recLen) (h : DirChains ok s dir blocks)
    (he : e ∈ blocks.flatten) :
    0 < s.blocksize := by
  obtain ⟨rs, hrs, he⟩ := List.mem_flatten.mp he
  obtain ⟨i, hi⟩ := List.mem_iff_getElem?.mp hrs
  have hlen := (h.chains i rs hi).length_le hok
  have hpos := List.length_pos_of_mem he
  omega

theorem DirHolds.blocksize_pos (h : DirHolds s dir blocks) (he : e ∈ blocks.flatten) : 0 < s.blocksize :=
  h.dirChains.blocksize_pos fits_pos he

/-- A block that is written back. -/
def writeDirBlock (s : Ext2) (dir : VfsInode) (i : ℕ) (buff : Bytes) : Ext2 :=
  s.write (s.blockSector (iBlock dir.raw i)) s.sectors buff

/-- The length of the first record of a name is added to that of the record before it in
the block, or to its own. -/
theorem DirHolds.delete (h : DirHolds s dir (A ++ (pre ++ f :: post) :: C)) (hname : 0 ∉ name)
    (hA : ∀ e ∈ A.flatten, e.name ≠ name) (hpre : ∀ e ∈ pre, e.name ≠ name) (hf : f.name = name) :
    let b := s.dirBlock dir.raw A.length
    let prev := total DirEntry.recLen pre.dropLast
    s.deleteEntry dir name = some (0, writeDirBlock s dir A.length
      (put 2 b (prev + 4) ((entryAt b prev).recLen + f.recLen))) := by
  dsimp only
  have hmem : f ∈ (A ++ (pre ++ f :: post) :: C).flatten := by simp
  have hpos := h.blocksize_pos hmem
  have hlen : (A ++ (pre ++ f :: post) :: C).length = A.length + (C.length + 1) := by simp
  have hchain := h.chains A.length (pre ++ f :: post) (by simp)
  have hcount : min (ceilDiv dir.size s.blocksize) 12 = A.length + (C.length + 1) := by
    have hsize := h.size
    rw [hsize.1] at hsize
    rw [h.size.1, Ext2.ceilDiv_mul hpos hsize.2, min_eq_left h.count.2, hlen]
  have hskip := Ext2.deleteFrom_skip (s := s) (A := A) (n := C.length + 1) (i := 0)
    hname (fun j hj => by rw [Nat.zero_add]; exact h.allocated j (by omega))
    (fun j rs hj => by
      rw [Nat.zero_add]
      exact h.chains j rs ((List.getElem?_append_left (List.getElem?_eq_some_iff.mp hj).1).trans hj)) hA
  have hloop := deleteLoop_found hname Ext2.blocksize_lt hchain hpre hf
  have hrec := (chain_append.mp hchain).2.1
  rw [Nat.zero_add] at hrec hskip
  rw [Ext2.deleteEntry, hcount, hskip, Ext2.deleteFrom, if_neg (h.allocated _ (by omega))]
  dsimp only
  rw [hloop, Option.bind_some]
  dsimp only
  rw [hrec]
  rfl

/-! ## The block afterwards -/

/-- The length of a name is a byte. -/
theorem length_name (b : Bytes) (o : ℕ) : (entryAt b o).name.length = get 1 b (o + 6) := by
  rw [entryAt, List.length_map, List.length_range]

/-- A record only depends on the bytes up to the end of its name. -/
theorem entryAt_congr {b' : Bytes} (h : ∀ x, o ≤ x → x < o + 8 + (entryAt b o).name.length → b' x = b x) :
    entryAt b' o = entryAt b o := by
  have hlen : get 1 b' (o + 6) = get 1 b (o + 6) := get_congr fun x hx hx' => h x (by omega) (by omega)
  unfold entryAt
  rw [hlen, get_congr fun x hx hx' => h x (by omega) (by omega),
    get_congr (n := 2) fun x hx hx' => h x (by omega) (by omega)]
  congr 1
  apply List.map_congr_left
  intro k hk
  rw [List.mem_range, ← length_name] at hk
  exact h _ (by omega) (by omega)

theorem entryAt_put_of_le {v : ℕ} (h : p + 8 ≤ o) : entryAt (put 2 b (p + 4) v) o = entryAt b o :=
  entryAt_congr fun _ hx _ => put_of_le (by omega)

theorem entryAt_put_of_fits {v : ℕ} (hfits : (entryAt b o).Fits) (h : o + (entryAt b o).recLen ≤ p) :
    entryAt (put 2 b (p + 4) v) o = entryAt b o := by
  unfold DirEntry.Fits at hfits
  exact entryAt_congr fun _ _ hx => put_of_lt (by omega)

theorem entryAt_put_self {v : ℕ} :
    entryAt (put 2 b (p + 4) v) p = { entryAt b p with recLen := v % 2 ^ 16 } := by
  unfold entryAt
  rw [get_put_of_disjoint (by omega), get_put, get_put_of_disjoint (by omega)]
  congr 1
  apply List.map_congr_left
  intro k _
  exact put_of_le (by omega)

/-- The record before the removed one takes its length over. -/
theorem BlockHolds.hide (h : BlockHolds b bs 0 (pre ++ e :: f :: post))
    (hlen : e.recLen + f.recLen < 2 ^ 16) :
    BlockHolds (put 2 b (total DirEntry.recLen pre + 4) (e.recLen + f.recLen)) bs 0
      (pre ++ { e with recLen := e.recLen + f.recLen } :: post) := by
  obtain ⟨-, he, hfits, -⟩ := chain_append.mp h
  rw [Nat.zero_add] at he
  unfold DirEntry.Fits at hfits
  apply Chain.merge h
  · intro x hx hle
    rw [Nat.zero_add] at hle
    exact entryAt_put_of_fits hx hle
  · rw [Nat.zero_add, entryAt_put_self, he, Nat.mod_eq_of_lt hlen]
  · unfold DirEntry.Fits
    dsimp only
    omega
  · rfl
  · intro x hx
    exact entryAt_put_of_le (by omega)

/-! ## The directory afterwards -/

@[simp] theorem live_append : live (pre ++ post) = live pre ++ live post := by
  rw [live, List.filter_append, List.map_append, live, live]

theorem live_cons_used (h : e.inode ≠ 0) : live (e :: rs) = (e.name, e.inode) :: live rs := by
  rw [live, List.filter_cons_of_pos (by simpa using h), List.map_cons, live]

theorem live_cons_unused (h : e.inode = 0) : live (e :: rs) = live rs := by
  rw [live, List.filter_cons_of_neg (by simpa using h), live]

theorem mem_live_of (he : e ∈ rs) (hused : e.inode ≠ 0) : (e.name, e.inode) ∈ live rs :=
  List.mem_map.mpr ⟨e, List.mem_filter.mpr ⟨he, by simpa using hused⟩, rfl⟩

theorem live_with_recLen {n : ℕ} : live ({ e with recLen := n } :: rs) = live (e :: rs) := by
  by_cases he : e.inode = 0
  · rw [live_cons_unused he, live_cons_unused (e := { e with recLen := n }) he]
  · rw [live_cons_used he, live_cons_used (e := { e with recLen := n }) he]

theorem mem_live {q : List Byte × ℕ} (h : q ∈ live rs) :
    ∃ e ∈ rs, e.inode ≠ 0 ∧ e.name = q.1 ∧ e.inode = q.2 := by
  obtain ⟨e, he, rfl⟩ := List.mem_map.mp h
  obtain ⟨he, hused⟩ := List.mem_filter.mp he
  exact ⟨e, he, by simpa using hused, rfl, rfl⟩

theorem dirBlock_zero {inode : Bytes} {i k : ℕ} (hk : s.blocksize ≤ k) : s.dirBlock inode i k = 0 :=
  Ext2.read_of_le (by rwa [Ext2.sectors_mul])

theorem dirBlock_write_self {i : ℕ} (hbuff : ∀ k, s.blocksize ≤ k → b k = 0) :
    (writeDirBlock s dir i b).dirBlock dir.raw i = b :=
  Ext2.read_write_self fun k hk => hbuff k (by rwa [Ext2.sectors_mul] at hk)

theorem DirChains.dirBlock_write_other {i j : ℕ} (h : DirChains ok s dir blocks) (hpos : 0 < s.blocksize)
    (hi : i < blocks.length) (hj : j < blocks.length) (hne : i ≠ j) :
    (writeDirBlock s dir i b).dirBlock dir.raw j = s.dirBlock dir.raw j :=
  Ext2.read_write_apart (Ext2.blockSector_apart hpos fun heq => hne (h.apart i hi j hj heq))

/-- The chains with one block replaced. -/
theorem DirChains.replaced {rs' : List DirEntry} (h : DirChains ok s dir (A ++ rs :: C))
    (hpos : 0 < s.blocksize) (hbuff : ∀ k, s.blocksize ≤ k → b k = 0)
    (hchain : Chain (entryAt b) DirEntry.recLen ok s.blocksize 0 rs') :
    DirChains ok (writeDirBlock s dir A.length b) dir (A ++ rs' :: C) := by
  have hlen : (A ++ rs' :: C).length = (A ++ rs :: C).length := by simp
  refine ⟨hlen ▸ h.size, hlen ▸ h.apart, ?_⟩
  intro i rs₁ hi
  have hilt := (List.getElem?_eq_some_iff.mp hi).1
  by_cases heq : i = A.length
  · subst heq
    rw [List.getElem?_append_right le_rfl, Nat.sub_self] at hi
    cases hi
    rw [dirBlock_write_self hbuff]
    exact hchain
  · rw [h.dirBlock_write_other hpos (by simp) (hlen ▸ hilt) (Ne.symm heq)]
    apply h.chains i rs₁
    rcases Nat.lt_or_gt_of_ne heq with hlt | hgt
    · rw [List.getElem?_append_left hlt] at hi ⊢
      exact hi
    · obtain ⟨k, hk⟩ : ∃ k, i - A.length = k + 1 := ⟨i - A.length - 1, by omega⟩
      rw [List.getElem?_append_right hgt.le, hk] at hi ⊢
      exact hi

/-- The directory with one block replaced. -/
theorem DirHolds.replaced {rs' : List DirEntry} (h : DirHolds s dir (A ++ rs :: C))
    (hpos : 0 < s.blocksize) (hbuff : ∀ k, s.blocksize ≤ k → b k = 0)
    (hchain : BlockHolds b s.blocksize 0 rs')
    (hnames : ((live (A ++ rs' :: C).flatten).map Prod.fst).Nodup)
    (hterm : ∀ e ∈ live (A ++ rs' :: C).flatten, 0 ∉ e.1) :
    DirHolds (writeDirBlock s dir A.length b) dir (A ++ rs' :: C) := by
  have hlen : (A ++ rs' :: C).length = (A ++ rs :: C).length := by simp
  have hchains := h.dirChains.replaced hpos hbuff hchain
  exact ⟨hlen ▸ h.count, hchains.size, hlen ▸ h.allocated, hchains.apart, hchains.chains, hnames, hterm⟩

/-- A block that holds no new entries takes the place of another. -/
theorem DirHolds.replace {rs' : List DirEntry} (h : DirHolds s dir (A ++ rs :: C))
    (hpos : 0 < s.blocksize) (hbuff : ∀ k, s.blocksize ≤ k → b k = 0)
    (hchain : BlockHolds b s.blocksize 0 rs') (hsub : (live rs').Sublist (live rs)) :
    DirHolds (writeDirBlock s dir A.length b) dir (A ++ rs' :: C) := by
  have hlive : (live (A ++ rs' :: C).flatten).Sublist (live (A ++ rs :: C).flatten) := by
    simp only [List.flatten_append, List.flatten_cons, live_append]
    exact (List.Sublist.refl _).append (hsub.append (List.Sublist.refl _))
  apply h.replaced hpos hbuff hchain
  · exact h.names.sublist (hlive.map _)
  · intro e he
    exact h.terminated e (hlive.subset he)

theorem DirHolds.unique {blocks' : List (List DirEntry)} (h : DirHolds s dir blocks)
    (hpos : 0 < s.blocksize) (h' : DirHolds s dir blocks') : blocks = blocks' := by
  have hlen : blocks.length = blocks'.length :=
    Nat.eq_of_mul_eq_mul_right hpos (h.size.1.symm.trans h'.size.1)
  apply List.ext_getElem hlen
  intro i hi hi'
  exact (h.chains i _ (List.getElem?_eq_getElem hi)).unique fits_pos
    (h'.chains i _ (List.getElem?_eq_getElem hi'))

/-- Whatever the directory holds afterwards, the other blocks hold what they did. -/
theorem DirHolds.of_replaced (h : DirHolds s dir (A ++ rs :: C)) (hpos : 0 < s.blocksize)
    (hbuff : ∀ k, s.blocksize ≤ k → b k = 0)
    (h' : DirHolds (writeDirBlock s dir A.length b) dir blocks) :
    ∃ rs', blocks = A ++ rs' :: C ∧ BlockHolds b s.blocksize 0 rs' := by
  have hlen : blocks.length = (A ++ rs :: C).length :=
    Nat.eq_of_mul_eq_mul_right hpos (h'.size.1.symm.trans h.size.1)
  have hA : A.length < blocks.length := by
    rw [hlen]
    simp
  have hother (i : ℕ) (hne : A.length ≠ i) : blocks[i]? = (A ++ rs :: C)[i]? := by
    rcases Nat.lt_or_ge i blocks.length with hi | hi
    · have hchain := h'.chains i _ (List.getElem?_eq_getElem hi)
      rw [h.dirChains.dirBlock_write_other hpos (hlen ▸ hA) (hlen ▸ hi) hne] at hchain
      have hi' : i < (A ++ rs :: C).length := hlen ▸ hi
      rw [List.getElem?_eq_getElem hi, List.getElem?_eq_getElem hi',
        hchain.unique fits_pos (h.chains i _ (List.getElem?_eq_getElem hi'))]
    · rw [List.getElem?_eq_none hi, List.getElem?_eq_none (hlen ▸ hi)]
  have hchain := h'.chains A.length _ (List.getElem?_eq_getElem hA)
  rw [dirBlock_write_self hbuff] at hchain
  refine ⟨blocks[A.length], ?_, hchain⟩
  apply List.ext_getElem?
  intro i
  by_cases heq : A.length = i
  · subst heq
    rw [List.getElem?_append_right le_rfl, Nat.sub_self, List.getElem?_eq_getElem hA]
    rfl
  · rw [hother i heq]
    rcases Nat.lt_or_gt_of_ne heq with hgt | hlt
    · obtain ⟨k, hk⟩ : ∃ k, i - A.length = k + 1 := ⟨i - A.length - 1, by omega⟩
      rw [List.getElem?_append_right hgt.le, List.getElem?_append_right hgt.le, hk]
      rfl
    · rw [List.getElem?_append_left hlt, List.getElem?_append_left hlt]

/-! ## When the entry is removed -/

/-- What the first record of the name has to be: one in use behind another record of its
block; or one that is not in use, first in its block and such that from the doubled length
on the block goes on without just the entry. -/
inductive Removable (s : Ext2) (dir : VfsInode) (blocks : List (List DirEntry)) (name : List Byte)
    (ino : ℕ) : Prop
  | behind {A C : List (List DirEntry)} {pre post : List DirEntry} {e f : DirEntry} :
      blocks = A ++ (pre ++ e :: f :: post) :: C →
      (∀ x ∈ A.flatten ++ (pre ++ [e]), x.name ≠ name) → f.name = name → f.inode ≠ 0 →
      e.recLen + f.recLen < 2 ^ 16 → Removable s dir blocks name ino
  | doubled {A C : List (List DirEntry)} {post rest : List DirEntry} {f : DirEntry} :
      blocks = A ++ (f :: post) :: C → (∀ x ∈ A.flatten, x.name ≠ name) → f.name = name →
      f.inode = 0 → (name, ino) ∈ live post → 8 + name.length ≤ 2 * f.recLen % 2 ^ 16 →
      BlockHolds (s.dirBlock dir.raw A.length) s.blocksize (2 * f.recLen % 2 ^ 16) rest →
      live rest = (live post).erase (name, ino) → Removable s dir blocks name ino

/-- The first record of a name. -/
theorem exists_first (he : ∃ e ∈ blocks.flatten, e.name = name) :
    ∃ A pre f post C, blocks = A ++ (pre ++ f :: post) :: C ∧ (∀ x ∈ A.flatten, x.name ≠ name)
      ∧ (∀ x ∈ pre, x.name ≠ name) ∧ f.name = name := exists_first_of he

theorem live_flatten : live (A ++ rs :: C).flatten = live A.flatten ++ (live rs ++ live C.flatten) := by
  rw [List.flatten_append, List.flatten_cons, live_append, live_append]

theorem notMem_live (h : ∀ x ∈ rs, x.name ≠ name) : (name, ino) ∉ live rs := by
  intro hmem
  obtain ⟨e, he, -, hname, -⟩ := mem_live hmem
  exact h e he hname

/-- Of the records in use one has the name. -/
theorem DirHolds.inode_eq {i j : ℕ} (h : DirHolds s dir blocks) (hi : (name, i) ∈ live blocks.flatten)
    (hj : (name, j) ∈ live blocks.flatten) : i = j :=
  (Prod.mk.inj (List.inj_on_of_nodup_map h.names hi hj rfl)).2

theorem DirHolds.notMem_erase {i j : ℕ} (h : DirHolds s dir blocks)
    (hi : (name, i) ∈ live blocks.flatten) : (name, j) ∉ (live blocks.flatten).erase (name, i) := by
  intro hj
  cases h.inode_eq hi (List.mem_of_mem_erase hj)
  exact (h.names.of_map _).not_mem_erase hj

/-- A buffer whose first length is changed within the block. -/
theorem put_dirBlock_zero {inode : Bytes} {i v : ℕ} (hp : p + 8 ≤ s.blocksize) :
    ∀ k, s.blocksize ≤ k → put 2 (s.dirBlock inode i) (p + 4) v k = 0 := by
  intro k hk
  rw [put_of_le (by omega), dirBlock_zero hk]

theorem chain_room (h : BlockHolds b bs o (pre ++ f :: post)) :
    o + total DirEntry.recLen pre + 8 ≤ bs := by
  obtain ⟨-, -, hfits, hrest⟩ := chain_append.mp h
  have hend := hrest.end_eq
  unfold DirEntry.Fits at hfits
  omega

theorem chain_room_first (h : BlockHolds b bs 0 (f :: post)) : 8 ≤ bs := by
  have hroom := chain_room (show BlockHolds b bs 0 ([] ++ f :: post) from h)
  omega

/-- The call hides an entry that has a record before it. -/
theorem DirHolds.delete_behind (h : DirHolds s dir (A ++ (pre ++ e :: f :: post) :: C))
    (hname : 0 ∉ name) (hfirst : ∀ x ∈ A.flatten ++ (pre ++ [e]), x.name ≠ name) (hf : f.name = name)
    (hlen : e.recLen + f.recLen < 2 ^ 16) :
    ∃ s', s.deleteEntry dir name = some (0, s') ∧
      DirHolds s' dir (A ++ (pre ++ { e with recLen := e.recLen + f.recLen } :: post) :: C) := by
  have hpos : 0 < s.blocksize := h.blocksize_pos (e := f) (by simp)
  have hchain := h.chains A.length (pre ++ e :: f :: post) (by simp)
  have hfrom : DirHolds s dir (A ++ ((pre ++ [e]) ++ f :: post) :: C) := by simpa using h
  have hdelete := hfrom.delete hname (fun x hx => hfirst x (List.mem_append_left _ hx))
    (fun x hx => hfirst x (List.mem_append_right _ hx)) hf
  have he := (chain_append.mp hchain).2.1
  have hroom := chain_room hchain
  rw [Nat.zero_add] at he hroom
  dsimp only at hdelete
  rw [List.dropLast_concat, he] at hdelete
  refine ⟨_, hdelete, h.replace hpos (put_dirBlock_zero hroom) (hchain.hide hlen) ?_⟩
  rw [live_append, live_append, live_with_recLen]
  apply (List.Sublist.refl _).append
  exact ((List.sublist_cons_self f post).cons_cons e |>.filter _).map _

/-- The length of the first record of a block is doubled. -/
theorem DirHolds.delete_first (h : DirHolds s dir (A ++ (f :: post) :: C)) (hname : 0 ∉ name)
    (hfirst : ∀ x ∈ A.flatten, x.name ≠ name) (hf : f.name = name) :
    s.deleteEntry dir name = some (0, writeDirBlock s dir A.length
      (put 2 (s.dirBlock dir.raw A.length) 4 (2 * f.recLen))) := by
  have hchain := h.chains A.length (f :: post) (by simp)
  have hfrom : DirHolds s dir (A ++ ([] ++ f :: post) :: C) := h
  have hdelete := hfrom.delete hname hfirst (by simp) hf
  dsimp only at hdelete
  rw [List.dropLast_nil, total_nil, hchain.1, ← Nat.two_mul] at hdelete
  exact hdelete

/-- What a well-formed directory holds in that block afterwards. -/
theorem DirHolds.first_after (h : DirHolds s dir (A ++ (f :: post) :: C)) (h' : DirHolds
      (writeDirBlock s dir A.length (put 2 (s.dirBlock dir.raw A.length) 4 (2 * f.recLen))) dir blocks) :
    ∃ rest, blocks = A ++ ({ f with recLen := 2 * f.recLen % 2 ^ 16 } :: rest) :: C
      ∧ 8 + f.name.length ≤ 2 * f.recLen % 2 ^ 16
      ∧ BlockHolds (s.dirBlock dir.raw A.length) s.blocksize (2 * f.recLen % 2 ^ 16) rest := by
  have hpos : 0 < s.blocksize := h.blocksize_pos (e := f) (by simp)
  have hchain := h.chains A.length (f :: post) (by simp)
  have hroom := chain_room_first hchain
  obtain ⟨rs', rfl, hchain'⟩ := h.of_replaced hpos (put_dirBlock_zero (p := 0) hroom) h'
  cases rs' with
  | nil => exact absurd (show 0 = s.blocksize from hchain') hpos.ne
  | cons g rest =>
      obtain ⟨hg, hfits, hrest⟩ := hchain'
      have hg' : g = { f with recLen := 2 * f.recLen % 2 ^ 16 } := by
        rw [← hg, ← hchain.1]
        exact entryAt_put_self (p := 0)
      subst hg'
      have hbehind : 8 ≤ 2 * f.recLen % 2 ^ 16 := (Nat.le_add_right ..).trans hfits
      refine ⟨rest, rfl, hfits, ?_⟩
      rw [← Nat.zero_add (2 * f.recLen % 2 ^ 16)]
      exact hrest.congr fun x hx _ _ => (entryAt_put_of_le (p := 0) (by dsimp only at hx; omega)).symm

/-- A record in use stays when it is the first of its block. -/
theorem DirHolds.first_stays (h : DirHolds s dir (A ++ (f :: post) :: C)) (hused : f.inode ≠ 0)
    (h' : DirHolds (writeDirBlock s dir A.length
      (put 2 (s.dirBlock dir.raw A.length) 4 (2 * f.recLen))) dir blocks) :
    (f.name, f.inode) ∈ live blocks.flatten := by
  obtain ⟨rest, rfl, -, -⟩ := h.first_after h'
  exact mem_live_of (e := { f with recLen := 2 * f.recLen % 2 ^ 16 }) (by simp) hused

/-- The call hides the entry, and only it. -/
theorem Removable.sound (h : DirHolds s dir blocks) (hentry : (name, ino) ∈ live blocks.flatten)
    (hok : Removable s dir blocks name ino) :
    ∃ s' blocks', s.deleteEntry dir name = some (0, s') ∧ DirHolds s' dir blocks' ∧
      live blocks'.flatten = (live blocks.flatten).erase (name, ino) := by
  have hname : 0 ∉ name := h.terminated _ hentry
  cases hok with
  | @behind A C pre post e f hblocks hfirst hf hused hlen =>
      subst hblocks
      obtain ⟨s', hdelete, h'⟩ := h.delete_behind hname hfirst hf hlen
      refine ⟨s', _, hdelete, h', ?_⟩
      have hmem : (name, f.inode) ∈ live (A ++ (pre ++ e :: f :: post) :: C).flatten :=
        hf ▸ mem_live_of (by simp) hused
      cases h.inode_eq hmem hentry
      have hA : (name, f.inode) ∉ live A.flatten :=
        notMem_live fun x hx => hfirst x (List.mem_append_left _ hx)
      have hpre : (name, f.inode) ∉ live (pre ++ [e]) :=
        notMem_live fun x hx => hfirst x (List.mem_append_right _ hx)
      have hwith : live (pre ++ e :: f :: post)
          = live (pre ++ [e]) ++ (name, f.inode) :: live post := by
        rw [← hf, ← live_cons_used hused, ← live_append, List.append_assoc, List.singleton_append]
      have hwithout : live (pre ++ { e with recLen := e.recLen + f.recLen } :: post)
          = live (pre ++ [e]) ++ live post := by
        rw [live_append, live_with_recLen, ← live_append, ← live_append, List.append_assoc,
          List.singleton_append]
      rw [live_flatten, live_flatten, List.erase_append_right _ hA, hwith, List.append_assoc,
        List.erase_append_right _ hpre, List.cons_append, List.erase_cons_head, hwithout,
        List.append_assoc]
  | @doubled A C post rest f hblocks hfirst hf hunused hpost hlen hrest hlive =>
      subst hblocks
      have hpos : 0 < s.blocksize := h.blocksize_pos (e := f) (by simp)
      have hchain := h.chains A.length (f :: post) (by simp)
      have hroom := chain_room_first hchain
      refine ⟨_, A ++ ({ f with recLen := 2 * f.recLen % 2 ^ 16 } :: rest) :: C,
        h.delete_first hname hfirst hf, h.replace hpos (put_dirBlock_zero hroom) ?_ ?_, ?_⟩
      · refine ⟨entryAt_put_self.trans (by rw [hchain.1]), hf ▸ hlen, ?_⟩
        rw [Nat.zero_add]
        exact hrest.congr fun x hx _ _ => entryAt_put_of_le (p := 0) (by omega)
      · rw [live_with_recLen, live_cons_unused hunused, live_cons_unused hunused, hlive]
        exact List.erase_sublist
      · rw [live_flatten, live_flatten, List.erase_append_right _ (notMem_live hfirst),
          live_with_recLen, live_cons_unused hunused, live_cons_unused hunused, hlive,
          List.erase_append_left _ hpost]

/-- Nothing else removes it. -/
theorem Removable.complete (hbs : s.blocksize ≤ 2 ^ 16) (h : DirHolds s dir blocks)
    (hentry : (name, ino) ∈ live blocks.flatten)
    (hclaim : ∀ s', s.deleteEntry dir name = some (0, s') → ∃ blocks', DirHolds s' dir blocks' ∧
      live blocks'.flatten = (live blocks.flatten).erase (name, ino)) :
    Removable s dir blocks name ino := by
  have hname : 0 ∉ name := h.terminated _ hentry
  obtain ⟨e, he, -, hname', -⟩ := mem_live hentry
  have hpos := h.blocksize_pos he
  obtain ⟨A, pre, f, post, C, rfl, hA, hpre, hf⟩ := exists_first ⟨e, he, show e.name = name from hname'⟩
  have hchain := h.chains A.length (pre ++ f :: post) (by simp)
  have hgone := h.notMem_erase (j := ino) hentry
  rcases List.eq_nil_or_concat' pre with rfl | ⟨pre, e, rfl⟩
  · -- the first record of its block has its own length added
    rw [List.nil_append] at h hchain hentry hclaim hgone
    obtain ⟨blocks', h', hlive⟩ := hclaim _ (h.delete_first hname hA hf)
    have hunused : f.inode = 0 := by
      by_contra hused
      have hmem := h.first_stays hused h'
      rw [hlive, hf] at hmem
      exact h.notMem_erase hentry hmem
    obtain ⟨rest, rfl, hfits, hrest⟩ := h.first_after h'
    rw [← hlive] at hgone
    have hpost : (name, ino) ∈ live post := by
      rw [live_flatten, live_cons_unused hunused] at hentry
      have hbehind := (List.mem_append.mp hentry).resolve_left (notMem_live hA)
      refine (List.mem_append.mp hbehind).resolve_right fun hC => hgone ?_
      rw [live_flatten]
      exact List.mem_append_right _ (List.mem_append_right _ hC)
    rw [live_flatten, live_flatten, List.erase_append_right _ (notMem_live hA), live_with_recLen,
      live_cons_unused hunused, live_cons_unused hunused] at hlive
    have hlive' := List.append_cancel_left hlive
    rw [List.erase_append_left _ hpost] at hlive'
    exact .doubled rfl hA hf hunused hpost (hf ▸ hfits) hrest (List.append_cancel_right hlive')
  · -- the record before it takes its length over
    have hdelete := h.delete hname hA hpre hf
    rw [List.append_assoc, List.singleton_append] at h hchain hentry hclaim hgone
    have hroom := chain_room hchain
    obtain ⟨hstart, he, hfits, -, hfits', hrest⟩ := chain_append.mp hchain
    rw [Nat.zero_add] at he hroom
    dsimp only at hdelete
    rw [List.dropLast_concat, he] at hdelete
    have hlen : e.recLen + f.recLen < 2 ^ 16 := by
      obtain ⟨blocks', h', -⟩ := hclaim _ hdelete
      obtain ⟨rs', -, hchain'⟩ := h.of_replaced hpos (put_dirBlock_zero hroom) h'
      have hstart' : BlockHolds (put 2 (s.dirBlock dir.raw A.length) (total DirEntry.recLen pre + 4)
          (e.recLen + f.recLen)) (0 + total DirEntry.recLen pre) 0 pre :=
        hstart.congr fun x _ hx hle => entryAt_put_of_fits hx (hle.trans (Nat.zero_add _).le)
      obtain ⟨rest, -, hrest'⟩ := hstart'.unique_start (by omega) hchain'
      have hend := hrest.end_eq
      cases rest with
      | nil =>
          have hstop : 0 + total DirEntry.recLen pre = s.blocksize := hrest'
          omega
      | cons g rest =>
          obtain ⟨hg, hgfits, -⟩ := hrest'
          rw [Nat.zero_add, entryAt_put_self] at hg
          unfold DirEntry.Fits at hgfits
          rw [← hg] at hgfits
          dsimp only at hgfits
          by_contra hover
          rw [show e.recLen + f.recLen = 2 ^ 16 by omega, Nat.mod_self] at hgfits
          omega
    have hfirst : ∀ x ∈ A.flatten ++ (pre ++ [e]), x.name ≠ name := fun x hx =>
      (List.mem_append.mp hx).elim (hA x) (hpre x)
    refine .behind (by rw [List.append_assoc, List.singleton_append]) hfirst hf ?_ hlen
    intro hunused
    obtain ⟨s', hdelete', h'⟩ := h.delete_behind hname hfirst hf hlen
    cases Option.some.inj (hdelete.symm.trans hdelete')
    obtain ⟨blocks', h'', hlive⟩ := hclaim _ hdelete
    cases h'.unique hpos h''
    apply hgone
    rw [← hlive, live_flatten, live_append, live_with_recLen]
    rwa [live_flatten, live_append, ← List.singleton_append, live_append, live_cons_unused hunused,
      ← live_append] at hentry

/-- An entry of a well-formed directory is removed, and nothing else, exactly when the first
record of its name is in use and not the first of its block, or is an unused one whose
doubled length skips the entry alone. -/
theorem delete_entry_iff (s : Ext2) (dir : VfsInode) (blocks : List (List DirEntry))
    (name : List Byte) (ino : ℕ) (hbs : s.blocksize ≤ 2 ^ 16) (h : DirHolds s dir blocks)
    (hentry : (name, ino) ∈ live blocks.flatten) :
    (∀ s', s.deleteEntry dir name = some (0, s') → ∃ blocks', DirHolds s' dir blocks' ∧
        live blocks'.flatten = (live blocks.flatten).erase (name, ino))
      ↔ Removable s dir blocks name ino := by
  constructor
  · exact Removable.complete hbs h hentry
  · intro hok s' hdelete
    obtain ⟨s₁, blocks', hdelete₁, h', hlive⟩ := hok.sound h hentry
    cases Option.some.inj (hdelete.symm.trans hdelete₁)
    exact ⟨blocks', h', hlive⟩

/-- Two blocks: the first with `.` and `..`, the second with `a` and `b`. -/
def homeBlocks : List (List DirEntry) :=
  [[⟨2, 12, [46]⟩, ⟨2, 1012, [46, 46]⟩], [⟨12, 12, [97]⟩, ⟨13, 1012, [98]⟩]]

def homeDisk : Ext2 where
  disk := fun i =>
    ((if i < 2048 then [2, 0, 0, 0, 12, 0, 1, 2, 46, 0, 0, 0, 2, 0, 0, 0, 0xF4, 3, 2, 2, 46, 46]
      else [12, 0, 0, 0, 12, 0, 1, 1, 97, 0, 0, 0, 13, 0, 0, 0, 0xF4, 3, 1, 1, 98] :
        List Byte)[i % 1024]?).getD 0
  es := fun _ => 0
  groupDesc := fun _ _ => 0

def homeDir : VfsInode :=
  { VfsInode.zero with mode := sIfdir, size := 2048, u := .ext2 (put 4 (put 4 (fun _ => 0) 40 1) 44 2) }

theorem home_holds : DirHolds homeDisk homeDir homeBlocks := by
  refine ⟨by decide, by decide, by decide, by decide, ?_, by decide,
    by decide⟩
  intro i rs hi
  match i with
  | 0 =>
      cases hi
      decide +kernel
  | 1 =>
      cases hi
      decide +kernel
  | i + 2 => cases hi

/-- The first record of the second block is not removed. -/
theorem first_record_stays : ¬ ∀ (s : Ext2) (dir : VfsInode) (blocks : List (List DirEntry))
    (name : List Byte) (ino : ℕ), s.blocksize ≤ 2 ^ 16 → DirHolds s dir blocks →
    (name, ino) ∈ live blocks.flatten →
    ∀ s', s.deleteEntry dir name = some (0, s') → ∃ blocks', DirHolds s' dir blocks' ∧
      live blocks'.flatten = (live blocks.flatten).erase (name, ino) := by
  intro h
  have hfirst : DirHolds homeDisk homeDir ([[⟨2, 12, [46]⟩, ⟨2, 1012, [46, 46]⟩]]
      ++ (⟨12, 12, [97]⟩ :: [⟨13, 1012, [98]⟩]) :: []) := home_holds
  obtain ⟨blocks', h', hlive⟩ := h homeDisk homeDir homeBlocks [97] 12 (by decide) home_holds
    (by decide) _ (hfirst.delete_first (by decide) (by decide) rfl)
  have hmem := hfirst.first_stays (by decide) h'
  rw [hlive] at hmem
  revert hmem
  decide

/-- The record behind it is. -/
theorem delete_entry_iff_behind : ∃ s' blocks', homeDisk.deleteEntry homeDir [98] = some (0, s') ∧
    DirHolds s' homeDir blocks' ∧ live blocks'.flatten = [([46], 2), ([46, 46], 2), ([97], 12)] := by
  have hok : Removable homeDisk homeDir homeBlocks [98] 13 :=
    .behind (show homeBlocks = [[⟨2, 12, [46]⟩, ⟨2, 1012, [46, 46]⟩]]
        ++ ([] ++ ⟨12, 12, [97]⟩ :: ⟨13, 1012, [98]⟩ :: []) :: [] from rfl)
      (by decide) rfl (by decide) (by decide)
  have hentry : ([98], 13) ∈ live homeBlocks.flatten := by decide
  obtain ⟨s', -, hdelete, -, -⟩ := hok.sound home_holds hentry
  obtain ⟨blocks', h', hlive⟩ := (delete_entry_iff homeDisk homeDir homeBlocks [98] 13 (by decide)
    home_holds hentry).mpr hok s' hdelete
  exact ⟨s', blocks', hdelete, h', hlive.trans (by decide)⟩

end Ferrite.Fs
