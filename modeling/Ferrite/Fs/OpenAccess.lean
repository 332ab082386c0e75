import Mathlib.Data.Nat.Bitwise
import Ferrite.Fs.Descriptors
import Ferrite.Fs.FileWrite
import Ferrite.Fs.Mount
import Ferrite.Library.Runs

/-!
# Permission and access

`sys_open` of a file that exists asks for the permissions of the access mode. The later calls
look at `f_flags` only, and `sys_ftruncate` at nothing: with the access mode 3 no permission is
asked for, and the file is read and written.
-/
namespace Ferrite.Fs
open Packed Word Runs

/-- The transfers of `ext2_truncate` that fail: those of `ext2_free_block` for a block of the
file, and the two of `ext2_write_inode`. -/
structure TruncateFaults where
  free : ℕ → Option Transfer
  loadInode : Bool
  storeInode : Bool

namespace Ext2
variable (s : Ext2)

/-- The loop that frees, from block `i` on; what `ext2_free_block` returns is ignored. -/
def freeTailOn (faults : ℕ → Option Transfer) : Ext2 → Bytes → ℕ → ℕ → Bytes × Ext2
  | s, inode, 0, _ => (inode, s)
  | s, inode, n + 1, i =>
      if iBlock inode i = 0 then (inode, s)
      else freeTailOn faults (s.freeBlockOn (faults i) (iBlock inode i)).2
        (put 4 inode (40 + 4 * i) 0) n (i + 1)

/-- `ext2_write_inode`. -/
def writeInodeOn (load store : Bool) (node : VfsInode) : ℤ × VfsInode × Ext2 :=
  if load then (-1, node, s)
  else if store then (-1, node.setRaw (stamp node), s)
  else (0, s.writeInode node)

/-- `ext2_truncate`. -/
def truncateOn (faults : TruncateFaults) (node : VfsInode) (len : ℤ) (now : ℕ) : ℤ × VfsInode × Ext2 :=
  if !isReg node.mode then (-einval, node, s)
  else if toS32 node.size < len then s.writeInodeOn faults.loadInode faults.storeInode (resized node len now)
  else
    let blocksNeeded := ceilDiv (ofS32 len) s.blocksize
    let tail := freeTailOn faults.free s node.raw (12 - blocksNeeded) blocksNeeded
    let node := resized (node.setRaw tail.1) len now
    let blocks := allocatedUpTo node.raw 12 0 * s.blocksize % word / 512
    tail.2.writeInodeOn faults.loadInode faults.storeInode (node.setRaw (put 4 node.raw 28 blocks))

/-- What a read of the blocks of a file gets. -/
def answers (node : VfsInode) (fails : ℕ → Bool) : Answers where
  device := true
  block i := if fails i then .error (-1) else .ok (s.read (s.blockSector (iBlock node.raw i)) s.sectors)
  newBlock _ := (0, 0)
  stores _ := true
  writesInode := true
  now := 0
  driver := 0

end Ext2

/-! ## `sys_open` -/

/-- The permissions that the access mode asks for. -/
def accessMask (flags : BitVec 32) : BitVec 32 :=
  let acc := flags &&& oAccmode
  (if acc = oRdonly ∨ acc = oRdwr then mayRead else 0) |||
    (if acc = oWronly ∨ acc = oRdwr then mayWrite else 0)

/-- What `sys_open` leaves: the file or the error, the inode and the file system. -/
structure Opening where
  result : Except ℤ OpenFile
  node : VfsInode
  fs : Ext2

/-- `sys_open` of a regular file, up to `fd_alloc`: the result, the inode and the file system. -/
def openChecked (s : Ext2) (node : VfsInode) (caller : Caller) (flags : BitVec 32) (faults : TruncateFaults)
    (now : ℕ) : Except ℤ Unit × VfsInode × Ext2 :=
  if flags &&& oCreat ≠ 0 ∧ flags &&& oExcl ≠ 0 then (.error (-eexist), node, s)
  else if !vfsPermission node caller (accessMask flags).toNat then (.error (-eperm), node, s)
  else if flags &&& oTrunc ≠ 0 ∧ flags &&& (oWronly ||| oRdwr) ≠ 0 then
    match s.truncateOn faults node 0 now with
    | (r, node, s) => (if r < 0 then .error r else .ok (), node, s)
  else (.ok (), node, s)

/-- `sys_open` of a regular file; `fd` tells what `fd_alloc` returns, if it fails. -/
def openFile (s : Ext2) (node : VfsInode) (caller : Caller) (flags : BitVec 32) (faults : TruncateFaults)
    (now : ℕ) (fd : Option ℤ) : Opening :=
  match openChecked s node caller flags faults now with
  | (.error r, node, s) => ⟨.error r, node, s⟩
  | (.ok (), node, s) =>
      match fd with
      | some r => ⟨.error r, node, s⟩
      | none => ⟨.ok ⟨node, some .ext2File, (flags.setWidth 16).toNat, s.logBlockSize, 0⟩, node, s⟩

/-! ## The calls on the descriptor -/

/-- A regular file that is open, on its file system. -/
structure Opened where
  fs : Ext2
  file : OpenFile

/-- The calls with the registers of their arguments and the transfers that fail, and what others
do to the file system and to the inode between two. -/
inductive FileCall
  | read (count : ℕ) (fails : ℕ → Bool)
  | write (buff : Bytes) (count : ℕ) (faults : WriteFaults) (now : ℕ)
  | ftruncate (len : ℕ) (faults : TruncateFaults) (now : ℕ)
  | lseek (offset whence : ℕ)
  | elsewhere (fs : Ext2) (inode : VfsInode)

namespace Opened
variable (o : Opened)

/-- The result of a call that comes back, with the bytes delivered and what it leaves. -/
def call : FileCall → Option (ℤ × List Byte × Opened)
  | .read count fails =>
      (o.file.fileRead (o.fs.answers o.file.inode fails) (long count)).map fun (r, out, f) =>
        (r, out, { o with file := f })
  | .write buff count faults now =>
      (o.fs.fileWrite faults o.file.inode o.file.flags o.file.pos buff (long count) now).map fun w =>
        (w.result, [], ⟨w.fs, { o.file with inode := w.node, pos := w.pos }⟩)
  | .ftruncate len faults now =>
      match o.fs.truncateOn faults o.file.inode (long len) now with
      | (r, node, fs) => some (r, [], ⟨fs, { o.file with inode := node }⟩)
  | .lseek offset whence =>
      let sought := o.file.lseek (long offset) (whence % word)
      some (sought.1, [], { o with file := sought.2 })
  | .elsewhere fs inode => some (0, [], ⟨fs, { o.file with inode := inode }⟩)

def Step (o : Opened) (c : FileCall) (p : Opened) : Prop := ∃ r out, o.call c = some (r, out, p)

end Opened

/-! ## What is asked for -/

/-- Whether `vfs_permission` holds for reading and for writing. -/
structure Rights where
  read : Bool
  write : Bool

def rights (node : VfsInode) (caller : Caller) : Rights :=
  ⟨vfsPermission node caller mayRead.toNat, vfsPermission node caller mayWrite.toNat⟩

/-- The file has another size or other bytes. -/
def Changed (s : Ext2) (node : VfsInode) (t : Ext2) (left : VfsInode) : Prop :=
  left.size ≠ node.size ∨ iSize left.raw ≠ iSize node.raw ∨
    ∃ p < node.size, t.fileByte left.raw p ≠ s.fileByte node.raw p

/-- A call delivers bytes only with the one right, and changes the file only with the other. -/
def Rights.Respected (r : Rights) (o : Opened) (c : FileCall) : Prop :=
  match c with
  | .elsewhere _ _ => True
  | c => ∀ result out p, o.call c = some (result, out, p) →
      (out ≠ [] → r.read = true) ∧ (Changed o.fs o.file.inode p.fs p.file.inode → r.write = true)

/-- With the access mode 3 the file is not truncated without the right to write. -/
def Rights.Opens (r : Rights) (flags : BitVec 32) : Prop :=
  flags &&& oAccmode = oAccmode → flags &&& oTrunc ≠ 0 → r.write = true

/-- With the access mode 3 a call needs the right, and `sys_ftruncate` always does. -/
def Rights.Allows (r : Rights) (flags : BitVec 32) : FileCall → Prop
  | .read _ _ => flags &&& oAccmode = oAccmode → r.read = true
  | .write _ _ _ _ => flags &&& oAccmode = oAccmode → r.write = true
  | .ftruncate _ _ _ => r.write = true
  | .lseek _ _ => True
  | .elsewhere _ _ => True

/-- The access mode in `f_flags` is that of the flags, and the rights that it stands for are there. -/
structure Granted (r : Rights) (flags : BitVec 32) (o : Opened) : Prop where
  mode : o.file.flags % 4 = (flags &&& oAccmode).toNat
  read : flags &&& oAccmode = oRdonly ∨ flags &&& oAccmode = oRdwr → r.read = true
  write : flags &&& oAccmode = oWronly ∨ flags &&& oAccmode = oRdwr → r.write = true

variable {s : Ext2} {node : VfsInode} {caller : Caller} {flags : BitVec 32} {faults : TruncateFaults}
  {now n m : ℕ} {fd : Option ℤ} {o p : Opened} {c : FileCall} {f g : OpenFile} {r : Rights}

/-! ## Without a fault -/

namespace Ext2

theorem freeTailOn_none (s : Ext2) (inode : Bytes) (n i : ℕ) :
    freeTailOn (fun _ => none) s inode n i = s.freeTail inode n i := by
  induction n generalizing s inode i with
  | zero => rfl
  | succ n ih =>
      rw [freeTailOn, freeTail]
      split_ifs
      · rfl
      · rw [freeBlockOn_none, ih]

/-- Where no transfer fails, it is the call that succeeds. -/
theorem truncateOn_none (s : Ext2) (node : VfsInode) (len : ℤ) (now : ℕ) :
    s.truncateOn ⟨fun _ => none, false, false⟩ node len now = s.truncate node len now := by
  unfold truncateOn truncate
  dsimp only
  rw [freeTailOn_none]
  rfl

end Ext2

/-- In the model with the descriptor tables, `sys_open` fails with the same error. -/
theorem openChecked_openNode (t : FileTables) (env : OpenEnv) (hnode : env.node = some n)
    (hallowed : ∀ mask, env.allowed mask = vfsPermission node caller mask.toNat)
    (htruncate : env.truncate = some (s.truncateOn faults node 0 now).1) :
    (t.openNode env flags).1 = (openChecked s node caller flags faults now).1.map fun _ => some n := by
  unfold FileTables.openNode openChecked
  rw [hnode]
  change (if _ then _ else if (!env.allowed (accessMask flags)) = true then _ else _ : _ × _).1 = _
  rw [hallowed, htruncate]
  generalize s.truncateOn faults node 0 now = cut
  obtain ⟨r, left, t'⟩ := cut
  dsimp only
  split_ifs
  · rfl
  · rfl
  · rfl
  · rfl
  · rfl

/-! ## Permissions -/

/-- Who may do more may do less. -/
theorem vfsPermission_of_land (hsub : m &&& n = n) (h : vfsPermission node caller m = true) :
    vfsPermission node caller n = true := by
  unfold vfsPermission at *
  generalize (if caller.euid = node.uid then node.mode >>> 6
    else if (decide (node.gid = caller.egid) || decide (node.gid ∈ caller.groups)) = true then node.mode >>> 3
    else node.mode) = mode at *
  rw [Bool.or_eq_true, decide_eq_true_iff, decide_eq_true_iff] at *
  refine h.imp_left fun hm => ?_
  calc mode &&& n &&& 7 = mode &&& (m &&& n) &&& 7 := by rw [hsub]
    _ = mode &&& m &&& 7 &&& n := by rw [← Nat.land_assoc, Nat.land_assoc _ n 7, Nat.land_comm n 7,
      ← Nat.land_assoc]
    _ = n := by rw [hm, hsub]

/-- The four access modes. -/
theorem accmode_cases (flags : BitVec 32) :
    flags &&& oAccmode = oRdonly ∨ flags &&& oAccmode = oWronly ∨ flags &&& oAccmode = oRdwr ∨
      flags &&& oAccmode = oAccmode := by
  have hlt : (flags &&& oAccmode).toNat ≤ 3 := by
    rw [BitVec.toNat_and]
    exact Nat.and_le_right
  generalize flags &&& oAccmode = acc at *
  unfold oRdonly oWronly oRdwr oAccmode
  bv_omega

/-- The access mode is kept in the 16 bits of `f_flags`. -/
theorem accmode_setWidth (flags : BitVec 32) :
    (flags.setWidth 16).toNat % 4 = (flags &&& oAccmode).toNat := by
  rw [BitVec.toNat_setWidth, BitVec.toNat_and]
  change _ = flags.toNat &&& (2 ^ 2 - 1)
  rw [Nat.and_two_pow_sub_one_eq_mod]
  omega

theorem read_of_mask (h : vfsPermission node caller (accessMask flags).toNat = true)
    (hacc : flags &&& oAccmode = oRdonly ∨ flags &&& oAccmode = oRdwr) :
    (rights node caller).read = true := by
  refine vfsPermission_of_land ?_ h
  unfold accessMask
  rcases hacc with hacc | hacc
  · rw [hacc]
    decide
  · rw [hacc]
    decide

theorem write_of_mask (h : vfsPermission node caller (accessMask flags).toNat = true)
    (hacc : flags &&& oAccmode = oWronly ∨ flags &&& oAccmode = oRdwr) :
    (rights node caller).write = true := by
  refine vfsPermission_of_land ?_ h
  unfold accessMask
  rcases hacc with hacc | hacc
  · rw [hacc]
    decide
  · rw [hacc]
    decide

/-! ## Opening -/

theorem not_changed (s : Ext2) (node : VfsInode) : ¬ Changed s node s node := by
  rintro (h | h | ⟨_, -, h⟩)
  · exact h rfl
  · exact h rfl
  · exact h rfl

/-- The file changes only where it is truncated: with an access mode that asks for the right, or with none. -/
theorem openChecked_changed (h : (rights node caller).Opens flags)
    (hchanged : Changed s node (openChecked s node caller flags faults now).2.2
      (openChecked s node caller flags faults now).2.1) : (rights node caller).write = true := by
  unfold openChecked at hchanged
  split_ifs at hchanged with hexcl hperm htrunc
  · exact absurd hchanged (not_changed s node)
  · exact absurd hchanged (not_changed s node)
  · have hmask : vfsPermission node caller (accessMask flags).toNat = true := by simpa using hperm
    obtain ⟨htrunc, hacc⟩ := htrunc
    rcases accmode_cases flags with hmode | hmode | hmode | hmode
    · exact absurd hmode hacc
    · exact write_of_mask hmask (.inl hmode)
    · exact write_of_mask hmask (.inr hmode)
    · exact h hmode htrunc
  · exact absurd hchanged (not_changed s node)

theorem openFile_left : (openFile s node caller flags faults now fd).node
      = (openChecked s node caller flags faults now).2.1 ∧
    (openFile s node caller flags faults now fd).fs = (openChecked s node caller flags faults now).2.2 := by
  unfold openFile
  generalize openChecked s node caller flags faults now = checked
  obtain ⟨result, left, t⟩ := checked
  cases result with
  | error r => exact ⟨rfl, rfl⟩
  | ok _ =>
      cases fd with
      | none => exact ⟨rfl, rfl⟩
      | some r => exact ⟨rfl, rfl⟩

/-- Behind the checks the mask was granted. -/
theorem openChecked_ok (s : Ext2) (node : VfsInode) (caller : Caller) (flags : BitVec 32)
    (faults : TruncateFaults) (now : ℕ) (h : (openChecked s node caller flags faults now).1 = .ok ()) :
    vfsPermission node caller (accessMask flags).toNat = true := by
  unfold openChecked at h
  split_ifs at h with hexcl hperm htrunc
  · simpa using hperm
  · simpa using hperm

/-- A file that is opened has the rights of its access mode. -/
theorem openFile_granted (h : (openFile s node caller flags faults now fd).result = .ok f) :
    Granted (rights node caller) flags ⟨(openFile s node caller flags faults now fd).fs, f⟩ := by
  unfold openFile at h ⊢
  have hchecked := openChecked_ok s node caller flags faults now
  generalize openChecked s node caller flags faults now = checked at *
  obtain ⟨result, left, t⟩ := checked
  cases result with
  | error r => cases h
  | ok _ =>
      cases fd with
      | some r => cases h
      | none =>
          cases h
          have hmask := hchecked rfl
          exact ⟨accmode_setWidth flags, read_of_mask hmask, write_of_mask hmask⟩

/-! ## The calls -/

/-- A read leaves all but the position alone. -/
theorem fileRead_left {a : Answers} {count result : ℤ} {out : List Byte}
    (h : f.fileRead a count = some (result, out, g)) : ∃ pos, g = { f with pos := pos } := by
  unfold OpenFile.fileRead at h
  split_ifs at h
  · cases h
    exact ⟨_, rfl⟩
  · cases h
    exact ⟨_, rfl⟩
  · cases h
    exact ⟨_, rfl⟩
  · obtain ⟨x, -, hx⟩ := Option.map_eq_some_iff.mp h
    match x, hx with
    | (none, _), hx =>
        cases hx
        exact ⟨_, rfl⟩
    | (some _, _), hx =>
        cases hx
        exact ⟨_, rfl⟩

theorem OpenFile.fileRead_writeOnly (a : Answers) (count : ℤ) (h : f.flags % 4 = oWronly.toNat) :
    f.fileRead a count = some (-ebadf, [], f) := if_pos h

theorem Ext2.fileWrite_readOnly {faults : WriteFaults} {buff : Bytes} {count pos : ℤ}
    (h : f.flags % 4 = oRdonly.toNat) :
    s.fileWrite faults node f.flags pos buff count now = some ⟨-ebadf, node, pos, s, 0, 0⟩ := if_pos h

theorem lseek_left (f : OpenFile) (offset : ℤ) (whence : ℕ) :
    ∃ pos, (f.lseek offset whence).2 = { f with pos := pos } := by
  unfold OpenFile.lseek
  dsimp only
  split_ifs
  · exact ⟨_, rfl⟩
  · exact ⟨_, rfl⟩
  · exact ⟨_, rfl⟩
  · exact ⟨_, rfl⟩
  · exact ⟨_, rfl⟩
  · exact ⟨_, rfl⟩

namespace Opened
variable {result : ℤ} {out : List Byte}

/-- No call changes `f_flags`. -/
theorem call_flags (h : o.call c = some (result, out, p)) : p.file.flags = o.file.flags := by
  cases c with
  | read count fails =>
      obtain ⟨⟨r, out, f⟩, hread, hp⟩ := Option.map_eq_some_iff.mp h
      obtain ⟨pos, rfl⟩ := fileRead_left hread
      cases hp
      rfl
  | write buff count faults now =>
      obtain ⟨w, -, hp⟩ := Option.map_eq_some_iff.mp h
      cases hp
      rfl
  | ftruncate len faults now =>
      cases h
      rfl
  | lseek offset whence =>
      have hleft := lseek_left o.file (long offset) (whence % word)
      unfold call at h
      dsimp only at h
      generalize o.file.lseek (long offset) (whence % word) = sought at *
      obtain ⟨pos, hpos⟩ := hleft
      cases h
      rw [hpos]
  | elsewhere fs inode =>
      cases h
      rfl

end Opened

/-- One call: the rights stay granted, and a call that has its right respects it. -/
theorem Granted.step (h : Granted r flags o) (hc : r.Allows flags c) (hstep : o.Step c p) :
    Granted r flags p ∧ r.Respected o c := by
  refine ⟨?_, ?_⟩
  · obtain ⟨_, _, hcall⟩ := hstep
    exact ⟨(congrArg (· % 4) (Opened.call_flags hcall)).trans h.mode, h.read, h.write⟩
  have hmode := h.mode
  cases c with
  | read count fails =>
      intro result out p hcall
      obtain ⟨⟨_, bytes, f⟩, hread, hp⟩ := Option.map_eq_some_iff.mp hcall
      obtain ⟨pos, hf⟩ := fileRead_left hread
      rw [Prod.mk.injEq, Prod.mk.injEq] at hp
      obtain ⟨-, rfl, rfl⟩ := hp
      refine ⟨fun hout => ?_, fun hchanged => ?_⟩
      · rcases accmode_cases flags with hacc | hacc | hacc | hacc
        · exact h.read (.inl hacc)
        · -- A file that is opened to be written delivers nothing.
          rw [hacc] at hmode
          have hbad := OpenFile.fileRead_writeOnly (o.fs.answers o.file.inode fails) (long count) hmode
          rw [hbad, Option.some.injEq, Prod.mk.injEq, Prod.mk.injEq] at hread
          exact absurd hread.2.1.symm hout
        · exact h.read (.inr hacc)
        · exact hc hacc
      · rw [hf] at hchanged
        exact absurd hchanged (not_changed _ _)
  | write buff count faults now =>
      intro result out p hcall
      obtain ⟨w, hwrite, hp⟩ := Option.map_eq_some_iff.mp hcall
      rw [Prod.mk.injEq, Prod.mk.injEq] at hp
      obtain ⟨-, rfl, rfl⟩ := hp
      refine ⟨fun hout => absurd rfl hout, fun hchanged => ?_⟩
      rcases accmode_cases flags with hacc | hacc | hacc | hacc
      · -- A file that is opened to be read is not written.
        rw [hacc] at hmode
        rw [Ext2.fileWrite_readOnly hmode, Option.some.injEq] at hwrite
        rw [← hwrite] at hchanged
        exact absurd hchanged (not_changed _ _)
      · exact h.write (.inl hacc)
      · exact h.write (.inr hacc)
      · exact hc hacc
  | ftruncate len faults now =>
      intro result out p hcall
      cases hcall
      exact ⟨fun hout => absurd rfl hout, fun _ => hc⟩
  | lseek offset whence =>
      intro result out p hcall
      have hleft := lseek_left o.file (long offset) (whence % word)
      unfold Opened.call at hcall
      dsimp only at hcall
      generalize o.file.lseek (long offset) (whence % word) = sought at *
      obtain ⟨pos, hpos⟩ := hleft
      cases hcall
      rw [hpos]
      exact ⟨fun hout => absurd rfl hout, fun hchanged => absurd hchanged (not_changed _ _)⟩
  | elsewhere fs inode => trivial

/-- The file is read and changed only with the permissions that were there when it was opened, in
every run in which nothing is done with the access mode 3 without the permission for it, and no
file is truncated by its descriptor without the permission to write. -/
theorem access_permitted (s : Ext2) (node : VfsInode) (caller : Caller) (flags : BitVec 32)
    (faults : TruncateFaults) (now : ℕ) (fd : Option ℤ) (hopen : (rights node caller).Opens flags) :
    let left := openFile s node caller flags faults now fd
    (Changed s node left.fs left.node → (rights node caller).write = true) ∧
      ∀ f, left.result = .ok f → ∀ tr u, Trace Opened.Step ⟨left.fs, f⟩ tr u →
        (∀ x ∈ tr, (rights node caller).Allows flags x.2) → ∀ x ∈ tr,
          (rights node caller).Respected x.1 x.2 := by
  refine ⟨fun hchanged => ?_, fun f hf tr u h hc => ?_⟩
  · rw [openFile_left.1, openFile_left.2] at hchanged
    exact openChecked_changed hopen hchanged
  · exact (h.throughout_and_of (I := Granted (rights node caller) flags)
      (C := fun _ c => (rights node caller).Allows flags c)
      (fun o c p ho hc hstep => ho.step hc hstep) (openFile_granted hf) hc).2

/-! ## A file of another user -/

open Ext2 (smallDisk smallFile)

def otherUser : Caller := ⟨1000, 1000, [], 0, 0⟩

/-- A file of `root` that others may read. -/
def publicFile : VfsInode := { smallFile with mode := sIfreg + 0o644 }

def publicOpened : Opened := ⟨smallDisk, ⟨publicFile, some .ext2File, 0, 0, 0⟩⟩

theorem access_permitted_public :
    (rights publicFile otherUser).Respected publicOpened (.read 1 fun _ => false) := by
  have hsome : (publicOpened.call (.read 1 fun _ => false)).isSome = true := by decide
  obtain ⟨⟨_, _, p⟩, hcall⟩ := Option.isSome_iff_exists.mp hsome
  have hrun := (access_permitted smallDisk publicFile otherUser 0 ⟨fun _ => none, false, false⟩ 0 none
    (fun hacc => absurd hacc (by decide))).2 publicOpened.file rfl _ p (.single ⟨_, _, hcall⟩)
  exact hrun (List.forall_mem_singleton.mpr fun hacc => absurd hacc (by decide)) _ List.mem_cons_self

/-- With the access mode 3 a file that only `root` may read is read. -/
theorem not_access_permitted : ¬ ∀ (s : Ext2) (node : VfsInode) (caller : Caller) (flags : BitVec 32)
    (faults : TruncateFaults) (now : ℕ) (fd : Option ℤ), isReg node.mode = true → caller.euid ≠ 0 →
    let left := openFile s node caller flags faults now fd
    (Changed s node left.fs left.node → (rights node caller).write = true) ∧
      ∀ f, left.result = .ok f → ∀ tr u, Trace Opened.Step ⟨left.fs, f⟩ tr u →
        ∀ x ∈ tr, (rights node caller).Respected x.1 x.2 := by
  intro h
  let opened : Opened := ⟨smallDisk, ⟨smallFile, some .ext2File, 3, 0, 0⟩⟩
  have hone : (opened.call (.read 1 fun _ => false)).map (fun r => r.2.1.length) = some 1 := by decide
  obtain ⟨⟨_, out, p⟩, hcall, hlength⟩ := Option.map_eq_some_iff.mp hone
  have hrun := (h smallDisk smallFile otherUser 3 ⟨fun _ => none, false, false⟩ 0 none (by decide)
    (by decide)).2 opened.file rfl _ p (.single ⟨_, _, hcall⟩) _ List.mem_cons_self
  have hout : out ≠ [] := List.ne_nil_of_length_eq_add_one hlength
  have hread : (rights smallFile otherUser).read = true := (hrun _ _ _ hcall).1 hout
  exact absurd hread (by decide)

end Ferrite.Fs
