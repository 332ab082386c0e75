import Ferrite.Fs.Errno
import Ferrite.Sys.Process
import Mathlib.Data.Nat.Bitwise

/-!
# Descriptor tables

`open_files` of every process, the `file_t` objects they share, and the calls
that create, share and release them: `sys_open`, `socket_create`, `sys_close`,
`__alloc_proc`, `do_fork`, `do_exit` and the reaping of a zombie. What other
parts of the kernel answer (a path lookup, a permission, an allocation, a
driver) is an argument of the call. A call that dereferences `NULL`, a freed
object or a pointer of another type has no result.

The `release` operations are those of sockets; they do not touch a table.
-/
namespace Ferrite.Fs
open Sys

/-- `MAX_OPEN_FILES`. -/
def maxOpenFiles : ℕ := 64

/-- `O_ACCMODE` and the bits of `flags` that `sys_open` tests. -/
def oAccmode : BitVec 32 := 0o3
def oRdonly : BitVec 32 := 0o0
def oWronly : BitVec 32 := 0o1
def oRdwr : BitVec 32 := 0o2
def oCreat : BitVec 32 := 0o100
def oExcl : BitVec 32 := 0o200
def oTrunc : BitVec 32 := 0o1000

def mayExec : BitVec 32 := 1
def mayWrite : BitVec 32 := 2
def mayRead : BitVec 32 := 4

def fmodeRead : BitVec 32 := 1
def fmodeWrite : BitVec 32 := 2

/-- The tables of file operations; `driver` stands for the one a character driver registered. -/
inductive FileOps
  | ext2Dir | ext2File | chrdev | socket | driver
deriving DecidableEq, Repr

/-- `file_t`, with an inode by its slot in the inode cache. -/
structure File where
  inode : ℕ
  op : Option FileOps
  pos : ℤ
  mode : BitVec 32
  flags : BitVec 16
  count : BitVec 16

/-- The fields of `proc_t` that these calls use. -/
structure Proc where
  state : ProcState
  parent : Option Slot
  root : Option ℕ
  pwd : Option ℕ
  openFiles : ℕ → Option ℕ

def Proc.setOpen (q : Proc) (fd : ℕ) (f : Option ℕ) : Proc :=
  { q with openFiles := Function.update q.openFiles fd f }

def Proc.setState (q : Proc) (st : ProcState) : Proc := { q with state := st }

/-- The process table, the `file_t` objects that are allocated, and `i_count` of
the inode cache. -/
structure FileTables where
  procs : Slot → Proc
  files : ℕ → Option File
  icount : ℕ → BitVec 16

/-- What a descriptor number leads to: a `file_t`, or the word behind the table,
which is `p->parent`. -/
inductive FilePtr
  | file (f : ℕ)
  | proc (q : Slot)

/-- Whether `get_chrdev` finds the driver, and the result of its `open`, if it has one. -/
structure Driver where
  openResult : Option ℤ

/-- What `sys_open` learns from the file system, the allocator and the drivers. -/
structure OpenEnv where
  node : Option ℕ
  slash : Bool
  parent : Option ℕ
  parentAllowed : Bool
  create : ℤ × Option ℕ
  allowed : BitVec 32 → Bool
  truncate : Option ℤ
  mem : Option (ℕ × File)
  ops : Option FileOps
  chrdev : Option Driver

namespace FileTables
variable (s : FileTables)

def setProc (p : Slot) (q : Proc) : FileTables := { s with procs := Function.update s.procs p q }

/-- The store `p->open_files[fd] = f`. -/
def setOpen (p : Slot) (fd : ℕ) (f : Option ℕ) : FileTables :=
  s.setProc p ((s.procs p).setOpen fd f)

def setFile (f : ℕ) (file : Option File) : FileTables :=
  { s with files := Function.update s.files f file }

def inodeHold (n : ℕ) : FileTables :=
  { s with icount := Function.update s.icount n (s.icount n + 1) }

def inodePut : Option ℕ → FileTables
  | none => s
  | some n =>
      if s.icount n = 0 then s
      else { s with icount := Function.update s.icount n (s.icount n - 1) }

def fdAlloc (p : Slot) (mem : Option (ℕ × File)) : ℤ × FileTables :=
  match (List.range maxOpenFiles).find? fun i => (s.procs p).openFiles i = none with
  | none => (-1, s)
  | some i =>
      match mem with
      | none => (-enomem, s.setOpen p i none)
      | some (f, junk) => (i, (s.setOpen p i (some f)).setFile f (some junk))

/-- The bound admits `MAX_OPEN_FILES` itself. -/
def fdGet (p : Slot) (fd : ℤ) : Option FilePtr :=
  if fd < 0 ∨ (maxOpenFiles : ℤ) < fd then none
  else if fd = maxOpenFiles then (s.procs p).parent.map .proc
  else ((s.procs p).openFiles fd.toNat).map .file

def filePut (f : ℕ) : Option FileTables := do
  let file ← s.files f
  let file := { file with count := file.count - 1 }
  if file.count = 0 then return (s.inodePut (some file.inode)).setFile f none
  else return s.setFile f (some file)

/-! ## Opening and closing -/

/-- `sys_open` up to `fd_alloc`: an error, or the node of the file. A positive
result of `create` leaves the node `NULL`. -/
def openNode (env : OpenEnv) (flags : BitVec 32) : Except ℤ (Option ℕ) × FileTables :=
  match env.node with
  | none =>
      if flags &&& oCreat = 0 then (.error (-enoent), s)
      else if !env.slash then (.error (-enoent), s)
      else
        match env.parent with
        | none => (.error (-enoent), s)
        | some d =>
            let s := s.inodeHold d
            if !env.parentAllowed then (.error (-eperm), s.inodePut (some d))
            else
              let s := (env.create.2.elim s s.inodeHold).inodePut (some d)
              if env.create.1 < 0 then (.error env.create.1, s) else (.ok env.create.2, s)
  | some n =>
      let s := s.inodeHold n
      let acc := flags &&& oAccmode
      let mask := (if acc = oRdonly ∨ acc = oRdwr then mayRead else 0) |||
        (if acc = oWronly ∨ acc = oRdwr then mayWrite else 0)
      if flags &&& oCreat ≠ 0 ∧ flags &&& oExcl ≠ 0 then (.error (-eexist), s.inodePut (some n))
      else if !env.allowed mask then (.error (-eperm), s.inodePut (some n))
      else if flags &&& oTrunc ≠ 0 ∧ flags &&& (oWronly ||| oRdwr) ≠ 0 then
        match env.truncate with
        | some r => if r < 0 then (.error r, s.inodePut (some n)) else (.ok (some n), s)
        | none => (.ok (some n), s)
      else (.ok (some n), s)

/-- The operation `open` of a file: its result and the `f_op` it leaves. Only
character devices have one. -/
def openOp (env : OpenEnv) (op : Option FileOps) : ℤ × Option FileOps :=
  if op = some .chrdev then
    match env.chrdev with
    | none => (-enodev, op)
    | some d => (d.openResult.getD 0, some .driver)
  else (0, op)

/-- The file that `sys_open` fills in. -/
def openedFile (env : OpenEnv) (flags : BitVec 32) (n : ℕ) : File :=
  let acc := flags &&& oAccmode
  { inode := n, op := env.ops, pos := 0, flags := flags.setWidth 16, count := 1,
    mode := (if acc = oRdonly ∨ acc = oRdwr then fmodeRead else 0) |||
      (if acc = oWronly ∨ acc = oRdwr then fmodeWrite else 0) }

def sysOpen (p : Slot) (env : OpenEnv) (flags : BitVec 32) : Option (ℤ × FileTables) :=
  match s.openNode env flags with
  | (.error r, s) => some (r, s)
  | (.ok node, s) =>
      match s.fdAlloc p env.mem with
      | (fd, s) =>
          if fd < 0 then some (-emfile, s.inodePut node)
          else
            match s.fdGet p fd, node with
            | none, _ => some (-ebadf, s.inodePut node)
            | some (.file f), some n =>
                let file := openedFile env flags n
                let r := openOp env file.op
                let s := s.setFile f (some { file with op := r.2 })
                if r.1 < 0 then do
                  -- The entry of the table is left as it is.
                  let s ← s.filePut f
                  return (r.1, s.inodePut (some n))
                else some (fd, s)
            | some _, _ => none

/-- The part of `socket_create` before `fd_alloc` gives an error or the new inode. -/
def socketCreate (p : Slot) (socket : Except ℤ ℕ) (mem : Option (ℕ × File)) :
    Option (ℤ × FileTables) :=
  match socket with
  | .error r => some (r, s)
  | .ok n =>
      match (s.inodeHold n).fdAlloc p mem with
      | (fd, s) =>
          if fd < 0 then some (fd, s.inodePut (some n))
          else
            match s.fdGet p fd with
            | some (.file f) =>
                some (fd, s.setFile f (some
                  { inode := n, op := some .socket, pos := 0, mode := fmodeRead ||| fmodeWrite,
                    flags := oRdwr.setWidth 16, count := 1 }))
            | _ => none

def sysClose (p : Slot) (fd : ℤ) : Option (ℤ × FileTables) :=
  match s.fdGet p fd with
  | none => some (-1, s)
  | some (.file f) => ((s.setOpen p fd.toNat none).filePut f).map fun s => (0, s)
  | some (.proc _) => none

/-! ## Processes -/

/-- One round of the loop over the descriptors in `__alloc_proc`. -/
def shareOne (p c : Slot) (fd : ℕ) : Option FileTables :=
  match (s.procs p).openFiles fd with
  | none => some (s.setOpen c fd none)
  | some f => do
      let file ← s.files f
      return (s.setOpen c fd (some f)).setFile f (some { file with count := file.count + 1 })

/-- The loop from descriptor `fd` on. -/
def shareFrom (p c : Slot) : ℕ → ℕ → FileTables → Option FileTables
  | 0, _, s => some s
  | n + 1, fd, s => do
      let s ← s.shareOne p c fd
      shareFrom p c n (fd + 1) s

/-- `__alloc_proc`, called by `p`; the flags tell whether there is a page for the
stack and for the directory. -/
def allocProc (p : Slot) (kstack pgdir : Bool) : Option (Option Slot × FileTables) :=
  match (List.finRange numProc).find? fun c => (s.procs c).state = .unused with
  | none => some (none, s)
  | some c =>
      if !kstack || !pgdir then some (none, s)
      else do
        let root ← (s.procs p).root
        let pwd ← (s.procs p).pwd
        let s := s.setProc c { s.procs c with
          state := .embryo, parent := some p, root := some root, pwd := some pwd }
        let s ← shareFrom p c maxOpenFiles 0 ((s.inodeHold root).inodeHold pwd)
        return (some c, s)

def setState (c : Slot) (st : ProcState) : FileTables :=
  s.setProc c ((s.procs c).setState st)

/-- The caller stores `READY`, unless `vmm_copy_pgdir` failed; `do_exec` has no such step. -/
def doFork (p : Slot) (kstack pgdir copied : Bool) : Option FileTables := do
  match ← s.allocProc p kstack pgdir with
  | (none, s) => return s
  | (some c, s) => return if copied then s.setState c .ready else s

/-- One round of the closing loop in `do_exit`. -/
def exitOne (p : Slot) (fd : ℕ) : Option FileTables :=
  match (s.procs p).openFiles fd with
  | none => some s
  | some f => (s.setOpen p fd none).filePut f

def exitFrom (p : Slot) : ℕ → ℕ → FileTables → Option FileTables
  | 0, _, s => some s
  | n + 1, fd, s => do
      let s ← s.exitOne p fd
      exitFrom p n (fd + 1) s

/-- The children go to the initial process. -/
def adopt (p : Slot) : FileTables :=
  { s with procs := fun q =>
      if (s.procs q).parent = some p then { s.procs q with parent := some init } else s.procs q }

/-- The puts of `p->pwd` and `p->root`. -/
def putDirs (p : Slot) : FileTables :=
  ((s.inodePut (s.procs p).pwd).inodePut (s.procs p).root).setProc p
    { s.procs p with root := none, pwd := none }

def doExit (p : Slot) : Option FileTables := do
  let s ← exitFrom p maxOpenFiles 0 ((s.adopt p).putDirs p)
  return s.setState p .zombie

/-- `do_wait` frees the slot of a zombie and forgets the parent; the loop of
`init_process` only frees the slot. -/
def reap (p c : Slot) : FileTables :=
  s.setProc c { s.procs c with
    state := .unused, parent := if p = init then some p else none }

end FileTables

/-! ## Runs -/

/-- A system call by a process. `get` is any other call with a descriptor. -/
inductive FdCall
  | open (p : Slot) (env : OpenEnv) (flags : BitVec 32)
  | socket (p : Slot) (socket : Except ℤ ℕ) (mem : Option (ℕ × File))
  | close (p : Slot) (fd : ℤ)
  | get (p : Slot) (fd : ℤ)
  | fork (p : Slot) (kstack pgdir copied : Bool)
  | exit (p : Slot)
  | reap (p c : Slot)

namespace FdCall

def caller : FdCall → Slot
  | .open p _ _ | .socket p _ _ | .close p _ | .get p _ | .fork p _ _ _ | .exit p | .reap p _ => p

/-- The `file_t` that `kmalloc` would return. -/
def mem : FdCall → Option (ℕ × File)
  | .open _ env _ => env.mem
  | .socket _ _ mem => mem
  | _ => none

end FdCall

def FileTables.call (s : FileTables) : FdCall → Option FileTables
  | .open p env flags => (s.sysOpen p env flags).map Prod.snd
  | .socket p socket mem => (s.socketCreate p socket mem).map Prod.snd
  | .close p fd => (s.sysClose p fd).map Prod.snd
  | .get _ _ => some s
  | .fork p kstack pgdir copied => s.doFork p kstack pgdir copied
  | .exit p => s.doExit p
  | .reap p c =>
      if (s.procs c).state = .zombie ∧ (s.procs c).parent = some p then some (s.reap p c) else none

/-- Before the first process opens a file. -/
def bootTables : FileTables :=
  { procs := fun p =>
      { state := if p = init then .running else .unused, parent := none,
        root := if p = init then some 0 else none, pwd := if p = init then some 0 else none,
        openFiles := fun _ => none }
    files := fun _ => none
    -- The mount of the root file system, and `root` and `pwd` of the first process.
    icount := fun n => if n = 0 then 3 else 0 }

end Ferrite.Fs
