import Ferrite.Sys.Credentials
import Ferrite.Sys.Process

/-!
# The contents of a slot

What a slot of `ptables` holds beside its scheduling state, and the calls that write it.
A call is one step here. Memory enters by the outcome of an allocation, and inodes and
files are numbers, zero for a null pointer.

`__alloc_proc` resets some of the fields of the slot it takes. The others are those of
the process that had the slot before.
-/
namespace Ferrite.Sys
open Fs Runs

/-- `NGROUPS`, `NOGROUP` and `MAX_OPEN_FILES`. -/
def ngroups : ℕ := 32
def nogroup : ℤ := -1
def maxOpenFiles : ℕ := 64

/-- `memory_t`. -/
structure MemoryMap where
  heapStart : ℕ
  current : ℕ
  heapEnd : ℕ
  stackStart : ℕ
  stackEnd : ℕ
deriving DecidableEq, Repr

structure Proc where
  pid : ℤ
  creds : Creds
  groups : Fin ngroups → ℤ
  state : ProcState
  mm : MemoryMap
  channel : Option Slot
  pending : BitVec 32
  status : ℤ
  root : ℕ
  pwd : ℕ
  openFiles : Fin maxOpenFiles → ℕ
  parent : Option Slot

/-- A slot of `ptables` before its first process. -/
def Proc.zero : Proc :=
  { pid := 0, creds := ⟨0, 0, 0, 0, 0, 0⟩, groups := fun _ => 0, state := .unused,
    mm := ⟨0, 0, 0, 0, 0⟩, channel := none, pending := 0, status := 0, root := 0, pwd := 0,
    openFiles := fun _ => 0, parent := none }

/-- `asleep` tells which processes have switched away inside `waitchan`, and `timers` holds
the slots that armed timers are to wake. -/
structure Table where
  procs : Slot → Proc
  pidCounter : ℤ
  current : Option Slot
  asleep : Slot → Bool
  timers : List Slot

/-- `root_inode`. -/
def rootInode : ℕ := 1

/-- Which pages can be had: a kernel stack, a page directory, and those of a copy. -/
structure Pages where
  kstack : Bool
  pgdir : Bool
  copy : Bool
deriving DecidableEq, Repr

namespace Table
variable (T : Table)

def set (j : Slot) (p : Proc) : Table := { T with procs := Function.update T.procs j p }

/-! ## New processes -/

def inheritCredentials (child : Proc) (parent : Option Proc) : Proc :=
  match parent with
  | some parent => { child with creds := parent.creds }
  | none => { child with creds := ⟨rootUid, rootUid, rootUid, rootUid, rootUid, rootUid⟩ }

/-- The slot that `__alloc_proc` takes. -/
def firstUnused : Option Slot := (List.finRange numProc).find? fun i => (T.procs i).state = .unused

def allocProc (mem : Pages) : Option Slot × Table :=
  match T.firstUnused with
  | none => (none, T)
  | some i =>
      let parent := T.current.map T.procs
      let p := inheritCredentials (T.procs i) parent
      let p := { p with pid := T.pidCounter }
      let T := { T with pidCounter := T.pidCounter + 1 }
      if mem.kstack = false ∨ mem.pgdir = false then (none, T.set i { p with state := .unused })
      else
        (some i, T.set i { p with
          state := .embryo
          parent := T.current
          root := (parent.map (·.root)).getD rootInode
          pwd := (parent.map (·.pwd)).getD rootInode
          openFiles := (parent.map (·.openFiles)).getD fun _ => 0 })

def setState (j : Slot) (state : ProcState) : Table := T.set j { T.procs j with state := state }

/-- The child of `do_fork`, or none for `-1`. -/
def doFork (mem : Pages) : Option Slot × Table :=
  match T.allocProc mem with
  | (none, T) => (none, T)
  | (some j, T) => if mem.copy then (some j, T.setState j .ready) else (none, T)

def doExec (mem : Pages) : Option Slot × Table :=
  match T.allocProc mem with
  | (none, T) => (none, T)
  | (some j, T) => (some j, T.setState j .ready)

/-! ## The end of a process -/

def wakeup (channel : Option Slot) : Table :=
  { T with procs := fun j =>
      if (T.procs j).channel = channel ∧ (T.procs j).state = .sleeping then
        { T.procs j with state := .ready }
      else T.procs j }

/-- One slot of the loop of `do_exit` over the children. -/
def adopt (p : Slot) (T : Table) (j : Slot) : Table :=
  if (T.procs j).parent = some p then
    let T := T.set j { T.procs j with parent := some init }
    if (T.procs j).state = .zombie then T.wakeup (some init) else T
  else T

def doExit (p : Slot) (status : ℤ) : Table :=
  let T := (List.finRange numProc).foldl (adopt p) T
  let T := T.set p { T.procs p with pwd := 0, root := 0, openFiles := fun _ => 0, status := status }
  let T := T.wakeup (T.procs p).parent
  { T.setState p .zombie with current := none }

/-- A zombie child is reaped; with other children only, the process goes to sleep. -/
def doWait (p : Slot) : Table :=
  match (List.finRange numProc).find? fun j => (T.procs j).parent = some p ∧ (T.procs j).state = .zombie with
  | some j => T.set j { T.procs j with state := .unused, pid := 0, parent := none }
  | none =>
      if ∃ j, (T.procs j).parent = some p then
        { T.set p { T.procs p with channel := some p, state := .sleeping } with
          current := none, asleep := Function.update T.asleep p true }
      else T

/-- One slot of the loop of `init_process`. -/
def initReap (p j : Slot) : Table :=
  if (T.procs j).state = .zombie ∧ (T.procs j).parent = some p then T.setState j .unused else T

/-! ## Signals and the scheduler -/

def findProcess (pid : ℤ) : Option Slot := (List.finRange numProc).find? fun j => (T.procs j).pid = pid

def doKill (pid sig : ℤ) : Table :=
  if sig < 1 ∨ 32 < sig then T
  else
    match T.findProcess pid with
    | none => T
    | some j =>
        let q := T.procs j
        T.set j { q with
          pending := q.pending ||| 1#32 <<< (sig.toNat % 32)
          state := if q.state = .sleeping then .ready else q.state }

def sysKill (p : Slot) (pid sig : ℤ) : Table :=
  match T.findProcess pid with
  | none => T
  | some j =>
      let caller := (T.procs p).creds
      let target := (T.procs j).creds
      if caller.euid = rootUid ∨ caller.euid = target.euid ∨ caller.uid = target.uid then T.doKill pid sig
      else T

/-- The current process leaves the processor, ready to go on. -/
def preempt (p : Slot) : Table := { T.setState p .ready with current := none }

/-- The scheduler runs a process, unless a default handler of a signal ends it. -/
def switch (p : Slot) : Option Table :=
  if (T.procs p).state ≠ .ready then none
  else
    let r := handleSignal 31 1 (T.procs p).pending .ready false
    if r.yields then none
    else
      let q := { T.procs p with
        pending := r.pending
        state := .running
        channel := if T.asleep p then none else (T.procs p).channel }
      some { T.set p q with current := some p, asleep := Function.update T.asleep p false }

/-- `knanosleep`. -/
def nap (p : Slot) : Table :=
  if T.timers.length < numTimers then
    { T.setState p .sleeping with current := none, timers := p :: T.timers }
  else T

/-- A timer of `check_timers`, which does not look at the state of the slot. -/
def fire (j : Slot) : Option Table :=
  if j ∈ T.timers then some { T.setState j .ready with timers := T.timers.erase j } else none

/-! ## Calls on a process itself -/

def sysSetgroups (q : Proc) (grouplist : ℕ → Id) (len : ℤ) : ℤ × Proc :=
  if q.creds.euid ≠ rootUid then (-eperm, q)
  else if (ngroups : ℤ) < len then (-einval, q)
  else
    (0, { q with groups := fun i =>
      if (i : ℕ) < len.toNat then (grouplist i).toNat else if (i : ℕ) = len.toNat then nogroup
      else q.groups i })

/-- The result and `mm` of `sys_brk`. -/
def sysBrk (q : Proc) (brk : ℕ) : ℤ × Proc :=
  if brk = 0 then (q.mm.current, q)
  else if brk < q.mm.heapStart ∨ q.mm.heapEnd < brk then (-einval, q)
  else (0, { q with mm := { q.mm with current := brk } })

end Table

/-- What the current process or the scheduler does. -/
inductive SlotEvent
  | switch (p : Slot)
  | preempt
  | fork (mem : Pages)
  | exec (mem : Pages)
  | exit (status : ℤ)
  | wait
  | initReap (j : Slot)
  | kill (pid sig : ℤ)
  | nap
  | fire (j : Slot)
  | user (call : UserCall)
  | group (call : GroupCall)
  | setgroups (grouplist : ℕ → Id) (len : ℤ)
  | brk (brk : ℕ)
  | image (mm : MemoryMap)

namespace Table

/-- A call that changes the caller only. -/
def update (T : Table) (p : Slot) (f : Proc → Proc) : Table := T.set p (f (T.procs p))

/-- A call of process `p`. -/
def call (T : Table) (p : Slot) : SlotEvent → Option Table
  | .switch _ => none
  | .preempt => some (T.preempt p)
  | .fork mem => some (T.doFork mem).2
  | .exec mem => if p = init then some (T.doExec mem).2 else none
  | .exit status => some (T.doExit p status)
  | .wait => some (T.doWait p)
  | .initReap j => if p = init then some (T.initReap p j) else none
  | .kill pid sig => some (T.sysKill p pid sig)
  | .nap => some (T.nap p)
  | .fire j => T.fire j
  | .user c => some (T.update p fun q => { q with creds := (c.run q.creds).2 })
  | .group c => some (T.update p fun q => { q with creds := (c.run q.creds).2 })
  | .setgroups grouplist len => some (T.update p fun q => (sysSetgroups q grouplist len).2)
  | .brk brk => some (T.update p fun q => (sysBrk q brk).2)
  | .image mm => some (T.update p fun q => { q with mm := mm })

def step (T : Table) (e : SlotEvent) : Option Table :=
  match T.current with
  | some p => if (T.procs p).state = .running then T.call p e else none
  | none =>
      match e with
      | .switch p => T.switch p
      | .fire j => T.fire j
      | _ => none

/-- `create_initial_process` at boot. -/
def boot : Table :=
  let T : Table := ⟨fun _ => .zero, 1, none, fun _ => false, []⟩
  (T.allocProc ⟨true, true, true⟩).2.setState init .ready

end Table
end Ferrite.Sys
