import Mathlib.Logic.Function.Basic
import Mathlib.Data.Fin.Basic
import Mathlib.Data.Int.Notation
import Mathlib.Tactic.Tauto

/-!
# Processes, signals, timers and the scheduler

The process table of `process.c` is kept by field, and a `proc_t*` is the number
of a slot. One processor executes one statement at a time: either the scheduler,
on its own stack, or a process, whose saved context is a program counter into
the kernel operation it is in. Statements that read or write what another
process or an interrupt may touch are steps of their own, so that the timer
interrupt can come between a check and the write the check is for.

Memory enters by the outcome of an allocation only, and the accounting of
`ticks_remaining` by the bit `expired` of a timer interrupt.
-/
namespace Ferrite.Sys

/-- `NUM_PROC`, `NUM_TIMERS` and `HZ`. -/
def numProc : ℕ := 32
def numTimers : ℕ := 16
def hz : ℕ := 100

abbrev Slot := Fin numProc

theorem two_lt_numProc : 2 < numProc := by decide

/-- `procstate_e`. -/
inductive ProcState
  | unused | embryo | sleeping | ready | running | zombie
deriving DecidableEq, Repr

/-- The callers of `__alloc_proc` that other processes can interfere with. -/
inductive AllocKind
  | fork | exec
deriving DecidableEq, Repr

/-- What a process does next: the program itself, or a statement of the kernel. -/
inductive Pc
  | user
  -- `__alloc_proc`, up to the `READY` of its caller.
  | allocScan (kind : AllocKind) (i : ℕ)
  | allocTake (kind : AllocKind) (j : Slot)
  | allocPid (kind : AllocKind) (j : Slot)
  | allocCount (kind : AllocKind) (j : Slot)
  | allocFill (kind : AllocKind) (j : Slot)
  | allocReady (kind : AllocKind) (j : Slot)
  -- `do_exit`.
  | exitScan (status : ℤ) (i : ℕ)
  | exitAdopt (status : ℤ) (j : Slot)
  | exitZombie (status : ℤ) (j : Slot)
  | exitClose (status : ℤ)
  | exitWake
  | exitDone
  -- `do_wait` and the `waitchan` it calls.
  | waitScan (haveKids : Bool) (i : ℕ)
  | waitCheck (j : Slot)
  | waitReap (j : Slot)
  | waitPid (j : Slot)
  | waitParent (j : Slot)
  | waitSleep
  | waitAsleep
  -- `do_kill`.
  | killFind (pid sig : ℤ)
  | killMark (sig : ℕ) (j : Slot)
  | killTest (j : Slot)
  | killWake (j : Slot)
  -- `knanosleep`.
  | napScan (expires i : ℕ)
  | napArm (expires : ℕ) (i : Fin numTimers)
  | napSleep
  | napSwitch
  -- `init_process`.
  | initStart
  | initScan (i : ℕ)
  | initReap (j : Slot)
  | initYield
  -- No context: the slot was never started, or its process has exited.
  | dead
deriving DecidableEq, Repr

/-- Where `schedule` is: testing a slot, delivering signals to a process, inside
the `yield` of a default handler, about to switch, just switched back, or halted. -/
inductive SchedPc
  | scan (i : ℕ)
  | signal (p : Slot)
  | handlerYield (p : Slot)
  | run (p : Slot)
  | back (p : Slot)
  | halt
deriving DecidableEq, Repr

/-- Who has the processor. `lost` is an `abort`, or a jump to a context that does not exist. -/
inductive Cpu
  | boot
  | sched (pc : SchedPc)
  | proc (p : Slot)
  | lost
deriving DecidableEq, Repr

/-- An armed `timer_t`, whose function is `wake_up_process`. -/
structure Timer where
  expires : ℕ
  data : Slot
deriving DecidableEq, Repr

structure Kernel where
  pid : Slot → ℤ
  state : Slot → ProcState
  parent : Slot → Option Slot
  channel : Slot → Option Slot
  pending : Slot → BitVec 32
  status : Slot → ℤ
  pc : Slot → Pc
  timers : Fin numTimers → Option Timer
  currentProc : Option Slot
  pidCounter : ℤ
  ticks : ℕ
  /-- The interrupt flag of the processor, which `swtch` does not save. -/
  intr : Bool
  cpu : Cpu

/-- `ptables`, `timers` and the counters at power-on. -/
def powerOn : Kernel :=
  { pid := fun _ => 0, state := fun _ => .unused, parent := fun _ => none,
    channel := fun _ => none, pending := fun _ => 0, status := fun _ => 0, pc := fun _ => .dead,
    timers := fun _ => none, currentProc := none, pidCounter := 1, ticks := 0, intr := true,
    cpu := .boot }

/-- The initial process, `initproc()`. -/
def init : Slot := ⟨0, by decide⟩

/-! ## Signals -/

inductive Handler
  | dfl | ign
deriving DecidableEq, Repr

/-- The table `sigaction`, which no system call changes. -/
def sigaction (sig : ℕ) : Handler :=
  -- SIGUNUSED, SIGUSR1, SIGSEGV, SIGUSR2, SIGPIPE, SIGALRM, SIGCHLD, SIGIO, SIGWINCH
  if sig ∈ [7, 10, 11, 12, 13, 14, 17, 23, 28] then .ign else .dfl

inductive Action
  | stop | kill | cont | core | term | unknown
deriving DecidableEq, Repr

/-- The switch over the signals that are handled by default. -/
def defaultAction : ℕ → Action
  | 19 | 20 | 21 | 22 => .stop         -- SIGSTOP, SIGTSTP, SIGTTIN, SIGTTOU
  | 9 | 15 | 2 => .kill                -- SIGKILL, SIGTERM, SIGINT
  | 18 => .cont                        -- SIGCONT
  | 4 | 5 | 6 | 8 | 11 | 7 => .core    -- SIGILL .. SIGFPE, SIGSEGV, SIGBUS
  | 13 | 14 | 12 | 1 | 3 => .term      -- SIGPIPE, SIGALRM, SIGUSR2, SIGHUP, SIGQUIT
  | _ => .unknown

/-- What `handle_signal` leaves: the pending signals, the state, whether anything was
printed, and whether a default handler was entered, which goes on to `yield`. -/
structure Delivery where
  pending : BitVec 32
  state : ProcState
  printed : Bool
  yields : Bool
deriving DecidableEq, Repr

/-- The loop of `handle_signal` over `n` signals from `sig` on. -/
def handleSignal : ℕ → ℕ → BitVec 32 → ProcState → Bool → Delivery
  | 0, _, pending, state, printed => ⟨pending, state, printed, false⟩
  | n + 1, sig, pending, state, printed =>
      if pending.getLsbD sig then
        let pending := pending &&& ~~~(1#32 <<< sig)
        match sigaction sig with
        | .ign => handleSignal n (sig + 1) pending state printed
        | .dfl =>
            match defaultAction sig with
            | .stop => ⟨pending, .sleeping, true, true⟩
            | .kill | .core | .term => ⟨pending, .zombie, true, true⟩
            | .cont =>
                let state := if state = .sleeping then .ready else state
                handleSignal n (sig + 1) pending state printed
            | .unknown => handleSignal n (sig + 1) pending state true
      else handleSignal n (sig + 1) pending state printed

namespace Kernel
variable (k : Kernel)

/-! ## Functions that touch other processes -/

/-- `wakeup(channel)`. -/
def wakeup (channel : Option Slot) : Kernel :=
  { k with state := fun j =>
      if k.channel j = channel ∧ k.state j = .sleeping then .ready else k.state j }

/-- `find_process(pid)`, which does not look at the state of a slot. -/
def findProcess (pid : ℤ) : Option Slot := (List.finRange numProc).find? fun j => k.pid j = pid

/-- One timer of `check_timers`; the function is `wake_up_process`. -/
def checkTimer (k : Kernel) (i : Fin numTimers) : Kernel :=
  match k.timers i with
  | none => k
  | some timer =>
      if timer.expires ≤ k.ticks then
        { k with
          state := Function.update k.state timer.data .ready
          timers := Function.update k.timers i none }
      else k

def checkTimers : Kernel := (List.finRange numTimers).foldl checkTimer k

/-- `yield()` by process `p`, up to the switch. -/
def yieldBy (p : Slot) : Kernel :=
  { k with state := Function.update k.state p .ready, cpu := .sched (.back p) }

def goto (p : Slot) (pc : Pc) : Kernel := { k with pc := Function.update k.pc p pc }

/-! ## The scheduler -/

/-- `handle_signal()` for the current process `p`. -/
def deliver (p : Slot) : Delivery := handleSignal 31 1 (k.pending p) (k.state p) false

/-- A context that was saved by a plain call goes on with the interrupt flag as it
is; all others return through `iret` or enable interrupts. -/
def keepsFlags : Pc → Bool
  | .waitAsleep | .initYield => true
  | _ => false

def schedStep : SchedPc → Option Kernel
  | .scan i =>
      if h : i < numProc then
        if k.state ⟨i, h⟩ = .ready then some { k with cpu := .sched (.signal ⟨i, h⟩) }
        else some { k with cpu := .sched (.scan (i + 1)) }
      else some { k with intr := true, cpu := .sched .halt }
  | .signal p =>
      let r := k.deliver p
      let k' := { k with
        currentProc := some p
        pending := Function.update k.pending p r.pending
        state := Function.update k.state p r.state
        intr := k.intr || r.printed }
      if r.yields then some { k' with cpu := .sched (.handlerYield p) }
      else if r.state ≠ .ready ∧ r.state ≠ .running then
        some { k' with currentProc := none, cpu := .sched (.scan (p + 1)) }
      else some { k' with cpu := .sched (.run p) }
  | .handlerYield p =>
      -- The switch leaves the stack on which it is called for an older context of
      -- the same stack, whose frame the running functions have overwritten.
      some { k with state := Function.update k.state p .ready, cpu := .lost }
  | .run p =>
      some { k with
        state := Function.update k.state p .running
        intr := if keepsFlags (k.pc p) then k.intr else true
        cpu := .proc p }
  | .back p =>
      let state := if k.state p = .running then Function.update k.state p .ready else k.state
      some { k with state := state, currentProc := none, cpu := .sched (.scan (p + 1)) }
  | .halt => none

/-! ## The processes -/

/-- The return from `__alloc_proc` with a null pointer; `init_process` aborts. -/
def allocNull (p : Slot) : AllocKind → Kernel
  | .fork => k.goto p .user
  | .exec => { k.goto p .dead with cpu := .lost }

/-- One statement of `__alloc_proc`, `do_fork` and `do_exec`. -/
def allocStep (p : Slot) (choice : Bool) : Pc → Option Kernel
  | .allocScan kind i =>
      if h : i < numProc then
        if k.state ⟨i, h⟩ = .unused then some (k.goto p (.allocTake kind ⟨i, h⟩))
        else some (k.goto p (.allocScan kind (i + 1)))
      else some (k.allocNull p kind)
  | .allocTake kind j =>
      some { k.goto p (.allocPid kind j) with state := Function.update k.state j .embryo }
  | .allocPid kind j =>
      some { k.goto p (.allocCount kind j) with pid := Function.update k.pid j k.pidCounter }
  | .allocCount kind j =>
      some { k.goto p (.allocFill kind j) with pidCounter := k.pidCounter + 1 }
  | .allocFill kind j =>
      if choice then
        some { k.goto p (.allocReady kind j) with parent := Function.update k.parent j (some p) }
      else some ({ k with state := Function.update k.state j .unused }.allocNull p kind)
  | .allocReady .fork j =>
      -- When `vmm_copy_pgdir` fails, the slot stays as it is.
      if choice then
        some ({ k.goto j .user with state := Function.update k.state j .ready }.goto p .user)
      else some (k.goto p .user)
  | .allocReady .exec j =>
      some ({ k.goto j .user with state := Function.update k.state j .ready }.goto p (.initScan 0))
  | _ => none

/-- One statement of `do_exit`. The choice is whether `inode_put` meets a count
that is already zero and prints, since `printk` enables interrupts. -/
def exitStep (p : Slot) (choice : Bool) : Pc → Option Kernel
  | .exitScan status i =>
      if h : i < numProc then
        if k.parent ⟨i, h⟩ = some p then some (k.goto p (.exitAdopt status ⟨i, h⟩))
        else some (k.goto p (.exitScan status (i + 1)))
      else some { k.goto p (.exitClose status) with intr := false }
  | .exitAdopt status j =>
      some { k.goto p (.exitZombie status j) with parent := Function.update k.parent j (some init) }
  | .exitZombie status j =>
      let k' := if k.state j = .zombie then k.wakeup (some init) else k
      some (k'.goto p (.exitScan status (j + 1)))
  | .exitClose status =>
      some { k.goto p .exitWake with
        intr := choice
        status := Function.update k.status p status }
  | .exitWake => some ((k.wakeup (k.parent p)).goto p .exitDone)
  | .exitDone =>
      some { k.goto p .dead with
        state := Function.update k.state p .zombie
        cpu := .sched (.back p) }
  | _ => none

/-- One statement of `do_wait` and `waitchan`. -/
def waitStep (p : Slot) : Pc → Option Kernel
  | .waitScan haveKids i =>
      if h : i < numProc then
        if k.parent ⟨i, h⟩ = some p then some (k.goto p (.waitCheck ⟨i, h⟩))
        else some (k.goto p (.waitScan haveKids (i + 1)))
      else if haveKids then some (k.goto p .waitSleep)
      else some (k.goto p .user)
  | .waitCheck j =>
      if k.state j = .zombie then some (k.goto p (.waitReap j))
      else some (k.goto p (.waitScan true (j + 1)))
  | .waitReap j =>
      some { k.goto p (.waitPid j) with state := Function.update k.state j .unused }
  | .waitPid j => some { k.goto p (.waitParent j) with pid := Function.update k.pid j 0 }
  | .waitParent j => some { k.goto p .user with parent := Function.update k.parent j none }
  | .waitSleep =>
      -- `cli` comes first, so these stores and the switch are one step.
      some { k.goto p .waitAsleep with
        intr := false
        channel := Function.update k.channel p (some p)
        state := Function.update k.state p .sleeping
        cpu := .sched (.back p) }
  | .waitAsleep =>
      some { k.goto p (.waitScan false 0) with
        intr := true
        channel := Function.update k.channel p none }
  | _ => none

/-- One statement of `do_kill`. -/
def killStep (p : Slot) : Pc → Option Kernel
  | .killFind pid sig =>
      if sig < 1 ∨ 32 < sig then some (k.goto p .user)
      else
        match k.findProcess pid with
        | none => some (k.goto p .user)
        | some j => some (k.goto p (.killMark sig.toNat j))
  | .killMark sig j =>
      -- The processor shifts by the count modulo 32.
      some { k.goto p (.killTest j) with
        pending := Function.update k.pending j (k.pending j ||| 1#32 <<< (sig % 32)) }
  | .killTest j =>
      if k.state j = .sleeping then some (k.goto p (.killWake j)) else some (k.goto p .user)
  | .killWake j => some { k.goto p .user with state := Function.update k.state j .ready }
  | _ => none

/-- One statement of `knanosleep`. -/
def napStep (p : Slot) : Pc → Option Kernel
  | .napScan expires i =>
      if h : i < numTimers then
        if k.timers ⟨i, h⟩ = none then some (k.goto p (.napArm expires ⟨i, h⟩))
        else some (k.goto p (.napScan expires (i + 1)))
      else some (k.goto p .user)
  | .napArm expires i =>
      some { k.goto p .napSleep with timers := Function.update k.timers i (some ⟨expires, p⟩) }
  | .napSleep =>
      some { k.goto p .napSwitch with state := Function.update k.state p .sleeping }
  | .napSwitch => some { k.goto p .user with cpu := .sched (.back p) }
  | _ => none

/-- One statement of `init_process`. -/
def initStep (p : Slot) : Pc → Option Kernel
  | .initStart => some { k.goto p (.allocScan .exec 0) with intr := true }
  | .initScan i =>
      if h : i < numProc then
        if k.state ⟨i, h⟩ = .zombie ∧ k.parent ⟨i, h⟩ = some p then
          some (k.goto p (.initReap ⟨i, h⟩))
        else some (k.goto p (.initScan (i + 1)))
      else some ((k.goto p .initYield).yieldBy p)
  | .initReap j =>
      some { k.goto p (.initScan (j + 1)) with
        intr := true
        state := Function.update k.state j .unused }
  | .initYield => some (k.goto p (.initScan 0))
  | _ => none

/-- The next statement of process `p`. A context that does not exist has none. -/
def procStep (p : Slot) (choice : Bool) : Option Kernel :=
  k.allocStep p choice (k.pc p) <|> k.exitStep p choice (k.pc p) <|> k.waitStep p (k.pc p) <|>
    k.killStep p (k.pc p) <|> k.napStep p (k.pc p) <|> k.initStep p (k.pc p)

theorem procStep_cases {k k' : Kernel} {p : Slot} {choice : Bool}
    (h : k.procStep p choice = some k') :
    k.allocStep p choice (k.pc p) = some k' ∨ k.exitStep p choice (k.pc p) = some k' ∨
      k.waitStep p (k.pc p) = some k' ∨ k.killStep p (k.pc p) = some k' ∨
      k.napStep p (k.pc p) = some k' ∨ k.initStep p (k.pc p) = some k' := by
  simp only [procStep, Option.orElse_eq_orElse, Option.orElse_eq_or, Option.or_eq_some_iff] at h
  tauto

end Kernel

/-- The operations a process may start. -/
inductive Call
  | fork
  | exit (status : ℤ)
  | wait
  | kill (pid sig : ℤ)
  | nanosleep (ms : ℕ)
  | yield

namespace Kernel
variable (k : Kernel)

/-- `knanosleep` computes the expiry before it looks for a timer. -/
def startCall (p : Slot) : Call → Kernel
  | .fork => k.goto p (.allocScan .fork 0)
  | .exit status => k.goto p (.exitScan status 0)
  | .wait => k.goto p (.waitScan false 0)
  | .kill pid sig => k.goto p (.killFind pid sig)
  | .nanosleep ms => k.goto p (.napScan (k.ticks + ms * hz / 1000) 0)
  | .yield => k.yieldBy p

/-- `timer_handler` and the `check_resched` behind it. A quantum only ends while
the current process is `RUNNING`; the message printed then enables interrupts. -/
def timerIrq (expired : Bool) : Kernel :=
  let k := { k with ticks := k.ticks + 1 }.checkTimers
  match k.cpu with
  | .proc p => if expired ∧ k.state p = .running then k.yieldBy p else k
  | .sched .halt => { k with cpu := .sched (.scan 0) }
  | _ => k

/-- What timers leave that fire for processes whose state has the property. -/
structure Woken (P : ProcState → Prop) (k k' : Kernel) : Prop where
  state : ∀ j, k'.state j = k.state j ∨ (P (k.state j) ∧ k'.state j = .ready)
  timers : ∀ i, ∀ timer ∈ k'.timers i, timer ∈ k.timers i
  rest : k' = { k with state := k'.state, timers := k'.timers }

section
variable {P : ProcState → Prop} {k k₁ k₂ : Kernel}

theorem Woken.refl : Woken P k k := ⟨fun _ => .inl rfl, fun _ _ h => h, rfl⟩

theorem Woken.trans (h : Woken P k k₁) (h' : Woken P k₁ k₂) : Woken P k k₂ := by
  constructor
  · intro j
    cases h.state j with
    | inl h₁ => rw [← h₁]; exact h'.state j
    | inr h₁ =>
        refine .inr ⟨h₁.1, ?_⟩
        cases h'.state j with
        | inl h₂ => rw [h₂, h₁.2]
        | inr h₂ => exact h₂.2
  · exact fun i t ht => h.timers i t (h'.timers i t ht)
  · rw [h'.rest, h.rest]

theorem woken_checkTimer {i : Fin numTimers}
    (h : ∀ timer ∈ k.timers i, timer.expires ≤ k.ticks → P (k.state timer.data)) :
    Woken P k (k.checkTimer i) := by
  unfold checkTimer
  split
  case h_1 => exact .refl
  case h_2 timer hi =>
    split_ifs with hexp
    · refine ⟨fun j => ?_, fun i' t ht => ?_, rfl⟩
      · by_cases hj : j = timer.data
        · subst hj
          exact .inr ⟨h timer hi hexp, Function.update_self ..⟩
        · exact .inl (Function.update_of_ne hj ..)
      · by_cases hi' : i' = i
        · subst hi'
          simp at ht
        · simpa [hi'] using ht
    · exact .refl

theorem woken_checkTimers (hready : P .ready)
    (h : ∀ i, ∀ timer ∈ k.timers i, timer.expires ≤ k.ticks → P (k.state timer.data)) :
    Woken P k k.checkTimers := by
  unfold checkTimers
  generalize List.finRange numTimers = is
  induction is generalizing k with
  | nil => exact .refl
  | cons i is ih =>
      have hi : Woken P k (k.checkTimer i) := woken_checkTimer (h i)
      apply hi.trans
      apply ih
      intro i' timer ht hexp
      rw [hi.rest] at hexp
      cases hi.state timer.data with
      | inl hs => rw [hs]; exact h i' timer (hi.timers i' timer ht) hexp
      | inr hs => rw [hs.2]; exact hready

/-- The timer interrupt: some processes are woken, then the current one may yield,
or the halted scheduler starts over. -/
theorem timerIrq_cases (hready : P .ready)
    (h : ∀ i, ∀ timer ∈ k.timers i, timer.expires ≤ k.ticks + 1 → P (k.state timer.data))
    (expired : Bool) : ∃ k₁, Woken P { k with ticks := k.ticks + 1 } k₁ ∧
      (k.timerIrq expired = k₁ ∨
        (∃ p, k.cpu = .proc p ∧ k₁.state p = .running ∧ k.timerIrq expired = k₁.yieldBy p) ∨
        k.timerIrq expired = { k₁ with cpu := .sched (.scan 0) }) := by
  have hw := woken_checkTimers (k := { k with ticks := k.ticks + 1 }) hready h
  have hcpu : { k with ticks := k.ticks + 1 }.checkTimers.cpu = k.cpu := by rw [hw.rest]
  refine ⟨_, hw, ?_⟩
  unfold timerIrq
  simp only
  split
  case h_1 p hp =>
    split_ifs with hexp
    · exact .inr (.inl ⟨p, hcpu ▸ hp, hexp.2, rfl⟩)
    · exact .inl rfl
  case h_2 => exact .inr (.inr rfl)
  case h_3 => exact .inl rfl

end

/-- `create_initial_process`, before any interference. -/
def createInitialProcess : Kernel :=
  { k with
    state := Function.update k.state init .ready
    pid := Function.update k.pid init k.pidCounter
    pidCounter := k.pidCounter + 1
    pc := Function.update k.pc init .initStart
    cpu := .sched (.scan 0) }

end Kernel

inductive Event
  | boot
  | run (choice : Bool)
  | call (c : Call)
  | irq (expired : Bool)

/-- The processor goes on for `n` steps. -/
def runs (choice : Bool) (n : ℕ) : List Event := List.replicate n (.run choice)

/-- Slot 1 becomes a process and slot 2 its child. -/
def forkRun : List Event := [.boot] ++ runs true 48 ++ [.call .fork] ++ runs true 8

def slot1 : Slot := ⟨1, by decide⟩

/-- One step of the machine. -/
def step (k : Kernel) : Event → Option Kernel
  | .boot => if k.cpu = .boot then some k.createInitialProcess else none
  | .run choice =>
      match k.cpu with
      | .sched pc => k.schedStep pc
      | .proc p => k.procStep p choice
      | _ => none
  | .call c =>
      match k.cpu with
      | .proc p => if k.pc p = .user then some (k.startCall p c) else none
      | _ => none
  | .irq expired =>
      if k.intr = true ∧ k.cpu ≠ .boot ∧ k.cpu ≠ .lost then some (k.timerIrq expired) else none

/-- The step relation, with the event as its label. -/
def Step (k : Kernel) (e : Event) (k' : Kernel) : Prop := step k e = some k'

end Ferrite.Sys
