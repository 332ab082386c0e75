import Ferrite.Library.Runs
import Ferrite.Sys.Process

/-!
# Signals that end a process

The default handlers of the fatal signals store `ZOMBIE` and call `yield`, which
stores `READY`. Nothing of `do_exit` is done on the way: the process keeps its
files and its directories, and its parent is not woken.
-/
namespace Ferrite.Sys
open Runs

/-- `MAX_OPEN_FILES`. -/
abbrev Fd := Fin 64

/-- The inodes and the files that the processes refer to. -/
structure Holdings where
  pwd : Slot → Option ℕ
  root : Slot → Option ℕ
  openFiles : Slot → Fd → Option ℕ

namespace Holdings
variable (r : Holdings)

/-- What `do_exit` gives back. -/
def release (p : Slot) : Holdings :=
  { pwd := Function.update r.pwd p none
    root := Function.update r.root p none
    openFiles := Function.update r.openFiles p fun _ => none }

/-- What `__alloc_proc` gives to the process in slot `j`. -/
def inherit (p j : Slot) : Holdings :=
  { pwd := Function.update r.pwd j (r.pwd p)
    root := Function.update r.root j (r.root p)
    openFiles := Function.update r.openFiles j (r.openFiles p) }

/-- What a statement of process `p` does to the holdings. -/
def afterStatement (p : Slot) (choice : Bool) : Pc → Holdings
  | .exitClose _ => r.release p
  | .allocFill _ j => if choice then r.inherit p j else r
  | _ => r

def after (k : Kernel) : Event → Holdings
  | .run choice =>
      match k.cpu with
      | .proc p => r.afterStatement p choice (k.pc p)
      | _ => r
  | _ => r

end Holdings

/-- The kernel with what its processes hold. -/
structure Tasks where
  kernel : Kernel
  holdings : Holdings

def Tasks.step (t : Tasks) (e : Event) : Option Tasks :=
  (Sys.step t.kernel e).map fun k => ⟨k, t.holdings.after t.kernel e⟩

def Tasks.Step (t : Tasks) (e : Event) (t' : Tasks) : Prop := t.step e = some t'

/-- A signal whose default action ends the process, and that nobody handles. -/
def Fatal (sig : ℕ) : Prop := sigaction sig = .dfl ∧ defaultAction sig ∈ [Action.kill, .core, .term]

instance (sig : ℕ) : Decidable (Fatal sig) := inferInstanceAs (Decidable (_ ∧ _))

/-- SIGHUP, SIGINT, SIGQUIT, SIGILL, SIGTRAP, SIGABRT, SIGFPE, SIGKILL and SIGTERM. -/
theorem fatal_iff : ∀ sig < 32, Fatal sig ↔ sig ∈ [1, 2, 3, 4, 5, 6, 8, 9, 15] := by decide

def FatalPending (pending : BitVec 32) : Prop := ∃ sig, 1 ≤ sig ∧ sig ≤ 31 ∧
    pending.getLsbD sig = true ∧ Fatal sig

/-- `handle_signal` for process `p` is over: it has returned, or given up the processor. -/
def SignalsHandled (p : Slot) (k : Kernel) : Prop := k.cpu ≠ .sched (.signal p) ∧
    k.cpu ≠ .sched (.handlerYield p)

/-- The process that was in slot `p` when its signals were delivered in state `t` has ended. -/
structure Ended (t u : Tasks) (p : Slot) : Prop where
  zombie : u.kernel.state p = .zombie
  unselected : ∀ tr v, Trace Tasks.Step u tr v → v.kernel.pid p = u.kernel.pid p →
    v.kernel.cpu ≠ .sched (.signal p) ∧ v.kernel.cpu ≠ .sched (.run p)
  pwd : u.holdings.pwd p = none
  root : u.holdings.root p = none
  openFiles : ∀ fd, u.holdings.openFiles p fd = none
  woken : ∀ q, t.kernel.parent p = some q → t.kernel.pc q = .waitAsleep → t.kernel.state q = .sleeping →
    u.kernel.state q = .ready

/-! ## The loop over the signals -/

variable {n sig i : ℕ} {pending : BitVec 32} {state : ProcState} {printed : Bool}

/-- Another signal stays pending. -/
theorem getLsbD_clear (h : pending.getLsbD i = true) (hne : i ≠ sig) :
    (pending &&& ~~~(1#32 <<< sig)).getLsbD i = true := by
  have hi : i < 32 := BitVec.lt_of_getLsbD h
  rw [BitVec.getLsbD_and, h, BitVec.getLsbD_not, BitVec.getLsbD_shiftLeft, BitVec.getLsbD_one]
  have hsub : i < sig ∨ i - sig ≠ 0 := by omega
  rcases hsub with hlt | hsub
  · simp [hi, hlt]
  · simp [hi, hsub]

/-- The loop does not come past a fatal signal. -/
theorem handleSignal_yields (hi : sig ≤ i) (hn : i < sig + n) (hbit : pending.getLsbD i = true) (hf : Fatal i) :
    (handleSignal n sig pending state printed).yields = true := by
  induction n generalizing sig pending state printed with
  | zero => omega
  | succ n ih =>
      unfold handleSignal
      by_cases hsig : i = sig
      · subst hsig
        obtain ⟨hdfl, haction⟩ := hf
        rw [if_pos hbit, hdfl]
        cases ha : defaultAction i <;> simp_all
      · have hrest : sig + 1 ≤ i := by omega
        have hend : i < sig + 1 + n := by omega
        by_cases hset : pending.getLsbD sig = true
        · have hkeep := getLsbD_clear hbit hsig
          rw [if_pos hset]
          cases sigaction sig with
          | ign => exact ih hrest hend hkeep
          | dfl =>
              cases defaultAction sig with
              | stop | kill | core | term => rfl
              | cont | unknown => exact ih hrest hend hkeep
        · rw [if_neg hset]
          exact ih hrest hend hbit

theorem deliver_yields {k : Kernel} {p : Slot} (h : FatalPending (k.pending p)) :
    (k.deliver p).yields = true := by
  obtain ⟨sig, hlo, hhi, hbit, hf⟩ := h
  exact handleSignal_yields hlo (by omega) hbit hf

/-! ## The run of `handle_signal` -/

/-- While the scheduler is at work, the timers only change the states of processes. -/
theorem timerIrq_sched {k : Kernel} {pc : SchedPc} (hcpu : k.cpu = .sched pc) (hpc : pc ≠ .halt)
    (expired : Bool) :
    (k.timerIrq expired).cpu = .sched pc ∧ (k.timerIrq expired).pending = k.pending := by
  have hw : Kernel.Woken (fun _ => True) { k with ticks := k.ticks + 1 }
      { k with ticks := k.ticks + 1 }.checkTimers :=
    Kernel.woken_checkTimers trivial fun _ _ _ _ => trivial
  have hcpu' : { k with ticks := k.ticks + 1 }.checkTimers.cpu = .sched pc := by
    rw [hw.rest]
    exact hcpu
  have hpending : { k with ticks := k.ticks + 1 }.checkTimers.pending = k.pending := by rw [hw.rest]
  unfold Kernel.timerIrq
  dsimp only
  rw [hcpu']
  cases pc with
  | halt => exact absurd rfl hpc
  | scan _ | signal _ | handlerYield _ | run _ | back _ => exact ⟨hcpu', hpending⟩

/-- From the delivery of a fatal signal on: it is still ahead, or a handler is about to
give up the processor, or has done so. -/
def Delivering (p : Slot) (r : Holdings) (t : Tasks) : Prop :=
  t.holdings = r ∧
    ((t.kernel.cpu = .sched (.signal p) ∧ FatalPending (t.kernel.pending p)) ∨
      t.kernel.cpu = .sched (.handlerYield p) ∨ (t.kernel.cpu = .lost ∧ t.kernel.state p = .ready))

/-- One step of a delivery. -/
theorem Delivering.step {p : Slot} {r : Holdings} (t : Tasks) (e : Event) (u : Tasks) (h : Delivering p r t)
    (hs : t.Step e u) : Delivering p r u := by
  obtain ⟨k, hk, rfl⟩ := Option.map_eq_some_iff.mp hs
  obtain ⟨hr, h⟩ := h
  have hproc : ∀ q, t.kernel.cpu ≠ .proc q := by
    intro q hq
    rw [hq] at h
    simp at h
  have hboot : t.kernel.cpu ≠ .boot := by
    intro hq
    rw [hq] at h
    simp at h
  have hafter : t.holdings.after t.kernel e = r := by
    unfold Holdings.after
    cases e with
    | run choice =>
        cases hc : t.kernel.cpu with
        | proc q => exact absurd hc (hproc q)
        | boot | sched _ | lost => exact hr
    | boot | call _ | irq _ => exact hr
  refine ⟨hafter, ?_⟩
  cases e with
  | boot =>
      unfold Sys.step at hk
      rw [if_neg hboot] at hk
      cases hk
  | call c =>
      unfold Sys.step at hk
      cases hc : t.kernel.cpu with
      | proc q => exact absurd hc (hproc q)
      | boot | sched _ | lost =>
          rw [hc] at hk
          cases hk
  | irq expired =>
      simp only [Sys.step, Option.ite_none_right_eq_some, Option.some.injEq] at hk
      obtain ⟨⟨-, -, hlost⟩, rfl⟩ := hk
      rcases h with ⟨hc, hf⟩ | hc | ⟨hc, -⟩
      · have hirq := timerIrq_sched hc (by simp) expired
        exact .inl ⟨hirq.1, hirq.2 ▸ hf⟩
      · exact .inr (.inl (timerIrq_sched hc (by simp) expired).1)
      · exact absurd hc hlost
  | run choice =>
      unfold Sys.step at hk
      rcases h with ⟨hc, hf⟩ | hc | ⟨hc, -⟩
      · rw [hc] at hk
        simp only [Kernel.schedStep, deliver_yields hf, if_true, Option.some.injEq] at hk
        subst hk
        exact .inr (.inl rfl)
      · rw [hc] at hk
        cases hk
        exact .inr (.inr ⟨rfl, Function.update_self ..⟩)
      · rw [hc] at hk
        cases hk

/-- The run of `handle_signal` comes to its end. -/
theorem exists_handled {t : Tasks} {p : Slot} (ht : t.kernel.cpu = .sched (.signal p))
    (hf : FatalPending (t.kernel.pending p)) : ∃ tr u, Trace Tasks.Step t tr u ∧ SignalsHandled p u.kernel := by
  have hstep : ∃ u, t.Step (.run true) u ∧ u.kernel.cpu = .sched (.handlerYield p) := by
    unfold Tasks.Step Tasks.step Sys.step
    dsimp only
    rw [ht]
    simp only [Kernel.schedStep, deliver_yields hf, if_true, Option.map_some]
    exact ⟨_, rfl, rfl⟩
  obtain ⟨u, hu, hcpu⟩ := hstep
  have hlast : ∃ v, u.Step (.run true) v ∧ v.kernel.cpu = .lost := by
    unfold Tasks.Step Tasks.step Sys.step
    dsimp only
    rw [hcpu]
    exact ⟨_, rfl, rfl⟩
  obtain ⟨v, hv, hlost⟩ := hlast
  refine ⟨_, v, .cons hu (.single hv), ?_, ?_⟩
  · rw [hlost]
    simp
  · rw [hlost]
    simp

/-- A process to which a fatal signal is delivered does not end: when `handle_signal` is
over it is `READY` and holds what it held. -/
theorem fatal_signal_survived (t : Tasks) (p : Slot) (ht : t.kernel.cpu = .sched (.signal p))
    (hf : FatalPending (t.kernel.pending p)) :
    (∃ tr u, Trace Tasks.Step t tr u ∧ SignalsHandled p u.kernel) ∧
      ∀ tr u, Trace Tasks.Step t tr u → SignalsHandled p u.kernel →
        ¬ Ended t u p ∧ u.kernel.state p = .ready ∧ u.holdings = t.holdings := by
  refine ⟨exists_handled ht hf, ?_⟩
  intro tr u h hu
  have hrun := (h.throughout (I := Delivering p t.holdings) Delivering.step ⟨rfl, .inl ⟨ht, hf⟩⟩).2
  obtain ⟨hholdings, ⟨hc, -⟩ | hc | ⟨-, hready⟩⟩ := hrun
  · exact absurd hc hu.1
  · exact absurd hc hu.2
  · refine ⟨fun hended => ?_, hready, hholdings⟩
    rw [hended.zombie] at hready
    cases hready

/-- The process in slot 1, with one file, is about to be switched to when SIGKILL is pending. -/
def killed : Tasks where
  kernel := { powerOn with
    state := fun _ => .ready, pending := fun _ => 1#32 <<< 9, currentProc := some slot1,
    cpu := .sched (.signal slot1) }
  holdings :=
    { pwd := fun _ => some 0
      root := fun _ => some 0
      openFiles := fun _ fd => if fd = 0 then some 0 else none }

theorem killed_pending : FatalPending (killed.kernel.pending slot1) :=
    ⟨9, by decide, by decide, by decide, by decide⟩

theorem fatal_signal_survived_kill :
    (∃ tr u, Trace Tasks.Step killed tr u ∧ SignalsHandled slot1 u.kernel) ∧
      ∀ tr u, Trace Tasks.Step killed tr u → SignalsHandled slot1 u.kernel →
        ¬ Ended killed u slot1 ∧ u.kernel.state slot1 = .ready ∧ u.holdings = killed.holdings :=
  fatal_signal_survived killed slot1 rfl killed_pending

theorem not_fatal_signal_ends : ¬ ∀ (t : Tasks) (p : Slot), t.kernel.cpu = .sched (.signal p) →
    FatalPending (t.kernel.pending p) →
    ∀ tr u, Trace Tasks.Step t tr u → SignalsHandled p u.kernel → Ended t u p := by
  intro h
  obtain ⟨tr, u, hrun, hu⟩ := exists_handled (t := killed) (p := slot1) rfl killed_pending
  have hzombie := (h killed slot1 rfl killed_pending tr u hrun hu).zombie
  have hlast := (hrun.throughout (I := Delivering slot1 killed.holdings) Delivering.step
    ⟨rfl, .inl ⟨rfl, killed_pending⟩⟩).2
  obtain ⟨-, ⟨hc, -⟩ | hc | ⟨-, hready⟩⟩ := hlast
  · exact hu.1 hc
  · exact hu.2 hc
  · rw [hzombie] at hready
    cases hready

end Ferrite.Sys
