import Mathlib
import Ferrite.Library.Runs
import Ferrite.Sys.Process

/-!
# Lost wakeups in `do_wait`

`do_wait` scans the process table and then goes to sleep, and `do_exit` wakes the
parent before it stores `ZOMBIE`. Between the two the child cannot be preempted,
since interrupts are off, but the parent can be anywhere in its scan. If it has
passed the slot of the child, it goes to sleep on a zombie. This is the only
way: `WaitSafe` survives every other step.
-/
namespace Ferrite.Sys
open Runs Kernel

/-- A parent sleeps in `do_wait` while one of its children is a zombie. -/
def LostWakeup (k : Kernel) : Prop :=
  ∃ p c, k.pc p = .waitAsleep ∧ k.state p = .sleeping ∧ k.channel p = some p ∧
    k.parent c = some p ∧ k.state c = .zombie

/-- `do_wait` has looked at the slot in this round and will not look again before it sleeps. -/
def Pc.passed (pc : Pc) (c : Slot) : Bool :=
  match pc with
  | .waitScan _ i => c < i
  | .waitCheck i => c < i
  | .waitSleep => true
  | _ => false

/-- No handler is entered that stops or ends a process, a child that exits is not
printed at by `inode_put`, and its parent has not passed it. -/
def Unpassed (k : Kernel) : Event → Prop
  | .run choice =>
      match k.cpu with
      | .sched (.signal p) => (k.deliver p).yields = false
      | .proc c =>
          match k.pc c with
          | .exitClose _ => choice = false
          | .exitDone => ∀ p, k.parent c = some p → (k.pc p).passed c = false
          | _ => True
      | _ => True
  | _ => True

instance (k : Kernel) (e : Event) : Decidable (Unpassed k e) := by
  delta Unpassed
  induction e using Event.casesOn with
  | run choice =>
      induction k.cpu using Cpu.casesOn with
      | sched pc => induction pc using SchedPc.casesOn <;> infer_instance
      | proc c =>
          dsimp only
          induction k.pc c using Pc.casesOn <;> infer_instance
      | _ => infer_instance
  | _ => infer_instance

/-! ## The initial process

It never waits, so that orphans may be given to it at any time. -/

/-- The slot that the next statements of a process write without a further look. -/
def Pc.target : Pc → Option Slot
  | .allocTake _ j | .allocPid _ j | .allocCount _ j | .allocFill _ j | .allocReady _ j
  | .exitAdopt _ j | .waitCheck j | .waitReap j | .initReap j => some j
  | _ => none

/-- The statements of `init_process`. -/
def Pc.ofInit : Pc → Bool
  | .allocScan .exec _ | .allocTake .exec _ | .allocPid .exec _ | .allocCount .exec _
  | .allocFill .exec _ | .allocReady .exec _
  | .initStart | .initScan _ | .initReap _ | .initYield | .dead => true
  | _ => false

structure InitSafe (k : Kernel) : Prop where
  state : k.cpu ≠ .boot → k.state init ≠ .unused
  parent : k.parent init = none
  target : ∀ p, (k.pc p).target ≠ some init
  ofInit : (k.pc init).ofInit = true

variable {k k' : Kernel} {e : Event} {p : Slot}

/-- A store of a context is kept when nothing else is stored about the initial process. -/
theorem InitSafe.store {pc : Pc} (hk : InitSafe k) (hpc : k'.pc = Function.update k.pc p pc)
    (ht : pc.target ≠ some init) (hi : p = init → (k.pc p).ofInit = true → pc.ofInit = true)
    (hst : k'.state init ≠ .unused) (hpar : k'.parent init = none) : InitSafe k' := by
  refine ⟨fun _ => hst, hpar, fun q => ?_, ?_⟩
  · rw [hpc]
    by_cases hq : q = p
    · subst hq
      rwa [Function.update_self]
    · rw [Function.update_of_ne hq]
      exact hk.target q
  · rw [hpc]
    by_cases hq : init = p
    · subst hq
      rw [Function.update_self]
      exact hi rfl hk.ofInit
    · rw [Function.update_of_ne hq]
      exact hk.ofInit

/-- A step that stores no context. -/
theorem InitSafe.keep (hk : InitSafe k) (hpc : k'.pc = k.pc) (hst : k'.state init ≠ .unused)
    (hpar : k'.parent init = none) : InitSafe k' :=
  ⟨fun _ => hst, hpar, hpc ▸ hk.target, hpc ▸ hk.ofInit⟩

theorem InitSafe.ne_init (hk : InitSafe k) {pc : Pc} {j : Slot} (hpc : k.pc p = pc)
    (h : pc.target = some j) : j ≠ init := by
  intro hj
  subst hj
  exact hk.target p (hpc ▸ h)

theorem update_ne_unused {st : Slot → ProcState} {i j : Slot} {v : ProcState}
    (h : st i ≠ .unused) (hv : v ≠ .unused) : Function.update st j v i ≠ .unused := by
  by_cases hij : i = j
  · subst hij
    rwa [Function.update_self]
  · rwa [Function.update_of_ne hij]

theorem update_ne_unused_of_ne {st : Slot → ProcState} {i j : Slot} {v : ProcState}
    (h : st i ≠ .unused) (hij : j ≠ i) : Function.update st j v i ≠ .unused := by
  rwa [Function.update_of_ne hij.symm]

theorem wakeup_ne_unused {channel : Option Slot} {i : Slot} (h : k.state i ≠ .unused) :
    (k.wakeup channel).state i ≠ .unused := by
  simp only [wakeup]
  split_ifs
  · decide
  · exact h

/-- The new process in slot `j` is made `READY`. -/
theorem InitSafe.ready (hk : InitSafe k) (hst : k.state init ≠ .unused) {j : Slot} (hj : j ≠ init) :
    InitSafe { k.goto j .user with state := Function.update k.state j .ready } :=
  hk.store rfl (by simp [Pc.target]) (fun h => absurd h hj) (update_ne_unused_of_ne hst hj) hk.parent

theorem InitSafe.alloc {choice : Bool} (hk : InitSafe k) (hst : k.state init ≠ .unused)
    (h : k.allocStep p choice (k.pc p) = some k') : InitSafe k' := by
  cases hpc : k.pc p <;> simp only [hpc, allocStep, reduceCtorEq] at h
  case allocScan kind i =>
    split_ifs at h with hi hfree <;> cases h
    · have hne : (⟨i, hi⟩ : Slot) ≠ init := by
        intro hj
        exact hst (hj ▸ hfree)
      exact hk.store rfl (by simpa [Pc.target] using hne)
        (fun _ => by rw [hpc]; cases kind <;> simp [Pc.ofInit]) hst hk.parent
    · exact hk.store rfl (by simp [Pc.target])
        (fun _ => by rw [hpc]; cases kind <;> simp [Pc.ofInit]) hst hk.parent
    · cases kind <;>
        exact hk.store rfl (by simp [Pc.target]) (fun _ => by rw [hpc]; simp [Pc.ofInit]) hst hk.parent
  case allocTake kind j =>
    have hj : j ≠ init := hk.ne_init hpc rfl
    cases h
    exact hk.store rfl (by simpa [Pc.target] using hj)
      (fun _ => by rw [hpc]; cases kind <;> simp [Pc.ofInit]) (update_ne_unused hst (by decide)) hk.parent
  case allocPid kind j =>
    have hj : j ≠ init := hk.ne_init hpc rfl
    cases h
    exact hk.store rfl (by simpa [Pc.target] using hj)
      (fun _ => by rw [hpc]; cases kind <;> simp [Pc.ofInit]) hst hk.parent
  case allocCount kind j =>
    have hj : j ≠ init := hk.ne_init hpc rfl
    cases h
    exact hk.store rfl (by simpa [Pc.target] using hj)
      (fun _ => by rw [hpc]; cases kind <;> simp [Pc.ofInit]) hst hk.parent
  case allocFill kind j =>
    have hj : j ≠ init := hk.ne_init hpc rfl
    split_ifs at h <;> cases h
    · exact hk.store rfl (by simpa [Pc.target] using hj)
        (fun _ => by rw [hpc]; cases kind <;> simp [Pc.ofInit]) hst
        ((Function.update_of_ne hj.symm ..).trans hk.parent)
    · have hst' : Function.update k.state j .unused init ≠ .unused := update_ne_unused_of_ne hst hj
      cases kind <;>
        exact hk.store rfl (by simp [Pc.target]) (fun _ => by rw [hpc]; simp [Pc.ofInit]) hst' hk.parent
  case allocReady kind j =>
    have hj : j ≠ init := hk.ne_init hpc rfl
    have hst' : Function.update k.state j .ready init ≠ .unused := update_ne_unused_of_ne hst hj
    have hk₁ := hk.ready hst hj
    have hp : p = init → kind = .exec := by
      intro hp
      have hi := hk.ofInit
      rw [← hp, hpc] at hi
      cases kind
      · simp [Pc.ofInit] at hi
      · rfl
    cases kind with
    | fork =>
        simp only at h
        split_ifs at h <;> cases h
        · exact hk₁.store rfl (by simp [Pc.target]) (fun h => by simp at hp; contradiction) hst' hk.parent
        · exact hk.store rfl (by simp [Pc.target]) (fun h => by simp at hp; contradiction) hst hk.parent
    | exec =>
        cases h
        exact hk₁.store rfl (by simp [Pc.target]) (fun _ _ => rfl) hst' hk.parent

theorem InitSafe.exit {choice : Bool} (hk : InitSafe k) (hst : k.state init ≠ .unused)
    (h : k.exitStep p choice (k.pc p) = some k') : InitSafe k' := by
  cases hpc : k.pc p <;> simp only [hpc, exitStep, reduceCtorEq] at h
  case exitScan status i =>
    split_ifs at h with hi hpar <;> cases h
    · have hne : (⟨i, hi⟩ : Slot) ≠ init := by
        intro hj
        simp [hj, hk.parent] at hpar
      exact hk.store rfl (by simpa [Pc.target] using hne) (fun _ => by simp [hpc, Pc.ofInit]) hst hk.parent
    · exact hk.store rfl (by simp [Pc.target]) (fun _ => by simp [hpc, Pc.ofInit]) hst hk.parent
    · exact hk.store rfl (by simp [Pc.target]) (fun _ => by simp [hpc, Pc.ofInit]) hst hk.parent
  case exitAdopt status j =>
    have hj : j ≠ init := hk.ne_init hpc rfl
    cases h
    exact hk.store rfl (by simp [Pc.target]) (fun _ => by simp [hpc, Pc.ofInit]) hst
      ((Function.update_of_ne hj.symm ..).trans hk.parent)
  case exitZombie status j =>
    split_ifs at h <;> cases h
    · exact hk.store rfl (by simp [Pc.target]) (fun _ => by simp [hpc, Pc.ofInit])
        (wakeup_ne_unused hst) hk.parent
    · exact hk.store rfl (by simp [Pc.target]) (fun _ => by simp [hpc, Pc.ofInit]) hst hk.parent
  case exitClose status =>
    cases h
    exact hk.store rfl (by simp [Pc.target]) (fun _ => by simp [hpc, Pc.ofInit]) hst hk.parent
  case exitWake =>
    cases h
    exact hk.store rfl (by simp [Pc.target]) (fun _ => by simp [hpc, Pc.ofInit])
      (wakeup_ne_unused hst) hk.parent
  case exitDone =>
    cases h
    exact hk.store rfl (by simp [Pc.target]) (fun _ => by simp [hpc, Pc.ofInit])
      (update_ne_unused hst (by decide)) hk.parent

theorem InitSafe.wait (hk : InitSafe k) (hst : k.state init ≠ .unused)
    (h : k.waitStep p (k.pc p) = some k') : InitSafe k' := by
  cases hpc : k.pc p <;> simp only [hpc, waitStep, reduceCtorEq] at h
  case waitScan haveKids i =>
    split_ifs at h with hi hpar hkids <;> cases h
    · have hne : (⟨i, hi⟩ : Slot) ≠ init := by
        intro hj
        simp [hj, hk.parent] at hpar
      exact hk.store rfl (by simpa [Pc.target] using hne) (fun _ => by simp [hpc, Pc.ofInit]) hst hk.parent
    all_goals
      exact hk.store rfl (by simp [Pc.target]) (fun _ => by simp [hpc, Pc.ofInit]) hst hk.parent
  case waitCheck j =>
    have hj : j ≠ init := hk.ne_init hpc rfl
    split_ifs at h <;> cases h
    · exact hk.store rfl (by simpa [Pc.target] using hj) (fun _ => by simp [hpc, Pc.ofInit]) hst hk.parent
    · exact hk.store rfl (by simp [Pc.target]) (fun _ => by simp [hpc, Pc.ofInit]) hst hk.parent
  case waitReap j =>
    have hj : j ≠ init := hk.ne_init hpc rfl
    cases h
    exact hk.store rfl (by simp [Pc.target]) (fun _ => by simp [hpc, Pc.ofInit])
      (update_ne_unused_of_ne hst hj) hk.parent
  case waitPid j =>
    cases h
    exact hk.store rfl (by simp [Pc.target]) (fun _ => by simp [hpc, Pc.ofInit]) hst hk.parent
  case waitParent j =>
    cases h
    refine hk.store rfl (by simp [Pc.target]) (fun _ => by simp [hpc, Pc.ofInit]) hst ?_
    simp [Function.update_apply, hk.parent]
  case waitSleep =>
    cases h
    exact hk.store rfl (by simp [Pc.target]) (fun _ => by simp [hpc, Pc.ofInit])
      (update_ne_unused hst (by decide)) hk.parent
  case waitAsleep =>
    cases h
    exact hk.store rfl (by simp [Pc.target]) (fun _ => by simp [hpc, Pc.ofInit]) hst hk.parent

theorem InitSafe.kill (hk : InitSafe k) (hst : k.state init ≠ .unused)
    (h : k.killStep p (k.pc p) = some k') : InitSafe k' := by
  cases hpc : k.pc p <;> simp only [hpc, killStep, reduceCtorEq] at h
  case killFind pid sig =>
    split_ifs at h
    · cases h
      exact hk.store rfl (by simp [Pc.target]) (fun _ => by simp [hpc, Pc.ofInit]) hst hk.parent
    · split at h <;> cases h <;>
        exact hk.store rfl (by simp [Pc.target]) (fun _ => by simp [hpc, Pc.ofInit]) hst hk.parent
  case killMark sig j =>
    cases h
    exact hk.store rfl (by simp [Pc.target]) (fun _ => by simp [hpc, Pc.ofInit]) hst hk.parent
  case killTest j =>
    split_ifs at h <;> cases h <;>
      exact hk.store rfl (by simp [Pc.target]) (fun _ => by simp [hpc, Pc.ofInit]) hst hk.parent
  case killWake j =>
    cases h
    exact hk.store rfl (by simp [Pc.target]) (fun _ => by simp [hpc, Pc.ofInit])
      (update_ne_unused hst (by decide)) hk.parent

theorem InitSafe.nap (hk : InitSafe k) (hst : k.state init ≠ .unused)
    (h : k.napStep p (k.pc p) = some k') : InitSafe k' := by
  cases hpc : k.pc p <;> simp only [hpc, napStep, reduceCtorEq] at h
  case napScan expires i =>
    split_ifs at h <;> cases h <;>
      exact hk.store rfl (by simp [Pc.target]) (fun _ => by simp [hpc, Pc.ofInit]) hst hk.parent
  case napSleep =>
    cases h
    exact hk.store rfl (by simp [Pc.target]) (fun _ => by simp [hpc, Pc.ofInit])
      (update_ne_unused hst (by decide)) hk.parent
  all_goals
    cases h
    exact hk.store rfl (by simp [Pc.target]) (fun _ => by simp [hpc, Pc.ofInit]) hst hk.parent

theorem InitSafe.initProcess (hk : InitSafe k) (hst : k.state init ≠ .unused)
    (h : k.initStep p (k.pc p) = some k') : InitSafe k' := by
  cases hpc : k.pc p <;> simp only [hpc, initStep, reduceCtorEq] at h
  case initStart =>
    cases h
    exact hk.store rfl (by simp [Pc.target]) (fun _ _ => rfl) hst hk.parent
  case initScan i =>
    split_ifs at h with hi hz <;> cases h
    · have hne : (⟨i, hi⟩ : Slot) ≠ init := by
        intro hj
        simp [hj, hk.parent] at hz
      exact hk.store rfl (by simpa [Pc.target] using hne) (fun _ _ => rfl) hst hk.parent
    · exact hk.store rfl (by simp [Pc.target]) (fun _ _ => rfl) hst hk.parent
    · exact hk.store rfl (by simp [Pc.target]) (fun _ _ => rfl) (update_ne_unused hst (by decide))
        hk.parent
  case initReap j =>
    have hj : j ≠ init := hk.ne_init hpc rfl
    cases h
    exact hk.store rfl (by simp [Pc.target]) (fun _ _ => rfl) (update_ne_unused_of_ne hst hj) hk.parent
  case initYield =>
    cases h
    exact hk.store rfl (by simp [Pc.target]) (fun _ _ => rfl) hst hk.parent

theorem handleSignal_ne_unused (n sig : ℕ) (pending : BitVec 32) {st : ProcState} (printed : Bool)
    (hst : st ≠ .unused) : (handleSignal n sig pending st printed).state ≠ .unused := by
  induction n generalizing sig pending st printed with
  | zero => exact hst
  | succ n ih =>
      unfold handleSignal
      split
      · cases hs : sigaction sig with
        | ign => exact ih _ _ _ hst
        | dfl =>
            cases ha : defaultAction sig <;> simp only
            case stop | kill | core | term => decide
            case cont =>
              apply ih
              split_ifs
              · decide
              · exact hst
            case unknown => exact ih _ _ _ hst
      · exact ih _ _ _ hst

theorem InitSafe.sched {pc : SchedPc} (hk : InitSafe k) (hst : k.state init ≠ .unused)
    (h : k.schedStep pc = some k') : InitSafe k' := by
  cases pc with
  | scan i =>
      simp only [schedStep] at h
      split_ifs at h <;> cases h <;> exact hk.keep rfl hst hk.parent
  | signal p =>
      have hst' : Function.update k.state p (k.deliver p).state init ≠ .unused := by
        by_cases hp : p = init
        · subst hp
          rw [Function.update_self]
          exact handleSignal_ne_unused _ _ _ _ hst
        · exact update_ne_unused_of_ne hst hp
      simp only [schedStep] at h
      split_ifs at h <;> cases h <;> exact hk.keep rfl hst' hk.parent
  | handlerYield p =>
      cases h
      exact hk.keep rfl (update_ne_unused hst (by decide)) hk.parent
  | run p =>
      cases h
      exact hk.keep rfl (update_ne_unused hst (by decide)) hk.parent
  | back p =>
      simp only [schedStep] at h
      split_ifs at h <;> cases h
      · exact hk.keep rfl (update_ne_unused hst (by decide)) hk.parent
      · exact hk.keep rfl hst hk.parent
  | halt => cases h

theorem InitSafe.step (hk : InitSafe k) (h : Step k e k') : InitSafe k' := by
  unfold Step at h
  cases e with
  | boot =>
      simp only [Sys.step] at h
      split_ifs at h
      cases h
      refine hk.store rfl (by simp [Pc.target]) (fun _ _ => rfl) ?_ hk.parent
      simp [createInitialProcess]
  | run choice =>
      simp only [Sys.step] at h
      split at h
      case h_1 pc hcpu => exact hk.sched (hk.state (by simp [hcpu])) h
      case h_2 p hcpu =>
        have hst : k.state init ≠ .unused := hk.state (by simp [hcpu])
        rcases procStep_cases h with h | h | h | h | h | h
        · exact hk.alloc hst h
        · exact hk.exit hst h
        · exact hk.wait hst h
        · exact hk.kill hst h
        · exact hk.nap hst h
        · exact hk.initProcess hst h
      case h_3 => cases h
  | call c =>
      simp only [Sys.step] at h
      split at h
      case h_1 p hcpu =>
        split_ifs at h with huser
        cases h
        have hst : k.state init ≠ .unused := hk.state (by simp [hcpu])
        have hi : ∀ pc : Pc, (k.pc p).ofInit = true → pc.ofInit = true := by
          intro pc hpc
          simp [huser, Pc.ofInit] at hpc
        cases c
        case yield => exact hk.keep rfl (update_ne_unused hst (by decide)) hk.parent
        all_goals exact hk.store rfl (by simp [Pc.target]) (fun _ => hi _) hst hk.parent
      case h_2 => cases h
  | irq expired =>
      simp only [Sys.step] at h
      split_ifs at h with hirq
      cases h
      have hst : k.state init ≠ .unused := hk.state hirq.2.1
      obtain ⟨k₁, hw, h⟩ := timerIrq_cases (P := fun _ => True) trivial (by simp) expired
      have hpc : k₁.pc = k.pc := by rw [hw.rest]
      have hpar : k₁.parent init = none := by rw [hw.rest]; exact hk.parent
      have hst₁ : k₁.state init ≠ .unused := by
        cases hw.state init with
        | inl hs => rwa [hs]
        | inr hs => simp [hs.2]
      rcases h with h | ⟨p, -, -, h⟩ | h <;> rw [h]
      · exact hk.keep hpc hst₁ hpar
      · exact hk.keep hpc (update_ne_unused hst₁ (by decide)) hpar
      · exact hk.keep hpc hst₁ hpar

theorem powerOn_initSafe : InitSafe powerOn := by
  refine ⟨fun h => absurd rfl h, rfl, fun p => ?_, rfl⟩
  simp [powerOn, Pc.target]

/-! ## Parents and children -/

/-- `do_wait` by `p` has passed `c`, or sleeps. -/
def Waits (k : Kernel) (p c : Slot) : Prop :=
  (k.pc p).passed c = true ∨ (k.pc p = .waitAsleep ∧ k.state p = .sleeping)

structure WaitSafe (k : Kernel) : Prop where
  init : InitSafe k
  waits : ∀ p c, k.parent c = some p → Waits k p c → k.state c ≠ .zombie
  channel : ∀ p, k.pc p = .waitAsleep → k.channel p = some p
  closing : ∀ c, k.pc c = .exitWake ∨ k.pc c = .exitDone → k.cpu = .proc c ∧ k.intr = false
  woken : ∀ c p, k.pc c = .exitDone → k.parent c = some p → k.pc p = .waitAsleep →
    k.state p ≠ .sleeping

theorem WaitSafe.not_lostWakeup (hk : WaitSafe k) : ¬ LostWakeup k := by
  rintro ⟨p, c, hpc, hsleep, _, hpar, hz⟩
  exact hk.waits p c hpar (.inr ⟨hpc, hsleep⟩) hz

theorem powerOn_waitSafe : WaitSafe powerOn := by
  constructor
  · exact powerOn_initSafe
  all_goals simp [powerOn]

/-- Neither waiting nor about to become a zombie. -/
def Pc.Quiet (pc : Pc) : Prop :=
  (∀ c, pc.passed c = false) ∧ pc ≠ .waitAsleep ∧ pc ≠ .exitWake ∧ pc ≠ .exitDone

/-- No process is between the wakeup and the end of `do_exit`, apart from `p`. -/
def NoneCloses (k : Kernel) (p : Slot) : Prop :=
  ∀ c, c ≠ p → k.pc c ≠ .exitWake ∧ k.pc c ≠ .exitDone

theorem WaitSafe.noneCloses (hk : WaitSafe k) (hcpu : k.cpu = .proc p) : NoneCloses k p := by
  intro c hc
  constructor <;> intro hpc
  · have := (hk.closing c (.inl hpc)).1
    rw [hcpu] at this
    cases this
    exact hc rfl
  · have := (hk.closing c (.inr hpc)).1
    rw [hcpu] at this
    cases this
    exact hc rfl

/-- What a step of `p` may do to the others. -/
structure Mild (k k' : Kernel) (p : Slot) : Prop where
  zombie : ∀ c, k'.state c = .zombie → k.state c = .zombie
  sleeping : ∀ q, q ≠ p → k'.state q = .sleeping → k.state q = .sleeping
  parent : ∀ c q, k'.parent c = some q → k.parent c = some q ∨ q = p ∨ q = Sys.init
  channel : ∀ q, q ≠ p → k'.channel q = k.channel q

theorem ofInit_quiet {pc : Pc} (h : pc.ofInit = true) : pc.Quiet := by
  unfold Pc.ofInit at h
  split at h <;> simp_all [Pc.Quiet, Pc.passed]

theorem WaitSafe.waits_store {pc : Pc} (hk : WaitSafe k) (hi : InitSafe k') (hm : Mild k k' p)
    (hpc : k'.pc = Function.update k.pc p pc)
    (hp : ∀ c, k'.parent c = some p → Waits k' p c → k'.state c ≠ .zombie) (q c : Slot)
    (hpar : k'.parent c = some q) (hw : Waits k' q c) : k'.state c ≠ .zombie := by
  by_cases hq : q = p
  · subst hq
    exact hp c hpar hw
  · have hsame : k'.pc q = k.pc q := by rw [hpc, Function.update_of_ne hq]
    have hw' : Waits k q c := by
      rcases hw with hw | hw
      · exact .inl (hsame ▸ hw)
      · exact .inr ⟨hsame ▸ hw.1, hm.sleeping q hq hw.2⟩
    rcases hm.parent c q hpar with hpar | hpar | hpar
    · exact fun hz => hk.waits q c hpar hw' (hm.zombie c hz)
    · exact absurd hpar hq
    · subst hpar
      have hquiet := ofInit_quiet hi.ofInit
      rcases hw with hw | hw
      · simp [hquiet.1] at hw
      · exact absurd hw.1 hquiet.2.1

theorem WaitSafe.storeAny {pc : Pc} (hk : WaitSafe k) (hi : InitSafe k') (hno : NoneCloses k p)
    (hpc : k'.pc = Function.update k.pc p pc) (hm : Mild k k' p)
    (hp : ∀ c, k'.parent c = some p → Waits k' p c → k'.state c ≠ .zombie)
    (hchannel : pc = .waitAsleep → k'.channel p = some p)
    (hclosing : pc = .exitWake ∨ pc = .exitDone → k'.cpu = .proc p ∧ k'.intr = false)
    (hwoken : pc = .exitDone → ∀ q, k'.parent p = some q → k'.pc q = .waitAsleep →
      k'.state q ≠ .sleeping) : WaitSafe k' := by
  have hsame : ∀ q, q ≠ p → k'.pc q = k.pc q := fun q hq => by rw [hpc, Function.update_of_ne hq]
  have hself : k'.pc p = pc := by rw [hpc, Function.update_self]
  refine ⟨hi, hk.waits_store hi hm hpc hp, fun q hq => ?_, fun c hc => ?_, fun c q hc => ?_⟩
  · by_cases hqp : q = p
    · subst hqp
      exact hchannel (hself ▸ hq)
    · rw [hm.channel q hqp]
      exact hk.channel q (hsame q hqp ▸ hq)
  · by_cases hcp : c = p
    · subst hcp
      exact hclosing (hself ▸ hc)
    · rw [hsame c hcp] at hc
      rcases hc with hc | hc
      · exact absurd hc (hno c hcp).1
      · exact absurd hc (hno c hcp).2
  · by_cases hcp : c = p
    · subst hcp
      exact hwoken (hself ▸ hc) q
    · exact absurd (hsame c hcp ▸ hc) (hno c hcp).2

/-- A step to a statement that is neither in `do_wait` nor at the end of `do_exit`. -/
theorem WaitSafe.store {pc : Pc} (hk : WaitSafe k) (hi : InitSafe k') (hno : NoneCloses k p)
    (hpc : k'.pc = Function.update k.pc p pc) (hquiet : pc.Quiet) (hm : Mild k k' p) :
    WaitSafe k' := by
  obtain ⟨hpass, hasleep, hwake, hdone⟩ := hquiet
  refine hk.storeAny hi hno hpc hm (fun c _ hw => ?_) (fun h => absurd h hasleep) ?_
    (fun h => absurd h hdone)
  · rw [Waits, hpc, Function.update_self] at hw
    rcases hw with hw | hw
    · simp [hpass] at hw
    · exact absurd hw.1 hasleep
  · rintro (h | h)
    · exact absurd h hwake
    · exact absurd h hdone

/-- A step within `do_wait`, before the process sleeps. -/
theorem WaitSafe.storeScan {pc : Pc} (hk : WaitSafe k) (hi : InitSafe k') (hno : NoneCloses k p)
    (hpc : k'.pc = Function.update k.pc p pc) (hm : Mild k k' p)
    (hne : pc ≠ .waitAsleep ∧ pc ≠ .exitWake ∧ pc ≠ .exitDone)
    (hp : ∀ c, k'.parent c = some p → pc.passed c = true → k'.state c ≠ .zombie) :
    WaitSafe k' := by
  obtain ⟨hasleep, hwake, hdone⟩ := hne
  refine hk.storeAny hi hno hpc hm (fun c hc hw => ?_) (fun h => absurd h hasleep) ?_
    (fun h => absurd h hdone)
  · rw [Waits, hpc, Function.update_self] at hw
    rcases hw with hw | hw
    · exact hp c hc hw
    · exact absurd hw.1 hasleep
  · rintro (h | h)
    · exact absurd h hwake
    · exact absurd h hdone

/-- A step that stores no context, while nobody is at the end of `do_exit`. -/
theorem WaitSafe.keep (hk : WaitSafe k) (hi : InitSafe k')
    (hno : ∀ c, k.pc c ≠ .exitWake ∧ k.pc c ≠ .exitDone) (hpc : k'.pc = k.pc)
    (hz : ∀ c, k'.state c = .zombie → k.state c = .zombie)
    (hs : ∀ c, k'.state c = .sleeping → k.state c = .sleeping)
    (hpar : k'.parent = k.parent) (hch : k'.channel = k.channel) : WaitSafe k' := by
  refine ⟨hi, fun p c hp hw hzc => ?_, fun p hp => ?_, fun c hc => ?_, fun c p hc => ?_⟩
  · rw [hpar] at hp
    rw [Waits, hpc] at hw
    exact hk.waits p c hp (hw.imp_right fun h => ⟨h.1, hs p h.2⟩) (hz c hzc)
  · rw [hch]
    exact hk.channel p (hpc ▸ hp)
  · rw [hpc] at hc
    rcases hc with hc | hc
    · exact absurd hc (hno c).1
    · exact absurd hc (hno c).2
  · rw [hpc] at hc
    exact absurd hc (hno c).2

theorem Mild.of_eq (hst : k'.state = k.state) (hpar : k'.parent = k.parent)
    (hch : k'.channel = k.channel) : Mild k k' p := by
  refine ⟨?_, ?_, ?_, ?_⟩
  · rw [hst]; exact fun _ h => h
  · rw [hst]; exact fun _ _ h => h
  · rw [hpar]; exact fun _ _ h => .inl h
  · rw [hch]; exact fun _ _ => rfl

theorem update_eq_of_ne {st : Slot → ProcState} {j c : Slot} {v w : ProcState} (hv : v ≠ w)
    (h : Function.update st j v c = w) : st c = w := by
  by_cases hc : c = j
  · subst hc
    rw [Function.update_self] at h
    exact absurd h hv
  · rwa [Function.update_of_ne hc] at h

theorem Mild.update {j : Slot} {v : ProcState} (hv : v ≠ .zombie) (hs : v ≠ .sleeping ∨ j = p)
    (hst : k'.state = Function.update k.state j v) (hpar : k'.parent = k.parent)
    (hch : k'.channel = k.channel) : Mild k k' p := by
  refine ⟨fun c => ?_, fun q hq => ?_, ?_, ?_⟩
  · rw [hst]
    exact update_eq_of_ne hv
  · rw [hst]
    rcases hs with hs | hs
    · exact update_eq_of_ne hs
    · rw [Function.update_of_ne (hs ▸ hq)]
      exact id
  · rw [hpar]; exact fun _ _ h => .inl h
  · rw [hch]; exact fun _ _ => rfl

theorem wakeup_eq {channel : Option Slot} {c : Slot} {w : ProcState} (hw : w ≠ .ready)
    (h : (k.wakeup channel).state c = w) : k.state c = w := by
  simp only [wakeup] at h
  split_ifs at h
  · exact absurd h.symm hw
  · exact h

theorem Mild.wakeup {channel : Option Slot} (hst : k'.state = (k.wakeup channel).state)
    (hpar : k'.parent = k.parent) (hch : k'.channel = k.channel) : Mild k k' p := by
  refine ⟨fun c => ?_, fun q _ => ?_, ?_, ?_⟩
  · rw [hst]; exact wakeup_eq (by decide)
  · rw [hst]; exact wakeup_eq (by decide)
  · rw [hpar]; exact fun _ _ h => .inl h
  · rw [hch]; exact fun _ _ => rfl

/-! ## The steps -/

theorem WaitSafe.alloc {choice : Bool} (hk : WaitSafe k) (hi : InitSafe k') (hcpu : k.cpu = .proc p)
    (h : k.allocStep p choice (k.pc p) = some k') : WaitSafe k' := by
  have hno := hk.noneCloses hcpu
  cases hpc : k.pc p <;> simp only [hpc, allocStep, reduceCtorEq] at h
  case allocScan kind i =>
    split_ifs at h <;> cases h
    · exact hk.store hi hno rfl (by simp [Pc.Quiet, Pc.passed]) (.of_eq rfl rfl rfl)
    · exact hk.store hi hno rfl (by simp [Pc.Quiet, Pc.passed]) (.of_eq rfl rfl rfl)
    · cases kind <;>
        exact hk.store hi hno rfl (by simp [Pc.Quiet, Pc.passed]) (.of_eq rfl rfl rfl)
  case allocTake kind j =>
    cases h
    exact hk.store hi hno rfl (by simp [Pc.Quiet, Pc.passed])
      (.update (by decide) (.inl (by decide)) rfl rfl rfl)
  case allocPid kind j =>
    cases h
    exact hk.store hi hno rfl (by simp [Pc.Quiet, Pc.passed]) (.of_eq rfl rfl rfl)
  case allocCount kind j =>
    cases h
    exact hk.store hi hno rfl (by simp [Pc.Quiet, Pc.passed]) (.of_eq rfl rfl rfl)
  case allocFill kind j =>
    split_ifs at h <;> cases h
    · refine hk.store hi hno rfl (by simp [Pc.Quiet, Pc.passed])
        ⟨fun _ h => h, fun _ _ h => h, fun c q hc => ?_, fun _ _ => rfl⟩
      by_cases hcj : c = j
      · subst hcj
        simp only [Function.update_self, Option.some.injEq] at hc
        exact .inr (.inl hc.symm)
      · simp only [Function.update_of_ne hcj] at hc
        exact .inl hc
    · cases kind <;>
        exact hk.store hi hno rfl (by simp [Pc.Quiet, Pc.passed])
          (.update (by decide) (.inl (by decide)) rfl rfl rfl)
  case allocReady kind j =>
    have hk₁ : WaitSafe { k.goto j .user with state := Function.update k.state j .ready } := by
      have hi₁ := hk.init.ready (hk.init.state (by simp [hcpu])) (hk.init.ne_init hpc rfl)
      refine hk.store hi₁ (fun c _ => ?_) rfl (by simp [Pc.Quiet, Pc.passed])
        (.update (by decide) (.inl (by decide)) rfl rfl rfl)
      by_cases hc : c = p
      · simp [hc, hpc]
      · exact hno c hc
    have hno₁ := hk₁.noneCloses hcpu
    cases kind with
    | fork =>
        simp only at h
        split_ifs at h <;> cases h
        · exact hk₁.store hi hno₁ rfl (by simp [Pc.Quiet, Pc.passed]) (.of_eq rfl rfl rfl)
        · exact hk.store hi hno rfl (by simp [Pc.Quiet, Pc.passed]) (.of_eq rfl rfl rfl)
    | exec =>
        cases h
        exact hk₁.store hi hno₁ rfl (by simp [Pc.Quiet, Pc.passed]) (.of_eq rfl rfl rfl)

/-- The last store of `do_exit`: the parent has been woken, and has not passed the child. -/
theorem WaitSafe.becomeZombie (hk : WaitSafe k)
    (hi : InitSafe { k.goto p .dead with
      state := Function.update k.state p .zombie, cpu := .sched (.back p) })
    (hno : NoneCloses k p) (hpc : k.pc p = .exitDone)
    (hpassed : ∀ q, k.parent p = some q → (k.pc q).passed p = false) :
    WaitSafe { k.goto p .dead with
      state := Function.update k.state p .zombie, cpu := .sched (.back p) } := by
  have hold : ∀ q pc, (k.goto p .dead).pc q = pc → pc ≠ .dead → q ≠ p ∧ k.pc q = pc := by
    intro q pc h hpc'
    by_cases hq : q = p
    · subst hq
      simp only [goto, Function.update_self] at h
      exact absurd h.symm hpc'
    · simp only [goto, Function.update_of_ne hq] at h
      exact ⟨hq, h⟩
  refine ⟨hi, fun q c hc hw hz => ?_, fun q hq => ?_, fun c hc => ?_, fun c q hc => ?_⟩
  · have hq : q ≠ p := by
      rintro rfl
      simp [Waits, goto, Pc.passed] at hw
    have hw' : Waits k q c := by simpa [Waits, goto, hq] using hw
    by_cases hcp : c = p
    · subst hcp
      rcases hw' with hw' | hw'
      · simp [hpassed q hc] at hw'
      · exact hk.woken c q hpc hc hw'.1 hw'.2
    · simp only [Function.update_of_ne hcp] at hz
      exact hk.waits q c hc hw' hz
  · exact hk.channel q (hold q _ hq (by simp)).2
  · rcases hc with hc | hc
    · exact absurd (hold c _ hc (by simp)).2 (hno c (hold c _ hc (by simp)).1).1
    · exact absurd (hold c _ hc (by simp)).2 (hno c (hold c _ hc (by simp)).1).2
  · exact absurd (hold c _ hc (by simp)).2 (hno c (hold c _ hc (by simp)).1).2

theorem WaitSafe.exit {choice : Bool} (hk : WaitSafe k) (hi : InitSafe k') (hcpu : k.cpu = .proc p)
    (hu : Unpassed k (.run choice)) (h : k.exitStep p choice (k.pc p) = some k') : WaitSafe k' := by
  have hno := hk.noneCloses hcpu
  cases hpc : k.pc p <;> simp only [hpc, exitStep, reduceCtorEq] at h
  case exitScan status i =>
    split_ifs at h <;> cases h <;>
      exact hk.store hi hno rfl (by simp [Pc.Quiet, Pc.passed]) (.of_eq rfl rfl rfl)
  case exitAdopt status j =>
    cases h
    refine hk.store hi hno rfl (by simp [Pc.Quiet, Pc.passed])
      ⟨fun _ h => h, fun _ _ h => h, fun c q hc => ?_, fun _ _ => rfl⟩
    by_cases hcj : c = j
    · subst hcj
      simp only [Function.update_self, Option.some.injEq] at hc
      exact .inr (.inr hc.symm)
    · simp only [Function.update_of_ne hcj] at hc
      exact .inl hc
  case exitZombie status j =>
    split_ifs at h <;> cases h
    · exact hk.store hi hno rfl (by simp [Pc.Quiet, Pc.passed]) (.wakeup rfl rfl rfl)
    · exact hk.store hi hno rfl (by simp [Pc.Quiet, Pc.passed]) (.of_eq rfl rfl rfl)
  case exitClose status =>
    have hchoice : choice = false := by simpa [Unpassed, hcpu, hpc] using hu
    cases h
    refine hk.storeAny hi hno rfl (.of_eq rfl rfl rfl) (fun c _ hw => ?_) (fun h => by cases h)
      (fun _ => ⟨hcpu, hchoice⟩) (fun h => by cases h)
    simp [Waits, goto, Pc.passed] at hw
  case exitWake =>
    have hcl := hk.closing p (.inl hpc)
    cases h
    refine hk.storeAny hi hno rfl (.wakeup rfl rfl rfl) (fun c _ hw => ?_) (fun h => by cases h)
      (fun _ => hcl) (fun _ q hq hqpc hsleep => ?_)
    · simp [Waits, goto, Pc.passed] at hw
    · have hqp : q ≠ p := by
        rintro rfl
        simp [goto] at hqpc
      have hqpc' : k.pc q = .waitAsleep := by simpa [goto, wakeup, hqp] using hqpc
      have hch : k.channel q = k.parent p := (hk.channel q hqpc').trans hq.symm
      have hs : k.state q = .sleeping := wakeup_eq (by decide) hsleep
      simp [goto, wakeup, hch, hs] at hsleep
  case exitDone =>
    have hpassed : ∀ q, k.parent p = some q → (k.pc q).passed p = false := by
      simpa [Unpassed, hcpu, hpc] using hu
    cases h
    exact hk.becomeZombie hi hno hpc hpassed

theorem WaitSafe.wait (hk : WaitSafe k) (hi : InitSafe k') (hcpu : k.cpu = .proc p)
    (h : k.waitStep p (k.pc p) = some k') : WaitSafe k' := by
  have hno := hk.noneCloses hcpu
  cases hpc : k.pc p <;> simp only [hpc, waitStep, reduceCtorEq] at h
  case waitScan haveKids i =>
    have hold : ∀ c, k.parent c = some p → c < i → k.state c ≠ .zombie := by
      intro c hc hci
      exact hk.waits p c hc (.inl (by simpa [hpc, Pc.passed] using hci))
    split_ifs at h with hlt hpar hkids <;> cases h
    · refine hk.storeScan hi hno rfl (.of_eq rfl rfl rfl) (by simp) fun c hc hci => ?_
      have hlt : c < ⟨i, hlt⟩ := by simpa [Pc.passed] using hci
      exact hold c hc hlt
    · refine hk.storeScan hi hno rfl (.of_eq rfl rfl rfl) (by simp) fun c hc hci => ?_
      have hne : c ≠ ⟨i, hlt⟩ := by
        intro hci
        exact hpar (hci ▸ hc)
      have hci' : (c : ℕ) < i + 1 := by simpa [Pc.passed] using hci
      have hne' : (c : ℕ) ≠ i := fun h => hne (Fin.ext h)
      exact hold c hc (by omega)
    · refine hk.storeScan hi hno rfl (.of_eq rfl rfl rfl) (by simp) fun c hc _ => ?_
      exact hold c hc (lt_of_lt_of_le c.isLt (not_lt.mp hlt))
    · exact hk.store hi hno rfl (by simp [Pc.Quiet, Pc.passed]) (.of_eq rfl rfl rfl)
  case waitCheck j =>
    split_ifs at h with hz <;> cases h
    · exact hk.store hi hno rfl (by simp [Pc.Quiet, Pc.passed]) (.of_eq rfl rfl rfl)
    · refine hk.storeScan hi hno rfl (.of_eq rfl rfl rfl) (by simp) fun c hc hcj => ?_
      by_cases hcj' : c = j
      · exact hcj' ▸ hz
      · have hlt : (c : ℕ) < j + 1 := by simpa [Pc.passed] using hcj
        have hne : (c : ℕ) ≠ j := fun h => hcj' (Fin.ext h)
        have hclt : c < j := Fin.lt_def.mpr (by omega)
        exact hk.waits p c hc (.inl (by simpa [hpc, Pc.passed] using hclt))
  case waitReap j =>
    cases h
    exact hk.store hi hno rfl (by simp [Pc.Quiet, Pc.passed])
      (.update (by decide) (.inl (by decide)) rfl rfl rfl)
  case waitPid j =>
    cases h
    exact hk.store hi hno rfl (by simp [Pc.Quiet, Pc.passed]) (.of_eq rfl rfl rfl)
  case waitParent j =>
    cases h
    refine hk.store hi hno rfl (by simp [Pc.Quiet, Pc.passed])
      ⟨fun _ h => h, fun _ _ h => h, fun c q hc => ?_, fun _ _ => rfl⟩
    by_cases hcj : c = j
    · subst hcj
      simp [Function.update_self] at hc
    · simp only [Function.update_of_ne hcj] at hc
      exact .inl hc
  case waitSleep =>
    cases h
    have hm : Mild k { k.goto p .waitAsleep with
        intr := false, channel := Function.update k.channel p (some p)
        state := Function.update k.state p .sleeping, cpu := .sched (.back p) } p := by
      refine ⟨fun c => update_eq_of_ne (by decide), fun q hq => ?_, fun _ _ h => .inl h,
        fun q hq => Function.update_of_ne hq ..⟩
      simp only [Function.update_of_ne hq]
      exact id
    refine hk.storeAny hi hno rfl hm (fun c hc _ hz => ?_) (fun _ => Function.update_self ..)
      (by simp) (by simp)
    exact hk.waits p c hc (.inl (by rw [hpc]; rfl)) (hm.zombie c hz)
  case waitAsleep =>
    cases h
    exact hk.store hi hno rfl (by simp [Pc.Quiet, Pc.passed])
      ⟨fun _ h => h, fun _ _ h => h, fun _ _ h => .inl h, fun q hq => Function.update_of_ne hq ..⟩

theorem WaitSafe.kill (hk : WaitSafe k) (hi : InitSafe k') (hcpu : k.cpu = .proc p)
    (h : k.killStep p (k.pc p) = some k') : WaitSafe k' := by
  have hno := hk.noneCloses hcpu
  cases hpc : k.pc p <;> simp only [hpc, killStep, reduceCtorEq] at h
  case killFind pid sig =>
    split_ifs at h
    · cases h
      exact hk.store hi hno rfl (by simp [Pc.Quiet, Pc.passed]) (.of_eq rfl rfl rfl)
    · split at h <;> cases h <;>
        exact hk.store hi hno rfl (by simp [Pc.Quiet, Pc.passed]) (.of_eq rfl rfl rfl)
  case killMark sig j =>
    cases h
    exact hk.store hi hno rfl (by simp [Pc.Quiet, Pc.passed]) (.of_eq rfl rfl rfl)
  case killTest j =>
    split_ifs at h <;> cases h <;>
      exact hk.store hi hno rfl (by simp [Pc.Quiet, Pc.passed]) (.of_eq rfl rfl rfl)
  case killWake j =>
    cases h
    exact hk.store hi hno rfl (by simp [Pc.Quiet, Pc.passed])
      (.update (by decide) (.inl (by decide)) rfl rfl rfl)

theorem WaitSafe.nap (hk : WaitSafe k) (hi : InitSafe k') (hcpu : k.cpu = .proc p)
    (h : k.napStep p (k.pc p) = some k') : WaitSafe k' := by
  have hno := hk.noneCloses hcpu
  cases hpc : k.pc p <;> simp only [hpc, napStep, reduceCtorEq] at h
  case napScan expires i =>
    split_ifs at h <;> cases h <;>
      exact hk.store hi hno rfl (by simp [Pc.Quiet, Pc.passed]) (.of_eq rfl rfl rfl)
  case napSleep =>
    cases h
    exact hk.store hi hno rfl (by simp [Pc.Quiet, Pc.passed])
      (.update (by decide) (.inr rfl) rfl rfl rfl)
  all_goals
    cases h
    exact hk.store hi hno rfl (by simp [Pc.Quiet, Pc.passed]) (.of_eq rfl rfl rfl)

theorem WaitSafe.initProcess (hk : WaitSafe k) (hi : InitSafe k') (hcpu : k.cpu = .proc p)
    (h : k.initStep p (k.pc p) = some k') : WaitSafe k' := by
  have hno := hk.noneCloses hcpu
  cases hpc : k.pc p <;> simp only [hpc, initStep, reduceCtorEq] at h
  case initScan i =>
    split_ifs at h <;> cases h
    · exact hk.store hi hno rfl (by simp [Pc.Quiet, Pc.passed]) (.of_eq rfl rfl rfl)
    · exact hk.store hi hno rfl (by simp [Pc.Quiet, Pc.passed]) (.of_eq rfl rfl rfl)
    · exact hk.store hi hno rfl (by simp [Pc.Quiet, Pc.passed])
        (.update (by decide) (.inl (by decide)) rfl rfl rfl)
  case initReap j =>
    cases h
    exact hk.store hi hno rfl (by simp [Pc.Quiet, Pc.passed])
      (.update (by decide) (.inl (by decide)) rfl rfl rfl)
  all_goals
    cases h
    exact hk.store hi hno rfl (by simp [Pc.Quiet, Pc.passed]) (.of_eq rfl rfl rfl)

theorem handleSignal_of_not_yields (n sig : ℕ) (pending : BitVec 32) (st : ProcState)
    (printed : Bool) (h : (handleSignal n sig pending st printed).yields = false) :
    (handleSignal n sig pending st printed).state = st ∨
      (handleSignal n sig pending st printed).state = .ready := by
  induction n generalizing sig pending st printed with
  | zero => exact .inl rfl
  | succ n ih =>
      unfold handleSignal at h ⊢
      split at h
      case isFalse hbit =>
        rw [if_neg hbit]
        exact ih _ _ _ _ h
      case isTrue hbit =>
        rw [if_pos hbit]
        cases hs : sigaction sig with
        | ign =>
            simp only [hs] at h ⊢
            exact ih _ _ _ _ h
        | dfl =>
            cases ha : defaultAction sig <;> simp only [hs, ha, Bool.true_eq_false] at h ⊢
            case cont =>
              rcases ih _ _ _ _ h with hr | hr
              · rw [hr]
                split_ifs
                · exact .inr rfl
                · exact .inl rfl
              · exact .inr hr
            case unknown => exact ih _ _ _ _ h

theorem WaitSafe.sched {pc : SchedPc} {choice : Bool} (hk : WaitSafe k) (hi : InitSafe k')
    (hcpu : k.cpu = .sched pc) (hu : Unpassed k (.run choice)) (h : k.schedStep pc = some k') :
    WaitSafe k' := by
  have hno : ∀ c, k.pc c ≠ .exitWake ∧ k.pc c ≠ .exitDone := by
    intro c
    constructor <;> intro hc
    · simpa [hcpu] using (hk.closing c (.inl hc)).1
    · simpa [hcpu] using (hk.closing c (.inr hc)).1
  have hstore : ∀ (p c : Slot) (w v : ProcState), v ≠ w → Function.update k.state p v c = w →
      k.state c = w := fun _ _ _ _ hv => update_eq_of_ne hv
  cases pc with
  | scan i =>
      simp only [schedStep] at h
      split_ifs at h <;> cases h <;>
        exact hk.keep hi hno rfl (fun _ h => h) (fun _ h => h) rfl rfl
  | signal p =>
      have hy : (k.deliver p).yields = false := by simpa [Unpassed, hcpu] using hu
      have hst : ∀ c w, w ≠ .ready → Function.update k.state p (k.deliver p).state c = w →
          k.state c = w := by
        intro c w hw hc
        rcases handleSignal_of_not_yields _ _ _ _ _ hy with hd | hd <;> rw [deliver, hd] at hc
        · rwa [Function.update_eq_self] at hc
        · exact update_eq_of_ne hw.symm hc
      simp only [schedStep, hy, Bool.false_eq_true, if_false] at h
      split_ifs at h <;> cases h <;>
        exact hk.keep hi hno rfl (fun c => hst c _ (by decide)) (fun c => hst c _ (by decide)) rfl rfl
  | handlerYield p =>
      cases h
      exact hk.keep hi hno rfl (fun c => hstore p c _ _ (by decide))
        (fun c => hstore p c _ _ (by decide)) rfl rfl
  | run p =>
      cases h
      exact hk.keep hi hno rfl (fun c => hstore p c _ _ (by decide))
        (fun c => hstore p c _ _ (by decide)) rfl rfl
  | back p =>
      simp only [schedStep] at h
      split_ifs at h <;> cases h
      · exact hk.keep hi hno rfl (fun c => hstore p c _ _ (by decide))
          (fun c => hstore p c _ _ (by decide)) rfl rfl
      · exact hk.keep hi hno rfl (fun _ h => h) (fun _ h => h) rfl rfl
  | halt => cases h

theorem WaitSafe.call {c : Call} (hk : WaitSafe k) (hi : InitSafe (k.startCall p c))
    (hcpu : k.cpu = .proc p) (huser : k.pc p = .user) : WaitSafe (k.startCall p c) := by
  have hno := hk.noneCloses hcpu
  cases c
  case yield =>
    refine hk.keep hi (fun c => ?_) rfl (fun c => update_eq_of_ne (by decide))
      (fun c => update_eq_of_ne (by decide)) rfl rfl
    by_cases hc : c = p
    · simp [hc, huser]
    · exact hno c hc
  all_goals exact hk.store hi hno rfl (by simp [Pc.Quiet, Pc.passed]) (.of_eq rfl rfl rfl)

theorem WaitSafe.irq {expired : Bool} (hk : WaitSafe k) (hi : InitSafe (k.timerIrq expired))
    (hintr : k.intr = true) : WaitSafe (k.timerIrq expired) := by
  have hno : ∀ c, k.pc c ≠ .exitWake ∧ k.pc c ≠ .exitDone := by
    intro c
    constructor <;> intro hc
    · simpa [hintr] using (hk.closing c (.inl hc)).2
    · simpa [hintr] using (hk.closing c (.inr hc)).2
  obtain ⟨k₁, hw, h⟩ := timerIrq_cases (P := fun _ => True) trivial (by simp) expired
  have hst : ∀ c w, w ≠ .ready → k₁.state c = w → k.state c = w := by
    intro c w hne hc
    cases hw.state c with
    | inl hs => rwa [hs] at hc
    | inr hs =>
        rw [hs.2] at hc
        exact absurd hc.symm hne
  have hpc : k₁.pc = k.pc := by rw [hw.rest]
  have hpar : k₁.parent = k.parent := by rw [hw.rest]
  have hch : k₁.channel = k.channel := by rw [hw.rest]
  rcases h with h | ⟨p, -, -, h⟩ | h <;> rw [h] at hi ⊢
  · exact hk.keep hi hno hpc (fun c => hst c _ (by decide)) (fun c => hst c _ (by decide)) hpar hch
  · exact hk.keep hi hno hpc (fun c hc => hst c _ (by decide) (update_eq_of_ne (by decide) hc))
      (fun c hc => hst c _ (by decide) (update_eq_of_ne (by decide) hc)) hpar hch
  · exact hk.keep hi hno hpc (fun c => hst c _ (by decide)) (fun c => hst c _ (by decide)) hpar hch

theorem WaitSafe.step (hk : WaitSafe k) (hu : Unpassed k e) (h : Step k e k') : WaitSafe k' := by
  have hi : InitSafe k' := hk.init.step h
  unfold Step at h
  cases e with
  | boot =>
      simp only [Sys.step] at h
      split_ifs at h with hboot
      cases h
      refine hk.store hi (fun c _ => ?_) rfl (by simp [Pc.Quiet, Pc.passed])
        (.update (by decide) (.inl (by decide)) rfl rfl rfl)
      constructor <;> intro hc
      · simpa [hboot] using (hk.closing c (.inl hc)).1
      · simpa [hboot] using (hk.closing c (.inr hc)).1
  | run choice =>
      simp only [Sys.step] at h
      split at h
      case h_1 pc hcpu => exact hk.sched hi hcpu hu h
      case h_2 p hcpu =>
        rcases procStep_cases h with h | h | h | h | h | h
        · exact hk.alloc hi hcpu h
        · exact hk.exit hi hcpu hu h
        · exact hk.wait hi hcpu h
        · exact hk.kill hi hcpu h
        · exact hk.nap hi hcpu h
        · exact hk.initProcess hi hcpu h
      case h_3 => cases h
  | call c =>
      simp only [Sys.step] at h
      split at h
      case h_1 p hcpu =>
        split_ifs at h with huser
        cases h
        exact hk.call hi hcpu huser
      case h_2 => cases h
  | irq expired =>
      simp only [Sys.step] at h
      split_ifs at h with hirq
      cases h
      exact hk.irq hi hirq.1

theorem no_lost_wakeup {u : Kernel} {tr : List (Kernel × Event)} (h : Trace Step powerOn tr u)
    (hu : ∀ x ∈ tr, Unpassed x.1 x.2) : Throughout (fun k => ¬ LostWakeup k) tr u := by
  have hsafe := h.throughout_of (fun _ _ _ hk hu hs => WaitSafe.step hk hu hs) powerOn_waitSafe hu
  exact ⟨fun x hx => (hsafe.1 x hx).not_lostWakeup, hsafe.2.not_lostWakeup⟩

def slot2 : Slot := ⟨2, two_lt_numProc⟩

/-- Slot 1 waits, and is asleep when its child exits. -/
theorem no_lost_wakeup_asleep : ∃ u : Kernel, ∃ tr : List (Kernel × Event),
    Trace Step powerOn tr u ∧ u.state slot1 = .ready ∧ u.state slot2 = .zombie ∧
      Throughout (fun k => ¬ LostWakeup k) tr u := by
  let es := forkRun ++ [.call .wait] ++ runs true 35 ++ runs false 4 ++ [.call (.exit 0)] ++
    runs false 36
  have hes : ((exec step powerOn es).any fun u =>
      u.state slot1 = .ready && (u.state slot2 = .zombie && (history step powerOn es).all fun x =>
        Unpassed x.1 x.2)) = true := by
    decide +kernel
  obtain ⟨u, hu, hes⟩ := (Option.any_eq_true ..).mp hes
  obtain ⟨hr, hes⟩ := Bool.and_eq_true_iff.mp hes
  obtain ⟨hz, hall⟩ := Bool.and_eq_true_iff.mp hes
  have hund : ∀ x ∈ history step powerOn es, Unpassed x.1 x.2 :=
    fun x hx => of_decide_eq_true (List.all_eq_true.mp hall x hx)
  exact ⟨u, _, exec_trace hu, of_decide_eq_true hr, of_decide_eq_true hz,
    no_lost_wakeup (exec_trace hu) hund⟩

/-- Slot 1 passes its child in slot 2, is preempted while the child exits, and sleeps. -/
theorem lost_wakeup_preempted : ¬ ∀ (u : Kernel) (tr : List (Kernel × Event)),
    Trace Step powerOn tr u → Throughout (fun k => ¬ LostWakeup k) tr u := by
  let es := forkRun ++ [.call .wait] ++ runs true 4 ++ [.irq true] ++ runs false 4 ++
    [.call (.exit 0)] ++ runs false 67 ++ [.irq false] ++ runs false 72
  intro h
  have hes : ((exec step powerOn es).any fun u =>
      u.pc slot1 = .waitAsleep && (u.state slot1 = .sleeping && (u.channel slot1 = some slot1 &&
        (u.parent slot2 = some slot1 && u.state slot2 = .zombie)))) = true := by
    decide +kernel
  obtain ⟨u, hu, hes⟩ := (Option.any_eq_true ..).mp hes
  have hlost : LostWakeup u := ⟨slot1, slot2, by simpa using hes⟩
  exact (h u _ (exec_trace hu)).2 hlost

end Ferrite.Sys
