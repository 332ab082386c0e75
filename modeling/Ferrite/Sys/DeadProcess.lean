import Ferrite.Sys.Process
import Ferrite.Library.Runs

/-!
# Dead processes

The state of a slot goes from `UNUSED` over `EMBRYO` to the states of a live
process, from there to `ZOMBIE`, and back to `UNUSED` when it is reaped. Three
statements store `READY` without looking at what is there: `wake_up_process`,
the `yield` of a default signal handler, and the last one of `do_kill`, which
looked before it could be preempted. A run in which none of them meets a dead
slot keeps to the cycle.

The steps fall into five kinds (`Effect`), and the invariant follows from the kind.
-/
namespace Ferrite.Sys
open Runs Kernel

/-- The states of a process that `schedule` may run or run again. -/
def ProcState.Alive (st : ProcState) : Prop := st = .sleeping ∨ st = .ready ∨ st = .running

instance (st : ProcState) : Decidable st.Alive := inferInstanceAs (Decidable (_ ∨ _ ∨ _))

@[simp] theorem alive_sleeping : ProcState.Alive .sleeping := .inl rfl
@[simp] theorem alive_ready : ProcState.Alive .ready := .inr (.inl rfl)
@[simp] theorem alive_running : ProcState.Alive .running := .inr (.inr rfl)
@[simp] theorem not_alive_unused : ¬ ProcState.Alive .unused := by decide
@[simp] theorem not_alive_embryo : ¬ ProcState.Alive .embryo := by decide
@[simp] theorem not_alive_zombie : ¬ ProcState.Alive .zombie := by decide

/-- The step is the store of `EMBRYO` by which `__alloc_proc` takes the slot. -/
def Takes (k : Kernel) (e : Event) (j : Slot) : Prop :=
  ∃ p kind choice, e = .run choice ∧ k.cpu = .proc p ∧ k.pc p = .allocTake kind j

/-- The step is the last one of `do_fork` or `do_exec` for the slot, or
`create_initial_process`. -/
def Starts (k : Kernel) (e : Event) (j : Slot) : Prop :=
  (∃ p kind choice, e = .run choice ∧ k.cpu = .proc p ∧ k.pc p = .allocReady kind j) ∨
    (e = .boot ∧ j = init)

/-- What a step may do to a slot that is not alive. -/
structure KeepsDead (k : Kernel) (e : Event) (k' : Kernel) (j : Slot) : Prop where
  zombie : k.state j = .zombie → k'.state j = .zombie ∨ k'.state j = .unused
  unused : k.state j = .unused → k'.state j = .unused ∨ Takes k e j ∨ (k.cpu = .boot ∧ Starts k e j)
  embryo : k.state j = .embryo → k'.state j = .embryo ∨ k'.state j = .unused ∨ Starts k e j

/-- What a process found before it could be preempted still holds. -/
def StillHolds (k : Kernel) : Pc → Prop
  | .allocTake _ j => k.state j = .unused
  | .killWake j => (k.state j).Alive
  | .waitReap j | .initReap j => k.state j = .zombie
  | _ => True

/-- The step stores nothing over a slot that died or was taken behind its back:
a timer that fires and `do_kill` meet a live process, no fatal signal is
delivered, and a slot that was found free or dead still is. -/
def Undisturbed (k : Kernel) : Event → Prop
  | .irq _ => ∀ i, ∀ timer ∈ k.timers i, timer.expires ≤ k.ticks + 1 → (k.state timer.data).Alive
  | .run _ =>
      match k.cpu with
      | .sched (.signal p) => (k.deliver p).state ≠ .zombie
      | .proc p => StillHolds k (k.pc p)
      | _ => True
  | _ => True

instance (k : Kernel) (pc : Pc) : Decidable (StillHolds k pc) := by
  unfold StillHolds
  split <;> infer_instance

instance (k : Kernel) (e : Event) : Decidable (Undisturbed k e) := by
  unfold Undisturbed
  split
  · infer_instance
  · split <;> infer_instance
  · infer_instance

/-- The slot that a process has taken and not started yet. -/
def Pc.claims : Pc → Option Slot
  | .allocPid _ j | .allocCount _ j | .allocFill _ j | .allocReady _ j => some j
  | _ => none

/-- The steps that concern live processes and reaping only. -/
def Ordinary (old new : ProcState) : Prop :=
  new = old ∨ (old.Alive ∧ (new.Alive ∨ new = .zombie)) ∨ (old = .zombie ∧ new = .unused)

instance (old new : ProcState) : Decidable (Ordinary old new) :=
  inferInstanceAs (Decidable (_ ∨ _ ∨ _))

/-- Whoever has the processor, or is about to get it, is alive. -/
def Running (k : Kernel) : Prop :=
  match k.cpu with
  | .boot => False
  | .proc p | .sched (.handlerYield p) => (k.state p).Alive
  | .sched (.signal p) | .sched (.run p) => k.state p = .ready
  | _ => True

/-- The kinds of steps. -/
inductive Effect (k : Kernel) (e : Event) (k' : Kernel) : Prop
  | ordinary : (∀ j, Ordinary (k.state j) (k'.state j)) →
      (∀ p, (k'.pc p).claims = none ∨ (k'.pc p).claims = (k.pc p).claims) → Running k' →
      Effect k e k'
  | take (p j : Slot) : Takes k e j → k.state j = .unused → (k.pc p).claims = none →
      k'.state = Function.update k.state j .embryo →
      (k'.pc p).claims = some j → (∀ q, q ≠ p → (k'.pc q).claims = (k.pc q).claims) →
      k.cpu = .proc p → k'.cpu = .proc p → Effect k e k'
  | drop (p j : Slot) : (k.pc p).claims = some j → k'.state = Function.update k.state j .unused →
      (k'.pc p).claims = none → (∀ q, q ≠ p → (k'.pc q).claims = (k.pc q).claims) →
      k.cpu = .proc p → k'.cpu = .proc p ∨ k'.cpu = .lost → Effect k e k'
  | start (p j : Slot) : Starts k e j → (k.pc p).claims = some j →
      k'.state = Function.update k.state j .ready →
      (k'.pc p).claims = none → (k'.pc j).claims = none →
      (∀ q, q ≠ p → q ≠ j → (k'.pc q).claims = (k.pc q).claims) →
      k.cpu = .proc p → k'.cpu = .proc p → Effect k e k'
  | boot : e = .boot → k.cpu = .boot → k'.state = Function.update k.state init .ready →
      (∀ p, (k'.pc p).claims = none ∨ (k'.pc p).claims = (k.pc p).claims) →
      k'.cpu = .sched (.scan 0) → Effect k e k'

/-- The invariant of the undisturbed runs. -/
structure Alloc (k : Kernel) : Prop where
  running : k.cpu = .boot ∨ Running k
  boot : k.cpu = .boot → ∀ j, k.state j = .unused ∧ (k.pc j).claims = none
  embryo : ∀ p j, (k.pc p).claims = some j → k.state j = .embryo
  unique : ∀ p q j, (k.pc p).claims = some j → (k.pc q).claims = some j → p = q

variable {k k' : Kernel} {e : Event} {p : Slot}

theorem Ordinary.refl (st : ProcState) : Ordinary st st := .inl rfl

theorem ordinary_of_alive {old new : ProcState} (h : old.Alive) (h' : new.Alive) :
    Ordinary old new := .inr (.inl ⟨h, .inl h'⟩)

theorem ordinary_update {v : ProcState} {j : Slot} (h : Ordinary (k.state j) v) (i : Slot) :
    Ordinary (k.state i) (Function.update k.state j v i) := by
  by_cases hi : i = j
  · subst hi
    rwa [Function.update_self]
  · rw [Function.update_of_ne hi]
    exact .refl _

theorem claims_update {pc : Pc} (h : pc.claims = none ∨ pc.claims = (k.pc p).claims) (q : Slot) :
    (Function.update k.pc p pc q).claims = none ∨
      (Function.update k.pc p pc q).claims = (k.pc q).claims := by
  by_cases hq : q = p
  · subst hq
    rwa [Function.update_self]
  · rw [Function.update_of_ne hq]
    exact .inr rfl

theorem ordinary_wakeup (channel : Option Slot) (j : Slot) :
    Ordinary (k.state j) ((k.wakeup channel).state j) := by
  simp only [wakeup]
  split_ifs with h
  · rw [h.2]
    exact ordinary_of_alive (by simp) (by simp)
  · exact .refl _

/-! ## Interrupts -/

namespace Kernel

theorem Woken.ordinary (h : Woken ProcState.Alive k k') (j : Slot) :
    Ordinary (k.state j) (k'.state j) := by
  cases h.state j with
  | inl hj => rw [hj]; exact .refl _
  | inr hj => rw [hj.2]; exact ordinary_of_alive hj.1 alive_ready

theorem Woken.alive {P : ProcState → Prop} (h : Woken P k k') {j : Slot}
    (hj : (k.state j).Alive) : (k'.state j).Alive := by
  cases h.state j with
  | inl hs => rwa [hs]
  | inr hs => rw [hs.2]; exact alive_ready

theorem Woken.ready {P : ProcState → Prop} (h : Woken P k k') {j : Slot}
    (hj : k.state j = .ready) : k'.state j = .ready := by
  cases h.state j with
  | inl hs => rw [hs, hj]
  | inr hs => exact hs.2

theorem Woken.running {P : ProcState → Prop} (h : Woken P k k') (hk : Running k) :
    Running k' := by
  unfold Running at hk ⊢
  have hcpu : k'.cpu = k.cpu := by rw [h.rest]
  rw [hcpu]
  split at hk
  · exact hk
  · exact h.alive hk
  · exact h.alive hk
  · exact h.ready hk
  · exact h.ready hk
  · trivial

end Kernel

theorem timerIrq_effect {expired : Bool} (hk : Running k) (hu : Undisturbed k (.irq expired)) :
    Effect k (.irq expired) (k.timerIrq expired) := by
  obtain ⟨k₁, hw, hirq⟩ := timerIrq_cases alive_ready hu expired
  have hr : Running k₁ := hw.running (by simpa [Running] using hk)
  have hpc : k₁.pc = k.pc := by rw [hw.rest]
  rcases hirq with hirq | ⟨p, -, hp, hirq⟩ | hirq
  · rw [hirq]
    exact .ordinary hw.ordinary (fun p => by rw [hpc]; exact .inr rfl) hr
  · have ha : (k.state p).Alive := by
      cases hw.state p with
      | inl h => rw [← h, hp]; exact alive_running
      | inr h => exact h.1
    rw [hirq]
    refine .ordinary (fun j => ?_) (fun q => ?_) (by simp [Running, yieldBy])
    · by_cases hj : j = p
      · subst hj
        simpa [yieldBy] using ordinary_of_alive ha alive_ready
      · simpa [yieldBy, hj] using hw.ordinary j
    · simp [yieldBy, hpc]
  · rw [hirq]
    exact .ordinary hw.ordinary (fun p => by rw [← hpc]; exact .inr rfl) (by simp [Running])

/-! ## The scheduler -/

theorem handleSignal_ready (n sig : ℕ) (pending : BitVec 32) (printed : Bool) {r : Delivery}
    (hr : handleSignal n sig pending .ready printed = r) :
    (r.yields = false ∧ r.state = .ready) ∨
      (r.yields = true ∧ (r.state = .sleeping ∨ r.state = .zombie)) := by
  induction n generalizing sig pending printed with
  | zero => simp [← hr, handleSignal]
  | succ n ih =>
      unfold handleSignal at hr
      split at hr
      · cases hs : sigaction sig with
        | ign =>
            simp only [hs] at hr
            exact ih _ _ _ hr
        | dfl =>
            cases ha : defaultAction sig <;> simp only [hs, ha, reduceCtorEq, if_false] at hr
            case stop => simp [← hr]
            case kill | core | term => simp [← hr]
            case cont | unknown => exact ih _ _ _ hr
      · exact ih _ _ _ hr

theorem schedStep_effect {pc : SchedPc} {choice : Bool} (hk : Running k) (hcpu : k.cpu = .sched pc)
    (hu : Undisturbed k (.run choice)) (h : k.schedStep pc = some k') :
    Effect k (.run choice) k' := by
  cases pc with
  | scan i =>
      simp only [schedStep] at h
      split_ifs at h with hi hst <;> cases h
      · exact .ordinary (fun _ => .refl _) (fun _ => .inr rfl) hst
      · exact .ordinary (fun _ => .refl _) (fun _ => .inr rfl) trivial
      · exact .ordinary (fun _ => .refl _) (fun _ => .inr rfl) trivial
  | signal p =>
      have hp : k.state p = .ready := by simpa [Running, hcpu] using hk
      have hz : (k.deliver p).state ≠ .zombie := by simpa [Undisturbed, hcpu] using hu
      have hd := handleSignal_ready 31 1 (k.pending p) false
        (show _ = k.deliver p by rw [deliver, hp])
      have hord : Ordinary (k.state p) (k.deliver p).state := by
        rw [hp]
        rcases hd with hd | hd
        · rw [hd.2]; exact .refl _
        · rw [hd.2.resolve_right hz]; exact ordinary_of_alive alive_ready alive_sleeping
      simp only [schedStep] at h
      rcases hd with ⟨hy, hs⟩ | ⟨hy, hs⟩
      · simp only [hy, hs, Bool.false_eq_true, if_false, ne_eq, not_true_eq_false, false_and] at h
        cases h
        refine .ordinary (fun j => ?_) (fun _ => .inr rfl) (by simp [Running])
        exact ordinary_update (by rw [hp]; exact .refl _) j
      · simp only [hy, if_true] at h
        cases h
        refine .ordinary (ordinary_update hord) (fun _ => .inr rfl) ?_
        simp [Running, hs.resolve_right hz]
  | handlerYield p =>
      have hp : (k.state p).Alive := by simpa [Running, hcpu] using hk
      cases h
      exact .ordinary (ordinary_update (ordinary_of_alive hp alive_ready)) (fun _ => .inr rfl)
        trivial
  | run p =>
      have hp : k.state p = .ready := by simpa [Running, hcpu] using hk
      cases h
      refine .ordinary (ordinary_update ?_) (fun _ => .inr rfl) (by simp [Running])
      rw [hp]
      exact ordinary_of_alive alive_ready alive_running
  | back p =>
      simp only [schedStep] at h
      split_ifs at h with hst <;> cases h
      · refine .ordinary (ordinary_update ?_) (fun _ => .inr rfl) trivial
        rw [hst]
        exact ordinary_of_alive alive_running alive_ready
      · exact .ordinary (fun _ => .refl _) (fun _ => .inr rfl) trivial
  | halt => cases h

/-! ## The processes -/

theorem alive_update {j : Slot} {v : ProcState} (hp : (k.state p).Alive) (hv : v.Alive) :
    (Function.update k.state j v p).Alive := by
  by_cases hpj : p = j
  · subst hpj
    rwa [Function.update_self]
  · rwa [Function.update_of_ne hpj]

/-- A step of a process that keeps the processor. -/
theorem effect_stay {pc : Pc} (hst : ∀ j, Ordinary (k.state j) (k'.state j))
    (hpc : k'.pc = Function.update k.pc p pc)
    (hc : pc.claims = none ∨ pc.claims = (k.pc p).claims)
    (hcpu : k'.cpu = .proc p) (hp : (k'.state p).Alive) : Effect k e k' := by
  refine .ordinary hst (fun q => ?_) (by simpa [Running, hcpu] using hp)
  rw [hpc]
  exact claims_update hc q

/-- A step of a process that switches to the scheduler. -/
theorem effect_switch {pc : Pc} (hst : ∀ j, Ordinary (k.state j) (k'.state j))
    (hpc : k'.pc = Function.update k.pc p pc)
    (hc : pc.claims = none ∨ pc.claims = (k.pc p).claims)
    (hcpu : k'.cpu = .sched (.back p)) : Effect k e k' := by
  refine .ordinary hst (fun q => ?_) (by simp [Running, hcpu])
  rw [hpc]
  exact claims_update hc q

theorem alive_wakeup {channel : Option Slot} (hp : (k.state p).Alive) :
    ((k.wakeup channel).state p).Alive := by
  simp only [wakeup]
  split_ifs
  · exact alive_ready
  · exact hp

theorem alive_reap {j : Slot} (hp : (k.state p).Alive) (hj : k.state j = .zombie) :
    (Function.update k.state j .unused p).Alive := by
  rwa [Function.update_of_ne]
  intro hpj
  rw [hpj, hj] at hp
  exact not_alive_zombie hp

theorem allocStep_effect {choice : Bool} (hk : Alloc k) (hp : (k.state p).Alive)
    (hcpu : k.cpu = .proc p) (hu : Undisturbed k (.run choice))
    (h : k.allocStep p choice (k.pc p) = some k') : Effect k (.run choice) k' := by
  cases hpc : k.pc p <;> simp only [hpc, allocStep, reduceCtorEq] at h
  case allocScan kind i =>
    split_ifs at h <;> cases h
    · exact effect_stay (fun _ => .refl _) rfl (.inl rfl) hcpu hp
    · exact effect_stay (fun _ => .refl _) rfl (.inl rfl) hcpu hp
    · cases kind
      · exact effect_stay (fun _ => .refl _) rfl (.inl rfl) hcpu hp
      · exact .ordinary (fun _ => .refl _) (claims_update (.inl rfl)) trivial
  case allocTake kind j =>
    have hj : k.state j = .unused := by simpa [Undisturbed, StillHolds, hcpu, hpc] using hu
    cases h
    refine .take p j ⟨p, kind, choice, rfl, hcpu, hpc⟩ hj (by rw [hpc]; rfl) rfl ?_ ?_ hcpu hcpu
    · simp [goto, Pc.claims]
    · intro q hq
      simp [goto, hq]
  case allocPid kind j =>
    cases h
    exact effect_stay (fun _ => .refl _) rfl (.inr (by rw [hpc]; rfl)) hcpu hp
  case allocCount kind j =>
    cases h
    exact effect_stay (fun _ => .refl _) rfl (.inr (by rw [hpc]; rfl)) hcpu hp
  case allocFill kind j =>
    have hcl : (k.pc p).claims = some j := by rw [hpc]; rfl
    split_ifs at h <;> cases h
    · exact effect_stay (fun _ => .refl _) rfl (.inr (by rw [hpc]; rfl)) hcpu hp
    · refine .drop p j hcl (by cases kind <;> rfl) (by cases kind <;> simp [allocNull, goto, Pc.claims])
        (fun q hq => by cases kind <;> simp [allocNull, goto, hq]) hcpu ?_
      cases kind
      · exact .inl hcpu
      · exact .inr rfl
  case allocReady kind j =>
    have hcl : (k.pc p).claims = some j := by rw [hpc]; rfl
    have hne : j ≠ p := by
      intro hjp
      rw [← hjp, hk.embryo p j hcl] at hp
      exact not_alive_embryo hp
    have hstart : Starts k (.run choice) j := .inl ⟨p, kind, choice, rfl, hcpu, hpc⟩
    cases kind with
    | fork =>
        simp only at h
        split_ifs at h <;> cases h
        · refine .start p j hstart hcl rfl ?_ ?_ (fun q hq hqj => ?_) hcpu hcpu
          · simp [goto, Pc.claims]
          · simp [goto, hne, Pc.claims]
          · simp [goto, hq, hqj]
        · exact effect_stay (fun _ => .refl _) rfl (.inl rfl) hcpu hp
    | exec =>
        cases h
        refine .start p j hstart hcl rfl ?_ ?_ (fun q hq hqj => ?_) hcpu hcpu
        · simp [goto, Pc.claims]
        · simp [goto, hne, Pc.claims]
        · simp [goto, hq, hqj]

theorem exitStep_effect {choice : Bool} (hp : (k.state p).Alive) (hcpu : k.cpu = .proc p)
    (h : k.exitStep p choice (k.pc p) = some k') : Effect k (.run choice) k' := by
  cases hpc : k.pc p <;> simp only [hpc, exitStep, reduceCtorEq] at h
  case exitScan status i =>
    split_ifs at h <;> cases h <;>
      exact effect_stay (fun _ => .refl _) rfl (.inl rfl) hcpu hp
  case exitAdopt status j =>
    cases h
    exact effect_stay (fun _ => .refl _) rfl (.inl rfl) hcpu hp
  case exitZombie status j =>
    split_ifs at h <;> cases h
    · exact effect_stay (ordinary_wakeup _) rfl (.inl rfl) hcpu (alive_wakeup hp)
    · exact effect_stay (fun _ => .refl _) rfl (.inl rfl) hcpu hp
  case exitClose status =>
    cases h
    exact effect_stay (fun _ => .refl _) rfl (.inl rfl) hcpu hp
  case exitWake =>
    cases h
    exact effect_stay (ordinary_wakeup _) rfl (.inl rfl) hcpu (alive_wakeup hp)
  case exitDone =>
    cases h
    exact effect_switch (ordinary_update (.inr (.inl ⟨hp, .inr rfl⟩))) rfl (.inl rfl) rfl

theorem waitStep_effect {choice : Bool} (hp : (k.state p).Alive) (hcpu : k.cpu = .proc p)
    (hu : Undisturbed k (.run choice)) (h : k.waitStep p (k.pc p) = some k') :
    Effect k (.run choice) k' := by
  cases hpc : k.pc p <;> simp only [hpc, waitStep, reduceCtorEq] at h
  case waitScan haveKids i =>
    split_ifs at h <;> cases h <;>
      exact effect_stay (fun _ => .refl _) rfl (.inl rfl) hcpu hp
  case waitCheck j =>
    split_ifs at h <;> cases h <;>
      exact effect_stay (fun _ => .refl _) rfl (.inl rfl) hcpu hp
  case waitReap j =>
    have hj : k.state j = .zombie := by simpa [Undisturbed, StillHolds, hcpu, hpc] using hu
    cases h
    exact effect_stay (ordinary_update (.inr (.inr ⟨hj, rfl⟩))) rfl (.inl rfl) hcpu
      (alive_reap hp hj)
  case waitPid j =>
    cases h
    exact effect_stay (fun _ => .refl _) rfl (.inl rfl) hcpu hp
  case waitParent j =>
    cases h
    exact effect_stay (fun _ => .refl _) rfl (.inl rfl) hcpu hp
  case waitSleep =>
    cases h
    exact effect_switch (ordinary_update (ordinary_of_alive hp alive_sleeping)) rfl (.inl rfl) rfl
  case waitAsleep =>
    cases h
    exact effect_stay (fun _ => .refl _) rfl (.inl rfl) hcpu hp

theorem killStep_effect {choice : Bool} (hp : (k.state p).Alive) (hcpu : k.cpu = .proc p)
    (hu : Undisturbed k (.run choice)) (h : k.killStep p (k.pc p) = some k') :
    Effect k (.run choice) k' := by
  cases hpc : k.pc p <;> simp only [hpc, killStep, reduceCtorEq] at h
  case killFind pid sig =>
    split_ifs at h
    · cases h
      exact effect_stay (fun _ => .refl _) rfl (.inl rfl) hcpu hp
    · split at h <;> cases h <;>
        exact effect_stay (fun _ => .refl _) rfl (.inl rfl) hcpu hp
  case killMark sig j =>
    cases h
    exact effect_stay (fun _ => .refl _) rfl (.inl rfl) hcpu hp
  case killTest j =>
    split_ifs at h <;> cases h <;>
      exact effect_stay (fun _ => .refl _) rfl (.inl rfl) hcpu hp
  case killWake j =>
    have hj : (k.state j).Alive := by simpa [Undisturbed, StillHolds, hcpu, hpc] using hu
    cases h
    refine effect_stay (ordinary_update (ordinary_of_alive hj alive_ready)) rfl (.inl rfl) hcpu ?_
    exact alive_update hp alive_ready

theorem napStep_effect {choice : Bool} (hp : (k.state p).Alive) (hcpu : k.cpu = .proc p)
    (h : k.napStep p (k.pc p) = some k') : Effect k (.run choice) k' := by
  cases hpc : k.pc p <;> simp only [hpc, napStep, reduceCtorEq] at h
  case napScan expires i =>
    split_ifs at h <;> cases h <;>
      exact effect_stay (fun _ => .refl _) rfl (.inl rfl) hcpu hp
  case napArm expires i =>
    cases h
    exact effect_stay (fun _ => .refl _) rfl (.inl rfl) hcpu hp
  case napSleep =>
    cases h
    exact effect_stay (ordinary_update (ordinary_of_alive hp alive_sleeping)) rfl (.inl rfl) hcpu
      (alive_update hp alive_sleeping)
  case napSwitch =>
    cases h
    exact effect_switch (fun _ => .refl _) rfl (.inl rfl) rfl

theorem initStep_effect {choice : Bool} (hp : (k.state p).Alive) (hcpu : k.cpu = .proc p)
    (hu : Undisturbed k (.run choice)) (h : k.initStep p (k.pc p) = some k') :
    Effect k (.run choice) k' := by
  cases hpc : k.pc p <;> simp only [hpc, initStep, reduceCtorEq] at h
  case initStart =>
    cases h
    exact effect_stay (fun _ => .refl _) rfl (.inl rfl) hcpu hp
  case initScan i =>
    split_ifs at h <;> cases h
    · exact effect_stay (fun _ => .refl _) rfl (.inl rfl) hcpu hp
    · exact effect_stay (fun _ => .refl _) rfl (.inl rfl) hcpu hp
    · exact effect_switch (ordinary_update (ordinary_of_alive hp alive_ready)) rfl (.inl rfl) rfl
  case initReap j =>
    have hj : k.state j = .zombie := by simpa [Undisturbed, StillHolds, hcpu, hpc] using hu
    cases h
    exact effect_stay (ordinary_update (.inr (.inr ⟨hj, rfl⟩))) rfl (.inl rfl) hcpu
      (alive_reap hp hj)
  case initYield =>
    cases h
    exact effect_stay (fun _ => .refl _) rfl (.inl rfl) hcpu hp

theorem startCall_effect {c : Call} (hp : (k.state p).Alive) (hcpu : k.cpu = .proc p) :
    Effect k (.call c) (k.startCall p c) := by
  cases c
  case yield =>
    refine .ordinary (ordinary_update (ordinary_of_alive hp alive_ready)) (fun _ => .inr rfl) ?_
    simp [Running, startCall, yieldBy]
  all_goals exact effect_stay (fun _ => .refl _) rfl (.inl rfl) hcpu hp

/-! ## Steps and runs -/

theorem step_effect (hk : Alloc k) (hu : Undisturbed k e) (h : Step k e k') : Effect k e k' := by
  unfold Step at h
  cases e with
  | boot =>
      simp only [step] at h
      split_ifs at h with hboot
      cases h
      exact .boot rfl hboot rfl (claims_update (.inl rfl)) rfl
  | run choice =>
      simp only [step] at h
      split at h
      case h_1 pc hcpu =>
        exact schedStep_effect (hk.running.resolve_left (by simp [hcpu])) hcpu hu h
      case h_2 p hcpu =>
        have hp : (k.state p).Alive := by
          simpa [Running, hcpu] using hk.running
        rcases procStep_cases h with h | h | h | h | h | h
        · exact allocStep_effect hk hp hcpu hu h
        · exact exitStep_effect hp hcpu h
        · exact waitStep_effect hp hcpu hu h
        · exact killStep_effect hp hcpu hu h
        · exact napStep_effect hp hcpu h
        · exact initStep_effect hp hcpu hu h
      case h_3 => cases h
  | call c =>
      simp only [step] at h
      split at h
      case h_1 p hcpu =>
        split_ifs at h
        cases h
        exact startCall_effect (by simpa [Running, hcpu] using hk.running) hcpu
      case h_2 => cases h
  | irq expired =>
      simp only [step] at h
      split_ifs at h with hirq
      cases h
      exact timerIrq_effect (hk.running.resolve_left hirq.2.1) hu

theorem powerOn_alloc : Alloc powerOn := by
  constructor
  · exact .inl rfl
  · exact fun _ _ => ⟨rfl, rfl⟩
  · intro p j h
    simp [powerOn, Pc.claims] at h
  · intro p q j h
    simp [powerOn, Pc.claims] at h

theorem Effect.cpu_ne (h : Effect k e k') : k'.cpu ≠ .boot := by
  cases h with
  | ordinary _ _ hr =>
      intro hcpu
      simp [Running, hcpu] at hr
  | take p j _ _ _ _ _ _ _ hcpu => simp [hcpu]
  | drop p j _ _ _ _ _ hcpu => rcases hcpu with hcpu | hcpu <;> simp [hcpu]
  | start p j _ _ _ _ _ _ _ hcpu => simp [hcpu]
  | boot _ _ _ _ hcpu => simp [hcpu]

theorem Ordinary.embryo {new : ProcState} (h : Ordinary .embryo new) : new = .embryo := by
  rcases h with h | h | h
  · exact h
  · exact absurd h.1 not_alive_embryo
  · exact absurd h.1 (by decide)

theorem Alloc.alive (hk : Alloc k) (hcpu : k.cpu = .proc p) : (k.state p).Alive := by
  simpa [Running, hcpu] using hk.running

theorem Alloc.ne_of_not_alive (hk : Alloc k) (hcpu : k.cpu = .proc p) {j : Slot}
    (hj : ¬ (k.state j).Alive) : p ≠ j := by
  intro hpj
  exact hj (hpj ▸ hk.alive hcpu)

theorem Effect.running (hk : Alloc k) (h : Effect k e k') : Running k' := by
  cases h with
  | ordinary _ _ hr => exact hr
  | take p j _ hj _ hst _ _ hcpu hcpu' =>
      have hne : p ≠ j := hk.ne_of_not_alive hcpu (by simp [hj])
      have ha : (k'.state p).Alive := by
        rw [hst, Function.update_of_ne hne]
        exact hk.alive hcpu
      simpa [Running, hcpu'] using ha
  | drop p j hcl hst _ _ hcpu hcpu' =>
      have hne : p ≠ j := hk.ne_of_not_alive hcpu (by simp [hk.embryo p j hcl])
      have ha : (k'.state p).Alive := by
        rw [hst, Function.update_of_ne hne]
        exact hk.alive hcpu
      rcases hcpu' with hcpu' | hcpu'
      · simpa [Running, hcpu'] using ha
      · simp [Running, hcpu']
  | start p j _ _ hst _ _ _ hcpu hcpu' =>
      have ha : (k'.state p).Alive := by
        rw [hst]
        exact alive_update (hk.alive hcpu) alive_ready
      simpa [Running, hcpu'] using ha
  | boot _ _ _ _ hcpu => simp [Running, hcpu]

/-- The claims after a step: one process may have gained or lost its slot. -/
theorem Effect.claims (h : Effect k e k') {q i : Slot}
    (hq : (k'.pc q).claims = some i) :
    (k.pc q).claims = some i ∨ (Takes k e i ∧ k.state i = .unused ∧ k.cpu = .proc q) := by
  cases h with
  | ordinary _ hcl _ =>
      rcases hcl q with h | h
      · simp [h] at hq
      · exact .inl (h ▸ hq)
  | take p j ht hj _ _ hp hrest hcpu _ =>
      by_cases hqp : q = p
      · subst hqp
        obtain rfl : j = i := by simpa [hp] using hq
        exact .inr ⟨ht, hj, hcpu⟩
      · exact .inl (hrest q hqp ▸ hq)
  | drop p j _ _ hp hrest _ _ =>
      by_cases hqp : q = p
      · subst hqp
        simp [hp] at hq
      · exact .inl (hrest q hqp ▸ hq)
  | start p j _ _ _ hp hj hrest _ _ =>
      by_cases hqp : q = p
      · subst hqp
        simp [hp] at hq
      · by_cases hqj : q = j
        · subst hqj
          simp [hj] at hq
        · exact .inl (hrest q hqp hqj ▸ hq)
  | boot _ hboot _ hcl _ =>
      rcases hcl q with h | h
      · simp [h] at hq
      · exact .inl (h ▸ hq)

theorem Effect.embryo (hk : Alloc k) (h : Effect k e k') {q i : Slot}
    (hq : (k'.pc q).claims = some i) : k'.state i = .embryo := by
  cases h with
  | ordinary hst hcl _ =>
      rcases hcl q with h | h
      · simp [h] at hq
      · have hi : k.state i = .embryo := hk.embryo q i (h ▸ hq)
        have ho := hst i
        rw [hi] at ho
        exact ho.embryo
  | take p j ht hj _ hst hp hrest hcpu _ =>
      rw [hst]
      by_cases hqp : q = p
      · subst hqp
        obtain rfl : j = i := by simpa [hp] using hq
        simp
      · have hi : k.state i = .embryo := hk.embryo q i (hrest q hqp ▸ hq)
        rw [Function.update_of_ne, hi]
        rintro rfl
        simp [hj] at hi
  | drop p j hcl hst hp hrest _ _ =>
      rw [hst]
      by_cases hqp : q = p
      · subst hqp
        simp [hp] at hq
      · have hqi : (k.pc q).claims = some i := hrest q hqp ▸ hq
        rw [Function.update_of_ne, hk.embryo q i hqi]
        rintro rfl
        exact hqp (hk.unique q p i hqi hcl)
  | start p j _ hcl hst hp hj hrest _ _ =>
      rw [hst]
      by_cases hqp : q = p
      · subst hqp
        simp [hp] at hq
      · by_cases hqj : q = j
        · subst hqj
          simp [hj] at hq
        · have hqi : (k.pc q).claims = some i := hrest q hqp hqj ▸ hq
          rw [Function.update_of_ne, hk.embryo q i hqi]
          rintro rfl
          exact hqp (hk.unique q p i hqi hcl)
  | boot _ hboot _ hcl _ =>
      rcases hcl q with h | h
      · simp [h] at hq
      · rw [h, (hk.boot hboot q).2] at hq
        cases hq

theorem Effect.alloc (hk : Alloc k) (h : Effect k e k') : Alloc k' := by
  refine ⟨.inr (h.running hk), fun hcpu => absurd hcpu h.cpu_ne, fun _ _ => h.embryo hk, ?_⟩
  intro q r i hq hr
  rcases h.claims hq with hq' | ⟨_, hi, hq'⟩ <;> rcases h.claims hr with hr' | ⟨_, hi', hr'⟩
  · exact hk.unique q r i hq' hr'
  · simp [hk.embryo q i hq'] at hi'
  · simp [hk.embryo r i hr'] at hi
  · simpa [hq'] using hr'

theorem KeepsDead.of_eq {j : Slot} (h : k'.state j = k.state j) : KeepsDead k e k' j :=
  ⟨fun hj => .inl (h ▸ hj), fun hj => .inl (h ▸ hj), fun hj => .inl (h ▸ hj)⟩

theorem Takes.embryo {j : Slot} (ht : Takes k e j) (h : Step k e k') : k'.state j = .embryo := by
  obtain ⟨p, kind, choice, rfl, hcpu, hpc⟩ := ht
  simp only [Step, step, hcpu, procStep, hpc, allocStep] at h
  cases h
  simp

theorem Effect.keepsDead (hk : Alloc k) (h : Effect k e k') (i : Slot) : KeepsDead k e k' i := by
  cases h with
  | ordinary hst _ _ =>
      have ho := hst i
      constructor <;> intro hi <;> rw [hi] at ho
      · rcases ho with ho | ho | ho
        · exact .inl ho
        · exact absurd ho.1 not_alive_zombie
        · exact .inr ho.2
      · rcases ho with ho | ho | ho
        · exact .inl ho
        · exact absurd ho.1 not_alive_unused
        · cases ho.1
      · exact .inl ho.embryo
  | take p j ht hj _ hst _ _ _ _ =>
      by_cases hij : i = j
      · subst hij
        constructor <;> intro hi
        · simp [hj] at hi
        · exact .inr (.inl ht)
        · simp [hj] at hi
      · exact .of_eq (by rw [hst, Function.update_of_ne hij])
  | drop p j hcl hst _ _ _ _ =>
      by_cases hij : i = j
      · subst hij
        have hi' : k'.state i = .unused := by rw [hst, Function.update_self]
        exact ⟨fun _ => .inr hi', fun _ => .inl hi', fun _ => .inr (.inl hi')⟩
      · exact .of_eq (by rw [hst, Function.update_of_ne hij])
  | start p j hs hcl hst _ _ _ _ _ =>
      by_cases hij : i = j
      · subst hij
        have hi' := hk.embryo p i hcl
        constructor <;> intro hi
        · simp [hi'] at hi
        · simp [hi'] at hi
        · exact .inr (.inr hs)
      · exact .of_eq (by rw [hst, Function.update_of_ne hij])
  | boot he hboot hst _ _ =>
      have hi' := (hk.boot hboot i).1
      constructor <;> intro hi
      · simp [hi'] at hi
      · by_cases hij : i = init
        · exact .inr (.inr ⟨hboot, .inr ⟨he, hij⟩⟩)
        · exact .inl (by rw [hst, Function.update_of_ne hij, hi])
      · simp [hi'] at hi

theorem Alloc.step (hk : Alloc k) (hu : Undisturbed k e) (h : Step k e k') : Alloc k' :=
  (step_effect hk hu h).alloc hk

/-- What a run from `s` to `u` does to a slot that is dead in `s`: to live again the
slot has to be reaped and taken by `__alloc_proc`. -/
def StaysDead (j : Slot) (s : Kernel) (tr : List (Kernel × Event)) (u : Kernel) : Prop :=
  s.state j = .zombie → (u.state j).Alive → ∃ x ∈ tr, x.1.state j = .unused ∧ Takes x.1 x.2 j

/-- Every step of the run that makes a free slot `READY` is the last one of its creation. -/
def StartsOnly (j : Slot) (tr : List (Kernel × Event)) : Prop :=
  ∀ x ∈ tr, ∀ v, Step x.1 x.2 v → x.1.state j = .unused ∨ x.1.state j = .embryo →
    v.state j = .ready → Starts x.1 x.2 j

/-- Until the slot is taken again it is dead or free. -/
theorem dead_step {j : Slot} (k : Kernel) (e : Event) (k' : Kernel)
    (hk : Alloc k ∧ k.cpu ≠ .boot ∧ (k.state j = .zombie ∨ k.state j = .unused))
    (hu : Undisturbed k e ∧ (k.state j = .unused → ¬ Takes k e j)) (h : Step k e k') :
    Alloc k' ∧ k'.cpu ≠ .boot ∧ (k'.state j = .zombie ∨ k'.state j = .unused) := by
  have heff := step_effect hk.1 hu.1 h
  have hd := heff.keepsDead hk.1 j
  refine ⟨heff.alloc hk.1, heff.cpu_ne, ?_⟩
  rcases hk.2.2 with hj | hj
  · exact hd.zombie hj
  · rcases hd.unused hj with h | h | h
    · exact .inr h
    · exact absurd h (hu.2 hj)
    · exact absurd h.1 hk.2.1

theorem dead_stays_dead {s u : Kernel} {tr tr' : List (Kernel × Event)} (j : Slot)
    (h : Trace Step powerOn tr s) (h' : Trace Step s tr' u)
    (hu : ∀ x ∈ tr ++ tr', Undisturbed x.1 x.2) :
    StaysDead j s tr' u ∧ StartsOnly j (tr ++ tr') := by
  have hstep : ∀ k e k', Alloc k → Undisturbed k e → Step k e k' → Alloc k' :=
    fun _ _ _ hk hu hs => hk.step hu hs
  have hrun := (h.append h').throughout_of hstep powerOn_alloc hu
  have hs := (h.throughout_of hstep powerOn_alloc fun x hx => hu x (List.mem_append_left _ hx)).2
  constructor
  · intro hz halive
    by_contra hnone
    push Not at hnone
    have hcpu : s.cpu ≠ .boot := by
      intro hboot
      simp [(hs.boot hboot j).1] at hz
    have hdead := (h'.throughout_of dead_step ⟨hs, hcpu, .inl hz⟩ fun x hx =>
      ⟨hu x (List.mem_append_right _ hx), hnone x hx⟩).2.2.2
    rcases hdead with hdead | hdead <;> simp [hdead] at halive
  · intro x hx v hv hdead hready
    have hd := (step_effect (hrun.1 x hx) (hu x hx) hv).keepsDead (hrun.1 x hx) j
    rcases hdead with hdead | hdead
    · rcases hd.unused hdead with h | h | h
      · simp [h] at hready
      · simp [h.embryo hv] at hready
      · exact h.2
    · rcases hd.embryo hdead with h | h | h
      · simp [h] at hready
      · simp [h] at hready
      · exact h

/-- Slot 1 exits, `init` reaps it, and slot 2 forks into it. -/
theorem dead_stays_dead_reused : ∃ s u : Kernel, ∃ tr tr' : List (Kernel × Event),
    Trace Step powerOn tr s ∧ Trace Step s tr' u ∧
      s.state slot1 = .zombie ∧ u.state slot1 = .ready ∧
      StaysDead slot1 s tr' u ∧ StartsOnly slot1 (tr ++ tr') := by
  let es := forkRun ++ [.call (.exit 0)] ++ runs false 38
  let es' := runs false 4 ++ [.call .yield] ++ runs false 31 ++ [.irq false] ++ runs false 43 ++
    [.call .fork] ++ runs true 7
  have hes : ((exec step powerOn es).any fun s =>
      s.state slot1 = .zombie && (exec step s es').any fun u =>
        u.state slot1 = .ready && (history step powerOn es ++ history step s es').all fun x =>
          Undisturbed x.1 x.2) = true := by
    decide +kernel
  obtain ⟨s, hs, hes⟩ := (Option.any_eq_true ..).mp hes
  obtain ⟨hz, hes⟩ := Bool.and_eq_true_iff.mp hes
  obtain ⟨u, hu, hes⟩ := (Option.any_eq_true ..).mp hes
  obtain ⟨hr, hall⟩ := Bool.and_eq_true_iff.mp hes
  have hund : ∀ x ∈ history step powerOn es ++ history step s es', Undisturbed x.1 x.2 :=
    fun x hx => of_decide_eq_true (List.all_eq_true.mp hall x hx)
  exact ⟨s, u, _, _, exec_trace hs, exec_trace hu, of_decide_eq_true hz, of_decide_eq_true hr,
    dead_stays_dead slot1 (exec_trace hs) (exec_trace hu) hund⟩

/-- Slot 1 sleeps with a timer, is woken by a signal that is ignored, and exits. -/
def sleeperRun : List Event :=
  forkRun ++ [.call (.nanosleep 1000)] ++ runs true 8 ++ [.call (.kill 2 10)] ++ runs true 4 ++
    [.call .yield] ++ runs true 31 ++ [.irq false] ++ runs true 41 ++ [.call (.exit 0)] ++
    runs false 42 ++ List.replicate 98 (.irq false)

/-- The timer of the sleeper makes the zombie `READY`. -/
theorem not_dead_stays_dead_sleeper : ¬ ∀ (s u : Kernel) (tr tr' : List (Kernel × Event)) (j : Slot),
    Trace Step powerOn tr s → Trace Step s tr' u →
      StaysDead j s tr' u ∧ StartsOnly j (tr ++ tr') := by
  intro h
  have hes : ((exec step powerOn sleeperRun).any fun s =>
      s.state slot1 = .zombie && (step s (.irq false)).any fun u => u.state slot1 = .ready) = true := by
    decide +kernel
  obtain ⟨s, hs, hes⟩ := (Option.any_eq_true ..).mp hes
  obtain ⟨hz, hes⟩ := Bool.and_eq_true_iff.mp hes
  obtain ⟨u, hu, hr⟩ := (Option.any_eq_true ..).mp hes
  have hz : s.state slot1 = .zombie := of_decide_eq_true hz
  have hr : u.state slot1 = .ready := of_decide_eq_true hr
  have hdead := (h s u _ _ slot1 (exec_trace hs) (.single hu)).1
  obtain ⟨x, hx, hfree, _⟩ := hdead hz (by rw [hr]; exact alive_ready)
  obtain rfl : x = (s, .irq false) := by simpa using hx
  simp [hz] at hfree

end Ferrite.Sys
