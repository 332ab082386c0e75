import Mathlib
import Ferrite.Sys.DeadProcess

/-!
# Timers and the sleeps that armed them

`knanosleep` puts a timer with a bare pointer to the process into the table and switches
away; `check_timers` stores `READY` into whatever the pointer leads to. Nothing disarms a
timer but its expiry. The runs below record which call of `knanosleep` each process is in,
and which timer that call has armed.

In a run in which no other statement stores into the state of a process with an armed timer,
no two calls take one entry of the table, and no timer expires between the arming and the
`SLEEPING` of its process, every timer belongs to a process that sleeps in the call that
armed it.
-/
namespace Ferrite.Sys
open Kernel Runs

/-- A call of `knanosleep`: the ticks at its start, its argument, and its timer. -/
structure Nap where
  start : ℕ
  ms : ℕ
  timer : Option (Fin numTimers)

def Nap.expires (n : Nap) : ℕ := n.start + n.ms * hz / 1000

/-- The kernel, and the call of `knanosleep` that each process is in. -/
structure Sleepers where
  kernel : Kernel
  nap : Slot → Option Nap

/-- The new process that the next statement starts. -/
def Pc.starts (choice : Bool) : Pc → Option Slot
  | .allocReady .fork j => if choice then some j else none
  | .allocReady .exec j => some j
  | _ => none

namespace Sleepers
variable (s : Sleepers)

/-- The calls after a statement of process `p`. -/
def afterStatement (p : Slot) (choice : Bool) (pc : Pc) : Slot → Option Nap :=
  match pc with
  | .napArm _ i => Function.update s.nap p ((s.nap p).map fun n => { n with timer := some i })
  -- The table is full.
  | .napScan _ i => if i < numTimers then s.nap else Function.update s.nap p none
  | pc =>
      match pc.starts choice with
      | some j => Function.update s.nap j none
      | none => s.nap

/-- The calls after an event. A process that runs again outside of the kernel has returned. -/
def after : Event → Slot → Option Nap
  | .call (.nanosleep ms) =>
      match s.kernel.cpu with
      | .proc p => Function.update s.nap p (some ⟨s.kernel.ticks, ms, none⟩)
      | _ => s.nap
  | .run choice =>
      match s.kernel.cpu with
      | .proc p => s.afterStatement p choice (s.kernel.pc p)
      | .sched (.run p) => if s.kernel.pc p = .user then Function.update s.nap p none else s.nap
      | _ => s.nap
  | _ => s.nap

def step (e : Event) : Option Sleepers := (Sys.step s.kernel e).map fun k => ⟨k, s.after e⟩

def Step (s : Sleepers) (e : Event) (t : Sleepers) : Prop := s.step e = some t

/-- The process sleeps in the call that armed timer `i` to expire at that time. -/
structure BlockedIn (i : Fin numTimers) (expires : ℕ) (p : Slot) : Prop where
  nap : ∃ n, s.nap p = some n ∧ n.timer = some i ∧ n.expires = expires
  asleep : s.kernel.state p = .sleeping

/-- What a step from `s` to `t` does to the timers: a timer goes when it expires, at a timer
interrupt, and its process then slept in the call that armed it and becomes `READY`; other
processes keep their state, unless their quantum has ended; and a call of `knanosleep` that
returns has lasted long enough. -/
structure Orderly (e : Event) (t : Sleepers) : Prop where
  fires : ∀ expired, e = .irq expired → ∀ i timer, s.kernel.timers i = some timer →
    timer.expires ≤ s.kernel.ticks + 1 → t.kernel.timers i = none ∧
      s.BlockedIn i timer.expires timer.data ∧ t.kernel.state timer.data = .ready
  stays : ∀ i timer, s.kernel.timers i = some timer →
    (∀ expired, e = .irq expired → s.kernel.ticks + 1 < timer.expires) → t.kernel.timers i = some timer
  spares : ∀ expired, e = .irq expired → ∀ p, t.kernel.state p ≠ s.kernel.state p →
    (∃ i timer, s.kernel.timers i = some timer ∧ timer.expires ≤ s.kernel.ticks + 1 ∧ timer.data = p) ∨
      s.kernel.cpu = .proc p ∧ s.kernel.state p = .running
  returns : ∀ choice, e = .run choice → ∀ p n i, s.kernel.cpu = .sched (.run p) → s.kernel.pc p = .user →
    s.nap p = some n → n.timer = some i → n.start + n.ms * hz / 1000 ≤ s.kernel.ticks

end Sleepers

/-! ## The condition -/

/-- The next statement of `p` stores into the state of another process `q`. -/
def Touches (k : Kernel) (p : Slot) (choice : Bool) (q : Slot) : Pc → Prop
  | .allocTake _ j | .waitReap j | .initReap j | .killWake j | .allocReady .exec j => q = j
  | .allocFill _ j => choice = false ∧ q = j
  | .allocReady .fork j => choice = true ∧ q = j
  | .exitZombie _ j => k.state j = .zombie ∧ k.channel q = some init ∧ k.state q = .sleeping
  | .exitWake => k.channel q = k.parent p ∧ k.state q = .sleeping
  | _ => False

instance (k : Kernel) (p : Slot) (choice : Bool) (q : Slot) (pc : Pc) :
    Decidable (Touches k p choice q pc) := by
  delta Touches
  induction pc using Pc.casesOn with
  | allocReady kind j => induction kind using AllocKind.casesOn <;> infer_instance
  | _ => infer_instance

/-- The entry that `knanosleep` has found free still is. -/
def StillFree (k : Kernel) : Pc → Prop
  | .napArm _ i => k.timers i = none
  | _ => True

instance (k : Kernel) (pc : Pc) : Decidable (StillFree k pc) := by
  delta StillFree
  induction pc using Pc.casesOn <;> infer_instance

/-- The step keeps away from the processes with an armed timer. -/
def Apart (k : Kernel) : Event → Prop
  | .irq _ => ∀ i, ∀ timer ∈ k.timers i, timer.expires ≤ k.ticks + 1 → k.pc timer.data ≠ .napSleep
  | .run choice =>
      match k.cpu with
      | .proc p => (∀ i, ∀ timer ∈ k.timers i, ¬ Touches k p choice timer.data (k.pc p)) ∧ StillFree k (k.pc p)
      | _ => True
  | _ => True

instance (k : Kernel) (e : Event) : Decidable (Apart k e) := by
  delta Apart
  induction e using Event.casesOn with
  | run choice => induction k.cpu using Cpu.casesOn <;> infer_instance
  | _ => infer_instance

/-! ## What the steps do to other processes -/

/-- Where a process is between the search for a timer and its arming. -/
def Pc.napExpires : Pc → Option ℕ
  | .napScan expires _ | .napArm expires _ => some expires
  | _ => none

/-- What a statement of `p` outside of `knanosleep` leaves alone. -/
structure Frame (k : Kernel) (p : Slot) (choice : Bool) (k' : Kernel) : Prop where
  timers : k'.timers = k.timers
  ticks : k'.ticks = k.ticks
  cpu : k'.cpu = .proc p ∨ k'.cpu = .sched (.back p) ∨ k'.cpu = .lost
  others : ∀ q ≠ p, ¬ Touches k p choice q (k.pc p) → k'.pc q = k.pc q ∧ k'.state q = k.state q
  scans : ∀ q, (k'.pc q).napExpires = none ∨ k'.pc q = k.pc q

variable {k k' : Kernel} {p q : Slot} {choice : Bool}

theorem Frame.of {pc : Pc} (hpc : k'.pc = Function.update k.pc p pc) (hnap : pc.napExpires = none)
    (htimers : k'.timers = k.timers) (hticks : k'.ticks = k.ticks)
    (hcpu : k'.cpu = .proc p ∨ k'.cpu = .sched (.back p) ∨ k'.cpu = .lost)
    (hstate : ∀ q ≠ p, ¬ Touches k p choice q (k.pc p) → k'.state q = k.state q) : Frame k p choice k' := by
  refine ⟨htimers, hticks, hcpu, fun q hq hnot => ⟨?_, hstate q hq hnot⟩, fun q => ?_⟩
  · rw [hpc, Function.update_of_ne hq]
  · rw [hpc]
    by_cases hq : q = p
    · rw [hq, Function.update_self]
      exact .inl hnap
    · exact .inr (Function.update_of_ne hq ..)

/-- A statement that moves on and stores nothing. -/
theorem Frame.goto {pc : Pc} (hcpu : k.cpu = .proc p) (hnap : pc.napExpires = none) :
    Frame k p choice (k.goto p pc) :=
  .of rfl hnap rfl rfl (.inl hcpu) fun _ _ _ => rfl

/-- The last statement of a fork. -/
theorem Frame.start {j : Slot} {pc : Pc} (hcpu : k.cpu = .proc p) (hnap : pc.napExpires = none)
    (htouch : Touches k p choice j (k.pc p)) : Frame k p choice
      ({ k.goto j .user with state := Function.update k.state j .ready }.goto p pc) := by
  refine ⟨rfl, rfl, .inl hcpu, fun q hq hnot => ?_, fun q => ?_⟩
  · have hqj : q ≠ j := fun heq => hnot (heq ▸ htouch)
    simp [Kernel.goto, hq, hqj]
  · by_cases hq : q = p
    · exact .inl (by simp [Kernel.goto, hq, hnap])
    · by_cases hqj : q = j
      · left
        rw [hqj] at hq ⊢
        simp [Kernel.goto, hq, Pc.napExpires]
      · right
        simp [Kernel.goto, hq, hqj]

theorem wakeup_spares {channel : Option Slot} (h : ¬ (k.channel q = channel ∧ k.state q = .sleeping)) :
    (k.wakeup channel).state q = k.state q := by
  unfold wakeup
  exact if_neg h

theorem allocStep_frame (hcpu : k.cpu = .proc p) (h : k.allocStep p choice (k.pc p) = some k') :
    Frame k p choice k' := by
  cases hpc : k.pc p <;> simp only [hpc, allocStep, reduceCtorEq] at h
  case allocScan kind i =>
    split_ifs at h <;> cases h
    · exact .goto hcpu rfl
    · exact .goto hcpu rfl
    · cases kind with
      | fork => exact .goto hcpu rfl
      | exec => exact .of rfl rfl rfl rfl (.inr (.inr rfl)) fun _ _ _ => rfl
  case allocTake kind j =>
    cases h
    refine .of rfl rfl rfl rfl (.inl hcpu) fun q _ hnot => Function.update_of_ne ?_ ..
    rw [hpc] at hnot
    exact hnot
  case allocPid kind j =>
    cases h
    exact .of rfl rfl rfl rfl (.inl hcpu) fun _ _ _ => rfl
  case allocCount kind j =>
    cases h
    exact .of rfl rfl rfl rfl (.inl hcpu) fun _ _ _ => rfl
  case allocFill kind j =>
    split_ifs at h with hchoice <;> cases h
    · exact .of rfl rfl rfl rfl (.inl hcpu) fun _ _ _ => rfl
    · have hstate : ∀ q ≠ p, ¬ Touches k p choice q (k.pc p) →
          Function.update k.state j .unused q = k.state q := by
        intro q _ hnot
        apply Function.update_of_ne
        rw [hpc] at hnot
        exact fun heq => hnot ⟨by simpa using hchoice, heq⟩
      cases kind with
      | fork => exact .of rfl rfl rfl rfl (.inl hcpu) hstate
      | exec => exact .of rfl rfl rfl rfl (.inr (.inr rfl)) hstate
  case allocReady kind j =>
    cases kind with
    | fork =>
        simp only at h
        split_ifs at h with hchoice <;> cases h
        · apply Frame.start hcpu rfl
          rw [hpc]
          exact ⟨hchoice, rfl⟩
        · exact .goto hcpu rfl
    | exec =>
        cases h
        apply Frame.start hcpu rfl
        rw [hpc]
        rfl

theorem exitStep_frame (hcpu : k.cpu = .proc p) (h : k.exitStep p choice (k.pc p) = some k') :
    Frame k p choice k' := by
  cases hpc : k.pc p <;> simp only [hpc, exitStep, reduceCtorEq] at h
  case exitScan status i =>
    split_ifs at h <;> cases h
    · exact .goto hcpu rfl
    · exact .goto hcpu rfl
    · exact .of rfl rfl rfl rfl (.inl hcpu) fun _ _ _ => rfl
  case exitAdopt status j =>
    cases h
    exact .of rfl rfl rfl rfl (.inl hcpu) fun _ _ _ => rfl
  case exitZombie status j =>
    split_ifs at h with hzombie <;> cases h
    · refine .of rfl rfl rfl rfl (.inl hcpu) fun q _ hnot => wakeup_spares fun hq => ?_
      rw [hpc] at hnot
      exact hnot ⟨hzombie, hq⟩
    · exact .goto hcpu rfl
  case exitClose status =>
    cases h
    exact .of rfl rfl rfl rfl (.inl hcpu) fun _ _ _ => rfl
  case exitWake =>
    cases h
    refine .of rfl rfl rfl rfl (.inl hcpu) fun q _ hnot => wakeup_spares fun hq => ?_
    rw [hpc] at hnot
    exact hnot hq
  case exitDone =>
    cases h
    exact .of rfl rfl rfl rfl (.inr (.inl rfl)) fun q hq _ => Function.update_of_ne hq ..

theorem waitStep_frame (hcpu : k.cpu = .proc p) (h : k.waitStep p (k.pc p) = some k') :
    Frame k p choice k' := by
  cases hpc : k.pc p <;> simp only [hpc, waitStep, reduceCtorEq] at h
  case waitScan haveKids i =>
    split_ifs at h <;> cases h <;> exact .goto hcpu rfl
  case waitCheck j =>
    split_ifs at h <;> cases h <;> exact .goto hcpu rfl
  case waitReap j =>
    cases h
    refine .of rfl rfl rfl rfl (.inl hcpu) fun q _ hnot => Function.update_of_ne ?_ ..
    rw [hpc] at hnot
    exact hnot
  case waitPid j =>
    cases h
    exact .of rfl rfl rfl rfl (.inl hcpu) fun _ _ _ => rfl
  case waitParent j =>
    cases h
    exact .of rfl rfl rfl rfl (.inl hcpu) fun _ _ _ => rfl
  case waitSleep =>
    cases h
    exact .of rfl rfl rfl rfl (.inr (.inl rfl)) fun q hq _ => Function.update_of_ne hq ..
  case waitAsleep =>
    cases h
    exact .of rfl rfl rfl rfl (.inl hcpu) fun _ _ _ => rfl

theorem killStep_frame (hcpu : k.cpu = .proc p) (h : k.killStep p (k.pc p) = some k') :
    Frame k p choice k' := by
  cases hpc : k.pc p <;> simp only [hpc, killStep, reduceCtorEq] at h
  case killFind pid sig =>
    split_ifs at h
    · cases h
      exact .goto hcpu rfl
    · split at h <;> cases h <;> exact .goto hcpu rfl
  case killMark sig j =>
    cases h
    exact .of rfl rfl rfl rfl (.inl hcpu) fun _ _ _ => rfl
  case killTest j =>
    split_ifs at h <;> cases h <;> exact .goto hcpu rfl
  case killWake j =>
    cases h
    refine .of rfl rfl rfl rfl (.inl hcpu) fun q _ hnot => Function.update_of_ne ?_ ..
    rw [hpc] at hnot
    exact hnot

theorem initStep_frame (hcpu : k.cpu = .proc p) (h : k.initStep p (k.pc p) = some k') :
    Frame k p choice k' := by
  cases hpc : k.pc p <;> simp only [hpc, initStep, reduceCtorEq] at h
  case initStart =>
    cases h
    exact .of rfl rfl rfl rfl (.inl hcpu) fun _ _ _ => rfl
  case initScan i =>
    split_ifs at h <;> cases h
    · exact .goto hcpu rfl
    · exact .goto hcpu rfl
    · exact .of rfl rfl rfl rfl (.inr (.inl rfl)) fun q hq _ => Function.update_of_ne hq ..
  case initReap j =>
    cases h
    refine .of rfl rfl rfl rfl (.inl hcpu) fun q _ hnot => Function.update_of_ne ?_ ..
    rw [hpc] at hnot
    exact hnot
  case initYield =>
    cases h
    exact .goto hcpu rfl

/-- The statements of `knanosleep`. -/
def Pc.ofNap : Pc → Bool
  | .napScan _ _ | .napArm _ _ | .napSleep | .napSwitch => true
  | _ => false

/-- A statement of a process is one of `knanosleep`, or it keeps to the frame. -/
theorem procStep_nap_or_frame (hcpu : k.cpu = .proc p) (h : k.procStep p choice = some k') :
    k.napStep p (k.pc p) = some k' ∧ (k.pc p).ofNap = true ∨
      Frame k p choice k' ∧ (k.pc p).ofNap = false := by
  rcases procStep_cases h with h | h | h | h | h | h
  · refine .inr ⟨allocStep_frame hcpu h, ?_⟩
    cases hpc : k.pc p <;> simp only [hpc, allocStep, reduceCtorEq] at h <;> rfl
  · refine .inr ⟨exitStep_frame hcpu h, ?_⟩
    cases hpc : k.pc p <;> simp only [hpc, exitStep, reduceCtorEq] at h <;> rfl
  · refine .inr ⟨waitStep_frame hcpu h, ?_⟩
    cases hpc : k.pc p <;> simp only [hpc, waitStep, reduceCtorEq] at h <;> rfl
  · refine .inr ⟨killStep_frame hcpu h, ?_⟩
    cases hpc : k.pc p <;> simp only [hpc, killStep, reduceCtorEq] at h <;> rfl
  · refine .inl ⟨h, ?_⟩
    cases hpc : k.pc p <;> simp only [hpc, napStep, reduceCtorEq] at h <;> rfl
  · refine .inr ⟨initStep_frame hcpu h, ?_⟩
    cases hpc : k.pc p <;> simp only [hpc, initStep, reduceCtorEq] at h <;> rfl

/-- A process that has just been started is in no call. -/
theorem starts_spec {j : Slot} (h : k.procStep p choice = some k') (hj : (k.pc p).starts choice = some j) :
    Touches k p choice j (k.pc p) ∧ (k'.pc j).napExpires = none := by
  unfold procStep at h
  cases hpc : k.pc p <;> rw [hpc] at hj <;> simp only [Pc.starts, reduceCtorEq] at hj
  case allocReady kind i =>
    rw [hpc] at h
    have hpcs (pc : Pc) (hnap : pc.napExpires = none) :
        (Function.update (Function.update k.pc i .user) p pc i).napExpires = none := by
      by_cases hi : i = p
      · rw [hi, Function.update_self]
        exact hnap
      · rw [Function.update_of_ne hi, Function.update_self]
        rfl
    cases kind with
    | fork =>
        simp only at hj
        split_ifs at hj with hchoice
        cases hj
        rw [hchoice] at h
        cases h
        exact ⟨⟨hchoice, rfl⟩, hpcs .user rfl⟩
    | exec =>
        cases hj
        cases h
        exact ⟨rfl, hpcs (.initScan 0) rfl⟩

/-! ## One pass over the timers -/

/-- What `check_timers` has done when it has come through the entries `is`. -/
structure Checked (is : List (Fin numTimers)) (k k' : Kernel) : Prop where
  fired : ∀ i ∈ is, ∀ timer, k.timers i = some timer → timer.expires ≤ k.ticks →
    k'.timers i = none ∧ k'.state timer.data = .ready
  kept : ∀ i timer, k.timers i = some timer → (i ∈ is → k.ticks < timer.expires) → k'.timers i = some timer
  old : ∀ i timer, k'.timers i = some timer → k.timers i = some timer ∧ (i ∈ is → k.ticks < timer.expires)
  spared : ∀ p, (∀ i ∈ is, ∀ timer, k.timers i = some timer → timer.expires ≤ k.ticks → timer.data ≠ p) →
    k'.state p = k.state p
  ready : ∀ p, k'.state p = k.state p ∨ k'.state p = .ready
  rest : k' = { k with state := k'.state, timers := k'.timers }

theorem checked_nil : Checked [] k k :=
  ⟨by simp, fun _ _ h _ => h, fun _ _ h => ⟨h, by simp⟩, fun _ _ => rfl, fun _ => .inl rfl, rfl⟩

theorem checkTimer_checked (i : Fin numTimers) : Checked [i] k (k.checkTimer i) := by
  unfold checkTimer
  split
  case h_1 hnone =>
    refine ⟨?_, fun _ _ h _ => h, fun j timer h => ⟨h, ?_⟩, fun _ _ => rfl, fun _ => .inl rfl, rfl⟩
    · intro j hj timer h
      rw [List.mem_singleton.mp hj, hnone] at h
      cases h
    · intro hj
      rw [List.mem_singleton.mp hj, hnone] at h
      cases h
  case h_2 timer hsome =>
    split_ifs with hexp
    · constructor
      · intro j hj t ht _
        rw [List.mem_singleton.mp hj] at ht ⊢
        obtain rfl : timer = t := Option.some.inj (hsome.symm.trans ht)
        exact ⟨Function.update_self .., Function.update_self ..⟩
      · intro j t ht hlate
        by_cases hj : j = i
        · have hlate := hlate (List.mem_singleton.mpr hj)
          rw [hj] at ht
          obtain rfl : timer = t := Option.some.inj (hsome.symm.trans ht)
          omega
        · exact (Function.update_of_ne hj ..).trans ht
      · intro j t ht
        by_cases hj : j = i
        · rw [hj] at ht
          simp at ht
        · have hold : k.timers j = some t := (Function.update_of_ne hj ..).symm.trans ht
          exact ⟨hold, fun hmem => absurd (List.mem_singleton.mp hmem) hj⟩
      · intro p hp
        exact Function.update_of_ne (hp i (List.mem_singleton.mpr rfl) timer hsome hexp).symm ..
      · intro p
        by_cases hp : p = timer.data
        · right
          rw [hp]
          exact Function.update_self ..
        · exact .inl (Function.update_of_ne hp ..)
      · rfl
    · refine ⟨?_, fun _ _ h _ => h, fun j t ht => ⟨ht, ?_⟩, fun _ _ => rfl, fun _ => .inl rfl, rfl⟩
      · intro j hj t ht hle
        rw [List.mem_singleton.mp hj] at ht
        obtain rfl : timer = t := Option.some.inj (hsome.symm.trans ht)
        exact absurd hle hexp
      · intro hj
        rw [List.mem_singleton.mp hj] at ht
        obtain rfl : timer = t := Option.some.inj (hsome.symm.trans ht)
        omega

theorem Checked.cons {is : List (Fin numTimers)} {i : Fin numTimers} {k₁ : Kernel} (h : Checked [i] k k₁)
    (h' : Checked is k₁ k') : Checked (i :: is) k k' := by
  have hticks : k₁.ticks = k.ticks := by rw [h.rest]
  constructor
  · intro j hj timer htimer hexp
    by_cases hfirst : j ∈ [i]
    · obtain ⟨hnone, hready⟩ := h.fired j hfirst timer htimer hexp
      constructor
      · by_contra hsome
        obtain ⟨t, ht⟩ := Option.ne_none_iff_exists'.mp hsome
        rw [(h'.old j t ht).1] at hnone
        cases hnone
      · rcases h'.ready timer.data with heq | heq
        · exact heq.trans hready
        · exact heq
    · have hlater : j ∈ is := by simpa [List.mem_singleton.not.mp hfirst] using hj
      apply h'.fired j hlater timer (h.kept j timer htimer fun hmem => absurd hmem hfirst)
      rw [hticks]
      exact hexp
  · intro j timer htimer hlate
    apply h'.kept j timer
    · exact h.kept j timer htimer fun hmem => hlate (List.mem_cons.mpr (.inl (List.mem_singleton.mp hmem)))
    · rw [hticks]
      exact fun hmem => hlate (List.mem_cons_of_mem _ hmem)
  · intro j timer htimer
    obtain ⟨hmid, hlate'⟩ := h'.old j timer htimer
    obtain ⟨hold, hlate⟩ := h.old j timer hmid
    refine ⟨hold, fun hmem => ?_⟩
    rcases List.mem_cons.mp hmem with rfl | hmem
    · exact hlate (List.mem_singleton.mpr rfl)
    · rw [← hticks]
      exact hlate' hmem
  · intro p hp
    rw [h'.spared p, h.spared p]
    · exact fun j hj => hp j (List.mem_cons.mpr (.inl (List.mem_singleton.mp hj)))
    · intro j hj timer htimer hexp
      rw [hticks] at hexp
      exact hp j (List.mem_cons_of_mem _ hj) timer (h.old j timer htimer).1 hexp
  · intro p
    rcases h'.ready p with heq | heq
    · rw [heq]
      exact h.ready p
    · exact .inr heq
  · rw [h'.rest, h.rest]

theorem checkTimers_checked : Checked (List.finRange numTimers) k k.checkTimers := by
  unfold checkTimers
  generalize List.finRange numTimers = is
  induction is generalizing k with
  | nil => exact checked_nil
  | cons i is ih => exact (checkTimer_checked i).cons ih

/-! ## Every armed timer belongs to a sleep -/

/-- Neither the processor nor the scheduler is at the process. -/
def Cpu.away (p : Slot) : Cpu → Prop
  | .proc q | .sched (.signal q) | .sched (.run q) | .sched (.handlerYield q) => p ≠ q
  | _ => True

/-- The process is in `knanosleep`, behind the arming of its timer, and has not been woken. -/
def Asleep (k : Kernel) (p : Slot) : Prop :=
  k.pc p = .napSleep ∨ k.state p = .sleeping ∧
    (k.pc p = .napSwitch ∧ k.cpu = .proc p ∨ k.pc p = .user ∧ k.cpu.away p)

structure Armed (k : Kernel) (nap : Slot → Option Nap) : Prop where
  boot : k.cpu = .boot → ∀ i, k.timers i = none
  armed : ∀ i timer, k.timers i = some timer →
    ∃ n, nap timer.data = some n ∧ n.timer = some i ∧ n.expires = timer.expires ∧ Asleep k timer.data
  scan : ∀ p expires, (k.pc p).napExpires = some expires →
    ∃ n, nap p = some n ∧ n.timer = none ∧ n.expires = expires
  done : ∀ p n i, nap p = some n → n.timer = some i →
    k.timers i = some ⟨n.expires, p⟩ ∨ n.expires ≤ k.ticks

variable {s t : Sleepers} {e : Event} {pc : SchedPc}

/-- A process that has the processor has no armed timer, outside of `knanosleep`. -/
theorem not_asleep (hcpu : k.cpu = .proc p) (hpc : k.pc p ≠ .napSleep) (hpc' : k.pc p ≠ .napSwitch) :
    ¬ Asleep k p := by
  rintro (h | ⟨-, ⟨h, -⟩ | ⟨-, h⟩⟩)
  · exact hpc h
  · exact hpc' h
  · rw [hcpu] at h
    exact h rfl

theorem not_asleep_of_scan {expires : ℕ} (hcpu : k.cpu = .proc p) (hpc : (k.pc p).napExpires = some expires) :
    ¬ Asleep k p := by
  apply not_asleep hcpu
  · intro h
    rw [h] at hpc
    cases hpc
  · intro h
    rw [h] at hpc
    cases hpc

/-- The statements of one process do not wake another that they do not touch. -/
theorem Asleep.frame (h : Asleep k q) (hq : q ≠ p) (hcpu : k.cpu = .proc p) (hpc : k'.pc q = k.pc q)
    (hstate : k'.state q = k.state q)
    (hcpu' : k'.cpu = .proc p ∨ k'.cpu = .sched (.back p) ∨ k'.cpu = .lost) : Asleep k' q := by
  rcases h with h | ⟨hs, ⟨-, h⟩ | ⟨h, -⟩⟩
  · exact .inl (hpc.trans h)
  · rw [hcpu] at h
    cases h
    exact absurd rfl hq
  · refine .inr ⟨hstate.trans hs, .inr ⟨hpc.trans h, ?_⟩⟩
    rcases hcpu' with h' | h' | h' <;> rw [h']
    · exact hq
    · trivial
    · trivial

theorem after_frame (hof : (s.kernel.pc p).ofNap = false) :
    s.afterStatement p choice (s.kernel.pc p) =
      match (s.kernel.pc p).starts choice with
      | some j => Function.update s.nap j none
      | none => s.nap := by
  cases hpc : s.kernel.pc p <;> rw [hpc] at hof <;> first | rfl | cases hof

/-- A statement outside of `knanosleep`. -/
theorem Armed.frame (hs : Armed s.kernel s.nap) (hcpu : s.kernel.cpu = .proc p)
    (hof : (s.kernel.pc p).ofNap = false)
    (hapart : ∀ i, ∀ timer ∈ s.kernel.timers i, ¬ Touches s.kernel p choice timer.data (s.kernel.pc p))
    (hstep : s.kernel.procStep p choice = some k') (hf : Frame s.kernel p choice k') :
    Armed k' (s.afterStatement p choice (s.kernel.pc p)) := by
  have hnap : s.afterStatement p choice (s.kernel.pc p) =
      match (s.kernel.pc p).starts choice with
      | some j => Function.update s.nap j none
      | none => s.nap := after_frame hof
  have hpc : s.kernel.pc p ≠ .napSleep := by
    intro h
    rw [h] at hof
    cases hof
  have hpc' : s.kernel.pc p ≠ .napSwitch := by
    intro h
    rw [h] at hof
    cases hof
  -- Only a process that has just been started is in no call any more.
  have hsame (q : Slot) (hq : (s.kernel.pc p).starts choice ≠ some q) :
      s.afterStatement p choice (s.kernel.pc p) q = s.nap q := by
    rw [hnap]
    cases hj : (s.kernel.pc p).starts choice with
    | none => rfl
    | some j =>
        have hqj : q ≠ j := by
          intro heq
          rw [heq] at hq
          exact hq hj
        exact Function.update_of_ne hqj ..
  have hold (q : Slot) (n : Nap) (hn : s.afterStatement p choice (s.kernel.pc p) q = some n) :
      s.nap q = some n := by
    by_cases hq : (s.kernel.pc p).starts choice = some q
    · rw [hnap, hq] at hn
      simp at hn
    · rwa [hsame q hq] at hn
  constructor
  · intro hboot
    rcases hf.cpu with h | h | h <;> rw [h] at hboot <;> cases hboot
  · intro i timer htimer
    rw [hf.timers] at htimer
    obtain ⟨n, hn, hi, hexp, hasleep⟩ := hs.armed i timer htimer
    have hne : timer.data ≠ p := fun heq => not_asleep hcpu hpc hpc' (heq ▸ hasleep)
    have hnot := hapart i timer htimer
    obtain ⟨hq, hst⟩ := hf.others timer.data hne hnot
    refine ⟨n, ?_, hi, hexp, hasleep.frame hne hcpu hq hst hf.cpu⟩
    rw [← hn]
    exact hsame _ fun hstart => hnot (starts_spec hstep hstart).1
  · intro q expires hq
    by_cases hstart : (s.kernel.pc p).starts choice = some q
    · rw [(starts_spec hstep hstart).2] at hq
      cases hq
    · rw [hsame q hstart]
      rcases hf.scans q with hnone | heq
      · rw [hnone] at hq
        cases hq
      · rw [heq] at hq
        exact hs.scan q expires hq
  · intro q n i hn hi
    rw [hf.timers, hf.ticks]
    exact hs.done q n i (hold q n hn) hi

/-- While a process looks for a timer it has none. -/
theorem Armed.data_ne {nap : Slot → Option Nap} {expires : ℕ} (hs : Armed k nap) (hcpu : k.cpu = .proc p)
    (hscan : (k.pc p).napExpires = some expires) (i : Fin numTimers) (timer : Timer)
    (htimer : k.timers i = some timer) : timer.data ≠ p := by
  intro heq
  obtain ⟨-, -, -, -, hasleep⟩ := hs.armed i timer htimer
  exact not_asleep_of_scan hcpu hscan (heq ▸ hasleep)

/-- A step of a process without a timer that concerns that process only. -/
theorem Armed.own {nap nap' : Slot → Option Nap} (hs : Armed k nap) (hcpu : k.cpu = .proc p)
    (hnot : ¬ Asleep k p)
    (htimers : k'.timers = k.timers) (hticks : k'.ticks = k.ticks)
    (hcpu' : k'.cpu = .proc p ∨ k'.cpu = .sched (.back p) ∨ k'.cpu = .lost)
    (hothers : ∀ q ≠ p, k'.pc q = k.pc q ∧ k'.state q = k.state q ∧ nap' q = nap q)
    (hscan : ∀ expires, (k'.pc p).napExpires = some expires →
      ∃ n, nap' p = some n ∧ n.timer = none ∧ n.expires = expires)
    (hdone : ∀ n i, nap' p = some n → n.timer = some i → nap p = some n) : Armed k' nap' := by
  constructor
  · intro hboot
    rcases hcpu' with h | h | h <;> rw [h] at hboot <;> cases hboot
  · intro i timer htimer
    rw [htimers] at htimer
    obtain ⟨n, hn, hi, hexp, hasleep⟩ := hs.armed i timer htimer
    have hne : timer.data ≠ p := fun heq => hnot (heq ▸ hasleep)
    obtain ⟨hpc, hstate, hnap⟩ := hothers _ hne
    exact ⟨n, hnap.trans hn, hi, hexp, hasleep.frame hne hcpu hpc hstate hcpu'⟩
  · intro q expires hq
    by_cases hqp : q = p
    · rw [hqp] at hq ⊢
      exact hscan expires hq
    · obtain ⟨hpc, -, hnap⟩ := hothers q hqp
      rw [hpc] at hq
      rw [hnap]
      exact hs.scan q expires hq
  · intro q n i hn hi
    rw [htimers, hticks]
    by_cases hqp : q = p
    · rw [hqp] at hn ⊢
      exact hs.done p n i (hdone n i hn hi) hi
    · rw [(hothers q hqp).2.2] at hn
      exact hs.done q n i hn hi

/-- A statement of `knanosleep`. -/
theorem Armed.napStep (hs : Armed s.kernel s.nap) (hcpu : s.kernel.cpu = .proc p)
    (hfree : StillFree s.kernel (s.kernel.pc p)) (h : s.kernel.napStep p (s.kernel.pc p) = some k') :
    Armed k' (s.afterStatement p choice (s.kernel.pc p)) := by
  cases hpc : s.kernel.pc p <;> simp only [hpc, Kernel.napStep, reduceCtorEq] at h
  case napScan expires i =>
    have hscan : (s.kernel.pc p).napExpires = some expires := by
      rw [hpc]
      rfl
    have hnot := not_asleep_of_scan hcpu hscan
    have hothers (q : Slot) (hq : q ≠ p) (pc : Pc) :
        (s.kernel.goto p pc).pc q = s.kernel.pc q ∧ (s.kernel.goto p pc).state q = s.kernel.state q ∧
          s.afterStatement p choice (.napScan expires i) q = s.nap q := by
      refine ⟨Function.update_of_ne hq .., rfl, ?_⟩
      unfold Sleepers.afterStatement
      dsimp only
      split_ifs
      · rfl
      · exact Function.update_of_ne hq ..
    split_ifs at h with hi hslot <;> cases h
    · have hnap : s.afterStatement p choice (.napScan expires i) = s.nap := if_pos hi
      refine hs.own hcpu hnot rfl rfl (.inl hcpu) (fun q hq => hothers q hq _)
        (fun e he => ?_) fun n j hn _ => ?_
      · rw [hnap]
        simp only [Kernel.goto, Function.update_self] at he
        exact hs.scan p e (hscan.trans he)
      · rwa [hnap] at hn
    · have hnap : s.afterStatement p choice (.napScan expires i) = s.nap := if_pos hi
      refine hs.own hcpu hnot rfl rfl (.inl hcpu) (fun q hq => hothers q hq _)
        (fun e he => ?_) fun n j hn _ => ?_
      · rw [hnap]
        simp only [Kernel.goto, Function.update_self] at he
        exact hs.scan p e (hscan.trans he)
      · rwa [hnap] at hn
    · have hnap : s.afterStatement p choice (.napScan expires i) p = none := by
        unfold Sleepers.afterStatement
        dsimp only
        rw [if_neg hi, Function.update_self]
      refine hs.own hcpu hnot rfl rfl (.inl hcpu) (fun q hq => hothers q hq _)
        (fun e he => ?_) fun n j hn _ => ?_
      · simp only [Kernel.goto, Function.update_self] at he
        cases he
      · rw [hnap] at hn
        cases hn
  case napArm expires i =>
    cases h
    have hscan : (s.kernel.pc p).napExpires = some expires := by
      rw [hpc]
      rfl
    have hne := hs.data_ne hcpu hscan
    rw [hpc] at hfree
    obtain ⟨n, hn, -, hexp⟩ := hs.scan p expires hscan
    have hself : s.afterStatement p choice (.napArm expires i) p = some { n with timer := some i } := by
      unfold Sleepers.afterStatement
      dsimp only
      rw [Function.update_self, hn]
      rfl
    have hother (q : Slot) (hq : q ≠ p) : s.afterStatement p choice (.napArm expires i) q = s.nap q :=
      Function.update_of_ne hq ..
    constructor
    · intro hboot
      rw [show s.kernel.cpu = .boot from hboot] at hcpu
      cases hcpu
    · intro j timer htimer
      by_cases hj : j = i
      · rw [hj] at htimer ⊢
        have hnew : some (⟨expires, p⟩ : Timer) = some timer :=
          (Function.update_self i _ s.kernel.timers).symm.trans htimer
        obtain rfl : (⟨expires, p⟩ : Timer) = timer := Option.some.inj hnew
        refine ⟨_, hself, rfl, hexp, .inl ?_⟩
        exact Function.update_self ..
      · have hold : s.kernel.timers j = some timer := (Function.update_of_ne hj ..).symm.trans htimer
        obtain ⟨n', hn', hj', hexp', hasleep⟩ := hs.armed j timer hold
        have hdata := hne j timer hold
        refine ⟨n', (hother _ hdata).trans hn', hj', hexp', ?_⟩
        exact hasleep.frame hdata hcpu (Function.update_of_ne hdata ..) rfl (.inl hcpu)
    · intro q expires' hq
      by_cases hqp : q = p
      · rw [hqp] at hq
        simp [Kernel.goto, Pc.napExpires] at hq
      · rw [hother q hqp]
        have hpc' : (Function.update s.kernel.pc p .napSleep) q = s.kernel.pc q := Function.update_of_ne hqp ..
        exact hs.scan q expires' (hpc' ▸ hq)
    · intro q n' j hn' hj
      by_cases hqp : q = p
      · rw [hqp, hself] at hn'
        cases hn'
        cases hj
        left
        rw [hqp, show Nap.expires { n with timer := some i } = expires from hexp]
        exact Function.update_self ..
      · rw [hother q hqp] at hn'
        rcases hs.done q n' j hn' hj with hold | hpast
        · left
          have hji : j ≠ i := by
            intro heq
            rw [heq, show s.kernel.timers i = none from hfree] at hold
            cases hold
          exact (Function.update_of_ne hji ..).trans hold
        · exact .inr hpast
  case napSleep =>
    cases h
    constructor
    · intro hboot
      rw [show s.kernel.cpu = .boot from hboot] at hcpu
      cases hcpu
    · intro i timer htimer
      obtain ⟨n, hn, hi, hexp, hasleep⟩ := hs.armed i timer htimer
      refine ⟨n, hn, hi, hexp, ?_⟩
      by_cases hdata : timer.data = p
      · rw [hdata]
        refine .inr ⟨?_, .inl ⟨?_, hcpu⟩⟩
        · exact Function.update_self ..
        · exact Function.update_self ..
      · have hpc' : (Function.update s.kernel.pc p .napSwitch) timer.data = s.kernel.pc timer.data :=
          Function.update_of_ne hdata ..
        exact hasleep.frame hdata hcpu hpc' (Function.update_of_ne hdata ..) (.inl hcpu)
    · intro q expires hq
      by_cases hqp : q = p
      · rw [hqp] at hq
        simp [Kernel.goto, Pc.napExpires] at hq
      · have hpc' : (Function.update s.kernel.pc p .napSwitch) q = s.kernel.pc q := Function.update_of_ne hqp ..
        exact hs.scan q expires (hpc' ▸ hq)
    · exact hs.done
  case napSwitch =>
    cases h
    constructor
    · intro hboot
      cases hboot
    · intro i timer htimer
      obtain ⟨n, hn, hi, hexp, hasleep⟩ := hs.armed i timer htimer
      refine ⟨n, hn, hi, hexp, ?_⟩
      by_cases hdata : timer.data = p
      · rw [hdata] at hasleep ⊢
        rcases hasleep with hpc' | ⟨hst, -⟩
        · rw [hpc] at hpc'
          cases hpc'
        · refine .inr ⟨hst, .inr ⟨?_, trivial⟩⟩
          exact Function.update_self ..
      · exact hasleep.frame hdata hcpu (Function.update_of_ne hdata ..) rfl (.inr (.inl rfl))
    · intro q expires hq
      by_cases hqp : q = p
      · rw [hqp] at hq
        simp [Kernel.goto, Pc.napExpires] at hq
      · have hpc' : (Function.update s.kernel.pc p .user) q = s.kernel.pc q := Function.update_of_ne hqp ..
        exact hs.scan q expires (hpc' ▸ hq)
    · exact hs.done

/-- Steps that leave the timers, the clock and the program counters alone. -/
theorem Armed.sched {nap nap' : Slot → Option Nap} (hs : Armed k nap) (htimers : k'.timers = k.timers)
    (hticks : k'.ticks = k.ticks) (hpc : k'.pc = k.pc) (hcpu : k'.cpu ≠ .boot)
    (hasleep : ∀ q, Asleep k q → Asleep k' q ∧ nap' q = nap q)
    (hscan : ∀ q, k.pc q ≠ .user → nap' q = nap q) (hdone : ∀ q n, nap' q = some n → nap q = some n) :
    Armed k' nap' := by
  constructor
  · exact fun hboot => absurd hboot hcpu
  · intro i timer htimer
    rw [htimers] at htimer
    obtain ⟨n, hn, hi, hexp, hsleep⟩ := hs.armed i timer htimer
    obtain ⟨hsleep', hnap⟩ := hasleep _ hsleep
    exact ⟨n, hnap.trans hn, hi, hexp, hsleep'⟩
  · intro q expires hq
    rw [hpc] at hq
    rw [hscan q]
    · exact hs.scan q expires hq
    · intro huser
      rw [huser] at hq
      cases hq
  · intro q n i hn hi
    rw [htimers, hticks]
    exact hs.done q n i (hdone q n hn) hi

/-- The scheduler comes to a sleeping process at no point. -/
theorem Asleep.sched (h : Asleep k q) (hcpu : k.cpu = .sched pc) (hpc : k'.pc q = k.pc q)
    (hstate : k.state q = .sleeping → k.cpu.away q → k'.state q = .sleeping ∧ k'.cpu.away q) : Asleep k' q := by
  rcases h with h | ⟨hst, ⟨-, h⟩ | ⟨h, haway⟩⟩
  · exact .inl (hpc.trans h)
  · rw [hcpu] at h
    cases h
  · obtain ⟨hst', haway'⟩ := hstate hst haway
    exact .inr ⟨hst', .inr ⟨hpc.trans h, haway'⟩⟩

theorem schedStep_asleep (hcpu : k.cpu = .sched pc) (h : k.schedStep pc = some k') (hq : Asleep k q) :
    Asleep k' q := by
  have hpcs : k'.pc = k.pc := by
    cases pc <;> simp only [schedStep] at h
    case scan i => split_ifs at h <;> cases h <;> rfl
    case signal p => split_ifs at h <;> cases h <;> rfl
    all_goals cases h
    all_goals rfl
  apply hq.sched hcpu (congrFun hpcs q)
  intro hst haway
  rw [hcpu] at haway
  cases pc with
  | scan i =>
      simp only [schedStep] at h
      split_ifs at h with hi hready <;> cases h
      · refine ⟨hst, fun heq => ?_⟩
        rw [heq, hready] at hst
        cases hst
      · exact ⟨hst, trivial⟩
      · exact ⟨hst, trivial⟩
  | signal p =>
      have hne : q ≠ p := haway
      simp only [schedStep] at h
      split_ifs at h <;> cases h
      · exact ⟨(Function.update_of_ne hne ..).trans hst, hne⟩
      · exact ⟨(Function.update_of_ne hne ..).trans hst, trivial⟩
      · exact ⟨(Function.update_of_ne hne ..).trans hst, hne⟩
  | handlerYield p =>
      cases h
      exact ⟨(Function.update_of_ne haway ..).trans hst, trivial⟩
  | run p =>
      cases h
      exact ⟨(Function.update_of_ne haway ..).trans hst, haway⟩
  | back p =>
      cases h
      refine ⟨?_, trivial⟩
      dsimp only
      split_ifs with hrunning
      · by_cases hqp : q = p
        · rw [hqp, hrunning] at hst
          cases hst
        · rw [Function.update_of_ne hqp]
          exact hst
      · exact hst
  | halt => cases h

theorem Armed.call (hs : Armed s.kernel s.nap) (hcpu : s.kernel.cpu = .proc p)
    (hpc : s.kernel.pc p = .user) (c : Call) :
    Armed (s.kernel.startCall p c) (s.after (.call c)) := by
  have hnot : ¬ Asleep s.kernel p := by
    apply not_asleep hcpu
    · rw [hpc]
      nofun
    · rw [hpc]
      nofun
  have hgoto (pc : Pc) (hnap : pc.napExpires = none) : Armed (s.kernel.goto p pc) s.nap := by
    refine hs.own hcpu hnot rfl rfl (.inl hcpu) (fun q hq => ⟨Function.update_of_ne hq .., rfl, rfl⟩)
      (fun e he => ?_) fun n i hn _ => hn
    simp only [Kernel.goto, Function.update_self] at he
    rw [hnap] at he
    cases he
  cases c with
  | fork => exact hgoto _ rfl
  | exit status => exact hgoto _ rfl
  | wait => exact hgoto _ rfl
  | kill pid sig => exact hgoto _ rfl
  | nanosleep ms =>
      have hafter : s.after (.call (.nanosleep ms)) =
          Function.update s.nap p (some ⟨s.kernel.ticks, ms, none⟩) := by
        unfold Sleepers.after
        rw [hcpu]
      rw [hafter]
      refine hs.own hcpu hnot rfl rfl (.inl hcpu)
        (fun q hq => ⟨Function.update_of_ne hq .., rfl, Function.update_of_ne hq ..⟩)
        (fun e he => ?_) fun n i hn hi => ?_
      · simp only [startCall, Kernel.goto, Function.update_self] at he
        cases he
        exact ⟨_, Function.update_self .., rfl, rfl⟩
      · rw [Function.update_self] at hn
        cases hn
        cases hi
  | yield =>
      refine hs.own hcpu hnot rfl rfl (.inr (.inl rfl)) (fun q hq => ⟨rfl, Function.update_of_ne hq .., rfl⟩)
        (fun e he => ?_) fun n i hn _ => hn
      rw [show (s.kernel.startCall p .yield).pc p = s.kernel.pc p from rfl, hpc] at he
      cases he

/-! ## The timer interrupt -/

theorem timerIrq_checked (k : Kernel) (expired : Bool) :
    ∃ k₁, Checked (List.finRange numTimers) { k with ticks := k.ticks + 1 } k₁ ∧
      (k.timerIrq expired = k₁ ∨
        (∃ p, k.cpu = .proc p ∧ k₁.state p = .running ∧ k.timerIrq expired = k₁.yieldBy p) ∨
        k.cpu = .sched .halt ∧ k.timerIrq expired = { k₁ with cpu := .sched (.scan 0) }) := by
  have hchecked := checkTimers_checked (k := { k with ticks := k.ticks + 1 })
  have hcpu : { k with ticks := k.ticks + 1 }.checkTimers.cpu = k.cpu := by rw [hchecked.rest]
  refine ⟨_, hchecked, ?_⟩
  unfold timerIrq
  simp only
  split
  case h_1 p hp =>
    split_ifs with hexp
    · exact .inr (.inl ⟨p, hcpu ▸ hp, hexp.2, rfl⟩)
    · exact .inl rfl
  case h_2 hp => exact .inr (.inr ⟨hcpu ▸ hp, rfl⟩)
  case h_3 => exact .inl rfl

/-- What an interrupt leaves of a sleeper whose timer has not expired. -/
theorem Asleep.irq {k₁ : Kernel} {expired : Bool} (h : Asleep k q) (hpc : k₁.pc = k.pc) (hcpu : k₁.cpu = k.cpu)
    (hstate : k₁.state q = k.state q)
    (hirq : k.timerIrq expired = k₁ ∨
      (∃ p, k.cpu = .proc p ∧ k₁.state p = .running ∧ k.timerIrq expired = k₁.yieldBy p) ∨
      k.cpu = .sched .halt ∧ k.timerIrq expired = { k₁ with cpu := .sched (.scan 0) }) :
    Asleep (k.timerIrq expired) q := by
  have hsame : Asleep k₁ q := by
    unfold Asleep
    rw [hpc, hcpu, hstate]
    exact h
  rcases hirq with heq | ⟨p, hp, hrunning, heq⟩ | ⟨hhalt, heq⟩ <;> rw [heq]
  · exact hsame
  · rcases hsame with hs | ⟨hs, hwhere⟩
    · exact .inl hs
    · have hne : q ≠ p := by
        intro hqp
        rw [hqp, hrunning] at hs
        cases hs
      refine .inr ⟨(Function.update_of_ne hne ..).trans hs, .inr ?_⟩
      rcases hwhere with ⟨-, hc⟩ | ⟨hu, -⟩
      · rw [hcpu, hp] at hc
        cases hc
        exact absurd rfl hne
      · exact ⟨hu, trivial⟩
  · rcases hsame with hs | ⟨hs, ⟨-, hc⟩ | ⟨hu, -⟩⟩
    · exact .inl hs
    · rw [hcpu, hhalt] at hc
      cases hc
    · exact .inr ⟨hs, .inr ⟨hu, trivial⟩⟩

theorem Armed.irq {nap : Slot → Option Nap} (hs : Armed k nap) (expired : Bool) (hcpu : k.cpu ≠ .boot) :
    Armed (k.timerIrq expired) nap := by
  obtain ⟨k₁, hchecked, hirq⟩ := timerIrq_checked k expired
  have hpc : k₁.pc = k.pc := by rw [hchecked.rest]
  have hcpu₁ : k₁.cpu = k.cpu := by rw [hchecked.rest]
  have hticks₁ : k₁.ticks = k.ticks + 1 := by rw [hchecked.rest]
  have htimers : (k.timerIrq expired).timers = k₁.timers := by
    rcases hirq with heq | ⟨p, -, -, heq⟩ | ⟨-, heq⟩ <;> rw [heq] <;> rfl
  have hticks : (k.timerIrq expired).ticks = k.ticks + 1 := by
    rcases hirq with heq | ⟨p, -, -, heq⟩ | ⟨-, heq⟩ <;> rw [heq, ← hticks₁] <;> rfl
  have hpcs : (k.timerIrq expired).pc = k.pc := by
    rcases hirq with heq | ⟨p, -, -, heq⟩ | ⟨-, heq⟩ <;> rw [heq, ← hpc] <;> rfl
  constructor
  · intro hboot
    rcases hirq with heq | ⟨p, -, -, heq⟩ | ⟨-, heq⟩ <;> rw [heq] at hboot
    · exact absurd (hcpu₁ ▸ hboot) hcpu
    · cases hboot
    · cases hboot
  · intro i timer htimer
    rw [htimers] at htimer
    obtain ⟨hold, hlate⟩ := hchecked.old i timer htimer
    obtain ⟨n, hn, hi, hexp, hasleep⟩ := hs.armed i timer hold
    refine ⟨n, hn, hi, hexp, hasleep.irq hpc hcpu₁ ?_ hirq⟩
    -- Another timer of the same process would be the timer of the same call.
    apply hchecked.spared
    intro j _ t ht hdue heq
    obtain ⟨n', hn', hj, -, -⟩ := hs.armed j t ht
    rw [heq, hn] at hn'
    cases hn'
    obtain rfl : i = j := Option.some.inj (hi.symm.trans hj)
    obtain rfl : timer = t := Option.some.inj (hold.symm.trans ht)
    exact absurd hdue (not_le.mpr (hlate (List.mem_finRange i)))
  · intro q expires hq
    rw [hpcs] at hq
    exact hs.scan q expires hq
  · intro q n i hn hi
    rw [htimers, hticks]
    rcases hs.done q n i hn hi with htimer | hpast
    · by_cases hdue : n.expires ≤ k.ticks + 1
      · exact .inr hdue
      · exact .inl (hchecked.kept i _ htimer fun _ => not_le.mp hdue)
    · exact .inr (by omega)

/-- The timers that an interrupt finds expired. -/
theorem irq_orderly (hs : Armed s.kernel s.nap) {expired : Bool} (hapart : Apart s.kernel (.irq expired)) :
    s.Orderly (.irq expired) ⟨s.kernel.timerIrq expired, s.after (.irq expired)⟩ := by
  obtain ⟨k₁, hchecked, hirq⟩ := timerIrq_checked s.kernel expired
  have htimers : (s.kernel.timerIrq expired).timers = k₁.timers := by
    rcases hirq with heq | ⟨p, -, -, heq⟩ | ⟨-, heq⟩ <;> rw [heq] <;> rfl
  constructor
  · intro _ _ i timer htimer hdue
    obtain ⟨hnone, hready⟩ := hchecked.fired i (List.mem_finRange i) timer htimer hdue
    obtain ⟨n, hn, hi, hexp, hasleep⟩ := hs.armed i timer htimer
    refine ⟨htimers ▸ hnone, ⟨⟨n, hn, hi, hexp⟩, ?_⟩, ?_⟩
    · rcases hasleep with hpc | ⟨hst, -⟩
      · exact absurd hpc (hapart i timer htimer hdue)
      · exact hst
    · rcases hirq with heq | ⟨p, -, hrunning, heq⟩ | ⟨-, heq⟩ <;> dsimp only <;> rw [heq]
      · exact hready
      · have hne : timer.data ≠ p := by
          intro heq'
          rw [heq', hrunning] at hready
          cases hready
        exact (Function.update_of_ne hne ..).trans hready
      · exact hready
  · intro i timer htimer hlate
    dsimp only
    rw [htimers]
    exact hchecked.kept i timer htimer fun _ => hlate expired rfl
  · intro _ _ p hchanged
    by_contra! hnone
    have hspared : k₁.state p = s.kernel.state p := by
      apply hchecked.spared
      intro i _ timer htimer hdue
      exact hnone.1 i timer htimer hdue
    apply hchanged
    rcases hirq with heq | ⟨q, hq, hrunning, heq⟩ | ⟨-, heq⟩ <;> dsimp only <;> rw [heq]
    · exact hspared
    · have hne : p ≠ q := by
        intro heq'
        rw [heq'] at hspared hnone
        exact hnone.2 hq (hspared ▸ hrunning)
      exact (Function.update_of_ne hne ..).trans hspared
    · exact hspared
  · intro choice he
    cases he

/-! ## Runs -/

/-- A step other than a timer interrupt. -/
theorem orderly_of_timers (hirq : ∀ expired, e ≠ .irq expired)
    (htimers : ∀ i timer, s.kernel.timers i = some timer → t.kernel.timers i = some timer)
    (hreturns : ∀ choice, e = .run choice → ∀ p n i, s.kernel.cpu = .sched (.run p) → s.kernel.pc p = .user →
      s.nap p = some n → n.timer = some i → n.start + n.ms * hz / 1000 ≤ s.kernel.ticks) : s.Orderly e t :=
  ⟨fun x he => absurd he (hirq x), fun i timer htimer _ => htimers i timer htimer,
    fun x he => absurd he (hirq x), hreturns⟩

theorem Armed.boot_step (hs : Armed s.kernel s.nap) (hcpu : s.kernel.cpu = .boot) :
    Armed s.kernel.createInitialProcess s.nap := by
  constructor
  · intro hboot
    cases hboot
  · intro i timer htimer
    rw [show s.kernel.createInitialProcess.timers = s.kernel.timers from rfl, hs.boot hcpu i] at htimer
    cases htimer
  · intro q expires hq
    by_cases hqi : q = init
    · rw [hqi] at hq
      simp [createInitialProcess, Pc.napExpires] at hq
    · have hpc : s.kernel.createInitialProcess.pc q = s.kernel.pc q := Function.update_of_ne hqi ..
      rw [hpc] at hq
      exact hs.scan q expires hq
  · exact hs.done

theorem Armed.sched_step (hs : Armed s.kernel s.nap) (hcpu : s.kernel.cpu = .sched pc) (choice : Bool)
    (h : s.kernel.schedStep pc = some k') : Armed k' (s.after (.run choice)) ∧ k'.timers = s.kernel.timers := by
  have hkeep : k'.timers = s.kernel.timers ∧ k'.ticks = s.kernel.ticks ∧ k'.pc = s.kernel.pc ∧
      k'.cpu ≠ .boot := by
    cases pc <;> simp only [schedStep] at h
    case scan i => split_ifs at h <;> cases h <;> exact ⟨rfl, rfl, rfl, fun hb => by cases hb⟩
    case signal p => split_ifs at h <;> cases h <;> exact ⟨rfl, rfl, rfl, fun hb => by cases hb⟩
    all_goals cases h
    all_goals exact ⟨rfl, rfl, rfl, fun hb => by cases hb⟩
  obtain ⟨htimers, hticks, hpc, hne⟩ := hkeep
  refine ⟨?_, htimers⟩
  -- Only the process that the scheduler switches to can return from a call.
  have hafter : s.after (.run choice) = s.nap ∨ ∃ p, pc = .run p ∧ s.kernel.pc p = .user ∧
      s.after (.run choice) = Function.update s.nap p none := by
    unfold Sleepers.after
    rw [hcpu]
    cases pc with
    | run p =>
        by_cases huser : s.kernel.pc p = .user
        · exact .inr ⟨p, rfl, huser, if_pos huser⟩
        · exact .inl (if_neg huser)
    | _ => exact .inl rfl
  apply hs.sched htimers hticks hpc hne
  · intro q hq
    refine ⟨schedStep_asleep hcpu h hq, ?_⟩
    rcases hafter with heq | ⟨p, rfl, huser, heq⟩ <;> rw [heq]
    have hqp : q ≠ p := by
      intro hqp
      rw [hqp] at hq
      rcases hq with hpc' | ⟨-, ⟨hpc', -⟩ | ⟨-, haway⟩⟩
      · rw [huser] at hpc'
        cases hpc'
      · rw [huser] at hpc'
        cases hpc'
      · rw [hcpu] at haway
        exact haway rfl
    exact Function.update_of_ne hqp ..
  · intro q hq
    rcases hafter with heq | ⟨p, -, huser, heq⟩ <;> rw [heq]
    have hqp : q ≠ p := fun hqp => hq (hqp ▸ huser)
    exact Function.update_of_ne hqp ..
  · intro q n hn
    rcases hafter with heq | ⟨p, -, -, heq⟩ <;> rw [heq] at hn
    · exact hn
    · by_cases hqp : q = p
      · rw [hqp, Function.update_self] at hn
        cases hn
      · rwa [Function.update_of_ne hqp] at hn

/-- The call that the scheduler returns to has lasted as long as it should. -/
theorem Armed.returns (hs : Armed s.kernel s.nap) {n : Nap} {i : Fin numTimers}
    (hcpu : s.kernel.cpu = .sched (.run p)) (hpc : s.kernel.pc p = .user) (hn : s.nap p = some n)
    (hi : n.timer = some i) :
    n.start + n.ms * hz / 1000 ≤ s.kernel.ticks := by
  rcases hs.done p n i hn hi with htimer | hpast
  · obtain ⟨-, -, -, -, hasleep⟩ := hs.armed i _ htimer
    rcases hasleep with hpc' | ⟨-, ⟨hpc', -⟩ | ⟨-, haway⟩⟩
    · rw [hpc] at hpc'
      cases hpc'
    · rw [hpc] at hpc'
      cases hpc'
    · rw [hcpu] at haway
      exact absurd rfl haway
  · exact hpast

/-- Arming takes an entry that is free. -/
theorem napStep_timers {i : Fin numTimers} {timer : Timer} (hfree : StillFree k (k.pc p))
    (h : k.napStep p (k.pc p) = some k') (htimer : k.timers i = some timer) : k'.timers i = some timer := by
  cases hpc : k.pc p <;> simp only [hpc, Kernel.napStep, reduceCtorEq] at h
  case napScan expires j => split_ifs at h <;> cases h <;> exact htimer
  case napArm expires j =>
    cases h
    rw [hpc] at hfree
    have hne : i ≠ j := by
      intro heq
      rw [heq, show k.timers j = none from hfree] at htimer
      cases htimer
    exact (Function.update_of_ne hne ..).trans htimer
  case napSleep =>
    cases h
    exact htimer
  case napSwitch =>
    cases h
    exact htimer

theorem Armed.step (hs : Armed s.kernel s.nap) (hapart : Apart s.kernel e) (h : s.Step e t) :
    Armed t.kernel t.nap ∧ s.Orderly e t := by
  obtain ⟨k', hk, rfl⟩ := Option.map_eq_some_iff.mp h
  cases e with
  | boot =>
      simp only [Sys.step] at hk
      split_ifs at hk with hcpu
      cases hk
      exact ⟨hs.boot_step hcpu,
        orderly_of_timers (fun _ he => by cases he) (fun _ _ h => h) fun _ he => by cases he⟩
  | irq expired =>
      simp only [Sys.step] at hk
      split_ifs at hk with hirq
      cases hk
      exact ⟨hs.irq expired hirq.2.1, irq_orderly hs hapart⟩
  | call c =>
      simp only [Sys.step] at hk
      split at hk
      · next p hcpu =>
          split_ifs at hk with hpc
          cases hk
          refine ⟨hs.call hcpu hpc c,
            orderly_of_timers (fun _ he => by cases he) (fun i timer htimer => ?_) fun _ he => by cases he⟩
          cases c <;> exact htimer
      · cases hk
  | run choice =>
      simp only [Sys.step] at hk
      split at hk
      · next pc hcpu =>
          obtain ⟨hinv, htimers⟩ := hs.sched_step hcpu choice hk
          refine ⟨hinv, orderly_of_timers (fun _ he => by cases he) (fun i timer htimer => ?_) ?_⟩
          · dsimp only
            rw [htimers]
            exact htimer
          · intro _ _ p n i hrun hpc hn hi
            exact hs.returns hrun hpc hn hi
      · next p hcpu =>
          have hafter : s.after (.run choice) = s.afterStatement p choice (s.kernel.pc p) := by
            unfold Sleepers.after
            rw [hcpu]
          unfold Apart at hapart
          simp only [hcpu] at hapart
          obtain ⟨htouch, hfree⟩ := hapart
          have hreturns : ∀ c, Event.run choice = .run c → ∀ p n i, s.kernel.cpu = .sched (.run p) →
              s.kernel.pc p = .user → s.nap p = some n → n.timer = some i →
              n.start + n.ms * hz / 1000 ≤ s.kernel.ticks := by
            intro _ _ q n i hrun
            rw [hcpu] at hrun
            cases hrun
          rcases procStep_nap_or_frame hcpu hk with ⟨hnap, -⟩ | ⟨hframe, hof⟩
          · refine ⟨?_, orderly_of_timers (fun _ he => by cases he) (fun i timer htimer => ?_) hreturns⟩
            · dsimp only
              rw [hafter]
              exact hs.napStep hcpu hfree hnap
            · exact napStep_timers hfree hnap htimer
          · refine ⟨?_, orderly_of_timers (fun _ he => by cases he) (fun i timer htimer => ?_) hreturns⟩
            · dsimp only
              rw [hafter]
              exact hs.frame hcpu hof htouch hk hframe
            · dsimp only
              rw [hframe.timers]
              exact htimer
      · cases hk

/-- At power-on no process is in a call. -/
def allAwake : Sleepers := ⟨powerOn, fun _ => none⟩

theorem armed_allAwake : Armed allAwake.kernel allAwake.nap :=
  ⟨fun _ _ => rfl, nofun, nofun, nofun⟩

/-- Every run of the kernel is the run of some sleepers. -/
theorem exists_sleepers {k u : Kernel} {tr : List (Kernel × Event)} (h : Trace Sys.Step k tr u)
    (nap : Slot → Option Nap) : ∃ ts v, Trace Sleepers.Step ⟨k, nap⟩ ts v ∧ v.kernel = u ∧
      ts.map (fun x => (x.1.kernel, x.2)) = tr := by
  induction h generalizing nap with
  | nil k => exact ⟨[], _, .nil _, rfl, rfl⟩
  | @cons k k' u e tr hst _ ih =>
      obtain ⟨ts, v, hts, hv, hmap⟩ := ih (Sleepers.after ⟨k, nap⟩ e)
      refine ⟨(⟨k, nap⟩, e) :: ts, v, .cons ?_ hts, hv, by rw [List.map_cons, hmap]⟩
      exact Option.map_eq_some_iff.mpr ⟨k', hst, rfl⟩

/-- In a run whose steps keep away from the processes with an armed timer, every timer
fires once, at the first interrupt at which it has expired, and wakes the process that
sleeps in the call that armed it; and no call returns before its time. -/
theorem timers_belong {u : Sleepers} {tr : List (Sleepers × Event)} (htr : Trace Sleepers.Step allAwake tr u)
    (hapart : ∀ x ∈ tr, Apart x.1.kernel x.2) : ∀ x ∈ tr, ∀ t, x.1.Step x.2 t → x.1.Orderly x.2 t := by
  have hinv := htr.throughout_of (I := fun s => Armed s.kernel s.nap) (C := fun s e => Apart s.kernel e)
    (fun s e t hs hc hst => (hs.step hc hst).1) armed_allAwake hapart
  intro x hx t ht
  exact ((hinv.1 x hx).step (hapart x hx) ht).2

/-- Slot 1 sleeps for two ticks, and runs again. -/
def napRun : List Event :=
  forkRun ++ [.call (.nanosleep 20)] ++ runs true 8 ++ [.irq false, .irq false, .call .yield] ++ runs true 31 ++
    [.irq false] ++ runs true 41

theorem timers_belong_nap : ∃ u tr, Trace Sleepers.Step allAwake tr u ∧ u.kernel.cpu = .proc slot1 ∧
    ∀ x ∈ tr, ∀ t, x.1.Step x.2 t → x.1.Orderly x.2 t := by
  have hrun : ((exec Sleepers.step allAwake napRun).any fun u =>
      u.kernel.cpu = .proc slot1 && (history Sleepers.step allAwake napRun).all fun x =>
        Apart x.1.kernel x.2) = true := by
    decide
  obtain ⟨u, hu, hr⟩ := (Option.any_eq_true ..).mp hrun
  obtain ⟨hcpu, hall⟩ := Bool.and_eq_true_iff.mp hr
  have hapart : ∀ x ∈ history Sleepers.step allAwake napRun, Apart x.1.kernel x.2 :=
    fun x hx => of_decide_eq_true (List.all_eq_true.mp hall x hx)
  exact ⟨u, _, exec_trace hu, of_decide_eq_true hcpu, timers_belong (exec_trace hu) hapart⟩

/-- A sleeper is woken by a signal and exits; its timer fires all the same. -/
theorem not_timers_belong : ¬ ∀ (u : Sleepers) (tr : List (Sleepers × Event)),
    Trace Sleepers.Step allAwake tr u →
    ∀ x ∈ tr, ∀ t, x.1.Step x.2 t → x.1.Orderly x.2 t := by
  intro hclaim
  let first : Fin numTimers := ⟨0, by decide⟩
  have hrun : ((exec Sleepers.step allAwake sleeperRun).any fun s => s.kernel.state slot1 = .zombie &&
      s.kernel.timers first = some ⟨100, slot1⟩ && 100 ≤ s.kernel.ticks + 1 &&
        (s.step (.irq false)).isSome) = true := by
    decide +kernel
  obtain ⟨s, hs, hr⟩ := (Option.any_eq_true ..).mp hrun
  simp only [Bool.and_eq_true, decide_eq_true_eq] at hr
  obtain ⟨⟨⟨hzombie, htimer⟩, hdue⟩, hstep⟩ := hr
  obtain ⟨t, ht⟩ := Option.isSome_iff_exists.mp hstep
  have horderly := hclaim t _ ((exec_trace hs).append (.single ht)) (s, .irq false) (by simp) t ht
  obtain ⟨-, hblocked, -⟩ := horderly.fires false rfl first ⟨100, slot1⟩ htimer hdue
  rw [show s.kernel.state slot1 = .sleeping from hblocked.asleep] at hzombie
  cases hzombie

end Ferrite.Sys
