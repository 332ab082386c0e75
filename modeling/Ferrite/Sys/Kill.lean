import Ferrite.Sys.FatalSignals
import Ferrite.Sys.SlotReuse

/-!
# Whom a signal reaches

`find_process` takes the first slot with the pid and does not look at its state. A pid other
than 0 is in one slot at most, so what decides is whether that slot is live. The pid 0 is in all
slots that `do_wait` has emptied or that were never taken.

`do_kill` admits the number `NSIG`, which is one more than the last bit, and the loop of
`handle_signal` does not come past a signal that stops or ends the process.
-/
namespace Ferrite.Sys
open Runs

/-- Neither `UNUSED` nor `ZOMBIE`. -/
def ProcState.Live (st : ProcState) : Prop := st ≠ .unused ∧ st ≠ .zombie

instance (st : ProcState) : Decidable st.Live := inferInstanceAs (Decidable (_ ∧ _))

/-- The default action gives up the processor inside the loop of `handle_signal`. -/
def Yields (sig : ℕ) : Prop :=
  sigaction sig = .dfl ∧ defaultAction sig ∈ [Action.stop, .kill, .core, .term]

instance (sig : ℕ) : Decidable (Yields sig) := inferInstanceAs (Decidable (_ ∧ _))

/-! ## The loop over the signals -/

section loop
variable {n sig i : ℕ} {pending : BitVec 32} {state : ProcState} {printed : Bool}

theorem getLsbD_clear_false (sig : ℕ) (h : pending.getLsbD i = false) :
    (pending &&& ~~~(1#32 <<< sig)).getLsbD i = false := by
  rw [BitVec.getLsbD_and, h, Bool.false_and]

theorem getLsbD_clear_self : (pending &&& ~~~(1#32 <<< sig)).getLsbD sig = false := by
  rw [BitVec.getLsbD_and, BitVec.getLsbD_not, BitVec.getLsbD_shiftLeft, BitVec.getLsbD_one]
  by_cases hsig : sig < 32
  · simp [hsig]
  · simp [hsig]

/-- No bit is set on the way. -/
theorem handleSignal_false (h : pending.getLsbD i = false) :
    (handleSignal n sig pending state printed).pending.getLsbD i = false := by
  induction n generalizing sig pending state printed with
  | zero => exact h
  | succ n ih =>
      unfold handleSignal
      by_cases hset : pending.getLsbD sig = true
      · have hkeep := getLsbD_clear_false sig h
        rw [if_pos hset]
        cases sigaction sig with
        | ign => exact ih hkeep
        | dfl =>
            cases defaultAction sig with
            | stop | kill | core | term => exact hkeep
            | cont | unknown => exact ih hkeep
      · rw [if_neg hset]
        exact ih h

/-- A pending signal is taken off exactly if no smaller one ends the loop. -/
theorem handleSignal_clears (hi : sig ≤ i) (hn : i < sig + n) (hbit : pending.getLsbD i = true) :
    (handleSignal n sig pending state printed).pending.getLsbD i = false ↔
      ∀ s, sig ≤ s → s < i → pending.getLsbD s = true → ¬ Yields s := by
  induction n generalizing sig pending state printed with
  | zero => omega
  | succ n ih =>
      unfold handleSignal
      by_cases hsig : i = sig
      · subst hsig
        have hclear : (pending &&& ~~~(1#32 <<< i)).getLsbD i = false := getLsbD_clear_self
        apply iff_of_true
        · rw [if_pos hbit]
          cases sigaction i with
          | ign => exact handleSignal_false hclear
          | dfl =>
              cases defaultAction i with
              | stop | kill | core | term => exact hclear
              | cont | unknown => exact handleSignal_false hclear
        · intro s hs hlt
          omega
      · have hrest : sig + 1 ≤ i := by omega
        have hend : i < sig + 1 + n := by omega
        by_cases hset : pending.getLsbD sig = true
        · have hkeep := getLsbD_clear hbit hsig
          -- The loop goes on with the bits above the one it has cleared.
          have hgo (hno : ¬ Yields sig) (st : ProcState) (pr : Bool) :
              (handleSignal n (sig + 1) (pending &&& ~~~(1#32 <<< sig)) st pr).pending.getLsbD i = false ↔
                ∀ s, sig ≤ s → s < i → pending.getLsbD s = true → ¬ Yields s := by
            rw [ih hrest hend hkeep]
            constructor
            · intro h s hs hlt hbit'
              by_cases hss : s = sig
              · rw [hss]
                exact hno
              · exact h s (by omega) hlt (getLsbD_clear hbit' hss)
            · intro h s hs hlt hbit'
              refine h s (by omega) hlt ?_
              by_contra hno'
              have hfalse : pending.getLsbD s = false := by simpa using hno'
              rw [getLsbD_clear_false sig hfalse] at hbit'
              cases hbit'
          have hstop (hyes : Yields sig) :
              ¬ ∀ s, sig ≤ s → s < i → pending.getLsbD s = true → ¬ Yields s :=
            fun h => h sig le_rfl (by omega) hset hyes
          rw [if_pos hset]
          cases hact : sigaction sig with
          | ign =>
              have hno : ¬ Yields sig := fun h => by
                have := h.1
                rw [hact] at this
                cases this
              exact hgo hno _ _
          | dfl =>
              have hyields : Yields sig ↔ defaultAction sig ∈ [Action.stop, .kill, .core, .term] :=
                and_iff_right hact
              cases hdef : defaultAction sig with
              | stop | kill | core | term =>
                  have hyes : Yields sig := hyields.mpr (by rw [hdef]; decide)
                  refine iff_of_false ?_ (hstop hyes)
                  simp only
                  rw [hkeep]
                  exact Bool.noConfusion
              | cont | unknown =>
                  have hno : ¬ Yields sig := fun h => by
                    have := hyields.mp h
                    rw [hdef] at this
                    exact absurd this (by decide)
                  exact hgo hno _ _
        · rw [if_neg hset, ih hrest hend hbit]
          constructor
          · intro h s hs hlt hbit'
            have hss : s ≠ sig := fun heq => hset (heq ▸ hbit')
            exact h s (by omega) hlt hbit'
          · intro h s hs hlt hbit'
            exact h s (by omega) hlt hbit'

end loop

namespace Table
variable {T U : Table} {p i j : Slot} {pid sig : ℤ} {tr : List (Table × SlotEvent)}

/-! ## The results of the calls -/

/-- What `do_kill` returns. -/
def doKillResult (T : Table) (pid sig : ℤ) : ℤ :=
  if sig < 1 ∨ 32 < sig then -1
  else
    match T.findProcess pid with
    | none => -1
    | some _ => 0

/-- The caller may send signals to the process in a slot. -/
def MayKill (T : Table) (p j : Slot) : Prop :=
  (T.procs p).creds.euid = rootUid ∨ (T.procs p).creds.euid = (T.procs j).creds.euid ∨
    (T.procs p).creds.uid = (T.procs j).creds.uid

instance (T : Table) (p j : Slot) : Decidable (T.MayKill p j) := inferInstanceAs (Decidable (_ ∨ _))

/-- What `sys_kill` returns. -/
def sysKillResult (T : Table) (p : Slot) (pid sig : ℤ) : ℤ :=
  match T.findProcess pid with
  | none => -1
  | some j => if T.MayKill p j then T.doKillResult pid sig else -1

/-- The slot after a signal. -/
def marked (q : Proc) (sig : ℤ) : Proc :=
  { q with
    pending := q.pending ||| 1#32 <<< (sig.toNat % 32)
    state := if q.state = .sleeping then .ready else q.state }

/-- The call fails and changes nothing, or marks the first slot with the pid. -/
theorem sysKill_cases (T : Table) (p : Slot) (pid sig : ℤ) :
    (T.sysKillResult p pid sig ≠ 0 ∧ T.sysKill p pid sig = T ∧
      ∀ j, T.findProcess pid = some j → T.MayKill p j → ¬ (1 ≤ sig ∧ sig ≤ 32)) ∨
    ∃ j, T.findProcess pid = some j ∧ T.MayKill p j ∧ 1 ≤ sig ∧ sig ≤ 32 ∧
      T.sysKillResult p pid sig = 0 ∧ T.sysKill p pid sig = T.set j (marked (T.procs j) sig) := by
  unfold sysKillResult sysKill
  cases hfind : T.findProcess pid with
  | none => exact .inl ⟨by simp, rfl, fun j hj => by cases hj⟩
  | some j =>
      simp only
      by_cases hmay : T.MayKill p j
      · rw [if_pos hmay, if_pos (show _ ∨ _ ∨ _ from hmay)]
        unfold doKillResult doKill
        by_cases hsig : sig < 1 ∨ 32 < sig
        · rw [if_pos hsig, if_pos hsig]
          refine .inl ⟨by decide, rfl, ?_⟩
          intro _ _ _ hrange
          omega
        · rw [if_neg hsig, if_neg hsig, hfind]
          exact .inr ⟨j, rfl, hmay, by omega, by omega, rfl, rfl⟩
      · rw [if_neg hmay, if_neg (show ¬ (_ ∨ _ ∨ _) from hmay)]
        refine .inl ⟨by decide, rfl, ?_⟩
        intro j' hj' hmay'
        cases hj'
        exact absurd hmay' hmay

/-! ## The property -/

/-- The process in slot `j` is the live one that has the pid, and the signal and nothing else was
set for it; its next `handle_signal` takes the signal off. -/
structure Reaches (T U : Table) (pid sig : ℤ) (j : Slot) : Prop where
  live : (T.procs j).state.Live
  owner : (T.procs j).pid = pid
  unique : ∀ i, (T.procs i).state.Live → (T.procs i).pid = pid → i = j
  marks : ∀ b : ℕ,
    (U.procs j).pending.getLsbD b = ((T.procs j).pending.getLsbD b || decide ((b : ℤ) = sig))
  others : ∀ i ≠ j, (U.procs i).pending = (T.procs i).pending
  handled : (handleSignal 31 1 (U.procs j).pending .ready false).pending.getLsbD sig.toNat = false

/-- A kill that returns 0 reaches a live process, and another changes nothing. -/
def KillReaches (T : Table) (p : Slot) (pid sig : ℤ) : Prop :=
  if T.sysKillResult p pid sig = 0 then ∃ j, T.Reaches (T.sysKill p pid sig) pid sig j
  else T.sysKill p pid sig = T

/-- The first slot with a pid is live. The pid 0 may be in a slot that a timer has made ready
after its process was reaped; then it is the only one, and it is the first slot with this pid or
the signal is pending in both already. -/
def Addressed (T : Table) (pid sig : ℤ) (j i : Slot) : Prop :=
  if pid = 0 then
    (T.procs i).state.Live ∧ (T.procs i).pid = 0 ∧
      (∀ k, (T.procs k).state.Live → (T.procs k).pid = 0 → k = i) ∧
      (i = j ∨ ((T.procs i).pending.getLsbD sig.toNat = true ∧
        (T.procs j).pending.getLsbD sig.toNat = true))
  else i = j ∧ (T.procs j).state.Live

/-- A kill that is let through is for a live process, its number has a bit, and no smaller
signal is pending that stops or ends the process. -/
def KillLive (T : Table) (p : Slot) (pid sig : ℤ) : Prop :=
  ∀ j, T.findProcess pid = some j → T.MayKill p j → 1 ≤ sig → sig ≤ 32 →
    sig < 32 ∧ ∃ i, T.Addressed pid sig j i ∧
      ∀ s : ℕ, 1 ≤ s → (s : ℤ) < sig → (T.procs i).pending.getLsbD s = true → ¬ Yields s

/-! ## Pids -/

/-- A pid is in one slot, but for 0, and was given out before. -/
structure Numbered (T : Table) : Prop where
  distinct : ∀ i j, (T.procs i).pid = (T.procs j).pid → (T.procs i).pid ≠ 0 → i = j
  below : ∀ i, (T.procs i).pid < T.pidCounter
  pos : 0 < T.pidCounter

/-- The pids stay, but for those that are cleared. -/
theorem Numbered.of_pids (h : T.Numbered) (hcounter : U.pidCounter = T.pidCounter)
    (hpids : ∀ i, (U.procs i).pid = (T.procs i).pid) : U.Numbered := by
  constructor
  · intro i j heq hne
    rw [hpids, hpids] at heq
    rw [hpids] at hne
    exact h.distinct i j heq hne
  · intro i
    rw [hpids, hcounter]
    exact h.below i
  · rw [hcounter]
    exact h.pos

theorem set_pid {q : Proc} (hq : q.pid = (T.procs j).pid) (i : Slot) :
    ((T.set j q).procs i).pid = (T.procs i).pid := by
  unfold set
  by_cases hij : i = j
  · rw [hij]
    simp [hq]
  · simp [hij]

theorem Numbered.set (h : T.Numbered) {q : Proc} (hq : q.pid = (T.procs j).pid) : (T.set j q).Numbered :=
  h.of_pids rfl (set_pid hq)

theorem Numbered.wakeup (h : T.Numbered) (channel : Option Slot) : (T.wakeup channel).Numbered := by
  refine h.of_pids rfl ?_
  intro i
  unfold Table.wakeup
  simp only
  split <;> rfl

/-- A slot is given the next pid. -/
theorem Numbered.give (h : T.Numbered) {q : Proc} (hq : q.pid = T.pidCounter) :
    ({ T with pidCounter := T.pidCounter + 1 }.set j q).Numbered := by
  have hpid (i : Slot) : (({ T with pidCounter := T.pidCounter + 1 } : Table).set j q).procs i =
      if i = j then q else T.procs i := by
    unfold Table.set
    by_cases hij : i = j
    · simp [hij]
    · simp [hij]
  constructor
  · intro i k heq hne
    rw [hpid, hpid] at heq
    rw [hpid] at hne
    have hi := h.below i
    have hk := h.below k
    by_cases hij : i = j
    · by_cases hkj : k = j
      · rw [hij, hkj]
      · rw [if_pos hij, if_neg hkj, hq] at heq
        omega
    · by_cases hkj : k = j
      · rw [if_neg hij, if_pos hkj, hq] at heq
        omega
      · rw [if_neg hij, if_neg hkj] at heq
        rw [if_neg hij] at hne
        exact h.distinct i k heq hne
  · intro i
    rw [hpid]
    change _ < T.pidCounter + 1
    by_cases hij : i = j
    · rw [if_pos hij, hq]
      omega
    · rw [if_neg hij]
      have := h.below i
      omega
  · have := h.pos
    change 0 < T.pidCounter + 1
    omega

/-- A slot loses its pid. -/
theorem Numbered.clear (h : T.Numbered) {q : Proc} (hq : q.pid = 0) :
    (T.set j q).Numbered := by
  have hpid (i : Slot) : (T.set j q).procs i = if i = j then q else T.procs i := by
    unfold Table.set
    by_cases hij : i = j
    · simp [hij]
    · simp [hij]
  constructor
  · intro i k heq hne
    rw [hpid, hpid] at heq
    rw [hpid] at hne
    by_cases hij : i = j
    · rw [if_pos hij, hq] at hne
      exact absurd rfl hne
    · rw [if_neg hij] at heq hne
      by_cases hkj : k = j
      · rw [if_pos hkj, hq] at heq
        exact absurd heq hne
      · rw [if_neg hkj] at heq
        exact h.distinct i k heq hne
  · intro i
    rw [hpid]
    by_cases hij : i = j
    · rw [if_pos hij, hq]
      exact h.pos
    · rw [if_neg hij]
      exact h.below i
  · exact h.pos

theorem Numbered.allocProc (h : T.Numbered) (mem : Pages) : (T.allocProc mem).2.Numbered := by
  unfold Table.allocProc
  cases T.firstUnused with
  | none => exact h
  | some i =>
      simp only
      split
      · exact h.give rfl
      · exact h.give rfl

theorem Numbered.doFork (h : T.Numbered) (mem : Pages) : (T.doFork mem).2.Numbered := by
  have halloc := h.allocProc mem
  unfold Table.doFork
  cases hcall : T.allocProc mem with
  | mk r U =>
      rw [hcall] at halloc
      cases r with
      | none => exact halloc
      | some j =>
          simp only
          split
          · exact halloc.set rfl
          · exact halloc

theorem Numbered.doExec (h : T.Numbered) (mem : Pages) : (T.doExec mem).2.Numbered := by
  have halloc := h.allocProc mem
  unfold Table.doExec
  cases hcall : T.allocProc mem with
  | mk r U =>
      rw [hcall] at halloc
      cases r with
      | none => exact halloc
      | some j => exact halloc.set rfl

theorem Numbered.adopt (h : T.Numbered) (p j : Slot) : (Table.adopt p T j).Numbered := by
  unfold Table.adopt
  split
  · simp only
    have hset : (T.set j { T.procs j with parent := some Sys.init }).Numbered := h.set rfl
    split
    · exact hset.wakeup _
    · exact hset
  · exact h

theorem Numbered.doExit (h : T.Numbered) (p : Slot) (status : ℤ) : (T.doExit p status).Numbered := by
  unfold Table.doExit
  have hfold : ((List.finRange numProc).foldl (Table.adopt p) T).Numbered := by
    induction List.finRange numProc generalizing T with
    | nil => exact h
    | cons j rest ih => exact ih (h.adopt p j)
  have hset := hfold.set (j := p) (q := { ((List.finRange numProc).foldl (Table.adopt p) T).procs p with
    pwd := 0, root := 0, openFiles := fun _ => 0, status := status }) rfl
  have hwake := hset.wakeup ((((List.finRange numProc).foldl (Table.adopt p) T).set p
    { ((List.finRange numProc).foldl (Table.adopt p) T).procs p with
      pwd := 0, root := 0, openFiles := fun _ => 0, status := status }).procs p).parent
  exact (hwake.set (j := p) (q := { Table.procs _ p with state := .zombie }) rfl).of_pids rfl fun _ => rfl

theorem Numbered.doWait (h : T.Numbered) (p : Slot) : (T.doWait p).Numbered := by
  unfold Table.doWait
  split
  · exact h.clear rfl
  · split
    · exact (h.set (j := p) (q := { T.procs p with channel := some p, state := .sleeping }) rfl).of_pids rfl
        fun _ => rfl
    · exact h

theorem Numbered.initReap (h : T.Numbered) (p j : Slot) : (T.initReap p j).Numbered := by
  unfold Table.initReap
  split
  · exact h.set rfl
  · exact h

theorem Numbered.sysKill (h : T.Numbered) (p : Slot) (pid sig : ℤ) : (T.sysKill p pid sig).Numbered := by
  rcases T.sysKill_cases p pid sig with ⟨_, hsame, _⟩ | ⟨j, _, _, _, _, _, hset⟩
  · rw [hsame]
    exact h
  · rw [hset]
    exact h.set rfl

theorem Numbered.nap (h : T.Numbered) (p : Slot) : (T.nap p).Numbered := by
  unfold Table.nap
  split
  · exact (h.set (j := p) (q := { T.procs p with state := .sleeping }) rfl).of_pids rfl fun _ => rfl
  · exact h

theorem Numbered.fire (h : T.Numbered) (hf : T.fire j = some U) : U.Numbered := by
  unfold Table.fire at hf
  split at hf
  · cases hf
    exact (h.set (j := j) (q := { T.procs j with state := .ready }) rfl).of_pids rfl fun _ => rfl
  · cases hf

theorem Numbered.switch (h : T.Numbered) (hf : T.switch j = some U) : U.Numbered := by
  unfold Table.switch at hf
  split at hf
  · cases hf
  · simp only at hf
    split at hf
    · cases hf
    · cases hf
      refine h.of_pids rfl ?_
      exact set_pid rfl

theorem Numbered.update (h : T.Numbered) {f : Proc → Proc} (hf : ∀ q, (f q).pid = q.pid) :
    (T.update p f).Numbered :=
  h.set (hf _)

theorem sysSetgroups_pid (q : Proc) (grouplist : ℕ → Id) (len : ℤ) :
    (sysSetgroups q grouplist len).2.pid = q.pid := by
  unfold sysSetgroups
  split
  · rfl
  · split <;> rfl

theorem sysBrk_pid (q : Proc) (brk : ℕ) : (sysBrk q brk).2.pid = q.pid := by
  unfold sysBrk
  split
  · rfl
  · split <;> rfl

theorem Numbered.call {e : SlotEvent} (h : T.Numbered) (hs : T.call p e = some U) : U.Numbered := by
  unfold Table.call at hs
  cases e with
  | switch j => cases hs
  | preempt =>
      cases hs
      exact (h.set (j := p) (q := { T.procs p with state := .ready }) rfl).of_pids rfl fun _ => rfl
  | fork mem =>
      cases hs
      exact h.doFork mem
  | exec mem =>
      simp only at hs
      split at hs
      · cases hs
        exact h.doExec mem
      · cases hs
  | exit status =>
      cases hs
      exact h.doExit p status
  | wait =>
      cases hs
      exact h.doWait p
  | initReap j =>
      simp only at hs
      split at hs
      · cases hs
        exact h.initReap p j
      · cases hs
  | kill pid sig =>
      cases hs
      exact h.sysKill p pid sig
  | nap =>
      cases hs
      exact h.nap p
  | fire j => exact h.fire hs
  | user c =>
      cases hs
      exact h.update fun _ => rfl
  | group c =>
      cases hs
      exact h.update fun _ => rfl
  | setgroups grouplist len =>
      cases hs
      exact h.update fun q => sysSetgroups_pid q grouplist len
  | brk brk =>
      cases hs
      exact h.update fun q => sysBrk_pid q brk
  | image mm =>
      cases hs
      exact h.update fun _ => rfl

theorem Numbered.step {e : SlotEvent} (h : T.Numbered) (hs : T.step e = some U) : U.Numbered := by
  unfold Table.step at hs
  split at hs
  · split at hs
    · exact h.call hs
    · cases hs
  · split at hs
    · exact h.switch hs
    · exact h.fire hs
    · cases hs

theorem boot_numbered : boot.Numbered := by
  have hstart : Table.Numbered ⟨fun _ => .zero, 1, none, fun _ => false, []⟩ :=
    ⟨fun _ _ _ hne => absurd rfl hne, fun _ => Int.one_pos, Int.one_pos⟩
  exact (hstart.allocProc ⟨true, true, true⟩).set rfl

/-! ## The kill -/

theorem findProcess_pid (h : T.findProcess pid = some j) : (T.procs j).pid = pid := by
  simpa using List.find?_some h

theorem marked_bit (q : Proc) (hlo : 1 ≤ sig) (hhi : sig < 32) (b : ℕ) :
    (marked q sig).pending.getLsbD b = (q.pending.getLsbD b || decide ((b : ℤ) = sig)) := by
  unfold marked
  obtain ⟨k, rfl⟩ := Int.eq_ofNat_of_zero_le (show 0 ≤ sig by omega)
  have hk : k < 32 := by omega
  rw [Int.toNat_natCast, Nat.mod_eq_of_lt hk, BitVec.getLsbD_or, BitVec.getLsbD_shiftLeft, BitVec.getLsbD_one]
  congr 1
  by_cases hb : b = k
  · subst hb
    simp [hk]
  · have hne : ¬ ((b : ℤ) = (k : ℤ)) := by omega
    rw [decide_eq_false hne]
    by_cases hbk : b < k
    · simp [hbk]
    · have hsub : b - k ≠ 0 := by omega
      simp [hsub]

theorem set_self (T : Table) (j : Slot) (q : Proc) : (T.set j q).procs j = q := by
  simp [Table.set]

theorem set_of_ne {q : Proc} (h : i ≠ j) : (T.set j q).procs i = T.procs i := by
  simp [Table.set, h]

/-- A signal that is pending already leaves the pending signals as they are. -/
theorem marked_pending {q : Proc} (hlo : 1 ≤ sig) (hhi : sig < 32)
    (hbit : q.pending.getLsbD sig.toNat = true) :
    (marked q sig).pending = q.pending := by
  apply BitVec.eq_of_getLsbD_eq
  intro b _
  rw [marked_bit q hlo hhi b]
  by_cases hb : (b : ℤ) = sig
  · have hb' : sig.toNat = b := by omega
    rw [hb'] at hbit
    rw [hbit, Bool.true_or]
  · rw [decide_eq_false hb, Bool.or_false]

/-- The slot a kill has marked is the live one, if the right bits are set. -/
theorem reaches_of_marks (hlo : 1 ≤ sig) (hhi : sig < 32) (hlive : (T.procs i).state.Live)
    (hpid : (T.procs i).pid = pid) (hunique : ∀ k, (T.procs k).state.Live → (T.procs k).pid = pid → k = i)
    (hmarks : ∀ b : ℕ,
      (U.procs i).pending.getLsbD b = ((T.procs i).pending.getLsbD b || decide ((b : ℤ) = sig)))
    (hothers : ∀ k ≠ i, (U.procs k).pending = (T.procs k).pending)
    (hlow : ∀ s : ℕ, 1 ≤ s → (s : ℤ) < sig → (T.procs i).pending.getLsbD s = true → ¬ Yields s) :
    T.Reaches U pid sig i := by
  refine ⟨hlive, hpid, hunique, hmarks, hothers, ?_⟩
  have hbit : (U.procs i).pending.getLsbD sig.toNat = true := by
    rw [hmarks, decide_eq_true (by omega), Bool.or_true]
  apply (handleSignal_clears (by omega) (by omega) hbit).mpr
  intro s hs hlt hset
  rw [hmarks, decide_eq_false (by omega), Bool.or_false] at hset
  exact hlow s hs (by omega) hset

/-- A kill reaches a live process, or changes nothing, exactly if it is for a live one. -/
theorem Numbered.reaches_iff (h : T.Numbered) : T.KillReaches p pid sig ↔ T.KillLive p pid sig := by
  unfold KillReaches KillLive
  rcases T.sysKill_cases p pid sig with ⟨hres, hsame, hout⟩ | ⟨j, hfind, hmay, hlo, hhi, hres, hset⟩
  · rw [if_neg hres]
    apply iff_of_true hsame
    intro j hj hmay hlo hhi
    exact absurd ⟨hlo, hhi⟩ (hout j hj hmay)
  · rw [if_pos hres, hset]
    have hpid := findProcess_pid hfind
    constructor
    · intro hreach j' hj' _ _ _
      rw [hfind] at hj'
      cases hj'
      obtain ⟨i, hi⟩ := hreach
      have hbit := hi.marks sig.toNat
      rw [decide_eq_true (by omega), Bool.or_true] at hbit
      have hlt : sig < 32 := by
        have := BitVec.lt_of_getLsbD hbit
        omega
      refine ⟨hlt, i, ?_, ?_⟩
      · unfold Addressed
        by_cases hzero : pid = 0
        · rw [if_pos hzero]
          refine ⟨hi.live, hi.owner.trans hzero, fun k hk hk0 => hi.unique k hk (hk0.trans hzero.symm), ?_⟩
          by_cases hij : i = j
          · exact .inl hij
          · rw [set_of_ne hij] at hbit
            have hj := hi.others j (Ne.symm hij)
            rw [set_self] at hj
            have hjbit := marked_bit (T.procs j) hlo hlt sig.toNat
            rw [hj, decide_eq_true (by omega), Bool.or_true] at hjbit
            exact .inr ⟨hbit, hjbit⟩
        · rw [if_neg hzero]
          have hij : i = j :=
            h.distinct i j (hi.owner.trans hpid.symm) fun hne => hzero (hi.owner.symm.trans hne)
          exact ⟨hij, hij ▸ hi.live⟩
      · intro s hs hsig hset'
        apply (handleSignal_clears (by omega) (by omega) hbit).mp hi.handled s hs (by omega)
        rw [hi.marks, hset', Bool.true_or]
    · intro hlive
      obtain ⟨hlt, i, hi, hlow⟩ := hlive j hfind hmay hlo hhi
      refine ⟨i, ?_⟩
      unfold Addressed at hi
      by_cases hij : i = j
      · subst hij
        have hstate : (T.procs i).state.Live ∧
            ∀ k, (T.procs k).state.Live → (T.procs k).pid = pid → k = i := by
          by_cases hzero : pid = 0
          · rw [if_pos hzero] at hi
            exact ⟨hi.1, fun k hk hk0 => hi.2.2.1 k hk (hk0.trans hzero)⟩
          · rw [if_neg hzero] at hi
            refine ⟨hi.2, fun k _ hkpid => ?_⟩
            exact h.distinct k i (hkpid.trans hpid.symm) fun hne => hzero (hkpid.symm.trans hne)
        apply reaches_of_marks hlo hlt hstate.1 hpid hstate.2
        · intro b
          rw [set_self]
          exact marked_bit (T.procs i) hlo hlt b
        · intro k hk
          rw [set_of_ne hk]
        · exact hlow
      · have hzero : pid = 0 := by
          by_contra hzero
          rw [if_neg hzero] at hi
          exact hij hi.1
        rw [if_pos hzero] at hi
        obtain ⟨hlive, hpid0, hunique, hboth⟩ := hi
        obtain ⟨hibit, hjbit⟩ := hboth.resolve_left hij
        apply reaches_of_marks hlo hlt hlive (hpid0.trans hzero.symm)
          (fun k hk hk0 => hunique k hk (hk0.trans hzero))
        · intro b
          rw [set_of_ne hij]
          by_cases hb : (b : ℤ) = sig
          · have hb' : sig.toNat = b := by omega
            rw [hb'] at hibit
            rw [hibit, Bool.true_or]
          · rw [decide_eq_false hb, Bool.or_false]
        · intro k _
          by_cases hkj : k = j
          · rw [hkj, set_self]
            exact marked_pending hlo hlt hjbit
          · rw [set_of_ne hkj]
        · exact hlow

/-- In every table that is reached from boot, each kill by each process reaches the live process
of its pid, or changes nothing, exactly if it is for a live process, has a bit, and no smaller
signal is pending that stops or ends it. -/
theorem kill_reaches_iff (h : Trace (fun T e U => T.step e = some U) boot tr T) (p : Slot) (pid sig : ℤ) :
    T.KillReaches p pid sig ↔ T.KillLive p pid sig :=
  (h.throughout (I := Numbered) (fun _ _ _ hT hs => hT.step hs) boot_numbered).2.reaches_iff

/-- A process sends SIGTERM to its child. -/
theorem kill_reaches_iff_child : ∃ T : Table,
    T.sysKillResult slot1 3 15 = 0 ∧ T.KillReaches slot1 3 15 := by
  have hrun : ((exec step boot firstChild).any fun T => T.sysKillResult slot1 3 15 = 0 ∧
      T.findProcess 3 = some slot2 ∧ (T.procs slot2).state.Live ∧ (T.procs slot2).pending = 0) = true := by
    decide
  obtain ⟨T, hT, hfacts⟩ := (Option.any_eq_true ..).mp hrun
  have ⟨hres, hfind, hlive, hpending⟩ := of_decide_eq_true hfacts
  refine ⟨T, hres, (kill_reaches_iff (exec_trace hT) slot1 3 15).mpr ?_⟩
  intro j hj _ _ _
  rw [hfind] at hj
  cases hj
  refine ⟨by decide, slot2, ?_, ?_⟩
  · unfold Addressed
    rw [if_neg (by decide)]
    exact ⟨rfl, hlive⟩
  · intro s _ _ hbit
    rw [hpending] at hbit
    simp at hbit

/-- The initial process sends SIGKILL to the pid 0, which is that of all slots not yet taken. -/
theorem not_kill_reaches_zero : ¬ ∀ (tr : List (Table × SlotEvent)) (T : Table) (p : Slot) (pid sig : ℤ),
    Trace (fun T e U => T.step e = some U) boot tr T → T.current = some p → T.KillReaches p pid sig := by
  intro hclaim
  have hrun : ((exec step boot [.switch init]).any fun T => T.current = some init ∧
      T.sysKillResult init 0 9 = 0 ∧ ∀ j, (T.procs j).state.Live → (T.procs j).pid ≠ 0) = true := by
    decide
  obtain ⟨T, hT, hfacts⟩ := (Option.any_eq_true ..).mp hrun
  have ⟨hcurrent, hres, hnone⟩ := of_decide_eq_true hfacts
  have hreach := hclaim _ T init 0 9 (exec_trace hT) hcurrent
  unfold KillReaches at hreach
  rw [if_pos hres] at hreach
  obtain ⟨j, hj⟩ := hreach
  exact hnone j hj.live hj.owner

end Table
end Ferrite.Sys
