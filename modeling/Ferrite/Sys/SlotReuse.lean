import Mathlib
import Ferrite.Sys.Slots

/-!
# What a child owes to the slot

A child has everything of its parent exactly when the slot it is given held the
right values in the fields that `__alloc_proc` does not write.
-/
namespace Ferrite.Sys
open Runs

/-- The child is made from its parent alone. -/
structure Fresh (parent child : Proc) : Prop where
  creds : child.creds = parent.creds
  groups : child.groups = parent.groups
  mm : child.mm = parent.mm
  pending : child.pending = 0
  channel : child.channel = none
  openFiles : child.openFiles = parent.openFiles
  root : child.root = parent.root
  pwd : child.pwd = parent.pwd

/-- The slot happens to hold what the child is to have. -/
structure Suits (parent slot : Proc) : Prop where
  groups : slot.groups = parent.groups
  mm : slot.mm = parent.mm
  pending : slot.pending = 0
  channel : slot.channel = none

namespace Table
variable {T U : Table} {p j : Slot} {mem : Pages} {tr : List (Table × SlotEvent)}

/-- What a fork that succeeds has done to the slot. -/
theorem doFork_spec (hp : T.current = some p) (hf : (T.doFork mem).1 = some j) :
    T.firstUnused = some j ∧ mem = ⟨true, true, true⟩ ∧
      (T.doFork mem).2.procs j =
        { T.procs j with
          creds := (T.procs p).creds
          pid := T.pidCounter
          state := .ready
          parent := some p
          root := (T.procs p).root
          pwd := (T.procs p).pwd
          openFiles := (T.procs p).openFiles } := by
  obtain ⟨kstack, pgdir, copy⟩ := mem
  cases hfirst : T.firstUnused with
  | none => simp [doFork, allocProc, hfirst] at hf
  | some i =>
      cases kstack with
      | false => simp [doFork, allocProc, hfirst] at hf
      | true =>
          cases pgdir with
          | false => simp [doFork, allocProc, hfirst] at hf
          | true =>
              cases copy with
              | false => simp [doFork, allocProc, hfirst] at hf
              | true =>
                  simp only [doFork, allocProc, hfirst, hp, Option.map_some, Option.getD_some,
                    inheritCredentials, reduceCtorEq, or_self, if_false, if_true, Option.some.injEq] at hf ⊢
                  subst hf
                  simp [setState, set]

theorem fresh_iff_suits (hp : T.current = some p) (hf : (T.doFork mem).1 = some j) :
    Fresh (T.procs p) ((T.doFork mem).2.procs j) ↔ Suits (T.procs p) (T.procs j) := by
  obtain ⟨-, -, hchild⟩ := doFork_spec hp hf
  rw [hchild]
  constructor
  · exact fun h => ⟨h.groups, h.mm, h.pending, h.channel⟩
  · exact fun h => ⟨rfl, h.groups, h.mm, h.pending, h.channel, rfl, rfl, rfl⟩

/-- If the event is a fork that succeeds, the child is fresh. -/
def ForkFresh (T : Table) : SlotEvent → Prop
  | .fork mem => ∀ p j, T.current = some p → (T.doFork mem).1 = some j →
      Fresh (T.procs p) ((T.doFork mem).2.procs j)
  | _ => True

/-- If the event is a fork, the free slot suits the parent. -/
def ForkSuits (T : Table) : SlotEvent → Prop
  | .fork mem => ∀ p j, T.current = some p → T.firstUnused = some j → mem = ⟨true, true, true⟩ →
      Suits (T.procs p) (T.procs j)
  | _ => True

theorem forkFresh_iff (e : SlotEvent) : T.ForkFresh e ↔ T.ForkSuits e := by
  cases e
  case fork mem =>
    constructor
    · rintro h p j hp hj rfl
      have hf : (T.doFork ⟨true, true, true⟩).1 = some j := by
        simp [doFork, allocProc, hj]
      exact (fresh_iff_suits hp hf).mp (h p j hp hf)
    · intro h p j hp hf
      obtain ⟨hj, hmem, -⟩ := doFork_spec hp hf
      exact (fresh_iff_suits hp hf).mpr (h p j hp hj hmem)
  all_goals exact Iff.rfl

/-- In a run, every child is fresh exactly when every slot that is taken suits the parent. -/
theorem children_fresh_iff (htr : Trace (fun T e U => T.step e = some U) T tr U) :
    (∀ x ∈ tr, x.1.ForkFresh x.2) ↔ ∀ x ∈ tr, x.1.ForkSuits x.2 := by
  have hstep (T : Table) (e : SlotEvent) (U : Table) (_ : True) (_ : T.step e = some U) :
      (True ∧ T.ForkFresh e) ↔ T.ForkSuits e := by
    rw [true_and]
    exact forkFresh_iff e
  have h := htr.throughout_and_iff (I := fun _ => True) hstep trivial
  rwa [and_iff_right ⟨fun _ _ => trivial, trivial⟩] at h

def slot2 : Slot := ⟨2, two_lt_numProc⟩

/-- The initial process starts a program in slot 1, which has a child in slot 2. -/
def firstChild : List SlotEvent :=
  [.switch init, .exec ⟨true, true, true⟩, .preempt, .switch slot1, .fork ⟨true, true, true⟩]

theorem children_fresh_iff_first : ∃ tr U, Trace (fun T e U => T.step e = some U) boot tr U ∧
    (U.procs slot2).state = .ready ∧
      ((∀ x ∈ tr, x.1.ForkFresh x.2) ↔ ∀ x ∈ tr, x.1.ForkSuits x.2) := by
  have hrun : ((exec step boot firstChild).any fun U => (U.procs slot2).state = .ready) = true := by
    decide
  obtain ⟨U, hU, hready⟩ := (Option.any_eq_true ..).mp hrun
  exact ⟨_, U, exec_trace hU, of_decide_eq_true hready, children_fresh_iff (exec_trace hU)⟩

/-- The first child takes a group, exits and is reaped. The second one has its slot. -/
def secondChild : List SlotEvent :=
  firstChild ++ [.preempt, .switch slot2, .setgroups (fun _ => 5) 1, .exit 0, .switch slot1, .wait]

theorem not_children_fresh : ¬ ∀ (tr : List (Table × SlotEvent)) (T U : Table) (mem : Pages),
    Trace (fun T e U => T.step e = some U) boot tr T → T.step (.fork mem) = some U →
    T.ForkFresh (.fork mem) := by
  intro hclaim
  have hrun : ((exec step boot secondChild).any fun T => T.current = some slot1 ∧
      (T.step (.fork ⟨true, true, true⟩)).isSome = true ∧ T.firstUnused = some slot2 ∧
      (T.procs slot2).groups ⟨0, by decide⟩ = 5 ∧ (T.procs slot1).groups ⟨0, by decide⟩ = 0) = true := by
    decide
  obtain ⟨T, hT, hfacts⟩ := (Option.any_eq_true ..).mp hrun
  obtain ⟨hp, hstep, hfirst, h₅, h₀⟩ := of_decide_eq_true hfacts
  obtain ⟨U, hU⟩ := Option.isSome_iff_exists.mp hstep
  have hsuits := (forkFresh_iff _).mp (hclaim _ T U ⟨true, true, true⟩ (exec_trace hT) hU)
  have hgroups := (hsuits slot1 slot2 hp hfirst rfl).groups
  rw [hgroups, h₀] at h₅
  cases h₅

end Table
end Ferrite.Sys
