import Ferrite.Library.Runs
import Ferrite.Fs.Errno
import Mathlib.Data.Set.Insert

/-!
# User and group ids

A process has a real, an effective and a saved id of its user and of its group. The
calls on user ids and those on group ids are the same four, with the privilege as a
parameter. Without the privilege they only permute and repeat ids.
-/
namespace Ferrite.Sys
open Fs Runs

/-- `uid_t` and `gid_t`. -/
abbrev Id := BitVec 16

def rootUid : Id := 0

/-- `(uid_t)-1`, for an id that is to stay. -/
def keepId : Id := -1

structure Ids where
  real : Id
  effective : Id
  saved : Id
deriving DecidableEq, Repr

namespace Ids
variable (privileged : Bool) (i : Ids)

/-- One of the three ids. -/
def Has (x : Id) : Prop := x = i.real ∨ x = i.effective ∨ x = i.saved

instance (x : Id) : Decidable (i.Has x) := inferInstanceAs (Decidable (_ ∨ _))

/-- An id that a call may set: none, one of the three, or any with the privilege. -/
def May (x : Id) : Prop := x = keepId ∨ privileged = true ∨ i.Has x

instance (x : Id) : Decidable (i.May privileged x) := inferInstanceAs (Decidable (_ ∨ _))

def setAll (x : Id) : ℤ × Ids :=
  if privileged then (0, ⟨x, x, x⟩)
  else if x = i.real ∨ x = i.saved then (0, { i with effective := x })
  else (-eperm, i)

def setEffective (x : Id) : ℤ × Ids :=
  if privileged then (0, { i with effective := x })
  else if x = i.real ∨ x = i.saved then (0, { i with effective := x })
  else (-eperm, i)

/-- The saved id follows an effective id that is not the old real one. -/
def setReal (r e : Id) : ℤ × Ids :=
  if ¬ i.May privileged r then (-eperm, i)
  else if ¬ i.May privileged e then (-eperm, i)
  else
    (0, { real := if r ≠ keepId then r else i.real
          effective := if e ≠ keepId then e else i.effective
          saved := if e ≠ keepId ∧ e ≠ i.real then e else i.saved })

def setRes (r e s : Id) : ℤ × Ids :=
  if ¬ i.May privileged r then (-eperm, i)
  else if ¬ i.May privileged e then (-eperm, i)
  else if ¬ i.May privileged s then (-eperm, i)
  else
    (0, { real := if r ≠ keepId then r else i.real
          effective := if e ≠ keepId then e else i.effective
          saved := if s ≠ keepId then s else i.saved })

end Ids

/-- The ids of a process. -/
structure Creds where
  uid : Id
  euid : Id
  suid : Id
  gid : Id
  egid : Id
  sgid : Id
deriving DecidableEq, Repr

namespace Creds
variable (c : Creds)

def user : Ids := ⟨c.uid, c.euid, c.suid⟩
def group : Ids := ⟨c.gid, c.egid, c.sgid⟩

def withUser (r : ℤ × Ids) : ℤ × Creds :=
  (r.1, { c with uid := r.2.real, euid := r.2.effective, suid := r.2.saved })

def withGroup (r : ℤ × Ids) : ℤ × Creds :=
  (r.1, { c with gid := r.2.real, egid := r.2.effective, sgid := r.2.saved })

def sysSetuid (uid : Id) : ℤ × Creds := c.withUser (c.user.setAll (c.euid = rootUid) uid)

def sysSeteuid (uid : Id) : ℤ × Creds := c.withUser (c.user.setEffective (c.euid = rootUid) uid)

def sysSetreuid (ruid euid : Id) : ℤ × Creds :=
  c.withUser (c.user.setReal (c.euid = rootUid) ruid euid)

def sysSetresuid (ruid euid suid : Id) : ℤ × Creds :=
  c.withUser (c.user.setRes (c.euid = rootUid) ruid euid suid)

def sysSetgid (gid : Id) : ℤ × Creds := c.withGroup (c.group.setAll (c.euid = rootUid) gid)

/-- The privilege is looked up in the effective group id. -/
def sysSetegid (gid : Id) : ℤ × Creds := c.withGroup (c.group.setEffective (c.egid = rootUid) gid)

def sysSetregid (rgid egid : Id) : ℤ × Creds :=
  c.withGroup (c.group.setReal (c.euid = rootUid) rgid egid)

def sysSetresgid (rgid egid sgid : Id) : ℤ × Creds :=
  c.withGroup (c.group.setRes (c.euid = rootUid) rgid egid sgid)

end Creds

/-- The calls on user ids. -/
inductive UserCall
  | setuid (uid : Id)
  | seteuid (uid : Id)
  | setreuid (ruid euid : Id)
  | setresuid (ruid euid suid : Id)
deriving DecidableEq, Repr

/-- The calls on group ids. -/
inductive GroupCall
  | setgid (gid : Id)
  | setegid (gid : Id)
  | setregid (rgid egid : Id)
  | setresgid (rgid egid sgid : Id)
deriving DecidableEq, Repr

def UserCall.run (c : Creds) : UserCall → ℤ × Creds
  | .setuid uid => c.sysSetuid uid
  | .seteuid uid => c.sysSeteuid uid
  | .setreuid ruid euid => c.sysSetreuid ruid euid
  | .setresuid ruid euid suid => c.sysSetresuid ruid euid suid

def GroupCall.run (c : Creds) : GroupCall → ℤ × Creds
  | .setgid gid => c.sysSetgid gid
  | .setegid gid => c.sysSetegid gid
  | .setregid rgid egid => c.sysSetregid rgid egid
  | .setresgid rgid egid sgid => c.sysSetresgid rgid egid sgid

/-! ## One call -/

namespace Ids
variable {S : Set Id} {i : Ids} {x r e s : Id} {privileged : Bool}

/-- All three ids come from a set. -/
def Within (S : Set Id) (i : Ids) : Prop := i.real ∈ S ∧ i.effective ∈ S ∧ i.saved ∈ S

theorem Within.has (h : Within S i) (hx : i.Has x) : x ∈ S := by
  obtain ⟨hr, he, hs⟩ := h
  rcases hx with rfl | rfl | rfl
  · exact hr
  · exact he
  · exact hs

/-- Without the privilege, an id that may be set comes from the set. -/
theorem Within.may (h : Within S i) (hx : i.May false x) (hne : x ≠ keepId) : x ∈ S := by
  rcases hx with hx | hx | hx
  · exact absurd hx hne
  · cases hx
  · exact h.has hx

theorem Within.setEffective (h : Within S i) : Within S (i.setEffective false x).2 := by
  unfold Ids.setEffective
  rw [if_neg Bool.false_ne_true]
  split_ifs with hx
  · refine ⟨h.1, ?_, h.2.2⟩
    rcases hx with rfl | rfl
    · exact h.1
    · exact h.2.2
  · exact h

/-- Without the privilege the first two calls are the same. -/
theorem setAll_false : i.setAll false x = i.setEffective false x := rfl

/-- An id that may be set, or the old one in its place. -/
theorem Within.pick {y : Id} (h : Within S i) (hx : i.May false x) (hy : y ∈ S) {p : Prop} [Decidable p]
    (hp : p → x ≠ keepId) : (if p then x else y) ∈ S := by
  split_ifs with hif
  · exact h.may hx (hp hif)
  · exact hy

theorem Within.setReal (h : Within S i) : Within S (i.setReal false r e).2 := by
  unfold Ids.setReal
  by_cases hr : i.May false r
  · by_cases he : i.May false e
    · rw [if_neg (not_not.mpr hr), if_neg (not_not.mpr he)]
      exact ⟨h.pick hr h.1 id, h.pick he h.2.1 id, h.pick he h.2.2 And.left⟩
    · rwa [if_neg (not_not.mpr hr), if_pos he]
  · rwa [if_pos hr]

theorem Within.setRes (h : Within S i) : Within S (i.setRes false r e s).2 := by
  unfold Ids.setRes
  by_cases hr : i.May false r
  · by_cases he : i.May false e
    · by_cases hs : i.May false s
      · rw [if_neg (not_not.mpr hr), if_neg (not_not.mpr he), if_neg (not_not.mpr hs)]
        exact ⟨h.pick hr h.1 id, h.pick he h.2.1 id, h.pick hs h.2.2 id⟩
      · rwa [if_neg (not_not.mpr hr), if_neg (not_not.mpr he), if_pos hs]
    · rwa [if_neg (not_not.mpr hr), if_pos he]
  · rwa [if_pos hr]

/-! A call that is refused changes nothing. -/

theorem setAll_refused (h : (i.setAll privileged x).1 = -eperm) : (i.setAll privileged x).2 = i := by
  unfold setAll at h ⊢
  split_ifs at h ⊢
  · cases h
  · cases h
  · rfl

theorem setEffective_refused (h : (i.setEffective privileged x).1 = -eperm) :
    (i.setEffective privileged x).2 = i := by
  unfold setEffective at h ⊢
  split_ifs at h ⊢
  · cases h
  · cases h
  · rfl

theorem setReal_refused (h : (i.setReal privileged r e).1 = -eperm) :
    (i.setReal privileged r e).2 = i := by
  unfold setReal at h ⊢
  by_cases hr : i.May privileged r
  · by_cases he : i.May privileged e
    · rw [if_neg (not_not.mpr hr), if_neg (not_not.mpr he)] at h
      cases h
    · rw [if_neg (not_not.mpr hr), if_pos he]
  · rw [if_pos hr]

theorem setRes_refused (h : (i.setRes privileged r e s).1 = -eperm) :
    (i.setRes privileged r e s).2 = i := by
  unfold setRes at h ⊢
  by_cases hr : i.May privileged r
  · by_cases he : i.May privileged e
    · by_cases hs : i.May privileged s
      · rw [if_neg (not_not.mpr hr), if_neg (not_not.mpr he), if_neg (not_not.mpr hs)] at h
        cases h
      · rw [if_neg (not_not.mpr hr), if_neg (not_not.mpr he), if_pos hs]
    · rw [if_neg (not_not.mpr hr), if_pos he]
  · rw [if_pos hr]

end Ids

/-! ## Runs of calls -/

variable {S : Set Id} {c u : Creds} {x : Id}

theorem UserCall.run_within (call : UserCall) (he : c.euid ≠ rootUid) (h : c.user.Within S) :
    (call.run c).2.user.Within S := by
  have hp : decide (c.euid = rootUid) = false := decide_eq_false he
  cases call with
  | setuid uid =>
      have := h.setEffective (x := uid)
      rwa [← Ids.setAll_false, ← hp] at this
  | seteuid uid =>
      have := h.setEffective (x := uid)
      rwa [← hp] at this
  | setreuid r e =>
      have := h.setReal (r := r) (e := e)
      rwa [← hp] at this
  | setresuid r e s =>
      have := h.setRes (r := r) (e := e) (s := s)
      rwa [← hp] at this

theorem UserCall.run_refused (call : UserCall) (h : (call.run c).1 = -eperm) : (call.run c).2 = c := by
  have hback (r : ℤ × Ids) (hr : r.2 = c.user) : (c.withUser r).2 = c := by
    rw [Creds.withUser, hr]
    rfl
  cases call with
  | setuid uid => exact hback _ (Ids.setAll_refused h)
  | seteuid uid => exact hback _ (Ids.setEffective_refused h)
  | setreuid r e => exact hback _ (Ids.setReal_refused h)
  | setresuid r e s => exact hback _ (Ids.setRes_refused h)

/-- The user ids of a process. -/
def Creds.userSet (c : Creds) : Set Id := {c.uid, c.euid, c.suid}

def Creds.groupSet (c : Creds) : Set Id := {c.gid, c.egid, c.sgid}

/-- Whatever calls a process without the privilege makes, its user ids stay among those it
had, none of them becomes zero, and a refused call changes nothing. -/
theorem user_ids_stay {tr : List (Creds × UserCall)} (hu : c.uid ≠ rootUid) (he : c.euid ≠ rootUid)
    (hs : c.suid ≠ rootUid) (htr : Trace (fun s (e : UserCall) t => t = (e.run s).2) c tr u) :
    Throughout (fun s => s.user.Within c.userSet ∧ s.uid ≠ rootUid ∧ s.euid ≠ rootUid ∧ s.suid ≠ rootUid)
        tr u ∧
      ∀ x ∈ tr, (x.2.run x.1).1 = -eperm → (x.2.run x.1).2 = x.1 := by
  have hne (y : Id) (hy : y ∈ c.userSet) : y ≠ rootUid := by
    rcases hy with rfl | rfl | rfl
    · exact hu
    · exact he
    · exact hs
  have hgood (s : Creds) (h : s.user.Within c.userSet) :
      s.user.Within c.userSet ∧ s.uid ≠ rootUid ∧ s.euid ≠ rootUid ∧ s.suid ≠ rootUid :=
    ⟨h, hne _ h.1, hne _ h.2.1, hne _ h.2.2⟩
  refine ⟨htr.throughout ?_ (hgood c ?_), fun x _ => x.2.run_refused⟩
  · rintro s e t ⟨hw, -, hse, -⟩ rfl
    exact hgood _ (e.run_within hse hw)
  · simp [Ids.Within, Creds.user, Creds.userSet]

theorem user_ids_stay_daemon : ∃ tr u, Trace (fun s (e : UserCall) t => t = (e.run s).2)
      ⟨1, 2, 2, 0, 0, 0⟩ tr u ∧ u.euid = 1 ∧
    (Throughout (fun s => s.user.Within (Creds.userSet ⟨1, 2, 2, 0, 0, 0⟩) ∧ s.uid ≠ rootUid ∧
        s.euid ≠ rootUid ∧ s.suid ≠ rootUid) tr u ∧
      ∀ x ∈ tr, (x.2.run x.1).1 = -eperm → (x.2.run x.1).2 = x.1) := by
  have htr : Trace (fun s (e : UserCall) t => t = (e.run s).2) ⟨1, 2, 2, 0, 0, 0⟩
      [(⟨1, 2, 2, 0, 0, 0⟩, .setuid 0), (⟨1, 2, 2, 0, 0, 0⟩, .setreuid 0xFFFF 1)] ⟨1, 1, 2, 0, 0, 0⟩ :=
    .cons (by decide) (.cons (by decide) (.nil _))
  exact ⟨_, _, htr, rfl, user_ids_stay (by decide) (by decide) (by decide) htr⟩

theorem GroupCall.run_euid (call : GroupCall) : (call.run c).2.euid = c.euid := by
  cases call <;> rfl

/-- A call of `sys_setegid` by a process of the root group for an id from outside. -/
def GroupCall.Escapes (S : Set Id) (c : Creds) : GroupCall → Prop
  | .setegid gid => c.egid = rootUid ∧ gid ∉ S
  | _ => False

theorem GroupCall.run_within (call : GroupCall) (he : c.euid ≠ rootUid) (h : c.group.Within S) :
    (call.run c).2.group.Within S ↔ ¬ call.Escapes S c := by
  have hp : decide (c.euid = rootUid) = false := decide_eq_false he
  cases call with
  | setgid gid =>
      have := h.setEffective (x := gid)
      rw [← Ids.setAll_false, ← hp] at this
      exact iff_of_true this id
  | setegid gid =>
      by_cases hg : c.egid = rootUid
      · have hrun : ((GroupCall.setegid gid).run c).2.group = ⟨c.gid, gid, c.sgid⟩ := by
          simp [GroupCall.run, Creds.sysSetegid, Creds.withGroup, Ids.setEffective, Creds.group, hg]
        rw [hrun]
        constructor
        · exact fun hw hesc => hesc.2 hw.2.1
        · exact fun hesc => ⟨h.1, not_not.mp fun hout => hesc ⟨hg, hout⟩, h.2.2⟩
      · have := h.setEffective (x := gid)
        rw [← decide_eq_false hg] at this
        exact iff_of_true this fun hesc => hg hesc.1
  | setregid r e =>
      have := h.setReal (r := r) (e := e)
      rw [← hp] at this
      exact iff_of_true this id
  | setresgid r e s =>
      have := h.setRes (r := r) (e := e) (s := s)
      rw [← hp] at this
      exact iff_of_true this id

/-- The group ids of a process without the privilege stay among those it had exactly when no
call of `sys_setegid` takes the root group for the privilege. -/
theorem group_ids_stay_iff {tr : List (Creds × GroupCall)} (_hu : c.uid ≠ rootUid) (he : c.euid ≠ rootUid)
    (_hs : c.suid ≠ rootUid) (htr : Trace (fun s (e : GroupCall) t => t = (e.run s).2) c tr u) :
    Throughout (fun s => s.group.Within c.groupSet) tr u ↔
      ∀ x ∈ tr, ¬ x.2.Escapes c.groupSet x.1 := by
  have huser : Throughout (fun s => s.euid ≠ rootUid) tr u := by
    apply htr.throughout _ he
    rintro s e t hse rfl
    rwa [e.run_euid]
  have hboth : Throughout (fun s => s.euid ≠ rootUid ∧ s.group.Within c.groupSet) tr u ↔
      ∀ x ∈ tr, ¬ x.2.Escapes c.groupSet x.1 := by
    have hstart : c.euid ≠ rootUid ∧ c.group.Within c.groupSet := by
      simp [he, Ids.Within, Creds.group, Creds.groupSet]
    apply htr.throughout_iff (I := fun s => s.euid ≠ rootUid ∧ s.group.Within c.groupSet)
      (C := fun s e => ¬ e.Escapes c.groupSet s) _ hstart
    rintro s e t ⟨hse, hw⟩ rfl
    rw [e.run_euid, and_iff_right hse]
    exact e.run_within hse hw
  rw [← hboth]
  constructor
  · exact fun h => ⟨fun x hx => ⟨huser.1 x hx, h.1 x hx⟩, huser.2, h.2⟩
  · exact fun h => ⟨fun x hx => (h.1 x hx).2, h.2.2⟩

theorem group_ids_stay_iff_daemon : ∃ tr u, Trace (fun s (e : GroupCall) t => t = (e.run s).2)
      ⟨1, 1, 1, 1, 2, 3⟩ tr u ∧ u.egid = 3 ∧
    (Throughout (fun s => s.group.Within (Creds.groupSet ⟨1, 1, 1, 1, 2, 3⟩)) tr u ↔
      ∀ x ∈ tr, ¬ x.2.Escapes (Creds.groupSet ⟨1, 1, 1, 1, 2, 3⟩) x.1) := by
  have htr : Trace (fun s (e : GroupCall) t => t = (e.run s).2) ⟨1, 1, 1, 1, 2, 3⟩
      [(⟨1, 1, 1, 1, 2, 3⟩, .setegid 3)] ⟨1, 1, 1, 1, 3, 3⟩ := .cons (by decide) (.nil _)
  exact ⟨_, _, htr, rfl, group_ids_stay_iff (by decide) (by decide) (by decide) htr⟩

/-- A former root process that has kept its group takes any group it likes. -/
theorem not_group_ids_stay : ¬ ∀ (c u : Creds) (tr : List (Creds × GroupCall)), c.uid ≠ rootUid →
    c.euid ≠ rootUid → c.suid ≠ rootUid → Trace (fun s (e : GroupCall) t => t = (e.run s).2) c tr u →
    Throughout (fun s => s.group.Within c.groupSet) tr u := by
  intro hclaim
  have htr : Trace (fun s (e : GroupCall) t => t = (e.run s).2) ⟨1, 1, 1, 0, 0, 0⟩
      [(⟨1, 1, 1, 0, 0, 0⟩, .setegid 5)] ⟨1, 1, 1, 0, 5, 0⟩ := .cons (by decide) (.nil _)
  have h := (hclaim _ _ _ (by decide) (by decide) (by decide) htr).2.2.1
  simp [Creds.group, Creds.groupSet] at h

end Ferrite.Sys
