import Mathlib.Data.List.Basic
import Mathlib.Logic.Function.Basic

/-!
# Walking a tree of directories with mounts

A directory has named entries, and something may be mounted over an entry, in
which case the walk goes on at the root of what is mounted. The entries that a
walk resolves decide where it ends: a mount elsewhere does not matter, a mount
over its last entry is where it ends, and a walk that meets no mount stays in a
part of the tree that is closed under entries.
-/
namespace Ferrite.Namespaces

variable {D N : Type*} {entry : D → N → Option D} {mounted mounted' : D → Option D} {d e r : D}
  {ns ms : List N} {n : N}

/-- Where the walk goes on after it has resolved an entry. -/
def cross (mounted : D → Option D) (e : D) : D := (mounted e).getD e

def walk (entry : D → N → Option D) (mounted : D → Option D) : D → List N → Option D
  | d, [] => some d
  | d, n :: ns => (entry d n).bind fun e => walk entry mounted (cross mounted e) ns

/-- The entries a walk resolves, before it crosses into what is mounted there. -/
def visited (entry : D → N → Option D) (mounted : D → Option D) : D → List N → List D
  | _, [] => []
  | d, n :: ns => ((entry d n).map fun e => e :: visited entry mounted (cross mounted e) ns).getD []

theorem walk_append :
    walk entry mounted d (ns ++ ms) = (walk entry mounted d ns).bind fun e => walk entry mounted e ms := by
  induction ns generalizing d with
  | nil => rfl
  | cons n ns ih =>
      rw [List.cons_append, walk, walk, Option.bind_assoc]
      congr 1
      funext e
      exact ih

/-- A mount elsewhere does not change a walk. -/
theorem walk_congr (h : ∀ e ∈ visited entry mounted d ns, mounted' e = mounted e) :
    walk entry mounted' d ns = walk entry mounted d ns := by
  induction ns generalizing d with
  | nil => rfl
  | cons n ns ih =>
      rw [walk, walk]
      cases he : entry d n with
      | none => rfl
      | some e =>
          rw [visited, he, Option.map_some, Option.getD_some] at h
          have hcross : cross mounted' e = cross mounted e := by
            rw [cross, cross, h e List.mem_cons_self]
          rw [Option.bind_some, Option.bind_some, hcross]
          exact ih fun e' he' => h e' (List.mem_cons_of_mem _ he')

/-- A walk that leads somewhere leads there as well when there are more entries. -/
theorem walk_mono {entry' : D → N → Option D} (hle : ∀ d n e, entry d n = some e → entry' d n = some e)
    (h : walk entry mounted d ns = some e) : walk entry' mounted d ns = some e := by
  induction ns generalizing d with
  | nil => exact h
  | cons n ns ih =>
      rw [walk] at h ⊢
      obtain ⟨e', he', h⟩ := Option.bind_eq_some_iff.mp h
      rw [hle d n e' he', Option.bind_some]
      exact ih h

/-- A mount over the last entry of a path is where the path leads. -/
theorem walk_mount [DecidableEq D] (hns : walk entry mounted d ns = some e) (hn : entry e n = some r)
    (hfresh : r ∉ visited entry mounted d ns) (m : D) :
    walk entry (Function.update mounted r (some m)) d (ns ++ [n]) = some m := by
  have hsame : walk entry (Function.update mounted r (some m)) d ns = some e := by
    rw [← hns]
    apply walk_congr
    intro e' he'
    have hne : e' ≠ r := fun heq => hfresh (by rwa [heq] at he')
    exact Function.update_of_ne hne ..
  rw [walk_append, hsame, Option.bind_some, walk, hn, Option.bind_some, walk, cross,
    Function.update_self, Option.getD_some]

/-- A walk that meets no mount of something outside stays inside. -/
theorem walk_inside {S : D → Prop} (hentry : ∀ d n e, S d → entry d n = some e → S e) (hd : S d)
    (hmounted : ∀ e ∈ visited entry mounted d ns, ∀ r, mounted e = some r → S r)
    (h : walk entry mounted d ns = some e) : S e := by
  induction ns generalizing d with
  | nil =>
      cases h
      exact hd
  | cons n ns ih =>
      rw [walk] at h
      obtain ⟨e', he', h⟩ := Option.bind_eq_some_iff.mp h
      rw [visited, he', Option.map_some, Option.getD_some] at hmounted
      refine ih ?_ (fun x hx => hmounted x (List.mem_cons_of_mem _ hx)) h
      cases hx : mounted e' with
      | none =>
          rw [cross, hx]
          exact hentry d n e' hd he'
      | some r =>
          rw [cross, hx]
          exact hmounted e' List.mem_cons_self r hx

end Ferrite.Namespaces
