import Mathlib.Data.List.Basic

/-!
# Finite runs of a labelled transition relation

A trace records the state before every step together with the event of the
step. Invariants are proved for one step and hold in every state of a trace; an
invariant that survives a step exactly under a condition holds throughout a
trace exactly when every step meets the condition.
-/
namespace Ferrite.Runs

variable {S E : Type*} {step : S → E → S → Prop} {I : S → Prop} {C : S → E → Prop}

/-- The finite runs from `s` to `u`; the list holds the states left and the events. -/
inductive Trace (step : S → E → S → Prop) : S → List (S × E) → S → Prop
  | nil (s : S) : Trace step s [] s
  | cons {s t u : S} {e : E} {tr : List (S × E)} :
      step s e t → Trace step t tr u → Trace step s ((s, e) :: tr) u

/-- All states of a trace, the last one included, satisfy a predicate. -/
def Throughout (I : S → Prop) (tr : List (S × E)) (u : S) : Prop :=
  (∀ x ∈ tr, I x.1) ∧ I u

theorem throughout_cons {s u : S} {e : E} {tr : List (S × E)} :
    Throughout I ((s, e) :: tr) u ↔ I s ∧ Throughout I tr u := by
  simp [Throughout, and_assoc]

theorem Trace.single {s t : S} {e : E} (h : step s e t) : Trace step s [(s, e)] t :=
  .cons h (.nil t)

theorem Trace.append {s t u : S} {tr ts : List (S × E)} (h : Trace step s tr t)
    (h' : Trace step t ts u) : Trace step s (tr ++ ts) u := by
  induction h with
  | nil _ => exact h'
  | cons hs _ ih => exact .cons hs (ih h')

/-- Steps that meet a condition may be steps of another relation. -/
theorem Trace.imp {step' : S → E → S → Prop} (himp : ∀ s e t, C s e → step s e t → step' s e t)
    {s u : S} {tr : List (S × E)} (h : Trace step s tr u) (hc : ∀ x ∈ tr, C x.1 x.2) :
    Trace step' s tr u := by
  induction h with
  | nil s => exact .nil s
  | @cons s t u e tr hst _ ih =>
      have hce : C s e := hc (s, e) List.mem_cons_self
      exact .cons (himp s e t hce hst) (ih fun x hx => hc x (List.mem_cons_of_mem _ hx))

/-- An invariant kept by the steps that meet a condition, and a property these steps have. -/
theorem Trace.throughout_and_of {J : S → E → Prop}
    (hstep : ∀ s e t, I s → C s e → step s e t → I t ∧ J s e) {s u : S} {tr : List (S × E)}
    (h : Trace step s tr u) (hs : I s) (hc : ∀ x ∈ tr, C x.1 x.2) :
    Throughout I tr u ∧ ∀ x ∈ tr, J x.1 x.2 := by
  induction h with
  | nil _ => exact ⟨⟨by simp, hs⟩, by simp⟩
  | @cons s t u e tr hst _ ih =>
      have hce : C s e := hc (s, e) List.mem_cons_self
      have ⟨ht, hJ⟩ := hstep s e t hs hce hst
      have ⟨hrest, hJrest⟩ := ih ht fun x hx => hc x (List.mem_cons_of_mem _ hx)
      exact ⟨throughout_cons.mpr ⟨hs, hrest⟩, List.forall_mem_cons.mpr ⟨hJ, hJrest⟩⟩

/-- An invariant kept by the steps that meet a condition. -/
theorem Trace.throughout_of (hstep : ∀ s e t, I s → C s e → step s e t → I t) {s u : S}
    {tr : List (S × E)} (h : Trace step s tr u) (hs : I s) (hc : ∀ x ∈ tr, C x.1 x.2) :
    Throughout I tr u :=
  (h.throughout_and_of (J := fun _ _ => True)
    (fun s e t hs hce hst => ⟨hstep s e t hs hce hst, trivial⟩) hs hc).1

/-- An invariant kept by every step. -/
theorem Trace.throughout (hstep : ∀ s e t, I s → step s e t → I t) {s u : S}
    {tr : List (S × E)} (h : Trace step s tr u) (hs : I s) : Throughout I tr u :=
  h.throughout_of (C := fun _ _ => True) (fun s e t hs _ => hstep s e t hs) hs
    fun _ _ => trivial

/-- An invariant that a step keeps, and a property that the step has, exactly under
a condition: they hold throughout a trace exactly when all its steps meet the condition. -/
theorem Trace.throughout_and_iff {J : S → E → Prop}
    (hstep : ∀ s e t, I s → step s e t → ((I t ∧ J s e) ↔ C s e)) {s u : S}
    {tr : List (S × E)} (h : Trace step s tr u) (hs : I s) :
    (Throughout I tr u ∧ ∀ x ∈ tr, J x.1 x.2) ↔ ∀ x ∈ tr, C x.1 x.2 := by
  induction h with
  | nil s => simp [Throughout, hs]
  | @cons s t u e tr hst htr ih =>
      rw [throughout_cons, List.forall_mem_cons, List.forall_mem_cons]
      constructor
      · rintro ⟨⟨-, hrest⟩, hJ, hJrest⟩
        have ht : I t := by
          cases htr with
          | nil _ => exact hrest.2
          | cons _ _ => exact hrest.1 _ List.mem_cons_self
        exact ⟨(hstep s e t hs hst).mp ⟨ht, hJ⟩, (ih ht).mp ⟨hrest, hJrest⟩⟩
      · rintro ⟨hC, hCrest⟩
        have ⟨ht, hJ⟩ := (hstep s e t hs hst).mpr hC
        have ⟨hrest, hJrest⟩ := (ih ht).mpr hCrest
        exact ⟨⟨hs, hrest⟩, hJ, hJrest⟩

/-- An invariant that a step keeps exactly under a condition holds throughout a
trace exactly when all its steps meet the condition. -/
theorem Trace.throughout_iff (hstep : ∀ s e t, I s → step s e t → (I t ↔ C s e)) {s u : S}
    {tr : List (S × E)} (h : Trace step s tr u) (hs : I s) :
    Throughout I tr u ↔ ∀ x ∈ tr, C x.1 x.2 := by
  have := h.throughout_and_iff (J := fun _ _ => True)
    (fun s e t hs hst => by rw [and_true]; exact hstep s e t hs hst) hs
  simpa only [implies_true, and_true] using this

/-- Between a step behind which a property holds and a later one in front of which it does not,
a step ends it. -/
theorem Trace.exists_end {P : S → Prop} {s u : S} {tr ys zs : List (S × E)} {x : S × E}
    (h : Trace step s tr u) (htr : tr = ys ++ x :: zs) (hs : P s) (hx : ¬ P x.1) :
    ∃ y ∈ ys, ∃ t, P y.1 ∧ step y.1 y.2 t ∧ ¬ P t := by
  induction h generalizing ys with
  | nil _ => cases ys <;> cases htr
  | @cons s t u e tr hst _ ih =>
      cases ys with
      | nil =>
          obtain ⟨rfl, -⟩ := List.cons.inj htr
          exact absurd hs hx
      | cons y ys =>
          obtain ⟨rfl, hrest⟩ := List.cons.inj htr
          by_cases ht : P t
          · obtain ⟨y, hy, hends⟩ := ih hrest ht
            exact ⟨y, List.mem_cons_of_mem _ hy, hends⟩
          · exact ⟨(s, e), List.mem_cons_self, t, hs, hst, ht⟩

theorem Trace.of_append {s u : S} {tr ts : List (S × E)} (h : Trace step s (tr ++ ts) u) :
    ∃ t, Trace step s tr t ∧ Trace step t ts u := by
  induction tr generalizing s with
  | nil => exact ⟨s, .nil s, h⟩
  | cons x tr ih =>
      cases h with
      | cons hst hrest =>
          obtain ⟨t, htr, hts⟩ := ih hrest
          exact ⟨t, .cons hst htr, hts⟩

/-! ## Calls with results -/

/-- The results of a list of calls, and the state after them. -/
def play {R : Type*} (f : S → E → R × S) : S → List E → List R × S
  | s, [] => ([], s)
  | s, e :: es => ((f s e).1 :: (play f (f s e).2 es).1, (play f (f s e).2 es).2)

/-- Where each call has the result of an abstract one and leads to its state, all calls do. -/
theorem play_abstract {R A : Type*} {f : S → E → R × S} {g : A → E → R × A} {a : S → A}
    (hstep : ∀ s e, I s → C s e → g (a s) e = ((f s e).1, a (f s e).2) ∧ I (f s e).2)
    (hcond : ∀ s e, I s → C s e → ∀ e', C s e' → C (f s e).2 e') {s : S} {es : List E} (hs : I s)
    (hc : ∀ e ∈ es, C s e) : play g (a s) es = ((play f s es).1, a (play f s es).2) ∧ I (play f s es).2 := by
  induction es generalizing s with
  | nil => exact ⟨rfl, hs⟩
  | cons e es ih =>
      have he : C s e := hc e List.mem_cons_self
      obtain ⟨heq, hnext⟩ := hstep s e hs he
      obtain ⟨hrest, hend⟩ := ih hnext fun e' he' => hcond s e hs he e' (hc e' (List.mem_cons_of_mem _ he'))
      refine ⟨?_, hend⟩
      rw [play, play, heq]
      dsimp only
      rw [hrest]

/-! ## Runs of a step function -/

/-- The state after a list of events. -/
def exec (f : S → E → Option S) : S → List E → Option S
  | s, [] => some s
  | s, e :: es => (f s e).bind fun t => exec f t es

/-- The states and events of the run. -/
def history (f : S → E → Option S) : S → List E → List (S × E)
  | _, [] => []
  | s, e :: es => (s, e) :: ((f s e).map fun t => history f t es).getD []

theorem exec_trace {f : S → E → Option S} {s u : S} {es : List E} (h : exec f s es = some u) :
    Trace (fun s e t => f s e = some t) s (history f s es) u := by
  induction es generalizing s with
  | nil =>
      cases h
      exact .nil _
  | cons e es ih =>
      obtain ⟨t, hst, ht⟩ := Option.bind_eq_some_iff.mp h
      rw [history, hst]
      exact .cons hst (ih ht)

theorem mem_history {f : S → E → Option S} {s : S} {es : List E} {x : S × E}
    (h : x ∈ history f s es) : x.2 ∈ es := by
  induction es generalizing s with
  | nil => simp [history] at h
  | cons e es ih =>
      rw [history] at h
      cases h with
      | head => exact List.mem_cons_self
      | tail _ h =>
          cases hs : f s e with
          | none =>
              rw [hs] at h
              cases h
          | some t =>
              rw [hs] at h
              exact List.mem_cons_of_mem _ (ih h)

end Ferrite.Runs
