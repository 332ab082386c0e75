import Mathlib.Data.List.Nodup

/-!
# Tables of pairs

A table is a list of pairs that is searched from the front. A new value takes the place of the old
one, and a new key goes behind the others as long as there is room. A table without a key twice is a
store: a function from keys to values, and the number of keys that have one.
-/
namespace Ferrite.Assoc

variable {K V : Type*} [DecidableEq K]

/-- The value of the first pair with the key. -/
def find : List (K × V) → K → Option V
  | [], _ => none
  | e :: kv, k => if e.1 = k then some e.2 else find kv k

/-- The table with another value in the first pair with the key. -/
def replace : List (K × V) → K → V → Option (List (K × V))
  | [], _, _ => none
  | e :: kv, k, v => if e.1 = k then some ((k, v) :: kv) else (replace kv k v).map (e :: ·)

/-- The table with the value, and whether there was room for it. -/
def assign (room : ℕ) (kv : List (K × V)) (k : K) (v : V) : Bool × List (K × V) :=
  match replace kv k v with
  | some kv' => (true, kv')
  | none => if room ≤ kv.length then (false, kv) else (true, kv ++ [(k, v)])

/-- What a table is for. -/
structure Store (K V : Type*) where
  value : K → Option V
  count : ℕ

/-- A value of a key that has one is replaced; another key needs room. -/
def Store.assign (room : ℕ) (s : Store K V) (k : K) (v : V) : Bool × Store K V :=
  if (s.value k).isSome then (true, ⟨Function.update s.value k (some v), s.count⟩)
  else if room ≤ s.count then (false, s)
  else (true, ⟨Function.update s.value k (some v), s.count + 1⟩)

/-- A table that holds a store. -/
structure Holds (kv : List (K × V)) (s : Store K V) : Prop where
  nodup : (kv.map Prod.fst).Nodup
  value : ∀ k, find kv k = s.value k
  count : kv.length = s.count

variable {kv kv' : List (K × V)} {s : Store K V} {k k' : K} {v : V} {room : ℕ}

theorem find_eq_none : find kv k = none ↔ k ∉ kv.map Prod.fst := by
  induction kv with
  | nil => simp [find]
  | cons e kv ih =>
      rw [find, List.map_cons, List.mem_cons, not_or, ← ih]
      by_cases h : e.1 = k
      · simp [h]
      · simp [h, Ne.symm h]

theorem replace_eq_none : replace kv k v = none ↔ find kv k = none := by
  induction kv with
  | nil => simp [find, replace]
  | cons e kv ih =>
      rw [find, replace]
      split_ifs with h
      · simp
      · rw [Option.map_eq_none_iff, ih]

theorem keys_replace (h : replace kv k v = some kv') : kv'.map Prod.fst = kv.map Prod.fst := by
  induction kv generalizing kv' with
  | nil => cases h
  | cons e kv ih =>
      rw [replace] at h
      split_ifs at h with hk
      · obtain rfl := Option.some.inj h
        rw [List.map_cons, List.map_cons, hk]
      · obtain ⟨kv₁, hkv, rfl⟩ := Option.map_eq_some_iff.mp h
        rw [List.map_cons, List.map_cons, ih hkv]

theorem find_replace (h : replace kv k v = some kv') :
    find kv' k' = if k' = k then some v else find kv k' := by
  induction kv generalizing kv' with
  | nil => cases h
  | cons e kv ih =>
      rw [replace] at h
      split_ifs at h with hk
      · obtain rfl := Option.some.inj h
        rw [find, find]
        by_cases h' : k' = k
        · simp [h']
        · simp [h', Ne.symm h', hk]
      · obtain ⟨kv₁, hkv, rfl⟩ := Option.map_eq_some_iff.mp h
        rw [find, find, ih hkv]
        by_cases h' : k' = k
        · subst h'
          simp [hk]
        · simp [h']

theorem find_snoc (h : find kv k = none) :
    find (kv ++ [(k, v)]) k' = if k' = k then some v else find kv k' := by
  induction kv with
  | nil =>
      rw [List.nil_append, find, find]
      simp [find, eq_comm]
  | cons e kv ih =>
      rw [find] at h
      split_ifs at h with hk
      rw [List.cons_append, find, find, ih h]
      by_cases h' : k' = k
      · subst h'
        simp [hk]
      · simp [h']

/-- A table that holds a store does so after an assignment. -/
theorem Holds.assign (h : Holds kv s) (room : ℕ) (k : K) (v : V) :
    (assign room kv k v).1 = (s.assign room k v).1 ∧
      Holds (assign room kv k v).2 (s.assign room k v).2 := by
  unfold Assoc.assign Store.assign
  cases hreplace : replace kv k v with
  | some kv' =>
      have hsome : (s.value k).isSome = true := by
        rw [← h.value, ← Option.ne_none_iff_isSome]
        intro hnone
        rw [replace_eq_none.mpr hnone] at hreplace
        cases hreplace
      rw [if_pos hsome]
      have hkeys := keys_replace hreplace
      refine ⟨rfl, by rw [hkeys]; exact h.nodup, fun k' => ?_, ?_⟩
      · dsimp only
        rw [find_replace hreplace, h.value, Function.update_apply]
      · have hlen := congrArg List.length hkeys
        rw [List.length_map, List.length_map] at hlen
        exact hlen.trans h.count
  | none =>
      have hfind := replace_eq_none.mp hreplace
      have hnone : ¬ (s.value k).isSome = true := by
        rw [← h.value, hfind]
        simp
      rw [if_neg hnone, h.count]
      dsimp only
      split_ifs with hroom
      · exact ⟨rfl, h⟩
      · refine ⟨rfl, ?_, fun k' => ?_, ?_⟩
        · rw [List.map_append, List.map_singleton]
          exact List.nodup_append.mpr ⟨h.nodup, List.nodup_singleton k, fun a ha b hb => by
            rw [List.mem_singleton.mp hb]
            rintro rfl
            exact find_eq_none.mp hfind ha⟩
        · dsimp only
          rw [find_snoc hfind, h.value, Function.update_apply]
        · rw [List.length_append, List.length_singleton, h.count]

/-- No more keys than there is room for. -/
theorem Store.assign_count (h : s.count ≤ room) (k : K) (v : V) : (s.assign room k v).2.count ≤ room := by
  unfold Store.assign
  split_ifs with hsome hroom
  · exact h
  · exact h
  · exact Nat.lt_of_not_le hroom

end Ferrite.Assoc
