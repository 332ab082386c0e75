import Mathlib.Data.List.Basic
import Mathlib.Tactic.Common

/-!
# A window that moves along a roll of rows

Text is written on a roll of rows that has no end, each of `w` columns. What is seen are `h` rows
of it, which a flat array holds row after row. The window moves down with the row that is written,
and the row that comes into sight is blank.
-/
namespace Ferrite.Rolls
variable {A : Type*}

/-! ## Loops that fill an array -/

/-- Stores `v` in `n` places from `d` on. -/
def fill (d n : ℕ) (v : A) (b : ℕ → A) : ℕ → A :=
  (List.range n).foldl (fun b x => Function.update b (d + x) v) b

/-- Copies the `n` places from `s` on to those from `d` on, one after the other. -/
def move (d s n : ℕ) (b : ℕ → A) : ℕ → A :=
  (List.range n).foldl (fun b x => Function.update b (d + x) (b (s + x))) b

theorem fill_apply (d n : ℕ) (v : A) (b : ℕ → A) (p : ℕ) :
    fill d n v b p = if d ≤ p ∧ p < d + n then v else b p := by
  induction n with
  | zero => rw [if_neg (by omega)]; rfl
  | succ n ih =>
      unfold fill at ih ⊢
      rw [List.range_succ, List.foldl_append, List.foldl_cons, List.foldl_nil]
      by_cases hp : p = d + n
      · rw [hp, Function.update_self, if_pos (by omega)]
      · rw [Function.update_of_ne hp, ih]
        by_cases hin : d ≤ p ∧ p < d + n
        · rw [if_pos hin, if_pos (by omega)]
        · rw [if_neg hin, if_neg (by omega)]

/-- Copied downwards, nothing is overwritten before it is read. -/
theorem move_apply {d s n : ℕ} (h : d + n ≤ s) (b : ℕ → A) (p : ℕ) :
    move d s n b p = if d ≤ p ∧ p < d + n then b (s + (p - d)) else b p := by
  induction n generalizing p with
  | zero => rw [if_neg (by omega)]; rfl
  | succ n ih =>
      have hstep := ih (by omega)
      unfold move at hstep ⊢
      rw [List.range_succ, List.foldl_append, List.foldl_cons, List.foldl_nil]
      by_cases hp : p = d + n
      · rw [hp, Function.update_self, hstep, if_neg (by omega), if_pos (by omega), Nat.add_sub_cancel_left]
      · rw [Function.update_of_ne hp, hstep]
        by_cases hin : d ≤ p ∧ p < d + n
        · rw [if_pos hin, if_pos (by omega)]
        · rw [if_neg hin, if_neg (by omega)]

/-! ## The roll -/

/-- The rows with the cursor, and the first row that is seen. -/
structure Roll (A : Type*) where
  rows : ℕ → ℕ → A
  top : ℕ
  row : ℕ
  column : ℕ

namespace Roll
variable (r : Roll A)

/-- Writes at the cursor. -/
def put (a : A) : Roll A :=
  { r with rows := Function.update r.rows r.row (Function.update (r.rows r.row) r.column a) }

/-- Goes to the next row, which is blank if it comes into sight. -/
def next (h : ℕ) (blank : A) : Roll A :=
  if r.row + 1 < r.top + h then { r with row := r.row + 1, column := 0 }
  else
    { rows := Function.update r.rows (r.row + 1) fun _ => blank
      top := r.top + 1, row := r.row + 1, column := 0 }

/-- Writes at the cursor and moves on, to the next row behind the last column. -/
def type (w h : ℕ) (blank a : A) : Roll A :=
  if r.column + 1 < w then { r.put a with column := r.column + 1 } else (r.put a).next h blank

/-- One step back, and what is there is blank. -/
def back (blank : A) : Roll A :=
  if 0 < r.column then { r with column := r.column - 1 }.put blank else r

/-- All that is seen is blank. -/
def wipe (h : ℕ) (blank : A) : Roll A :=
  { r with rows := fun y => if r.top ≤ y ∧ y < r.top + h then fun _ => blank else r.rows y }

/-- A new page below all that was seen. -/
def page (h : ℕ) (blank : A) : Roll A :=
  { r with top := r.top + h, row := r.top + h, column := 0 }.wipe h blank

/-- The array shows the rows from the top on, and the cursor is in sight. -/
structure Shows (w h : ℕ) (b : ℕ → A) (y x : ℕ) : Prop where
  row : r.row = r.top + y ∧ y < h
  column : r.column = x ∧ x < w
  cells : ∀ i < h, ∀ j < w, b (i * w + j) = r.rows (r.top + i) j

end Roll

variable {r : Roll A} {w h y x p i j : ℕ} {b : ℕ → A} {a blank : A}

/-- A place in the array is one row and one column. -/
theorem index_inj (hj : j < w) (hx : x < w) : i * w + j = y * w + x ↔ i = y ∧ j = x := by
  constructor
  · intro heq
    have hrow : i = y := by
      have hdiv := congrArg (· / w) heq
      rwa [Nat.mul_comm i, Nat.mul_comm y, Nat.mul_add_div (by omega), Nat.mul_add_div (by omega),
        Nat.div_eq_of_lt hj, Nat.div_eq_of_lt hx, Nat.add_zero, Nat.add_zero] at hdiv
    subst hrow
    exact ⟨rfl, Nat.add_left_cancel heq⟩
  · rintro ⟨rfl, rfl⟩
    rfl

theorem index_lt (hi : i < h) (hj : j < w) : i * w + j < h * w := by
  have hle := Nat.mul_le_mul_right w (show i + 1 ≤ h from hi)
  rw [Nat.succ_mul] at hle
  omega

namespace Roll.Shows

/-- A store at the cursor is a write on the roll. -/
theorem put (hr : r.Shows w h b y x) (a : A) : (r.put a).Shows w h (Function.update b (y * w + x) a) y x where
  row := hr.row
  column := hr.column
  cells i hi j hj := by
    change _ = Function.update r.rows r.row (Function.update (r.rows r.row) r.column a) (r.top + i) j
    rw [hr.row.1, hr.column.1]
    by_cases hrow : i = y
    · subst hrow
      rw [Function.update_self]
      by_cases hcol : j = x
      · rw [hcol, Function.update_self, Function.update_self]
      · rw [Function.update_of_ne hcol, Function.update_of_ne, hr.cells i hi j hj]
        exact fun heq => hcol ((index_inj hj hr.column.2).mp heq).2
    · have hne : r.top + i ≠ r.top + y := by omega
      rw [Function.update_of_ne hne, Function.update_of_ne, hr.cells i hi j hj]
      exact fun heq => hrow ((index_inj hj hr.column.2).mp heq).1

/-- The cursor goes to another column. -/
theorem atColumn (hr : r.Shows w h b y x) (hp : p < w) : { r with column := p }.Shows w h b y p :=
  ⟨hr.row, ⟨rfl, hp⟩, hr.cells⟩

/-- Above the last row only the cursor moves. -/
theorem next_inside (hr : r.Shows w h b y x) (hy : y + 1 < h) (blank : A) :
    (r.next h blank).Shows w h b (y + 1) 0 := by
  have hrow := hr.row
  have hcolumn := hr.column
  unfold Roll.next
  rw [if_pos (by omega)]
  exact ⟨⟨by change r.row + 1 = r.top + (y + 1); omega, hy⟩, ⟨rfl, by omega⟩, hr.cells⟩

/-- In the last row the array moves up by a row. -/
theorem next_last {c : ℕ → A} (hr : r.Shows w h b y x) (hy : y + 1 = h)
    (hmoved : ∀ p, p < y * w → c p = b (p + w)) (hblank : ∀ j < w, c (y * w + j) = blank) :
    (r.next h blank).Shows w h c y 0 := by
  have hrow := hr.row
  have hcolumn := hr.column
  unfold Roll.next
  rw [if_neg (by omega)]
  refine ⟨⟨by change r.row + 1 = r.top + 1 + y; omega, by omega⟩, ⟨rfl, by omega⟩, ?_⟩
  intro i hi j hj
  change c (i * w + j) = Function.update r.rows (r.row + 1) (fun _ => blank) (r.top + 1 + i) j
  by_cases hlast : i = y
  · rw [hlast, hblank j hj, show r.top + 1 + y = r.row + 1 by omega, Function.update_self]
  · have hmul := index_lt (show i < y by omega) hj
    rw [hmoved _ hmul, Function.update_of_ne (by omega)]
    have hcell := hr.cells (i + 1) (by omega) j hj
    rw [show i * w + j + w = (i + 1) * w + j by rw [Nat.succ_mul]; omega, hcell]
    congr 1
    omega

/-- An array of blanks shows a roll that was wiped. -/
theorem wipe {c : ℕ → A} (hr : r.Shows w h b y x) (hblank : ∀ i < h, ∀ j < w, c (i * w + j) = blank) :
    (r.wipe h blank).Shows w h c y x where
  row := hr.row
  column := hr.column
  cells i hi j hj := by
    change _ = (if r.top ≤ r.top + i ∧ r.top + i < r.top + h then fun _ => blank else r.rows (r.top + i)) j
    rw [if_pos (by omega)]
    exact hblank i hi j hj

theorem page {c : ℕ → A} (hr : r.Shows w h b y x) (hblank : ∀ i < h, ∀ j < w, c (i * w + j) = blank) :
    (r.page h blank).Shows w h c 0 0 where
  row := ⟨rfl, by have := hr.row; omega⟩
  column := ⟨rfl, by have := hr.column; omega⟩
  cells i hi j hj := by
    change _ = (if r.top + h ≤ r.top + h + i ∧ r.top + h + i < r.top + h + h then fun _ => blank else
      r.rows (r.top + h + i)) j
    rw [if_pos (by omega)]
    exact hblank i hi j hj

end Roll.Shows

/-! ## Writing a text -/

namespace Roll

/-- In front of the cursor, in its row and in those above. -/
def Before (r : Roll A) (y x : ℕ) : Prop := y < r.row ∨ (y = r.row ∧ x < r.column)

/-- Writes a text. -/
def typeAll (w h : ℕ) (blank : A) (r : Roll A) (text : List A) : Roll A :=
  text.foldl (fun r a => r.type w h blank a) r

/-- The window reaches down to the row of the cursor. -/
def InSight (h : ℕ) (r : Roll A) : Prop := r.top ≤ r.row ∧ r.row < r.top + h

/-- One character: it stands where the cursor was, and what was in front of it is as before. -/
theorem type_spec (r : Roll A) (h : ℕ) (blank a : A) (hc : r.column < w) (hs : r.InSight h) :
    let t := r.type w h blank a
    t.row = r.row + (r.column + 1) / w ∧ t.column = (r.column + 1) % w ∧ t.InSight h ∧
      t.top = max r.top (t.row + 1 - h) ∧ t.rows r.row r.column = a ∧
      ∀ y x, r.Before y x → t.rows y x = r.rows y x := by
  have hput : (r.put a).rows r.row r.column = a := by
    change Function.update r.rows r.row (Function.update (r.rows r.row) r.column a) r.row r.column = a
    rw [Function.update_self, Function.update_self]
  have hbefore (y x : ℕ) (hyx : r.Before y x) : (r.put a).rows y x = r.rows y x := by
    change Function.update r.rows r.row (Function.update (r.rows r.row) r.column a) y x = _
    rcases hyx with hy | ⟨rfl, hx⟩
    · rw [Function.update_of_ne (by omega)]
    · rw [Function.update_self, Function.update_of_ne (by omega)]
  unfold InSight at hs
  unfold type
  by_cases hlast : r.column + 1 < w
  · rw [if_pos hlast, Nat.div_eq_of_lt hlast, Nat.mod_eq_of_lt hlast]
    exact ⟨rfl, rfl, hs, (Nat.max_eq_left (by change r.row + 1 - h ≤ r.top; omega)).symm, hput, hbefore⟩
  · have hw : r.column + 1 = w := by omega
    rw [if_neg hlast, hw, Nat.div_self (by omega), Nat.mod_self]
    unfold next
    by_cases hin : (r.put a).row + 1 < (r.put a).top + h
    · change r.row + 1 < r.top + h at hin
      rw [if_pos (show (r.put a).row + 1 < (r.put a).top + h from hin)]
      refine ⟨rfl, rfl, ⟨?_, hin⟩, (Nat.max_eq_left ?_).symm, hput, hbefore⟩
      · change r.top ≤ r.row + 1
        omega
      · change r.row + 1 + 1 - h ≤ r.top
        omega
    · rw [if_neg hin]
      change ¬ r.row + 1 < r.top + h at hin
      refine ⟨rfl, rfl, ⟨?_, ?_⟩, ?_, ?_, fun y x hyx => ?_⟩
      · change r.top + 1 ≤ r.row + 1
        omega
      · change r.row + 1 < r.top + 1 + h
        omega
      · change r.top + 1 = max r.top (r.row + 1 + 1 - h)
        omega
      · change Function.update (r.put a).rows (r.row + 1) (fun _ => blank) r.row r.column = a
        rw [Function.update_of_ne (by omega), hput]
      · change Function.update (r.put a).rows (r.row + 1) (fun _ => blank) y x = _
        have hy : y ≤ r.row := by
          rcases hyx with hy | ⟨hy, -⟩
          · exact Nat.le_of_lt hy
          · exact Nat.le_of_eq hy
        rw [Function.update_of_ne (by omega), hbefore y x hyx]

/-- A text stands on the roll from the cursor on, row after row. -/
theorem typeAll_spec (r : Roll A) (h : ℕ) (blank : A) (text : List A) (hc : r.column < w) (hs : r.InSight h) :
    let t := r.typeAll w h blank text
    t.row = r.row + (r.column + text.length) / w ∧ t.column = (r.column + text.length) % w ∧
      t.InSight h ∧ t.top = max r.top (t.row + 1 - h) ∧
      (∀ i a, text[i]? = some a → t.rows (r.row + (r.column + i) / w) ((r.column + i) % w) = a) ∧
      ∀ y x, r.Before y x → t.rows y x = r.rows y x := by
  induction text generalizing r with
  | nil =>
      change r.row = _ ∧ r.column = _ ∧ r.InSight h ∧ r.top = max r.top (r.row + 1 - h) ∧ _ ∧ _
      rw [List.length_nil, Nat.add_zero, Nat.div_eq_of_lt hc, Nat.mod_eq_of_lt hc]
      have htop := hs.2
      exact ⟨rfl, rfl, hs, (Nat.max_eq_left (by omega)).symm, fun i a hi => by simp at hi, fun _ _ _ => rfl⟩
  | cons a text ih =>
      obtain ⟨hrow, hcolumn, hsight, htop, hhere, hbefore⟩ := r.type_spec h blank a hc hs
      generalize hu : r.type w h blank a = u at *
      have hpos : 0 < w := by omega
      obtain ⟨hrow', hcolumn', hsight', htop', htext, hbefore'⟩ :=
        ih u (hcolumn ▸ Nat.mod_lt _ hpos) hsight
      have hcarry (k : ℕ) : u.row + (u.column + k) / w = r.row + (r.column + (k + 1)) / w ∧
          (u.column + k) % w = (r.column + (k + 1)) % w := by
        have hsplit := Nat.div_add_mod (r.column + 1) w
        have hsum : r.column + (k + 1) = w * ((r.column + 1) / w) + ((r.column + 1) % w + k) := by
          calc r.column + (k + 1) = r.column + 1 + k := by omega
            _ = w * ((r.column + 1) / w) + ((r.column + 1) % w + k) := by rw [← Nat.add_assoc, hsplit]
        rw [hrow, hcolumn, hsum, Nat.mul_add_div hpos, Nat.mul_add_mod]
        exact ⟨Nat.add_assoc .., rfl⟩
      have hnext : u.Before r.row r.column := by
        unfold Before
        rw [hrow, hcolumn]
        by_cases hlast : r.column + 1 < w
        · rw [Nat.div_eq_of_lt hlast, Nat.mod_eq_of_lt hlast]
          omega
        · rw [show r.column + 1 = w by omega, Nat.div_self hpos]
          omega
      have hsub (y x : ℕ) (hyx : r.Before y x) : u.Before y x := by
        unfold Before at hnext hyx ⊢
        omega
      have hfold : r.typeAll w h blank (a :: text) = u.typeAll w h blank text := by
        rw [← hu]
        rfl
      rw [hfold, List.length_cons]
      refine ⟨hrow'.trans (hcarry _).1, hcolumn'.trans (hcarry _).2, hsight', ?_, ?_, ?_⟩
      · have hmono : u.row ≤ (u.typeAll w h blank text).row := by
          rw [hrow']
          exact Nat.le_add_right ..
        rw [htop', htop]
        omega
      · intro i b hi
        cases i with
        | zero =>
            rw [List.getElem?_cons_zero] at hi
            cases hi
            rw [Nat.add_zero, Nat.div_eq_of_lt hc, Nat.mod_eq_of_lt hc, Nat.add_zero, hbefore' _ _ hnext, hhere]
        | succ i =>
            rw [List.getElem?_cons_succ] at hi
            rw [← (hcarry i).1, ← (hcarry i).2]
            exact htext i b hi
      · intro y x hyx
        rw [hbefore' y x (hsub y x hyx), hbefore y x hyx]

end Roll
end Ferrite.Rolls
