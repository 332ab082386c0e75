import Ferrite.Library.Roll
import Mathlib.Data.List.TakeWhile

/-!
# The text screen

The writer of the screen keeps a cursor and stores cells in the memory of the adapter; in the last
row it moves the cells of all rows up. What is on the screen is a window on a roll of rows on which
nothing ever moves.
-/
namespace Ferrite.Drivers
open Rolls

abbrev Cell := BitVec 16

def vgaWidth : ℕ := 80
def vgaHeight : ℕ := 25

def vgaEntryColour (fg bg : BitVec 8) : BitVec 8 := fg ||| bg <<< 4
def vgaEntry (c colour : BitVec 8) : Cell := c.setWidth 16 ||| colour.setWidth 16 <<< 8

def newlineChar : BitVec 8 := 10
def backspaceChar : BitVec 8 := 8

/-- `Writer`; the buffer is the memory from `VGA_MEMORY` on. -/
structure Writer where
  column : ℕ
  row : ℕ
  colour : BitVec 8
  buffer : ℕ → Cell

namespace Writer
variable (self : Writer)

/-- `VGA_ENTRY(' ', self->colour)`. -/
def blank : Cell := vgaEntry 32 self.colour

def setColour (fg bg : BitVec 8) : Writer := { self with colour := vgaEntryColour fg bg }

def clearChar : Writer :=
  if 0 < self.column then
    let column := self.column - 1
    let index := self.row * vgaWidth + column
    { self with column := column, buffer := Function.update self.buffer index self.blank }
  else self

/-- The loop over the rows `1` to `n`, which copies each to the row above. -/
def scrollRows (n : ℕ) (buffer : ℕ → Cell) : ℕ → Cell :=
  (List.range' 1 n).foldl (fun b y => move ((y - 1) * vgaWidth) (y * vgaWidth) vgaWidth b) buffer

def scroll : Writer :=
  let buffer := scrollRows (vgaHeight - 1) self.buffer
  { self with buffer := fill ((vgaHeight - 1) * vgaWidth) vgaWidth self.blank buffer }

def newLine : Writer :=
  let self := { self with column := 0 }
  if self.row < vgaHeight - 1 then { self with row := self.row + 1 } else self.scroll

def writeChar (c : BitVec 8) : Writer :=
  if c = newlineChar then self.newLine
  else if c = backspaceChar then self.clearChar
  else
    let index := self.row * vgaWidth + self.column
    let self := { self with buffer := Function.update self.buffer index (vgaEntry c self.colour) }
    let self := { self with column := self.column + 1 }
    if vgaWidth ≤ self.column then self.newLine else self

/-- The string goes up to its end. -/
def writeString (str : List (BitVec 8)) : Writer :=
  (str.takeWhile (· ≠ 0)).foldl (fun self c => self.writeChar c) self

/-- The loop over the first `n` rows that stores blanks. -/
def blankRows (blank : Cell) (n : ℕ) (buffer : ℕ → Cell) : ℕ → Cell :=
  (List.range n).foldl (fun b r => fill (r * vgaWidth) vgaWidth blank b) buffer

def clearScreen : Writer :=
  { self with buffer := blankRows self.blank vgaHeight self.buffer, column := 0, row := 0 }

def init : Writer := { self with buffer := blankRows self.blank vgaHeight self.buffer }

/-- `WRITER_NEW`. -/
def start (memory : ℕ → Cell) : Writer := ⟨0, 0, vgaEntryColour 15 0, memory⟩

end Writer

/-- The calls of the driver. -/
inductive VgaCall
  | init
  | putchar (c : BitVec 8)
  | puts (str : List (BitVec 8))
  | clear
  | delete
  | setcolour (fg bg : BitVec 8)

def Writer.call (self : Writer) : VgaCall → Writer
  | .init => self.init
  | .putchar c => self.writeChar c
  | .puts str => self.writeString str
  | .clear => self.clearScreen
  | .delete => self.clearChar
  | .setcolour fg bg => self.setColour fg bg

/-! ## The terminal -/

/-- What the calls are for: text on a roll of rows, in a colour. -/
structure Terminal where
  roll : Roll Cell
  colour : BitVec 8

namespace Terminal
variable (t : Terminal)

def blank : Cell := vgaEntry 32 t.colour

def char (c : BitVec 8) : Terminal :=
  { t with
    roll :=
      if c = newlineChar then t.roll.next vgaHeight t.blank
      else if c = backspaceChar then t.roll.back t.blank
      else t.roll.type vgaWidth vgaHeight t.blank (vgaEntry c t.colour) }

def call : VgaCall → Terminal
  | .init => { t with roll := t.roll.wipe vgaHeight t.blank }
  | .putchar c => t.char c
  | .puts str => (str.takeWhile (· ≠ 0)).foldl (fun t c => t.char c) t
  | .clear => { t with roll := t.roll.page vgaHeight t.blank }
  | .delete => { t with roll := t.roll.back t.blank }
  | .setcolour fg bg => { t with colour := vgaEntryColour fg bg }

/-- The memory as it was found, at the start of a roll. -/
def start (memory : ℕ → Cell) : Terminal :=
  ⟨⟨fun y x => memory (y * vgaWidth + x), 0, 0, 0⟩, vgaEntryColour 15 0⟩

/-- The screen shows the terminal, and the memory behind the screen is that at the start. -/
structure Shown (memory : ℕ → Cell) (w : Writer) : Prop where
  shows : t.roll.Shows vgaWidth vgaHeight w.buffer w.row w.column
  colour : t.colour = w.colour
  behind : ∀ p, vgaHeight * vgaWidth ≤ p → w.buffer p = memory p

end Terminal

variable {w : Writer} {t : Terminal} {memory : ℕ → Cell} {c : BitVec 8} {n p : ℕ}

/-! ## The loops -/

namespace Writer

theorem scrollRows_apply (n : ℕ) (b : ℕ → Cell) (p : ℕ) :
    scrollRows n b p = if p < n * vgaWidth then b (p + vgaWidth) else b p := by
  induction n generalizing p with
  | zero =>
      rw [if_neg (by omega)]
      rfl
  | succ n ih =>
      have hstep : scrollRows (n + 1) b
          = move (n * vgaWidth) ((n + 1) * vgaWidth) vgaWidth (scrollRows n b) := by
        unfold scrollRows
        rw [List.range'_concat, List.foldl_append, List.foldl_cons, List.foldl_nil, Nat.one_mul,
          Nat.add_sub_cancel_left, Nat.add_comm 1 n]
      rw [hstep, Nat.succ_mul, move_apply (le_refl _)]
      by_cases hrow : n * vgaWidth ≤ p ∧ p < n * vgaWidth + vgaWidth
      · rw [if_pos hrow, if_pos hrow.2, ih, if_neg (by omega)]
        congr 1
        omega
      · rw [if_neg hrow, ih]
        by_cases habove : p < n * vgaWidth
        · rw [if_pos habove, if_pos (by omega)]
        · rw [if_neg habove, if_neg (by omega)]

theorem blankRows_apply (blank : Cell) (n : ℕ) (b : ℕ → Cell) (p : ℕ) :
    blankRows blank n b p = if p < n * vgaWidth then blank else b p := by
  induction n generalizing p with
  | zero =>
      rw [if_neg (by omega)]
      rfl
  | succ n ih =>
      have hstep : blankRows blank (n + 1) b = fill (n * vgaWidth) vgaWidth blank (blankRows blank n b) := by
        unfold blankRows
        rw [List.range_succ, List.foldl_append, List.foldl_cons, List.foldl_nil]
      rw [hstep, Nat.succ_mul, fill_apply]
      by_cases hrow : n * vgaWidth ≤ p ∧ p < n * vgaWidth + vgaWidth
      · rw [if_pos hrow, if_pos hrow.2]
      · rw [if_neg hrow, ih]
        by_cases habove : p < n * vgaWidth
        · rw [if_pos habove, if_pos (by omega)]
        · rw [if_neg habove, if_neg (by omega)]

/-- All rows go up by one, and the last one is blank. -/
theorem scroll_apply (w : Writer) (p : ℕ) : w.scroll.buffer p =
    if p < (vgaHeight - 1) * vgaWidth then w.buffer (p + vgaWidth)
    else if p < vgaHeight * vgaWidth then w.blank else w.buffer p := by
  change fill ((vgaHeight - 1) * vgaWidth) vgaWidth w.blank (scrollRows (vgaHeight - 1) w.buffer) p = _
  rw [fill_apply, scrollRows_apply]
  have hrows : (vgaHeight - 1) * vgaWidth + vgaWidth = vgaHeight * vgaWidth := rfl
  rw [hrows]
  by_cases habove : p < (vgaHeight - 1) * vgaWidth
  · rw [if_neg (by omega), if_pos habove, if_pos habove]
  · rw [if_neg habove, if_neg habove]
    by_cases hlast : p < vgaHeight * vgaWidth
    · rw [if_pos ⟨not_lt.mp habove, hlast⟩, if_pos hlast]
    · rw [if_neg (by omega), if_neg hlast]

end Writer

/-! ## One call -/

namespace Terminal.Shown
open Writer

theorem blank_eq (h : t.Shown memory w) : t.blank = w.blank := by
  unfold Terminal.blank Writer.blank
  rw [h.colour]

theorem clearChar (h : t.Shown memory w) :
    ({ t with roll := t.roll.back t.blank } : Terminal).Shown memory w.clearChar := by
  have hcolumn := h.shows.column
  unfold Writer.clearChar Roll.back
  rw [hcolumn.1]
  by_cases hpos : 0 < w.column
  · rw [if_pos hpos, if_pos hpos, h.blank_eq]
    refine ⟨(h.shows.atColumn (by omega)).put w.blank, h.colour, fun p hp => ?_⟩
    have hindex := index_lt h.shows.row.2 (show w.column - 1 < vgaWidth by omega)
    dsimp only
    rw [Function.update_of_ne (by omega)]
    exact h.behind p hp
  · rw [if_neg hpos, if_neg hpos]
    exact h

theorem newLine (h : t.Shown memory w) :
    ({ t with roll := t.roll.next vgaHeight t.blank } : Terminal).Shown memory w.newLine := by
  have hrow := h.shows.row
  unfold Writer.newLine
  dsimp only
  by_cases hlast : w.row < vgaHeight - 1
  · rw [if_pos hlast]
    exact ⟨h.shows.next_inside (by omega) t.blank, h.colour, h.behind⟩
  · have hbottom : w.row + 1 = vgaHeight := by omega
    have hend : w.row = vgaHeight - 1 := by omega
    have hrows : (vgaHeight - 1) * vgaWidth + vgaWidth = vgaHeight * vgaWidth := rfl
    rw [if_neg hlast, h.blank_eq]
    refine ⟨h.shows.next_last hbottom (fun p hp => ?_) (fun j hj => ?_), h.colour, fun p hp => ?_⟩
    · rw [hend] at hp
      rw [scroll_apply, if_pos hp]
    · rw [hend, scroll_apply, if_neg (by omega), if_pos (by omega)]
      rfl
    · rw [← h.behind p hp, scroll_apply, if_neg (by omega), if_neg (by omega)]

/-- A cell is stored at the cursor. -/
theorem store (h : t.Shown memory w) (a : Cell) :
    ({ t with roll := t.roll.put a } : Terminal).Shown memory
      { w with buffer := Function.update w.buffer (w.row * vgaWidth + w.column) a } := by
  refine ⟨h.shows.put a, h.colour, fun p hp => ?_⟩
  have hindex := index_lt h.shows.row.2 h.shows.column.2
  dsimp only
  rw [Function.update_of_ne (by omega)]
  exact h.behind p hp

theorem writeChar (h : t.Shown memory w) (c : BitVec 8) : (t.char c).Shown memory (w.writeChar c) := by
  have hcolumn := h.shows.column
  unfold Terminal.char Writer.writeChar
  by_cases hnewline : c = newlineChar
  · rw [if_pos hnewline, if_pos hnewline]
    exact h.newLine
  by_cases hback : c = backspaceChar
  · rw [if_neg hnewline, if_neg hnewline, if_pos hback, if_pos hback]
    exact h.clearChar
  have hstored := h.store (vgaEntry c t.colour)
  rw [if_neg hnewline, if_neg hnewline, if_neg hback, if_neg hback,
    show vgaEntry c w.colour = vgaEntry c t.colour by rw [h.colour]]
  unfold Roll.type
  dsimp only
  rw [hcolumn.1]
  by_cases hlast : w.column + 1 < vgaWidth
  · rw [if_pos hlast, if_neg (not_le.mpr hlast)]
    exact ⟨hstored.shows.atColumn hlast, hstored.colour, hstored.behind⟩
  · -- Behind the last column the cursor leaves the row.
    rw [if_neg hlast, if_pos (not_lt.mp hlast)]
    exact hstored.newLine

theorem writeString (h : t.Shown memory w) (str : List (BitVec 8)) :
    ((str.takeWhile (· ≠ 0)).foldl (fun t c => t.char c) t).Shown memory (w.writeString str) := by
  unfold Writer.writeString
  generalize str.takeWhile (· ≠ 0) = text
  induction text generalizing t w with
  | nil => exact h
  | cons c text ih => exact ih (h.writeChar c)

theorem blankRows_eq {i j : ℕ} (hi : i < vgaHeight) (hj : j < vgaWidth) :
    blankRows w.blank vgaHeight w.buffer (i * vgaWidth + j) = w.blank := by
  rw [blankRows_apply, if_pos (index_lt hi hj)]

theorem blankRows_behind (h : t.Shown memory w) (p : ℕ) (hp : vgaHeight * vgaWidth ≤ p) :
    blankRows w.blank vgaHeight w.buffer p = memory p := by
  rw [blankRows_apply, if_neg (not_lt.mpr hp)]
  exact h.behind p hp

/-- Every call does to the screen what it is for. -/
theorem call (h : t.Shown memory w) (call : VgaCall) : (t.call call).Shown memory (w.call call) := by
  cases call with
  | init => exact ⟨h.shows.wipe fun i hi j hj => h.blank_eq ▸ blankRows_eq hi hj, h.colour, h.blankRows_behind⟩
  | putchar c => exact h.writeChar c
  | puts str => exact h.writeString str
  | clear => exact ⟨h.shows.page fun i hi j hj => h.blank_eq ▸ blankRows_eq hi hj, h.colour, h.blankRows_behind⟩
  | delete => exact h.clearChar
  | setcolour fg bg => exact ⟨h.shows, rfl, h.behind⟩

theorem calls (h : t.Shown memory w) (calls : List VgaCall) :
    (calls.foldl Terminal.call t).Shown memory (calls.foldl Writer.call w) := by
  induction calls generalizing t w with
  | nil => exact h
  | cons c calls ih => exact ih (h.call c)

end Terminal.Shown

theorem start_shown (memory : ℕ → Cell) : (Terminal.start memory).Shown memory (.start memory) where
  shows :=
    { row := ⟨rfl, show 0 < vgaHeight by decide⟩
      column := ⟨rfl, show 0 < vgaWidth by decide⟩
      cells := fun i hi j hj => by
        change _ = memory ((0 + i) * vgaWidth + j)
        rw [Nat.zero_add]
        rfl }
  colour := rfl
  behind p _ := rfl

/-- After any calls the screen shows the last rows of the roll on which they write, the cursor is
on the screen, and the memory behind the screen is untouched. -/
theorem screen_shows_roll (memory : ℕ → Cell) (calls : List VgaCall) :
    let w := calls.foldl Writer.call (.start memory)
    let roll := (calls.foldl Terminal.call (.start memory)).roll
    (w.row < vgaHeight ∧ w.column < vgaWidth) ∧
      (roll.row = roll.top + w.row ∧ roll.column = w.column) ∧
      (∀ y < vgaHeight, ∀ x < vgaWidth, w.buffer (y * vgaWidth + x) = roll.rows (roll.top + y) x) ∧
      ∀ p, vgaHeight * vgaWidth ≤ p → w.buffer p = memory p := by
  have h := (start_shown memory).calls calls
  exact ⟨⟨h.shows.row.2, h.shows.column.2⟩, ⟨h.shows.row.1, h.shows.column.1⟩, h.shows.cells, h.behind⟩

/-! ## A text on the screen -/

/-- A character that is shown: not the end of a string, a new line or a step back. -/
def Printable (c : BitVec 8) : Prop := c ≠ 0 ∧ c ≠ newlineChar ∧ c ≠ backspaceChar

theorem char_printable (t : Terminal) (hc : Printable c) :
    t.char c = { t with roll := t.roll.type vgaWidth vgaHeight t.blank (vgaEntry c t.colour) } := by
  unfold Terminal.char
  rw [if_neg hc.2.1, if_neg hc.2.2]

theorem puts_printable (t : Terminal) {text : List (BitVec 8)} (htext : ∀ c ∈ text, Printable c) :
    t.call (.puts text) =
      { t with roll := t.roll.typeAll vgaWidth vgaHeight t.blank (text.map fun c => vgaEntry c t.colour) } := by
  have hall : text.takeWhile (· ≠ 0) = text := by
    apply List.takeWhile_eq_self_iff.mpr
    intro c hc
    simpa using (htext c hc).1
  unfold Terminal.call
  dsimp only
  rw [hall]
  induction text generalizing t with
  | nil => rfl
  | cons c text ih =>
      obtain ⟨hc, hrest⟩ := List.forall_mem_cons.mp htext
      have hall' : text.takeWhile (· ≠ 0) = text := by
        apply List.takeWhile_eq_self_iff.mpr
        intro c hc
        simpa using (hrest c hc).1
      rw [List.foldl_cons, char_printable t hc, ih _ hrest hall']
      rfl

/-- A text of any length stands on the screen from the cursor on, row after row; if it goes on
below the last row, the screen has moved up by as many rows, and what was in front of the cursor
has moved with it. -/
theorem text_on_screen (memory : ℕ → Cell) (calls : List VgaCall) (text : List (BitVec 8))
    (htext : ∀ c ∈ text, Printable c) :
    let w := calls.foldl Writer.call (.start memory)
    let v := w.call (.puts text)
    let scrolled := w.row + (w.column + text.length) / vgaWidth - (vgaHeight - 1)
    (v.row + scrolled = w.row + (w.column + text.length) / vgaWidth ∧
        v.column = (w.column + text.length) % vgaWidth) ∧
      (∀ i c, text[i]? = some c → scrolled ≤ w.row + (w.column + i) / vgaWidth →
        v.buffer ((w.row + (w.column + i) / vgaWidth - scrolled) * vgaWidth + (w.column + i) % vgaWidth)
          = vgaEntry c w.colour) ∧
      ∀ y x, x < vgaWidth → scrolled ≤ y → y < w.row ∨ (y = w.row ∧ x < w.column) →
        v.buffer ((y - scrolled) * vgaWidth + x) = w.buffer (y * vgaWidth + x) := by
  have h := (start_shown memory).calls calls
  have hafter := h.call (.puts text)
  generalize calls.foldl Writer.call (.start memory) = w at *
  generalize calls.foldl Terminal.call (.start memory) = t at *
  rw [puts_printable t htext] at hafter
  have hrow := h.shows.row
  have hcolumn := h.shows.column
  have hpos : 0 < vgaWidth := by decide
  obtain ⟨hr, hc, hsight, htop, hcells, hbefore⟩ := t.roll.typeAll_spec vgaHeight t.blank
    (text.map fun c => vgaEntry c t.colour) (hcolumn.1 ▸ hcolumn.2)
    ⟨by omega, by omega⟩
  generalize t.roll.typeAll vgaWidth vgaHeight t.blank (text.map fun c => vgaEntry c t.colour) = roll at *
  rw [List.length_map, hcolumn.1] at hr hc
  have hrow' := hafter.shows.row
  have hcolumn' := hafter.shows.column
  have hcells' := hafter.shows.cells
  dsimp only at hrow' hcolumn' hcells' ⊢
  generalize w.call (.puts text) = v at *
  have hheight : vgaHeight = 25 := rfl
  -- The rows that the window has moved by.
  obtain ⟨scrolled, hscrolled⟩ : ∃ n, n = w.row + (w.column + text.length) / vgaWidth - (vgaHeight - 1) :=
    ⟨_, rfl⟩
  have hmoved : roll.top = t.roll.top + scrolled := by omega
  rw [← hscrolled]
  refine ⟨⟨by omega, hcolumn'.1.symm.trans hc⟩, ?_, ?_⟩
  · intro i c hi hvisible
    have hlength := (List.getElem?_eq_some_iff.mp hi).1
    have hcell := hcells i (vgaEntry c t.colour) (by rw [List.getElem?_map, hi]; rfl)
    have hle : (w.column + i) / vgaWidth ≤ (w.column + text.length) / vgaWidth :=
      Nat.div_le_div_right (by omega)
    rw [hcolumn.1] at hcell
    rw [hcells' _ (by omega) _ (Nat.mod_lt _ hpos), ← h.colour, ← hcell]
    congr 1
    omega
  · intro y x hx hvisible hfront
    have hold := hbefore (t.roll.top + y) x (by unfold Roll.Before; omega)
    rw [hcells' _ (by omega) _ hx, h.shows.cells y (by omega) x hx, ← hold]
    congr 1
    omega

theorem text_on_screen_hi :
    ((Writer.start fun _ => 0).call (.puts [104, 105])).buffer 1 = vgaEntry 105 (vgaEntryColour 15 0) := by
  have h := text_on_screen (fun _ => 0) [] [104, 105] (by
    unfold Printable newlineChar backspaceChar
    decide)
  exact h.2.1 1 105 rfl (by decide)

end Ferrite.Drivers
