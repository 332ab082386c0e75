import Mathlib.Algebra.Order.Group.Nat
import Mathlib.Data.List.Range
import Mathlib.Logic.Function.Basic
import Mathlib.Tactic.SplitIfs

/-!
# An ATA device

A device with the commands of 28-bit addresses, at the ports of its controller. A command moves
sectors word by word through the data port; a sector count of zero stands for 256. A sector is
stored when its last word arrives, and a device that cannot store it has an error from then on.
-/
namespace Ferrite.Drivers.Ata

/-- The answers to a read of the status: the device is busy, it gives the command up, it has no data
yet, or it is ready. -/
inductive Answer
  | busy
  | failed
  | waits
  | ready

/-- The answers in turn, and whether the sectors of a command can be stored. -/
structure Behaviour where
  answers : ℕ → Answer
  stores : ℕ → Bool

/-- A command with the first sector, the number of sectors and of the words moved so far, and the
words of the sector that is being written. -/
inductive Phase
  | idle
  | reading (lba sectors pos : ℕ)
  | writing (lba sectors pos : ℕ) (cache : ℕ → ℕ)

/-- `words` is the length of a sector. -/
structure Device where
  words : ℕ
  media : ℕ → ℕ → ℕ
  count : ℕ
  low : ℕ
  mid : ℕ
  high : ℕ
  device : ℕ
  phase : Phase
  error : Bool
  clock : ℕ
  commands : List ℕ

namespace Device
variable (d : Device) (b : Behaviour)

def setPhase (p : Phase) : Device := { d with phase := p }
def setClock (c : ℕ) : Device := { d with clock := c }
def storeSector (s : ℕ) (row : ℕ → ℕ) : Device := { d with media := Function.update d.media s row }
def fail : Device := { d with phase := .idle, error := true }

/-! ## Commands -/

def address : ℕ := d.low + 2 ^ 8 * d.mid + 2 ^ 16 * d.high + 2 ^ 24 * (d.device % 16)

def sectors : ℕ := if d.count = 0 then 256 else d.count

def command (value : ℕ) : Device :=
  let d := { d with commands := value :: d.commands, error := false }
  if value = 0x20 then d.setPhase (.reading d.address d.sectors 0)
  else if value = 0x30 then d.setPhase (.writing d.address d.sectors 0 fun _ => 0)
  else d.setPhase .idle

/-- A byte for a register. -/
def outb (offset value : ℕ) : Device :=
  match offset with
  | 2 => { d with count := value % 256 }
  | 3 => { d with low := value % 256 }
  | 4 => { d with mid := value % 256 }
  | 5 => { d with high := value % 256 }
  | 6 => { d with device := value % 256 }
  | 7 => d.command (value % 256)
  | _ => d

/-! ## Status and data -/

/-- There are words left to move. -/
def hasData : Bool :=
  match d.phase with
  | .idle => false
  | .reading _ n pos => pos < n * d.words
  | .writing _ n pos _ => pos < n * d.words

def tick : Device := d.setClock (d.clock + 1)

/-- The bits are `BSY`, `DRDY`, `DRQ` and `ERR`. -/
def status : ℕ × Device :=
  match b.answers d.clock with
  | .busy => (0x80, d.tick)
  | .failed => (0x01, d.tick.setPhase .idle)
  | .waits => (if d.error then 0x01 else 0x40, d.tick)
  | .ready => (if d.error then 0x01 else if d.hasData then 0x48 else 0x40, d.tick)

def inw : ℕ × Device :=
  match d.phase with
  | .reading lba n pos =>
      if pos < n * d.words then
        (d.media (lba + pos / d.words) (pos % d.words), d.setPhase (.reading lba n (pos + 1)))
      else (0xFFFF, d)
  | _ => (0xFFFF, d)

def outw (w : ℕ) : Device :=
  match d.phase with
  | .writing lba n pos cache =>
      if pos < n * d.words then
        let cache := Function.update cache (pos % d.words) w
        if (pos + 1) % d.words ≠ 0 then d.setPhase (.writing lba n (pos + 1) cache)
        else if b.stores (pos / d.words) then
          (d.storeSector (lba + pos / d.words) cache).setPhase (.writing lba n (pos + 1) cache)
        else d.fail
      else d
  | _ => d

variable {d b} {lba n pos w : ℕ} {cache : ℕ → ℕ}

/-! ## What a status tells -/

theorem hasData_idle (h : d.phase = .idle) : d.hasData = false := by
  unfold hasData
  rw [h]

theorem hasData_reading (h : d.phase = .reading lba n pos) : d.hasData = true ↔ pos < n * d.words := by
  unfold hasData
  rw [h]
  exact decide_eq_true_iff

theorem hasData_writing (h : d.phase = .writing lba n pos cache) : d.hasData = true ↔ pos < n * d.words := by
  unfold hasData
  rw [h]
  exact decide_eq_true_iff

/-- The status of a device that goes on, or of one that has given up. -/
theorem status_cases : (d.status b).2 = d.tick ∨
    ((d.status b).1 = 0x01 ∧ (d.status b).2 = d.tick.setPhase .idle) := by
  unfold status
  cases b.answers d.clock with
  | busy => exact .inl rfl
  | failed => exact .inr ⟨rfl, rfl⟩
  | waits => exact .inl rfl
  | ready => exact .inl rfl

theorem status_media : (d.status b).2.media = d.media := by
  rcases status_cases (d := d) (b := b) with h | ⟨-, h⟩
  · rw [h]
    rfl
  · rw [h]
    rfl

theorem status_busy (h : (d.status b).1 &&& 0x80 ≠ 0) : (d.status b).2 = d.tick := by
  rcases status_cases (d := d) (b := b) with heq | ⟨hone, -⟩
  · exact heq
  · rw [hone] at h
    exact absurd rfl h

/-- Neither busy nor an error. -/
theorem status_clear (h : (d.status b).1 &&& 0x80 = 0) (herror : (d.status b).1 &&& 0x01 = 0) :
    d.error = false ∧ (d.status b).2 = d.tick := by
  unfold status at h herror ⊢
  cases hanswer : b.answers d.clock with
  | busy => simp [hanswer] at h
  | failed => simp [hanswer] at herror
  | waits =>
      cases hd : d.error with
      | false => exact ⟨rfl, rfl⟩
      | true => simp [hanswer, hd] at herror
  | ready =>
      cases hd : d.error with
      | false => exact ⟨rfl, rfl⟩
      | true => simp [hanswer, hd] at herror

/-- A request for data. -/
theorem status_data (h : (d.status b).1 &&& 0x08 ≠ 0) :
    d.error = false ∧ d.hasData = true ∧ (d.status b).2 = d.tick := by
  unfold status at h ⊢
  cases hanswer : b.answers d.clock with
  | busy => simp [hanswer] at h
  | failed => simp [hanswer] at h
  | waits => cases hd : d.error <;> simp [hanswer, hd] at h
  | ready =>
      cases hd : d.error with
      | true => simp [hanswer, hd] at h
      | false =>
          cases hdata : d.hasData with
          | true => exact ⟨rfl, rfl, rfl⟩
          | false => simp [hanswer, hd, hdata] at h

theorem status_ready (hb : b.answers d.clock = .ready) (herror : d.error = false) (hdata : d.hasData = true) :
    d.status b = (0x48, d.tick) := by
  unfold status
  rw [hb, herror, hdata]
  rfl

theorem status_ready_idle (hb : b.answers d.clock = .ready) :
    (d.status b).1 &&& 0x80 = 0 ∧ (d.status b).2 = d.tick := by
  unfold status
  rw [hb]
  refine ⟨?_, rfl⟩
  dsimp only
  split_ifs
  · decide
  · decide
  · decide

theorem status_failed (hb : b.answers d.clock = .failed) : d.status b = (0x01, d.tick.setPhase .idle) := by
  unfold status
  rw [hb]

/-! ## Words -/

theorem inw_reading (h : d.phase = .reading lba n pos) (hpos : pos < n * d.words) :
    d.inw = (d.media (lba + pos / d.words) (pos % d.words), d.setPhase (.reading lba n (pos + 1))) := by
  unfold inw
  rw [h]
  exact if_pos hpos

/-- A word inside a sector, the last one of a sector that is stored, and of one that is not. -/
theorem outw_writing (h : d.phase = .writing lba n pos cache) (hpos : pos < n * d.words) :
    d.outw b w =
      if (pos + 1) % d.words ≠ 0 then
        d.setPhase (.writing lba n (pos + 1) (Function.update cache (pos % d.words) w))
      else if b.stores (pos / d.words) then
        (d.storeSector (lba + pos / d.words) (Function.update cache (pos % d.words) w)).setPhase
          (.writing lba n (pos + 1) (Function.update cache (pos % d.words) w))
      else d.fail := by
  unfold outw
  rw [h]
  exact if_pos hpos

end Device
end Ferrite.Drivers.Ata
