import Ferrite.Drivers.AtaDevice
import Ferrite.Library.Word
import Mathlib.Tactic.Ring

/-!
# Transfers of the IDE driver

`ide_read` and `ide_write` give a command for sectors and move the words. The number of sectors is
put into a register of eight bits and the address into 28, and every sector takes 256 words; the
length of the buffer is compared with the product in 32 bits. `delay` reads the alternate status,
which has no effect.
-/
namespace Ferrite.Drivers
open Ata Word

/-! ## `read_from_ata_data` -/

/-- The size of a sector in bytes, from the words with which a device identifies itself. -/
def readFromAtaData (ataData : ℕ → ℕ) : ℕ :=
  let w := ataData 106
  if w &&& 0xC000 ≠ 0x4000 then 512
  else if w &&& 1 <<< 12 = 0 then 512
  else
    let sectorSizeWords := ataData 117 ||| ataData 118 <<< 16
    if sectorSizeWords = 0 then 512 else sectorSizeWords * 2 % word

/-- What the words say by the standard: 256 words, unless a longer sector is reported. -/
def sectorWords (ataData : ℕ → ℕ) : ℕ :=
  if ataData 106 &&& 0xC000 = 0x4000 ∧ ataData 106 &&& 1 <<< 12 ≠ 0 then ataData 117 ||| ataData 118 <<< 16
  else 256

/-- A registered drive, whose `d_data` is not `NULL`: the device is as it says, with sectors of 256
words or more. -/
structure IdeDrive where
  ataData : ℕ → ℕ
  drive : ℕ
  device : Device
  identified : device.words = sectorWords ataData
  least : 256 ≤ device.words
  most : device.words < 2 ^ 31

/-- `d_sector_size` of `register_block_device`. -/
def IdeDrive.sectorSize (d : IdeDrive) : ℕ := readFromAtaData d.ataData

/-! ## Waiting -/

def isBusy (status : ℕ) : Bool := status &&& 0x80 ≠ 0
def noData (status : ℕ) : Bool := status &&& 0x08 = 0

/-- The status is read until the test fails; without bound in the source. -/
def spin (b : Behaviour) (test : ℕ → Bool) : ℕ → Device → Option (ℕ × Device)
  | 0, _ => none
  | fuel + 1, d =>
      let (status, d) := d.status b
      if test status then spin b test fuel d else some (status, d)

def timeout : ℕ := 1000000

/-- The status is read until the test fails, and the last of so many times gives up. -/
def timed (b : Behaviour) (test : ℕ → Bool) : ℕ → Device → Option ℕ × Device
  | 0, d => (none, d)
  | left + 1, d =>
      let (status, d) := d.status b
      if left = 0 then (none, d)
      else if test status then timed b test left d
      else (some status, d)

/-! ## Commands -/

/-- The registers that both functions fill, and the command. -/
def issue (drive lba count command : ℕ) (d : Device) : Device :=
  let d := d.outb 6 (0xE0 ||| drive <<< 4 ||| (lba >>> 24 &&& 0x0F))
  let d := d.outb 1 0x00
  let d := d.outb 2 count
  let d := d.outb 3 lba
  let d := d.outb 4 (lba >>> 8)
  let d := d.outb 5 (lba >>> 16)
  d.outb 7 command

/-! ## `ide_read` -/

/-- The wait of a round of `ide_read`: whether there is data, or an error. -/
def awaitRead (b : Behaviour) (fuel : ℕ) (d : Device) : Option (Bool × Device) :=
  (spin b isBusy fuel d).bind fun (status, d) =>
    if status &&& 0x01 ≠ 0 then some (false, d)
    else if noData status then (spin b noData fuel d).map fun r => (true, r.2)
    else some (true, d)

/-- The stores into the buffer, by their word. -/
def readWords (sector : ℕ) : ℕ → ℕ → Device → List (ℕ × ℕ) × Device
  | 0, _, d => ([], d)
  | n + 1, i, d =>
      let (w, d) := d.inw
      let (stores, d) := readWords sector n (i + 1) d
      (((sector * 256 + i) % word, w) :: stores, d)

def readSectors (b : Behaviour) (fuel : ℕ) : ℕ → ℕ → Device → Option (ℤ × List (ℕ × ℕ) × Device)
  | 0, _, d => some (0, [], d)
  | left + 1, sector, d =>
      match awaitRead b fuel d with
      | none => none
      | some (false, d) => some (-1, [], d)
      | some (true, d) =>
          let words := readWords sector 256 0 d
          (readSectors b fuel left (sector + 1) words.2).map fun r => (r.1, words.1 ++ r.2.1, r.2.2)

/-- The result, the stores and the device. -/
def ideRead (b : Behaviour) (fuel : ℕ) (d : IdeDrive) (lba count len : ℕ) :
    Option (ℤ × List (ℕ × ℕ) × Device) :=
  if len < count * d.sectorSize % word then some (-1, [], d.device)
  else readSectors b fuel count 0 (issue d.drive lba count 0x20 d.device)

/-! ## `ide_write` -/

/-- The wait of a round of `ide_write`: whether there is data, or an error or none in time. -/
def awaitWrite (b : Behaviour) (d : Device) : Bool × Device :=
  match timed b isBusy timeout d with
  | (none, d) => (false, d)
  | (some status, d) =>
      if status &&& 0x01 ≠ 0 then (false, d)
      else
        match timed b noData timeout d with
        | (none, d) => (false, d)
        | (some _, d) => (true, d)

/-- The words of the buffer that are loaded. -/
def writeWords (b : Behaviour) (buf : ℕ → ℕ) (sector : ℕ) : ℕ → ℕ → Device → List ℕ × Device
  | 0, _, d => ([], d)
  | n + 1, i, d =>
      let index := (sector * 256 + i) % word
      let (loads, d) := writeWords b buf sector n (i + 1) (d.outw b (buf index))
      (index :: loads, d)

def writeSectors (b : Behaviour) (buf : ℕ → ℕ) : ℕ → ℕ → Device → Bool × List ℕ × Device
  | 0, _, d => (true, [], d)
  | left + 1, sector, d =>
      match awaitWrite b d with
      | (false, d) => (false, [], d)
      | (true, d) =>
          let words := writeWords b buf sector 256 0 d
          let rest := writeSectors b buf left (sector + 1) words.2
          (rest.1, words.1 ++ rest.2.1, rest.2.2)

/-- The last waits: for the sectors and for the flush. -/
def finish (b : Behaviour) (d : Device) : ℤ × Device :=
  match timed b isBusy timeout d with
  | (none, d) => (-1, d)
  | (some _, d) =>
      match timed b isBusy timeout (d.outb 7 0xE7) with
      | (none, d) => (-1, d)
      | (some _, d) => (0, d)

/-- The result, the loads and the device. -/
def ideWrite (b : Behaviour) (buf : ℕ → ℕ) (d : IdeDrive) (lba count len : ℕ) : ℤ × List ℕ × Device :=
  if len < count * d.sectorSize % word then (-1, [], d.device)
  else
    match writeSectors b buf count 0 (issue d.drive lba count 0x30 d.device) with
    | (false, loads, d) => (-1, loads, d)
    | (true, loads, d) =>
        let (result, d) := finish b d
        (result, loads, d)

/-! ## Exact transfers -/

/-- What one command can say. -/
def Expressible (lba count : ℕ) : Prop := count ≤ 256 ∧ lba + count ≤ 2 ^ 28

/-- A result of zero means that the words of the sectors are at the start of the buffer. No store is
beyond its length, and what cannot be said is refused. -/
structure ReadsExactly (d : IdeDrive) (lba count len : ℕ) : Prop where
  exact : ∀ b fuel stores t, ideRead b fuel d lba count len = some (0, stores, t) →
    stores = (List.range (count * d.device.words)).map fun j =>
      (j, d.device.media (lba + j / d.device.words) (j % d.device.words))
  inside : ∀ b fuel result stores t, ideRead b fuel d lba count len = some (result, stores, t) →
    ∀ x ∈ stores, 2 * x.1 + 2 ≤ len
  refused : ¬Expressible lba count → ∀ b fuel, ∃ result stores t,
    ideRead b fuel d lba count len = some (result, stores, t) ∧ result < 0 ∧ t.commands = d.device.commands

/-- The same for the words from the start of the buffer, for the behaviours of a device in question. -/
structure WritesExactly (d : IdeDrive) (lba count len : ℕ) (B : Behaviour → Prop) : Prop where
  exact : ∀ b buf loads t, B b → ideWrite b buf d lba count len = (0, loads, t) →
    ∀ s j, j < d.device.words → t.media s j =
      if lba ≤ s ∧ s < lba + count then buf ((s - lba) * d.device.words + j) else d.device.media s j
  inside : ∀ b buf, B b → ∀ i ∈ (ideWrite b buf d lba count len).2.1, 2 * i + 2 ≤ len
  refused : ¬Expressible lba count → ∀ b buf, B b →
    (ideWrite b buf d lba count len).1 < 0 ∧ (ideWrite b buf d lba count len).2.2.commands = d.device.commands

variable {b : Behaviour} {d t : Device} {test : ℕ → Bool} {fuel status drive lba count len : ℕ}
variable {L n k left sector i m p pos : ℕ} {buf cache : ℕ → ℕ}

/-! ## The size of a sector -/

theorem IdeDrive.sectorSize_eq (d : IdeDrive) : d.sectorSize = 2 * d.device.words := by
  have hleast := d.least
  have hmost := d.most
  have hwords := d.identified
  unfold sectorWords at hwords
  unfold sectorSize readFromAtaData
  dsimp only
  by_cases hvalid : d.ataData 106 &&& 0xC000 = 0x4000
  · rw [if_neg (not_not.mpr hvalid)]
    by_cases hlong : d.ataData 106 &&& 1 <<< 12 = 0
    · rw [if_pos hlong, hwords, if_neg (fun h => h.2 hlong)]
    · rw [if_pos ⟨hvalid, hlong⟩] at hwords
      rw [if_neg hlong, ← hwords, if_neg (by omega), Nat.mod_eq_of_lt (by unfold word; omega), Nat.mul_comm]
  · rw [if_pos hvalid, hwords, if_neg (fun h => hvalid h.1)]

/-! ## The registers -/

theorem select_nibble (drive lba : ℕ) : (0xE0 ||| drive <<< 4 ||| (lba >>> 24 &&& 0x0F)) % 256 % 16
    = lba / 2 ^ 24 % 16 := by
  have hnibble : lba >>> 24 &&& 0x0F = lba / 2 ^ 24 % 16 := by
    rw [Nat.shiftRight_eq_div_pow]
    exact Nat.and_two_pow_sub_one_eq_mod _ 4
  have hdrive : drive <<< 4 % 2 ^ 4 = 0 := by
    rw [Nat.shiftLeft_eq]
    exact Nat.mul_mod_left ..
  have hlow : (0xE0 ||| drive <<< 4 ||| lba / 2 ^ 24 % 16) % 2 ^ 4 = lba / 2 ^ 24 % 16 := by
    rw [Nat.or_mod_two_pow, Nat.or_mod_two_pow, hdrive]
    simp
  rw [hnibble, Nat.mod_mod_of_dvd _ (by decide)]
  exact hlow

/-- The device sees 28 bits of the address. -/
theorem address_eq (drive lba : ℕ) : lba % 256 + 2 ^ 8 * ((lba >>> 8) % 256) + 2 ^ 16 * ((lba >>> 16) % 256)
    + 2 ^ 24 * ((0xE0 ||| drive <<< 4 ||| (lba >>> 24 &&& 0x0F)) % 256 % 16) = lba % 2 ^ 28 := by
  rw [select_nibble, Nat.shiftRight_eq_div_pow, Nat.shiftRight_eq_div_pow]
  omega

/-- And eight bits of the number. -/
def commandSectors (count : ℕ) : ℕ := if count % 256 = 0 then 256 else count % 256

theorem commandSectors_eq (h : count ≠ 0) (hle : count ≤ 256) : commandSectors count = count := by
  unfold commandSectors
  split_ifs
  · omega
  · omega

/-- The device after a command. -/
structure Issued (d t : Device) (command : ℕ) : Prop where
  words : t.words = d.words
  media : t.media = d.media
  error : t.error = false
  commands : t.commands = command :: d.commands

theorem issue_read (drive lba count : ℕ) (d : Device) : Issued d (issue drive lba count 0x20 d) 0x20 ∧
    (issue drive lba count 0x20 d).phase = .reading (lba % 2 ^ 28) (commandSectors count) 0 := by
  refine ⟨⟨rfl, rfl, rfl, rfl⟩, ?_⟩
  rw [← address_eq drive lba]
  rfl

theorem issue_write (drive lba count : ℕ) (d : Device) : Issued d (issue drive lba count 0x30 d) 0x30 ∧
    (issue drive lba count 0x30 d).phase = .writing (lba % 2 ^ 28) (commandSectors count) 0 fun _ => 0 := by
  refine ⟨⟨rfl, rfl, rfl, rfl⟩, ?_⟩
  rw [← address_eq drive lba]
  rfl

/-! ## Waiting -/

theorem spin_data (h : spin b noData fuel d = some (status, t)) :
    d.error = false ∧ d.hasData = true ∧ ∃ c, t = d.setClock c := by
  induction fuel generalizing d with
  | zero => cases h
  | succ fuel ih =>
      rw [spin] at h
      dsimp only at h
      by_cases htest : noData (d.status b).1 = true
      · rw [if_pos htest] at h
        rcases Device.status_cases (d := d) (b := b) with htick | ⟨-, hidle⟩
        · rw [htick] at h
          have hrest := ih h
          exact hrest
        · -- a command that was given up has no data
          rw [hidle] at h
          have hdata := (ih h).2.1
          rw [Device.hasData_idle rfl] at hdata
          cases hdata
      · rw [if_neg htest] at h
        have hbit : (d.status b).1 &&& 0x08 ≠ 0 := fun hzero => htest (decide_eq_true hzero)
        obtain ⟨herror, hdata, htick⟩ := Device.status_data hbit
        cases h
        exact ⟨herror, hdata, _, htick⟩

theorem spin_clear (h : spin b isBusy fuel d = some (status, t)) (hstatus : status &&& 0x01 = 0) :
    d.error = false ∧ (∃ c, t = d.setClock c) ∧ (noData status = false → d.hasData = true) := by
  induction fuel generalizing d with
  | zero => cases h
  | succ fuel ih =>
      rw [spin] at h
      dsimp only at h
      by_cases htest : isBusy (d.status b).1 = true
      · rw [if_pos htest, Device.status_busy (of_decide_eq_true htest)] at h
        have hrest := ih h
        exact hrest
      · rw [if_neg htest] at h
        cases h
        have hclear : (d.status b).1 &&& 0x80 = 0 := not_not.mp fun hbusy => htest (decide_eq_true hbusy)
        obtain ⟨herror, htick⟩ := Device.status_clear hclear hstatus
        exact ⟨herror, ⟨_, htick⟩, fun hdata => (Device.status_data (of_decide_eq_false hdata)).2.1⟩

/-- What is found in time is found. -/
theorem timed_spin (h : timed b test n d = (some status, t)) : spin b test n d = some (status, t) := by
  induction n generalizing d with
  | zero => cases h
  | succ n ih =>
      rw [timed] at h
      rw [spin]
      dsimp only at h ⊢
      by_cases hlast : n = 0
      · rw [if_pos hlast] at h
        cases h
      rw [if_neg hlast] at h
      by_cases htest : test (d.status b).1 = true
      · rw [if_pos htest] at h ⊢
        exact ih h
      · rw [if_neg htest] at h ⊢
        cases h
        rfl

theorem timed_media : (timed b test n d).2.media = d.media := by
  induction n generalizing d with
  | zero => rfl
  | succ n ih =>
      rw [timed]
      dsimp only
      split_ifs
      · exact Device.status_media
      · exact ih.trans Device.status_media
      · exact Device.status_media

theorem awaitRead_data (h : awaitRead b fuel d = some (true, t)) :
    d.error = false ∧ d.hasData = true ∧ ∃ c, t = d.setClock c := by
  obtain ⟨⟨status, u⟩, hspin, h⟩ := Option.bind_eq_some_iff.mp h
  dsimp only at h
  by_cases herr : status &&& 0x01 ≠ 0
  · rw [if_pos herr] at h
    cases h
  rw [if_neg herr] at h
  obtain ⟨herror, ⟨c, rfl⟩, hdata⟩ := spin_clear hspin (not_not.mp herr)
  by_cases hwait : noData status = true
  · rw [if_pos hwait] at h
    obtain ⟨⟨s, v⟩, hagain, heq⟩ := Option.map_eq_some_iff.mp h
    cases heq
    obtain ⟨-, hdata, c', rfl⟩ := spin_data hagain
    exact ⟨herror, hdata, c', rfl⟩
  · rw [if_neg hwait] at h
    cases h
    exact ⟨herror, hdata (Bool.eq_false_iff.mpr hwait), c, rfl⟩

theorem awaitWrite_data (h : awaitWrite b d = (true, t)) :
    d.error = false ∧ d.hasData = true ∧ ∃ c, t = d.setClock c := by
  unfold awaitWrite at h
  cases hfirst : timed b isBusy timeout d with
  | mk found u =>
      rw [hfirst] at h
      cases found with
      | none => cases h
      | some status =>
          dsimp only at h
          by_cases herr : status &&& 0x01 ≠ 0
          · rw [if_pos herr] at h
            cases h
          rw [if_neg herr] at h
          obtain ⟨herror, ⟨c, rfl⟩, -⟩ := spin_clear (timed_spin hfirst) (not_not.mp herr)
          cases hsecond : timed b noData timeout (d.setClock c) with
          | mk found v =>
              rw [hsecond] at h
              cases found with
              | none => cases h
              | some s =>
                  cases h
                  obtain ⟨-, hdata, c', rfl⟩ := spin_data (timed_spin hsecond)
                  exact ⟨herror, hdata, c', rfl⟩

/-! ## The words of a read -/

theorem readWords_eq (hphase : d.phase = .reading L n pos) (hpos : pos + m ≤ n * d.words) :
    (readWords sector m i d).1 = ((List.range m).map fun j =>
        ((sector * 256 + (i + j)) % word, d.media (L + (pos + j) / d.words) ((pos + j) % d.words))) ∧
      (readWords sector m i d).2 = d.setPhase (.reading L n (pos + m)) := by
  induction m generalizing i pos d with
  | zero =>
      rw [Nat.add_zero, ← hphase]
      exact ⟨rfl, rfl⟩
  | succ m ih =>
      obtain ⟨hstores, hdevice⟩ := @ih (d.setPhase (.reading L n (pos + 1))) (i + 1) (pos + 1) rfl
        (show pos + 1 + m ≤ n * d.words by omega)
      rw [readWords, Device.inw_reading hphase (by omega)]
      dsimp only
      rw [hstores, hdevice, List.range_succ_eq_map, List.map_cons, List.map_map, Nat.add_assoc pos 1 m,
        Nat.add_comm 1 m]
      refine ⟨?_, rfl⟩
      congr 2
      funext j
      dsimp only [Function.comp_apply, Device.setPhase]
      rw [Nat.add_assoc i 1 j, Nat.add_assoc pos 1 j, Nat.add_comm 1 j]

theorem readWords_length : (readWords sector m i d).1.length = m := by
  induction m generalizing i d with
  | zero => rfl
  | succ m ih =>
      rw [readWords]
      dsimp only
      rw [List.length_cons, ih]

theorem readWords_index {x : ℕ × ℕ} (h : x ∈ (readWords sector m i d).1) : x.1 < sector * 256 + i + m := by
  induction m generalizing i d with
  | zero => cases h
  | succ m ih =>
      rw [readWords] at h
      dsimp only at h
      rcases List.mem_cons.mp h with rfl | hrest
      · have hle := Nat.mod_le (sector * 256 + i) word
        dsimp only
        omega
      · have hlt := ih hrest
        omega

/-- A round of a read ends it, or moves the words of a sector before the rest of the read. -/
theorem readSectors_succ {result : ℤ} {stores : List (ℕ × ℕ)}
    (h : readSectors b fuel (left + 1) sector d = some (result, stores, t)) :
    (result = -1 ∧ stores = []) ∨ ∃ u rest, awaitRead b fuel d = some (true, u) ∧
      readSectors b fuel left (sector + 1) (readWords sector 256 0 u).2 = some (result, rest, t) ∧
      stores = (readWords sector 256 0 u).1 ++ rest := by
  unfold readSectors at h
  cases hwait : awaitRead b fuel d with
  | none =>
      rw [hwait] at h
      cases h
  | some r =>
      obtain ⟨found, u⟩ := r
      rw [hwait] at h
      cases found with
      | false =>
          cases h
          exact .inl ⟨rfl, rfl⟩
      | true =>
          refine .inr ⟨u, ?_⟩
          dsimp only at h
          generalize readWords sector 256 0 u = words at h ⊢
          obtain ⟨⟨r, rest, v⟩, hrest, heq⟩ := Option.map_eq_some_iff.mp h
          cases heq
          exact ⟨rest, rfl, hrest, rfl⟩

/-- Whatever comes of a read, its stores are in the sectors it was to read. -/
theorem readSectors_inside {result : ℤ} {stores : List (ℕ × ℕ)}
    (h : readSectors b fuel left sector d = some (result, stores, t)) {x : ℕ × ℕ} (hx : x ∈ stores) :
    x.1 < 256 * (sector + left) := by
  induction left generalizing sector d stores t with
  | zero =>
      cases h
      cases hx
  | succ left ih =>
      rcases readSectors_succ h with ⟨-, hnone⟩ | ⟨u, rest, -, hrest, hstores⟩
      · rw [hnone] at hx
        cases hx
      · rw [hstores] at hx
        rcases List.mem_append.mp hx with hfirst | hlater
        · have hlt := readWords_index hfirst
          omega
        · have hlt := ih hrest hlater
          omega

theorem readSectors_length {stores : List (ℕ × ℕ)}
    (h : readSectors b fuel left sector d = some (0, stores, t)) :
    stores.length = 256 * left := by
  induction left generalizing sector d stores t with
  | zero =>
      cases h
      rfl
  | succ left ih =>
      rcases readSectors_succ h with ⟨hfailed, -⟩ | ⟨u, rest, -, hrest, hstores⟩
      · cases hfailed
      · rw [hstores, List.length_append, readWords_length, ih hrest]
        omega

/-- With sectors of 256 words, a read that ends well has stored the words in order. -/
theorem readSectors_exact {stores : List (ℕ × ℕ)} (hwords : d.words = 256)
    (hphase : d.phase = .reading L n (256 * sector)) (hn : sector + left ≤ n) (hsmall : sector + left ≤ 256)
    (h : readSectors b fuel left sector d = some (0, stores, t)) :
    stores = (List.range (256 * left)).map fun j =>
      (256 * sector + j, d.media (L + (256 * sector + j) / 256) ((256 * sector + j) % 256)) := by
  induction left generalizing sector d stores t with
  | zero =>
      cases h
      rfl
  | succ left ih =>
      rcases readSectors_succ h with ⟨hfailed, -⟩ | ⟨u, rest, hwait, hrest, hall⟩
      · cases hfailed
      obtain ⟨-, -, c, rfl⟩ := awaitRead_data hwait
      have hpos : 256 * sector + 256 ≤ n * (d.setClock c).words := by
        rw [show (d.setClock c).words = 256 from hwords]
        omega
      obtain ⟨hstores, hdevice⟩ := @readWords_eq (d.setClock c) L n sector 0 256 (256 * sector) hphase hpos
      rw [hdevice] at hrest
      have hlater := ih (show (d.setClock c |>.setPhase (.reading L n (256 * sector + 256))).words
          = 256 from hwords)
        rfl (by omega) (by omega) hrest
      rw [hall, hstores, hlater, show 256 * (left + 1) = 256 + 256 * left by omega, List.range_add,
        List.map_append, List.map_map]
      refine congrArg₂ (· ++ ·) ?_ ?_
      · apply List.map_congr_left
        intro j hj
        have hlt := List.mem_range.mp hj
        have hindex : (sector * 256 + (0 + j)) % word = 256 * sector + j := by
          rw [Nat.mod_eq_of_lt (by unfold word; omega)]
          omega
        rw [hindex, show (d.setClock c).words = 256 from hwords]
        rfl
      · apply List.map_congr_left
        intro j _
        rw [Function.comp_apply, show 256 * (sector + 1) + j = 256 * sector + (256 + j) by omega]
        rfl

/-- A device that is always ready lets a read end well while it has words. -/
theorem awaitRead_ready (hb : ∀ c, b.answers c = .ready) (herror : d.error = false) (hdata : d.hasData = true) :
    awaitRead b (fuel + 1) d = some (true, d.tick) := by
  unfold awaitRead
  rw [spin, Device.status_ready (hb _) herror hdata]
  rfl

theorem readSectors_ready (hb : ∀ c, b.answers c = .ready) (herror : d.error = false)
    (hphase : d.phase = .reading L n pos) (hpos : pos + 256 * left ≤ n * d.words) :
    ∃ stores t, readSectors b (fuel + 1) left sector d = some (0, stores, t) := by
  induction left generalizing sector d pos with
  | zero => exact ⟨_, _, rfl⟩
  | succ left ih =>
      have hdata : d.hasData = true := (Device.hasData_reading hphase).mpr (by omega)
      have hround : pos + 256 + 256 * left = pos + 256 * (left + 1) := by ring
      have hfits : pos + 256 ≤ n * d.tick.words := (Nat.le_add_right _ _).trans (hround.le.trans hpos)
      obtain ⟨-, hdevice⟩ := @readWords_eq d.tick L n sector 0 256 pos hphase hfits
      obtain ⟨stores, t, hrest⟩ := @ih (d.tick.setPhase (.reading L n (pos + 256))) (sector + 1) (pos + 256)
        herror rfl (hround.le.trans hpos)
      unfold readSectors
      rw [awaitRead_ready hb herror hdata]
      dsimp only
      rw [hdevice, hrest]
      exact ⟨_, _, rfl⟩

/-! ## Reads -/

theorem ideRead_of_lt {d : IdeDrive} (h : len < count * d.sectorSize % word) :
    ideRead b fuel d lba count len = some (-1, [], d.device) :=
  if_pos h

theorem ideRead_of_le {d : IdeDrive} (h : ¬len < count * d.sectorSize % word) :
    ideRead b fuel d lba count len = readSectors b fuel count 0 (issue d.drive lba count 0x20 d.device) :=
  if_neg h

/-- A request of sectors of 256 words that one command can say has room in the buffer. -/
theorem room_of_le {d : IdeDrive} (h : ¬len < count * d.sectorSize % word) (hwords : d.device.words = 256)
    (hc : count ≤ 256) :
    512 * count ≤ len := by
  rw [d.sectorSize_eq, hwords, Nat.mod_eq_of_lt (by unfold word; omega)] at h
  omega

theorem readsExactly_of_says {d : IdeDrive} (hlen : ¬len < count * d.sectorSize % word)
    (hsay : Expressible lba count)
    (hwords : count = 0 ∨ d.device.words = 256) : ReadsExactly d lba count len := by
  obtain ⟨hcount, hlba⟩ := hsay
  obtain ⟨hissue, hphase⟩ := issue_read d.drive lba count d.device
  refine ⟨fun b fuel stores t h => ?_, fun b fuel result stores t h x hx => ?_,
    fun hno => absurd ⟨hcount, hlba⟩ hno⟩
  · rw [ideRead_of_le hlen] at h
    rcases Nat.eq_zero_or_pos count with rfl | hpos
    · cases h
      rw [Nat.zero_mul]
      rfl
    · have hwords := hwords.resolve_left hpos.ne'
      rw [commandSectors_eq hpos.ne' hcount, Nat.mod_eq_of_lt (by omega)] at hphase
      have hexact := readSectors_exact (hissue.words.trans hwords) hphase (by omega) (by omega) h
      rw [hexact, hissue.media, hwords, Nat.mul_comm count]
      apply List.map_congr_left
      intro j _
      rw [Nat.mul_zero, Nat.zero_add]
  · rw [ideRead_of_le hlen] at h
    have hindex := readSectors_inside h hx
    have hroom := room_of_le hlen (hwords.resolve_left (by omega)) hcount
    omega

theorem readsExactly_iff (d : IdeDrive) (lba count len : ℕ) : ReadsExactly d lba count len ↔
    len < count * d.sectorSize % word ∨ (Expressible lba count ∧ (count = 0 ∨ d.device.words = 256)) := by
  by_cases hlen : len < count * d.sectorSize % word
  · refine iff_of_true ⟨fun b fuel stores t h => ?_, fun b fuel result stores t h x hx => ?_,
      fun _ b fuel => ?_⟩ (.inl hlen)
    · rw [ideRead_of_lt hlen] at h
      cases h
    · rw [ideRead_of_lt hlen] at h
      cases h
      cases hx
    · exact ⟨_, _, _, ideRead_of_lt hlen, by decide, rfl⟩
  rw [or_iff_right hlen]
  refine ⟨fun h => ?_, fun ⟨hsay, hwords⟩ => readsExactly_of_says hlen hsay hwords⟩
  have hready : Behaviour := ⟨fun _ => .ready, fun _ => true⟩
  have hsay : Expressible lba count := by
    by_contra hno
    -- the command is given; with no time to wait nothing comes of it, and no sectors end well
    obtain ⟨result, stores, t, hread, hneg, -⟩ := h.refused hno hready 0
    rw [ideRead_of_le hlen] at hread
    cases count with
    | zero =>
        cases hread
        exact absurd hneg (by decide)
    | succ count => cases hread
  refine ⟨hsay, ?_⟩
  by_cases hzero : count = 0
  · exact .inl hzero
  obtain ⟨hissue, hphase⟩ := issue_read d.drive lba count d.device
  rw [commandSectors_eq hzero hsay.1] at hphase
  have hpos : 0 + 256 * count ≤ count * (issue d.drive lba count 0x20 d.device).words := by
    rw [hissue.words, Nat.zero_add, Nat.mul_comm]
    exact Nat.mul_le_mul_left _ d.least
  obtain ⟨stores, t, hread⟩ :=
      @readSectors_ready ⟨fun _ => .ready, fun _ => true⟩ _ 0 _ _ count 0 0 (fun _ => rfl)
    hissue.error hphase hpos
  have hlength := readSectors_length hread
  rw [← ideRead_of_le hlen] at hread
  rw [h.exact _ _ _ _ hread, List.length_map, List.length_range, Nat.mul_comm] at hlength
  exact .inr (Nat.eq_of_mul_eq_mul_right (Nat.pos_of_ne_zero hzero) hlength)

/-! ## The words of a write -/

/-- The device when the first words of a buffer have arrived: the sectors that are complete are
stored, and the words of the next one are kept. -/
structure Sent (buf : ℕ → ℕ) (L n : ℕ) (media : ℕ → ℕ → ℕ) (p : ℕ) (d : Device) : Prop where
  words : d.words = 256
  error : d.error = false
  phase : ∃ cache, d.phase = .writing L n p cache ∧ ∀ j < p % 256, cache j = buf (256 * (p / 256) + j)
  media : ∀ s j, j < 256 → d.media s j =
    if L ≤ s ∧ s < L + p / 256 then buf ((s - L) * 256 + j) else media s j

variable {media : ℕ → ℕ → ℕ}

theorem Sent.setClock {c : ℕ} (h : Sent buf L n media p d) : Sent buf L n media p (d.setClock c) :=
  ⟨h.words, h.error, h.phase, h.media⟩

/-- A word arrives, or with it a sector that cannot be stored. -/
theorem Sent.outw (h : Sent buf L n media p d) (hp : p < n * 256) :
    Sent buf L n media (p + 1) (d.outw b (buf p)) ∨
      ((p + 1) % 256 = 0 ∧ b.stores (p / 256) = false ∧ (d.outw b (buf p)).error = true) := by
  obtain ⟨cache, hphase, hcache⟩ := h.phase
  rw [Device.outw_writing hphase (by rw [h.words]; exact hp), h.words]
  have hlast : 256 * (p / 256) + p % 256 = p := Nat.div_add_mod p 256
  have hkept : ∀ j ≤ p % 256, Function.update cache (p % 256) (buf p) j = buf (256 * (p / 256) + j) := by
    intro j hj
    by_cases heq : j = p % 256
    · rw [heq, Function.update_self, hlast]
    · rw [Function.update_of_ne heq]
      exact hcache j (by omega)
  split_ifs with hend hstore
  · have hdiv : (p + 1) / 256 = p / 256 := by omega
    refine .inl ⟨h.words, h.error, ⟨_, rfl, fun j hj => ?_⟩, fun s j hj => ?_⟩
    · rw [hdiv]
      exact hkept j (by omega)
    · rw [hdiv]
      exact h.media s j hj
  · have hdiv : (p + 1) / 256 = p / 256 + 1 := by omega
    refine .inl ⟨h.words, h.error, ⟨_, rfl, fun j hj => by omega⟩, fun s j hj => ?_⟩
    change Function.update d.media (L + p / 256) (Function.update cache (p % 256) (buf p)) s j = _
    rw [hdiv]
    by_cases hs : s = L + p / 256
    · rw [hs, Function.update_self, hkept j (by omega), if_pos (by omega),
        Nat.add_sub_cancel_left, Nat.mul_comm]
    · rw [Function.update_of_ne hs, h.media s j hj]
      exact if_congr (by omega) rfl rfl
  · exact .inr ⟨not_not.mp hend, Bool.eq_false_iff.mpr hstore, rfl⟩

theorem writeWords_sent (hm : i + m = 256) (hn : sector + 1 ≤ n) (hsmall : sector + 1 ≤ 256)
    (h : Sent buf L n media (256 * sector + i) d) :
    Sent buf L n media (256 * (sector + 1)) (writeWords b buf sector m i d).2 ∨
      (b.stores sector = false ∧ (writeWords b buf sector m i d).2.error = true) := by
  induction m generalizing i d with
  | zero =>
      obtain rfl : i = 256 := by omega
      exact .inl h
  | succ m ih =>
      have hindex : (sector * 256 + i) % word = 256 * sector + i := by
        rw [Nat.mod_eq_of_lt (by unfold word; omega)]
        omega
      rw [writeWords]
      dsimp only
      rw [hindex]
      rcases h.outw (b := b) (by omega) with hsent | ⟨hend, hstore, herror⟩
      · exact ih (by omega) hsent
      · -- the word that fails is the last one of its sector
        obtain rfl : m = 0 := by omega
        rw [show (256 * sector + i) / 256 = sector by omega] at hstore
        exact .inr ⟨hstore, herror⟩

theorem writeWords_index (h : p ∈ (writeWords b buf sector m i d).1) : p < sector * 256 + i + m := by
  induction m generalizing i d with
  | zero => cases h
  | succ m ih =>
      rw [writeWords] at h
      dsimp only at h
      rcases List.mem_cons.mp h with rfl | hrest
      · have hle := Nat.mod_le (sector * 256 + i) word
        omega
      · have hlt := ih hrest
        omega

/-- A round of a write ends it, or moves the words of a sector before the rest of the write. -/
theorem writeSectors_succ {done : Bool} {loads : List ℕ}
    (h : writeSectors b buf (left + 1) sector d = (done, loads, t)) :
    (done = false ∧ loads = []) ∨ ∃ u rest, awaitWrite b d = (true, u) ∧
      writeSectors b buf left (sector + 1) (writeWords b buf sector 256 0 u).2 = (done, rest, t) ∧
      loads = (writeWords b buf sector 256 0 u).1 ++ rest := by
  unfold writeSectors at h
  cases hwait : awaitWrite b d with
  | mk found u =>
      rw [hwait] at h
      cases found with
      | false =>
          cases h
          exact .inl ⟨rfl, rfl⟩
      | true =>
          refine .inr ⟨u, ?_⟩
          dsimp only at h
          generalize writeWords b buf sector 256 0 u = words at h ⊢
          cases h
          exact ⟨_, rfl, rfl, rfl⟩

theorem writeSectors_inside {done : Bool} {loads : List ℕ}
    (h : writeSectors b buf left sector d = (done, loads, t))
    (hp : p ∈ loads) : p < 256 * (sector + left) := by
  induction left generalizing sector d loads t with
  | zero =>
      cases h
      cases hp
  | succ left ih =>
      rcases writeSectors_succ h with ⟨-, hnone⟩ | ⟨u, rest, -, hrest, hloads⟩
      · rw [hnone] at hp
        cases hp
      · rw [hloads] at hp
        rcases List.mem_append.mp hp with hfirst | hlater
        · have hlt := writeWords_index hfirst
          omega
        · have hlt := ih hrest hlater
          omega

/-- With sectors of 256 words, a write that ends well has stored them all but perhaps the last. -/
theorem writeSectors_sent {loads : List ℕ} (hn : sector + left ≤ n) (hsmall : sector + left ≤ 256)
    (hsent : Sent buf L n media (256 * sector) d) (h : writeSectors b buf left sector d = (true, loads, t)) :
    Sent buf L n media (256 * (sector + left)) t ∨ (0 < left ∧ b.stores (sector + left - 1) = false) := by
  induction left generalizing sector d loads t with
  | zero =>
      cases h
      exact .inl hsent
  | succ left ih =>
      rcases writeSectors_succ h with ⟨hfailed, -⟩ | ⟨u, rest, hwait, hrest, -⟩
      · cases hfailed
      obtain ⟨-, -, c, rfl⟩ := awaitWrite_data hwait
      have hstart : Sent buf L n media (256 * sector + 0) (d.setClock c) := hsent.setClock
      rcases writeWords_sent (b := b) (m := 256) (by decide) (by omega)
        (by omega) hstart with hnext | ⟨hstore, herror⟩
      · rcases ih (by omega) (by omega) hnext hrest with hall | ⟨hpos, hlast⟩
        · rw [show sector + (left + 1) = sector + 1 + left by omega]
          exact .inl hall
        · rw [show sector + (left + 1) - 1 = sector + 1 + left - 1 by omega]
          exact .inr ⟨by omega, hlast⟩
      · cases left with
        | zero => exact .inr ⟨by decide, hstore⟩
        | succ left =>
            -- the next wait would have seen the error
            rcases writeSectors_succ hrest with ⟨hfailed, -⟩ | ⟨v, rest', hagain, -, -⟩
            · cases hfailed
            · rw [(awaitWrite_data hagain).1] at herror
              cases herror

/-! ## A device that is always ready or never -/

theorem timed_ready (hb : ∀ c, b.answers c = .ready) (herror : d.error = false) (hdata : d.hasData = true)
    (htest : test 0x48 = false) : timed b test (n + 2) d = (some 0x48, d.tick) := by
  rw [timed, Device.status_ready (hb _) herror hdata]
  dsimp only
  rw [if_neg (Nat.succ_ne_zero n), if_neg (Bool.eq_false_iff.mp htest)]

theorem awaitWrite_ready (hb : ∀ c, b.answers c = .ready) (herror : d.error = false)
    (hdata : d.hasData = true) :
    awaitWrite b d = (true, d.tick.tick) := by
  have hfirst : timed b isBusy timeout d = (some 0x48, d.tick) := timed_ready (n := 999998) hb herror hdata rfl
  have hsecond : timed b noData timeout d.tick = (some 0x48, d.tick.tick) :=
      timed_ready (n := 999998) hb herror hdata rfl
  unfold awaitWrite
  rw [hfirst]
  dsimp only
  rw [hsecond]
  rfl

theorem finish_ready (hb : ∀ c, b.answers c = .ready) : (finish b d).1 = 0 := by
  have hnow : ∀ d u, timed b isBusy timeout d ≠ (none, u) := by
    intro d u h
    rw [show timeout = 999999 + 1 from rfl, timed] at h
    have hclear := (Device.status_ready_idle (b := b) (hb d.clock)).1
    have hbusy : isBusy (d.status b).1 = false := decide_eq_false (not_not.mpr hclear)
    dsimp only at h
    rw [if_neg (by decide), hbusy] at h
    cases h
  unfold finish
  cases hfirst : timed b isBusy timeout d with
  | mk found u =>
      cases found with
      | none => exact absurd hfirst (hnow d u)
      | some s =>
          dsimp only
          cases hsecond : timed b isBusy timeout (u.outb 7 0xE7) with
          | mk found v =>
              cases found with
              | none => exact absurd hsecond (hnow _ v)
              | some s => rfl

theorem finish_media : (finish b d).2.media = d.media := by
  have hfirst : (timed b isBusy timeout d).2.media = d.media := timed_media
  unfold finish
  generalize timed b isBusy timeout d = r at hfirst ⊢
  obtain ⟨found, u⟩ := r
  cases found with
  | none => exact hfirst
  | some s =>
      have hsecond : (timed b isBusy timeout (u.outb 7 0xE7)).2.media = u.media := timed_media
      dsimp only
      generalize timed b isBusy timeout (u.outb 7 0xE7) = r at hsecond ⊢
      obtain ⟨found, v⟩ := r
      cases found with
      | none => exact hsecond.trans hfirst
      | some s => exact hsecond.trans hfirst

/-- Up to the word `e`, a sector that is complete is stored and is not `R`, but for one that the
last word completes and that is not stored. -/
def Spares (b : Behaviour) (words L R e : ℕ) : Prop := ∀ p < e, (p + 1) % words = 0 →
  (b.stores (p / words) = true ∧ L + p / words ≠ R) ∨ (p + 1 = e ∧ b.stores (p / words) = false)

variable {R e : ℕ}

theorem writeWords_spares (hspares : Spares b d.words L R e) (hphase : d.phase = .writing L n pos cache)
    (herror : d.error = false) (hpos : pos + m ≤ e) (he : e ≤ n * d.words) :
    (writeWords b buf sector m i d).2.media R = d.media R ∧ (writeWords b buf sector m i d).2.words = d.words ∧
      (pos + m = e ∨ (writeWords b buf sector m i d).2.error = false ∧
        ∃ cache, (writeWords b buf sector m i d).2.phase = .writing L n (pos + m) cache) := by
  induction m generalizing i pos d cache with
  | zero => exact ⟨rfl, rfl, .inr ⟨herror, cache, hphase⟩⟩
  | succ m ih =>
      have hstep := Device.outw_writing (b := b) (w := buf ((sector * 256 + i) % word)) hphase (by omega)
      rw [writeWords]
      dsimp only
      rw [hstep, show pos + (m + 1) = pos + 1 + m by omega]
      by_cases hend : (pos + 1) % d.words ≠ 0
      · rw [if_pos hend]
        exact ih hspares rfl herror (by omega) he
      · rw [if_neg hend]
        rcases hspares pos (by omega) (not_not.mp hend) with ⟨hstore, hrow⟩ | ⟨hlast, hstore⟩
        · rw [if_pos hstore]
          obtain ⟨hmedia, hwords, hrest⟩ := @ih ((d.storeSector (L + pos / d.words) _).setPhase _)
              (i + 1) (pos + 1) _
            hspares rfl herror (by omega) he
          exact ⟨hmedia.trans (Function.update_of_ne hrow.symm ..), hwords, hrest⟩
        · rw [if_neg (Bool.eq_false_iff.mp hstore)]
          obtain rfl : m = 0 := by omega
          exact ⟨rfl, rfl, .inl hlast⟩

theorem writeSectors_spares (hb : ∀ c, b.answers c = .ready) (hspares : Spares b d.words L R e)
    (hphase : d.phase = .writing L n pos cache) (herror : d.error = false) (hpos : pos + 256 * left = e)
    (he : e ≤ n * d.words) : ∃ loads t, writeSectors b buf left sector d = (true, loads, t) ∧
    t.media R = d.media R := by
  induction left generalizing sector d pos cache with
  | zero => exact ⟨_, _, rfl, rfl⟩
  | succ left ih =>
      have hdata : d.hasData = true := (Device.hasData_writing hphase).mpr (by omega)
      have hround : pos + 256 ≤ e := by omega
      obtain ⟨hmedia, hwords, hnext⟩ := @writeWords_spares b d.tick.tick L n sector 0 256 pos buf cache R e
        hspares hphase herror hround he
      unfold writeSectors
      rw [awaitWrite_ready hb herror hdata]
      dsimp only
      generalize writeWords b buf sector 256 0 d.tick.tick = words at hmedia hwords hnext ⊢
      obtain ⟨loads, u⟩ := words
      dsimp only at hmedia hwords hnext ⊢
      have hgoes : ∃ rest t, writeSectors b buf left (sector + 1) u = (true, rest, t) ∧
          t.media R = u.media R := by
        rcases hnext with hlast | ⟨herror', cache', hphase'⟩
        · obtain rfl : left = 0 := by omega
          exact ⟨_, _, rfl, rfl⟩
        · apply ih ?_ hphase' herror' (by omega) ?_
          · rw [hwords]
            exact hspares
          · rw [hwords]
            exact he
      obtain ⟨rest, t, hrest, hrow⟩ := hgoes
      rw [hrest]
      exact ⟨_, _, rfl, hrow.trans hmedia⟩

/-- The last sector is spared when it is too long to be completed, or is not stored. -/
theorem spares_last {words : ℕ} (hleast : 256 ≤ words)
    (hstores : ∀ k, k + 1 < count → b.stores k = true) (hlast : words = 256 → b.stores (count - 1) = false) :
    Spares b words lba (lba + count - 1) (256 * count) := by
  intro p hp hend
  have hdvd := Nat.dvd_of_mod_eq_zero hend
  obtain ⟨k, hk⟩ := hdvd
  have hkpos : k ≠ 0 := by
    rintro rfl
    omega
  obtain ⟨k, rfl⟩ := Nat.exists_eq_add_one_of_ne_zero hkpos
  have hdiv : p / words = k := by
    rw [show p = words * k + (words - 1) by rw [Nat.mul_succ] at hk; omega, Nat.mul_add_div (by omega),
      Nat.div_eq_of_lt (by omega), Nat.add_zero]
  have hle : k + 1 ≤ count := by
    have hmul : 256 * (k + 1) ≤ words * (k + 1) := Nat.mul_le_mul_right _ hleast
    omega
  rw [hdiv]
  by_cases hk' : k + 1 = count
  · -- all words of all sectors have arrived
    have hwords : words = 256 := by
      by_contra hne
      have hmul : 257 * (k + 1) ≤ words * (k + 1) := Nat.mul_le_mul_right _ (by omega)
      omega
    refine .inr ⟨?_, ?_⟩
    · rw [hk, hwords, ← hk']
    · rw [show k = count - 1 by omega]
      exact hlast hwords
  · exact .inl ⟨hstores k (by omega), by omega⟩

/-! ## Writes -/

theorem ideWrite_of_lt {d : IdeDrive} (h : len < count * d.sectorSize % word) :
    ideWrite b buf d lba count len = (-1, [], d.device) :=
  if_pos h

/-- A write ends with its rounds or behind the last waits. -/
theorem ideWrite_of_le {d : IdeDrive} {done : Bool} {loads : List ℕ} (h : ¬len < count * d.sectorSize % word)
    (hrounds : writeSectors b buf count 0 (issue d.drive lba count 0x30 d.device) = (done, loads, t)) :
    ideWrite b buf d lba count len =
      if done then ((finish b t).1, loads, (finish b t).2) else (-1, loads, t) := by
  unfold ideWrite
  rw [if_neg h, hrounds]
  cases done <;> rfl

theorem ideWrite_loads {d : IdeDrive} (h : ¬len < count * d.sectorSize % word)
    (hp : p ∈ (ideWrite b buf d lba count len).2.1) : p < 256 * count := by
  cases hrounds : writeSectors b buf count 0 (issue d.drive lba count 0x30 d.device) with
  | mk done r =>
      obtain ⟨loads, t⟩ := r
      rw [ideWrite_of_le h hrounds] at hp
      have hlt : p < 256 * (0 + count) := by
        apply writeSectors_inside hrounds
        cases done <;> exact hp
      omega

theorem sent_start {cache : ℕ → ℕ} (hwords : d.words = 256) (herror : d.error = false)
    (hphase : d.phase = .writing L n 0 cache) :
    Sent buf L n d.media (256 * 0) d := by
  refine ⟨hwords, herror, ⟨cache, hphase, fun j hj => ?_⟩, fun s j _ => ?_⟩
  · omega
  · rw [if_neg (by omega)]

theorem writesExactly_of_says {B : Behaviour → Prop} {d : IdeDrive} (hlen : ¬len < count * d.sectorSize % word)
    (hsay : Expressible lba count)
    (hwords : count = 0 ∨ (d.device.words = 256 ∧ ∀ b, B b → b.stores (count - 1) = true)) :
    WritesExactly d lba count len B := by
  obtain ⟨hcount, hlba⟩ := hsay
  refine ⟨fun b buf loads t hb h s j hj => ?_, fun b buf _ p hp => ?_, fun hno => absurd ⟨hcount, hlba⟩ hno⟩
  · obtain ⟨hissue, hphase⟩ := issue_write d.drive lba count d.device
    cases hrounds : writeSectors b buf count 0 (issue d.drive lba count 0x30 d.device) with
    | mk done r =>
        obtain ⟨loads', u⟩ := r
        rw [ideWrite_of_le hlen hrounds] at h
        cases done with
        | false => cases h
        | true =>
            have ht : t.media = u.media := by
              rw [if_pos rfl] at h
              rw [← finish_media (b := b) (d := u), ← (Prod.mk.inj (Prod.mk.inj h).2).2]
            rw [ht]
            rcases Nat.eq_zero_or_pos count with rfl | hpos
            · cases hrounds
              rw [if_neg (by omega), hissue.media]
            · obtain ⟨hwords, hstores⟩ := hwords.resolve_left hpos.ne'
              rw [commandSectors_eq hpos.ne' hcount, Nat.mod_eq_of_lt (by omega)] at hphase
              have hstart : Sent buf lba count (issue d.drive lba count 0x30 d.device).media (256 * 0) _ :=
                sent_start (hissue.words.trans hwords) hissue.error hphase
              rcases writeSectors_sent (by omega) (by omega) hstart hrounds with hall | ⟨-, hlast⟩
              · have hrow := hall.media s j (by omega)
                rw [hrow, hissue.media, hwords, show 256 * (0 + count) / 256 = count by omega]
              · rw [Nat.zero_add, hstores b hb] at hlast
                cases hlast
  · have hlt := ideWrite_loads hlen hp
    have hroom := room_of_le hlen (hwords.resolve_left (by omega)).1 hcount
    omega

theorem writesExactly_of_lt {B : Behaviour → Prop} {d : IdeDrive} (hlen : len < count * d.sectorSize % word) :
    WritesExactly d lba count len B := by
  refine ⟨fun b buf loads t _ h => ?_, fun b buf _ p hp => ?_, fun _ b buf _ => ?_⟩
  · rw [ideWrite_of_lt hlen] at h
    cases h
  · rw [ideWrite_of_lt hlen] at hp
    cases hp
  · rw [ideWrite_of_lt hlen]
    exact ⟨show (-1 : ℤ) < 0 by decide, rfl⟩

/-- A write whose last sector is spared ends well. -/
theorem not_writesExactly_of_spares {B : Behaviour → Prop} {d : IdeDrive}
    (hlen : ¬len < count * d.sectorSize % word)
    (hsay : Expressible lba count) (hzero : count ≠ 0) (hB : B b) (hb : ∀ c, b.answers c = .ready)
    (hspares : Spares b d.device.words lba (lba + count - 1) (256 * count)) :
    ¬WritesExactly d lba count len B := by
  intro h
  obtain ⟨hcount, hlba⟩ := hsay
  obtain ⟨hissue, hphase⟩ := issue_write d.drive lba count d.device
  rw [commandSectors_eq hzero hcount, Nat.mod_eq_of_lt (by omega)] at hphase
  rw [← hissue.words] at hspares
  have hfits : 256 * count ≤ count * (issue d.drive lba count 0x30 d.device).words := by
    rw [hissue.words, Nat.mul_comm]
    exact Nat.mul_le_mul_left _ d.least
  obtain ⟨loads, t, hrounds, hrow⟩ := @writeSectors_spares b _ lba count count 0 0
    (fun _ => d.device.media (lba + count - 1) 0 + 1) _ _ _ hb hspares hphase hissue.error
      (Nat.zero_add _) hfits
  have hend := ideWrite_of_le hlen hrounds
  rw [if_pos rfl, finish_ready hb] at hend
  have hword := h.exact _ _ _ _ hB hend (lba + count - 1) 0 (Nat.lt_of_lt_of_le (by decide) d.least)
  rw [finish_media, hrow, hissue.media, if_pos (by omega)] at hword
  omega

theorem timed_failed (hb : ∀ c, b.answers c = .failed) : timed b isBusy (n + 2) d =
    (some 0x01, d.tick.setPhase .idle) := by
  rw [timed, Device.status_failed (hb _)]
  dsimp only
  rw [if_neg (Nat.succ_ne_zero n)]
  rfl

/-- What cannot be said is not refused: a command is given. -/
theorem not_writesExactly_of_not_says {B : Behaviour → Prop} {d : IdeDrive}
    (hB : ∀ answers, B ⟨answers, fun _ => true⟩)
    (hlen : ¬len < count * d.sectorSize % word) (hno : ¬Expressible lba count) :
    ¬WritesExactly d lba count len B := by
  intro h
  cases count with
  | zero =>
      obtain ⟨hneg, -⟩ := h.refused hno _ (fun _ => 0) (hB fun _ => .ready)
      rw [ideWrite_of_le hlen rfl, if_pos rfl, finish_ready fun _ => rfl] at hneg
      exact absurd hneg (by decide)
  | succ count =>
      obtain ⟨-, hcommands⟩ := h.refused hno _ (fun _ => 0) (hB fun _ => .failed)
      have hwait : ∀ d, awaitWrite ⟨fun _ => .failed, fun _ => true⟩ d = (false, d.tick.setPhase .idle) := by
        intro d
        have hfirst : timed ⟨fun _ => .failed, fun _ => true⟩ isBusy timeout d =
            (some 0x01, d.tick.setPhase .idle) :=
          timed_failed (n := 999998) fun _ => rfl
        unfold awaitWrite
        rw [hfirst]
        rfl
      have hrounds : writeSectors ⟨fun _ => .failed, fun _ => true⟩ (fun _ => 0) (count + 1) 0
          (issue d.drive lba (count + 1) 0x30 d.device) =
          (false, [], (issue d.drive lba (count + 1) 0x30 d.device).tick.setPhase .idle) := by
        unfold writeSectors
        rw [hwait]
      rw [ideWrite_of_le hlen hrounds] at hcommands
      have hgiven := (issue_write d.drive lba (count + 1) d.device).1.commands
      have hsame : (issue d.drive lba (count + 1) 0x30 d.device).commands = d.device.commands := hcommands
      rw [hgiven] at hsame
      exact absurd (congrArg List.length hsame) (Nat.succ_ne_self _)

/-! ## All transfers -/

theorem sectorSize_iff (d : IdeDrive) : d.sectorSize = 512 ↔ d.device.words = 256 := by
  rw [d.sectorSize_eq]
  omega

/-- A transfer is exact exactly if it is refused, or one command can say it and the sectors are of
512 bytes; for a write, moreover, only if the device stores the last sector, whose error is not seen. -/
theorem ide_exact_iff (d : IdeDrive) (lba count len : ℕ) :
    (ReadsExactly d lba count len ↔
      len < count * d.sectorSize % word ∨ (Expressible lba count ∧ (count = 0 ∨ d.sectorSize = 512))) ∧
    (WritesExactly d lba count len (fun b => b.stores (count - 1) = true) ↔
      len < count * d.sectorSize % word ∨ (Expressible lba count ∧ (count = 0 ∨ d.sectorSize = 512))) ∧
    (WritesExactly d lba count len (fun _ => True) ↔
      len < count * d.sectorSize % word ∨ (Expressible lba count ∧ count = 0)) := by
  rw [sectorSize_iff]
  refine ⟨readsExactly_iff d lba count len, ?_, ?_⟩
  · by_cases hlen : len < count * d.sectorSize % word
    · exact iff_of_true (writesExactly_of_lt hlen) (.inl hlen)
    rw [or_iff_right hlen]
    constructor
    · intro h
      have hsay : Expressible lba count := by
        by_contra hno
        exact not_writesExactly_of_not_says (fun _ => rfl) hlen hno h
      refine ⟨hsay, or_iff_not_imp_left.mpr fun hzero => ?_⟩
      by_contra hwords
      have hspares := @spares_last ⟨fun _ => .ready, fun _ => true⟩ lba count _ d.least (fun _ _ => rfl)
        fun heq => absurd heq hwords
      exact not_writesExactly_of_spares hlen hsay hzero (by rfl) (fun _ => rfl) hspares h
    · rintro ⟨hsay, hwords⟩
      exact writesExactly_of_says hlen hsay (hwords.imp_right fun h => ⟨h, fun _ hb => hb⟩)
  · by_cases hlen : len < count * d.sectorSize % word
    · exact iff_of_true (writesExactly_of_lt hlen) (.inl hlen)
    rw [or_iff_right hlen]
    constructor
    · intro h
      have hsay : Expressible lba count := by
        by_contra hno
        exact not_writesExactly_of_not_says (fun _ => trivial) hlen hno h
      refine ⟨hsay, ?_⟩
      by_contra hzero
      have hspares := @spares_last ⟨fun _ => .ready, fun k => k + 1 ≠ count⟩ lba count _ d.least
        (fun k hk => decide_eq_true hk.ne) fun _ => decide_eq_false (by omega)
      exact not_writesExactly_of_spares hlen hsay hzero trivial (fun _ => rfl) hspares h
    · rintro ⟨hsay, hzero⟩
      exact writesExactly_of_says hlen hsay (.inl hzero)

/-- A drive that reports no long sectors. -/
def plainDrive : IdeDrive :=
  ⟨fun _ => 0, 0, ⟨256, fun _ _ => 0, 0, 0, 0, 0, 0, .idle, false, 0, []⟩, rfl, le_rfl, by decide⟩

/-- 257 sectors. -/
theorem not_ide_exact : ¬ ∀ (d : IdeDrive) (lba count len : ℕ), ReadsExactly d lba count len ∧
    WritesExactly d lba count len (fun _ => True) := by
  intro h
  rcases (readsExactly_iff plainDrive 0 257 (257 * 512)).mp
    (h plainDrive 0 257 (257 * 512)).1 with hlt | ⟨hsay, -⟩
  · rw [show plainDrive.sectorSize = 512 from rfl] at hlt
    exact absurd hlt (by decide)
  · exact absurd hsay.1 (by decide)

end Ferrite.Drivers
