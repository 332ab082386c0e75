import Ferrite.Library.Ring
import Ferrite.Library.Signed

/-!
# The ring buffer of the terminal

The keyboard writes the bytes, and a process that reads the console takes them. `console_dev_read`
waits while the ring is empty; the keyboard may write in front of any of its steps.

A ring of 256 bytes is a queue of 255.
-/
namespace Ferrite.Drivers
open Word

abbrev Byte := BitVec 8

/-- `SCAN_BUFFER`. -/
structure ScanBuffer where
  buffer : ℕ → Byte
  head : ℕ
  tail : ℕ
  head_lt : head < 256
  tail_lt : tail < 256

namespace ScanBuffer
variable (s : ScanBuffer)

def start : ScanBuffer := ⟨fun _ => 0, 0, 0, by decide, by decide⟩

def ttyWrite (scancode : Byte) : ScanBuffer :=
  if (s.tail + 1) % 256 ≠ s.head then
    ⟨Function.update s.buffer s.tail scancode, s.head, (s.tail + 1) % 256, s.head_lt, Nat.mod_lt _ (by decide)⟩
  else s

def ttyRead : Byte × ScanBuffer :=
  if s.head = s.tail then (0, s)
  else (s.buffer s.head, ⟨s.buffer, (s.head + 1) % 256, s.tail, Nat.mod_lt _ (by decide), s.tail_lt⟩)

def ttyIsEmpty : Bool := s.head = s.tail

/-- What has been written and not yet read. -/
def queue : List Byte := Ring.contents s.buffer 256 s.head s.tail

end ScanBuffer

open ScanBuffer

/-! ## The queue -/

/-- A queue of 255 bytes. -/
def pushByte (q : List Byte) (b : Byte) : List Byte := if q.length < 255 then q ++ [b] else q

variable {s : ScanBuffer} {b : Byte}

theorem queue_length_le (s : ScanBuffer) : s.queue.length ≤ 255 := by
  have hlt := Ring.count_lt s.head_lt s.tail_lt
  unfold queue
  rw [Ring.contents_length]
  omega

theorem queue_start : start.queue = [] := (Ring.contents_eq_nil (by decide) _).mpr rfl

theorem ttyIsEmpty_iff (s : ScanBuffer) : s.ttyIsEmpty = true ↔ s.queue = [] :=
  decide_eq_true_iff.trans (Ring.contents_eq_nil s.head_lt s.buffer).symm

theorem queue_full (s : ScanBuffer) : (s.tail + 1) % 256 = s.head ↔ s.queue.length = 255 := by
  have hfull := Ring.count_full s.head_lt s.tail_lt
  unfold queue
  rw [Ring.contents_length, hfull]
  omega

theorem queue_ttyWrite (s : ScanBuffer) (b : Byte) : (s.ttyWrite b).queue = pushByte s.queue b := by
  have hfull := queue_full s
  have hle := queue_length_le s
  unfold ttyWrite pushByte
  by_cases hfree : (s.tail + 1) % 256 ≠ s.head
  · rw [if_pos hfree, if_pos (by omega)]
    exact Ring.contents_write s.head_lt s.tail_lt hfree s.buffer b
  · rw [if_neg hfree, if_neg (by omega)]

theorem ttyRead_empty (h : s.queue = []) : s.ttyRead = (0, s) :=
  if_pos ((Ring.contents_eq_nil s.head_lt s.buffer).mp h)

theorem ttyRead_cons (h : s.queue ≠ []) : s.queue = s.ttyRead.1 :: s.ttyRead.2.queue := by
  have hne : s.head ≠ s.tail := fun heq => h ((Ring.contents_eq_nil s.head_lt s.buffer).mpr heq)
  have hread : s.ttyRead =
      (s.buffer s.head, ⟨s.buffer, (s.head + 1) % 256, s.tail, Nat.mod_lt _ (by decide), s.tail_lt⟩) :=
    if_neg hne
  rw [hread]
  exact Ring.contents_read s.head_lt s.tail_lt hne s.buffer

/-! ## Writes and reads in any order -/

inductive Call
  | write (b : Byte)
  | read
deriving DecidableEq, Repr

/-- The bytes that were taken in, and the results of the reads. -/
structure Log where
  accepted : List Byte
  returned : List Byte

/-- A call, and what it adds to the log: a byte that changes the ring is taken in. -/
def call (st : ScanBuffer × Log) : Call → ScanBuffer × Log
  | .write b =>
      (st.1.ttyWrite b, { st.2 with
        accepted := if (st.1.tail + 1) % 256 ≠ st.1.head then st.2.accepted ++ [b] else st.2.accepted })
  | .read => (st.1.ttyRead.2, { st.2 with returned := st.2.returned ++ [st.1.ttyRead.1] })

/-- The same call on a queue. -/
def queueCall (st : List Byte × Log) : Call → List Byte × Log
  | .write b => (pushByte st.1 b,
    { st.2 with accepted := if st.1.length < 255 then st.2.accepted ++ [b] else st.2.accepted })
  | .read => (st.1.tail, { st.2 with returned := st.2.returned ++ [st.1.headD 0] })

def runCalls (calls : List Call) : ScanBuffer × Log := calls.foldl call (start, ⟨[], []⟩)
def runQueue (calls : List Call) : List Byte × Log := calls.foldl queueCall ([], ⟨[], []⟩)

theorem call_refines (st : ScanBuffer × Log) (c : Call) :
    ((call st c).1.queue, (call st c).2) = queueCall (st.1.queue, st.2) c := by
  cases c with
  | write b =>
      have hfull := queue_full st.1
      have hle := queue_length_le st.1
      have hiff : (st.1.tail + 1) % 256 ≠ st.1.head ↔ st.1.queue.length < 255 := by omega
      unfold call queueCall
      dsimp only
      rw [queue_ttyWrite, if_congr hiff rfl rfl]
  | read =>
      unfold call queueCall
      dsimp only
      by_cases h : st.1.queue = []
      · rw [ttyRead_empty h, h]
        rfl
      · have hcons := ttyRead_cons h
        rw [hcons]
        rfl

/-- The ring does what the queue does. -/
theorem foldl_refines (calls : List Call) (st : ScanBuffer × Log) :
    ((calls.foldl call st).1.queue, (calls.foldl call st).2) = calls.foldl queueCall (st.1.queue, st.2) := by
  induction calls generalizing st with
  | nil => rfl
  | cons c calls ih =>
      rw [List.foldl_cons, List.foldl_cons, ← call_refines]
      exact ih _

theorem runCalls_refines (calls : List Call) : ((runCalls calls).1.queue, (runCalls calls).2)
    = runQueue calls := by
  unfold runCalls runQueue
  rw [foldl_refines, queue_start]

/-- What has been accepted and not been returned is queued. -/
structure InOrder (st : List Byte × Log) : Prop where
  bytes : st.2.accepted = st.2.returned.filter (· ≠ 0) ++ st.1
  nonzero : 0 ∉ st.1

theorem InOrder.call {st : List Byte × Log} (h : InOrder st) {c : Call} (hc : c ≠ .write 0) :
    InOrder (queueCall st c) := by
  obtain ⟨hbytes, hnonzero⟩ := h
  cases c with
  | write b =>
      have hb : 0 ≠ b := fun heq => hc (heq ▸ rfl)
      unfold queueCall pushByte
      dsimp only
      split_ifs
      · refine ⟨?_, ?_⟩
        · dsimp only
          rw [hbytes, List.append_assoc]
        · exact fun hmem => (List.mem_append.mp hmem).elim hnonzero fun h => hb (List.mem_singleton.mp h)
      · exact ⟨hbytes, hnonzero⟩
  | read =>
      obtain ⟨q, accepted, returned⟩ := st
      cases q with
      | nil =>
          refine ⟨?_, List.not_mem_nil⟩
          dsimp only [queueCall, List.headD_nil, List.tail_nil]
          rw [List.filter_append]
          simpa using hbytes
      | cons b q =>
          have hb : b ≠ 0 := fun heq => hnonzero (heq ▸ List.mem_cons_self)
          refine ⟨?_, fun hmem => hnonzero (List.mem_cons_of_mem b hmem)⟩
          have hkeep : [b].filter (fun x => decide (x ≠ 0)) = [b] := List.filter_cons_of_pos (decide_eq_true hb)
          dsimp only [queueCall, List.headD_cons, List.tail_cons] at hbytes ⊢
          rw [hbytes, List.filter_append, List.append_assoc, hkeep]
          rfl

theorem InOrder.run {calls : List Call} (hcalls : Call.write 0 ∉ calls) {st : List Byte × Log}
    (h : InOrder st) :
    InOrder (calls.foldl queueCall st) := by
  induction calls generalizing st with
  | nil => exact h
  | cons c calls ih =>
      obtain ⟨hc, hrest⟩ := not_or.mp (List.mem_cons.not.mp hcalls)
      exact ih hrest (h.call (Ne.symm hc))

/-! ## Reading lines -/

/-- Where `console_dev_read` stands: before the comparison with the count, before the test for
an empty ring, before `tty_read`, and behind the loop. -/
inductive Pc
  | compare | wait | take | done
deriving DecidableEq, Repr

/-- The call: the count as a `size_t`, and the bytes in the buffer of the process. -/
structure Reader where
  count : ℕ
  buf : List Byte
  pc : Pc

/-- The call `console_dev_read(inode, file, buf, count)`. -/
def consoleDevRead (count : ℤ) : Reader := ⟨unsigned 32 count, [], .compare⟩

/-- `(int)read_count`. -/
def Reader.ret (r : Reader) : ℤ := signed 32 r.buf.length

/-- A step of the call. While the ring is empty the processor halts until an interrupt. -/
def Reader.go (r : Reader) (s : ScanBuffer) : Reader × ScanBuffer :=
  match r.pc with
  | .compare => (if r.buf.length < r.count then { r with pc := .wait } else { r with pc := .done }, s)
  | .wait => (if s.ttyIsEmpty then r else { r with pc := .take }, s)
  | .take =>
      let ch := s.ttyRead.1
      (if ch = 0 then { r with pc := .done }
        else if ch = 10 then { r with buf := r.buf ++ [ch], pc := .done }
        else { r with buf := r.buf ++ [ch], pc := .compare }, s.ttyRead.2)
  | .done => (r, s)

/-- The reader goes on, or the keyboard writes a byte. -/
inductive Move
  | go
  | irq (b : Byte)
deriving DecidableEq, Repr

structure Session where
  reader : Reader
  ring : ScanBuffer
  accepted : List Byte

def move (st : Session) : Move → Session
  | .go => { st with reader := (st.reader.go st.ring).1, ring := (st.reader.go st.ring).2 }
  | .irq b =>
      { st with
        ring := st.ring.ttyWrite b
        accepted := if (st.ring.tail + 1) % 256 ≠ st.ring.head then st.accepted ++ [b] else st.accepted }

/-- What has been read is the front of what was queued: as many bytes as were asked for, or the
first newline is the last of them. -/
def IsLine (count : ℕ) (line : List Byte) : Prop :=
  line.length ≤ count ∧ 10 ∉ line.dropLast ∧ (line.length = count ∨ line.getLast? = some 10)

/-- What holds in front of each step of a read that began with a queue. -/
structure Reading (queued : List Byte) (count : ℕ) (st : Session) : Prop where
  bytes : st.reader.buf ++ st.ring.queue = queued ++ st.accepted
  nonzero : 0 ∉ st.ring.queue
  asked : st.reader.count = count
  room : st.reader.buf.length ≤ count
  going : st.reader.pc ≠ .done → 10 ∉ st.reader.buf
  waiting : st.reader.pc = .wait ∨ st.reader.pc = .take → st.reader.buf.length < count
  taking : st.reader.pc = .take → st.ring.queue ≠ []
  finished : st.reader.pc = .done → IsLine count st.reader.buf

variable {queued : List Byte} {count : ℕ} {st : Session}

theorem Reading.irq (h : Reading queued count st) (hb : b ≠ 0) : Reading queued count (move st (.irq b)) := by
  have hfull := queue_full st.ring
  have hle := queue_length_le st.ring
  have hqueue := queue_ttyWrite st.ring b
  unfold pushByte at hqueue
  by_cases hfree : (st.ring.tail + 1) % 256 ≠ st.ring.head
  · rw [if_pos (by omega)] at hqueue
    refine ⟨?_, ?_, h.asked, h.room, h.going, h.waiting, ?_, h.finished⟩
    · dsimp only [move]
      rw [hqueue, if_pos hfree, ← List.append_assoc, h.bytes, List.append_assoc]
    · dsimp only [move]
      rw [hqueue]
      exact fun hmem => (List.mem_append.mp hmem).elim h.nonzero fun h0 => hb (List.mem_singleton.mp h0).symm
    · intro _
      dsimp only [move]
      rw [hqueue]
      exact List.append_ne_nil_of_right_ne_nil _ (List.cons_ne_nil b [])
  · rw [if_neg (by omega)] at hqueue
    refine ⟨?_, ?_, h.asked, h.room, h.going, h.waiting, ?_, h.finished⟩
    · dsimp only [move]
      rw [hqueue, if_neg hfree]
      exact h.bytes
    · dsimp only [move]
      rw [hqueue]
      exact h.nonzero
    · dsimp only [move]
      rw [hqueue]
      exact h.taking

theorem Reading.go (h : Reading queued count st) : Reading queued count (move st .go) := by
  obtain ⟨⟨asked, buf, pc⟩, ring, accepted⟩ := st
  obtain ⟨hbytes, hnonzero, hasked, hroom, hgoing, hwaiting, htaking, hfinished⟩ := h
  obtain rfl : asked = count := hasked
  dsimp only at hbytes hnonzero hroom hgoing hwaiting htaking hfinished
  cases pc with
  | compare =>
      have hline : 10 ∉ buf := hgoing (by decide)
      unfold move Reader.go
      dsimp only
      split_ifs with hless
      · exact ⟨hbytes, hnonzero, rfl, hroom, fun _ => hline, fun _ => hless, by simp, by simp⟩
      · have hfull : buf.length = asked := by omega
        have hshort : 10 ∉ buf.dropLast := fun hmem => hline ((List.dropLast_sublist buf).subset hmem)
        exact ⟨hbytes, hnonzero, rfl, hroom, by simp, by simp, by simp, fun _ => ⟨hroom, hshort, .inl hfull⟩⟩
  | wait =>
      have hline : 10 ∉ buf := hgoing (by decide)
      have hless : buf.length < asked := hwaiting (.inl rfl)
      unfold move Reader.go
      dsimp only
      split_ifs with hempty
      · exact ⟨hbytes, hnonzero, rfl, hroom, fun _ => hline, fun _ => hless, by simp, by simp⟩
      · have hne : ring.queue ≠ [] := fun hnil => hempty ((ttyIsEmpty_iff ring).mpr hnil)
        exact ⟨hbytes, hnonzero, rfl, hroom, fun _ => hline, fun _ => hless, fun _ => hne, by simp⟩
  | take =>
      have hline : 10 ∉ buf := hgoing (by decide)
      have hless : buf.length < asked := hwaiting (.inr rfl)
      have hcons := ttyRead_cons (htaking rfl)
      have hch : ring.ttyRead.1 ≠ 0 := fun heq => hnonzero (by rw [hcons, heq]; exact List.mem_cons_self)
      have hrest : 0 ∉ ring.ttyRead.2.queue := fun hmem =>
          hnonzero (by rw [hcons]; exact List.mem_cons_of_mem _ hmem)
      have hbytes' : buf ++ [ring.ttyRead.1] ++ ring.ttyRead.2.queue = queued ++ accepted := by
        rw [List.append_assoc, List.singleton_append, ← hcons, hbytes]
      have hroom' : (buf ++ [ring.ttyRead.1]).length ≤ asked := by
        rw [List.length_append]
        exact hless
      unfold move Reader.go
      dsimp only
      rw [if_neg hch]
      split_ifs with hnewline
      · refine ⟨hbytes', hrest, rfl, hroom', by simp, by simp, by simp, fun _ => ⟨hroom', ?_, .inr ?_⟩⟩
        · rw [List.dropLast_concat]
          exact hline
        · rw [List.getLast?_concat, hnewline]
      · refine ⟨hbytes', hrest, rfl, hroom', fun _ => ?_, by simp, by simp, by simp⟩
        exact fun hmem => (List.mem_append.mp hmem).elim hline fun h => hnewline (List.mem_singleton.mp h).symm
  | done =>
      exact ⟨hbytes, hnonzero, rfl, hroom, hgoing, hwaiting, htaking, hfinished⟩

/-- The beginning of a read. -/
def Session.begin (s : ScanBuffer) (count : ℤ) : Session := ⟨consoleDevRead count, s, []⟩

theorem Reading.begin (hs : 0 ∉ s.queue) (count : ℤ) : Reading s.queue (unsigned 32 count) (.begin s count) :=
  ⟨(List.append_nil _).symm, hs, rfl, Nat.zero_le _, fun _ => List.not_mem_nil,
    fun h => by simp [Session.begin, consoleDevRead] at h,
    fun h => by simp [Session.begin, consoleDevRead] at h,
    fun h => by simp [Session.begin, consoleDevRead] at h⟩

theorem Reading.run {moves : List Move} (hmoves : Move.irq 0 ∉ moves) (h : Reading queued count st) :
    Reading queued count (moves.foldl move st) := by
  induction moves generalizing st with
  | nil => exact h
  | cons m moves ih =>
      obtain ⟨hm, hrest⟩ := not_or.mp (List.mem_cons.not.mp hmoves)
      apply ih hrest
      cases m with
      | go => exact h.go
      | irq b => exact h.irq fun heq => hm (heq ▸ rfl)

/-! ## A line in the ring is read to its end -/

/-- The steps of the reader alone. -/
def alone (n : ℕ) (st : Session) : Session := (List.replicate n Move.go).foldl move st

theorem alone_succ (n : ℕ) (st : Session) : alone (n + 1) st = alone n (move st .go) := rfl

/-- A line that is queued is read in three steps a byte and one more. -/
theorem reads_line {line rest : List Byte} {buf : List Byte} {ring : ScanBuffer} {accepted : List Byte}
    (hqueue : ring.queue = line ++ rest) (hnonzero : 0 ∉ line) (hbuf : 10 ∉ buf)
    (hline : IsLine count (buf ++ line)) :
    ∃ n, (alone n ⟨⟨count, buf, .compare⟩, ring, accepted⟩).reader.pc = .done := by
  induction line generalizing buf ring with
  | nil =>
      rw [List.append_nil] at hline
      have hfull : ¬buf.length < count := by
        rcases hline.2.2 with hlength | hlast
        · omega
        · exact absurd (List.mem_of_getLast? hlast) hbuf
      refine ⟨1, ?_⟩
      unfold alone
      dsimp only [List.replicate_one, List.foldl_cons, List.foldl_nil, move, Reader.go]
      rw [if_neg hfull]
  | cons b line ih =>
      have hless : buf.length < count := by
        have hle := hline.1
        rw [List.length_append, List.length_cons] at hle
        omega
      have hne : ring.queue ≠ [] := by
        rw [hqueue]
        exact List.cons_ne_nil b _
      have hempty : ¬ring.ttyIsEmpty = true := fun h => hne ((ttyIsEmpty_iff ring).mp h)
      have hread := ttyRead_cons hne
      rw [hqueue, List.cons_append] at hread
      obtain ⟨hfirst, hrest⟩ := List.cons.inj hread
      have hb : b ≠ 0 := fun heq => hnonzero (heq ▸ List.mem_cons_self)
      have hcompare : move ⟨⟨count, buf, .compare⟩, ring, accepted⟩ .go
          = ⟨⟨count, buf, .wait⟩, ring, accepted⟩ := by
        dsimp only [move, Reader.go]
        rw [if_pos hless]
      have hwait : move ⟨⟨count, buf, .wait⟩, ring, accepted⟩ .go = ⟨⟨count, buf, .take⟩, ring, accepted⟩ := by
        dsimp only [move, Reader.go]
        rw [if_neg hempty]
      have htake : move ⟨⟨count, buf, .take⟩, ring, accepted⟩ .go =
          ⟨⟨count, buf ++ [b], if b = 10 then .done else .compare⟩, ring.ttyRead.2, accepted⟩ := by
        dsimp only [move, Reader.go]
        rw [← hfirst, if_neg hb]
        split_ifs <;> rfl
      by_cases hnewline : b = 10
      · refine ⟨3, ?_⟩
        rw [alone_succ, hcompare, alone_succ, hwait, alone_succ, htake, if_pos hnewline]
        rfl
      · have hbuf' : 10 ∉ buf ++ [b] := fun hmem =>
          (List.mem_append.mp hmem).elim hbuf fun h => hnewline (List.mem_singleton.mp h).symm
        have hline' : IsLine count (buf ++ [b] ++ line) := by
          rw [List.append_assoc]
          exact hline
        obtain ⟨n, hn⟩ := ih hrest.symm (fun hmem => hnonzero (List.mem_cons_of_mem b hmem)) hbuf' hline'
        refine ⟨n + 3, ?_⟩
        rw [alone_succ, hcompare, alone_succ, hwait, alone_succ, htake, if_neg hnewline]
        exact hn

/-! ## The terminal -/

/-- What holds after every call: the bytes are returned in the order in which they were taken in,
none is lost, and a write is dropped when 255 bytes are queued. -/
structure Fifo (st : ScanBuffer × Log) : Prop where
  bytes : st.2.accepted = st.2.returned.filter (· ≠ 0) ++ st.1.queue
  bound : st.1.queue.length ≤ 255
  dropped : ∀ b, (call st (.write b)).2.accepted = st.2.accepted ↔ st.1.queue.length = 255
  zero : st.1.ttyRead.1 = 0 ↔ st.1.queue = []

/-- What a read of the console that returns has done. -/
structure ReadsLine (s : ScanBuffer) (count : ℤ) (st : Session) : Prop where
  bytes : st.reader.buf ++ st.ring.queue = s.queue ++ st.accepted
  line : IsLine (unsigned 32 count) st.reader.buf
  ret : 0 ≤ count → count < 2 ^ 31 → st.reader.ret = st.reader.buf.length

variable {calls : List Call}

theorem runCalls_inOrder (hcalls : Call.write 0 ∉ calls) :
    InOrder ((runCalls calls).1.queue, (runCalls calls).2) := by
  have hstart : InOrder ([], ⟨[], []⟩) := ⟨rfl, List.not_mem_nil⟩
  rw [runCalls_refines]
  exact hstart.run hcalls

theorem runCalls_fifo (hcalls : Call.write 0 ∉ calls) : Fifo (runCalls calls) := by
  obtain ⟨hbytes, hnonzero⟩ := runCalls_inOrder hcalls
  refine ⟨hbytes, queue_length_le _, ?_, ?_⟩
  · intro b
    have hfull := queue_full (runCalls calls).1
    unfold call
    dsimp only
    by_cases hfree : ((runCalls calls).1.tail + 1) % 256 ≠ (runCalls calls).1.head
    · rw [if_pos hfree]
      exact iff_of_false (by simp) fun h => hfree (hfull.mpr h)
    · rw [if_neg hfree]
      exact iff_of_true rfl (hfull.mp (not_not.mp hfree))
  · constructor
    · intro hzero
      by_contra hne
      apply hnonzero
      dsimp only
      rw [ttyRead_cons hne, hzero]
      exact List.mem_cons_self
    · intro hempty
      rw [ttyRead_empty hempty]

theorem Reading.readsLine {s : ScanBuffer} {count : ℤ} (h : Reading s.queue (unsigned 32 count) st)
    (hdone : st.reader.pc = .done) : ReadsLine s count st := by
  have hline := h.finished hdone
  refine ⟨h.bytes, hline, ?_⟩
  intro hlow hhigh
  have hcount : unsigned 32 count = count.toNat := unsigned_of_nonneg hlow (by omega)
  have hle := hline.1
  exact signed_of_lt (by omega)

/-- The ring is a queue of 255 bytes, and a read of the console takes a line from it; a line that
is queued lets the read return. -/
theorem tty_is_queue :
    (∀ calls, ((runCalls calls).1.queue, (runCalls calls).2) = runQueue calls) ∧
    (∀ calls, Call.write 0 ∉ calls → Fifo (runCalls calls)) ∧
    (∀ calls count (moves : List Move), Call.write 0 ∉ calls → Move.irq 0 ∉ moves →
      (moves.foldl move (.begin (runCalls calls).1 count)).reader.pc = .done →
      ReadsLine (runCalls calls).1 count (moves.foldl move (.begin (runCalls calls).1 count))) ∧
    ∀ calls count line rest, Call.write 0 ∉ calls → (runCalls calls).1.queue = line ++ rest →
      IsLine (unsigned 32 count) line → ∃ n, (alone n (.begin (runCalls calls).1 count)).reader.pc = .done := by
  refine ⟨runCalls_refines, fun _ => runCalls_fifo, ?_, ?_⟩
  · intro calls count moves hcalls hmoves hdone
    have hbegin := Reading.begin (runCalls_inOrder hcalls).nonzero count
    exact (hbegin.run hmoves).readsLine hdone
  · intro calls count line rest hcalls hqueue hline
    have hnonzero : 0 ∉ line := fun hmem => by
      apply (runCalls_inOrder hcalls).nonzero
      dsimp only
      rw [hqueue]
      exact List.mem_append_left rest hmem
    exact reads_line hqueue hnonzero List.not_mem_nil hline

/-- `a` and a newline are written, one byte is read. -/
theorem tty_is_queue_newline : Fifo (runCalls [.write 97, .write 10, .read]) :=
  tty_is_queue.2.1 [.write 97, .write 10, .read] (by decide)

end Ferrite.Drivers
