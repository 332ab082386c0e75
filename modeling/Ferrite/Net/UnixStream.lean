import Ferrite.Net.Unix
import Ferrite.Library.Runs

/-!
# The byte stream between two connected sockets

Two sockets stay connected to each other, and processes send on one and receive
on the other. A system call runs with interrupts on, so the statements of
`unix_sendmsg` and `unix_recvmsg` that touch the buffer are steps of their own,
and a timer interrupt may put a step of another process between them.

What the buffer should be is a queue: the bytes received, and then its content,
are the bytes accepted. This holds whenever no call is under way, as long as
calls begin only then.
-/
namespace Ferrite.Net
open Runs Packed Word

/-- Where a process is: between two calls, or before a statement of one. -/
inductive StreamPc
  | idle
  | sendCopy (buf : Bytes) (n : ℕ)
  | sendGrow (buf : Bytes) (n : ℕ)
  | recvCopy (n : ℕ)
  | recvShift (n : ℕ) (out : List Byte)
  | recvShrink (n : ℕ) (out : List Byte)

/-- The receiving socket's data, the processes, and what the calls that returned
have accepted and delivered. -/
structure Stream where
  sock : UnixSock
  pc : ℕ → StreamPc
  accepted : List Byte
  received : List Byte

inductive StreamEvent
  | send (p : ℕ) (buf : Bytes) (len : BitVec 32)
  | recv (p : ℕ) (len : BitVec 32)
  | run (p : ℕ)

namespace Stream
variable (k : Stream)

def goto (p : ℕ) (pc : StreamPc) : Stream := { k with pc := Function.update k.pc p pc }

/-- The next statement of a call. -/
def runStep (p : ℕ) : StreamPc → Option Stream
  | .idle => none
  | .sendCopy buf n => some { k.goto p (.sendGrow buf n) with sock := k.sock.append buf n }
  | .sendGrow buf n =>
      some { k.goto p .idle with
        sock := k.sock.grow n
        accepted := k.accepted ++ (List.range n).map buf }
  | .recvCopy n => some (k.goto p (.recvShift n (k.sock.front n)))
  | .recvShift n out => some { k.goto p (.recvShrink n out) with sock := k.sock.shift n }
  | .recvShrink n out =>
      some { k.goto p .idle with sock := k.sock.shrink n, received := k.received ++ out }

/-- A call up to the first store; the calls that return at once change nothing. -/
def step : StreamEvent → Option Stream
  | .send p buf len =>
      match k.pc p with
      | .idle =>
          let n := k.sock.toCopy len
          some (if n = 0 then k else k.goto p (.sendCopy buf n))
      | _ => none
  | .recv p len =>
      match k.pc p with
      | .idle =>
          some (if k.sock.bufLen = 0 then k else k.goto p (.recvCopy (k.sock.toRead len)))
      | _ => none
  | .run p => k.runStep p (k.pc p)

def Quiet : Prop := ∀ p, k.pc p = .idle

/-- What is delivered was accepted, in this order; no copy leaves the buffer; and
between calls it holds exactly what is still to be delivered. -/
structure Intact : Prop where
  received : k.received <+: k.accepted
  bounded : k.sock.bufLen ≤ bufferSize
  inside : ∀ p buf n, k.pc p = .sendCopy buf n → k.sock.bufLen + n ≤ bufferSize
  content : k.Quiet → k.received ++ k.sock.content = k.accepted

/-- Connected, with an empty buffer and no call under way. -/
structure Fresh : Prop where
  quiet : k.Quiet
  empty : k.sock.bufLen = 0
  accepted : k.accepted = []
  received : k.received = []

end Stream

/-- No call begins while another one is under way. -/
def Alone (k : Stream) : StreamEvent → Prop
  | .send _ _ _ | .recv _ _ => k.Quiet
  | .run _ => True

def StreamStep (k : Stream) (e : StreamEvent) (k' : Stream) : Prop := k.step e = some k'

/-! ## The buffer -/

namespace UnixSock
variable {u : UnixSock} {n m : ℕ}

theorem front_succ (u : UnixSock) (n : ℕ) : u.front (n + 1) = u.front n ++ [u.buffer n] := by
  simp [front, List.range_succ]

theorem front_add (u : UnixSock) (n m : ℕ) :
    u.front (n + m) = u.front n ++ (List.range m).map fun i => u.buffer (n + i) := by
  induction m with
  | zero => simp
  | succ m ih => rw [← Nat.add_assoc, front_succ, ih, List.range_succ]; simp

theorem front_congr {v : UnixSock} (h : ∀ i, i < n → u.buffer i = v.buffer i) :
    u.front n = v.front n :=
  List.map_congr_left fun i hi => h i (List.mem_range.mp hi)

theorem room_eq (h : u.bufLen ≤ bufferSize) : u.room = bufferSize - u.bufLen :=
  wsub_of_le h (by simp [bufferSize, word])

theorem toCopy_le (h : u.bufLen ≤ bufferSize) (len : BitVec 32) :
    u.bufLen + u.toCopy len ≤ bufferSize := by
  unfold toCopy
  rw [room_eq h]
  split_ifs <;> omega

theorem toRead_le (u : UnixSock) (len : BitVec 32) : u.toRead len ≤ u.bufLen := by
  unfold toRead
  split_ifs <;> omega

theorem append_front (u : UnixSock) (buf : Bytes) (n : ℕ) :
    (u.append buf n).front u.bufLen = u.front u.bufLen :=
  front_congr fun _ hi => copy_of_lt hi

theorem append_buffer (u : UnixSock) (buf : Bytes) {n i : ℕ} (hi : i < n) :
    (u.append buf n).buffer (u.bufLen + i) = buf i := by
  have := @copy_add n u.bufLen 0 u.buffer buf i hi
  rwa [Nat.zero_add] at this

@[simp] theorem grow_front (u : UnixSock) (n m : ℕ) : (u.grow n).front m = u.front m := by
  unfold front grow
  rfl
@[simp] theorem shrink_front (u : UnixSock) (n m : ℕ) : (u.shrink n).front m = u.front m := by
  unfold front shrink
  rfl

theorem grow_bufLen (h : u.bufLen + n ≤ bufferSize) : (u.grow n).bufLen = u.bufLen + n :=
  wadd_of_lt (lt_of_le_of_lt h (by simp [bufferSize, word]))

theorem shrink_bufLen (h : u.bufLen ≤ bufferSize) (hn : n ≤ u.bufLen) :
    (u.shrink n).bufLen = u.bufLen - n :=
  wsub_of_le hn (lt_of_le_of_lt h (by simp [bufferSize, word]))

@[simp] theorem shift_bufLen (u : UnixSock) (n : ℕ) : (u.shift n).bufLen = u.bufLen := by
  unfold shift
  split_ifs <;> rfl

/-- The bytes behind the first `n` have moved to the front. -/
theorem shift_front (h : u.bufLen ≤ bufferSize) (hn : n ≤ u.bufLen) :
    u.front n ++ (u.shift n).front (u.bufLen - n) = u.content := by
  have hsplit : u.content = u.front n ++ (List.range (u.bufLen - n)).map fun i => u.buffer (n + i) := by
    rw [content, ← front_add, Nat.add_sub_cancel' hn]
  rw [hsplit, List.append_cancel_left_eq]
  apply List.map_congr_left
  intro i hi
  have hi : i < u.bufLen - n := List.mem_range.mp hi
  have hlen : wsub u.bufLen n = u.bufLen - n :=
    wsub_of_le hn (lt_of_le_of_lt h (by simp [bufferSize, word]))
  have := @copy_add (wsub u.bufLen n) 0 n u.buffer u.buffer i (by omega)
  rw [Nat.zero_add] at this
  rw [shift, if_pos (by omega)]
  exact this

end UnixSock

/-! ## Uninterrupted calls -/

namespace Stream
variable {k : Stream} {p : ℕ} {buf : Bytes} {len : BitVec 32}

theorem exec_send (hp : k.pc p = .idle) {n : ℕ} (hn : k.sock.toCopy len = n) (hpos : n ≠ 0) :
    exec step k [.send p buf len, .run p, .run p] =
      some { sock := (k.sock.append buf n).grow n, pc := Function.update k.pc p .idle,
             accepted := k.accepted ++ (List.range n).map buf, received := k.received } := by
  simp [exec, step, hp, hn, hpos, goto, runStep]

theorem exec_recv (hp : k.pc p = .idle) (hpos : k.sock.bufLen ≠ 0) {n : ℕ}
    (hn : k.sock.toRead len = n) :
    exec step k [.recv p len, .run p, .run p, .run p] =
      some { sock := (k.sock.shift n).shrink n, pc := Function.update k.pc p .idle,
             accepted := k.accepted, received := k.received ++ k.sock.front n } := by
  simp [exec, step, hp, hn, hpos, goto, runStep]

end Stream

/-- The steps of a send that is not interrupted store what `unix_sendmsg` stores. -/
theorem sendmsg_stream {n n' : Net} {a b p : ℕ} {r : ℤ} {sa sb : Socket} {buf : Bytes}
    {len : BitVec 32} {k : Stream} (ha : n.sockets a = some sa) (hst : sa.state = .connected)
    (hc : sa.conn = some b) (hb : n.sockets b = some sb) (hk : k.sock = sb.data)
    (hp : k.pc p = .idle) (h : n.unixSendmsg a buf len = some (r, n')) :
    ∃ es k', exec Stream.step k (.send p buf len :: es) = some k' ∧ k'.pc p = .idle ∧
      n'.sockets b = some { sb with data := k'.sock } := by
  unfold Net.unixSendmsg at h
  simp only [ha, hst, hc, hb, Option.bind_eq_bind, Option.bind_some, ne_eq, not_true_eq_false,
    if_false] at h
  split_ifs at h with hzero <;> cases h
  · refine ⟨[], k, ?_, hp, by rw [hb, hk]⟩
    simp [exec, Stream.step, hp, hk, hzero]
  · refine ⟨_, _, Stream.exec_send hp rfl (by rwa [hk]), by simp, ?_⟩
    simp [Net.setSocket, hk]

/-- The same for a receive, which returns what the stream counts as received. -/
theorem recvmsg_stream {n n' : Net} {b p : ℕ} {r : Option (List Byte)} {sb : Socket}
    {len : BitVec 32} {k : Stream} (hb : n.sockets b = some sb) (hst : sb.state = .connected)
    (hk : k.sock = sb.data) (hp : k.pc p = .idle) (h : n.unixRecvmsg b len = some (r, n')) :
    ∃ es k', exec Stream.step k (.recv p len :: es) = some k' ∧ k'.pc p = .idle ∧
      n'.sockets b = some { sb with data := k'.sock } ∧ k'.received = k.received ++ r.getD [] := by
  unfold Net.unixRecvmsg at h
  simp only [hb, hst, Option.bind_eq_bind, Option.bind_some, ne_eq, not_true_eq_false,
    false_or] at h
  split_ifs at h with hzero <;> cases h
  · refine ⟨[], k, ?_, hp, by rw [hb, hk], by simp⟩
    simp [exec, Stream.step, hp, hk, hzero]
  · refine ⟨_, _, Stream.exec_recv hp (by rwa [hk]) rfl, by simp, ?_, ?_⟩
    · simp [Net.setSocket, hk, hst]
    · simp [hk]

/-! ## One call at a time -/

namespace Stream
variable {k k' : Stream} {p : ℕ} {e : StreamEvent}

/-- What is true before a statement of the only call under way. -/
def Phase (k : Stream) : StreamPc → Prop
  | .idle => k.received ++ k.sock.content = k.accepted
  | .sendCopy _ n =>
      k.sock.bufLen + n ≤ bufferSize ∧ k.received ++ k.sock.content = k.accepted
  | .sendGrow buf n =>
      k.sock.bufLen + n ≤ bufferSize ∧ k.received ++ k.sock.content = k.accepted ∧
        ∀ i, i < n → k.sock.buffer (k.sock.bufLen + i) = buf i
  | .recvCopy n => n ≤ k.sock.bufLen ∧ k.received ++ k.sock.content = k.accepted
  | .recvShift n out =>
      n ≤ k.sock.bufLen ∧ k.received ++ k.sock.content = k.accepted ∧ out = k.sock.front n
  | .recvShrink n out =>
      n ≤ k.sock.bufLen ∧ k.received ++ (out ++ k.sock.front (k.sock.bufLen - n)) = k.accepted

structure OneCall (k : Stream) : Prop where
  bounded : k.sock.bufLen ≤ bufferSize
  phase : ∃ p, (∀ q, q ≠ p → k.pc q = .idle) ∧ k.Phase (k.pc p)

theorem OneCall.of_quiet (hq : k.Quiet) (hb : k.sock.bufLen ≤ bufferSize)
    (hc : k.received ++ k.sock.content = k.accepted) : OneCall k := by
  refine ⟨hb, 0, fun q _ => hq q, ?_⟩
  rw [hq 0]
  exact hc

theorem OneCall.quiet_content (h : OneCall k) (hq : k.Quiet) :
    k.received ++ k.sock.content = k.accepted := by
  obtain ⟨p, -, hp⟩ := h.phase
  rwa [hq p] at hp

theorem OneCall.intact (h : OneCall k) : k.Intact := by
  refine ⟨?_, h.bounded, fun p buf n hp => ?_, h.quiet_content⟩
  · obtain ⟨p, -, hp⟩ := h.phase
    cases hpc : k.pc p <;> rw [hpc] at hp
    case idle => exact ⟨_, hp⟩
    case sendCopy buf n => exact ⟨_, hp.2⟩
    case sendGrow buf n => exact ⟨_, hp.2.1⟩
    case recvCopy n => exact ⟨_, hp.2⟩
    case recvShift n out => exact ⟨_, hp.2.1⟩
    case recvShrink n out => exact ⟨_, hp.2⟩
  · obtain ⟨p', hidle, hp'⟩ := h.phase
    have hpp : p = p' := by
      by_contra hne
      rw [hidle p hne] at hp
      cases hp
    subst hpp
    rw [hp] at hp'
    exact hp'.1

/-- The process `p` goes on to `pc`, and is the only one in a call. -/
theorem OneCall.move {pc : StreamPc} (hidle : ∀ q, q ≠ p → k.pc q = .idle)
    (hpc : k'.pc = Function.update k.pc p pc) (hb : k'.sock.bufLen ≤ bufferSize)
    (hphase : k'.Phase pc) : OneCall k' := by
  refine ⟨hb, p, fun q hq => ?_, ?_⟩
  · rw [hpc, Function.update_of_ne hq]
    exact hidle q hq
  · rw [hpc, Function.update_self]
    exact hphase

theorem OneCall.run (h : OneCall k) (hs : k.runStep p (k.pc p) = some k') : OneCall k' := by
  obtain ⟨q, hidle, hphase⟩ := h.phase
  have hpq : p = q := by
    by_contra hne
    rw [hidle p hne] at hs
    cases hs
  subst hpq
  have hb := h.bounded
  cases hpc : k.pc p <;> rw [hpc] at hs hphase
  case idle => cases hs
  case sendCopy buf n =>
    cases hs
    refine .move hidle rfl hb ⟨hphase.1, ?_, fun i hi => k.sock.append_buffer buf hi⟩
    have hcontent : (k.sock.append buf n).content = k.sock.content := k.sock.append_front buf n
    simpa [goto, hcontent] using hphase.2
  case sendGrow buf n =>
    cases hs
    have hlen := UnixSock.grow_bufLen hphase.1
    refine .move hidle rfl (by simpa [hlen] using hphase.1) ?_
    have hcontent : (k.sock.grow n).content = k.sock.content ++ (List.range n).map buf := by
      rw [UnixSock.content, hlen, UnixSock.grow_front, UnixSock.front_add]
      congr 1
      exact List.map_congr_left fun i hi => hphase.2.2 i (List.mem_range.mp hi)
    simp [Phase, goto, hcontent, ← List.append_assoc, hphase.2.1]
  case recvCopy n =>
    cases hs
    exact .move hidle rfl hb ⟨hphase.1, hphase.2, rfl⟩
  case recvShift n out =>
    cases hs
    obtain ⟨hn, hc, rfl⟩ := hphase
    refine .move hidle rfl (by simpa using hb) ⟨by simpa using hn, ?_⟩
    simpa [goto, UnixSock.shift_front hb hn] using hc
  case recvShrink n out =>
    cases hs
    have hlen := UnixSock.shrink_bufLen hb hphase.1
    refine .move hidle rfl (by simp [hlen]; omega) ?_
    have hcontent : (k.sock.shrink n).content = k.sock.front (k.sock.bufLen - n) := by
      rw [UnixSock.content, hlen, UnixSock.shrink_front]
    simpa [Phase, goto, hcontent] using hphase.2

theorem OneCall.step (h : OneCall k) (ha : Alone k e) (hs : StreamStep k e k') : OneCall k' := by
  unfold StreamStep Stream.step at hs
  cases e with
  | send p buf len =>
      have hp : k.pc p = .idle := ha p
      have hc := h.quiet_content ha
      simp only [hp, Option.some.injEq] at hs
      subst hs
      split_ifs
      · exact h
      · exact .move (fun q _ => ha q) rfl h.bounded ⟨UnixSock.toCopy_le h.bounded len, hc⟩
  | recv p len =>
      have hp : k.pc p = .idle := ha p
      have hc := h.quiet_content ha
      simp only [hp, Option.some.injEq] at hs
      subst hs
      split_ifs
      · exact h
      · exact .move (fun q _ => ha q) rfl h.bounded ⟨k.sock.toRead_le len, hc⟩
  | run p => exact h.run hs

theorem Fresh.oneCall (h : k.Fresh) : OneCall k := by
  refine .of_quiet h.quiet (by simp [h.empty]) ?_
  simp [UnixSock.content, UnixSock.front, h.empty, h.accepted, h.received]

theorem stream_intact {s u : Stream} {tr : List (Stream × StreamEvent)} (hs : s.Fresh)
    (h : Trace StreamStep s tr u) (ha : ∀ x ∈ tr, Alone x.1 x.2) : Throughout Intact tr u := by
  have hone := h.throughout_of (fun _ _ _ hk ha hs => OneCall.step hk ha hs) hs.oneCall ha
  exact ⟨fun x hx => (hone.1 x hx).intact, hone.2.intact⟩

/-- The bytes 1, 2, 3 and so on. -/
def someBytes : Bytes := fun i => .ofNat 8 (i + 1)

def start : Stream := ⟨.zero, fun _ => .idle, [], []⟩

theorem start_fresh : start.Fresh := ⟨fun _ => rfl, rfl, rfl, rfl⟩

/-- The steps of one call that begins alone. -/
theorem alone_history {es : List StreamEvent} (he : Alone k e) (hes : ∀ e' ∈ es, ∃ p, e' = .run p) :
    ∀ x ∈ history step k (e :: es), Alone x.1 x.2 := by
  intro x hx
  cases hx with
  | head => exact he
  | tail _ hx =>
      cases hs : k.step e with
      | none =>
          rw [hs] at hx
          cases hx
      | some t =>
          rw [hs] at hx
          obtain ⟨p, hp⟩ := hes x.2 (mem_history hx)
          rw [hp]
          trivial

/-- After process 0 has sent three bytes. -/
def sent : Stream := { start with sock := (start.sock.append someBytes 3).grow 3, accepted := [1, 2, 3] }

theorem exec_sent : exec step start [.send 0 someBytes 3, .run 0, .run 0] = some sent := by
  rw [exec_send rfl (show _ = 3 by decide) (by decide)]
  simp [sent, start, someBytes, List.range_succ]

/-- Process 1 receives two of the bytes. -/
theorem stream_intact_short : ∃ u : Stream, ∃ tr : List (Stream × StreamEvent),
    Trace StreamStep start tr u ∧ u.received = [1, 2] ∧ u.sock.content = [3] ∧
      Throughout Intact tr u := by
  have hrecv := @exec_recv sent 1 2 rfl (by decide) 2 (by decide)
  have htr := (exec_trace exec_sent).append (exec_trace hrecv)
  refine ⟨_, _, htr, by decide, by decide, stream_intact start_fresh htr fun x hx => ?_⟩
  rcases List.mem_append.mp hx with hx | hx
  · exact alone_history (e := .send 0 someBytes 3) start_fresh.quiet (by simp) x hx
  · exact alone_history (e := .recv 1 2) (fun _ => rfl) (by simp) x hx

/-- While process 1 receives all three bytes, process 0 sends two more. -/
theorem not_stream_intact_preempted : ¬ ∀ (s u : Stream) (tr : List (Stream × StreamEvent)),
    s.Fresh → Trace StreamStep s tr u → Throughout Intact tr u := by
  let es : List StreamEvent := [.send 0 someBytes 3, .run 0, .run 0, .recv 1 3, .run 1, .run 1,
    .send 0 (fun i => someBytes (i + 3)) 2, .run 0, .run 0, .run 1]
  intro h
  have hes : ((exec step start es).any fun u =>
      u.received = [1, 2, 3] && (u.accepted = [1, 2, 3, 4, 5] && u.sock.content = [1, 2])) = true := by
    decide
  obtain ⟨u, hu, hv⟩ := (Option.any_eq_true _ _).mp hes
  have hidle : ∀ p, (exec step start es).map (fun u => u.pc p) = some .idle
    | 0 => rfl
    | 1 => rfl
    | p + 2 => rfl
  have hquiet : u.Quiet := fun p => by simpa [hu] using hidle p
  have hlost := (h start u _ start_fresh (exec_trace hu)).2.content hquiet
  simp only [Bool.and_eq_true, decide_eq_true_eq] at hv
  rw [hv.1, hv.2.1, hv.2.2] at hlost
  exact absurd hlost (by decide)

end Stream

end Ferrite.Net
