import Ferrite.Net.Unix
import Ferrite.Library.Runs

/-!
# Links between sockets

`s` is linked to `t` when it is connected and `s->conn` is `t`: what is written
to `s` then goes into the buffer of `t`. The two halves of a link are set and
cleared one by one. Whether a call keeps all links symmetric can be read off the
state before it, and a run keeps them exactly when each of its calls does.
-/
namespace Ferrite.Net
open Runs Packed

inductive Call
  | create (new : ℕ)
  | bind (s ino : ℕ) (registered : Bool)
  | connect (s : ℕ) (found : Option ℕ)
  | accept (s new : ℕ) (placed : Bool)
  | read (s : ℕ) (len : BitVec 32)
  | write (s : ℕ) (buf : Bytes) (len : BitVec 32)
  | release (s : ℕ)

/-- A call to its end. A new socket is at an address that is not in use, and
`accept` waits until there is a client. -/
def call (n : Net) : Call → Option Net
  | .create new => if n.sockets new = none then some (n.socketCreate new) else none
  | .bind s ino registered => (n.unixBind s ino registered).map (·.2)
  | .connect s found => (n.unixConnect s found).map (·.2)
  | .accept s new placed => if n.sockets new = none then n.sysAccept s new placed else none
  | .read s len => (n.unixRecvmsg s len).map (·.2)
  | .write s buf len => (n.unixSendmsg s buf len).map (·.2)
  | .release s => n.socketRelease s

def Step (n : Net) (c : Call) (n' : Net) : Prop := call n c = some n'

/-- No socket, and no socket inode. -/
def noSockets : Net := ⟨fun _ => none, fun _ => none⟩

/-- The fields that links depend on. -/
def link (n : Net) (s : ℕ) : Option (SocketState × Option ℕ) :=
  (n.sockets s).map fun sock => (sock.state, sock.conn)

def connected (n : Net) (s : ℕ) : Bool := (link n s).any fun l => l.1 = .connected

def conn (n : Net) (s : ℕ) : Option ℕ := (link n s).bind (·.2)

/-- The socket that `s` writes to. -/
def peer (n : Net) (s : ℕ) : Option ℕ := if connected n s then conn n s else none

/-- Every link goes both ways. -/
def Symmetric (n : Net) : Prop := ∀ s t, peer n s = some t → peer n t = some s

/-- The call leaves no link with one half: who connects or closes is not linked to
another socket, the socket connected to is not itself connected, and the client that
is accepted has not been accepted elsewhere. -/
def Keeps (n : Net) : Call → Prop
  | .connect s found => ∀ ino ∈ found, ∀ server ∈ n.inodes ino, conn n server = none →
      (∀ t ∈ peer n s, t = s) ∧ (connected n server = true → server = s)
  | .accept s _ placed => ∀ client ∈ conn n s,
      if placed then client ≠ s ∧ ∀ t ∈ peer n client, t = client ∨ t = s else client = s
  | .release s => ∀ t ∈ peer n s, t = s
  | _ => True

instance (n : Net) (c : Call) : Decidable (Keeps n c) := by
  unfold Keeps
  split <;> infer_instance

variable {n n' : Net} {s t new : ℕ}

theorem peer_eq_some : peer n s = some t ↔ link n s = some (.connected, some t) := by
  unfold peer conn connected
  cases hl : link n s with
  | none => simp
  | some l =>
      obtain ⟨st, c⟩ := l
      by_cases hst : st = .connected <;> simp [hst]

@[simp] theorem link_setSocket (n : Net) (s : ℕ) (sock : Socket) :
    link (n.setSocket s sock) = Function.update (link n) s (some (sock.state, sock.conn)) := by
  funext t
  unfold link Net.setSocket
  by_cases ht : t = s
  · subst ht
    simp
  · simp [ht]

theorem Symmetric.congr (h : Symmetric n) (hl : link n' = link n) : Symmetric n' := by
  intro s t hst
  rw [peer_eq_some, hl] at hst ⊢
  rw [← peer_eq_some] at hst ⊢
  exact h s t hst

theorem Symmetric.create (h : Symmetric n) (hnew : link n new = none)
    (hl : link n' = Function.update (link n) new (some (.unconnected, none))) : Symmetric n' := by
  intro s t hst
  rw [peer_eq_some, hl] at hst ⊢
  by_cases hs : s = new
  · subst hs
    simp at hst
  · rw [Function.update_of_ne hs, ← peer_eq_some] at hst
    have hts := peer_eq_some.mp (h s t hst)
    have ht : t ≠ new := by
      rintro rfl
      simp [hnew] at hts
    rwa [Function.update_of_ne ht]

/-- The closing socket must not be linked to another one. -/
theorem Symmetric.close_iff (h : Symmetric n)
    (hl : link n' = Function.update (link n) s (some (.disconnecting, none))) :
    Symmetric n' ↔ ∀ t ∈ peer n s, t = s := by
  constructor
  · intro h' t ht
    by_contra hts
    have hback : link n t = some (.connected, some s) := peer_eq_some.mp (h s t ht)
    have hst := h' t s (by rw [peer_eq_some, hl, Function.update_of_ne hts, hback])
    rw [peer_eq_some, hl, Function.update_self] at hst
    simp at hst
  · intro hs x y hxy
    rw [peer_eq_some, hl] at hxy ⊢
    by_cases hx : x = s
    · subst hx
      simp at hxy
    · rw [Function.update_of_ne hx, ← peer_eq_some] at hxy
      have hyx := h x y hxy
      have hy : y ≠ s := by
        rintro rfl
        exact hx (hs x hyx)
      rwa [Function.update_of_ne hy, ← peer_eq_some]

/-- A client that is linked to another socket leaves its half there, and a server
that is connected would be linked to a client that is not. -/
theorem Symmetric.connect_iff {server : ℕ} {st : SocketState} (h : Symmetric n)
    (hserver : link n server = some (st, none))
    (hs : link n' s = some (.connecting, some server))
    (hserver' : server ≠ s → link n' server = some (st, some s))
    (hrest : ∀ x, x ≠ s → x ≠ server → link n' x = link n x) :
    Symmetric n' ↔ (∀ t ∈ peer n s, t = s) ∧ (connected n server = true → server = s) := by
  have hconn : connected n server = true ↔ st = .connected := by simp [connected, hserver]
  constructor
  · intro h'
    refine ⟨fun t ht => ?_, fun hc => ?_⟩
    · by_contra hts
      have hback : link n t = some (.connected, some s) := peer_eq_some.mp (h s t ht)
      have htserver : t ≠ server := by
        rintro rfl
        simp [hserver] at hback
      have hst := h' t s (by rw [peer_eq_some, hrest t hts htserver, hback])
      simp [peer_eq_some, hs] at hst
    · by_contra hne
      have hst := h' server s (by rw [peer_eq_some, hserver' hne, hconn.mp hc])
      simp [peer_eq_some, hs] at hst
  · rintro ⟨hpeer, hserverc⟩ x y hxy
    have hx : x ≠ s := by
      rintro rfl
      simp [peer_eq_some, hs] at hxy
    have hxserver : x ≠ server := by
      rintro rfl
      rw [peer_eq_some, hserver' hx] at hxy
      have hst : st = .connected := by simpa using congrArg (Option.map Prod.fst) hxy
      exact hx (hserverc (hconn.mpr hst))
    rw [peer_eq_some, hrest x hx hxserver, ← peer_eq_some] at hxy
    have hyx := h x y hxy
    have hy : y ≠ s := by
      rintro rfl
      exact hx (hpeer x hyx)
    have hyserver : y ≠ server := by
      rintro rfl
      simp [peer_eq_some, hserver] at hyx
    rwa [peer_eq_some, hrest y hy hyserver, ← peer_eq_some]

/-- The accepting socket passes its client on to a new one. -/
theorem Symmetric.accept_iff {client : ℕ} {st : SocketState} (h : Symmetric n)
    (hs : link n s = some (st, some client)) (hnew : link n new = none) (hcs : client ≠ s)
    (hnew' : link n' new = some (.connected, some client))
    (hclient' : link n' client = some (.connected, some new)) (hs' : link n' s = some (st, none))
    (hrest : ∀ x, x ≠ s → x ≠ client → x ≠ new → link n' x = link n x) :
    Symmetric n' ↔ ∀ t ∈ peer n client, t = client ∨ t = s := by
  constructor
  · intro h' t ht
    by_contra hne
    rw [not_or] at hne
    have hback : link n t = some (.connected, some client) := peer_eq_some.mp (h client t ht)
    have htnew : t ≠ new := by
      rintro rfl
      simp [hnew] at hback
    have hct := h' t client (by rw [peer_eq_some, hrest t hne.2 hne.1 htnew, hback])
    rw [peer_eq_some, hclient'] at hct
    exact htnew (by simpa using hct.symm)
  · intro hpeer x y hxy
    rw [peer_eq_some] at hxy ⊢
    by_cases hxnew : x = new
    · subst hxnew
      obtain rfl : client = y := by simpa [hnew'] using hxy
      exact hclient'
    · by_cases hxc : x = client
      · subst hxc
        obtain rfl : new = y := by simpa [hclient'] using hxy
        exact hnew'
      · have hxs : x ≠ s := by
          rintro rfl
          simp [hs'] at hxy
        rw [hrest x hxs hxc hxnew] at hxy
        have hyx := peer_eq_some.mp (h x y (peer_eq_some.mpr hxy))
        have hyc : y ≠ client := by
          rintro rfl
          cases hpeer x (peer_eq_some.mpr hyx) with
          | inl hx => exact hxc hx
          | inr hx => exact hxs hx
        have hys : y ≠ s := by
          rintro rfl
          rw [hs] at hyx
          simp only [Option.some.injEq, Prod.mk.injEq] at hyx
          exact hxc hyx.2.symm
        have hynew : y ≠ new := by
          rintro rfl
          simp [hnew] at hyx
        rwa [hrest y hys hyc hynew]

/-- A socket that accepts itself is left connected, to nobody. -/
theorem Symmetric.not_acceptSelf (hnew' : link n' new = some (.connected, some s)) {st : SocketState}
    (hs' : link n' s = some (st, none)) : ¬ Symmetric n' := by
  intro h'
  have hsn := peer_eq_some.mp (h' new s (peer_eq_some.mpr hnew'))
  simp [hs'] at hsn

/-- The new socket was freed: its client keeps a pointer to it. -/
theorem Symmetric.not_acceptFreed {client : ℕ}
    (hclient' : link n' client = some (.connected, some new)) (hnew' : link n' new = none) :
    ¬ Symmetric n' := by
  intro h'
  have hnc := peer_eq_some.mp (h' client new (peer_eq_some.mpr hclient'))
  simp [hnew'] at hnc

/-- Freed with the socket that accepted itself, no half is left. -/
theorem Symmetric.acceptSelfFreed (h : Symmetric n) {st st' : SocketState}
    (hs : link n s = some (st, some s)) (hnew : link n new = none) (hnew' : link n' new = none)
    (hs' : link n' s = some (st', none))
    (hrest : ∀ x, x ≠ s → x ≠ new → link n' x = link n x) : Symmetric n' := by
  intro x y hxy
  rw [peer_eq_some] at hxy ⊢
  have hxs : x ≠ s := by
    rintro rfl
    simp [hs'] at hxy
  have hxnew : x ≠ new := by
    rintro rfl
    simp [hnew'] at hxy
  rw [hrest x hxs hxnew] at hxy
  have hyx := peer_eq_some.mp (h x y (peer_eq_some.mpr hxy))
  have hys : y ≠ s := by
    rintro rfl
    rw [hs] at hyx
    simp only [Option.some.injEq, Prod.mk.injEq] at hyx
    exact hxs hyx.2.symm
  have hynew : y ≠ new := by
    rintro rfl
    simp [hnew] at hyx
  rwa [hrest y hys hynew]

/-! ## The calls -/

theorem link_of_sockets {sock : Socket} (h : n.sockets s = some sock) :
    link n s = some (sock.state, sock.conn) := by
  simp [link, h]

theorem unixConnect_link {found : Option ℕ} {r : ℤ} (h : n.unixConnect s found = some (r, n')) :
    (n' = n ∧ ∀ ino ∈ found, ∀ server ∈ n.inodes ino, conn n server ≠ none) ∨
      ∃ ino server st, found = some ino ∧ n.inodes ino = some server ∧
        link n server = some (st, none) ∧ link n' s = some (.connecting, some server) ∧
        (server ≠ s → link n' server = some (st, some s)) ∧
        ∀ x, x ≠ s → x ≠ server → link n' x = link n x := by
  unfold Net.unixConnect at h
  cases found with
  | none =>
      simp only [Option.pure_def, Option.some.injEq, Prod.mk.injEq] at h
      exact .inl ⟨h.2.symm, by simp⟩
  | some ino =>
      cases hino : n.inodes ino with
      | none =>
          simp only [hino, Option.pure_def, Option.some.injEq, Prod.mk.injEq] at h
          exact .inl ⟨h.2.symm, by simp [hino]⟩
      | some server =>
          simp only [hino] at h
          obtain ⟨server', hserver, h⟩ := Option.bind_eq_some_iff.mp h
          have hl := link_of_sockets hserver
          split_ifs at h with hbusy
          · simp only [Option.pure_def, Option.some.injEq, Prod.mk.injEq] at h
            refine .inl ⟨h.2.symm, ?_⟩
            intro ino' hino' server'' hserver''
            obtain rfl : ino = ino' := by simpa using hino'
            obtain rfl : server = server'' := by simpa [hino] using hserver''
            simp [conn, hl, ← Option.isSome_iff_ne_none, hbusy]
          · obtain ⟨sock, hs, h⟩ := Option.bind_eq_some_iff.mp h
            obtain ⟨server₁, hserver₁, h⟩ := Option.bind_eq_some_iff.mp h
            obtain ⟨sock₁, hs₁, h⟩ := Option.bind_eq_some_iff.mp h
            simp only [Option.pure_def, Option.some.injEq, Prod.mk.injEq] at h
            have hfree : server'.conn = none := by simpa using hbusy
            right
            refine ⟨ino, server, server'.state, rfl, hino, by rw [hl, hfree], ?_⟩
            rw [← h.2]
            by_cases hss : server = s
            · subst hss
              simp only [Net.setSocket, Function.update_self, Option.some.injEq] at hserver₁ hs₁
              subst hserver₁ hs₁
              refine ⟨by simp, fun hne => absurd rfl hne, fun x hx _ => ?_⟩
              simp [hx]
            · have hss' : s ≠ server := Ne.symm hss
              simp only [Net.setSocket, Function.update_of_ne hss, Function.update_of_ne hss',
                Function.update_self, Option.some.injEq] at hserver₁ hs₁
              rw [hserver, Option.some.injEq] at hserver₁
              subst hserver₁ hs₁
              refine ⟨by simp, fun _ => ?_, fun x hx hx' => ?_⟩
              · simp [Function.update_of_ne hss]
              · simp [hx, hx']

theorem unixAccept_link (hnew : n.sockets new = none) (h : n.unixAccept s new = some n') :
    ∃ client st, link n s = some (st, some client) ∧ new ≠ s ∧ new ≠ client ∧
      link n' new = some (.connected, some client) ∧
      (client ≠ s → link n' client = some (.connected, some new) ∧ link n' s = some (st, none)) ∧
      (client = s → link n' s = some (.connected, none)) ∧
      ∀ x, x ≠ s → x ≠ client → x ≠ new → link n' x = link n x := by
  unfold Net.unixAccept at h
  obtain ⟨sock, hs, h⟩ := Option.bind_eq_some_iff.mp h
  obtain ⟨client, hc, h⟩ := Option.bind_eq_some_iff.mp h
  obtain ⟨client', hclient, h⟩ := Option.bind_eq_some_iff.mp h
  obtain ⟨sock₁, hs₁, h⟩ := Option.bind_eq_some_iff.mp h
  obtain rfl := Option.some.inj h
  have hns : new ≠ s := by
    rintro rfl
    simp [hnew] at hs
  have hnc : new ≠ client := by
    rintro rfl
    simp [hnew] at hclient
  refine ⟨client, sock.state, by rw [link_of_sockets hs, hc], hns, hnc, ?_, ?_, ?_, ?_⟩
  · simp [hns, hnc]
  · intro hcs
    simp only [Net.setSocket, Function.update_of_ne hcs.symm, Function.update_of_ne hns.symm] at hs₁
    rw [hs, Option.some.injEq] at hs₁
    subst hs₁
    simp [hcs]
  · intro hcs
    subst hcs
    simp only [Net.setSocket, Function.update_self, Option.some.injEq] at hs₁
    subst hs₁
    simp
  · intro x hx hx' hx''
    simp [hx, hx', hx'']

theorem sysAccept_iff {placed : Bool} (hn : Symmetric n) (hnew : n.sockets new = none)
    (h : n.sysAccept s new placed = some n') : Symmetric n' ↔ Keeps n (.accept s new placed) := by
  unfold Net.sysAccept at h
  obtain ⟨n₁, hacc, h⟩ := Option.bind_eq_some_iff.mp h
  obtain ⟨client, st, hs, hns, hnc, hnew', hclient', hself, hrest⟩ := unixAccept_link hnew hacc
  have hnone : link n new = none := by simp [link, hnew]
  have hkeeps : Keeps n (.accept s new placed) ↔ if placed then
      client ≠ s ∧ ∀ t ∈ peer n client, t = client ∨ t = s else client = s := by
    simp [Keeps, conn, hs]
  rw [hkeeps]
  cases placed with
  | true =>
      obtain rfl : n₁ = n' := by simpa using h
      rw [if_pos rfl]
      by_cases hcs : client = s
      · subst hcs
        have hnot : ¬ Symmetric n₁ := Symmetric.not_acceptSelf hnew' (hself rfl)
        simp [hnot]
      · obtain ⟨hclient', hs'⟩ := hclient' hcs
        rw [hn.accept_iff hs hnone hcs hnew' hclient' hs' hrest]
        simp [hcs]
  | false =>
      have hlink : link n' = Function.update (link n₁) new none := by
        obtain rfl : { n₁ with sockets := Function.update n₁.sockets new none } = n' := by
          simpa using h
        funext x
        by_cases hx : x = new
        · subst hx
          simp [link]
        · simp [link, hx]
      rw [if_neg Bool.false_ne_true]
      constructor
      · intro h'
        by_contra hcs
        have hclient : link n' client = some (.connected, some new) := by
          rw [hlink, Function.update_of_ne hnc.symm]
          exact (hclient' hcs).1
        exact Symmetric.not_acceptFreed hclient (by simp [hlink]) h'
      · rintro rfl
        have hs' : link n' client = some (.connected, none) := by
          rw [hlink, Function.update_of_ne hns.symm]
          exact hself rfl
        refine hn.acceptSelfFreed hs hnone (by simp [hlink]) hs' fun x hx hx' => ?_
        · rw [hlink, Function.update_of_ne hx']
          exact hrest x hx hx hx'

theorem release_link (h : n.socketRelease s = some n') :
    link n' = Function.update (link n) s (some (.disconnecting, none)) := by
  unfold Net.socketRelease at h
  obtain ⟨n₁, h₁, h⟩ := Option.bind_eq_some_iff.mp h
  unfold Net.unixShutdown at h₁
  obtain ⟨sock, hs, h₁⟩ := Option.bind_eq_some_iff.mp h₁
  obtain rfl := Option.some.inj h₁
  obtain ⟨sock₁, hs₁, h⟩ := Option.bind_eq_some_iff.mp h
  obtain rfl := Option.some.inj h
  simp only [Net.setSocket, Function.update_self, Option.some.injEq] at hs₁
  subst hs₁
  simp

/-- A store that is not about the state or the peer. -/
theorem link_store {sock sock' : Socket} (hs : n.sockets s = some sock)
    (hst : sock'.state = sock.state) (hc : sock'.conn = sock.conn) :
    link (n.setSocket s sock') = link n := by
  rw [link_setSocket, hst, hc, ← link_of_sockets hs, Function.update_eq_self]

theorem bind_link {ino : ℕ} {registered : Bool} {r : ℤ}
    (h : n.unixBind s ino registered = some (r, n')) : link n' = link n := by
  unfold Net.unixBind at h
  obtain ⟨sock, hs, h⟩ := Option.bind_eq_some_iff.mp h
  split at h
  · cases h
    rfl
  · cases h
    have hl : link { n with inodes := Function.update n.inodes ino (some s) } = link n := rfl
    rw [← hl]
    exact link_store hs rfl rfl

theorem recvmsg_link {len : BitVec 32} {r : Option (List Byte)}
    (h : n.unixRecvmsg s len = some (r, n')) : link n' = link n := by
  unfold Net.unixRecvmsg at h
  obtain ⟨sock, hs, h⟩ := Option.bind_eq_some_iff.mp h
  split_ifs at h <;> cases h
  · rfl
  · exact link_store hs rfl rfl

theorem sendmsg_link {buf : Bytes} {len : BitVec 32} {r : ℤ}
    (h : n.unixSendmsg s buf len = some (r, n')) : link n' = link n := by
  unfold Net.unixSendmsg at h
  obtain ⟨sock, hs, h⟩ := Option.bind_eq_some_iff.mp h
  split_ifs at h
  · cases h
    rfl
  · cases hc : sock.conn with
    | none =>
        simp only [hc] at h
        cases h
        rfl
    | some peer =>
        simp only [hc] at h
        obtain ⟨peer', hpeer, h⟩ := Option.bind_eq_some_iff.mp h
        split_ifs at h <;> cases h
        · rfl
        · exact link_store hpeer rfl rfl

theorem call_iff {c : Call} (hn : Symmetric n) (h : Step n c n') : Symmetric n' ↔ Keeps n c := by
  unfold Step call at h
  cases c with
  | create new =>
      simp only at h
      split_ifs at h with hnew
      cases h
      have hlink : link n new = none := by simp [link, hnew]
      exact iff_of_true (hn.create hlink (by simp [Net.socketCreate])) trivial
  | bind s ino registered =>
      simp only [Option.map_eq_some_iff, Prod.exists, exists_eq_right] at h
      obtain ⟨r, h⟩ := h
      exact iff_of_true (hn.congr (bind_link h)) trivial
  | connect s found =>
      simp only [Option.map_eq_some_iff, Prod.exists, exists_eq_right] at h
      obtain ⟨r, h⟩ := h
      rcases unixConnect_link h with ⟨rfl, hbusy⟩ | ⟨ino, server, st, rfl, hino, hfree, hs, hserver, hrest⟩
      · refine iff_of_true hn ?_
        intro ino hino server hserver hfree
        exact absurd hfree (hbusy ino hino server hserver)
      · have hconn : conn n server = none := by simp [conn, hfree]
        simp only [Keeps, Option.mem_some_iff, forall_eq', hino, hconn, true_imp_iff]
        exact hn.connect_iff hfree hs hserver hrest
  | accept s new placed =>
      simp only at h
      split_ifs at h with hnew
      exact sysAccept_iff hn hnew h
  | read s len =>
      simp only [Option.map_eq_some_iff, Prod.exists, exists_eq_right] at h
      obtain ⟨r, h⟩ := h
      exact iff_of_true (hn.congr (recvmsg_link h)) trivial
  | write s buf len =>
      simp only [Option.map_eq_some_iff, Prod.exists, exists_eq_right] at h
      obtain ⟨r, h⟩ := h
      exact iff_of_true (hn.congr (sendmsg_link h)) trivial
  | release s => exact hn.close_iff (release_link h)

/-- What is written to a socket reaches its peer only. -/
theorem sendmsg_reaches {buf : Bytes} {len : BitVec 32} {r : ℤ} (h : n.unixSendmsg s buf len = some (r, n'))
    (ht : n'.sockets t ≠ n.sockets t) : peer n s = some t := by
  unfold Net.unixSendmsg at h
  obtain ⟨sock, hs, h⟩ := Option.bind_eq_some_iff.mp h
  split_ifs at h with hst
  · cases h
    exact absurd rfl ht
  · have hst : sock.state = .connected := not_not.mp hst
    cases hc : sock.conn with
    | none =>
        simp only [hc] at h
        cases h
        exact absurd rfl ht
    | some p =>
        simp only [hc] at h
        obtain ⟨p', hp, h⟩ := Option.bind_eq_some_iff.mp h
        split_ifs at h <;> cases h
        · exact absurd rfl ht
        · have htp : t = p := by
            by_contra htp
            simp [Net.setSocket, htp] at ht
          rw [peer_eq_some, link_of_sockets hs, hst, hc, htp]

theorem links_symmetric_iff {u : Net} {tr : List (Net × Call)} (h : Trace Step noSockets tr u) :
    Throughout Symmetric tr u ↔ ∀ x ∈ tr, Keeps x.1 x.2 := by
  refine h.throughout_iff (fun n c n' hn hs => call_iff hn hs) fun s t hst => ?_
  simp [peer_eq_some, link, noSockets] at hst

/-- The usual order, from two sockets to a link between 1 and 2. -/
def linkRun : List Call :=
  [.create 0, .bind 0 5 true, .create 1, .connect 1 (some 5), .accept 0 2 true]

theorem links_symmetric_iff_usual : ∃ u : Net, ∃ tr : List (Net × Call),
    Trace Step noSockets tr u ∧ peer u 1 = some 2 ∧ Throughout Symmetric tr u := by
  have hes : ((exec call noSockets linkRun).any fun u =>
      peer u 1 = some 2 && (history call noSockets linkRun).all fun x => Keeps x.1 x.2) = true := by
    decide
  obtain ⟨u, hu, hes⟩ := (Option.any_eq_true ..).mp hes
  obtain ⟨hlink, hall⟩ := Bool.and_eq_true_iff.mp hes
  have hkeeps : ∀ x ∈ history call noSockets linkRun, Keeps x.1 x.2 :=
    fun x hx => of_decide_eq_true (List.all_eq_true.mp hall x hx)
  exact ⟨u, _, exec_trace hu, of_decide_eq_true hlink, (links_symmetric_iff (exec_trace hu)).mpr hkeeps⟩

/-- One end is closed, and the other goes on being connected to it. -/
theorem not_links_symmetric_closed : ¬ ∀ (u : Net) (tr : List (Net × Call)),
    Trace Step noSockets tr u → Throughout Symmetric tr u := by
  intro h
  have hes : ((exec call noSockets (linkRun ++ [.release 1])).any fun u =>
      peer u 2 = some 1 && peer u 1 = none) = true := by
    decide
  obtain ⟨u, hu, hes⟩ := (Option.any_eq_true ..).mp hes
  obtain ⟨h21, h1⟩ := Bool.and_eq_true_iff.mp hes
  have h12 := (h u _ (exec_trace hu)).2 2 1 (of_decide_eq_true h21)
  rw [of_decide_eq_true h1] at h12
  cases h12

end Ferrite.Net
