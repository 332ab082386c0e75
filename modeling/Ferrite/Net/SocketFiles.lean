import Ferrite.Fs.DescriptorCounts
import Ferrite.Net.UnixLinks

/-!
# Descriptors and the sockets behind them

The tables of descriptors together with the sockets. `sys_close` and `do_exit` call the
operation `release` of a file, which only sockets have, and then `file_put`. A call returns
the files whose release it ran, in their order.

The socket of a file is `u.i_socket` of its inode. What bind, listen, connect and the
transfers do to the sockets is a call of its own here, of which nothing is said.
-/
namespace Ferrite.Net
open Fs Runs Sys Tables

/-- `payload` is `u.i_socket` of the inodes with the mode of a socket, if it is not `NULL`. -/
structure SocketFiles where
  tables : FileTables
  net : Net
  payload : ℕ → Option ℕ

namespace SocketFiles
variable (s : SocketFiles)

def setTables (tables : FileTables) : SocketFiles := { s with tables := tables }

/-- `socket_release` for an inode. -/
def socketRelease (node : ℕ) : Option SocketFiles :=
  match s.payload node with
  | none => some s
  | some k => (s.net.socketRelease k).map fun net => { s with net := net }

/-- The operation `release` of a file, if it has one. -/
def release (f : ℕ) : Option (List ℕ × SocketFiles) := do
  let file ← s.tables.files f
  if file.op = some .socket then
    let s ← s.socketRelease file.inode
    return ([f], s)
  else return ([], s)

/-- What `sys_close` and `do_exit` do with an entry of the table. -/
def closeEntry (p : Slot) (fd f : ℕ) : Option (List ℕ × SocketFiles) := do
  let (released, s) ← (s.setTables (s.tables.setOpen p fd none)).release f
  let tables ← s.tables.filePut f
  return (released, s.setTables tables)

def sysClose (p : Slot) (fd : ℤ) : Option (ℤ × List ℕ × SocketFiles) :=
  match s.tables.fdGet p fd with
  | none => some (-1, [], s)
  | some (.file f) => (s.closeEntry p fd.toNat f).map fun r => (0, r)
  | some (.proc _) => none

def exitOne (p : Slot) (fd : ℕ) : Option (List ℕ × SocketFiles) :=
  match (s.tables.procs p).openFiles fd with
  | none => some ([], s)
  | some f => s.closeEntry p fd f

def exitFrom (p : Slot) : ℕ → ℕ → SocketFiles → Option (List ℕ × SocketFiles)
  | 0, _, s => some ([], s)
  | n + 1, fd, s => do
      let (first, s) ← s.exitOne p fd
      let (rest, s) ← exitFrom p n (fd + 1) s
      return (first ++ rest, s)

def doExit (p : Slot) : Option (List ℕ × SocketFiles) := do
  let (released, s) ← exitFrom p maxOpenFiles 0 (s.setTables ((s.tables.adopt p).putDirs p))
  return (released, s.setTables (s.tables.setState p .zombie))

/-- A new socket file. `socket_create` makes the socket, `sys_accept` has it already. -/
def place (p : Slot) (socket : Except ℤ (ℕ × ℕ)) (mem : Option (ℕ × File)) :
    Option (ℤ × SocketFiles) := do
  let (r, tables) ← s.tables.socketCreate p (socket.map Prod.fst) mem
  let s := s.setTables tables
  match socket with
  | .error _ => return (r, s)
  | .ok (n, k) => return (r, { s with payload := Function.update s.payload n (some k) })

def socketCreate (p : Slot) (socket : Except ℤ (ℕ × ℕ)) (mem : Option (ℕ × File)) :
    Option (ℤ × SocketFiles) :=
  match socket with
  | .error r => some (r, s)
  | .ok (n, k) => { s with net := s.net.socketCreate k }.place p (.ok (n, k)) mem

end SocketFiles

/-! ## Calls -/

/-- `accepted` is the descriptor of a socket that `unix_accept` has filled, and `sockets` all
other calls on sockets. -/
inductive SocketCall
  | open (p : Slot) (env : OpenEnv) (flags : BitVec 32)
  | socket (p : Slot) (socket : Except ℤ (ℕ × ℕ)) (mem : Option (ℕ × File))
  | accepted (p : Slot) (socket : Except ℤ (ℕ × ℕ)) (mem : Option (ℕ × File))
  | close (p : Slot) (fd : ℤ)
  | fork (p : Slot) (kstack pgdir copied : Bool)
  | exit (p : Slot)
  | reap (p c : Slot)
  | sockets (p : Slot) (net : Net)

namespace SocketCall

def caller : SocketCall → Slot
  | .open p _ _ | .socket p _ _ | .accepted p _ _ | .close p _ | .fork p _ _ _ | .exit p | .reap p _
  | .sockets p _ => p

/-- The `file_t` that `kmalloc` would return. -/
def mem : SocketCall → Option (ℕ × File)
  | .open _ env _ => env.mem
  | .socket _ _ mem | .accepted _ _ mem => mem
  | _ => none

end SocketCall

def SocketFiles.call (s : SocketFiles) : SocketCall → Option (List ℕ × SocketFiles)
  | .open p env flags => (s.tables.sysOpen p env flags).map fun r => ([], s.setTables r.2)
  | .socket p socket mem => (s.socketCreate p socket mem).map fun r => ([], r.2)
  | .accepted p socket mem => (s.place p socket mem).map fun r => ([], r.2)
  | .close p fd => (s.sysClose p fd).map Prod.snd
  | .fork p kstack pgdir copied =>
      (s.tables.doFork p kstack pgdir copied).map fun tables => ([], s.setTables tables)
  | .exit p => s.doExit p
  | .reap p c =>
      if (s.tables.procs c).state = .zombie ∧ (s.tables.procs c).parent = some p then
        some ([], s.setTables (s.tables.reap p c))
      else none
  | .sockets _ net => some ([], { s with net := net })

/-- The caller is live, and `kmalloc` returns nothing that is allocated. -/
def SocketStep (s : SocketFiles) (e : SocketCall) (t : SocketFiles) : Prop :=
  (s.tables.procs e.caller).state.Alive ∧ (∀ m ∈ e.mem, s.tables.files m.1 = none) ∧
    (∀ p n k mem, e = .socket p (.ok (n, k)) mem → s.net.sockets k = none) ∧
    ∃ released, s.call e = some (released, t)

/-! ## The tables under the calls -/

namespace SocketFiles
variable {s t : SocketFiles} {p : Slot} {f fd n : ℕ} {released : List ℕ}

theorem socketRelease_tables {node : ℕ} (h : s.socketRelease node = some t) :
    t.tables = s.tables ∧ t.payload = s.payload := by
  unfold socketRelease at h
  split at h
  · cases h
    exact ⟨rfl, rfl⟩
  · obtain ⟨net, _, rfl⟩ := Option.map_eq_some_iff.mp h
    exact ⟨rfl, rfl⟩

/-- What the release of a file is: nothing for one without the operation, and the end of the
connection for a socket. -/
theorem release_spec (h : s.release f = some (released, t)) :
    t.tables = s.tables ∧ t.payload = s.payload ∧ ∃ file, s.tables.files f = some file ∧
      ((file.op ≠ some .socket ∧ released = [] ∧ t = s) ∨
        (file.op = some .socket ∧ released = [f] ∧
          ((s.payload file.inode = none ∧ t = s) ∨
            ∃ k, s.payload file.inode = some k ∧
              link t.net = Function.update (link s.net) k (some (.disconnecting, none))))) := by
  obtain ⟨file, hfile, h⟩ := Option.bind_eq_some_iff.mp h
  split at h
  · rename_i hop
    obtain ⟨u, hu, h⟩ := Option.bind_eq_some_iff.mp h
    cases h
    have ⟨htables, hpayload⟩ := socketRelease_tables hu
    refine ⟨htables, hpayload, file, hfile, .inr ⟨hop, rfl, ?_⟩⟩
    unfold socketRelease at hu
    split at hu
    · rename_i hnone
      cases hu
      exact .inl ⟨hnone, rfl⟩
    · rename_i k hk
      obtain ⟨net, hnet, rfl⟩ := Option.map_eq_some_iff.mp hu
      exact .inr ⟨k, hk, release_link hnet⟩
  · rename_i hop
    cases h
    exact ⟨rfl, rfl, file, hfile, .inl ⟨hop, rfl, rfl⟩⟩

theorem closeEntry_tables (h : s.closeEntry p fd f = some (released, t)) :
    (s.tables.setOpen p fd none).filePut f = some t.tables := by
  obtain ⟨⟨log, u⟩, hrel, h⟩ := Option.bind_eq_some_iff.mp h
  obtain ⟨tables, hput, heq⟩ := Option.bind_eq_some_iff.mp h
  cases heq
  rw [(release_spec hrel).1] at hput
  exact hput

/-- The tables after a close are those of the call without sockets. -/
theorem sysClose_tables {z : ℤ} {r : ℤ} (h : s.sysClose p z = some (r, released, t)) :
    s.tables.sysClose p z = some (r, t.tables) := by
  unfold sysClose at h
  split at h
  · rename_i hget
    cases h
    unfold FileTables.sysClose
    rw [hget]
  · rename_i g hget
    obtain ⟨⟨log, u⟩, hclose, heq⟩ := Option.map_eq_some_iff.mp h
    cases heq
    unfold FileTables.sysClose
    rw [hget]
    simp only
    rw [closeEntry_tables hclose]
    rfl
  · cases h

theorem exitFrom_tables (h : exitFrom p n fd s = some (released, t)) :
    FileTables.exitFrom p n fd s.tables = some t.tables := by
  induction n generalizing fd s released with
  | zero =>
      cases h
      rfl
  | succ n ih =>
      obtain ⟨⟨first, u⟩, hu, h⟩ := Option.bind_eq_some_iff.mp h
      obtain ⟨⟨rest, v⟩, hv, h⟩ := Option.bind_eq_some_iff.mp h
      cases h
      have hone : s.tables.exitOne p fd = some u.tables := by
        unfold exitOne at hu
        split at hu
        · rename_i hnone
          cases hu
          unfold FileTables.exitOne
          rw [hnone]
        · rename_i f hopen
          unfold FileTables.exitOne
          rw [hopen]
          exact closeEntry_tables hu
      unfold FileTables.exitFrom
      rw [hone]
      exact ih hv

/-- The tables after an exit are those of the call without sockets. -/
theorem doExit_tables (h : s.doExit p = some (released, t)) : s.tables.doExit p = some t.tables := by
  obtain ⟨⟨log, u⟩, hu, h⟩ := Option.bind_eq_some_iff.mp h
  cases h
  unfold FileTables.doExit
  have hloop : FileTables.exitFrom p maxOpenFiles 0 ((s.tables.adopt p).putDirs p) = some u.tables :=
    exitFrom_tables hu
  rw [hloop]
  rfl

end SocketFiles
end Ferrite.Net
