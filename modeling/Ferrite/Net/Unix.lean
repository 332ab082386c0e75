import Ferrite.Library.Packed
import Ferrite.Library.Word

/-!
# Stream sockets of the family `AF_UNIX`

A `socket_t*` is a number, and memory maps it to the socket while it is
allocated. A path is resolved outside of this module: what the functions see of
the file system is the inode number that `vfs_lookup` found, and the socket that
`unix_bind` has left in that inode, which stays there for good.
-/
namespace Ferrite.Net
open Packed Word

/-- The size of `buffer` in `unix_sock_t`. -/
def bufferSize : ℕ := 4096

/-- `socket_state_e` without `SS_FREE`, which is a socket that is not allocated. -/
inductive SocketState
  | unconnected | connecting | connected | disconnecting
deriving DecidableEq, Repr

/-- `unix_sock_t`; of the path it only matters whether it is empty. -/
structure UnixSock where
  named : Bool
  buffer : Bytes
  bufLen : ℕ

structure Socket where
  state : SocketState
  conn : Option ℕ
  data : UnixSock

structure Net where
  sockets : ℕ → Option Socket
  /-- The field `u.i_socket` of the socket inodes, by inode number. -/
  inodes : ℕ → Option ℕ

namespace UnixSock
variable (u : UnixSock)

/-- After `memset`. -/
def zero : UnixSock := ⟨false, fun _ => 0, 0⟩

/-- The free space of the buffer, as `size_t`. -/
def room : ℕ := wsub bufferSize u.bufLen

/-- The number of bytes `unix_sendmsg` takes. -/
def toCopy (len : BitVec 32) : ℕ := if len.toNat > u.room then u.room else len.toNat

/-- The first `memcpy`, and then the new length. -/
def append (buf : Bytes) (n : ℕ) : UnixSock := { u with buffer := copy n u.buffer u.bufLen buf 0 }
def grow (n : ℕ) : UnixSock := { u with bufLen := wadd u.bufLen n }

/-- The number of bytes `unix_recvmsg` takes. -/
def toRead (len : BitVec 32) : ℕ := if len.toNat < u.bufLen then len.toNat else u.bufLen

/-- The bytes at the front of the buffer. -/
def front (n : ℕ) : List Byte := (List.range n).map u.buffer

/-- The `memmove` behind the bytes taken, and then the new length. -/
def shift (n : ℕ) : UnixSock :=
  if n < u.bufLen then { u with buffer := copy (wsub u.bufLen n) u.buffer 0 u.buffer n } else u
def shrink (n : ℕ) : UnixSock := { u with bufLen := wsub u.bufLen n }

/-- What the buffer holds. -/
def content : List Byte := u.front u.bufLen

end UnixSock

namespace Net
variable (n : Net)

def setSocket (s : ℕ) (sock : Socket) : Net :=
  { n with sockets := Function.update n.sockets s (some sock) }

/-- `socket_create`, after the allocations; `new` is the address of the socket. -/
def socketCreate (new : ℕ) : Net := n.setSocket new ⟨.unconnected, none, .zero⟩

/-- `unix_bind` from where the inode of the socket exists. The allocation that
registers the socket can still fail. -/
def unixBind (s ino : ℕ) (registered : Bool) : Option (ℤ × Net) := do
  let sock ← n.sockets s
  if sock.data.named then
    return (-22, n)
  else do
    let n := { n with inodes := Function.update n.inodes ino (some s) }
    let n := n.setSocket s { sock with data := { sock.data with named := registered } }
    return (if registered then 0 else -1, n)

/-- `unix_connect`, with the inode that `vfs_lookup` finds. A socket that is not
allocated any more has no fields to read. -/
def unixConnect (s : ℕ) (found : Option ℕ) : Option (ℤ × Net) := do
  match found with
  | none => return (-2, n)
  | some ino =>
      match n.inodes ino with
      | none => return (-111, n)
      | some server => do
          let server' ← n.sockets server
          if server'.conn.isSome then return (-1, n)
          else do
            let sock ← n.sockets s
            let n := n.setSocket s { sock with conn := some server }
            let server' ← n.sockets server
            let n := n.setSocket server { server' with conn := some s }
            let sock ← n.sockets s
            return (0, n.setSocket s { sock with state := .connecting })

/-- `unix_accept` once `s->conn` is set; the client must not have been freed. -/
def unixAccept (s new : ℕ) : Option Net := do
  let sock ← n.sockets s
  let client ← sock.conn
  let client' ← n.sockets client
  let n := n.setSocket new ⟨.connected, some client, .zero⟩
  let n := n.setSocket client { client' with state := .connected, conn := some new }
  let sock ← n.sockets s
  return n.setSocket s { sock with conn := none }

/-- The rest of `sys_accept`: the socket is freed when no inode is left for it. -/
def sysAccept (s new : ℕ) (placed : Bool) : Option Net := do
  let n ← n.unixAccept s new
  return if placed then n else { n with sockets := Function.update n.sockets new none }

/-- `unix_recvmsg`. -/
def unixRecvmsg (s : ℕ) (len : BitVec 32) : Option (Option (List Byte) × Net) := do
  let sock ← n.sockets s
  if sock.state ≠ .connected ∨ sock.data.bufLen = 0 then return (none, n)
  else
    let k := sock.data.toRead len
    return (some (sock.data.front k), n.setSocket s { sock with data := (sock.data.shift k).shrink k })

/-- `unix_sendmsg`. -/
def unixSendmsg (s : ℕ) (buf : Bytes) (len : BitVec 32) : Option (ℤ × Net) := do
  let sock ← n.sockets s
  if sock.state ≠ .connected then return (-1, n)
  else
    match sock.conn with
    | none => return (-1, n)
    | some peer => do
        let peer' ← n.sockets peer
        let k := peer'.data.toCopy len
        if k = 0 then return (0, n)
        else return (k, n.setSocket peer { peer' with data := (peer'.data.append buf k).grow k })

/-- `unix_shutdown`. -/
def unixShutdown (s : ℕ) : Option Net := do
  let sock ← n.sockets s
  return n.setSocket s { sock with state := .disconnecting, conn := none }

/-- `socket_release`. -/
def socketRelease (s : ℕ) : Option Net := do
  let n ← n.unixShutdown s
  let sock ← n.sockets s
  return n.setSocket s { sock with data := { sock.data with named := false } }

end Net

end Ferrite.Net
