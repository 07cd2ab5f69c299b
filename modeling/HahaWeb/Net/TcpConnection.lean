/-
  HahaWeb.Net.TcpConnection — `net/Socket`, `base/FileUtil` (`FileSendStream`) and
  `net/TcpConnection`: what a connection receives and sends.

  The kernel is a list of results, one for each system call. A loop that runs out of them
  is still in its call (`none`). What is sent is the list of the bytes that were taken,
  each with the function they were given to. The `int` that holds a length is exact for
  counts below 2^31; `errno` is passed from call to call.

  Not modelled: the logged byte counts, addresses and socket options. `setFileStream`
  builds a `FileSendStream` in its default mode, so `sendfile` is the only way of a file.
-/

import HahaWeb.Base.Buffer
import HahaWeb.Base.Util

namespace HahaWeb

open Buffer (SysRet)

/-- `EAGAIN` -/
def EAGAIN : Nat := 11

/-- The function that bytes are given to. -/
inductive Transport where
  | write
  | sendfile
  | sslWrite
  deriving DecidableEq, Repr

/-- What a connection has put on its descriptor. -/
abbrev Wire := List (Transport × Bytes)

/-- The bytes on the wire. -/
def Wire.bytes (wire : Wire) : Bytes := wire.flatMap (·.2)

/-- A system call sets `errno` when it fails. -/
def errnoAfter (errno : Nat) : SysRet → Nat
  | .fails e => e
  | .count _ => errno

/-- A loop that sends: `put` offers what `left` counts, and another round follows a positive
    length when the descriptor does not block and something is left. The last length, `errno`,
    the sender, the bytes taken and the results not used. -/
def sendLoop {σ : Type} (put : σ → SysRet → σ × Int × Bytes) (left : σ → Nat) (isBlocked : Bool) :
    List SysRet → Nat → σ → Option (Int × Nat × σ × Bytes × List SysRet)
  | [], _, _ => none
  | r :: rs, errno, s =>
    let errno := errnoAfter errno r
    let (s, len, out) := put s r
    if len ≤ 0 then some (len, errno, s, out, rs)
    else if !isBlocked && 0 < left s then
      (sendLoop put left isBlocked rs errno s).map fun (len, errno, s, out', rs) => (len, errno, s, out ++ out', rs)
    else some (len, errno, s, out, rs)

/-! ## `net/Socket` -/

/-- `ssl` for an `SslSocket`. -/
structure Socket where
  fd : Fd
  isBlocked : Bool
  ssl : Bool
  deriving DecidableEq, Repr

namespace Socket

/-- The function the socket's `send` gives its bytes to: `WriteFd` or `WriteSsl`. -/
def transport (s : Socket) : Transport := if s.ssl then .sslWrite else .write

/-- `Socket::send` and `SslSocket::send`. -/
def send (s : Socket) : List SysRet → Nat → Buffer → Option (Int × Nat × Buffer × Bytes × List SysRet) :=
  sendLoop Buffer.writeFd Buffer.readableBytes s.isBlocked

/-- `Socket::recv`: reads until one returns no bytes, or one read if the socket blocks. -/
def recv (s : Socket) : List (Except Nat Bytes) → Nat → Buffer → Option (Int × Nat × Buffer × List (Except Nat Bytes))
  | [], _, _ => none
  | r :: rs, errno, b =>
    let errno := match r with
      | .error e => e
      | .ok _ => errno
    let (b, len) := b.readFd r
    if len ≤ 0 ∨ s.isBlocked then some (len, errno, b, rs) else s.recv rs errno b

end Socket

/-! ## `FileSendStream` -/

/-- `content` is the file; the read offset of its descriptor is `sended`. -/
structure FileSendStream where
  content : Bytes
  remain : Nat
  sended : Nat
  remain_eq : sended + remain = content.length

namespace FileSendStream

/-- The constructor, of a file that can be opened. -/
def ofFile (content : Bytes) : FileSendStream := ⟨content, content.length, 0, by omega⟩

def sendable (s : FileSendStream) : Bool := 0 < s.remain

/-- One `sendfile` of what remains. -/
def put (s : FileSendStream) : SysRet → FileSendStream × Int × Bytes
  | .fails _ => (s, -1, [])
  | .count n =>
    (⟨s.content, s.remain - min n s.remain, s.sended + min n s.remain, by have := s.remain_eq; omega⟩,
      (min n s.remain : Nat), (s.content.drop s.sended).take (min n s.remain))

def send (isBlock : Bool) : List SysRet → Nat → FileSendStream → Option
    (Int × Nat × FileSendStream × Bytes × List SysRet) :=
  sendLoop put remain isBlock

end FileSendStream

/-! ## `net/TcpConnection` -/

/-- What a channel asks of its loop: `EPOLLIN` or `EPOLLOUT`, with `kConnectionEvent`. -/
inductive Events where
  | epollin
  | epollout
  deriving DecidableEq, Repr

structure Channel where
  loop : Nat
  events : Events
  deriving DecidableEq, Repr

/-- `context` is what the application keeps of the connection. -/
structure TcpConnection (C : Type) where
  sock : Socket
  recver : Buffer
  sender : Buffer
  channel : Option Channel
  fileSender : Option FileSendStream
  disconnected : Bool
  keepAlive : Bool
  context : Option C

namespace TcpConnection

inductive Status where
  | again
  | completed
  | error
  | closed
  deriving DecidableEq, Repr

variable {C : Type}

def new (sock : Socket) : TcpConnection C := ⟨sock, .empty, .empty, none, none, false, false, none⟩

/-- `recv`, with the results of `readv`. -/
def recv (conn : TcpConnection C) (rs : List (Except Nat Bytes)) (errno : Nat) :
    Option (Status × Nat × TcpConnection C × List (Except Nat Bytes)) :=
  (conn.sock.recv rs errno conn.recver).map fun (len, errno, recver, rs) =>
    (if 0 < len then .again
      else if len < 0 ∧ errno = EAGAIN then .again
      else if len = 0 then .closed
      else .error, errno, { conn with recver := recver }, rs)

theorem recv_eq {conn conn' : TcpConnection C} {rs rest : List (Except Nat Bytes)} {errno errno' : Nat}
    {status : Status}
    (h : conn.recv rs errno = some (status, errno', conn', rest)) :
    ∃ recver, conn' = { conn with recver := recver } := by
  obtain ⟨r, -, hr⟩ := Option.map_eq_some_iff.mp h
  cases hr
  exact ⟨_, rfl⟩

def fileSendable (conn : TcpConnection C) : Bool := conn.fileSender.any FileSendStream.sendable

def sendable (conn : TcpConnection C) : Bool := conn.fileSendable || 0 < conn.sender.readableBytes

/-- The first part of `send`: the send buffer. `len` is -10086 when it is empty. -/
def sendBuffer (conn : TcpConnection C) (rs : List SysRet) (errno : Nat) :
    Option (Int × Nat × TcpConnection C × Wire × List SysRet) :=
  if 0 < conn.sender.readableBytes then
    (conn.sock.send rs errno conn.sender).map fun (len, errno, sender, out, rs) =>
      (len, errno, { conn with sender := sender }, [(conn.sock.transport, out)], rs)
  else some (-10086, errno, conn, [], rs)

/-- The second part: the file, when the buffer is empty. -/
def sendFile (conn : TcpConnection C) (len : Int) (rs : List SysRet) (errno : Nat) :
    Option (Int × Nat × TcpConnection C × Wire × List SysRet) :=
  match conn.fileSender with
  | some file =>
    if file.sendable ∧ conn.sender.readableBytes = 0 ∧ (0 < len ∨ len = -10086) then
      (FileSendStream.send conn.sock.isBlocked rs errno file).map fun (len, errno, file, out, rs) =>
        (len, errno, { conn with fileSender := some file }, [(.sendfile, out)], rs)
    else some (len, errno, conn, [], rs)
  | none => some (len, errno, conn, [], rs)

/-- The status `send` infers from the last length, `errno` and what is left. -/
def sendStatus (len : Int) (errno : Nat) (sendable : Bool) : Status :=
  if 0 < len ∧ sendable = false then .completed
  else if len < 0 ∧ errno = EAGAIN ∧ sendable then .again
  else if len = 0 then .closed
  else .error

/-- `send`: the status, `errno`, the connection, what was put on the wire and the results
    not used. -/
def send (conn : TcpConnection C) (rs : List SysRet) (errno : Nat) :
    Option (Status × Nat × TcpConnection C × Wire × List SysRet) := do
  let (len, errno, conn, wire, rs) ← conn.sendBuffer rs errno
  let (len, errno, conn, wire', rs) ← conn.sendFile len rs errno
  some (sendStatus len errno conn.sendable, errno, conn, wire ++ wire', rs)

def setKeepAlive (conn : TcpConnection C) (is : Bool) : TcpConnection C := { conn with keepAlive := is }

def setContext (conn : TcpConnection C) (context : Option C) : TcpConnection C := { conn with context := context }

/-- `setFileStream`, of a file with the given content. -/
def setFileStream (conn : TcpConnection C) (content : Bytes) : TcpConnection C :=
  { conn with fileSender := some (.ofFile content) }

end TcpConnection

end HahaWeb
