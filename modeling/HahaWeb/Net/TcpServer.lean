/-
  HahaWeb.Net.TcpServer — `net/Channel`, `net/Epoller`, `net/EventLoop` and
  `net/TcpServer`: the connections, the loops that serve them, and the callbacks.

  A callback is a function of the state, `none` when it does not return: a call of it is
  still waiting for the kernel, or throws. A connection is an object with an identity; who
  refers to it weakly (a timer, a channel's callback, a queued task) has its identity, and
  `lock` tells whether it still exists: the table has it, or its own context, which
  refers back to it. What a channel asks for is armed once: a report of `epoll_wait` leaves
  it `reported` until its callback begins, so the reports of one `epoll_wait` are handled
  one after the other, with the callbacks of other loops between them.

  Not modelled: the loop's own channels and `assertInLoopThread`. A channel may be reported
  together with the event whose callback destroys it: the call through it is no step here, but
  one of the loops that have their batches (`Net.Batch`, `Http.ServerBatches`). The kernel's
  registration of a closed descriptor is gone before: `delChannel` comes first.
-/

import HahaWeb.Net.TcpConnection
import HahaWeb.Net.TimerHeap

namespace HahaWeb

/-- `MESSAGE_STATUS` -/
inductive MessageStatus where
  | ok
  | again
  deriving DecidableEq, Repr

/-- An object of type `TcpConnection`. -/
abbrev ConnId := Nat

/-! ## `net/EventLoop` -/

/-- The callback that `handleEvents` picks for what is reported. -/
inductive Ready where
  | read
  | write
  | close
  deriving DecidableEq, Repr

inductive Arming where
  | armed
  | reported (ready : Ready)
  | disarmed
  deriving DecidableEq, Repr

/-- What is registered for a descriptor; `conn` is the connection of the channel. -/
structure Registration where
  conn : ConnId
  events : Events
  arming : Arming
  deriving DecidableEq, Repr

/-- What a registration can be reported for: a hang-up or an error always can. -/
def Registration.Reports (reg : Registration) (ready : Ready) : Prop :=
  reg.arming = .armed ∧
    (ready = .close ∨ (ready = .read ∧ reg.events = .epollin) ∨ (ready = .write ∧ reg.events = .epollout))

instance (reg : Registration) (ready : Ready) : Decidable (reg.Reports ready) := inferInstanceAs (Decidable (_ ∧ _))

/-- `tasks` are the calls of `onConnect` that are queued. -/
structure EventLoop where
  epoll : Fd → Option Registration
  timers : TimerHeap ConnId
  tasks : List ConnId

namespace EventLoop

def new : EventLoop := ⟨fun _ => none, .new, []⟩

/-- `EPOLL_CTL_ADD` fails when there is a registration. -/
def addChannel (loop : EventLoop) (fd : Fd) (conn : ConnId) (events : Events) : EventLoop :=
  if (loop.epoll fd).isSome then loop
  else { loop with epoll := Function.update loop.epoll fd (some ⟨conn, events, .armed⟩) }

/-- `EPOLL_CTL_MOD` fails when there is none. -/
def modChannel (loop : EventLoop) (fd : Fd) (conn : ConnId) (events : Events) : EventLoop :=
  if (loop.epoll fd).isSome then { loop with epoll := Function.update loop.epoll fd (some ⟨conn, events, .armed⟩) }
  else loop

def delChannel (loop : EventLoop) (fd : Fd) : EventLoop := { loop with epoll := Function.update loop.epoll fd none }

def setArming (loop : EventLoop) (fd : Fd) (arming : Arming) : EventLoop :=
  { loop with epoll := Function.update loop.epoll fd ((loop.epoll fd).map fun reg => { reg with arming := arming }) }

/-- An operation on the timers. -/
def onTimers (loop : EventLoop) (f : TimerHeap ConnId → Except Fault (TimerHeap ConnId)) : Option EventLoop :=
  (f loop.timers).toOption.map fun timers => { loop with timers := timers }

def addTimer (loop : EventLoop) (timer : Timer ConnId) : Option EventLoop := loop.onTimers (·.push timer)

def adjustTimer (loop : EventLoop) (fd : Fd) (expire : Nat) : Option EventLoop := loop.onTimers (·.adjust fd expire)

def delTimer (loop : EventLoop) (fd : Fd) : Option EventLoop := loop.onTimers (·.remove fd)

end EventLoop

/-! ## `net/TcpServer` -/

/-- `loops` are the workers, of which there are `numThread`, and `next` is the one that
    gets the next connection. -/
structure TcpServer (C : Type) where
  numThread : Nat
  loops : Nat → EventLoop
  next : Nat
  conns : ConnId → Option (TcpConnection C)
  connects : Fd → Option ConnId

namespace TcpServer

variable {C A : Type}

def start (numThread : Nat) : TcpServer C := ⟨numThread, fun _ => .new, 0, fun _ => none, fun _ => none⟩

def setLoop (s : TcpServer C) (l : Nat) (loop : EventLoop) : TcpServer C :=
    { s with loops := Function.update s.loops l loop }

def setConn (s : TcpServer C) (c : ConnId) (conn : TcpConnection C) : TcpServer C :=
  { s with conns := Function.update s.conns c (some conn) }

/-- An operation on a loop. -/
def onLoop (s : TcpServer C) (l : Nat) (f : EventLoop → Option EventLoop) : Option (TcpServer C) :=
  (f (s.loops l)).map (s.setLoop l)

/-- `weak_conn.lock()`: the connection is in the table, or has a context. -/
def lock (s : TcpServer C) (c : ConnId) : Option (TcpConnection C) :=
  (s.conns c).filter fun conn => s.connects conn.sock.fd = some c || conn.context.isSome

/-- A connection that exists, is not disconnected and has a channel. -/
def live (s : TcpServer C) (c : ConnId) : Option (TcpConnection C × Channel) := do
  let conn ← s.lock c
  let ch ← conn.channel
  if conn.disconnected then none else some (conn, ch)

/-- `handleServerAccept`, of a connection that `accept` returned. -/
def handleServerAccept (s : TcpServer C) (c : ConnId) (sock : Socket) : TcpServer C :=
  let conn := TcpConnection.new { sock with isBlocked := false }
  let conn := { conn with channel := some ⟨s.next, .epollin⟩ }
  let loop := s.loops s.next
  let s := { s.setConn c conn with connects := Function.update s.connects sock.fd (some c) }
  { s.setLoop s.next { loop with tasks := loop.tasks ++ [c] } with
    next := if s.numThread ≤ s.next + 1 then 0 else s.next + 1 }

def handleConnectionClose (s : TcpServer C) (c : ConnId) : TcpServer C :=
  match s.live c with
  | none => s
  | some (conn, ch) =>
    let s := s.setLoop ch.loop ((s.loops ch.loop).delChannel conn.sock.fd)
    { s.setConn c { conn with disconnected := true } with connects := Function.update s.connects conn.sock.fd none }

def onConnect (s : TcpServer C) (c : ConnId) (expire : Nat) : Option (TcpServer C) :=
  match s.lock c with
  | none => some s
  | some conn => do
    let ch ← conn.channel
    let s := s.setLoop ch.loop ((s.loops ch.loop).addChannel conn.sock.fd c ch.events)
    s.onLoop ch.loop (·.addTimer ⟨conn.sock.fd, expire, c⟩)

/-- `setEvents`, then `modChannel`. -/
def rearm (s : TcpServer C) (l : Nat) (c : ConnId) (conn : TcpConnection C) (events : Events) : TcpServer C :=
  (s.setConn c { conn with channel := conn.channel.map fun ch => { ch with events := events } }).setLoop l
    ((s.loops l).modChannel conn.sock.fd c events)

/-- `delTimer`, then `handleConnectionClose`. -/
def delTimerAndClose (s : TcpServer C) (l : Nat) (c : ConnId) (fd : Fd) : Option (TcpServer C) :=
  (s.onLoop l (·.delTimer fd)).map (·.handleConnectionClose c)

/-! ### Reading and writing -/

/-- `onMessage` of the server, with what it reads from outside. -/
abbrev App (C A : Type) := A → TcpConnection C → Except Fault (MessageStatus × TcpConnection C)

variable (onMessage : App C A)

def onRecv (s : TcpServer C) (c : ConnId) (a : A) (rs : List (Except Nat Bytes)) (errno : Nat) : Option (TcpServer C) :=
  match s.lock c with
  | none => some s
  | some conn => do
    let (status, _, conn, _) ← conn.recv rs errno
    let ch ← conn.channel
    if status = .closed ∨ status = .error then (s.setConn c conn).delTimerAndClose ch.loop c conn.sock.fd
    else do
      let (status, conn) ← (onMessage a conn).toOption
      some (s.rearm ch.loop c conn (if status = .again then .epollin else .epollout))

def onSend (s : TcpServer C) (c : ConnId) (rs : List Buffer.SysRet) (errno : Nat) : Option (TcpServer C) :=
  match s.lock c with
  | none => some s
  | some conn => do
    let (status, _, conn, _, _) ← conn.send rs errno
    let ch ← conn.channel
    match status with
    | .completed =>
      if conn.keepAlive then some (s.rearm ch.loop c conn .epollin)
      else (s.setConn c conn).delTimerAndClose ch.loop c conn.sock.fd
    | .again => some (s.rearm ch.loop c conn .epollout)
    | _ => (s.setConn c conn).delTimerAndClose ch.loop c conn.sock.fd

/-- `adjustTimer`, then the callback itself: `handleConnectionRead` and `handleConnectionWrite`. -/
def serve (s : TcpServer C) (c : ConnId) (expire : Nat) (callback : TcpServer C → Option (TcpServer C)) :
    Option (TcpServer C) :=
  match s.live c with
  | none => some s
  | some (conn, ch) => (s.onLoop ch.loop (·.adjustTimer conn.sock.fd expire)).bind callback

def handleConnectionRead (s : TcpServer C) (c : ConnId) (expire : Nat) (a : A) (rs : List (Except Nat Bytes))
    (errno : Nat) :
    Option (TcpServer C) :=
  s.serve c expire fun s => s.onRecv onMessage c a rs errno

def handleConnectionWrite (s : TcpServer C) (c : ConnId) (expire : Nat) (rs : List Buffer.SysRet) (errno : Nat) :
    Option (TcpServer C) :=
  s.serve c expire fun s => s.onSend c rs errno

/-- `handleTimeout` of a loop's timers: each round fires the first timer and takes it out,
    so there are no more rounds than timers. -/
def handleTimeout (s : TcpServer C) (l : Nat) (now : Nat) : Nat → Option (TcpServer C)
  | 0 => some s
  | rounds + 1 =>
    match (s.loops l).timers.top with
    | none => some s
    | some timer =>
      if timer.expire ≤ now then
        ((s.handleConnectionClose timer.cb).onLoop l (·.onTimers TimerHeap.pop)).bind fun s => s.handleTimeout l
        now rounds
      else some s

/-! ## Runs -/

/-- What happens next, with the answers of the kernel: a connection is accepted; a loop runs
    a task; `epoll_wait` reports a descriptor; its callback is called; the timer of a loop
    goes off. -/
inductive Event (A : Type) where
  | accept (c : ConnId) (sock : Socket)
  | task (l : Nat) (expire : Nat)
  | report (l : Nat) (fd : Fd) (ready : Ready)
  | read (l : Nat) (fd : Fd) (expire : Nat) (a : A) (rs : List (Except Nat Bytes)) (errno : Nat)
  | write (l : Nat) (fd : Fd) (expire : Nat) (rs : List Buffer.SysRet) (errno : Nat)
  | hangup (l : Nat) (fd : Fd)
  | timeout (l : Nat) (now : Nat)

/-- The connection whose callback is due, and the state in which it begins. -/
def takeEvent (s : TcpServer C) (l : Nat) (fd : Fd) (ready : Ready) : Option (ConnId × TcpServer C) := do
  let reg ← (s.loops l).epoll fd
  if reg.arming = .reported ready then some (reg.conn, s.setLoop l ((s.loops l).setArming fd .disarmed)) else none

def perform (s : TcpServer C) : Event A → Option (TcpServer C)
  | .accept c sock => some (s.handleServerAccept c sock)
  | .task l expire =>
    match (s.loops l).tasks with
    | [] => none
    | c :: tasks => (s.setLoop l { s.loops l with tasks := tasks }).onConnect c expire
  | .report l fd ready => do
    let reg ← (s.loops l).epoll fd
    if reg.Reports ready then some (s.setLoop l ((s.loops l).setArming fd (.reported ready))) else none
  | .read l fd expire a rs errno => do
    let (c, s) ← s.takeEvent l fd .read
    s.handleConnectionRead onMessage c expire a rs errno
  | .write l fd expire rs errno => do
    let (c, s) ← s.takeEvent l fd .write
    s.handleConnectionWrite c expire rs errno
  | .hangup l fd => (s.takeEvent l fd .close).map fun (c, s) => s.handleConnectionClose c
  | .timeout l now => s.handleTimeout l now (s.loops l).timers.heap.size

/-- A connection is a new object, and its descriptor is not one of a connection that exists. -/
def Admits (s : TcpServer C) : Event A → Prop
  | .accept c sock => s.conns c = none ∧ ∀ c' conn, s.lock c' = some conn → conn.sock.fd ≠ sock.fd
  | _ => True

def Step (s : TcpServer C) (e : Event A) (s' : TcpServer C) : Prop := s.Admits e ∧ s.perform onMessage e = some s'

end TcpServer

end HahaWeb
