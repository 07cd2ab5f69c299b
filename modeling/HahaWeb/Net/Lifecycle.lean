/-
  HahaWeb.Net.Lifecycle — the steps of the server, and what a run keeps.

  Every event but an accepted connection is about connections that a loop has a
  registration, a timer or a task for. `Closes` is what a step ends, and `Makes` how it
  leaves each connection. Proved: a step keeps the invariant, loses only what it closes,
  and makes no connection in another way (`step_effect`).
-/

import HahaWeb.Net.Callbacks

namespace HahaWeb

namespace TcpServer

open TimerHeap (Indexed)

variable {C A : Type} {s s' s'' u v : TcpServer C} {c : ConnId} {l : Nat} {fd : Fd} {conn conn' : TcpConnection C}
  {onMessage : App C A}

/-! ## Steps -/

/-- A callback that is due begins in a state its connection knows. -/
theorem Inv.take {ready : Ready} (hi : s.Inv) (h : s.takeEvent l fd ready = some (c, u)) :
    s.Open c l fd ∧ During s c l fd u ∧ u.Timed c l fd ∧ u.conns = s.conns ∧ ∃ reg,
    (s.loops l).epoll fd = some reg ∧ reg.conn = c := by
  obtain ⟨reg, hreg, h⟩ := Option.bind_eq_some_iff.mp h
  by_cases ha : reg.arming = .reported ready
  · rw [if_pos ha] at h
    cases h
    obtain ⟨ho, hnot⟩ := hi.epoll l fd reg hreg
    obtain ⟨timer, htimer, hcb⟩ := (hi.served _ l fd ho hnot).timer
    have hloop := setLoop_loops_same s l ((s.loops l).setArming fd .disarmed)
    refine ⟨ho, ⟨around_epoll s _ ?_ rfl rfl, ?_, hi.entry _ l fd ho, ?_, ?_, ?_, ?_⟩, ?_, rfl, reg, hreg, rfl⟩
    · intro fd' hfd
      exact Function.update_of_ne hfd _ _
    · obtain ⟨conn, hconn⟩ := ho.conn
      exact ⟨conn, hconn⟩
    · rw [hloop]
      exact hnot
    · rw [hloop]
      show (Function.update (s.loops l).epoll fd _ fd).isSome = true
      rw [Function.update_self, hreg]
      rfl
    · rw [hloop]
      exact hi.indexed l
    · intro timer' htimer'
      rw [hloop] at htimer'
      cases htimer.symm.trans htimer'
      exact hcb
    · rw [Timed, hloop]
      exact ⟨timer, htimer, hcb⟩
  · rw [if_neg ha] at h
    cases h

/-- The connection goes on in this state. -/
def Alive (s : TcpServer C) (c : ConnId) : Prop := ∃ conn, s.conns c = some conn ∧ conn.disconnected = false

/-- A step disconnects the connection, or removes it from the table. -/
def Loses (s s' : TcpServer C) (c : ConnId) : Prop :=
  (s.Alive c ∧ ¬ s'.Alive c) ∨ ∃ fd, s.connects fd = some c ∧ s'.connects fd ≠ some c

theorem Loses.split (h : Loses s s'' c) (s' : TcpServer C) : Loses s s' c ∨ Loses s' s'' c := by
  rcases h with ⟨ha, hn⟩ | ⟨fd, hc, hn⟩
  · by_cases ha' : s'.Alive c
    · exact .inr (.inl ⟨ha', hn⟩)
    · exact .inl (.inl ⟨ha, ha'⟩)
  · by_cases hc' : s'.connects fd = some c
    · exact .inr (.inr ⟨fd, hc', hn⟩)
    · exact .inl (.inr ⟨fd, hc, hc'⟩)

theorem Around.loses (hi : s.Inv) (ho : s.Open c l fd) (h : Around c l fd s s') {c' : ConnId}
    (hl : Loses s s' c') : c' = c := by
  by_contra hne
  rcases hl with ⟨ha, hn⟩ | ⟨fd', hc, hn⟩
  · obtain ⟨conn, hconn⟩ := ha
    rw [← h.conns c' hne] at hconn
    exact hn ⟨conn, hconn⟩
  · by_cases hfd : fd' = fd
    · rw [hfd, hi.entry c l fd ho] at hc
      exact hne (Option.some.inj hc).symm
    · rw [h.connects fd' hfd] at hn
      exact hn hc

theorem Stands.not_loses (hi : s.Inv) (ho : s.Open c l fd) (h : s'.Stands c l fd) : ¬ Loses s s' c := by
  intro hl
  rcases hl with ⟨-, hn⟩ | ⟨fd', hc, hn⟩
  · obtain ⟨conn, hconn, -, hd, -⟩ := h.isOpen.conn
    exact hn ⟨conn, hconn, hd⟩
  · obtain ⟨conn, hconn, rfl⟩ := hi.table fd' c hc
    obtain ⟨conn', hconn', rfl, -⟩ := ho.conn
    cases hconn.symm.trans hconn'
    exact hn h.entry

/-- The timers that `handleTimeout` fires: from the first on, as long as they are due. -/
inductive Fires (now : Nat) : TimerHeap ConnId → Timer ConnId → Prop
  | first {heap : TimerHeap ConnId} {timer : Timer ConnId} : heap.top = some timer → timer.expire ≤ now →
    Fires now heap timer
  | next {heap heap' : TimerHeap ConnId} {timer timer' : Timer ConnId} : heap.top = some timer' → timer'.expire ≤ now →
      heap.pop = .ok heap' → Fires now heap' timer → Fires now heap timer

/-- The connection that an event ends: what was received says so, or what was sent; the peer
    hung up; its timer fires. -/
inductive Closes (s : TcpServer C) : Event A → ConnId → Prop
  | read {l : Nat} {fd : Fd} {reg : Registration} {conn conn' : TcpConnection C} {rs rest : List (Except Nat Bytes)}
      {errno errno' : Nat} {status : TcpConnection.Status} (expire : Nat) (a : A) : (s.loops l).epoll fd = some reg →
      s.conns reg.conn = some conn → conn.recv rs errno = some (status, errno', conn', rest) →
      (status = .closed ∨ status = .error) → Closes s (.read l fd expire a rs errno) reg.conn
  | write {l : Nat} {fd : Fd} {reg : Registration} {conn conn' : TcpConnection C} {rs rest : List Buffer.SysRet}
      {errno errno' : Nat} {status : TcpConnection.Status} {wire : Wire} (expire : Nat) :
      (s.loops l).epoll fd = some reg →
      s.conns reg.conn = some conn → conn.send rs errno = some (status, errno', conn', wire, rest) →
      status ≠ .again → ¬ (status = .completed ∧ conn'.keepAlive = true) → Closes s
      (.write l fd expire rs errno) reg.conn
  | hangup {l : Nat} {fd : Fd} {reg : Registration} : (s.loops l).epoll fd = some reg → Closes s (.hangup l fd) reg.conn
  | timeout {l now : Nat} {timer : Timer ConnId} : Fires now (s.loops l).timers timer → s.Alive timer.cb →
      Closes s (.timeout l now) timer.cb

/-- The connection was closed, and nothing else was done to its context. -/
def Ended (s s' : TcpServer C) (c : ConnId) : Prop :=
  ∃ conn conn', s.conns c = some conn ∧ conn.disconnected = false ∧ s'.conns c = some conn' ∧
    conn'.disconnected = true ∧
    conn'.context = conn.context

theorem Ended.not_alive (h : Ended s s' c) : ¬ s'.Alive c := by
  obtain ⟨conn, conn', -, -, hconn', hd', -⟩ := h
  intro ha
  obtain ⟨conn2, hconn2, hd2⟩ := ha
  cases hconn'.symm.trans hconn2
  rw [hd'] at hd2
  cases hd2

theorem Ended.loses (h : Ended s s' c) : Loses s s' c := by
  obtain ⟨conn, -, hconn, hd, -⟩ := id h
  exact .inl ⟨⟨conn, hconn, hd⟩, h.not_alive⟩

/-- How a step leaves a connection: as it was, but for what was sent or that it is closed now;
    accepted; or with what was received, as `onMessage` leaves it. -/
inductive Makes (onMessage : App C A) (s : TcpServer C) : Event A → ConnId → TcpConnection C → Prop
  | kept {e : Event A} {c : ConnId} {conn conn' : TcpConnection C} : s.conns c = some conn →
    conn'.context = conn.context →
      conn'.keepAlive = conn.keepAlive → (conn'.disconnected = true → conn.disconnected = true ∨ Closes s e c) →
      Makes onMessage s e c conn'
  | accepted {c : ConnId} {sock : Socket} {conn : TcpConnection C} : conn.context = none → conn.keepAlive = false →
      conn.disconnected = false → Makes onMessage s (.accept c sock) c conn
  | answered {l : Nat} {fd : Fd} {expire : Nat} {a : A} {rs rest : List (Except Nat Bytes)} {errno errno' : Nat}
    {c : ConnId}
      {conn conn1 conn2 conn' : TcpConnection C} {status : TcpConnection.Status} {ms : MessageStatus} :
      s.conns c = some conn → conn.recv rs errno = some (status, errno', conn1, rest) → onMessage a conn1 = .ok
      (ms, conn2) →
      conn'.context = conn2.context → conn'.keepAlive = conn2.keepAlive → conn'.disconnected = false →
      Makes onMessage s (.read l fd expire a rs errno) c conn'

theorem Makes.same (e : Event A) (h : s.conns c = some conn) : Makes onMessage s e c conn :=
  .kept h rfl rfl .inl

/-- What a step does. -/
structure Effect (onMessage : App C A) (s : TcpServer C) (e : Event A) (s' : TcpServer C) : Prop where
  inv : s'.Inv
  loses : ∀ c, Loses s s' c → Closes s e c
  makes : ∀ c conn, s'.conns c = some conn → Makes onMessage s e c conn

/-- A step that leaves the connections and the table alone. -/
theorem Effect.same {e : Event A} (hi : s'.Inv) (hc : s'.conns = s.conns) (ht : s'.connects = s.connects) :
    Effect onMessage s e s' := by
  refine ⟨hi, ?_, ?_⟩
  · intro c hl
    exfalso
    rcases hl with ⟨⟨conn, hconn, hd⟩, hn⟩ | ⟨fd, hent, hn⟩
    · exact hn ⟨conn, by rw [hc, hconn], hd⟩
    · rw [ht] at hn
      exact hn hent
  · intro c conn hconn
    rw [hc] at hconn
    exact .same e hconn

/-- A step about one connection. -/
theorem Effect.around {e : Event A} (hi : s.Inv) (ho : s.Open c l fd) (h : Around c l fd s s')
    (hc : s'.Stands c l fd ∨ s'.Ends c l fd ∧ Closes s e c)
    (hm : ∀ conn, s'.conns c = some conn → Makes onMessage s e c conn) :
    Effect onMessage s e s' := by
  refine ⟨hi.around ho h (hc.imp_right And.left), ?_, ?_⟩
  · intro c' hl
    have hne := h.loses hi ho hl
    subst hne
    rcases hc with hs | he
    · exact absurd hl (hs.not_loses hi ho)
    · exact he.2
  · intro c' conn hconn
    by_cases hne : c' = c
    · subst hne
      exact hm conn hconn
    · rw [h.conns c' hne] at hconn
      exact .same e hconn

theorem keeps_recv {rs rest : List (Except Nat Bytes)} {errno errno' : Nat} {status : TcpConnection.Status}
    (h : conn.recv rs errno = some (status, errno', conn', rest)) : Keeps conn conn' := by
  obtain ⟨recver, rfl⟩ := TcpConnection.recv_eq h
  exact ⟨rfl, rfl, rfl⟩

theorem keeps_send {rs rest : List Buffer.SysRet} {errno errno' : Nat} {status : TcpConnection.Status} {wire : Wire}
    (h : conn.send rs errno = some (status, errno', conn', wire, rest)) : Keeps conn conn' := by
  obtain ⟨sender, file, rfl⟩ := TcpConnection.send_eq h
  exact ⟨rfl, rfl, rfl⟩

theorem rearm_conns (u : TcpServer C) (l : Nat) (c : ConnId) (conn : TcpConnection C) (events : Events) :
    (u.rearm l c conn events).conns c =
      some { conn with channel := conn.channel.map fun ch => { ch with events := events } } :=
  setConn_conns_same _ _ _

theorem Open.exists_conn (h : s.Open c l fd) : ∃ conn, s.conns c = some conn ∧ conn.disconnected = false := by
  obtain ⟨conn, hconn, -, hd, -⟩ := h.conn
  exact ⟨conn, hconn, hd⟩

/-- How a read callback leaves its connection: it is closed, or armed as `onMessage` left it. -/
structure Received (onMessage : App C A) (s : TcpServer C) (l : Nat) (fd : Fd) (a : A)
    (rs : List (Except Nat Bytes)) (errno : Nat)
    (s' : TcpServer C) (c : ConnId) (conn conn' : TcpConnection C) (status : TcpConnection.Status) : Prop where
  reg : ∃ reg, (s.loops l).epoll fd = some reg ∧ reg.conn = c
  before : s.conns c = some conn
  received : ∃ errno' rest, conn.recv rs errno = some (status, errno', conn', rest)
  isOpen : s.Open c l fd
  around : Around c l fd s s'
  after : (s'.Stands c l fd ∧ ¬ (status = .closed ∨ status = .error) ∧ ∃ ms conn2 channel,
    onMessage a conn' = .ok (ms, conn2) ∧
      conn2.disconnected = false ∧ s'.conns c = some { conn2 with channel := channel }) ∨
    (s'.Ends c l fd ∧ (status = .closed ∨ status = .error) ∧ s'.conns c = some { conn' with disconnected := true })

theorem read_some {expire : Nat} {a : A} {rs : List (Except Nat Bytes)} {errno : Nat}
    (hk : ∀ a conn ms conn', onMessage a conn = .ok (ms, conn') → Keeps conn conn') (hi : s.Inv)
    (h : s.perform onMessage (.read l fd expire a rs errno) = some s') :
    ∃ c conn conn' status, Received onMessage s l fd a rs errno s' c conn conn' status := by
  obtain ⟨⟨c, u⟩, htake, h⟩ := Option.bind_eq_some_iff.mp h
  obtain ⟨ho, hd, ht, hconns, reg, hreg, rfl⟩ := hi.take htake
  obtain ⟨w, hw, ht, hconns', h⟩ := hd.serve ht h
  obtain ⟨conn, hconn, hdisc⟩ := ho.exists_conn
  have hc : w.conns reg.conn = some conn := by rw [hconns', hconns, hconn]
  obtain ⟨status, errno', conn1, rest, hr, hcase⟩ := hw.onRecv hc h
  refine ⟨reg.conn, conn, conn1, status, ?_⟩
  rcases hcase with ⟨hs, hclose⟩ | ⟨hs, ms, conn2, hm, rfl⟩
  · obtain ⟨ha, he, hend⟩ := (hw.setConn hc (keeps_recv hr)).delTimerAndClose (setConn_conns_same _ _ _) hclose
    exact ⟨⟨reg, hreg, rfl⟩, hconn, ⟨errno', rest, hr⟩, ho, ha, .inr ⟨he, hs, hend⟩⟩
  · have hkeep := (keeps_recv hr).trans (hk a conn1 ms conn2 hm)
    obtain ⟨ha, hst⟩ := hw.rearm ht hc hkeep (if ms = .again then .epollin else .epollout)
    exact ⟨⟨reg, hreg, rfl⟩, hconn, ⟨errno', rest, hr⟩, ho, ha,
      .inl ⟨hst, hs, ms, conn2, _, hm, hkeep.disconnected.trans hdisc, rearm_conns _ _ _ _ _⟩⟩

theorem step_read {expire : Nat} {a : A} {rs : List (Except Nat Bytes)} {errno : Nat}
    (hk : ∀ a conn ms conn', onMessage a conn = .ok (ms, conn') → Keeps conn conn') (hi : s.Inv)
    (h : s.perform onMessage (.read l fd expire a rs errno) = some s') :
    Effect onMessage s (.read l fd expire a rs errno) s' := by
  obtain ⟨c, conn, conn1, status, hread⟩ := read_some hk hi h
  obtain ⟨reg, hreg, rfl⟩ := hread.reg
  obtain ⟨errno', rest, hr⟩ := hread.received
  obtain ⟨recver, hrecv⟩ := TcpConnection.recv_eq hr
  rcases hread.after with ⟨hst, -, ms, conn2, channel, hm, hd, hafter⟩ | ⟨he, hs, hafter⟩
  · refine .around hi hread.isOpen hread.around (.inl hst) ?_
    intro conn' hconn'
    cases hafter.symm.trans hconn'
    exact .answered hread.before hr hm rfl rfl hd
  · have hcloses : Closes s (.read l fd expire a rs errno) reg.conn := .read expire a hreg hread.before hr hs
    refine .around hi hread.isOpen hread.around (.inr ⟨he, hcloses⟩) ?_
    intro conn' hconn'
    cases hafter.symm.trans hconn'
    refine .kept hread.before ?_ ?_ fun _ => .inr hcloses
    · rw [hrecv]
    · rw [hrecv]

/-- How a write callback leaves its connection: it is armed, or closed. -/
structure Written (s : TcpServer C) (l : Nat) (fd : Fd) (rs : List Buffer.SysRet) (errno : Nat) (s' : TcpServer C)
    (c : ConnId) (conn conn' : TcpConnection C) (status : TcpConnection.Status) : Prop where
  reg : ∃ reg, (s.loops l).epoll fd = some reg ∧ reg.conn = c
  before : s.conns c = some conn
  sent : ∃ errno' wire rest, conn.send rs errno = some (status, errno', conn', wire, rest)
  isOpen : s.Open c l fd
  around : Around c l fd s s'
  after : (s'.Stands c l fd ∧ (status = .again ∨ (status = .completed ∧ conn'.keepAlive = true)) ∧
      ∃ channel, s'.conns c = some { conn' with channel := channel }) ∨
    (s'.Ends c l fd ∧ status ≠ .again ∧ ¬ (status = .completed ∧ conn'.keepAlive = true) ∧
      s'.conns c = some { conn' with disconnected := true })

theorem write_some {expire : Nat} {rs : List Buffer.SysRet} {errno : Nat} (hi : s.Inv)
    (h : s.perform onMessage (.write l fd expire rs errno) = some s') :
    ∃ c conn conn' status, Written s l fd rs errno s' c conn conn' status := by
  obtain ⟨⟨c, u⟩, htake, h⟩ := Option.bind_eq_some_iff.mp h
  obtain ⟨ho, hd, ht, hconns, reg, hreg, rfl⟩ := hi.take htake
  obtain ⟨w, hw, ht, hconns', h⟩ := hd.serve ht h
  obtain ⟨conn, hconn, -⟩ := ho.exists_conn
  have hc : w.conns reg.conn = some conn := by rw [hconns', hconns, hconn]
  obtain ⟨status, errno', conn1, wire, rest, hr, hcase⟩ := hw.onSend hc h
  have hkeep := keeps_send hr
  refine ⟨reg.conn, conn, conn1, status, ?_⟩
  rcases hcase with ⟨hs, rfl⟩ | ⟨hs, hk, rfl⟩ | ⟨hne, hnk, hclose⟩
  · obtain ⟨ha, hst⟩ := hw.rearm ht hc hkeep .epollout
    exact ⟨⟨reg, hreg, rfl⟩, hconn, ⟨errno', wire, rest, hr⟩, ho, ha, .inl ⟨hst, .inl hs, _, rearm_conns _ _ _ _ _⟩⟩
  · obtain ⟨ha, hst⟩ := hw.rearm ht hc hkeep .epollin
    exact ⟨⟨reg, hreg, rfl⟩, hconn, ⟨errno', wire, rest, hr⟩, ho, ha,
      .inl ⟨hst, .inr ⟨hs, hk⟩, _, rearm_conns _ _ _ _ _⟩⟩
  · obtain ⟨ha, he, hend⟩ := (hw.setConn hc hkeep).delTimerAndClose (setConn_conns_same _ _ _) hclose
    exact ⟨⟨reg, hreg, rfl⟩, hconn, ⟨errno', wire, rest, hr⟩, ho, ha, .inr ⟨he, hne, hnk, hend⟩⟩

theorem step_write {expire : Nat} {rs : List Buffer.SysRet} {errno : Nat} (hi : s.Inv)
    (h : s.perform onMessage (.write l fd expire rs errno) = some s') :
    Effect onMessage s (.write l fd expire rs errno) s' := by
  obtain ⟨c, conn, conn1, status, hw⟩ := write_some hi h
  obtain ⟨reg, hreg, rfl⟩ := hw.reg
  obtain ⟨errno', wire, rest, hr⟩ := hw.sent
  obtain ⟨sender, file, hsend⟩ := TcpConnection.send_eq hr
  rcases hw.after with ⟨hst, -, channel, hafter⟩ | ⟨he, hne, hnk, hafter⟩
  · refine .around hi hw.isOpen hw.around (.inl hst) ?_
    intro conn' hconn'
    cases hafter.symm.trans hconn'
    refine .kept hw.before ?_ ?_ ?_
    · rw [hsend]
    · rw [hsend]
    · intro hd
      exact .inl (by rw [← (keeps_send hr).disconnected]; exact hd)
  · have hcloses : Closes s (.write l fd expire rs errno : Event A) reg.conn := .write expire hreg hw.before hr hne hnk
    refine .around hi hw.isOpen hw.around (.inr ⟨he, hcloses⟩) ?_
    intro conn' hconn'
    cases hafter.symm.trans hconn'
    refine .kept hw.before ?_ ?_ fun _ => .inr hcloses
    · rw [hsend]
    · rw [hsend]

theorem step_hangup (hi : s.Inv) (h : s.perform onMessage (.hangup l fd) = some s') :
    Effect onMessage s (.hangup l fd) s' := by
  obtain ⟨⟨c, u⟩, htake, h⟩ := Option.map_eq_some_iff.mp h
  obtain ⟨ho, hd, -, hconns, reg, hreg, rfl⟩ := hi.take htake
  subst h
  obtain ⟨conn, hconn, -⟩ := ho.exists_conn
  have hcloses : Closes s (.hangup l fd : Event A) reg.conn := .hangup hreg
  obtain ⟨ha, he, hend⟩ := hd.close (hconns ▸ hconn)
  refine .around hi ho ha (.inr ⟨he, hcloses⟩) ?_
  intro conn' hconn'
  cases hend.symm.trans hconn'
  exact .kept hconn rfl rfl fun _ => .inr hcloses

theorem step_report {ready : Ready} (hi : s.Inv) (h : s.perform onMessage (.report l fd ready) = some s') :
    Effect onMessage s (.report l fd ready) s' := by
  obtain ⟨reg, hreg, h⟩ := Option.bind_eq_some_iff.mp h
  by_cases hr : reg.Reports ready
  · rw [if_pos hr] at h
    cases h
    obtain ⟨ho, hnot⟩ := hi.epoll l fd reg hreg
    have hloop := setLoop_loops_same s l ((s.loops l).setArming fd (.reported ready))
    have hnow : ((s.loops l).setArming fd (.reported ready)).epoll fd =
      some { reg with arming := .reported ready } := by
      rw [EventLoop.setArming]
      show Function.update (s.loops l).epoll fd _ fd = _
      rw [Function.update_self, hreg]
      rfl
    refine .around hi ho (around_epoll s reg.conn ?_ rfl rfl) (.inl ⟨⟨ho.conn⟩, hi.entry _ l fd ho, ?_, ?_, ?_⟩) ?_
    · intro fd' hfd
      exact Function.update_of_ne hfd _ _
    · rw [hloop]
      exact hnot
    · rw [hloop]
      exact ⟨_, hnow, rfl, by simp⟩
    · rw [Timed, hloop]
      exact (hi.served _ l fd ho hnot).timer
    · intro conn hconn
      exact .same _ hconn
  · rw [if_neg hr] at h
    cases h

/-- `onConnect` registers a descriptor that has no registration, and gives it a timer. -/
theorem onConnect_some {ch : Channel} {expire : Nat} (hlock : u.lock c = some conn) (hch : conn.channel = some ch)
    (hfree : (u.loops ch.loop).epoll conn.sock.fd = none) (hx : Indexed (u.loops ch.loop).timers)
    (h : u.onConnect c expire = some v) : ∃ timers, Indexed timers ∧
      timers.timers = Function.update (u.loops ch.loop).timers.timers conn.sock.fd (some ⟨conn.sock.fd, expire, c⟩) ∧
      v = u.setLoop ch.loop ⟨Function.update (u.loops ch.loop).epoll conn.sock.fd (some ⟨c, ch.events, .armed⟩), timers,
        (u.loops ch.loop).tasks⟩ := by
  simp only [onConnect, hlock, hch, bind, Option.bind_some] at h
  obtain ⟨timers, hok, rfl⟩ := onLoop_timers h
  have hadd : (u.loops ch.loop).addChannel conn.sock.fd c ch.events = { u.loops ch.loop with
      epoll := Function.update (u.loops ch.loop).epoll conn.sock.fd (some ⟨c, ch.events, .armed⟩) } := by
    rw [EventLoop.addChannel, hfree]
    rfl
  rw [setLoop_loops_same, hadd] at hok
  obtain ⟨timers', hok', hb⟩ := TimerHeap.push_becomes hx ⟨conn.sock.fd, expire, c⟩
  cases hok.symm.trans hok'
  refine ⟨timers, hb.indexed, hb.timers, ?_⟩
  rw [setLoop_loops_same, hadd, setLoop_setLoop]

theorem step_task {expire : Nat} (hi : s.Inv) (h : s.perform onMessage (.task l expire) = some s') :
    Effect onMessage s (.task l expire) s' := by
  cases hq : (s.loops l).tasks with
  | nil =>
    simp only [perform, hq] at h
    cases h
  | cons c tasks =>
    simp only [perform, hq] at h
    have hmem : c ∈ (s.loops l).tasks := by rw [hq]; exact List.mem_cons_self
    have hnodup := hi.nodup l
    rw [hq, List.nodup_cons] at hnodup
    obtain ⟨fd, ho⟩ := hi.tasks c l hmem
    have hentry := hi.entry c l fd ho
    obtain ⟨conn, hconn, hfd, -, hl⟩ := ho.conn
    obtain ⟨ch, hch, rfl⟩ := Option.map_eq_some_iff.mp hl
    have hlock : (s.setLoop ch.loop { s.loops ch.loop with tasks := tasks }).lock c = some conn :=
      lock_of_entry hconn (by rw [hfd]; exact hentry)
    have hloop := setLoop_loops_same s ch.loop { s.loops ch.loop with tasks := tasks }
    -- the descriptor is not registered: its connection would be this one, whose task has not run
    have hfree : (s.loops ch.loop).epoll fd = none := by
      by_contra hne
      obtain ⟨reg, hreg⟩ := Option.ne_none_iff_exists'.mp hne
      obtain ⟨ho', hnot⟩ := hi.epoll ch.loop fd reg hreg
      rw [hi.open_inj ho ho'] at hnot
      exact hnot hmem
    obtain ⟨timers, hx, ht, rfl⟩ := onConnect_some hlock hch (by rw [hloop, hfd]; exact hfree)
      (by rw [hloop]; exact hi.indexed ch.loop) h
    rw [hloop, hfd] at ht
    rw [hloop, hfd, setLoop_setLoop]
    have hloop' := setLoop_loops_same s ch.loop
      ⟨Function.update (s.loops ch.loop).epoll fd (some ⟨c, ch.events, .armed⟩), timers, tasks⟩
    refine .around hi ho ⟨fun _ _ => rfl, fun _ _ => rfl, fun _ hne => Function.update_of_ne hne _ _, ?_, ?_, ?_,
      ?_, ?_⟩
      (.inl ⟨⟨ho.conn⟩, hentry, ?_, ⟨?_, ?_⟩⟩) ?_
    · intro fd' hne
      rw [hloop']
      exact Function.update_of_ne hne _ _
    · intro fd' hne
      rw [hloop', ht, Function.update_of_ne hne]
    · intro _
      rw [hloop']
      exact hx
    · intro c' hne
      rw [hloop', hq, List.mem_cons, or_iff_right hne]
    · intro _
      rw [hloop']
      exact hnodup.2
    · rw [hloop']
      exact hnodup.1
    · rw [hloop']
      exact ⟨_, Function.update_self _ _ _, rfl, by simp⟩
    · rw [Timed, hloop', ht, Function.update_self]
      exact ⟨_, rfl, rfl⟩
    · intro conn hconn
      exact .same _ hconn

/-! ### A connection is accepted -/

variable {sock : Socket}

/-- What `handleServerAccept` makes of the connection. -/
def accepted (l : Nat) (sock : Socket) : TcpConnection C :=
  { TcpConnection.new { sock with isBlocked := false } with channel := some ⟨l, .epollin⟩ }

theorem accept_conns_same : (s.handleServerAccept c sock).conns c = some (accepted s.next sock) :=
  Function.update_self _ _ _

theorem accept_conns {c' : ConnId} (hne : c' ≠ c) : (s.handleServerAccept c sock).conns c' = s.conns c' :=
  Function.update_of_ne hne _ _

theorem accept_connects_same : (s.handleServerAccept c sock).connects sock.fd = some c :=
  Function.update_self _ _ _

theorem accept_connects (hne : fd ≠ sock.fd) : (s.handleServerAccept c sock).connects fd = s.connects fd :=
  Function.update_of_ne hne _ _

theorem accept_loops (l : Nat) : (s.handleServerAccept c sock).loops l =
    { s.loops l with tasks := if l = s.next then (s.loops l).tasks ++ [c] else (s.loops l).tasks } := by
  by_cases hl : l = s.next
  · subst hl
    rw [if_pos rfl]
    exact Function.update_self _ _ _
  · rw [if_neg hl]
    exact Function.update_of_ne hl _ _

theorem accept_mem_tasks {c' : ConnId} : c' ∈ ((s.handleServerAccept c sock).loops l).tasks ↔
    c' ∈ (s.loops l).tasks ∨ (c' = c ∧ l = s.next) := by
  rw [accept_loops]
  by_cases hl : l = s.next
  · simp [hl]
  · simp [hl]

theorem accept_mem_iff {c' : ConnId} (hne : c' ≠ c) :
    c' ∈ ((s.handleServerAccept c sock).loops l).tasks ↔ c' ∈ (s.loops l).tasks := by
  rw [accept_mem_tasks, or_iff_left fun h => hne h.1]

theorem accept_open (hc : s.conns c = none) {c' : ConnId} :
    (s.handleServerAccept c sock).Open c' l fd ↔ (c' = c ∧ l = s.next ∧ fd = sock.fd) ∨ s.Open c' l fd := by
  by_cases hne : c' = c
  · subst hne
    constructor
    · intro ho
      obtain ⟨conn, hconn, hfd, -, hl⟩ := ho.conn
      cases accept_conns_same.symm.trans hconn
      exact .inl ⟨rfl, (Option.some.inj hl).symm, hfd.symm⟩
    · intro h
      rcases h with ⟨-, rfl, rfl⟩ | ho
      · exact ⟨_, accept_conns_same, rfl, rfl, rfl⟩
      · obtain ⟨conn, hconn, -⟩ := ho.conn
        rw [hc] at hconn
        cases hconn
  · constructor
    · intro ho
      refine .inr ⟨?_⟩
      rw [← accept_conns hne]
      exact ho.conn
    · intro h
      rcases h with ⟨heq, -⟩ | ho
      · exact absurd heq hne
      · refine ⟨?_⟩
        rw [accept_conns hne]
        exact ho.conn

/-- A connection that is known is not the new one. -/
theorem Found.ne (hc : s.conns c = none) {c' : ConnId} (hf : s.Found c' l fd) : c' ≠ c := by
  intro hne
  obtain ⟨conn, hconn, -⟩ := hf
  rw [hne, hc] at hconn
  cases hconn

theorem Inv.idle (hi : s.Inv) (hc : s.conns c = none) (l : Nat) : c ∉ (s.loops l).tasks := by
  intro hmem
  obtain ⟨fd, ho⟩ := hi.tasks c l hmem
  exact ho.found.ne hc rfl

theorem accept_inv (hi : s.Inv) (hc : s.conns c = none) (hfree : ∀ c', s.connects sock.fd ≠ some c') :
    (s.handleServerAccept c sock).Inv where
  indexed l := by
    rw [accept_loops]
    exact hi.indexed l
  nodup l := by
    rw [accept_loops]
    by_cases hl : l = s.next
    · rw [if_pos hl]
      refine List.nodup_append.mpr ⟨hi.nodup l, List.nodup_singleton c, ?_⟩
      intro a ha b hb hab
      rw [hab, List.mem_singleton.mp hb] at ha
      exact hi.idle hc l ha
    · rw [if_neg hl]
      exact hi.nodup l
  channel c' conn hconn := by
    by_cases hne : c' = c
    · subst hne
      cases accept_conns_same.symm.trans hconn
      rfl
    · rw [accept_conns hne] at hconn
      exact hi.channel c' conn hconn
  table fd c' hent := by
    by_cases hfd : fd = sock.fd
    · subst hfd
      cases accept_connects_same.symm.trans hent
      exact ⟨_, accept_conns_same, rfl⟩
    · rw [accept_connects hfd] at hent
      obtain ⟨conn, hconn, hfd'⟩ := hi.table fd c' hent
      have hne : c' ≠ c := by
        intro hne
        rw [hne, hc] at hconn
        cases hconn
      exact ⟨conn, by rw [accept_conns hne, hconn], hfd'⟩
  entry c' l fd ho := by
    rcases (accept_open hc).mp ho with ⟨rfl, rfl, rfl⟩ | ho'
    · exact accept_connects_same
    · have hent := hi.entry c' l fd ho'
      rw [accept_connects, hent]
      intro hfd
      rw [hfd] at hent
      exact hfree c' hent
  tasks c' l hmem := by
    rcases accept_mem_tasks.mp hmem with hmem' | ⟨rfl, rfl⟩
    · obtain ⟨fd, ho⟩ := hi.tasks c' l hmem'
      exact ⟨fd, (accept_open hc).mpr (.inr ho)⟩
    · exact ⟨sock.fd, (accept_open hc).mpr (.inl ⟨rfl, rfl, rfl⟩)⟩
  epoll l fd reg hreg := by
    rw [accept_loops] at hreg
    obtain ⟨ho, hnot⟩ := hi.epoll l fd reg hreg
    exact ⟨(accept_open hc).mpr (.inr ho), (accept_mem_iff (ho.found.ne hc)).not.mpr hnot⟩
  timers l fd timer htimer := by
    rw [accept_loops] at htimer
    obtain ⟨hf, hnot⟩ := hi.timers l fd timer htimer
    have hne := hf.ne hc
    refine ⟨?_, ?_⟩
    · rw [Found, accept_conns hne]
      exact hf
    · intro l'
      exact (accept_mem_iff hne).not.mpr (hnot l')
  served c' l fd ho hnot := by
    rcases (accept_open hc).mp ho with ⟨rfl, rfl, -⟩ | ho'
    · exact absurd (accept_mem_tasks.mpr (.inr ⟨rfl, rfl⟩)) hnot
    · obtain ⟨he, ht⟩ := hi.served c' l fd ho' ((accept_mem_iff (ho'.found.ne hc)).not.mp hnot)
      refine ⟨?_, ?_⟩
      · rw [accept_loops]
        exact he
      · rw [Timed, accept_loops]
        exact ht

theorem step_accept (hi : s.Inv) (ha : s.Admits (.accept c sock : Event A))
    (h : s.perform onMessage (.accept c sock) = some s') : Effect onMessage s (.accept c sock) s' := by
  obtain ⟨hc, hfree⟩ := ha
  cases h
  -- the table has no entry for the descriptor: its connection would exist
  have hentry : ∀ c', s.connects sock.fd ≠ some c' := by
    intro c' hent
    obtain ⟨conn, hconn, hfd⟩ := hi.table sock.fd c' hent
    exact hfree c' conn (lock_of_entry hconn (by rw [hfd]; exact hent)) hfd
  refine ⟨accept_inv hi hc hentry, ?_, ?_⟩
  · intro c' hl
    exfalso
    rcases hl with ⟨⟨conn, hconn, hd⟩, hn⟩ | ⟨fd, hent, hn⟩
    · have hne : c' ≠ c := by
        intro hne
        rw [hne, hc] at hconn
        cases hconn
      exact hn ⟨conn, by rw [accept_conns hne, hconn], hd⟩
    · rw [accept_connects] at hn
      · exact hn hent
      · intro hfd
        rw [hfd] at hent
        exact hentry c' hent
  · intro c' conn hconn
    by_cases hne : c' = c
    · subst hne
      cases accept_conns_same.symm.trans hconn
      exact .accepted rfl rfl rfl
    · rw [accept_conns hne] at hconn
      exact .same _ hconn

/-! ### Timers go off -/

theorem Alive.open (ha : s.Alive c) (hf : s.Found c l fd) : s.Open c l fd := by
  obtain ⟨conn, hconn, hd⟩ := ha
  obtain ⟨conn', hconn', hfd, hl⟩ := hf
  cases hconn.symm.trans hconn'
  exact ⟨conn, hconn, hfd, hd, hl⟩

/-- Nothing is closed for a connection that is over. -/
theorem close_gone (h : ¬ s.Alive c) : s.handleConnectionClose c = s := by
  have hlive : s.live c = none := by
    by_contra hne
    obtain ⟨⟨conn, ch⟩, hlive⟩ := Option.ne_none_iff_exists'.mp hne
    obtain ⟨conn', hlock, hlive⟩ := Option.bind_eq_some_iff.mp hlive
    obtain ⟨ch', -, hlive⟩ := Option.bind_eq_some_iff.mp hlive
    by_cases hd : conn'.disconnected = true
    · rw [if_pos hd] at hlive
      cases hlive
    · exact h ⟨conn', lock_conns hlock, by simpa using hd⟩
  rw [handleConnectionClose, hlive]

/-- A connection that a loop serves, between its callbacks. -/
theorem Inv.during (hi : s.Inv) (ho : s.Open c l fd) (hnot : c ∉ (s.loops l).tasks) : During s c l fd s := by
  obtain ⟨⟨reg, hreg, -⟩, timer, htimer, hcb⟩ := hi.served c l fd ho hnot
  refine ⟨.refl c l fd s, ho, hi.entry c l fd ho, hnot, by rw [hreg]; rfl, hi.indexed l, ?_⟩
  intro timer' htimer'
  cases htimer.symm.trans htimer'
  exact hcb

theorem close_timers (s : TcpServer C) (c : ConnId) (l : Nat) :
    ((s.handleConnectionClose c).loops l).timers = (s.loops l).timers := by
  unfold handleConnectionClose
  cases s.live c with
  | none => rfl
  | some p =>
    obtain ⟨conn, ch⟩ := p
    by_cases hl : l = ch.loop
    · subst hl
      show ((s.setLoop ch.loop ((s.loops ch.loop).delChannel conn.sock.fd)).loops ch.loop).timers = _
      rw [setLoop_loops_same]
      rfl
    · show (Function.update s.loops ch.loop _ l).timers = _
      rw [Function.update_of_ne hl]

theorem pop_some {timer : Timer ConnId} (hx : Indexed (u.loops l).timers) (ht : (u.loops l).timers.top = some timer)
    (h : u.onLoop l (·.onTimers TimerHeap.pop) = some v) : ∃ timers, Indexed timers ∧
      timers.timers = Function.update (u.loops l).timers.timers timer.fd none ∧ (u.loops l).timers.pop = .ok timers ∧
      v = u.setLoop l { u.loops l with timers := timers } := by
  obtain ⟨timers, hok, rfl⟩ := onLoop_timers h
  obtain ⟨timers', hok', hb⟩ := TimerHeap.pop_becomes hx ht
  cases hok.symm.trans hok'
  exact ⟨timers, hb.indexed, hb.timers, hok, rfl⟩

section Stale

variable {timers : TimerHeap ConnId}

theorem setTimers_loops (s : TcpServer C) (l l' : Nat) (timers : TimerHeap ConnId) :
    (s.setLoop l { s.loops l with timers := timers }).loops l' =
      { s.loops l' with timers := if l' = l then timers else (s.loops l').timers } := by
  by_cases hl : l' = l
  · subst hl
    rw [if_pos rfl, setLoop_loops_same]
  · rw [if_neg hl]
    exact Function.update_of_ne hl _ _

/-- The timers that are left are the others. -/
theorem setTimers_timer (ht : timers.timers = Function.update (s.loops l).timers.timers fd none) {l' : Nat} {fd' : Fd}
    {timer : Timer ConnId} : ((s.setLoop l { s.loops l with timers := timers }).loops l').timers.timers fd' =
    some timer ↔
      ¬ (l' = l ∧ fd' = fd) ∧ (s.loops l').timers.timers fd' = some timer := by
  rw [setTimers_loops]
  by_cases hl : l' = l
  · subst hl
    by_cases hfd : fd' = fd
    · simp [ht, hfd]
    · simp [ht, hfd]
  · simp [hl]

/-- A timer left behind is taken out. -/
theorem stale_inv {timer : Timer ConnId} (hi : s.Inv) (hx : Indexed timers)
    (ht : timers.timers = Function.update (s.loops l).timers.timers fd none)
    (htimer : (s.loops l).timers.timers fd = some timer)
    (hstale : ¬ s.Alive timer.cb) : (s.setLoop l { s.loops l with timers := timers }).Inv where
  indexed l' := by
    rw [setTimers_loops]
    by_cases hl : l' = l
    · rw [if_pos hl]
      exact hx
    · rw [if_neg hl]
      exact hi.indexed l'
  nodup l' := by
    rw [setTimers_loops]
    exact hi.nodup l'
  channel := hi.channel
  table := hi.table
  entry c l fd ho := hi.entry c l fd ⟨ho.conn⟩
  tasks c l' hmem := by
    rw [setTimers_loops] at hmem
    obtain ⟨fd', ho⟩ := hi.tasks c l' hmem
    exact ⟨fd', ⟨ho.conn⟩⟩
  epoll l' fd' reg hreg := by
    rw [setTimers_loops] at hreg ⊢
    obtain ⟨ho, hnot⟩ := hi.epoll l' fd' reg hreg
    exact ⟨⟨ho.conn⟩, hnot⟩
  timers l' fd' t htimer' := by
    obtain ⟨hf, hnot⟩ := hi.timers l' fd' t ((setTimers_timer ht).mp htimer').2
    refine ⟨hf, ?_⟩
    intro l''
    rw [setTimers_loops]
    exact hnot l''
  served c l' fd' ho hnot := by
    rw [setTimers_loops] at hnot
    obtain ⟨he, t, htt, hcb⟩ := hi.served c l' fd' ⟨ho.conn⟩ hnot
    -- the timer of a connection that goes on is not the one taken out
    have hat : ¬ (l' = l ∧ fd' = fd) := by
      intro hat
      rw [hat.1, hat.2, htimer] at htt
      cases htt
      obtain ⟨conn, hconn, -, hd, -⟩ := ho.conn
      rw [hcb] at hstale
      exact hstale ⟨conn, hconn, hd⟩
    refine ⟨by rw [setTimers_loops]; exact he, t, (setTimers_timer ht).mpr ⟨hat, htt⟩, hcb⟩

end Stale

/-- A round of `handleTimeout`: the first timer is due; its callback closes its connection if
    that goes on, and the timer is taken out. -/
structure Round (s : TcpServer C) (l : Nat) (timer : Timer ConnId) (s' : TcpServer C) : Prop where
  timers : (s.loops l).timers.pop = .ok (s'.loops l).timers
  conns : ∀ c, c ≠ timer.cb → s'.conns c = s.conns c
  closed : s.Alive timer.cb → Ended s s' timer.cb
  gone : ¬ s.Alive timer.cb → s'.conns timer.cb = s.conns timer.cb

theorem Round.alive {timer : Timer ConnId} (h : Round s l timer s') (ha : s'.Alive c) : s.Alive c ∧ c ≠ timer.cb := by
  have hne : c ≠ timer.cb := by
    intro hne
    rw [hne] at ha
    by_cases hs : s.Alive timer.cb
    · exact (h.closed hs).not_alive ha
    · obtain ⟨conn, hconn, hd⟩ := ha
      exact hs ⟨conn, by rw [← h.gone hs]; exact hconn, hd⟩
  obtain ⟨conn, hconn, hd⟩ := ha
  exact ⟨⟨conn, by rw [← h.conns c hne]; exact hconn, hd⟩, hne⟩

theorem round_effect {timer : Timer ConnId} {now : Nat} (hi : s.Inv) (ht : (s.loops l).timers.top = some timer)
    (hdue : timer.expire ≤ now) (h : (s.handleConnectionClose timer.cb).onLoop l (·.onTimers TimerHeap.pop) = some s') :
    Effect onMessage s (.timeout l now) s' ∧ Round s l timer s' := by
  have hx := hi.indexed l
  have htimer := TimerHeap.top_timer hx ht
  obtain ⟨hf, hnot⟩ := hi.timers l timer.fd timer htimer
  by_cases ha : s.Alive timer.cb
  · have ho := ha.open hf
    have hcloses : Closes s (.timeout l now : Event A) timer.cb := .timeout (.first ht hdue) ha
    obtain ⟨conn, hconn, hd⟩ := ha
    obtain ⟨haround, hends, hend⟩ := (hi.during ho (hnot l)).close hconn
    have hsame := close_timers s timer.cb l
    obtain ⟨timers, hx', hts, hpop, rfl⟩ := pop_some (by rw [hsame]; exact hx) (by rw [hsame]; exact ht) h
    have hloop := setLoop_loops_same (s.handleConnectionClose timer.cb) l
      { (s.handleConnectionClose timer.cb).loops l with timers := timers }
    have haround' := haround.trans (around_timers (s.handleConnectionClose timer.cb) timer.cb hx' (by
      intro fd' hne
      rw [hts, Function.update_of_ne hne]))
    refine ⟨.around hi ho haround' (.inr ⟨⟨hends.found, hends.gone, hends.entry, ?_, ?_, ?_⟩, hcloses⟩) ?_, ?_,
      haround'.conns, ?_, ?_⟩
    · rw [hloop]
      exact hends.epoll
    · rw [hloop]
      exact hends.started
    · intro timer' htimer'
      rw [hloop] at htimer'
      simp only [hts, Function.update_self] at htimer'
      cases htimer'
    · intro conn' hconn'
      cases hend.symm.trans hconn'
      exact .kept hconn rfl rfl fun _ => .inr hcloses
    · rw [hloop, ← hsame]
      exact hpop
    · intro _
      exact ⟨conn, _, hconn, hd, hend, rfl, rfl⟩
    · intro hn
      exact absurd ⟨conn, hconn, hd⟩ hn
  · rw [close_gone ha] at h
    obtain ⟨timers, hx', hts, hpop, rfl⟩ := pop_some hx ht h
    refine ⟨.same (stale_inv hi hx' hts htimer ha) rfl rfl, ?_, fun _ _ => rfl, fun ha' => absurd ha' ha, fun _ => rfl⟩
    rw [setLoop_loops_same]
    exact hpop

/-- What a later round closes fires in this one. -/
theorem Closes.earlier {timer : Timer ConnId} {now : Nat} (hr : Round s l timer s')
    (ht : (s.loops l).timers.top = some timer)
    (hdue : timer.expire ≤ now) (h : Closes s' (.timeout l now : Event A) c) : Closes s
    (.timeout l now : Event A) c := by
  cases h with
  | timeout hf ha => exact .timeout (.next ht hdue hr.timers hf) (hr.alive ha).1

theorem Round.inv {timer : Timer ConnId} {now : Nat} (hi : s.Inv) (ht : (s.loops l).timers.top = some timer)
    (hdue : timer.expire ≤ now) (h : (s.handleConnectionClose timer.cb).onLoop l (·.onTimers TimerHeap.pop) = some s') :
    Round s l timer s' ∧ s'.Inv := by
  have hround : Effect (fun (_ : Unit) conn => .ok (.ok, conn)) s (.timeout l now) s' ∧ _ := round_effect hi ht hdue h
  exact ⟨hround.2, hround.1.inv⟩

/-- `handleTimeout` is over, or has a round and goes on. -/
theorem handleTimeout_cases {now rounds : Nat} (h : s.handleTimeout l now rounds = some s') :
    (s' = s ∧ (rounds = 0 ∨ ∀ timer, (s.loops l).timers.top = some timer → now < timer.expire)) ∨
      ∃ timer n s1, rounds = n + 1 ∧ (s.loops l).timers.top = some timer ∧ timer.expire ≤ now ∧
        (s.handleConnectionClose timer.cb).onLoop l (·.onTimers TimerHeap.pop) = some s1 ∧
        s1.handleTimeout l now n = some s' := by
  cases rounds with
  | zero =>
    cases h
    exact .inl ⟨rfl, .inl rfl⟩
  | succ n =>
    unfold handleTimeout at h
    cases ht : (s.loops l).timers.top with
    | none =>
      simp only [ht] at h
      cases h
      exact .inl ⟨rfl, .inr (by simp)⟩
    | some timer =>
      simp only [ht] at h
      by_cases hdue : timer.expire ≤ now
      · rw [if_pos hdue] at h
        obtain ⟨s1, h1, h⟩ := Option.bind_eq_some_iff.mp h
        exact .inr ⟨timer, n, s1, rfl, rfl, hdue, h1, h⟩
      · rw [if_neg hdue] at h
        cases h
        refine .inl ⟨rfl, .inr ?_⟩
        intro timer' ht'
        cases ht'
        exact Nat.lt_of_not_le hdue

/-- The rounds of one `handleTimeout`. -/
theorem rounds_effect {now rounds : Nat} : ∀ {s s' : TcpServer C}, s.Inv → s.handleTimeout l now rounds = some s' →
    Effect onMessage s (.timeout l now) s' := by
  induction rounds with
  | zero =>
    intro s s' hi h
    cases h
    exact .same hi rfl rfl
  | succ rounds ih =>
    intro s s' hi h
    rcases handleTimeout_cases h with ⟨rfl, -⟩ | ⟨timer, n, s1, hn, ht, hdue, h1, h⟩
    · exact .same hi rfl rfl
    · cases hn
      have hround : Effect onMessage s (.timeout l now) s1 ∧ _ := round_effect hi ht hdue h1
      obtain ⟨he, hr⟩ := hround
      have hrest := ih he.inv h
      refine ⟨hrest.inv, ?_, ?_⟩
      · intro c hl
        rcases hl.split s1 with hl | hl
        · exact he.loses c hl
        · exact (hrest.loses c hl).earlier hr ht hdue
      · intro c conn hconn
        cases hrest.makes c conn hconn with
        | kept hconn1 hctx hka hd =>
          cases he.makes c _ hconn1 with
          | kept hconn0 hctx0 hka0 hd0 =>
            refine .kept hconn0 (hctx.trans hctx0) (hka.trans hka0) ?_
            intro hdisc
            rcases hd hdisc with hd1 | hc
            · exact hd0 hd1
            · exact .inr (hc.earlier hr ht hdue)

/-- Nothing happens to a connection that is over. -/
theorem handleTimeout_gone {now rounds : Nat} : ∀ {s s' : TcpServer C}, s.Inv → ¬ s.Alive c →
    s.handleTimeout l now rounds = some s' → s'.conns c = s.conns c := by
  induction rounds with
  | zero =>
    intro s s' _ _ h
    cases h
    rfl
  | succ rounds ih =>
    intro s s' hi hgone h
    rcases handleTimeout_cases h with ⟨rfl, -⟩ | ⟨timer, n, s1, hn, ht, hdue, h1, h⟩
    · rfl
    · cases hn
      obtain ⟨hr, hi1⟩ := Round.inv hi ht hdue h1
      rw [ih hi1 (fun ha => hgone (hr.alive ha).1) h]
      by_cases hne : c = timer.cb
      · rw [hne] at hgone ⊢
        exact hr.gone hgone
      · exact hr.conns c hne

/-- A timer that fires closes its connection, if that goes on. -/
theorem rounds_closes {now rounds : Nat} {timer : Timer ConnId} : ∀ {s s' : TcpServer C}, s.Inv →
    (s.loops l).timers.heap.size ≤ rounds → s.handleTimeout l now rounds = some s' →
    Fires now (s.loops l).timers timer → s.Alive timer.cb → Ended s s' timer.cb := by
  induction rounds with
  | zero =>
    intro s s' hi hsize _ hf _
    exfalso
    have htop : (s.loops l).timers.top = none := by
      rw [TimerHeap.top, Array.getElem?_eq_none_iff]
      omega
    cases hf with
    | first ht => rw [htop] at ht; cases ht
    | next ht => rw [htop] at ht; cases ht
  | succ rounds ih =>
    intro s s' hi hsize h hf ha
    have hfirst : ∃ timer', (s.loops l).timers.top = some timer' ∧ timer'.expire ≤ now := by
      cases hf with
      | first ht hdue => exact ⟨_, ht, hdue⟩
      | next ht hdue => exact ⟨_, ht, hdue⟩
    obtain ⟨timer', ht', hdue'⟩ := hfirst
    rcases handleTimeout_cases h with ⟨-, hz | hnot⟩ | ⟨timer1, n, s1, hn, ht, hdue, h1, h⟩
    · cases hz
    · exact absurd (hnot timer' ht') (Nat.not_lt_of_le hdue')
    · cases hn
      cases ht.symm.trans ht'
      obtain ⟨hr, hi1⟩ := Round.inv hi ht hdue h1
      by_cases hne : timer.cb = timer'.cb
      · -- the first round closes it, and the others leave it alone
        rw [hne] at ha ⊢
        obtain ⟨conn, conn', hconn, hd, hconn', hrest⟩ := hr.closed ha
        refine ⟨conn, conn', hconn, hd, ?_, hrest⟩
        rw [handleTimeout_gone hi1 (hr.closed ha).not_alive h, hconn']
      · have ha1 : s1.Alive timer.cb := by
          obtain ⟨conn, hconn, hd⟩ := ha
          exact ⟨conn, by rw [hr.conns _ hne, hconn], hd⟩
        cases hf with
        | first ht2 =>
          cases ht2.symm.trans ht
          exact absurd rfl hne
        | next _ _ hpop hf =>
          cases hpop.symm.trans hr.timers
          have hlt := TimerHeap.pop_size (hi.indexed l) hr.timers
          obtain ⟨conn, conn', hconn, hrest⟩ := ih hi1 (by omega) h hf ha1
          exact ⟨conn, conn', by rw [← hr.conns _ hne, hconn], hrest⟩

/-- `handleTimeout` has as many rounds as it needs: more make no difference. -/
theorem handleTimeout_rounds {now m : Nat} : ∀ {n : Nat} {s : TcpServer C}, s.Inv → (s.loops l).timers.heap.size ≤ m →
    (s.loops l).timers.heap.size ≤ n → s.handleTimeout l now m = s.handleTimeout l now n := by
  have hempty : ∀ {s : TcpServer C}, (s.loops l).timers.heap.size = 0 → ∀ n, s.handleTimeout l now n = some s := by
    intro s hs n
    have htop : (s.loops l).timers.top = none := by
      rw [TimerHeap.top, Array.getElem?_eq_none_iff]
      omega
    cases n with
    | zero => rfl
    | succ n => rw [handleTimeout, htop]
  induction m with
  | zero =>
    intro n s _ hm _
    rw [hempty (by omega), hempty (by omega)]
  | succ m ih =>
    intro n s hi hm hn
    cases n with
    | zero => rw [hempty (by omega), hempty (by omega)]
    | succ n =>
      unfold handleTimeout
      cases ht : (s.loops l).timers.top with
      | none => rfl
      | some timer =>
        dsimp only
        by_cases hdue : timer.expire ≤ now
        · rw [if_pos hdue, if_pos hdue]
          cases h1 : (s.handleConnectionClose timer.cb).onLoop l (·.onTimers TimerHeap.pop) with
          | none => rfl
          | some s1 =>
            obtain ⟨hr, hi1⟩ := Round.inv hi ht hdue h1
            have hsize := TimerHeap.pop_size (hi.indexed l) hr.timers
            exact ih hi1 (by omega) (by omega)
        · rw [if_neg hdue, if_neg hdue]

/-! ### Every step -/

/-- What every step does, when `onMessage` leaves the connection's descriptor, channel and
    `disconnected` as they are. -/
theorem step_effect {e : Event A} (hk : ∀ a conn ms conn', onMessage a conn = .ok (ms, conn') → Keeps conn conn')
    (hi : s.Inv) (h : s.Step onMessage e s') : Effect onMessage s e s' := by
  obtain ⟨ha, h⟩ := h
  cases e with
  | accept c sock => exact step_accept hi ha h
  | task l expire => exact step_task hi h
  | report l fd ready => exact step_report hi h
  | read l fd expire a rs errno => exact step_read hk hi h
  | write l fd expire rs errno => exact step_write hi h
  | hangup l fd => exact step_hangup hi h
  | timeout l now => exact rounds_effect hi h

/-- What an event closes is closed. -/
theorem step_closes {e : Event A} (hk : ∀ a conn ms conn', onMessage a conn = .ok (ms, conn') → Keeps conn conn')
    (hi : s.Inv) (h : s.perform onMessage e = some s') (hc : Closes s e c) : Ended s s' c := by
  cases hc with
  | @read l fd reg conn conn' rs rest errno errno' status expire a hreg hconn hr hs =>
    obtain ⟨c, conn0, conn1, status0, hread⟩ := read_some hk hi h
    obtain ⟨reg', hreg', rfl⟩ := hread.reg
    cases hreg.symm.trans hreg'
    cases hconn.symm.trans hread.before
    obtain ⟨errno'', rest', hr'⟩ := hread.received
    cases hr.symm.trans hr'
    obtain ⟨recver, rfl⟩ := TcpConnection.recv_eq hr
    obtain ⟨conn', hconn', hd⟩ := hread.isOpen.exists_conn
    cases hconn.symm.trans hconn'
    rcases hread.after with ⟨-, hn, -⟩ | ⟨-, -, hafter⟩
    · exact absurd hs hn
    · exact ⟨conn, _, hconn, hd, hafter, rfl, rfl⟩
  | @write l fd reg conn conn' rs rest errno errno' status wire expire hreg hconn hr hne hnk =>
    obtain ⟨c, conn0, conn1, status0, hwrite⟩ := write_some hi h
    obtain ⟨reg', hreg', rfl⟩ := hwrite.reg
    cases hreg.symm.trans hreg'
    cases hconn.symm.trans hwrite.before
    obtain ⟨errno'', wire', rest', hr'⟩ := hwrite.sent
    cases hr.symm.trans hr'
    obtain ⟨sender, file, rfl⟩ := TcpConnection.send_eq hr
    obtain ⟨conn', hconn', hd⟩ := hwrite.isOpen.exists_conn
    cases hconn.symm.trans hconn'
    rcases hwrite.after with ⟨-, hs | hs, -⟩ | ⟨-, -, -, hafter⟩
    · exact absurd hs hne
    · exact absurd hs hnk
    · exact ⟨conn, _, hconn, hd, hafter, rfl, rfl⟩
  | @hangup l fd reg hreg =>
    obtain ⟨⟨c, u⟩, htake, h⟩ := Option.map_eq_some_iff.mp h
    obtain ⟨ho, hd, -, hconns, reg', hreg', rfl⟩ := hi.take htake
    subst h
    cases hreg.symm.trans hreg'
    obtain ⟨conn, hconn, hdisc⟩ := ho.exists_conn
    obtain ⟨-, -, hend⟩ := hd.close (hconns ▸ hconn)
    exact ⟨conn, _, hconn, hdisc, hend, rfl, rfl⟩
  | timeout hf ha => exact rounds_closes hi (Nat.le_refl _) h hf ha

/-- A step loses what it closes. -/
theorem loses_iff {e : Event A} (hk : ∀ a conn ms conn', onMessage a conn = .ok (ms, conn') → Keeps conn conn')
    (hi : s.Inv) (h : s.Step onMessage e s') : Loses s s' c ↔ Closes s e c := by
  constructor
  · exact (step_effect hk hi h).loses c
  · intro hc
    exact (step_closes hk hi h.2 hc).loses

/-! ### Runs -/

/-- The events one after the other. -/
def performs (onMessage : App C A) (s : TcpServer C) (es : List (Event A)) : Option (TcpServer C) :=
  es.foldlM (fun s e => s.perform onMessage e) s

def Event.accepts : Event A → Bool
  | .accept _ _ => true
  | _ => false

/-- What the events but the first do is a run: nothing exists before the first, and no
    other accepts a connection. -/
theorem run_performs {n : Nat} {e : Event A} {es : List (Event A)} (hes : es.all fun e => !e.accepts)
    (h : performs onMessage (start n) (e :: es) = some s) : Labelled.Run (Step onMessage) (start n) (e :: es) s := by
  have hrest : ∀ (es : List (Event A)) (s s' : TcpServer C), (es.all fun e => !e.accepts) = true →
      performs onMessage s es = some s' → Labelled.Run (Step onMessage) s es s' := by
    intro es
    induction es with
    | nil =>
      intro s s' _ h
      cases h
      exact .nil s
    | cons e es ih =>
      intro s s' hes h
      rw [List.all_cons, Bool.and_eq_true] at hes
      obtain ⟨s1, h1, h⟩ := Option.bind_eq_some_iff.mp h
      refine .cons ⟨?_, h1⟩ (ih s1 s' hes.2 h)
      cases e with
      | accept c sock => cases hes.1
      | _ => trivial
  obtain ⟨s1, h1, h⟩ := Option.bind_eq_some_iff.mp h
  refine .cons ⟨?_, h1⟩ (hrest es s1 s hes h)
  cases e with
  | accept c sock =>
    refine ⟨rfl, ?_⟩
    intro c' conn hlock
    cases lock_conns hlock
  | _ => trivial

theorem inv_start (n : Nat) : (start n : TcpServer C).Inv where
  indexed _ := TimerHeap.indexed_new
  nodup _ := List.nodup_nil
  channel c conn h := by cases h
  table fd c h := by cases h
  entry c l fd h := by
    obtain ⟨conn, hconn, -⟩ := h.conn
    cases hconn
  tasks c l h := by cases h
  epoll l fd reg h := by cases h
  timers l fd timer h := by cases h
  served c l fd h := by
    obtain ⟨conn, hconn, -⟩ := h.conn
    cases hconn

theorem run_inv (hk : ∀ a conn ms conn', onMessage a conn = .ok (ms, conn') → Keeps conn conn') {n : Nat}
    {es : List (Event A)}
    (h : Labelled.Run (Step onMessage) (start n) es s) : s.Inv :=
  h.invariant (fun _ _ _ hi hs => (step_effect hk hi hs).inv) (inv_start n)

end TcpServer

end HahaWeb
