/-
  HahaWeb.Net.Callbacks — the three tables that know a connection by its descriptor, and
  what a callback does to them.

  The server's table, a loop's registrations and its timers use descriptors, which the
  kernel hands out again. A step works on one connection: `Around` says what it leaves
  alone, and `Settled` how it leaves that connection, which goes on or is over. The
  hang-up path leaves a timer behind; it refers to a connection that is gone, and is
  replaced when its descriptor gets a timer in the same loop. Proved: such a step keeps
  what the tables say of every connection (`Inv.around`), and each part of a callback is
  such a step.
-/

import HahaWeb.Net.TcpServer
import HahaWeb.Net.Delivery

namespace HahaWeb

/-! ## Operations on a loop -/

namespace EventLoop

variable {loop loop' : EventLoop} {fd : Fd}

theorem onTimers_some {f : TimerHeap ConnId → Except Fault (TimerHeap ConnId)} (h : loop.onTimers f = some loop') :
    ∃ timers, f loop.timers = .ok timers ∧ loop' = { loop with timers := timers } := by
  unfold onTimers at h
  cases hf : f loop.timers with
  | error e =>
    rw [hf] at h
    cases h
  | ok timers =>
    rw [hf] at h
    cases h
    exact ⟨timers, rfl, rfl⟩

end EventLoop

namespace TcpServer

open TimerHeap (Indexed)

variable {C A : Type} {s s' s'' : TcpServer C} {c : ConnId} {l : Nat} {fd : Fd}

/-! ## What a step about one connection leaves alone -/

/-- The states differ in the connection `c`, in what the loop `l` has for the descriptor `fd`
    and in the table's entry for it, at most. -/
structure Around (c : ConnId) (l : Nat) (fd : Fd) (s s' : TcpServer C) : Prop where
  conns : ∀ c', c' ≠ c → s'.conns c' = s.conns c'
  connects : ∀ fd', fd' ≠ fd → s'.connects fd' = s.connects fd'
  loops : ∀ l', l' ≠ l → s'.loops l' = s.loops l'
  epoll : ∀ fd', fd' ≠ fd → (s'.loops l).epoll fd' = (s.loops l).epoll fd'
  timers : ∀ fd', fd' ≠ fd → (s'.loops l).timers.timers fd' = (s.loops l).timers.timers fd'
  indexed : Indexed (s.loops l).timers → Indexed (s'.loops l).timers
  tasks : ∀ c', c' ≠ c → (c' ∈ (s'.loops l).tasks ↔ c' ∈ (s.loops l).tasks)
  nodup : (s.loops l).tasks.Nodup → (s'.loops l).tasks.Nodup

theorem Around.refl (c : ConnId) (l : Nat) (fd : Fd) (s : TcpServer C) : Around c l fd s s :=
  ⟨fun _ _ => rfl, fun _ _ => rfl, fun _ _ => rfl, fun _ _ => rfl, fun _ _ => rfl, id, fun _ _ => .rfl, id⟩

theorem Around.trans (h : Around c l fd s s') (h' : Around c l fd s' s'') : Around c l fd s s'' where
  conns c' hc := (h'.conns c' hc).trans (h.conns c' hc)
  connects fd' hfd := (h'.connects fd' hfd).trans (h.connects fd' hfd)
  loops l' hl := (h'.loops l' hl).trans (h.loops l' hl)
  epoll fd' hfd := (h'.epoll fd' hfd).trans (h.epoll fd' hfd)
  timers fd' hfd := (h'.timers fd' hfd).trans (h.timers fd' hfd)
  indexed hi := h'.indexed (h.indexed hi)
  tasks c' hc := (h'.tasks c' hc).trans (h.tasks c' hc)
  nodup hn := h'.nodup (h.nodup hn)

theorem around_setConn (s : TcpServer C) (c : ConnId) (l : Nat) (fd : Fd) (conn : TcpConnection C) :
    Around c l fd s (s.setConn c conn) where
  conns _ hc := Function.update_of_ne hc _ _
  connects _ _ := rfl
  loops _ _ := rfl
  epoll _ _ := rfl
  timers _ _ := rfl
  indexed := id
  tasks _ _ := .rfl
  nodup := id

@[simp] theorem setLoop_loops_same (s : TcpServer C) (l : Nat) (loop : EventLoop) : (s.setLoop l loop).loops l = loop :=
  Function.update_self _ _ _

@[simp] theorem setLoop_setLoop (s : TcpServer C) (l : Nat) (loop loop' : EventLoop) :
    (s.setLoop l loop).setLoop l loop' = s.setLoop l loop' := by
  simp only [setLoop, Function.update_idem]

/-- Only the registration of `fd` is changed. -/
theorem around_epoll (s : TcpServer C) (c : ConnId) {loop : EventLoop}
    (he : ∀ fd', fd' ≠ fd → loop.epoll fd' = (s.loops l).epoll fd')
    (ht : loop.timers = (s.loops l).timers) (hk : loop.tasks = (s.loops l).tasks) : Around c l fd s
    (s.setLoop l loop) where
  conns _ _ := rfl
  connects _ _ := rfl
  loops _ hl := Function.update_of_ne hl _ _
  epoll fd' hfd := by rw [setLoop_loops_same, he fd' hfd]
  timers _ _ := by rw [setLoop_loops_same, ht]
  indexed := by rw [setLoop_loops_same, ht]; exact id
  tasks _ _ := by rw [setLoop_loops_same, hk]
  nodup := by rw [setLoop_loops_same, hk]; exact id

/-- Only the timer of `fd` is changed. -/
theorem around_timers (s : TcpServer C) (c : ConnId) {timers : TimerHeap ConnId} (hx : Indexed timers)
    (ht : ∀ fd', fd' ≠ fd → timers.timers fd' = (s.loops l).timers.timers fd') :
    Around c l fd s (s.setLoop l { s.loops l with timers := timers }) where
  conns _ _ := rfl
  connects _ _ := rfl
  loops _ hl := Function.update_of_ne hl _ _
  epoll _ _ := by rw [setLoop_loops_same]
  timers fd' hfd := by rw [setLoop_loops_same, ht fd' hfd]
  indexed _ := by rw [setLoop_loops_same]; exact hx
  tasks _ _ := by rw [setLoop_loops_same]
  nodup := by rw [setLoop_loops_same]; exact id

/-! ## The invariant -/

/-- The connection is known under this descriptor, in this loop, and is not disconnected. -/
structure Open (s : TcpServer C) (c : ConnId) (l : Nat) (fd : Fd) : Prop where
  conn : ∃ conn, s.conns c = some conn ∧ conn.sock.fd = fd ∧ conn.disconnected = false ∧
    conn.channel.map Channel.loop = some l

/-- The connection is known, or was, under this descriptor, in this loop. -/
def Found (s : TcpServer C) (c : ConnId) (l : Nat) (fd : Fd) : Prop :=
  ∃ conn, s.conns c = some conn ∧ conn.sock.fd = fd ∧ conn.channel.map Channel.loop = some l

theorem Open.found (h : s.Open c l fd) : s.Found c l fd := by
  obtain ⟨conn, hconn, hfd, -, hl⟩ := h.conn
  exact ⟨conn, hconn, hfd, hl⟩

/-- The loop has a timer for the connection. -/
def Timed (s : TcpServer C) (c : ConnId) (l : Nat) (fd : Fd) : Prop :=
  ∃ timer, (s.loops l).timers.timers fd = some timer ∧ timer.cb = c

/-- What the tables say of a connection that has run `onConnect`. -/
structure Served (s : TcpServer C) (c : ConnId) (l : Nat) (fd : Fd) : Prop where
  epoll : ∃ reg, (s.loops l).epoll fd = some reg ∧ reg.conn = c ∧ reg.arming ≠ .disarmed
  timer : s.Timed c l fd

structure Inv (s : TcpServer C) : Prop where
  indexed : ∀ l, Indexed (s.loops l).timers
  nodup : ∀ l, (s.loops l).tasks.Nodup
  channel : ∀ c conn, s.conns c = some conn → conn.channel.isSome
  /-- The table's entries are under their own descriptors. -/
  table : ∀ fd c, s.connects fd = some c → ∃ conn, s.conns c = some conn ∧ conn.sock.fd = fd
  entry : ∀ c l fd, s.Open c l fd → s.connects fd = some c
  tasks : ∀ c l, c ∈ (s.loops l).tasks → ∃ fd, s.Open c l fd
  epoll : ∀ l fd reg, (s.loops l).epoll fd = some reg → s.Open reg.conn l fd ∧ reg.conn ∉ (s.loops l).tasks
  /-- A timer refers to a connection that has run `onConnect`, ended or not. -/
  timers : ∀ l fd timer, (s.loops l).timers.timers fd = some timer → s.Found timer.cb l fd ∧
    ∀ l', timer.cb ∉ (s.loops l').tasks
  served : ∀ c l fd, s.Open c l fd → c ∉ (s.loops l).tasks → s.Served c l fd

theorem Found.unique (h : s.Found c l fd) {l' : Nat} {fd' : Fd} (h' : s.Found c l' fd') : l' = l ∧ fd' = fd := by
  obtain ⟨conn, hc, hfd, hl⟩ := h
  obtain ⟨conn', hc', hfd', hl'⟩ := h'
  rw [hc] at hc'
  cases hc'
  rw [hl] at hl'
  exact ⟨(Option.some.inj hl').symm, hfd'.symm.trans hfd⟩

theorem Open.unique (h : s.Open c l fd) {l' : Nat} {fd' : Fd} (h' : s.Open c l' fd') : l' = l ∧ fd' = fd :=
  h.found.unique h'.found

/-- A descriptor belongs to one open connection. -/
theorem Inv.open_inj (hi : s.Inv) {c' : ConnId} {l' : Nat} (h : s.Open c l fd) (h' : s.Open c' l' fd) : c' = c := by
  have he := hi.entry c l fd h
  rw [hi.entry c' l' fd h'] at he
  exact Option.some.inj he

/-! ## The connection a step is about -/

/-- It goes on. -/
structure Stands (s : TcpServer C) (c : ConnId) (l : Nat) (fd : Fd) : Prop where
  isOpen : s.Open c l fd
  entry : s.connects fd = some c
  started : c ∉ (s.loops l).tasks
  served : s.Served c l fd

/-- It is over. -/
structure Ends (s : TcpServer C) (c : ConnId) (l : Nat) (fd : Fd) : Prop where
  found : s.Found c l fd
  gone : ∀ conn, s.conns c = some conn → conn.disconnected = true
  entry : s.connects fd = none
  epoll : (s.loops l).epoll fd = none
  started : c ∉ (s.loops l).tasks
  timer : ∀ timer, (s.loops l).timers.timers fd = some timer → timer.cb = c

theorem Ends.not_open (h : s.Ends c l fd) (l' : Nat) (fd' : Fd) : ¬ s.Open c l' fd' := by
  intro ho
  obtain ⟨conn, hc, -, hd, -⟩ := ho.conn
  rw [h.gone conn hc] at hd
  cases hd

def Settled (s : TcpServer C) (c : ConnId) (l : Nat) (fd : Fd) : Prop := s.Stands c l fd ∨ s.Ends c l fd

theorem Settled.found (h : s.Settled c l fd) : s.Found c l fd := h.elim (fun hs => hs.isOpen.found) Ends.found

theorem Settled.started (h : s.Settled c l fd) : c ∉ (s.loops l).tasks := h.elim Stands.started Ends.started

theorem Settled.stands (h : s.Settled c l fd) {l' : Nat} {fd' : Fd} (ho : s.Open c l' fd') :
    l' = l ∧ fd' = fd ∧ s.Stands c l fd := by
  rcases h with hs | he
  · obtain ⟨hl, hfd⟩ := hs.isOpen.unique ho
    exact ⟨hl, hfd, hs⟩
  · exact absurd ho (he.not_open l' fd')

theorem Settled.entry (h : s.Settled c l fd) {c' : ConnId} (hc : s.connects fd = some c') : c' = c := by
  rcases h with hs | he
  · rw [hs.entry] at hc
    exact (Option.some.inj hc).symm
  · rw [he.entry] at hc
    cases hc

theorem Settled.epoll (h : s.Settled c l fd) {reg : Registration} (hr : (s.loops l).epoll fd = some reg) :
    reg.conn = c ∧ s.Open c l fd := by
  rcases h with hs | he
  · obtain ⟨reg', hr', hc, -⟩ := hs.served.epoll
    rw [hr] at hr'
    cases hr'
    exact ⟨hc, hs.isOpen⟩
  · rw [he.epoll] at hr
    cases hr

theorem Settled.timer (h : s.Settled c l fd) {timer : Timer ConnId} (ht : (s.loops l).timers.timers fd = some timer) :
    timer.cb = c := by
  rcases h with hs | he
  · obtain ⟨timer', ht', hcb⟩ := hs.served.timer
    rw [ht] at ht'
    cases ht'
    exact hcb
  · exact he.timer timer ht

theorem Around.found_iff (h : Around c l fd s s') {c' : ConnId} (hc : c' ≠ c) (l' : Nat) (fd' : Fd) :
    s'.Found c' l' fd' ↔ s.Found c' l' fd' := by
  rw [Found, Found, h.conns c' hc]

theorem Around.open_iff (h : Around c l fd s s') {c' : ConnId} (hc : c' ≠ c) (l' : Nat) (fd' : Fd) :
    s'.Open c' l' fd' ↔ s.Open c' l' fd' := by
  constructor
  · intro ho
    obtain ⟨conn, hconn⟩ := ho.conn
    rw [h.conns c' hc] at hconn
    exact ⟨conn, hconn⟩
  · intro ho
    obtain ⟨conn, hconn⟩ := ho.conn
    rw [← h.conns c' hc] at hconn
    exact ⟨conn, hconn⟩

theorem Around.mem_tasks (h : Around c l fd s s') {c' : ConnId} (hc : c' ≠ c) (l' : Nat) :
    c' ∈ (s'.loops l').tasks ↔ c' ∈ (s.loops l').tasks := by
  by_cases hl : l' = l
  · rw [hl]
    exact h.tasks c' hc
  · rw [h.loops l' hl]

theorem Around.served (h : Around c l fd s s') {c' : ConnId} {l' : Nat} {fd' : Fd} (hfd : fd' ≠ fd)
    (hs : s.Served c' l' fd') :
    s'.Served c' l' fd' := by
  obtain ⟨he, ht⟩ := hs
  unfold Timed at ht
  by_cases hl : l' = l
  · subst hl
    exact ⟨by rwa [h.epoll fd' hfd], by rwa [Timed, h.timers fd' hfd]⟩
  · exact ⟨by rwa [h.loops l' hl], by rwa [Timed, h.loops l' hl]⟩

/-- What a loop has for a descriptor is about the connection, or was there before. -/
theorem Around.reg (h : Around c l fd s s') (hc : s'.Settled c l fd) {l' : Nat} {fd' : Fd} {reg : Registration}
    (hr : (s'.loops l').epoll fd' = some reg) :
    (l' = l ∧ fd' = fd ∧ reg.conn = c ∧ s'.Open c l fd) ∨
    (¬ (l' = l ∧ fd' = fd) ∧ (s.loops l').epoll fd' = some reg) := by
  by_cases hl : l' = l
  · subst hl
    by_cases hfd : fd' = fd
    · subst hfd
      exact .inl ⟨rfl, rfl, hc.epoll hr⟩
    · rw [h.epoll fd' hfd] at hr
      exact .inr ⟨fun hn => hfd hn.2, hr⟩
  · rw [h.loops l' hl] at hr
    exact .inr ⟨fun hn => hl hn.1, hr⟩

theorem Around.timer (h : Around c l fd s s') (hc : s'.Settled c l fd) {l' : Nat} {fd' : Fd} {timer : Timer ConnId}
    (ht : (s'.loops l').timers.timers fd' = some timer) :
    (l' = l ∧ fd' = fd ∧ timer.cb = c) ∨ (¬ (l' = l ∧ fd' = fd) ∧ (s.loops l').timers.timers fd' = some timer) := by
  by_cases hl : l' = l
  · subst hl
    by_cases hfd : fd' = fd
    · subst hfd
      exact .inl ⟨rfl, rfl, hc.timer ht⟩
    · rw [h.timers fd' hfd] at ht
      exact .inr ⟨fun hn => hfd hn.2, ht⟩
  · rw [h.loops l' hl] at ht
    exact .inr ⟨fun hn => hl hn.1, ht⟩

/-- The connection is in no queue. -/
theorem Around.started (hi : s.Inv) (ho : s.Open c l fd) (h : Around c l fd s s') (hc : s'.Settled c l fd) (l' : Nat) :
    c ∉ (s'.loops l').tasks := by
  intro hmem
  by_cases hl : l' = l
  · rw [hl] at hmem
    exact hc.started hmem
  · rw [h.loops l' hl] at hmem
    obtain ⟨fd', ho'⟩ := hi.tasks c l' hmem
    exact hl (ho.unique ho').1

/-- Another connection that is open was open before, and has another descriptor. -/
theorem Around.other (hi : s.Inv) (ho : s.Open c l fd) (h : Around c l fd s s') {c' : ConnId} {l' : Nat}
    {fd' : Fd} (hne : c' ≠ c)
    (ho' : s'.Open c' l' fd') : s.Open c' l' fd' ∧ fd' ≠ fd := by
  have hbefore := (h.open_iff hne l' fd').mp ho'
  refine ⟨hbefore, ?_⟩
  intro hfd
  rw [hfd] at hbefore
  exact hne (hi.open_inj ho hbefore)

/-- A step about an open connection that leaves it going on or over keeps the invariant. -/
theorem Inv.around (hi : s.Inv) (ho : s.Open c l fd) (h : Around c l fd s s') (hc : s'.Settled c l fd) : s'.Inv where
  indexed l' := by
    by_cases hl : l' = l
    · rw [hl]
      exact h.indexed (hi.indexed l)
    · rw [h.loops l' hl]
      exact hi.indexed l'
  nodup l' := by
    by_cases hl : l' = l
    · rw [hl]
      exact h.nodup (hi.nodup l)
    · rw [h.loops l' hl]
      exact hi.nodup l'
  channel c' conn hconn := by
    by_cases hne : c' = c
    · subst hne
      obtain ⟨conn', hc', -, hl⟩ := hc.found
      cases hconn.symm.trans hc'
      exact Option.isSome_map.symm.trans (by rw [hl]; rfl)
    · rw [h.conns c' hne] at hconn
      exact hi.channel c' conn hconn
  table fd' c' hent := by
    by_cases hfd : fd' = fd
    · subst hfd
      rw [hc.entry hent]
      obtain ⟨conn, hconn, hfd', -⟩ := hc.found
      exact ⟨conn, hconn, hfd'⟩
    · rw [h.connects fd' hfd] at hent
      obtain ⟨conn, hconn, hfd'⟩ := hi.table fd' c' hent
      have hne : c' ≠ c := by
        intro hne
        subst hne
        obtain ⟨conn', hconn', hfd'', -⟩ := ho.conn
        cases hconn.symm.trans hconn'
        exact hfd (hfd'.symm.trans hfd'')
      exact ⟨conn, by rw [h.conns c' hne, hconn], hfd'⟩
  entry c' l' fd' ho' := by
    by_cases hne : c' = c
    · subst hne
      obtain ⟨-, rfl, hs⟩ := hc.stands ho'
      exact hs.entry
    · obtain ⟨hbefore, hfd⟩ := h.other hi ho hne ho'
      rw [h.connects fd' hfd]
      exact hi.entry c' l' fd' hbefore
  tasks c' l' hmem := by
    by_cases hne : c' = c
    · subst hne
      exact absurd hmem (h.started hi ho hc l')
    · obtain ⟨fd', ho'⟩ := hi.tasks c' l' ((h.mem_tasks hne l').mp hmem)
      exact ⟨fd', (h.open_iff hne l' fd').mpr ho'⟩
  epoll l' fd' reg hreg := by
    rcases h.reg hc hreg with ⟨rfl, rfl, hcb, ho'⟩ | ⟨hat, hreg'⟩
    · rw [hcb]
      exact ⟨ho', hc.started⟩
    · obtain ⟨ho', hnot⟩ := hi.epoll l' fd' reg hreg'
      have hne : reg.conn ≠ c := by
        intro hne
        rw [hne] at ho'
        exact hat (ho.unique ho')
      exact ⟨(h.open_iff hne l' fd').mpr ho', (h.mem_tasks hne l').not.mpr hnot⟩
  timers l' fd' timer htimer := by
    rcases h.timer hc htimer with ⟨rfl, rfl, hcb⟩ | ⟨hat, htimer'⟩
    · rw [hcb]
      exact ⟨hc.found, h.started hi ho hc⟩
    · obtain ⟨hf, hnot⟩ := hi.timers l' fd' timer htimer'
      have hne : timer.cb ≠ c := by
        intro hne
        rw [hne] at hf
        exact hat (ho.found.unique hf)
      refine ⟨(h.found_iff hne l' fd').mpr hf, ?_⟩
      intro l''
      exact (h.mem_tasks hne l'').not.mpr (hnot l'')
  served c' l' fd' ho' hnot := by
    by_cases hne : c' = c
    · subst hne
      obtain ⟨rfl, rfl, hs⟩ := hc.stands ho'
      exact hs.served
    · obtain ⟨hbefore, hfd⟩ := h.other hi ho hne ho'
      exact h.served hfd (hi.served c' l' fd' hbefore ((h.mem_tasks hne l').not.mp hnot))

/-! ## Callbacks -/

/-- Inside a callback of the connection, begun in the state `s`. -/
structure During (s : TcpServer C) (c : ConnId) (l : Nat) (fd : Fd) (u : TcpServer C) : Prop where
  around : Around c l fd s u
  isOpen : u.Open c l fd
  entry : u.connects fd = some c
  started : c ∉ (u.loops l).tasks
  registered : ((u.loops l).epoll fd).isSome
  indexed : Indexed (u.loops l).timers
  timer : ∀ timer, (u.loops l).timers.timers fd = some timer → timer.cb = c

/-- What the callbacks and `onMessage` leave of a connection. -/
structure Keeps (conn conn' : TcpConnection C) : Prop where
  sock : conn'.sock = conn.sock
  channel : conn'.channel = conn.channel
  disconnected : conn'.disconnected = conn.disconnected

theorem Keeps.trans {conn conn' conn'' : TcpConnection C} (h : Keeps conn conn') (h' : Keeps conn' conn'') :
    Keeps conn conn'' :=
  ⟨h'.sock.trans h.sock, h'.channel.trans h.channel, h'.disconnected.trans h.disconnected⟩

variable {u v : TcpServer C} {conn conn' : TcpConnection C} {ch : Channel}

@[simp] theorem setConn_conns_same (s : TcpServer C) (c : ConnId) (conn : TcpConnection C) :
    (s.setConn c conn).conns c = some conn :=
  Function.update_self _ _ _

theorem lock_of_entry (hc : u.conns c = some conn) (he : u.connects conn.sock.fd = some c) : u.lock c = some conn := by
  simp [lock, hc, he]

theorem lock_conns (h : u.lock c = some conn) : u.conns c = some conn := (Option.filter_eq_some_iff.mp h).1

/-- The connection of a callback, as `lock` gives it. -/
theorem During.lock (h : During s c l fd u) : ∃ conn ch, u.lock c = some conn ∧ u.live c = some (conn, ch) ∧
    conn.channel = some ch ∧ ch.loop = l ∧ conn.sock.fd = fd ∧ conn.disconnected = false := by
  obtain ⟨conn, hc, hfd, hd, hl⟩ := h.isOpen.conn
  have hlock : u.lock c = some conn := lock_of_entry hc (by rw [hfd]; exact h.entry)
  cases hch : conn.channel with
  | none =>
    rw [hch] at hl
    cases hl
  | some ch =>
    rw [hch] at hl
    refine ⟨conn, ch, hlock, ?_, hch, Option.some.inj hl, hfd, hd⟩
    simp [live, hlock, hch, hd]

theorem During.setConn (h : During s c l fd u) (hc : u.conns c = some conn) (hk : Keeps conn conn') :
    During s c l fd (u.setConn c conn') := by
  refine ⟨h.around.trans (around_setConn u c l fd conn'), ⟨conn', setConn_conns_same _ _ _, ?_⟩, h.entry, h.started,
    h.registered, h.indexed, h.timer⟩
  obtain ⟨conn0, hc0, hfd, hd, hl⟩ := h.isOpen.conn
  rw [hc] at hc0
  cases hc0
  rw [hk.sock, hk.disconnected, hk.channel]
  exact ⟨hfd, hd, hl⟩

theorem onLoop_timers {f : TimerHeap ConnId → Except Fault (TimerHeap ConnId)}
    (h : u.onLoop l (·.onTimers f) = some v) :
    ∃ timers, f (u.loops l).timers = .ok timers ∧ v = u.setLoop l { u.loops l with timers := timers } := by
  obtain ⟨loop, hloop, rfl⟩ := Option.map_eq_some_iff.mp h
  obtain ⟨timers, hok, rfl⟩ := EventLoop.onTimers_some hloop
  exact ⟨timers, hok, rfl⟩

/-- The timer of the descriptor is changed. -/
theorem During.setTimers {timers : TimerHeap ConnId} (h : During s c l fd u) (hx : Indexed timers)
    (hother : ∀ fd', fd' ≠ fd → timers.timers fd' = (u.loops l).timers.timers fd')
    (htimer : ∀ timer, timers.timers fd = some timer → timer.cb = c) :
    During s c l fd (u.setLoop l { u.loops l with timers := timers }) := by
  refine ⟨h.around.trans (around_timers u c hx hother), ?_, h.entry, ?_, ?_, ?_, ?_⟩
  · obtain ⟨conn, hconn⟩ := h.isOpen.conn
    exact ⟨conn, hconn⟩
  · rw [setLoop_loops_same]
    exact h.started
  · rw [setLoop_loops_same]
    exact h.registered
  · rw [setLoop_loops_same]
    exact hx
  · rw [setLoop_loops_same]
    exact htimer

theorem During.adjustTimer {expire : Nat} (h : During s c l fd u) (ht : u.Timed c l fd)
    (hf : u.onLoop l (·.adjustTimer fd expire) = some v) : During s c l fd v ∧ v.Timed c l fd ∧ v.conns = u.conns := by
  obtain ⟨timers, hok, rfl⟩ := onLoop_timers hf
  obtain ⟨timers', hok', hb⟩ := TimerHeap.adjust_becomes h.indexed fd expire
  rw [hok] at hok'
  cases hok'
  obtain ⟨timer, htimer, hcb⟩ := ht
  have hnew : timers.timers fd = some { timer with expire := expire } := by
    rw [hb.timers, Function.update_self, htimer]
    rfl
  refine ⟨h.setTimers hb.indexed ?_ ?_, ⟨{ timer with expire := expire }, ?_, hcb⟩, rfl⟩
  · intro fd' hfd
    rw [hb.timers, Function.update_of_ne hfd]
  · intro timer' htimer'
    rw [hnew] at htimer'
    cases htimer'
    exact hcb
  · rw [setLoop_loops_same, hnew]

theorem During.delTimer (h : During s c l fd u) (hf : u.onLoop l (·.delTimer fd) = some v) :
    During s c l fd v ∧ v.conns = u.conns := by
  obtain ⟨timers, hok, rfl⟩ := onLoop_timers hf
  obtain ⟨timers', hok', hb⟩ := TimerHeap.remove_becomes h.indexed fd
  rw [hok] at hok'
  cases hok'
  refine ⟨h.setTimers hb.indexed ?_ ?_, rfl⟩
  · intro fd' hfd
    rw [hb.timers, Function.update_of_ne hfd]
  · intro timer htimer
    rw [hb.timers, Function.update_self] at htimer
    cases htimer

theorem During.rearm (h : During s c l fd u) (ht : u.Timed c l fd) (hc : u.conns c = some conn) (hk : Keeps conn conn')
    (events : Events) :
    Around c l fd s (u.rearm l c conn' events) ∧ (u.rearm l c conn' events).Stands c l fd := by
  obtain ⟨conn0, hc0, hfd, hd, hl⟩ := h.isOpen.conn
  rw [hc] at hc0
  cases hc0
  have hfd' : conn'.sock.fd = fd := by rw [hk.sock, hfd]
  have hmod : (u.loops l).modChannel fd c events =
      { u.loops l with epoll := Function.update (u.loops l).epoll fd (some ⟨c, events, .armed⟩) } := by
    rw [EventLoop.modChannel, if_pos h.registered]
  rw [TcpServer.rearm, hfd', hmod]
  refine ⟨h.around.trans ((around_setConn u c l fd _).trans (around_epoll _ c ?_ rfl rfl)),
    ⟨⟨_, setConn_conns_same _ _ _, hfd', ?_, ?_⟩,
    h.entry, ?_, ⟨⟨c, events, .armed⟩, ?_, rfl, by simp⟩, ?_⟩⟩
  · intro fd' hne
    exact Function.update_of_ne hne _ _
  · show conn'.disconnected = false
    rw [hk.disconnected, hd]
  · show (conn'.channel.map fun ch => { ch with events := events }).map Channel.loop = some l
    rw [hk.channel, Option.map_map, ← hl]
    rfl
  · rw [setLoop_loops_same]
    exact h.started
  · rw [setLoop_loops_same]
    exact Function.update_self _ _ _
  · rw [Timed, setLoop_loops_same]
    exact ht

theorem During.close (h : During s c l fd u) (hc : u.conns c = some conn) :
    Around c l fd s (u.handleConnectionClose c) ∧ (u.handleConnectionClose c).Ends c l fd ∧
      (u.handleConnectionClose c).conns c = some { conn with disconnected := true } := by
  obtain ⟨conn0, ch, hlock, hlive, hch, rfl, hfd, -⟩ := h.lock
  have hconn := lock_conns hlock
  rw [hc] at hconn
  cases hconn
  rw [handleConnectionClose, hlive]
  dsimp only
  rw [hfd]
  have hclosed : ((u.setLoop ch.loop ((u.loops ch.loop).delChannel fd)).setConn c
    { conn with disconnected := true }).conns c =
      some { conn with disconnected := true } := setConn_conns_same _ _ _
  have hloop : Around c ch.loop fd u (u.setLoop ch.loop ((u.loops ch.loop).delChannel fd)) := by
    refine around_epoll u c ?_ ?_ ?_
    · intro fd' hne
      exact Function.update_of_ne hne _ _
    · rfl
    · rfl
  refine ⟨h.around.trans ?_, ⟨⟨_, hclosed, hfd, by simp [hch]⟩, ?_, Function.update_self _ _ _, ?_, ?_, ?_⟩, hclosed⟩
  · refine hloop.trans ((around_setConn _ c ch.loop fd { conn with disconnected := true }).trans ?_)
    exact ⟨fun _ _ => rfl, fun fd' hne => Function.update_of_ne hne _ _, fun _ _ => rfl, fun _ _ => rfl,
      fun _ _ => rfl, id,
        fun _ _ => .rfl, id⟩
  · intro conn' hconn'
    cases hclosed.symm.trans hconn'
    rfl
  · show (((u.setLoop ch.loop ((u.loops ch.loop).delChannel fd)).loops ch.loop).epoll fd) = none
    rw [setLoop_loops_same]
    exact Function.update_self _ _ _
  · show c ∉ ((u.setLoop ch.loop ((u.loops ch.loop).delChannel fd)).loops ch.loop).tasks
    rw [setLoop_loops_same]
    exact h.started
  · show ∀ timer, ((u.setLoop ch.loop ((u.loops ch.loop).delChannel fd)).loops ch.loop).timers.timers fd =
      some timer → timer.cb = c
    rw [setLoop_loops_same]
    exact h.timer

theorem During.delTimerAndClose (h : During s c l fd u) (hc : u.conns c = some conn)
    (hv : u.delTimerAndClose l c fd = some v) :
    Around c l fd s v ∧ v.Ends c l fd ∧ v.conns c = some { conn with disconnected := true } := by
  obtain ⟨w, hw, rfl⟩ := Option.map_eq_some_iff.mp hv
  obtain ⟨hd, hconns⟩ := h.delTimer hw
  exact hd.close (hconns ▸ hc)

/-! ### Reading and writing -/

/-- A read or write callback begins with the timer. -/
theorem During.serve {expire : Nat} {callback : TcpServer C → Option (TcpServer C)} (h : During s c l fd u)
    (ht : u.Timed c l fd) (hv : u.serve c expire callback = some v) :
    ∃ w, During s c l fd w ∧ w.Timed c l fd ∧ w.conns = u.conns ∧ callback w = some v := by
  obtain ⟨conn, ch, -, hlive, -, rfl, rfl, -⟩ := h.lock
  rw [TcpServer.serve, hlive] at hv
  obtain ⟨w, hw, hcall⟩ := Option.bind_eq_some_iff.mp hv
  obtain ⟨hd, ht', hconns⟩ := h.adjustTimer ht hw
  exact ⟨w, hd, ht', hconns, hcall⟩

variable {onMessage : App C A}

/-- What `onRecv` does: it closes the connection, or hands it to `onMessage` and arms it. -/
theorem During.onRecv {a : A} {rs : List (Except Nat Bytes)} {errno : Nat} (h : During s c l fd u)
    (hc : u.conns c = some conn)
    (hv : u.onRecv onMessage c a rs errno = some v) : ∃ status errno' conn1 rest,
      conn.recv rs errno = some (status, errno', conn1, rest) ∧
      (((status = .closed ∨ status = .error) ∧ (u.setConn c conn1).delTimerAndClose l c fd = some v) ∨
        (¬ (status = .closed ∨ status = .error) ∧ ∃ ms conn2, onMessage a conn1 = .ok (ms, conn2) ∧
          v = u.rearm l c conn2 (if ms = .again then .epollin else .epollout))) := by
  obtain ⟨conn0, ch, hlock, -, hch, rfl, rfl, -⟩ := h.lock
  have hconn := lock_conns hlock
  rw [hc] at hconn
  cases hconn
  rw [TcpServer.onRecv, hlock] at hv
  obtain ⟨⟨status, errno', conn1, rest⟩, hr, hv⟩ := Option.bind_eq_some_iff.mp hv
  obtain ⟨recver, rfl⟩ := TcpConnection.recv_eq hr
  obtain ⟨ch', hch', hv⟩ := Option.bind_eq_some_iff.mp hv
  cases hch.symm.trans hch'
  refine ⟨status, errno', _, rest, hr, ?_⟩
  by_cases hs : status = .closed ∨ status = .error
  · rw [if_pos hs] at hv
    exact .inl ⟨hs, hv⟩
  · rw [if_neg hs] at hv
    obtain ⟨⟨ms, conn2⟩, hm, hv⟩ := Option.bind_eq_some_iff.mp hv
    cases hv
    refine .inr ⟨hs, ms, conn2, ?_, rfl⟩
    cases hon : onMessage a { conn with recver := recver } with
    | error f =>
      rw [hon] at hm
      cases hm
    | ok r =>
      rw [hon] at hm
      cases hm
      rfl

/-- What `onSend` does: it arms the connection, or closes it. -/
theorem During.onSend {rs : List Buffer.SysRet} {errno : Nat} (h : During s c l fd u) (hc : u.conns c = some conn)
    (hv : u.onSend c rs errno = some v) : ∃ status errno' conn1 wire rest,
      conn.send rs errno = some (status, errno', conn1, wire, rest) ∧
      ((status = .again ∧ v = u.rearm l c conn1 .epollout) ∨
        (status = .completed ∧ conn1.keepAlive = true ∧ v = u.rearm l c conn1 .epollin) ∨
        (status ≠ .again ∧ ¬ (status = .completed ∧ conn1.keepAlive = true) ∧
          (u.setConn c conn1).delTimerAndClose l c fd = some v)) := by
  obtain ⟨conn0, ch, hlock, -, hch, rfl, rfl, -⟩ := h.lock
  have hconn := lock_conns hlock
  rw [hc] at hconn
  cases hconn
  rw [TcpServer.onSend, hlock] at hv
  obtain ⟨⟨status, errno', conn1, wire, rest⟩, hr, hv⟩ := Option.bind_eq_some_iff.mp hv
  obtain ⟨sender, file, rfl⟩ := TcpConnection.send_eq hr
  obtain ⟨ch', hch', hv⟩ := Option.bind_eq_some_iff.mp hv
  cases hch.symm.trans hch'
  refine ⟨status, errno', _, wire, rest, hr, ?_⟩
  cases status with
  | again =>
    cases hv
    exact .inl ⟨rfl, rfl⟩
  | completed =>
    cases hk : conn.keepAlive with
    | true =>
      simp only [hk, if_true, Option.some.injEq] at hv
      exact .inr (.inl ⟨rfl, rfl, hv.symm⟩)
    | false =>
      simp only [hk, Bool.false_eq_true, if_false] at hv
      exact .inr (.inr ⟨by simp, by simp, hv⟩)
  | error => exact .inr (.inr ⟨by simp, by simp, hv⟩)
  | closed => exact .inr (.inr ⟨by simp, by simp, hv⟩)

end TcpServer

end HahaWeb
