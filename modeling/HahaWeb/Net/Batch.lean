/-
  HahaWeb.Net.Batch — `EventLoop::loop`: the events of one `epoll_wait`, one after the other.

  The loop has the addresses of the channels that `epoll_wait` reported and calls each
  through its address; only when it is through does it run its tasks and wait again. A
  channel goes with its connection. One of the events may be the loop's timerfd, whose
  callback ends connections of this loop, also such as are reported in the same batch.

  Proved: as long as no call is made through a channel that is gone, what the loops do is a
  run of the server, and a channel that is still to be called is gone if and only if the
  timer of its connection fired in this batch while the connection had no context
  (`dangling_iff`). One with a context is kept alive by it, and its callback finds the
  connection disconnected.
-/

import HahaWeb.Net.Lifecycle

namespace HahaWeb

namespace TcpServer

variable {C A : Type} {s s' : TcpServer C} {c : ConnId} {l : Nat} {fd : Fd} {onMessage : App C A} {e : Event A}

/-! ## What a step leaves alone -/

/-- A connection that is over, and in no table. -/
structure Over (s : TcpServer C) (c : ConnId) : Prop where
  conn : ∃ conn, s.conns c = some conn ∧ conn.disconnected = true
  entry : ∀ fd, s.connects fd ≠ some c

theorem Over.not_alive (h : s.Over c) : ¬ s.Alive c := by
  obtain ⟨conn, hconn, hd⟩ := h.conn
  intro ⟨conn', hconn', hd'⟩
  cases hconn.symm.trans hconn'
  cases hd.symm.trans hd'

/-- The table has only connections that go on. -/
def Current (s : TcpServer C) : Prop := ∀ fd c, s.connects fd = some c → s.Alive c

theorem Current.gone (h : s.Current) {conn : TcpConnection C} (hc : s.conns c = some conn)
    (hd : conn.disconnected = true) : s.Over c := by
  refine ⟨⟨conn, hc, hd⟩, fun fd hent => ?_⟩
  obtain ⟨conn', hc', hd'⟩ := h fd c hent
  cases hc.symm.trans hc'
  cases hd.symm.trans hd'

/-- What a step may work on in a loop. -/
def Event.touches : Event A → Nat → Fd → Prop
  | .accept _ _, _, _ => False
  | .task l' _, l, _ | .timeout l' _, l, _ => l' = l
  | .report l' fd' _, l, fd | .hangup l' fd', l, fd => l' = l ∧ fd' = fd
  | .read l' fd' _ _ _ _, l, fd | .write l' fd' _ _ _, l, fd => l' = l ∧ fd' = fd

/-- What a step keeps: the table, what is over, and of a loop what it does not work on. -/
structure Leaves (touched : Nat → Fd → Prop) (s s' : TcpServer C) : Prop where
  current : s.Current → s'.Current
  gone : ∀ c, s.Over c → s'.Over c ∧ s'.conns c = s.conns c
  epoll : ∀ l fd, ¬ touched l fd → (s'.loops l).epoll fd = (s.loops l).epoll fd

variable {touched : Nat → Fd → Prop}

theorem Leaves.trans {s'' : TcpServer C} (h : Leaves touched s s') (h' : Leaves touched s' s'') :
    Leaves touched s s'' where
  current hs := h'.current (h.current hs)
  gone c hc := by
    obtain ⟨ho, hconns⟩ := h.gone c hc
    obtain ⟨ho', hconns'⟩ := h'.gone c ho
    exact ⟨ho', hconns'.trans hconns⟩
  epoll l fd ht := (h'.epoll l fd ht).trans (h.epoll l fd ht)

/-- A step that leaves the connections and the table alone. -/
theorem Leaves.same (hc : s'.conns = s.conns) (ht : s'.connects = s.connects)
    (he : ∀ l fd, ¬ touched l fd → (s'.loops l).epoll fd = (s.loops l).epoll fd) : Leaves touched s s' where
  current hs fd c hent := by
    rw [ht] at hent
    obtain ⟨conn, hconn⟩ := hs fd c hent
    exact ⟨conn, hc ▸ hconn⟩
  gone c ho := ⟨⟨hc ▸ ho.conn, ht ▸ ho.entry⟩, by rw [hc]⟩
  epoll := he

/-- A step about one connection that goes on. -/
theorem Leaves.around (hi : s.Inv) (ho : s.Open c l fd) (h : Around c l fd s s') (hc : s'.Settled c l fd)
    (ht : touched l fd) : Leaves touched s s' where
  current hs fd' c' hent := by
    by_cases hfd : fd' = fd
    · obtain rfl := hc.entry (hfd ▸ hent)
      rcases hc with hst | hend
      · exact hst.isOpen.exists_conn
      · rw [hfd, hend.entry] at hent
        cases hent
    · rw [h.connects fd' hfd] at hent
      obtain ⟨conn, hconn, hd⟩ := hs fd' c' hent
      have hne : c' ≠ c := by
        intro hcc
        subst hcc
        obtain ⟨conn1, hconn1, hfd1⟩ := hi.table fd' c' hent
        obtain ⟨conn2, hconn2, hfd2, -⟩ := ho.conn
        cases hconn1.symm.trans hconn2
        exact hfd (hfd1.symm.trans hfd2)
      exact ⟨conn, by rw [h.conns c' hne]; exact hconn, hd⟩
  gone c' hover := by
    have hne : c' ≠ c := fun hne => hover.not_alive (hne ▸ ho.exists_conn)
    have hconns := h.conns c' hne
    refine ⟨⟨hconns ▸ hover.conn, fun fd' hent => ?_⟩, hconns⟩
    by_cases hfd : fd' = fd
    · exact hne (hc.entry (hfd ▸ hent))
    · rw [h.connects fd' hfd] at hent
      exact hover.entry fd' hent
  epoll l' fd' hnot := by
    by_cases hl : l' = l
    · subst hl
      exact h.epoll fd' fun hfd => hnot (hfd ▸ ht)
    · rw [h.loops l' hl]

variable {e : Event A}

theorem leaves_task {expire : Nat} (hi : s.Inv) (h : s.perform onMessage (.task l expire) = some s') :
    Leaves (Event.touches (.task l expire : Event A)) s s' := by
  cases hq : (s.loops l).tasks with
  | nil =>
    simp only [perform, hq] at h
    cases h
  | cons c tasks =>
    simp only [perform, hq] at h
    obtain ⟨fd, ho⟩ := hi.tasks c l (hq ▸ List.mem_cons_self)
    obtain ⟨conn, hconn, -, -, hl⟩ := ho.conn
    obtain ⟨ch, hch, rfl⟩ := Option.map_eq_some_iff.mp hl
    unfold onConnect at h
    split at h
    · cases h
      exact .same rfl rfl fun l' _ hnot => congrArg (EventLoop.epoll · _) (Function.update_of_ne (Ne.symm hnot) _ _)
    · next conn' hlock =>
      cases (lock_conns hlock).symm.trans hconn
      simp only [hch, bind, Option.bind_some] at h
      obtain ⟨timers, -, rfl⟩ := onLoop_timers h
      refine .same rfl rfl fun l' _ hnot => ?_
      have hne : l' ≠ ch.loop := Ne.symm hnot
      simp [setLoop, Function.update_of_ne hne]

theorem leaves_report {ready : Ready} (h : s.perform onMessage (.report l fd ready) = some s') :
    Leaves (Event.touches (.report l fd ready : Event A)) s s' := by
  obtain ⟨reg, -, h⟩ := Option.bind_eq_some_iff.mp h
  by_cases hr : reg.Reports ready
  · rw [if_pos hr] at h
    cases h
    refine .same rfl rfl fun l' fd' hnot => ?_
    by_cases hl : l' = l
    · subst hl
      rw [setLoop_loops_same]
      exact Function.update_of_ne (fun hfd => hnot ⟨rfl, hfd.symm⟩) _ _
    · exact congrArg (EventLoop.epoll · _) (Function.update_of_ne hl _ _)
  · rw [if_neg hr] at h
    cases h

theorem leaves_accept {sock : Socket} (hc : s.conns c = none) :
    Leaves (Event.touches (.accept c sock : Event A)) s (s.handleServerAccept c sock) where
  current hs fd c' hent := by
    by_cases hfd : fd = sock.fd
    · rw [hfd, accept_connects_same] at hent
      cases hent
      exact ⟨_, accept_conns_same, rfl⟩
    · rw [accept_connects hfd] at hent
      obtain ⟨conn, hconn, hd⟩ := hs fd c' hent
      have hne : c' ≠ c := fun hne => by cases (hne ▸ hconn).symm.trans hc
      exact ⟨conn, by rw [accept_conns hne]; exact hconn, hd⟩
  gone c' ho := by
    obtain ⟨conn, hconn, hd⟩ := ho.conn
    have hne : c' ≠ c := fun hne => by cases (hne ▸ hconn).symm.trans hc
    have hconns : (s.handleServerAccept c sock).conns c' = s.conns c' := accept_conns hne
    refine ⟨⟨⟨conn, by rw [hconns]; exact hconn, hd⟩, fun fd hent => ?_⟩, hconns⟩
    by_cases hfd : fd = sock.fd
    · rw [hfd, accept_connects_same] at hent
      exact hne (Option.some.inj hent).symm
    · rw [accept_connects hfd] at hent
      exact ho.entry fd hent
  epoll l fd _ := by rw [accept_loops]

theorem leaves_read {expire : Nat} {a : A} {rs : List (Except Nat Bytes)} {errno : Nat}
    (hk : ∀ a conn ms conn', onMessage a conn = .ok (ms, conn') → Keeps conn conn') (hi : s.Inv)
    (h : s.perform onMessage (.read l fd expire a rs errno) = some s') :
    Leaves (Event.touches (.read l fd expire a rs errno)) s s' := by
  obtain ⟨c, conn, conn', status, hread⟩ := read_some hk hi h
  exact .around hi hread.isOpen hread.around (hread.after.imp And.left And.left) ⟨rfl, rfl⟩

theorem leaves_write {expire : Nat} {rs : List Buffer.SysRet} {errno : Nat} (hi : s.Inv)
    (h : s.perform onMessage (.write l fd expire rs errno) = some s') :
    Leaves (Event.touches (.write l fd expire rs errno : Event A)) s s' := by
  obtain ⟨c, conn, conn', status, hwrite⟩ := write_some hi h
  exact .around hi hwrite.isOpen hwrite.around (hwrite.after.imp And.left And.left) ⟨rfl, rfl⟩

theorem leaves_hangup (hi : s.Inv) (h : s.perform onMessage (.hangup l fd) = some s') :
    Leaves (Event.touches (.hangup l fd : Event A)) s s' := by
  obtain ⟨⟨c, u⟩, htake, h⟩ := Option.map_eq_some_iff.mp h
  obtain ⟨ho, hd, -, hconns, -⟩ := hi.take htake
  subst h
  obtain ⟨conn, hconn, -⟩ := ho.exists_conn
  obtain ⟨ha, he, -⟩ := hd.close (hconns ▸ hconn)
  exact .around hi ho ha (.inr he) ⟨rfl, rfl⟩

/-! ### A loop's timer goes off -/

/-- A round works on the descriptor of the connection whose timer fires, if that goes on. -/
theorem leaves_round {timer : Timer ConnId} (hi : s.Inv) (ht : (s.loops l).timers.top = some timer)
    (h : (s.handleConnectionClose timer.cb).onLoop l (·.onTimers TimerHeap.pop) = some s') :
    Leaves (fun l' fd => l' = l ∧ s.Open timer.cb l fd) s s' := by
  obtain ⟨hf, hnot⟩ := hi.timers l timer.fd timer (TimerHeap.top_timer (hi.indexed l) ht)
  have hpop : ∀ {u v : TcpServer C}, u.onLoop l (·.onTimers TimerHeap.pop) = some v →
      Leaves (fun l' fd => l' = l ∧ s.Open timer.cb l fd) u v := by
    intro u v hv
    obtain ⟨timers, -, rfl⟩ := onLoop_timers hv
    refine .same rfl rfl fun l' fd _ => ?_
    by_cases hl : l' = l
    · subst hl
      rw [setLoop_loops_same]
    · exact congrArg (EventLoop.epoll · _) (Function.update_of_ne hl _ _)
  by_cases ha : s.Alive timer.cb
  · have ho := ha.open hf
    obtain ⟨conn, hconn, -⟩ := ha
    obtain ⟨haround, hend, -⟩ := (hi.during ho (hnot l)).close hconn
    exact (Leaves.around hi ho haround (.inr hend) ⟨rfl, ho⟩).trans (hpop h)
  · rw [close_gone ha] at h
    exact hpop h

theorem Leaves.mono {touched' : Nat → Fd → Prop} (h : Leaves touched s s')
    (ht : ∀ l fd, touched l fd → touched' l fd) : Leaves touched' s s' :=
  ⟨h.current, h.gone, fun l fd hnot => h.epoll l fd fun h' => hnot (ht l fd h')⟩

/-- The rounds work on the descriptors of connections that are over in the end. -/
theorem leaves_timeout {now rounds : Nat} : ∀ {s s' : TcpServer C}, s.Inv → s.Current →
    s.handleTimeout l now rounds = some s' →
    Leaves (fun l' fd => l' = l ∧ ∃ c, s.Open c l fd ∧ s'.Over c) s s' := by
  induction rounds with
  | zero =>
    intro s s' _ _ h
    cases h
    exact .same rfl rfl fun _ _ _ => rfl
  | succ rounds ih =>
    intro s s' hi hcur h
    rcases handleTimeout_cases h with ⟨rfl, -⟩ | ⟨timer, n, s1, hn, ht, hdue, h1, h⟩
    · exact .same rfl rfl fun _ _ _ => rfl
    · cases hn
      obtain ⟨hr, hi1⟩ := Round.inv hi ht hdue h1
      have hround := leaves_round hi ht h1
      have hrest := ih hi1 (hround.current hcur) h
      refine (hround.mono ?_).trans (hrest.mono ?_)
      · intro l' fd ⟨hl, ho⟩
        obtain ⟨-, conn', -, -, hconn', hd', -⟩ := hr.closed ho.exists_conn
        exact ⟨hl, _, ho, (hrest.gone _ ((hround.current hcur).gone hconn' hd')).1⟩
      · intro l' fd ⟨hl, c, ho, hover⟩
        refine ⟨hl, c, ⟨?_⟩, hover⟩
        obtain ⟨conn, hconn⟩ := ho.conn
        rw [hr.conns c (hr.alive ho.exists_conn).2] at hconn
        exact ⟨conn, hconn⟩

theorem leaves_step (hk : ∀ a conn ms conn', onMessage a conn = .ok (ms, conn') → Keeps conn conn') (hi : s.Inv)
    (hcur : s.Current) (h : s.Step onMessage e s') : Leaves e.touches s s' := by
  obtain ⟨ha, h⟩ := h
  cases e with
  | accept c sock =>
    cases h
    exact leaves_accept ha.1
  | task => exact leaves_task hi h
  | report => exact leaves_report h
  | read => exact leaves_read hk hi h
  | write => exact leaves_write hi h
  | hangup => exact leaves_hangup hi h
  | timeout => exact (leaves_timeout hi hcur h).mono fun _ _ ht => ht.1.symm

/-- What a run keeps. -/
theorem run_current (hk : ∀ a conn ms conn', onMessage a conn = .ok (ms, conn') → Keeps conn conn') {n : Nat}
    {es : List (Event A)} (h : Labelled.Run (Step onMessage) (start n) es s) : s.Inv ∧ s.Current :=
  h.invariant (I := fun s : TcpServer C => s.Inv ∧ s.Current)
    (fun _ _ _ hs ha => ⟨(step_effect hk hs.1 ha).inv, (leaves_step hk hs.1 hs.2 ha).current hs.2⟩)
    ⟨inv_start n, fun _ _ h => by cases h⟩

/-! ## Batches -/

/-- What `epoll_wait` reported: the timerfd, or a channel, by its connection. -/
inductive Item where
  | timer
  | channel (c : ConnId) (fd : Fd) (ready : Ready)
  deriving DecidableEq, Repr

def Item.descriptor : Item → Option Fd
  | .timer => none
  | .channel _ fd _ => some fd

def Item.report (l : Nat) : Item → List (Event A)
  | .timer => []
  | .channel _ fd ready => [.report l fd ready]

/-- `batch` is what is left of each loop's last `epoll_wait`; `fired` are the connections
    whose timers fired since. -/
structure Batched (C : Type) where
  server : TcpServer C
  batch : Nat → List Item
  fired : Nat → Set ConnId

namespace Batched

def start (n : Nat) : Batched C := ⟨TcpServer.start n, fun _ => [], fun _ => ∅⟩

inductive Label (A : Type) where
  | wait (l : Nat) (items : List Item)
  | accept (c : ConnId) (sock : Socket)
  | task (l : Nat) (expire : Nat)
  | timer (l : Nat) (now : Nat)
  | read (l : Nat) (expire : Nat) (a : A) (rs : List (Except Nat Bytes)) (errno : Nat)
  | write (l : Nat) (expire : Nat) (rs : List Buffer.SysRet) (errno : Nat)
  | hangup (l : Nat)

def next (b : Batched C) (l : Nat) (server : TcpServer C) (rest : List Item) : Batched C :=
  { b with server := server, batch := Function.update b.batch l rest }

/-- The state in which the callback of a channel begins: its registration, if there still is
    one, is not armed any more. -/
def begins (s : TcpServer C) (l : Nat) (c : ConnId) (fd : Fd) (ready : Ready) : TcpServer C :=
  match s.takeEvent l fd ready with
  | some (c', u) => if c' = c then u else s
  | none => s

/-- A channel is there as long as its connection is: a call through one that is not has no
    meaning and is no step. -/
inductive Step (onMessage : App C A) : Batched C → Label A → Batched C → Prop
  | wait {b : Batched C} {l : Nat} {items : List Item} {s' : TcpServer C} : b.batch l = [] →
      (items.map Item.descriptor).Nodup →
      (∀ c fd ready, .channel c fd ready ∈ items → ∃ reg, (b.server.loops l).epoll fd = some reg ∧ reg.conn = c) →
      performs onMessage b.server (items.flatMap (Item.report l)) = some s' →
      Step onMessage b (.wait l items)
        { server := s', batch := Function.update b.batch l items, fired := Function.update b.fired l ∅ }
  | accept {b : Batched C} {c : ConnId} {sock : Socket} : b.server.Admits (.accept c sock : Event A) →
      Step onMessage b (.accept c sock) { b with server := b.server.handleServerAccept c sock }
  | task {b : Batched C} {l expire : Nat} {s' : TcpServer C} : b.batch l = [] →
      b.server.perform onMessage (.task l expire) = some s' → Step onMessage b (.task l expire) { b with server := s' }
  | timer {b : Batched C} {l now : Nat} {rest : List Item} {s' : TcpServer C} : b.batch l = .timer :: rest →
      b.server.perform onMessage (.timeout l now) = some s' → Step onMessage b (.timer l now)
        { b.next l s' rest with
          fired := Function.update b.fired l { c | Closes b.server (.timeout l now : Event A) c } }
  | read {b : Batched C} {l expire errno : Nat} {c : ConnId} {fd : Fd} {rest : List Item} {a : A}
      {rs : List (Except Nat Bytes)} {s' : TcpServer C} : b.batch l = .channel c fd .read :: rest →
      (b.server.lock c).isSome →
      (begins b.server l c fd .read).handleConnectionRead onMessage c expire a rs errno = some s' →
      Step onMessage b (.read l expire a rs errno) (b.next l s' rest)
  | write {b : Batched C} {l expire errno : Nat} {c : ConnId} {fd : Fd} {rest : List Item}
      {rs : List Buffer.SysRet} {s' : TcpServer C} : b.batch l = .channel c fd .write :: rest →
      (b.server.lock c).isSome →
      (begins b.server l c fd .write).handleConnectionWrite c expire rs errno = some s' →
      Step onMessage b (.write l expire rs errno) (b.next l s' rest)
  | hangup {b : Batched C} {l : Nat} {c : ConnId} {fd : Fd} {rest : List Item} :
      b.batch l = .channel c fd .close :: rest → (b.server.lock c).isSome → Step onMessage b (.hangup l)
        (b.next l ((begins b.server l c fd .close).handleConnectionClose c) rest)

variable {b b' : Batched C}

/-! ## What is reported stays registered -/

/-- Of a channel that is still to be called there is the registration it was reported for, or
    its timer fired and it is over. -/
structure Waits (s : TcpServer C) (l : Nat) (items : List Item) (fired : Set ConnId) : Prop where
  nodup : (items.map Item.descriptor).Nodup
  fresh : .timer ∈ items → fired = ∅
  gone : ∀ c ∈ fired, s.Over c
  item : ∀ c fd ready, .channel c fd ready ∈ items →
    (∃ reg, (s.loops l).epoll fd = some reg ∧ reg.conn = c ∧ reg.arming = .reported ready) ∨ c ∈ fired

def Waiting (b : Batched C) : Prop := ∀ l, Waits b.server l (b.batch l) (b.fired l)

theorem waiting_start (n : Nat) : (start n : Batched C).Waiting := fun _ =>
  ⟨List.nodup_nil, fun _ => rfl, fun _ h => absurd h (Set.notMem_empty _), fun _ _ _ h => by cases h⟩

variable {items rest : List Item} {item : Item} {fired : Set ConnId}

/-- What works on no descriptor of a channel to be called. -/
theorem Waits.leaves (hw : Waits s l items fired) (h : Leaves touched s s')
    (hfree : ∀ c fd ready, .channel c fd ready ∈ items → ¬ touched l fd) : Waits s' l items fired where
  nodup := hw.nodup
  fresh := hw.fresh
  gone c hc := (h.gone c (hw.gone c hc)).1
  item c fd ready hmem := by
    rw [h.epoll l fd (hfree c fd ready hmem)]
    exact hw.item c fd ready hmem

theorem Waits.tail (hw : Waits s l (item :: rest) fired) : Waits s l rest fired where
  nodup := (List.nodup_cons.mp hw.nodup).2
  fresh ht := hw.fresh (List.mem_cons_of_mem _ ht)
  gone := hw.gone
  item c fd ready hmem := hw.item c fd ready (List.mem_cons_of_mem _ hmem)

/-- A channel is called, and worked on at most. -/
theorem Waits.called (hw : Waits s l (item :: rest) fired)
    (h : Leaves (fun l' fd => l' = l ∧ item.descriptor = some fd) s s') : Waits s' l rest fired := by
  refine hw.tail.leaves h fun c fd ready hmem ht => (List.nodup_cons.mp hw.nodup).1 ?_
  rw [ht.2]
  exact List.mem_map_of_mem (f := Item.descriptor) hmem

/-- The timerfd: who is reported goes on as reported, or its timer fires. -/
theorem Waits.timer {now : Nat} (hk : ∀ a conn ms conn', onMessage a conn = .ok (ms, conn') → Keeps conn conn')
    (hi : s.Inv) (hcur : s.Current) (hw : Waits s l (.timer :: rest) fired)
    (h : s.perform onMessage (.timeout l now) = some s') :
    Waits s' l rest { c | Closes s (.timeout l now : Event A) c } := by
  have hs : TcpServer.Step onMessage s (.timeout l now) s' := ⟨trivial, h⟩
  have hleaves := leaves_timeout hi hcur h
  refine ⟨hw.tail.nodup, fun ht => ?_, fun c hc => ?_, fun c fd ready hmem => ?_⟩
  · exact absurd (List.mem_map_of_mem (f := Item.descriptor) ht) (List.nodup_cons.mp hw.nodup).1
  · obtain ⟨-, conn', -, -, hconn', hd', -⟩ := step_closes hk hi h hc
    exact (hleaves.current hcur).gone hconn' hd'
  · have hnew : c ∉ fired := by
      rw [hw.fresh List.mem_cons_self]
      exact Set.notMem_empty c
    obtain ⟨reg, hreg, rfl, ha⟩ := (hw.tail.item c fd ready hmem).resolve_right hnew
    have ho := (hi.epoll l fd reg hreg).1
    by_cases halive : s'.Alive reg.conn
    · refine .inl ⟨reg, ?_, rfl, ha⟩
      rw [hleaves.epoll l fd, hreg]
      intro ⟨_, c, ho', hover⟩
      rw [hi.open_inj ho ho'] at hover
      exact hover.not_alive halive
    · exact .inr ((loses_iff hk hi hs).mp (.inl ⟨ho.exists_conn, halive⟩))

/-- One loop goes on, and the others' channels are not worked on. -/
theorem Waiting.next (hb : b.Waiting) (h : Leaves touched b.server s') (hother : ∀ l' fd, touched l' fd → l' = l)
    (hw : Waits s' l items fired) :
    Waiting ⟨s', Function.update b.batch l items, Function.update b.fired l fired⟩ := by
  intro l'
  dsimp only
  by_cases hl : l' = l
  · subst hl
    rw [Function.update_self, Function.update_self]
    exact hw
  · rw [Function.update_of_ne hl, Function.update_of_ne hl]
    exact (hb l').leaves h fun c fd ready _ ht => hl (hother l' fd ht)

theorem report_run : ∀ {s s' : TcpServer C}, s.Inv → s.Current →
    performs onMessage s (items.flatMap (Item.report l)) = some s' → (items.map Item.descriptor).Nodup →
    (∀ c fd ready, .channel c fd ready ∈ items → ∃ reg, (s.loops l).epoll fd = some reg ∧ reg.conn = c) →
    Labelled.Run (TcpServer.Step onMessage) s (items.flatMap (Item.report l)) s' ∧
      Leaves (fun l' fd => l' = l ∧ some fd ∈ items.map Item.descriptor) s s' ∧
      ∀ c fd ready, .channel c fd ready ∈ items →
        ∃ reg, (s'.loops l).epoll fd = some reg ∧ reg.conn = c ∧ reg.arming = .reported ready := by
  induction items with
  | nil =>
    intro s s' _ _ h _ _
    cases h
    exact ⟨.nil s, .same rfl rfl fun _ _ _ => rfl, fun _ _ _ h => by cases h⟩
  | cons item items ih =>
    intro s s' hi hcur h hnodup hnamed
    rw [List.map_cons, List.nodup_cons] at hnodup
    cases item with
    | timer =>
      obtain ⟨hrun, hleaves, hitems⟩ := ih hi hcur h hnodup.2 fun c fd ready hmem =>
        hnamed c fd ready (List.mem_cons_of_mem _ hmem)
      refine ⟨hrun, hleaves.mono fun l' fd ht => ⟨ht.1, List.mem_cons_of_mem _ ht.2⟩, fun c fd ready hmem => ?_⟩
      exact hitems c fd ready (by simpa using hmem)
    | channel c fd ready =>
      obtain ⟨s1, h1, h⟩ := Option.bind_eq_some_iff.mp h
      obtain ⟨reg, hreg, hc⟩ := hnamed c fd ready List.mem_cons_self
      have hstep : TcpServer.Step onMessage s (.report l fd ready) s1 := ⟨trivial, h1⟩
      have hleaves1 := leaves_report h1
      have hreg1 : (s1.loops l).epoll fd = some { reg with arming := .reported ready } := by
        simp only [perform, hreg, bind, Option.bind_some] at h1
        by_cases hr : reg.Reports ready
        · rw [if_pos hr] at h1
          cases h1
          simp [EventLoop.setArming, hreg]
        · rw [if_neg hr] at h1
          cases h1
      have hother : ∀ c' fd' ready', .channel c' fd' ready' ∈ items →
          (s1.loops l).epoll fd' = (s.loops l).epoll fd' := by
        intro c' fd' ready' hmem
        refine hleaves1.epoll l fd' fun ht => hnodup.1 ?_
        rw [show (Item.channel c fd ready).descriptor = some fd' from congrArg some ht.2]
        exact List.mem_map_of_mem (f := Item.descriptor) hmem
      obtain ⟨hrun, hleaves, hitems⟩ := ih (step_report hi h1).inv (hleaves1.current hcur) h hnodup.2
        fun c' fd' ready' hmem => by
          rw [hother c' fd' ready' hmem]
          exact hnamed c' fd' ready' (List.mem_cons_of_mem _ hmem)
      refine ⟨.cons hstep hrun, ?_, fun c' fd' ready' hmem => ?_⟩
      · refine (hleaves1.mono fun l' fd' ht => ?_).trans
          (hleaves.mono fun l' fd' ht => ⟨ht.1, List.mem_cons_of_mem _ ht.2⟩)
        exact ⟨ht.1.symm, by rw [← ht.2]; exact List.mem_cons_self⟩
      · rcases List.mem_cons.mp hmem with heq | hmem
        · cases heq
          refine ⟨{ reg with arming := .reported ready }, ?_, hc, rfl⟩
          rw [hleaves.epoll l fd fun ht => hnodup.1 ht.2, hreg1]
        · exact hitems c' fd' ready' hmem

/-- The callback begins with what was reported, or finds the connection over. -/
theorem Waits.begins {ready : Ready} (hw : Waits s l (.channel c fd ready :: rest) fired) (hi : s.Inv) :
    s.takeEvent l fd ready = some (c, begins s l c fd ready) ∨ ¬ s.Alive c ∧ begins s l c fd ready = s := by
  rcases hw.item c fd ready List.mem_cons_self with ⟨reg, hreg, rfl, ha⟩ | hfired
  · have htake : s.takeEvent l fd ready = some (reg.conn, s.setLoop l ((s.loops l).setArming fd .disarmed)) := by
      simp [takeEvent, hreg, ha]
    exact .inl (by rw [Batched.begins, htake]; simp)
  · have hgone := (hw.gone c hfired).not_alive
    refine .inr ⟨hgone, ?_⟩
    rw [Batched.begins]
    cases htake : s.takeEvent l fd ready with
    | none => rfl
    | some p =>
      obtain ⟨c', u⟩ := p
      have hne : c' ≠ c := fun heq => hgone (heq ▸ (hi.take htake).1.exists_conn)
      simp [hne]

theorem live_gone (h : ¬ s.Alive c) : s.live c = none := by
  cases hlive : s.live c with
  | none => rfl
  | some p =>
    obtain ⟨conn, hlock, hlive⟩ := Option.bind_eq_some_iff.mp hlive
    obtain ⟨ch, -, hlive⟩ := Option.bind_eq_some_iff.mp hlive
    by_cases hd : conn.disconnected = true
    · rw [if_pos hd] at hlive
      cases hlive
    · exact absurd ⟨conn, lock_conns hlock, by simpa using hd⟩ h

theorem serve_gone {expire : Nat} {callback : TcpServer C → Option (TcpServer C)} (h : ¬ s.Alive c) :
    s.serve c expire callback = some s := by
  rw [TcpServer.serve, live_gone h]

section Steps

variable (hk : ∀ a conn ms conn', onMessage a conn = .ok (ms, conn') → Keeps conn conn') (hi : b.server.Inv)
  (hcur : b.server.Current) (hb : b.Waiting)

include hk hi hcur hb

/-- A callback that the server makes for what was reported, or that does nothing. -/
theorem step_called {ready : Ready} (e : Event A) (hl : b.batch l = .channel c fd ready :: rest)
    (ht : ∀ l' fd', e.touches l' fd' → l' = l ∧ fd = fd')
    (hstep : b.server.takeEvent l fd ready = some (c, begins b.server l c fd ready) →
      TcpServer.Step onMessage b.server e s')
    (hgone : ¬ b.server.Alive c → begins b.server l c fd ready = b.server → s' = b.server) :
    (∃ es, Labelled.Run (TcpServer.Step onMessage) b.server es s') ∧ (b.next l s' rest).Waiting := by
  have hw : Waits b.server l (.channel c fd ready :: rest) (b.fired l) := hl ▸ hb l
  have hnext : Leaves (fun l' fd' => l' = l ∧ some fd = some fd') b.server s' → (b.next l s' rest).Waiting := by
    intro h
    have hnext := hb.next h (fun _ _ => And.left) (hw.called h)
    rwa [Function.update_eq_self] at hnext
  rcases hw.begins hi with htake | ⟨hnot, hbegins⟩
  · have hs := hstep htake
    refine ⟨⟨[e], .cons hs (.nil _)⟩, hnext ((leaves_step hk hi hcur hs).mono fun l' fd' h => ?_)⟩
    exact ⟨(ht l' fd' h).1, congrArg some (ht l' fd' h).2⟩
  · rw [hgone hnot hbegins] at hnext ⊢
    exact ⟨⟨[], .nil _⟩, hnext (.same rfl rfl fun _ _ _ => rfl)⟩

/-- What a step of the loops is to the server, and what is left of the batches after it. -/
theorem step_waiting {lb : Label A} (h : Step onMessage b lb b') :
    (∃ es, Labelled.Run (TcpServer.Step onMessage) b.server es b'.server) ∧ b'.Waiting := by
  cases h with
  | wait hl hnodup hnamed hp =>
    obtain ⟨hrun, hleaves, hitems⟩ := report_run hi hcur hp hnodup hnamed
    refine ⟨⟨_, hrun⟩, hb.next hleaves (fun _ _ => And.left)
      ⟨hnodup, fun _ => rfl, fun c hc => ?_, fun c fd ready hm => ?_⟩⟩
    · exact absurd hc (Set.notMem_empty c)
    · exact .inl (hitems c fd ready hm)
  | @accept c sock ha =>
    have hs : TcpServer.Step onMessage b.server (.accept c sock) (b.server.handleServerAccept c sock) := ⟨ha, rfl⟩
    exact ⟨⟨_, .cons hs (.nil _)⟩, fun l => (hb l).leaves (leaves_step hk hi hcur hs) fun _ _ _ _ => id⟩
  | @task l expire s' hl hp =>
    have hs : TcpServer.Step onMessage b.server (.task l expire) s' := ⟨trivial, hp⟩
    refine ⟨⟨_, .cons hs (.nil _)⟩, fun l' => (hb l').leaves (leaves_step hk hi hcur hs) fun c fd ready hm ht => ?_⟩
    obtain rfl : l = l' := ht
    rw [hl] at hm
    cases hm
  | @timer l now rest s' hl hp =>
    have hs : TcpServer.Step onMessage b.server (.timeout l now) s' := ⟨trivial, hp⟩
    have hw : Waits b.server l (.timer :: rest) (b.fired l) := hl ▸ hb l
    exact ⟨⟨_, .cons hs (.nil _)⟩, hb.next (leaves_step hk hi hcur hs) (fun _ _ => Eq.symm) (hw.timer hk hi hcur hp)⟩
  | @read l expire errno c fd rest a rs s' hl _ hp =>
    refine step_called hk hi hcur hb (.read l fd expire a rs errno) hl (fun _ _ h => ⟨h.1.symm, h.2⟩)
      (fun htake => ⟨trivial, ?_⟩) fun hgone hbegins => ?_
    · simp only [perform, htake, bind, Option.bind_some]
      exact hp
    · rw [hbegins] at hp
      exact (Option.some.inj ((serve_gone hgone).symm.trans hp)).symm
  | @write l expire errno c fd rest rs s' hl _ hp =>
    refine step_called hk hi hcur hb (.write l fd expire rs errno) hl (fun _ _ h => ⟨h.1.symm, h.2⟩)
      (fun htake => ⟨trivial, ?_⟩) fun hgone hbegins => ?_
    · simp only [perform, htake, bind, Option.bind_some]
      exact hp
    · rw [hbegins] at hp
      exact (Option.some.inj ((serve_gone hgone).symm.trans hp)).symm
  | @hangup l c fd rest hl =>
    refine step_called hk hi hcur hb (.hangup l fd) hl (fun _ _ h => ⟨h.1.symm, h.2⟩)
      (fun htake => ⟨trivial, ?_⟩) fun hgone hbegins => ?_
    · rw [perform, htake]
      rfl
    · rw [hbegins]
      exact close_gone hgone

end Steps

/-- A run of the loops is one of the server, and what is reported is registered or over. -/
theorem run_waiting (hk : ∀ a conn ms conn', onMessage a conn = .ok (ms, conn') → Keeps conn conn') {n : Nat}
    {ls : List (Label A)} (h : Labelled.Run (Step onMessage) (start n) ls b) :
    (∃ es, Labelled.Run (TcpServer.Step onMessage) (TcpServer.start n) es b.server) ∧ b.Waiting := by
  refine h.invariant (I := fun b : Batched C =>
    (∃ es, Labelled.Run (TcpServer.Step onMessage) (TcpServer.start n) es b.server) ∧ b.Waiting)
    (fun b lb b' hb hs => ?_) ⟨⟨[], .nil _⟩, waiting_start n⟩
  obtain ⟨⟨es, hrun⟩, hw⟩ := hb
  obtain ⟨hi, hcur⟩ := run_current hk hrun
  obtain ⟨⟨es', hrun'⟩, hw'⟩ := step_waiting hk hi hcur hw hs
  exact ⟨⟨es ++ es', hrun.append hrun'⟩, hw'⟩

/-- A channel that is still to be called is gone exactly when the timer of its connection fired
    in this batch while it had no context. -/
theorem Waiting.gone_iff (hw : b.Waiting) (hi : b.server.Inv) {ready : Ready}
    (hmem : .channel c fd ready ∈ b.batch l) :
    b.server.lock c = none ↔ c ∈ b.fired l ∧ ∀ conn, b.server.conns c = some conn → conn.context = none := by
  rcases (hw l).item c fd ready hmem with ⟨reg, hreg, rfl, -⟩ | hfired
  · -- it goes on
    obtain ⟨conn, hconn, hfd, hd, -⟩ := (hi.epoll l fd reg hreg).1.conn
    have hlock : b.server.lock reg.conn = some conn :=
      lock_of_entry hconn (hfd ▸ hi.entry _ l fd (hi.epoll l fd reg hreg).1)
    refine ⟨fun hnone => absurd (hlock.symm.trans hnone) (by simp), fun hf => ?_⟩
    exact absurd ⟨conn, hconn, hd⟩ ((hw l).gone _ hf.1).not_alive
  · obtain ⟨conn, hconn, -⟩ := ((hw l).gone c hfired).conn
    have hent := ((hw l).gone c hfired).entry conn.sock.fd
    simp only [lock, hconn, Option.filter_some, hent, decide_false, Bool.false_or, hfired, true_and, Option.some.injEq,
      forall_eq']
    cases conn.context <;> simp

/-- As long as no call is made through a channel that is gone, the loops do what the server
    does, and a channel that is still to be called is gone exactly when the timer of its
    connection fired in this batch while it had no context. -/
theorem dangling_iff (hk : ∀ a conn ms conn', onMessage a conn = .ok (ms, conn') → Keeps conn conn') {n : Nat}
    {ls : List (Label A)} (h : Labelled.Run (Step onMessage) (start n) ls b) :
    (∃ es, Labelled.Run (TcpServer.Step onMessage) (TcpServer.start n) es b.server) ∧
      ∀ l c fd ready, .channel c fd ready ∈ b.batch l → (b.server.lock c = none ↔
        c ∈ b.fired l ∧ ∀ conn, b.server.conns c = some conn → conn.context = none) := by
  obtain ⟨⟨es, hrun⟩, hw⟩ := run_waiting hk h
  obtain ⟨hi, -⟩ := run_current hk hrun
  exact ⟨⟨es, hrun⟩, fun l c fd ready hmem => hw.gone_iff hi hmem⟩

/-- A connection that was idle too long is reported together with the timerfd, and behind it. -/
theorem dangling_iff_one : ∃ (ls : List (Label Unit)) (b : Batched Unit),
    Labelled.Run (Step fun _ conn => .ok (.ok, conn)) (start 1) ls b ∧ .channel 0 7 .read ∈ b.batch 0 ∧
      b.server.lock 0 = none ∧ 0 ∈ b.fired 0 := by
  let onMessage : App Unit Unit := fun _ conn => .ok (.ok, conn)
  let s1 : TcpServer Unit := (TcpServer.start 1).handleServerAccept 0 ⟨7, true, false⟩
  have hrun : ((s1.perform onMessage (.task 0 5)).bind fun s2 =>
      (performs onMessage s2 [.report 0 7 .read]).bind fun s3 => (s3.perform onMessage (.timeout 0 10)).map fun s4 =>
        (((s2.loops 0).epoll 7).map Registration.conn, (s4.lock 0).isSome)) = some (some 0, false) := by
    decide +kernel
  obtain ⟨s2, h2, hrun⟩ := Option.bind_eq_some_iff.mp hrun
  obtain ⟨s3, h3, hrun⟩ := Option.bind_eq_some_iff.mp hrun
  obtain ⟨s4, h4, hrun⟩ := Option.map_eq_some_iff.mp hrun
  obtain ⟨hreg, hlock⟩ := Prod.mk.injEq .. ▸ hrun
  obtain ⟨reg, hreg, hc⟩ := Option.map_eq_some_iff.mp hreg
  have haccept : (start 1 : Batched Unit).server.Admits (.accept 0 ⟨7, true, false⟩ : Event Unit) :=
    ⟨rfl, fun _ _ h => by cases lock_conns h⟩
  have hloops : Labelled.Run (Step onMessage) (start 1)
      [.accept 0 ⟨7, true, false⟩, .task 0 5, .wait 0 [.timer, .channel 0 7 .read], .timer 0 10] _ :=
    .cons (.accept haccept) (.cons (.task rfl h2) (.cons (.wait rfl (by decide) (fun c fd ready hm => by
      obtain ⟨rfl, rfl, rfl⟩ : c = 0 ∧ fd = 7 ∧ ready = .read := by simpa using hm
      exact ⟨reg, hreg, hc⟩) h3) (.cons (.timer rfl h4) (.nil _))))
  have hmem : .channel 0 7 .read ∈ Function.update
      (Function.update (start 1 : Batched Unit).batch 0 [.timer, .channel 0 7 .read]) 0 [.channel 0 7 .read] 0 := by
    rw [Function.update_self]
    exact List.mem_singleton_self _
  have hnone : s4.lock 0 = none := by simpa using hlock
  obtain ⟨-, hiff⟩ := dangling_iff (fun _ _ _ _ h => by cases h; exact ⟨rfl, rfl, rfl⟩) hloops
  exact ⟨_, _, hloops, hmem, hnone, ((hiff 0 0 7 .read hmem).mp hnone).1⟩

end Batched

end TcpServer

end HahaWeb
