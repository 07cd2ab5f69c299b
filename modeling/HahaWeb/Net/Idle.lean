/-
  HahaWeb.Net.Idle — the deadlines of connections, and which of them a loop's timer ends.

  A connection gets a deadline when `onConnect` runs, and a new one with each read and each
  write callback: the time the callback begins plus `connTimeOut_`. `observed` lists what
  the events of a run do, each in the state it finds.

  Proved: an event changes no timer but that of the connection it serves, and takes some out
  (`step_timing`), so as long as the clock does not run backwards each timer holds the last
  deadline of its connection, the heap of every loop is in order, and when the timer of a
  loop goes off, the connections that end are those of this loop all of whose deadlines
  have passed (`idle_ends`).
-/

import HahaWeb.Net.Lifecycle

namespace HahaWeb

namespace TcpServer

open TimerHeap (Indexed Ordered)

variable {C A β : Type} {s s' s'' u v : TcpServer C} {c : ConnId} {l : Nat} {fd : Fd} {onMessage : App C A}
  {e : Event A}

/-! ## What a run does -/

/-- What `f` tells of each event, in the state that the event finds. -/
def observed (onMessage : App C A) (f : TcpServer C → Event A → List β) : TcpServer C → List (Event A) → List β
  | _, [] => []
  | s, e :: es => f s e ++ ((s.perform onMessage e).map (observed onMessage f · es)).getD []

theorem observed_append {f : TcpServer C → Event A → List β} {es : List (Event A)}
    (h : Labelled.Run (Step onMessage) s es s') (e : Event A) :
    observed onMessage f s (es ++ [e]) = observed onMessage f s es ++ f s' e := by
  induction h with
  | nil s =>
    show f s e ++ ((s.perform onMessage e).map fun _ => ([] : List β)).getD [] = [] ++ f s e
    cases s.perform onMessage e <;> simp
  | @cons s t u a as hs _ ih =>
    show f s a ++ ((s.perform onMessage a).map (observed onMessage f · (as ++ [e]))).getD [] =
      (f s a ++ ((s.perform onMessage a).map (observed onMessage f · as)).getD []) ++ f u e
    rw [hs.2, Option.map_some, Option.map_some, Option.getD_some, Option.getD_some, ih, List.append_assoc]

/-- What holds at the start and is kept by a step holds after a run, of the state and of what was observed. -/
theorem run_observed {f : TcpServer C → Event A → List β} {I : TcpServer C → List β → Prop} {es : List (Event A)}
    (h : Labelled.Run (Step onMessage) s es s') (h0 : I s [])
    (hstep : ∀ s bs e s', I s bs → Step onMessage s e s' → I s' (bs ++ f s e)) :
    I s' (observed onMessage f s es) := by
  have hstart : Labelled.Run (Step onMessage) s [] s ∧ I s (observed onMessage f s []) := ⟨.nil s, h0⟩
  have hhistory := h.history (I := fun t as => Labelled.Run (Step onMessage) s as t ∧ I t (observed onMessage f s as))
    (fun t as e t' ht hs => by
      refine ⟨ht.1.append (.cons hs (.nil _)), ?_⟩
      rw [observed_append ht.1]
      exact hstep t _ e t' ht.2 hs) hstart
  exact hhistory.2

/-! ## Deadlines -/

/-- The connection whose callback an event is, and its new deadline. -/
def deadline (s : TcpServer C) : Event A → List (ConnId × Nat)
  | .task l expire => ((s.loops l).tasks.head?.map fun c => (c, expire)).toList
  | .read l fd expire _ _ _ => (((s.loops l).epoll fd).map fun reg => (reg.conn, expire)).toList
  | .write l fd expire _ _ => (((s.loops l).epoll fd).map fun reg => (reg.conn, expire)).toList
  | _ => []

/-- What a step does to the timers: one with a new deadline is that of the connection served,
    which has no other, and the heaps stay in order if no deadline comes before the old one. -/
structure Timing (s : TcpServer C) (ds : List (ConnId × Nat)) (s' : TcpServer C) : Prop where
  ordered : (∀ l, Ordered (s.loops l).timers) →
    (∀ l fd timer, (s.loops l).timers.timers fd = some timer → ∀ d ∈ ds, timer.expire ≤ d.2) →
    ∀ l, Ordered (s'.loops l).timers
  timers : ∀ l fd timer, (s'.loops l).timers.timers fd = some timer →
    ((s.loops l).timers.timers fd = some timer ∧ ∀ d ∈ ds, d.1 ≠ timer.cb) ∨ (timer.cb, timer.expire) ∈ ds

theorem Timing.trans {ds : List (ConnId × Nat)} (h : Timing s ds s') (h' : Timing s' [] s'') : Timing s ds s'' where
  ordered ho hd := h'.ordered (h.ordered ho hd) fun _ _ _ _ d hd => absurd hd List.not_mem_nil
  timers l fd timer ht := by
    rcases h'.timers l fd timer ht with ⟨ht', -⟩ | hd
    · exact h.timers l fd timer ht'
    · cases hd

/-- The timers are as they were. -/
theorem Timing.same (h : ∀ l, (s'.loops l).timers = (s.loops l).timers) : Timing s [] s' where
  ordered ho _ l := h l ▸ ho l
  timers l _ _ ht := .inl ⟨h l ▸ ht, fun _ hd => absurd hd List.not_mem_nil⟩

/-- The same, from a state with the same timers. -/
theorem Timing.congr {ds : List (ConnId × Nat)} (h : Timing u ds s')
    (hu : ∀ l, (u.loops l).timers = (s.loops l).timers) : Timing s ds s' where
  ordered ho hd := h.ordered (fun l => hu l ▸ ho l) fun l fd timer ht => hd l fd timer (hu l ▸ ht)
  timers l fd timer ht := by
    have ht' := h.timers l fd timer ht
    rwa [hu l] at ht'

/-- One loop's timers are changed. -/
theorem timing_setTimers {timers : TimerHeap ConnId} {ds : List (ConnId × Nat)}
    (ho : Ordered (s.loops l).timers →
      (∀ fd timer, (s.loops l).timers.timers fd = some timer → ∀ d ∈ ds, timer.expire ≤ d.2) → Ordered timers)
    (ht : ∀ fd timer, timers.timers fd = some timer →
      ((s.loops l).timers.timers fd = some timer ∧ ∀ d ∈ ds, d.1 ≠ timer.cb) ∨ (timer.cb, timer.expire) ∈ ds)
    (hother : ∀ l' fd timer, l' ≠ l → (s.loops l').timers.timers fd = some timer → ∀ d ∈ ds, d.1 ≠ timer.cb) :
    Timing s ds (s.setLoop l { s.loops l with timers := timers }) where
  ordered hos hds l' := by
    rw [setTimers_loops]
    by_cases hl : l' = l
    · subst hl
      simpa using ho (hos l') (hds l')
    · simpa [hl] using hos l'
  timers l' fd timer htimer := by
    rw [setTimers_loops] at htimer
    by_cases hl : l' = l
    · subst hl
      exact ht fd timer (by simpa using htimer)
    · have hsame : (s.loops l').timers.timers fd = some timer := by simpa [hl] using htimer
      exact .inl ⟨hsame, hother l' fd timer hl hsame⟩

theorem setLoop_timers {t : EventLoop} (h : t.timers = (s.loops l).timers) (l' : Nat) :
    ((s.setLoop l t).loops l').timers = (s.loops l').timers := by
  by_cases hl : l' = l
  · subst hl
    rw [setLoop_loops_same, h]
  · exact congrArg EventLoop.timers (Function.update_of_ne hl _ _)

theorem takeEvent_timers {ready : Ready} (h : s.takeEvent l fd ready = some (c, u)) (l' : Nat) :
    (u.loops l').timers = (s.loops l').timers := by
  obtain ⟨reg, -, h⟩ := Option.bind_eq_some_iff.mp h
  by_cases ha : reg.arming = .reported ready
  · rw [if_pos ha] at h
    cases h
    exact setLoop_timers (s := s) (l := l) (t := (s.loops l).setArming fd .disarmed) rfl l'
  · rw [if_neg ha] at h
    cases h

theorem rearm_timers (s : TcpServer C) (l : Nat) (c : ConnId) (conn : TcpConnection C) (events : Events) (l' : Nat) :
    ((s.rearm l c conn events).loops l').timers = (s.loops l').timers := by
  refine setLoop_timers (s := s.setConn c _) (l := l) ?_ l'
  unfold EventLoop.modChannel
  split <;> rfl

/-- A timer is taken out. -/
theorem timing_remove {timers : TimerHeap ConnId} {keep : Prop} (hb : TimerHeap.Becomes (s.loops l).timers keep
    (Function.update (s.loops l).timers.timers fd none) timers) (hk : keep) :
    Timing s [] (s.setLoop l { s.loops l with timers := timers }) := by
  refine timing_setTimers (fun ho _ => hb.ordered ho hk) (fun fd' timer ht => ?_) fun _ _ _ _ _ _ hd => by cases hd
  rw [hb.timers] at ht
  by_cases hfd : fd' = fd
  · subst hfd
    rw [Function.update_self] at ht
    cases ht
  · rw [Function.update_of_ne hfd] at ht
    exact .inl ⟨ht, fun _ hd => absurd hd List.not_mem_nil⟩

theorem timing_delTimer (hx : Indexed (s.loops l).timers) (h : s.onLoop l (·.delTimer fd) = some v) :
    Timing s [] v := by
  obtain ⟨timers, hok, rfl⟩ := onLoop_timers h
  obtain ⟨timers', hok', hb⟩ := TimerHeap.remove_becomes hx fd
  cases hok.symm.trans hok'
  exact timing_remove hb trivial

theorem timing_close (s : TcpServer C) (c : ConnId) : Timing s [] (s.handleConnectionClose c) :=
  .same fun l => close_timers s c l

theorem timing_delTimerAndClose (hx : Indexed (s.loops l).timers) (h : s.delTimerAndClose l c fd = some v) :
    Timing s [] v := by
  obtain ⟨w, hw, rfl⟩ := Option.map_eq_some_iff.mp h
  exact (timing_delTimer hx hw).trans (timing_close w c)

/-- The timers that refer to a connection are those of its own loop and descriptor. -/
def Own (s : TcpServer C) (c : ConnId) (l : Nat) (fd : Fd) : Prop :=
  ∀ l' fd' timer, (s.loops l').timers.timers fd' = some timer → timer.cb = c → l' = l ∧ fd' = fd

theorem Inv.own (hi : s.Inv) (hf : s.Found c l fd) : s.Own c l fd := by
  intro l' fd' timer ht hc
  have hfound := (hi.timers l' fd' timer ht).1
  rw [hc] at hfound
  exact hf.unique hfound

/-- The deadline of a connection is set: its timer is put in, or has it now. -/
theorem timing_set {timers : TimerHeap ConnId} {expire : Nat} (timer : Timer ConnId) (hown : s.Own c l fd)
    (hcb : timer.cb = c) (hexpire : timer.expire = expire)
    (ht : timers.timers = Function.update (s.loops l).timers.timers fd (some timer))
    (ho : Ordered (s.loops l).timers →
      (∀ fd timer, (s.loops l).timers.timers fd = some timer → timer.expire ≤ expire) → Ordered timers) :
    Timing s [(c, expire)] (s.setLoop l { s.loops l with timers := timers }) := by
  have hother : ∀ l' fd' t, (s.loops l').timers.timers fd' = some t → ¬ (l' = l ∧ fd' = fd) →
      ∀ d ∈ [(c, expire)], d.1 ≠ t.cb := by
    intro l' fd' t ht' hne d hd
    rw [List.mem_singleton.mp hd]
    exact fun hc => hne (hown l' fd' t ht' hc.symm)
  have hself : (c, expire) ∈ [(c, expire)] := List.mem_singleton.mpr rfl
  refine timing_setTimers (fun hord hle => ho hord fun fd' t ht' => hle fd' t ht' _ hself)
    (fun fd' t ht' => ?_) fun l' fd' t hl ht' => hother l' fd' t ht' fun h => hl h.1
  rw [ht] at ht'
  by_cases hfd : fd' = fd
  · subst hfd
    rw [Function.update_self] at ht'
    cases ht'
    exact .inr (by rw [hcb, hexpire]; exact hself)
  · rw [Function.update_of_ne hfd] at ht'
    exact .inl ⟨ht', hother l fd' t ht' fun h => hfd h.2⟩

theorem timing_adjustTimer {expire : Nat} (hx : Indexed (s.loops l).timers) (hown : s.Own c l fd) (ht : s.Timed c l fd)
    (h : s.onLoop l (·.adjustTimer fd expire) = some v) : Timing s [(c, expire)] v := by
  obtain ⟨timers, hok, rfl⟩ := onLoop_timers h
  obtain ⟨timers', hok', hb⟩ := TimerHeap.adjust_becomes hx fd expire
  cases hok.symm.trans hok'
  obtain ⟨timer, htimer, hcb⟩ := ht
  refine timing_set { timer with expire := expire } hown hcb rfl ?_ fun ho hle => ?_
  · rw [hb.timers, htimer]
    rfl
  · exact hb.ordered ho fun t ht' => hle fd t ht'

/-! ### Each event -/

theorem timing_accept (sock : Socket) : Timing s [] (s.handleServerAccept c sock) :=
  .same fun l => by rw [accept_loops]

theorem timing_onConnect {conn : TcpConnection C} {ch : Channel} {expire : Nat} (hlock : u.lock c = some conn)
    (hch : conn.channel = some ch) (hx : Indexed (u.loops ch.loop).timers) (hown : u.Own c ch.loop conn.sock.fd)
    (h : u.onConnect c expire = some v) : Timing u [(c, expire)] v := by
  simp only [onConnect, hlock, hch, bind, Option.bind_some] at h
  have hsame : ∀ l, ((u.setLoop ch.loop ((u.loops ch.loop).addChannel conn.sock.fd c ch.events)).loops l).timers =
      (u.loops l).timers := by
    refine setLoop_timers ?_
    unfold EventLoop.addChannel
    split <;> rfl
  obtain ⟨timers, hok, rfl⟩ := onLoop_timers h
  obtain ⟨timers', hok', hb⟩ := TimerHeap.push_becomes hx ⟨conn.sock.fd, expire, c⟩
  rw [hsame ch.loop] at hok
  cases hok.symm.trans hok'
  have hown' : (u.setLoop ch.loop ((u.loops ch.loop).addChannel conn.sock.fd c ch.events)).Own c ch.loop conn.sock.fd :=
    fun l' fd' timer ht => hown l' fd' timer (hsame l' ▸ ht)
  refine Timing.congr (timing_set ⟨conn.sock.fd, expire, c⟩ hown' rfl rfl ?_ ?_) hsame
  · rw [hsame, hb.timers]
  · rw [hsame]
    exact fun ho _ => hb.ordered ho trivial

theorem timing_task {expire : Nat} (hi : s.Inv) (h : s.perform onMessage (.task l expire) = some s') :
    Timing s (s.deadline (.task l expire : Event A)) s' := by
  cases hq : (s.loops l).tasks with
  | nil =>
    simp only [perform, hq] at h
    cases h
  | cons c tasks =>
    simp only [perform, hq] at h
    obtain ⟨fd, ho⟩ := hi.tasks c l (by rw [hq]; exact List.mem_cons_self)
    obtain ⟨conn, hconn, rfl, -, hl⟩ := ho.conn
    obtain ⟨ch, hch, rfl⟩ := Option.map_eq_some_iff.mp hl
    have hsame : ∀ l, ((s.setLoop ch.loop { s.loops ch.loop with tasks := tasks }).loops l).timers =
      (s.loops l).timers := setLoop_timers rfl
    have hlock : (s.setLoop ch.loop { s.loops ch.loop with tasks := tasks }).lock c = some conn :=
      lock_of_entry hconn (hi.entry c _ _ ho)
    rw [deadline, hq]
    exact (timing_onConnect hlock hch (hsame _ ▸ hi.indexed ch.loop)
      (fun l' fd' timer ht => hi.own ho.found l' fd' timer (hsame l' ▸ ht)) h).congr hsame

/-- A read or write callback begins with the deadline. -/
theorem serve_timing {expire : Nat} {callback : TcpServer C → Option (TcpServer C)} (h : During s c l fd u)
    (ht : u.Timed c l fd) (hown : u.Own c l fd) (hv : u.serve c expire callback = some v) :
    ∃ w, During s c l fd w ∧ w.conns = u.conns ∧ callback w = some v ∧ Timing u [(c, expire)] w := by
  obtain ⟨conn, ch, -, hlive, -, rfl, rfl, -⟩ := h.lock
  rw [TcpServer.serve, hlive] at hv
  obtain ⟨w, hw, hcall⟩ := Option.bind_eq_some_iff.mp hv
  obtain ⟨hd, -, hconns⟩ := h.adjustTimer ht hw
  exact ⟨w, hd, hconns, hcall, timing_adjustTimer h.indexed hown ht hw⟩

theorem Inv.take_own {ready : Ready} (hi : s.Inv) (h : s.takeEvent l fd ready = some (c, u)) : u.Own c l fd := by
  obtain ⟨ho, -⟩ := hi.take h
  exact fun l' fd' timer ht => hi.own ho.found l' fd' timer (takeEvent_timers h l' ▸ ht)

theorem During.timing_end {conn : TcpConnection C} (h : During s c l fd u)
    (hv : (u.setConn c conn).delTimerAndClose l c fd = some v) : Timing u [] v :=
  (timing_delTimerAndClose (s := u.setConn c conn) h.indexed hv).congr fun _ => rfl

theorem timing_read {expire : Nat} {a : A} {rs : List (Except Nat Bytes)} {errno : Nat} (hi : s.Inv)
    (h : s.perform onMessage (.read l fd expire a rs errno) = some s') :
    Timing s (s.deadline (.read l fd expire a rs errno)) s' := by
  obtain ⟨⟨c, u⟩, htake, h⟩ := Option.bind_eq_some_iff.mp h
  have hown := hi.take_own htake
  have hsame := takeEvent_timers htake
  obtain ⟨ho, hd, ht, hconns, reg, hreg, rfl⟩ := hi.take htake
  obtain ⟨w, hw, hconns', h, hserve⟩ := serve_timing hd ht hown h
  obtain ⟨conn, hconn, -⟩ := ho.exists_conn
  obtain ⟨status, errno', conn1, rest, -, hcase⟩ := hw.onRecv (by rw [hconns', hconns, hconn]) h
  rw [deadline, hreg]
  refine (hserve.trans ?_).congr hsame
  rcases hcase with ⟨-, hclose⟩ | ⟨-, ms, conn2, -, rfl⟩
  · exact hw.timing_end hclose
  · exact .same (rearm_timers w l _ conn2 _)

theorem timing_write {expire : Nat} {rs : List Buffer.SysRet} {errno : Nat} (hi : s.Inv)
    (h : s.perform onMessage (.write l fd expire rs errno) = some s') :
    Timing s (s.deadline (.write l fd expire rs errno : Event A)) s' := by
  obtain ⟨⟨c, u⟩, htake, h⟩ := Option.bind_eq_some_iff.mp h
  have hown := hi.take_own htake
  have hsame := takeEvent_timers htake
  obtain ⟨ho, hd, ht, hconns, reg, hreg, rfl⟩ := hi.take htake
  obtain ⟨w, hw, hconns', h, hserve⟩ := serve_timing hd ht hown h
  obtain ⟨conn, hconn, -⟩ := ho.exists_conn
  obtain ⟨status, errno', conn1, wire, rest, -, hcase⟩ := hw.onSend (by rw [hconns', hconns, hconn]) h
  rw [deadline, hreg]
  refine (hserve.trans ?_).congr hsame
  rcases hcase with ⟨-, rfl⟩ | ⟨-, -, rfl⟩ | ⟨-, -, hclose⟩
  · exact .same (rearm_timers w l _ conn1 _)
  · exact .same (rearm_timers w l _ conn1 _)
  · exact hw.timing_end hclose

theorem timing_timeout {now rounds : Nat} : ∀ {s s' : TcpServer C}, s.Inv → s.handleTimeout l now rounds = some s' →
    Timing s [] s' := by
  induction rounds with
  | zero =>
    intro s s' _ h
    cases h
    exact .same fun _ => rfl
  | succ rounds ih =>
    intro s s' hi h
    rcases handleTimeout_cases h with ⟨rfl, -⟩ | ⟨timer, n, s1, hn, ht, hdue, h1, h⟩
    · exact .same fun _ => rfl
    · cases hn
      obtain ⟨-, hi1⟩ := Round.inv hi ht hdue h1
      refine Timing.trans ?_ (ih hi1 h)
      obtain ⟨timers, hok, rfl⟩ := onLoop_timers h1
      have hsame := close_timers s timer.cb l
      rw [hsame] at hok
      obtain ⟨timers', hok', hb⟩ := TimerHeap.pop_becomes (hi.indexed l) ht
      cases hok.symm.trans hok'
      exact (timing_close s timer.cb).trans (timing_remove (hsame ▸ hb) trivial)

/-- What an event does to the deadlines. -/
theorem step_timing (hi : s.Inv) (h : s.perform onMessage e = some s') : Timing s (s.deadline e) s' := by
  cases e with
  | accept c sock =>
    cases h
    exact timing_accept sock
  | task l expire => exact timing_task hi h
  | report l fd ready =>
    obtain ⟨reg, -, h⟩ := Option.bind_eq_some_iff.mp h
    by_cases hr : reg.Reports ready
    · rw [if_pos hr] at h
      cases h
      exact .same (setLoop_timers rfl)
    · rw [if_neg hr] at h
      cases h
  | read l fd expire a rs errno => exact timing_read hi h
  | write l fd expire rs errno => exact timing_write hi h
  | hangup l fd =>
    obtain ⟨⟨c, u⟩, htake, h⟩ := Option.map_eq_some_iff.mp h
    cases h
    exact (timing_close u c).congr (takeEvent_timers htake)
  | timeout l now => exact timing_timeout hi h

/-! ## What a loop's timer ends -/

/-- In a heap in order, the timers that fire are those that are due. -/
theorem fires_iff {now : Nat} {timer : Timer ConnId} : ∀ {heap : TimerHeap ConnId}, Indexed heap → Ordered heap →
    (Fires now heap timer ↔ heap.timers timer.fd = some timer ∧ timer.expire ≤ now) := by
  intro heap hx ho
  constructor
  · intro h
    induction h with
    | first ht hdue => exact ⟨TimerHeap.top_timer hx ht, hdue⟩
    | @next heap heap' t t' ht _ hpop _ ih =>
      obtain ⟨heap'', hok, hb⟩ := TimerHeap.pop_becomes hx ht
      cases hpop.symm.trans hok
      obtain ⟨htimer, hdue⟩ := ih hb.indexed (hb.ordered ho trivial)
      rw [hb.timers] at htimer
      by_cases hfd : t.fd = t'.fd
      · rw [hfd, Function.update_self] at htimer
        cases htimer
      · rw [Function.update_of_ne hfd] at htimer
        exact ⟨htimer, hdue⟩
  · intro ⟨htimer, hdue⟩
    induction hn : heap.heap.size using Nat.strong_induction_on generalizing heap with
    | _ n ih =>
      cases ht : heap.top with
      | none =>
        rw [(TimerHeap.top_none hx).mp ht] at htimer
        cases htimer
      | some first =>
        have hle := TimerHeap.top_least hx ho ht htimer
        obtain ⟨heap', hok, hb⟩ := TimerHeap.pop_becomes hx ht
        by_cases hfd : timer.fd = first.fd
        · have hfirst := TimerHeap.top_timer hx ht
          rw [← hfd, htimer] at hfirst
          cases hfirst
          exact .first ht hdue
        · refine .next ht (hle.trans hdue) hok (ih _ ?_ hb.indexed (hb.ordered ho trivial) ?_ rfl)
          · rw [← hn]
            exact TimerHeap.pop_size hx hok
          · rw [hb.timers, Function.update_of_ne hfd, htimer]

theorem deadline_unique {d d' : ConnId × Nat} (h : d ∈ s.deadline e) (h' : d' ∈ s.deadline e) : d = d' := by
  cases e with
  | task | read | write =>
    rw [deadline, Option.mem_toList] at h h'
    exact Option.mem_unique h h'
  | _ => cases h

/-- Each timer holds the last deadline of its connection. -/
structure Punctual (s : TcpServer C) (ds : List (ConnId × Nat)) : Prop where
  ordered : ∀ l, Ordered (s.loops l).timers
  last : ∀ l fd timer, (s.loops l).timers.timers fd = some timer →
    (timer.cb, timer.expire) ∈ ds ∧ ∀ d, (timer.cb, d) ∈ ds → d ≤ timer.expire

theorem step_punctual {ds : List (ConnId × Nat)} (ht : Timing s (s.deadline e) s') (hp : s.Punctual ds)
    (hclock : ∀ d ∈ ds, ∀ d' ∈ s.deadline e, d.2 ≤ d'.2) : s'.Punctual (ds ++ s.deadline e) where
  ordered := ht.ordered hp.ordered fun l fd timer htimer d hd => hclock _ (hp.last l fd timer htimer).1 d hd
  last l fd timer htimer := by
    rcases ht.timers l fd timer htimer with ⟨hold, hother⟩ | hnew
    · obtain ⟨hmem, hle⟩ := hp.last l fd timer hold
      refine ⟨List.mem_append_left _ hmem, fun d hd => ?_⟩
      rcases List.mem_append.mp hd with hd | hd
      · exact hle d hd
      · exact absurd rfl (hother _ hd)
    · refine ⟨List.mem_append_right _ hnew, fun d hd => ?_⟩
      rcases List.mem_append.mp hd with hd | hd
      · exact hclock _ hd _ hnew
      · exact (congrArg Prod.snd (deadline_unique hd hnew)).le

theorem punctual_start (n : Nat) : (start n : TcpServer C).Punctual [] where
  ordered _ k _ hk := absurd hk (Nat.not_lt_zero k)
  last _ _ _ h := by cases h

/-- The deadlines of a run whose clock does not run backwards. -/
theorem run_punctual (hk : ∀ a conn ms conn', onMessage a conn = .ok (ms, conn') → Keeps conn conn') {n : Nat}
    {es : List (Event A)} (h : Labelled.Run (Step onMessage) (start n) es s)
    (hclock : ((observed onMessage deadline (start n) es).map (·.2)).Pairwise (· ≤ ·)) :
    s.Punctual (observed onMessage deadline (start n) es) := by
  have hrun := run_observed (f := deadline) (I := fun (s : TcpServer C) (ds : List (ConnId × Nat)) =>
      s.Inv ∧ ((ds.map (·.2)).Pairwise (· ≤ ·) → s.Punctual ds)) h ⟨inv_start n, fun _ => punctual_start n⟩
    fun s ds e s' hs hstep => by
      refine ⟨(step_effect hk hs.1 hstep).inv, fun hpair => ?_⟩
      rw [List.map_append, List.pairwise_append] at hpair
      obtain ⟨hds, -, hle⟩ := hpair
      exact step_punctual (step_timing hs.1 hstep.2) (hs.2 hds) fun d hd d' hd' =>
        hle _ (List.mem_map_of_mem hd) _ (List.mem_map_of_mem hd')
  exact hrun.2 hclock

/-- When the timer of a loop goes off, in any run whose clock does not run backwards, the
    connections that end are those of this loop that have run `onConnect` and have no deadline
    still to come. The runs are those without a call through a destroyed channel, which the
    loops make when `dangling_iff` says so. -/
theorem idle_ends (hk : ∀ a conn ms conn', onMessage a conn = .ok (ms, conn') → Keeps conn conn') {n : Nat}
    {es : List (Event A)} (h : Labelled.Run (Step onMessage) (start n) es s)
    (hclock : ((observed onMessage deadline (start n) es).map (·.2)).Pairwise (· ≤ ·)) {now : Nat}
    (hs : Step onMessage s (.timeout l now) s') (c : ConnId) :
    Loses s s' c ↔ (∃ fd, s.Open c l fd) ∧ c ∉ (s.loops l).tasks ∧
      ∀ d, (c, d) ∈ observed onMessage deadline (start n) es → d ≤ now := by
  have hi := run_inv hk h
  have hp := run_punctual hk h hclock
  have hx := hi.indexed l
  rw [loses_iff hk hi hs]
  constructor
  · intro hc
    cases hc with
    | @timeout _ _ timer hf ha =>
      obtain ⟨htimer, hdue⟩ := (fires_iff hx (hp.ordered l)).mp hf
      obtain ⟨hfound, hnot⟩ := hi.timers l timer.fd timer htimer
      exact ⟨⟨timer.fd, ha.open hfound⟩, hnot l, fun d hd => ((hp.last l _ timer htimer).2 d hd).trans hdue⟩
  · intro ⟨⟨fd, ho⟩, hnot, hd⟩
    obtain ⟨timer, htimer, rfl⟩ := (hi.served c l fd ho hnot).timer
    have hfd : timer.fd = fd := ((TimerHeap.timers_eq_some hx).mp htimer).2
    have hdue := hd _ (hp.last l fd timer htimer).1
    exact .timeout ((fires_iff hx (hp.ordered l)).mpr ⟨hfd.symm ▸ htimer, hdue⟩) ho.exists_conn

/-- A connection that nothing was heard of until its deadline. -/
theorem idle_ends_one : ∃ s s' : TcpServer Unit, Step (fun (_ : Unit) conn => .ok (.ok, conn)) s (.timeout 0 100) s' ∧
    (Loses s s' 0 ↔ (∃ fd, s.Open 0 0 fd) ∧ 0 ∉ (s.loops 0).tasks ∧
      ∀ d, (0, d) ∈ observed (fun (_ : Unit) conn => .ok (.ok, conn)) deadline (start 2 : TcpServer Unit)
        [.accept 0 ⟨5, true, false⟩, .task 0 100] → d ≤ 100) := by
  have hrun : ((performs (fun (_ : Unit) conn => .ok (.ok, conn)) (start 2 : TcpServer Unit)
      [.accept 0 ⟨5, true, false⟩, .task 0 100]).bind fun s =>
        s.perform (fun (_ : Unit) conn => .ok (.ok, conn)) (.timeout 0 100)).isSome = true := by decide +kernel
  obtain ⟨s', hs'⟩ := Option.isSome_iff_exists.mp hrun
  obtain ⟨s, hs, hstep⟩ := Option.bind_eq_some_iff.mp hs'
  exact ⟨s, s', ⟨trivial, hstep⟩, idle_ends (fun _ _ _ _ h => by cases h; exact ⟨rfl, rfl, rfl⟩) (run_performs rfl hs)
    (by decide +kernel) ⟨trivial, hstep⟩ 0⟩

end TcpServer

end HahaWeb
