/-
  HahaWeb.Http.ServerBatches — the HTTP server on loops that handle batches of events.

  A loop calls each channel that `epoll_wait` reported, also one whose connection the loop's
  own timerfd has ended earlier in the batch. Nothing keeps such a channel but the request of
  its connection: without one it is destroyed, the call is undefined, and any state may
  follow. Proved: as long as no loop makes such a call, the tables agree in every state and a
  step ends what it closes and nothing else; and a call is such that they still do if and
  only if its connection's timer has not fired in this batch, or the connection has a request
  (`lifecycle_iff`).
-/

import HahaWeb.Http.ServerRuns
import HahaWeb.Net.Batch

namespace HahaWeb

open Labelled (Run)

namespace TcpServer

namespace Batched

variable {C A : Type} {b b' : Batched C} {c : ConnId} {l n : Nat} {fd : Fd} {onMessage : App C A} {lb : Label A}
  {ls : List (Label A)} {rest : List Item} {s' : TcpServer C}

/-- The loop that calls a channel, and what was reported of it. -/
def Label.calls : Label A → Option (Nat × Ready)
  | .read l _ _ _ _ => some (l, .read)
  | .write l _ _ _ => some (l, .write)
  | .hangup l => some (l, .close)
  | _ => none

/-- A step, or a call through a channel that is gone: then anything may follow. -/
inductive Happens (onMessage : App C A) (b : Batched C) (lb : Label A) : Batched C → Prop
  | step {b' : Batched C} : Step onMessage b lb b' → Happens onMessage b lb b'
  | dangling {l : Nat} {c : ConnId} {fd : Fd} {ready : Ready} {rest : List Item} (b' : Batched C) :
      lb.calls = some (l, ready) → b.batch l = .channel c fd ready :: rest → b.server.lock c = none →
      Happens onMessage b lb b'

/-- The channel called belongs to a connection whose timer has not fired in this batch, or that
    has a request. -/
def Safe (b : Batched C) (lb : Label A) : Prop :=
  ∀ l c fd ready rest, lb.calls = some (l, ready) → b.batch l = .channel c fd ready :: rest → c ∈ b.fired l →
    ∃ conn, b.server.conns c = some conn ∧ conn.context ≠ none

/-- The connections that a step of the loops ends: the one whose channel it calls, when that
    callback closes it, and those whose timers fire. -/
def Ends (b : Batched C) (c : ConnId) : Label A → Prop
  | .read l expire a rs errno =>
    ∃ fd rest, b.batch l = .channel c fd .read :: rest ∧ Closes b.server (.read l fd expire a rs errno) c
  | .write l expire rs errno =>
    ∃ fd rest, b.batch l = .channel c fd .write :: rest ∧ Closes b.server (.write l fd expire rs errno : Event A) c
  | .hangup l => ∃ fd rest, b.batch l = .channel c fd .close :: rest ∧ Closes b.server (.hangup l fd : Event A) c
  | .timer l now => Closes b.server (.timeout l now : Event A) c
  | _ => False

/-! ## What a step of the loops ends -/

theorem not_loses_self (s : TcpServer C) (c : ConnId) : ¬ Loses s s c := by
  intro h
  rcases h with ⟨ha, hn⟩ | ⟨fd, hc, hn⟩
  · exact hn ha
  · exact hn hc

/-- What a run loses one of its events closes. -/
theorem run_loses (hk : ∀ a conn ms conn', onMessage a conn = .ok (ms, conn') → Keeps conn conn') {s : TcpServer C}
    {es : List (Event A)} (h : Run (TcpServer.Step onMessage) s es s') (hi : s.Inv) (hl : Loses s s' c) :
    ∃ u : TcpServer C, ∃ e ∈ es, Closes u e c := by
  induction h with
  | nil s => exact absurd hl (not_loses_self s c)
  | @cons s t u e es hs _ ih =>
    rcases hl.split t with hl | hl
    · exact ⟨s, e, List.mem_cons_self, (loses_iff hk hi hs).mp hl⟩
    · obtain ⟨v, e', he', hc⟩ := ih (step_effect hk hi hs).inv hl
      exact ⟨v, e', List.mem_cons_of_mem _ he', hc⟩

/-- Of the channel at the head of a batch. -/
theorem head_iff {ready : Ready} {p : Fd → Prop} (hl : b.batch l = .channel c fd ready :: rest) {c' : ConnId} :
    (∃ fd rest, b.batch l = .channel c' fd ready :: rest ∧ p fd) ↔ c' = c ∧ p fd := by
  constructor
  · intro h
    obtain ⟨fd', rest', hl', hp⟩ := h
    rw [hl] at hl'
    cases hl'
    exact ⟨rfl, hp⟩
  · intro h
    obtain ⟨rfl, hp⟩ := h
    exact ⟨fd, rest, hl, hp⟩

section Steps

variable (hk : ∀ a conn ms conn', onMessage a conn = .ok (ms, conn') → Keeps conn conn') (hi : b.server.Inv)
  (hcur : b.server.Current) (hb : b.Waiting)

include hk hi hb

/-- A callback ends its own connection at most. -/
theorem called_loses_iff {ready : Ready} (e : Event A) (hl : b.batch l = .channel c fd ready :: rest)
    (hreg : ∀ c', Closes b.server e c' → ∃ reg, (b.server.loops l).epoll fd = some reg ∧ reg.conn = c')
    (hstep : b.server.takeEvent l fd ready = some (c, begins b.server l c fd ready) →
      TcpServer.Step onMessage b.server e s')
    (hgone : ¬ b.server.Alive c → begins b.server l c fd ready = b.server → s' = b.server) {c' : ConnId} :
    Loses b.server s' c' ↔ c' = c ∧ Closes b.server e c' := by
  have hw : Waits b.server l (.channel c fd ready :: rest) (b.fired l) := hl ▸ hb l
  rcases hw.begins hi with htake | ⟨hnot, hbegins⟩
  · rw [loses_iff hk hi (hstep htake)]
    refine ⟨fun hc => ⟨?_, hc⟩, And.right⟩
    obtain ⟨reg, hreg1, rfl⟩ := hreg c' hc
    obtain ⟨-, -, -, -, reg', hreg2, rfl⟩ := hi.take htake
    cases hreg1.symm.trans hreg2
    rfl
  · rw [hgone hnot hbegins]
    refine iff_of_false (not_loses_self _ _) fun h => hnot ?_
    obtain ⟨reg, hreg1, hc⟩ := hreg c' h.2
    rw [← h.1, ← hc]
    exact (hi.epoll l fd reg hreg1).1.exists_conn

include hcur

theorem step_loses_iff (h : Step onMessage b lb b') (c : ConnId) : Loses b.server b'.server c ↔ Ends b c lb := by
  cases h with
  | wait hl hnodup hnamed hp =>
    obtain ⟨hrun, -, -⟩ := report_run hi hcur hp hnodup hnamed
    refine iff_of_false (fun h => ?_) id
    obtain ⟨u, e, he, hc⟩ := run_loses hk hrun hi h
    obtain ⟨item, -, he⟩ := List.mem_flatMap.mp he
    cases item with
    | timer => cases he
    | channel c' fd ready =>
      rw [List.mem_singleton.mp he] at hc
      cases hc
  | @accept c' sock ha =>
    have hs : TcpServer.Step onMessage b.server (.accept c' sock) (b.server.handleServerAccept c' sock) := ⟨ha, rfl⟩
    rw [loses_iff hk hi hs]
    exact iff_of_false (fun h => by cases h) id
  | @task l expire s' hl hp =>
    have hs : TcpServer.Step onMessage b.server (.task l expire) s' := ⟨trivial, hp⟩
    rw [loses_iff hk hi hs]
    exact iff_of_false (fun h => by cases h) id
  | @timer l now rest s' hl hp => exact loses_iff hk hi ⟨trivial, hp⟩
  | @read l expire errno c' fd rest a rs s' hl _ hp =>
    rw [Ends, head_iff hl]
    refine called_loses_iff hk hi hb (.read l fd expire a rs errno) hl (fun _ hc => ?_) (fun htake => ⟨trivial, ?_⟩)
      fun hgone hbegins => ?_
    · cases hc with
      | read _ _ hreg _ _ _ => exact ⟨_, hreg, rfl⟩
    · simp only [perform, htake, bind, Option.bind_some]
      exact hp
    · rw [hbegins] at hp
      exact (Option.some.inj ((serve_gone hgone).symm.trans hp)).symm
  | @write l expire errno c' fd rest rs s' hl _ hp =>
    rw [Ends, head_iff hl]
    refine called_loses_iff hk hi hb (.write l fd expire rs errno) hl (fun _ hc => ?_) (fun htake => ⟨trivial, ?_⟩)
      fun hgone hbegins => ?_
    · cases hc with
      | write _ hreg _ _ _ _ => exact ⟨_, hreg, rfl⟩
    · simp only [perform, htake, bind, Option.bind_some]
      exact hp
    · rw [hbegins] at hp
      exact (Option.some.inj ((serve_gone hgone).symm.trans hp)).symm
  | @hangup l c' fd rest hl =>
    rw [Ends, head_iff hl]
    refine called_loses_iff hk hi hb (.hangup l fd) hl (fun _ hc => ?_) (fun htake => ⟨trivial, ?_⟩)
      fun hgone hbegins => ?_
    · cases hc with
      | hangup hreg => exact ⟨_, hreg, rfl⟩
    · rw [perform, htake]
      rfl
    · show (begins b.server l c' fd .close).handleConnectionClose c' = b.server
      rw [hbegins]
      exact close_gone hgone

end Steps

/-! ## Runs without a call through a destroyed channel -/

theorem head_mem {items : List Item} {item : Item} (h : items = item :: rest) : item ∈ items := h ▸ List.mem_cons_self

/-- The condition says that the channel called is there. -/
theorem safe_iff (hw : b.Waiting) (hi : b.server.Inv) : Safe b lb ↔ ∀ l c fd ready rest, lb.calls = some (l, ready) →
    b.batch l = .channel c fd ready :: rest → b.server.lock c ≠ none := by
  constructor
  · intro hs l c fd ready rest hcalls hl hnone
    obtain ⟨hfired, hctx⟩ := (hw.gone_iff hi (head_mem hl)).mp hnone
    obtain ⟨conn, hconn, hne⟩ := hs l c fd ready rest hcalls hl hfired
    exact hne (hctx conn hconn)
  · intro hs l c fd ready rest hcalls hl hfired
    by_contra hnot
    refine hs l c fd ready rest hcalls hl ((hw.gone_iff hi (head_mem hl)).mpr ⟨hfired, fun conn hconn => ?_⟩)
    by_contra hne
    exact hnot ⟨conn, hconn, hne⟩

/-- The steps of the loops are those that meet the condition. -/
theorem happens_safe_iff (hw : b.Waiting) (hi : b.server.Inv) :
    Happens onMessage b lb b' ∧ Safe b lb ↔ Step onMessage b lb b' := by
  rw [safe_iff hw hi]
  constructor
  · intro h
    obtain ⟨h, hs⟩ := h
    cases h with
    | step h => exact h
    | dangling _ hcalls hl hnone => exact absurd hnone (hs _ _ _ _ _ hcalls hl)
  · intro h
    refine ⟨.step h, fun l c fd ready rest hcalls hl => ?_⟩
    cases h with
    | read hl' hlock =>
      cases hcalls
      cases hl.symm.trans hl'
      exact Option.isSome_iff_ne_none.mp hlock
    | write hl' hlock =>
      cases hcalls
      cases hl.symm.trans hl'
      exact Option.isSome_iff_ne_none.mp hlock
    | hangup hl' hlock =>
      cases hcalls
      cases hl.symm.trans hl'
      exact Option.isSome_iff_ne_none.mp hlock
    | _ => cases hcalls

/-- A call that does not meet it can lead anywhere. -/
theorem happens_of_not_safe (hw : b.Waiting) (hi : b.server.Inv) (hs : ¬ Safe b lb) (b' : Batched C) :
    Happens onMessage b lb b' := by
  simp only [safe_iff hw hi, not_forall, not_not] at hs
  obtain ⟨l, c, fd, ready, rest, hcalls, hl, hnone⟩ := hs
  exact .dangling b' hcalls hl hnone

theorem run_safe_iff (hk : ∀ a conn ms conn', onMessage a conn = .ok (ms, conn') → Keeps conn conn') :
    Run (fun b lb b' => Happens onMessage b lb b' ∧ Safe b lb) (start n) ls b ↔ Run (Step onMessage) (start n) ls b := by
  have hstep : ∀ (b : Batched C) (lb : Label A) (b' : Batched C), (∃ ls, Run (Step onMessage) (start n) ls b) →
      (Happens onMessage b lb b' ∧ Safe b lb ↔ Step onMessage b lb b') := by
    intro b lb b' hb
    obtain ⟨ls, hrun⟩ := hb
    obtain ⟨⟨es, hes⟩, hw⟩ := run_waiting hk hrun
    exact happens_safe_iff hw (run_current hk hes).1
  refine Run.congr (I := fun b => ∃ ls, Run (Step onMessage) (start n) ls b) (fun b lb b' hb hs => ?_) hstep
    ⟨[], .nil _⟩
  obtain ⟨ls, hrun⟩ := id hb
  exact ⟨ls ++ [lb], hrun.append (.cons ((hstep b lb b' hb).mp hs) (.nil _))⟩

/-! ## The HTTP server -/

open HttpServer (app bareWorld)

variable {D : Type} {bs : Batched (HttpRequest D)} {labels : List (Label (HttpServer D × World D))}

/-- What is to hold after a step: the tables agree, and the step lost what it ended. -/
def Kept (b b' : Batched (HttpRequest D)) (lb : Label (HttpServer D × World D)) : Prop :=
  b'.server.Agrees ∧ ∀ c, Loses b.server b'.server c ↔ Ends b c lb

/-- In every run without a call through a destroyed channel the tables agree, and the next step
    keeps that, whatever follows it, exactly when it makes no such call. -/
theorem lifecycle_iff (h : Run (fun b lb b' => Happens app b lb b' ∧ Safe b lb) (start n) labels bs) :
    bs.server.Agrees ∧ ∀ lb, Safe bs lb ↔ ∀ b', Happens app bs lb b' → Kept bs b' lb := by
  have hrun := (run_safe_iff HttpServer.app_keeps).mp h
  obtain ⟨⟨es, hes⟩, hw⟩ := run_waiting HttpServer.app_keeps hrun
  obtain ⟨hi, hcur⟩ := run_current HttpServer.app_keeps hes
  refine ⟨server_agrees hes, fun lb => ⟨fun hs b' hb => ?_, fun hall => ?_⟩⟩
  · have hstep := (happens_safe_iff hw hi).mp ⟨hb, hs⟩
    obtain ⟨⟨es', hes'⟩, -⟩ := step_waiting HttpServer.app_keeps hi hcur hw hstep
    exact ⟨server_agrees (hes.append hes'), step_loses_iff HttpServer.app_keeps hi hcur hw hstep⟩
  · by_contra hnot
    -- a connection without a channel
    let conn : TcpConnection (HttpRequest D) := .new ⟨0, true, false⟩
    let broken : Batched (HttpRequest D) := { bs with server := bs.server.setConn 0 conn }
    obtain ⟨hagree, -⟩ := hall broken (happens_of_not_safe hw hi hnot broken)
    obtain ⟨ch, hch, -⟩ := hagree 0 conn (setConn_conns_same _ _ _) rfl
    cases hch

/-- Two connections of a loop: the timer of the first ends it, and the read of the second, which
    was reported with the timerfd, goes on. -/
theorem lifecycle_iff_two : ∃ (labels : List (Label (HttpServer Unit × World Unit)))
    (b : Batched (HttpRequest Unit)) (conn : Conn Unit) (ch : Channel),
    labels.length = 7 ∧ Run (fun b lb b' => Happens app b lb b' ∧ Safe b lb) (start 1) labels b ∧
      b.server.connects 5 = none ∧ b.server.conns 1 = some conn ∧ Known b.server 1 conn ch ∧
      ∀ lb, Safe b lb → ∀ b', Happens app b lb b' → Kept b b' lb := by
  let s1 : Server Unit := (TcpServer.start 1).handleServerAccept 0 ⟨5, true, false⟩
  let s2 : Server Unit := s1.handleServerAccept 1 ⟨6, true, false⟩
  let reads : List (Except Nat Bytes) := [.ok (lit "GET / HTTP/1.1\r\n"), .error EAGAIN]
  have hrun : ((s2.perform app (.task 0 100)).bind fun s3 => (s3.perform app (.task 0 1000)).bind fun s4 =>
      (performs app s4 [.report 0 6 .read]).bind fun s5 => (s5.perform app (.timeout 0 150)).bind fun s6 =>
        ((begins s6 0 1 6 .read).handleConnectionRead app 1 1200 (⟨none⟩, bareWorld) reads 0).bind fun s7 =>
          (s7.conns 1).map fun conn => (((s4.loops 0).epoll 6).map Registration.conn,
            (s6.lock 1).isSome && (s7.connects 5).isNone && !conn.disconnected, conn.channel, (s7.loops 0).tasks)) =
      some (some 1, true, some ⟨0, .epollin⟩, []) := by
    decide +kernel
  obtain ⟨s3, h3, hrun⟩ := Option.bind_eq_some_iff.mp hrun
  obtain ⟨s4, h4, hrun⟩ := Option.bind_eq_some_iff.mp hrun
  obtain ⟨s5, h5, hrun⟩ := Option.bind_eq_some_iff.mp hrun
  obtain ⟨s6, h6, hrun⟩ := Option.bind_eq_some_iff.mp hrun
  obtain ⟨s7, h7, hrun⟩ := Option.bind_eq_some_iff.mp hrun
  obtain ⟨conn, hconn, hrun⟩ := Option.map_eq_some_iff.mp hrun
  simp only [Prod.mk.injEq, Bool.and_eq_true, Option.isNone_iff_eq_none, Bool.not_eq_eq_eq_not, Bool.not_true] at hrun
  obtain ⟨hreg, ⟨⟨hlock, hentry⟩, hd⟩, hch, htasks⟩ := hrun
  obtain ⟨reg, hreg, hc⟩ := Option.map_eq_some_iff.mp hreg
  have hadmit1 : (TcpServer.start 1 : Server Unit).Admits
      (.accept 0 ⟨5, true, false⟩ : Event (HttpServer Unit × World Unit)) :=
    ⟨rfl, fun _ _ h => by cases lock_conns h⟩
  have hadmit2 : s1.Admits (.accept 1 ⟨6, true, false⟩ : Event (HttpServer Unit × World Unit)) := by
    refine ⟨rfl, fun c' conn h => ?_⟩
    have hconns := lock_conns h
    by_cases hc' : c' = 0
    · rw [hc'] at hconns
      cases hconns
      decide
    · rw [accept_conns hc'] at hconns
      cases hconns
  have hloops : Run (Step app) (start 1) [.accept 0 ⟨5, true, false⟩, .accept 1 ⟨6, true, false⟩, .task 0 100,
      .task 0 1000, .wait 0 [.timer, .channel 1 6 .read], .timer 0 150,
      .read 0 1200 (⟨none⟩, bareWorld) reads 0] _ :=
    .cons (.accept hadmit1) (.cons (.accept hadmit2) (.cons (.task rfl h3) (.cons (.task rfl h4)
      (.cons (.wait rfl (by decide) (fun c fd ready hm => by
        obtain ⟨rfl, rfl, rfl⟩ : c = 1 ∧ fd = 6 ∧ ready = .read := by simpa using hm
        exact ⟨reg, hreg, hc⟩) h5)
      (.cons (.timer rfl h6) (.cons (.read rfl hlock h7) (.nil _)))))))
  have hsafe := (run_safe_iff HttpServer.app_keeps).mpr hloops
  obtain ⟨hagree, hnext⟩ := lifecycle_iff hsafe
  obtain ⟨ch, hch', hk⟩ := hagree 1 conn hconn hd
  cases hch.symm.trans hch'
  have hdone : 1 ∉ (s7.loops 0).tasks := by rw [htasks]; exact List.not_mem_nil
  exact ⟨_, _, conn, _, rfl, hsafe, hentry, hconn, hk hdone, fun lb => (hnext lb).mp⟩

/-- An idle connection is reported together with the timerfd, and behind it. -/
theorem lifecycle_dangling : ¬ ∀ (n : Nat) (labels : List (Label (HttpServer Unit × World Unit)))
    (b : Batched (HttpRequest Unit)), 0 < n → Run (Happens app) (start n) labels b → b.server.Agrees := by
  intro hall
  let s1 : Server Unit := (TcpServer.start 1).handleServerAccept 0 ⟨7, true, false⟩
  have hrun : ((s1.perform app (.task 0 5)).bind fun s2 => (performs app s2 [.report 0 7 .read]).bind fun s3 =>
      (s3.perform app (.timeout 0 10)).map fun s4 =>
        (((s2.loops 0).epoll 7).map Registration.conn, (s4.lock 0).isSome)) = some (some 0, false) := by
    decide +kernel
  obtain ⟨s2, h2, hrun⟩ := Option.bind_eq_some_iff.mp hrun
  obtain ⟨s3, h3, hrun⟩ := Option.bind_eq_some_iff.mp hrun
  obtain ⟨s4, h4, hrun⟩ := Option.map_eq_some_iff.mp hrun
  obtain ⟨hreg, hlock⟩ := Prod.mk.injEq .. ▸ hrun
  obtain ⟨reg, hreg, hc⟩ := Option.map_eq_some_iff.mp hreg
  have hadmit : (TcpServer.start 1 : Server Unit).Admits
      (.accept 0 ⟨7, true, false⟩ : Event (HttpServer Unit × World Unit)) :=
    ⟨rfl, fun _ _ h => by cases lock_conns h⟩
  have hnone : s4.lock 0 = none := by simpa using hlock
  -- what a destroyed channel leads to, such as a connection without one
  let conn : Conn Unit := .new ⟨0, true, false⟩
  let broken : Batched (HttpRequest Unit) := ⟨(TcpServer.start 1).setConn 0 conn, fun _ => [], fun _ => ∅⟩
  have hloops : Run (Happens app) (start 1) [.accept 0 ⟨7, true, false⟩, .task 0 5,
      .wait 0 [.timer, .channel 0 7 .read], .timer 0 10, .read 0 20 (⟨none⟩, bareWorld) [.error EAGAIN] 0] broken :=
    .cons (.step (.accept hadmit)) (.cons (.step (.task rfl h2)) (.cons (.step (.wait rfl (by decide)
      (fun c fd ready hm => by
        obtain ⟨rfl, rfl, rfl⟩ : c = 0 ∧ fd = 7 ∧ ready = .read := by simpa using hm
        exact ⟨reg, hreg, hc⟩) h3))
      (.cons (.step (.timer rfl h4)) (.cons (.dangling broken rfl rfl hnone) (.nil _)))))
  obtain ⟨ch, hch, -⟩ := hall 1 _ broken (by decide) hloops 0 conn (setConn_conns_same _ _ _) rfl
  cases hch

end Batched

end TcpServer

end HahaWeb
