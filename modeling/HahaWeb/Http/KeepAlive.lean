/-
  HahaWeb.Http.KeepAlive — whether a connection outlives its response.

  The parser decides it for the request; `onSend` reads it of the connection. `onMessage`
  carries it from the one to the other only to turn it off. Proved: no connection of a
  run is ever to be kept, so the connection is closed when a response has been sent,
  whatever the request said and however the bytes went out (`honours_iff`).
-/

import HahaWeb.Http.ServerRuns

namespace HahaWeb

open Labelled (Run)
open HttpServer (app bareWorld)

variable {D : Type}

namespace TcpServer

/-! ## Requests and their responses -/

/-- The connection whose request a read completes, with the request and what the parser says of it. -/
def answered (s : Server D) : Happening D → Option (ConnId × RetState × HttpRequest D)
  | .read l fd _ (_, w) rs errno => do
    let reg ← (s.loops l).epoll fd
    let conn ← s.conns reg.conn
    let (status, _, conn, _) ← conn.recv rs errno
    let (ret, request, _) ← ((conn.context.getD .new).parseRequest w.env conn.recver).toOption
    if status = .closed ∨ status = .error ∨ ret = .againRequest then none else some (reg.conn, ret, request)
  | _ => none

/-- The connection that a write sends the rest of. -/
def sentAll (s : Server D) : Happening D → Option ConnId
  | .write l fd _ rs errno => do
    let reg ← (s.loops l).epoll fd
    let conn ← s.conns reg.conn
    let (status, _, _, _, _) ← conn.send rs errno
    if status = .completed then some reg.conn else none
  | _ => none

/-- A step that answers no request of the connection. -/
def Other (c : ConnId) (s : Server D) (e : Happening D) (s' : Server D) : Prop :=
  Step app s e s' ∧ ∀ r, answered s e = some r → r.1 ≠ c

/-- What a run comes to: a request of the connection is answered, then no other of it, and then
    the last of what it has to send goes out. -/
inductive Exchanged (n : Nat) (c : ConnId) (ret : RetState) (request : HttpRequest D) : Server D → Prop
  | intro {es es' : List (Happening D)} {e e' : Happening D} {s1 s2 s3 s4 : Server D} : Run (Step app) (start n) es s1 →
      answered s1 e = some (c, ret, request) → Step app s1 e s2 → Run (Other c) s2 es' s3 →
      sentAll s3 e' = some c → Step app s3 e' s4 → Exchanged n c ret request s4

/-! ## Keeping the connection -/

/-- The request asks for it: `keepAlive()`, and it is not a bad one. -/
def Asks (ret : RetState) (request : HttpRequest D) : Prop := request.keepAlive = true ∧ ret ≠ .badRequest

/-- The connection is in the table, and armed for the next request. -/
def Rearmed (s : Server D) (c : ConnId) : Prop :=
  ∃ conn ch, s.conns c = some conn ∧ conn.disconnected = false ∧ conn.channel = some ch ∧
    s.connects conn.sock.fd = some c ∧
    (s.loops ch.loop).epoll conn.sock.fd = some ⟨c, .epollin, .armed⟩

def IsClosed (s : Server D) (c : ConnId) : Prop :=
  ∃ conn, s.conns c = some conn ∧ conn.disconnected = true ∧ s.connects conn.sock.fd ≠ some c

/-- After the response: the connection goes on if the request asks for it, and is closed
    exactly if it does not. -/
structure Honours (s : Server D) (c : ConnId) (ret : RetState) (request : HttpRequest D) : Prop where
  kept : Asks ret request → s.Rearmed c
  closed : s.IsClosed c ↔ ¬ Asks ret request

/-- No connection is to be kept. -/
def NoneKept (s : Server D) : Prop := ∀ c conn, s.conns c = some conn → conn.keepAlive = false

variable {s s' : Server D} {c : ConnId}

theorem step_noneKept {e : Happening D} (hi : s.Inv) (hk : s.NoneKept) (h : Step app s e s') : s'.NoneKept := by
  intro c conn' hconn'
  cases (step_effect HttpServer.app_keeps hi h).makes c conn' hconn' with
  | kept hconn _ hka =>
    rw [hka]
    exact hk c _ hconn
  | accepted _ hka => exact hka
  | @answered _ _ _ _ _ _ _ _ _ conn _ _ _ _ _ hconn hr hm _ hka =>
    obtain ⟨recver, rfl⟩ := TcpConnection.recv_eq hr
    obtain ⟨ret, request, recver', -, -, hconn2, -⟩ := HttpServer.app_ok hm
    rw [hka, hconn2]
    by_cases hb : ret = .badRequest
    · rw [if_pos hb]
    · rw [if_neg hb]
      exact hk c conn hconn

theorem run_noneKept {s1 s2 : Server D} {es : List (Happening D)} (h : Run (Step app) s1 es s2)
    (hs : s1.Inv ∧ s1.NoneKept) :
    s2.Inv ∧ s2.NoneKept := by
  apply h.invariant (I := fun s => s.Inv ∧ s.NoneKept) ?_ hs
  intro s e s' hs h
  exact ⟨(step_effect HttpServer.app_keeps hs.1 h).inv, step_noneKept hs.1 hs.2 h⟩

/-- A connection that has sent everything is closed. -/
theorem sentAll_closed {e : Happening D} (hi : s.Inv) (hk : s.NoneKept) (hs : sentAll s e = some c)
    (h : Step app s e s') :
    s'.IsClosed c := by
  unfold sentAll at hs
  cases e with
  | write l fd expire rs errno =>
    obtain ⟨reg, hreg, hs⟩ := Option.bind_eq_some_iff.mp hs
    obtain ⟨conn, hconn, hs⟩ := Option.bind_eq_some_iff.mp hs
    obtain ⟨⟨status, errno', conn1, wire, rest⟩, hr, hs⟩ := Option.bind_eq_some_iff.mp hs
    dsimp only at hs
    by_cases hst : status = .completed
    · rw [if_pos hst] at hs
      cases hs
      subst hst
      obtain ⟨c, conn0, conn2, status, hw⟩ := write_some hi h.2
      obtain ⟨reg', hreg', rfl⟩ := hw.reg
      cases hreg.symm.trans hreg'
      cases hconn.symm.trans hw.before
      obtain ⟨errno'', wire', rest', hr'⟩ := hw.sent
      cases hr.symm.trans hr'
      obtain ⟨sender, file, rfl⟩ := TcpConnection.send_eq hr
      have hnot := hk _ _ hconn
      rcases hw.after with ⟨-, hcase, -⟩ | ⟨he, -, -, hafter⟩
      · rcases hcase with hc | ⟨-, hc⟩
        · cases hc
        · rw [hnot] at hc
          cases hc
      · refine ⟨_, hafter, rfl, ?_⟩
        obtain ⟨conn', hconn', hfd, -⟩ := he.found
        cases hafter.symm.trans hconn'
        rw [hfd, he.entry]
        simp
    · rw [if_neg hst] at hs
      cases hs
  | _ => cases hs

theorem Exchanged.closed {n : Nat} {ret : RetState} {request : HttpRequest D} (h : Exchanged n c ret request s) :
    s.IsClosed c := by
  have hstart : (start n : Server D).Inv ∧ (start n : Server D).NoneKept := by
    refine ⟨inv_start n, ?_⟩
    intro c conn hconn
    cases hconn
  cases h with
  | intro h1 _ hs h2 hsent hs' =>
    obtain ⟨hi, hk⟩ := run_noneKept (h1.append (.cons hs (h2.mono fun _ _ _ h => h.1))) hstart
    exact sentAll_closed hi hk hsent hs'

/-- A connection is kept, or closed, as its request asks, exactly when the request does not
    ask to keep it. -/
theorem honours_iff {n : Nat} {ret : RetState} {request : HttpRequest D} (h : Exchanged n c ret request s) :
    Honours s c ret request ↔ request.keepAlive = false ∨ ret = .badRequest := by
  have hasks : ¬ Asks ret request ↔ request.keepAlive = false ∨ ret = .badRequest := by
    rw [Asks, not_and_or, Bool.not_eq_true, not_not]
  rw [← hasks]
  constructor
  · intro hh
    exact hh.closed.mp h.closed
  · intro hn
    exact ⟨fun ha => absurd ha hn, iff_of_true h.closed hn⟩

/-- A request on a new connection, answered and sent. -/
theorem exchanged_get : ∃ (s : Server Unit) (ret : RetState) (request : HttpRequest Unit),
    Exchanged 1 0 ret request s ∧ request.keepAlive = true ∧ ret = .okRequest := by
  have hrun : ((performs app (start 1 : Server Unit)
    [.accept 0 ⟨5, true, false⟩, .task 0 100, .report 0 5 .read]).bind fun s1 =>
      (answered s1 (.read 0 5 100 (⟨none⟩, bareWorld) [.ok (lit "GET / HTTP/1.1\r\n\r\n"), .error EAGAIN] 0)).bind
        fun r =>
      (perform app s1 (.read 0 5 100 (⟨none⟩, bareWorld) [.ok (lit "GET / HTTP/1.1\r\n\r\n"), .error EAGAIN]
        0)).bind fun s2 =>
      (perform app s2 (.report 0 5 .write)).bind fun s3 =>
      (sentAll s3 (.write 0 5 100 [.count 1000] 0 : Happening Unit)).bind fun c =>
      (perform app s3 (.write 0 5 100 [.count 1000] 0)).map fun _ => (r.1, r.2.1, r.2.2.keepAlive, c)) =
      some (0, .okRequest, true, 0) := by decide +kernel
  obtain ⟨s1, h1, hrun⟩ := Option.bind_eq_some_iff.mp hrun
  obtain ⟨⟨c, ret, request⟩, hans, hrun⟩ := Option.bind_eq_some_iff.mp hrun
  obtain ⟨s2, h2, hrun⟩ := Option.bind_eq_some_iff.mp hrun
  obtain ⟨s3, h3, hrun⟩ := Option.bind_eq_some_iff.mp hrun
  obtain ⟨c', hsent, hrun⟩ := Option.bind_eq_some_iff.mp hrun
  obtain ⟨s, h4, hrun⟩ := Option.map_eq_some_iff.mp hrun
  simp only [Prod.mk.injEq] at hrun
  obtain ⟨rfl, rfl, hka, rfl⟩ := hrun
  have hreport : Run (Other 0) s2 [.report 0 5 .write] s3 := by
    refine .cons ⟨⟨trivial, h3⟩, ?_⟩ (.nil s3)
    intro r hr
    cases hr
  exact ⟨s, .okRequest, request, .intro (run_performs rfl h1) hans ⟨trivial, h2⟩ hreport hsent ⟨trivial, h4⟩, hka, rfl⟩

theorem honours_iff_get : ∃ (s : Server Unit) (ret : RetState) (request : HttpRequest Unit),
    Exchanged 1 0 ret request s ∧ (Honours s 0 ret request ↔ request.keepAlive = false ∨ ret = .badRequest) := by
  obtain ⟨s, ret, request, h, -⟩ := exchanged_get
  exact ⟨s, ret, request, h, honours_iff h⟩

/-- A request of HTTP/1.1 is answered, and its connection closed. -/
theorem closed_get : ¬ ∀ (n : Nat) (c : ConnId) (ret : RetState) (request : HttpRequest Unit) (s : Server Unit),
    Exchanged n c ret request s → Honours s c ret request := by
  intro hall
  obtain ⟨s, ret, request, h, hka, rfl⟩ := exchanged_get
  exact (hall 1 0 .okRequest request s h).closed.mp h.closed ⟨hka, by simp⟩

end TcpServer

end HahaWeb
