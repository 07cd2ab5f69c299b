/-
  HahaWeb.Http.ContextRelease — what a closed connection still holds.

  A request keeps its connection, and is the connection's context until it is answered.
  `handleConnectionClose` does not look at the context. Proved: no closed connection has a
  context in any state of a run, exactly when each step of it closes only connections
  without a request (`released_iff`); a peer that hangs up within its request leaves one.
-/

import HahaWeb.Http.ServerRuns

namespace HahaWeb

open Labelled (Run)
open HttpServer (app bareWorld)

variable {D : Type}

namespace TcpServer

/-- No closed connection holds a request. -/
def Released (s : Server D) : Prop := ∀ c conn, s.conns c = some conn → conn.disconnected = true → conn.context = none

/-- What the event closes holds no request. -/
def ClosesIdle (s : Server D) (e : Happening D) : Prop := ∀ c conn, Closes s e c → s.conns c = some conn →
    conn.context = none

theorem step_released {s s' : Server D} {e : Happening D} (hi : s.Inv) (hr : s.Released) (hs : Step app s e s') :
    s'.Released ↔ s.ClosesIdle e := by
  constructor
  · intro hr' c conn hcl hconn
    obtain ⟨conn0, conn', hconn0, -, hconn', hd, hctx⟩ := step_closes HttpServer.app_keeps hi hs.2 hcl
    cases hconn.symm.trans hconn0
    rw [← hctx]
    exact hr' c conn' hconn' hd
  · intro hc c conn' hconn' hd
    cases (step_effect HttpServer.app_keeps hi hs).makes c conn' hconn' with
    | @kept _ _ conn _ hconn hctx _ hclosed =>
      rw [hctx]
      rcases hclosed hd with hd' | hcl
      · exact hr c conn hconn hd'
      · exact hc c conn hcl hconn
    | accepted _ _ hopen =>
      rw [hopen] at hd
      cases hd
    | answered _ _ _ _ _ hopen =>
      rw [hopen] at hd
      cases hd

/-- In every state of a run no closed connection holds a request, exactly when each step
    closes only connections without one. -/
theorem released_iff (n : Nat) (es : List (Happening D)) (s : Server D) :
    Run (fun s e s' => Step app s e s' ∧ s'.Released) (start n) es s ↔
      Run (fun s e s' => Step app s e s' ∧ s.ClosesIdle e) (start n) es s := by
  have hstart : (start n : Server D).Released := by
    intro c conn hconn
    cases hconn
  refine Run.congr (I := fun s => s.Inv ∧ s.Released) ?_ ?_ ⟨inv_start n, hstart⟩
  · intro s e s' hs hstep
    exact ⟨(step_effect HttpServer.app_keeps hs.1 hstep.1).inv, hstep.2⟩
  · intro s e s' hs
    exact and_congr_right fun hstep => step_released hs.1 hs.2 hstep

/-- A peer sends half a request line and hangs up. -/
theorem hangup_keeps : ¬ ∀ (n : Nat) (es : List (Happening Unit)) (s : Server Unit), Run (Step app)
    (start n) es s → s.Released := by
  intro hall
  have hrun : ((performs app (start 1 : Server Unit) [.accept 0 ⟨5, true, false⟩, .task 0 100, .report 0 5 .read,
      .read 0 5 100 (⟨none⟩, bareWorld) [.ok (lit "GET / HT"), .error EAGAIN] 0, .report 0 5 .close,
        .hangup 0 5]).bind fun s =>
      (s.conns 0).map fun conn => (conn.disconnected, conn.context.isSome)) = some (true, true) := by decide +kernel
  obtain ⟨s, hs, hrun⟩ := Option.bind_eq_some_iff.mp hrun
  obtain ⟨conn, hconn, hrun⟩ := Option.map_eq_some_iff.mp hrun
  simp only [Prod.mk.injEq] at hrun
  obtain ⟨hd, hctx⟩ := hrun
  rw [hall 1 _ s (run_performs rfl hs) 0 conn hconn hd] at hctx
  cases hctx

end TcpServer

end HahaWeb
