/-
  HahaWeb.Http.ServerRuns — the runs of a `TcpServer` whose `onMessage` is `HttpServer`'s.

  Each call of `onMessage` comes with the servlets and the outside world it finds. Proved:
  a call leaves the connection's descriptor, channel and `disconnected` alone, so the
  server's tables agree in every state of every run (`server_agrees`).
-/

import HahaWeb.Http.HttpServer
import HahaWeb.Net.Lifecycle

namespace HahaWeb

open TcpServer (Keeps)
open Labelled (Run)

variable {D : Type}

namespace HttpServer

/-- `onMessage`, as the server calls it. -/
def app : TcpServer.App (HttpRequest D) (HttpServer D × World D) := fun (server, w) conn => server.onMessage w conn

theorem refuse_conn (ret : RetState) (conn : Conn D) (response : HttpResponse) :
    (refuse ret conn response).1 = { conn with keepAlive := if ret = .badRequest then false else conn.keepAlive } := by
  unfold refuse
  by_cases hb : ret = .badRequest
  · rw [if_pos hb, if_pos hb]
    rfl
  · rw [if_neg hb, if_neg hb]

/-- What a call does to the connection: it has read some bytes, keeps or drops its request,
    and sends something. -/
theorem app_ok {a : HttpServer D × World D} {conn conn' : Conn D} {status : MessageStatus}
    (h : app a conn = .ok (status, conn')) : ∃ ret request recver,
      (conn.context.getD .new).parseRequest a.2.env conn.recver = .ok (ret, request, recver) ∧
      conn'.context = (if ret = .againRequest then some request else none) ∧
      conn'.keepAlive = (if ret = .badRequest then false else conn.keepAlive) ∧
      (status = .again ↔ ret = .againRequest) ∧ Keeps conn conn' := by
  obtain ⟨server, w⟩ := a
  obtain ⟨response, left, hm, hd⟩ := onMessage_ok w h
  obtain ⟨r, sender, -, rfl, -⟩ := HttpResponse.destroy_ok w hd
  obtain ⟨ret, request, recver, hp, ⟨rfl, rfl, -, rfl⟩ | ⟨hne, rfl, conn1, response1, conn2, href, hs, rfl⟩⟩ :=
    handleMessage_ok w hm
  · exact ⟨.againRequest, request, recver, hp, rfl, rfl, by simp, rfl, rfl, rfl⟩
  · obtain ⟨sender', file, rfl⟩ := (serve_handled w hs).rest
    have hconn := refuse_conn ret { conn with recver := recver, context := some request } (.new w request.version)
    rw [href] at hconn
    cases hconn
    exact ⟨ret, request, recver, hp, (if_neg hne).symm, rfl, by simp [hne], rfl, rfl, rfl⟩

theorem app_keeps (a : HttpServer D × World D) (conn : Conn D) (status : MessageStatus) (conn' : Conn D)
    (h : app a conn = .ok (status, conn')) : Keeps conn conn' := by
  obtain ⟨-, -, -, -, -, -, -, hk⟩ := app_ok h
  exact hk

end HttpServer

/-! ## The server's runs -/

namespace TcpServer

open HttpServer (app)

/-- The server, and what happens to it. -/
abbrev Server (D : Type) := TcpServer (HttpRequest D)

abbrev Happening (D : Type) := Event (HttpServer D × World D)

/-- What the tables have for a connection, between its callbacks: its entry, one timer, and a
    registration that is armed, or reported with the callback still to come. -/
structure Known (s : Server D) (c : ConnId) (conn : Conn D) (ch : Channel) : Prop where
  entry : s.connects conn.sock.fd = some c
  timer : ∃ timer, (s.loops ch.loop).timers.heap.toList.filter (·.fd = conn.sock.fd) = [timer] ∧ timer.cb = c
  epoll : ∃ reg, (s.loops ch.loop).epoll conn.sock.fd = some reg ∧ reg.conn = c ∧
    (reg.arming = .armed ∨ ∃ ready, reg.arming = .reported ready)

variable {s s' : Server D} {c : ConnId} {n : Nat} {es : List (Happening D)}

theorem server_inv (h : Run (Step app) (start n : Server D) es s) : s.Inv := run_inv HttpServer.app_keeps h

/-- The tables know each connection that has run `onConnect` and is not disconnected. -/
def Agrees (s : Server D) : Prop :=
  ∀ c conn, s.conns c = some conn → conn.disconnected = false →
    ∃ ch, conn.channel = some ch ∧ (c ∉ (s.loops ch.loop).tasks → Known s c conn ch)

theorem server_agrees (h : Run (Step app) (start n : Server D) es s) : s.Agrees := by
  have hi := server_inv h
  intro c conn hconn hd
  obtain ⟨ch, hch⟩ := Option.isSome_iff_exists.mp (hi.channel c conn hconn)
  refine ⟨ch, hch, ?_⟩
  intro hnot
  have ho : s.Open c ch.loop conn.sock.fd := ⟨conn, hconn, rfl, hd, by rw [hch]; rfl⟩
  obtain ⟨⟨reg, hreg, hc, harm⟩, timer, htimer, hcb⟩ := hi.served c _ _ ho hnot
  refine ⟨hi.entry c _ _ ho, ⟨timer, (hi.indexed ch.loop).filter htimer, hcb⟩, reg, hreg, hc, ?_⟩
  cases ha : reg.arming with
  | armed => exact .inl rfl
  | reported ready => exact .inr ⟨ready, rfl⟩
  | disarmed => exact absurd ha harm

end TcpServer

end HahaWeb
