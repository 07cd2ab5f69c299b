/-
  HahaWeb.Http.ServerReplies — the responses of the HTTP server on the wires of its
  connections.

  The text of a call of `onMessage` is the response it makes, with its file. A call that
  wants more of a request makes one, too, which goes out before the answer unless a setter
  of the answer clears the send buffer (`setBody`). Proved: whatever the requests, the
  servlets, the kernel and the order of events, the bytes that a connection has sent and
  those it still has to send are these texts, one after the other, each in one piece; every
  answer is among them, and none begins before the one before it is sent (`replies_in_order`).
-/

import HahaWeb.Http.ServerRuns
import HahaWeb.Net.Replies

namespace HahaWeb

variable {D : Type}

namespace HttpServer

/-- The text that a call of `onMessage` adds to what its connection has to send. -/
def reply (a : HttpServer D × World D) (conn : Conn D) : Bytes :=
  match a.1.handleMessage a.2 conn with
  | .ok (_, response, left) => ((response.measure a.2).toOption.map (·.text a.2)).getD [] ++ left.fileRest
  | .error _ => []

theorem app_answers : TcpServer.Answers (app (D := D)) reply := by
  have hleft : ∀ a conn ms (conn' : Conn D), app a conn = .ok (ms, conn') → conn.fileRest = [] →
      ∃ left : Conn D, conn'.fileRest = left.fileRest ∧ conn'.remaining = left.sender.readable ++ reply a conn ∧
        ((ms = .again ∧ left.sender = conn.sender ∧ left.fileRest = []) ∨
          (ms = .ok ∧ (left.sender.readable = conn.sender.readable ∨ left.sender.readable = []))) := by
    intro a conn ms conn' h hfile
    obtain ⟨server, w⟩ := a
    obtain ⟨response, left, hm, hd⟩ := onMessage_ok w h
    obtain ⟨response', sender, hmeasure, rfl, hsender⟩ := HttpResponse.destroy_ok w hd
    have hreply : reply (server, w) conn = response'.text w ++ left.fileRest := by
      simp [reply, hm, hmeasure, Except.toOption]
    refine ⟨left, rfl, ?_, ?_⟩
    · rw [hreply, ← List.append_assoc, ← hsender]
      rfl
    · obtain ⟨ret, request, recver, -, ⟨-, rfl, -, rfl⟩ | ⟨-, rfl, conn1, response1, conn2, href, hs, rfl⟩⟩ :=
        handleMessage_ok w hm
      · exact .inl ⟨rfl, rfl, hfile⟩
      · have hconn := refuse_conn ret { conn with recver := recver, context := some request } (.new w request.version)
        rw [href] at hconn
        have hsend : conn1.sender = conn.sender := by
          rw [show conn1 = _ from hconn]
        exact .inr ⟨rfl, hsend ▸ (serve_handled w hs).sender⟩
  constructor
  · exact app_keeps
  · intro a conn ms conn' h hfile
    obtain ⟨left, -, hrem, hcase⟩ := hleft a conn ms conn' h hfile
    have hconn : conn.remaining = conn.sender.readable := by
      rw [TcpConnection.remaining, hfile, List.append_nil]
    rw [hrem, hconn]
    rcases hcase with ⟨-, hs, -⟩ | ⟨rfl, hs | hs⟩
    · exact .inl (by rw [hs])
    · exact .inl (by rw [hs])
    · exact .inr ⟨rfl, by rw [hs, List.nil_append]⟩
  · intro a conn conn' h hfile
    obtain ⟨left, hrest, -, ⟨-, -, hnil⟩ | ⟨hok, -⟩⟩ := hleft a conn .again conn' h hfile
    · exact hrest.trans hnil
    · cases hok

end HttpServer

namespace TcpServer

open HttpServer (app reply bareWorld)

/-- In every state of a run, what a connection has sent and has to send are texts of its
    calls, in order and whole, all the answers among them; while it reads, each is sent. The
    runs are those without a call through a destroyed channel (`Batched.dangling_iff`). -/
theorem replies_in_order {n : Nat} {es : List (Happening D)} {s : Server D}
    (h : Labelled.Run (Step app) (start n) es s) (c : ConnId) (conn : Conn D) (hc : s.conns c = some conn) :
    ∃ out pending, Told (observed app (traffic app reply) (start n) es) c conn out pending :=
  (run_told HttpServer.app_answers h).told c conn hc

/-- A request that comes in two parts, and the responses to both. -/
theorem replies_in_order_get : ∃ (s : Server Unit) (conn : Conn Unit) (out pending : List (MessageStatus × Bytes)),
    s.conns 0 = some conn ∧ Told (observed app (traffic app reply) (start 1 : Server Unit)
      [.accept 0 ⟨5, true, false⟩, .task 0 100, .report 0 5 .read,
        .read 0 5 100 (⟨none⟩, bareWorld) [.ok (lit "GET / HTTP/1.1\r\n"), .error EAGAIN] 0, .report 0 5 .read,
        .read 0 5 100 (⟨none⟩, bareWorld) [.ok (lit "\r\n"), .error EAGAIN] 0, .report 0 5 .write,
        .write 0 5 100 [.count 30, .fails EAGAIN] 0]) 0 conn out pending := by
  have hrun : ((performs app (start 1 : Server Unit)
      [.accept 0 ⟨5, true, false⟩, .task 0 100, .report 0 5 .read,
        .read 0 5 100 (⟨none⟩, bareWorld) [.ok (lit "GET / HTTP/1.1\r\n"), .error EAGAIN] 0, .report 0 5 .read,
        .read 0 5 100 (⟨none⟩, bareWorld) [.ok (lit "\r\n"), .error EAGAIN] 0, .report 0 5 .write,
        .write 0 5 100 [.count 30, .fails EAGAIN] 0]).bind fun s => s.conns 0).isSome = true := by decide +kernel
  obtain ⟨conn, hconn⟩ := Option.isSome_iff_exists.mp hrun
  obtain ⟨s, hs, hc⟩ := Option.bind_eq_some_iff.mp hconn
  obtain ⟨out, pending, htold⟩ := replies_in_order (run_performs rfl hs) 0 conn hc
  exact ⟨s, conn, out, pending, hc, htold⟩

end TcpServer

end HahaWeb
