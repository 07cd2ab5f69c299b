/-
  HahaWeb.Http.HttpServer — `http/HttpServer`: `onMessage`, called after each read.

  `handleMessage` is `onMessage` up to its return; then the response it made is destroyed,
  and so written, whatever was returned. A call that asks for more makes one, too. Proved:
  every call appends the text of one response to what the servlet left of the send
  buffer, so in a run the send buffer receives one response for each call that returns OK,
  and is left alone by the others, exactly when each call found a whole request
  (`answers_iff`).

  Not modelled: the timers of sessions. A session's state is shared by the requests, so
  the next call reads it from its `World`.
-/

import HahaWeb.Http.Servlet
import HahaWeb.Net.TcpServer

namespace HahaWeb

open Resumable (Act Call)

variable {D : Type} (w : World D)

/-- `servletDispatcher` is `none` for the null pointer. -/
structure HttpServer (D : Type) where
  servletDispatcher : Option (ServletDispatcher D)

namespace HttpServer

def beforeServlet (req : HttpRequest D) (resp : HttpResponse) : HttpResponse :=
  let ssid := req.cookie.sessionId
  if ssid.isEmpty then resp else resp.setCookie ((HttpCookie.new.add (lit "SESSIONID") ssid).toString w)

/-- `afterServlet`: a new session is one that was accessed from now on. -/
def afterServlet (req : HttpRequest D) : HttpRequest D :=
  match req.session with
  | some session =>
    if session.status = .new then { req with session := some { session with status := .accessed } } else req
  | none => req

/-- `case BAD_REQUEST` -/
def refuse (ret : RetState) (conn : Conn D) (response : HttpResponse) : Conn D × HttpResponse :=
  if ret = .badRequest then (conn.setKeepAlive false, (response.setStatusCode .badRequest).setKeepAlive false)
  else (conn, response)

/-- `if(servletDispatcher_)` -/
def serve (server : HttpServer D) (request : HttpRequest D) (conn : Conn D) (response : HttpResponse) :
    Except Fault (HttpResponse × Conn D) :=
  match server.servletDispatcher with
  | some d => (d.dispatch w request (response, conn) (beforeServlet w) afterServlet).map (·.2)
  | none => .ok (response, conn)

/-- `onMessage`, with the response that is destroyed when it returns. -/
def handleMessage (server : HttpServer D) (conn : Conn D) : Except Fault (MessageStatus × HttpResponse × Conn D) := do
  let request := conn.context.getD .new
  let (ret, request, recver) ← request.parseRequest w.env conn.recver
  let conn := { conn with recver := recver, context := some request }
  let response := HttpResponse.new w request.version
  if ret = .againRequest then .ok (.again, response, conn)
  else
    let (conn, response) := refuse ret conn response
    let (response, conn) ← server.serve w request conn response
    .ok (.ok, response, conn.setContext none)

def onMessage (server : HttpServer D) (conn : Conn D) : Except Fault (MessageStatus × Conn D) := do
  let (status, response, conn) ← server.handleMessage w conn
  let conn ← response.destroy w conn
  .ok (status, conn)

/-! ## One call -/

theorem onMessage_ok {server : HttpServer D} {conn conn' : Conn D} {status : MessageStatus}
    (h : server.onMessage w conn = .ok (status, conn')) :
    ∃ response left, server.handleMessage w conn = .ok (status, response, left) ∧
    response.destroy w left = .ok conn' := by
  unfold onMessage at h
  simp only [bind, Except.bind] at h
  split at h
  · cases h
  · rename_i p hp
    split at h
    · cases h
    · rename_i c hc
      cases h
      exact ⟨_, _, hp, hc⟩

/-- A call parses the request of the connection, and asks for more or answers it. -/
theorem handleMessage_ok {server : HttpServer D} {conn conn' : Conn D} {status : MessageStatus}
    {response : HttpResponse}
    (h : server.handleMessage w conn = .ok (status, response, conn')) :
    ∃ ret request recver, (conn.context.getD .new).parseRequest w.env conn.recver = .ok (ret, request, recver) ∧
      ((ret = .againRequest ∧ status = .again ∧ response = .new w request.version ∧
          conn' = { conn with recver := recver, context := some request }) ∨
        (ret ≠ .againRequest ∧ status = .ok ∧ ∃ conn1 response1 conn2,
          refuse ret { conn with recver := recver, context := some request } (.new w request.version) =
            (conn1, response1) ∧
          server.serve w request conn1 response1 = .ok (response, conn2) ∧ conn' = conn2.setContext none)) := by
  unfold handleMessage at h
  simp only [bind, Except.bind] at h
  split at h
  · cases h
  · rename_i p hp
    obtain ⟨ret, request, recver⟩ := p
    refine ⟨ret, request, recver, hp, ?_⟩
    by_cases hret : ret = .againRequest
    · rw [if_pos hret] at h
      cases h
      exact .inl ⟨hret, rfl, rfl, rfl⟩
    · rw [if_neg hret] at h
      refine .inr ⟨hret, ?_⟩
      split at h
      · cases h
      · rename_i q hq
        cases h
        exact ⟨rfl, _, _, _, rfl, hq, rfl⟩

theorem serve_handled {server : HttpServer D} {request : HttpRequest D} {conn conn' : Conn D}
    {response response' : HttpResponse} (h : server.serve w request conn response = .ok (response', conn')) :
    Handled conn conn' := by
  unfold serve at h
  split at h
  · rename_i d _
    cases hd : d.dispatch w request (response, conn) (beforeServlet w) afterServlet with
    | error f => rw [hd] at h; cases h
    | ok p =>
      obtain ⟨req', resp, c⟩ := p
      rw [hd] at h
      cases h
      obtain ⟨-, -, -, -, hh⟩ := ServletDispatcher.dispatch_ok w hd
      exact hh
  · cases h
    exact .refl _

/-- What a call leaves of the connection, the response apart. -/
theorem handleMessage_left {server : HttpServer D} {conn conn' : Conn D} {status : MessageStatus}
    {response : HttpResponse}
    (h : server.handleMessage w conn = .ok (status, response, conn')) :
    (status = .again → conn'.sender = conn.sender) ∧
      (conn'.sender.readable = conn.sender.readable ∨ conn'.sender.readable = []) := by
  obtain ⟨ret, request, recver, -, ⟨-, -, -, rfl⟩ | ⟨-, rfl, conn1, response1, conn2, href, hs, rfl⟩⟩ :=
    handleMessage_ok w h
  · exact ⟨fun _ => rfl, .inl rfl⟩
  · refine ⟨by simp, ?_⟩
    have h1 : conn1.sender = conn.sender := by
      unfold refuse at href
      split at href <;> cases href <;> rfl
    rw [← h1]
    exact (serve_handled w hs).sender

/-- Between calls a connection has no request, or one that is not finished. -/
def Waiting (conn : Conn D) : Prop := ∀ rq ∈ conn.context, rq.state ≠ .checkDone

theorem Waiting.request {conn : Conn D} (h : Waiting conn) : (conn.context.getD .new).state ≠ .checkDone := by
  cases hc : conn.context with
  | none => simp [HttpRequest.new]
  | some rq => exact h rq hc

/-- The bytes received, behind those the request has consumed, bring the parser to a result. -/
def Whole (w : World D) (conn : Conn D) : Prop :=
  ∃ v t y, Call (HttpRequest.token w.env maxRequestLineLen) (conn.context.getD .new) conn.recver.readable (some v) t y

/-- A call asks for more when it did not find a whole request; it leaves the connection so
    that the next call can go on. -/
theorem handleMessage_again_iff {server : HttpServer D} {conn conn' : Conn D} {status : MessageStatus}
    {response : HttpResponse} (hw : Waiting conn) (h : server.handleMessage w conn = .ok (status, response, conn')) :
    (status = .again ↔ ¬ Whole w conn) ∧ Waiting conn' := by
  obtain ⟨o, t, y, hcall, hret⟩ := HttpRequest.parseRequest_call w.env hw.request conn.recver
  obtain ⟨ret, request, recver, hp, ⟨rfl, rfl, -, rfl⟩ | ⟨hne, rfl, conn1, response1, conn2, -, -, rfl⟩⟩ :=
    handleMessage_ok w h
  · have ho : o = none := by
      rcases o with _ | (_ | _ | f)
      · rfl
      · obtain ⟨b, hb, -⟩ := hret
        rw [hp] at hb
        cases hb
      · obtain ⟨b, hb, -⟩ := hret
        rw [hp] at hb
        cases hb
      · simp only [HttpRequest.Returns, HttpRequest.Ended, hp] at hret
        cases hret
    subst ho
    refine ⟨⟨fun _ => ?_, fun _ => rfl⟩, ?_⟩
    · intro hx
      rcases hx with ⟨v, u, z, hcall'⟩
      obtain ⟨hv, -⟩ := hcall.unique hcall'
      cases hv
    · obtain ⟨b, hb, -⟩ := hret
      rw [hp] at hb
      cases hb
      intro rq hrq
      cases hrq
      exact (HttpRequest.call_kept w.env hcall hw.request).undone
  · refine ⟨⟨by simp, fun hn => absurd ?_ hn⟩, by simp [Waiting, TcpConnection.setContext]⟩
    cases o with
    | none =>
      obtain ⟨b, hb, -⟩ := hret
      rw [hp] at hb
      cases hb
      exact absurd rfl hne
    | some v => exact ⟨v, t, y, hcall⟩

/-! ## Runs -/

/-- What happens to a connection: bytes are received and `onMessage` is called, or the
    kernel takes bytes of the send buffer. -/
inductive Event (D : Type) where
  | message (server : HttpServer D) (w : World D) (read : Bytes)
  | sent (n : Nat)

def received (conn : Conn D) (read : Bytes) : Conn D := { conn with recver := conn.recver.append read }

def sent (conn : Conn D) (n : Nat) : Conn D := { conn with sender := (conn.sender.writeFd (.count n)).1 }

/-- A call of `onMessage`: its response, and the connection before it, before the response
    is destroyed, and after it. -/
structure Turn (D : Type) where
  world : World D
  before : Conn D
  status : MessageStatus
  response : HttpResponse
  left : Conn D
  after : Conn D

/-- A run of a connection, with its calls. -/
inductive Serves : Conn D → List (Event D) → List (Turn D) → Conn D → Prop
  | nil (conn : Conn D) : Serves conn [] [] conn
  | message {server : HttpServer D} {w : World D} {read : Bytes} {conn left after conn' : Conn D}
    {status : MessageStatus}
      {response : HttpResponse} {es : List (Event D)} {ts : List (Turn D)} :
      server.handleMessage w (received conn read) = .ok (status, response, left) → response.destroy w left = .ok after →
        Serves after es ts conn' →
        Serves conn (.message server w read :: es) (⟨w, received conn read, status, response, left, after⟩ :: ts) conn'
  | sent {n : Nat} {conn conn' : Conn D} {es : List (Event D)} {ts : List (Turn D)} :
      Serves (sent conn n) es ts conn' → Serves conn (.sent n :: es) ts conn'

namespace Turn

/-- What the call put behind what its servlet left of the send buffer. -/
def wrote (t : Turn D) : Bytes := t.after.sender.readable.drop t.left.sender.readable.length

/-- The call appended one response to the send buffer, which its servlet had left alone or emptied. -/
structure Answers (t : Turn D) : Prop where
  text : ∃ r, t.response.measure t.world = .ok r ∧ t.wrote = r.text t.world
  after : t.after.sender.readable = t.left.sender.readable ++ t.wrote
  left : t.left.sender.readable = t.before.sender.readable ∨ t.left.sender.readable = []

theorem Answers.wrote_ne_nil {t : Turn D} (h : t.Answers) : t.wrote ≠ [] := by
  obtain ⟨r, -, hr⟩ := h.text
  rw [hr]
  exact r.text_ne_nil _

end Turn

/-- Calls that ask for more leave the send buffer as it was, and it receives one response
    for each of the others. -/
structure OneEach (ts : List (Turn D)) : Prop where
  again : ∀ t ∈ ts, t.status = .again → t.after.sender.readable = t.before.sender.readable
  ok : ts.map Turn.wrote = (ts.filter (·.status = .ok)).map Turn.wrote

/-- What one call of a run does. -/
theorem turn_answers {server : HttpServer D} {w : World D} {conn left after : Conn D} {status : MessageStatus}
    {response : HttpResponse} (h : server.handleMessage w conn = .ok (status, response, left))
    (hd : response.destroy w left = .ok after) :
    (⟨w, conn, status, response, left, after⟩ : Turn D).Answers ∧ (status = .again → left.sender = conn.sender) ∧
      after.context = left.context := by
  obtain ⟨r, sender, hm, rfl, hs⟩ := HttpResponse.destroy_ok w hd
  obtain ⟨h1, h2⟩ := handleMessage_left w h
  have hwrote : (⟨w, conn, status, response, left, { left with sender := sender }⟩ : Turn D).wrote = r.text w := by
    simp only [Turn.wrote, hs, List.drop_left]
  exact ⟨⟨⟨r, hm, hwrote⟩, by rw [hwrote]; exact hs, h2⟩, h1, rfl⟩

theorem serves_turns {conn conn' : Conn D} {es : List (Event D)} {ts : List (Turn D)} (h : Serves conn es ts conn')
    (hw : Waiting conn) : ∀ t ∈ ts, t.Answers ∧ (t.status = .again → t.left.sender = t.before.sender) ∧
      (t.status = .again ↔ ¬ Whole t.world t.before) := by
  induction h with
  | nil => simp
  | @message server w read conn left after conn' status response es ts hm hd _ ih =>
    obtain ⟨ha, hl, hc⟩ := turn_answers hm hd
    obtain ⟨hiff, hwait⟩ := handleMessage_again_iff w (show Waiting (received conn read) from hw) hm
    intro t ht
    rcases List.mem_cons.mp ht with rfl | ht
    · exact ⟨ha, hl, hiff⟩
    · exact ih (by unfold Waiting; rw [hc]; exact hwait) t ht
  | sent _ ih => exact ih hw

/-- The send buffer receives one response for each request, and nothing else, exactly when
    no call is made before its request is there. -/
theorem answers_iff {sock : Socket} {conn : Conn D} {es : List (Event D)} {ts : List (Turn D)}
    (h : Serves (TcpConnection.new sock) es ts conn) :
    (∀ t ∈ ts, t.Answers) ∧ (OneEach ts ↔ ∀ t ∈ ts, Whole t.world t.before) := by
  have hts := serves_turns h (by simp [Waiting, TcpConnection.new])
  refine ⟨fun t ht => (hts t ht).1, fun hone t ht => ?_, fun hwhole => ⟨fun t ht hs => ?_, ?_⟩⟩
  · obtain ⟨ha, hl, hiff⟩ := hts t ht
    by_contra hn
    have hs := hiff.mpr hn
    have hsame := hone.again t ht hs
    rw [ha.after, hl hs] at hsame
    exact ha.wrote_ne_nil (List.append_right_eq_self.mp hsame)
  · exact absurd (hwhole t ht) ((hts t ht).2.2.mp hs)
  · rw [List.filter_eq_self.mpr]
    intro t ht
    cases hs : t.status with
    | ok => simp
    | again => exact absurd (hwhole t ht) ((hts t ht).2.2.mp hs)

/-- A world without sessions and files. -/
def bareWorld : World Unit where
  env := bareEnv
  date := []
  date_line := ⟨by simp, by simp⟩
  order := id
  order_perm := fun _ => .refl _
  fileExists := fun _ => false
  file := fun _ => none
  maxAge := 0

theorem answers_get : ∃ ts conn,
    Serves (TcpConnection.new ⟨5, false, false⟩)
    [.message ⟨none⟩ bareWorld (lit "GET / HTTP/1.1\r\n\r\n"), .sent 7] ts conn ∧
      ts.map (·.status) = [.ok] ∧ (∀ t ∈ ts, t.Answers) ∧ (OneEach ts ↔ ∀ t ∈ ts, Whole t.world t.before) := by
  have hrun : ∃ p, onMessage bareWorld ⟨none⟩ (received (.new ⟨5, false, false⟩) (lit "GET / HTTP/1.1\r\n\r\n")) =
      .ok (.ok, p) := by
    have hok : (onMessage bareWorld ⟨none⟩ (received (.new ⟨5, false, false⟩) (lit "GET / HTTP/1.1\r\n\r\n"))).map
      (·.1) =
        .ok .ok := by decide +kernel
    revert hok
    cases onMessage bareWorld ⟨none⟩ (received (.new ⟨5, false, false⟩) (lit "GET / HTTP/1.1\r\n\r\n")) with
    | error f => intro hok; cases hok
    | ok p => obtain ⟨status, p⟩ := p; intro hok; cases hok; exact ⟨p, rfl⟩
  obtain ⟨p, hp⟩ := hrun
  obtain ⟨response, left, hm, hd⟩ := onMessage_ok bareWorld hp
  have h := Serves.message hm hd (@Serves.sent Unit 7 _ _ _ _ (.nil _))
  obtain ⟨h1, h2⟩ := answers_iff h
  exact ⟨_, _, h, rfl, h1, h2⟩

/-- A request line that comes alone is answered at once. -/
theorem again_answers : ¬ ∀ (server : HttpServer Unit) (w : World Unit) (conn conn' : Conn Unit),
    server.onMessage w conn = .ok (.again, conn') → conn'.sender.readable = conn.sender.readable := by
  intro h
  have hp : (onMessage bareWorld ⟨none⟩ (received (.new ⟨5, false, false⟩) (lit "GET / HTTP/1.1\r\n"))).map
      (fun p => (p.1, p.2.sender.readable.isEmpty)) = .ok (.again, false) := by decide +kernel
  revert hp
  cases hc : onMessage bareWorld ⟨none⟩ (received (.new ⟨5, false, false⟩) (lit "GET / HTTP/1.1\r\n")) with
  | error f => intro hp; cases hp
  | ok p =>
    obtain ⟨status, conn'⟩ := p
    intro hp
    simp only [Except.map, Except.ok.injEq, Prod.mk.injEq] at hp
    obtain ⟨rfl, hne⟩ := hp
    rw [h _ _ _ _ hc] at hne
    simp [received, TcpConnection.new] at hne

end HttpServer

end HahaWeb
