/-
  HahaWeb.Http.ResponseHead — what a reader of a response makes of its head.

  The head is split at every CRLF. Everything the server and the default servlet put into
  the header map is one line, but for the session id: that is text of the client's cookie,
  percent-decoded, and `beforeServlet` puts it into `Set-Cookie` as it is. Proved: a
  response of the default servlet has one line for each of its headers, all names and
  values without CR and LF, exactly when the session id of its request has none
  (`oneHead_iff`).
-/

import HahaWeb.Http.HttpServer

namespace HahaWeb

open HttpRequest (headerText headersText)

variable {D : Type} (w : World D)

/-! ## Lines -/

/-- The pieces of a text between its line ends; the last is what stands behind them all. -/
def splitCrlf : Bytes → List Bytes
  | [] => [[]]
  | [c] => [[c]]
  | c :: d :: rest => if c = CR ∧ d = LF then [] :: splitCrlf rest else (splitCrlf (d :: rest)).modifyHead (c :: ·)

theorem splitCrlf_line {line : Bytes} (h : CR ∉ line) (rest : Bytes) : splitCrlf (line ++ crlf ++ rest) =
    line :: splitCrlf rest := by
  induction line with
  | nil => rw [List.nil_append, crlf, List.cons_append, List.cons_append, splitCrlf, if_pos ⟨rfl, rfl⟩]; rfl
  | cons c line ih =>
    have hc : ¬ c = CR := fun hc => h (hc ▸ List.mem_cons_self)
    have hl : CR ∉ line := fun hl => h (List.mem_cons_of_mem _ hl)
    obtain ⟨d, u, hd⟩ : ∃ d u, line ++ crlf ++ rest = d :: u := by cases line <;> simp [crlf]
    rw [hd] at ih
    rw [List.cons_append, List.cons_append, hd, splitCrlf, if_neg fun hh => hc hh.1, ih hl]
    rfl

theorem splitCrlf_headers : ∀ {headers : List (Bytes × Bytes)}, (∀ h ∈ headers, CR ∉ headerText h) →
    splitCrlf (headersText headers) = headers.map headerText ++ [[]] := by
  intro headers h
  induction headers with
  | nil => rfl
  | cons e headers ih =>
    have hl := splitCrlf_line (h e List.mem_cons_self) (headersText headers)
    rw [ih fun e' he' => h e' (List.mem_cons_of_mem _ he')] at hl
    exact hl

theorem OneLine.toLowers {s : Bytes} (h : OneLine s) : OneLine (toLowers s) := by
  have hfold : ∀ c : UInt8, (tolower c = CR → c = CR) ∧ (tolower c = LF → c = LF) := forall_byte (by decide +kernel)
  constructor
  · intro hm
    obtain ⟨c, hc, he⟩ := List.mem_map.mp hm
    exact h.noCR ((hfold c).1 he ▸ hc)
  · intro hm
    obtain ⟨c, hc, he⟩ := List.mem_map.mp hm
    exact h.noLF ((hfold c).2 he ▸ hc)

theorem OneLine.append {s t : Bytes} (hs : OneLine s) (ht : OneLine t) : OneLine (s ++ t) :=
  ⟨by simp [hs.noCR, ht.noCR], by simp [hs.noLF, ht.noLF]⟩

instance (s : Bytes) : Decidable (OneLine s) := decidable_of_iff
    (CR ∉ s ∧ LF ∉ s) ⟨fun h => ⟨h.1, h.2⟩, fun h => ⟨h.1, h.2⟩⟩

theorem oneLine_decimal (n : Nat) : OneLine (decimal n) :=
  ⟨fun hm => absurd (isdigit_decimal hm) (by decide), fun hm => absurd (isdigit_decimal hm) (by decide)⟩

theorem oneLine_decimalInt (n : Int) : OneLine (decimalInt n) := by
  unfold decimalInt
  split
  · exact OneLine.append (s := [45]) (by decide) (oneLine_decimal _)
  · exact oneLine_decimal _

/-! ## Headers of one line -/

/-- Every name and value is one line. -/
def HttpHeader.Lined (h : HttpHeader) : Prop := ∀ e ∈ h.map.entries, OneLine e.1 ∧ OneLine e.2

theorem HttpHeader.Lined.add {h : HttpHeader} (hh : h.Lined) {key val : Bytes} (hk : OneLine key) (hv : OneLine val) :
    (h.add key val).Lined := by
  intro e he
  rcases List.mem_cons.mp he with rfl | he
  · exact ⟨hk.toLowers, hv⟩
  · exact hh e ((List.kerase_sublist _ _).subset he)

theorem HttpHeader.Lined.get {h : HttpHeader} (hh : h.Lined) {key val : Bytes} (hg : h.get key = some val) :
    OneLine val :=
  (hh ⟨_, val⟩ (AList.mem_lookup_iff.mp hg)).2

/-- What is set after the cookie: lines, under other names. -/
structure HttpHeader.Dressed (h h' : HttpHeader) : Prop where
  lined : h.Lined → h'.Lined
  cookie : h'.get (lit "Set-Cookie") = h.get (lit "Set-Cookie")

namespace HttpHeader.Dressed

theorem refl (h : HttpHeader) : Dressed h h := ⟨id, rfl⟩

theorem trans {a b c : HttpHeader} (h : Dressed a b) (h' : Dressed b c) : Dressed a c :=
  ⟨fun hl => h'.lined (h.lined hl), h'.cookie.trans h.cookie⟩

theorem add {h : HttpHeader} {key val : Bytes} (hk : OneLine key) (hv : OneLine val)
    (hne : toLowers (lit "Set-Cookie") ≠ toLowers key) : Dressed h (h.add key val) := by
  refine ⟨fun hl => hl.add hk hv, ?_⟩
  rw [HttpHeader.add_toHttpBaseMap, HttpBaseMap.get_add]
  exact if_neg hne

end HttpHeader.Dressed

open HttpHeader (Dressed)

/-! ## What the server sets -/

namespace HttpResponse

theorem lined_new (version : HttpVersion) : (HttpResponse.new w version).header.Lined := by
  refine HttpHeader.Lined.add (.add (.add ?_ ?_ ?_) ?_ w.date_line) ?_ ?_
  · intro e he
    cases he
  all_goals decide

theorem setContentType_dressed {r r' : HttpResponse} {contentType : HttpContentType}
    (h : r.setContentType contentType = .ok r') :
    Dressed r.header r'.header := by
  have hname : ∀ name, contentType.name = .ok name → OneLine name := by
    intro name hn
    cases contentType <;> cases hn <;> decide
  unfold setContentType at h
  cases hn : contentType.name with
  | error f =>
    rw [hn] at h
    cases h
  | ok name =>
    rw [hn] at h
    cases h
    exact .add (by decide) (hname name hn) (by decide)

theorem measure_dressed {r r' : HttpResponse} (h : r.measure w = .ok r') : Dressed r.header r'.header := by
  have hadd : ∀ n : Int, Dressed r.header (r.header.add (lit "Content-Length") (decimalInt n)) := fun n =>
    .add (by decide) (oneLine_decimalInt n) (by decide)
  unfold measure at h
  split at h
  · split at h
    · split at h <;> cases h
      exact hadd _
    · cases h
      exact hadd _
  · cases h
    exact .refl _

end HttpResponse

/-- The setters the default servlet uses. -/
inductive Setter.Default : Setter → Prop
  | status (statusCode : HttpStatus) : Default (.setStatusCode statusCode)
  | contentType (contentType : HttpContentType) : Default (.setContentType contentType)
  | body (data : Bytes) : Default (.appendBody data)
  | file (filePath : Bytes) : Default (.setFileBody filePath)

theorem Setter.Default.run {s : Setter} (hs : s.Default) {p q : HttpResponse × Conn D} (h : s.run w p = .ok q) :
    Dressed p.1.header q.1.header := by
  cases hs with
  | status => cases h; exact .refl _
  | body => cases h; exact .refl _
  | contentType contentType =>
    simp only [Setter.run, bind, Except.bind] at h
    split at h
    · cases h
    · rename_i r hr
      cases h
      exact HttpResponse.setContentType_dressed hr
  | file filePath =>
    simp only [Setter.run, HttpResponse.setFileBody] at h
    split at h
    · cases h
    · cases h
      exact .refl _

theorem Setter.Default.runAll {setters : List Setter} : ∀ {p q : HttpResponse × Conn D}, (∀ s ∈ setters, s.Default) →
    Setter.runAll w setters p = .ok q → Dressed p.1.header q.1.header := by
  induction setters with
  | nil => intro p q _ h; cases h; exact .refl _
  | cons s setters ih =>
    intro p q hs h
    simp only [Setter.runAll, List.foldlM_cons, bind, Except.bind] at h
    cases hr : s.run w p with
    | error f => rw [hr] at h; cases h
    | ok p' =>
      rw [hr] at h
      exact ((hs s List.mem_cons_self).run w hr).trans (ih (fun s' hs' => hs s' (List.mem_cons_of_mem _ hs')) h)

theorem Servlet.defaultServlet_default {req : HttpRequest D} {resp : HttpResponse} {setters : List Setter}
    (h : Servlet.defaultServlet w req resp = .ok setters) : ∀ s ∈ setters, s.Default := by
  unfold defaultServlet at h
  dsimp only at h
  repeat' split at h
  all_goals
    cases h
    simp only [List.forall_mem_cons, List.not_mem_nil, false_implies, implies_true, and_true]
  · exact ⟨.contentType _, .body _⟩
  · exact ⟨.contentType _, .file _⟩
  · exact ⟨.contentType _, .body _⟩
  · exact ⟨.status _, .contentType _, .body _⟩

/-! ## The head -/

namespace HttpResponse

/-- The text of a response up to the blank line. -/
def head (r : HttpResponse) : Bytes := r.statusLine ++ crlf ++ headersText (w.entries r.header.toHttpBaseMap)

theorem text_eq_head (r : HttpResponse) : r.text w = r.head w ++ (crlf ++ if r.isFileBody then [] else r.body) := by
  simp only [text, head, List.append_assoc]

/-- The head of a response is read back as its status line and a line for each header. -/
structure OneHead (r : HttpResponse) : Prop where
  oneLine : ∀ h ∈ w.entries r.header.toHttpBaseMap, OneLine h.1 ∧ OneLine h.2
  lines : splitCrlf (r.head w) = r.statusLine :: (w.entries r.header.toHttpBaseMap).map headerText ++ [[]]

theorem mem_entries (r : HttpResponse) {h : Bytes × Bytes} :
    h ∈ w.entries r.header.toHttpBaseMap ↔ ⟨h.1, h.2⟩ ∈ r.header.map.entries := by
  rw [World.entries, (w.order_perm _).mem_iff, List.mem_map]
  constructor
  · intro he
    obtain ⟨e, he, rfl⟩ := he
    exact he
  · intro he
    exact ⟨_, he, rfl⟩

theorem oneHead_iff_lined (r : HttpResponse) : r.OneHead w ↔ r.header.Lined := by
  constructor
  · intro h e he
    exact h.oneLine (e.1, e.2) ((mem_entries w r).mpr he)
  · intro h
    have hlines : ∀ h ∈ w.entries r.header.toHttpBaseMap, OneLine h.1 ∧ OneLine h.2 := by
      intro e he
      exact h _ ((mem_entries w r).mp he)
    have hcr : ∀ h ∈ w.entries r.header.toHttpBaseMap, CR ∉ headerText h := by
      intro e he
      have h58 : CR ≠ 58 := by decide
      have h32 : CR ≠ 32 := by decide
      simp [headerText, (hlines e he).1.noCR, (hlines e he).2.noCR, h58, h32]
    have hstatus : CR ∉ r.statusLine := by
      have hv : CR ∉ r.version.str := by cases r.version <;> decide
      have hs : CR ∉ r.statusCode.str := by cases r.statusCode <;> decide
      have h32 : CR ≠ 32 := by decide
      simp [statusLine, hv, hs, h32, (oneLine_decimal _).noCR]
    refine ⟨hlines, ?_⟩
    rw [head, splitCrlf_line hstatus, splitCrlf_headers hcr, List.cons_append]

end HttpResponse

/-- The text of a cookie with one attribute. -/
theorem HttpCookie.toString_add (key val : Bytes) : ∃ t, OneLine t ∧
    (HttpCookie.new.add key val).toString w = toLowers key ++ lit "=" ++ val ++ t := by
  have he : w.entries ((HttpBaseMap.new : HttpMap .no).add key val) = [(toLowers key, val)] :=
    List.perm_singleton.mp (w.order_perm _)
  by_cases hm : 0 < w.maxAge
  · refine ⟨lit "; Max-Age=" ++ decimalInt w.maxAge, .append (by decide) (oneLine_decimalInt _), ?_⟩
    simp only [toString, HttpCookie.new, HttpCookie.add, he, List.isEmpty_nil, if_true, Option.getD_none, hm,
      Bool.false_eq_true, if_false, List.map_cons, List.map_nil, List.intercalate_singleton, List.append_assoc]
  · refine ⟨[], by decide, ?_⟩
    simp only [toString, HttpCookie.new, HttpCookie.add, he, List.isEmpty_nil, if_true, Option.getD_none, hm,
      Bool.false_eq_true, if_false, List.map_cons, List.map_nil, List.intercalate_singleton, List.append_nil]

namespace HttpServer

/-- A call answered a request by a response of the default servlet. -/
structure ByDefault (server : HttpServer D) (conn : Conn D) (request : HttpRequest D) (r : HttpResponse) : Prop where
  parsed : ∃ ret recver, (conn.context.getD .new).parseRequest w.env conn.recver = .ok (ret, request, recver)
  unmatched : ∃ d, server.servletDispatcher = some d ∧ d.findMatch request.reqUrl.path = none
  answered : ∃ response left, server.handleMessage w conn = .ok (.ok, response, left) ∧ response.measure w = .ok r

/-- The header map before the servlet is called, but for the cookie. -/
theorem lined_refuse {ret : RetState} {conn conn' : Conn D} {version : HttpVersion} {response : HttpResponse}
    (h : refuse ret conn (.new w version) = (conn', response)) :
    response.header.Lined := by
  unfold refuse at h
  split at h
  · cases h
    have hd : Dressed (HttpResponse.new w version).header
        (((HttpResponse.new w version).setStatusCode .badRequest).setKeepAlive false).header :=
      .add (by decide) (by decide) (by decide)
    exact hd.lined (HttpResponse.lined_new w version)
  · cases h
    exact HttpResponse.lined_new w version

/-- `beforeServlet` leaves lines exactly when the session id is one. -/
theorem lined_beforeServlet {request : HttpRequest D} {resp : HttpResponse} {h : HttpHeader} (hl : resp.header.Lined)
    (hd : Dressed (beforeServlet w request resp).header h) : h.Lined ↔ OneLine request.cookie.sessionId := by
  unfold beforeServlet at hd
  by_cases he : request.cookie.sessionId = []
  · rw [he] at hd ⊢
    exact ⟨fun _ => by decide, fun _ => hd.lined hl⟩
  · simp only [List.isEmpty_iff, he, if_false] at hd
    obtain ⟨t, ht, hs⟩ := HttpCookie.toString_add w (lit "SESSIONID") request.cookie.sessionId
    constructor
    · intro hlined
      have hget := hd.cookie
      rw [HttpResponse.setCookie, HttpResponse.addAtrribute, HttpHeader.add_toHttpBaseMap,
        HttpBaseMap.get_add_same, hs] at hget
      have hone := hlined.get hget
      exact ⟨fun hm => hone.noCR (by simp [hm]), fun hm => hone.noLF (by simp [hm])⟩
    · intro hone
      refine hd.lined (hl.add (by decide) ?_)
      rw [hs]
      exact .append (.append (by decide) hone) ht

theorem ByDefault.lined_iff {server : HttpServer D} {conn : Conn D} {request : HttpRequest D} {r : HttpResponse}
    (h : ByDefault w server conn request r) : r.header.Lined ↔ OneLine request.cookie.sessionId := by
  obtain ⟨ret, recver, hp⟩ := h.parsed
  obtain ⟨d, hserver, hfind⟩ := h.unmatched
  obtain ⟨response, left, hm, hmeasure⟩ := h.answered
  obtain ⟨ret', request', recver', hp', ⟨-, hs, -⟩ | ⟨-, -, conn1, response1, conn2, href, hserve, -⟩⟩ :=
    handleMessage_ok w hm
  · cases hs
  · rw [hp] at hp'
    cases hp'
    rw [serve, hserver] at hserve
    cases hd : d.dispatch w request (response1, conn1) (beforeServlet w) afterServlet with
    | error f => simp only [hd, Except.map] at hserve; cases hserve
    | ok q =>
      obtain ⟨request2, resp, conn3⟩ := q
      simp only [hd, Except.map, Except.ok.injEq, Prod.mk.injEq] at hserve
      obtain ⟨rfl, rfl⟩ := hserve
      obtain ⟨setters, hset, hrun, -, -⟩ := ServletDispatcher.dispatch_ok w hd
      rw [hfind] at hset
      have hservlet := Setter.Default.runAll w (Servlet.defaultServlet_default w hset) hrun
      exact lined_beforeServlet w (lined_refuse w href) (hservlet.trans (HttpResponse.measure_dressed w hmeasure))

/-- A response of the default servlet keeps its headers apart exactly when the session id
    of the request is one line. -/
theorem oneHead_iff {server : HttpServer D} {conn : Conn D} {request : HttpRequest D} {r : HttpResponse}
    (h : ByDefault w server conn request r) : r.OneHead w ↔ OneLine request.cookie.sessionId :=
  (HttpResponse.oneHead_iff_lined w r).trans (h.lined_iff w)

/-- A server without servlets. -/
def bareServer : HttpServer Unit := ⟨some ⟨∅, fun _ _ => false⟩⟩

def cookieConn (sock : Socket) (ssid : Bytes) : Conn Unit :=
  received (.new sock) (lit "GET / HTTP/1.1\r\nCookie: SESSIONID=" ++ ssid ++ lit "\r\n\r\n")

/-- What it answers comes from the default servlet. -/
theorem byDefault_of_onMessage {conn conn' : Conn Unit} (h : bareServer.onMessage bareWorld conn = .ok (.ok, conn')) :
    ∃ request r, ByDefault bareWorld bareServer conn request r := by
  obtain ⟨response, left, hm, hd⟩ := onMessage_ok bareWorld h
  obtain ⟨r, -, hmeasure, -, -⟩ := HttpResponse.destroy_ok bareWorld hd
  obtain ⟨ret, request, recver, hp, -⟩ := handleMessage_ok bareWorld hm
  exact ⟨request, r, ⟨ret, recver, hp⟩, ⟨_, rfl, rfl⟩, response, left, hm, hmeasure⟩

theorem byDefault_cookie {sock : Socket} {ssid : Bytes}
    (h : (bareServer.onMessage bareWorld (cookieConn sock ssid)).map (·.1) = .ok .ok) :
    ∃ request r, ByDefault bareWorld bareServer (cookieConn sock ssid) request r := by
  cases hc : bareServer.onMessage bareWorld (cookieConn sock ssid) with
  | error f => rw [hc] at h; cases h
  | ok p =>
    obtain ⟨status, conn'⟩ := p
    rw [hc] at h
    cases h
    exact byDefault_of_onMessage hc

theorem oneHead_ab : ∃ request r, ByDefault bareWorld bareServer (cookieConn ⟨5, false, false⟩ (lit "ab")) request r ∧
    (r.OneHead bareWorld ↔ OneLine request.cookie.sessionId) := by
  obtain ⟨request, r, h⟩ := @byDefault_cookie ⟨5, false, false⟩ (lit "ab") (by decide +kernel)
  exact ⟨request, r, h, oneHead_iff bareWorld h⟩

/-- A session id with an encoded line end in it. -/
theorem splitHead_crlf : ¬ ∀ (server : HttpServer Unit) (w : World Unit) (conn : Conn Unit) (request : HttpRequest Unit)
    (r : HttpResponse), ByDefault w server conn request r → r.OneHead w := by
  intro hall
  obtain ⟨request, r, h⟩ := @byDefault_cookie ⟨5, false, false⟩ (lit "a%0d%0ab") (by decide +kernel)
  have hone := (h.lined_iff bareWorld).mp ((HttpResponse.oneHead_iff_lined bareWorld r).mp (hall _ _ _ _ _ h))
  obtain ⟨ret, recver, hp⟩ := h.parsed
  have hid : ((.new : HttpRequest Unit).parseRequest bareWorld.env
    (cookieConn ⟨5, false, false⟩ (lit "a%0d%0ab")).recver).map
      (fun p => p.2.1.cookie.sessionId) = .ok (lit "a\r\nb") := by decide +kernel
  have hp' : (.new : HttpRequest Unit).parseRequest bareWorld.env
    (cookieConn ⟨5, false, false⟩ (lit "a%0d%0ab")).recver =
      .ok (ret, request, recver) := hp
  rw [hp'] at hid
  have hid' : request.cookie.sessionId = lit "a\r\nb" := Except.ok.inj hid
  rw [hid'] at hone
  exact hone.noCR (by decide)

end HttpServer

end HahaWeb
