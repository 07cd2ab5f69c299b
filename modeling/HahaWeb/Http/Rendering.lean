/-
  HahaWeb.Http.Rendering — requests as a client writes them, and the tokens the parser
  finds in them.

  Proved: a request line is one token, a list of headers as many tokens as it has
  entries, leaving them in the header map (`steps_headers`); a request rendered with its
  Content-Length is parsed to what it was rendered from, and what follows it stays in the
  buffer (`parseRequest_render`).
-/

import HahaWeb.Http.RequestReader

namespace HahaWeb.HttpRequest

open Resumable (Act Steps Ends Call Run Visits)

variable {D : Type} (env : Env D)

/-! ## Text -/

def requestLine (m : HttpMethod) (target : Bytes) (v : HttpVersion) : Bytes :=
  m.str ++ (32 :: (target ++ (32 :: v.str)))

def headerText (h : Bytes × Bytes) : Bytes := h.1 ++ (58 :: 32 :: h.2)

def headersText (headers : List (Bytes × Bytes)) : Bytes := headers.flatMap fun h => headerText h ++ crlf

/-- `METHOD SP target SP version CRLF (name: SP value CRLF)* CRLF body` -/
def render (m : HttpMethod) (target : Bytes) (v : HttpVersion) (headers : List (Bytes × Bytes)) (body : Bytes) :
    Bytes :=
  requestLine m target v ++ crlf ++ (headersText headers ++ (crlf ++ body))

/-- A target that can stand in a request line and that `HttpUrl` accepts. -/
structure Target (target : Bytes) (url : HttpUrl) : Prop where
  noSpace : 32 ∉ target
  noCR : CR ∉ target
  accepted : HttpUrl.ofString target = .ok url
  parsed : url.state = .parseSuccess

/-- A name and a value that can stand in a header line. -/
structure Field (h : Bytes × Bytes) : Prop where
  noColon : 58 ∉ h.1
  noCR : CR ∉ h.1
  valueNoCR : CR ∉ h.2
  valueStart : h.2.head? ≠ some 32

/-! ## The request line -/

theorem requestLine_noCR {m : HttpMethod} {target : Bytes} {v : HttpVersion} (h : CR ∉ target) :
    CR ∉ requestLine m target v := by
  have hm : CR ∉ m.str := by cases m <;> decide
  have hv : CR ∉ v.str := by cases v <;> decide
  have h32 : CR ≠ 32 := by decide
  simp [requestLine, hm, hv, h, h32]

theorem methodOf_str (m : HttpMethod) (w : Bytes) : methodOf (m.str ++ w) = some (m, m.str.length + 1) := by
  have hg : lit "GET" = [71, 69, 84] := by decide
  have hp : lit "POST" = [80, 79, 83, 84] := by decide
  have hh : lit "HEAD" = [72, 69, 65, 68] := by decide
  cases m <;> simp [methodOf, HttpMethod.str, hg, hp, hh]

theorem parseLine_requestLine (rq : HttpRequest D) (m : HttpMethod) {target : Bytes} {url : HttpUrl} (v : HttpVersion)
    (ht : Target target url) : parseLine rq (requestLine m target v) =
      .ok (some ((requestLine m target v).length + 2), { rq with method := some m, reqUrl := url, version := v }) := by
  have hdrop : (requestLine m target v).drop (m.str.length + 1) = target ++ (32 :: v.str) := by
    rw [requestLine, ← List.drop_drop, List.drop_left]
    rfl
  have hlen : m.str.length + 1 ≤ (requestLine m target v).length := by simp [requestLine]
  have hsp : findFirstOf 32 (target ++ (32 :: v.str)) 0 = some target.length := by
    simpa using findFirstOf_append ht.noSpace [] v.str
  have hm : methodOf (requestLine m target v) = some (m, m.str.length + 1) := methodOf_str m _
  rw [parseLine_long rq hm hlen, hdrop, hsp]
  simp only [List.take_left, ht.accepted, Except.map, ht.parsed, reduceCtorEq, if_false]
  rw [← List.drop_drop, hdrop, ← List.drop_drop, List.drop_left]
  simp only [List.drop_succ_cons, List.drop_zero, versionOf_eq_some.mpr rfl]

theorem lineToken_requestLine {lineMax : Nat} (rq : HttpRequest D) (m : HttpMethod) {target : Bytes} {url : HttpUrl}
    (v : HttpVersion) (ht : Target target url) {rest : Bytes}
    (hmax : (requestLine m target v ++ crlf ++ rest).length ≤ lineMax) :
    lineToken lineMax rq (requestLine m target v ++ crlf ++ rest) = .take ((requestLine m target v).length + 2)
      { rq with method := some m, reqUrl := url, version := v, state := .checkHeader } := by
  rw [lineToken, if_neg (not_lt.mpr hmax), find_crlf_of_not_mem (requestLine_noCR ht.noCR)]
  dsimp only
  rw [List.append_assoc, List.take_left, parseLine_requestLine rq m v ht]

/-! ## Header lines -/

theorem headerText_noCR {h : Bytes × Bytes} (hf : Field h) : CR ∉ headerText h := by
  have h58 : CR ≠ 58 := by decide
  have h32 : CR ≠ 32 := by decide
  simp [headerText, hf.noCR, hf.valueNoCR, h58, h32]

theorem headerLine_headerText {h : Bytes × Bytes} (hf : Field h) : headerLine (headerText h) = some h := by
  obtain ⟨key, value⟩ := h
  have h1 : findFirstOf 58 (headerText (key, value)) 0 = some key.length := by
    simpa [headerText] using findFirstOf_append hf.noColon [] (32 :: value)
  have h2 : findFirstOf 32 (headerText (key, value)) key.length = some (key.length + 1) := by
    have := findFirstOf_append (c := 32) (u := [58]) (by decide) key value
    simpa [headerText] using this
  have h3 : findFirstNotOf 32 (headerText (key, value)) (key.length + 1) =
      if value = [] then none else some (key.length + 2) := by
    have hd : (headerText (key, value)).drop (key.length + 1) = 32 :: value := by
      rw [headerText, ← List.drop_drop, List.drop_left]
      rfl
    rw [findFirstNotOf, hd]
    cases value with
    | nil => rfl
    | cons c value =>
      have hc : c ≠ 32 := fun h => hf.valueStart (by simp [h])
      simp [List.findIdx?_cons, hc]
      omega
  have hkey : (headerText (key, value)).take key.length = key := by simp [headerText]
  have hval : (headerText (key, value)).drop (key.length + 2) = value := by
    rw [headerText, ← List.drop_drop, List.drop_left]
    rfl
  simp only [headerLine, h1, h2, Option.getD_some, h3, hkey]
  by_cases hv : value = []
  · simp [hv]
  · simp [hv, hval]

theorem headerToken_headerText {rq : HttpRequest D} (hs : rq.header.size ≤ maxRequestHeaderLen) {h : Bytes × Bytes}
    (hf : Field h) (rest : Bytes) : headerToken env rq (headerText h ++ crlf ++ rest) =
      .take ((headerText h).length + 2) { rq with header := rq.header.add h.1 h.2 } := by
  have hcr := headerText_noCR hf
  have hfind := find_crlf_of_not_mem hcr rest
  have hb : ¬ crlf <+: headerText h ++ crlf ++ rest := by
    intro hp
    obtain ⟨-, -, hno⟩ := find_eq_some.mp hfind
    exact hno 0 (by simp [headerText]) hp
  have he : (headerText h ++ crlf ++ rest).isEmpty = false := by simp [crlf]
  rw [headerToken, he, if_neg (by decide), if_neg hb, if_neg (not_lt.mpr hs), hfind]
  dsimp only
  rw [List.append_assoc, List.take_left, headerLine_headerText hf]

theorem took_header {lineMax : Nat} {rq : HttpRequest D} (hst : rq.state = .checkHeader)
    (hs : rq.header.size ≤ maxRequestHeaderLen) {h : Bytes × Bytes} (hf : Field h) (rest : Bytes) :
    Resumable.Took (token env lineMax) (rq, headerText h ++ crlf ++ rest)
      ({ rq with header := rq.header.add h.1 h.2 }, rest) := by
  refine ⟨_, (token_header env _ hst).trans (headerToken_headerText env hs hf rest), ?_⟩
  exact (drop_line _ _).symm

/-- The headers of a list, as the parser adds them. -/
def addHeaders (hd : HttpHeader) (headers : List (Bytes × Bytes)) : HttpHeader :=
  headers.foldl (fun hd h => hd.add h.1 h.2) hd

theorem addHeaders_get (headers : List (Bytes × Bytes)) (hd : HttpHeader) (name : Bytes) :
    (addHeaders hd headers).get name =
      ((headers.filter fun h => toLowers h.1 = toLowers name).getLast?.map (·.2)).or (hd.get name) := by
  have hmap : (addHeaders hd headers).toHttpBaseMap =
      headers.foldl (fun m h => m.add h.1 h.2) hd.toHttpBaseMap := by
    induction headers generalizing hd with
    | nil => rfl
    | cons h headers ih => exact ih (hd.add h.1 h.2)
  rw [hmap, HttpBaseMap.get_foldl_add]
  rfl

theorem addHeaders_size (headers : List (Bytes × Bytes)) (hd : HttpHeader) :
    (addHeaders hd headers).size ≤ hd.size + (headersText headers).length := by
  induction headers generalizing hd with
  | nil => simp [addHeaders]
  | cons h headers ih =>
    refine (ih (hd.add h.1 h.2)).trans ?_
    simp only [HttpHeader.add_size, headersText, List.flatMap_cons, headerText, List.length_append, List.length_cons]
    omega

/-- A list of header lines is read to its end. -/
theorem steps_headers {lineMax : Nat} {rq : HttpRequest D} (hst : rq.state = .checkHeader) (rest : Bytes) :
    ∀ {headers : List (Bytes × Bytes)}, (∀ h ∈ headers, Field h) →
      rq.header.size + (headersText headers).length ≤ maxRequestHeaderLen →
      Steps (token env lineMax) (rq, headersText headers ++ rest)
      ({ rq with header := addHeaders rq.header headers }, rest) := by
  intro headers hf hsize
  induction headers generalizing rq with
  | nil => exact .refl
  | cons h headers ih =>
    have hlen : (headersText (h :: headers)).length = (headerText h).length + 2 + (headersText headers).length := by
      simp [headersText, crlf]
      omega
    have htext : headersText (h :: headers) ++ rest = headerText h ++ crlf ++ (headersText headers ++ rest) := by
      simp [headersText]
    have hstep := @took_header D env lineMax rq hst (by omega) h (hf h List.mem_cons_self) (headersText headers ++ rest)
    rw [← htext] at hstep
    refine .head hstep (ih hst
      (fun h' hm => hf h' (List.mem_cons_of_mem _ hm)) ?_)
    simp only [HttpHeader.add_size]
    simp only [headerText, List.length_append, List.length_cons] at hlen
    omega

/-! ## The whole request -/

/-- The state at the blank line of a request with the given line and headers. -/
def atBlank (m : HttpMethod) (url : HttpUrl) (v : HttpVersion) (headers : List (Bytes × Bytes)) : HttpRequest D :=
  { new with
    method := some m, reqUrl := url, version := v, state := .checkHeader
    header := addHeaders .new headers }

/-- The line and the headers of a request bring the parser to the blank line. -/
theorem steps_atBlank {lineMax : Nat} (m : HttpMethod) {target : Bytes} {url : HttpUrl} (v : HttpVersion)
    {headers : List (Bytes × Bytes)} {rest : Bytes} (ht : Target target url) (hf : ∀ h ∈ headers, Field h)
    (hsize : (headersText headers).length ≤ maxRequestHeaderLen)
    (hmax : (requestLine m target v ++ crlf ++ (headersText headers ++ rest)).length ≤ lineMax) :
    Steps (token env lineMax) (new, requestLine m target v ++ crlf ++ (headersText headers ++ rest))
      (atBlank m url v headers, rest) := by
  have htok := lineToken_requestLine (new : HttpRequest D) m v ht hmax
  rw [← token_line env _ rfl] at htok
  have hst := @steps_headers D env lineMax
    { (new : HttpRequest D) with method := some m, reqUrl := url, version := v, state := .checkHeader } rfl rest _ hf
    (by simpa [new, HttpHeader.new, HttpHeader.size] using hsize)
  refine .head ⟨_, htok, ?_⟩ hst
  exact (drop_line _ _).symm

/-- A request line received alone: the parser waits for the headers. -/
theorem call_requestLine {lineMax : Nat} (m : HttpMethod) {target : Bytes} {url : HttpUrl} (v : HttpVersion)
    (ht : Target target url) (hmax : (requestLine m target v ++ crlf).length ≤ lineMax) :
    Call (token env lineMax) new (requestLine m target v ++ crlf) none (atBlank m url v []) [] := by
  have hst := @steps_atBlank D env lineMax m _ _ v [] [] ht (by simp) (by simp [headersText])
    (by simpa [headersText] using hmax)
  have hw : token env lineMax (atBlank m url v []) [] = .wait 0 (atBlank m url v []) := rfl
  simpa [headersText] using (Call.of_wait hw).of_steps hst

theorem call_get : ∃ url, Call (token env maxRequestLineLen) new (lit "GET / HTTP/1.1\r\n") none
    (atBlank .get url .http11 []) [] := by
  have htext : lit "GET / HTTP/1.1\r\n" = requestLine .get (lit "/") .http11 ++ crlf := by decide
  rw [htext]
  exact ⟨_, call_requestLine env .get .http11 ⟨by decide, by decide, by rfl, rfl⟩ (by decide)⟩

/-- No header of the list has the given name, in any case. -/
def Without (headers : List (Bytes × Bytes)) (name : Bytes) : Prop := ∀ h ∈ headers, toLowers h.1 ≠ toLowers name

theorem Without.get {headers : List (Bytes × Bytes)} {name : Bytes} (h : Without headers name) :
    (addHeaders .new headers).get name = none := by
  rw [addHeaders_get, List.filter_eq_nil_iff.mpr fun a ha => by simpa using h a ha]
  rfl

/-- The values given for a name, in order. -/
def valuesOf (headers : List (Bytes × Bytes)) (name : Bytes) : List Bytes :=
  (headers.filter fun h => toLowers h.1 = toLowers name).map (·.2)

theorem get_addHeaders (headers : List (Bytes × Bytes)) (name : Bytes) :
    (addHeaders .new headers).get name = (valuesOf headers name).getLast? := by
  rw [addHeaders_get, valuesOf, List.getLast?_map]
  exact Option.or_none

/-- The blank line, when the headers can be read. -/
theorem token_blank {lineMax : Nat} {s rq : HttpRequest D} (hs : s.state = .checkHeader)
    (hp : parseHeaders env s = .ok rq)
    (rest : Bytes) : token env lineMax s (crlf ++ rest) = .take 2 { rq with state := .checkContent } := by
  rw [token_header env _ hs, headerToken, if_neg (by simp [crlf]), if_pos (List.prefix_append _ _), hp]

theorem bodyToken_untyped {rq : HttpRequest D} (h : rq.hasContentType = false) (n : Nat) :
    bodyToken env n rq = .halt n .ok { rq with state := .checkDone } := by
  rw [bodyToken, parseBody, if_neg (by simp [h])]

/-- A body of the length the request gives. -/
theorem token_body {lineMax : Nat} {s : HttpRequest D} (hs : s.state = .checkContent)
    (hte : s.hasTransferEncoding = false)
    (hcl : s.hasContentLength = true) (hb : s.body = []) {body : Bytes} (hlen : s.contentLength = body.length)
    (hmax : body.length < 2 ^ 64) (rest : Bytes) :
    token env lineMax s (body ++ rest) = bodyToken env body.length { s with body := body } := by
  have hcm : Completes s (body ++ rest) body.length { s with body := body } := by
    refine .inr ⟨hte, hcl, by simp [hb, hlen], ?_, by simp, by simp [hb]⟩
    rw [hb, hlen, List.length_nil, sizeSub_of_le (Nat.zero_le _) hmax, Nat.sub_zero]
  rw [token_content env _ hs, contentToken_of_completes env hcm]

/-- What the blank line makes of a request that gives its length and no other coding. -/
theorem token_atBlank (m : HttpMethod) (url : HttpUrl) (v : HttpVersion) {headers : List (Bytes × Bytes)} {n : Nat}
    (hck : Without headers (lit "Cookie")) (hte : Without headers (lit "Transfer-Encoding"))
    (hcl : valuesOf headers (lit "Content-Length") = [decimal n]) (hn : n < 2 ^ 64) (lineMax : Nat) (rest : Bytes) :
    ∃ s : HttpRequest D, token env lineMax (atBlank m url v headers) (crlf ++ rest) = .take 2 s ∧
      s.state = .checkContent ∧ s.method = some m ∧ s.reqUrl = url ∧ s.version = v ∧
      s.header = addHeaders .new headers ∧ s.body = [] ∧ s.multipart = .new ∧
      s.hasTransferEncoding = false ∧ s.hasContentLength = true ∧ s.contentLength = n ∧
      s.hasContentType = (s.header.get (lit "Content-Type")).isSome ∧
      s.contentType = (s.header.get (lit "Content-Type")).map fun v => contentTypeOf (toLowers v) := by
  have h1 : (addHeaders .new headers).get (lit "Content-Length") = some (decimal n) := by
    rw [get_addHeaders, hcl]
    rfl
  have h2 : (addHeaders .new headers).get (lit "Cookie") = none := hck.get
  have h3 : (addHeaders .new headers).get (lit "Transfer-Encoding") = none := hte.get
  have hok := (parseHeaders_ok_iff env (atBlank m url v headers)).mpr
    ⟨by simp [atBlank, h2], fun w hw => ⟨n, by
      simp only [atBlank, h1, Option.some.injEq] at hw
      rw [← hw, stoul_decimal hn]⟩⟩
  obtain ⟨rq, hp⟩ := hok
  obtain ⟨k, a, c, hc, ck, n', te, s, rfl, hn'⟩ := parseHeaders_ok env hp
  have hn'' := hn' _ h1
  rw [stoul_decimal hn] at hn''
  refine ⟨_, token_blank env rfl hp rest, rfl, rfl, rfl, rfl, rfl, rfl, rfl, ?_, ?_, ?_, rfl, ?_⟩
  · simp [atBlank, new, h3]
  · simp [atBlank, new, h1]
  · exact (Except.ok.inj hn'').symm
  · exact Option.or_none

/-- Parsing undoes rendering, and consumes exactly one request. -/
theorem parseRequest_render (m : HttpMethod) {target : Bytes} {url : HttpUrl} (v : HttpVersion)
    {headers : List (Bytes × Bytes)} {body tail : Bytes} (ht : Target target url) (hf : ∀ h ∈ headers, Field h)
    (hck : Without headers (lit "Cookie")) (hct : Without headers (lit "Content-Type"))
    (hte : Without headers (lit "Transfer-Encoding"))
    (hcl : valuesOf headers (lit "Content-Length") = [decimal body.length])
    (hmax : (render m target v headers body ++ tail).length ≤ maxRequestLineLen) {b : Buffer}
    (hb : b.readable = render m target v headers body ++ tail) :
    ∃ rq b', (new : HttpRequest D).parseRequest env b = .ok (.okRequest, rq, b') ∧
      rq.method = some m ∧ rq.reqUrl = url ∧ rq.version = v ∧
      (∀ name, rq.header.get name = (valuesOf headers name).getLast?) ∧ rq.body = body ∧ b'.readable = tail := by
  have htext : render m target v headers body ++ tail =
      requestLine m target v ++ crlf ++ (headersText headers ++ (crlf ++ (body ++ tail))) := by simp [render]
  have hlen : (headersText headers).length ≤ maxRequestHeaderLen ∧ body.length < 2 ^ 64 := by
    simp only [htext, List.length_append, maxRequestLineLen] at hmax
    simp only [maxRequestHeaderLen]
    omega
  have hst := steps_atBlank env m v ht hf hlen.1 (htext ▸ hmax)
  obtain ⟨s, hblank, h0, h1, h2, h3, h4, h5, -, h6, h7, h8, h9, -⟩ :=
    token_atBlank env m url v hck hte hcl hlen.2 maxRequestLineLen (body ++ tail)
  have huntyped : s.hasContentType = false := by rw [h9, h4, hct.get]; rfl
  have hbody : token env maxRequestLineLen s (body ++ tail) = bodyToken env body.length { s with body := body } :=
    token_body env h0 h6 h7 h5 h8 hlen.2 tail
  rw [@bodyToken_untyped D env { s with body := body } huntyped] at hbody
  have hcall : Call (token env maxRequestLineLen) new b.readable (some .ok)
      { s with body := body, state := .checkDone } ((body ++ tail).drop body.length) := by
    rw [hb, htext]
    exact (Call.of_take hblank (Call.of_halt hbody)).of_steps hst
  obtain ⟨b', hp', hr'⟩ := parseRequest_of_call env (by simp [new]) hcall
  refine ⟨_, b', hp', h1, h2, h3, fun name => ?_, rfl, by rw [hr', List.drop_left]⟩
  exact (congrArg (fun h : HttpHeader => h.get name) h4).trans (get_addHeaders headers name)

/-- A request with a body of two bytes, and a third behind it. -/
theorem parseRequest_render_post : ∃ (rq : HttpRequest Unit) (b' : Buffer),
    new.parseRequest bareEnv (received (render .post (lit "/a") .http11
      [(lit "Host", lit "h"), (lit "content-length", lit "2")] (lit "hi") ++ lit "X")) = .ok (.okRequest, rq, b') ∧
    rq.method = some .post ∧ rq.reqUrl = ⟨.parseSuccess, lit "/a", none, [], [], [], lit "/a", ∅⟩ ∧
    rq.version = .http11 ∧
    (∀ name, rq.header.get name =
      (valuesOf [(lit "Host", lit "h"), (lit "content-length", lit "2")] name).getLast?) ∧
    rq.body = lit "hi" ∧ b'.readable = lit "X" :=
  parseRequest_render bareEnv .post .http11 ⟨by decide, by decide, by rfl, rfl⟩
    (by
      intro h hh
      simp only [List.mem_cons, List.not_mem_nil, or_false] at hh
      rcases hh with rfl | rfl <;> exact ⟨by decide, by decide, by decide, by decide⟩)
    (by unfold Without; decide) (by unfold Without; decide) (by unfold Without; decide) (by decide +kernel)
    (by decide +kernel) (readable_received _)

end HahaWeb.HttpRequest
