/-
  HahaWeb.Http.HttpRequest — `http/HttpRequest.cpp`: the request parser of one
  connection.

  The members are a record, the receive buffer `data_` is passed beside it, and a
  function returns its result with both, or the fault it ends in. Where the source
  returns in the middle, what was set up to there stays set. `Env` holds what the parser
  reads from outside: the sessions, and the conversions of the JSON library.

  The loops over the headers and the chunks are bounded by fuel, one unit for each byte
  received and one more: every round but the last consumes some.
-/

import HahaWeb.Base.Buffer
import HahaWeb.Http.HttpMultiPart
import HahaWeb.Http.HttpUrl
import HahaWeb.Http.HttpUtil
import HahaWeb.Json.Parse

namespace HahaWeb

open Json (JsonNode Stod)

/-! ## `http/HttpSession` -/

inductive HttpSession.Status where
  | new
  | accessed
  | destroy
  deriving DecidableEq, Repr

structure HttpSession where
  id : Bytes
  status : HttpSession.Status
  interval : Int
  deriving DecidableEq, Repr

/-- What a request reads from outside: the session manager's table and `Stod`. -/
structure Env (D : Type) where
  stod : Stod D
  sessions : AList fun _ : Bytes => HttpSession

/-! ## The request -/

inductive CheckState where
  | checkRequestLine
  | checkHeader
  | checkContent
  | checkDone
  deriving DecidableEq, Repr

inductive RetState where
  | okRequest
  | againRequest
  | badRequest
  deriving DecidableEq, Repr

/-- `method` and `contentType` are `none` until they are set; `contentLength` is read only
    when `hasContentLength`, `retState` only when a call has set it. -/
structure HttpRequest (D : Type) where
  state : CheckState
  retState : RetState
  method : Option HttpMethod
  reqUrl : HttpUrl
  version : HttpVersion
  header : HttpHeader
  cookie : HttpCookie
  multipart : HttpMultiPart
  body : Bytes
  form : HttpForm
  json : Option (JsonNode D)
  session : Option HttpSession
  contentType : Option HttpContentType
  contentLength : Nat
  acceptEncoding : Bytes
  transferEncoding : Bytes
  chunked : Bool
  curChunkedState : HttpChunkedState
  curChunkSize : Int
  keepAlive : Bool
  compressed : Bool
  hasContentType : Bool
  hasContentLength : Bool
  hasCookies : Bool
  hasTransferEncoding : Bool

def maxRequestLineLen : Nat := 2048
def maxRequestHeaderLen : Nat := 8192
def chunkSizeStrLimit : Nat := 5

/-- What a call of a parse function leaves: its result, the request, the buffer. -/
abbrev Parsed (D : Type) := RetState × HttpRequest D × Buffer

namespace HttpRequest

variable {D : Type} (env : Env D)

/-- The constructor. -/
def new : HttpRequest D where
  state := .checkRequestLine
  retState := .againRequest
  method := none
  reqUrl := HttpUrl.blank []
  version := .http10
  header := .new
  cookie := .new
  multipart := .new
  body := []
  form := .new
  json := none
  session := none
  contentType := none
  contentLength := 0
  acceptEncoding := []
  transferEncoding := []
  chunked := false
  curChunkedState := .noLen
  curChunkSize := 0
  keepAlive := false
  compressed := false
  hasContentType := false
  hasContentLength := false
  hasCookies := false
  hasTransferEncoding := false

/-! ## The request line -/

/-- The method a line begins with, and the bytes it takes with the blank behind it. -/
def methodOf (line : Bytes) : Option (HttpMethod × Nat) :=
  if line.take 3 = lit "GET" then some (.get, 4)
  else if line.take 4 = lit "POST" then some (.post, 5)
  else if line.take 4 = lit "HEAD" then some (.head, 5)
  else none

def versionOf (line : Bytes) : Option HttpVersion :=
  if line = lit "HTTP/1.0" then some .http10
  else if line = lit "HTTP/1.1" then some .http11
  else if line = lit "HTTP/2.0" then some .http20
  else none

/-- `parseRequestLine` from the line on: the bytes to retrieve, `none` for BAD_REQUEST. -/
def parseLine (rq : HttpRequest D) (line : Bytes) : Except Fault (Option Nat × HttpRequest D) :=
  match methodOf line with
  | none => .ok (none, rq)
  | some (method, i) => do
    let rq := { rq with method := some method }
    let line ← removePrefix line i
    match findFirstOf 32 line 0 with
    | none => .ok (none, rq)
    | some pos =>
      let url ← HttpUrl.ofString (line.take pos)
      let rq := { rq with reqUrl := url }
      if url.state = .parseFail then .ok (none, rq)
      else
        let line ← removePrefix line (pos + 1)
        let i := i + (pos + 1)
        match versionOf line with
        | none => .ok (none, rq)
        | some version =>
          let _ ← removePrefix line 8
          .ok (some (i + 10), { rq with version := version })

theorem methodOf_eq {line : Bytes} {m : HttpMethod} {k : Nat} (h : methodOf line = some (m, k)) :
    line.take (k - 1) = m.str ∧ k = m.str.length + 1 := by
  unfold methodOf at h
  split at h
  · rename_i he; cases h; exact ⟨he, rfl⟩
  · split at h
    · rename_i he; cases h; exact ⟨he, rfl⟩
    · split at h
      · rename_i he; cases h; exact ⟨he, rfl⟩
      · cases h

theorem versionOf_eq_some {line : Bytes} {v : HttpVersion} : versionOf line = some v ↔ line = v.str := by
  constructor
  · intro h
    unfold versionOf at h
    split at h
    · rename_i he; cases h; exact he
    · split at h
      · rename_i he; cases h; exact he
      · split at h
        · rename_i he; cases h; exact he
        · cases h
  · intro hx
    subst hx
    cases v <;> decide

/-- A line without a method is refused as it is. -/
theorem parseLine_none (rq : HttpRequest D) {line : Bytes} (hm : methodOf line = none) :
    parseLine rq line = .ok (none, rq) := by
  simp only [parseLine, hm]

/-- A line that is a method and nothing else: `remove_prefix` goes past its end. -/
theorem parseLine_short (rq : HttpRequest D) {line : Bytes} {m : HttpMethod} {k : Nat}
    (hm : methodOf line = some (m, k))
    (hk : line.length < k) : parseLine rq line = .error .outOfRange := by
  simp only [parseLine, hm, removePrefix, if_neg (not_le.mpr hk)]
  rfl

/-- Any other line with a method. -/
theorem parseLine_long (rq : HttpRequest D) {line : Bytes} {m : HttpMethod} {k : Nat} (hm : methodOf line = some (m, k))
    (hk : k ≤ line.length) : parseLine rq line =
      match findFirstOf 32 (line.drop k) 0 with
      | none => .ok (none, { rq with method := some m })
      | some pos => (HttpUrl.ofString ((line.drop k).take pos)).map fun url =>
        if url.state = .parseFail then (none, { rq with method := some m, reqUrl := url })
        else match versionOf (line.drop (k + (pos + 1))) with
          | none => (none, { rq with method := some m, reqUrl := url })
          | some v => (some (line.length + 2), { rq with method := some m, reqUrl := url, version := v }) := by
  simp only [parseLine, hm, removePrefix_of_le hk, bind, Except.bind]
  cases hp : findFirstOf 32 (line.drop k) 0 with
  | none => rfl
  | some pos =>
    obtain ⟨-, hlt⟩ := findFirstOf_lt hp
    obtain ⟨url, hurl⟩ := HttpUrl.ofString_total ((line.drop k).take pos)
    simp only [hurl, Except.map]
    by_cases hf : url.state = .parseFail
    · simp only [hf, if_true]
    · simp only [hf, if_false, removePrefix_of_le (show pos + 1 ≤ (line.drop k).length from hlt), List.drop_drop]
      cases hv : versionOf (line.drop (k + (pos + 1))) with
      | none => rfl
      | some v =>
        have hl : (line.drop (k + (pos + 1))).length = 8 := by
          rw [versionOf_eq_some.mp hv]
          cases v <;> rfl
        simp only [removePrefix_of_le hl.ge]
        simp only [List.length_drop] at hl hlt
        congr 3
        omega

theorem parseLine_ok {rq rq' : HttpRequest D} {line : Bytes} {i : Nat} (h : parseLine rq line = .ok (some i, rq')) :
    i = line.length + 2 ∧ ∃ m url v, rq' = { rq with method := some m, reqUrl := url, version := v } := by
  cases hm : methodOf line with
  | none => rw [parseLine_none rq hm] at h; cases h
  | some mk =>
    obtain ⟨m, k⟩ := mk
    rcases Nat.lt_or_ge line.length k with hk | hk
    · rw [parseLine_short rq hm hk] at h; cases h
    · rw [parseLine_long rq hm hk] at h
      cases hp : findFirstOf 32 (line.drop k) 0 with
      | none => rw [hp] at h; cases h
      | some pos =>
        obtain ⟨url, hurl⟩ := HttpUrl.ofString_total ((line.drop k).take pos)
        simp only [hp, hurl, Except.map, Except.ok.injEq] at h
        split at h
        · cases h
        · split at h
          · cases h
          · rename_i v hv
            cases h
            exact ⟨rfl, m, url, v, rfl⟩

/-- The first byte of no method. -/
def badStart (view : Bytes) : Bool :=
  match view with
  | [] => false
  | c :: _ => c != 71 && c != 80 && c != 72

def parseRequestLine (rq : HttpRequest D) (data : Buffer) : Except Fault (Parsed D) :=
  if maxRequestLineLen < data.readableBytes then .ok (.badRequest, rq, data)
  else
    let view := data.readable
    match find crlf view with
    | none => if badStart view then .ok (.badRequest, rq, data) else .ok (.againRequest, rq, data)
    | some pos => do
      match ← parseLine rq (view.take pos) with
      | (none, rq) => .ok (.badRequest, rq, data)
      | (some i, rq) =>
        let data ← data.retrieve i
        .ok (.okRequest, rq, data)

/-! ## What the headers say -/

def parseKeepAlive (rq : HttpRequest D) : HttpRequest D :=
  let rq := if rq.version ≠ .http10 then { rq with keepAlive := true } else rq
  match rq.header.get (lit "Connection") with
  | some value =>
    let val := toLowers value
    if val = lit "keep-alive" then { rq with keepAlive := true }
    else if val = lit "close" then { rq with keepAlive := false }
    else { rq with keepAlive := false }
  | none => rq

def parseAcceptEncoding (rq : HttpRequest D) : HttpRequest D :=
  match rq.header.get (lit "Accept-Encoding") with
  | some value => { rq with acceptEncoding := value, compressed := (find (lit "gzip") value).isSome }
  | none => rq

/-- The type a value in lower case names. -/
def contentTypeOf (val : Bytes) : HttpContentType :=
  if val.take 33 = lit "application/x-www-form-urlencoded" then .urlencoded
  else if val.take 19 = lit "multipart/form-data" then .multipart
  else if val.take 10 = lit "text/plain" then .plain
  else if val.take 9 = lit "text/html" then .html
  else if val.take 16 = lit "application/json" then .json
  else .unknow

def parseContentType (rq : HttpRequest D) : HttpRequest D :=
  match rq.header.get (lit "Content-Type") with
  | some value => { rq with hasContentType := true, contentType := some (contentTypeOf (toLowers value)) }
  | none => rq

def parseCookies (rq : HttpRequest D) : Except Fault (HttpRequest D) :=
  match rq.header.get (lit "Cookie") with
  | some value => do
    let cookie ← HttpCookie.ofString value
    .ok { rq with hasCookies := true, cookie := cookie }
  | none => .ok rq

def parseContentLength (rq : HttpRequest D) : Except Fault (HttpRequest D) :=
  match rq.header.get (lit "Content-Length") with
  | some value => do
    let n ← stoul value
    .ok { rq with hasContentLength := true, contentLength := n }
  | none => .ok rq

def parseTransferEncoding (rq : HttpRequest D) : HttpRequest D :=
  match rq.header.get (lit "Transfer-Encoding") with
  | some value =>
    let rq := { rq with hasTransferEncoding := true, transferEncoding := toLowers value }
    if rq.transferEncoding = lit "chunked" then { rq with chunked := true } else rq
  | none => rq

def parseSession (rq : HttpRequest D) : HttpRequest D :=
  if rq.cookie.sessionId.isEmpty then { rq with session := none }
  else { rq with session := env.sessions.lookup rq.cookie.sessionId }

/-- What is done at the blank line. -/
def parseHeaders (rq : HttpRequest D) : Except Fault (HttpRequest D) := do
  let rq := parseContentType (parseAcceptEncoding (parseKeepAlive rq))
  let rq ← parseCookies rq
  let rq ← parseContentLength rq
  .ok (parseSession env (parseTransferEncoding rq))

theorem parseKeepAlive_eq (rq : HttpRequest D) : ∃ k, parseKeepAlive rq = { rq with keepAlive := k } := by
  unfold parseKeepAlive
  dsimp only
  repeat' split
  all_goals exact ⟨_, rfl⟩

theorem parseAcceptEncoding_eq (rq : HttpRequest D) :
    ∃ a c, parseAcceptEncoding rq = { rq with acceptEncoding := a, compressed := c } := by
  unfold parseAcceptEncoding
  split
  all_goals exact ⟨_, _, rfl⟩

theorem parseContentType_eq (rq : HttpRequest D) : parseContentType rq =
    { rq with
      hasContentType := rq.hasContentType || (rq.header.get (lit "Content-Type")).isSome
      contentType := ((rq.header.get (lit "Content-Type")).map fun v => contentTypeOf (toLowers v)).or
        rq.contentType } := by
  unfold parseContentType
  split
  · rename_i h
    simp [h]
  · rename_i h
    simp [h]

theorem parseTransferEncoding_eq (rq : HttpRequest D) : ∃ te, parseTransferEncoding rq =
    { rq with
      hasTransferEncoding := rq.hasTransferEncoding || (rq.header.get (lit "Transfer-Encoding")).isSome
      transferEncoding := te
      chunked := rq.chunked || (rq.header.get (lit "Transfer-Encoding")).any fun v => toLowers v = lit "chunked" } := by
  unfold parseTransferEncoding
  dsimp only
  split
  · rename_i h
    split
    · rename_i hc
      exact ⟨_, by simp [h, hc]; rfl⟩
    · rename_i hc
      exact ⟨_, by simp [h, hc]; rfl⟩
  · rename_i h
    exact ⟨_, by simp [h]; rfl⟩

theorem parseSession_eq (rq : HttpRequest D) : ∃ s, parseSession env rq = { rq with session := s } := by
  unfold parseSession
  split
  all_goals exact ⟨_, rfl⟩

theorem parseCookies_ok {rq rq' : HttpRequest D} (h : parseCookies rq = .ok rq') :
    ∃ hc c, rq' = { rq with hasCookies := hc, cookie := c } := by
  unfold parseCookies at h
  split at h
  · rename_i v hv
    cases hc : HttpCookie.ofString v with
    | error f => simp [hc, bind, Except.bind] at h
    | ok c => simp only [hc, bind, Except.bind, Except.ok.injEq] at h; exact ⟨_, _, h.symm⟩
  · cases h
    exact ⟨_, _, rfl⟩

theorem parseContentLength_ok {rq rq' : HttpRequest D} (h : parseContentLength rq = .ok rq') :
    ∃ n, rq' = { rq with
        hasContentLength := rq.hasContentLength || (rq.header.get (lit "Content-Length")).isSome
        contentLength := n } ∧
      (∀ v, rq.header.get (lit "Content-Length") = some v → stoul v = .ok n) := by
  unfold parseContentLength at h
  split at h
  · rename_i v hv
    cases hn : stoul v with
    | error f => simp [hn, bind, Except.bind] at h
    | ok n =>
      simp only [hn, bind, Except.bind, Except.ok.injEq] at h
      exact ⟨n, by simp [← h, hv], by simp [hv, hn]⟩
  · rename_i hv
    cases h
    exact ⟨rq.contentLength, by simp [hv], by simp [hv]⟩

/-- What the blank line sets, and that it sets nothing else. -/
theorem parseHeaders_ok {rq rq' : HttpRequest D} (h : parseHeaders env rq = .ok rq') :
    ∃ k a c hc ck n te s, rq' = { rq with
        keepAlive := k, acceptEncoding := a, compressed := c, hasCookies := hc, cookie := ck
        hasContentType := rq.hasContentType || (rq.header.get (lit "Content-Type")).isSome
        contentType := ((rq.header.get (lit "Content-Type")).map fun v => contentTypeOf (toLowers v)).or rq.contentType
        hasContentLength := rq.hasContentLength || (rq.header.get (lit "Content-Length")).isSome
        contentLength := n
        hasTransferEncoding := rq.hasTransferEncoding || (rq.header.get (lit "Transfer-Encoding")).isSome
        transferEncoding := te
        chunked := rq.chunked || (rq.header.get (lit "Transfer-Encoding")).any fun v => toLowers v = lit "chunked"
        session := s } ∧
      (∀ v, rq.header.get (lit "Content-Length") = some v → stoul v = .ok n) := by
  unfold parseHeaders at h
  obtain ⟨k, hk⟩ := parseKeepAlive_eq rq
  obtain ⟨a, c, ha⟩ := parseAcceptEncoding_eq { rq with keepAlive := k }
  rw [hk, ha, parseContentType_eq] at h
  dsimp only at h
  cases hck : parseCookies _ with
  | error f => rw [hck] at h; cases h
  | ok rq1 =>
    rw [hck] at h
    obtain ⟨hc, ck, rfl⟩ := parseCookies_ok hck
    simp only [bind, Except.bind] at h
    cases hcl : parseContentLength _ with
    | error f => rw [hcl] at h; cases h
    | ok rq2 =>
      rw [hcl] at h
      obtain ⟨n, rfl, hn⟩ := parseContentLength_ok hcl
      simp only [Except.ok.injEq] at h
      obtain ⟨te, hte⟩ := parseTransferEncoding_eq (D := D) _
      rw [hte] at h
      obtain ⟨s, hs⟩ := parseSession_eq env (D := D) _
      rw [hs] at h
      exact ⟨k, a, c, hc, ck, n, te, s, h.symm, hn⟩

/-- The blank line is passed when the cookie and the Content-Length can be read. -/
theorem parseHeaders_ok_iff (rq : HttpRequest D) : (∃ rq', parseHeaders env rq = .ok rq') ↔
    (∀ v, rq.header.get (lit "Cookie") = some v → ∃ c, HttpCookie.ofString v = .ok c) ∧
      ∀ v, rq.header.get (lit "Content-Length") = some v → ∃ n, stoul v = .ok n := by
  unfold parseHeaders
  obtain ⟨k, hk⟩ := parseKeepAlive_eq rq
  obtain ⟨a, c, ha⟩ := parseAcceptEncoding_eq { rq with keepAlive := k }
  rw [hk, ha, parseContentType_eq]
  dsimp only
  cases hc : rq.header.get (lit "Cookie") with
  | none =>
    cases hl : rq.header.get (lit "Content-Length") with
    | none => simp [parseCookies, hc, parseContentLength, hl, bind, Except.bind]
    | some v => cases hn : stoul v <;> simp [parseCookies, hc, parseContentLength, hl, hn, bind, Except.bind]
  | some w =>
    cases hck : HttpCookie.ofString w with
    | error f => simp [parseCookies, hc, hck, bind, Except.bind]
    | ok ck =>
      cases hl : rq.header.get (lit "Content-Length") with
      | none => simp [parseCookies, hc, hck, parseContentLength, hl, bind, Except.bind]
      | some v => cases hn : stoul v <;> simp [parseCookies, hc, hck, parseContentLength, hl, hn, bind, Except.bind]

/-! ## The headers -/

/-- Name and value of a header line; `none` without a colon. The value begins behind the
    blanks that follow the first blank after the colon. -/
def headerLine (line : Bytes) : Option (Bytes × Bytes) :=
  match findFirstOf 58 line 0 with
  | none => none
  | some pos2 =>
    let pos3 := (findFirstOf 32 line pos2).getD (pos2 + 1)
    some (line.take pos2, match findFirstNotOf 32 line pos3 with
      | some pos4 => line.drop pos4
      | none => [])

/-- Name and value are apart in the line. -/
theorem headerLine_length {line key value : Bytes} (h : headerLine line = some (key, value)) :
    key.length + value.length ≤ line.length := by
  unfold headerLine at h
  split at h
  · cases h
  · rename_i pos2 h2
    obtain ⟨-, hlt⟩ := findFirstOf_lt h2
    simp only [Option.some.injEq, Prod.mk.injEq] at h
    obtain ⟨rfl, rfl⟩ := h
    split
    · rename_i pos4 h4
      obtain ⟨hge, hlt4⟩ := findFirstNotOf_lt h4
      have h3 : pos2 ≤ (findFirstOf 32 line pos2).getD (pos2 + 1) := by
        cases hf : findFirstOf 32 line pos2 with
        | none => simp
        | some pos3 => simpa using (findFirstOf_lt hf).1
      simp only [List.length_take, List.length_drop]
      omega
    · simp only [List.length_take, List.length_nil]
      omega

/-- The loop of `parseRequestHeader`. -/
def headerLoop : Nat → Bytes → HttpRequest D → Buffer → Except Fault (Parsed D)
  | 0, _, _, _ => .error .hang
  | fuel + 1, header, rq, data =>
    if header.isEmpty then .ok (.againRequest, rq, data)
    else if crlf <+: header then do
      let data ← data.retrieve 2
      let rq ← parseHeaders env rq
      .ok (.okRequest, rq, data)
    else if maxRequestHeaderLen < rq.header.size then .ok (.badRequest, rq, data)
    else
      match find crlf header with
      | none => .ok (.againRequest, rq, data)
      | some crlfPos =>
        match headerLine (header.take crlfPos) with
        | none => .ok (.badRequest, rq, data)
        | some (key, value) => do
          let rq := { rq with header := rq.header.add key value }
          let header ← removePrefix header (crlfPos + 2)
          let data ← data.retrieve (crlfPos + 2)
          headerLoop fuel header rq data

def parseRequestHeader (rq : HttpRequest D) (data : Buffer) : Except Fault (Parsed D) :=
  headerLoop env (data.readableBytes + 1) data.readable rq data

/-! ## The content -/

/-- `view[k]` for an `int` index. -/
def charAtInt (view : Bytes) (k : Int) : Except Fault UInt8 :=
  if 0 ≤ k then charAt view k.toNat else .error .outOfRange

/-- The loop of `parseChunked`. -/
def chunkedLoop : Nat → Bytes → HttpRequest D → Buffer → Except Fault (Parsed D)
  | 0, _, _, _ => .error .hang
  | fuel + 1, view, rq, data =>
    match rq.curChunkedState with
    | .noLen =>
      match find crlf (view.take (chunkSizeStrLimit + 2)) with
      | none => .ok (.againRequest, rq, data)
      | some pos =>
        if chunkSizeStrLimit < pos then .ok (.badRequest, rq, data)
        else do
          let size ← hexString2Int (view.take pos)
          let rq := { rq with curChunkSize := size }
          if rq.curChunkSize = 0 then do
            let data ← data.retrieve (pos + 2)
            let view ← removePrefix view (pos + 2)
            chunkedLoop fuel view { rq with curChunkedState := .done } data
          else if rq.curChunkSize = -1 then .ok (.badRequest, rq, data)
          else do
            let data ← data.retrieve (pos + 2)
            let view ← removePrefix view (pos + 2)
            chunkedLoop fuel view { rq with curChunkedState := .noData } data
    | .noData =>
      if toInt view.length < rq.curChunkSize + 2 then .ok (.againRequest, rq, data)
      else do
        let c ← charAtInt view rq.curChunkSize
        let d ← charAtInt view (rq.curChunkSize + 1)
        if c = CR ∧ d = LF then
          let size := rq.curChunkSize.toNat
          let rq := { rq with body := rq.body ++ data.peek size }
          let data ← data.retrieve (size + 2)
          let view ← removePrefix view (size + 2)
          chunkedLoop fuel view { rq with curChunkedState := .noLen } data
        else .ok (.badRequest, rq, data)
    | .done =>
      if view.length < 2 then .ok (.againRequest, rq, data)
      else if crlf <+: view then do
        let data ← data.retrieve 2
        .ok (.okRequest, rq, data)
      else .ok (.badRequest, rq, data)

def parseChunked (rq : HttpRequest D) (data : Buffer) : Except Fault (Parsed D) :=
  chunkedLoop (data.readableBytes + 1) data.readable rq data

/-- The end of `parseRequestContent`, when the body is there; `none` for AGAIN_REQUEST. -/
def parseBody (rq : HttpRequest D) : Except Fault (Option (HttpRequest D)) :=
  if rq.hasContentType then
    match rq.contentType with
    | some .multipart =>
      let eob := lit "--" ++ rq.multipart.getBoundary ++ lit "--\r\n"
      if eob.length < rq.body.length ∧ rq.body.drop (rq.body.length - eob.length) ≠ eob then .ok none
      else do
        let multipart ← rq.multipart.parse rq.body
        .ok (some { rq with multipart := multipart })
    | some .urlencoded => do
      let form ← parseKeyValue rq.body (lit "=") (lit "&") rq.form true
      .ok (some { rq with form := form })
    | some .plain => do
      let form ← parseKeyValue rq.body (lit "=") (lit "&") rq.form false
      .ok (some { rq with form := form })
    | some .json => do
      let json ← Json.fromString env.stod rq.body
      .ok (some { rq with json := json })
    | _ => .ok (some rq)
  else .ok (some rq)

/-- The decoding of a body that is complete. -/
def finishContent (rq : HttpRequest D) (data : Buffer) : Except Fault (Parsed D) := do
  match ← parseBody env rq with
  | none => .ok (.againRequest, rq, data)
  | some rq => .ok (.okRequest, rq, data)

def parseRequestContent (rq : HttpRequest D) (data : Buffer) : Except Fault (Parsed D) :=
  if rq.hasTransferEncoding then
    if rq.chunked then do
      match ← parseChunked rq data with
      | (.okRequest, rq, data) => finishContent env rq data
      | other => .ok other
    else .ok (.badRequest, rq, data)
  else if rq.hasContentLength then
    if rq.body.length + data.readableBytes < rq.contentLength then .ok (.againRequest, rq, data)
    else
      let acceptSize := sizeSub rq.contentLength rq.body.length
      if data.readableBytes < acceptSize then .error .outOfRange
      else do
        let rq := { rq with body := rq.body ++ data.peek acceptSize }
        let data ← data.retrieve acceptSize
        finishContent env rq data
  else if rq.method = some .get ∨ rq.method = some .head then .ok (.okRequest, rq, data)
  else .ok (.badRequest, rq, data)

/-! ## `parseRequest` -/

/-- `if(retState_ == OK_REQUEST) state_ = next` -/
def advance (next : CheckState) : Parsed D → Parsed D
  | (.okRequest, rq, data) => (.okRequest, { rq with state := next }, data)
  | other => other

/-- One turn of the loop: `switch (state_)`. -/
def parseStep (rq : HttpRequest D) (data : Buffer) : Except Fault (Parsed D) :=
  match rq.state with
  | .checkRequestLine => (parseRequestLine rq data).map (advance .checkHeader)
  | .checkHeader => (parseRequestHeader env rq data).map (advance .checkContent)
  | .checkContent => (parseRequestContent env rq data).map (advance .checkDone)
  | .checkDone => .ok (rq.retState, rq, data)

/-- The loop. A turn does not read the `retState_` another left, so it is set at the end. -/
def parseLoop : Nat → HttpRequest D → Buffer → Except Fault (Parsed D)
  | 0, _, _ => .error .hang
  | fuel + 1, rq, data => do
    let (ret, rq, data) ← parseStep env rq data
    if ret ≠ .okRequest ∨ rq.state = .checkDone then .ok (ret, { rq with retState := ret }, data)
    else parseLoop fuel rq data

/-- `parseRequest`: a turn for each phase. -/
def parseRequest (rq : HttpRequest D) (data : Buffer) : Except Fault (Parsed D) := parseLoop env 3 rq data

end HttpRequest

/-! ## A run -/

/-- Reads appended one at a time with a call of `parse` after each, up to a result other
    than AGAIN_REQUEST or a fault; the reads not delivered are left over. -/
def receiveBy {D : Type} (parse : HttpRequest D → Buffer → Except Fault (Parsed D)) : HttpRequest D → Buffer →
    List Bytes → Except Fault (RetState × HttpRequest D × Buffer × List Bytes)
  | rq, data, [] => .ok (.againRequest, rq, data, [])
  | rq, data, read :: reads => do
    let (ret, rq, data) ← parse rq (data.append read)
    if ret = .againRequest then receiveBy parse rq data reads else .ok (ret, rq, data, reads)

/-- A connection that calls `parseRequest`. -/
def receive {D : Type} (env : Env D) : HttpRequest D → Buffer → List Bytes →
    Except Fault (RetState × HttpRequest D × Buffer × List Bytes) := receiveBy (HttpRequest.parseRequest env)

/-- One that is in the chunks of a body. -/
def receiveChunked {D : Type} : HttpRequest D → Buffer → List Bytes →
    Except Fault (RetState × HttpRequest D × Buffer × List Bytes) := receiveBy HttpRequest.parseChunked

/-- The results of the calls of a run of `parseRequest`, in order. -/
def calls {D : Type} (env : Env D) : HttpRequest D → Buffer → List Bytes → List (Except Fault (Parsed D))
  | _, _, [] => []
  | rq, data, read :: reads =>
    let r := rq.parseRequest env (data.append read)
    r :: match r with
      | .ok (.againRequest, rq, data) => calls env rq data reads
      | _ => []

/-- The receive buffer of a connection that has received `s`. -/
def received (s : Bytes) : Buffer := Buffer.empty.append s

@[simp] theorem readable_received (s : Bytes) : (received s).readable = s := by simp [received]

/-- A server without sessions, where no text is a number for the JSON library. -/
def bareEnv : Env Unit := ⟨⟨fun _ => none, fun _ => none⟩, ∅⟩

end HahaWeb
