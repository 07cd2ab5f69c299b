/-
  HahaWeb.Http.HttpResponse — `http/HttpResponse`: the response, which its destructor
  writes to the send buffer of the connection.

  `buffer_` is the sender of the connection, which a setter that touches it takes and
  returns. `World` holds what a call of the server reads from outside; the order in which
  an `unordered_map` is gone through is a permutation of its entries, and nothing else is
  known of it. Proved: the destructor leaves everything of the connection but the sender,
  and appends to that the text of the response (`destroy_ok`), which begins with its
  status line; a fresh response is always written (`destroy_new`).
-/

import HahaWeb.Http.Rendering
import HahaWeb.Net.TcpConnection

namespace HahaWeb

/-! ## `http/HttpUtil.h` -/

inductive HttpStatus where
  | «continue»
  | ok
  | partialContent
  | movedPermanently
  | found
  | notModified
  | temporaryRedirect
  | badRequest
  | unauthorized
  | forbidden
  | notFound
  | methodNotAllowed
  | rangeNotSatisfiable
  | internalServerError
  | serviceUnavailable
  | httpVersionNotSupported
  deriving DecidableEq, Repr

def HttpStatus.code : HttpStatus → Nat
  | .continue => 100
  | .ok => 200
  | .partialContent => 206
  | .movedPermanently => 301
  | .found => 302
  | .notModified => 304
  | .temporaryRedirect => 307
  | .badRequest => 400
  | .unauthorized => 401
  | .forbidden => 403
  | .notFound => 404
  | .methodNotAllowed => 405
  | .rangeNotSatisfiable => 416
  | .internalServerError => 500
  | .serviceUnavailable => 503
  | .httpVersionNotSupported => 505

/-- `HttpStatus2Str` -/
def HttpStatus.str : HttpStatus → Bytes
  | .continue => lit "Continue"
  | .ok => lit "OK"
  | .partialContent => lit "Partial Content"
  | .movedPermanently => lit "Moved Permanently"
  | .found => lit "Found"
  | .notModified => lit "Not Modified"
  | .temporaryRedirect => lit "Temporary Redirect"
  | .badRequest => lit "Bad Request"
  | .unauthorized => lit "Unauthorized"
  | .forbidden => lit "Forbidden"
  | .notFound => lit "Not Found"
  | .methodNotAllowed => lit "Method Not Allowed"
  | .rangeNotSatisfiable => lit "Range Not Satisfiable"
  | .internalServerError => lit "Internal Server Error"
  | .serviceUnavailable => lit "Service Unavailable"
  | .httpVersionNotSupported => lit "HTTP Version Not Suppported"

/-- `HttpContentType2Name.at`: the table has no entry for UNKNOW. -/
def HttpContentType.name : HttpContentType → Except Fault Bytes
  | .urlencoded => .ok (lit "application/x-www-form-urlencoded")
  | .multipart => .ok (lit "multipart/form-data")
  | .plain => .ok (lit "text/plain")
  | .html => .ok (lit "text/html")
  | .json => .ok (lit "application/json")
  | .jpeg => .ok (lit "image/jpeg")
  | .jpg => .ok (lit "image/jpg")
  | .png => .ok (lit "image/png")
  | .bmp => .ok (lit "image/bmp")
  | .avi => .ok (lit "video/x-msvideo")
  | .mp4 => .ok (lit "video/mp4")
  | .webm => .ok (lit "video/webm")
  | .unknow => .error .stdOutOfRange

/-! ## The world outside -/

/-- A text with no line end in it. -/
structure OneLine (s : Bytes) : Prop where
  noCR : CR ∉ s
  noLF : LF ∉ s

/-- `date` is what `strftime` makes of the time; `file` is what is in a regular file;
    `maxAge` is what an integer holds that was not initialised. -/
structure World (D : Type) where
  env : Env D
  date : Bytes
  date_line : OneLine date
  order : List (Bytes × Bytes) → List (Bytes × Bytes)
  order_perm : ∀ l, (order l).Perm l
  fileExists : Bytes → Bool
  file : Bytes → Option Bytes
  maxAge : Int

/-- The connections of the server keep the request that is being received. -/
abbrev Conn (D : Type) := TcpConnection (HttpRequest D)

variable {D : Type} (w : World D)

/-- The entries of a map as a loop over it meets them. -/
def World.entries {c : CaseSensitive} (m : HttpMap c) : List (Bytes × Bytes) :=
  w.order (m.map.entries.map fun e => (e.1, e.2))

/-- A C string ends at its first NUL. -/
def cStr (s : Bytes) : Bytes := s.takeWhile (· != 0)

/-- `std::to_string(int)` -/
def decimalInt (n : Int) : Bytes := if n < 0 then 45 :: decimal n.natAbs else decimal n.natAbs

/-- `HttpCookie::toString` -/
def HttpCookie.toString (c : HttpCookie) : Bytes :=
  let str := List.intercalate (lit "; ") ((w.entries c.toHttpBaseMap).map fun e => e.1 ++ lit "=" ++ e.2)
  let str := if c.expires.isEmpty then str else str ++ lit "; Expires=" ++ c.expires
  let str := if c.domain.isEmpty then str else str ++ lit "; Domain=" ++ c.domain
  let str := if c.path.isEmpty then str else str ++ lit "; Path=" ++ c.path
  let maxAge := c.maxAge.getD w.maxAge
  let str := if 0 < maxAge then str ++ lit "; Max-Age=" ++ decimalInt maxAge else str
  let str := if c.secure then str ++ lit "; Secure" else str
  if c.httpOnly then str ++ lit "; HttpOnly" else str

/-! ## The response -/

structure HttpResponse where
  version : HttpVersion
  statusCode : HttpStatus
  header : HttpHeader
  body : Bytes
  contentLength : Int
  isFileBody : Bool
  filePath : Bytes

namespace HttpResponse

/-- The constructor. -/
def new (version : HttpVersion) : HttpResponse where
  version := version
  statusCode := .ok
  header := ((HttpHeader.new.add (lit "Server") (lit "HAHA_WEBSERVER")).add (lit "Date") w.date).add
    (lit "Content-Type")
    (lit "application/octet-stream")
  body := []
  contentLength := -1
  isFileBody := false
  filePath := []

def addAtrribute (r : HttpResponse) (key val : Bytes) : HttpResponse := { r with header := r.header.add key val }

def setVersion (r : HttpResponse) (version : HttpVersion) : HttpResponse := { r with version := version }

def setStatusCode (r : HttpResponse) (statusCode : HttpStatus) : HttpResponse := { r with statusCode := statusCode }

def setKeepAlive (r : HttpResponse) (on : Bool) : HttpResponse :=
  r.addAtrribute (lit "Connection") (if on then lit "Keep-Alive" else lit "Close")

def setContentType (r : HttpResponse) (contentType : HttpContentType) : Except Fault HttpResponse := do
  let name ← contentType.name
  .ok (r.addAtrribute (lit "Content-Type") name)

def setContentLength (r : HttpResponse) (contentLength : Nat) : HttpResponse :=
  { r.addAtrribute (lit "Content-Length") (decimal contentLength) with contentLength := toInt contentLength }

def setCookie (r : HttpResponse) (cookieStr : Bytes) : HttpResponse := r.addAtrribute (lit "Set-Cookie") cookieStr

def setRedirect (r : HttpResponse) (url : Bytes) : HttpResponse :=
    (r.setStatusCode .found).addAtrribute (lit "Location") url

def appendBody (r : HttpResponse) (data : Bytes) : HttpResponse := { r with body := r.body ++ data }

/-- `setBody` also empties the send buffer. -/
def setBody (r : HttpResponse) (conn : Conn D) (data : Bytes) : HttpResponse × Conn D :=
  ({ r with body := data }, { conn with sender := conn.sender.retrieveAll })

/-- `setFileBody`: the stream asks for the size of the file. -/
def setFileBody (r : HttpResponse) (conn : Conn D) (filePath : Bytes) : Except Fault (HttpResponse × Conn D) :=
  match w.file filePath with
  | none => .error .filesystemError
  | some content => .ok ({ r with body := [], isFileBody := true, filePath := filePath }, conn.setFileStream content)

def setHtmlBody (r : HttpResponse) (conn : Conn D) (filePath : Bytes) :
    Except Fault (HttpResponse × Conn D) :=
  (r.addAtrribute (lit "Content-Type") (lit "text/html; charset=utf-8")).setFileBody w conn filePath

/-! ### The destructor -/

def statusLine (r : HttpResponse) : Bytes := r.version.str ++
    (32 :: (decimal r.statusCode.code ++ (32 :: r.statusCode.str)))

/-- `if(contentLength_ == -1)` -/
def measure (r : HttpResponse) : Except Fault HttpResponse :=
  if r.contentLength = -1 then do
    let contentLength ←
      if r.isFileBody then
        match w.file r.filePath with
        | some content => .ok (toInt content.length)
        | none => .error .terminate
      else .ok (toInt r.body.length)
    .ok { r.addAtrribute (lit "Content-Length") (decimalInt contentLength) with contentLength := contentLength }
  else .ok r

/-- The loop over `header_`. -/
def appendHeaders (b : Buffer) (headers : List (Bytes × Bytes)) : Buffer :=
  headers.foldl (fun b h => b.append (h.1 ++ lit ": " ++ h.2 ++ crlf)) b

/-- `~HttpResponse` -/
def destroy (r : HttpResponse) (conn : Conn D) : Except Fault (Conn D) := do
  let sender := conn.sender.append (r.statusLine ++ crlf)
  let r ← r.measure w
  let sender := (appendHeaders sender (w.entries r.header.toHttpBaseMap)).append crlf
  .ok { conn with sender := if r.isFileBody then sender else sender.append r.body }

/-! ## What is written -/

/-- A response as it is sent, a file body apart. -/
def text (r : HttpResponse) : Bytes :=
  r.statusLine ++ crlf ++ (HttpRequest.headersText (w.entries r.header.toHttpBaseMap) ++
    (crlf ++ if r.isFileBody then [] else r.body))

theorem text_ne_nil (r : HttpResponse) : r.text w ≠ [] := by
  simp [text, crlf]

theorem measure_statusLine {r r' : HttpResponse} (h : r.measure w = .ok r') : r'.statusLine = r.statusLine := by
  unfold measure at h
  split at h
  · split at h
    · split at h <;> cases h
      rfl
    · cases h
      rfl
  · cases h
    rfl

theorem readable_appendHeaders (headers : List (Bytes × Bytes)) (b : Buffer) :
    (appendHeaders b headers).readable = b.readable ++ HttpRequest.headersText headers := by
  induction headers generalizing b with
  | nil => simp [appendHeaders, HttpRequest.headersText]
  | cons h headers ih =>
    have hsep : lit ": " = [58, 32] := by decide
    rw [appendHeaders, List.foldl_cons, ← appendHeaders, ih, Buffer.readable_append, hsep]
    simp [HttpRequest.headersText, HttpRequest.headerText]

/-- The destructor appends the text of the response to the send buffer, and does nothing else. -/
theorem destroy_ok {r : HttpResponse} {conn conn' : Conn D} (h : r.destroy w conn = .ok conn') :
    ∃ r' sender, r.measure w = .ok r' ∧ conn' = { conn with sender := sender } ∧
      sender.readable = conn.sender.readable ++ r'.text w := by
  unfold destroy at h
  cases hm : r.measure w with
  | error f => rw [hm] at h; cases h
  | ok r' =>
    rw [hm] at h
    cases h
    refine ⟨r', _, rfl, rfl, ?_⟩
    rw [text, measure_statusLine w hm]
    split <;> simp only [Buffer.readable_append, readable_appendHeaders, List.append_assoc, List.append_nil]

/-- A response nothing was set in. -/
theorem destroy_new (version : HttpVersion) (conn : Conn D) : ∃ conn', (new w version).destroy w conn = .ok conn' :=
  ⟨_, rfl⟩

end HttpResponse

end HahaWeb
