/-
  HahaWeb.Http.Servlet — `http/Servlet`: the servlets, and the dispatcher that picks one
  for a path.

  A servlet is the setters it calls, which may depend on the request, on the response it
  is given and on the world. It works on the connection through the response only, and
  does not keep the response. `setJsonBody` is `setBody` of the printed value. Proved: a
  servlet leaves of the connection everything but the file to send, and the send buffer
  as it was or empty (`dispatch_ok`).
-/

import HahaWeb.Http.HttpResponse

namespace HahaWeb

variable {D : Type} (w : World D)

/-! ## Setters -/

inductive Setter where
  | setVersion (version : HttpVersion)
  | setStatusCode (statusCode : HttpStatus)
  | setKeepAlive (on : Bool)
  | setContentType (contentType : HttpContentType)
  | setContentLength (contentLength : Nat)
  | setCookie (cookieStr : Bytes)
  | addAtrribute (key val : Bytes)
  | setRedirect (url : Bytes)
  | appendBody (data : Bytes)
  | setBody (data : Bytes)
  | setFileBody (filePath : Bytes)
  | setHtmlBody (filePath : Bytes)

namespace Setter

def run (p : HttpResponse × Conn D) : Setter → Except Fault (HttpResponse × Conn D)
  | setVersion version => .ok (p.1.setVersion version, p.2)
  | setStatusCode statusCode => .ok (p.1.setStatusCode statusCode, p.2)
  | setKeepAlive on => .ok (p.1.setKeepAlive on, p.2)
  | setContentType contentType => do .ok (← p.1.setContentType contentType, p.2)
  | setContentLength contentLength => .ok (p.1.setContentLength contentLength, p.2)
  | setCookie cookieStr => .ok (p.1.setCookie cookieStr, p.2)
  | addAtrribute key val => .ok (p.1.addAtrribute key val, p.2)
  | setRedirect url => .ok (p.1.setRedirect url, p.2)
  | appendBody data => .ok (p.1.appendBody data, p.2)
  | setBody data => .ok (p.1.setBody p.2 data)
  | setFileBody filePath => p.1.setFileBody w p.2 filePath
  | setHtmlBody filePath => p.1.setHtmlBody w p.2 filePath

def runAll (setters : List Setter) (p : HttpResponse × Conn D) : Except Fault (HttpResponse × Conn D) :=
  setters.foldlM (run w) p

end Setter

/-! ## Servlets -/

abbrev Servlet (D : Type) := World D → HttpRequest D → HttpResponse → Except Fault (List Setter)

namespace Servlet

def baseRoot : Bytes := lit "../resource"

def basePage (code : HttpStatus) (content : Bytes) : Bytes :=
  let text := decimal code.code ++ lit " " ++ code.str
  lit "<html><head><title>" ++ text ++ lit "</title></head><body><center><h1>" ++ text ++
    lit "</h1></center><hr><center>" ++ content ++ lit "</center></body></html>"

/-- `std::filesystem::path::extension`: of the last component, from its last dot on, unless
    it begins there or is `.` or `..`. -/
def extension (path : Bytes) : Bytes :=
  let filename := (path.reverse.takeWhile (· != 47)).reverse
  let ext := (filename.reverse.takeWhile (· != 46)).reverse
  if filename = lit ".." ∨ ¬ 46 ∈ filename ∨ ext.length + 1 = filename.length then [] else 46 :: ext

/-- `accpetable_exts` with `Ext2HttpContentType`. -/
def acceptable (ext : Bytes) : Option HttpContentType :=
  if ext = lit ".html" ∨ ext = lit ".htm" then some .html
  else if ext = lit ".txt" then some .plain
  else if ext = lit ".jpg" then some .jpeg
  else if ext = lit ".png" then some .png
  else none

/-- The path in the file system of the path of a URL. -/
def resource (path : Bytes) : Bytes := baseRoot ++ if path = lit "/" then lit "/index.html" else path

/-- `defaultServlet_` -/
def defaultServlet : Servlet D := fun w req resp =>
  let code := resp.statusCode
  if 400 ≤ code.code then .ok [.setContentType .html, .appendBody (basePage code (lit "HAHA"))]
  else
    let p := resource req.reqUrl.path
    if w.fileExists (cStr p) then
      match acceptable (cStr (extension p)) with
      | some contentType => .ok [.setContentType contentType, .setFileBody (cStr p)]
      | none => .ok [.setContentType .html, .appendBody (basePage code (lit "I don't know what do you really want"))]
    else .ok [.setStatusCode .notFound, .setContentType .html, .appendBody (basePage .notFound (lit "HAHA"))]

end Servlet

/-! ## The dispatcher -/

/-- `fnmatch` is the function of the C library, without flags. -/
structure ServletDispatcher (D : Type) where
  dispatcher : AList fun _ : Bytes => Servlet D
  fnmatch : Bytes → Bytes → Bool

namespace ServletDispatcher

/-- `find_match`: the servlet of the URI itself, or the first whose pattern it matches. -/
def findMatch (d : ServletDispatcher D) (uri : Bytes) : Option (Servlet D) :=
  match d.dispatcher.lookup uri with
  | some servlet => some servlet
  | none => (d.dispatcher.entries.find? fun e => d.fnmatch (cStr e.1) (cStr uri)).map (·.2)

def dispatch (d : ServletDispatcher D) (req : HttpRequest D) (p : HttpResponse × Conn D)
    (preprocess : HttpRequest D → HttpResponse → HttpResponse) (postprocess : HttpRequest D → HttpRequest D) :
    Except Fault (HttpRequest D × HttpResponse × Conn D) := do
  let resp := preprocess req p.1
  let servlet := (d.findMatch req.reqUrl.path).getD Servlet.defaultServlet
  let setters ← servlet w req resp
  let (resp, conn) ← Setter.runAll w setters (resp, p.2)
  .ok (postprocess req, resp, conn)

end ServletDispatcher

/-! ## What a servlet leaves -/

/-- A connection whose response was worked on. -/
structure Handled (conn conn' : Conn D) : Prop where
  sender : conn'.sender.readable = conn.sender.readable ∨ conn'.sender.readable = []
  rest : ∃ sender file, conn' = { conn with sender := sender, fileSender := file }

theorem Handled.refl (conn : Conn D) : Handled conn conn := ⟨.inl rfl, _, _, rfl⟩

theorem Handled.trans {a b c : Conn D} (h : Handled a b) (h' : Handled b c) : Handled a c := by
  obtain ⟨s, f, rfl⟩ := h.rest
  obtain ⟨s', f', rfl⟩ := h'.rest
  refine ⟨?_, s', f', rfl⟩
  rcases h'.sender with h' | h'
  · rw [h']
    exact h.sender
  · exact .inr h'

theorem Setter.run_handled {s : Setter} {p q : HttpResponse × Conn D} (h : s.run w p = .ok q) : Handled p.2 q.2 := by
  have hfile : ∀ (r : HttpResponse) (filePath : Bytes), r.setFileBody w p.2 filePath = .ok q → Handled p.2 q.2 := by
    intro r filePath h
    unfold HttpResponse.setFileBody at h
    split at h <;> cases h
    exact ⟨.inl rfl, _, _, rfl⟩
  cases s with
  | setBody data =>
    cases h
    exact ⟨.inr rfl, _, _, rfl⟩
  | setFileBody filePath => exact hfile _ _ h
  | setHtmlBody filePath => exact hfile _ _ h
  | setContentType contentType =>
    simp only [Setter.run, bind, Except.bind] at h
    split at h <;> cases h
    exact .refl _
  | _ =>
    cases h
    exact .refl _

theorem Setter.runAll_handled {setters : List Setter} : ∀ {p q : HttpResponse × Conn D},
    Setter.runAll w setters p = .ok q → Handled p.2 q.2 := by
  induction setters with
  | nil => intro p q h; cases h; exact .refl _
  | cons s setters ih =>
    intro p q h
    simp only [Setter.runAll, List.foldlM_cons, bind, Except.bind] at h
    cases hs : s.run w p with
    | error f => rw [hs] at h; cases h
    | ok p' =>
      rw [hs] at h
      exact (Setter.run_handled w hs).trans (ih h)

theorem ServletDispatcher.dispatch_ok {d : ServletDispatcher D} {req req' : HttpRequest D} {p : HttpResponse × Conn D}
    {pre : HttpRequest D → HttpResponse → HttpResponse} {post : HttpRequest D → HttpRequest D} {resp : HttpResponse}
    {conn : Conn D} (h : d.dispatch w req p pre post = .ok (req', resp, conn)) :
    ∃ setters, (d.findMatch req.reqUrl.path).getD Servlet.defaultServlet w req (pre req p.1) = .ok setters ∧
      Setter.runAll w setters (pre req p.1, p.2) = .ok (resp, conn) ∧ req' = post req ∧ Handled p.2 conn := by
  unfold dispatch at h
  simp only [bind, Except.bind] at h
  split at h
  · cases h
  · rename_i setters hs
    split at h
    · cases h
    · rename_i q hq
      have hh := Setter.runAll_handled w hq
      cases h
      exact ⟨setters, hs, hq, rfl, hh⟩

end HahaWeb
