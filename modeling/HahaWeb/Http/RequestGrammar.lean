/-
  HahaWeb.Http.RequestGrammar — the requests `parseRequest` takes, as a grammar.

  A request is a line, header lines, a blank line, and the content that these announce:
  chunks, as many bytes as Content-Length says, or nothing. The grammar is over bytes alone
  and keeps what the source makes of them: the byte behind the method is any byte, a header
  is stored under the name up to its colon, a size line has at most five digits, to the base
  ten. `Rest` is what may still follow a state of the parser; the predicate on the complete
  body is a parameter.

  Proved: a text is read as lines in one way only (`Head.unique`).
-/

import HahaWeb.Http.RequestHead

namespace HahaWeb.HttpRequest

variable {D : Type}

/-! ## Lines -/

/-- A line without its CRLF: it has no other. -/
def Line (l : Bytes) : Prop := find crlf (l ++ crlf) = some l.length

instance (l : Bytes) : Decidable (Line l) := inferInstanceAs (Decidable (find crlf (l ++ crlf) = some l.length))

section

variable {l l' x x' : Bytes}

theorem Line.find_append (h : Line l) (rest : Bytes) : find crlf (l ++ crlf ++ rest) = some l.length :=
  HahaWeb.find_append h rest

/-- Where a CRLF is found, a line ends. -/
theorem line_of_find {pos : Nat} (h : find crlf x = some pos) :
    (x.take pos).length = pos ∧ Line (x.take pos) ∧ x.take (pos + 2) = x.take pos ++ crlf := by
  have hle : pos + 2 ≤ x.length := find_le h
  have hlen : (x.take pos).length = pos := by
    rw [List.length_take]
    omega
  obtain ⟨hp, -, hno⟩ := find_eq_some.mp h
  have htake : x.take (pos + 2) = x.take pos ++ crlf := by
    rw [List.take_add]
    congr 1
    exact (List.prefix_iff_eq_take.mp hp).symm
  refine ⟨hlen, ?_, htake⟩
  rw [Line, ← htake, hlen]
  refine find_eq_some.mpr ⟨?_, by rw [List.length_take]; omega, fun m hm hpre => hno m hm ?_⟩
  · rw [htake, List.drop_left' hlen]
  · rw [List.drop_take] at hpre
    exact hpre.trans (List.take_prefix _ _)

/-- A text is cut behind its first line in one way. -/
theorem Line.unique (h : Line l) (h' : Line l') (heq : l ++ crlf ++ x = l' ++ crlf ++ x') : l = l' ∧ x = x' := by
  have hlen : l.length = l'.length := by
    have hf := h.find_append x
    rw [heq, h'.find_append x', Option.some.injEq] at hf
    exact hf.symm
  obtain ⟨hl, hx⟩ := List.append_inj heq (by simp only [List.length_append, hlen])
  exact ⟨List.append_cancel_right hl, hx⟩

/-- A line that is not blank does not begin with a CRLF. -/
theorem Line.not_prefix (h : Line l) (hne : l ≠ []) (rest : Bytes) : ¬ crlf <+: l ++ crlf ++ rest := by
  intro hp
  obtain ⟨-, -, hno⟩ := find_eq_some.mp (h.find_append rest)
  exact hno 0 (List.length_pos_iff.mpr hne) hp

end

/-! ## The head -/

/-- A request line with the method `m`. -/
def Taken (m : HttpMethod) (l : Bytes) : Prop :=
  ∃ (c : UInt8) (target : Bytes) (v : HttpVersion), Accepted target ∧ l = m.str ++ (c :: (target ++ (32 :: v.str)))

theorem Taken.method {m m' : HttpMethod} {l : Bytes} (h : Taken m l) (h' : Taken m' l) : m = m' := by
  obtain ⟨c, target, v, -, hl⟩ := h
  obtain ⟨c', target', v', -, hl'⟩ := h'
  exact (str_append_inj (hl.symm.trans hl')).1

/-- The lines `text` lead from the headers `hd` to others. -/
inductive HeaderLines : HttpHeader → Bytes → HttpHeader → Prop
  | nil (hd : HttpHeader) : HeaderLines hd [] hd
  | cons {hd hd' : HttpHeader} {l key value text : Bytes} : hd.size ≤ maxRequestHeaderLen → Line l → l ≠ [] →
      headerLine l = some (key, value) → HeaderLines (hd.add key value) text hd' →
      HeaderLines hd (l ++ crlf ++ text) hd'

theorem HeaderLines.snoc {hd hd' : HttpHeader} {l key value text : Bytes} (h : HeaderLines hd text hd')
    (hsize : hd'.size ≤ maxRequestHeaderLen) (hl : Line l) (hne : l ≠ []) (hkv : headerLine l = some (key, value)) :
    HeaderLines hd (text ++ (l ++ crlf)) (hd'.add key value) := by
  induction h with
  | nil hd => simpa using HeaderLines.cons hsize hl hne hkv (.nil _)
  | cons h1 h2 h3 h4 _ ih =>
    rw [List.append_assoc]
    exact .cons h1 h2 h3 h4 (ih hsize)

/-- Up to the blank line the lines are read in one way. -/
theorem HeaderLines.unique {hd hd₁ : HttpHeader} {text : Bytes} (h : HeaderLines hd text hd₁) :
    ∀ {hd₂ : HttpHeader} {text' x x' : Bytes}, HeaderLines hd text' hd₂ →
      text ++ (crlf ++ x) = text' ++ (crlf ++ x') → hd₁ = hd₂ ∧ x = x' := by
  -- a line that is not blank is not the blank line
  have hblank : ∀ {l u y z : Bytes}, Line l → l ≠ [] → crlf ++ y ≠ l ++ crlf ++ u ++ (crlf ++ z) := by
    intro l u y z hl hne heq
    refine hl.not_prefix hne (u ++ (crlf ++ z)) ?_
    rw [← List.append_assoc, ← heq]
    exact List.prefix_append _ _
  induction h with
  | nil hd =>
    intro hd₂ text' x x' h' heq
    cases h' with
    | nil => exact ⟨rfl, List.append_cancel_left heq⟩
    | cons _ hl hne _ _ => exact absurd heq (hblank hl hne)
  | @cons hd hd' l key value text _ hl hne hkv _ ih =>
    intro hd₂ text' x x' h' heq
    cases h' with
    | nil => exact absurd heq.symm (hblank hl hne)
    | cons _ hl' _ hkv' h' =>
      rw [List.append_assoc (l ++ crlf), List.append_assoc (_ ++ crlf)] at heq
      obtain ⟨rfl, hrest⟩ := hl.unique hl' heq
      rw [hkv, Option.some.injEq, Prod.mk.injEq] at hkv'
      obtain ⟨rfl, rfl⟩ := hkv'
      exact ih h' hrest

/-- Without a cookie and a Content-Length there is nothing to be read. -/
theorem readable_of_none {hd : HttpHeader} (hc : hd.get (lit "Cookie") = none)
    (hl : hd.get (lit "Content-Length") = none) : Readable hd := by
  refine ⟨fun v hv => ?_, fun v hv => ?_⟩
  · rw [hc] at hv
    cases hv
  · rw [hl] at hv
    cases hv

/-- `c` is a request line with the method `m` and header lines that leave `hd`. -/
def HeadText (m : HttpMethod) (hd : HttpHeader) (c : Bytes) : Prop :=
  ∃ l text, c = l ++ crlf ++ text ∧ Line l ∧ (l ++ crlf).length ≤ maxRequestLineLen ∧ Taken m l ∧
    HeaderLines .new text hd

/-- `s` begins so, and `x` is what stands behind. -/
def Head (m : HttpMethod) (hd : HttpHeader) (s x : Bytes) : Prop := ∃ c, s = c ++ x ∧ HeadText m hd c

theorem Head.append {m : HttpMethod} {hd : HttpHeader} {s x : Bytes} (h : Head m hd s x) (z : Bytes) :
    Head m hd (s ++ z) (x ++ z) := by
  obtain ⟨c, rfl, hc⟩ := h
  exact ⟨c, List.append_assoc _ _ _, hc⟩

/-- Headers as a client writes them are header lines. -/
theorem headerLines_headersText {headers : List (Bytes × Bytes)} (hf : ∀ h ∈ headers, Field h) : ∀ {hd : HttpHeader},
    hd.size + (headersText headers).length ≤ maxRequestHeaderLen →
      HeaderLines hd (headersText headers) (addHeaders hd headers) := by
  induction headers with
  | nil => exact fun {hd} _ => .nil hd
  | cons h headers ih =>
    intro hd hsize
    have hfield := hf h List.mem_cons_self
    have hline : Line (headerText h) := by
      have hfind := find_crlf_of_not_mem (headerText_noCR hfield) []
      rwa [List.append_nil] at hfind
    have hlen : (headersText (h :: headers)).length = h.1.length + h.2.length + 4 + (headersText headers).length := by
      simp [headersText, headerText, crlf]
      omega
    refine .cons (by omega) hline (by simp [headerText]) (headerLine_headerText hfield) (ih (fun h' hm =>
      hf h' (List.mem_cons_of_mem _ hm)) ?_)
    rw [HttpHeader.add_size]
    omega

theorem head_headersText {m : HttpMethod} {l : Bytes} {headers : List (Bytes × Bytes)} (hl : Line l)
    (hmax : (l ++ crlf).length ≤ maxRequestLineLen) (ht : Taken m l) (hf : ∀ h ∈ headers, Field h)
    (hsize : (headersText headers).length ≤ maxRequestHeaderLen) (x : Bytes) :
    Head m (addHeaders .new headers) (l ++ crlf ++ headersText headers ++ x) x :=
  ⟨_, rfl, l, _, rfl, hl, hmax, ht, headerLines_headersText hf (by simpa [HttpHeader.new, HttpHeader.size] using hsize)⟩

/-- A stream has one head. -/
theorem Head.unique {m m' : HttpMethod} {hd hd' : HttpHeader} {s x x' : Bytes} (h : Head m hd s (crlf ++ x))
    (h' : Head m' hd' s (crlf ++ x')) : m = m' ∧ hd = hd' ∧ x = x' := by
  obtain ⟨-, rfl, l, text, rfl, hl, -, ht, hh⟩ := h
  obtain ⟨-, heq, l', text', rfl, hl', -, ht', hh'⟩ := h'
  rw [List.append_assoc (l ++ crlf), List.append_assoc (l' ++ crlf)] at heq
  obtain ⟨rfl, hrest⟩ := hl.unique hl' heq
  obtain ⟨rfl, rfl⟩ := hh.unique hh' hrest
  exact ⟨ht.method ht', rfl, rfl⟩

/-! ## The content -/

/-- What decides how the content is read. -/
structure Framing where
  method : Option HttpMethod
  /-- Whether a Transfer-Encoding, if there is one, is `chunked`. -/
  transferEncoding : Option Bool
  contentLength : Option Nat
  contentType : Option HttpContentType
  multipart : HttpMultiPart

/-- As the parser has it in its members. -/
def framing (s : HttpRequest D) : Framing where
  method := s.method
  transferEncoding := if s.hasTransferEncoding then some s.chunked else none
  contentLength := if s.hasContentLength then some s.contentLength else none
  contentType := if s.hasContentType then s.contentType else none
  multipart := s.multipart

/-- As the headers announce it. -/
def Framing.announced (hd : HttpHeader) (m : Option HttpMethod) (mp : HttpMultiPart) : Framing where
  method := m
  transferEncoding := (hd.get (lit "Transfer-Encoding")).map fun v => toLowers v = lit "chunked"
  contentLength := (hd.get (lit "Content-Length")).bind fun v => (stoul v).toOption
  contentType := (hd.get (lit "Content-Type")).map fun v => contentTypeOf (toLowers v)
  multipart := mp

/-- A size line. -/
def SizeLine (l : Bytes) (n : Int) : Prop := Line l ∧ l.length ≤ chunkSizeStrLimit ∧ hexString2Int l = .ok n

/-- `text` is the rest of the chunks, `data` what it holds; `size` counts when their data is due. -/
inductive Chunks : HttpChunkedState → Int → Bytes → Bytes → Prop
  | size {l text data : Bytes} {k n : Int} : SizeLine l n → 0 < n → Chunks .noData n text data →
      Chunks .noLen k (l ++ crlf ++ text) data
  | zero {l text data : Bytes} {k : Int} : SizeLine l 0 → Chunks .done 0 text data →
      Chunks .noLen k (l ++ crlf ++ text) data
  | data {d text data : Bytes} {n : Int} : n = d.length → Chunks .noLen n text data →
      Chunks .noData n (d ++ crlf ++ text) (d ++ data)
  | blank (n : Int) : Chunks .done n crlf []

/-- With the chunks in state `st` and the body `got`, `w` is the rest of the content and
    `body` the whole body. -/
inductive Framed (f : Framing) (st : HttpChunkedState) (size : Int) (got : Bytes) : Bytes → Bytes → Prop
  | chunks {w data : Bytes} : f.transferEncoding = some true → Chunks st size w data →
      Framed f st size got w (got ++ data)
  | length {w : Bytes} : f.transferEncoding = none → f.contentLength = some (got.length + w.length) →
      Framed f st size got w (got ++ w)
  | none : f.transferEncoding = none → f.contentLength = none → f.method = some .get ∨ f.method = some .head →
      Framed f st size got [] got

/-- The text a multipart body has to end with, if it is longer. -/
def Framing.closing (f : Framing) : Bytes := lit "--" ++ f.multipart.getBoundary ++ lit "--\r\n"

def Framing.Ended (f : Framing) (body : Bytes) : Prop := body.length ≤ f.closing.length ∨ f.closing <:+ body

/-- A multipart body that goes on. -/
def Framing.Unended (f : Framing) (body : Bytes) : Prop := f.contentType = some .multipart ∧ ¬ f.Ended body

/-- A body its decoder comes to the end of. -/
def Framing.Ready (env : Env D) (f : Framing) (body : Bytes) : Prop :=
  (f.contentType = some .json → ¬ Json.Cut env.stod body) ∧
    (f.contentType = some .multipart → f.Ended body ∧ HttpMultiPart.Legible f.multipart.bd .startBody body)

theorem Framing.Ready.of_untyped {env : Env D} {f : Framing} {body : Bytes} (h : f.contentType = none) :
    f.Ready env body := by
  simp [Framing.Ready, h]

/-- There is no body, or it is ready. -/
def Framing.Acceptable (env : Env D) (f : Framing) (body : Bytes) : Prop :=
  f.transferEncoding = none ∧ f.contentLength = none ∨ f.Ready env body

/-! ## What may follow -/

/-- `w` is the rest of a request with the headers `hd`, and of its body `P` holds. -/
inductive Rest (P : Framing → Bytes → Prop) (s : HttpRequest D) : HttpHeader → Bytes → Prop
  | content {w body : Bytes} : s.state = .checkContent →
      Framed s.framing s.curChunkedState s.curChunkSize s.body w body → P s.framing body → Rest P s s.header w
  | header {hd : HttpHeader} {text w body : Bytes} : s.state = .checkHeader → HeaderLines s.header text hd →
      Readable hd → Framed (.announced hd s.method s.multipart) .noLen 0 [] w body →
      P (.announced hd s.method s.multipart) body → Rest P s hd (text ++ (crlf ++ w))
  | line {m : HttpMethod} {hd : HttpHeader} {l text w body : Bytes} : s.state = .checkRequestLine → Line l →
      (l ++ crlf).length ≤ maxRequestLineLen → Taken m l → HeaderLines s.header text hd → Readable hd →
      Framed (.announced hd (some m) s.multipart) .noLen 0 [] w body → P (.announced hd (some m) s.multipart) body →
      Rest P s hd (l ++ crlf ++ (text ++ (crlf ++ w)))

/-- The size that is kept is of no account at a size line. -/
theorem Chunks.noLen {k k' : Int} {text data : Bytes} (h : Chunks .noLen k text data) : Chunks .noLen k' text data := by
  cases h with
  | size hl hn h => exact .size hl hn h
  | zero hl h => exact .zero hl h

theorem Framed.noLen {f : Framing} {k k' : Int} {got w body : Bytes} (h : Framed f .noLen k got w body) :
    Framed f .noLen k' got w body := by
  cases h with
  | chunks hte h => exact .chunks hte h.noLen
  | length hte hcl => exact .length hte hcl
  | none hte hcl hm => exact .none hte hcl hm

/-- In the content only the content is left. -/
theorem Rest.framed {P : Framing → Bytes → Prop} {s : HttpRequest D} {hd : HttpHeader} {w : Bytes} (h : Rest P s hd w)
    (hs : s.state = .checkContent) :
    ∃ body, Framed s.framing s.curChunkedState s.curChunkSize s.body w body ∧ P s.framing body := by
  cases h with
  | content _ hf hP => exact ⟨_, hf, hP⟩
  | header hst => rw [hs] at hst; cases hst
  | line hst => rw [hs] at hst; cases hst

theorem Framed.of_chunked {f : Framing} {st : HttpChunkedState} {size : Int} {got w body : Bytes}
    (h : Framed f st size got w body) (hte : f.transferEncoding = some true) :
    ∃ data, Chunks st size w data ∧ body = got ++ data := by
  cases h with
  | chunks _ hc => exact ⟨_, hc, rfl⟩
  | length hno => rw [hte] at hno; cases hno
  | none hno => rw [hte] at hno; cases hno

theorem Framed.of_length {f : Framing} {st : HttpChunkedState} {size : Int} {got w body : Bytes} {n : Nat}
    (h : Framed f st size got w body) (hte : f.transferEncoding = Option.none) (hcl : f.contentLength = some n) :
    n = got.length + w.length ∧ body = got ++ w := by
  cases h with
  | chunks hno => rw [hte] at hno; cases hno
  | length _ hlen => exact ⟨Option.some.inj (hcl.symm.trans hlen), rfl⟩
  | none _ hno => rw [hcl] at hno; cases hno

/-- The rest of a request from the start. -/
theorem head_of_rest {P : Framing → Bytes → Prop} {hd : HttpHeader} {w : Bytes}
    (h : Rest P (new : HttpRequest D) hd w) : ∃ m y body, Head m hd w (crlf ++ y) ∧ Readable hd ∧
      Framed (.announced hd (some m) .new) .noLen 0 [] y body ∧ P (.announced hd (some m) .new) body := by
  cases h with
  | content hst => cases hst
  | header hst => cases hst
  | line _ hl hmax ht hh hread hf hP =>
    exact ⟨_, _, _, ⟨_, (List.append_assoc _ _ _).symm, _, _, rfl, hl, hmax, ht, hh⟩, hread, hf, hP⟩

end HahaWeb.HttpRequest
