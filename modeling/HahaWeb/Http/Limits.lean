/-
  HahaWeb.Http.Limits — the limits on the request line and on the headers.

  `max_requestLine_len_` is compared with all that is in the buffer: what stands behind a
  request line changes its verdict (`parseRequestLine_tail_iff`). The limit on the headers
  is looked at between two complete header lines only: the last header passes whatever
  its size (`last_header_accepted`), and so does a line that is not complete
  (`incomplete_line_awaited`). `WithinLimit` says of the bytes of a stream that neither comes
  about: no complete request that it begins has headers over the limit, and behind header
  lines within it no line goes on for longer.

  Proved: the limit is kept in every run over a stream, however it is cut, exactly when the
  stream is such (`header_limit_iff`).
-/

import HahaWeb.Http.Acceptance

namespace HahaWeb.HttpRequest

open Resumable (Act Steps Ends Call Run Visits)

variable {D : Type}

/-! ## The request line -/

/-- The same result, and the same members set. -/
def SameVerdict (p q : Except Fault (Parsed D)) : Prop :=
  match p, q with
  | .error f, .error g => f = g
  | .ok (ret, rq, _), .ok (ret', rq', _) =>
    ret = ret' ∧ rq.method = rq'.method ∧ rq.reqUrl = rq'.reqUrl ∧ rq.version = rq'.version
  | _, _ => False

/-- What is left in the buffer when the result is OK_REQUEST. -/
def Leaves (p : Except Fault (Parsed D)) (tail : Bytes) : Prop :=
  ∀ rq b, p = .ok (.okRequest, rq, b) → b.readable = tail

theorem parseRequestLine_over (rq : HttpRequest D) {b : Buffer} (h : maxRequestLineLen < b.readable.length) :
    parseRequestLine rq b = .ok (.badRequest, rq, b) := by
  rw [b.readable_length] at h
  rw [parseRequestLine, if_pos h]

theorem parseRequestLine_within (rq : HttpRequest D) {b : Buffer} {pos : Nat}
    (h : b.readable.length ≤ maxRequestLineLen)
    (hf : find crlf b.readable = some pos) :
    parseRequestLine rq b = (parseLine rq (b.readable.take pos)).bind fun
      | (none, rq) => .ok (.badRequest, rq, b)
      | (some i, rq) => (b.retrieve i).bind fun data => .ok (.okRequest, rq, data) := by
  rw [b.readable_length] at h
  rw [parseRequestLine, if_neg (not_lt.mpr h)]
  simp only [hf]
  rfl

/-- A line with a method leaves a mark on the request, or it faults. -/
theorem parseLine_marks {rq rq' : HttpRequest D} {line : Bytes} {m : HttpMethod} {k : Nat} {o : Option Nat}
    (hm : methodOf line = some (m, k)) (h : parseLine rq line = .ok (o, rq')) : rq'.method = some m := by
  rcases Nat.lt_or_ge line.length k with hk | hk
  · rw [parseLine_short rq hm hk] at h
    cases h
  · rw [parseLine_long rq hm hk] at h
    cases hp : findFirstOf 32 (line.drop k) 0 with
    | none => simp only [hp] at h; cases h; rfl
    | some pos =>
      obtain ⟨url, hurl⟩ := HttpUrl.ofString_total ((line.drop k).take pos)
      simp only [hp, hurl, Except.map, Except.ok.injEq] at h
      split at h
      · cases h; rfl
      · split at h <;> cases h <;> rfl

theorem SameVerdict.method {rq rq' : HttpRequest D} {b b' : Buffer} {ret ret' : RetState}
    (h : SameVerdict (.ok (ret, rq, b)) (.ok (ret', rq', b'))) : rq.method = rq'.method := h.2.1

/-- The verdict on a request line of a fresh request is the same with `tail` behind it
    exactly when all of it is within the limit, or the line has no method. -/
theorem parseRequestLine_tail_iff {line tail : Bytes} {b b' : Buffer}
    (hl : find crlf (line ++ crlf) = some line.length) (hmax : (line ++ crlf).length ≤ maxRequestLineLen)
    (hb : b.readable = line ++ crlf) (hb' : b'.readable = line ++ crlf ++ tail) :
    (SameVerdict (parseRequestLine (new : HttpRequest D) b') (parseRequestLine new b) ∧
      Leaves (parseRequestLine (new : HttpRequest D) b') tail) ↔
      (line ++ crlf).length + tail.length ≤ maxRequestLineLen ∨ methodOf line = none := by
  have halone := parseRequestLine_within (new : HttpRequest D) (hb ▸ hmax) (hb ▸ hl)
  rw [hb, List.take_left] at halone
  by_cases htotal : (line ++ crlf).length + tail.length ≤ maxRequestLineLen
  · refine iff_of_true ?_ (.inl htotal)
    have htail := parseRequestLine_within (new : HttpRequest D) (b := b')
      (by rw [hb', List.length_append]; exact htotal) (hb' ▸ find_append hl tail)
    rw [hb', List.append_assoc, List.take_left] at htail
    rw [halone, htail]
    match hp : parseLine (new : HttpRequest D) line with
    | .error f => exact ⟨rfl, by intro rq c h; cases h⟩
    | .ok (none, rq') => exact ⟨⟨rfl, rfl, rfl, rfl⟩, by intro rq c h; cases h⟩
    | .ok (some i, rq') =>
      obtain ⟨rfl, -⟩ := parseLine_ok hp
      obtain ⟨c, hc, -⟩ := Buffer.retrieve_of_le (show line.length + 2 ≤ b.readable.length by rw [hb]; simp [crlf])
      obtain ⟨c', hc', hr'⟩ :=
        Buffer.retrieve_of_le (show line.length + 2 ≤ b'.readable.length by rw [hb']; simp [crlf])
      simp only [Except.bind, hc, hc']
      refine ⟨⟨rfl, rfl, rfl, rfl⟩, fun rq d h => ?_⟩
      cases h
      rw [hr', hb', List.append_assoc, List.drop_append]
      simp [crlf]
  · have hover := parseRequestLine_over (new : HttpRequest D) (b := b') (by
      rw [hb', List.length_append]; omega)
    rw [hover, halone]
    cases hm : methodOf line with
    | none =>
      rw [parseLine_none new hm]
      exact iff_of_true ⟨⟨rfl, rfl, rfl, rfl⟩, by intro rq c h; cases h⟩ (.inr rfl)
    | some mk =>
      obtain ⟨m, k⟩ := mk
      refine iff_of_false (fun h => ?_) (not_or.mpr ⟨htotal, by simp⟩)
      -- the refusal for the length sets no method
      obtain ⟨h, -⟩ := h
      match hp : parseLine (new : HttpRequest D) line with
      | .error f => rw [hp] at h; exact h
      | .ok (none, rq') =>
        rw [hp] at h
        have hmark := parseLine_marks hm hp
        rw [← h.method] at hmark
        cases hmark
      | .ok (some i, rq') =>
        rw [hp] at h
        obtain ⟨rfl, -⟩ := parseLine_ok hp
        obtain ⟨c, hc, -⟩ := Buffer.retrieve_of_le (show line.length + 2 ≤ b.readable.length by rw [hb]; simp [crlf])
        simp only [Except.bind, hc] at h
        cases h.1

theorem parseRequestLine_tail_short :
    SameVerdict (parseRequestLine (new : HttpRequest Unit) (received (lit "GET / HTTP/1.1" ++ crlf ++ lit "Host: a")))
        (parseRequestLine new (received (lit "GET / HTTP/1.1" ++ crlf))) ∧
      Leaves (parseRequestLine (new : HttpRequest Unit) (received (lit "GET / HTTP/1.1" ++ crlf ++ lit "Host: a")))
        (lit "Host: a") :=
  (parseRequestLine_tail_iff (by decide) (by decide) (readable_received _) (readable_received _)).mpr (.inl (by decide))

/-- A good request line is refused for the 2048 bytes received behind it. -/
theorem parseRequestLine_tail_long : ¬ ∀ (line tail : Bytes) (b b' : Buffer),
    find crlf (line ++ crlf) = some line.length → (line ++ crlf).length ≤ maxRequestLineLen →
    b.readable = line ++ crlf → b'.readable = line ++ crlf ++ tail →
    SameVerdict (parseRequestLine (new : HttpRequest Unit) b') (parseRequestLine new b) ∧
      Leaves (parseRequestLine (new : HttpRequest Unit) b') tail := by
  intro h
  obtain ⟨b', hb'⟩ : ∃ b' : Buffer, b'.readable = lit "GET / HTTP/1.1" ++ crlf ++ List.replicate maxRequestLineLen 97 :=
    ⟨received _, readable_received _⟩
  have hs := (h (lit "GET / HTTP/1.1") _ (received (lit "GET / HTTP/1.1" ++ crlf)) b' (by decide) (by decide)
    (readable_received _) hb').1
  rw [parseRequestLine_over _ (by rw [hb', List.length_append, List.length_replicate]; simp [crlf])] at hs
  have halone : (parseRequestLine (new : HttpRequest Unit) (received (lit "GET / HTTP/1.1" ++ crlf))).map (·.1) =
      .ok .okRequest := by decide +kernel
  rcases hp : parseRequestLine (new : HttpRequest Unit) (received (lit "GET / HTTP/1.1" ++ crlf)) with f | ⟨ret, rq, b⟩
  · rw [hp] at hs
    exact hs
  · rw [hp] at hs halone
    cases halone
    cases hs.1

/-! ## The headers -/

/-- The limit as a result of `parseRequest` shows it: no more is accepted, and no more is
    waited for. -/
def HeaderLimit (r : Except Fault (Parsed D)) : Prop :=
  (∀ rq b, r = .ok (.okRequest, rq, b) → rq.header.size ≤ maxRequestHeaderLen) ∧
    ∀ rq b, r = .ok (.againRequest, rq, b) → rq.state = .checkHeader → b.readable.length ≤ maxRequestHeaderLen

/-- Behind any header lines of the stream: if the rest of a request follows, they are within
    the limit, and if they are, no line that is not complete is longer than it. -/
def WithinLimit (env : Env D) (s : Bytes) : Prop :=
  ∀ m hd x, Head m hd s x →
    ((∃ w body, crlf ++ w <+: x ∧ Readable hd ∧ Framed (.announced hd (some m) .new) .noLen 0 [] w body ∧
      (Framing.announced hd (some m) .new).Acceptable env body) → hd.size ≤ maxRequestHeaderLen) ∧
    (hd.size ≤ maxRequestHeaderLen → ∀ p, p <+: x → find crlf p = none → p.length ≤ maxRequestHeaderLen)

theorem HeaderLines.size_le {hd hd' : HttpHeader} {text : Bytes} (h : HeaderLines hd text hd') :
    hd'.size ≤ hd.size + text.length := by
  induction h with
  | nil => exact Nat.le_refl _
  | cons _ _ _ hkv _ ih =>
    have hlen := headerLine_length hkv
    rw [HttpHeader.add_size] at ih
    simp only [List.length_append]
    omega

/-- No stream that is no longer than the limit goes beyond it. -/
theorem withinLimit_of_short (env : Env D) {s : Bytes} (hs : s.length ≤ maxRequestHeaderLen) : WithinLimit env s := by
  intro m hd x h
  obtain ⟨-, rfl, l, text, rfl, -, -, -, hh⟩ := h
  have hsize := hh.size_le
  have hnew : HttpHeader.new.size = 0 := rfl
  simp only [List.length_append] at hs
  exact ⟨fun _ => by omega, fun _ p hp _ => by
    have := hp.length_le
    omega⟩

variable (env : Env D)

/-! ### The limit is kept -/

theorem header_limit_of_within {s : Bytes} (h : WithinLimit env s) {reads : List Bytes} (hs : reads.flatten = s) :
    ∀ r ∈ calls env new .empty reads, HeaderLimit r := by
  subst hs
  intro r hr
  obtain ⟨s, x, o, t, y, hv, ⟨s', x', hst, he⟩, hret⟩ := calls_mem env reads .empty (by simp [new]) rfl r hr
  have hv' := hv s' x' hst
  cases he with
  | wait he =>
    obtain ⟨b', rfl, hb'⟩ := hret
    refine ⟨by simp, fun rq c hc hstate => ?_⟩
    cases hc
    have hs' : t.state = .checkHeader := hstate
    obtain ⟨-, ⟨rfl, rfl⟩ | ⟨hcont, hcm, -⟩⟩ := token_wait_cases env he
    · rw [List.drop_zero] at hb'
      rw [hb']
      obtain ⟨m, z, hhead⟩ := visits_head env hv' hs'
      rw [token_header env _ hs'] at he
      rcases headerToken_wait env he with rfl | ⟨hsz, hf⟩
      · exact Nat.zero_le _
      · exact (h m _ _ hhead).2 hsz _ (List.prefix_append _ _) hf
    · rw [hcm.state.trans hcont] at hs'
      cases hs'
  | @halt n v _ he =>
    cases v with
    | ok =>
      obtain ⟨b', rfl, -⟩ := hret
      refine ⟨fun rq c hc => ?_, by simp⟩
      cases hc
      have hundone : s'.state ≠ .checkDone := visits_undone env hv' undone_new
      obtain ⟨c, z, hflat, hrest⟩ := (Rest.of_ok (Wf.visits env hv' wf_new) hundone he).of_visits hv'
        settled_acceptable wf_new
      obtain ⟨m, w, body, hhead, hread, hfr, hacc⟩ := head_of_rest hrest
      have hall : reads.flatten = c ++ x'.take n ++ (x'.drop n ++ z) := by
        rw [List.append_assoc, ← List.append_assoc (x'.take n), List.take_append_drop]
        exact hflat
      exact (h m _ _ (hall ▸ hhead.append _)).1 ⟨w, body, List.prefix_append _ _, hread, hfr, hacc⟩
    | bad =>
      obtain ⟨b', rfl, -⟩ := hret
      exact ⟨by simp, by simp⟩
    | fault f =>
      simp only [Returns, Ended] at hret
      rw [hret]
      exact ⟨by simp, by simp⟩

/-! ### Reads that show it missed -/

/-- The rest of a request, read piece by piece, is accepted with the headers it has. -/
theorem limit_accepted {s : Bytes} (h : ∀ reads, reads.flatten = s → ∀ r ∈ calls env new .empty reads, HeaderLimit r)
    {hd : HttpHeader} {w z : Bytes} (hs : s = w ++ z)
    (hr : Rest (Framing.Acceptable env) (new : HttpRequest D) hd w) : hd.size ≤ maxRequestHeaderLen := by
  obtain ⟨reads, v, t, y, hflat, hrun, rfl, ht⟩ := Rest.read_on (x := []) endsCall_acceptable wf_new (token_new_nil env)
    (counted_of_lt (by simp)) hr
  obtain ⟨u, x, n, hv, hstep⟩ := hrun.halts
  obtain ⟨r, hmem, hret⟩ := visits_call env (hv.append [z]) .empty rfl undone_new rfl _ _ _ (.of_halt hstep)
  obtain ⟨b, rfl, -⟩ := hret
  have hlimit := (h (reads ++ [z]) (by simp [hflat, hs]) _ hmem).1 _ b rfl
  rwa [← ht]

theorem limit_awaited {s : Bytes} (h : ∀ reads, reads.flatten = s → ∀ r ∈ calls env new .empty reads, HeaderLimit r)
    {m : HttpMethod} {hd : HttpHeader} {x p : Bytes} (hhead : Head m hd s x) (hsize : hd.size ≤ maxRequestHeaderLen)
    (hp : p <+: x) (hf : find crlf p = none) : p.length ≤ maxRequestHeaderLen := by
  obtain ⟨c, rfl, hc⟩ := hhead
  obtain ⟨z, rfl⟩ := hp
  obtain ⟨reads, t, hflat, hrun, hst, rfl⟩ := hc.run env
  have htok : token env maxRequestLineLen t ([] ++ p) = .wait 0 t := by
    rw [List.nil_append, token_header env _ hst, headerToken_incomplete env hf hsize]
  have hv : Visits (token env maxRequestLineLen) t [] [p, z] t ([] ++ p) := .here .refl
  obtain ⟨r, hmem, hret⟩ := visits_call env (hrun.visits rfl hv) .empty rfl undone_new rfl _ _ _ (.of_wait htok)
  obtain ⟨b, rfl, hb⟩ := hret
  have hlimit := (h (reads ++ [p, z]) (by simp [hflat]) _ hmem).2 _ b rfl hst
  rw [hb] at hlimit
  simpa using hlimit

/-- The streams of which every cut keeps the limit. -/
theorem header_limit_iff (s : Bytes) :
    (∀ reads, reads.flatten = s → ∀ r ∈ calls env new .empty reads, HeaderLimit r) ↔ WithinLimit env s := by
  constructor
  · intro h m hd x hhead
    refine ⟨fun hrest => ?_, fun hsize p hp hf => limit_awaited env h hhead hsize hp hf⟩
    obtain ⟨w, body, hpre, hread, hfr, hacc⟩ := hrest
    obtain ⟨z, rfl⟩ := hpre
    obtain ⟨c, rfl, l, text, rfl, hl, hmax, ht, hh⟩ := hhead
    have hs : l ++ crlf ++ text ++ (crlf ++ w ++ z) = l ++ crlf ++ (text ++ (crlf ++ w)) ++ z := by
      simp only [List.append_assoc]
    exact limit_accepted env h hs (.line rfl hl hmax ht hh hread hfr hacc)
  · exact fun h reads hs => header_limit_of_within env h hs

/-! ### Where the limit is missed -/

/-- A request that announces no body is done at the blank line. -/
theorem call_blank_get {url : HttpUrl} {v : HttpVersion} {headers : List (Bytes × Bytes)}
    (hck : Without headers (lit "Cookie")) (hcl : Without headers (lit "Content-Length"))
    (hte : Without headers (lit "Transfer-Encoding")) : ∃ t : HttpRequest D,
      Call (token env maxRequestLineLen) (atBlank .get url v headers) crlf (some .ok) t [] ∧
        t.header = addHeaders .new headers := by
  have h1 : (addHeaders .new headers).get (lit "Cookie") = none := hck.get
  have h2 : (addHeaders .new headers).get (lit "Content-Length") = none := hcl.get
  have h3 : (addHeaders .new headers).get (lit "Transfer-Encoding") = none := hte.get
  obtain ⟨rq, hp⟩ := (parseHeaders_ok_iff env (atBlank .get url v headers)).mpr
    ⟨by simp [atBlank, h1], by simp [atBlank, h2]⟩
  have hblank : token env maxRequestLineLen (atBlank .get url v headers) (crlf ++ []) =
      .take 2 { rq with state := .checkContent } := token_blank env rfl hp []
  have hget : token env maxRequestLineLen { rq with state := .checkContent } [] =
      contentToken env { rq with state := .checkContent } [] := token_content env [] rfl
  obtain ⟨k, a, c, hc, ck, n, te, s, rfl, -⟩ := parseHeaders_ok env hp
  rw [contentToken, if_neg (by simp [atBlank, new, h3]), if_neg (by simp [atBlank, new, h2]), if_pos (.inl rfl)] at hget
  exact ⟨_, .of_take hblank (.of_halt hget), rfl⟩

/-- The last header of a request is accepted whatever its size. -/
theorem last_header_accepted {value : Bytes} (hcr : CR ∉ value) (hsp : value.head? ≠ some 32) :
    ∃ r ∈ calls env new .empty [lit "GET / HTTP/1.1\r\n", headerText (lit "A", value) ++ crlf ++ crlf],
      ∃ rq b, r = .ok (.okRequest, rq, b) ∧ rq.header.size = 1 + value.length := by
  obtain ⟨url, hget⟩ := call_get env
  have hfield : Field (lit "A", value) := ⟨show 58 ∉ lit "A" by decide, show CR ∉ lit "A" by decide, hcr, hsp⟩
  have hstep : Resumable.Took (token env maxRequestLineLen)
      (atBlank .get url .http11 [], headerText (lit "A", value) ++ crlf ++ crlf)
        (atBlank .get url .http11 [(lit "A", value)], crlf) :=
    took_header env rfl (Nat.zero_le _) hfield crlf
  obtain ⟨t, hcall, ht⟩ := call_blank_get env (v := .http11)
    (show Without [(lit "A", value)] (lit "Cookie") by simp [Without]; decide) (by simp [Without]; decide)
    (by simp [Without]; decide)
  have hall : Call (token env maxRequestLineLen) (atBlank .get url .http11 [])
      ([] ++ (headerText (lit "A", value) ++ crlf ++ crlf)) (some .ok) t [] := hcall.of_steps (.single hstep)
  obtain ⟨r, hr, hret⟩ := visits_call env (.later hget (.here .refl)) .empty rfl (by simp [new]) rfl _ _ _ hall
  obtain ⟨b', rfl, -⟩ := hret
  refine ⟨_, hr, _, b', rfl, ?_⟩
  have hsize : t.header.size = 1 + value.length := by
    rw [ht]
    simp [addHeaders, HttpHeader.new, HttpHeader.add, HttpHeader.size, lit]
  exact hsize

/-- A line that is not complete is waited for whatever has arrived of it. -/
theorem incomplete_line_awaited {line : Bytes} (hcr : CR ∉ line) :
    ∃ r ∈ calls env (new : HttpRequest D) .empty [lit "GET / HTTP/1.1\r\n", line],
      ∃ rq b, r = .ok (.againRequest, rq, b) ∧ rq.state = .checkHeader ∧ b.readable = line := by
  obtain ⟨url, hget⟩ := call_get env
  have htok : token env maxRequestLineLen (atBlank .get url .http11 []) ([] ++ line) =
      .wait 0 (atBlank .get url .http11 []) := by
    rw [token_header env _ rfl, List.nil_append, headerToken_incomplete env (find_crlf_eq_none hcr) (Nat.zero_le _)]
  obtain ⟨r, hr, hret⟩ := visits_call env (.later hget (.here .refl)) .empty rfl (by simp [new]) rfl _ _ _
    (.of_wait htok)
  obtain ⟨b', rfl, hb'⟩ := hret
  exact ⟨_, hr, _, b', rfl, rfl, hb'⟩

/-- The limit does not hold in every run: a header of 8192 bytes and its name are accepted. -/
theorem header_limit_missed : ¬ ∀ (b : Buffer) (reads : List Bytes), ∀ r ∈ calls bareEnv new b reads,
    HeaderLimit r := by
  intro h
  obtain ⟨r, hr, rq, b, rfl, hsize⟩ := last_header_accepted bareEnv
    (show CR ∉ List.replicate maxRequestHeaderLen 97 by simp [CR]) (by simp [List.head?_replicate])
  have hle := (h _ _ _ hr).1 rq b rfl
  rw [hsize, List.length_replicate] at hle
  omega

end HahaWeb.HttpRequest
