/-
  HahaWeb.Http.Upload — a form with files, sent in one request.

  `parseContentType` looks at the type only: nothing hands the boundary to `multipart_`,
  so the test for the end of the body and the parser work with the empty one. With
  another boundary the first delimiter is not followed by what the empty one should be,
  and `HttpMultiPart::parse` does not come back, or it takes the delimiter for the
  closing one. Proved: a form is received exactly when the boundary is empty and its
  parts are ones the parser returns, or when it has no parts and its boundary passes for
  the closing delimiter (`upload_iff`); and the line limit is kept as long as the request
  line is not there (`Timely`).
-/

import HahaWeb.Http.MultiPartRoundTrip
import HahaWeb.Http.Rendering
import HahaWeb.Http.Segmentation

/-! ## The body, and the empty boundary -/

namespace HahaWeb.HttpMultiPart

/-- A turn that changes nothing is taken for ever. -/
theorem Turns.stuck {bd : Bytes} {u v w : Vars} (h : Turns bd u v) (hv : v.rest ≠ []) (hi : iter bd v = v)
    (h' : Turns bd u w) : w.rest ≠ [] := by
  have huniq : Relator.RightUnique fun v w : Vars => v.rest ≠ [] ∧ w = iter bd v := by
    intro a b c hx hy
    rcases hx with ⟨-, rfl⟩
    rcases hy with ⟨-, rfl⟩
    rfl
  have hstay : ∀ {w}, Turns bd v w → w = v := by
    intro w hw
    induction hw with
    | refl => rfl
    | tail _ hw ih =>
      obtain ⟨-, rfl⟩ := hw
      rw [ih, hi]
  rcases Relation.ReflTransGen.total_of_right_unique huniq h h' with hvw | hwv
  · rwa [hstay hvw]
  · intro hw
    rcases Relation.ReflTransGen.cases_head hwv with rfl | ⟨x, ⟨hne, -⟩, -⟩
    · exact hv hw
    · exact hne hw

/-- Behind the first delimiter the parser looks for a line end or for two dashes: it finds
    neither in most boundaries. -/
theorem parse_other {boundary : Bytes} (hne : boundary ≠ []) (hcr : CR ∉ boundary) (rest : Bytes) {m : HttpMultiPart} :
    new.parse (lit "--" ++ boundary ++ rest) = .ok m ↔ lit "--" <+: boundary ++ rest ∧ m = new := by
  have hcrlf : ¬ crlf <+: boundary ++ rest := by
    obtain ⟨c, w, rfl⟩ := List.exists_cons_of_ne_nil hne
    intro h
    exact hcr (by rw [(List.cons_prefix_cons.mp h).1]; exact List.mem_cons_self)
  have hrest : boundary ++ rest ≠ [] := by simp [hne]
  have hstart : Turns new.bd (new.start (lit "--" ++ boundary ++ rest))
      ⟨boundary ++ rest, [], [], [], [], false, .startBoundary, .new, .new⟩ := by
    rw [List.append_assoc]
    exact .single ⟨by simp [start, lit], (iter_startBody _ _).symm⟩
  by_cases hd : lit "--" <+: boundary ++ rest
  · obtain ⟨w, hw⟩ := id hd
    have hclose : iter [] ⟨[] ++ (lit "--" ++ w), [], [], [], [], false, .startBoundary, .new, .new⟩ =
        ⟨w, [], [], [], [], false, .endBody, .new, .new⟩ := iter_closeBoundary [] w
    rw [List.nil_append, hw] at hclose
    have hok : new.parse (lit "--" ++ boundary ++ rest) = .ok new :=
      (parse_ok_iff ..).mpr ⟨_, hstart.trans (.head ⟨hrest, hclose.symm⟩ (turns_endBody w)), rfl, rfl⟩
    rw [hok, Except.ok.injEq]
    exact ⟨fun h => ⟨hd, h.symm⟩, fun h => h.2.symm⟩
  · have hi : iter new.bd ⟨boundary ++ rest, [], [], [], [], false, .startBoundary, .new, .new⟩ =
        ⟨boundary ++ rest, [], [], [], [], false, .startBoundary, .new, .new⟩ := by
      simp only [iter, new, strncmpEq, List.length_nil, strncmpBy, if_true, List.drop_zero, hcrlf, hd, if_false]
    refine iff_of_false ?_ fun h => hd h.1
    rw [parse_ok_iff]
    intro hx
    rcases hx with ⟨w, hw, hnil, -⟩
    exact Turns.stuck hstart hrest hi hw hnil

/-- What the end of a body is compared with, as the boundary is never set. -/
def ending : Bytes := lit "--" ++ (new.getBoundary ++ lit "--\r\n")

theorem ending_suffix (boundary : Bytes) (items : List Item) :
    ending <:+ render boundary items ↔ boundary = [] ∨ boundary = [45] ∨ lit "--" <:+ boundary := by
  have hrender : render boundary items =
      (items.flatMap (Item.text boundary) ++ (lit "--" ++ boundary)) ++ lit "--\r\n" := by
    simp only [render, List.append_assoc]
  have hend : ending = lit "--" ++ lit "--\r\n" := rfl
  have hlast : ∀ (u : Bytes) (c d : UInt8), lit "--" <:+ u ++ [c, d] ↔ c = 45 ∧ d = 45 := by
    intro u c d
    have h : [] ++ [45, 45] <:+ u ++ [c, d] ↔ [] <:+ u ∧ [45, 45] = [c, d] := List.suffix_append_inj_of_length_eq rfl
    simpa [lit, eq_comm] using h
  rw [hrender, hend, List.suffix_append_self_iff]
  generalize items.flatMap (Item.text boundary) = u
  rcases List.eq_nil_or_concat boundary with rfl | ⟨w, d, rfl⟩
  · simp
  · rcases List.eq_nil_or_concat w with rfl | ⟨w, c, rfl⟩
    · have h := hlast (u ++ [45]) 45 d
      simp only [List.append_assoc, List.cons_append, List.nil_append] at h
      have hshort : ¬ [45, 45] <:+ [d] := fun h => by simpa using h.length_le
      simpa [lit, hshort] using h
    · have h := hlast (u ++ (lit "--" ++ w)) c d
      rw [List.append_assoc, List.append_assoc] at h
      have hlong : w ++ [c, d] ≠ [45] := fun h => by simpa using congrArg List.length h
      simp [h, hlast, hlong]

/-- A form that is received. -/
def Uploadable (boundary : Bytes) (items : List Item) : Prop :=
  (boundary = [] ∧ ∀ it ∈ items, ∃ name data, it = .field name data ∧ name.getLast? ≠ some 61) ∨
    (items = [] ∧ (boundary = [45] ∨ (lit "--" <+: boundary ∧ lit "--" <:+ boundary)))

/-- The test for the end of the body lets a body pass if it ends so. -/
theorem ending_passes (boundary : Bytes) (items : List Item) :
    (ending.length < (render boundary items).length ∧ ¬ ending <:+ render boundary items) ↔
    ¬ ending <:+ render boundary items := by
  refine ⟨And.right, fun h => ⟨?_, h⟩⟩
  have hb : boundary ≠ [] := fun hb => h ((ending_suffix boundary items).mpr (.inl hb))
  have hlen : ending.length = 6 := rfl
  have hpos := List.length_pos_iff.mpr hb
  simp only [render, lit, List.length_append, hlen]
  simp
  omega

/-- An object nothing was parsed into returns only the empty form. -/
theorem returned_new {items : List Item} : Returned new items ↔ items = [] := by
  constructor
  · intro h
    refine List.eq_nil_iff_forall_not_mem.mpr fun it hit => ?_
    obtain ⟨name, data, rfl⟩ := h.fields it hit
    obtain ⟨data', hlast⟩ := exists_last (mem_fields.mpr hit : (name, data) ∈ fields items)
    cases h.value name data' hlast
  · intro hx
    subst hx
    exact ⟨by simp [fields], by simp [filesOf]⟩

/-- What the parser, with the empty boundary, makes of a body that ends as it should, is the
    form that was sent. -/
theorem received_iff {boundary : Bytes} {items : List Item} (hcr : CR ∉ boundary) (hq : ∀ it ∈ items, it.Quotable)
    (hd : ∀ it ∈ items, ¬ crlf ++ (lit "--" ++ boundary) <:+: it.data) :
    (ending <:+ render boundary items ∧ ∃ m, new.parse (render boundary items) = .ok m ∧ Returned m items) ↔
      Uploadable boundary items := by
  rw [ending_suffix]
  by_cases hb : boundary = []
  · subst hb
    have hparse : new.parse (render [] items) = .ok (items.foldl Item.addTo new) :=
      parse_render hq fun it hit => delimits_of_not_infix (by decide) (by decide) (hd it hit)
    simp only [hparse, Except.ok.injEq, exists_eq_left', returned_iff (m := new) rfl, Uploadable, true_or, true_and]
    refine ⟨.inl, ?_⟩
    intro hx
    rcases hx with h | ⟨-, h | ⟨h, -⟩⟩
    · exact h
    · cases h
    · simp [lit] at h
  · obtain ⟨rest, -, hrender⟩ := render_eq boundary items
    have hnew : (∃ m, (lit "--" <+: boundary ++ rest ∧ m = new) ∧ Returned m items) ↔
        lit "--" <+: boundary ++ rest ∧ items = [] := by
      constructor
      · intro hx
        rcases hx with ⟨m, ⟨h, rfl⟩, hret⟩
        exact ⟨h, returned_new.mp hret⟩
      · intro hx
        rcases hx with ⟨h, hitems⟩
        exact ⟨new, ⟨h, rfl⟩, returned_new.mpr hitems⟩
    simp only [hrender, parse_other hb hcr, hnew, hb, Uploadable, false_or, false_and]
    -- without parts the closing delimiter is what follows
    have hclose : items = [] → rest = lit "--\r\n" := by
      intro hx
      subst hx
      exact (List.append_cancel_left (show lit "--" ++ boundary ++ lit "--\r\n" = _ from hrender)).symm
    constructor
    · intro hx
      rcases hx with ⟨hend, hstart, hitems⟩
      refine ⟨hitems, hend.imp_right fun h => ⟨?_, h⟩⟩
      exact (prefix_append_iff h.length_le rest).mp hstart
    · intro hx
      rcases hx with ⟨hitems, rfl | ⟨hstart, hend⟩⟩
      · rw [hclose hitems]
        exact ⟨.inl rfl, ⟨lit "-\r\n", rfl⟩, hitems⟩
      · exact ⟨.inr hend, hstart.trans (List.prefix_append _ _), hitems⟩

end HahaWeb.HttpMultiPart

/-! ## The request line, in reads -/

namespace HahaWeb.HttpRequest

open HttpMultiPart (Item Returned Uploadable ending)
open Resumable (Act Steps Ends Call Run)

variable {D : Type} (env : Env D)

/-- Until the request line is there (`n` bytes, of which `got` have been received), the
    reads bring no more than `maxRequestLineLen` bytes. -/
def Timely (n : Nat) : Nat → List Bytes → Prop
  | _, [] => True
  | got, r :: rs => (got < n → got + r.length ≤ maxRequestLineLen) ∧ Timely n (got + r.length) rs

theorem timely_of_le {n : Nat} {reads : List Bytes} : ∀ {got : Nat}, n ≤ got → Timely n got reads := by
  induction reads with
  | nil => intro got _; trivial
  | cons r rs ih => intro got h; exact ⟨fun hlt => by omega, ih (by omega)⟩

/-- A part of the request line is waited with. -/
theorem line_waits {m : HttpMethod} {target : Bytes} {v : HttpVersion} (hcr : CR ∉ target) {x z : Bytes}
    (hx : x ++ z = requestLine m target v ++ crlf) (hz : z ≠ []) (hmax : x.length ≤ maxRequestLineLen) :
    token env maxRequestLineLen (new : HttpRequest D) x = .wait 0 new := by
  have hfind : find crlf x = none := by
    by_contra hne
    obtain ⟨pos, hpos⟩ := Option.ne_none_iff_exists'.mp hne
    have h1 := find_crlf_of_not_mem (requestLine_noCR (m := m) (v := v) hcr) []
    rw [List.append_nil, ← hx, find_append hpos] at h1
    have hle := find_le hpos
    have hlen := congrArg List.length hx
    have hzpos := List.length_pos_iff.mpr hz
    simp only [crlf, List.length_append, List.length_cons, List.length_nil, Option.some.injEq] at *
    omega
  have hstart : badStart x = false := by
    cases x with
    | nil => rfl
    | cons c x =>
      have hc : c = (m.str.head?).getD 0 := by
        have := congrArg List.head? hx
        cases m <;> simpa [requestLine, HttpMethod.str, lit] using this
      cases m <;> simp [badStart, hc, HttpMethod.str, lit]
  rw [token_line env _ rfl, lineToken, if_neg (not_lt.mpr hmax), hfind]
  simp only [hstart, Bool.false_eq_true, if_false]

/-- When the request line comes in time, the reads behind it are those of a request that has it. -/
theorem line_run {m : HttpMethod} {target : Bytes} {url : HttpUrl} {v : HttpVersion} (ht : Target target url)
    {rest : Bytes} :
    ∀ {reads : List Bytes} {x : Bytes}, x ++ reads.flatten = requestLine m target v ++ crlf ++ rest →
      x.length < (requestLine m target v ++ crlf).length →
      Timely (requestLine m target v ++ crlf).length x.length reads →
      ∃ reads', reads'.flatten = rest ∧ ∀ o t y, Run (token env maxRequestLineLen)
      (atBlank m url v [] : HttpRequest D) [] reads' o t y →
        Run (token env maxRequestLineLen) new x reads o t y := by
  intro reads
  induction reads with
  | nil =>
    intro x hx hlen _
    have := congrArg List.length hx
    simp only [List.flatten_nil, List.length_append, List.length_nil] at this hlen
    omega
  | cons r rs ih =>
    intro x hx hlen htime
    rw [List.flatten_cons, ← List.append_assoc] at hx
    have hxr : (x ++ r).length = x.length + r.length := List.length_append
    have hmax : (x ++ r).length ≤ maxRequestLineLen := hxr ▸ htime.1 hlen
    rcases Nat.lt_or_ge (x ++ r).length (requestLine m target v ++ crlf).length with hlt | hge
    · obtain ⟨z, hz⟩ := List.prefix_of_prefix_length_le (List.prefix_append _ _) (hx ▸ List.prefix_append _ rest) hlt.le
      have hne : z ≠ [] := by
        intro hx
        subst hx
        rw [← hz, List.append_nil] at hlt
        omega
      have hwait := line_waits env (D := D) ht.noCR hz hne hmax
      obtain ⟨reads', hflat, hrun⟩ := ih hx hlt (hxr ▸ htime.2)
      exact ⟨reads', hflat, fun o t y h => .wait (.of_wait hwait) (hrun o t y h)⟩
    · obtain ⟨r', hr'⟩ := List.prefix_of_prefix_length_le (hx ▸ List.prefix_append _ rest) (List.prefix_append _ _) hge
      rw [← hr', List.append_assoc, List.append_cancel_left_eq] at hx
      have hst := @steps_atBlank D env _ m _ _ v [] r' ht (by simp)
        (by simp [headersText]) (by simpa [headersText, hr'] using hmax)
      simp only [headersText, List.flatMap_nil, List.nil_append, hr'] at hst
      exact ⟨r' :: rs, by simpa using hx, fun o t y h => .of_steps hst h⟩

/-- When it does not, the request is refused. -/
theorem line_late {m : HttpMethod} {target : Bytes} {v : HttpVersion} (hcr : CR ∉ target) {rest : Bytes} :
    ∀ {reads : List Bytes} {x : Bytes}, x ++ reads.flatten = requestLine m target v ++ crlf ++ rest →
      x.length < (requestLine m target v ++ crlf).length →
      ¬ Timely (requestLine m target v ++ crlf).length x.length reads →
      ∃ t y, Run (token env maxRequestLineLen) (new : HttpRequest D) x reads (some .bad) t y := by
  intro reads
  induction reads with
  | nil => intro x _ _ h; exact absurd trivial h
  | cons r rs ih =>
    intro x hx hlen htime
    rw [List.flatten_cons, ← List.append_assoc] at hx
    rcases Nat.lt_or_ge maxRequestLineLen (x ++ r).length with hmax | hmax
    · have htok : token env maxRequestLineLen (new : HttpRequest D) (x ++ r) = .halt 0 .bad new := by
        rw [token_line env _ rfl, lineToken, if_pos hmax]
      exact ⟨_, _, .halt (.of_halt htok)⟩
    · have htime' : ¬ Timely (requestLine m target v ++ crlf).length (x ++ r).length rs := by
        have hxr : (x ++ r).length = x.length + r.length := List.length_append
        rw [hxr] at hmax ⊢
        exact fun h => htime ⟨fun _ => hmax, h⟩
      have hlt : (x ++ r).length < (requestLine m target v ++ crlf).length := by
        by_contra hge
        exact htime' (timely_of_le (not_lt.mp hge))
      obtain ⟨z, hz⟩ := List.prefix_of_prefix_length_le (List.prefix_append _ _) (hx ▸ List.prefix_append _ rest) hlt.le
      have hne : z ≠ [] := by
        intro hx
        subst hx
        rw [← hz, List.append_nil] at hlt
        omega
      obtain ⟨t, y, hrun⟩ := ih hx hlt htime'
      exact ⟨t, y, .wait (.of_wait (line_waits env hcr hz hne hmax)) hrun⟩

/-! ## The headers and the body, in reads -/

theorem steps_header_le {lineMax : Nat} {p q : HttpRequest D × Bytes} (h : Steps (token env lineMax) p q) :
    p.1.header.size ≤ q.1.header.size := by
  induction h with
  | refl => exact Nat.le_refl _
  | tail _ hq ih =>
    obtain ⟨n, hn, -⟩ := hq
    refine ih.trans ?_
    rcases token_take_cases env hn with ⟨-, pos, rq', -, -, hp, ht⟩ | ⟨-, -, -, rq', hp, ht⟩ |
      ⟨-, pos, key, value, -, -, -, -, -, ht⟩ | ⟨-, -, -, hc⟩
    · obtain ⟨-, m, url, v, rfl⟩ := parseLine_ok hp
      rw [ht]
    · obtain ⟨k, a, c, hc, ck, n, te, s, rfl, -⟩ := parseHeaders_ok env hp
      rw [ht]
    · rw [ht]
      simp only [HttpHeader.add_size]
      omega
    · obtain ⟨body, st, size, ht⟩ := chunkToken_take hc
      rw [ht]

/-- In the content the coding is settled. -/
theorem steps_content {lineMax : Nat} {p q : HttpRequest D × Bytes} (h : Steps (token env lineMax) p q)
    (hp : p.1.state = .checkContent) :
    q.1.state = .checkContent ∧ q.1.hasTransferEncoding = p.1.hasTransferEncoding := by
  induction h with
  | refl => exact ⟨hp, rfl⟩
  | tail _ hq ih =>
    obtain ⟨ih1, ih2⟩ := ih
    obtain ⟨n, hn, -⟩ := hq
    rcases token_take_cases env hn with ⟨hs, -⟩ | ⟨hs, -⟩ | ⟨hs, -⟩ | ⟨-, -, -, hc⟩
    · simp [ih1] at hs
    · simp [ih1] at hs
    · simp [ih1] at hs
    · obtain ⟨body, st, size, ht⟩ := chunkToken_take hc
      rw [ht]
      exact ⟨ih1, ih2⟩

/-- What decoding the body makes of a call, or a run, that has come to it. -/
def Decoded (p : Except Fault (Option (HttpRequest D))) (o : Option Verdict) (t : HttpRequest D) : Prop :=
  match p with
  | .error f => o = some (.fault f)
  | .ok none => o = none
  | .ok (some rq) => o = some .ok ∧ t = { rq with state := .checkDone }

theorem bodyToken_decoded {lineMax n : Nat} {s rq : HttpRequest D} {x : Bytes}
    (h : token env lineMax s x = bodyToken env n rq) :
    ∃ o t, Ends (token env lineMax) s x o t (x.drop n) ∧ (o = none → t = rq) ∧ Decoded (parseBody env rq) o t := by
  unfold bodyToken at h
  match hp : parseBody env rq with
  | .error f => rw [hp] at h; exact ⟨_, _, .halt h, by simp, rfl⟩
  | .ok none => rw [hp] at h; exact ⟨_, _, .wait h, fun _ => rfl, rfl⟩
  | .ok (some rq') => rw [hp] at h; exact ⟨_, _, .halt h, by simp, rfl, rfl⟩

/-- Behind the request line, headers and a body of the length they give are read alike
    however they are cut. -/
theorem content_run {m : HttpMethod} {url : HttpUrl} {v : HttpVersion} {headers : List (Bytes × Bytes)} {body : Bytes}
    (hf : ∀ h ∈ headers, Field h) (hck : Without headers (lit "Cookie"))
    (hte : Without headers (lit "Transfer-Encoding"))
    (hcl : valuesOf headers (lit "Content-Length") = [decimal body.length])
    (hsize : (headersText headers).length ≤ maxRequestHeaderLen) (hbody : body.length < 2 ^ 64) {reads : List Bytes}
    (hreads : reads.flatten = headersText headers ++ (crlf ++ body)) :
    ∃ s : HttpRequest D, s.body = body ∧ s.multipart = .new ∧
      s.hasContentType = ((addHeaders .new headers).get (lit "Content-Type")).isSome ∧
      s.contentType = ((addHeaders .new headers).get (lit "Content-Type")).map (fun v => contentTypeOf (toLowers v)) ∧
      ∃ o t, Run (token env maxRequestLineLen) (atBlank m url v []) [] reads o t [] ∧ Decoded
      (parseBody env s) o t := by
  obtain ⟨s, hblank, h0, -, -, -, h4, h5, h5', h6, h7, h8, h9, h10⟩ :=
    token_atBlank env (D := D) m url v hck hte hcl hbody maxRequestLineLen body
  have hst : Steps (token env maxRequestLineLen) (atBlank m url v [], headersText headers ++ (crlf ++ body))
    (s, body) :=
    (steps_headers env rfl (crlf ++ body) hf
      (by simpa [atBlank, addHeaders, HttpHeader.new, HttpHeader.size] using hsize)).trans
      (Resumable.Steps.of_take hblank)
  have htok : token env maxRequestLineLen s (body ++ []) = bodyToken env body.length { s with body := body } :=
    token_body env h0 h6 h7 h5 h8 hbody []
  rw [List.append_nil] at htok
  obtain ⟨o, t, hend, ht, hdec⟩ := bodyToken_decoded env htok
  rw [List.drop_length] at hend
  have hfits : Fits env maxRequestLineLen (atBlank m url v [] : HttpRequest D)
    (headersText headers ++ (crlf ++ body)) := by
    refine ⟨⟨⟨by simp [atBlank],
      fun _ => ⟨rfl, rfl, rfl, rfl, rfl, rfl, rfl⟩, by simp [atBlank], by simp [atBlank, new]⟩,
      by simp [atBlank], fun u w hu _ => ?_, fun u w hu hs hu' => ?_⟩, fun u w hc _ => ?_⟩
    · have h1 := steps_header_le env (hend.steps_to hst hu)
      have h2 := addHeaders_size headers .new
      simp only [h4, HttpHeader.new, HttpHeader.size] at h1 h2 ⊢
      omega
    · have h1 := (steps_content env (hend.steps_to hst hu) hs).2
      simp only [h6, hu', reduceCtorEq] at h1
    · obtain ⟨ho, rfl, rfl⟩ := hc.unique ⟨s, body, hst, hend⟩
      rw [ht ho.symm]
      exact ⟨rfl, by simp [h6]⟩
  obtain ⟨o', t', y', hrun, -⟩ := receive_run env reads .empty
    (show (atBlank m url v [] : HttpRequest D).state ≠ .checkDone by simp [atBlank]) rfl
  rw [Buffer.readable_empty] at hrun
  have hcall := hrun.call token_stable rfl (by rwa [List.nil_append, hreads])
  rw [List.nil_append, hreads] at hcall
  obtain ⟨rfl, rfl, rfl⟩ := hcall.unique ⟨s, body, hst, hend⟩
  exact ⟨{ s with body := body }, rfl, h5', by rw [h9, h4], by rw [h10, h4], _, _, hrun, hdec⟩

/-! ## The whole upload -/

/-- The Content-Type of a form. -/
def formData (boundary : Bytes) : Bytes := lit "multipart/form-data; boundary=" ++ boundary

theorem contentTypeOf_formData (boundary : Bytes) : contentTypeOf (toLowers (formData boundary)) = .multipart := by
  have h : toLowers (formData boundary) = lit "multipart/form-data; boundary=" ++ toLowers boundary := by
    rw [formData, toLowers, List.map_append]
    rfl
  have htake : (lit "multipart/form-data; boundary=" ++ toLowers boundary).take 19 = lit "multipart/form-data" := rfl
  rw [contentTypeOf, h, if_neg (fun h => by cases (List.cons.inj h).1), if_pos htake]

/-- A body that ends as it should is parsed, with the boundary never set. -/
theorem parseBody_form {boundary : Bytes} {items : List Item} {s : HttpRequest D} (h1 : s.hasContentType = true)
    (h2 : s.contentType = some .multipart) (h3 : s.multipart = .new)
    (h4 : s.body = HttpMultiPart.render boundary items) :
    (∃ rq, parseBody env s = .ok (some rq) ∧ Returned rq.multipart items) ↔
      ending <:+ HttpMultiPart.render boundary items ∧
        ∃ m, HttpMultiPart.new.parse (HttpMultiPart.render boundary items) = .ok m ∧ Returned m items := by
  have hend : endOfBody s = ending := by rw [endOfBody, h3, List.append_assoc]; rfl
  rw [parseBody_multipart env h1 h2, hend, h3, h4]
  simp only [HttpMultiPart.ending_passes]
  by_cases he : ending <:+ HttpMultiPart.render boundary items
  · rw [if_neg (not_not.mpr he)]
    simp only [he, true_and]
    cases HttpMultiPart.new.parse (HttpMultiPart.render boundary items) with
    | error f => simp [Except.map]
    | ok m => simp [Except.map]
  · rw [if_pos he]
    simp [he]

/-- A form sent in one request is received with all its parts exactly when its request line
    is received in time and its boundary and parts are ones the parser can do with. -/
theorem upload_iff {target : Bytes} {url : HttpUrl} {v : HttpVersion} {headers : List (Bytes × Bytes)}
    {boundary : Bytes}
    {items : List Item} {reads : List Bytes} (ht : Target target url) (hf : ∀ h ∈ headers, Field h)
    (hck : Without headers (lit "Cookie")) (hte : Without headers (lit "Transfer-Encoding"))
    (hct : valuesOf headers (lit "Content-Type") = [formData boundary])
    (hcl : valuesOf headers (lit "Content-Length") = [decimal (HttpMultiPart.render boundary items).length])
    (hsize : (headersText headers).length ≤ maxRequestHeaderLen)
    (hbody : (HttpMultiPart.render boundary items).length < 2 ^ 64) (hq : ∀ it ∈ items, it.Quotable)
    (hd : ∀ it ∈ items, ¬ crlf ++ (lit "--" ++ boundary) <:+: it.data)
    (hreads : reads.flatten = render .post target v headers (HttpMultiPart.render boundary items)) :
    (∃ rq b rs, receive env (new : HttpRequest D) .empty reads = .ok (.okRequest, rq, b, rs) ∧
      Returned rq.multipart items) ↔
      Timely (requestLine .post target v ++ crlf).length 0 reads ∧ Uploadable boundary items := by
  have hcr : CR ∉ boundary := by
    have hmem : formData boundary ∈ valuesOf headers (lit "Content-Type") := by rw [hct]; exact List.mem_cons_self
    obtain ⟨h, hh, he⟩ := List.mem_map.mp hmem
    have hno := (hf h (List.mem_filter.mp hh).1).valueNoCR
    rw [he, formData, List.mem_append] at hno
    exact fun h => hno (.inr h)
  obtain ⟨o, t, y, hrun, hrec⟩ := receive_run env reads .empty undone_new rfl
  rw [Buffer.readable_empty] at hrun
  have hpos : ([] : Bytes).length < (requestLine .post target v ++ crlf).length := by simp [crlf]
  by_cases htime : Timely (requestLine .post target v ++ crlf).length 0 reads
  · rw [and_iff_right htime, ← HttpMultiPart.received_iff hcr hq hd]
    obtain ⟨reads', hflat, hline⟩ := line_run env (D := D) ht (x := []) hreads hpos htime
    obtain ⟨s, h1, h2, h3, h4, o', t', hcont, hdec⟩ := content_run env (D := D) (m := .post) (v := v) hf hck hte hcl
      hsize hbody hflat
    obtain ⟨rfl, rfl, rfl⟩ := hrun.det (hline _ _ _ hcont)
    rw [get_addHeaders, hct] at h3 h4
    rw [← parseBody_form env h3 (by rw [h4]; exact congrArg some (contentTypeOf_formData boundary)) h2 h1]
    unfold Decoded at hdec
    rcases hp : parseBody env s with f | (_ | rq)
    · simp only [hp] at hdec
      subst hdec
      simp only [Received] at hrec
      simp [hrec]
    · simp only [hp] at hdec
      subst hdec
      obtain ⟨b, hb, -⟩ := hrec
      simp [hb]
    · simp only [hp] at hdec
      obtain ⟨rfl, rfl⟩ := hdec
      obtain ⟨b, rs, hb, -⟩ := hrec
      simp [hb]
  · refine iff_of_false ?_ fun h => htime h.1
    obtain ⟨t', y', hlate⟩ := line_late env (D := D) ht.noCR (x := []) hreads hpos htime
    obtain ⟨rfl, rfl, rfl⟩ := hrun.det hlate
    obtain ⟨b, rs, hb, -⟩ := hrec
    simp [hb]

/-- The headers of a form, as a client sends them. -/
def formHeaders (boundary : Bytes) (items : List Item) : List (Bytes × Bytes) :=
  [(lit "Content-Type", formData boundary),
    (lit "Content-Length", decimal (HttpMultiPart.render boundary items).length)]

def formRequest (boundary : Bytes) (items : List Item) : Bytes :=
  render .post (lit "/") .http11 (formHeaders boundary items) (HttpMultiPart.render boundary items)

/-- With the empty boundary a form with one field is received, in two reads. -/
theorem upload_field : ∃ (rq : HttpRequest Unit) (b : Buffer) (rs : List Bytes),
    receive bareEnv new .empty [(formRequest [] [.field (lit "k") (lit "1")]).take 20,
      (formRequest [] [.field (lit "k") (lit "1")]).drop 20] = .ok (.okRequest, rq, b, rs) ∧
      Returned rq.multipart [.field (lit "k") (lit "1")] :=
  (@upload_iff _ bareEnv (lit "/") _ .http11 (formHeaders [] [.field (lit "k") (lit "1")]) _ _ _
    ⟨by decide, by decide, by rfl, rfl⟩ (by
      intro h hh
      simp only [formHeaders, List.mem_cons, List.not_mem_nil, or_false] at hh
      rcases hh with rfl | rfl <;> exact ⟨by decide +kernel, by decide +kernel, by decide +kernel, by decide +kernel⟩)
    (by unfold Without; decide +kernel) (by unfold Without; decide +kernel) (by decide +kernel) (by decide +kernel)
    (by decide +kernel) (by decide +kernel) (by simp only [List.mem_singleton, forall_eq]; exact ⟨by decide, by decide⟩)
    (by simp only [List.mem_singleton, forall_eq]; decide) (by simp [formRequest])).mpr
    ⟨by simp only [Timely]; decide +kernel,
      .inl ⟨rfl, by simp only [List.mem_singleton, forall_eq]; exact ⟨_, _, rfl, by decide⟩⟩⟩

/-- Any other boundary, and the server waits for an end that does not come. -/
theorem upload_boundary : ¬ ∀ (boundary : Bytes) (items : List Item), CR ∉ boundary → (∀ it ∈ items, it.Quotable) →
    (∀ it ∈ items, ¬ crlf ++ (lit "--" ++ boundary) <:+: it.data) → ∃ (rq : HttpRequest Unit) (b : Buffer)
    (rs : List Bytes),
      receive bareEnv new .empty [formRequest boundary items] = .ok (.okRequest, rq, b, rs) ∧
      Returned rq.multipart items := by
  intro h
  obtain ⟨rq, b, rs, hr, -⟩ := h (lit "b") [.field (lit "k") (lit "1")] (by decide)
    (by simp only [List.mem_singleton, forall_eq]; exact ⟨by decide, by decide⟩)
    (by simp only [List.mem_singleton, forall_eq]; decide)
  have hagain : (receive bareEnv (new : HttpRequest Unit) .empty
    [formRequest (lit "b") [.field (lit "k") (lit "1")]]).map
      (·.1) = .ok .againRequest := by decide +kernel
  rw [hr] at hagain
  cases hagain

end HahaWeb.HttpRequest
