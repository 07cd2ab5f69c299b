/-
  HahaWeb.Http.Segmentation — whether the parser sees how its input was cut.

  `Within lineMax s z`: in state `s`, with the input `z` still to come, no limit on sizes
  comes into play, nor the cast of one in the chunks. Then more input changes no token but a
  wait (`token_more`), so the reader is steady. `Fits` adds that the input does not stop at a
  multipart body that ends otherwise than it should: then it is stable, and two runs over the
  same bytes end alike.

  Such a body is where cuts differ. Behind chunks with a body that goes on the parser waits
  with the last CRLF consumed, and takes a further one, or refuses what is not one, which a
  longer read would not have looked at. `Reopened s` says so of the bytes of a stream.

  Proved: all cuts of a stream of at most 2048 bytes agree exactly when it is not of that
  kind (`receive_agree_iff`).
-/

import HahaWeb.Http.Acceptance
import HahaWeb.Http.Chunked

namespace HahaWeb.HttpRequest

open Resumable (Act Steps Ends Call Run Visits Steady Stable)

variable {D : Type} (env : Env D) (lineMax : Nat)

/-- No limit comes into play. -/
structure Within (s : HttpRequest D) (z : Bytes) : Prop where
  wf : Wf s
  line : s.state = .checkRequestLine → z.length ≤ lineMax
  header : ∀ t y, Steps (token env lineMax) (s, z) (t, y) → t.state = .checkHeader →
    t.header.size ≤ maxRequestHeaderLen
  chunk : ∀ t y, Steps (token env lineMax) (s, z) (t, y) → t.state = .checkContent → t.hasTransferEncoding = true →
    y.length < 2 ^ 31

/-- Nor does the input go on behind a body that is not ended. -/
structure Fits (s : HttpRequest D) (z : Bytes) : Prop extends Within env lineMax s z where
  last : ∀ t y, Call (token env lineMax) s z none t y → parseBody env t = .ok none → y = [] ∧ ¬ t.hasTransferEncoding

variable {env lineMax}

/-! ## More input -/

theorem methodOf_badStart {v : Bytes} (h : badStart v = true) (pos : Nat) : methodOf (v.take pos) = none := by
  cases hm : methodOf (v.take pos) with
  | none => rfl
  | some mk =>
    obtain ⟨m, k⟩ := mk
    obtain ⟨ht, -⟩ := methodOf_eq hm
    cases v with
    | nil => cases h
    | cons c v =>
      have hc : ((c :: v).take pos).take (k - 1) <+: [c] ++ v := (List.take_prefix _ _).trans (List.take_prefix _ _)
      rw [ht] at hc
      cases m <;> simp [HttpMethod.str, lit, badStart] at hc h <;> simp [← hc.1] at h

theorem lineToken_more (rq : HttpRequest D) {x z : Bytes} (hz : (x ++ z).length ≤ lineMax) :
    lineToken lineMax rq x = .wait 0 rq ∨
      lineToken lineMax rq (x ++ z) = lineToken lineMax rq x ∧ (lineToken lineMax rq x).used ≤ x.length := by
  have hx : x.length ≤ lineMax := by rw [List.length_append] at hz; omega
  unfold lineToken
  rw [if_neg (not_lt.mpr hx), if_neg (not_lt.mpr hz)]
  cases hf : find crlf x with
  | none =>
    cases hb : badStart x with
    | false => exact .inl rfl
    | true =>
      refine .inr ⟨?_, Nat.zero_le _⟩
      have hb' : badStart (x ++ z) = true := by
        cases x with
        | nil => cases hb
        | cons c x => exact hb
      cases find crlf (x ++ z) with
      | none => simp only [hb', if_true]
      | some pos => simp only [parseLine_none rq (methodOf_badStart hb' pos), if_true]
  | some pos =>
    right
    have hle := find_le hf
    simp only [crlf, List.length_cons, List.length_nil] at hle
    rw [find_append hf]
    dsimp only
    rw [List.take_append_of_le_length (by omega)]
    refine ⟨rfl, ?_⟩
    rcases hp : parseLine rq (x.take pos) with f | ⟨_ | i, rq'⟩
    · exact Nat.zero_le _
    · exact Nat.zero_le _
    · obtain ⟨rfl, -⟩ := parseLine_ok hp
      simp only [Act.used, List.length_take]
      omega

theorem headerToken_more (rq : HttpRequest D) (x z : Bytes) (hs : rq.header.size ≤ maxRequestHeaderLen) :
    headerToken env rq x = .wait 0 rq ∨
      headerToken env rq (x ++ z) = headerToken env rq x ∧ (headerToken env rq x).used ≤ x.length := by
  unfold headerToken
  cases x with
  | nil => exact .inl rfl
  | cons c x =>
    simp only [List.cons_append, List.isEmpty_cons, Bool.false_eq_true, if_false, if_neg (not_lt.mpr hs)]
    rw [← List.cons_append]
    by_cases hp : crlf <+: c :: x
    · rw [if_pos hp, if_pos (hp.trans (List.prefix_append _ _))]
      refine .inr ⟨rfl, ?_⟩
      have hle := hp.length_le
      simp only [crlf, List.length_cons, List.length_nil] at hle
      split <;> simp only [Act.used, List.length_cons] <;> omega
    · rw [if_neg hp]
      cases hf : find crlf (c :: x) with
      | none => exact .inl rfl
      | some pos =>
        right
        have hle := find_le hf
        simp only [crlf, List.length_cons, List.length_nil] at hle
        have hp' : ¬ crlf <+: c :: x ++ z := fun h => hp ((prefix_append_iff (by simp [crlf]; omega) z).mp h)
        rw [if_neg hp', find_append hf]
        dsimp only
        rw [List.take_append_of_le_length (by simp; omega)]
        refine ⟨rfl, ?_⟩
        cases headerLine ((c :: x).take pos) with
        | none => exact Nat.zero_le _
        | some kv => simp only [Act.used, List.length_cons]; omega

theorem bodyToken_used (n : Nat) (rq : HttpRequest D) : (bodyToken env n rq).used = n := by
  unfold bodyToken
  split <;> rfl

theorem contentToken_more {rq : HttpRequest D} (hs : rq.state = .checkContent) (hw : Wf rq) {x z : Bytes}
    (hz : rq.hasTransferEncoding = true → (x ++ z).length < 2 ^ 31) :
    contentToken env rq x = .wait 0 rq ∨
      contentToken env rq (x ++ z) = contentToken env rq x ∧ (contentToken env rq x).used ≤ x.length := by
  unfold contentToken
  dsimp only
  by_cases h1 : rq.hasTransferEncoding = true
  · rw [if_pos h1, if_pos h1]
    by_cases h2 : rq.chunked = true
    · rw [if_pos h2, if_pos h2]
      rcases chunkToken_more rq (hz h1) with hw | ⟨hm, hu⟩
      · exact .inl (by rw [hw])
      · right
        rw [hm]
        refine ⟨rfl, ?_⟩
        split
        · rename_i hc
          rw [hc] at hu
          rwa [bodyToken_used]
        · exact hu
    · rw [if_neg h2, if_neg h2]
      exact .inr ⟨rfl, Nat.zero_le _⟩
  · rw [if_neg h1, if_neg h1]
    by_cases h2 : rq.hasContentLength = true
    · rw [if_pos h2, if_pos h2]
      obtain ⟨hb, hc⟩ := hw.length hs (by simpa using h1) h2
      rw [sizeSub_of_le hb hc]
      by_cases hw : rq.body.length + x.length < rq.contentLength
      · exact .inl (if_pos hw)
      · rw [if_neg hw, if_neg (show ¬ rq.body.length + (x ++ z).length < rq.contentLength by
          rw [List.length_append]; omega),
          if_neg (show ¬ x.length < rq.contentLength - rq.body.length by omega),
          if_neg (show ¬ (x ++ z).length < rq.contentLength - rq.body.length by rw [List.length_append]; omega),
          List.take_append_of_le_length (by omega)]
        exact .inr ⟨rfl, by rw [bodyToken_used]; omega⟩
    · rw [if_neg h2, if_neg h2]
      right
      split <;> exact ⟨rfl, Nat.zero_le _⟩

/-! ## The reader is stable -/

theorem Within.next {s t : HttpRequest D} {z : Bytes} {n : Nat} (h : Within env lineMax s z)
    (ht : token env lineMax s z = .take n t) : Within env lineMax t (z.drop n) := by
  have hst : Steps (token env lineMax) (s, z) (t, z.drop n) := .single ⟨n, ht, rfl⟩
  obtain ⟨hwf, hl⟩ := h.wf.take env ht
  exact ⟨hwf, fun hs => absurd hs hl, fun u y hu => h.header u y (hst.trans hu),
    fun u y hu => h.chunk u y (hst.trans hu)⟩

theorem Fits.next {s t : HttpRequest D} {z : Bytes} {n : Nat} (h : Fits env lineMax s z)
    (ht : token env lineMax s z = .take n t) : Fits env lineMax t (z.drop n) :=
  ⟨h.toWithin.next ht, fun u y hu => h.last u y (hu.of_steps (.single ⟨n, ht, rfl⟩))⟩

/-- More input changes no token but a wait. -/
theorem token_more {s : HttpRequest D} {x z : Bytes} (h : Within env lineMax s (x ++ z)) :
    token env lineMax s x = .wait 0 s ∨
      token env lineMax s (x ++ z) = token env lineMax s x ∧ (token env lineMax s x).used ≤ x.length := by
  unfold token
  cases hs : s.state with
  | checkRequestLine => exact lineToken_more s (h.line hs)
  | checkHeader => exact headerToken_more s x z (h.header s _ .refl hs)
  | checkContent => exact contentToken_more hs h.wf (h.chunk s _ .refl hs)
  | checkDone => exact .inr ⟨rfl, Nat.zero_le _⟩

theorem token_steady : Steady (token env lineMax) (Within env lineMax) := ⟨token_more, Within.next⟩

/-- A complete body that was not decoded is looked at again. -/
theorem token_complete {t : HttpRequest D} (hs : t.state = .checkContent) (h1 : t.hasTransferEncoding = false)
    (h2 : t.hasContentLength = true) (hl : t.body.length = t.contentLength) (hcl : t.contentLength < 2 ^ 64)
    (x : Bytes) : token env lineMax t x = bodyToken env 0 t := by
  have hcm : Completes t x 0 t :=
    .inr ⟨h1, h2, by omega, by rw [hl, sizeSub_of_le (Nat.le_refl _) hcl, Nat.sub_self], by simp, by simp⟩
  rw [token_content env _ hs, contentToken_of_completes env hcm]

/-- So is a body of a known length, whatever is received behind it. -/
theorem token_spent {s t : HttpRequest D} {x : Bytes} {n : Nat} (hw : Wf s) (hs : s.state = .checkContent)
    (hcm : Completes s x n t) (hte : s.hasTransferEncoding = false) (hb : parseBody env t = .ok none) (z : Bytes) :
    token env lineMax t z = .wait 0 t := by
  rcases hcm with ⟨h1, -⟩ | ⟨h1, h2, hle, hn, hnx, rfl⟩
  · rw [hte] at h1
    cases h1
  · obtain ⟨hlen, hcl⟩ := hw.length hs h1 h2
    rw [sizeSub_of_le hlen hcl] at hn
    have hall : (s.body ++ x.take n).length = s.contentLength := by
      simp only [List.length_append, List.length_take]
      omega
    have htok := @token_complete D env lineMax { s with body := s.body ++ x.take n } hs h1 h2 hall hcl z
    rw [htok, bodyToken, hb]

theorem Fits.wait {s t : HttpRequest D} {x : Bytes} {n : Nat} (h : Fits env lineMax s x)
    (ht : token env lineMax s x = .wait n t) :
    (n = 0 ∧ t = s) ∨ x.drop n = [] ∧ token env lineMax t [] = .wait 0 t := by
  obtain ⟨-, hw | ⟨hs, hcm, hb⟩⟩ := token_wait_cases env ht
  · exact .inl hw
  · obtain ⟨hy, hte⟩ := h.last t _ (.of_wait ht) hb
    have hte' : s.hasTransferEncoding = false := by
      rcases hcm with ⟨-, -, -, -, -, rfl⟩ | ⟨h1, -⟩
      · simpa using hte
      · exact h1
    exact .inr ⟨hy, token_spent h.wf hs hcm hte' hb []⟩

theorem token_stable : Stable (token env lineMax) (Fits env lineMax) :=
  ⟨⟨fun h => token_more h.toWithin, Fits.next⟩, Fits.wait⟩

/-! ## Runs from the start -/

theorem within_new {s : Bytes} (hs : s.length ≤ maxRequestLineLen) : Within env maxRequestLineLen new s := by
  refine ⟨wf_new, fun _ => hs, fun t y ht _ => ?_, fun t y ht _ _ => ?_⟩
  · have := steps_header_size env ht
    simp only [new, HttpHeader.new, HttpHeader.size, maxRequestLineLen, maxRequestHeaderLen] at *
    omega
  · have := ht.length_le
    simp only [maxRequestLineLen] at *
    omega

/-- The same request, with the same bytes left over. -/
structure SameRequest (rq rq' : HttpRequest D) (left left' : Bytes) : Prop where
  method : rq.method = rq'.method
  url : rq.reqUrl = rq'.reqUrl
  version : rq.version = rq'.version
  header : rq.header = rq'.header
  cookie : rq.cookie = rq'.cookie
  body : rq.body = rq'.body
  form : rq.form = rq'.form
  json : rq.json = rq'.json
  left : left = left'

/-- Two runs agree: they fault alike, or return the same result, and on OK_REQUEST the same request. -/
inductive Agree : Except Fault (RetState × HttpRequest D × Buffer × List Bytes) →
    Except Fault (RetState × HttpRequest D × Buffer × List Bytes) → Prop
  | fault (f : Fault) : Agree (.error f) (.error f)
  | result {ret : RetState} {rq rq' : HttpRequest D} {b b' : Buffer} {rs rs' : List Bytes} :
      (ret = .okRequest → SameRequest rq rq' (b.readable ++ rs.flatten) (b'.readable ++ rs'.flatten)) →
      Agree (.ok (ret, rq, b, rs)) (.ok (ret, rq', b', rs'))

theorem Received.agree {mark : RetState → HttpRequest D → HttpRequest D}
    {p q : Except Fault (RetState × HttpRequest D × Buffer × List Bytes)} {o : Option Verdict}
    {t : HttpRequest D} {y : Bytes} (hp : Received mark p o t y) (hq : Received mark q o t y) : Agree p q := by
  match o with
  | none =>
    obtain ⟨b, rfl, rfl⟩ := hp
    obtain ⟨b', rfl, h⟩ := hq
    exact .result (by simp)
  | some .ok =>
    obtain ⟨b, rs, rfl, rfl⟩ := hp
    obtain ⟨b', rs', rfl, h⟩ := hq
    exact .result fun _ => ⟨rfl, rfl, rfl, rfl, rfl, rfl, rfl, rfl, h.symm⟩
  | some .bad =>
    obtain ⟨b, rs, rfl, rfl⟩ := hp
    obtain ⟨b', rs', rfl, h⟩ := hq
    exact .result (by simp)
  | some (.fault f) =>
    simp only [Received] at hp hq
    rw [hp, hq]
    exact .fault f

/-! ## Behind a body that goes on -/

/-- What follows such a body: CRLFs, and then bytes that do not begin with one. -/
def Stray (y : Bytes) : Prop :=
  ∃ (k : Nat) (y' : Bytes), y = (List.replicate k crlf).flatten ++ y' ∧ 2 ≤ y'.length ∧ ¬ crlf <+: y'

theorem Stray.behind {y : Bytes} (h : Stray y) : Stray (crlf ++ y) := by
  obtain ⟨k, y', rfl, hlen, hno⟩ := h
  exact ⟨k + 1, y', by rw [List.replicate_succ, List.flatten_cons, List.append_assoc], hlen, hno⟩

/-- The chunks are at their end, and the body goes on. -/
structure Spent (t : HttpRequest D) : Prop where
  content : t.state = .checkContent
  chunked : t.framing.transferEncoding = some true
  done : t.curChunkedState = .done
  unended : t.framing.Unended t.body

section

variable {t u : HttpRequest D} {x y : Bytes} {reads : List Bytes} {o : Option Verdict}

variable (env) in
/-- One CRLF after the other is taken for the one behind the chunks. -/
theorem Spent.token (h : Spent t) (x : Bytes) : token env maxRequestLineLen t x =
    if x.length < 2 then .wait 0 t else if crlf <+: x then .wait 2 t else .halt 0 .bad t := by
  have hb := (parseBody_unended_iff env t).mpr h.unended
  rw [token_chunk env h.content h.chunked]
  simp only [chunkToken, chunkTokenBy, h.done]
  by_cases hlen : x.length < 2
  · rw [if_pos hlen, if_pos hlen]
  · rw [if_neg hlen, if_neg hlen]
    by_cases hp : crlf <+: x
    · rw [if_pos hp, if_pos hp]
      simp only [bodyToken, hb]
    · rw [if_neg hp, if_neg hp]

theorem Spent.run_none (hr : Run (HttpRequest.token env maxRequestLineLen) t x reads o u y) (h : Spent t)
    (hno : ¬ Stray (x ++ reads.flatten)) : o = none := by
  induction hr with
  | nil => rfl
  | @wait s x r rs s' x' o t y hc _ ih =>
    have htok := h.token env (x ++ r)
    rw [List.flatten_cons, ← List.append_assoc] at hno
    by_cases hlen : (x ++ r).length < 2
    · rw [if_pos hlen] at htok
      obtain ⟨-, rfl, rfl⟩ := hc.unique (.of_wait htok)
      exact ih h hno
    · by_cases hp : crlf <+: x ++ r
      · rw [if_neg hlen, if_pos hp] at htok
        obtain ⟨-, rfl, rfl⟩ := hc.unique (.of_wait htok)
        refine ih h fun hst => hno ?_
        have hcut : crlf ++ (x ++ r).drop 2 = x ++ r := by
          conv_rhs => rw [← List.take_append_drop 2 (x ++ r)]
          rw [show (x ++ r).take 2 = crlf from (List.prefix_iff_eq_take.mp hp).symm]
        rw [← hcut, List.append_assoc]
        exact hst.behind
      · rw [if_neg hlen, if_neg hp] at htok
        obtain ⟨hv, -⟩ := hc.unique (.of_halt htok)
        cases hv
  | @halt s x r rs v t y hc =>
    have htok := h.token env (x ++ r)
    rw [List.flatten_cons, ← List.append_assoc] at hno
    by_cases hlen : (x ++ r).length < 2
    · rw [if_pos hlen] at htok
      obtain ⟨hv, -⟩ := hc.unique (.of_wait htok)
      exact hv
    · by_cases hp : crlf <+: x ++ r
      · rw [if_neg hlen, if_pos hp] at htok
        obtain ⟨hv, -⟩ := hc.unique (.of_wait htok)
        exact hv
      · refine absurd ⟨0, x ++ r ++ rs.flatten, rfl, ?_, fun hpre => hp ?_⟩ hno
        · rw [List.length_append]
          omega
        · exact (prefix_append_iff (by simp only [crlf, List.length_cons, List.length_nil]; omega) _).mp hpre

/-- When each is read for itself, what follows them is refused. -/
theorem Spent.run_bad (h : Spent t) {y' : Bytes} (hlen : 2 ≤ y'.length) (hno : ¬ crlf <+: y') (k : Nat) :
    Run (HttpRequest.token env maxRequestLineLen) t [] (List.replicate k crlf ++ [y']) (some .bad) t y' := by
  induction k with
  | zero =>
    have htok := h.token env y'
    rw [if_neg (not_lt.mpr hlen), if_neg hno] at htok
    exact .of_call (.of_halt htok)
  | succ k ih =>
    have htok := h.token env crlf
    rw [if_neg (by decide), if_pos List.prefix_rfl] at htok
    exact .wait (.of_wait htok) ih

/-- A reader that only waits does nothing else. -/
theorem run_none_of_wait (hr : Run (HttpRequest.token env lineMax) t x reads o u y)
    (h : ∀ z, HttpRequest.token env lineMax t z = .wait 0 t) : o = none := by
  induction hr with
  | nil => rfl
  | wait hc _ ih =>
    obtain ⟨-, rfl, rfl⟩ := hc.unique (.of_wait (h _))
    exact ih h
  | halt hc =>
    obtain ⟨ho, -, -⟩ := hc.unique (.of_wait (h _))
    exact ho

end

theorem contentTypeOf_multipart (v : Bytes) : contentTypeOf v = .multipart ↔ v.take 19 = lit "multipart/form-data" := by
  have hurl : v.take 33 = lit "application/x-www-form-urlencoded" → v.take 19 ≠ lit "multipart/form-data" := by
    intro h h'
    have h19 : (v.take 33).take 19 = v.take 19 := by rw [List.take_take]; rfl
    rw [h, h'] at h19
    exact absurd h19 (by decide)
  unfold contentTypeOf
  constructor
  · intro h
    repeat' split at h
    all_goals first
      | assumption
      | cases h
  · intro h
    rw [if_neg fun h' => hurl h' h, if_pos h]

/-- The chunks of a body that the parser takes for a multipart body and that is not ended, with
    something behind them that the parser does not wait for. -/
def Reopened (s : Bytes) : Prop :=
  ∃ m hd w body y, Head m hd s (crlf ++ (w ++ y)) ∧ Readable hd ∧
    (∃ v, hd.get (lit "Transfer-Encoding") = some v ∧ toLowers v = lit "chunked") ∧
    (∃ v, hd.get (lit "Content-Type") = some v ∧ (toLowers v).take 19 = lit "multipart/form-data") ∧
    Chunks .noLen 0 w body ∧ (6 < body.length ∧ ¬ lit "----\r\n" <:+ body) ∧ Stray y

def Reopens (f : Framing) (body : Bytes) : Prop := f.transferEncoding = some true ∧ f.Unended body

theorem reopens_announced {hd : HttpHeader} {m : Option HttpMethod} {body : Bytes} :
    Reopens (.announced hd m .new) body ↔
      (∃ v, hd.get (lit "Transfer-Encoding") = some v ∧ toLowers v = lit "chunked") ∧
      (∃ v, hd.get (lit "Content-Type") = some v ∧ (toLowers v).take 19 = lit "multipart/form-data") ∧
      6 < body.length ∧ ¬ lit "----\r\n" <:+ body := by
  have hclosing : (Framing.announced hd m .new).closing = lit "----\r\n" := rfl
  simp only [Reopens, Framing.Unended, Framing.Ended, hclosing, not_or, not_le]
  simp [Framing.announced, contentTypeOf_multipart, lit]

theorem reopened_iff_rest {s : Bytes} :
    Reopened s ↔ ∃ hd w y, s = w ++ y ∧ Stray y ∧ Rest Reopens (new : HttpRequest D) hd w := by
  constructor
  · intro h
    obtain ⟨m, hd, w, body, y, ⟨-, rfl, l, text, rfl, hl, hmax, ht, hh⟩, hread, hte, hct, hc, hbody, hy⟩ := h
    have hre := (reopens_announced (m := some m)).mpr ⟨hte, hct, hbody⟩
    refine ⟨hd, l ++ crlf ++ (text ++ (crlf ++ w)), y, by simp only [List.append_assoc], hy,
      .line rfl hl hmax ht hh hread (.chunks hre.1 hc) hre⟩
  · intro h
    obtain ⟨hd, w, y, rfl, hy, hr⟩ := h
    obtain ⟨m, w', body, hhead, hread, hfr, hre⟩ := head_of_rest hr
    have hhead' := hhead.append y
    rw [List.append_assoc] at hhead'
    obtain ⟨hte, hct, hbody⟩ := reopens_announced.mp hre
    cases hfr with
    | chunks _ hc => exact ⟨m, hd, w', _, y, hhead', hread, hte, hct, hc, hbody, hy⟩
    | length hno => rw [hre.1] at hno; cases hno
    | none hno => rw [hre.1] at hno; cases hno

/-! ## Cuts -/

/-- A way of cutting `s` into reads. -/
def Cuts (s : Bytes) (reads : List Bytes) : Prop := reads.flatten = s ∧ ∀ r ∈ reads, r ≠ []

theorem Received.again_agree {mark : RetState → HttpRequest D → HttpRequest D}
    {p q : Except Fault (RetState × HttpRequest D × Buffer × List Bytes)} {t t' : HttpRequest D} {y y' : Bytes}
    (hp : Received mark p none t y) (hq : Received mark q none t' y') : Agree p q := by
  obtain ⟨b, rfl, -⟩ := hp
  obtain ⟨b', rfl, -⟩ := hq
  exact .result (by simp)

theorem Received.disagree {mark : RetState → HttpRequest D → HttpRequest D}
    {p q : Except Fault (RetState × HttpRequest D × Buffer × List Bytes)} {t t' : HttpRequest D} {y y' : Bytes}
    (hp : Received mark p none t y) (hq : Received mark q (some .bad) t' y') : ¬ Agree p q := by
  obtain ⟨b, rfl, -⟩ := hp
  obtain ⟨b', rs, rfl, -⟩ := hq
  intro h
  cases h

variable (env)

/-- A run over a short stream that is not reopened ends as the call on all of it, or asks for
    more as that does. -/
theorem run_outcome {s : Bytes} (hs : s.length ≤ maxRequestLineLen) (h : ¬ Reopened s) {cut : List Bytes}
    (hc : cut.flatten = s) {o : Option Verdict} {t : HttpRequest D} {y : Bytes}
    (hr : Run (token env maxRequestLineLen) new [] cut o t y) :
    Call (token env maxRequestLineLen) new s o t y ∨
      o = none ∧ ∃ t' y', Call (token env maxRequestLineLen) (new : HttpRequest D) s none t' y' := by
  have hw : Within env maxRequestLineLen (new : HttpRequest D) ([] ++ cut.flatten) := by
    rw [List.nil_append, hc]
    exact within_new hs
  have hor := hr.call_or token_steady (token_new_nil env) hw
  rw [List.nil_append, hc] at hor
  rcases hor with hcall | ⟨s', x', n, t', u, rs', hst, hwait, hne, hleft, hrun⟩
  · exact .inl hcall
  · refine .inr ⟨?_, _, _, ⟨s', x', hst, .wait hwait⟩⟩
    have hv : Visits (token env maxRequestLineLen) new [] [s] s' x' := .here hst
    have hw' : Wf s' := Wf.visits env hv wf_new
    obtain ⟨-, hstay | ⟨hcont, hcm, hb⟩⟩ := token_wait_cases env hwait
    · exact absurd hstay hne
    · have hcm' := hcm
      rcases hcm with ⟨hte, hch, hdone, hp, rfl, rfl⟩ | ⟨hte, -⟩
      · have hte' : t'.framing.transferEncoding = some true := by simp [framing, hte, hch]
        have hun := (parseBody_unended_iff env t').mp hb
        refine Spent.run_none hrun ⟨hcont, hte', hdone, hun⟩ fun hstray => h ?_
        have hblank : Chunks t'.curChunkedState t'.curChunkSize crlf [] := by
          rw [hdone]
          exact .blank _
        have hrest : Rest Reopens t' t'.header crlf :=
          .content hcont (.chunks hte' hblank) ⟨hte', by rwa [List.append_nil]⟩
        obtain ⟨c, hc', hrest'⟩ := hrest.of_steps hst wf_new
        have hcut : x' = crlf ++ x'.drop 2 := by
          conv_lhs => rw [← List.take_append_drop 2 x']
          rw [show x'.take 2 = crlf from (List.prefix_iff_eq_take.mp hp).symm]
        rw [← hleft] at hstray
        refine (reopened_iff_rest (D := D)).mpr ⟨_, _, _, ?_, hstray, hrest'⟩
        rw [List.append_assoc, ← hcut]
        exact hc'
      · exact run_none_of_wait hrun (token_spent hw' hcont hcm' hte hb)

theorem agree_of_not_reopened {s : Bytes} (hs : s.length ≤ maxRequestLineLen) (h : ¬ Reopened s) {cut cut' : List Bytes}
    (hc : cut.flatten = s) (hc' : cut'.flatten = s) :
    Agree (receive env new .empty cut) (receive env new .empty cut') := by
  obtain ⟨o, t, y, hr, hp⟩ := receive_run env cut .empty undone_new rfl
  obtain ⟨o', t', y', hr', hp'⟩ := receive_run env cut' .empty undone_new rfl
  rw [Buffer.readable_empty] at hr hr'
  rcases run_outcome env hs h hc hr with hcall | ⟨rfl, u, z, hcall⟩
  · rcases run_outcome env hs h hc' hr' with hcall' | ⟨rfl, u', z', hcall'⟩
    · obtain ⟨rfl, rfl, rfl⟩ := hcall.unique hcall'
      exact hp.agree hp'
    · obtain ⟨rfl, -⟩ := hcall.unique hcall'
      exact hp.again_agree hp'
  · rcases run_outcome env hs h hc' hr' with hcall' | ⟨rfl, u', z', hcall'⟩
    · obtain ⟨rfl, -⟩ := hcall'.unique hcall
      exact hp.again_agree hp'
    · exact hp.again_agree hp'

/-- In one read the stream is waited with; cut behind the chunks and behind each CRLF it is refused. -/
theorem Reopened.disagree {s : Bytes} (h : Reopened s) (hs : s.length ≤ maxRequestLineLen) : ∃ cut cut',
    Cuts s cut ∧ Cuts s cut' ∧ ¬ Agree (receive env new .empty cut) (receive env new .empty cut') := by
  obtain ⟨hd, w, y, rfl, ⟨k, y', rfl, hlen, hno⟩, hrest⟩ := (reopened_iff_rest (D := D)).mp h
  -- a call on the chunks and any bytes behind them asks for more
  have hcall : ∀ {z : Bytes}, (w ++ z).length ≤ maxRequestLineLen →
      ∃ t, Spent t ∧ Call (token env maxRequestLineLen) (new : HttpRequest D) (w ++ z) none t z := by
    intro z hz
    obtain ⟨t, w', hlast, hst, hsteps⟩ := hrest.steps env _ rfl wf_new hz
    cases hlast with
    | blank hte hdone hP =>
      have hspent : Spent t := ⟨hst, hte, hdone, hP.2⟩
      have htok := hspent.token env (crlf ++ z)
      rw [if_neg (by simp [crlf]), if_pos (List.prefix_append _ _)] at htok
      have hdrop : (crlf ++ z).drop 2 = z := rfl
      exact ⟨t, hspent, .of_steps hsteps (hdrop ▸ .of_wait htok)⟩
    | length hte _ hP => rw [hP.1] at hte; cases hte
    | none hte _ _ hP => rw [hP.1] at hte; cases hte
  have hw : w ≠ [] := by
    cases hrest with
    | line => simp [crlf]
    | header hst => cases hst
    | content hst => cases hst
  have hy : y' ≠ [] := by
    intro hnil
    subst hnil
    cases hlen
  refine ⟨[w ++ ((List.replicate k crlf).flatten ++ y')], w :: (List.replicate k crlf ++ [y']),
    ⟨by simp, by simp [hw]⟩, ⟨by simp, ?_⟩, ?_⟩
  · intro r hr
    simp only [List.mem_cons, List.mem_append, List.mem_replicate, List.not_mem_nil, or_false] at hr
    rcases hr with rfl | ⟨-, rfl⟩ | rfl
    · exact hw
    · simp [crlf]
    · exact hy
  · obtain ⟨o, u, x, hr, hp⟩ := receive_run env [w ++ ((List.replicate k crlf).flatten ++ y')] .empty undone_new rfl
    obtain ⟨o', u', x', hr', hp'⟩ := receive_run env (w :: (List.replicate k crlf ++ [y'])) .empty undone_new rfl
    rw [Buffer.readable_empty] at hr hr'
    obtain ⟨t, -, hc⟩ := hcall hs
    obtain ⟨t', hspent, hc'⟩ := hcall (z := []) (by
      rw [List.length_append] at hs ⊢
      exact (Nat.add_le_add_left (Nat.zero_le _) _).trans hs)
    rw [List.append_nil] at hc'
    obtain ⟨rfl, -⟩ := hr.det (.wait hc (.nil _ _))
    obtain ⟨rfl, -⟩ := hr'.det (.wait hc' (hspent.run_bad hlen hno k))
    exact hp.disagree hp'

/-- Among the streams of at most 2048 bytes, those of which all cuts agree. -/
theorem receive_agree_iff {s : Bytes} (hs : s.length ≤ maxRequestLineLen) :
    (∀ cut cut', Cuts s cut → Cuts s cut' → Agree (receive env new .empty cut) (receive env new .empty cut')) ↔
      ¬ Reopened s := by
  constructor
  · intro h hre
    obtain ⟨cut, cut', hc, hc', hno⟩ := hre.disagree env hs
    exact hno (h cut cut' hc hc')
  · exact fun h cut cut' hc hc' => agree_of_not_reopened env hs h hc.1 hc'.1

theorem taken_post : Taken .post (lit "POST / HTTP/1.1") := ⟨32, lit "/", .http11, accepted_root, by decide⟩

def chunkedHeaders : List (Bytes × Bytes) := [(lit "Transfer-Encoding", lit "chunked")]

/-- `POST / HTTP/1.1` with chunks. -/
theorem head_chunked (x : Bytes) : Head .post (addHeaders .new chunkedHeaders)
    (lit "POST / HTTP/1.1" ++ crlf ++ headersText chunkedHeaders ++ x) x := by
  refine head_headersText (by decide) (by decide) taken_post ?_ (by decide) x
  simp only [chunkedHeaders, List.mem_cons, List.not_mem_nil, or_false, forall_eq]
  exact ⟨by decide, by decide, by decide, by decide⟩

/-- Three bytes in chunks, cut inside a CRLF, a size line and the data. -/
theorem receive_agree_chunked :
    Agree
      (receive bareEnv new .empty [lit "POST / HTTP/1.1\r", lit "\nTransfer-Encoding: chu", lit "nked\r\n\r\n3",
        lit "\r\nab", lit "c\r\n0\r\n\r", lit "\nX"])
      (receive bareEnv new .empty
        [lit "POST / HTTP/1.1\r\nTransfer-Encoding: chunked\r\n\r\n3\r\nabc\r\n0\r\n\r\nX"]) := by
  have hno : ¬ Reopened (lit "POST / HTTP/1.1" ++ crlf ++ headersText chunkedHeaders ++
      (crlf ++ lit "3\r\nabc\r\n0\r\n\r\nX")) := by
    intro h
    obtain ⟨m, hd, w, body, y, hhead, -, -, ⟨v, hv, -⟩, -⟩ := h
    obtain ⟨-, rfl, -⟩ := hhead.unique (head_chunked (crlf ++ lit "3\r\nabc\r\n0\r\n\r\nX"))
    have hnone : (addHeaders .new chunkedHeaders).get (lit "Content-Type") = none := by decide
    rw [hnone] at hv
    cases hv
  exact (receive_agree_iff bareEnv (by decide +kernel)).mpr hno _ _ ⟨by decide +kernel, by decide⟩
    ⟨by decide +kernel, by decide⟩

/-! ### Cuts that do not agree -/

/-- The type a Content-Type names, in lower case and without its parameters. -/
def mediaType (value : Bytes) : Bytes := toLowers (value.takeWhile fun c => c != 59 && c != 32)

/-- The request that `s` begins has the Content-Type multipart/form-data. -/
def FormData (s : Bytes) : Prop :=
  ∃ m hd x v, Head m hd s (crlf ++ x) ∧ hd.get (lit "Content-Type") = some v ∧ mediaType v = lit "multipart/form-data"

def formDatax : List (Bytes × Bytes) :=
  [(lit "Content-Type", lit "multipart/form-datax"), (lit "Transfer-Encoding", lit "chunked")]

theorem head_formDatax (x : Bytes) : Head .post (addHeaders .new formDatax)
    (lit "POST / HTTP/1.1" ++ crlf ++ headersText formDatax ++ x) x := by
  refine head_headersText (by decide) (by decide) taken_post ?_ (by decide) x
  simp only [formDatax, List.mem_cons, List.not_mem_nil, or_false, forall_eq_or_imp, forall_eq]
  exact ⟨⟨by decide, by decide, by decide, by decide⟩, ⟨by decide, by decide, by decide, by decide⟩⟩

/-- The parser compares the first 19 bytes of a Content-Type, so `multipart/form-datax` is
    multipart to it, and `ab` behind the chunks is refused or not looked at. -/
theorem receive_disagree : ¬ ∀ s : Bytes, s.length ≤ maxRequestLineLen → ¬ FormData s → ∀ cut cut', Cuts s cut →
    Cuts s cut' → Agree (receive bareEnv new .empty cut) (receive bareEnv new .empty cut') := by
  intro h
  have hhead := head_formDatax (crlf ++ (lit "7\r\naaaaaaa\r\n0\r\n\r\n" ++ lit "ab"))
  have htype : (addHeaders .new formDatax).get (lit "Content-Type") = some (lit "multipart/form-datax") := by decide
  have hno : ¬ FormData (lit "POST / HTTP/1.1" ++ crlf ++ headersText formDatax ++
      (crlf ++ (lit "7\r\naaaaaaa\r\n0\r\n\r\n" ++ lit "ab"))) := by
    intro hform
    obtain ⟨m, hd, x, v, hhead', hv, hmedia⟩ := hform
    obtain ⟨-, rfl, -⟩ := hhead'.unique hhead
    rw [htype, Option.some.injEq] at hv
    subst hv
    exact absurd hmedia (by decide)
  have hchunks : Chunks .noLen 0 (lit "7\r\naaaaaaa\r\n0\r\n\r\n") (lit "aaaaaaa") :=
    .size (l := lit "7") (n := 7) ⟨by decide, by decide, by decide⟩ (by decide)
      (.data (d := lit "aaaaaaa") (by decide) (.zero (l := lit "0") ⟨by decide, by decide, by decide⟩ (.blank 0)))
  have hread : Readable (addHeaders .new formDatax) := readable_of_none (by decide) (by decide)
  have hre : Reopened (lit "POST / HTTP/1.1" ++ crlf ++ headersText formDatax ++
      (crlf ++ (lit "7\r\naaaaaaa\r\n0\r\n\r\n" ++ lit "ab"))) :=
    ⟨.post, _, _, _, _, hhead, hread, ⟨lit "chunked", by decide, by decide⟩,
      ⟨lit "multipart/form-datax", htype, by decide⟩, hchunks, ⟨by decide, by decide⟩, 0, lit "ab", rfl, by decide,
      by decide⟩
  obtain ⟨cut, cut', hc, hc', hdis⟩ := hre.disagree bareEnv (by decide +kernel)
  exact hdis (h _ (by decide +kernel) hno cut cut' hc hc')

end HahaWeb.HttpRequest
