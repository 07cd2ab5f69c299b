/-
  HahaWeb.Http.Faults — what ends a call of `parseRequest` other than by returning.

  Nothing above the parser catches an exception, so a fault ends the server. `Safe` says
  of a state and the bytes received that none can come of the next token: the request
  line is not a bare method, the blank line finds a Content-Length and Max-Age
  attributes that are numbers, a complete JSON body does not end inside a value, and a
  complete multipart body has at each place what is due there. Proved: a run faults exactly
  when it comes to a token that is not safe (`calls_return_iff`).
-/

import HahaWeb.Http.MultiPartTermination
import HahaWeb.Http.RequestReader
import HahaWeb.Json.Language

namespace HahaWeb.HttpRequest

open Resumable (Act Steps Ends Call Run Visits)

variable {D : Type} (env : Env D)

/-! ## The parts that can fault -/

theorem methodOf_of_str (m : HttpMethod) : methodOf m.str = some (m, m.str.length + 1) := by
  cases m <;> decide

/-- The request line faults when it is a method and nothing else. -/
theorem parseLine_error_iff (rq : HttpRequest D) (line : Bytes) :
    (∃ f, parseLine rq line = .error f) ↔ ∃ m : HttpMethod, line = m.str := by
  constructor
  · intro hx
    rcases hx with ⟨f, h⟩
    cases hm : methodOf line with
    | none => rw [parseLine_none rq hm] at h; cases h
    | some mk =>
      obtain ⟨m, k⟩ := mk
      obtain ⟨ht, hk⟩ := methodOf_eq hm
      rcases Nat.lt_or_ge line.length k with hlt | hge
      · exact ⟨m, by rw [← ht, List.take_of_length_le (by omega)]⟩
      · rw [parseLine_long rq hm hge] at h
        cases hp : findFirstOf 32 (line.drop k) 0 with
        | none => rw [hp] at h; cases h
        | some pos =>
          obtain ⟨url, hurl⟩ := HttpUrl.ofString_total ((line.drop k).take pos)
          simp only [hp, hurl, Except.map] at h
          cases h
  · intro hx
    rcases hx with ⟨m, rfl⟩
    exact ⟨_, parseLine_short rq (methodOf_of_str m) (Nat.lt_succ_self _)⟩

/-- The headers the blank line converts are numbers that fit. -/
def Readable (header : HttpHeader) : Prop :=
  (∀ v, header.get (lit "Cookie") = some v → ∀ p ∈ HttpCookie.attributes v,
    p.1 ≠ [] → toLowers p.1 = lit "max-age" → IntText p.2) ∧
    ∀ v, header.get (lit "Content-Length") = some v → UlongText v

theorem parseHeaders_readable_iff (s : HttpRequest D) : (∃ rq, parseHeaders env s = .ok rq) ↔ Readable s.header := by
  rw [parseHeaders_ok_iff]
  simp only [HttpCookie.ofString_ok_iff, HttpCookie.Accepted, stoi_ok_iff, stoul_ok_iff, Readable]

/-- The end of the body does not lie inside a JSON value, and no place of a multipart body
    holds its decoder up. -/
def Decodable (rq : HttpRequest D) : Prop :=
  rq.hasContentType = true →
    (rq.contentType = some .json → ¬ Json.Cut env.stod rq.body) ∧
    (rq.contentType = some .multipart → (rq.body.length ≤ (endOfBody rq).length ∨ endOfBody rq <:+ rq.body) →
      HttpMultiPart.Legible rq.multipart.bd .startBody rq.body)

theorem parseBody_decodable_iff (rq : HttpRequest D) : (∃ o, parseBody env rq = .ok o) ↔ Decodable env rq := by
  by_cases hm : rq.hasContentType = true ∧ rq.contentType = some .multipart
  · rw [parseBody_multipart env hm.1 hm.2]
    simp only [Decodable, hm.1, hm.2, Option.some.injEq, reduceCtorEq, false_implies, true_and, true_implies]
    by_cases hend : rq.body.length ≤ (endOfBody rq).length ∨ endOfBody rq <:+ rq.body
    · rw [if_neg (by rintro ⟨h1, h2⟩; rcases hend with h | h; exact absurd h1 (not_lt.mpr h); exact h2 h)]
      simp only [hend, true_implies, ← HttpMultiPart.parse_ok_iff_legible]
      cases rq.multipart.parse rq.body <;> simp [Except.map]
    · obtain ⟨h1, h2⟩ := not_or.mp hend
      rw [if_pos ⟨not_le.mp h1, h2⟩]
      simp [hend]
  · unfold Decodable parseBody
    have hform : ∀ urldecode, ∃ m, parseKeyValue rq.body (lit "=") (lit "&") rq.form urldecode = .ok m := fun d =>
      parseKeyValue_total (by decide) _ _ d
    cases hct : rq.hasContentType with
    | false => simp
    | true =>
      simp only [if_true, true_implies]
      match hc : rq.contentType with
      | none | some .html | some .jpg | some .jpeg | some .png | some .bmp | some .avi | some .mp4 | some .webm
      | some .unknow => simp
      | some .urlencoded =>
        obtain ⟨m, hm⟩ := hform true
        simp [hm, bind, Except.bind]
      | some .plain =>
        obtain ⟨m, hm⟩ := hform false
        simp [hm, bind, Except.bind]
      | some .json =>
        cases hj : Json.fromString env.stod rq.body with
        | error f => simpa [bind, Except.bind] using Json.cut_of_error env.stod hj
        | ok j => simpa [bind, Except.bind] using Json.not_cut_of_ok env.stod hj
      | some .multipart => exact absurd ⟨hct, hc⟩ hm

/-! ## Tokens -/

/-- No fault comes of the next token. -/
structure Safe (s : HttpRequest D) (x : Bytes) : Prop where
  line : s.state = .checkRequestLine → x.length ≤ maxRequestLineLen →
    ∀ pos, find crlf x = some pos → ∀ m : HttpMethod, x.take pos ≠ m.str
  headers : s.state = .checkHeader → crlf <+: x → Readable s.header
  body : s.state = .checkContent → ∀ n rq, Completes s x n rq → Decodable env rq

theorem token_safe {s t : HttpRequest D} {x : Bytes} {n : Nat} {f : Fault} (hw : Wf s)
    (h : token env maxRequestLineLen s x = .halt n (.fault f) t) : ¬ Safe env s x := by
  intro hsafe
  rcases token_fault_cases env h with ⟨hs, hmax, pos, hf, hp⟩ | ⟨hs, hb, hp⟩ |
    ⟨hs, ⟨rq, hcm, hp⟩ | hneg | ⟨h1, h2, h3, h4⟩⟩
  · obtain ⟨m, hm⟩ := (parseLine_error_iff s _).mp ⟨f, hp⟩
    exact hsafe.line hs hmax pos hf m hm
  · obtain ⟨rq, hok⟩ := (parseHeaders_readable_iff env s).mpr (hsafe.headers hs hb)
    rw [hp] at hok
    cases hok
  · obtain ⟨o, hok⟩ := (parseBody_decodable_iff env rq).mpr (hsafe.body hs n rq hcm)
    rw [hp] at hok
    cases hok
  · exact absurd hw.chunk.1 (not_le.mpr hneg)
  · -- the body is never longer than the Content-Length
    obtain ⟨hlen, hcl⟩ := hw.length hs h1 h2
    rw [sizeSub_of_le hlen hcl] at h4
    omega

theorem token_unsafe {s : HttpRequest D} {x : Bytes} (h : ¬ Safe env s x) :
    ∃ n f t, token env maxRequestLineLen s x = .halt n (.fault f) t := by
  by_contra hno
  refine h ⟨fun hs hmax pos hf m hm => hno ?_, fun hs hb => ?_, fun hs n rq hcm => ?_⟩
  · obtain ⟨f, hp⟩ := (parseLine_error_iff s _).mpr ⟨m, hm⟩
    refine ⟨0, f, s, ?_⟩
    rw [token_line env _ hs, lineToken, if_neg (not_lt.mpr hmax), hf]
    simp only [hp]
  · refine (parseHeaders_readable_iff env s).mp ?_
    cases hp : parseHeaders env s with
    | ok rq => exact ⟨rq, rfl⟩
    | error f =>
      have hne : ¬ x.isEmpty = true := by
        intro he
        rw [List.isEmpty_iff.mp he] at hb
        cases hb.length_le
      refine absurd ⟨0, f, s, ?_⟩ hno
      rw [token_header env _ hs, headerToken, if_neg hne, if_pos hb, hp]
  · refine (parseBody_decodable_iff env rq).mp ?_
    cases hp : parseBody env rq with
    | ok o => exact ⟨o, rfl⟩
    | error f =>
      refine absurd ⟨n, f, rq, ?_⟩ hno
      rw [token_content env _ hs, contentToken_of_completes env hcm, bodyToken, hp]

/-! ## Runs -/

/-- Every call of a run returns exactly when the run comes to no token that is not safe. -/
theorem calls_return_iff (b : Buffer) (reads : List Bytes) :
    (∀ r ∈ calls env new b reads, ∃ p, r = .ok p) ↔
      ∀ s x, Visits (token env maxRequestLineLen) new b.readable reads s x → Safe env s x := by
  constructor
  · intro h s x hv
    by_contra hunsafe
    obtain ⟨n, f, t, htok⟩ := token_unsafe env hunsafe
    obtain ⟨r, hr, hret⟩ := visits_call env hv b rfl (by simp [new]) rfl _ _ _ (.of_halt htok)
    obtain ⟨p, rfl⟩ := h r hr
    cases hret
  · intro h r hr
    obtain ⟨s, x, o, t, y, hv, ⟨s', x', hst, he⟩, hret⟩ := calls_mem env reads b (by simp [new]) rfl r hr
    rcases o with _ | (_ | _ | f)
    · obtain ⟨b', rfl, -⟩ := hret
      exact ⟨_, rfl⟩
    · obtain ⟨b', rfl, -⟩ := hret
      exact ⟨_, rfl⟩
    · obtain ⟨b', rfl, -⟩ := hret
      exact ⟨_, rfl⟩
    · have hv' := hv s' x' hst
      cases he with
      | halt he => exact absurd (h s' x' hv') (token_safe env (Wf.visits env hv' wf_new) he)

/-- A request line that is a method without its blank ends the server. -/
theorem bare_method_faults : ¬ ∀ (b : Buffer) (reads : List Bytes), ∀ r ∈ calls bareEnv new b reads,
    ∃ p, r = .ok p := by
  intro h
  have hr : (calls bareEnv new .empty [lit "GET\r\n"]).any (fun r => match r with
      | .ok _ => false
      | .error _ => true) = true := by decide +kernel
  obtain ⟨r, hmem, hr⟩ := List.any_eq_true.mp hr
  obtain ⟨p, rfl⟩ := h _ _ r hmem
  cases hr

end HahaWeb.HttpRequest
