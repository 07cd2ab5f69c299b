/-
  HahaWeb.Http.Untrusted — the streams of which every cut is parsed without a fault.

  `Harmless env s` is over the bytes of the stream alone: it does not begin with a bare
  method, the headers before its first blank line are readable, and a content that is complete
  there ends neither inside a JSON value nor with a multipart body that holds its decoder up.
  A run meets the last two only where the grammar puts them (`faulty_of_visits`), and a stream
  of which they fail is led there by reading it piece by piece (`Rest.faults`).

  Proved: every call returns for every cut of a stream exactly when it is harmless
  (`stream_returns_iff`).
-/

import HahaWeb.Http.Acceptance

namespace HahaWeb.HttpRequest

open Resumable (Act Steps Ends Call Run Visits)

variable {D : Type} (env : Env D)

/-- The decoder of a body comes to the end of it, if it is called. -/
def Framing.Decodes (f : Framing) (body : Bytes) : Prop :=
  (f.contentType = some .json → ¬ Json.Cut env.stod body) ∧
    (f.contentType = some .multipart → f.Ended body → HttpMultiPart.Legible f.multipart.bd .startBody body)

theorem decodable_iff_decodes (rq : HttpRequest D) : Decodable env rq ↔ rq.framing.Decodes env rq.body := by
  have htype : ∀ {k : HttpContentType}, rq.framing.contentType = some k ↔ rq.hasContentType = true ∧
      rq.contentType = some k := by simp [framing]
  constructor
  · intro h
    refine ⟨fun hk => ?_, fun hk hend => ?_⟩
    · obtain ⟨hct, hj⟩ := htype.mp hk
      exact (h hct).1 hj
    · obtain ⟨hct, hm⟩ := htype.mp hk
      exact (h hct).2 hm hend
  · intro h hct
    exact ⟨fun hj => h.1 (htype.mpr ⟨hct, hj⟩), fun hm hend => h.2 (htype.mpr ⟨hct, hm⟩) hend⟩

/-- There is a body, and it is not decoded. -/
def Framing.Faulty (f : Framing) (body : Bytes) : Prop :=
  ¬ (f.transferEncoding = none ∧ f.contentLength = none) ∧ ¬ f.Decodes env body

/-- No cut of the stream makes a call fault. -/
structure Harmless (s : Bytes) : Prop where
  line : ∀ m : HttpMethod, ¬ m.str ++ crlf <+: s
  headers : ∀ m hd x, Head m hd s (crlf ++ x) → Readable hd
  body : ∀ m hd w x body, Head m hd s (crlf ++ (w ++ x)) →
    Framed (.announced hd (some m) .new) .noLen 0 [] w body → ¬ (Framing.announced hd (some m) .new).Faulty env body

variable {env}

theorem settled_faulty : Settled (Framing.Faulty env) := by
  intro f body h hun
  refine absurd ⟨fun hj => ?_, fun _ hend => absurd hend hun.2⟩ h.2
  rw [hun.1] at hj
  cases hj

/-! ## A harmless stream -/

section

variable {reads : List Bytes} {t rq : HttpRequest D} {x : Bytes} {n : Nat}

/-- A body that is complete where a run looks, and is not decoded, is one of the stream. -/
theorem faulty_of_visits (hv : Visits (token env maxRequestLineLen) new [] reads t x) (hs : t.state = .checkContent)
    (hcm : Completes t x n rq) (hf : rq.framing.Faulty env rq.body) : ¬ Harmless env reads.flatten := by
  have hrest := Rest.of_completes (P := Framing.Faulty env) (Wf.visits env hv wf_new) hs hcm hf
  obtain ⟨c, z, heq, hstream⟩ := hrest.of_visits hv settled_faulty wf_new
  obtain ⟨m, w, body, hhead, -, hframed, hfaulty⟩ := head_of_rest hstream
  intro h
  have hall : c ++ x.take n ++ (x.drop n ++ z) = reads.flatten := by
    rw [List.append_assoc c, ← List.append_assoc (x.take n), List.take_append_drop]
    exact heq.symm
  have hhead' := hhead.append (x.drop n ++ z)
  rw [hall, List.append_assoc crlf] at hhead'
  exact h.body m _ w _ body hhead' hframed hfaulty

theorem Completes.content (hcm : Completes t x n rq) :
    ¬ (rq.framing.transferEncoding = none ∧ rq.framing.contentLength = none) := by
  rcases hcm with ⟨hte, -, -, -, -, rfl⟩ | ⟨-, hcl, -, -, -, rfl⟩
  · simp [framing, hte]
  · simp [framing, hcl]

theorem Harmless.safe (h : Harmless env reads.flatten) (hv : Visits (token env maxRequestLineLen) new [] reads t x) :
    Safe env t x where
  line hs _ pos hf m hm := by
    obtain ⟨c, z, heq, hline, -⟩ := visits_consumed env hv
    obtain ⟨-, -, htake⟩ := line_of_find hf
    rw [hline hs, List.nil_append] at heq
    refine h.line m ?_
    rw [← hm, ← htake, heq]
    exact (List.take_prefix _ _).trans (List.prefix_append _ _)
  headers hs hp := by
    obtain ⟨m, z, hhead⟩ := visits_head env hv hs
    obtain ⟨y, rfl⟩ := hp
    rw [List.append_assoc] at hhead
    exact h.headers m _ _ hhead
  body hs n rq hcm := by
    by_contra hno
    rw [decodable_iff_decodes] at hno
    exact faulty_of_visits hv hs hcm ⟨hcm.content, hno⟩ h

end

/-! ## Reads that fault -/

theorem endsCall_faulty {hd : HttpHeader} :
    EndsCall env (Framing.Faulty env) (fun v _ => ∃ f, v = .fault f) hd := by
  intro t w hw hs _ hlast
  rcases hlast.completes hw hs [] with ⟨rq, hcm, hframe, hf, -⟩ | ⟨-, hte, hcl, -, hf⟩
  · rw [List.append_nil] at hcm
    have hunsafe : ¬ Safe env t w := by
      intro hsafe
      have hdec := (decodable_iff_decodes env rq).mp (hsafe.body hs _ rq hcm)
      rw [hframe] at hdec
      exact hf.2 hdec
    obtain ⟨k, f, u, htok⟩ := token_unsafe env hunsafe
    exact ⟨_, u, _, .of_halt htok, f, rfl⟩
  · exact absurd ⟨by simp [framing, hte], by simp [framing, hcl]⟩ hf.1

/-- All calls return, whatever the cut. -/
def Returning (env : Env D) (s : Bytes) : Prop :=
  ∀ reads, reads.flatten = s → ∀ r ∈ calls env new .empty reads, ∃ p, r = .ok p

section

variable {s : Bytes}

theorem Returning.safe (h : Returning env s) {reads : List Bytes} (hs : reads.flatten = s) {t : HttpRequest D}
    {x : Bytes} (hv : Visits (token env maxRequestLineLen) new [] reads t x) : Safe env t x := by
  have hall := (calls_return_iff env .empty reads).mp (h reads hs)
  rw [Buffer.readable_empty] at hall
  exact hall t x hv

theorem Returning.line (h : Returning env s) (m : HttpMethod) : ¬ m.str ++ crlf <+: s := by
  intro hp
  obtain ⟨z, rfl⟩ := hp
  have hv : Visits (token env maxRequestLineLen) (new : HttpRequest D) [] [m.str ++ crlf, z] new
      ([] ++ (m.str ++ crlf)) := .here .refl
  refine (h.safe (by simp) hv).line rfl ?_ m.str.length ?_ m ?_
  · cases m <;> decide
  · cases m <;> decide
  · rw [List.nil_append, List.take_left]

theorem Returning.headers (h : Returning env s) {m : HttpMethod} {hd : HttpHeader} {x : Bytes}
    (hhead : Head m hd s (crlf ++ x)) : Readable hd := by
  obtain ⟨c, rfl, hc⟩ := hhead
  obtain ⟨reads, t, hflat, hrun, hst, rfl⟩ := hc.run env
  have hv : Visits (token env maxRequestLineLen) t [] [crlf ++ x] t ([] ++ (crlf ++ x)) := .here .refl
  exact (h.safe (by simp [hflat]) (hrun.visits rfl hv)).headers hst (List.prefix_append _ _)

/-- A stream that goes on with a body that is not decoded faults when it is read piece by piece. -/
theorem Returning.body (h : Returning env s) {hd : HttpHeader} {w z : Bytes} (hs : s = w ++ z) :
    ¬ Rest (Framing.Faulty env) (new : HttpRequest D) hd w := by
  intro hrest
  obtain ⟨reads, v, t, y, hflat, hrun, ⟨f, rfl⟩⟩ := Rest.read_on (x := []) endsCall_faulty wf_new (token_new_nil env)
    (counted_of_lt (by simp)) hrest
  obtain ⟨u, x, n, hv, hstep⟩ := hrun.halts
  have hcut : (reads ++ [z]).flatten = s := by simp [hflat, hs]
  have hsafe := h.safe hcut (hv.append [z])
  exact token_safe env (Wf.visits env hv wf_new) hstep hsafe

end

/-- Every call returns for every cut of a stream exactly when the stream is harmless. -/
theorem stream_returns_iff (env : Env D) (s : Bytes) :
    (∀ reads, reads.flatten = s → ∀ r ∈ calls env new .empty reads, ∃ p, r = .ok p) ↔ Harmless env s := by
  constructor
  · intro h
    have hret : Returning env s := h
    refine ⟨hret.line, fun m hd x hhead => hret.headers hhead, fun m hd w x body hhead hframed hfaulty => ?_⟩
    have hread := hret.headers hhead
    obtain ⟨-, rfl, l, text, rfl, hl, hmax, ht, hh⟩ := hhead
    have hs : l ++ crlf ++ text ++ (crlf ++ (w ++ x)) = l ++ crlf ++ (text ++ (crlf ++ w)) ++ x := by
      simp only [List.append_assoc]
    exact hret.body hs (.line rfl hl hmax ht hh hread hframed hfaulty)
  · intro h reads hs
    subst hs
    refine (calls_return_iff env .empty reads).mpr fun t x hv => h.safe ?_
    rwa [Buffer.readable_empty] at hv

end HahaWeb.HttpRequest
