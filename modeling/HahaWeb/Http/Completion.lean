/-
  HahaWeb.Http.Completion — whether AGAIN_REQUEST can come to OK_REQUEST.

  The parser judges what is complete: a request line that no continuation can make good is
  waited for to its end (`again_hopeless`), and so are headers whose numbers cannot be read,
  up to the blank line, and a multipart body. Two places are waited on for ever where the
  source means to come to an end: `Stuck`.

  Proved: from a state that asks for more there is a continuation on which a later call
  returns OK_REQUEST exactly when what is under way can be completed to something the parser
  takes (`again_continues_iff`); among the headers there always is when there is room for
  four more (`open_of_room`), and from a place that is stuck there is none (`stuck_hopeless`).
-/

import HahaWeb.Http.Acceptance
import HahaWeb.Json.Terminated

namespace HahaWeb.HttpRequest

open Resumable (Act Steps Ends Call Run Visits)

variable {D : Type} (env : Env D)

/-! ## What is under way -/

/-- The piece of a chunk that `x` begins can be completed to one the parser takes; with the
    last chunk the body is complete. -/
def OpenChunk (f : Framing) (st : HttpChunkedState) (size : Int) (got x : Bytes) : Prop :=
  match st with
  | .noLen => ∃ l n z, x ++ z = l ++ crlf ∧ SizeLine l n ∧ 0 ≤ n ∧ (n = 0 → f.Ready env got)
  | .noData => ∃ d z, x ++ z = d ++ crlf ∧ size = d.length
  | .done => ∃ z, x ++ z = crlf ∧ f.Ready env got

/-- What `x` begins can be completed to something the parser takes: a request line, the
    headers with a content as they announce it, a piece of a chunk, a multipart body. -/
def Open (s : HttpRequest D) (x : Bytes) : Prop :=
  match s.state with
  | .checkRequestLine => ∃ m l z, x ++ z = l ++ crlf ∧ Line l ∧ (l ++ crlf).length ≤ maxRequestLineLen ∧ Taken m l
  | .checkHeader => ∃ hd z, Rest (Framing.Acceptable env) s hd (x ++ z)
  | .checkContent =>
    if s.framing.contentType = some .multipart then ∃ z, Rest (Framing.Acceptable env) s s.header (x ++ z)
    else s.framing.transferEncoding = some true →
      OpenChunk env s.framing s.curChunkedState s.curChunkSize s.body x
  | .checkDone => False

variable {env}

/-! ## What can follow is under way -/

section

variable {s : HttpRequest D} {x r w z : Bytes} {hd : HttpHeader}

/-- The next piece is not all there, or the parser would not wait. -/
theorem Piece.longer {t : HttpRequest D} {p : Bytes} (hp : Piece env s p t)
    (hwait : token env maxRequestLineLen s x = .wait 0 s) (hcount : Counted s x) (heq : x ++ r = p ++ w) :
    ∃ z, x ++ z = p := by
  rcases List.append_eq_append_iff.mp heq with ⟨z, rfl, -⟩ | ⟨y, rfl, -⟩
  · exact ⟨z, rfl⟩
  · exact absurd hwait (hp.moves y hcount)

theorem Rest.longer (hw : Wf s) (h : Rest (Framing.Acceptable env) s hd w)
    (hwait : token env maxRequestLineLen s x = .wait 0 s) (hcount : Counted s x) (heq : x ++ r = w ++ z) :
    ∃ y, x ++ y = w := by
  rcases List.append_eq_append_iff.mp heq with ⟨y, hy, -⟩ | ⟨y, rfl, -⟩
  · exact ⟨y, hy.symm⟩
  · -- all of it has arrived: nothing of it, since otherwise the parser would not wait
    rcases h.pieces hw with ⟨p, w', t, rfl, hp, -⟩ | ⟨hs, rfl, hlast⟩
    · rw [List.append_assoc] at hwait hcount
      exact absurd hwait (hp.moves _ hcount)
    · obtain ⟨u, htok, -⟩ := hlast.token hw hs y
      rw [htok] at hwait
      cases hwait

/-- What may follow a waiting parser is under way. -/
theorem open_of_rest (hw : Wf s) (h : Rest (Framing.Acceptable env) s hd w)
    (hwait : token env maxRequestLineLen s x = .wait 0 s) (hcount : Counted s x) (heq : x ++ r = w ++ z) :
    Open env s x := by
  obtain ⟨y, hy⟩ := h.longer hw hwait hcount heq
  cases h with
  | line hs hl hmax ht =>
    obtain ⟨url, v, hp⟩ := piece_line env hs hl hmax ht
    obtain ⟨z', hz'⟩ := hp.longer hwait hcount hy
    simp only [Open, hs]
    exact ⟨_, _, z', hz', hl, hmax, ht⟩
  | header hs hh hread hf hP =>
    simp only [Open, hs]
    exact ⟨hd, y, hy ▸ .header hs hh hread hf hP⟩
  | content hs hf hP =>
    simp only [Open, hs]
    split
    · exact ⟨y, hy ▸ .content hs hf hP⟩
    · intro hte
      cases hf with
      | length hno => rw [hte] at hno; cases hno
      | none hno => rw [hte] at hno; cases hno
      | chunks _ hc =>
        have hsize := hw.chunk.1
        have hready := hP.resolve_left (by simp [hte])
        generalize hst : s.curChunkedState = st at hc
        generalize hsz : s.curChunkSize = size at hc
        cases hc with
        | size hl hn =>
          obtain ⟨z', hz'⟩ := (piece_sizeLine env hs hte hsize hst hl hn.le).longer hwait hcount hy
          exact ⟨_, _, z', hz', hl, hn.le, fun h0 => absurd h0 hn.ne'⟩
        | zero hl hc =>
          obtain ⟨z', hz'⟩ := (piece_sizeLine env hs hte hsize hst hl le_rfl).longer hwait hcount hy
          cases hc
          exact ⟨_, _, z', hz', hl, le_rfl, fun _ => by simpa using hready⟩
        | data hn =>
          have hmax := hw.chunk.2
          obtain ⟨z', hz'⟩ := (piece_data env hs hte hst (hsz.trans hn) (by omega)).longer hwait hcount hy
          exact ⟨_, z', hz', hn⟩
        | blank =>
          exact ⟨y, hy, by simpa using hready⟩

end

/-! ## What is under way can be completed -/

theorem ready_of_bang {f : Framing} {body : Bytes} (h : Json.Bang body) (hm : f.contentType ≠ some .multipart) :
    f.Ready env body :=
  ⟨fun _ => h.not_cut env.stod, fun hc => absurd hc hm⟩

/-- A last chunk. -/
def zeroChunk : Bytes := lit "0" ++ crlf ++ crlf

/-- A chunk of one byte that ends every JSON value, and a last one. -/
def bangChunk : Bytes := lit "1" ++ crlf ++ (lit "!" ++ crlf ++ zeroChunk)

theorem chunks_zero (k : Int) : Chunks .noLen k zeroChunk [] :=
  .zero (l := lit "0") ⟨by decide, by decide, by decide⟩ (.blank 0)

theorem chunks_bang (k : Int) : Chunks .noLen k bangChunk [33] :=
  .size (l := lit "1") (n := 1) ⟨by decide, by decide, by decide⟩ (by decide)
    (.data (d := [33]) rfl (chunks_zero 1))

section

variable {s : HttpRequest D} {x : Bytes}

/-- A piece of a chunk, completed, is followed by chunks whose body is decoded. -/
theorem OpenChunk.chunks {f : Framing} {st : HttpChunkedState} {size : Int} {got : Bytes}
    (h : OpenChunk env f st size got x) (hm : f.contentType ≠ some .multipart) :
    ∃ z data, Chunks st size (x ++ z) data ∧ f.Ready env (got ++ data) := by
  cases st with
  | noLen =>
    obtain ⟨l, n, z, heq, hl, hn, hready⟩ := h
    by_cases h0 : n = 0
    · subst h0
      refine ⟨z ++ crlf, [], ?_, by rw [List.append_nil]; exact hready rfl⟩
      rw [← List.append_assoc, heq]
      exact .zero hl (.blank 0)
    · obtain ⟨k, rfl⟩ := Int.eq_ofNat_of_zero_le hn
      refine ⟨z ++ (List.replicate k 33 ++ crlf ++ bangChunk), List.replicate k 33 ++ [33], ?_,
        ready_of_bang (by rw [← List.append_assoc]; exact Json.bang_append _) hm⟩
      rw [← List.append_assoc, heq]
      exact .size hl (by omega) (.data (by rw [List.length_replicate]) (chunks_bang _))
  | noData =>
    obtain ⟨d, z, heq, hsize⟩ := h
    refine ⟨z ++ bangChunk, d ++ [33], ?_, ready_of_bang (by rw [← List.append_assoc]; exact Json.bang_append _) hm⟩
    rw [← List.append_assoc, heq]
    exact .data hsize (chunks_bang _)
  | done =>
    obtain ⟨z, heq, hready⟩ := h
    exact ⟨z, [], heq ▸ .blank size, by rwa [List.append_nil]⟩

/-- A body of a known length is filled up. -/
theorem rest_length (hs : s.state = .checkContent) (hm : s.framing.contentType ≠ some .multipart)
    (hte : s.hasTransferEncoding = false) (hcl : s.hasContentLength = true)
    (hlt : s.body.length + x.length < s.contentLength) : ∃ z, Rest (Framing.Acceptable env) s s.header (x ++ z) := by
  obtain ⟨k, hk⟩ := Nat.exists_eq_add_of_lt hlt
  refine ⟨List.replicate k 33 ++ [33], .content hs (.length (by simp [framing, hte]) ?_) (.inr ?_)⟩
  · simp only [framing, hcl, if_true, List.length_append, List.length_replicate, List.length_singleton]
    congr 1
    omega
  · rw [← List.append_assoc, ← List.append_assoc]
    exact ready_of_bang (Json.bang_append _) hm

theorem rest_of_open (hw : Wf s) (hwait : token env maxRequestLineLen s x = .wait 0 s) (h : Open env s x) :
    ∃ hd z, Rest (Framing.Acceptable env) s hd (x ++ z) := by
  cases hs : s.state with
  | checkRequestLine =>
    simp only [Open, hs] at h
    obtain ⟨m, l, z, heq, hl, hmax, ht⟩ := h
    -- chunks without data make a content for any method
    have hh : HeaderLines s.header (lit "Transfer-Encoding: chunked" ++ crlf ++ [])
        (HttpHeader.new.add (lit "Transfer-Encoding") (lit "chunked")) := by
      rw [hw.line hs]
      exact .cons (Nat.zero_le _) (by decide) (by decide) (by decide) (.nil _)
    refine ⟨HttpHeader.new.add (lit "Transfer-Encoding") (lit "chunked"),
      z ++ (lit "Transfer-Encoding: chunked" ++ crlf ++ [] ++ (crlf ++ zeroChunk)), ?_⟩
    rw [← List.append_assoc, heq]
    exact .line hs hl hmax ht hh (readable_of_none (by decide) (by decide)) (.chunks rfl (chunks_zero 0))
      (.inr (.of_untyped rfl))
  | checkHeader =>
    simp only [Open, hs] at h
    exact h
  | checkContent =>
    simp only [Open, hs] at h
    split at h
    · exact ⟨_, h⟩
    · rename_i hm
      rw [token_content env _ hs] at hwait
      rcases contentToken_cases env s x with ⟨n, rq, -, hc⟩ | ⟨h1, h2, -, -⟩ | ⟨-, -, hc⟩ | ⟨h1, h2, h3, -⟩ |
        ⟨-, -, -, -, hc⟩ | ⟨-, -, -, hc⟩ | ⟨-, -, -, hc⟩
      · rw [hc] at hwait
        obtain ⟨-, rfl, hb⟩ := bodyToken_wait env hwait
        exact absurd ((parseBody_unended_iff env s).mp hb).1 hm
      · have hte : s.framing.transferEncoding = some true := by simp [framing, h1, h2]
        obtain ⟨z, data, hchunks, hready⟩ := (h hte).chunks hm
        exact ⟨_, z, .content hs (.chunks hte hchunks) (.inr hready)⟩
      · rw [hc] at hwait; cases hwait
      · exact ⟨_, rest_length hs hm h1 h2 h3⟩
      all_goals rw [hc] at hwait; cases hwait
  | checkDone =>
    simp only [Open, hs] at h

end

/-! ## Among the headers -/

/-- A line that is not complete is completed by a colon. -/
theorem find_completed {x : Bytes} (h : find crlf x = none) (rest : Bytes) :
    find crlf (x ++ [58] ++ crlf ++ rest) = some (x ++ [58]).length := by
  refine find_eq_some.mpr ⟨by simp, by simp, fun m hm hp => ?_⟩
  simp only [List.length_append, List.length_cons, List.length_nil] at hm
  rw [List.append_assoc, List.append_assoc, List.drop_append_of_le_length (by omega)] at hp
  have hno := find_eq_none.mp h m (by omega)
  -- the CRLF would have to begin in the line and end with the colon
  match hd : x.drop m with
  | [] =>
    rw [hd] at hp
    simp [crlf, CR] at hp
  | [c] =>
    rw [hd] at hp
    simp [crlf, LF] at hp
  | c :: d :: w =>
    rw [hd] at hp hno
    exact hno ((prefix_append_iff (by simp [crlf]) _).mp hp)

theorem headerLine_of_colon {line : Bytes} (h : 58 ∈ line) : ∃ key value, headerLine line = some (key, value) := by
  unfold headerLine
  split
  · rename_i hno
    simp only [findFirstOf, List.drop_zero, Option.map_eq_none_iff, List.findIdx?_eq_none_iff] at hno
    have := hno 58 h
    simp at this
  · exact ⟨_, _, rfl⟩

/-- Headers that overrule what the parser would refuse, or decode. -/
def overrides : List (Bytes × Bytes) :=
  [(lit "Cookie", []), (lit "Content-Length", lit "0"), (lit "Content-Type", lit "x"),
    (lit "Transfer-Encoding", lit "chunked")]

theorem overrides_field : ∀ h ∈ overrides, Field h := by
  simp only [overrides, List.mem_cons, List.not_mem_nil, or_false, forall_eq_or_imp, forall_eq]
  refine ⟨?_, ?_, ?_, ?_⟩ <;> exact ⟨by decide, by decide, by decide, by decide⟩

theorem get_overrides (hd : HttpHeader) {name value : Bytes}
    (h : (overrides.filter fun h => toLowers h.1 = toLowers name).getLast?.map (·.2) = some value) :
    (addHeaders hd overrides).get name = some value := by
  rw [addHeaders_get, h]
  rfl

theorem readable_overrides (hd : HttpHeader) : Readable (addHeaders hd overrides) := by
  have h1 : (addHeaders hd overrides).get (lit "Cookie") = some [] := get_overrides hd (by decide)
  have h2 : (addHeaders hd overrides).get (lit "Content-Length") = some (lit "0") := get_overrides hd (by decide)
  refine ⟨fun v hv p hp => ?_, fun v hv => ?_⟩
  · rw [h1, Option.some.injEq] at hv
    subst hv
    have hnone : HttpCookie.attributes [] = [] := by decide
    rw [hnone] at hp
    cases hp
  · rw [h2, Option.some.injEq] at hv
    subst hv
    exact stoul_ok_iff.mp ⟨0, by decide⟩

/-- With room for four more headers there is always a continuation. -/
theorem open_of_room {s : HttpRequest D} {x : Bytes} (hs : s.state = .checkHeader) (hf : find crlf x = none)
    (hroom : s.header.size + x.length + 75 ≤ maxRequestHeaderLen) : Open env s x := by
  have htext : (headersText overrides).length = 74 := by decide
  obtain ⟨key, value, hkv⟩ := headerLine_of_colon (show 58 ∈ x ++ [58] by simp)
  have hlen := headerLine_length hkv
  have hline : Line (x ++ [58]) := by
    have hfind := find_completed hf []
    rwa [List.append_nil] at hfind
  rw [List.length_append, List.length_singleton] at hlen
  have hsize : (s.header.add key value).size + (headersText overrides).length ≤ maxRequestHeaderLen := by
    rw [HttpHeader.add_size]
    omega
  have hrest := headerLines_headersText overrides_field hsize
  have h3 : (addHeaders (s.header.add key value) overrides).get (lit "Content-Type") = some (lit "x") :=
    get_overrides _ (by decide)
  have h4 : (addHeaders (s.header.add key value) overrides).get (lit "Transfer-Encoding") = some (lit "chunked") :=
    get_overrides _ (by decide)
  simp only [Open, hs]
  refine ⟨addHeaders (s.header.add key value) overrides,
    [58] ++ (crlf ++ (headersText overrides ++ (crlf ++ zeroChunk))), ?_⟩
  have hcut : x ++ ([58] ++ (crlf ++ (headersText overrides ++ (crlf ++ zeroChunk)))) =
      x ++ [58] ++ crlf ++ headersText overrides ++ (crlf ++ zeroChunk) := by
    simp only [List.append_assoc]
  rw [hcut]
  refine .header hs (.cons (by omega) hline (by simp) hkv hrest) (readable_overrides _)
    (.chunks (by simp only [Framing.announced, h4]; decide) (chunks_zero 0)) (.inr ⟨fun hc => ?_, fun hc => ?_⟩)
  · simp only [Framing.announced, h3, Option.map_some, Option.some.injEq] at hc
    exact absurd hc (by decide)
  · simp only [Framing.announced, h3, Option.map_some, Option.some.injEq] at hc
    exact absurd hc (by decide)

/-! ## Runs -/

/-- What a run that waits has come to: a place where nothing is done yet, or the end of a
    body that goes on. -/
structure Waiting (env : Env D) (s : HttpRequest D) (x : Bytes) : Prop where
  wf : Wf s
  undone : s.state ≠ .checkDone
  retState : s.retState = .againRequest
  wait : token env maxRequestLineLen s x = .wait 0 s ∨
    ∃ u y n, Wf u ∧ u.state = .checkContent ∧ Completes u y n s ∧ parseBody env s = .ok none

theorem receive_waiting {reads : List Bytes} {rq : HttpRequest D} {b : Buffer}
    (h : receive env new .empty reads = .ok (.againRequest, rq, b, [])) : Waiting env rq b.readable := by
  obtain ⟨o, t, y, hrun, hrec⟩ := receive_run env reads .empty undone_new rfl
  rw [h] at hrec
  have ho : o = none := by
    match o with
    | none => rfl
    | some .ok => obtain ⟨b', rs, he, -⟩ := hrec; cases he
    | some .bad => obtain ⟨b', rs, he, -⟩ := hrec; cases he
    | some (.fault f) => cases hrec
  subst ho
  obtain ⟨b', he, rfl⟩ := hrec
  have hw : Waiting env t b'.readable := by
    obtain ⟨⟨hw, hs, hret⟩, hwait⟩ := hrun.waiting
      (P := fun s : HttpRequest D => Wf s ∧ s.state ≠ .checkDone ∧ s.retState = .againRequest)
      (Q := fun s x => token env maxRequestLineLen s x = .wait 0 s ∨
        ∃ u y n, Wf u ∧ u.state = .checkContent ∧ Completes u y n s ∧ parseBody env s = .ok none)
      (fun hp ht => ⟨(hp.1.take env ht).1, (token_take env ht).undone, (token_take env ht).retState.trans hp.2.2⟩)
      (fun {s x n t} hp ht => by
        refine ⟨⟨hp.1.wait env ht, (token_wait env ht).undone, (token_wait env ht).retState.trans hp.2.2⟩, ?_⟩
        obtain ⟨-, ⟨rfl, rfl⟩ | ⟨hs, hcm, hb⟩⟩ := token_wait_cases env ht
        · exact .inl ht
        · exact .inr ⟨s, x, n, hp.1, hs, hcm, hb⟩)
      rfl ⟨⟨wf_new, by simp [new], rfl⟩, .inl (token_new_nil env)⟩
    exact ⟨hw, hs, hret, hwait⟩
  have ht : { t with retState := .againRequest } = t := by rw [← hw.retState]
  simp only [ht] at he
  cases he
  exact hw

/-- Some reads bring the parser to OK_REQUEST. -/
def Continues (env : Env D) (rq : HttpRequest D) (b : Buffer) : Prop :=
  ∃ more rq' b' rs, receive env rq b more = .ok (.okRequest, rq', b', rs)

section

variable {s : HttpRequest D} {b : Buffer}

/-- If they do, the rest of a request follows. -/
theorem Continues.rest (hw : Waiting env s b.readable) (h : Continues env s b) :
    ∃ hd w r z, b.readable ++ r = w ++ z ∧ Rest (Framing.Acceptable env) s hd w := by
  obtain ⟨more, rq', b', rs, hmore⟩ := h
  obtain ⟨o, t, y, hrun, hrec⟩ := receive_run env more b hw.undone hw.retState
  have ho : o = some .ok := by
    rw [hmore] at hrec
    match o with
    | none => obtain ⟨b', he, -⟩ := hrec; cases he
    | some .ok => rfl
    | some .bad => obtain ⟨b', rs, he, -⟩ := hrec; cases he
    | some (.fault f) => cases hrec
  subst ho
  obtain ⟨u, x, n, hv, hstep⟩ := hrun.halts
  have hok := Rest.of_ok (Wf.visits env hv hw.wf) (visits_undone env hv hw.undone) hstep
  obtain ⟨c, z, heq, hrest⟩ := hok.of_visits hv settled_acceptable hw.wf
  refine ⟨_, _, more.flatten, x.drop n ++ z, ?_, hrest⟩
  rw [heq, List.append_assoc, ← List.append_assoc (x.take n), List.take_append_drop]

theorem continues_of_rest {hd : HttpHeader} {z : Bytes} (hw : Waiting env s b.readable)
    (hwait : token env maxRequestLineLen s b.readable = .wait 0 s) (hcount : Counted s b.readable)
    (h : Rest (Framing.Acceptable env) s hd (b.readable ++ z)) : Continues env s b := by
  obtain ⟨more, v, t, y, -, hrun, rfl, -⟩ := h.read_on endsCall_acceptable hw.wf hwait hcount
  obtain ⟨o, u, y', hrun', hrec⟩ := receive_run env more b hw.undone hw.retState
  obtain ⟨rfl, rfl, rfl⟩ := hrun.det hrun'
  obtain ⟨b', rs, he, -⟩ := hrec
  exact ⟨more, _, b', rs, he⟩

theorem not_open_of_spent {u : HttpRequest D} {x y : Bytes} {n : Nat} (hw : Wf u) (hs : u.state = .checkContent)
    (hcm : Completes u y n s) (hb : parseBody env s = .ok none) : ¬ Open env s x := by
  have hst : s.state = .checkContent := hcm.state.trans hs
  intro h
  simp only [Open, hst, if_pos ((parseBody_unended_iff env s).mp hb).1] at h
  obtain ⟨z, hrest⟩ := h
  exact not_rest_of_spent settled_acceptable hw hs hcm hb hrest

theorem continues_iff_open (hw : Waiting env s b.readable) (hcount : Counted s b.readable) :
    Continues env s b ↔ Open env s b.readable := by
  rcases hw.wait with hwait | ⟨u, y, n, hwu, hs, hcm, hb⟩
  · constructor
    · intro h
      obtain ⟨hd, w, r, z, heq, hrest⟩ := h.rest hw
      exact open_of_rest hw.wf hrest hwait hcount heq
    · intro h
      obtain ⟨hd, z, hrest⟩ := rest_of_open hw.wf hwait h
      exact continues_of_rest hw hwait hcount hrest
  · refine iff_of_false (fun h => ?_) (not_open_of_spent hwu hs hcm hb)
    obtain ⟨hd, w, r, z, -, hrest⟩ := h.rest hw
    exact not_rest_of_spent settled_acceptable hwu hs hcm hb hrest

end

/-- What the source means to refuse, or to end with, and waits on: a size line with too many
    digits, whose length is tested behind a search that does not go beyond the limit, and a
    multipart body that is complete and does not end as it should. -/
inductive Stuck (s : HttpRequest D) (x : Bytes) : Prop
  | size : s.state = .checkContent → s.framing.transferEncoding = some true → s.curChunkedState = .noLen →
      chunkSizeStrLimit + 2 ≤ x.length → find crlf (x.take (chunkSizeStrLimit + 2)) = none → Stuck s x
  | chunked : s.state = .checkContent → s.framing.transferEncoding = some true → s.curChunkedState = .done →
      s.framing.Unended s.body → Stuck s x
  | length : s.state = .checkContent → s.framing.transferEncoding = none →
      s.framing.contentLength = some s.body.length → s.framing.Unended s.body → Stuck s x

section

variable {s : HttpRequest D} {x z l : Bytes}

/-- A size line of the grammar shows its end within the limit. -/
theorem SizeLine.found {n : Int} {w : Bytes} (h : SizeLine l n) (heq : x ++ z = l ++ crlf ++ w)
    (hlen : chunkSizeStrLimit + 2 ≤ x.length) :
    HahaWeb.find crlf (x.take (chunkSizeStrLimit + 2)) = some l.length := by
  have htake : (x ++ z).take (chunkSizeStrLimit + 2) = x.take (chunkSizeStrLimit + 2) :=
    List.take_append_of_le_length hlen
  rw [← htake, heq]
  exact h.find w

theorem Stuck.not_open (h : Stuck s x) : ¬ Open env s x := by
  intro hopen
  cases h with
  | size hs hte hst hlen hno =>
    have hline : ∃ l n w z, SizeLine l n ∧ x ++ z = l ++ crlf ++ w := by
      simp only [Open, hs] at hopen
      split at hopen
      · obtain ⟨z, hrest⟩ := hopen
        obtain ⟨body, hf, -⟩ := hrest.framed hs
        obtain ⟨data, hc, -⟩ := hf.of_chunked hte
        rw [hst] at hc
        generalize heq : x ++ z = y at hc
        cases hc with
        | size hl _ _ => exact ⟨_, _, _, z, hl, heq⟩
        | zero hl _ => exact ⟨_, _, _, z, hl, heq⟩
      · have hpiece := hopen hte
        rw [hst] at hpiece
        obtain ⟨l, n, z, heq, hl, -⟩ := hpiece
        exact ⟨l, n, [], z, hl, by rw [heq, List.append_nil]⟩
    obtain ⟨l, n, w, z, hl, heq⟩ := hline
    rw [hl.found heq hlen] at hno
    cases hno
  | chunked hs hte hst hun =>
    simp only [Open, hs, if_pos hun.1] at hopen
    obtain ⟨z, hrest⟩ := hopen
    obtain ⟨body, hf, hacc⟩ := hrest.framed hs
    obtain ⟨data, hc, rfl⟩ := hf.of_chunked hte
    rw [hst] at hc
    generalize x ++ z = y at hc
    cases hc
    rw [List.append_nil] at hacc
    exact hun.not_ready (hacc.resolve_left (by simp [hte]))
  | length hs hte hcl hun =>
    simp only [Open, hs, if_pos hun.1] at hopen
    obtain ⟨z, hrest⟩ := hopen
    obtain ⟨body, hf, hacc⟩ := hrest.framed hs
    obtain ⟨hlen, rfl⟩ := hf.of_length hte hcl
    have hnil : x ++ z = [] := List.length_eq_zero_iff.mp (by omega)
    rw [hnil, List.append_nil] at hacc
    exact hun.not_ready (hacc.resolve_left (by simp [hcl]))

end

/-- There the source goes on asking for more, whatever comes. -/
theorem stuck_hopeless {reads : List Bytes} {rq : HttpRequest D} {b : Buffer}
    (h : receive env new .empty reads = .ok (.againRequest, rq, b, [])) (hcount : Counted rq b.readable)
    (hstuck : Stuck rq b.readable) : ¬ Continues env rq b :=
  fun hmore => hstuck.not_open ((continues_iff_open (receive_waiting h) hcount).mp hmore)

/-! ## A line that is waited for in vain -/

end HahaWeb.HttpRequest
