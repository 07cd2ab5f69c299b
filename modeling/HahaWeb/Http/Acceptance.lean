/-
  HahaWeb.Http.Acceptance — the parser takes the requests of the grammar, and no others.

  One way, what a token consumes stands in front of what may follow the next state
  (`Rest.of_take`), so whatever a run consumed is of the grammar (`Rest.of_visits`). The other
  way, what may follow a state is a piece that is taken whole, and the rest, or the last
  piece (`Rest.pieces`), so a text of the grammar is read piece by piece to its end
  (`Rest.read_on`). Both are for any predicate on the complete body; it is a parameter of the
  grammar, and says whether the body is accepted, refused, or not decoded.
-/

import HahaWeb.Http.Chunked
import HahaWeb.Http.RequestGrammar

namespace HahaWeb.HttpRequest

open Resumable (Act Steps Ends Call Run Visits)

variable {D : Type} (env : Env D)

/-! ## The body -/

/-- A complete body makes the parser wait when it is a multipart body that goes on. -/
theorem parseBody_unended_iff (rq : HttpRequest D) : parseBody env rq = .ok none ↔ rq.framing.Unended rq.body := by
  constructor
  · intro h
    obtain ⟨hct, hm, -⟩ := parseBody_none env h
    refine ⟨by simp [framing, hct, hm], fun hend => ?_⟩
    rw [parseBody_multipart env hct hm] at h
    split at h
    · rename_i hgo
      rcases hend with hle | hsuf
      · exact absurd hgo.1 (not_lt.mpr hle)
      · exact hgo.2 hsuf
    · cases hp : rq.multipart.parse rq.body <;> rw [hp] at h <;> cases h
  · intro h
    obtain ⟨htype, hend⟩ := h
    simp only [framing, Option.ite_none_right_eq_some] at htype
    obtain ⟨hlen, hsuf⟩ := not_or.mp hend
    rw [parseBody_multipart env htype.1 htype.2]
    exact if_pos ⟨not_le.mp hlen, hsuf⟩

theorem parseBody_ready_iff (rq : HttpRequest D) :
    (∃ rq', parseBody env rq = .ok (some rq')) ↔ rq.framing.Ready env rq.body := by
  have htype : ∀ {k : HttpContentType}, rq.framing.contentType = some k ↔ rq.hasContentType = true ∧
      rq.contentType = some k := by simp [framing]
  constructor
  · intro h
    obtain ⟨rq', h⟩ := h
    have hdec := (parseBody_decodable_iff env rq).mp ⟨_, h⟩
    refine ⟨fun hk => ?_, fun hk => ?_⟩
    · obtain ⟨hct, hj⟩ := htype.mp hk
      exact (hdec hct).1 hj
    · obtain ⟨hct, hm⟩ := htype.mp hk
      have hend : rq.framing.Ended rq.body := by
        by_contra hno
        rw [(parseBody_unended_iff env rq).mpr ⟨hk, hno⟩] at h
        cases h
      exact ⟨hend, (hdec hct).2 hm hend⟩
  · intro h
    have hdec : Decodable env rq := fun hct =>
      ⟨fun hj => h.1 (htype.mpr ⟨hct, hj⟩), fun hm _ => (h.2 (htype.mpr ⟨hct, hm⟩)).2⟩
    obtain ⟨o, ho⟩ := (parseBody_decodable_iff env rq).mpr hdec
    cases o with
    | some rq' => exact ⟨rq', ho⟩
    | none =>
      obtain ⟨hk, hno⟩ := (parseBody_unended_iff env rq).mp ho
      exact absurd (h.2 hk).1 hno

/-- The blank line leaves what the headers announce. -/
theorem framing_of_parseHeaders {s rq : HttpRequest D} (he : Early s) (h : parseHeaders env s = .ok rq) :
    rq.framing = .announced s.header s.method s.multipart := by
  obtain ⟨k, a, c, hc, ck, n, te, sn, rfl, hn⟩ := parseHeaders_ok env h
  simp only [framing, Framing.announced, he.hasContentType, he.contentType, he.hasContentLength,
    he.hasTransferEncoding, he.chunked, Bool.false_or, Option.or_none]
  congr 1
  · cases s.header.get (lit "Transfer-Encoding") <;> simp
  · cases hv : s.header.get (lit "Content-Length") with
    | none => rfl
    | some v => simp [hn v hv, Except.toOption]
  · cases s.header.get (lit "Content-Type") <;> simp

/-- What is announced is kept while the chunks are read. -/
theorem framing_chunk {s t : HttpRequest D} {x : Bytes} {n : Nat} (h : chunkToken s x = .take n t) :
    t.framing = s.framing := by
  obtain ⟨body, st, size, rfl⟩ := chunkToken_take h
  rfl

/-! ## What was taken is of the grammar -/

/-- The line that is taken, and the members it sets. -/
theorem parseLine_taken {rq rq' : HttpRequest D} {line : Bytes} {i : Nat}
    (h : parseLine rq line = .ok (some i, rq')) : i = line.length + 2 ∧
      ∃ m url v, Taken m line ∧ rq' = { rq with method := some m, reqUrl := url, version := v } := by
  obtain ⟨m, c, target, v, hacc, rfl⟩ := (parseLine_ok_iff rq line).mp ⟨i, rq', h⟩
  obtain ⟨hspace, url, hurl, hstate⟩ := id hacc
  rw [parseLine_skips rq m c v hspace hurl hstate] at h
  cases h
  exact ⟨rfl, m, url, v, ⟨c, target, v, hacc, rfl⟩, rfl⟩

/-- A piece of a chunk that is taken stands in front of the rest of the chunks. -/
theorem Chunks.of_take {s t : HttpRequest D} {x w data : Bytes} {n : Nat} (h : chunkToken s x = .take n t)
    (hc : Chunks t.curChunkedState t.curChunkSize w data) : ∃ d, t.body = s.body ++ d ∧
    Chunks s.curChunkedState s.curChunkSize (x.take n ++ w) (d ++ data) := by
  unfold chunkToken chunkTokenBy at h
  dsimp only at h
  split at h
  · rename_i hs
    split at h
    · cases h
    · rename_i pos hf
      have hle := find_le hf
      obtain ⟨hlen, -⟩ := sizeLine_le hf
      obtain ⟨hpos, hline, htake⟩ := line_of_find hf
      simp only [crlf, List.length_take, List.length_cons, List.length_nil] at hle
      rw [List.take_take, Nat.min_eq_left (by omega)] at hpos hline htake
      rw [List.take_take, Nat.min_eq_left (by omega)] at htake
      have hsize : SizeLine (x.take pos) (hexSize (x.take pos)) := ⟨hline, hlen, hexString2Int_short (by
        simp only [chunkSizeStrLimit] at hlen
        omega)⟩
      rw [hs]
      split at h
      · rename_i h0
        cases h
        simp only [h0] at hc hsize
        exact ⟨[], by simp, htake ▸ .zero hsize hc⟩
      · rename_i h0
        split at h
        · cases h
        · rename_i h1
          cases h
          have hpos := hexSize_nonneg h1
          exact ⟨[], by simp, htake ▸ .size hsize (by omega) hc⟩
  · rename_i hs
    split at h
    · cases h
    · rename_i hw
      split at h
      · cases h
      · rename_i hn
        split at h
        · rename_i hp
          cases h
          have hle := toInt_le x.length
          have hlen : (x.take s.curChunkSize.toNat).length = s.curChunkSize.toNat := by
            rw [List.length_take]
            omega
          have htake : x.take (s.curChunkSize.toNat + 2) = x.take s.curChunkSize.toNat ++ crlf := by
            rw [List.take_add]
            congr 1
            exact (List.prefix_iff_eq_take.mp hp).symm
          rw [hs, htake]
          exact ⟨_, rfl, .data (by rw [hlen]; omega) hc⟩
        · cases h
  · repeat' split at h
    all_goals cases h

theorem Framed.of_take {s t : HttpRequest D} {x w body : Bytes} {n : Nat} (hte : s.framing.transferEncoding = some true)
    (h : chunkToken s x = .take n t) (hf : Framed t.framing t.curChunkedState t.curChunkSize t.body w body) :
    Framed s.framing s.curChunkedState s.curChunkSize s.body (x.take n ++ w) body := by
  rw [framing_chunk h] at hf
  cases hf with
  | chunks _ hc =>
    obtain ⟨d, hd, hc'⟩ := Chunks.of_take h hc
    rw [hd, List.append_assoc]
    exact .chunks hte hc'
  | length hno _ => rw [hte] at hno; cases hno
  | none hno _ _ => rw [hte] at hno; cases hno

section

variable {env} {P : Framing → Bytes → Prop} {lineMax n : Nat} {s t : HttpRequest D} {hd : HttpHeader} {x w : Bytes}

/-- What may follow a token, with the token in front, may follow the state before. -/
theorem Rest.of_take (hw : Wf s) (h : token env maxRequestLineLen s x = .take n t) (hr : Rest P t hd w) :
    Rest P s hd (x.take n ++ w) := by
  rcases token_take_cases env h with ⟨hs, pos, rq', hmax, hf, hp, rfl⟩ | ⟨hs, hb, rfl, rq', hp, rfl⟩ |
    ⟨hs, pos, key, value, hb, hsize, hf, hl, rfl, rfl⟩ | ⟨hs, hte, hch, hc⟩
  · have hle : pos + 2 ≤ x.length := find_le hf
    obtain ⟨hpos, hline, htake⟩ := line_of_find hf
    obtain ⟨rfl, m, url, v, htaken, rfl⟩ := parseLine_taken hp
    rw [hpos, htake]
    have hlen : (x.take pos ++ crlf).length ≤ maxRequestLineLen := by
      rw [← htake, List.length_take]
      omega
    cases hr with
    | content hst => cases hst
    | header _ hh hread hfr hP => exact .line hs hline hlen htaken hh hread hfr hP
    | line hst => cases hst
  · have he := hw.early (.inr hs)
    have hframe := framing_of_parseHeaders env he hp
    have hframe' : framing { rq' with state := .checkContent } = .announced s.header s.method s.multipart := hframe
    have htake : x.take 2 = crlf := (List.prefix_iff_eq_take.mp hb).symm
    have hread := (parseHeaders_readable_iff env s).mp ⟨rq', hp⟩
    have hkept : rq'.header = s.header ∧ rq'.body = [] ∧ rq'.curChunkedState = .noLen := by
      obtain ⟨k, a, c, hc, ck, cl, te, sn, rfl, -⟩ := parseHeaders_ok env hp
      exact ⟨rfl, he.body, he.curChunkedState⟩
    rw [htake]
    cases hr with
    | content _ hfr hP =>
      rw [hframe'] at hfr hP
      rw [hkept.2.1, hkept.2.2] at hfr
      rw [hkept.1]
      exact .header hs (.nil _) hread hfr.noLen hP
    | header hst => cases hst
    | line hst => cases hst
  · obtain ⟨hpos, hline, htake⟩ := line_of_find hf
    have hne : x.take pos ≠ [] := by
      intro hnil
      rw [hnil, List.length_nil] at hpos
      subst hpos
      exact hb (List.prefix_iff_eq_take.mpr (by simpa [crlf] using htake.symm))
    rw [htake]
    cases hr with
    | content hst => rw [hs] at hst; cases hst
    | header _ hh hread hfr hP =>
      rw [← List.append_assoc]
      exact .header hs (.cons hsize hline hne hl hh) hread hfr hP
    | line hst => rw [hs] at hst; cases hst
  · have hte' : s.framing.transferEncoding = some true := by simp [framing, hte, hch]
    have hfr' := framing_chunk hc
    have hstate := chunkToken_take hc
    have hhead : t.state = s.state ∧ t.header = s.header := by
      obtain ⟨body, st, size, rfl⟩ := hstate
      exact ⟨rfl, rfl⟩
    cases hr with
    | content _ hfr hP =>
      rw [hhead.2]
      rw [hfr'] at hP
      exact .content hs (.of_take hte' hc hfr) hP
    | header hst => rw [hhead.1, hs] at hst; cases hst
    | line hst => rw [hhead.1, hs] at hst; cases hst

theorem Rest.of_steps {y : Bytes} (h : Steps (token env maxRequestLineLen) (s, x) (t, y)) (hw : Wf s)
    (hr : Rest P t hd w) : ∃ c, x = c ++ y ∧ Rest P s hd (c ++ w) := by
  obtain ⟨c, hc, -, hrest⟩ := h.consumed
    (P := fun t c => Wf t ∧ ∀ {hd : HttpHeader} {w : Bytes}, Rest P t hd w → Rest P s hd (c ++ w)) (c := [])
    (fun hp ht => ⟨(hp.1.take env ht).1, fun hr => by
      rw [List.append_assoc]
      exact hp.2 (hr.of_take hp.1 ht)⟩)
    ⟨hw, id⟩
  exact ⟨c, hc, hrest hr⟩

/-- A body that is complete stands behind what was consumed. -/
theorem Rest.of_completes {rq : HttpRequest D} (hw : Wf s) (hs : s.state = .checkContent) (hcm : Completes s x n rq)
    (hP : P rq.framing rq.body) : Rest P s s.header (x.take n) := by
  rcases hcm with ⟨hte, hch, hdone, hp, rfl, rfl⟩ | ⟨hte, hcl, hle, hn, hnx, rfl⟩
  · have htake : x.take 2 = crlf := (List.prefix_iff_eq_take.mp hp).symm
    rw [htake]
    have hblank : Chunks rq.curChunkedState rq.curChunkSize crlf [] := by
      rw [hdone]
      exact .blank _
    have hframed : Framed rq.framing rq.curChunkedState rq.curChunkSize rq.body crlf (rq.body ++ []) :=
      .chunks (by simp [framing, hte, hch]) hblank
    rw [List.append_nil] at hframed
    exact .content hs hframed hP
  · obtain ⟨hlen, hmax⟩ := hw.length hs hte hcl
    rw [sizeSub_of_le hlen hmax] at hn
    refine .content hs (.length (by simp [framing, hte]) ?_) hP
    simp only [framing, hcl, if_true, List.length_take]
    congr 1
    omega

/-- What is consumed at the end of a request is of the grammar. -/
theorem Rest.of_ok (hw : Wf s) (hs : s.state ≠ .checkDone) (h : token env maxRequestLineLen s x = .halt n .ok t) :
    Rest (Framing.Acceptable env) s t.header (x.take n) := by
  obtain ⟨hst, ⟨rq, rq', hcm, hb, rfl⟩ | ⟨hte, hcl, hm, rfl, rfl⟩⟩ := token_ok_cases env hs h
  · have hready := (parseBody_ready_iff env rq).mp ⟨rq', hb⟩
    obtain ⟨mp, form, json, rfl⟩ := parseBody_some env hb
    have hrest := Rest.of_completes (P := Framing.Acceptable env) hw hst hcm (.inr hready)
    rwa [← hcm.header] at hrest
  · exact .content hst (.none (by simp [framing, hte]) (by simp [framing, hcl]) hm)
      (.inl ⟨by simp [framing, hte], by simp [framing, hcl]⟩)

theorem Framing.Unended.not_ready {f : Framing} {body : Bytes} (h : f.Unended body) : ¬ f.Ready env body :=
  fun hr => h.2 (hr.2 h.1).1

/-- No body that goes on satisfies `P`. -/
def Settled (P : Framing → Bytes → Prop) : Prop :=
  ∀ {f : Framing} {body : Bytes}, P f body → f.Unended body → f.transferEncoding = none ∧ f.contentLength = none

theorem settled_acceptable : Settled (Framing.Acceptable env) :=
  fun hacc hun => hacc.resolve_right hun.not_ready

/-- Behind a body that goes on nothing is the rest of a request with another body. -/
theorem not_rest_of_spent (hP : Settled P) (hw : Wf s) (hs : s.state = .checkContent) (hcm : Completes s x n t)
    (hb : parseBody env t = .ok none) : ¬ Rest P t hd w := by
  intro hr
  have hun := (parseBody_unended_iff env t).mp hb
  have hno : ∀ {body : Bytes}, P t.framing body → body = t.body →
      ¬ (t.framing.transferEncoding = none ∧ t.framing.contentLength = none) → False := by
    intro body hbody heq hne
    subst heq
    exact hne (hP hbody hun)
  obtain ⟨body, hf, hbody⟩ := hr.framed (hcm.state.trans hs)
  rcases hcm with ⟨hte, hch, hdone, -, -, rfl⟩ | ⟨hte, hcl, hle, hn, hnx, rfl⟩
  · have hte' : t.framing.transferEncoding = some true := by simp [framing, hte, hch]
    obtain ⟨data, hc, rfl⟩ := hf.of_chunked hte'
    rw [hdone] at hc
    cases hc
    exact hno hbody (List.append_nil _) (by simp [hte'])
  · obtain ⟨hlen, hmax⟩ := hw.length hs hte hcl
    rw [sizeSub_of_le hlen hmax] at hn
    have hlen' : (s.body ++ x.take n).length = s.contentLength := by
      simp only [List.length_append, List.length_take]
      omega
    obtain ⟨hw', rfl⟩ := hf.of_length (n := s.contentLength) (by simp [framing, hte]) (by simp [framing, hcl])
    simp only [hlen'] at hw'
    have hnil : w = [] := List.length_eq_zero_iff.mp (by omega)
    subst hnil
    rw [List.append_nil] at hbody
    exact hno hbody rfl (by simp [framing, hcl])

/-- What may follow a place that a run looks at, with all that was consumed up to there. -/
theorem Rest.of_visits {y : Bytes} {reads : List Bytes} (h : Visits (token env maxRequestLineLen) s x reads t y)
    (hP : Settled P) (hw : Wf s) (hr : Rest P t hd w) :
    ∃ c z, x ++ reads.flatten = c ++ (y ++ z) ∧ Rest P s hd (c ++ w) := by
  obtain ⟨c, z, hc, -, hrest⟩ := h.consumed
    (P := fun t c => Wf t ∧ ∀ {hd : HttpHeader} {w : Bytes}, Rest P t hd w → Rest P s hd (c ++ w)) (c := [])
    (fun hp ht => ⟨(hp.1.take env ht).1, fun hr => by
      rw [List.append_assoc]
      exact hp.2 (hr.of_take hp.1 ht)⟩)
    (fun hp ht => ⟨hp.1.wait env ht, fun hr => by
      obtain ⟨-, ⟨rfl, rfl⟩ | ⟨hcont, hcm, hb⟩⟩ := token_wait_cases env ht
      · rw [List.take_zero, List.append_nil]
        exact hp.2 hr
      · exact absurd hr (not_rest_of_spent hP hp.1 hcont hcm hb)⟩)
    ⟨hw, id⟩
  exact ⟨c, z, hc, hrest hr⟩

end

/-! ## The grammar piece by piece -/

/-- In state `s` the parser takes `p` and goes to `t`, when it is all there is, or with more
    behind it within the limit of a request line; and it does not wait when `p` is there, and
    counted. -/
structure Piece (s : HttpRequest D) (p : Bytes) (t : HttpRequest D) : Prop where
  nil : token env maxRequestLineLen s [] = .wait 0 s
  take : ∀ rest, (p ++ rest).length ≤ maxRequestLineLen ∨ rest = [] →
    token env maxRequestLineLen s (p ++ rest) = .take p.length t
  moves : ∀ rest, Counted s (p ++ rest) → token env maxRequestLineLen s (p ++ rest) ≠ .wait 0 s

variable {env} in
theorem Piece.ne_nil {s t : HttpRequest D} {p : Bytes} (h : Piece env s p t) : p ≠ [] := by
  intro hnil
  subst hnil
  have htake := h.take [] (.inr rfl)
  rw [List.append_nil, h.nil] at htake
  cases htake

variable {env} in
/-- A piece in a read of its own. -/
theorem Piece.run {s t u : HttpRequest D} {p y : Bytes} {reads : List Bytes} {o : Option Verdict} (h : Piece env s p t)
    (hnil : token env maxRequestLineLen t [] = .wait 0 t) (hrun : Run (token env maxRequestLineLen) t [] reads o u y) :
    Run (token env maxRequestLineLen) s [] (p :: reads) o u y := by
  have htake := h.take [] (.inr rfl)
  have hcall := Call.of_take htake (by rw [List.append_nil, List.drop_length]; exact .of_wait hnil)
  rw [List.append_nil] at hcall
  exact .wait hcall hrun

/-- A piece that is taken whatever stands behind it. -/
theorem Piece.of_take {s t : HttpRequest D} {p : Bytes} (hnil : token env maxRequestLineLen s [] = .wait 0 s)
    (h : ∀ rest, token env maxRequestLineLen s (p ++ rest) = .take p.length t) : Piece env s p t :=
  ⟨hnil, fun rest _ => h rest, fun rest _ hwait => by rw [h rest] at hwait; cases hwait⟩

section

variable {s : HttpRequest D}

theorem length_line (l : Bytes) : (l ++ crlf).length = l.length + 2 := List.length_append

theorem piece_line (hs : s.state = .checkRequestLine) {m : HttpMethod} {l : Bytes} (hl : Line l)
    (hmax : (l ++ crlf).length ≤ maxRequestLineLen) (ht : Taken m l) : ∃ url v, Piece env s (l ++ crlf)
      { s with method := some m, reqUrl := url, version := v, state := .checkHeader } := by
  obtain ⟨c, target, v, ⟨hspace, url, hurl, hstate⟩, rfl⟩ := ht
  have htok : ∀ rest, (m.str ++ (c :: (target ++ (32 :: v.str))) ++ crlf ++ rest).length ≤ maxRequestLineLen →
      token env maxRequestLineLen s (m.str ++ (c :: (target ++ (32 :: v.str))) ++ crlf ++ rest) =
        .take (m.str ++ (c :: (target ++ (32 :: v.str))) ++ crlf).length
          { s with method := some m, reqUrl := url, version := v, state := .checkHeader } := by
    intro rest hlen
    rw [token_line env _ hs, lineToken, if_neg (not_lt.mpr hlen), hl.find_append]
    dsimp only
    rw [List.append_assoc _ crlf, List.take_left, parseLine_skips s m c v hspace hurl hstate, length_line]
  refine ⟨url, v, ?_, fun rest h => ?_, fun rest _ hwait => ?_⟩
  · have hf : find crlf [] = none := rfl
    have hb : badStart [] = false := rfl
    rw [token_line env _ hs, lineToken, if_neg (by simp), hf]
    simp only [hb, Bool.false_eq_true, if_false]
  · rcases h with h | rfl
    · exact htok rest h
    · exact htok [] (by rwa [List.append_nil])
  · by_cases hlen : (m.str ++ (c :: (target ++ (32 :: v.str))) ++ crlf ++ rest).length ≤ maxRequestLineLen
    · rw [htok rest hlen] at hwait
      cases hwait
    · rw [token_line env _ hs, lineToken, if_pos (not_le.mp hlen)] at hwait
      cases hwait

theorem token_header_nil (hs : s.state = .checkHeader) : token env maxRequestLineLen s [] = .wait 0 s := by
  rw [token_header env _ hs]
  rfl

theorem piece_headerLine (hs : s.state = .checkHeader) (hsize : s.header.size ≤ maxRequestHeaderLen)
    {l key value : Bytes} (hl : Line l) (hne : l ≠ []) (hkv : headerLine l = some (key, value)) :
    Piece env s (l ++ crlf) { s with header := s.header.add key value } := by
  refine .of_take env (token_header_nil env hs) fun rest => ?_
  have hempty : ¬ (l ++ crlf ++ rest).isEmpty = true := by simp [hne]
  rw [token_header env _ hs, headerToken, if_neg hempty, if_neg (hl.not_prefix hne rest), if_neg (not_lt.mpr hsize),
    hl.find_append]
  dsimp only
  rw [List.append_assoc l, List.take_left, hkv, length_line]

theorem piece_blank (hs : s.state = .checkHeader) {rq : HttpRequest D} (hp : parseHeaders env s = .ok rq) :
    Piece env s crlf { rq with state := .checkContent } :=
  .of_take env (token_header_nil env hs) fun rest => token_blank env hs hp rest

/-! ### Chunks -/

theorem token_chunk (hs : s.state = .checkContent) (hte : s.framing.transferEncoding = some true) (x : Bytes) :
    token env maxRequestLineLen s x = match chunkToken s x with
      | .halt n .ok rq => bodyToken env n rq
      | a => a := by
  simp only [framing, Option.ite_none_right_eq_some, Option.some.injEq] at hte
  exact (token_content env _ hs).trans (contentToken_chunked env hte.1 hte.2 x)

theorem token_chunk_nil (hs : s.state = .checkContent) (hte : s.framing.transferEncoding = some true)
    (hsize : 0 ≤ s.curChunkSize) : token env maxRequestLineLen s [] = .wait 0 s := by
  have hwait : chunkToken s [] = .wait 0 s := by
    unfold chunkToken chunkTokenBy
    cases s.curChunkedState with
    | noLen => rfl
    | done => rfl
    | noData =>
      have h0 : toInt ((0 : Nat) : Int) = 0 := rfl
      exact if_pos (by simp only [List.length_nil, h0]; omega)
  rw [token_chunk env hs hte, hwait]

/-- A size line is found among the bytes that are looked at. -/
theorem SizeLine.find {l : Bytes} {n : Int} (h : SizeLine l n) (rest : Bytes) :
    find crlf ((l ++ crlf ++ rest).take (chunkSizeStrLimit + 2)) = some l.length := by
  have hlen : (l ++ crlf).length ≤ chunkSizeStrLimit + 2 := by
    have := h.2.1
    simp only [List.length_append, crlf, List.length_cons, List.length_nil]
    omega
  rw [List.take_append, List.take_of_length_le hlen]
  exact h.1.find_append _

theorem piece_sizeLine (hs : s.state = .checkContent) (hte : s.framing.transferEncoding = some true)
    (hsize : 0 ≤ s.curChunkSize) (hst : s.curChunkedState = .noLen) {l : Bytes} {n : Int} (h : SizeLine l n)
    (hn : 0 ≤ n) : Piece env s (l ++ crlf)
      { s with curChunkSize := n, curChunkedState := if n = 0 then .done else .noData } := by
  refine .of_take env (token_chunk_nil env hs hte hsize) fun rest => ?_
  have htok : chunkToken s (l ++ crlf ++ rest) = .take (l ++ crlf).length
      { s with curChunkSize := n, curChunkedState := if n = 0 then .done else .noData } := by
    simp only [chunkToken, chunkTokenBy, hst, h.find]
    rw [List.append_assoc l, List.take_left, hexSize_eq h.2.2, length_line]
    by_cases h0 : n = 0
    · rw [if_pos h0, if_pos h0]
    · rw [if_neg h0, if_neg h0, if_neg (by omega)]
  rw [token_chunk env hs hte, htok]

theorem piece_data (hs : s.state = .checkContent) (hte : s.framing.transferEncoding = some true)
    (hst : s.curChunkedState = .noData) {d : Bytes} (hd : s.curChunkSize = d.length) (hmax : d.length ≤ 200000) :
    Piece env s (d ++ crlf) { s with body := s.body ++ d, curChunkedState := .noLen } := by
  have htok : ∀ rest, Counted s (d ++ crlf ++ rest) →
      token env maxRequestLineLen s (d ++ crlf ++ rest) = .take (d ++ crlf).length
        { s with body := s.body ++ d, curChunkedState := .noLen } := by
    intro rest hcount
    have hall : s.curChunkSize + 2 ≤ toInt (d ++ crlf ++ rest).length := hcount hst (by
      simp only [List.length_append, crlf, List.length_cons, List.length_nil]
      omega)
    rw [hd] at hall
    have hc : chunkToken s (d ++ crlf ++ rest) = .take (d ++ crlf).length
        { s with body := s.body ++ d, curChunkedState := .noLen } := by
      simp only [chunkToken, chunkTokenBy, hst, hd, Int.toNat_natCast]
      rw [if_neg (not_lt.mpr hall), if_neg (by omega), List.append_assoc d, List.drop_left,
        if_pos (List.prefix_append _ _), List.take_left, length_line]
    rw [token_chunk env hs hte, hc]
  refine ⟨token_chunk_nil env hs hte (by omega), fun rest h => htok rest (counted_of_lt ?_), fun rest h hwait => ?_⟩
  · rcases h with h | rfl
    · exact h.trans_lt (by decide)
    · simp only [List.append_nil, List.length_append, crlf, List.length_cons, List.length_nil]
      omega
  · rw [htok rest h] at hwait
    cases hwait

end

/-! ### The whole -/

/-- The last piece of a request, and its body. -/
inductive Last (P : Framing → Bytes → Prop) (s : HttpRequest D) : Bytes → Prop
  | blank : s.framing.transferEncoding = some true → s.curChunkedState = .done → P s.framing s.body → Last P s crlf
  | length {w : Bytes} : s.framing.transferEncoding = none → s.framing.contentLength = some (s.body.length + w.length) →
      P s.framing (s.body ++ w) → Last P s w
  | none : s.framing.transferEncoding = none → s.framing.contentLength = none →
      s.method = some .get ∨ s.method = some .head → P s.framing s.body → Last P s []

variable {env} {P : Framing → Bytes → Prop} {s : HttpRequest D} {hd : HttpHeader} {w : Bytes}

/-- What may follow begins with a piece, or is the last one. -/
theorem Rest.pieces (hw : Wf s) (h : Rest P s hd w) :
    (∃ p w' t, w = p ++ w' ∧ Piece env s p t ∧ Rest P t hd w') ∨
      s.state = .checkContent ∧ s.header = hd ∧ Last P s w := by
  cases h with
  | line hs hl hmax ht hh hread hf hP =>
    obtain ⟨url, v, hp⟩ := piece_line env hs hl hmax ht
    exact .inl ⟨_, _, _, rfl, hp, .header rfl hh hread hf hP⟩
  | header hs hh hread hf hP =>
    refine .inl ?_
    cases hh with
    | nil =>
      obtain ⟨rq, hp⟩ := (parseHeaders_readable_iff env s).mpr hread
      have he := hw.early (.inr hs)
      have hframe := framing_of_parseHeaders env he hp
      have hframe' : framing { rq with state := .checkContent } = .announced s.header s.method s.multipart := hframe
      have hkept : rq.header = s.header ∧ rq.body = [] ∧ rq.curChunkedState = .noLen := by
        obtain ⟨k, a, c, hc, ck, cl, te, sn, rfl, -⟩ := parseHeaders_ok env hp
        exact ⟨rfl, he.body, he.curChunkedState⟩
      refine ⟨crlf, _, _, rfl, piece_blank env hs hp, ?_⟩
      rw [← hframe'] at hf hP
      have hf' : Framed _ .noLen rq.curChunkSize [] _ _ := hf.noLen
      rw [← hkept.2.2, ← hkept.2.1] at hf'
      rw [← hkept.1]
      exact .content rfl hf' hP
    | cons hsize hl hne hkv hh =>
      refine ⟨_, _, _, List.append_assoc _ _ _, piece_headerLine env hs hsize hl hne hkv, .header hs hh hread hf hP⟩
  | content hs hf hP =>
    cases hf with
    | length hte hcl => exact .inr ⟨hs, rfl, .length hte hcl hP⟩
    | none hte hcl hm => exact .inr ⟨hs, rfl, .none hte hcl hm hP⟩
    | chunks hte hc =>
      generalize hst : s.curChunkedState = st at hc
      generalize hsz : s.curChunkSize = size at hc
      have hsize : 0 ≤ s.curChunkSize := hw.chunk.1
      cases hc with
      | size hl hn hc =>
        refine .inl ⟨_, _, _, rfl, piece_sizeLine env hs hte hsize hst hl hn.le, ?_⟩
        refine .content (s := { s with curChunkSize := _, curChunkedState := _ }) hs ?_ hP
        rw [if_neg hn.ne']
        exact .chunks hte hc
      | zero hl hc =>
        refine .inl ⟨_, _, _, rfl, piece_sizeLine env hs hte hsize hst hl le_rfl, ?_⟩
        refine .content (s := { s with curChunkSize := _, curChunkedState := _ }) hs ?_ hP
        rw [if_pos rfl]
        exact .chunks hte hc
      | data hn hc =>
        rw [← List.append_assoc] at hP
        have hmax := hw.chunk.2
        refine .inl ⟨_, _, _, rfl, piece_data env hs hte hst (hsz.trans hn) (by omega), ?_⟩
        exact .content (s := { s with body := _, curChunkedState := _ }) hs (.chunks hte (hsz ▸ hc)) hP
      | blank =>
        rw [List.append_nil] at hP
        exact .inr ⟨hs, rfl, .blank hte hst hP⟩

variable (env) in
/-- A text that is not too long is read up to its last piece by one call. -/
theorem Rest.steps : ∀ (n : Nat) {s : HttpRequest D} {w : Bytes}, w.length = n → Wf s → Rest P s hd w →
    ∀ {rest : Bytes}, (w ++ rest).length ≤ maxRequestLineLen → ∃ t w', Last P t w' ∧ t.state = .checkContent ∧
      Steps (token env maxRequestLineLen) (s, w ++ rest) (t, w' ++ rest) := by
  intro n
  induction n using Nat.strong_induction_on with
  | _ n ih =>
    intro s w hlen hw h rest hmax
    rcases h.pieces hw with ⟨p, w', t, rfl, hp, hrest⟩ | ⟨hs, rfl, hlast⟩
    · have hpos := List.length_pos_iff.mpr hp.ne_nil
      rw [List.append_assoc] at hmax ⊢
      have htake := hp.take (w' ++ rest) (.inl hmax)
      have hmax' : (w' ++ rest).length ≤ maxRequestLineLen := by
        rw [List.length_append] at hmax
        omega
      obtain ⟨u, w'', hlast, hst, hsteps⟩ := ih w'.length (by rw [← hlen, List.length_append]; omega) rfl
        (hw.take env htake).1 hrest hmax'
      have hfirst := Steps.of_take htake
      rw [List.drop_left] at hfirst
      exact ⟨u, w'', hlast, hst, hfirst.trans hsteps⟩
    · exact ⟨s, w, hlast, hs, .refl⟩

/-- With its last piece the body of a request is complete, unless there is none. -/
theorem Last.completes (hw : Wf s) (hs : s.state = .checkContent) (h : Last P s w) (rest : Bytes) :
    (∃ rq, Completes s (w ++ rest) w.length rq ∧ rq.framing = s.framing ∧ P s.framing rq.body ∧
      ¬ (s.framing.transferEncoding = Option.none ∧ s.framing.contentLength = Option.none)) ∨
      w = [] ∧ s.hasTransferEncoding = false ∧ s.hasContentLength = false ∧
        (s.method = some .get ∨ s.method = some .head) ∧ P s.framing s.body := by
  cases h with
  | blank hte hdone hP =>
    have hte' := hte
    simp only [framing, Option.ite_none_right_eq_some, Option.some.injEq] at hte'
    exact .inl ⟨s, .inl ⟨hte'.1, hte'.2, hdone, List.prefix_append _ _, rfl, rfl⟩, rfl, hP, by simp [hte]⟩
  | length hte hcl hP =>
    simp only [framing, ite_eq_right_iff, reduceCtorEq, imp_false, Bool.not_eq_true] at hte
    have hcl' := hcl
    simp only [framing, Option.ite_none_right_eq_some, Option.some.injEq] at hcl'
    obtain ⟨hlen, hmax⟩ := hw.length hs hte hcl'.1
    have hrest : sizeSub s.contentLength s.body.length = w.length := by
      rw [sizeSub_of_le hlen hmax]
      omega
    have hall : (w ++ rest).length = w.length + rest.length := List.length_append
    refine .inl ⟨{ s with body := s.body ++ w }, ?_, rfl, hP, by simp [hcl]⟩
    exact .inr ⟨hte, hcl'.1, by omega, hrest.symm, by omega, by rw [List.take_left]⟩
  | none hte hcl hm hP =>
    simp only [framing, ite_eq_right_iff, reduceCtorEq, imp_false, Bool.not_eq_true] at hte hcl
    exact .inr ⟨rfl, hte, hcl, hm, hP⟩

/-- The last piece of a request that is to be accepted ends the call. -/
theorem Last.token (hw : Wf s) (hs : s.state = .checkContent) (h : Last (Framing.Acceptable env) s w) (rest : Bytes) :
    ∃ t, HttpRequest.token env maxRequestLineLen s (w ++ rest) = .halt w.length .ok t ∧ t.header = s.header := by
  rcases h.completes hw hs rest with ⟨rq, hcm, hframe, hacc, hne⟩ | ⟨rfl, hte, hcl, hm, -⟩
  · obtain ⟨rq', hrq'⟩ := (parseBody_ready_iff env rq).mpr (hframe ▸ hacc.resolve_left hne)
    obtain ⟨mp, form, json, rfl⟩ := parseBody_some env hrq'
    refine ⟨{ rq with multipart := mp, form := form, json := json, state := .checkDone }, ?_, hcm.header⟩
    rw [token_content env _ hs, contentToken_of_completes env hcm, bodyToken, hrq']
  · refine ⟨{ s with state := .checkDone }, ?_, rfl⟩
    rw [token_content env _ hs, contentToken, if_neg (by simp [hte]), if_neg (by simp [hcl]), if_pos hm]
    rfl

theorem Last.call (hw : Wf s) (hs : s.state = .checkContent) (h : Last (Framing.Acceptable env) s w) :
    ∃ t y, Call (HttpRequest.token env maxRequestLineLen) s w (some .ok) t y ∧ t.header = s.header := by
  obtain ⟨t, htok, ht⟩ := h.token hw hs []
  rw [List.append_nil] at htok
  exact ⟨t, _, .of_halt htok, ht⟩

/-- A last piece that has not begun is waited for. -/
theorem Last.nil (hw : Wf s) (hs : s.state = .checkContent) (h : Last P s w) (hne : w ≠ []) :
    HttpRequest.token env maxRequestLineLen s [] = .wait 0 s := by
  cases h with
  | blank hte _ _ => exact token_chunk_nil env hs hte hw.chunk.1
  | length hte hcl _ =>
    simp only [framing, ite_eq_right_iff, reduceCtorEq, imp_false, Bool.not_eq_true] at hte
    simp only [framing, Option.ite_none_right_eq_some, Option.some.injEq] at hcl
    have hpos := List.length_pos_iff.mpr hne
    rw [token_content env _ hs, contentToken, if_neg (by simp [hte]), if_pos hcl.1,
      if_pos (by rw [List.length_nil]; omega)]
  | none => exact absurd rfl hne

/-! ### Reads -/

/-- Reads of `w` end a call with a verdict of which `Q` holds, or nothing is to be read any more. -/
def Reads (env : Env D) (Q : Verdict → HttpRequest D → Prop) (s : HttpRequest D) (w : Bytes) : Prop :=
  (w = [] ∧ ∃ v t y, Call (token env maxRequestLineLen) s [] (some v) t y ∧ Q v t) ∨
    token env maxRequestLineLen s [] = .wait 0 s ∧ ∃ reads v t y, reads.flatten = w ∧
      Run (token env maxRequestLineLen) s [] reads (some v) t y ∧ Q v t

section

variable {Q : Verdict → HttpRequest D → Prop}

/-- The rest of a piece is one read, and what follows the next. -/
theorem Reads.behind {t : HttpRequest D} {x z : Bytes}
    (h : token env maxRequestLineLen s (x ++ z) = .take (x ++ z).length t) (hr : Reads env Q t w) :
    ∃ reads v u y, reads.flatten = z ++ w ∧
      Run (token env maxRequestLineLen) s x reads (some v) u y ∧ Q v u := by
  rcases hr with ⟨rfl, v, u, y, hcall, hu⟩ | ⟨hnil, reads, v, u, y, hflat, hrun, hu⟩
  · refine ⟨[z], v, u, y, by simp, .of_call (.of_take h ?_), hu⟩
    rwa [List.drop_length]
  · refine ⟨z :: reads, v, u, y, by rw [List.flatten_cons, hflat], .wait (.of_take h ?_) hrun, hu⟩
    rw [List.drop_length]
    exact .of_wait hnil

/-- On the last piece the call ends so. -/
def EndsCall (env : Env D) (P : Framing → Bytes → Prop) (Q : Verdict → HttpRequest D → Prop) (hd : HttpHeader) : Prop :=
  ∀ {t : HttpRequest D} {w : Bytes}, Wf t → t.state = .checkContent → t.header = hd → Last P t w →
    ∃ v u y, Call (token env maxRequestLineLen) t w (some v) u y ∧ Q v u

theorem endsCall_acceptable : EndsCall env (Framing.Acceptable env) (fun v t => v = .ok ∧ t.header = hd) hd := by
  intro t w hw hs hhd hlast
  obtain ⟨u, y, hcall, hu⟩ := hlast.call hw hs
  exact ⟨_, u, y, hcall, rfl, hu.trans hhd⟩

/-- The rest of a request is read piece by piece. -/
theorem Rest.reads (hend : EndsCall env P Q hd) : ∀ (n : Nat) {s : HttpRequest D} {w : Bytes}, w.length = n → Wf s →
    Rest P s hd w → Reads env Q s w := by
  intro n
  induction n using Nat.strong_induction_on with
  | _ n ih =>
    intro s w hlen hw h
    rcases h.pieces hw with ⟨p, w', t, rfl, hp, hrest⟩ | ⟨hs, hhd, hlast⟩
    · have hpos := List.length_pos_iff.mpr hp.ne_nil
      have htake := hp.take [] (.inr rfl)
      have hreads := ih w'.length (by rw [← hlen, List.length_append]; omega) rfl
        (hw.take env htake).1 hrest
      rw [List.append_nil] at htake
      exact .inr ⟨hp.nil, hreads.behind (x := []) htake⟩
    · obtain ⟨v, t, y, hcall, ht⟩ := hend hw hs hhd hlast
      by_cases hnil : w = []
      · subst hnil
        exact .inl ⟨rfl, v, t, y, hcall, ht⟩
      · exact .inr ⟨hlast.nil hw hs hnil, [w], v, t, y, by simp, .of_call hcall, ht⟩

/-- The same when a part of the next piece has arrived and is waited on. -/
theorem Rest.read_on {x z : Bytes} (hend : EndsCall env P Q hd) (hw : Wf s)
    (hwait : token env maxRequestLineLen s x = .wait 0 s) (hcount : Counted s x) (h : Rest P s hd (x ++ z)) :
    ∃ reads v t y, reads.flatten = z ∧ Run (token env maxRequestLineLen) s x reads (some v) t y ∧ Q v t := by
  rcases h.pieces hw with ⟨p, w', t, heq, hp, hrest⟩ | ⟨hs, hhd, hlast⟩
  · rcases List.append_eq_append_iff.mp heq with ⟨z1, rfl, rfl⟩ | ⟨x2, rfl, -⟩
    · have htake := hp.take [] (.inr rfl)
      have hreads := hrest.reads hend _ rfl (hw.take env htake).1
      rw [List.append_nil] at htake
      exact hreads.behind htake
    · exact absurd hwait (hp.moves x2 hcount)
  · obtain ⟨v, t, y, hcall, ht⟩ := hend hw hs hhd hlast
    exact ⟨[z], v, t, y, by simp, .of_call hcall, ht⟩

end

/-! ### The head -/

variable (env)

/-- Where a run looks at the request line, it has consumed nothing, and among the headers a
    request line and those. -/
theorem visits_consumed {reads : List Bytes} {t : HttpRequest D} {y : Bytes}
    (h : Visits (token env maxRequestLineLen) new [] reads t y) : ∃ c z, reads.flatten = c ++ (y ++ z) ∧
      (t.state = .checkRequestLine → c = []) ∧ (t.state = .checkHeader → ∃ m, HeadText m t.header c) := by
  obtain ⟨c, z, hc, -, hline, hhead⟩ := h.consumed
    (P := fun t c => Wf t ∧ (t.state = .checkRequestLine → c = []) ∧
      (t.state = .checkHeader → ∃ m, HeadText m t.header c)) (c := [])
    (fun hp ht => by
      obtain ⟨hw, hline, hheader⟩ := hp
      obtain ⟨hw', hl'⟩ := hw.take env ht
      refine ⟨hw', fun hst => absurd hst hl', fun hst => ?_⟩
      rcases token_take_cases env ht with ⟨hst', pos, rq', hmax, hf, hp, rfl⟩ | ⟨-, -, -, rq', -, rfl⟩ |
        ⟨hst', pos, key, value, hb, hsize, hf, hl, rfl, rfl⟩ | ⟨hst', -, -, hc⟩
      · obtain ⟨hpos, hlf, htake⟩ := line_of_find hf
        obtain ⟨rfl, m, url, v, htaken, rfl⟩ := parseLine_taken hp
        refine ⟨m, _, [], ?_, hlf, ?_, htaken, ?_⟩
        · rw [hline hst', hpos, htake, List.append_nil, List.nil_append]
        · rw [← htake, List.length_take]
          omega
        · rw [show _ = HttpHeader.new from hw.line hst']
          exact .nil _
      · cases hst
      · obtain ⟨hpos, hlf, htake⟩ := line_of_find hf
        obtain ⟨m, l, text, rfl, h1, h2, h3, h4⟩ := hheader hst'
        refine ⟨m, l, _, List.append_assoc _ _ _, h1, h2, h3, ?_⟩
        rw [htake]
        refine h4.snoc hsize hlf (fun hnil => hb ?_) hl
        rw [hnil, List.length_nil] at hpos
        subst hpos
        exact List.prefix_iff_eq_take.mpr (by simpa [crlf] using htake.symm)
      · obtain ⟨body, st, size, rfl⟩ := chunkToken_take hc
        rw [hst'] at hst
        cases hst)
    (fun hp ht => by
      obtain ⟨hw, hline, hheader⟩ := hp
      refine ⟨hw.wait env ht, ?_⟩
      obtain ⟨-, ⟨rfl, rfl⟩ | ⟨hst, hcm, -⟩⟩ := token_wait_cases env ht
      · rw [List.take_zero, List.append_nil]
        exact ⟨hline, hheader⟩
      · have hst' := hcm.state.trans hst
        exact ⟨fun h => (by rw [hst'] at h; cases h), fun h => (by rw [hst'] at h; cases h)⟩)
    ⟨wf_new, fun _ => rfl, by simp [new]⟩
  exact ⟨c, z, by simpa using hc, hline, hhead⟩

theorem visits_head {reads : List Bytes} {t : HttpRequest D} {y : Bytes}
    (h : Visits (token env maxRequestLineLen) new [] reads t y) (hs : t.state = .checkHeader) :
    ∃ m z, Head m t.header reads.flatten (y ++ z) := by
  obtain ⟨c, z, hc, -, hhead⟩ := visits_consumed env h
  obtain ⟨m, hm⟩ := hhead hs
  exact ⟨m, z, c, hc, hm⟩

/-- The header lines, a read each. -/
theorem HeaderLines.run {hd hd' : HttpHeader} {text : Bytes} (h : HeaderLines hd text hd') : ∀ {s : HttpRequest D},
    s.state = .checkHeader → s.header = hd → ∃ reads t, reads.flatten = text ∧
      Run (token env maxRequestLineLen) s [] reads none t [] ∧ t.state = .checkHeader ∧ t.header = hd' := by
  induction h with
  | nil hd => exact fun {s} hs hhd => ⟨[], s, rfl, .nil _ _, hs, hhd⟩
  | @cons hd hd' l key value text hsize hl hne hkv _ ih =>
    intro s hs hhd
    subst hhd
    have hs' : ({ s with header := s.header.add key value } : HttpRequest D).state = .checkHeader := hs
    obtain ⟨reads, t, hflat, hrun, ht⟩ := ih hs' rfl
    exact ⟨_ :: reads, t, by rw [List.flatten_cons, hflat],
      (piece_headerLine env hs hsize hl hne hkv).run (token_header_nil env hs') hrun, ht⟩

theorem HeadText.run {m : HttpMethod} {hd : HttpHeader} {c : Bytes} (h : HeadText m hd c) :
    ∃ reads t, reads.flatten = c ∧ Run (token env maxRequestLineLen) new [] reads none t [] ∧
      t.state = .checkHeader ∧ t.header = hd := by
  obtain ⟨l, text, rfl, hl, hmax, ht, hh⟩ := h
  have hs : (new : HttpRequest D).state = .checkRequestLine := rfl
  obtain ⟨url, v, hp⟩ := piece_line env hs hl hmax ht
  obtain ⟨reads, t, hflat, hrun, ht⟩ := hh.run env (s := { (new : HttpRequest D) with
    method := some m, reqUrl := url, version := v, state := .checkHeader }) rfl rfl
  exact ⟨_ :: reads, t, by rw [List.flatten_cons, hflat], hp.run (token_header_nil env rfl) hrun, ht⟩

end HahaWeb.HttpRequest
