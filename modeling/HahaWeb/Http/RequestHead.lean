/-
  HahaWeb.Http.RequestHead — which request lines `parseRequestLine` takes, and which values
  `parseRequestHeader` stores.

  The method is skipped by its length and one byte more, and nobody looks at that byte: a
  line with any other byte in the place of the first space is taken, and a line that is the
  method alone is skipped past its end. Every other line is taken exactly when it has the
  form of a request line (`recognised_iff`). The value of a header begins behind the first
  space after the colon, wherever that space is, so a value written without a space before
  it is stored whole exactly when it has none inside (`storesValue_iff`).
-/

import HahaWeb.Http.Faults
import HahaWeb.Http.Rendering

namespace HahaWeb.HttpRequest

variable {D : Type} (env : Env D)

/-! ## The request line -/

/-- A target without spaces that `HttpUrl` accepts. -/
def Accepted (target : Bytes) : Prop :=
  32 ∉ target ∧ ∃ url, HttpUrl.ofString target = .ok url ∧ url.state = .parseSuccess

/-- `METHOD SP target SP VERSION` -/
def Grammar (line : Bytes) : Prop :=
  ∃ (m : HttpMethod) (target : Bytes) (v : HttpVersion), target ≠ [] ∧ Accepted target ∧ line = requestLine m target v

/-- A method and nothing else. -/
def Bare (line : Bytes) : Prop := ∃ m : HttpMethod, line = m.str

/-- A request line with another byte in the place of the space behind the method. -/
def Unseparated (line : Bytes) : Prop :=
  ∃ (m : HttpMethod) (c : UInt8) (target : Bytes) (v : HttpVersion),
    c ≠ 32 ∧ Accepted target ∧ line = m.str ++ (c :: (target ++ (32 :: v.str)))

theorem findFirstOf_zero {c : UInt8} {v : Bytes} {pos : Nat} (h : findFirstOf c v 0 = some pos) :
    c ∉ v.take pos ∧ v = v.take pos ++ c :: v.drop (pos + 1) := by
  obtain ⟨i, hi, hpos⟩ := Option.map_eq_some_iff.mp h
  rw [List.drop_zero] at hi
  obtain ⟨hlt, hc, hno⟩ := List.findIdx?_eq_some_iff_getElem.mp hi
  obtain rfl : i = pos := hpos
  constructor
  · intro hmem
    obtain ⟨j, hj, hget⟩ := List.mem_iff_getElem.mp hmem
    rw [List.length_take] at hj
    rw [List.getElem_take] at hget
    exact hno j (by omega) (beq_iff_eq.mpr hget)
  · rw [← beq_iff_eq.mp hc, ← List.drop_eq_getElem_cons hlt, List.take_append_drop]

/-- The byte behind the method is skipped unseen. -/
theorem parseLine_skips (rq : HttpRequest D) (m : HttpMethod) (c : UInt8) {target : Bytes} {url : HttpUrl}
    (v : HttpVersion) (hspace : 32 ∉ target) (hurl : HttpUrl.ofString target = .ok url)
    (hstate : url.state = .parseSuccess) : parseLine rq (m.str ++ (c :: (target ++ (32 :: v.str)))) =
      .ok (some ((m.str ++ (c :: (target ++ (32 :: v.str)))).length + 2),
        { rq with method := some m, reqUrl := url, version := v }) := by
  have hdrop : (m.str ++ (c :: (target ++ (32 :: v.str)))).drop (m.str.length + 1) = target ++ (32 :: v.str) := by
    rw [← List.drop_drop, List.drop_left]
    rfl
  have hlen : m.str.length + 1 ≤ (m.str ++ (c :: (target ++ (32 :: v.str)))).length := by simp
  have hsp : findFirstOf 32 (target ++ (32 :: v.str)) 0 = some target.length := by
    simpa using findFirstOf_append hspace [] v.str
  rw [parseLine_long rq (methodOf_str m _) hlen, hdrop, hsp]
  simp only [List.take_left, hurl, Except.map, hstate, reduceCtorEq, if_false]
  rw [← List.drop_drop, hdrop, ← List.drop_drop, List.drop_left]
  simp only [List.drop_succ_cons, List.drop_zero, versionOf_eq_some.mpr rfl]

/-- A line cut behind its method and the byte that is skipped. -/
theorem behind_method {m : HttpMethod} {line : Bytes} (htake : line.take m.str.length = m.str)
    (hlt : m.str.length < line.length) : ∃ c, line = m.str ++ (c :: line.drop (m.str.length + 1)) := by
  obtain ⟨c, t, hct⟩ := List.exists_cons_of_length_pos
    (show 0 < (line.drop m.str.length).length by rw [List.length_drop]; omega)
  have ht : line.drop (m.str.length + 1) = t := by rw [← List.drop_drop, hct]; rfl
  refine ⟨c, ?_⟩
  rw [ht, ← hct]
  conv_lhs => rw [← List.take_append_drop m.str.length line, htake]

/-- The lines that are taken. -/
theorem parseLine_ok_iff (rq : HttpRequest D) (line : Bytes) :
    (∃ i rq', parseLine rq line = .ok (some i, rq')) ↔
      ∃ (m : HttpMethod) (c : UInt8) (target : Bytes) (v : HttpVersion),
        Accepted target ∧ line = m.str ++ (c :: (target ++ (32 :: v.str))) := by
  constructor
  · intro h
    obtain ⟨i, rq', h⟩ := h
    cases hm : methodOf line with
    | none => rw [parseLine_none rq hm] at h; cases h
    | some mk =>
      obtain ⟨m, k⟩ := mk
      rcases Nat.lt_or_ge line.length k with hlt | hge
      · rw [parseLine_short rq hm hlt] at h; cases h
      · rw [parseLine_long rq hm hge] at h
        obtain ⟨htake, hk⟩ := methodOf_eq hm
        rw [hk, Nat.add_sub_cancel] at htake
        rw [hk] at hge
        cases hp : findFirstOf 32 (line.drop k) 0 with
        | none => rw [hp] at h; cases h
        | some pos =>
          obtain ⟨url, hurl⟩ := HttpUrl.ofString_total ((line.drop k).take pos)
          simp only [hp, hurl, Except.map] at h
          split at h
          · cases h
          · rename_i hstate
            split at h
            · cases h
            · rename_i v hv
              obtain ⟨c, hc⟩ := behind_method htake (Nat.lt_of_succ_le hge)
              rw [← hk] at hc
              obtain ⟨hno, hcut⟩ := findFirstOf_zero hp
              have hversion : line.drop (k + (pos + 1)) = v.str := versionOf_eq_some.mp hv
              rw [← List.drop_drop] at hversion
              rw [hversion] at hcut
              refine ⟨m, c, (line.drop k).take pos, v, ⟨hno, url, hurl, ?_⟩, by rw [← hcut]; exact hc⟩
              cases hs : url.state with
              | parseSuccess => rfl
              | parseFail => exact absurd hs hstate
  · intro h
    obtain ⟨m, c, target, v, ⟨hspace, url, hurl, hstate⟩, rfl⟩ := h
    exact ⟨_, _, parseLine_skips rq m c v hspace hurl hstate⟩

theorem str_append_inj {m m' : HttpMethod} {c c' : UInt8} {t t' : Bytes}
    (h : m.str ++ (c :: t) = m'.str ++ (c' :: t')) : m = m' ∧ c = c' := by
  have hm := congrArg methodOf h
  rw [methodOf_str, methodOf_str, Option.some.injEq, Prod.mk.injEq] at hm
  obtain ⟨rfl, -⟩ := hm
  exact ⟨rfl, (List.cons.inj (List.append_cancel_left h)).1⟩

theorem not_grammar_of_unseparated {line : Bytes} (h : Unseparated line) : ¬ Grammar line := by
  intro hg
  obtain ⟨m, c, target, v, hc, -, rfl⟩ := h
  obtain ⟨m', target', v', -, -, heq⟩ := hg
  exact hc (str_append_inj heq).2

theorem not_grammar_of_bare {line : Bytes} (h : Bare line) : ¬ Grammar line := by
  intro hg
  obtain ⟨m, rfl⟩ := h
  obtain ⟨m', target, v, -, -, heq⟩ := hg
  have hm := congrArg methodOf heq
  rw [methodOf_of_str, requestLine, methodOf_str, Option.some.injEq, Prod.mk.injEq] at hm
  rw [hm.1] at heq
  have hlen := congrArg List.length heq
  simp [requestLine] at hlen

theorem ne_nil_of_accepted {target : Bytes} (h : Accepted target) : target ≠ [] := by
  intro hnil
  obtain ⟨-, url, hurl, hstate⟩ := h
  rw [hnil] at hurl
  have hblank : HttpUrl.ofString [] = .ok (HttpUrl.blank []) := rfl
  rw [hblank] at hurl
  rw [← Except.ok.inj hurl] at hstate
  cases hstate

/-- A line is taken when it has the form, or another byte where the first space should be. -/
theorem parseLine_taken_iff (rq : HttpRequest D) (line : Bytes) :
    (∃ i rq', parseLine rq line = .ok (some i, rq')) ↔ Grammar line ∨ Unseparated line := by
  rw [parseLine_ok_iff]
  constructor
  · intro h
    obtain ⟨m, c, target, v, hacc, heq⟩ := h
    by_cases hc : c = 32
    · rw [hc] at heq
      exact .inl ⟨m, target, v, ne_nil_of_accepted hacc, hacc, heq⟩
    · exact .inr ⟨m, c, target, v, hc, hacc, heq⟩
  · intro h
    rcases h with ⟨m, target, v, -, hacc, heq⟩ | ⟨m, c, target, v, -, hacc, heq⟩
    · exact ⟨m, 32, target, v, hacc, heq⟩
    · exact ⟨m, c, target, v, hacc, heq⟩

/-- A complete line is told apart by the grammar: taken with its CRLF, or refused. -/
def Recognised (rq : HttpRequest D) (data : Buffer) (line : Bytes) : Prop :=
  ((∃ rq' data', parseRequestLine rq data = .ok (.okRequest, rq', data')) ↔ Grammar line) ∧
    (∀ rq' data', parseRequestLine rq data = .ok (.okRequest, rq', data') →
      data.readable = line ++ crlf ++ data'.readable) ∧
    (¬ Grammar line → ∃ rq' data', parseRequestLine rq data = .ok (.badRequest, rq', data'))

section

variable (rq : HttpRequest D) {data : Buffer} {line rest : Bytes}

/-- The line behind the length test and the search. -/
theorem parseRequestLine_line (hread : data.readable = line ++ crlf ++ rest)
    (hmax : data.readable.length ≤ maxRequestLineLen) (hfirst : find crlf data.readable = some line.length) :
    parseRequestLine rq data = (parseLine rq line).bind fun r => match r with
      | (none, rq) => .ok (.badRequest, rq, data)
      | (some i, rq) => (data.retrieve i).bind fun data => .ok (.okRequest, rq, data) := by
  have htake : data.readable.take line.length = line := by rw [hread, List.append_assoc, List.take_left]
  rw [parseRequestLine, if_neg (by rw [← Buffer.readable_length]; omega)]
  simp only [hfirst, htake]
  rfl

/-- A line that is taken is consumed with its CRLF, and with nothing else. -/
theorem parseRequestLine_taken (hread : data.readable = line ++ crlf ++ rest)
    (hmax : data.readable.length ≤ maxRequestLineLen) (hfirst : find crlf data.readable = some line.length)
    (h : Grammar line ∨ Unseparated line) :
    ∃ rq' data', parseRequestLine rq data = .ok (.okRequest, rq', data') ∧ data'.readable = rest := by
  obtain ⟨i, rq', hparse⟩ := (parseLine_taken_iff rq line).mpr h
  obtain ⟨rfl, -⟩ := parseLine_ok hparse
  obtain ⟨data', hdata', hread'⟩ := Buffer.retrieve_of_le (show line.length + 2 ≤ data.readable.length by
    rw [hread]
    simp [crlf])
  refine ⟨rq', data', ?_, by rw [hread', hread, drop_line]⟩
  rw [parseRequestLine_line rq hread hmax hfirst, hparse]
  simp only [Except.bind, hdata']

theorem parseRequestLine_refused (hread : data.readable = line ++ crlf ++ rest)
    (hmax : data.readable.length ≤ maxRequestLineLen) (hfirst : find crlf data.readable = some line.length)
    (hbare : ¬ Bare line) (h : ¬ (Grammar line ∨ Unseparated line)) :
    ∃ rq' data', parseRequestLine rq data = .ok (.badRequest, rq', data') := by
  rw [parseRequestLine_line rq hread hmax hfirst]
  cases hparse : parseLine rq line with
  | error f => exact absurd ((parseLine_error_iff rq line).mp ⟨f, hparse⟩) hbare
  | ok r =>
    obtain ⟨o, rq'⟩ := r
    cases o with
    | none => exact ⟨rq', data, rfl⟩
    | some i => exact absurd ((parseLine_taken_iff rq line).mp ⟨i, rq', hparse⟩) h

theorem parseRequestLine_bare (hread : data.readable = line ++ crlf ++ rest)
    (hmax : data.readable.length ≤ maxRequestLineLen) (hfirst : find crlf data.readable = some line.length)
    (hbare : Bare line) : ∃ f, parseRequestLine rq data = .error f := by
  obtain ⟨f, hparse⟩ := (parseLine_error_iff rq line).mpr hbare
  exact ⟨f, by rw [parseRequestLine_line rq hread hmax hfirst, hparse]; rfl⟩

end

/-- The lines that are told apart as they should be. -/
theorem recognised_iff (rq : HttpRequest D) (data : Buffer) (line rest : Bytes)
    (hread : data.readable = line ++ crlf ++ rest) (hmax : data.readable.length ≤ maxRequestLineLen)
    (hfirst : find crlf data.readable = some line.length) :
    Recognised rq data line ↔ ¬ Bare line ∧ ¬ Unseparated line := by
  constructor
  · intro h
    obtain ⟨htaken, -, hrefused⟩ := h
    constructor
    · intro hbare
      obtain ⟨f, hfault⟩ := parseRequestLine_bare rq hread hmax hfirst hbare
      obtain ⟨rq', data', hbad⟩ := hrefused (not_grammar_of_bare hbare)
      rw [hfault] at hbad
      cases hbad
    · intro hun
      obtain ⟨rq', data', hok, -⟩ := parseRequestLine_taken rq hread hmax hfirst (.inr hun)
      exact not_grammar_of_unseparated hun (htaken.mp ⟨rq', data', hok⟩)
  · intro h
    obtain ⟨hbare, hun⟩ := h
    by_cases hg : Grammar line
    · obtain ⟨rq', data', hok, hrest⟩ := parseRequestLine_taken rq hread hmax hfirst (.inl hg)
      refine ⟨⟨fun _ => hg, fun _ => ⟨rq', data', hok⟩⟩, fun rq'' data'' hok' => ?_, fun hno => absurd hg hno⟩
      rw [hok] at hok'
      cases hok'
      rw [hread, hrest]
    · obtain ⟨rq', data', hbad⟩ := parseRequestLine_refused rq hread hmax hfirst hbare fun h => h.elim hg hun
      have hno : ∀ rq'' data'', parseRequestLine rq data ≠ .ok (.okRequest, rq'', data'') := by
        intro rq'' data'' hok
        rw [hbad] at hok
        cases hok
      refine ⟨⟨fun hok => ?_, fun hgr => absurd hgr hg⟩, fun rq'' data'' hok => absurd hok (hno rq'' data''),
        fun _ => ⟨rq', data', hbad⟩⟩
      obtain ⟨rq'', data'', hok⟩ := hok
      exact absurd hok (hno rq'' data'')

theorem accepted_root : Accepted (lit "/") := ⟨by decide, _, rfl, rfl⟩

/-- `GET / HTTP/1.1` -/
theorem recognised_get :
    ((received (lit "GET / HTTP/1.1" ++ crlf ++ lit "A")).readable = lit "GET / HTTP/1.1" ++ crlf ++ lit "A" ∧
      (received (lit "GET / HTTP/1.1" ++ crlf ++ lit "A")).readable.length ≤ maxRequestLineLen ∧
      find crlf (received (lit "GET / HTTP/1.1" ++ crlf ++ lit "A")).readable = some (lit "GET / HTTP/1.1").length) ∧
    Recognised (new : HttpRequest Unit) (received (lit "GET / HTTP/1.1" ++ crlf ++ lit "A"))
      (lit "GET / HTTP/1.1") := by
  have hread := readable_received (lit "GET / HTTP/1.1" ++ crlf ++ lit "A")
  have hmax : (received (lit "GET / HTTP/1.1" ++ crlf ++ lit "A")).readable.length ≤ maxRequestLineLen := by
    rw [hread]
    decide
  have hfirst : find crlf (received (lit "GET / HTTP/1.1" ++ crlf ++ lit "A")).readable =
      some (lit "GET / HTTP/1.1").length := by
    rw [hread]
    exact find_crlf_of_not_mem (by decide) _
  refine ⟨⟨hread, hmax, hfirst⟩, (recognised_iff new _ _ (lit "A") hread hmax hfirst).mpr ⟨fun h => ?_, fun h => ?_⟩⟩
  · obtain ⟨m, h⟩ := h
    cases m <;> exact absurd h (by decide)
  · obtain ⟨m, c, target, v, hc, -, h⟩ := h
    have hline : lit "GET / HTTP/1.1" = HttpMethod.get.str ++ (32 :: lit "/ HTTP/1.1") := by decide
    exact hc (str_append_inj (hline.symm.trans h)).2.symm

/-- `GETX/ HTTP/1.1` is taken. -/
theorem recognised_getx :
    ¬ Recognised (new : HttpRequest Unit) (received (lit "GETX/ HTTP/1.1" ++ crlf)) (lit "GETX/ HTTP/1.1") := by
  intro h
  have hun : Unseparated (lit "GETX/ HTTP/1.1") := ⟨.get, 88, lit "/", .http11, by decide, accepted_root, by decide⟩
  have hread : (received (lit "GETX/ HTTP/1.1" ++ crlf)).readable = lit "GETX/ HTTP/1.1" ++ crlf ++ [] := by
    rw [readable_received, List.append_nil]
  obtain ⟨rq', data', hok, -⟩ := parseRequestLine_taken (new : HttpRequest Unit) hread
    (by rw [hread]; decide) (by rw [hread]; exact find_crlf_of_not_mem (by decide) []) (.inr hun)
  exact not_grammar_of_unseparated hun (h.1.mp ⟨rq', data', hok⟩)

/-! ## The value of a header line -/

/-- `name:`, `n` spaces and the value. -/
def fieldText (name : Bytes) (n : Nat) (v : Bytes) : Bytes := name ++ 58 :: (List.replicate n 32 ++ v)

theorem fieldText_noCR {name v : Bytes} (hname : CR ∉ name) (hv : CR ∉ v) (n : Nat) : CR ∉ fieldText name n v := by
  have h58 : CR ≠ 58 := by decide
  have h32 : CR ≠ 32 := by decide
  simp [fieldText, hname, hv, h58, List.mem_replicate, h32]

theorem take_fieldText (name : Bytes) (n : Nat) (v : Bytes) : (fieldText name n v).take name.length = name :=
  List.take_left

theorem drop_fieldText (name : Bytes) (n k : Nat) (v : Bytes) :
    (fieldText name n v).drop (name.length + 1 + k) = (List.replicate n 32 ++ v).drop k := by
  rw [fieldText, Nat.add_assoc, ← List.drop_drop, List.drop_left, Nat.add_comm, List.drop_succ_cons]

/-- The first byte that is no space, behind spaces. -/
theorem findFirstNotOf_spaces {line v : Bytes} {pos n : Nat} (hline : line.drop pos = List.replicate n 32 ++ v)
    (hv : v.head? ≠ some 32) : findFirstNotOf 32 line pos = if v = [] then none else some (pos + n) := by
  have hskip : (List.replicate n (32 : UInt8) ++ v).findIdx? (· != 32) = if v = [] then none else some n := by
    clear hline
    induction n with
    | zero =>
      cases v with
      | nil => rfl
      | cons c v =>
        have hc : c ≠ 32 := fun h => hv (by rw [h, List.head?_cons])
        simp [List.findIdx?_cons, hc]
    | succ n ih =>
      rw [List.replicate_succ, List.cons_append, List.findIdx?_cons, ih]
      by_cases hnil : v = [] <;> simp [hnil]
  rw [findFirstNotOf, hline, hskip]
  split
  · rfl
  · simp [Nat.add_comm]

theorem colon_fieldText {name : Bytes} (hname : 58 ∉ name) (n : Nat) (v : Bytes) :
    findFirstOf 58 (fieldText name n v) 0 = some name.length := by
  simpa [fieldText] using findFirstOf_append hname [] (List.replicate n 32 ++ v)

/-- With a space before it, or none inside, the value is the one that was written. -/
theorem headerLine_whole {name v : Bytes} {n : Nat} (hname : 58 ∉ name) (hv : v.head? ≠ some 32)
    (hn : 0 < n ∨ 32 ∉ v) : headerLine (fieldText name n v) = some (name, v) := by
  have hfirst : (findFirstOf 32 (fieldText name n v) name.length).getD (name.length + 1) = name.length + 1 := by
    cases n with
    | zero =>
      have hno : 32 ∉ (fieldText name 0 v).drop name.length := by
        rw [fieldText, List.drop_left]
        simpa using hn
      have hnone : findFirstOf 32 (fieldText name 0 v) name.length = none := by
        rw [findFirstOf, Option.map_eq_none_iff, List.findIdx?_eq_none_iff]
        exact fun c hc => beq_eq_false_iff_ne.mpr fun h => hno (h ▸ hc)
      rw [hnone, Option.getD_none]
    | succ n =>
      have hspace : findFirstOf 32 (fieldText name (n + 1) v) name.length = some (name.length + 1) := by
        have hfind := findFirstOf_append (c := 32) (u := [58]) (by decide) name (List.replicate n 32 ++ v)
        simpa [fieldText, List.replicate_succ] using hfind
      rw [hspace, Option.getD_some]
  have hskip : findFirstNotOf 32 (fieldText name n v) (name.length + 1) =
      if v = [] then none else some (name.length + 1 + n) := findFirstNotOf_spaces (drop_fieldText name n 0 v) hv
  simp only [headerLine, colon_fieldText hname, hfirst, hskip, take_fieldText]
  split
  · rename_i pos4 h4
    split at h4
    · cases h4
    · rw [← Option.some.inj h4, drop_fieldText, List.drop_left' List.length_replicate]
  · rename_i h4
    split at h4
    · rename_i hnil
      rw [hnil]
    · cases h4

/-- Otherwise the bytes up to a space in it are lost. -/
theorem headerLine_cut {name v : Bytes} (hname : 58 ∉ name) (hv : v.head? ≠ some 32) (h32 : 32 ∈ v) :
    ∃ v', headerLine (fieldText name 0 v) = some (name, v') ∧ v'.length < v.length := by
  obtain ⟨pos, hpos⟩ := Option.isSome_iff_exists.mp (show (find [32] v).isSome = true by
    rw [Option.isSome_iff_ne_none]
    exact fun h => not_mem_of_find_none h h32)
  obtain ⟨hno, hw⟩ := find_byte_some hpos
  generalize v.drop (pos + 1) = w at hw
  have hpos1 : pos ≠ 0 := by
    intro h0
    rw [h0, List.take_zero, List.nil_append] at hw
    exact hv (by rw [hw, List.head?_cons])
  have hfirst : findFirstOf 32 (fieldText name 0 v) name.length = some (name.length + (pos + 1)) := by
    have hpre : (32 : UInt8) ∉ 58 :: v.take pos := by
      rw [List.mem_cons, not_or]
      exact ⟨by decide, hno⟩
    have hfind := findFirstOf_append hpre name w
    have htext : name ++ (58 :: v.take pos ++ 32 :: w) = fieldText name 0 v := by
      rw [fieldText, List.replicate_zero, List.nil_append]
      conv_rhs => rw [hw]
      rfl
    rw [htext] at hfind
    rw [hfind, List.length_cons, List.length_take, Nat.min_eq_left]
    have := find_le hpos
    omega
  have hlen : (fieldText name 0 v).length = name.length + 1 + v.length := by simp [fieldText]; omega
  simp only [headerLine, colon_fieldText hname, hfirst, Option.getD_some, take_fieldText]
  refine ⟨_, rfl, ?_⟩
  have hvlen : 0 < v.length := List.length_pos_of_mem h32
  split
  · rename_i pos4 h4
    have hge := (findFirstNotOf_lt h4).1
    rw [List.length_drop, hlen]
    omega
  · exact hvlen

/-! ## The loop over the lines -/

/-- Enough fuel is as good as any. -/
theorem headerLoop_fuel : ∀ (fuel fuel' : Nat) (header : Bytes) (rq : HttpRequest D) (data : Buffer),
    header.length < fuel → header.length < fuel' →
      headerLoop env fuel header rq data = headerLoop env fuel' header rq data := by
  intro fuel
  induction fuel with
  | zero => intro fuel' header rq data h; omega
  | succ fuel ih =>
    intro fuel' header rq data h h'
    obtain ⟨fuel', rfl⟩ : ∃ n, fuel' = n + 1 := ⟨fuel' - 1, by omega⟩
    rw [headerLoop, headerLoop]
    cases hf : find crlf header with
    | none => rfl
    | some pos =>
      have hle : pos + 2 ≤ header.length := find_le hf
      cases hl : headerLine (header.take pos) with
      | none => simp only [hl]
      | some kv =>
        simp only [hl, removePrefix_of_le hle, bind, Except.bind]
        congr 3
        cases data.retrieve (pos + 2) with
        | error f => rfl
        | ok b =>
          exact ih fuel' _ _ b (by rw [List.length_drop]; omega) (by rw [List.length_drop]; omega)

/-- One line of the headers, whatever stands behind it. -/
theorem parseRequestHeader_line {rq : HttpRequest D} {data : Buffer} {line key value rest : Bytes} (hcr : CR ∉ line)
    (hne : line ≠ []) (hsize : rq.header.size ≤ maxRequestHeaderLen) (hread : data.readable = line ++ crlf ++ rest)
    (hline : headerLine line = some (key, value)) :
    ∃ data', data'.readable = rest ∧ parseRequestHeader env rq data =
      parseRequestHeader env { rq with header := rq.header.add key value } data' := by
  have hfind := find_crlf_of_not_mem hcr rest
  have hblank : ¬ crlf <+: line ++ crlf ++ rest := by
    intro hp
    obtain ⟨-, -, hno⟩ := find_eq_some.mp hfind
    exact hno 0 (List.length_pos_iff.mpr hne) hp
  have hempty : (line ++ crlf ++ rest).isEmpty = false := by simp [hne]
  have htake : (line ++ crlf ++ rest).take line.length = line := by rw [List.append_assoc, List.take_left]
  have hlen : line.length + 2 ≤ (line ++ crlf ++ rest).length := by simp [crlf]
  obtain ⟨data', hdata', hread'⟩ := Buffer.retrieve_of_le
    (show line.length + 2 ≤ data.readable.length by rw [hread]; exact hlen)
  have hrest : data'.readable = rest := by rw [hread', hread, drop_line]
  refine ⟨data', hrest, ?_⟩
  rw [parseRequestHeader, parseRequestHeader, hread, hrest, headerLoop, hempty, if_neg (by decide), if_neg hblank,
    if_neg (not_lt.mpr hsize), hfind]
  simp only [htake, hline, removePrefix_of_le hlen, hdata', bind, Except.bind, drop_line]
  have hbytes : (line ++ crlf ++ rest).length = data.readableBytes := by rw [← hread, Buffer.readable_length]
  apply headerLoop_fuel
  · rw [← hbytes]
    simp only [crlf, List.length_append, List.length_cons, List.length_nil]
    omega
  · rw [← Buffer.readable_length, hrest]
    omega

theorem parseRequestHeader_nil {rq : HttpRequest D} {data : Buffer} (h : data.readable = []) :
    parseRequestHeader env rq data = .ok (.againRequest, rq, data) := by
  rw [parseRequestHeader, h]
  rfl

/-- The line leaves the value, complete, under the folded name, and the loop at the line behind it. -/
def StoresValue (rq : HttpRequest D) (name : Bytes) (n : Nat) (v : Bytes) : Prop :=
  ∀ data rest, data.readable = fieldText name n v ++ crlf ++ rest →
    ∃ rq' data', data'.readable = rest ∧ parseRequestHeader env rq data = parseRequestHeader env rq' data' ∧
      rq' = { rq with header := rq.header.add name v } ∧ rq'.header.map.lookup (toLowers name) = some v

/-- What is stored whole: a value behind a space, or one without spaces. -/
theorem storesValue_iff (rq : HttpRequest D) (name : Bytes) (n : Nat) (v : Bytes)
    (hsize : rq.header.size ≤ maxRequestHeaderLen) (hcolon : 58 ∉ name) (hname : CR ∉ name) (hv : CR ∉ v)
    (hspace : v.head? ≠ some 32) : StoresValue env rq name n v ↔ 0 < n ∨ 32 ∉ v := by
  have hcr := fieldText_noCR hname hv n
  have hne : fieldText name n v ≠ [] := by simp [fieldText]
  constructor
  · intro hstores
    by_contra hno
    rw [not_or, not_not] at hno
    obtain ⟨hn, h32⟩ := hno
    obtain rfl : n = 0 := by omega
    obtain ⟨v', hline, hlt⟩ := headerLine_cut hcolon hspace h32
    have hread : (received (fieldText name 0 v ++ crlf)).readable = fieldText name 0 v ++ crlf ++ [] := by simp
    obtain ⟨rq', data', hempty, hparse, rfl, -⟩ := hstores _ [] hread
    obtain ⟨data'', hempty', hparse'⟩ := parseRequestHeader_line env hcr hne hsize hread hline
    -- nothing is left: both calls return with what they have stored
    rw [parseRequestHeader_nil env hempty'] at hparse'
    rw [parseRequestHeader_nil env hempty, hparse'] at hparse
    have hget := congrArg (fun p => p.2.1.header.get name) (Except.ok.inj hparse)
    simp only [HttpHeader.add_toHttpBaseMap, HttpBaseMap.get_add_same, Option.some.injEq] at hget
    rw [hget] at hlt
    exact absurd hlt (Nat.lt_irrefl _)
  · intro hn data rest hread
    obtain ⟨data', hrest, hparse⟩ :=
      parseRequestHeader_line env hcr hne hsize hread (headerLine_whole hcolon hspace hn)
    exact ⟨_, data', hrest, hparse, rfl, HttpBaseMap.get_add_same rq.header.toHttpBaseMap name v⟩

theorem storesValue_colon : ((new : HttpRequest Unit).header.size ≤ maxRequestHeaderLen ∧ 58 ∉ lit "Host" ∧
    CR ∉ lit "Host" ∧ CR ∉ lit "a b:80" ∧ (lit "a b:80").head? ≠ some 32) ∧
    StoresValue bareEnv new (lit "Host") 2 (lit "a b:80") :=
  ⟨⟨Nat.zero_le _, by decide, by decide, by decide, by decide⟩,
    (storesValue_iff bareEnv new (lit "Host") 2 (lit "a b:80") (Nat.zero_le _) (by decide) (by decide) (by decide)
      (by decide)).mpr (.inl (by decide))⟩

/-- `A:b c` stores `c`. -/
theorem storesValue_lost : ¬ StoresValue bareEnv new (lit "A") 0 (lit "b c") := by
  intro h
  have hcr : CR ∉ fieldText (lit "A") 0 (lit "b c") := by decide
  have hread : (received (fieldText (lit "A") 0 (lit "b c") ++ crlf)).readable =
      fieldText (lit "A") 0 (lit "b c") ++ crlf ++ [] := by simp
  have hline : headerLine (fieldText (lit "A") 0 (lit "b c")) = some (lit "A", lit "c") := by decide
  have hsize : (new : HttpRequest Unit).header.size ≤ maxRequestHeaderLen := Nat.zero_le _
  obtain ⟨rq', data', hempty, hparse, rfl, -⟩ := h _ [] hread
  obtain ⟨data'', hempty', hparse'⟩ := parseRequestHeader_line bareEnv hcr (by decide) hsize hread hline
  rw [parseRequestHeader_nil bareEnv hempty'] at hparse'
  rw [parseRequestHeader_nil bareEnv hempty, hparse'] at hparse
  have hget := congrArg (fun p => p.2.1.header.get (lit "A")) (Except.ok.inj hparse)
  simp only [HttpHeader.add_toHttpBaseMap, HttpBaseMap.get_add_same, Option.some.injEq] at hget
  exact absurd hget (by decide)

end HahaWeb.HttpRequest
