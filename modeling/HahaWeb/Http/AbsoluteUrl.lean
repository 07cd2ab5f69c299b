/-
  HahaWeb.Http.AbsoluteUrl — what `HttpUrl` makes of `scheme://host[:port][path][?query]`.

  The authority is everything up to the first `/`, wherever that is. With a path it is host
  and port, and they are told apart; without one the constructor returns early with all that
  is left as host name, so a port or a query ends up in the name (or, when the query has a
  `/`, in the port). A target is split into its components exactly when its query can be
  decoded and it has a path, or neither a port nor a query (`split_iff`).
-/

import HahaWeb.Base.UrlCoding
import HahaWeb.Http.HttpUrl

namespace HahaWeb

open EncodeUtil (urlDecode decodeLoop Escaped)

/-- An absolute target by its components. -/
structure AbsoluteUrl where
  scheme : HttpUrl.Scheme
  host : Bytes
  port : Option Bytes
  path : Option Bytes
  query : Option Bytes
  host_length : 2 ≤ host.length
  host_plain : ∀ c ∈ host, c ≠ 47 ∧ c ≠ 58 ∧ c ≠ 63 ∧ c ≠ 37 ∧ c ≠ 43
  port_digits : ∀ p ∈ port, ∀ c ∈ p, isdigit c = true
  path_slash : ∀ p ∈ path, p.head? = some 47
  path_plain : ∀ p ∈ path, ∀ c ∈ p, c ≠ 63 ∧ c ≠ 37 ∧ c ≠ 43

def HttpUrl.Scheme.text : HttpUrl.Scheme → Bytes
  | .http => lit "http"
  | .https => lit "https"

namespace AbsoluteUrl

def portText (a : AbsoluteUrl) : Bytes := a.port.elim [] fun p => 58 :: p

/-- What stands behind `://`, with the query `query`. -/
def rest (a : AbsoluteUrl) (query : Option Bytes) : Bytes :=
  a.host ++ (a.portText ++ (a.path.getD [] ++ query.elim [] fun q => 63 :: q))

def text (a : AbsoluteUrl) : Bytes := a.scheme.text ++ (lit "://" ++ a.rest a.query)

/-- `HttpUrl` accepts the target and finds its components. -/
def Split (a : AbsoluteUrl) : Prop :=
  ∃ u, HttpUrl.ofString a.text = .ok u ∧ u.state = .parseSuccess ∧ u.scheme = some a.scheme ∧
    u.hostName = a.host ∧ u.port = a.port.getD [] ∧ u.path = a.path.getD (lit "/")

end AbsoluteUrl

namespace HttpUrl

/-! ## The parser on what is left -/

/-- The path reaches up to the first `?`; the other components stay. -/
theorem parsePath_spec (u : HttpUrl) (view : Bytes) :
    ∃ u', parsePath u view = .ok u' ∧ u'.state = .parseSuccess ∧ u'.scheme = u.scheme ∧ u'.hostName = u.hostName ∧
      u'.port = u.port ∧ 63 ∉ u'.path ∧ (view = u'.path ∨ ∃ q, view = u'.path ++ 63 :: q) := by
  unfold parsePath
  cases hfind : find (lit "?") view with
  | none => exact ⟨_, rfl, rfl, rfl, rfl, rfl, not_mem_of_find_none hfind, .inl rfl⟩
  | some pos =>
    obtain ⟨hno, hq⟩ := find_byte_some (c := 63) hfind
    obtain ⟨m, hm⟩ := parseQuery_total (view.drop (pos + 1))
    simp only
    rw [removePrefix_of_le (by simpa [lit] using find_le hfind)]
    simp only [bind, Except.bind, hm]
    exact ⟨_, rfl, rfl, rfl, rfl, rfl, hno, .inr ⟨_, hq⟩⟩

/-- Without a `/` all of it is the host; with one, the authority before it. -/
theorem parseHost_spec (u : HttpUrl) {view : Bytes} (hlen : 2 ≤ view.length) :
    ∃ u', parseHost u view = .ok u' ∧ u'.state = .parseSuccess ∧ u'.scheme = u.scheme ∧
      ((47 ∉ view ∧ u'.hostName = view ∧ u'.port = u.port ∧ u'.path = lit "/") ∨
        ∃ authority rest, view = authority ++ 47 :: rest ∧ 47 ∉ authority ∧ 63 ∉ u'.path ∧
          (47 :: rest = u'.path ∨ ∃ q, 47 :: rest = u'.path ++ 63 :: q) ∧
          ((58 ∉ authority ∧ u'.hostName = authority ∧ u'.port = u.port) ∨
            (58 ∉ u'.hostName ∧ authority = u'.hostName ++ 58 :: u'.port))) := by
  unfold parseHost
  rw [if_neg (by omega)]
  cases hfind : find (lit "/") view with
  | none => exact ⟨_, rfl, rfl, rfl, .inl ⟨not_mem_of_find_none hfind, rfl, rfl, rfl⟩⟩
  | some pos =>
    obtain ⟨hno, hrest⟩ := find_byte_some (c := 47) hfind
    have hle : pos ≤ view.length := by
      have := find_le hfind
      omega
    have hdrop : view.drop pos = 47 :: view.drop (pos + 1) := find_drop hfind
    simp only [removePrefix_of_le hle, bind, Except.bind, hdrop]
    generalize view.drop (pos + 1) = rest at *
    cases hcolon : find (lit ":") (view.take pos) with
    | none =>
      obtain ⟨u', hu', hstate, hscheme, hname, hport, hpath, hview⟩ :=
        parsePath_spec { u with host := view.take pos, hostName := view.take pos } (47 :: rest)
      exact ⟨u', hu', hstate, hscheme, .inr ⟨view.take pos, rest, hrest, hno, hpath, hview,
        .inl ⟨not_mem_of_find_none hcolon, hname, hport⟩⟩⟩
    | some pos1 =>
      obtain ⟨hno1, hauth⟩ := find_byte_some (c := 58) hcolon
      obtain ⟨u', hu', hstate, hscheme, hname, hport, hpath, hview⟩ :=
        parsePath_spec { u with
          host := view.take pos
          hostName := (view.take pos).take pos1
          port := (view.take pos).drop (pos1 + 1) } (47 :: rest)
      refine ⟨u', hu', hstate, hscheme, .inr ⟨view.take pos, rest, hrest, hno, hpath, hview, .inr ?_⟩⟩
      rw [hname, hport]
      exact ⟨hno1, hauth⟩

/-- Behind a scheme that is known the host follows. -/
theorem parseFromUrl_scheme (s : Scheme) (view : Bytes) :
    parseFromUrl (blank (s.text ++ (lit "://" ++ view))) =
      parseHost { blank (s.text ++ (lit "://" ++ view)) with scheme := some s } view := by
  cases s <;> rfl

/-! ## Decoding -/

theorem decodeLoop_append_plain {s : Bytes} (hs : ∀ c ∈ s, c ≠ 37 ∧ c ≠ 43) (t : Bytes) :
    decodeLoop (s ++ t) = (decodeLoop t).map (s ++ ·) := by
  induction s with
  | nil => simp
  | cons c s ih =>
    obtain ⟨h37, h43⟩ := hs c List.mem_cons_self
    rw [List.cons_append, EncodeUtil.decodeLoop_plain h37 h43, ih fun d hd => hs d (List.mem_cons_of_mem c hd),
      Option.map_map]
    rfl

theorem escaped_iff (t : Bytes) : Escaped t ↔ ∃ u, decodeLoop t = some u :=
  ⟨EncodeUtil.decodeLoop_of_escaped, fun h => (EncodeUtil.decodes_of_decodeLoop h.choose_spec).1⟩

end HttpUrl

namespace AbsoluteUrl

open HttpUrl (parseHost_spec parseFromUrl_scheme decodeLoop_append_plain escaped_iff)

theorem portText_plain (a : AbsoluteUrl) : ∀ c ∈ a.portText, c ≠ 47 ∧ c ≠ 63 ∧ c ≠ 37 ∧ c ≠ 43 := by
  intro c hc
  unfold portText at hc
  cases hp : a.port with
  | none => simp [hp] at hc
  | some p =>
    rw [hp, Option.elim_some, List.mem_cons] at hc
    rcases hc with rfl | hc
    · decide
    · have hdigit := a.port_digits p hp c hc
      exact ⟨ne_of_isdigit hdigit (by decide), ne_of_isdigit hdigit (by decide), ne_of_isdigit hdigit (by decide),
        ne_of_isdigit hdigit (by decide)⟩

/-- Everything before the query stands for itself. -/
theorem decodeLoop_text (a : AbsoluteUrl) :
    decodeLoop a.text = (a.query.elim (some none) fun q => (decodeLoop q).map some).map
      fun query => a.scheme.text ++ (lit "://" ++ a.rest query) := by
  have hscheme : ∀ c ∈ a.scheme.text ++ lit "://", c ≠ 37 ∧ c ≠ 43 := by
    cases a.scheme
    · exact fun c hc => ⟨fun h => absurd (h ▸ hc) (by decide), fun h => absurd (h ▸ hc) (by decide)⟩
    · exact fun c hc => ⟨fun h => absurd (h ▸ hc) (by decide), fun h => absurd (h ▸ hc) (by decide)⟩
  have hplain : ∀ c ∈ a.scheme.text ++ lit "://" ++ (a.host ++ (a.portText ++ a.path.getD [])), c ≠ 37 ∧ c ≠ 43 := by
    intro c hc
    rcases List.mem_append.mp hc with hc | hc
    · exact hscheme c hc
    · rcases List.mem_append.mp hc with hc | hc
      · exact (a.host_plain c hc).2.2.2
      · rcases List.mem_append.mp hc with hc | hc
        · exact (a.portText_plain c hc).2.2
        · cases hp : a.path with
          | none => simp [hp] at hc
          | some p =>
            rw [hp, Option.getD_some] at hc
            exact (a.path_plain p hp c hc).2
  have hrest : ∀ query, a.scheme.text ++ (lit "://" ++ a.rest query) =
      a.scheme.text ++ lit "://" ++ (a.host ++ (a.portText ++ a.path.getD [])) ++
        query.elim [] fun q => 63 :: q := by
    intro query
    simp [rest, List.append_assoc]
  rw [text, hrest, decodeLoop_append_plain hplain]
  simp only [hrest]
  cases a.query with
  | none => simp [decodeLoop]
  | some q =>
    rw [Option.elim_some, EncodeUtil.decodeLoop_plain (by decide) (by decide)]
    simp [Option.map_map, Function.comp_def]

/-- A query that cannot be decoded makes the target unreadable. -/
theorem not_split_of_not_escaped {a : AbsoluteUrl} {q : Bytes} (hq : a.query = some q) (h : ¬ Escaped q) :
    ¬ a.Split := by
  intro hsplit
  obtain ⟨u, hu, hstate, -⟩ := hsplit
  have hnone : decodeLoop q = none := by
    cases hd : decodeLoop q with
    | none => rfl
    | some v => exact absurd ((escaped_iff q).mpr ⟨v, hd⟩) h
  have hdecode : urlDecode a.text = [] := by
    rw [urlDecode, decodeLoop_text, hq, Option.elim_some, hnone]
    rfl
  have hne : a.text.isEmpty = false := by
    rw [List.isEmpty_eq_false_iff, text]
    simp [lit]
  have hfail : HttpUrl.ofString a.text = .ok (HttpUrl.blank []) := by
    unfold HttpUrl.ofString
    simp only [hdecode, hne]
    rfl
  rw [hfail] at hu
  cases hu
  cases hstate

/-- Otherwise the host is looked for in what is left, decoded. -/
theorem ofString_text {a : AbsoluteUrl} (h : ∀ q ∈ a.query, Escaped q) :
    ∃ query, query.isSome = a.query.isSome ∧
      HttpUrl.ofString a.text =
        HttpUrl.parseHost { HttpUrl.blank (a.scheme.text ++ (lit "://" ++ a.rest query)) with scheme := some a.scheme }
          (a.rest query) := by
  have hquery : ∃ query, query.isSome = a.query.isSome ∧
      (a.query.elim (some none) fun q => (decodeLoop q).map some) = some query := by
    cases hq : a.query with
    | none => exact ⟨none, rfl, rfl⟩
    | some q =>
      obtain ⟨v, hv⟩ := (escaped_iff q).mp (h q hq)
      exact ⟨some v, rfl, by rw [Option.elim_some, hv]; rfl⟩
  obtain ⟨query, hsome, hquery⟩ := hquery
  refine ⟨query, hsome, ?_⟩
  have hdecode : urlDecode a.text = a.scheme.text ++ (lit "://" ++ a.rest query) := by
    rw [urlDecode, decodeLoop_text, hquery]
    rfl
  have hne : (a.scheme.text ++ (lit "://" ++ a.rest query)).isEmpty = false := by
    rw [List.isEmpty_eq_false_iff]
    simp [lit]
  unfold HttpUrl.ofString
  simp only [hdecode]
  rw [if_neg (by simp [HttpUrl.blank, hne]), parseFromUrl_scheme]

/-- What the host and the path are then cut from. -/
theorem ofString_cut {a : AbsoluteUrl} (h : ∀ q ∈ a.query, Escaped q) :
    ∃ query u, query.isSome = a.query.isSome ∧ HttpUrl.ofString a.text = .ok u ∧ u.state = .parseSuccess ∧
      u.scheme = some a.scheme ∧
      ((47 ∉ a.rest query ∧ u.hostName = a.rest query ∧ u.port = [] ∧ u.path = lit "/") ∨
        ∃ authority rest, a.rest query = authority ++ 47 :: rest ∧ 47 ∉ authority ∧ 63 ∉ u.path ∧
          (47 :: rest = u.path ∨ ∃ q, 47 :: rest = u.path ++ 63 :: q) ∧
          ((58 ∉ authority ∧ u.hostName = authority ∧ u.port = []) ∨
            (58 ∉ u.hostName ∧ authority = u.hostName ++ 58 :: u.port))) := by
  obtain ⟨query, hsome, hof⟩ := ofString_text h
  have hlen : 2 ≤ (a.rest query).length := by
    have := a.host_length
    rw [rest, List.length_append]
    omega
  obtain ⟨u, hu, hstate, hscheme, hcut⟩ := parseHost_spec
    { HttpUrl.blank (a.scheme.text ++ (lit "://" ++ a.rest query)) with scheme := some a.scheme } hlen
  exact ⟨query, u, hsome, hof.trans hu, hstate, hscheme, hcut⟩

/-! ## The components -/

theorem host_not_mem (a : AbsoluteUrl) : 47 ∉ a.host ∧ 58 ∉ a.host ∧ 63 ∉ a.host :=
  ⟨fun h => (a.host_plain 47 h).1 rfl, fun h => (a.host_plain 58 h).2.1 rfl, fun h => (a.host_plain 63 h).2.2.1 rfl⟩

theorem authority_not_mem (a : AbsoluteUrl) : 47 ∉ a.host ++ a.portText ∧ 63 ∉ a.host ++ a.portText := by
  obtain ⟨h47, -, h63⟩ := a.host_not_mem
  constructor
  · exact List.not_mem_append h47 fun h => (a.portText_plain 47 h).1 rfl
  · exact List.not_mem_append h63 fun h => (a.portText_plain 63 h).2.1 rfl

theorem port_not_mem (a : AbsoluteUrl) : 63 ∉ a.port.getD [] := by
  cases hp : a.port with
  | none => exact List.not_mem_nil
  | some p => exact fun h => ne_of_isdigit (a.port_digits p hp 63 h) (by decide) rfl

/-- An authority read as host and port. -/
theorem authority_split {a : AbsoluteUrl} {u : HttpUrl}
    (h : (58 ∉ a.host ++ a.portText ∧ u.hostName = a.host ++ a.portText ∧ u.port = []) ∨
      (58 ∉ u.hostName ∧ a.host ++ a.portText = u.hostName ++ 58 :: u.port)) :
    u.hostName = a.host ∧ u.port = a.port.getD [] := by
  have h58 := a.host_not_mem.2.1
  unfold portText at h
  cases hp : a.port with
  | none =>
    rw [hp, Option.elim_none, List.append_nil] at h
    rcases h with ⟨-, hname, hport⟩ | ⟨-, heq⟩
    · exact ⟨hname, hport⟩
    · exact absurd (heq ▸ by simp) h58
  | some p =>
    rw [hp, Option.elim_some] at h
    rcases h with ⟨hno, -⟩ | ⟨hno, heq⟩
    · exact absurd (by simp) hno
    · obtain ⟨hname, hport⟩ := cut_unique h58 hno heq
      exact ⟨hname.symm, hport.symm⟩

/-- With a path, the authority ends where the path begins. -/
theorem split_of_path {a : AbsoluteUrl} {p : Bytes} (hp : a.path = some p) (h : ∀ q ∈ a.query, Escaped q) :
    a.Split := by
  obtain ⟨query, u, -, hu, hstate, hscheme, hview⟩ := ofString_cut h
  obtain ⟨t, ht⟩ : ∃ t, p = 47 :: t := by
    cases p with
    | nil => cases a.path_slash [] hp
    | cons c t => exact ⟨t, by rw [Option.some.inj (a.path_slash (c :: t) hp)]⟩
  have hrest : a.rest query = (a.host ++ a.portText) ++ 47 :: (t ++ query.elim [] fun q => 63 :: q) := by
    rw [rest, hp, Option.getD_some, ht]
    simp
  have h63 : 63 ∉ p := fun hmem => (a.path_plain p hp 63 hmem).1 rfl
  rw [hrest] at hview
  rcases hview with ⟨hno, -⟩ | ⟨authority, rest, heq, hno, hpath, hpq, hauth⟩
  · exact absurd (by simp) hno
  · obtain ⟨rfl, rfl⟩ := cut_unique a.authority_not_mem.1 hno heq
    obtain ⟨hname, hport⟩ := authority_split hauth
    refine ⟨u, hu, hstate, hscheme, hname, hport, ?_⟩
    rw [hp, Option.getD_some]
    have hwhole : 47 :: (t ++ query.elim [] fun q => 63 :: q) = p ++ query.elim [] fun q => 63 :: q := by
      rw [ht]
      rfl
    rw [hwhole] at hpq
    cases query with
    | none =>
      rw [Option.elim_none, List.append_nil] at hpq
      rcases hpq with hpq | ⟨q, hpq⟩
      · exact hpq.symm
      · exact absurd (hpq ▸ by simp) h63
    | some q' =>
      rw [Option.elim_some] at hpq
      rcases hpq with hpq | ⟨q, hpq⟩
      · exact absurd (hpq ▸ by simp) hpath
      · exact (cut_unique h63 hpath hpq).1.symm

theorem split_of_host {a : AbsoluteUrl} (hpath : a.path = none) (hport : a.port = none) (hquery : a.query = none) :
    a.Split := by
  obtain ⟨query, u, hsome, hu, hstate, hscheme, hview⟩ := ofString_cut (a := a) fun q hq => by
    rw [hquery] at hq
    cases hq
  have hnone : query = none := by
    rw [hquery] at hsome
    exact Option.not_isSome_iff_eq_none.mp (by simp [hsome])
  have hrest : a.rest query = a.host := by simp [rest, portText, hpath, hport, hnone]
  rw [hrest] at hview
  rcases hview with ⟨-, hname, hport', hpath'⟩ | ⟨authority, rest, heq, -⟩
  · exact ⟨u, hu, hstate, hscheme, hname, by rw [hport', hport]; rfl, by rw [hpath', hpath]; rfl⟩
  · exact absurd (heq ▸ by simp) a.host_not_mem.1

/-- Without a path, an authority cut at a `/` reaches into the query. -/
theorem mark_mem_authority {a : AbsoluteUrl} {query : Option Bytes} {authority rest : Bytes} (hpath : a.path = none)
    (heq : a.rest query = authority ++ 47 :: rest) : 63 ∈ authority := by
  obtain ⟨h47, -⟩ := a.authority_not_mem
  have hrest : a.rest query = (a.host ++ a.portText) ++ query.elim [] fun q => 63 :: q := by
    rw [AbsoluteUrl.rest, hpath]
    simp
  rw [hrest] at heq
  cases query with
  | none => exact absurd (by rw [Option.elim_none, List.append_nil] at heq; rw [heq]; simp) h47
  | some q =>
    rw [Option.elim_some] at heq
    rcases List.append_eq_append_iff.mp heq with ⟨w, hw, hq⟩ | ⟨w, hw, hq⟩
    · cases w with
      | nil => cases (List.cons.inj hq).1
      | cons c w =>
        rw [hw, ← (List.cons.inj hq).1]
        simp
    · cases w with
      | nil => cases (List.cons.inj hq).1
      | cons c w =>
        rw [hw, ← (List.cons.inj hq).1] at h47
        exact absurd (by simp) h47

/-- Without a path whatever follows the host becomes part of its name or of its port. -/
theorem not_split_of_no_path {a : AbsoluteUrl} (hpath : a.path = none) (h : ∀ q ∈ a.query, Escaped q)
    (hmore : ¬ (a.port = none ∧ a.query = none)) : ¬ a.Split := by
  intro hsplit
  obtain ⟨u', hu', -, -, hname, hport, -⟩ := hsplit
  obtain ⟨query, u, hsome, hu, -, -, hview⟩ := ofString_cut h
  rw [hu] at hu'
  cases hu'
  rcases hview with ⟨-, hall, -⟩ | ⟨authority, rest, heq, hno, -, -, hauth⟩
  · -- no `/` at all: everything is the host name
    rw [hname, AbsoluteUrl.rest, hpath, Option.getD_none, List.nil_append] at hall
    have hnil := List.append_right_eq_self.mp hall.symm
    obtain ⟨hportText, hqueryText⟩ := List.append_eq_nil_iff.mp hnil
    apply hmore
    constructor
    · cases hp : a.port with
      | none => rfl
      | some p => rw [portText, hp] at hportText; cases hportText
    · cases query with
      | none => exact Option.not_isSome_iff_eq_none.mp (by simp [← hsome])
      | some q => cases hqueryText
  · -- a `/` of the query: the `?` is in the name or in the port, and belongs to neither
    have hmark := mark_mem_authority hpath heq
    rcases hauth with ⟨-, hall, -⟩ | ⟨-, hcut⟩
    · rw [← hall, hname] at hmark
      exact a.host_not_mem.2.2 hmark
    · rw [hcut, hname, hport] at hmark
      rcases List.mem_append.mp hmark with hmark | hmark
      · exact a.host_not_mem.2.2 hmark
      · rcases List.mem_cons.mp hmark with hmark | hmark
        · cases hmark
        · exact a.port_not_mem hmark

/-- The targets whose components are found. -/
theorem split_iff (a : AbsoluteUrl) :
    a.Split ↔ (∀ q ∈ a.query, Escaped q) ∧ (a.path.isSome = true ∨ (a.port = none ∧ a.query = none)) := by
  by_cases h : ∀ q ∈ a.query, Escaped q
  · cases hpath : a.path with
    | some p => exact ⟨fun _ => ⟨h, .inl rfl⟩, fun _ => split_of_path hpath h⟩
    | none =>
      constructor
      · intro hsplit
        by_contra hno
        exact not_split_of_no_path hpath h (fun hmore => hno ⟨h, .inr hmore⟩) hsplit
      · intro hcond
        rcases hcond.2 with hsome | ⟨hport, hquery⟩
        · cases hsome
        · exact split_of_host hpath hport hquery
  · constructor
    · intro hsplit
      simp only [not_forall] at h
      obtain ⟨q, hq, hesc⟩ := h
      exact absurd hsplit (not_split_of_not_escaped hq hesc)
    · exact fun hcond => absurd hcond.1 h

/-- `http://ab:80` -/
def hostAndPort : AbsoluteUrl where
  scheme := .http
  host := [97, 98]
  port := some [56, 48]
  path := none
  query := none
  host_length := Nat.le_refl 2
  host_plain := by
    intro c hc
    rcases List.mem_pair.mp hc with rfl | rfl <;> decide
  port_digits := by
    intro p hp c hc
    cases hp
    rcases List.mem_pair.mp hc with rfl | rfl <;> rfl
  path_slash := by
    intro p hp
    cases hp
  path_plain := by
    intro p hp
    cases hp

/-- Its host name is `ab:80`. -/
theorem not_split_hostAndPort : ¬ hostAndPort.Split := by
  intro h
  obtain ⟨u, hu, -, -, hname, -⟩ := h
  have hread : (HttpUrl.ofString hostAndPort.text).toOption.map (fun u => u.hostName) = some (lit "ab:80") := by decide
  rw [hu] at hread
  have hall : u.hostName = lit "ab:80" := Option.some.inj hread
  rw [hall] at hname
  exact absurd hname (by decide)

end AbsoluteUrl

end HahaWeb
