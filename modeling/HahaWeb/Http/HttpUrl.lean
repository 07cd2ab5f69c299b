/-
  HahaWeb.Http.HttpUrl — `http/HttpUrl.cpp`: a request target split into scheme, host,
  port, path and query.

  Every view operation is checked; `ofString_total`: none goes past the end of its view.
-/

import HahaWeb.Base.EncodeUtil
import HahaWeb.Http.HttpMap

namespace HahaWeb

namespace HttpUrl

inductive State where
  | parseSuccess
  | parseFail
  deriving DecidableEq, Repr

inductive Scheme where
  | http
  | https
  deriving DecidableEq, Repr

end HttpUrl

/-- `scheme` is `none` where the constructor does not set it. -/
structure HttpUrl where
  state : HttpUrl.State
  url : Bytes
  scheme : Option HttpUrl.Scheme
  host : Bytes
  hostName : Bytes
  port : Bytes
  path : Bytes
  query : AList fun _ : Bytes => Bytes
  deriving DecidableEq

namespace HttpUrl

def blank (url : Bytes) : HttpUrl := ⟨.parseFail, url, none, [], [], [], [], ∅⟩

/-- The loop over the query, `i` the index looked at and `j` the start of the current piece. -/
def queryLoop (q : Bytes) : Nat → Nat → Nat → Bytes → (AList fun _ : Bytes => Bytes) →
    Except Fault (Nat × Bytes × AList fun _ : Bytes => Bytes)
  | 0, _, j, key, query => .ok (j, key, query)
  | fuel + 1, i, j, key, query => do
    let c ← charAt q i
    if c == 61 then
      let key ← substr q j (i - j)
      queryLoop q fuel (i + 1) (i + 1) key query
    else if c == 38 then
      let val ← substr q j (i - j)
      queryLoop q fuel (i + 1) (i + 1) [] (query.insert key val)
    else queryLoop q fuel (i + 1) j key query

/-- The pairs of a query; a last pair without a key is dropped. -/
def parseQuery (q : Bytes) : Except Fault (AList fun _ : Bytes => Bytes) := do
  let (j, key, query) ← queryLoop q q.length 0 0 [] ∅
  if key.isEmpty then .ok query
  else
    let val ← substr q j (q.length - j)
    .ok (query.insert key val)

/-- The path, and the query behind the first `?`. -/
def parsePath (u : HttpUrl) (view : Bytes) : Except Fault HttpUrl :=
  match find (lit "?") view with
  | none => .ok { u with path := view, state := .parseSuccess }
  | some pos => do
    let q ← removePrefix view (pos + 1)
    let query ← parseQuery q
    .ok { u with path := view.take pos, query := query, state := .parseSuccess }

def schemeOf (s : Bytes) : Option Scheme :=
  if s = lit "http" then some .http else if s = lit "https" then some .https else none

/-- Host and port up to the first `/`, then the rest. -/
def parseHost (u : HttpUrl) (view : Bytes) : Except Fault HttpUrl :=
  if view.length < 2 then .ok u
  else
    match find (lit "/") view with
    | none => .ok { u with host := view, hostName := view, path := lit "/", state := .parseSuccess }
    | some pos => do
      let host := view.take pos
      let u := match find (lit ":") host with
        | some pos1 => { u with host := host, hostName := host.take pos1, port := host.drop (pos1 + 1) }
        | none => { u with host := host, hostName := host }
      let view ← removePrefix view pos
      parsePath u view

def parseFromUrl (u : HttpUrl) : Except Fault HttpUrl :=
  if u.url.take 4 = lit "http" then
    match find (lit "://") u.url with
    | none => .ok u
    | some pos =>
      match schemeOf (u.url.take pos) with
      | none => .ok u
      | some scheme => do
        let view ← removePrefix u.url (pos + 3)
        parseHost { u with scheme := some scheme } view
  else if u.url.take 1 ≠ lit "/" then .ok u
  else parsePath u u.url

/-- `HttpUrl(url)`, decoding. -/
def ofString (url : Bytes) : Except Fault HttpUrl :=
  let u := blank (EncodeUtil.urlDecode url)
  if !url.isEmpty && u.url.isEmpty then .ok u else parseFromUrl u

/-! ## Nothing is read past its end -/

theorem queryLoop_total (q : Bytes) : ∀ fuel i j key query, i + fuel = q.length → j ≤ i →
    ∃ r, queryLoop q fuel i j key query = .ok r ∧ r.1 ≤ q.length := by
  intro fuel
  induction fuel with
  | zero => intro i j key query hi hj; exact ⟨_, rfl, by simp only; omega⟩
  | succ fuel ih =>
    intro i j key query hi hj
    have hc : charAt q i = .ok q[i] := charAt_of_lt (by omega)
    have hs : substr q j (i - j) = .ok ((q.drop j).take (i - j)) := substr_of_le (by omega)
    simp only [queryLoop, hc, hs, bind, Except.bind]
    split
    · exact ih _ _ _ _ (by omega) (Nat.le_refl _)
    · split
      · exact ih _ _ _ _ (by omega) (Nat.le_refl _)
      · exact ih _ _ _ _ (by omega) (by omega)

theorem parseQuery_total (q : Bytes) : ∃ m, parseQuery q = .ok m := by
  obtain ⟨⟨j, key, query⟩, h, hj⟩ := queryLoop_total q q.length 0 0 [] ∅ (by omega) (Nat.le_refl _)
  simp only [parseQuery, h, bind, Except.bind]
  split
  · exact ⟨_, rfl⟩
  · simp only at hj
    rw [substr_of_le hj]
    exact ⟨_, rfl⟩

theorem parsePath_total (u : HttpUrl) (view : Bytes) : ∃ u', parsePath u view = .ok u' := by
  unfold parsePath
  split
  · exact ⟨_, rfl⟩
  · rename_i pos h
    have hle := find_le h
    obtain ⟨m, hm⟩ := parseQuery_total (view.drop (pos + 1))
    rw [removePrefix_of_le (by simpa [lit] using hle)]
    simp only [bind, Except.bind, hm]
    exact ⟨_, rfl⟩

theorem parseHost_total (u : HttpUrl) (view : Bytes) : ∃ u', parseHost u view = .ok u' := by
  unfold parseHost
  split
  · exact ⟨_, rfl⟩
  · split
    · exact ⟨_, rfl⟩
    · rename_i pos h
      have := find_le h
      rw [removePrefix_of_le (by omega)]
      exact parsePath_total _ _

theorem parseFromUrl_total (u : HttpUrl) : ∃ u', parseFromUrl u = .ok u' := by
  unfold parseFromUrl
  split
  · split
    · exact ⟨_, rfl⟩
    · rename_i pos h
      split
      · exact ⟨_, rfl⟩
      · rw [removePrefix_of_le (by simpa [lit] using find_le h)]
        exact parseHost_total _ _
  · split
    · exact ⟨_, rfl⟩
    · exact parsePath_total _ _

theorem ofString_total (url : Bytes) : ∃ u, ofString url = .ok u := by
  unfold ofString
  simp only
  split
  · exact ⟨_, rfl⟩
  · exact parseFromUrl_total _

end HttpUrl

end HahaWeb
