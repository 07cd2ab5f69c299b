/-
  HahaWeb.Http.HttpUtil — `http/HttpUtil`: methods, versions, content types, status
  codes, and key-value text; `http/HttpCookie.cpp`: cookies.

  The loop of `HttpCookie`'s constructor is written over what it does with a finished
  attribute (`scan`). Proved: it hands on a list of attributes fixed by the text (`items`)
  and reads nothing past its end (`scan_items`), so the constructor throws only for a
  Max-Age that `std::stoi` does not take (`ofString_ok_iff`); `parseKeyValue` always
  returns (`parseKeyValue_total`).
-/

import HahaWeb.Base.EncodeUtil
import HahaWeb.Http.HttpMap

namespace HahaWeb

inductive HttpMethod where
  | get
  | post
  | head
  deriving DecidableEq, Repr

inductive HttpVersion where
  | http10
  | http11
  | http20
  deriving DecidableEq, Repr

inductive HttpContentType where
  | urlencoded
  | multipart
  | json
  | plain
  | html
  | jpg
  | jpeg
  | png
  | bmp
  | avi
  | mp4
  | webm
  | unknow
  deriving DecidableEq, Repr

inductive HttpChunkedState where
  | noLen
  | noData
  | done
  deriving DecidableEq, Repr

/-- `HttpMethod2Str` -/
def HttpMethod.str : HttpMethod → Bytes
  | .get => lit "GET"
  | .post => lit "POST"
  | .head => lit "HEAD"

/-- `HttpVersion2Str` -/
def HttpVersion.str : HttpVersion → Bytes
  | .http10 => lit "HTTP/1.0"
  | .http11 => lit "HTTP/1.1"
  | .http20 => lit "HTTP/2.0"

abbrev HttpForm := HttpMap .yes

/-- How many spaces `v` begins with. -/
def spaces (v : Bytes) : Nat := (v.takeWhile (· == 32)).length

theorem spaces_le (v : Bytes) : spaces v ≤ v.length := (List.takeWhile_prefix _).length_le

/-! ## Key-value text -/

def keyValueLoop (join split : Bytes) : Nat → Bytes → HttpMap .yes → Except Fault (HttpMap .yes)
  | 0, _, _ => .error .hang
  | fuel + 1, view, map =>
    if view.isEmpty then .ok map
    else
      let pos := find split view
      let kv := match pos with
        | some p => view.take p
        | none => view
      match find join kv with
      -- no separator: what follows is not looked at
      | none => .ok map
      | some pos1 => do
        let v ← substr kv (pos1 + join.length) kv.length
        let map := map.add (kv.take pos1) v
        match pos with
        | none => .ok map
        | some p =>
          let p := p + split.length
          let view ← removePrefix view (p + spaces (view.drop p))
          keyValueLoop join split fuel view map

def parseKeyValue (src join split : Bytes) (map : HttpMap .yes) (urldecode : Bool) : Except Fault (HttpMap .yes) :=
  let view := if urldecode then EncodeUtil.urlDecode src else src
  keyValueLoop join split (view.length + 1) view map

theorem keyValueLoop_total {join split : Bytes} (hs : split ≠ []) : ∀ fuel view map, view.length < fuel →
    ∃ m, keyValueLoop join split fuel view map = .ok m := by
  intro fuel
  induction fuel with
  | zero => intro view map h; omega
  | succ fuel ih =>
    intro view map h
    unfold keyValueLoop
    split
    · exact ⟨_, rfl⟩
    · simp only
      split
      · exact ⟨_, rfl⟩
      · rename_i pos1 h1
        rw [substr_of_le (find_le h1)]
        simp only [bind, Except.bind]
        cases hp : find split view with
        | none => exact ⟨_, rfl⟩
        | some p =>
          have hle := find_le hp
          have hsp := spaces_le (view.drop (p + split.length))
          have hpos : 0 < split.length := List.length_pos_iff.mpr hs
          simp only [List.length_drop] at hsp
          simp only [removePrefix_of_le
            (show p + split.length + spaces (view.drop (p + split.length)) ≤ view.length by omega)]
          exact ih _ _ (by simp only [List.length_drop]; omega)

/-- Key-value text is read to an end, inside its bounds, whatever it holds. -/
theorem parseKeyValue_total {join split : Bytes} (hs : split ≠ []) (src : Bytes) (map : HttpMap .yes)
    (urldecode : Bool) :
    ∃ m, parseKeyValue src join split map urldecode = .ok m :=
  keyValueLoop_total hs _ _ _ (Nat.lt_succ_self _)

/-! ## Cookies -/

/-- `maxAge` is `none` until it is set: the constructor leaves it indeterminate. -/
structure HttpCookie extends HttpBaseMap Bytes .no where
  expires : Bytes
  domain : Bytes
  path : Bytes
  sessionId : Bytes
  maxAge : Option Int
  secure : Bool
  httpOnly : Bool

namespace HttpCookie

def new : HttpCookie := ⟨.new, [], [], [], [], none, false, false⟩

def add (c : HttpCookie) (key val : Bytes) : HttpCookie := { c with toHttpBaseMap := c.toHttpBaseMap.add key val }

/-- What the constructor does with an attribute: its text `val` behind the last `=`, and
    its key, empty without a `=`. -/
def setAttr (c : HttpCookie) (key val : Bytes) : Except Fault HttpCookie :=
  if key.isEmpty then
    let attr := toLowers val
    if attr = lit "secure" then .ok { c with secure := true }
    else if attr = lit "httponly" then .ok { c with httpOnly := true }
    else .ok c
  else
    let attr := toLowers key
    if attr = lit "domain" then .ok { c with domain := val }
    else if attr = lit "path" then .ok { c with path := val }
    else if attr = lit "expires" then .ok { c with expires := val }
    else if attr = lit "max-age" then do
      let n ← stoi val
      .ok { c with maxAge := some n }
    else if attr = lit "sessionid" then .ok { c with sessionId := val }
    else .ok (c.add key val)

/-- The constructor's loop over the decoded text, `attr` in the place of `setAttr`. -/
def scan {σ : Type} (attr : σ → Bytes → Bytes → Except Fault σ) (s : Bytes) : Nat → Nat → Nat → Bytes → σ →
    Except Fault σ
  | 0, _, _, _, _ => .error .hang
  | fuel + 1, i, j, key, c =>
    if i < s.length then do
      let ch ← charAt s i
      if i = s.length - 1 ∨ ch = 59 then
        let i := if ch = 59 then i else i + 1
        let val ← substr s j (i - j)
        let c ← attr c key val
        let i := i + 1 + spaces (s.drop (i + 1))
        scan attr s fuel i i [] c
      else if ch = 61 then
        let key ← substr s j (i - j)
        scan attr s fuel (i + 1) (i + 1) key c
      else scan attr s fuel (i + 1) j key c
    else .ok c

/-- `HttpCookie(str)` -/
def ofString (str : Bytes) : Except Fault HttpCookie :=
  let s := EncodeUtil.urlDecode str
  scan setAttr s (s.length + 1) 0 0 [] new

/-- The attributes of a cookie text, in order. -/
def attributes (str : Bytes) : List (Bytes × Bytes) :=
  let s := EncodeUtil.urlDecode str
  match scan (fun l key val => .ok (l ++ [(key, val)])) s (s.length + 1) 0 0 [] [] with
  | .ok l => l
  | .error _ => []

/-- The attributes of the text `rest`, with `cur` before it behind the last `=`, and `key` before that. -/
def items : Bytes → Bytes → Bytes → List (Bytes × Bytes)
  | _, _, [] => []
  | key, cur, ch :: rest =>
    if ch = 59 then (key, cur) :: items [] [] (rest.drop (spaces rest))
    else if rest.isEmpty then [(key, cur ++ [ch])]
    else if ch = 61 then items cur [] rest
    else items key (cur ++ [ch]) rest
termination_by _ _ rest => rest.length

theorem take_drop_succ {s : Bytes} {i j : Nat} (hj : j ≤ i) (hi : i < s.length) :
    (s.drop j).take (i + 1 - j) = (s.drop j).take (i - j) ++ [s[i]] := by
  have hget : (s.drop j)[i - j]? = some s[i] := by
    rw [List.getElem?_drop, show j + (i - j) = i by omega, List.getElem?_eq_getElem hi]
  rw [show i + 1 - j = i - j + 1 by omega, List.take_add_one, hget]
  rfl

/-- Whatever is done with an attribute, the loop meets the same ones. -/
theorem scan_items (s : Bytes) : ∀ fuel i j key, 0 < fuel → s.length < i + fuel → (i < s.length → j ≤ i) →
    ∀ (σ : Type) (attr : σ → Bytes → Bytes → Except Fault σ) (c : σ), scan attr s fuel i j key c =
      (items key ((s.drop j).take (i - j)) (s.drop i)).foldlM (fun c p => attr c p.1 p.2) c := by
  intro fuel
  induction fuel with
  | zero => intro i j key h; omega
  | succ fuel ih =>
    intro i j key _ h hj σ attr c
    by_cases hi : i < s.length
    · have hj := hj hi
      have hc : charAt s i = .ok s[i] := charAt_of_lt hi
      have hsub : ∀ n, substr s j n = .ok ((s.drop j).take n) := fun n => substr_of_le (by omega)
      rw [List.drop_eq_getElem_cons hi, items, scan]
      simp only [hi, if_true, hc, bind, Except.bind, hsub, List.isEmpty_iff, List.drop_eq_nil_iff]
      by_cases hsemi : s[i] = 59
      · -- the next attribute begins behind the blanks
        simp only [hsemi, or_true, if_true, List.foldlM_cons, bind, Except.bind]
        cases attr c key ((s.drop j).take (i - j)) with
        | error f => rfl
        | ok c =>
          simp only
          rw [ih _ _ _ (by omega) (by omega) (fun _ => Nat.le_refl _), Nat.sub_self, List.take_zero, List.drop_drop]
      · by_cases hlast : i = s.length - 1
        · simp only [hlast, true_or, if_true]
          simp only [← hlast, hsemi, if_false, show s.length ≤ i + 1 by omega, if_true, List.foldlM_cons, bind,
            Except.bind, take_drop_succ hj hi]
          cases attr c key ((s.drop j).take (i - j) ++ [s[i]]) with
          | error f => rfl
          | ok c =>
            have hend : s.drop (i + 1 + 1 + spaces (s.drop (i + 1 + 1))) = [] := List.drop_eq_nil_of_le (by omega)
            simp only
            rw [ih _ _ _ (by omega) (by omega) (fun _ => Nat.le_refl _), hend, items]
        · simp only [hlast, hsemi, or_self, if_false, show ¬ s.length ≤ i + 1 by omega]
          by_cases hjoin : s[i] = 61
          · simp only [hjoin, if_true]
            rw [ih _ _ _ (by omega) (by omega) (fun _ => Nat.le_refl _), Nat.sub_self, List.take_zero]
          · simp only [hjoin, if_false]
            rw [ih _ _ _ (by omega) (by omega) (fun _ => by omega), take_drop_succ hj hi]
    · have hend : s.drop i = [] := List.drop_eq_nil_of_le (by omega)
      rw [scan, hend, items]
      simp [hi, pure, Except.pure]

theorem attributes_eq (str : Bytes) : attributes str = items [] [] (EncodeUtil.urlDecode str) := by
  have hcollect : ∀ (l acc : List (Bytes × Bytes)),
      l.foldlM (m := Except Fault) (fun l p => .ok (l ++ [(p.1, p.2)])) acc = .ok (acc ++ l) := by
    intro l
    induction l with
    | nil => intro acc; simp [pure, Except.pure]
    | cons p l ih =>
      intro acc
      simp only [List.foldlM_cons, bind, Except.bind]
      rw [ih]
      simp
  unfold attributes
  simp only
  rw [scan_items _ _ _ _ _ (by omega) (by omega) (fun _ => Nat.le_refl _), hcollect]
  simp

theorem ofString_eq (str : Bytes) : ofString str = (attributes str).foldlM (fun c p => setAttr c p.1 p.2) new := by
  unfold ofString
  simp only
  rw [attributes_eq, scan_items _ _ _ _ _ (by omega) (by omega) (fun _ => Nat.le_refl _)]
  simp

/-- A Max-Age that `std::stoi` takes; any other setAttr. -/
def Accepted (p : Bytes × Bytes) : Prop := p.1 ≠ [] → toLowers p.1 = lit "max-age" → ∃ n, stoi p.2 = .ok n

theorem setAttr_ok_iff (c : HttpCookie) (p : Bytes × Bytes) : (∃ c', setAttr c p.1 p.2 = .ok c') ↔ Accepted p := by
  unfold setAttr Accepted
  by_cases hk : p.1 = []
  · simp only [hk, List.isEmpty_nil, if_true, ne_eq, not_true_eq_false, false_implies, iff_true]
    repeat' split
    all_goals exact ⟨_, rfl⟩
  · simp only [List.isEmpty_iff, hk, if_false, ne_eq, not_false_eq_true, true_implies]
    by_cases hm : toLowers p.1 = lit "max-age"
    · have h1 : ¬ lit "max-age" = lit "domain" := by decide
      have h2 : ¬ lit "max-age" = lit "path" := by decide
      have h3 : ¬ lit "max-age" = lit "expires" := by decide
      simp only [h1, h2, h3, hm, if_true, if_false, true_implies]
      cases stoi p.2 <;> simp [bind, Except.bind]
    · simp only [hm, if_false, false_implies, iff_true]
      repeat' split
      all_goals exact ⟨_, rfl⟩

/-- The constructor returns exactly when every Max-Age in the text is a number. -/
theorem ofString_ok_iff (str : Bytes) : (∃ c, ofString str = .ok c) ↔ ∀ p ∈ attributes str, Accepted p := by
  rw [ofString_eq]
  generalize attributes str = l
  generalize new = c
  induction l generalizing c with
  | nil => simp [pure, Except.pure]
  | cons p l ih =>
    rw [List.foldlM_cons, List.forall_mem_cons, ← setAttr_ok_iff c p]
    cases h : setAttr c p.1 p.2 with
    | error f => simp [bind, Except.bind]
    | ok c' => simpa [bind, Except.bind] using ih c'

end HttpCookie

end HahaWeb
