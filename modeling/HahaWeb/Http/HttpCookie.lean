/-
  HahaWeb.Http.HttpCookie — a cookie written by `HttpCookie::toString` and read back by
  its constructor.

  The text is a list of attributes joined by a semicolon and a blank (`toString_eq`), and the
  constructor reads such a list back when no attribute holds a separator and the last one
  has a value (`items_intercalate`). But it decodes the whole text first, which `toString`
  never encodes, and takes every `=` for the end of a name, those in values too. Proved: a
  cookie of tokens and cookie octets with a Max-Age comes back, whatever the order of its
  pairs, exactly when no pair holds a percent sign or a plus and no value a `=`
  (`comes_back_iff`); the value `b=c` does not (`comes_back_joined`). That nothing else
  comes back is a matter of weight: the bytes that are neither separators nor blanks are
  kept or lost by each step, and decoding loses some (`weight_urlDecode`, `worth_ofString`).
-/

import HahaWeb.Http.HttpServer
import Mathlib.Algebra.Order.BigOperators.Group.List

namespace HahaWeb.HttpCookie

/-! ## What is written -/

/-- An attribute as it stands in the text. -/
def spell (p : Bytes × Bytes) : Bytes := if p.1.isEmpty then p.2 else p.1 ++ lit "=" ++ p.2

def mark (name text : Bytes) : List (Bytes × Bytes) := if text.isEmpty then [] else [(name, text)]

def flag (name : Bytes) (set : Bool) : List (Bytes × Bytes) := if set then [([], name)] else []

/-- The attributes behind the pairs. -/
def marks (c : HttpCookie) (maxAge : Int) : List (Bytes × Bytes) :=
  mark (lit "Expires") c.expires ++ mark (lit "Domain") c.domain ++ mark (lit "Path") c.path ++
    mark (lit "Max-Age") (if 0 < maxAge then decimalInt maxAge else []) ++ flag (lit "Secure") c.secure ++
    flag (lit "HttpOnly") c.httpOnly

/-- The attributes of the text; without a pair, it begins with a separator. -/
def written (pairs : List (Bytes × Bytes)) (c : HttpCookie) (maxAge : Int) : List (Bytes × Bytes) :=
  (if pairs.isEmpty then [([], [])] else pairs) ++ marks c maxAge

theorem spell_pair {p : Bytes × Bytes} (h : p.1 ≠ []) : spell p = p.1 ++ lit "=" ++ p.2 := by
  simp [spell, h]

theorem intercalate_cons (sep x : Bytes) (l : List Bytes) :
    List.intercalate sep (x :: l) = x ++ l.flatMap (sep ++ ·) := by
  induction l generalizing x with
  | nil => simp
  | cons y l ih => rw [List.intercalate_cons_cons, ih, List.flatMap_cons, List.append_assoc, List.append_assoc]

theorem intercalate_append (sep : Bytes) {a : List Bytes} (ha : a ≠ []) (b : List Bytes) :
    List.intercalate sep (a ++ b) = List.intercalate sep a ++ b.flatMap (sep ++ ·) := by
  obtain ⟨x, l, rfl⟩ := List.exists_cons_of_ne_nil ha
  rw [List.cons_append, intercalate_cons, intercalate_cons, List.flatMap_append, List.append_assoc]

theorem flatMap_mark {name : Bytes} (hn : name ≠ []) (text : Bytes) :
    ((mark name text).map spell).flatMap (lit "; " ++ ·) =
      if text.isEmpty then [] else lit "; " ++ (name ++ lit "=" ++ text) := by
  unfold mark
  split <;> simp [spell, hn]

theorem flatMap_flag (name : Bytes) (set : Bool) :
    ((flag name set).map spell).flatMap (lit "; " ++ ·) = if set then lit "; " ++ name else [] := by
  unfold flag
  split <;> simp [spell]

theorem decimalInt_ne_nil (n : Int) : decimalInt n ≠ [] := by
  unfold decimalInt
  split
  · simp
  · exact decimal_ne_nil _

theorem flatMap_age (n : Int) :
    ((mark (lit "Max-Age") (if 0 < n then decimalInt n else [])).map spell).flatMap (lit "; " ++ ·) =
      if 0 < n then lit "; " ++ (lit "Max-Age" ++ lit "=" ++ decimalInt n) else [] := by
  rw [flatMap_mark (by decide)]
  split <;> simp [decimalInt_ne_nil]

theorem append_unless (b : Bool) (s name text : Bytes) :
    (if b then s else s ++ name ++ text) = s ++ if b then [] else name ++ text := by
  cases b <;> simp

theorem append_when (b : Bool) (s name : Bytes) : (if b then s ++ name else s) = s ++ if b then name else [] := by
  cases b <;> simp

theorem append_pos (n : Int) (s name text : Bytes) :
    (if 0 < n then s ++ name ++ text else s) = s ++ if 0 < n then name ++ text else [] := by
  split <;> simp

variable {D : Type} (w : World D)

/-- `toString` joins the attributes with a semicolon and a blank. -/
theorem toString_eq {c : HttpCookie} (hname : ∀ p ∈ w.entries c.toHttpBaseMap, p.1 ≠ []) :
    c.toString w = List.intercalate (lit "; ")
      ((written (w.entries c.toHttpBaseMap) c (c.maxAge.getD w.maxAge)).map spell) := by
  have hpairs : List.intercalate (lit "; ") ((w.entries c.toHttpBaseMap).map fun e => e.1 ++ lit "=" ++ e.2) =
      List.intercalate (lit "; ") ((if (w.entries c.toHttpBaseMap).isEmpty then [([], [])]
        else w.entries c.toHttpBaseMap).map spell) := by
    split
    · rename_i h
      rw [List.isEmpty_iff.mp h]
      rfl
    · exact congrArg _ (List.map_congr_left fun p hp => (spell_pair (hname p hp)).symm)
  have hne : (if (w.entries c.toHttpBaseMap).isEmpty then [([], [])]
      else w.entries c.toHttpBaseMap).map spell ≠ [] := by
    split
    · simp
    · rename_i h
      simpa using h
  unfold written
  rw [List.map_append, intercalate_append _ hne, ← hpairs]
  have hExpires : lit "; Expires=" = lit "; " ++ (lit "Expires" ++ lit "=") := by decide
  have hDomain : lit "; Domain=" = lit "; " ++ (lit "Domain" ++ lit "=") := by decide
  have hPath : lit "; Path=" = lit "; " ++ (lit "Path" ++ lit "=") := by decide
  have hMaxAge : lit "; Max-Age=" = lit "; " ++ (lit "Max-Age" ++ lit "=") := by decide
  have hSecure : lit "; Secure" = lit "; " ++ lit "Secure" := by decide
  have hHttpOnly : lit "; HttpOnly" = lit "; " ++ lit "HttpOnly" := by decide
  unfold toString marks
  simp only [append_unless, append_when, append_pos]
  simp only [List.map_append, List.flatMap_append, flatMap_mark (show lit "Expires" ≠ [] by decide),
    flatMap_mark (show lit "Domain" ≠ [] by decide), flatMap_mark (show lit "Path" ≠ [] by decide),
    flatMap_age, flatMap_flag, List.append_assoc, hExpires, hDomain, hPath, hMaxAge, hSecure, hHttpOnly]

/-! ## What is read -/

/-- No separator in it. -/
def Clean (t : Bytes) : Prop := 59 ∉ t ∧ 61 ∉ t

theorem items_run {t : Bytes} (ht : Clean t) {rest : Bytes} (hrest : rest ≠ []) (key cur : Bytes) :
    items key cur (t ++ rest) = items key (cur ++ t) rest := by
  induction t generalizing cur with
  | nil => simp
  | cons ch t ih =>
    have h59 : ch ≠ 59 := fun h => ht.1 (h ▸ List.mem_cons_self)
    have h61 : ch ≠ 61 := fun h => ht.2 (h ▸ List.mem_cons_self)
    have ht' : Clean t := ⟨fun h => ht.1 (List.mem_cons_of_mem _ h), fun h => ht.2 (List.mem_cons_of_mem _ h)⟩
    rw [List.cons_append, items]
    simp only [h59, h61, if_false, List.isEmpty_iff, List.append_eq_nil_iff, hrest, and_false]
    rw [ih ht', List.append_assoc, List.singleton_append]

/-- The last byte of the text ends an attribute. -/
theorem items_end {t : Bytes} (ht : Clean t) (hne : t ≠ []) (key cur : Bytes) :
    items key cur t = [(key, cur ++ t)] := by
  obtain ⟨s, ch, rfl⟩ : ∃ s ch, t = s ++ [ch] := ⟨t.dropLast, t.getLast hne, (List.dropLast_append_getLast hne).symm⟩
  have h59 : ch ≠ 59 := fun h => ht.1 (by simp [h])
  have hs : Clean s := ⟨fun h => ht.1 (by simp [h]), fun h => ht.2 (by simp [h])⟩
  rw [items_run hs (by simp), items]
  simp only [h59, if_false, List.isEmpty_nil, if_true, List.append_assoc]

/-- The name of an attribute is read up to its `=`. -/
theorem items_spell {p : Bytes × Bytes} (hp : Clean p.1) {rest : Bytes} (hrest : p.2 ++ rest ≠ []) :
    items [] [] (spell p ++ rest) = items p.1 [] (p.2 ++ rest) := by
  by_cases hk : p.1 = []
  · rw [spell, hk]
    rfl
  · have hjoin : lit "=" = [61] := by decide
    rw [spell_pair hk, List.append_assoc, List.append_assoc, items_run hp (by simp [hjoin]), hjoin,
      List.singleton_append, items]
    simp only [show (61 : UInt8) ≠ 59 by decide, if_false, List.isEmpty_iff, hrest, if_true, List.nil_append]

/-- What follows a separator and a blank is not itself a blank. -/
def Follows (p : Bytes × Bytes) : Prop := ∃ ch t, spell p = ch :: t ∧ ch ≠ 32

/-- The attributes of a text are read back from it when the last one has a value. -/
theorem items_intercalate {l : List (Bytes × Bytes)} (hne : l ≠ []) (hclean : ∀ p ∈ l, Clean p.1 ∧ Clean p.2)
    (hfollows : ∀ p ∈ l.tail, Follows p) (hlast : ∀ p, l.getLast? = some p → p.2 ≠ []) :
    items [] [] (List.intercalate (lit "; ") (l.map spell)) = l := by
  induction l with
  | nil => exact absurd rfl hne
  | cons p l ih =>
    obtain ⟨hname, hval⟩ := hclean p List.mem_cons_self
    cases l with
    | nil =>
      have hp : p.2 ≠ [] := hlast p rfl
      have hread := @items_spell p hname [] (by simpa using hp)
      simp only [List.append_nil] at hread
      rw [List.map_singleton, List.intercalate_singleton, hread, items_end hval hp, List.nil_append]
    | cons q l =>
      obtain ⟨ch, t, hq, hch⟩ := hfollows q List.mem_cons_self
      have hsep : lit "; " = [59, 32] := by decide
      have htail := ih (by simp) (fun p hp => hclean p (List.mem_cons_of_mem _ hp))
        (fun p hp => hfollows p (List.mem_cons_of_mem _ hp)) (fun p hp => hlast p (by simpa using hp))
      have hblank : spaces (32 :: List.intercalate (lit "; ") ((q :: l).map spell)) = 1 := by
        rw [List.map_cons, intercalate_cons, hq]
        simp [spaces, hch]
      rw [List.map_cons, List.map_cons, List.intercalate_cons_cons, ← List.map_cons, hsep, List.append_assoc]
      simp only [List.cons_append, List.nil_append]
      rw [items_spell hname (by simp), items_run hval (by simp), items]
      rw [← hsep]
      simp only [if_true, hblank, List.drop_one, List.tail_cons, htail, List.nil_append]

/-! ## What is kept of it -/

abbrev setItem (c : HttpCookie) (p : Bytes × Bytes) : Except Fault HttpCookie := setAttr c p.1 p.2

/-- The words that are not names of pairs. -/
def reserved : List Bytes :=
  [lit "expires", lit "domain", lit "path", lit "max-age", lit "secure", lit "httponly", lit "sessionid"]

/-- A visible character that is no separator of a header. -/
def istoken (ch : UInt8) : Bool :=
  33 ≤ ch && ch ≤ 126 && !([34, 40, 41, 44, 47, 58, 59, 60, 61, 62, 63, 64, 91, 92, 93, 123, 125] : Bytes).contains ch

/-- A visible character but for the quote, the comma, the semicolon and the backslash. -/
def isoctet (ch : UInt8) : Bool :=
  ch == 0x21 || (0x23 ≤ ch && ch ≤ 0x2B) || (0x2D ≤ ch && ch ≤ 0x3A) || (0x3C ≤ ch && ch ≤ 0x5B) ||
    (0x5D ≤ ch && ch ≤ 0x7E)

/-- The name of a pair: a token in lower case. -/
structure Name (k : Bytes) : Prop where
  ne_nil : k ≠ []
  token : ∀ ch ∈ k, istoken ch = true
  lower : toLowers k = k
  free : k ∉ reserved

theorem Name.ne {k word : Bytes} (h : Name k) (hw : word ∈ reserved) : toLowers k ≠ word := by
  intro hk
  rw [h.lower] at hk
  exact h.free (hk ▸ hw)

theorem setAttr_pair (c : HttpCookie) {p : Bytes × Bytes} (h : Name p.1) : setItem c p = .ok (c.add p.1 p.2) := by
  have hword : ∀ word ∈ reserved, toLowers p.1 ≠ word := fun _ => h.ne
  simp only [reserved, List.forall_mem_cons] at hword
  obtain ⟨h1, h2, h3, h4, -, -, h5, -⟩ := hword
  simp only [setItem, setAttr, List.isEmpty_iff, h.ne_nil, h1, h2, h3, h4, h5, if_false]

theorem foldlM_pairs {l : List (Bytes × Bytes)} (hl : ∀ p ∈ l, Name p.1) (c : HttpCookie) :
    l.foldlM setItem c =
      .ok { c with toHttpBaseMap := l.foldl (fun m p => m.add p.1 p.2) c.toHttpBaseMap } := by
  induction l generalizing c with
  | nil => rfl
  | cons p l ih =>
    have htail := ih (fun p hp => hl p (List.mem_cons_of_mem _ hp)) (c.add p.1 p.2)
    rw [List.foldlM_cons, setAttr_pair c (hl p List.mem_cons_self)]
    exact htail

/-- Names that differ are all kept. -/
theorem entries_foldl_add {l : List (Bytes × Bytes)} (hlower : ∀ p ∈ l, toLowers p.1 = p.1)
    (hnodup : (l.map Prod.fst).Nodup) (m : HttpMap .no) (hnew : ∀ p ∈ l, p.1 ∉ m.map) :
    (l.foldl (fun m p => m.add p.1 p.2) m).map.entries.Perm (l.map (fun p => ⟨p.1, p.2⟩) ++ m.map.entries) := by
  induction l generalizing m with
  | nil => exact .refl _
  | cons p l ih =>
    rw [List.map_cons, List.nodup_cons] at hnodup
    have hp : p.1 ∉ m.map := hnew p List.mem_cons_self
    have hadd : (m.add p.1 p.2).map.entries = ⟨p.1, p.2⟩ :: m.map.entries := by
      simp only [HttpBaseMap.add, CaseSensitive.fold, hlower p List.mem_cons_self]
      exact AList.entries_insert_of_notMem hp
    have hnew' : ∀ q ∈ l, q.1 ∉ (m.add p.1 p.2).map := by
      intro q hq hmem
      simp only [HttpBaseMap.add, CaseSensitive.fold, hlower p List.mem_cons_self, AList.mem_insert] at hmem
      rcases hmem with heq | hmem
      · exact hnodup.1 (heq ▸ List.mem_map_of_mem hq)
      · exact hnew q (List.mem_cons_of_mem _ hq) hmem
    have htail := ih (fun q hq => hlower q (List.mem_cons_of_mem _ hq)) hnodup.2 (m.add p.1 p.2) hnew'
    rw [hadd] at htail
    exact htail.trans List.perm_middle

theorem foldlM_mark {name : Bytes} (set : Bytes → HttpCookie) (text : Bytes)
    (hset : setAttr (set []) name text = .ok (set text)) :
    (mark name text).foldlM setItem (set []) = .ok (set text) := by
  unfold mark
  split
  · rename_i h
    rw [List.isEmpty_iff.mp h]
    rfl
  · simp [setItem, hset]

theorem foldlM_flag {name : Bytes} (set : Bool → HttpCookie) (b : Bool)
    (hset : setAttr (set false) [] name = .ok (set true)) : (flag name b).foldlM setItem (set false) = .ok (set b) := by
  cases b
  · rfl
  · simp [flag, setItem, hset]

theorem stoi_decimalInt {n : Int} (h0 : 0 ≤ n) (h : n < 2 ^ 31) : stoi (decimalInt n) = .ok n := by
  have hd : decimalInt n = decimal n.natAbs := if_neg (by omega)
  rw [hd]
  unfold stoi
  rw [readDecimal_of_digits (fun _ => isdigit_decimal) (decimal_ne_nil _), decimalValue_decimal]
  have hn : ((n.natAbs : Nat) : Int) = n := Int.natAbs_of_nonneg h0
  simp only [Bool.false_eq_true, if_false, hn, show -2 ^ 31 ≤ n by omega, h, and_self, if_true]

theorem setAttr_expires (c : HttpCookie) (val : Bytes) :
    setAttr c (lit "Expires") val = .ok { c with expires := val } := rfl

theorem setAttr_domain (c : HttpCookie) (val : Bytes) :
    setAttr c (lit "Domain") val = .ok { c with domain := val } := rfl

theorem setAttr_path (c : HttpCookie) (val : Bytes) :
    setAttr c (lit "Path") val = .ok { c with path := val } := rfl

theorem setAttr_maxAge (c : HttpCookie) {val : Bytes} {n : Int} (h : stoi val = .ok n) :
    setAttr c (lit "Max-Age") val = .ok { c with maxAge := some n } := by
  change (do let n ← stoi val; Except.ok { c with maxAge := some n }) = _
  rw [h]
  rfl

theorem setAttr_secure (c : HttpCookie) : setAttr c [] (lit "Secure") = .ok { c with secure := true } := rfl

theorem setAttr_httpOnly (c : HttpCookie) : setAttr c [] (lit "HttpOnly") = .ok { c with httpOnly := true } := rfl

/-- The attributes behind the pairs are all set. -/
theorem foldlM_marks (c : HttpCookie) (m : HttpMap .no) {n : Int} (hn : 1 ≤ n) (hlt : n < 2 ^ 31) :
    (marks c n).foldlM setItem { new with toHttpBaseMap := m } =
      .ok ⟨m, c.expires, c.domain, c.path, [], some n, c.secure, c.httpOnly⟩ := by
  have hage : stoi (decimalInt n) = .ok n := stoi_decimalInt (by omega) hlt
  have hexpires := foldlM_mark (fun t => ⟨m, t, [], [], [], none, false, false⟩) c.expires (setAttr_expires _ _)
  have hdomain := foldlM_mark (fun t => ⟨m, c.expires, t, [], [], none, false, false⟩) c.domain (setAttr_domain _ _)
  have hpath := foldlM_mark (fun t => ⟨m, c.expires, c.domain, t, [], none, false, false⟩) c.path (setAttr_path _ _)
  have hmaxAge := foldlM_mark
    (fun t => ⟨m, c.expires, c.domain, c.path, [], if t.isEmpty then none else some n, false, false⟩) (decimalInt n)
    (by simpa [decimalInt_ne_nil] using setAttr_maxAge _ hage)
  have hsecure := foldlM_flag (fun b => ⟨m, c.expires, c.domain, c.path, [], some n, b, false⟩) c.secure
    (setAttr_secure _)
  have hhttpOnly := foldlM_flag (fun b => ⟨m, c.expires, c.domain, c.path, [], some n, c.secure, b⟩) c.httpOnly
    (setAttr_httpOnly _)
  simp only [List.isEmpty_nil, if_true, List.isEmpty_iff, decimalInt_ne_nil, if_false] at hmaxAge
  unfold marks
  simp only [show 0 < n by omega, if_true, List.foldlM_append]
  rw [show ({ new with toHttpBaseMap := m } : HttpCookie) = ⟨m, [], [], [], [], none, false, false⟩ from rfl, hexpires]
  simp only [bind, Except.bind, hdomain, hpath, hmaxAge, hsecure, hhttpOnly]

/-! ## Legal cookies -/

/-- A text that may stand behind an attribute word. -/
def Text (t : Bytes) : Prop := Clean t ∧ 37 ∉ t ∧ 43 ∉ t

/-- A cookie that may be written: its pairs are tokens and cookie octets, and it has a Max-Age. -/
structure Legal (c : HttpCookie) : Prop where
  name : ∀ e ∈ c.map.entries, Name e.1
  value : ∀ e ∈ c.map.entries, ∀ ch ∈ e.2, isoctet ch = true
  expires : Text c.expires
  domain : Text c.domain
  path : Text c.path
  maxAge : ∃ n, c.maxAge = some n ∧ 1 ≤ n ∧ n < 2 ^ 31

/-- The same pairs, Expires, Domain, Path, Max-Age and flags. -/
structure Same (c' c : HttpCookie) : Prop where
  pairs : c'.map.entries.Perm c.map.entries
  expires : c'.expires = c.expires
  domain : c'.domain = c.domain
  path : c'.path = c.path
  maxAge : c'.maxAge = c.maxAge
  secure : c'.secure = c.secure
  httpOnly : c'.httpOnly = c.httpOnly

/-- Nothing that decoding changes. -/
def Unescaped (t : Bytes) : Prop := 37 ∉ t ∧ 43 ∉ t

/-- No pair holds a percent sign or a plus, and no value a `=`. -/
def Plain (c : HttpCookie) : Prop := ∀ e ∈ c.map.entries, Unescaped e.1 ∧ Unescaped e.2 ∧ 61 ∉ e.2

theorem mem_entries {m : HttpMap .no} {p : Bytes × Bytes} : p ∈ w.entries m ↔ ⟨p.1, p.2⟩ ∈ m.map.entries := by
  rw [World.entries, (w.order_perm _).mem_iff, List.mem_map]
  constructor
  · intro ⟨e, he, hp⟩
    rw [← hp]
    exact he
  · exact fun h => ⟨_, h, rfl⟩

theorem Name.clean {k : Bytes} (h : Name k) : Clean k :=
  ⟨fun hm => absurd (h.token _ hm) (by decide), fun hm => absurd (h.token _ hm) (by decide)⟩

theorem Name.follows {p : Bytes × Bytes} (h : Name p.1) : Follows p := by
  obtain ⟨ch, t, hk⟩ := List.exists_cons_of_ne_nil h.ne_nil
  have hblank : ch ≠ 32 := by
    intro h32
    have htoken := h.token ch (by rw [hk]; exact List.mem_cons_self)
    rw [h32] at htoken
    exact absurd htoken (by decide)
  refine ⟨ch, t ++ lit "=" ++ p.2, ?_, hblank⟩
  rw [spell_pair h.ne_nil, hk]
  rfl

theorem forall_mark {P : Bytes × Bytes → Prop} (name text : Bytes) :
    (∀ p ∈ mark name text, P p) ↔ (text ≠ [] → P (name, text)) := by
  unfold mark
  split <;> simp_all

theorem forall_flag {P : Bytes × Bytes → Prop} (name : Bytes) (b : Bool) :
    (∀ p ∈ flag name b, P p) ↔ (b = true → P ([], name)) := by
  unfold flag
  split <;> simp_all

theorem forall_marks {P : Bytes × Bytes → Prop} {c : HttpCookie} {n : Int} (hn : 0 < n) :
    (∀ p ∈ marks c n, P p) ↔ (c.expires ≠ [] → P (lit "Expires", c.expires)) ∧
      (c.domain ≠ [] → P (lit "Domain", c.domain)) ∧ (c.path ≠ [] → P (lit "Path", c.path)) ∧
      P (lit "Max-Age", decimalInt n) ∧ (c.secure = true → P ([], lit "Secure")) ∧
      (c.httpOnly = true → P ([], lit "HttpOnly")) := by
  simp only [marks, List.forall_mem_append, forall_mark, forall_flag, hn, if_true, ne_eq, decimalInt_ne_nil,
    not_false_eq_true, true_implies, and_assoc]

theorem text_decimalInt {n : Int} (hn : 0 < n) : Text (decimalInt n) := by
  have hd : decimalInt n = decimal n.natAbs := if_neg (by omega)
  have hdigit : ∀ ch ∈ decimalInt n, isdigit ch = true := by
    rw [hd]
    exact fun ch => isdigit_decimal
  exact ⟨⟨fun h => absurd (hdigit _ h) (by decide), fun h => absurd (hdigit _ h) (by decide)⟩,
    fun h => absurd (hdigit _ h) (by decide), fun h => absurd (hdigit _ h) (by decide)⟩

/-- The attributes behind the pairs hold no separator and nothing to decode, and have a value. -/
theorem Legal.marks {c : HttpCookie} (h : Legal c) {n : Int} (hn : 0 < n) :
    ∀ p ∈ marks c n, Text p.1 ∧ Text p.2 ∧ p.2 ≠ [] ∧ Follows p := by
  have hword : ∀ word ∈ [lit "Expires", lit "Domain", lit "Path", lit "Max-Age", lit "Secure", lit "HttpOnly", []],
      Text word := by
    simp only [Text, Clean]
    decide
  simp only [List.forall_mem_cons] at hword
  obtain ⟨w1, w2, w3, w4, w5, w6, w7, -⟩ := hword
  rw [forall_marks hn]
  refine ⟨fun he => ⟨w1, h.expires, he, 69, _, rfl, by decide⟩, fun he => ⟨w2, h.domain, he, 68, _, rfl, by decide⟩,
    fun he => ⟨w3, h.path, he, 80, _, rfl, by decide⟩,
    ⟨w4, text_decimalInt hn, decimalInt_ne_nil n, 77, _, rfl, by decide⟩,
    fun _ => ⟨w7, w5, by decide, 83, _, rfl, by decide⟩, fun _ => ⟨w7, w6, by decide, 72, _, rfl, by decide⟩⟩

theorem getLast?_written (pairs : List (Bytes × Bytes)) (c : HttpCookie) {n : Int} (hn : 0 < n) {p : Bytes × Bytes}
    (h : (written pairs c n).getLast? = some p) : p ∈ marks c n := by
  have hne : (lit "Max-Age", decimalInt n) ∈ marks c n := by
    simp [HttpCookie.marks, mark, hn, decimalInt_ne_nil]
  unfold written at h
  rw [List.getLast?_append, Option.or_eq_some_iff, List.getLast?_eq_none_iff] at h
  rcases h with h | ⟨h, -⟩
  · exact List.mem_of_getLast? h
  · rw [h] at hne
    cases hne

theorem forall_written {P : Bytes × Bytes → Prop} {pairs : List (Bytes × Bytes)} {c : HttpCookie} {n : Int}
    (hnil : P ([], [])) : (∀ p ∈ written pairs c n, P p) ↔ (∀ p ∈ pairs, P p) ∧ ∀ p ∈ marks c n, P p := by
  unfold written
  rw [List.forall_mem_append]
  cases pairs <;> simp [hnil]

/-- A byte that is no separator stands in the text of an attribute. -/
theorem mem_intercalate {ch : UInt8} (h59 : ch ≠ 59) (h32 : ch ≠ 32) (h61 : ch ≠ 61) (l : List (Bytes × Bytes)) :
    ch ∈ List.intercalate (lit "; ") (l.map spell) ↔ ∃ p ∈ l, ch ∈ p.1 ∨ ch ∈ p.2 := by
  have hsep : ch ∉ lit "; " := by
    rw [show lit "; " = [59, 32] by decide]
    simp [h59, h32]
  have hspell : ∀ p : Bytes × Bytes, ch ∈ spell p ↔ ch ∈ p.1 ∨ ch ∈ p.2 := by
    intro p
    unfold spell
    split
    · rename_i hk
      simp [List.isEmpty_iff.mp hk]
    · rw [show lit "=" = [61] by decide]
      simp [h61]
  cases l with
  | nil => simp
  | cons q l => simp [intercalate_cons, hsep, hspell]

theorem unescaped_intercalate (l : List (Bytes × Bytes)) :
    Unescaped (List.intercalate (lit "; ") (l.map spell)) ↔ ∀ p ∈ l, Unescaped p.1 ∧ Unescaped p.2 := by
  unfold Unescaped
  rw [mem_intercalate (by decide) (by decide) (by decide), mem_intercalate (by decide) (by decide) (by decide)]
  constructor
  · intro ⟨h37, h43⟩ p hp
    exact ⟨⟨fun h => h37 ⟨p, hp, .inl h⟩, fun h => h43 ⟨p, hp, .inl h⟩⟩,
      ⟨fun h => h37 ⟨p, hp, .inr h⟩, fun h => h43 ⟨p, hp, .inr h⟩⟩⟩
  · intro hall
    constructor
    · intro ⟨p, hp, h⟩
      exact h.elim (hall p hp).1.1 (hall p hp).2.1
    · intro ⟨p, hp, h⟩
      exact h.elim (hall p hp).1.2 (hall p hp).2.2

/-! ## A plain cookie comes back -/

section

variable {c : HttpCookie}

theorem Legal.pair_name (h : Legal c) {p : Bytes × Bytes} (hp : p ∈ w.entries c.toHttpBaseMap) : Name p.1 :=
  h.name _ ((mem_entries w).mp hp)

theorem Legal.toString_eq (h : Legal c) {n : Int} (hn : c.maxAge = some n) :
    c.toString w = List.intercalate (lit "; ") ((written (w.entries c.toHttpBaseMap) c n).map spell) := by
  rw [HttpCookie.toString_eq w fun p hp => (h.pair_name w hp).ne_nil, hn]
  rfl

theorem Legal.unescaped_iff (h : Legal c) {n : Int} (hn : c.maxAge = some n) (hpos : 0 < n) :
    Unescaped (c.toString w) ↔ ∀ e ∈ c.map.entries, Unescaped e.1 ∧ Unescaped e.2 := by
  have hmarks : ∀ p ∈ HttpCookie.marks c n, Unescaped p.1 ∧ Unescaped p.2 := fun p hp =>
    ⟨(h.marks hpos p hp).1.2, (h.marks hpos p hp).2.1.2⟩
  rw [h.toString_eq w hn, unescaped_intercalate, forall_written (by simp [Unescaped]), and_iff_left hmarks]
  constructor
  · exact fun hall e he => hall (e.1, e.2) ((mem_entries w).mpr he)
  · exact fun hall p hp => hall _ ((mem_entries w).mp hp)

theorem mem_tail_written {pairs : List (Bytes × Bytes)} {n : Int} {p : Bytes × Bytes}
    (h : p ∈ (written pairs c n).tail) : p ∈ pairs ∨ p ∈ HttpCookie.marks c n := by
  unfold written at h
  cases pairs with
  | nil => exact .inr h
  | cons q pairs =>
    rcases List.mem_append.mp h with h | h
    · exact .inl (List.mem_cons_of_mem _ h)
    · exact .inr h

/-- The text of a plain cookie is read as it was written. -/
theorem Legal.attributes_toString (h : Legal c) (hplain : Plain c) {n : Int} (hn : c.maxAge = some n) (hpos : 0 < n) :
    attributes (c.toString w) = written (w.entries c.toHttpBaseMap) c n := by
  have hdecode : EncodeUtil.urlDecode (c.toString w) = c.toString w := by
    have hun := (h.unescaped_iff w hn hpos).mpr fun e he => ⟨(hplain e he).1, (hplain e he).2.1⟩
    exact EncodeUtil.urlDecode_plain hun.1 hun.2
  have hclean : ∀ p ∈ written (w.entries c.toHttpBaseMap) c n, Clean p.1 ∧ Clean p.2 := by
    rw [forall_written (by simp [Clean])]
    constructor
    · intro p hp
      have he := (mem_entries w).mp hp
      exact ⟨(h.name _ he).clean, fun h59 => absurd (h.value _ he _ h59) (by decide), (hplain _ he).2.2⟩
    · exact fun p hp => ⟨(h.marks hpos p hp).1.1, (h.marks hpos p hp).2.1.1⟩
  have hfollows : ∀ p ∈ (written (w.entries c.toHttpBaseMap) c n).tail, Follows p := by
    intro p hp
    rcases mem_tail_written hp with hp | hp
    · exact (h.pair_name w hp).follows
    · exact (h.marks hpos p hp).2.2.2
  have hne : written (w.entries c.toHttpBaseMap) c n ≠ [] := by
    unfold written
    split <;> simp_all
  rw [attributes_eq, hdecode, h.toString_eq w hn]
  exact items_intercalate hne hclean hfollows fun p hp => (h.marks hpos p (getLast?_written _ c hpos hp)).2.2.1

theorem foldlM_written {pairs : List (Bytes × Bytes)} (hpairs : ∀ p ∈ pairs, Name p.1) {n : Int} (hn : 1 ≤ n)
    (hlt : n < 2 ^ 31) : (written pairs c n).foldlM setItem new =
      .ok ⟨pairs.foldl (fun m p => m.add p.1 p.2) .new, c.expires, c.domain, c.path, [], some n, c.secure,
        c.httpOnly⟩ := by
  have hfirst : (if pairs.isEmpty then [([], [])] else pairs).foldlM setItem new =
      .ok { new with toHttpBaseMap := pairs.foldl (fun m p => m.add p.1 p.2) .new } := by
    split
    · rename_i hnil
      rw [List.isEmpty_iff.mp hnil]
      rfl
    · exact foldlM_pairs hpairs new
  unfold written
  rw [List.foldlM_append, hfirst]
  exact foldlM_marks c _ hn hlt

theorem Legal.rereads (h : Legal c) (hplain : Plain c) :
    ∃ c', ofString (c.toString w) = .ok c' ∧ Same c' c := by
  obtain ⟨n, hn, hpos, hlt⟩ := h.maxAge
  have hkeys : ((w.entries c.toHttpBaseMap).map Prod.fst).Perm (c.map.entries.map Sigma.fst) := by
    have := (w.order_perm (c.map.entries.map fun e => (e.1, e.2))).map Prod.fst
    rwa [List.map_map] at this
  have hnodup : ((w.entries c.toHttpBaseMap).map Prod.fst).Nodup := hkeys.nodup_iff.mpr c.map.nodupKeys
  have hback : (w.entries c.toHttpBaseMap).map (fun p => (⟨p.1, p.2⟩ : Sigma fun _ : Bytes => Bytes)) |>.Perm
      c.map.entries := by
    have := (w.order_perm (c.map.entries.map fun e => (e.1, e.2))).map
      fun p => (⟨p.1, p.2⟩ : Sigma fun _ : Bytes => Bytes)
    rwa [List.map_map, show _ ∘ _ = id from rfl, List.map_id] at this
  have hadd := entries_foldl_add (fun p hp => (h.pair_name w hp).lower) hnodup .new fun p _ => AList.notMem_empty _
  have hfold := foldlM_written (c := c) (fun p hp => h.pair_name w hp) hpos hlt
  rw [← h.attributes_toString w hplain hn hpos] at hfold
  refine ⟨_, (ofString_eq _).trans hfold, ?_, rfl, rfl, rfl, hn.symm, rfl, rfl⟩
  simp only [HttpBaseMap.new, AList.empty_entries, List.append_nil] at hadd
  exact hadd.trans hback

end

/-! ## What comes back was plain -/

/-- Neither a separator nor a blank. -/
def heavy (ch : UInt8) : Bool := ch != 59 && ch != 61 && ch != 32

/-- A byte that decoding replaces. -/
def escape (ch : UInt8) : Bool := ch == 37 || ch == 43

def weight (t : Bytes) : Nat := t.countP heavy

def itemsWeight (l : List (Bytes × Bytes)) : Nat := (l.map fun p => weight p.1 + weight p.2).sum

theorem weight_append (s t : Bytes) : weight (s ++ t) = weight s + weight t := List.countP_append

theorem weight_mono {s t : Bytes} (h : s.Sublist t) : weight s ≤ weight t := h.countP_le

theorem weight_cons (ch : UInt8) (t : Bytes) :
    weight (ch :: t) = weight t + if heavy ch then 1 else 0 := List.countP_cons

@[simp] theorem weight_nil : weight [] = 0 := rfl

@[simp] theorem itemsWeight_nil : itemsWeight [] = 0 := rfl

@[simp] theorem itemsWeight_cons (name val : Bytes) (l : List (Bytes × Bytes)) :
    itemsWeight ((name, val) :: l) = weight name + weight val + itemsWeight l := by
  simp [itemsWeight]

theorem itemsWeight_append (l l' : List (Bytes × Bytes)) : itemsWeight (l ++ l') = itemsWeight l + itemsWeight l' := by
  simp [itemsWeight]

/-- What is read weighs no more than the text. -/
theorem itemsWeight_items (key cur rest : Bytes) :
    itemsWeight (items key cur rest) ≤ weight key + weight cur + weight rest := by
  induction key, cur, rest using items.induct with
  | case1 key cur => simp [items]
  | case2 key cur rest ih =>
    have hdrop := weight_mono (List.drop_sublist (spaces rest) rest)
    rw [items, if_pos rfl, itemsWeight_cons, weight_cons]
    simp only [weight_nil] at ih
    omega
  | case3 key cur ch rest h59 hend =>
    rw [items, if_neg h59, if_pos hend, itemsWeight_cons, itemsWeight_nil, List.isEmpty_iff.mp hend, weight_append]
    omega
  | case4 key cur rest h59 hend ih =>
    rw [items, if_neg h59, if_neg hend, if_pos rfl, weight_cons]
    simp only [weight_nil] at ih
    omega
  | case5 key cur ch rest h59 hend h61 ih =>
    rw [weight_append, weight_cons, weight_nil] at ih
    rw [items, if_neg h59, if_neg hend, if_neg h61, weight_cons]
    omega

/-- A `=` starts a value anew, unless it is the last byte of the text. -/
theorem items_join_free (key cur rest : Bytes) (hcur : 61 ∉ cur) (hlast : rest.getLast? ≠ some 61) :
    ∀ p ∈ items key cur rest, 61 ∉ p.2 := by
  induction key, cur, rest using items.induct with
  | case1 key cur => simp [items]
  | case2 key cur rest ih =>
    have hrest : (rest.drop (spaces rest)).getLast? ≠ some 61 := by
      rw [List.getLast?_drop]
      split
      · simp
      · cases rest <;> simp_all
    rw [items, if_pos rfl, List.forall_mem_cons]
    exact ⟨hcur, ih (by simp) hrest⟩
  | case3 key cur ch rest h59 hend =>
    rw [List.isEmpty_iff.mp hend] at hlast
    rw [items, if_neg h59, if_pos hend, List.forall_mem_singleton]
    have hch : ch ≠ 61 := by simpa using hlast
    simp [hcur, Ne.symm hch]
  | case4 key cur rest h59 hend ih =>
    rw [items, if_neg h59, if_neg hend, if_pos rfl]
    exact ih (by simp) (by cases rest <;> simp_all)
  | case5 key cur ch rest h59 hend h61 ih =>
    rw [items, if_neg h59, if_neg hend, if_neg h61]
    exact ih (by simp [hcur, Ne.symm h61]) (by cases rest <;> simp_all)

/-- The text of attributes weighs as much as they do. -/
theorem weight_intercalate (l : List (Bytes × Bytes)) :
    weight (List.intercalate (lit "; ") (l.map spell)) = itemsWeight l := by
  have hspell : ∀ p : Bytes × Bytes, weight (spell p) = weight p.1 + weight p.2 := by
    intro p
    unfold spell
    split
    · rename_i hk
      rw [List.isEmpty_iff.mp hk, weight_nil, Nat.zero_add]
    · rw [weight_append, weight_append, show weight (lit "=") = 0 by decide, Nat.add_zero]
  cases l with
  | nil => rfl
  | cons q l =>
    rw [List.map_cons, intercalate_cons, weight_append, hspell, itemsWeight_cons]
    congr 1
    induction l with
    | nil => rfl
    | cons p l ih =>
      rw [List.map_cons, List.flatMap_cons, weight_append, weight_append, ih, hspell, itemsWeight_cons,
        show weight (lit "; ") = 0 by decide, Nat.zero_add]

theorem heavy_isxdigit {ch : UInt8} (h : isxdigit ch = true) : escape ch = false ∧ heavy ch = true := by
  have hne : ∀ {b : UInt8}, isxdigit b = false → ch ≠ b := fun hb he => by rw [he, hb] at h; cases h
  have h37 : ch ≠ 37 := hne (by decide)
  have h43 : ch ≠ 43 := hne (by decide)
  have h59 : ch ≠ 59 := hne (by decide)
  have h61 : ch ≠ 61 := hne (by decide)
  have h32 : ch ≠ 32 := hne (by decide)
  simp [escape, heavy, h37, h43, h59, h61, h32]

theorem heavy_of_escape {ch : UInt8} (h : escape ch = true) : heavy ch = true := by
  simp only [escape, Bool.or_eq_true, beq_iff_eq] at h
  rcases h with rfl | rfl <;> decide

/-- A plus becomes a blank, and any other byte but a percent sign is kept. -/
theorem heavy_plus {ch : UInt8} (h37 : ch ≠ 37) :
    (if heavy (if ch == 43 then 32 else ch) then 1 else 0) + (if escape ch then 1 else 0) ≤
      if heavy ch then 1 else 0 := by
  by_cases h43 : ch = 43
  · rw [h43]
    decide
  · simp [escape, h37, h43]

/-- Each percent sign and each plus makes the decoded text lighter. -/
theorem weight_decodeLoop : ∀ (n : Nat) (t u : Bytes), t.length ≤ n → EncodeUtil.decodeLoop t = some u →
    weight u + t.countP escape ≤ weight t := by
  intro n
  induction n with
  | zero =>
    intro t u hlen h
    rw [List.length_eq_zero_iff.mp (Nat.le_zero.mp hlen)] at h ⊢
    cases h
    exact Nat.le_refl _
  | succ n ih =>
    intro t u hlen h
    cases t with
    | nil =>
      cases h
      exact Nat.le_refl _
    | cons ch t =>
      rw [List.length_cons] at hlen
      by_cases h37 : ch = 37
      · -- three bytes that count become one that may
        rw [h37] at h ⊢
        obtain ⟨hi, lo, rest, v, rfl, hhi, hlo, hv, rfl⟩ := EncodeUtil.decodeLoop_percent h
        have hrest := ih rest v (by simp only [List.length_cons] at hlen; omega) hv
        obtain ⟨hhi1, hhi2⟩ := heavy_isxdigit hhi
        obtain ⟨hlo1, hlo2⟩ := heavy_isxdigit hlo
        have hone : (if heavy (hex2dec hi <<< 4 ||| hex2dec lo) then 1 else 0) ≤ 1 := by split <;> omega
        simp only [weight_cons, List.countP_cons, hhi1, hhi2, hlo1, hlo2, show escape 37 = true by decide,
          show heavy 37 = true by decide, Bool.false_eq_true, if_false, if_true]
        omega
      · rw [EncodeUtil.decodeLoop_cons h37] at h
        obtain ⟨v, hv, rfl⟩ := Option.map_eq_some_iff.mp h
        have htail := ih t v (by omega) hv
        have hhead := heavy_plus h37
        rw [weight_cons, weight_cons ch, List.countP_cons]
        omega

theorem weight_urlDecode {t : Bytes} (h : ¬ Unescaped t) : weight (EncodeUtil.urlDecode t) < weight t := by
  have hpos : 0 < t.countP escape := by
    rw [List.countP_pos_iff]
    by_cases h37 : 37 ∈ t
    · exact ⟨37, h37, by decide⟩
    · by_cases h43 : 43 ∈ t
      · exact ⟨43, h43, by decide⟩
      · exact absurd ⟨h37, h43⟩ h
  have hheavy : t.countP escape ≤ weight t := List.countP_mono_left fun _ _ => heavy_of_escape
  unfold EncodeUtil.urlDecode
  cases hd : EncodeUtil.decodeLoop t with
  | none => exact Nat.lt_of_lt_of_le hpos hheavy
  | some u =>
    have hlt := weight_decodeLoop t.length t u (Nat.le_refl _) hd
    simp only [Option.getD_some]
    omega

/-! ### What an attribute adds -/

theorem weight_toLowers (t : Bytes) : weight (toLowers t) = weight t := by
  have hbyte : ∀ ch, heavy (tolower ch) = heavy ch := forall_byte (by decide +kernel)
  unfold weight toLowers
  rw [List.countP_map]
  exact List.countP_congr fun ch _ => by rw [Function.comp_apply, hbyte]

/-- Two spellings of a word. -/
theorem weight_word {key : Bytes} (word : Bytes) (h : toLowers key = toLowers word) : weight word = weight key := by
  rw [← weight_toLowers, ← h, weight_toLowers]

/-- What `setAttr` can do. -/
theorem setAttr_cases {c c' : HttpCookie} {key val : Bytes} (h : setAttr c key val = .ok c') :
    c' = c ∨ (toLowers val = lit "secure" ∧ c' = { c with secure := true }) ∨
      (toLowers val = lit "httponly" ∧ c' = { c with httpOnly := true }) ∨
      (toLowers key = lit "domain" ∧ c' = { c with domain := val }) ∨
      (toLowers key = lit "path" ∧ c' = { c with path := val }) ∨
      (toLowers key = lit "expires" ∧ c' = { c with expires := val }) ∨
      (toLowers key = lit "max-age" ∧ ∃ n, stoi val = .ok n ∧ c' = { c with maxAge := some n }) ∨
      c' = { c with sessionId := val } ∨ c' = c.add key val := by
  unfold setAttr at h
  split at h
  · simp only at h
    split at h
    · cases h
      exact .inr (.inl ⟨‹_›, rfl⟩)
    · split at h <;> cases h
      · exact .inr (.inr (.inl ⟨‹_›, rfl⟩))
      · exact .inl rfl
  · simp only at h
    split at h
    · cases h
      exact .inr (.inr (.inr (.inl ⟨‹_›, rfl⟩)))
    split at h
    · cases h
      exact .inr (.inr (.inr (.inr (.inl ⟨‹_›, rfl⟩))))
    split at h
    · cases h
      exact .inr (.inr (.inr (.inr (.inr (.inl ⟨‹_›, rfl⟩)))))
    split at h
    · cases hn : stoi val with
      | error f => rw [hn] at h; cases h
      | ok n =>
        rw [hn] at h
        cases h
        exact .inr (.inr (.inr (.inr (.inr (.inr (.inl ⟨‹_›, n, rfl, rfl⟩))))))
    split at h <;> cases h
    · exact .inr (.inr (.inr (.inr (.inr (.inr (.inr (.inl rfl)))))))
    · exact .inr (.inr (.inr (.inr (.inr (.inr (.inr (.inr rfl)))))))

/-- A number is written with no more digits than it was read from. -/
theorem weight_stoi {val : Bytes} {n : Int} (h : stoi val = .ok n) (hn : 0 < n) :
    weight (decimalInt n) ≤ weight val := by
  obtain ⟨neg, m, hread, hm⟩ := stoi_ok h
  obtain ⟨ds, hsub, hne, hdigits, rfl⟩ := readDecimal_digits hread
  have hval : n.natAbs = decimalValue ds := by
    rw [hm] at hn ⊢
    split at hn
    · omega
    · rename_i hneg
      rw [if_neg hneg, Int.natAbs_natCast]
  have hheavy : weight ds = ds.length := List.countP_eq_length.mpr fun ch hch =>
    (heavy_isxdigit (by simp [isxdigit, hdigits ch hch])).2
  calc weight (decimalInt n)
      ≤ (decimalInt n).length := List.countP_le_length
    _ = (decimal (decimalValue ds)).length := by rw [decimalInt, if_neg (by omega), hval]
    _ ≤ ds.length := decimal_length_le (List.length_pos_iff.mpr hne) (decimalValue_lt hdigits)
    _ = weight ds := hheavy.symm
    _ ≤ weight val := weight_mono hsub

/-- What a cookie weighs when it is written. -/
def worth (c : HttpCookie) : Nat :=
  itemsWeight (c.map.entries.map fun e => (e.1, e.2)) + itemsWeight (marks c (c.maxAge.getD 0))

theorem itemsWeight_perm {l l' : List (Bytes × Bytes)} (h : l.Perm l') : itemsWeight l = itemsWeight l' :=
  (h.map _).sum_eq

theorem itemsWeight_sublist {l l' : List (Bytes × Bytes)} (h : l.Sublist l') : itemsWeight l ≤ itemsWeight l' :=
  (h.map _).sum_le_sum fun _ _ => Nat.zero_le _

/-- A marked text weighs no more than it did under any spelling of its word. -/
theorem itemsWeight_mark {key name : Bytes} (h : toLowers key = toLowers name) {text val : Bytes}
    (htext : weight text ≤ weight val) : itemsWeight (mark name text) ≤ weight key + weight val := by
  have hword := weight_word name h
  unfold mark
  split
  · exact Nat.zero_le _
  · rw [itemsWeight_cons, itemsWeight_nil]
    omega

theorem itemsWeight_flag {val name : Bytes} (h : toLowers val = toLowers name) :
    itemsWeight (flag name true) ≤ weight val := by
  have hword := weight_word name h
  simp only [flag, if_true, itemsWeight_cons, weight_nil, itemsWeight_nil]
  omega

/-- An attribute adds no more than it weighs. -/
theorem worth_setAttr {c c' : HttpCookie} {key val : Bytes} (h : setAttr c key val = .ok c') :
    worth c' ≤ worth c + (weight key + weight val) := by
  rcases setAttr_cases h with rfl | ⟨hw, rfl⟩ | ⟨hw, rfl⟩ | ⟨hw, rfl⟩ | ⟨hw, rfl⟩ | ⟨hw, rfl⟩ | ⟨hw, n, hn, rfl⟩ |
    rfl | rfl
  · omega
  · have hflag := @itemsWeight_flag val (lit "Secure") (hw.trans (by decide))
    simp only [worth, marks, itemsWeight_append]
    omega
  · have hflag := @itemsWeight_flag val (lit "HttpOnly") (hw.trans (by decide))
    simp only [worth, marks, itemsWeight_append]
    omega
  · have hmark := @itemsWeight_mark key (lit "Domain") (hw.trans (by decide)) val val (Nat.le_refl _)
    simp only [worth, marks, itemsWeight_append]
    omega
  · have hmark := @itemsWeight_mark key (lit "Path") (hw.trans (by decide)) val val (Nat.le_refl _)
    simp only [worth, marks, itemsWeight_append]
    omega
  · have hmark := @itemsWeight_mark key (lit "Expires") (hw.trans (by decide)) val val (Nat.le_refl _)
    simp only [worth, marks, itemsWeight_append]
    omega
  · have hdigits : weight (if 0 < n then decimalInt n else []) ≤ weight val := by
      split
      · exact weight_stoi hn ‹_›
      · exact Nat.zero_le _
    have hmark := @itemsWeight_mark key (lit "Max-Age") (hw.trans (by decide)) _ val hdigits
    simp only [worth, marks, itemsWeight_append, Option.getD_some]
    omega
  · exact Nat.le_add_right _ _
  · -- a pair takes the place of the one of its name
    have hkept := itemsWeight_sublist ((List.kerase_sublist (toLowers key) c.map.entries).map fun e => (e.1, e.2))
    have hmarks : marks (c.add key val) (c.maxAge.getD 0) = marks c (c.maxAge.getD 0) := rfl
    have hentries : (c.add key val).map.entries.map (fun e => (e.1, e.2)) =
        (toLowers key, val) :: (c.map.entries.kerase (toLowers key)).map fun e => (e.1, e.2) := rfl
    have hmaxAge : (c.add key val).maxAge = c.maxAge := rfl
    rw [worth, hmaxAge, hmarks, hentries, itemsWeight_cons, weight_toLowers, worth]
    omega

theorem foldlM_cons_ok {p : Bytes × Bytes} {l : List (Bytes × Bytes)} {c c' : HttpCookie}
    (h : (p :: l).foldlM setItem c = .ok c') : ∃ c₁, setItem c p = .ok c₁ ∧ l.foldlM setItem c₁ = .ok c' := by
  rw [List.foldlM_cons] at h
  cases hp : setItem c p with
  | error f => rw [hp] at h; cases h
  | ok c₁ => exact ⟨c₁, rfl, by rw [hp] at h; exact h⟩

theorem foldlM_worth {l : List (Bytes × Bytes)} {c c' : HttpCookie} (h : l.foldlM setItem c = .ok c') :
    worth c' ≤ worth c + itemsWeight l := by
  induction l generalizing c with
  | nil =>
    cases h
    exact Nat.le_refl _
  | cons p l ih =>
    obtain ⟨c₁, hp, hl⟩ := foldlM_cons_ok h
    have hfirst := worth_setAttr hp
    have hrest := ih hl
    rw [itemsWeight_cons]
    omega

/-- What is read from a text weighs no more than it. -/
theorem worth_ofString {str : Bytes} {c : HttpCookie} (h : ofString str = .ok c) :
    worth c ≤ weight (EncodeUtil.urlDecode str) := by
  rw [ofString_eq, attributes_eq] at h
  calc worth c ≤ worth new + itemsWeight (items [] [] (EncodeUtil.urlDecode str)) := foldlM_worth h
    _ ≤ weight (EncodeUtil.urlDecode str) := by
      have hitems := itemsWeight_items [] [] (EncodeUtil.urlDecode str)
      have hnew : worth new = 0 := rfl
      simp only [weight_nil] at hitems
      omega

theorem foldlM_join_free {l : List (Bytes × Bytes)} (hl : ∀ p ∈ l, 61 ∉ p.2) {c c' : HttpCookie}
    (hc : ∀ e ∈ c.map.entries, 61 ∉ e.2) (h : l.foldlM setItem c = .ok c') : ∀ e ∈ c'.map.entries, 61 ∉ e.2 := by
  induction l generalizing c with
  | nil =>
    cases h
    exact hc
  | cons p l ih =>
    rw [List.forall_mem_cons] at hl
    obtain ⟨c₁, hp, hrest⟩ := foldlM_cons_ok h
    have hc₁ : ∀ e ∈ c₁.map.entries, 61 ∉ e.2 := by
      rcases setAttr_cases hp with rfl | ⟨-, rfl⟩ | ⟨-, rfl⟩ | ⟨-, rfl⟩ | ⟨-, rfl⟩ | ⟨-, rfl⟩ | ⟨-, n, -, rfl⟩ |
        rfl | rfl
      all_goals try exact hc
      -- a pair is added
      intro e he
      simp only [add, HttpBaseMap.add, AList.entries_insert, List.mem_cons] at he
      rcases he with rfl | he
      · exact hl.1
      · exact hc e ((List.kerase_sublist _ _).subset he)
    exact ih hl.2 hc₁ hrest

/-! ### What the text of a legal cookie weighs, and how it ends -/

section

variable {c c' : HttpCookie}

theorem Same.worth (h : Same c' c) : worth c' = worth c := by
  have hmarks : marks c' (c'.maxAge.getD 0) = marks c (c.maxAge.getD 0) := by
    simp only [HttpCookie.marks, h.expires, h.domain, h.path, h.maxAge, h.secure, h.httpOnly]
  rw [HttpCookie.worth, hmarks, itemsWeight_perm (h.pairs.map fun e => (e.1, e.2)), HttpCookie.worth]

theorem Legal.weight_toString (h : Legal c) : weight (c.toString w) = HttpCookie.worth c := by
  obtain ⟨n, hn, -, -⟩ := h.maxAge
  have hpairs : itemsWeight (if (w.entries c.toHttpBaseMap).isEmpty then [([], [])] else w.entries c.toHttpBaseMap) =
      itemsWeight (c.map.entries.map fun e => (e.1, e.2)) := by
    have hperm : itemsWeight (w.entries c.toHttpBaseMap) = itemsWeight (c.map.entries.map fun e => (e.1, e.2)) :=
      itemsWeight_perm (w.order_perm _)
    split
    · rename_i hnil
      rw [← hperm, List.isEmpty_iff.mp hnil]
      rfl
    · exact hperm
  rw [h.toString_eq w hn, weight_intercalate, written, itemsWeight_append, hpairs, HttpCookie.worth, hn,
    Option.getD_some]

theorem suffix_intercalate {l : List (Bytes × Bytes)} {p : Bytes × Bytes} (h : l.getLast? = some p) :
    ∃ s, List.intercalate (lit "; ") (l.map spell) = s ++ p.2 := by
  induction l with
  | nil => cases h
  | cons q l ih =>
    cases l with
    | nil =>
      cases h
      unfold spell
      rw [List.map_singleton, List.intercalate_singleton]
      split
      · exact ⟨[], rfl⟩
      · exact ⟨_, rfl⟩
    | cons r l =>
      obtain ⟨s, hs⟩ := ih (by simpa using h)
      rw [List.map_cons] at hs
      rw [List.map_cons, List.map_cons, List.intercalate_cons_cons, hs, ← List.append_assoc]
      exact ⟨_, rfl⟩

theorem Legal.getLast?_toString (h : Legal c) : (c.toString w).getLast? ≠ some 61 := by
  obtain ⟨n, hn, hpos, -⟩ := h.maxAge
  have hne : written (w.entries c.toHttpBaseMap) c n ≠ [] := by
    unfold written
    split <;> simp_all
  obtain ⟨p, hp⟩ : ∃ p, (written (w.entries c.toHttpBaseMap) c n).getLast? = some p :=
    ⟨_, List.getLast?_eq_some_getLast hne⟩
  obtain ⟨-, htext, hval, -⟩ := h.marks (by omega) p (getLast?_written _ c (by omega) hp)
  obtain ⟨s, hs⟩ := suffix_intercalate hp
  rw [h.toString_eq w hn, hs, List.getLast?_append_of_ne_nil _ hval]
  exact fun hlast => htext.1.2 (List.mem_of_getLast? hlast)

/-- A legal cookie that comes back holds nothing that the constructor takes apart. -/
theorem Legal.plain_of_same (h : Legal c) (hread : ofString (c.toString w) = .ok c') (hsame : Same c' c) : Plain c := by
  obtain ⟨n, hn, hpos, -⟩ := h.maxAge
  have hun : Unescaped (c.toString w) := by
    apply Classical.byContradiction
    intro hesc
    have hlt := weight_urlDecode hesc
    have hle := worth_ofString hread
    rw [h.weight_toString w] at hlt
    rw [hsame.worth] at hle
    omega
  have hdecode : EncodeUtil.urlDecode (c.toString w) = c.toString w := EncodeUtil.urlDecode_plain hun.1 hun.2
  have hjoin : ∀ e ∈ c'.map.entries, 61 ∉ e.2 := by
    rw [ofString_eq, attributes_eq, hdecode] at hread
    exact foldlM_join_free (items_join_free [] [] _ (by simp) (h.getLast?_toString w)) (fun e he => by cases he) hread
  have hpairs := (h.unescaped_iff w hn (by omega)).mp hun
  exact fun e he => ⟨(hpairs e he).1, (hpairs e he).2, hjoin e (hsame.pairs.mem_iff.mpr he)⟩

/-- A legal cookie comes back from its text exactly when no pair holds a percent sign or a
    plus and no value a `=`, whatever the order of the pairs. -/
theorem comes_back_iff (h : Legal c) : (∃ c', ofString (c.toString w) = .ok c' ∧ Same c' c) ↔ Plain c := by
  constructor
  · intro ⟨c', hread, hsame⟩
    exact h.plain_of_same w hread hsame
  · exact h.rereads w

end

/-- A cookie of one pair. -/
def onePair (val : Bytes) : HttpCookie := { new.add (lit "a") val with maxAge := some 5 }

theorem entries_onePair (val : Bytes) : (onePair val).map.entries = [⟨lit "a", val⟩] := by
  have hfold : CaseSensitive.no.fold (lit "a") = lit "a" := by decide
  simp only [onePair, add, new, HttpBaseMap.add, HttpBaseMap.new, hfold, AList.entries_insert, AList.empty_entries,
    List.kerase_nil]

theorem legal_onePair {val : Bytes} (h : ∀ ch ∈ val, isoctet ch = true) : Legal (onePair val) where
  name := by
    intro e he
    have hname : Name (lit "a") := ⟨by decide, List.all_eq_true.mp (by decide), by decide, by decide⟩
    rw [entries_onePair, List.mem_singleton] at he
    rw [he]
    exact hname
  value := by
    intro e he
    rw [entries_onePair, List.mem_singleton] at he
    rw [he]
    exact h
  expires := by simp [onePair, Text, Clean, add, new]
  domain := by simp [onePair, Text, Clean, add, new]
  path := by simp [onePair, Text, Clean, add, new]
  maxAge := ⟨5, rfl, by decide, by decide⟩

theorem comes_back_word : ∃ c', ofString ((onePair (lit "b")).toString HttpServer.bareWorld) = .ok c' ∧
    Same c' (onePair (lit "b")) := by
  apply (comes_back_iff HttpServer.bareWorld (legal_onePair (List.all_eq_true.mp (by decide)))).mpr
  intro e he
  rw [entries_onePair, List.mem_singleton] at he
  rw [he]
  exact ⟨⟨by decide, by decide⟩, ⟨by decide, by decide⟩, by decide⟩

/-- The value `b=c` comes back as the value `c` of another pair. -/
theorem comes_back_joined : ¬ ∀ (w : World Unit) (c : HttpCookie), Legal c →
    ∃ c', ofString (c.toString w) = .ok c' ∧ Same c' c := by
  intro hall
  have hlegal : Legal (onePair (lit "b=c")) := legal_onePair (List.all_eq_true.mp (by decide))
  obtain ⟨c', hread, hsame⟩ := hall HttpServer.bareWorld _ hlegal
  have hplain := hlegal.plain_of_same HttpServer.bareWorld hread hsame
  have hmem : (⟨lit "a", lit "b=c"⟩ : Sigma fun _ : Bytes => Bytes) ∈ (onePair (lit "b=c")).map.entries := by
    rw [entries_onePair]
    exact List.mem_cons_self
  exact (hplain _ hmem).2.2 (by decide)

example : (ofString ((onePair (lit "b=c")).toString HttpServer.bareWorld)).map (fun c => c.map.entries) =
    .ok [⟨lit "b", lit "c"⟩] := rfl

end HahaWeb.HttpCookie
