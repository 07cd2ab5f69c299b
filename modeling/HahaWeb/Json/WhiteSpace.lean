/-
  HahaWeb.Json.WhiteSpace — white space put between the tokens of a text.

  A text is its tokens, each with the white space in front of it. The parser skips white
  space in front of every token but two: the bracket that closes an empty container, and
  the one behind a trailing comma, stand where it does not skip. Proved: a text that is
  accepted, with white space put in front of any of its tokens, gives the same tree exactly
  when none is put in front of these two, and the null pointer otherwise
  (`white_space_iff`).

  The two runs of the parser, on the text and on the text with more white space, are taken
  together: by induction on the fuel of the first, what it has read is a list of tokens on
  which the second does the same (`parse_rereads`). The fuel of the second is arbitrary.
-/

import HahaWeb.Json.Language

namespace HahaWeb.Json

variable {D : Type} (S : Stod D)

/-! ## Tokens -/

/-- A token, and the white space in front of it. -/
structure Lexeme where
  gap : Bytes
  token : Bytes

def text (ls : List Lexeme) : Bytes := ls.flatMap fun l => l.gap ++ l.token

def tokens (ls : List Lexeme) : List Bytes := ls.map (·.token)

inductive IsToken : Bytes → Prop
  /-- `[`, `]`, the braces, the comma and the colon. -/
  | punctuation {c : UInt8} : c ∈ [91, 93, 123, 125, 44, 58] → IsToken [c]
  | word {s : Bytes} : s ∈ [lit "null", lit "true", lit "false"] → IsToken s
  /-- What `parse_string` reads, whatever stands behind it. -/
  | string {s out : Bytes} : (∀ rest, parseString (s ++ rest) = .ok (some (out, rest))) → IsToken s
  | number {c : UInt8} {u : Bytes} : isdigit c = true ∨ c = 45 → (∀ d ∈ u, isNumberComponent d = true) →
      IsToken (c :: u)

/-- The text before `rest` is cut into tokens: a number takes all the bytes it can. -/
def Lexes : List Lexeme → Bytes → Prop
  | [], _ => True
  | l :: ls, rest => (∀ c ∈ l.gap, isCtrlAndSpace c = true) ∧ IsToken l.token ∧
      ((∀ c ∈ l.token, isNumberComponent c = true) → Stops (text ls ++ rest)) ∧ Lexes ls rest

theorem not_number {c : UInt8} {u : Bytes} (h : isNumberComponent c = false) :
    ¬ ∀ d ∈ c :: u, isNumberComponent d = true := by
  intro hall
  rw [hall c List.mem_cons_self] at h
  cases h

/-- Behind an opening bracket and behind a comma the parser looks for the closing one at once. -/
def awaits (s : Bytes) : Bool := s == [91] || s == [123] || s == [44]

def closing (s : Bytes) : Bool := s == [93] || s == [125]

/-- No white space in front of a closing bracket that the parser looks for at once. -/
def Clear (ls : List Lexeme) : Prop :=
  ls.IsChain fun l l' => awaits l.token = true → closing l'.token = true → l'.gap = []

instance (ls : List Lexeme) : Decidable (Clear ls) := inferInstanceAs (Decidable (List.IsChain _ ls))

/-- White space put into a gap. -/
def Widens (gap gap' : Bytes) : Prop := gap.Sublist gap' ∧ ∀ c ∈ gap', c ∈ gap ∨ jsonBlank c

/-- White space put in front of tokens. -/
def Inserts (ls ls' : List Lexeme) : Prop :=
  List.Forall₂ (fun l l' => l'.token = l.token ∧ Widens l.gap l'.gap) ls ls'

section

variable {ls ms : List Lexeme} {rest : Bytes}

@[simp]
theorem text_nil : text [] = [] := rfl

@[simp]
theorem text_cons (l : Lexeme) (ls : List Lexeme) : text (l :: ls) = l.gap ++ (l.token ++ text ls) := by
  simp [text]

@[simp]
theorem text_append (ls ms : List Lexeme) : text (ls ++ ms) = text ls ++ text ms := List.flatMap_append

@[simp]
theorem tokens_cons (l : Lexeme) (ls : List Lexeme) : tokens (l :: ls) = l.token :: tokens ls := rfl

@[simp]
theorem tokens_append (ls ms : List Lexeme) : tokens (ls ++ ms) = tokens ls ++ tokens ms := List.map_append

theorem tokens_eq_cons {s : Bytes} {ss : List Bytes} (h : tokens ls = s :: ss) :
    ∃ gap ms, ls = ⟨gap, s⟩ :: ms ∧ tokens ms = ss := by
  obtain ⟨l, ms, rfl, rfl, hms⟩ := List.map_eq_cons_iff.mp h
  exact ⟨l.gap, ms, rfl, hms⟩

theorem tokens_eq_nil (h : tokens ls = []) : ls = [] := List.map_eq_nil_iff.mp h

theorem lexes_append : Lexes (ls ++ ms) rest ↔ Lexes ls (text ms ++ rest) ∧ Lexes ms rest := by
  induction ls with
  | nil => simp [Lexes]
  | cons l ls ih =>
    simp only [List.cons_append, Lexes, ih, text_append, List.append_assoc]
    tauto

theorem clear_append (h : ∀ s ∈ (tokens ls).getLast?, awaits s = false) : Clear (ls ++ ms) ↔ Clear ls ∧ Clear ms := by
  have hlast : ∀ l ∈ ls.getLast?, awaits l.token = false := by
    intro l hl
    exact h l.token (by rw [tokens, List.getLast?_map, Option.mem_def.mp hl]; rfl)
  unfold Clear
  rw [List.isChain_append]
  constructor
  · intro hc
    exact ⟨hc.1, hc.2.1⟩
  · intro hc
    refine ⟨hc.1, hc.2, fun l hl m _ hwait _ => ?_⟩
    rw [hlast l hl] at hwait
    cases hwait

/-- The tokens of a value, of an item and of items begin so. -/
def Leads (ls : List Lexeme) : Prop := ∃ c u ss, tokens ls = (c :: u) :: ss ∧ opensValue c = true

theorem closing_false {c : UInt8} (u : Bytes) (h : opensValue c = true) : closing (c :: u) = false := by
  obtain ⟨-, h93, h125, -⟩ := opensValue_spec c h
  simp [closing, h93, h125]

theorem clear_cons (l : Lexeme) (h : Leads ls) : Clear (l :: ls) ↔ Clear ls := by
  obtain ⟨c, u, ss, hs, hc⟩ := h
  obtain ⟨gap, ms, rfl, -⟩ := tokens_eq_cons hs
  unfold Clear
  rw [List.isChain_cons_cons]
  constructor
  · exact And.right
  · intro hms
    refine ⟨fun _ hclose => ?_, hms⟩
    rw [closing_false u hc] at hclose
    cases hclose

theorem clear_behind {l : Lexeme} (h : awaits l.token = false) : Clear (l :: ls) ↔ Clear ls := by
  have happend : Clear ([l] ++ ls) ↔ Clear [l] ∧ Clear ls := by
    apply clear_append
    intro s hs
    cases hs
    exact h
  have hone : Clear [l] := .singleton l
  rw [List.singleton_append] at happend
  rw [happend, and_iff_right hone]

theorem clear_pair (gap gap' : Bytes) (k : Container) {s : Bytes} (hs : awaits s = true) :
    Clear [⟨gap, s⟩, ⟨gap', [k.closes]⟩] ↔ gap' = [] := by
  have hclose : closing [k.closes] = true := by cases k <;> decide
  simp [Clear, hs, hclose]

/-- White space is no bracket. -/
theorem head_ne_gap {c : UInt8} {ws : Bytes} (hws : ∀ d ∈ c :: ws, isCtrlAndSpace d = true) (t : Bytes)
    (k : Container) : (c :: ws ++ t).head? ≠ some k.closes := by
  intro h
  have hc := hws c List.mem_cons_self
  rw [Option.some.inj h] at hc
  cases k <;> exact absurd hc (by decide)

/-- Behind a bracket that opens, or a comma, comes no bracket that closes. -/
theorem Leads.head_ne (h : Leads ls) (hl : Lexes ls rest) (k : Container) :
    (text ls ++ rest).head? ≠ some k.closes := by
  obtain ⟨c, u, ss, hs, hc⟩ := h
  obtain ⟨gap, ms, rfl, -⟩ := tokens_eq_cons hs
  rw [text_cons, List.append_assoc]
  exact head_ne_close hl.1 ⟨c, u ++ text ms ++ rest, by simp, hc⟩ (by cases k <;> decide)

end

/-! ## Strings, wherever they stand -/

/-- A character is read in the same way wherever it stands, but for the byte behind it. -/
theorem char_anywhere {t rest : Bytes} (h : ParserChar t rest) : ∃ b out, t = b ++ rest ∧
    ∀ rest' : Bytes, rest'.head? = rest.head? → ∀ fuel output,
      stringLoop (fuel + 1) (b ++ rest') output = stringLoop fuel rest' (output ++ out) := by
  cases h with
  | @plain c _ h34 h92 => exact ⟨[c], [c], rfl, fun rest' _ fuel output => by simp [stringLoop, h34, h92]⟩
  | @escape e _ he =>
    obtain ⟨b, hb⟩ := Option.isSome_iff_exists.mp he
    exact ⟨[92, e], [b], rfl, fun rest' _ fuel output => by simp [stringLoop, hb]⟩
  | @hex ds c r hne hds hc =>
    refine ⟨92 :: 120 :: ds, decimal (toBase16 ds), by simp, fun rest' hr fuel output => ?_⟩
    obtain ⟨r', rfl⟩ : ∃ r', rest' = c :: r' := ⟨_, head_eq_some hr⟩
    obtain ⟨htake, hdrop⟩ := takeWhile_hex hds hc r'
    have hx : escape 120 = none := by decide
    simp [stringLoop, hx, htake, hdrop, hne]
  | @unicode ds _ hd hs =>
    have hu : escape 117 = none := by decide
    refine ⟨92 :: 117 :: ds, encodeUtf8 (parseHex4 ds), by simp, fun rest' _ fuel output => ?_⟩
    simp [stringLoop, hu, utf16_unicode hd hs, bind, Except.bind]
  | @surrogates hi lo _ hh h1 h2 hl h3 h4 =>
    have hu : escape 117 = none := by decide
    refine ⟨92 :: 117 :: (hi ++ 92 :: 117 :: lo),
      encodeUtf8 (0x10000 + ((parseHex4 hi &&& 0x3FF) <<< 10 ||| (parseHex4 lo &&& 0x3FF))), by simp,
      fun rest' _ fuel output => ?_⟩
    have hread := utf16_surrogates hh h1 h2 hl h3 h4 rest'
    simp only [List.cons_append, List.append_assoc]
    simp [stringLoop, hu, hread, bind, Except.bind]

/-- Characters up to a quote are read in the same way whatever stands behind it. -/
theorem stringLoop_anywhere {u rest : Bytes} (h : Relation.ReflTransGen ParserChar u (34 :: rest)) :
    ∃ a out, u = a ++ 34 :: rest ∧ ∀ (rest' : Bytes) fuel output, a.length < fuel →
      stringLoop fuel (a ++ 34 :: rest') output = .ok (some (output ++ out, rest')) := by
  induction h using Relation.ReflTransGen.head_induction_on with
  | refl =>
    refine ⟨[], [], rfl, fun rest' fuel output hf => ?_⟩
    obtain ⟨fuel, rfl⟩ := Nat.exists_eq_add_of_lt hf
    simp [stringLoop]
  | @head t w hchar _ ih =>
    obtain ⟨a, out, rfl, ha⟩ := ih
    have hshort := hchar.shorter
    obtain ⟨b, out', rfl, hb⟩ := char_anywhere hchar
    simp only [List.length_append, List.length_cons] at hshort
    refine ⟨b ++ a, out' ++ out, by simp, fun rest' fuel output hf => ?_⟩
    rw [List.length_append] at hf
    obtain ⟨fuel, rfl⟩ := Nat.exists_eq_add_of_lt (show 0 < fuel by omega)
    have hhead : (a ++ 34 :: rest').head? = (a ++ 34 :: rest).head? := by cases a <;> rfl
    rw [List.append_assoc, hb _ hhead, ha rest' _ _ (by omega), List.append_assoc]

/-- What `parse_string` has read is a token. -/
theorem parseString_anywhere {t s rest : Bytes} (h : parseString t = .ok (some (s, rest))) :
    ∃ u, t = 34 :: u ++ rest ∧ ∀ rest', parseString (34 :: u ++ rest') = .ok (some (s, rest')) := by
  have hne : t ≠ [] := by
    intro hnil
    rw [hnil] at h
    cases h
  have S : Stod Unit := ⟨fun _ => none, fun _ => none⟩
  obtain ⟨u, rfl, hu⟩ := (parseString_agrees S hne).left s rest h
  obtain ⟨a, out, rfl, ha⟩ := stringLoop_anywhere hu
  have hall : ∀ rest', parseString (34 :: (a ++ 34 :: rest')) = .ok (some (out, rest')) := by
    intro rest'
    rw [parseString_cons, ha rest' _ [] (by simp only [List.length_append]; omega), List.nil_append]
  rw [hall rest] at h
  cases h
  exact ⟨a ++ [34], by simp, fun rest' => by simpa using hall rest'⟩

/-! ## What the parser reads, read again -/

section

variable {α β : Type} {x : Option (α × Bytes)} {y : Option (β × Bytes)} {r : Except Fault (Option (α × Bytes))}

/-- It returns `x`, but for want of fuel. -/
def Gives (r : Except Fault (Option (α × Bytes))) (x : Option (α × Bytes)) : Prop := r = .error .hang ∨ r = .ok x

theorem Gives.bind (h : Gives r x) {k : Option (α × Bytes) → Except Fault (Option (β × Bytes))} (hk : Gives (k x) y) :
    Gives (r >>= k) y := by
  rcases h with rfl | rfl
  · exact .inl rfl
  · exact hk

/-- `parse` returns `v` on the tokens, and does so with other white space in front of them
    where they are clear. -/
structure Reread (parse : Nat → Bytes → Except Fault (Option (α × Bytes))) (left : Bytes → Bytes) (v : α)
    (ls : List Lexeme) (rest : Bytes) : Prop where
  lexes : Lexes ls rest
  clear : Clear ls
  leads : Leads ls
  ends : ∀ s ∈ (tokens ls).getLast?, awaits s = false
  again : ∀ ls' rest' fuel, tokens ls' = tokens ls → Lexes ls' rest' →
    Gives (parse fuel (text ls' ++ rest')) (if Clear ls' then some (v, left rest') else none)

/-- What `parse` has read, given the fuel for it, are tokens. -/
def Rereads (fuel : Nat) (parse : Nat → Bytes → Except Fault (Option (α × Bytes))) (left : Bytes → Bytes) : Prop :=
  ∀ t v r, parse fuel t = .ok (some (v, r)) →
    ∃ ls rest, t = text ls ++ rest ∧ r = left rest ∧ Reread parse left v ls rest

end

/-- The white space in front, and the value. -/
def readValue (fuel : Nat) (str : Bytes) : Except Fault (Option (JsonNode D × Bytes)) :=
  parseValue S fuel (skipCtrlAndSpace str)

variable {S}

theorem skip_split (t : Bytes) : ∃ gap, t = gap ++ skipCtrlAndSpace t ∧ ∀ c ∈ gap, isCtrlAndSpace c = true :=
  ⟨t.takeWhile isCtrlAndSpace, (List.takeWhile_append_dropWhile ..).symm, fun _ h => List.mem_takeWhile_imp h⟩

/-- A value of one token. -/
theorem Reread.token {gap s rest : Bytes} {v : JsonNode D} (hgap : ∀ c ∈ gap, isCtrlAndSpace c = true)
    (hs : IsToken s) (hopen : ∃ c u, s = c :: u ∧ opensValue c = true) (hwait : awaits s = false)
    (hstops : (∀ c ∈ s, isNumberComponent c = true) → Stops rest)
    (hread : ∀ rest', ((∀ c ∈ s, isNumberComponent c = true) → Stops rest') →
      ∀ fuel, parseValue S (fuel + 1) (s ++ rest') = .ok (some (v, rest'))) :
    Reread (readValue S) id v [⟨gap, s⟩] rest := by
  obtain ⟨c, u, rfl, hc⟩ := hopen
  refine ⟨⟨hgap, hs, hstops, trivial⟩, .singleton _, ⟨c, u, [], rfl, hc⟩, ?_, fun ls' rest' fuel htok hlex => ?_⟩
  · intro s' hs'
    cases hs'
    exact hwait
  · obtain ⟨gap', ms, rfl, hms⟩ := tokens_eq_cons htok
    obtain rfl := tokens_eq_nil hms
    rw [if_pos (.singleton _)]
    have hskip : skipCtrlAndSpace (text [⟨gap', c :: u⟩] ++ rest') = c :: u ++ rest' := by
      rw [text_cons, text_nil, List.append_nil, List.append_assoc, skip_append hlex.1]
      exact skip_cons (opensValue_spec c hc).1 _
    unfold readValue
    rw [hskip]
    cases fuel with
    | zero => exact .inl (by simp [parseValue])
    | succ fuel => exact .inr (hread rest' hlex.2.2.1 fuel)

/-- A bracket that closes is no value, and no member. -/
theorem readElement_closes (fuel : Nat) {ws : Bytes} (hws : ∀ c ∈ ws, isCtrlAndSpace c = true) (rest : Bytes) :
    Gives (readElement S fuel (ws ++ 93 :: rest)) none := by
  unfold readElement
  rw [skip_append hws, skip_cons (by decide)]
  have hvalue : Gives (parseValue S fuel (93 :: rest)) none := by
    cases fuel with
    | zero => exact .inl (by simp [parseValue])
    | succ fuel =>
      have hdigit : isdigit 93 = false := by decide
      exact .inr (by simp [parseValue_cons, hdigit, lit])
  exact hvalue.bind (.inr rfl)

theorem readMember_closes (fuel : Nat) {ws : Bytes} (hws : ∀ c ∈ ws, isCtrlAndSpace c = true) (rest : Bytes) :
    Gives (readMember S fuel (ws ++ 125 :: rest)) none := by
  unfold readMember
  rw [skip_append hws, skip_cons (by decide)]
  exact .inr rfl

/-- Where the loop of a container goes. -/
theorem behindItem_cases {α : Type} {close : UInt8} {loop : Bytes → α → Except Fault (Option (JsonNode D × Bytes))}
    {nodeOf : α → JsonNode D} {acc : α} {t r : Bytes} {v : JsonNode D}
    (h : behindItem close loop nodeOf acc t = .ok (some (v, r))) :
    (t = close :: r ∧ v = nodeOf acc) ∨ (t = 44 :: close :: r ∧ v = nodeOf acc) ∨
      ∃ u, t = 44 :: u ∧ u.head? ≠ some close ∧ loop u acc = .ok (some (v, r)) := by
  cases t with
  | nil => cases h
  | cons c u =>
    by_cases h44 : c = 44
    · subst h44
      by_cases hu : u.head? = some close
      · rw [head_eq_some hu] at h ⊢
        simp only [behindItem, checkFunc, List.head?_cons, bne_self_eq_false, Bool.false_eq_true, if_false, closeWith,
          charAt_cons, bind, Except.bind, ne_eq, not_true_eq_false, List.drop_succ_cons, List.drop_zero] at h
        cases h
        exact .inr (.inl ⟨rfl, rfl⟩)
      · rw [behindItem_more acc hu] at h
        exact .inr (.inr ⟨u, rfl, hu, h⟩)
    · have hcheck : checkFunc close (c :: u) = (false, c :: u) := by
        unfold checkFunc
        split
        · rename_i heq
          exact absurd (List.cons.inj heq).1 h44
        · rfl
      simp only [behindItem, hcheck, Bool.false_eq_true, if_false, closeWith, charAt_cons, bind, Except.bind] at h
      split at h
      · cases h
      · rename_i hc
        cases h
        exact .inl ⟨by rw [not_not.mp hc]; rfl, rfl⟩

theorem Leads.skip_ne {ls : List Lexeme} {rest : Bytes} (h : Leads ls) (hl : Lexes ls rest) :
    (skipCtrlAndSpace (text ls ++ rest)).isEmpty = false := by
  obtain ⟨c, u, ss, hs, hc⟩ := h
  obtain ⟨gap, ms, rfl, -⟩ := tokens_eq_cons hs
  rw [text_cons, List.append_assoc, skip_append hl.1]
  exact congrArg List.isEmpty (skip_cons (opensValue_spec c hc).1 _)

theorem Leads.tokens_ne {ls : List Lexeme} (h : Leads ls) : tokens ls ≠ [] := by
  obtain ⟨c, u, ss, hs, -⟩ := h
  rw [hs]
  exact List.cons_ne_nil _ _

/-- A token in front does not change the last one. -/
theorem ends_cons {ls : List Lexeme} (l : Lexeme) (hne : tokens ls ≠ [])
    (h : ∀ s ∈ (tokens ls).getLast?, awaits s = false) : ∀ s ∈ (tokens (l :: ls)).getLast?, awaits s = false := by
  obtain ⟨s, ss, hs⟩ := List.exists_cons_of_ne_nil hne
  rw [hs] at h
  rw [tokens_cons, hs, List.getLast?_cons_cons]
  exact h

theorem Leads.congr {ls ls' : List Lexeme} (h : Leads ls) (ht : tokens ls' = tokens ls) : Leads ls' := by
  unfold Leads
  rw [ht]
  exact h

/-- An element is a value, and white space behind it. -/
theorem Rereads.element {fuel : Nat} (hv : Rereads fuel (readValue S) id) :
    Rereads fuel (readElement S) skipCtrlAndSpace := by
  intro t v r h
  unfold readElement at h
  dsimp only at h
  split at h
  · cases h
  rcases hp : parseValue S fuel (skipCtrlAndSpace t) with f | _ | ⟨jv, w⟩
  · rw [hp] at h
    cases h
  · rw [hp] at h
    cases h
  rw [hp] at h
  cases h
  obtain ⟨ls, rest, ht, rfl, hs⟩ := hv t v w hp
  refine ⟨ls, w, ht, rfl, hs.lexes, hs.clear, hs.leads, hs.ends, fun ls' rest' fuel htok hlex => ?_⟩
  have hne := (hs.leads.congr htok).skip_ne hlex
  unfold readElement
  dsimp only
  rw [hne, if_neg Bool.false_ne_true]
  refine (hs.again ls' rest' fuel htok hlex).bind ?_
  by_cases hclear : Clear ls'
  · rw [if_pos hclear, if_pos hclear]
    exact .inr rfl
  · rw [if_neg hclear, if_neg hclear]
    exact .inr rfl

/-- The parts of a member. -/
theorem readMember_cases {fuel : Nat} {t r : Bytes} {m : Bytes × JsonNode D}
    (h : readMember S fuel t = .ok (some (m, r))) :
    ∃ w x, parseString (skipCtrlAndSpace t) = .ok (some (m.1, w)) ∧ skipCtrlAndSpace w = 58 :: x ∧
      readElement S fuel x = .ok (some (m.2, r)) := by
  unfold readMember at h
  dsimp only at h
  split at h
  · cases h
  rcases hk : parseString (skipCtrlAndSpace t) with f | _ | ⟨k, w⟩
  · rw [hk] at h
    cases h
  · rw [hk] at h
    cases h
  simp only [hk, bind, Except.bind] at h
  cases hw : skipCtrlAndSpace w with
  | nil =>
    rw [hw] at h
    cases h
  | cons c x =>
    simp only [hw, charAt_cons, List.drop_succ_cons, List.drop_zero] at h
    split at h
    · cases h
    · rename_i hc
      rcases he : readElement S fuel x with f | _ | ⟨v, r'⟩
      · rw [he] at h
        cases h
      · rw [he] at h
        cases h
      · rw [he] at h
        cases h
        exact ⟨w, x, rfl, by rw [hw, not_not.mp hc], he⟩

/-- A member is a string, a colon and a value. -/
theorem Rereads.member {fuel : Nat} (hv : Rereads fuel (readValue S) id) :
    Rereads fuel (readMember S) skipCtrlAndSpace := by
  intro t m r h
  obtain ⟨w, x, hk, hcolon, he⟩ := readMember_cases h
  obtain ⟨u, hu, hall⟩ := parseString_anywhere hk
  obtain ⟨ls, rest, hx, hr, hs⟩ := hv.element x m.2 r he
  obtain ⟨g1, ht, hg1⟩ := skip_split t
  obtain ⟨g2, hw, hg2⟩ := skip_split w
  have hkey : ¬ ∀ c ∈ 34 :: u, isNumberComponent c = true := not_number (by decide)
  have hquote : awaits (34 :: u) = false := by simp [awaits]
  have hsign : ¬ ∀ c ∈ [(58 : UInt8)], isNumberComponent c = true := not_number (by decide)
  have hclear : ∀ gap gap' ls, Clear (⟨gap, 34 :: u⟩ :: ⟨gap', [58]⟩ :: ls) ↔ Clear ls := by
    intro gap gap' ls
    rw [clear_behind hquote, clear_behind (by rfl)]
  refine ⟨⟨g1, 34 :: u⟩ :: ⟨g2, [58]⟩ :: ls, rest, ?_, hr, ?_, (hclear g1 g2 ls).mpr hs.clear,
    ⟨34, u, _, rfl, by decide⟩, ?_, ?_⟩
  · rw [ht, hu, hw, hcolon, hx]
    simp
  · exact ⟨hg1, .string hall, fun hcomp => absurd hcomp hkey, hg2, .punctuation (by decide),
      fun hcomp => absurd hcomp hsign, hs.lexes⟩
  · exact ends_cons _ (List.cons_ne_nil _ _) (ends_cons _ hs.leads.tokens_ne hs.ends)
  · intro ls' rest' fuel htok hlex
    obtain ⟨g1', ls1, rfl, htok1⟩ := tokens_eq_cons htok
    obtain ⟨g2', ls2, rfl, htok2⟩ := tokens_eq_cons htok1
    obtain ⟨hg1', -, -, hg2', -, -, hlex2⟩ := hlex
    have hbegin : Blanks (parserDialect S).blank (text (⟨g1', 34 :: u⟩ :: ⟨g2', [58]⟩ :: ls2) ++ rest')
        (34 :: u ++ (g2' ++ 58 :: (text ls2 ++ rest'))) := ⟨g1', hg1', by simp⟩
    have hskip : skipCtrlAndSpace (g2' ++ 58 :: (text ls2 ++ rest')) = 58 :: (text ls2 ++ rest') := by
      rw [skip_append hg2', skip_cons (by decide)]
    rw [List.cons_append] at hbegin
    rw [readMember_key S hbegin, ← List.cons_append, hall]
    simp only [bind, Except.bind, hskip, charAt_cons, List.drop_succ_cons, List.drop_zero, ne_eq, not_true_eq_false,
      if_false]
    refine (hs.again ls2 rest' fuel htok2 hlex2).bind ?_
    by_cases hc : Clear ls2
    · rw [if_pos hc, if_pos ((hclear _ _ _).mpr hc)]
      exact .inr rfl
    · rw [if_neg hc, if_neg (mt (hclear _ _ _).mp hc)]
      exact .inr rfl

/-! ## The loops of the containers -/

/-- What the loops of the two containers have in common. -/
structure Rounds {ι A : Type} (k : Container) (read : Nat → Bytes → Except Fault (Option (ι × Bytes)))
    (loop : Nat → Bytes → A → Except Fault (Option (JsonNode D × Bytes))) (nodeOf : A → JsonNode D)
    (add : A → ι → A) : Prop where
  zero : ∀ str acc, loop 0 str acc = .error .hang
  succ : ∀ fuel str acc, loop (fuel + 1) str acc = (do
    match ← read fuel str with
    | none => .ok none
    | some (x, str) => behindItem k.closes (loop fuel) nodeOf (add acc x) str)
  closes : ∀ fuel ws rest, (∀ c ∈ ws, isCtrlAndSpace c = true) → Gives (read fuel (ws ++ k.closes :: rest)) none

theorem rounds_array : Rounds .array (readElement S) (arrayLoop S) .array fun arr jv => arr ++ [jv] where
  zero str arr := by simp [arrayLoop]
  succ fuel str arr := by
    rw [arrayLoop_succ]
    rcases readElement S fuel str with _ | _ | _ <;> rfl
  closes fuel ws rest hws := readElement_closes fuel hws rest

theorem rounds_object :
    Rounds .object (readMember S) (objectLoop S) .object fun obj m => insertMember m.1 m.2 obj where
  zero str obj := by simp [objectLoop]
  succ fuel str obj := by
    rw [objectLoop_succ]
    rcases readMember S fuel str with _ | _ | _ <;> rfl
  closes fuel ws rest hws := readMember_closes fuel hws rest

section

variable {ι A : Type} {k : Container} {read : Nat → Bytes → Except Fault (Option (ι × Bytes))}
  {loop : Nat → Bytes → A → Except Fault (Option (JsonNode D × Bytes))} {nodeOf : A → JsonNode D} {add : A → ι → A}
  (hr : Rounds k read loop nodeOf add)

include hr

/-- A loop that goes on in front of the bracket finds no item. -/
theorem Rounds.misses (fuel : Nat) {ws : Bytes} (hws : ∀ c ∈ ws, isCtrlAndSpace c = true) (rest : Bytes) (acc : A) :
    Gives (loop fuel (ws ++ k.closes :: rest) acc) none := by
  cases fuel with
  | zero =>
    rw [hr.zero]
    exact .inl rfl
  | succ fuel =>
    rw [hr.succ]
    exact (hr.closes fuel ws rest hws).bind (.inr rfl)

/-- The first round, over an item that was read before. -/
theorem Rounds.again {x : ι} {ls a b : List Lexeme} {rest rest' : Bytes} (hs : Reread read skipCtrlAndSpace x ls rest)
    (ha : tokens a = tokens ls) (hlex : Lexes (a ++ b) rest') {acc : A} {y : Option (JsonNode D × Bytes)}
    (hno : ¬ Clear a → y = none)
    (hyes : Clear a → ∀ fuel, Gives (behindItem k.closes (loop fuel) nodeOf (add acc x)
      (skipCtrlAndSpace (text b ++ rest'))) y) (fuel : Nat) : Gives (loop fuel (text (a ++ b) ++ rest') acc) y := by
  cases fuel with
  | zero =>
    rw [hr.zero]
    exact .inl rfl
  | succ fuel =>
    rw [hr.succ, text_append, List.append_assoc]
    refine (hs.again a _ fuel ha (lexes_append.mp hlex).1).bind ?_
    by_cases hc : Clear a
    · rw [if_pos hc]
      exact hyes hc fuel
    · rw [if_neg hc, hno hc]
      exact .inr rfl

/-- An item, and the tokens `bs` behind it. -/
theorem Rounds.joins {x : ι} {ls bs : List Lexeme} {rest r : Bytes} {acc : A} {v : JsonNode D}
    (hs : Reread read skipCtrlAndSpace x ls rest) (hrest : rest = text bs ++ r) (hne : tokens bs ≠ [])
    (hlex : Lexes bs r) (hclear : Clear bs) (hends : ∀ s ∈ (tokens bs).getLast?, awaits s = false)
    (hagain : ∀ b rest' fuel, tokens b = tokens bs → Lexes b rest' →
      Gives (behindItem k.closes (loop fuel) nodeOf (add acc x) (skipCtrlAndSpace (text b ++ rest')))
        (if Clear b then some (v, rest') else none)) :
    ∃ ms rest', text ls ++ rest = text ms ++ rest' ∧ r = id rest' ∧
      Reread (fun fuel t => loop fuel t acc) id v ms rest' := by
  rw [hrest] at hs ⊢
  refine ⟨ls ++ bs, r, by rw [text_append, List.append_assoc], rfl, lexes_append.mpr ⟨hs.lexes, hlex⟩,
    (clear_append hs.ends).mpr ⟨hs.clear, hclear⟩, ?_, ?_, ?_⟩
  · obtain ⟨c, u, ss, hss, hc⟩ := hs.leads
    exact ⟨c, u, ss ++ tokens bs, by rw [tokens_append, hss, List.cons_append], hc⟩
  · rw [tokens_append, List.getLast?_append_of_ne_nil _ hne]
    exact hends
  · intro ls' rest' fuel htok hlex'
    rw [tokens_append] at htok
    obtain ⟨a, b, rfl, ha, hb⟩ := List.map_eq_append_iff.mp htok
    have hsplit : Clear (a ++ b) ↔ Clear a ∧ Clear b := by
      apply clear_append
      rw [show tokens a = tokens ls from ha]
      exact hs.ends
    refine hr.again hs ha hlex' (fun hc => ?_) (fun hc fuel => ?_) fuel
    · rw [if_neg fun h => hc (hsplit.mp h).1]
    · rw [if_congr (hsplit.trans (and_iff_right hc)) rfl rfl]
      exact hagain b rest' fuel hb (lexes_append.mp hlex').2

theorem Rounds.rereads {fuel : Nat} (hitem : Rereads fuel read skipCtrlAndSpace)
    (hl : ∀ acc, Rereads fuel (fun fuel t => loop fuel t acc) id) (acc : A) :
    Rereads (fuel + 1) (fun fuel t => loop fuel t acc) id := by
  intro t v r h
  dsimp only at h
  rw [hr.succ] at h
  rcases hx : read fuel t with f | _ | ⟨x, w⟩
  · rw [hx] at h
    cases h
  · rw [hx] at h
    cases h
  rw [hx] at h
  replace h : behindItem k.closes (loop fuel) nodeOf (add acc x) w = .ok (some (v, r)) := h
  obtain ⟨ls, rest, rfl, rfl, hs⟩ := hitem t x w hx
  obtain ⟨gap, hrest, hgap⟩ := skip_split rest
  have hclose : IsToken [k.closes] := .punctuation (by cases k <;> decide)
  have hshut : awaits [k.closes] = false := by cases k <;> decide
  have hsign : ¬ ∀ c ∈ [k.closes], isNumberComponent c = true := not_number (by cases k <;> decide)
  have hcomma : ¬ ∀ c ∈ [(44 : UInt8)], isNumberComponent c = true := not_number (by decide)
  have hblank : ∀ {ws : Bytes}, (∀ c ∈ ws, isCtrlAndSpace c = true) → ∀ t : Bytes,
      skipCtrlAndSpace (ws ++ 44 :: t) = 44 :: t := by
    intro ws hws t
    rw [skip_append hws, skip_comma]
  rcases behindItem_cases h with ⟨hw, rfl⟩ | ⟨hw, rfl⟩ | ⟨u, hw, -, hloop⟩
  · -- the bracket stands behind the item
    rw [hw] at hrest
    have hbs : rest = text [⟨gap, [k.closes]⟩] ++ r := by rw [hrest]; simp
    refine hr.joins hs hbs (by simp [tokens]) ⟨hgap, hclose, fun hc => absurd hc hsign, trivial⟩ (.singleton _) ?_ ?_
    · intro s h
      cases h
      exact hshut
    · intro b rest' fuel hb hlex
      obtain ⟨gap', ms, rfl, hms⟩ := tokens_eq_cons hb
      obtain rfl := tokens_eq_nil hms
      rw [if_pos (.singleton _), text_cons, List.append_assoc, skip_append hlex.1]
      simp only [text_nil, List.append_nil, List.singleton_append]
      rw [skip_closes, behindItem_close _ (closes_ne_comma k)]
      exact .inr rfl
  · -- a comma, and the bracket at once
    rw [hw] at hrest
    have hbs : rest = text [⟨gap, [44]⟩, ⟨[], [k.closes]⟩] ++ r := by rw [hrest]; simp
    refine hr.joins hs hbs (by simp [tokens]) ⟨hgap, .punctuation (by decide), fun hc => absurd hc hcomma, by simp,
      hclose, fun hc => absurd hc hsign, trivial⟩ ((clear_pair gap [] k (by rfl)).mpr rfl) ?_ ?_
    · intro s h
      cases h
      exact hshut
    · intro b rest' fuel hb hlex
      obtain ⟨gap', b, rfl, hb'⟩ := tokens_eq_cons hb
      obtain ⟨ws, b, rfl, hnil⟩ := tokens_eq_cons hb'
      obtain rfl := tokens_eq_nil hnil
      obtain ⟨hgap', -, -, hws, -⟩ := hlex
      have hskip : skipCtrlAndSpace (text [⟨gap', [44]⟩, ⟨ws, [k.closes]⟩] ++ rest') =
          44 :: (ws ++ k.closes :: rest') := by
        simp only [text_cons, text_nil, List.append_assoc, List.append_nil, List.cons_append]
        exact hblank hgap' _
      rw [hskip]
      cases ws with
      | nil =>
        rw [if_pos ((clear_pair gap' [] k (by rfl)).mpr rfl), List.nil_append]
        exact .inr (by simp [behindItem, checkFunc, closeWith, charAt_cons, bind, Except.bind])
      | cons c ws =>
        have hhead := head_ne_gap hws (k.closes :: rest') k
        rw [if_neg (by rw [clear_pair gap' (c :: ws) k (by rfl)]; simp), behindItem_more _ hhead]
        exact hr.misses fuel hws rest' _
  · -- a comma, and the next round
    obtain ⟨ms, r, rfl, rfl, hms⟩ := hl (add acc x) u v r hloop
    rw [hw] at hrest
    have hbs : rest = text (⟨gap, [44]⟩ :: ms) ++ r := by rw [hrest]; simp
    refine hr.joins hs hbs (by simp [tokens]) ⟨hgap, .punctuation (by decide), fun hc => absurd hc hcomma, hms.lexes⟩
      ((clear_cons _ hms.leads).mpr hms.clear) ?_ ?_
    · exact ends_cons _ hms.leads.tokens_ne hms.ends
    · intro b rest' fuel hb hlex
      obtain ⟨gap', b, rfl, hb'⟩ := tokens_eq_cons hb
      obtain ⟨hgap', -, -, hlex'⟩ := hlex
      have hleads := hms.leads.congr hb'
      have hskip : skipCtrlAndSpace (text (⟨gap', [44]⟩ :: b) ++ rest') = 44 :: (text b ++ rest') := by
        simp only [text_cons, List.append_assoc, List.singleton_append]
        exact hblank hgap' _
      rw [hskip, behindItem_more _ (hleads.head_ne hlex' k), if_congr (clear_cons _ hleads) rfl rfl]
      exact hms.again b rest' fuel hb' hlex'

end

/-! ## Values -/

/-- The node of an empty container. -/
def Container.emptyNode : Container → JsonNode D
  | .array => .array []
  | .object => .object []

theorem parseValue_empty (k : Container) (fuel : Nat) (rest : Bytes) :
    parseValue S (fuel + 1) (k.opens :: k.closes :: rest) = .ok (some (k.emptyNode, rest)) := by
  cases k <;> simp [parseValue_cons, Container.opens, Container.closes, Container.emptyNode]

/-- The loop that reads the items of a container. -/
def readItems (S : Stod D) (fuel : Nat) (str : Bytes) : Container → Except Fault (Option (JsonNode D × Bytes))
  | .array => arrayLoop S fuel str []
  | .object => objectLoop S fuel str []

theorem parseValue_items {k : Container} {t : Bytes} (fuel : Nat) (h : t.head? ≠ some k.closes) :
    parseValue S (fuel + 1) (k.opens :: t) = readItems S fuel t k := by
  cases k with
  | array => exact parseValue_array h
  | object => exact parseValue_object h

/-- What a value is by its first byte. -/
theorem parseValue_cases {fuel : Nat} {t r : Bytes} {v : JsonNode D}
    (h : parseValue S (fuel + 1) t = .ok (some (v, r))) :
    (∃ k : Container, (t = k.opens :: k.closes :: r ∧ v = k.emptyNode) ∨
      ∃ u, t = k.opens :: u ∧ u.head? ≠ some k.closes ∧ readItems S fuel u k = .ok (some (v, r))) ∨
    (∃ s, parseString t = .ok (some (s, r)) ∧ v = .string s) ∨
    (∃ c u, t = c :: u ∧ (isdigit c = true ∨ c = 45) ∧ parseNumber S t = .ok (some (v, r))) ∨
    ∃ w ∈ [lit "null", lit "true", lit "false"], t = w ++ r ∧
      ∀ fuel t, parseValue S (fuel + 1) (w ++ t) = .ok (some (v, t)) := by
  cases t with
  | nil => simp [parseValue] at h
  | cons c u =>
    by_cases hk : ∃ k : Container, c = k.opens
    · obtain ⟨k, rfl⟩ := hk
      refine .inl ⟨k, ?_⟩
      by_cases hu : u.head? = some k.closes
      · rw [head_eq_some hu] at h ⊢
        rw [parseValue_empty] at h
        cases h
        exact .inl ⟨rfl, rfl⟩
      · rw [parseValue_items fuel hu] at h
        exact .inr ⟨u, rfl, hu, h⟩
    have h91 : c ≠ 91 := fun h => hk ⟨.array, h⟩
    have h123 : c ≠ 123 := fun h => hk ⟨.object, h⟩
    by_cases h34 : c = 34
    · subst h34
      rw [parseValue_string] at h
      rcases hs : parseString (34 :: u) with f | _ | ⟨s, r'⟩
      · rw [hs] at h
        cases h
      · rw [hs] at h
        cases h
      · rw [hs] at h
        cases h
        exact .inr (.inl ⟨s, rfl, rfl⟩)
    by_cases hnum : isdigit c = true ∨ c = 45
    · rw [parseValue_number hnum] at h
      exact .inr (.inr (.inl ⟨c, u, rfl, hnum, h⟩))
    rw [parseValue_cons, if_neg h123, if_neg h91, if_neg h34, if_neg (mt Or.symm hnum)] at h
    refine .inr (.inr (.inr ?_))
    split at h
    · rename_i hw
      cases h
      exact ⟨lit "null", by simp, word_append hw, fun _ _ => parseValue_null⟩
    split at h
    · rename_i hw
      cases h
      exact ⟨lit "true", by simp, word_append hw, fun _ _ => parseValue_true⟩
    split at h
    · rename_i hw
      cases h
      exact ⟨lit "false", by simp, word_append hw, fun _ _ => parseValue_false⟩
    · cases h

/-- A number is read in the same way wherever it stands, when no more of a number is behind it. -/
theorem parseNumber_anywhere {c : UInt8} {u r : Bytes} {v : JsonNode D} (hopen : isdigit c = true ∨ c = 45)
    (h : parseNumber S (c :: u) = .ok (some (v, r))) :
    ∃ w, c :: u = c :: w ++ r ∧ (∀ d ∈ w, isNumberComponent d = true) ∧ Stops r ∧
      ∀ rest', Stops rest' → parseNumber S (c :: w ++ rest') = .ok (some (v, rest')) := by
  obtain ⟨run, hrun, ⟨d, w, rfl, -⟩, hcomp, hstops, -⟩ := (parseNumber_agrees S hopen True).left v r h
  obtain rfl : c = d := (List.cons.inj hrun).1
  refine ⟨w, hrun, fun e he => hcomp e (List.mem_cons_of_mem _ he), hstops, fun rest' hrest' => ?_⟩
  rw [hrun, parseNumber_run rfl hopen, (takeWhile_stops hcomp hstops).1, (takeWhile_stops hcomp hstops).2] at h
  rw [parseNumber_run rfl hopen, (takeWhile_stops hcomp hrest').1, (takeWhile_stops hcomp hrest').2]
  rcases hd : S.stod (c :: w) with _ | number
  · rw [hd] at h
    cases h
  · rw [hd] at h
    cases h
    rfl

/-- A container: a bracket, and its items with the bracket that closes them. -/
theorem Reread.container {k : Container} {gap : Bytes} {ls : List Lexeme} {rest : Bytes} {v : JsonNode D}
    (hgap : ∀ c ∈ gap, isCtrlAndSpace c = true) (hs : Reread (fun fuel t => readItems S fuel t k) id v ls rest) :
    Reread (readValue S) id v (⟨gap, [k.opens]⟩ :: ls) rest := by
  have hsign : ¬ ∀ c ∈ [k.opens], isNumberComponent c = true := not_number (by cases k <;> decide)
  refine ⟨⟨hgap, .punctuation (by cases k <;> decide), fun hc => absurd hc hsign, hs.lexes⟩,
    (clear_cons _ hs.leads).mpr hs.clear, ⟨k.opens, [], _, rfl, opens_container k⟩, ?_, ?_⟩
  · exact ends_cons _ hs.leads.tokens_ne hs.ends
  · intro ls' rest' fuel htok hlex
    obtain ⟨gap', ms, rfl, hms⟩ := tokens_eq_cons htok
    obtain ⟨hgap', -, -, hlex'⟩ := hlex
    have hleads := hs.leads.congr hms
    have hskip : skipCtrlAndSpace (text (⟨gap', [k.opens]⟩ :: ms) ++ rest') = k.opens :: (text ms ++ rest') := by
      rw [text_cons, List.append_assoc, skip_append hgap']
      exact skip_cons (by cases k <;> decide) _
    unfold readValue
    rw [hskip, if_congr (clear_cons _ hleads) rfl rfl]
    cases fuel with
    | zero => exact .inl (by simp [parseValue])
    | succ fuel =>
      rw [parseValue_items fuel (hleads.head_ne hlex' k)]
      exact hs.again ms rest' fuel hms hlex'

/-- An empty container: white space between its brackets makes it none. -/
theorem Reread.empty (k : Container) {gap : Bytes} (rest : Bytes) (hgap : ∀ c ∈ gap, isCtrlAndSpace c = true) :
    Reread (readValue S) id k.emptyNode [⟨gap, [k.opens]⟩, ⟨[], [k.closes]⟩] rest := by
  have hsign : ¬ ∀ c ∈ [k.opens], isNumberComponent c = true := not_number (by cases k <;> decide)
  have hsign' : ¬ ∀ c ∈ [k.closes], isNumberComponent c = true := not_number (by cases k <;> decide)
  have hwait : awaits [k.opens] = true := by cases k <;> decide
  have hshut : awaits [k.closes] = false := by cases k <;> decide
  refine ⟨⟨hgap, .punctuation (by cases k <;> decide), fun hc => absurd hc hsign, by simp,
    .punctuation (by cases k <;> decide), fun hc => absurd hc hsign', trivial⟩, (clear_pair gap [] k hwait).mpr rfl,
    ⟨k.opens, [], _, rfl, opens_container k⟩, ?_, ?_⟩
  · intro s h
    cases h
    exact hshut
  · intro ls' rest' fuel htok hlex
    obtain ⟨gap', b, rfl, hb⟩ := tokens_eq_cons htok
    obtain ⟨ws, b, rfl, hnil⟩ := tokens_eq_cons hb
    obtain rfl := tokens_eq_nil hnil
    obtain ⟨hgap', -, -, hws, -⟩ := hlex
    have hskip : skipCtrlAndSpace (text [⟨gap', [k.opens]⟩, ⟨ws, [k.closes]⟩] ++ rest') =
        k.opens :: (ws ++ k.closes :: rest') := by
      simp only [text_cons, text_nil, List.append_assoc, List.append_nil, List.cons_append, List.nil_append]
      rw [skip_append hgap']
      exact skip_cons (by cases k <;> decide) _
    unfold readValue
    rw [hskip]
    cases fuel with
    | zero => exact .inl (by simp [parseValue])
    | succ fuel =>
      cases ws with
      | nil =>
        rw [if_pos ((clear_pair gap' [] k hwait).mpr rfl), List.nil_append, parseValue_empty]
        exact .inr rfl
      | cons c ws =>
        have hhead := head_ne_gap hws (k.closes :: rest') k
        rw [if_neg (by rw [clear_pair gap' (c :: ws) k hwait]; simp), parseValue_items fuel hhead]
        cases k with
        | array => exact rounds_array.misses fuel hws rest' []
        | object => exact rounds_object.misses fuel hws rest' []

theorem Rereads.items {fuel : Nat} (ha : ∀ arr, Rereads fuel (fun fuel t => arrayLoop S fuel t arr) id)
    (ho : ∀ obj, Rereads fuel (fun fuel t => objectLoop S fuel t obj) id) (k : Container) :
    Rereads fuel (fun fuel t => readItems S fuel t k) id := by
  cases k with
  | array => exact ha []
  | object => exact ho []

theorem Rereads.value {fuel : Nat} (hi : ∀ k, Rereads fuel (fun fuel t => readItems S fuel t k) id) :
    Rereads (fuel + 1) (readValue S) id := by
  intro t v r h
  obtain ⟨gap, ht, hgap⟩ := skip_split t
  rcases parseValue_cases h with ⟨k, ⟨hc, rfl⟩ | ⟨u, hc, -, hitems⟩⟩ | ⟨s, hs, rfl⟩ | ⟨c, u, hc, hopen, hn⟩ |
    ⟨w, hw, hc, hword⟩
  · rw [hc] at ht
    exact ⟨_, r, by rw [ht]; simp, rfl, .empty k r hgap⟩
  · obtain ⟨ls, _, hu, rfl, hread⟩ := hi k u v r hitems
    rw [hc, hu] at ht
    exact ⟨_, r, by rw [ht]; simp, rfl, .container hgap hread⟩
  · obtain ⟨u, hu, hall⟩ := parseString_anywhere hs
    rw [hu] at ht
    refine ⟨[⟨gap, 34 :: u⟩], r, by rw [ht]; simp, rfl, .token hgap (.string hall) ⟨34, u, rfl, by decide⟩
      (by simp [awaits]) (fun hcomp => absurd hcomp (not_number (by decide))) fun rest' _ fuel => ?_⟩
    rw [List.cons_append, parseValue_string, ← List.cons_append, hall]
    rfl
  · rw [hc] at hn ht
    obtain ⟨w, hw, hcomp, hstops, hall⟩ := parseNumber_anywhere hopen hn
    rw [hw] at ht
    have hfirst := opens_number c hopen
    have hrun : ∀ d ∈ c :: w, isNumberComponent d = true := List.forall_mem_cons.mpr ⟨hfirst.2.1, hcomp⟩
    refine ⟨[⟨gap, c :: w⟩], r, by rw [ht]; simp, rfl, .token hgap (.number hopen hcomp) ⟨c, w, rfl, hfirst.1⟩
      ?_ (fun _ => hstops) fun rest' hrest' fuel => ?_⟩
    · have h44 : c ≠ 44 := (opensValue_spec c hfirst.1).2.2.2.1
      simp [awaits, hfirst.2.2.1, hfirst.2.2.2.1, h44]
    · rw [List.cons_append, parseValue_number hopen, ← List.cons_append]
      exact hall rest' (hrest' hrun)
  · rw [hc] at ht
    have hmem : w = lit "null" ∨ w = lit "true" ∨ w = lit "false" := by simpa using hw
    refine ⟨[⟨gap, w⟩], r, by rw [ht]; simp, rfl, .token hgap (.word hw) ?_ ?_ (fun hcomp => ?_)
      fun rest' _ fuel => hword fuel rest'⟩
    · rcases hmem with rfl | rfl | rfl
      · exact ⟨110, _, rfl, by decide⟩
      · exact ⟨116, _, rfl, by decide⟩
      · exact ⟨102, _, rfl, by decide⟩
    · rcases hmem with rfl | rfl | rfl <;> decide
    · rcases hmem with rfl | rfl | rfl
      · exact absurd (hcomp 110 (by decide)) (by decide)
      · exact absurd (hcomp 116 (by decide)) (by decide)
      · exact absurd (hcomp 102 (by decide)) (by decide)

/-- What the parser has read are tokens, on which it does the same with other white space
    in front of them. -/
theorem parse_rereads (fuel : Nat) : Rereads fuel (readValue S) id ∧
    (∀ arr, Rereads fuel (fun fuel t => arrayLoop S fuel t arr) id) ∧
    ∀ obj, Rereads fuel (fun fuel t => objectLoop S fuel t obj) id := by
  induction fuel with
  | zero =>
    refine ⟨fun t v r h => ?_, fun arr t v r h => ?_, fun obj t v r h => ?_⟩
    · simp [readValue, parseValue] at h
    · simp [arrayLoop] at h
    · simp [objectLoop] at h
  | succ fuel ih =>
    obtain ⟨hv, ha, ho⟩ := ih
    exact ⟨.value (.items ha ho), rounds_array.rereads hv.element ha, rounds_object.rereads hv.member ho⟩

/-! ## White space put in -/

theorem blank_component (c : UInt8) : isCtrlAndSpace c = true ∨ jsonBlank c → isNumberComponent c = false := by
  revert c
  exact forall_byte (by decide +kernel)

theorem jsonBlank_skipped (c : UInt8) : jsonBlank c → isCtrlAndSpace c = true := by
  revert c
  exact forall_byte (by decide +kernel)

theorem IsToken.ne_nil {s : Bytes} (h : IsToken s) : s ≠ [] := by
  cases h with
  | punctuation => simp
  | word h =>
    intro hnil
    rw [hnil] at h
    exact absurd h (by decide)
  | string h =>
    intro hnil
    rw [hnil] at h
    cases h []
  | number => simp

/-- A number that ends in front of the text ends in front of it with white space put in. -/
theorem Inserts.stops {ls ls' : List Lexeme} {rest rest' : Bytes} (h : Inserts ls ls') (hl : Lexes ls rest)
    (hr : ∀ c ∈ rest'.head?, c ∈ rest.head? ∨ jsonBlank c) (hs : Stops (text ls ++ rest)) :
    Stops (text ls' ++ rest') := by
  cases h with
  | nil =>
    intro c hc
    rcases hr c hc with hrest | hblank
    · exact hs c hrest
    · exact blank_component c (.inr hblank)
  | @cons l l' ls ls' hw _ =>
    obtain ⟨htok, hsub, hmem⟩ := hw
    obtain ⟨c, u, hc⟩ := List.exists_cons_of_ne_nil hl.2.1.ne_nil
    rw [text_cons, List.append_assoc] at hs ⊢
    cases hgap : l'.gap with
    | nil =>
      rw [hgap, List.sublist_nil] at hsub
      rw [hsub, hc] at hs
      rw [htok, hc]
      exact stops_cons (hs c rfl) _
    | cons d g =>
      refine stops_cons (blank_component d ?_) _
      rcases hmem d (by rw [hgap]; exact List.mem_cons_self) with hd | hd
      · exact .inl (hl.1 d hd)
      · exact .inr hd

/-- White space put between tokens leaves them tokens. -/
theorem Inserts.lexes {ls ls' : List Lexeme} {rest rest' : Bytes} (h : Inserts ls ls') (hl : Lexes ls rest)
    (hr : ∀ c ∈ rest'.head?, c ∈ rest.head? ∨ jsonBlank c) : tokens ls' = tokens ls ∧ Lexes ls' rest' := by
  induction h with
  | nil => exact ⟨rfl, trivial⟩
  | @cons l l' ls ls' hw hins ih =>
    obtain ⟨hgap, htoken, hstop, hrest⟩ := hl
    obtain ⟨htok, hsub, hmem⟩ := hw
    obtain ⟨ihtok, ihlex⟩ := ih hrest
    refine ⟨by rw [tokens_cons, tokens_cons, htok, ihtok], fun c hc => ?_, by rwa [htok], fun hcomp => ?_, ihlex⟩
    · exact (hmem c hc).elim (hgap c) (jsonBlank_skipped c)
    · rw [htok] at hcomp
      exact Inserts.stops hins hrest hr (hstop hcomp)

/-- An accepted text is tokens in front of what the parser leaves; with white space put in
    front of any of them it gives the same tree exactly when they stay clear, and the null
    pointer otherwise. -/
theorem white_space_iff (S : Stod D) {t : Bytes} {v : JsonNode D} (h : fromString S t = .ok (some v)) :
    ∃ ls rest, t = text ls ++ rest ∧ Lexes ls rest ∧
      parseValue S (2 * t.length + 2) (skipCtrlAndSpace t) = .ok (some (v, rest)) ∧
      ∀ ls' rest', Inserts ls ls' → (∀ c ∈ rest'.head?, c ∈ rest.head? ∨ jsonBlank c) →
        (fromString S (text ls' ++ rest') = .ok (some v) ↔ Clear ls') ∧
        (¬ Clear ls' → fromString S (text ls' ++ rest') = .ok none) := by
  rw [fromString_eq] at h
  rcases hp : parseValue S (2 * t.length + 2) (skipCtrlAndSpace t) with f | _ | ⟨v', r⟩
  · rw [hp] at h
    cases h
  · rw [hp] at h
    cases h
  obtain rfl : v' = v := by
    rw [hp] at h
    cases h
    rfl
  obtain ⟨ls, _, ht, rfl, hs⟩ := (parse_rereads _).1 t v' r hp
  refine ⟨ls, r, ht, hs.lexes, rfl, fun ls' rest' hins hrest' => ?_⟩
  obtain ⟨htok, hlex⟩ := hins.lexes hs.lexes hrest'
  have hread : fromString S (text ls' ++ rest') = .ok (if Clear ls' then some v' else none) := by
    have hhang := fromString_not_hang S (text ls' ++ rest')
    rw [fromString_eq] at hhang ⊢
    rcases hs.again ls' rest' (2 * (text ls' ++ rest').length + 2) htok hlex with hg | hg
    · rw [readValue] at hg
      rw [hg] at hhang
      exact absurd rfl hhang
    · rw [readValue] at hg
      rw [hg]
      split <;> rfl
  rw [hread]
  by_cases hc : Clear ls'
  · simp [hc]
  · simp [hc]

/-- An array with a trailing comma, and a byte behind it. -/
theorem white_space_trailing : ∃ ls rest, lit "[null ,]x" = text ls ++ rest ∧ Lexes ls rest ∧
    ∀ ls' rest', Inserts ls ls' → (∀ c ∈ rest'.head?, c ∈ rest.head? ∨ jsonBlank c) →
      (fromString (⟨fun _ => none, fun _ => none⟩ : Stod Unit) (text ls' ++ rest') = .ok (some (.array [.null])) ↔
        Clear ls') := by
  have hread : fromString (⟨fun _ => none, fun _ => none⟩ : Stod Unit) (lit "[null ,]x") =
      .ok (some (.array [.null])) := by
    have hdigit : isdigit 110 = false := by decide
    simp [fromString_eq, lit, skipCtrlAndSpace, isCtrlAndSpace, parseValue, arrayLoop, checkFunc, closeWith,
      charAt_cons, hdigit, bind, Except.bind, Except.map]
  obtain ⟨ls, rest, ht, hlex, -, hins⟩ := white_space_iff _ hread
  exact ⟨ls, rest, ht, hlex, fun ls' rest' h hr => (hins ls' rest' h hr).1⟩

/-- A space put between the brackets of an empty array. -/
theorem white_space_rejected : ¬ ∀ (D : Type) (S : Stod D) (ls ls' : List Lexeme) (v : JsonNode D),
    Lexes ls [] → Inserts ls ls' → fromString S (text ls) = .ok (some v) → fromString S (text ls') = .ok (some v) := by
  intro h
  have hread : fromString (⟨fun _ => none, fun _ => none⟩ : Stod Unit) (text [⟨[], [91]⟩, ⟨[], [93]⟩]) =
      .ok (some (.array [])) := by
    simp [fromString_eq, skipCtrlAndSpace, isCtrlAndSpace, parseValue, Except.map]
  have hnull : fromString (⟨fun _ => none, fun _ => none⟩ : Stod Unit) (text [⟨[], [91]⟩, ⟨[32], [93]⟩]) =
      .ok none := by
    have hdigit : isdigit 93 = false := by decide
    simp [fromString_eq, lit, skipCtrlAndSpace, isCtrlAndSpace, parseValue, arrayLoop, hdigit, bind, Except.bind,
      Except.map]
  have hsame := h Unit ⟨fun _ => none, fun _ => none⟩ [⟨[], [91]⟩, ⟨[], [93]⟩] [⟨[], [91]⟩, ⟨[32], [93]⟩] (.array [])
    ⟨by simp, .punctuation (by decide), fun hc => absurd hc (not_number (by decide)), by simp,
      .punctuation (by decide), fun hc => absurd hc (not_number (by decide)), trivial⟩
    (.cons ⟨rfl, .refl _, by simp⟩ (.cons ⟨rfl, by simp, by simp [jsonBlank]⟩ .nil)) hread
  rw [hnull] at hsame
  cases hsame

end HahaWeb.Json
