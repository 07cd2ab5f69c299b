/-
  HahaWeb.Json.Number — number literals, and what `parse_number` makes of them.

  A literal is a minus or none, digits, a fraction or none, an exponent or none. The
  parser takes the run of digits, `e`, `E`, `-` and `.`, so that it stops at the plus of
  an exponent; and it makes an `int` of a value in the range of one whenever the run does
  not end with the point, which a literal's never does. Proved: it consumes the literal
  and keeps its value exactly when the exponent has no plus, no byte of a run stands
  behind, and the value, if it is in the range of an `int`, is an integer (`number_iff`).

  `val` is the value of a `double`; those of literals are finite.
-/

import Mathlib.Data.Rat.Floor
import HahaWeb.Json.Parse

namespace HahaWeb.Json

/-! ## A run of bytes of a number -/

/-- No byte of a number stands here. -/
def Stops (rest : Bytes) : Prop := ∀ c ∈ rest.head?, isNumberComponent c = false

theorem stops_cons {c : UInt8} (h : isNumberComponent c = false) (t : Bytes) : Stops (c :: t) := by
  intro d hd
  cases hd
  exact h

theorem takeWhile_stops {text rest : Bytes} (h : ∀ c ∈ text, isNumberComponent c = true) (hr : Stops rest) :
    (text ++ rest).takeWhile isNumberComponent = text ∧ (text ++ rest).dropWhile isNumberComponent = rest :=
  takeWhile_run h hr

theorem component_of_digit (c : UInt8) : isdigit c = true → isNumberComponent c = true ∧ c ≠ 46 := by
  revert c
  exact forall_byte (by decide +kernel)

/-! ## Literals -/

def Digits (ds : Bytes) : Prop := ds ≠ [] ∧ ∀ c ∈ ds, isdigit c = true

structure Exponent where
  letter : UInt8
  sign : Option UInt8
  digits : Bytes
  letter_e : letter = 101 ∨ letter = 69
  sign_spec : ∀ c ∈ sign, c = 43 ∨ c = 45
  digits_spec : Digits digits

structure NumberLiteral where
  minus : Bool
  whole : Bytes
  frac : Option Bytes
  exp : Option Exponent
  whole_spec : Digits whole
  no_zero : whole.head? = some 48 → whole = [48]
  frac_spec : ∀ ds ∈ frac, Digits ds

def Exponent.text (e : Exponent) : Bytes := e.letter :: (e.sign.toList ++ e.digits)

def NumberLiteral.text (l : NumberLiteral) : Bytes :=
  (if l.minus then [45] else []) ++ l.whole ++ l.frac.elim [] (46 :: ·) ++ l.exp.elim [] Exponent.text

/-- The exponent has no plus. -/
def NumberLiteral.NoPlus (l : NumberLiteral) : Prop := ∀ e ∈ l.exp, e.sign ≠ some 43

theorem Exponent.text_component {e : Exponent} (hp : e.sign ≠ some 43) : ∀ c ∈ e.text, isNumberComponent c = true := by
  intro c h
  rcases List.mem_cons.mp h with rfl | h
  · rcases e.letter_e with h | h <;> rw [h] <;> decide
  · rcases List.mem_append.mp h with h | h
    · have hs := Option.mem_toList.mp h
      rcases e.sign_spec c hs with rfl | rfl
      · exact absurd (Option.mem_def.mp hs) hp
      · decide
    · exact (component_of_digit c (e.digits_spec.2 c h)).1

/-- The text up to the exponent. -/
def NumberLiteral.mantissa (l : NumberLiteral) : Bytes :=
  (if l.minus then [45] else []) ++ l.whole ++ l.frac.elim [] (46 :: ·)

namespace NumberLiteral

variable (l : NumberLiteral)

theorem text_eq : l.text = l.mantissa ++ l.exp.elim [] Exponent.text := rfl

theorem mantissa_component : ∀ c ∈ l.mantissa, isNumberComponent c = true := by
  intro c h
  rcases List.mem_append.mp h with h | h
  · rcases List.mem_append.mp h with h | h
    · split at h
      · rw [List.mem_singleton.mp h]
        decide
      · cases h
    · exact (component_of_digit c (l.whole_spec.2 c h)).1
  · cases hf : l.frac with
    | none =>
      rw [hf] at h
      cases h
    | some ds =>
      rw [hf] at h
      rcases List.mem_cons.mp h with rfl | h
      · decide
      · exact (component_of_digit c ((l.frac_spec ds (by rw [hf]; rfl)).2 c h)).1

theorem text_component (hp : l.NoPlus) : ∀ c ∈ l.text, isNumberComponent c = true := by
  intro c h
  rw [text_eq] at h
  rcases List.mem_append.mp h with h | h
  · exact l.mantissa_component c h
  · cases he : l.exp with
    | none =>
      rw [he] at h
      cases h
    | some e =>
      rw [he] at h
      exact Exponent.text_component (hp e (by rw [he]; rfl)) c h

/-- A literal whose exponent has a plus is a run of bytes that a number has, up to the plus. -/
theorem text_plus (hp : ¬ l.NoPlus) : ∃ run ds, l.text = run ++ 43 :: ds ∧ ∀ c ∈ run, isNumberComponent c = true := by
  unfold NoPlus at hp
  push Not at hp
  obtain ⟨e, he, hs⟩ := hp
  refine ⟨l.mantissa ++ [e.letter], e.digits, ?_, ?_⟩
  · rw [text_eq, Option.mem_def.mp he]
    simp [Exponent.text, hs]
  · intro c h
    rcases List.mem_append.mp h with h | h
    · exact l.mantissa_component c h
    · rw [List.mem_singleton.mp h]
      rcases e.letter_e with h | h <;> rw [h] <;> decide

theorem text_cons : ∃ c u, l.text = c :: u ∧ (isdigit c = true ∨ c = 45) := by
  obtain ⟨c, u, hw⟩ := List.exists_cons_of_ne_nil l.whole_spec.1
  have hc := l.whole_spec.2 c (hw ▸ List.mem_cons_self)
  rw [text_eq, mantissa, hw]
  cases l.minus with
  | true => exact ⟨45, _, rfl, .inr rfl⟩
  | false => exact ⟨c, _, rfl, .inl hc⟩

theorem getLast_ne {a ds : Bytes} (h : Digits ds) : (a ++ ds).getLast? ≠ some 46 := by
  rw [List.getLast?_append_of_ne_nil a h.1]
  intro hl
  exact (component_of_digit 46 (h.2 46 (List.mem_of_getLast? hl))).2 rfl

/-- A literal ends with a digit. -/
theorem text_last : l.text.getLast? ≠ some 46 := by
  rw [text_eq]
  cases he : l.exp with
  | some e =>
    have htext : l.mantissa ++ e.text = (l.mantissa ++ e.letter :: e.sign.toList) ++ e.digits := by
      simp [Exponent.text]
    show (l.mantissa ++ e.text).getLast? ≠ _
    rw [htext]
    exact getLast_ne e.digits_spec
  | none =>
    show (l.mantissa ++ []).getLast? ≠ _
    rw [List.append_nil, mantissa]
    cases hf : l.frac with
    | none =>
      show (_ ++ []).getLast? ≠ _
      rw [List.append_nil]
      exact getLast_ne l.whole_spec
    | some ds =>
      have hds := l.frac_spec ds (by rw [hf]; rfl)
      show ((if l.minus = true then [45] else []) ++ l.whole ++ 46 :: ds).getLast? ≠ _
      rw [List.append_cons]
      exact getLast_ne hds

end NumberLiteral

/-! ## What becomes of the value -/

variable {D : Type} {S : Stod D} {val : D → ℚ}

/-- `(int)number`: towards zero. -/
def truncate (q : ℚ) : Int := q.num.tdiv q.den

def InInt (q : ℚ) : Prop := -2 ^ 31 ≤ q ∧ q ≤ 2 ^ 31 - 1

instance (q : ℚ) : Decidable (InInt q) := inferInstanceAs (Decidable (_ ∧ _))

/-- The comparisons with `INT_MAX` and `INT_MIN` and the cast are those of the value. -/
def Exact (S : Stod D) (val : D → ℚ) : Prop := ∀ d, S.toInt d = if InInt (val d) then some (truncate (val d)) else none

/-- The node has the value `d`, as an integer when it is one of an `int`. -/
inductive Represents (val : D → ℚ) (d : D) : JsonNode D → Prop
  | integer {n : Int} : val d = n → InInt (val d) → Represents val d (.integer n)
  | double : ¬ (InInt (val d) ∧ ∃ n : Int, val d = n) → Represents val d (.double d)

/-- The literal is consumed, and nothing else, and its value is kept. -/
def Preserved (S : Stod D) (val : D → ℚ) (text rest : Bytes) (d : D) : Prop :=
  ∃ node, parseNumber S (text ++ rest) = .ok (some (node, rest)) ∧ Represents val d node

theorem truncate_int (n : Int) : truncate n = n := by
  simp [truncate]

theorem parseNumber_run {text rest : Bytes} {c : UInt8} {u : Bytes} (hc : text = c :: u)
    (hopen : isdigit c = true ∨ c = 45) :
    parseNumber S (text ++ rest) = .ok ((S.stod ((text ++ rest).takeWhile isNumberComponent)).map fun number =>
      ((if ((text ++ rest).takeWhile isNumberComponent).getLast? != some 46 then S.toInt number else none).elim
        (.double number) .integer, (text ++ rest).dropWhile isNumberComponent)) := by
  have hfirst : charAt (text ++ rest) 0 = .ok c := by rw [hc]; rfl
  have hopen' : (!isdigit c && c != 45) = false := by
    rcases hopen with h | rfl
    · simp [h]
    · decide
  unfold parseNumber
  simp only [hfirst, hopen', bind, Except.bind, Bool.false_eq_true, if_false]
  cases S.stod ((text ++ rest).takeWhile isNumberComponent) with
  | none => rfl
  | some d => 
    dsimp only [Option.map_some]
    rcases (if ((text ++ rest).takeWhile isNumberComponent).getLast? != some 46 then S.toInt d else none) with _ | n
    · rfl
    · rfl

/-- What a run that is the whole literal becomes. -/
theorem parseNumber_literal (hS : Exact S val) (l : NumberLiteral) {rest : Bytes} {d : D}
    (hd : S.stod l.text = some d) (hp : l.NoPlus) (hr : Stops rest) :
    parseNumber S (l.text ++ rest) =
      .ok (some (if InInt (val d) then .integer (truncate (val d)) else .double d, rest)) := by
  obtain ⟨c, u, hc, hopen⟩ := l.text_cons
  obtain ⟨ht, hdrop⟩ := takeWhile_stops (l.text_component hp) hr
  have hlast : (l.text.getLast? != some 46) = true := by simpa using l.text_last
  rw [parseNumber_run hc hopen, ht, hdrop, hd, Option.map_some, hlast, if_pos rfl, hS d]
  split <;> rfl

/-- What is left of a literal that is not read to its end, or beyond it, is not the rest. -/
theorem parseNumber_left (l : NumberLiteral) {rest : Bytes} (h : ¬ (l.NoPlus ∧ Stops rest)) (node : JsonNode D) :
    parseNumber S (l.text ++ rest) ≠ .ok (some (node, rest)) := by
  obtain ⟨c, u, hc, hopen⟩ := l.text_cons
  rw [parseNumber_run hc hopen]
  intro he
  have hdrop : (l.text ++ rest).dropWhile isNumberComponent = rest := by
    cases hs : S.stod ((l.text ++ rest).takeWhile isNumberComponent) with
    | none =>
      rw [hs] at he
      cases he
    | some d =>
      rw [hs] at he
      exact congrArg Prod.snd (Option.some.inj (Except.ok.inj he))
  by_cases hp : l.NoPlus
  · rw [List.dropWhile_append_of_pos (l.text_component hp)] at hdrop
    refine h ⟨hp, fun c hc => ?_⟩
    have hhead := List.head?_dropWhile_not isNumberComponent rest
    rw [hdrop] at hhead
    cases hr : rest.head? with
    | none =>
      rw [hr] at hc
      cases hc
    | some c' =>
      rw [hr] at hc hhead
      cases hc
      simpa using hhead
  · obtain ⟨run, ds, htext, hrun⟩ := l.text_plus hp
    rw [htext, List.append_assoc, List.cons_append, List.dropWhile_append_of_pos hrun,
      List.dropWhile_cons_of_neg (by decide)] at hdrop
    have hlen := congrArg List.length hdrop
    simp only [List.length_cons, List.length_append] at hlen
    omega

/-- A literal is consumed and its value kept exactly when its exponent has no plus, no byte
    of a number stands behind it, and its value is no fraction in the range of an `int`. -/
theorem number_iff (S : Stod D) (val : D → ℚ) (hS : Exact S val) (l : NumberLiteral) (rest : Bytes) (d : D)
    (hd : S.stod l.text = some d) :
    Preserved S val l.text rest d ↔
      l.NoPlus ∧ Stops rest ∧ (InInt (val d) → ∃ n : Int, val d = n) := by
  constructor
  · intro h
    obtain ⟨node, hnode, hrep⟩ := h
    have hread : l.NoPlus ∧ Stops rest := by
      by_contra hread
      exact parseNumber_left l hread node hnode
    refine ⟨hread.1, hread.2, fun hin => ?_⟩
    rw [parseNumber_literal hS l hd hread.1 hread.2, if_pos hin] at hnode
    cases hnode
    cases hrep with
    | integer hval _ => exact ⟨_, hval⟩
  · intro h
    obtain ⟨hp, hr, hint⟩ := h
    refine ⟨_, parseNumber_literal hS l hd hp hr, ?_⟩
    split
    · rename_i hin
      obtain ⟨n, hn⟩ := hint hin
      rw [hn, truncate_int]
      exact .integer hn hin
    · exact .double fun h => absurd h.1 ‹_›

/-- The literal `1.5`. -/
def oneAndHalf : NumberLiteral where
  minus := false
  whole := lit "1"
  frac := some (lit "5")
  exp := none
  whole_spec := ⟨by decide, List.all_eq_true.mp (by decide)⟩
  no_zero := by decide
  frac_spec ds h := by
    cases h
    exact ⟨by decide, List.all_eq_true.mp (by decide)⟩

/-- `stod` where it is called with `1.5`, with the rationals for the values. -/
def halfStod : Stod ℚ where
  stod s := if s = lit "1.5" then some (3 / 2) else none
  toInt q := if InInt q then some (truncate q) else none

theorem exact_halfStod : Exact halfStod id := fun _ => rfl

theorem halfStod_half : halfStod.stod oneAndHalf.text = some (3 / 2) := by
  have htext : oneAndHalf.text = lit "1.5" := by decide
  show (if oneAndHalf.text = lit "1.5" then some (3 / 2) else none) = some (3 / 2 : ℚ)
  rw [if_pos htext]

theorem number_iff_half : Preserved halfStod id oneAndHalf.text [] (3 / 2) ↔
    oneAndHalf.NoPlus ∧ Stops [] ∧ (InInt (id (3 / 2)) → ∃ n : Int, id (3 / 2) = (n : ℚ)) :=
  number_iff halfStod id exact_halfStod oneAndHalf [] (3 / 2) halfStod_half

theorem number_half_lost : ¬ ∀ (D : Type) (S : Stod D) (val : D → ℚ), Exact S val →
    ∀ (l : NumberLiteral) (rest : Bytes) (d : D),
      (∀ c ∈ rest.head?, isNumberComponent c = false ∧ c ≠ 43) → S.stod l.text = some d →
      Preserved S val l.text rest d := by
  intro h
  obtain ⟨node, hnode, hrep⟩ := h ℚ halfStod id exact_halfStod oneAndHalf [] (3 / 2) (by simp) halfStod_half
  have hin : InInt (3 / 2 : ℚ) := by constructor <;> norm_num
  have hplus : oneAndHalf.NoPlus := by simp [NumberLiteral.NoPlus, oneAndHalf]
  rw [parseNumber_literal exact_halfStod oneAndHalf halfStod_half hplus (by simp [Stops]), id, if_pos hin] at hnode
  cases hnode
  cases hrep with
  | integer hval _ =>
    have htwice : (3 : ℚ) = 2 * (truncate (3 / 2) : Int) := by
      rw [← hval, id]
      norm_num
    have hint : (3 : Int) = 2 * truncate (3 / 2) := by exact_mod_cast htwice
    omega

end HahaWeb.Json
