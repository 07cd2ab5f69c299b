/-
  HahaWeb.Json.Print — `JsonString::toString` and the `toString` of the other nodes, from
  `haha_json/jsonValue.cpp` and `jsonValue.h`.

  A string is written byte for byte between quotes; the switch gives a quote, a backslash
  and five control bytes an escape, and leaves every other byte as it is. The parser's
  switch has no case for the quote. Proved: a string is read back, with what stands behind
  it left, exactly when it has no quote (`string_round_trip_iff`).

  Not modelled: `indent_` of a formatter, which no `toString` reads.
-/

import HahaWeb.Json.Parse

namespace HahaWeb.Json

/-! ## Strings -/

/-- The letter that stands for a byte behind a backslash. -/
def escapeLetter (c : UInt8) : Option UInt8 :=
  if c = 92 then some 92        -- \\
  else if c = 34 then some 34   -- \"
  else if c = 8 then some 98    -- \b
  else if c = 12 then some 102  -- \f
  else if c = 10 then some 110  -- \n
  else if c = 13 then some 114  -- \r
  else if c = 9 then some 116   -- \t
  else none

/-- One byte of a string; `char` is signed, so that `view[0] > 31` is false from 128 on. -/
def byteText (c : UInt8) : Bytes :=
  if 31 < c && c < 128 && c != 34 && c != 92 then [c] else (escapeLetter c).elim [c] fun e => [92, e]

/-- `JsonString::toString`. -/
def stringText (s : Bytes) : Bytes := 34 :: (s.flatMap byteText ++ [34])

/-! ## Nodes -/

inductive JsonFormatType where
  | raw
  | space
  | newline
  deriving DecidableEq, Repr

/-- `std::to_string` of an `int`. -/
def intText (n : Int) : Bytes := if n < 0 then 45 :: decimal n.natAbs else decimal n.natAbs

/-- What stands before an element, and before the bracket that closes. -/
def newLine (fmt : JsonFormatType) (depth : Nat) : Bytes :=
  if fmt = .newline then 10 :: List.replicate depth 9 else []

/-- What stands between an element and the next. -/
def separator (fmt : JsonFormatType) : Bytes := if fmt = .space then [44, 32] else [44]

variable {D : Type} (doubleText : D → Bytes) (fmt : JsonFormatType)

mutual

/-- `toString`; `doubleText` is `std::to_string` of a `double`. -/
def toString (depth : Nat) : JsonNode D → Bytes
  | .object members =>
    123 :: (membersText depth members ++ (if members.isEmpty then [] else newLine fmt depth) ++ [125])
  | .array elements =>
    91 :: (elementsText depth elements ++ (if elements.isEmpty then [] else newLine fmt depth) ++ [93])
  | .string s => stringText s
  | .integer n => intText n
  | .double d => doubleText d
  | .boolean b => if b then lit "true" else lit "false"
  | .null => lit "null"

def elementsText (depth : Nat) : List (JsonNode D) → Bytes
  | [] => []
  | e :: es =>
    newLine fmt (depth + 1) ++ toString (depth + 1) e ++
      (if es.isEmpty then [] else separator fmt) ++ elementsText depth es

def membersText (depth : Nat) : List (Bytes × JsonNode D) → Bytes
  | [] => []
  | (k, v) :: ms =>
    newLine fmt (depth + 1) ++ stringText k ++ [58] ++ (if fmt = .raw then [] else [32]) ++
      toString (depth + 1) v ++ (if ms.isEmpty then [] else separator fmt) ++ membersText depth ms

end

/-! ## Strings are read back -/

/-- Both switches know the byte, or neither does and the byte stands for itself. -/
theorem byteText_cases (c : UInt8) (hc : c ≠ 34) :
    (∃ e, byteText c = [92, e] ∧ escape e = some c) ∨ byteText c = [c] ∧ c ≠ 92 := by
  have hall : ∀ c : UInt8, c ≠ 34 →
      (byteText c = [92, (escapeLetter c).getD 0] ∧ escape ((escapeLetter c).getD 0) = some c) ∨
        byteText c = [c] ∧ c ≠ 92 :=
    forall_byte (by decide +kernel)
  exact (hall c hc).imp_left fun h => ⟨_, h⟩

theorem stringLoop_byte (fuel : Nat) {c : UInt8} (hc : c ≠ 34) (t output : Bytes) :
    stringLoop (fuel + 1) (byteText c ++ t) output = stringLoop fuel t (output ++ [c]) := by
  rcases byteText_cases c hc with ⟨e, hb, he⟩ | ⟨hb, h92⟩
  · rw [hb]
    simp [stringLoop, he]
  · rw [hb]
    simp [stringLoop, hc, h92]

/-- The parser's switch has no case for the quote. -/
theorem stringLoop_quote (fuel : Nat) (t output : Bytes) :
    stringLoop (fuel + 1) (byteText 34 ++ t) output = .ok none := by
  simp [byteText, escapeLetter, stringLoop, escape]

theorem stringLoop_text (rest : Bytes) : ∀ (s output : Bytes) (fuel : Nat), s.length < fuel →
    stringLoop fuel (s.flatMap byteText ++ 34 :: rest) output =
      .ok (if 34 ∈ s then none else some (output ++ s, rest)) := by
  intro s
  induction s with
  | nil =>
    intro output fuel h
    obtain ⟨fuel, rfl⟩ := Nat.exists_eq_add_of_lt h
    simp [stringLoop]
  | cons c s ih =>
    intro output fuel h
    obtain ⟨fuel, rfl⟩ := Nat.exists_eq_add_of_lt h
    rw [List.flatMap_cons, List.append_assoc]
    by_cases hc : c = 34
    · rw [hc, stringLoop_quote]
      simp
    · rw [stringLoop_byte _ hc, ih _ _ (by simp only [List.length_cons]; omega)]
      simp [Ne.symm hc]

theorem byteText_length (c : UInt8) : 1 ≤ (byteText c).length := by
  revert c
  exact forall_byte (by decide +kernel)

theorem stringText_length (s : Bytes) : s.length + 2 ≤ (stringText s).length := by
  have hbody : s.length ≤ (s.flatMap byteText).length := by
    induction s with
    | nil => exact Nat.le_refl 0
    | cons c s ih =>
      rw [List.flatMap_cons, List.length_append, List.length_cons]
      have := byteText_length c
      omega
  simp only [stringText, List.length_cons, List.length_append, List.length_nil]
  omega

theorem parseString_text (s rest : Bytes) :
    parseString (stringText s ++ rest) = .ok (if 34 ∈ s then none else some (s, rest)) := by
  have hlen := stringText_length s
  have hcons : stringText s ++ rest = 34 :: (s.flatMap byteText ++ 34 :: rest) := by
    rw [stringText, List.cons_append, List.append_assoc, List.singleton_append]
  unfold parseString
  rw [hcons, charAt, List.getElem?_cons_zero]
  show stringLoop _ (s.flatMap byteText ++ 34 :: rest) [] = _
  rw [stringLoop_text rest s [] _ (by rw [← hcons, List.length_append]; omega), List.nil_append]

/-- A string is read back, and what stands behind it left, exactly when it has no quote. -/
theorem string_round_trip_iff (s rest : Bytes) :
    parseString (stringText s ++ rest) = .ok (some (s, rest)) ↔ 34 ∉ s := by
  rw [parseString_text]
  by_cases h : 34 ∈ s
  · simp [h]
  · simp [h]

theorem string_quote_lost : ¬ ∀ s rest : Bytes, parseString (stringText s ++ rest) = .ok (some (s, rest)) := by
  intro h
  exact absurd (h [34] []) (by decide)

end HahaWeb.Json
