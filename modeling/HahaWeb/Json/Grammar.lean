/-
  HahaWeb.Json.Grammar — JSON as a grammar over bytes, and what a dialect of it fixes.

  A production is a relation of a text and what is left of it behind the production. The
  containers are the same in every dialect: items with commas between them, one comma
  before the bracket that closes being allowed. A dialect says which bytes are white
  space, whether white space may stand before that bracket, what a character of a string
  is and what a number is. `json` is RFC 8259 with the escapes `\0` and `\x`; bytes from
  128 on are characters as they are, so that a string need not be UTF-8.
-/

import Mathlib.Logic.Relation
import HahaWeb.Json.Number

namespace HahaWeb.Json

/-! ## Productions -/

structure Dialect where
  blank : UInt8 → Prop
  /-- White space before a bracket that closes, behind the one that opens or a comma. -/
  gap : UInt8 → Prop
  /-- A character of a string, and what is behind it. -/
  char : Bytes → Bytes → Prop
  number : Bytes → Bytes → Prop

inductive Container where
  | array
  | object
  deriving DecidableEq, Repr

def Container.opens : Container → UInt8
  | .array => 91
  | .object => 123

def Container.closes : Container → UInt8
  | .array => 93
  | .object => 125

inductive Part where
  | value
  /-- An element or a member, with the white space around it. -/
  | item (k : Container)
  /-- Items up to the bracket that closes. -/
  | items (k : Container)
  deriving DecidableEq, Repr

def Blanks (p : UInt8 → Prop) (t rest : Bytes) : Prop := ∃ ws, (∀ c ∈ ws, p c) ∧ t = ws ++ rest

namespace Dialect

variable (G : Dialect)

/-- A string: a quote, characters, a quote. -/
def Str (t rest : Bytes) : Prop := ∃ u, t = 34 :: u ∧ Relation.ReflTransGen G.char u (34 :: rest)

inductive Reads : Part → Bytes → Bytes → Prop
  | null (rest : Bytes) : Reads .value (lit "null" ++ rest) rest
  | true (rest : Bytes) : Reads .value (lit "true" ++ rest) rest
  | false (rest : Bytes) : Reads .value (lit "false" ++ rest) rest
  | string {t rest : Bytes} : G.Str t rest → Reads .value t rest
  | number {t rest : Bytes} : G.number t rest → Reads .value t rest
  | empty (k : Container) {t rest : Bytes} : Blanks G.gap t (k.closes :: rest) → Reads .value (k.opens :: t) rest
  | container (k : Container) {t rest : Bytes} : Reads (.items k) t rest → Reads .value (k.opens :: t) rest
  | element {t u v rest : Bytes} : Blanks G.blank t u → Reads .value u v → Blanks G.blank v rest →
      Reads (.item .array) t rest
  | member {t u v w x y rest : Bytes} : Blanks G.blank t u → G.Str u v → Blanks G.blank v (58 :: w) →
      Blanks G.blank w x → Reads .value x y → Blanks G.blank y rest → Reads (.item .object) t rest
  | last (k : Container) {t rest : Bytes} : Reads (.item k) t (k.closes :: rest) → Reads (.items k) t rest
  | comma (k : Container) {t u rest : Bytes} : Reads (.item k) t (44 :: u) → Blanks G.gap u (k.closes :: rest) →
      Reads (.items k) t rest
  | more (k : Container) {t u rest : Bytes} : Reads (.item k) t (44 :: u) → Reads (.items k) u rest →
      Reads (.items k) t rest

end Dialect

/-! ## JSON -/

/-- The white space of JSON. -/
def jsonBlank (c : UInt8) : Prop := c = 32 ∨ c = 9 ∨ c = 10 ∨ c = 13

instance (c : UInt8) : Decidable (jsonBlank c) := inferInstanceAs (Decidable (_ ∨ _))

inductive JsonChar : Bytes → Bytes → Prop
  | plain {c : UInt8} (rest : Bytes) : 32 ≤ c → c ≠ 34 → c ≠ 92 → JsonChar (c :: rest) rest
  | escape {e : UInt8} (rest : Bytes) : e ∈ lit "\"\\/bfnrt0" → JsonChar (92 :: e :: rest) rest
  | hex {ds : Bytes} (rest : Bytes) : ds ≠ [] → (∀ c ∈ ds, isxdigit c = true) →
      JsonChar (92 :: 120 :: (ds ++ rest)) rest
  | unicode {ds : Bytes} (rest : Bytes) : ds.length = 4 → (∀ c ∈ ds, isxdigit c = true) →
      JsonChar (92 :: 117 :: (ds ++ rest)) rest

def json : Dialect where
  blank := jsonBlank
  gap := jsonBlank
  char := JsonChar
  number t rest := ∃ l : NumberLiteral, t = l.text ++ rest

/-- The byte order mark of UTF-8. -/
def bom : Bytes := [0xEF, 0xBB, 0xBF]

/-- A byte order mark or none, white space, a value, white space. -/
def IsJson (t : Bytes) : Prop :=
  ∃ u v rest, (t = u ∨ t = bom ++ u) ∧ Blanks jsonBlank u v ∧ json.Reads .value v rest ∧ ∀ c ∈ rest, jsonBlank c

end HahaWeb.Json
