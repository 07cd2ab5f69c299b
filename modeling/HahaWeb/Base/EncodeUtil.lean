/-
  HahaWeb.Base.EncodeUtil — `base/EncodeUtil.cpp`: a hash, and URL encoding and decoding.

  A letter, a digit, `-`, `_`, `.` and `~` are kept; any other byte is written as `%` and
  two hexadecimal digits. Proved: what is encoded is decoded to itself, whatever stands
  behind it (`decodeLoop_urlEncode`).
-/

import HahaWeb.Base.Util

namespace HahaWeb.EncodeUtil

/-- `*(unsigned int *)data`, little-endian. -/
def word (a b c d : UInt8) : UInt32 := a.toUInt32 ||| b.toUInt32 <<< 8 ||| c.toUInt32 <<< 16 ||| d.toUInt32 <<< 24

/-- The loop of `murmurHash2`, four bytes at a time, and the `switch` on the rest, which falls through. -/
def murmurLoop (h : UInt32) : Bytes → UInt32
  | a :: b :: c :: d :: data =>
    let k := word a b c d * 0x5bd1e995
    let k := (k ^^^ k >>> 24) * 0x5bd1e995
    murmurLoop (h * 0x5bd1e995 ^^^ k) data
  | [a, b, c] => (h ^^^ c.toUInt32 <<< 16 ^^^ b.toUInt32 <<< 8 ^^^ a.toUInt32) * 0x5bd1e995
  | [a, b] => (h ^^^ b.toUInt32 <<< 8 ^^^ a.toUInt32) * 0x5bd1e995
  | [a] => (h ^^^ a.toUInt32) * 0x5bd1e995
  | [] => h

def murmurHash2 (s : Bytes) : UInt32 :=
  let h := murmurLoop (0xEE6B27EB ^^^ UInt32.ofNat s.length) s
  let h := (h ^^^ h >>> 13) * 0x5bd1e995
  h ^^^ h >>> 15

/-- The loop of `urlDecode`; `none` when a `%` is not followed by two hex digits. -/
def decodeLoop : Bytes → Option Bytes
  | [] => some []
  | [c] => if c == 37 then none else some [if c == 43 then 32 else c]
  | [c, d] =>
    if c == 37 then none else (decodeLoop [d]).map ((if c == 43 then 32 else c) :: ·)
  | c :: h :: l :: rest =>
    if c == 37 then
      if isxdigit h && isxdigit l then (decodeLoop rest).map ((hex2dec h <<< 4 ||| hex2dec l) :: ·) else none
    else (decodeLoop (h :: l :: rest)).map ((if c == 43 then 32 else c) :: ·)

/-- `urlDecode`: the empty string when decoding fails. -/
def urlDecode (value : Bytes) : Bytes := (decodeLoop value).getD []

def isalnum (c : UInt8) : Bool := isdigit c || (65 ≤ c && c ≤ 90) || (97 ≤ c && c ≤ 122)

def toupper (c : UInt8) : UInt8 := if 97 ≤ c && c ≤ 122 then c - 32 else c

/-- One byte of `urlEncode`. -/
def encodeByte (c : UInt8) : Bytes :=
  if isalnum c || c == 45 || c == 95 || c == 46 || c == 126 then [c]
  else [37, toupper (dec2hex (c >>> 4)), toupper (dec2hex (c &&& 15))]

def urlEncode (value : Bytes) : Bytes := value.flatMap encodeByte

/-! ## What is encoded is decoded -/

theorem decodeLoop_cons {c : UInt8} (h37 : c ≠ 37) (t : Bytes) :
    decodeLoop (c :: t) = (decodeLoop t).map ((if c == 43 then 32 else c) :: ·) := by
  match t with
  | [] => simp [decodeLoop, h37]
  | [d] => simp [decodeLoop, h37]
  | d :: e :: t => simp [decodeLoop, h37]

theorem decodeLoop_percent {t u : Bytes} (h : decodeLoop (37 :: t) = some u) :
    ∃ hi lo rest v, t = hi :: lo :: rest ∧ isxdigit hi = true ∧ isxdigit lo = true ∧ decodeLoop rest = some v ∧
      u = (hex2dec hi <<< 4 ||| hex2dec lo) :: v := by
  match t with
  | [] => simp [decodeLoop] at h
  | [d] => simp [decodeLoop] at h
  | hi :: lo :: rest =>
    simp only [decodeLoop, beq_self_eq_true, if_true, Bool.and_eq_true] at h
    split at h
    · rename_i hx
      obtain ⟨v, hv, rfl⟩ := Option.map_eq_some_iff.mp h
      exact ⟨hi, lo, rest, v, rfl, hx.1, hx.2, hv, rfl⟩
    · cases h

/-- A byte that stands for itself. -/
theorem decodeLoop_plain {c : UInt8} (h37 : c ≠ 37) (h43 : c ≠ 43) (t : Bytes) :
    decodeLoop (c :: t) = (decodeLoop t).map (c :: ·) := by
  rw [decodeLoop_cons h37]
  simp [h43]

theorem urlDecode_plain {t : Bytes} (h37 : 37 ∉ t) (h43 : 43 ∉ t) : urlDecode t = t := by
  have hloop : decodeLoop t = some t := by
    induction t with
    | nil => rfl
    | cons c t ih =>
      rw [List.mem_cons, not_or] at h37 h43
      rw [decodeLoop_plain (Ne.symm h37.1) (Ne.symm h43.1), ih h37.2 h43.2]
      rfl
  rw [urlDecode, hloop]
  rfl

theorem encodeByte_cases (c : UInt8) :
    encodeByte c = [c] ∧ c ≠ 37 ∧ c ≠ 43 ∨
      encodeByte c = [37, toupper (dec2hex (c >>> 4)), toupper (dec2hex (c &&& 15))] ∧
        isxdigit (toupper (dec2hex (c >>> 4))) = true ∧ isxdigit (toupper (dec2hex (c &&& 15))) = true ∧
        hex2dec (toupper (dec2hex (c >>> 4))) <<< 4 ||| hex2dec (toupper (dec2hex (c &&& 15))) = c := by
  revert c
  exact forall_byte (by decide +kernel)

theorem decodeLoop_encodeByte (c : UInt8) (t : Bytes) :
    decodeLoop (encodeByte c ++ t) = (decodeLoop t).map (c :: ·) := by
  rcases encodeByte_cases c with ⟨hc, h37, h43⟩ | ⟨hc, hh, hl, hval⟩
  · rw [hc, List.singleton_append, decodeLoop_plain h37 h43]
  · rw [hc]
    simp [decodeLoop, hh, hl, hval]

theorem decodeLoop_urlEncode (s t : Bytes) : decodeLoop (urlEncode s ++ t) = (decodeLoop t).map (s ++ ·) := by
  induction s with
  | nil => simp [urlEncode]
  | cons c s ih =>
    rw [urlEncode, List.flatMap_cons, List.append_assoc, decodeLoop_encodeByte]
    change (decodeLoop (urlEncode s ++ t)).map _ = _
    rw [ih, Option.map_map]
    rfl

end HahaWeb.EncodeUtil
