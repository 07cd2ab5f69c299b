/-
  HahaWeb.Base.UrlCoding — what `urlEncode` writes and what `urlDecode` reads
  (`base/EncodeUtil.cpp`), both against a grammar of their own.

  The encoder's output holds letters, digits, `-`, `_`, `.`, `~` and escapes of two
  upper-case digits (`unreserved_urlEncode`). The decoder answers the empty string to a
  string that is not empty exactly when some `%` has not two hexadecimal digits behind it
  (`urlDecode_eq_nil_iff`); every other string is decoded escape by escape
  (`decodes_urlDecode`). No `%` is ever skipped over: an escape's digits are no `%`.
-/

import HahaWeb.Base.EncodeUtil
import HahaWeb.Base.HexNumber

namespace HahaWeb.EncodeUtil

/-! ## The encoder's alphabet -/

/-- A byte that is written as itself. -/
def Kept (c : UInt8) : Prop := (48 ≤ c ∧ c ≤ 57) ∨ (65 ≤ c ∧ c ≤ 90) ∨ (97 ≤ c ∧ c ≤ 122) ∨
  c = 45 ∨ c = 95 ∨ c = 46 ∨ c = 126

def UpperHex (c : UInt8) : Prop := (48 ≤ c ∧ c ≤ 57) ∨ (65 ≤ c ∧ c ≤ 70)

instance (c : UInt8) : Decidable (Kept c) := inferInstanceAs (Decidable (_ ∨ _ ∨ _ ∨ _ ∨ _ ∨ _ ∨ _))
instance (c : UInt8) : Decidable (UpperHex c) := inferInstanceAs (Decidable (_ ∨ _))

/-- Kept bytes and escapes of two upper-case digits. -/
inductive Unreserved : Bytes → Prop where
  | nil : Unreserved []
  | kept {c : UInt8} {t : Bytes} : Kept c → Unreserved t → Unreserved (c :: t)
  | escape {hi lo : UInt8} {t : Bytes} : UpperHex hi → UpperHex lo → Unreserved t → Unreserved (37 :: hi :: lo :: t)

theorem encodeByte_alphabet (c : UInt8) :
    encodeByte c = [c] ∧ Kept c ∨
      encodeByte c = [37, toupper (dec2hex (c >>> 4)), toupper (dec2hex (c &&& 15))] ∧
        UpperHex (toupper (dec2hex (c >>> 4))) ∧ UpperHex (toupper (dec2hex (c &&& 15))) := by
  revert c
  exact forall_byte (by decide +kernel)

theorem unreserved_urlEncode (s : Bytes) : Unreserved (urlEncode s) := by
  induction s with
  | nil => exact .nil
  | cons c s ih =>
    rw [urlEncode, List.flatMap_cons]
    rcases encodeByte_alphabet c with ⟨hc, hkept⟩ | ⟨hc, hhi, hlo⟩
    · rw [hc]
      exact .kept hkept ih
    · rw [hc]
      exact .escape hhi hlo ih

/-! ## The decoder's grammar -/

/-- The two hexadecimal digits behind a `%`. -/
def Escape (t : Bytes) : Prop := ∃ hi lo rest, t = hi :: lo :: rest ∧ isxdigit hi = true ∧ isxdigit lo = true

/-- Every `%` has its two digits. -/
def Escaped (t : Bytes) : Prop := ∀ a b, t = a ++ 37 :: b → Escape b

/-- `t` read with its escapes replaced by their byte and `+` by a space. -/
inductive Decodes : Bytes → Bytes → Prop where
  | nil : Decodes [] []
  | plain {c : UInt8} {t u : Bytes} : c ≠ 37 → c ≠ 43 → Decodes t u → Decodes (c :: t) (c :: u)
  | plus {t u : Bytes} : Decodes t u → Decodes (43 :: t) (32 :: u)
  | escape {hi lo : UInt8} {t u : Bytes} : isxdigit hi = true → isxdigit lo = true → Decodes t u →
      Decodes (37 :: hi :: lo :: t) (UInt8.ofNat (16 * digitValue hi + digitValue lo) :: u)

/-- Gluing two nibbles is base-sixteen arithmetic. -/
theorem merge_digits {hi lo : UInt8} (hhi : isxdigit hi = true) (hlo : isxdigit lo = true) :
    hex2dec hi <<< 4 ||| hex2dec lo = UInt8.ofNat (16 * digitValue hi + digitValue lo) := by
  have nibbles : ∀ a b : Fin 16, UInt8.ofNat a <<< 4 ||| UInt8.ofNat b = UInt8.ofNat (16 * a + b) := by decide +kernel
  obtain ⟨hle, hval⟩ := digitValue_le hi hhi
  obtain ⟨hle', hval'⟩ := digitValue_le lo hlo
  have hhi' : hex2dec hi = UInt8.ofNat (digitValue hi) := by rw [← hval, UInt8.ofNat_toNat]
  have hlo' : hex2dec lo = UInt8.ofNat (digitValue lo) := by rw [← hval', UInt8.ofNat_toNat]
  rw [hhi', hlo']
  exact nibbles ⟨digitValue hi, by omega⟩ ⟨digitValue lo, by omega⟩

theorem ne_percent_of_isxdigit (c : UInt8) (hc : isxdigit c = true) : c ≠ 37 :=
  ne_of_apply_ne isxdigit (by rw [hc]; decide)

/-! ### One step of the grammar -/

theorem escaped_cons {c : UInt8} (hc : c ≠ 37) (t : Bytes) : Escaped (c :: t) ↔ Escaped t := by
  constructor
  · intro h a b ht
    exact h (c :: a) b (by rw [ht, List.cons_append])
  · intro h a b ht
    cases a with
    | nil => exact absurd (List.cons.inj ht).1 hc
    | cons d a => exact h a b (List.cons.inj ht).2

theorem escaped_percent {hi lo : UInt8} (hhi : isxdigit hi = true) (hlo : isxdigit lo = true) (t : Bytes) :
    Escaped (37 :: hi :: lo :: t) ↔ Escaped t := by
  have hdigits : Escaped (hi :: lo :: t) ↔ Escaped t :=
    (escaped_cons (ne_percent_of_isxdigit hi hhi) _).trans (escaped_cons (ne_percent_of_isxdigit lo hlo) _)
  rw [← hdigits]
  constructor
  · intro h a b ht
    exact h (37 :: a) b (by rw [ht, List.cons_append])
  · intro h a b ht
    cases a with
    | nil => exact (List.cons.inj ht).2 ▸ ⟨hi, lo, t, rfl, hhi, hlo⟩
    | cons d a => exact h a b (List.cons.inj ht).2

/-! ### The loop -/

theorem decodes_of_decodeLoop {t u : Bytes} (h : decodeLoop t = some u) : Escaped t ∧ Decodes t u := by
  induction ht : t.length using Nat.strong_induction_on generalizing t u with
  | _ n ih =>
    cases t with
    | nil =>
      rw [decodeLoop, Option.some.injEq] at h
      rw [← h]
      exact ⟨fun a b hab => by simp at hab, .nil⟩
    | cons c t =>
      rw [List.length_cons] at ht
      by_cases hc : c = 37
      · rw [hc] at h ⊢
        obtain ⟨hi, lo, rest, v, rfl, hhi, hlo, hv, rfl⟩ := decodeLoop_percent h
        simp only [List.length_cons] at ht
        obtain ⟨hesc, hdec⟩ := ih rest.length (by omega) hv rfl
        rw [merge_digits hhi hlo]
        exact ⟨(escaped_percent hhi hlo rest).mpr hesc, .escape hhi hlo hdec⟩
      · rw [decodeLoop_cons hc] at h
        obtain ⟨v, hv, rfl⟩ := Option.map_eq_some_iff.mp h
        obtain ⟨hesc, hdec⟩ := ih t.length (by omega) hv rfl
        refine ⟨(escaped_cons hc t).mpr hesc, ?_⟩
        by_cases hplus : c = 43
        · rw [hplus]
          exact .plus hdec
        · simp only [beq_iff_eq, hplus, if_false]
          exact .plain hc hplus hdec

theorem decodeLoop_of_escaped {t : Bytes} (h : Escaped t) : ∃ u, decodeLoop t = some u := by
  induction ht : t.length using Nat.strong_induction_on generalizing t with
  | _ n ih =>
    cases t with
    | nil => exact ⟨[], rfl⟩
    | cons c t =>
      rw [List.length_cons] at ht
      by_cases hc : c = 37
      · rw [hc] at h ⊢
        obtain ⟨hi, lo, rest, rfl, hhi, hlo⟩ := h [] t rfl
        simp only [List.length_cons] at ht
        obtain ⟨u, hu⟩ := ih rest.length (by omega) ((escaped_percent hhi hlo rest).mp h) rfl
        exact ⟨(hex2dec hi <<< 4 ||| hex2dec lo) :: u, by simp [decodeLoop, hhi, hlo, hu]⟩
      · obtain ⟨u, hu⟩ := ih t.length (by omega) ((escaped_cons hc t).mp h) rfl
        exact ⟨_, by rw [decodeLoop_cons hc, hu]; rfl⟩

/-- The failure signal. -/
theorem urlDecode_eq_nil_iff {t : Bytes} (ht : t ≠ []) : urlDecode t = [] ↔ ∃ a b, t = a ++ 37 :: b ∧ ¬ Escape b := by
  have hneg : (∃ a b, t = a ++ 37 :: b ∧ ¬ Escape b) ↔ ¬ Escaped t := by simp [Escaped]
  rw [hneg]
  constructor
  · intro h hesc
    obtain ⟨u, hu⟩ := decodeLoop_of_escaped hesc
    have hnil : u = [] := by rwa [urlDecode, hu, Option.getD_some] at h
    rw [hnil] at hu
    have hdec := (decodes_of_decodeLoop hu).2
    cases hdec
    exact ht rfl
  · intro h
    have hnone : decodeLoop t = none := by
      cases hu : decodeLoop t with
      | none => rfl
      | some u => exact absurd (decodes_of_decodeLoop hu).1 h
    rw [urlDecode, hnone, Option.getD_none]

theorem decodes_urlDecode {t : Bytes} (h : Escaped t) : Decodes t (urlDecode t) := by
  obtain ⟨u, hu⟩ := decodeLoop_of_escaped h
  rw [urlDecode, hu, Option.getD_some]
  exact (decodes_of_decodeLoop hu).2

theorem urlDecode_urlEncode (s : Bytes) : urlDecode (urlEncode s) = s := by
  have h := decodeLoop_urlEncode s []
  rw [List.append_nil] at h
  rw [urlDecode, h]
  simp [decodeLoop]

/-- Encoding and decoding, for every string. -/
theorem urlCoding (s t : Bytes) (ht : t ≠ []) :
    urlDecode (urlEncode s) = s ∧ Unreserved (urlEncode s) ∧
      (urlDecode t = [] ↔ ∃ a b, t = a ++ 37 :: b ∧ ¬ Escape b) ∧
      ((∀ a b, t = a ++ 37 :: b → Escape b) → Decodes t (urlDecode t)) :=
  ⟨urlDecode_urlEncode s, unreserved_urlEncode s, urlDecode_eq_nil_iff ht, decodes_urlDecode⟩

theorem urlCoding_space : lit "a%2" ≠ [] ∧ urlDecode (urlEncode (lit "a b")) = lit "a b" ∧ urlDecode (lit "a%2") = [] :=
  ⟨by decide, (urlCoding (lit "a b") (lit "a%2") (by decide)).1,
    (urlCoding (lit "a b") (lit "a%2") (by decide)).2.2.1.mpr
      ⟨lit "a", lit "2", by decide, fun h => by obtain ⟨hi, lo, rest, heq, -⟩ := h; cases heq⟩⟩

end HahaWeb.EncodeUtil
