/-
  HahaWeb.Json.Unicode — the `\u` escapes of `parse_string`, read as UTF-16.

  A unit is four hexadecimal digits of either case. A character up to 0xFFFF is one unit,
  any other a high surrogate and a low one. Proved: a quoted sequence of units that spells
  characters is read as their UTF-8, whatever stands behind it (`parseString_spelled`); one
  in which a surrogate stands alone is refused (`parseString_lone`); every sequence of units
  is one or the other (`spelled_or_lone`).
-/

import HahaWeb.Json.Characters

namespace HahaWeb.Json

/-! ## Units -/

/-- `XXXX` of `\uXXXX`. -/
structure CodeUnit where
  digits : Bytes
  four : digits.length = 4
  hex : digits.all isxdigit = true

namespace CodeUnit

def value (u : CodeUnit) : Nat := hexValue u.digits

def IsHigh (u : CodeUnit) : Prop := 0xD800 ≤ u.value ∧ u.value ≤ 0xDBFF

def IsLow (u : CodeUnit) : Prop := 0xDC00 ≤ u.value ∧ u.value ≤ 0xDFFF

theorem parseHex4_digits (u : CodeUnit) : parseHex4 u.digits = u.value := if_pos u.hex

end CodeUnit

/-- The escapes of units, one behind the other. -/
def escapes (us : List CodeUnit) : Bytes := us.flatMap fun u => 92 :: 117 :: u.digits

/-- The units spell the characters. -/
inductive Spells : List Char → List CodeUnit → Prop
  | nil : Spells [] []
  | unit {c : Char} {cs : List Char} {u : CodeUnit} {us : List CodeUnit} : c.toNat = u.value → Spells cs us →
      Spells (c :: cs) (u :: us)
  | pair {c : Char} {cs : List Char} {hi lo : CodeUnit} {us : List CodeUnit} : hi.IsHigh → lo.IsLow →
      c.toNat = 0x10000 + (hi.value - 0xD800) * 0x400 + (lo.value - 0xDC00) → Spells cs us →
      Spells (c :: cs) (hi :: lo :: us)

/-- A low surrogate without a high one directly before it, or a high one without a low one
    directly behind it. -/
def Lone (us : List CodeUnit) : Prop :=
  ∃ i u, us[i]? = some u ∧
    (u.IsLow ∧ (∀ v, i ≠ 0 → us[i - 1]? = some v → ¬ v.IsHigh) ∨ u.IsHigh ∧ ∀ v, us[i + 1]? = some v → ¬ v.IsLow)

/-! ## UTF-8 -/

/-- A byte behind the first. -/
theorem tail_byte (n : Nat) : UInt8.ofNat ((n ||| 0x80) &&& 0xBF) = UInt8.ofNat (n % 64 + 0x80) := by
  have hbyte : ∀ b : UInt8, (b ||| 0x80) &&& 0xBF = UInt8.ofNat (b.toNat % 64 + 0x80) := forall_byte (by decide +kernel)
  have h := hbyte (UInt8.ofNat n)
  rw [UInt8.toNat_ofNat', Nat.mod_mod_of_dvd n (by decide : 64 ∣ 2 ^ 8)] at h
  rw [← h, UInt8.ofNat_and, UInt8.ofNat_or]
  rfl

/-- The first byte of two, three and four. -/
theorem lead_byte {n : Nat} : (n < 32 → (n ||| 0xC0) &&& 0xFF = n % 0x20 + 0xC0) ∧
    (n < 16 → (n ||| 0xE0) &&& 0xFF = n % 0x10 + 0xE0) ∧ (n < 8 → (n ||| 0xF0) &&& 0xFF = n % 0x08 + 0xF0) := by
  have h2 : ∀ k : Fin 32, (k.val ||| 0xC0) &&& 0xFF = k.val % 0x20 + 0xC0 := by decide
  have h3 : ∀ k : Fin 16, (k.val ||| 0xE0) &&& 0xFF = k.val % 0x10 + 0xE0 := by decide
  have h4 : ∀ k : Fin 8, (k.val ||| 0xF0) &&& 0xFF = k.val % 0x08 + 0xF0 := by decide
  exact ⟨fun h => h2 ⟨n, h⟩, fun h => h3 ⟨n, h⟩, fun h => h4 ⟨n, h⟩⟩

theorem encodeUtf8_char (c : Char) : encodeUtf8 c.toNat = String.utf8EncodeChar c := by
  have hmax : c.toNat < 0x110000 := by
    rcases c.valid with h | h
    · exact h.trans (by decide)
    · exact h.2
  have hval : c.val.toNat = c.toNat := rfl
  unfold encodeUtf8 String.utf8EncodeChar
  simp only [hval, tail_byte, Nat.shiftRight_eq_div_pow]
  by_cases h1 : c.toNat < 0x80
  · have hself : c.toNat &&& 0x7F = c.toNat := by
      rw [Nat.and_two_pow_sub_one_eq_mod c.toNat 7]
      exact Nat.mod_eq_of_lt h1
    rw [if_pos h1, if_pos (by omega), hself]
  · by_cases h2 : c.toNat < 0x800
    · rw [if_neg h1, if_pos h2, if_neg (by omega), if_pos (by omega), lead_byte.1 (by omega)]
      simp
    · by_cases h3 : c.toNat < 0x10000
      · rw [if_neg h1, if_neg h2, if_pos h3, if_neg (by omega), if_neg (by omega), if_pos (by omega),
          lead_byte.2.1 (by omega)]
        simp
      · rw [if_neg h1, if_neg h2, if_neg h3, if_neg (by omega), if_neg (by omega), if_neg (by omega),
          lead_byte.2.2 (by omega)]
        simp

theorem not_surrogate {c : Char} {u : CodeUnit} (hc : c.toNat = u.value) : ¬ u.IsHigh ∧ ¬ u.IsLow := by
  unfold CodeUnit.IsHigh CodeUnit.IsLow
  rcases c.valid with h | h
  · have h : c.toNat < 0xD800 := h
    omega
  · have h : 0xDFFF < c.toNat := h.1
    omega

/-- The two surrogates put together. -/
theorem surrogates_value {hi lo : CodeUnit} (hh : hi.IsHigh) (hl : lo.IsLow) :
    0x10000 + ((hi.value &&& 0x3FF) <<< 10 ||| (lo.value &&& 0x3FF)) =
      0x10000 + (hi.value - 0xD800) * 0x400 + (lo.value - 0xDC00) := by
  obtain ⟨h1, h2⟩ := hh
  obtain ⟨h3, h4⟩ := hl
  have hhi : hi.value &&& 0x3FF = hi.value - 0xD800 := by
    rw [Nat.and_two_pow_sub_one_eq_mod hi.value 10]
    omega
  have hlo : lo.value &&& 0x3FF = lo.value - 0xDC00 := by
    rw [Nat.and_two_pow_sub_one_eq_mod lo.value 10]
    omega
  rw [hhi, hlo, ← Nat.shiftLeft_add_eq_or_of_lt (by omega), Nat.shiftLeft_eq, Nat.add_assoc]

/-! ## What is read -/

theorem escapes_cons (u : CodeUnit) (us : List CodeUnit) (t : Bytes) :
    escapes (u :: us) ++ t = 92 :: 117 :: (u.digits ++ (escapes us ++ t)) := by
  simp [escapes]

theorem escape_u : escape 117 = none := by decide

/-- A unit that is no surrogate. -/
theorem stringLoop_unit {u : CodeUnit} (hh : ¬ u.IsHigh) (hl : ¬ u.IsLow) (fuel : Nat) (t output : Bytes) :
    stringLoop (fuel + 1) (92 :: 117 :: (u.digits ++ t)) output = stringLoop fuel t (output ++ encodeUtf8 u.value) := by
  have hnot : ¬ (0xD800 ≤ parseHex4 u.digits ∧ parseHex4 u.digits ≤ 0xDFFF) := by
    rw [u.parseHex4_digits]
    unfold CodeUnit.IsHigh at hh
    unfold CodeUnit.IsLow at hl
    omega
  simp [stringLoop, escape_u, utf16_unicode u.four hnot, u.parseHex4_digits, bind, Except.bind]

/-- A high surrogate and a low one. -/
theorem stringLoop_pair {hi lo : CodeUnit} (hh : hi.IsHigh) (hl : lo.IsLow) (fuel : Nat) (t output : Bytes) :
    stringLoop (fuel + 1) (92 :: 117 :: (hi.digits ++ 92 :: 117 :: (lo.digits ++ t))) output =
      stringLoop fuel t (output ++ encodeUtf8 (0x10000 + (hi.value - 0xD800) * 0x400 + (lo.value - 0xDC00))) := by
  have hread := utf16_surrogates hi.four (hi.parseHex4_digits ▸ hh.1) (hi.parseHex4_digits ▸ hh.2) lo.four
    (lo.parseHex4_digits ▸ hl.1) (lo.parseHex4_digits ▸ hl.2) t
  rw [hi.parseHex4_digits, lo.parseHex4_digits, surrogates_value hh hl] at hread
  simp [stringLoop, escape_u, hread, bind, Except.bind]

/-- A low surrogate where a character begins. -/
theorem stringLoop_low {u : CodeUnit} (hl : u.IsLow) (fuel : Nat) (t output : Bytes) :
    stringLoop (fuel + 1) (92 :: 117 :: (u.digits ++ t)) output = .ok none := by
  have hread : utf16LiteralToUtf8 (92 :: 117 :: (u.digits ++ t)) = .ok none := by
    have htake : (u.digits ++ t).take 4 = u.digits := by rw [← u.four, List.take_left]
    have hlow : 0xDC00 ≤ parseHex4 u.digits ∧ parseHex4 u.digits ≤ 0xDFFF := by
      rw [u.parseHex4_digits]
      exact hl
    simp [utf16LiteralToUtf8, htake, hlow, u.four]
  simp [stringLoop, escape_u, hread, bind, Except.bind]

/-- A high surrogate behind which no low one is written. -/
theorem stringLoop_high {u : CodeUnit} (hh : u.IsHigh) (fuel : Nat) {t : Bytes} (output : Bytes)
    (hnext : t.take 2 = lit "\\u" → parseHex4 ((t.drop 2).take 4) < 0xDC00 ∨ 0xDFFF < parseHex4 ((t.drop 2).take 4)) :
    stringLoop (fuel + 1) (92 :: 117 :: (u.digits ++ t)) output = .ok none := by
  have hread : utf16LiteralToUtf8 (92 :: 117 :: (u.digits ++ t)) = .ok none := by
    have htake : (u.digits ++ t).take 4 = u.digits := by rw [← u.four, List.take_left]
    have hdrop : (u.digits ++ t).drop 4 = t := by rw [← u.four, List.drop_left]
    obtain ⟨h1, h2⟩ := hh
    rw [← u.parseHex4_digits] at h1 h2
    have hlow : ¬ (0xDC00 ≤ parseHex4 u.digits ∧ parseHex4 u.digits ≤ 0xDFFF) := by omega
    simp only [utf16LiteralToUtf8, List.length_cons, List.length_append, List.drop_succ_cons, List.drop_zero, htake,
      hdrop, u.four]
    rw [if_neg (by omega), if_neg (by omega), if_neg hlow, if_pos ⟨h1, h2⟩]
    by_cases hcut : t.length < 6 ∨ t.take 2 ≠ lit "\\u"
    · rw [if_pos hcut]
    · rw [if_neg hcut, if_pos (hnext (not_not.mp (not_or.mp hcut).2))]
  simp [stringLoop, escape_u, hread, bind, Except.bind]

/-- Units that spell characters are read as their UTF-8. -/
theorem stringLoop_spelled {cs : List Char} {us : List CodeUnit} (h : Spells cs us) (rest : Bytes) :
    ∀ (fuel : Nat) (output : Bytes), us.length < fuel →
      stringLoop fuel (escapes us ++ 34 :: rest) output =
        .ok (some (output ++ cs.flatMap String.utf8EncodeChar, rest)) := by
  induction h with
  | nil =>
    intro fuel output hf
    obtain ⟨n, rfl⟩ := Nat.exists_eq_add_one_of_ne_zero (Nat.ne_of_gt hf)
    simp [escapes, stringLoop]
  | @unit c cs u us hc _ ih =>
    intro fuel output hf
    rw [List.length_cons] at hf
    obtain ⟨n, rfl⟩ := Nat.exists_eq_add_one_of_ne_zero (show fuel ≠ 0 by omega)
    obtain ⟨hh, hl⟩ := not_surrogate hc
    rw [escapes_cons, stringLoop_unit hh hl, ih n _ (by omega), ← hc, encodeUtf8_char, List.flatMap_cons,
      List.append_assoc]
  | @pair c cs hi lo us hh hl hc _ ih =>
    intro fuel output hf
    rw [List.length_cons, List.length_cons] at hf
    obtain ⟨n, rfl⟩ := Nat.exists_eq_add_one_of_ne_zero (show fuel ≠ 0 by omega)
    rw [escapes_cons, escapes_cons, stringLoop_pair hh hl, ih n _ (by omega), ← hc, encodeUtf8_char, List.flatMap_cons,
      List.append_assoc]

/-! ## A surrogate alone -/

theorem lone_nil : ¬ Lone [] := by
  intro h
  obtain ⟨i, u, hu, -⟩ := h
  cases hu

/-- A unit that is no surrogate says nothing of the others. -/
theorem lone_unit_iff {u : CodeUnit} {us : List CodeUnit} (hh : ¬ u.IsHigh) (hl : ¬ u.IsLow) :
    Lone (u :: us) ↔ Lone us := by
  constructor
  · intro h
    obtain ⟨i, v, hv, hlone⟩ := h
    cases i with
    | zero =>
      cases hv
      exact absurd hlone (by tauto)
    | succ i =>
      refine ⟨i, v, hv, hlone.imp (fun h => ⟨h.1, fun w hi hw => ?_⟩) id⟩
      obtain ⟨k, rfl⟩ := Nat.exists_eq_add_one_of_ne_zero hi
      exact h.2 w (by omega) hw
  · intro h
    obtain ⟨i, v, hv, hlone⟩ := h
    refine ⟨i + 1, v, hv, hlone.imp (fun h => ⟨h.1, fun w _ hw => ?_⟩) id⟩
    cases i with
    | zero =>
      cases hw
      exact hh
    | succ i => exact h.2 w (by omega) hw

theorem CodeUnit.IsHigh.not_low {u : CodeUnit} (h : u.IsHigh) : ¬ u.IsLow := by
  intro hl
  have h1 := h.2
  have h2 := hl.1
  omega

/-- A pair says nothing of the others. -/
theorem lone_pair_iff {hi lo : CodeUnit} {us : List CodeUnit} (hh : hi.IsHigh) (hl : lo.IsLow) :
    Lone (hi :: lo :: us) ↔ Lone us := by
  have hlo : ¬ lo.IsHigh := fun h => h.not_low hl
  constructor
  · intro h
    obtain ⟨i, v, hv, hlone⟩ := h
    match i with
    | 0 =>
      cases hv
      rcases hlone with hlow | hhigh
      · exact absurd hlow.1 hh.not_low
      · exact absurd hl (hhigh.2 lo rfl)
    | 1 =>
      cases hv
      rcases hlone with hlow | hhigh
      · exact absurd hh (hlow.2 hi (by decide) rfl)
      · exact absurd hhigh.1 hlo
    | i + 2 =>
      refine ⟨i, v, hv, hlone.imp (fun h => ⟨h.1, fun w hi hw => ?_⟩) id⟩
      obtain ⟨k, rfl⟩ := Nat.exists_eq_add_one_of_ne_zero hi
      exact h.2 w (by omega) hw
  · intro h
    obtain ⟨i, v, hv, hlone⟩ := h
    refine ⟨i + 2, v, hv, hlone.imp (fun h => ⟨h.1, fun w _ hw => ?_⟩) id⟩
    cases i with
    | zero =>
      cases hw
      exact hlo
    | succ i => exact h.2 w (by omega) hw

/-- What stands behind a high surrogate that no low one follows. -/
theorem behind_high {us : List CodeUnit} (hnext : ∀ v, us[0]? = some v → ¬ v.IsLow) (rest : Bytes)
    (htake : (escapes us ++ 34 :: rest).take 2 = lit "\\u") :
    parseHex4 (((escapes us ++ 34 :: rest).drop 2).take 4) < 0xDC00 ∨
      0xDFFF < parseHex4 (((escapes us ++ 34 :: rest).drop 2).take 4) := by
  have hquote : lit "\\u" = [92, 117] := by decide
  cases us with
  | nil =>
    rw [hquote] at htake
    simp [escapes] at htake
  | cons v us =>
    have hv := hnext v rfl
    have hdigits : ((escapes (v :: us) ++ 34 :: rest).drop 2).take 4 = v.digits := by
      rw [escapes_cons, List.drop_succ_cons, List.drop_succ_cons, List.drop_zero, ← v.four, List.take_left]
    rw [hdigits, v.parseHex4_digits]
    unfold CodeUnit.IsLow at hv
    omega

/-- Units with a lone surrogate are refused where it stands. -/
theorem stringLoop_lone (rest : Bytes) : ∀ (fuel : Nat) (us : List CodeUnit) (output : Bytes), us.length < fuel →
    Lone us → stringLoop fuel (escapes us ++ 34 :: rest) output = .ok none := by
  intro fuel
  induction fuel with
  | zero =>
    intro us _ hf
    omega
  | succ fuel ih =>
    intro us output hf hlone
    cases us with
    | nil => exact absurd hlone lone_nil
    | cons u us =>
      rw [List.length_cons] at hf
      rw [escapes_cons]
      by_cases hl : u.IsLow
      · exact stringLoop_low hl fuel _ output
      · by_cases hh : u.IsHigh
        · by_cases hnext : ∀ v, us[0]? = some v → ¬ v.IsLow
          · exact stringLoop_high hh fuel output (behind_high hnext rest)
          · push Not at hnext
            obtain ⟨lo, hlo, hlow⟩ := hnext
            cases us with
            | nil => cases hlo
            | cons v us =>
              cases hlo
              rw [List.length_cons] at hf
              rw [escapes_cons, stringLoop_pair hh hlow]
              exact ih us _ (by omega) ((lone_pair_iff hh hlow).mp hlone)
        · rw [stringLoop_unit hh hl]
          exact ih us _ (by omega) ((lone_unit_iff hh hl).mp hlone)

theorem value_lt (u : CodeUnit) : u.value < 0x10000 := by
  have hdigit : ∀ c : UInt8, isxdigit c = true → (hex2dec c).toNat < 16 := forall_byte (by decide +kernel)
  obtain ⟨ds, hfour, hhex⟩ := u
  rw [List.all_eq_true] at hhex
  match ds, hfour with
  | [a, b, c, d], _ =>
    have ha := hdigit a (hhex a (by simp))
    have hb := hdigit b (hhex b (by simp))
    have hc := hdigit c (hhex c (by simp))
    have hd := hdigit d (hhex d (by simp))
    simp only [CodeUnit.value, hexValue, List.foldl_cons, List.foldl_nil]
    omega

/-- A code point that is no surrogate. -/
theorem exists_char {n : Nat} (h : n < 0xD800 ∨ 0xDFFF < n ∧ n < 0x110000) : ∃ c : Char, c.toNat = n := by
  exact ⟨Char.ofNatAux n h, rfl⟩

/-- Units spell characters, or a surrogate stands alone. -/
theorem spelled_or_lone : ∀ (n : Nat) (us : List CodeUnit), us.length ≤ n → (∃ cs, Spells cs us) ∨ Lone us := by
  intro n
  induction n with
  | zero =>
    intro us hn
    rw [List.length_eq_zero_iff.mp (Nat.le_zero.mp hn)]
    exact .inl ⟨[], .nil⟩
  | succ n ih =>
    intro us hn
    cases us with
    | nil => exact .inl ⟨[], .nil⟩
    | cons u us =>
      rw [List.length_cons] at hn
      have hmax := value_lt u
      by_cases hl : u.IsLow
      · exact .inr ⟨0, u, rfl, .inl ⟨hl, fun _ h => absurd rfl h⟩⟩
      · by_cases hh : u.IsHigh
        · by_cases hnext : ∀ v, us[0]? = some v → ¬ v.IsLow
          · exact .inr ⟨0, u, rfl, .inr ⟨hh, hnext⟩⟩
          · push Not at hnext
            obtain ⟨lo, hlo, hlow⟩ := hnext
            cases us with
            | nil => cases hlo
            | cons v us =>
              cases hlo
              rw [List.length_cons] at hn
              have hscalar : 0xDFFF < 0x10000 + (u.value - 0xD800) * 0x400 + (lo.value - 0xDC00) ∧
                  0x10000 + (u.value - 0xD800) * 0x400 + (lo.value - 0xDC00) < 0x110000 := by
                have hhigh := hh.2
                have hhlow := hlow.2
                omega
              obtain ⟨c, hc⟩ := exists_char (.inr hscalar)
              refine (ih us (by omega)).imp (fun h => ?_) (lone_pair_iff hh hlow).mpr
              obtain ⟨cs, hcs⟩ := h
              exact ⟨c :: cs, .pair hh hlow hc hcs⟩
        · have hscalar : u.value < 0xD800 ∨ 0xDFFF < u.value ∧ u.value < 0x110000 := by
            unfold CodeUnit.IsHigh at hh
            unfold CodeUnit.IsLow at hl
            omega
          obtain ⟨c, hc⟩ := exists_char hscalar
          refine (ih us (by omega)).imp (fun h => ?_) (lone_unit_iff hh hl).mpr
          obtain ⟨cs, hcs⟩ := h
          exact ⟨c :: cs, .unit hc hcs⟩

/-! ## `parse_string` -/

theorem length_escapes (us : List CodeUnit) : us.length ≤ (escapes us).length := by
  induction us with
  | nil => exact Nat.zero_le _
  | cons u us ih =>
    have h := congrArg List.length (escapes_cons u us [])
    rw [List.append_nil, List.append_nil, List.length_cons, List.length_cons, List.length_append] at h
    rw [List.length_cons]
    omega

theorem parseString_quoted (us : List CodeUnit) (rest : Bytes) :
    ∃ fuel, us.length < fuel ∧
      parseString (34 :: (escapes us ++ 34 :: rest)) = stringLoop fuel (escapes us ++ 34 :: rest) [] := by
  refine ⟨(34 :: (escapes us ++ 34 :: rest)).length + 1, ?_, ?_⟩
  · have hlen := length_escapes us
    rw [List.length_cons, List.length_append]
    omega
  · simp [parseString, charAt, bind, Except.bind]

/-- Units that spell characters are read as the UTF-8 of the characters, and nothing else is
    read; units with a lone surrogate are refused. -/
theorem parseString_unicode (us : List CodeUnit) (rest : Bytes) :
    (∀ cs, Spells cs us →
      parseString (34 :: (escapes us ++ 34 :: rest)) = .ok (some (cs.flatMap String.utf8EncodeChar, rest))) ∧
    (Lone us → parseString (34 :: (escapes us ++ 34 :: rest)) = .ok none) := by
  obtain ⟨fuel, hfuel, hparse⟩ := parseString_quoted us rest
  rw [hparse]
  refine ⟨fun cs hs => ?_, stringLoop_lone rest fuel us [] hfuel⟩
  rw [stringLoop_spelled hs rest fuel [] hfuel, List.nil_append]

/-- `\u20aC`, and two surrogates the wrong way round. -/
theorem parseString_unicode_euro : parseString (lit "\"\\u20aC\",1") = .ok (some ([0xE2, 0x82, 0xAC], lit ",1")) ∧
    parseString (lit "\"\\udc00\\uD800\"") = .ok none := by
  let u : CodeUnit := ⟨lit "20aC", rfl, rfl⟩
  let lo : CodeUnit := ⟨lit "dc00", rfl, rfl⟩
  let hi : CodeUnit := ⟨lit "D800", rfl, rfl⟩
  refine ⟨(parseString_unicode [u] (lit ",1")).1 ['€'] (.unit (by decide) .nil), ?_⟩
  exact (parseString_unicode [lo, hi] []).2 ⟨0, lo, rfl, .inl ⟨⟨by decide, by decide⟩, fun _ h => absurd rfl h⟩⟩

end HahaWeb.Json
