/-
  HahaWeb.Base.HexNumber — the hexadecimal numbers of `base/util.cpp` against the
  positional value of their digits.

  The comments of `hexString2Int` speak of a hexadecimal string, its loop multiplies by ten.
  So a number of more than one significant digit is misread: the base-sixteen value comes
  back exactly for the numbers below sixteen. A number above `INT_MAX` is never refused: the
  base-ten sum of its digits fits, and is what comes back, or it overflows, which is undefined
  for an `int`; the test for a negative sum is too late, and an optimiser takes it away. A
  byte that is no digit is refused when the sum of the digits in front of it fits
  (`hexString2Int_eq_hexInt_iff`). The writer divides by ten as well: it is read back, but
  only the numbers from one to nine are written as hexadecimal numerals
  (`numeral_int2HexString_iff`).
-/

import HahaWeb.Base.Util

namespace HahaWeb

/-! ## Digits and their positions -/

/-- The value of a hexadecimal digit of either case. -/
def digitValue (c : UInt8) : Nat := if isdigit c then c.toNat - 48 else if 97 ≤ c then c.toNat - 87 else c.toNat - 55

/-- The number a string of digits stands for to the base `b`. -/
def positional (b : Nat) (s : Bytes) : Nat := Nat.ofDigits b (s.reverse.map digitValue)

theorem positional_snoc (b : Nat) (s : Bytes) (c : UInt8) :
    positional b (s ++ [c]) = positional b s * b + digitValue c := by
  rw [positional, List.reverse_append, List.reverse_singleton, List.singleton_append, List.map_cons, Nat.ofDigits_cons,
    ← positional]
  ring

theorem positional_append_le {b : Nat} (hb : 0 < b) (p q : Bytes) : positional b p ≤ positional b (p ++ q) := by
  unfold positional
  rw [List.reverse_append, List.map_append, Nat.ofDigits_append]
  calc Nat.ofDigits b (p.reverse.map digitValue)
      ≤ b ^ (q.reverse.map digitValue).length * Nat.ofDigits b (p.reverse.map digitValue) :=
        Nat.le_mul_of_pos_left _ (by positivity)
    _ ≤ _ := Nat.le_add_left _ _

theorem positional_le (s : Bytes) : positional 10 s ≤ positional 16 s := Nat.ofDigits_monotone _ (by omega)

theorem digitValue_le (c : UInt8) : isxdigit c = true → digitValue c ≤ 15 ∧ (hex2dec c).toNat = digitValue c := by
  revert c
  exact forall_byte (by decide +kernel)

/-- The two bases agree on what is zero, and below sixteen. -/
theorem positional_eq_iff {s : Bytes} (hs : ∀ c ∈ s, isxdigit c = true) :
    positional 10 s = positional 16 s ↔ positional 16 s < 16 := by
  induction s using List.reverseRecOn with
  | nil => simp [positional]
  | append_singleton s c _ =>
    have hc : digitValue c ≤ 15 := (digitValue_le c (hs c (by simp))).1
    have hle := positional_le s
    rw [positional_snoc, positional_snoc]
    omega

/-! ## The reader -/

/-- What a hexadecimal string stands for in an `int`, `-1` when there is no such number. -/
def hexInt (s : Bytes) : Int :=
  if s.all isxdigit = true ∧ positional 16 s < 2 ^ 31 then positional 16 s else -1

/-- The loop behind the digits of `p`: it goes to the first byte that is no digit, unless the
    sum overflows before. -/
theorem hexLoop_spec (s : Bytes) : ∀ {p : Bytes}, positional 10 p < 2 ^ 31 →
    hexLoop s (positional 10 p : Nat) =
      if 2 ^ 31 ≤ positional 10 (p ++ s.takeWhile isxdigit) then .error .overflow
      else if s.all isxdigit = true then .ok ((positional 10 (p ++ s) : Nat) : Int) else .ok (-1) := by
  induction s with
  | nil =>
    intro p hp
    rw [List.takeWhile_nil, List.append_nil, if_neg (by omega)]
    rfl
  | cons c s ih =>
    intro p hp
    rw [hexLoop]
    by_cases hc : isxdigit c = true
    · have hnext : ((positional 10 p : Nat) : Int) * 10 + (hex2dec c).toNat = (positional 10 (p ++ [c]) : Nat) := by
        rw [positional_snoc, (digitValue_le c hc).2]
        push_cast
        rfl
      simp only [hc, Bool.not_true, Bool.false_eq_true, if_false, hnext, List.takeWhile_cons_of_pos hc, List.all_cons,
        Bool.true_and]
      rw [List.append_cons p c (s.takeWhile isxdigit), List.append_cons p c s]
      by_cases hover : 2 ^ 31 ≤ positional 10 (p ++ [c])
      · have hle := positional_append_le (b := 10) (by omega) (p ++ [c]) (s.takeWhile isxdigit)
        rw [if_pos (by exact_mod_cast hover), if_pos (hover.trans hle)]
      · rw [if_neg (by exact_mod_cast hover), if_neg (by omega)]
        exact ih (not_le.mp hover)
    · rw [List.takeWhile_cons_of_neg hc, List.append_nil, if_neg (not_le.mpr hp)]
      simp [hc]

theorem hexString2Int_eq (s : Bytes) : hexString2Int s =
    if 2 ^ 31 ≤ positional 10 (s.takeWhile isxdigit) then .error .overflow
    else if s.all isxdigit = true then .ok ((positional 10 s : Nat) : Int) else .ok (-1) :=
  hexLoop_spec s (p := []) (by decide)

/-- When what comes back is what the claim of the comments is about: the base-sixteen value, or
    the refusal. -/
theorem hexString2Int_eq_hexInt_iff (s : Bytes) :
    hexString2Int s = .ok (hexInt s) ↔
      (∃ c ∈ s, isxdigit c = false) ∧ positional 10 (s.takeWhile isxdigit) < 2 ^ 31 ∨
        (∀ c ∈ s, isxdigit c = true) ∧ positional 16 s < 16 := by
  rw [hexString2Int_eq]
  by_cases hs : ∀ c ∈ s, isxdigit c = true
  · have hno : ¬ ∃ c ∈ s, isxdigit c = false := by
      intro h
      obtain ⟨c, hc, hx⟩ := h
      rw [hs c hc] at hx
      cases hx
    have hle := positional_le s
    have hiff := positional_eq_iff hs
    rw [List.takeWhile_eq_self_iff.mpr hs, if_pos (List.all_eq_true.mpr hs)]
    simp only [hno, false_and, false_or, and_iff_right hs]
    by_cases hover : 2 ^ 31 ≤ positional 10 s
    · rw [if_pos hover]
      refine ⟨fun h => ?_, fun h => by omega⟩
      cases h
    · rw [if_neg hover, Except.ok.injEq, hexInt]
      by_cases hlt : positional 16 s < 2 ^ 31
      · rw [if_pos ⟨List.all_eq_true.mpr hs, hlt⟩, Nat.cast_inj, hiff]
      · rw [if_neg fun h => hlt h.2]
        omega
  · have hno : ∃ c ∈ s, isxdigit c = false := by simpa using hs
    have hall : s.all isxdigit ≠ true := fun h => hs (List.all_eq_true.mp h)
    have hint : hexInt s = -1 := if_neg fun h => hall h.1
    rw [if_neg hall, hint]
    simp only [hno, true_and, hs, false_and, or_false]
    by_cases hover : 2 ^ 31 ≤ positional 10 (s.takeWhile isxdigit)
    · rw [if_pos hover]
      refine ⟨fun h => ?_, fun h => absurd h (not_lt.mpr hover)⟩
      cases h
    · rw [if_neg hover]
      exact ⟨fun _ => not_le.mp hover, fun _ => rfl⟩

/-! ## The writer -/

/-- A hexadecimal numeral of `n`, in either case: no zero in front but the zero itself. -/
structure Numeral16 (n : Nat) (s : Bytes) : Prop where
  ne_nil : s ≠ []
  digits : ∀ c ∈ s, isxdigit c = true
  lead : s.head? = some 48 → s = [48]
  value : positional 16 s = n

theorem digitValue_dec2hex {d : Nat} (h : d < 10) : digitValue (dec2hex (UInt8.ofNat d)) = d := by
  obtain ⟨hx, hd⟩ := dec2hex_digit h
  rw [← (digitValue_le _ hx).2, hd]

/-- The writer's string, read to any base. -/
theorem positional_int2HexString (b n : Nat) : positional b (int2HexString n) = Nat.ofDigits b (Nat.digits 10 n) := by
  unfold positional int2HexString
  rw [List.reverse_reverse, List.map_map]
  congr 1
  calc (Nat.digits 10 n).map (digitValue ∘ fun d => dec2hex (UInt8.ofNat d))
      = (Nat.digits 10 n).map id :=
        List.map_congr_left fun d hd => digitValue_dec2hex (Nat.digits_lt_base (by omega) hd)
    _ = Nat.digits 10 n := List.map_id _

theorem isxdigit_int2HexString {n : Nat} {c : UInt8} (h : c ∈ int2HexString n) : isxdigit c = true := by
  obtain ⟨d, hd, rfl⟩ := List.mem_map.mp (List.mem_reverse.mp h)
  exact (dec2hex_digit (Nat.digits_lt_base (by omega) hd)).1

theorem numeral_int2HexString_iff (n : Nat) : Numeral16 n (int2HexString n) ↔ 1 ≤ n ∧ n ≤ 9 := by
  constructor
  · intro h
    have hpos : n ≠ 0 := fun h0 => h.ne_nil (by simp [h0, int2HexString])
    have hten : positional 10 (int2HexString n) = n := by rw [positional_int2HexString, Nat.ofDigits_digits]
    have hsmall : positional 16 (int2HexString n) < 16 := by
      rw [← positional_eq_iff fun c hc => isxdigit_int2HexString hc, hten, h.value]
    have hlt : n < 16 := by rwa [h.value] at hsmall
    refine ⟨by omega, not_lt.mp fun hbig => ?_⟩
    -- two digits: the value to the base sixteen is six too large
    have hval := h.value
    rw [positional_int2HexString] at hval
    interval_cases n <;> simp [Nat.ofDigits_cons] at hval
  · intro h
    obtain ⟨h1, h9⟩ := h
    have hdig : Nat.digits 10 n = [n] := Nat.digits_of_lt 10 n (by omega) (by omega)
    have hstr : int2HexString n = [dec2hex (UInt8.ofNat n)] := by rw [int2HexString, hdig]; rfl
    refine ⟨by simp [hstr], fun c hc => isxdigit_int2HexString hc, fun h0 => ?_, ?_⟩
    · rw [hstr] at h0 ⊢
      rw [← Option.some.inj h0]
    · rw [positional_int2HexString, hdig, Nat.ofDigits_singleton]

/-! ## Reader and writer -/

/-- The strings the reader reads, and the numbers the writer writes, to the base sixteen. -/
theorem hexNumbers_iff (s : Bytes) (n : Nat) (hn : n < 2 ^ 31) :
    (hexString2Int s = .ok (hexInt s) ↔
      (∃ c ∈ s, isxdigit c = false) ∧ positional 10 (s.takeWhile isxdigit) < 2 ^ 31 ∨
        (∀ c ∈ s, isxdigit c = true) ∧ positional 16 s < 16) ∧
    (hexString2Int (int2HexString n) = .ok (n : Int) ∧ Numeral16 n (int2HexString n) ↔ 1 ≤ n ∧ n ≤ 9) := by
  refine ⟨hexString2Int_eq_hexInt_iff s, ?_⟩
  rw [numeral_int2HexString_iff]
  exact ⟨fun h => h.2, fun h => ⟨hexString2Int_int2HexString hn, h⟩⟩

theorem hexNumbers_F_seven :
    7 < 2 ^ 31 ∧ hexString2Int (lit "F") = .ok (hexInt (lit "F")) ∧ Numeral16 7 (int2HexString 7) :=
  ⟨by decide, (hexNumbers_iff (lit "F") 7 (by decide)).1.mpr (.inr ⟨by decide +kernel, by decide +kernel⟩),
    ((hexNumbers_iff (lit "F") 7 (by decide)).2.mpr (by decide)).2⟩

/-- `1A` is read as twenty. -/
theorem hexString2Int_1A : hexString2Int (lit "1A") = .ok 20 ∧ hexInt (lit "1A") = 26 := by decide +kernel

end HahaWeb
