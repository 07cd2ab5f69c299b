/-
  HahaWeb.Base.Util — `base/util.cpp` (case folding, hexadecimal numbers) and what the
  sources use of `<cctype>` and `<string>`'s numeric conversions, in the C locale.

  `hexString2Int` multiplies by ten per digit, as the source does; where its sum leaves the
  range of `int` it has no defined result, and the test of the sign behind it may be gone.
  Proved: five digits never get there (`hexString2Int_short`), it reads what `int2HexString`
  writes (`hexString2Int_int2HexString`), and `stoul` a number below 2^64 written in decimal
  (`stoul_decimal`); the texts that `stoul` and `stoi` take are those with a number that fits
  (`stoul_ok_iff`, `stoi_ok_iff`).
-/

import HahaWeb.Base.Bytes
import Mathlib.Data.List.TakeWhile
import Mathlib.Data.Nat.Digits.Lemmas

namespace HahaWeb

/-! ## `<cctype>` -/

def isdigit (c : UInt8) : Bool := 48 ≤ c && c ≤ 57
def isupper (c : UInt8) : Bool := 65 ≤ c && c ≤ 90
def tolower (c : UInt8) : UInt8 := if isupper c then c + 32 else c
def isspace (c : UInt8) : Bool := c == 32 || (9 ≤ c && c ≤ 13)
def isxdigit (c : UInt8) : Bool := isdigit c || (97 ≤ c && c ≤ 102) || (65 ≤ c && c ≤ 70)

/-! ## `base/util.cpp` -/

def toLowers (s : Bytes) : Bytes := s.map tolower

def hex2dec (c : UInt8) : UInt8 :=
  if isdigit c then c - 48
  else if 97 ≤ c && c ≤ 122 then c - 97 + 10
  else if isupper c then c - 65 + 10
  else c

/-- A value stored in an `int`. -/
def toInt (x : Int) : Int := x.bmod (2 ^ 32)

/-- A descriptor: an `int` that is not negative. -/
abbrev Fd := Fin (2 ^ 31)

/-- `a - b` of two `size_t`. -/
def sizeSub (a b : Nat) : Nat := (a + 2 ^ 64 - b) % 2 ^ 64

theorem sizeSub_of_le {a b : Nat} (h : b ≤ a) (ha : a < 2 ^ 64) : sizeSub a b = a - b := by
  unfold sizeSub
  omega

/-- The loop of `hexString2Int`, `res` the number so far. -/
def hexLoop : Bytes → Int → Except Fault Int
  | [], res => .ok res
  | c :: s, res =>
    if !isxdigit c then .ok (-1)
    else
      let res := res * 10 + (hex2dec c).toNat
      if 2 ^ 31 ≤ res then .error .overflow
      else if res < 0 then .ok (-1) else hexLoop s res

def hexString2Int (hexStr : Bytes) : Except Fault Int := hexLoop hexStr 0

/-- The number of a size line, which is too short for an overflow. -/
def hexSize (hexStr : Bytes) : Int := (hexString2Int hexStr).toOption.getD (-1)

def dec2hex (c : UInt8) : UInt8 :=
  if c ≤ 9 then c + 48
  else if 10 ≤ c && c ≤ 15 then c - 10 + 65
  else c

/-- `int2HexString` of a number that is not negative: its digits to the base ten. -/
def int2HexString (dec : Nat) : Bytes := ((Nat.digits 10 dec).map fun d => dec2hex (UInt8.ofNat d)).reverse

/-! ## Numeric conversions of `<string>` -/

def decimalValue (ds : Bytes) : Nat := ds.foldl (fun n c => n * 10 + (c.toNat - 48)) 0

/-- What `strtol` reads in base ten: blanks, a sign, digits; `none` without a digit. -/
def readDecimal (s : Bytes) : Option (Bool × Nat) :=
  let s := s.dropWhile isspace
  let neg := s.head? == some 45
  let s := if neg || s.head? == some 43 then s.drop 1 else s
  let ds := s.takeWhile isdigit
  if ds.isEmpty then none else some (neg, decimalValue ds)

def stoul (s : Bytes) : Except Fault Nat :=
  match readDecimal s with
  | none => .error .invalidArgument
  | some (neg, n) =>
    if n < 2 ^ 64 then .ok (if neg then (2 ^ 64 - n) % 2 ^ 64 else n) else .error .stdOutOfRange

def stoi (s : Bytes) : Except Fault Int :=
  match readDecimal s with
  | none => .error .invalidArgument
  | some (neg, n) =>
    let x : Int := if neg then -n else n
    if -2 ^ 31 ≤ x ∧ x < 2 ^ 31 then .ok x else .error .stdOutOfRange

/-- `std::to_string` of an unsigned number. -/
def decimal (n : Nat) : Bytes :=
  if n = 0 then [48] else (Nat.digits 10 n).reverse.map fun d => UInt8.ofNat (48 + d)

theorem toInt_le (n : Nat) : toInt n ≤ n := by
  unfold toInt
  rw [Int.bmod_def]
  split <;> omega

theorem toInt_of_lt {n : Nat} (h : n < 2 ^ 31) : toInt n = n := by
  unfold toInt
  rw [Int.bmod_def]
  split <;> omega

theorem hex2dec_le (c : UInt8) : isxdigit c = true → (hex2dec c).toNat ≤ 15 := by
  revert c; exact forall_byte (by decide +kernel)

/-- What the loop comes to: the number so far bounds what it can return, and a string that is
    short for it has no overflow. -/
theorem hexLoop_cases : ∀ (s : Bytes) (res : Nat),
    hexLoop s res = .error .overflow ∧ 2 ^ 31 < (res + 2) * 10 ^ s.length ∨ hexLoop s res = .ok (-1) ∨
      ∃ m : Nat, hexLoop s res = .ok (m : Int) ∧ m ≤ (res + 2) * 10 ^ s.length := by
  intro s
  induction s with
  | nil => exact fun res => .inr (.inr ⟨res, rfl, by simp⟩)
  | cons c s ih =>
    intro res
    rw [hexLoop]
    by_cases hx : isxdigit c = true
    · have hd := hex2dec_le c hx
      have hnext : (res : Int) * 10 + (hex2dec c).toNat = ((res * 10 + (hex2dec c).toNat : Nat) : Int) := by
        push_cast
        rfl
      simp only [hx, Bool.not_true, Bool.false_eq_true, if_false, hnext]
      generalize hm : res * 10 + (hex2dec c).toNat = m
      have hgrow : (m + 2) * 10 ^ s.length ≤ (res + 2) * 10 ^ (c :: s).length := by
        calc (m + 2) * 10 ^ s.length ≤ (res + 2) * 10 * 10 ^ s.length := by
              gcongr
              omega
          _ = (res + 2) * 10 ^ (c :: s).length := by rw [List.length_cons, pow_succ]; ring
      by_cases hover : 2 ^ 31 ≤ (m : Int)
      · have hpos : m + 2 ≤ (m + 2) * 10 ^ s.length := Nat.le_mul_of_pos_right _ (by positivity)
        rw [if_pos hover]
        exact .inl ⟨rfl, by omega⟩
      · rw [if_neg hover, if_neg (by omega)]
        rcases ih m with ⟨h, hlt⟩ | h | ⟨k, h, hle⟩
        · exact .inl ⟨h, by omega⟩
        · exact .inr (.inl h)
        · exact .inr (.inr ⟨k, h, by omega⟩)
    · simp [hx]

/-- No size line overflows. -/
theorem hexString2Int_short {s : Bytes} (h : s.length ≤ 5) : hexString2Int s = .ok (hexSize s) := by
  have hpow : 10 ^ s.length ≤ 10 ^ 5 := Nat.pow_le_pow_right (by omega) h
  rw [hexSize]
  rcases hexLoop_cases s 0 with ⟨-, hlt⟩ | he | ⟨m, he, -⟩
  · omega
  · rw [hexString2Int, Nat.cast_zero.symm, he]
    rfl
  · rw [hexString2Int, Nat.cast_zero.symm, he]
    rfl

theorem hexSize_eq {s : Bytes} {n : Int} (h : hexString2Int s = .ok n) : hexSize s = n := by
  rw [hexSize, h]
  rfl

theorem hexSize_nonneg {s : Bytes} (h : hexSize s ≠ -1) : 0 ≤ hexSize s := by
  rcases hexLoop_cases s 0 with ⟨he, -⟩ | he | ⟨m, he, -⟩
  · exact absurd (by rw [hexSize, hexString2Int, Nat.cast_zero.symm, he]; rfl) h
  · exact absurd (hexSize_eq he) h
  · rw [hexSize_eq he]
    exact Int.natCast_nonneg m

theorem hexSize_le (s : Bytes) : hexSize s ≤ 2 * 10 ^ s.length := by
  have hpos : (0 : Int) ≤ 2 * 10 ^ s.length := by positivity
  by_cases h : hexSize s = -1
  · omega
  · rcases hexLoop_cases s 0 with ⟨he, -⟩ | he | ⟨m, he, hle⟩
    · exact absurd (by rw [hexSize, hexString2Int, Nat.cast_zero.symm, he]; rfl) h
    · exact absurd (hexSize_eq he) h
    · rw [hexSize_eq he]
      simp only [Nat.zero_add] at hle
      exact_mod_cast hle

theorem dec2hex_digit {d : Nat} (h : d < 10) :
    isxdigit (dec2hex (UInt8.ofNat d)) = true ∧ (hex2dec (dec2hex (UInt8.ofNat d))).toNat = d := by
  revert d; decide

theorem hexLoop_digits {l : List Nat} (hl : ∀ d ∈ l, d < 10) (hlt : Nat.ofDigits 10 l < 2 ^ 31) (s : Bytes) :
    hexLoop ((l.map fun d => dec2hex (UInt8.ofNat d)).reverse ++ s) 0 = hexLoop s (Nat.ofDigits 10 l : Nat) := by
  induction l generalizing s with
  | nil => rfl
  | cons d l ih =>
    rw [Nat.ofDigits_cons] at hlt ⊢
    obtain ⟨hx, hd⟩ := dec2hex_digit (hl d List.mem_cons_self)
    have hnext : (Nat.ofDigits 10 l : Nat) * 10 + (d : Nat) = ((d + 10 * Nat.ofDigits 10 l : Nat) : Int) := by
      push_cast
      omega
    have hfit : ¬(2 ^ 31 : Int) ≤ ((d + 10 * Nat.ofDigits 10 l : Nat) : Int) := by
      have hlt' : d + 10 * Nat.ofDigits 10 l < 2 ^ 31 := by simpa using hlt
      omega
    rw [List.map_cons, List.reverse_cons, List.append_assoc, List.singleton_append,
      ih (fun e he => hl e (List.mem_cons_of_mem _ he)) (by omega), hexLoop]
    simp only [hx, Bool.not_true, Bool.false_eq_true, if_false, hd, hnext]
    rw [if_neg hfit, if_neg (by omega)]

/-- A number as `int2HexString` writes it is read back. -/
theorem hexString2Int_int2HexString {n : Nat} (h : n < 2 ^ 31) : hexString2Int (int2HexString n) = .ok (n : Int) := by
  have hd := hexLoop_digits (l := Nat.digits 10 n) (fun d h => Nat.digits_lt_base (by omega) h)
    (by rwa [Nat.ofDigits_digits]) []
  rw [Nat.ofDigits_digits, List.append_nil] at hd
  exact hd

theorem stoul_lt {s : Bytes} {n : Nat} (h : stoul s = .ok n) : n < 2 ^ 64 := by
  unfold stoul at h
  split at h
  · cases h
  · split at h
    · cases h
      split <;> omega
    · cases h

theorem decimal_digits {n : Nat} {c : UInt8} (h : c ∈ decimal n) : ∃ d < 10, c = UInt8.ofNat (48 + d) := by
  unfold decimal at h
  split at h
  · simp only [List.mem_singleton] at h
    exact ⟨0, by omega, h⟩
  · obtain ⟨d, hd, rfl⟩ := List.mem_map.mp h
    exact ⟨d, Nat.digits_lt_base (by omega) (List.mem_reverse.mp hd), rfl⟩

theorem isdigit_ofNat {d : Nat} (h : d < 10) : isdigit (UInt8.ofNat (48 + d)) = true := by
  revert d; decide

theorem isdigit_decimal {n : Nat} {c : UInt8} (h : c ∈ decimal n) : isdigit c = true := by
  obtain ⟨d, hd, rfl⟩ := decimal_digits h
  exact isdigit_ofNat hd

theorem decimal_ne_nil (n : Nat) : decimal n ≠ [] := by
  unfold decimal
  split
  · simp
  · simpa using Nat.digits_ne_nil_iff_ne_zero.mpr ‹_›

theorem ne_of_isdigit {c d : UInt8} (hc : isdigit c = true) (hd : isdigit d = false) : c ≠ d :=
  ne_of_apply_ne isdigit (by rw [hc, hd]; decide)

theorem not_isspace_of_isdigit (c : UInt8) : isdigit c = true → isspace c = false ∧ c ≠ 43 ∧ c ≠ 45 := by
  revert c; exact forall_byte (by decide +kernel)

theorem decimalValue_decimal (n : Nat) : decimalValue (decimal n) = n := by
  unfold decimal decimalValue
  split
  · simp [*]
  · have step : ∀ l : List Nat, (∀ d ∈ l, d < 10) →
        (l.reverse.map fun d => UInt8.ofNat (48 + d)).foldl (fun n c => n * 10 + (c.toNat - 48)) 0 =
          Nat.ofDigits 10 l := by
      intro l hl
      induction l with
      | nil => rfl
      | cons d l ih =>
        have hd : d < 10 := hl d List.mem_cons_self
        have hd' : (UInt8.ofNat (48 + d)).toNat = 48 + d := by
          simp only [UInt8.toNat_ofNat']
          omega
        rw [List.reverse_cons, List.map_append, List.foldl_append, ih fun d h => hl d (List.mem_cons_of_mem _ h),
          Nat.ofDigits_cons]
        simp only [List.map_cons, List.map_nil, List.foldl_cons, List.foldl_nil, hd']
        omega
    rw [step _ fun d h => Nat.digits_lt_base (by omega) h, Nat.ofDigits_digits]

theorem readDecimal_of_digits {s : Bytes} (hs : ∀ c ∈ s, isdigit c = true) (hne : s ≠ []) :
    readDecimal s = some (false, decimalValue s) := by
  obtain ⟨c, t, rfl⟩ := List.exists_cons_of_ne_nil hne
  obtain ⟨h1, h2, h3⟩ := not_isspace_of_isdigit c (hs c List.mem_cons_self)
  have ht : (c :: t).takeWhile isdigit = c :: t := List.takeWhile_eq_self_iff.mpr hs
  simp [readDecimal, h1, h2, h3, ht]

theorem stoi_ok {s : Bytes} {n : Int} (h : stoi s = .ok n) :
    ∃ neg m, readDecimal s = some (neg, m) ∧ n = if neg then -(m : Int) else m := by
  unfold stoi at h
  cases hr : readDecimal s with
  | none => rw [hr] at h; cases h
  | some p =>
    obtain ⟨neg, m⟩ := p
    rw [hr] at h
    refine ⟨neg, m, rfl, ?_⟩
    simp only at h
    generalize (if neg = true then -(m : Int) else m) = x at h ⊢
    by_cases hx : -2 ^ 31 ≤ x ∧ x < 2 ^ 31
    · rw [if_pos hx] at h
      exact (Except.ok.inj h).symm
    · rw [if_neg hx] at h
      cases h

theorem decimalValue_lt {ds : Bytes} (h : ∀ c ∈ ds, isdigit c = true) : decimalValue ds < 10 ^ ds.length := by
  have step : ∀ (ds : Bytes) (n : Nat), (∀ c ∈ ds, isdigit c = true) →
      ds.foldl (fun n c => n * 10 + (c.toNat - 48)) n < (n + 1) * 10 ^ ds.length := by
    intro ds
    induction ds with
    | nil => simp
    | cons c ds ih =>
      intro n hds
      have hc : c.toNat - 48 < 10 := by
        have hdigit := hds c List.mem_cons_self
        simp only [isdigit, Bool.and_eq_true, decide_eq_true_eq, UInt8.le_iff_toNat_le] at hdigit
        have : c.toNat ≤ 57 := hdigit.2
        omega
      have htail := ih (n * 10 + (c.toNat - 48)) fun d hd => hds d (List.mem_cons_of_mem _ hd)
      calc ds.foldl (fun n c => n * 10 + (c.toNat - 48)) (n * 10 + (c.toNat - 48))
          < (n * 10 + (c.toNat - 48) + 1) * 10 ^ ds.length := htail
        _ ≤ ((n + 1) * 10) * 10 ^ ds.length := Nat.mul_le_mul_right _ (by omega)
        _ = (n + 1) * 10 ^ (c :: ds).length := by rw [List.length_cons, Nat.pow_succ']; ring
  have hall := step ds 0 h
  rw [Nat.zero_add, Nat.one_mul] at hall
  exact hall

theorem decimal_length_le {n k : Nat} (hk : 0 < k) (h : n < 10 ^ k) : (decimal n).length ≤ k := by
  unfold decimal
  split
  · exact hk
  · rw [List.length_map, List.length_reverse]
    exact (Nat.digits_length_le_iff (by omega) n).mpr h

theorem readDecimal_digits {s : Bytes} {neg : Bool} {n : Nat} (h : readDecimal s = some (neg, n)) :
    ∃ ds : Bytes, ds.Sublist s ∧ ds ≠ [] ∧ (∀ c ∈ ds, isdigit c = true) ∧ n = decimalValue ds := by
  unfold readDecimal at h
  simp only at h
  generalize hsign : (if (s.dropWhile isspace).head? == some 45 || (s.dropWhile isspace).head? == some 43 then
    (s.dropWhile isspace).drop 1 else s.dropWhile isspace) = t at h
  have ht : t.Sublist s := by
    rw [← hsign]
    split
    · exact (List.drop_sublist _ _).trans (List.dropWhile_sublist _)
    · exact List.dropWhile_sublist _
  split at h
  · cases h
  · cases h
    rename_i hne
    exact ⟨_, (List.takeWhile_sublist _).trans ht, by simpa using hne, fun c hc => List.mem_takeWhile_imp hc, rfl⟩

theorem stoul_decimal {n : Nat} (h : n < 2 ^ 64) : stoul (decimal n) = .ok n := by
  unfold stoul
  rw [readDecimal_of_digits (fun _ => isdigit_decimal) (decimal_ne_nil n), decimalValue_decimal]
  simp only [h, if_true, Bool.false_eq_true, if_false]

/-! ## The texts that are numbers -/

/-- What may stand before the digits, and whether it is a minus. -/
inductive Sign : Bool → Bytes → Prop
  | none : Sign false []
  | plus : Sign false [43]
  | minus : Sign true [45]

/-- White space, a sign, digits with the value `n`, and then anything but a digit. -/
def DecimalText (s : Bytes) (neg : Bool) (n : Nat) : Prop :=
  ∃ ws sign ds rest, s = ws ++ (sign ++ (ds ++ rest)) ∧ (∀ c ∈ ws, isspace c = true) ∧ Sign neg sign ∧
    ds ≠ [] ∧ (∀ c ∈ ds, isdigit c = true) ∧ (∀ c ∈ rest.head?, isdigit c = false) ∧ decimalValue ds = n

theorem head_dropWhile {p : UInt8 → Bool} {s : Bytes} : ∀ c ∈ (s.dropWhile p).head?, p c = false := by
  induction s with
  | nil => simp
  | cons c s ih =>
    rw [List.dropWhile_cons]
    split
    · exact ih
    · rename_i h
      simpa using h

/-- A text cut behind its sign. -/
theorem sign_cut (t : Bytes) : ∃ sign, Sign (t.head? == some 45) sign ∧
    t = sign ++ (if (t.head? == some 45) || t.head? == some 43 then t.drop 1 else t) := by
  cases t with
  | nil => exact ⟨[], .none, rfl⟩
  | cons c u =>
    by_cases h45 : c = 45
    · subst h45
      exact ⟨[45], .minus, rfl⟩
    · by_cases h43 : c = 43
      · subst h43
        exact ⟨[43], .plus, rfl⟩
      · refine ⟨[], ?_, ?_⟩
        · simp only [List.head?_cons, Option.some_beq_some, beq_false_of_ne h45]
          exact .none
        · simp [h45, h43]

theorem readDecimal_sign {neg : Bool} {sign ds rest : Bytes} (hsign : Sign neg sign) (hne : ds ≠ [])
    (hds : ∀ c ∈ ds, isdigit c = true) (hrest : ∀ c ∈ rest.head?, isdigit c = false) {ws : Bytes}
    (hws : ∀ c ∈ ws, isspace c = true) :
    readDecimal (ws ++ (sign ++ (ds ++ rest))) = some (neg, decimalValue ds) := by
  obtain ⟨d, ds, rfl⟩ := List.exists_cons_of_ne_nil hne
  obtain ⟨hspace, h43, h45⟩ := not_isspace_of_isdigit d (hds d List.mem_cons_self)
  have hdigits : (d :: ds ++ rest).takeWhile isdigit = d :: ds := by
    rw [List.takeWhile_append_of_pos hds]
    cases rest with
    | nil => simp
    | cons c rest => simp [hrest c rfl]
  have hskip : (ws ++ (sign ++ (d :: ds ++ rest))).dropWhile isspace = sign ++ (d :: ds ++ rest) := by
    rw [List.dropWhile_append_of_pos hws]
    cases hsign with
    | none => simp [hspace]
    | plus => rfl
    | minus => rfl
  unfold readDecimal
  dsimp only
  rw [hskip]
  cases hsign with
  | none =>
    have hd : ((d == 45) || d == 43) = false := by simp [h43, h45]
    simp only [List.nil_append, List.cons_append, List.head?_cons, Option.some_beq_some, hd] at hdigits ⊢
    simp [hdigits, h45]
  | plus =>
    have hd : (some (43 : UInt8) == some 45) = false := rfl
    simp only [List.cons_append, List.nil_append, List.head?_cons, hd, beq_self_eq_true, Bool.or_true, if_true,
      List.drop_succ_cons, List.drop_zero] at hdigits ⊢
    simp [hdigits]
  | minus =>
    simp only [List.cons_append, List.nil_append, List.head?_cons, beq_self_eq_true, Bool.true_or, if_true,
      List.drop_succ_cons, List.drop_zero] at hdigits ⊢
    simp [hdigits]

theorem readDecimal_iff {s : Bytes} {neg : Bool} {n : Nat} : readDecimal s = some (neg, n) ↔ DecimalText s neg n := by
  constructor
  · intro h
    obtain ⟨sign, hsign, hcut⟩ := sign_cut (s.dropWhile isspace)
    unfold readDecimal at h
    dsimp only at h
    generalize (if ((s.dropWhile isspace).head? == some 45) || (s.dropWhile isspace).head? == some 43 then
      (s.dropWhile isspace).drop 1 else s.dropWhile isspace) = u at h hcut
    by_cases hne : u.takeWhile isdigit = []
    · simp [hne] at h
    · rw [if_neg (by simpa using hne), Option.some.injEq, Prod.mk.injEq] at h
      obtain ⟨rfl, rfl⟩ := h
      refine ⟨s.takeWhile isspace, sign, u.takeWhile isdigit, u.dropWhile isdigit, ?_,
        fun c hc => List.mem_takeWhile_imp hc, hsign, hne, fun c hc => List.mem_takeWhile_imp hc, head_dropWhile, rfl⟩
      rw [List.takeWhile_append_dropWhile, ← hcut, List.takeWhile_append_dropWhile]
  · intro h
    obtain ⟨ws, sign, ds, rest, rfl, hws, hsign, hne, hds, hrest, rfl⟩ := h
    exact readDecimal_sign hsign hne hds hrest hws

/-- A number that fits `unsigned long`. -/
def UlongText (s : Bytes) : Prop := ∃ neg n, DecimalText s neg n ∧ n < 2 ^ 64

/-- A number that fits `int`. -/
def IntText (s : Bytes) : Prop := ∃ neg n, DecimalText s neg n ∧ if neg then n ≤ 2 ^ 31 else n < 2 ^ 31

theorem ok_of_if {α : Type} {p : Prop} [Decidable p] {a : α} {f : Fault} :
    (∃ b, (if p then .ok a else .error f : Except Fault α) = .ok b) ↔ p := by
  by_cases h : p
  · exact ⟨fun _ => h, fun _ => ⟨a, if_pos h⟩⟩
  · simp [h]

theorem stoul_ok_iff {s : Bytes} : (∃ n, stoul s = .ok n) ↔ UlongText s := by
  simp only [UlongText, ← readDecimal_iff]
  unfold stoul
  cases readDecimal s with
  | none => simp
  | some p =>
    simp only [ok_of_if]
    constructor
    · intro h
      exact ⟨p.1, p.2, rfl, h⟩
    · intro h
      obtain ⟨neg, n, hp, h⟩ := h
      cases hp
      exact h

theorem stoi_ok_iff {s : Bytes} : (∃ n, stoi s = .ok n) ↔ IntText s := by
  simp only [IntText, ← readDecimal_iff]
  unfold stoi
  cases readDecimal s with
  | none => simp
  | some p =>
    have hrange : ∀ (neg : Bool) (n : Nat), (-2 ^ 31 ≤ (if neg then -(n : Int) else n) ∧
        (if neg then -(n : Int) else n) < 2 ^ 31) ↔ if neg then n ≤ 2 ^ 31 else n < 2 ^ 31 := by
      intro neg n
      cases neg
      · simp only [Bool.false_eq_true, if_false]
        omega
      · simp only [if_true]
        omega
    simp only [ok_of_if, hrange]
    constructor
    · intro h
      exact ⟨p.1, p.2, rfl, h⟩
    · intro h
      obtain ⟨neg, n, hp, h⟩ := h
      cases hp
      exact h

end HahaWeb
