/-
  HahaWeb.Base.TimeStamp — `base/TimeStamp.h`: points of time and spans in microseconds.

  `second(sec)` multiplies in `int` and widens the product: from 2148 seconds on it no
  longer fits, and wraps. Proved: a span of seconds is exact, and a timer `nowSecond(sec)`
  due exactly that long after now, if and only if there are at most 2147 of them
  (`punctual_iff`); a span of an hour is one of about twelve minutes into the past
  (`not_punctual_hour`).

  `operator+` changes its left side; here it returns it. Not modelled: the formatting of
  dates.
-/

import HahaWeb.Base.Util

namespace HahaWeb

structure TimeStamp where
  microsecond : UInt64
  deriving DecidableEq, Repr

namespace TimeStamp

def second (t : TimeStamp) : UInt64 := t.microsecond / 1000000

def add (s t : TimeStamp) : TimeStamp := ⟨s.microsecond + t.microsecond⟩

/-- `operator<=` -/
def le (s t : TimeStamp) : Bool := s.microsecond ≤ t.microsecond

/-- The static `second`. -/
def ofSecond (sec : Int32) : TimeStamp := ⟨(sec * 1000000).toInt64.toUInt64⟩

/-- `nowSecond`, from what `now` has returned. -/
def nowSecond (now : TimeStamp) (sec : Int32) : TimeStamp := now.add (ofSecond sec)

/-- A 64-bit value read as signed has the same residue. -/
theorem toNat_toUInt64 (x : Int64) : (x.toUInt64.toNat : Int) = x.toInt % 2 ^ 64 := by
  have hx : x.toInt = (x.toUInt64.toNat : Int).bmod (2 ^ 64) := BitVec.toInt_eq_toNat_bmod x.toBitVec
  have hlt : x.toUInt64.toNat < 2 ^ 64 := x.toUInt64.toNat_lt
  rw [hx, show (2 : Int) ^ 64 = ((2 ^ 64 : Nat) : Int) from rfl, Int.bmod_emod]
  omega

/-- The span that is made of a number of seconds. -/
theorem toNat_ofSecond (sec : Int32) :
    ((ofSecond sec).microsecond.toNat : Int) = (sec.toInt * 1000000).bmod 4294967296 % 18446744073709551616 := by
  have h : (1000000 : Int32).toInt = 1000000 := by decide
  rw [ofSecond, toNat_toUInt64, Int32.toInt_toInt64, Int32.toInt_mul, h]
  rfl

theorem toNat_add (s t : TimeStamp) :
    (s.add t).microsecond.toNat = (s.microsecond.toNat + t.microsecond.toNat) % 2 ^ 64 :=
  UInt64.toNat_add ..

/-- A number of seconds is that many, from now, and only none of them are over at once. -/
structure Punctual (sec : Int32) : Prop where
  span : ((ofSecond sec).microsecond.toNat : Int) = sec.toInt * 1000000
  due : ∀ now : TimeStamp, now.microsecond.toNat < 2 ^ 63 →
    ((nowSecond now sec).microsecond.toNat : Int) = now.microsecond.toNat + sec.toInt * 1000000
  pending : ∀ now : TimeStamp, now.microsecond.toNat < 2 ^ 63 → (nowSecond now sec).le now = true → sec = 0

/-- The product is exact exactly up to 2147 seconds. -/
theorem span_iff {sec : Int32} (h : 0 ≤ sec) :
    ((ofSecond sec).microsecond.toNat : Int) = sec.toInt * 1000000 ↔ sec ≤ 2147 := by
  have h0 : 0 ≤ sec.toInt := Int32.le_iff_toInt_le.mp h
  have hlt : sec.toInt < 2 ^ 31 := sec.toInt_lt
  have hle : sec ≤ 2147 ↔ sec.toInt ≤ 2147 := Int32.le_iff_toInt_le
  rw [toNat_ofSecond, hle]
  have hlow : -2147483648 ≤ (sec.toInt * 1000000).bmod 4294967296 := Int.le_bmod (by decide)
  have hhigh : (sec.toInt * 1000000).bmod 4294967296 < 2147483648 := Int.bmod_lt (by decide)
  refine ⟨fun hspan => ?_, fun hle => ?_⟩
  · -- a product that has wrapped is below 2^31, or negative and then near 2^64
    by_contra hgt
    generalize (sec.toInt * 1000000).bmod 4294967296 = r at *
    rcases Int.lt_or_le r 0 with hneg | hpos
    · rw [Int.emod_eq_add_self_emod, Int.emod_eq_of_lt (by omega) (by omega)] at hspan
      omega
    · rw [Int.emod_eq_of_lt hpos (by omega)] at hspan
      omega
  · rw [Int.bmod_eq_of_le (by omega) (by omega), Int.emod_eq_of_lt (by omega) (by omega)]

/-- The time-outs that lie as far ahead as they should. -/
theorem punctual_iff {sec : Int32} (h : 0 ≤ sec) : Punctual sec ↔ sec ≤ 2147 := by
  refine ⟨fun hp => (span_iff h).mp hp.span, fun hle => ?_⟩
  have hspan := (span_iff h).mpr hle
  have hlt : sec.toInt < 2 ^ 31 := sec.toInt_lt
  have hdue : ∀ now : TimeStamp, now.microsecond.toNat < 2 ^ 63 →
      ((nowSecond now sec).microsecond.toNat : Int) = now.microsecond.toNat + sec.toInt * 1000000 := by
    intro now hnow
    rw [nowSecond, toNat_add]
    omega
  refine ⟨hspan, hdue, fun now hnow hover => ?_⟩
  have hback : (nowSecond now sec).microsecond.toNat ≤ now.microsecond.toNat :=
    UInt64.le_iff_toNat_le.mp (of_decide_eq_true hover)
  have := hdue now hnow
  apply Int32.toInt_inj.mp
  change sec.toInt = 0
  have h0 : 0 ≤ sec.toInt := Int32.le_iff_toInt_le.mp h
  omega

/-- Two minutes, the time-out of a connection that is not configured. -/
theorem punctual_default : (0 : Int32) ≤ 120 ∧ Punctual 120 :=
  ⟨by decide, (punctual_iff (by decide)).mpr (by decide)⟩

/-- With a time-out of an hour a connection's timer is due before it is pushed. -/
theorem not_punctual_hour : ¬ Punctual 3600 ∧
    ∀ now : TimeStamp, 1000000000 ≤ now.microsecond.toNat → (nowSecond now 3600).le now = true := by
  refine ⟨fun hp => absurd ((span_iff (by decide)).mp hp.span) (by decide), fun now hnow => ?_⟩
  have hspan : (ofSecond 3600).microsecond.toNat = 2 ^ 64 - 694967296 := by decide
  apply decide_eq_true
  rw [UInt64.le_iff_toNat_le, nowSecond, toNat_add, hspan]
  have := now.microsecond.toNat_lt
  omega

end TimeStamp

end HahaWeb
