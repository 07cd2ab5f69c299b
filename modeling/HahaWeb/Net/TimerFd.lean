/-
  HahaWeb.Net.TimerFd — `TimerQueue::runOnce` and `runForever`: what `timerfd_settime` is
  given.

  The part of a second is scaled by 100, where a microsecond has 1000 nanoseconds, and the
  nanoseconds of the clock are added without a carry. Proved: the time is valid and exact if
  and only if the span is of whole seconds (`programs_iff`), as those of `EventLoop::loop`
  are; half a second becomes a twentieth (`not_programs_half`).

  A timer with a punctual time-out does not fire at the time it is made for
  (`Punctual.not_fires`).
-/

import HahaWeb.Base.TimeStamp
import HahaWeb.Net.TimerQueue

namespace HahaWeb

/-- `time_t` and `long` have 64 bits. -/
structure Timespec where
  tvSec : Int64
  tvNsec : Int64
  deriving DecidableEq, Repr

structure Itimerspec where
  itInterval : Timespec
  itValue : Timespec
  deriving DecidableEq, Repr

namespace TimerQueue

/-- The nanoseconds that both functions take the part of a second for. -/
def nanosecond (t : TimeStamp) : UInt64 := (t.microsecond - t.second * 1000000) * 100

/-- What is added to the clock. -/
def itValue (t : TimeStamp) (now : Timespec) : Timespec :=
  ⟨(now.tvSec.toUInt64 + t.second).toInt64, (now.tvNsec.toUInt64 + nanosecond t).toInt64⟩

def runOnce (t : TimeStamp) (now : Timespec) : Itimerspec := ⟨⟨0, 0⟩, itValue t now⟩

def runForever (t : TimeStamp) (now : Timespec) : Itimerspec :=
  ⟨⟨t.second.toInt64, (nanosecond t).toInt64⟩, itValue t now⟩

end TimerQueue

/-- The nanoseconds are less than a second. -/
def Timespec.Valid (t : Timespec) : Prop := 0 ≤ t.tvNsec.toInt ∧ t.tvNsec.toInt < 1000000000

instance (t : Timespec) : Decidable t.Valid := inferInstanceAs (Decidable (_ ∧ _))

/-- In nanoseconds. -/
def Timespec.value (t : Timespec) : Int := t.tvSec.toInt * 1000000000 + t.tvNsec.toInt

def TimeStamp.value (t : TimeStamp) : Int := t.microsecond.toNat * 1000

namespace TimerQueue

/-- Both are valid, they denote the time the span ends, and the second one the span itself. -/
structure Programs (t : TimeStamp) (now : Timespec) : Prop where
  onceValid : (runOnce t now).itValue.Valid ∧ (runOnce t now).itInterval.Valid
  once : (runOnce t now).itValue.value = now.value + t.value
  foreverValid : (runForever t now).itValue.Valid ∧ (runForever t now).itInterval.Valid
  forever : (runForever t now).itValue.value = now.value + t.value
  interval : (runForever t now).itInterval.value = t.value

theorem toInt_toInt64 (x : UInt64) : x.toInt64.toInt = (x.toNat : Int).bmod 18446744073709551616 :=
  BitVec.toInt_eq_toNat_bmod x.toBitVec

theorem toInt_of_lt {x : UInt64} (h : x.toNat < 2 ^ 63) : x.toInt64.toInt = x.toNat := by
  rw [toInt_toInt64, Int.bmod_eq_of_le (by omega) (by omega)]

theorem toNat_second (t : TimeStamp) : t.second.toNat = t.microsecond.toNat / 1000000 := UInt64.toNat_div ..

/-- A hundred times the microseconds behind the last whole second. -/
theorem toNat_nanosecond (t : TimeStamp) : (nanosecond t).toNat = t.microsecond.toNat % 1000000 * 100 := by
  have hle : t.second * 1000000 ≤ t.microsecond := by
    rw [UInt64.le_iff_toNat_le, UInt64.toNat_mul, toNat_second]
    exact (Nat.mod_le _ _).trans (Nat.div_mul_le_self _ _)
  have hlt := t.microsecond.toNat_lt
  rw [nanosecond, UInt64.toNat_mul, UInt64.toNat_sub_of_le _ _ hle, UInt64.toNat_mul, toNat_second]
  have hthousand : (1000000 : UInt64).toNat = 1000000 := rfl
  have hhundred : (100 : UInt64).toNat = 100 := rfl
  rw [hthousand, hhundred]
  omega

/-- The clock and the span, added in 64 bits. -/
theorem toInt_add {x : Int64} {y : UInt64} :
    (x.toUInt64 + y).toInt64.toInt = (x.toInt + y.toNat).bmod 18446744073709551616 := by
  rw [UInt64.toInt64_add, Int64.toInt_add, Int64.toInt64_toUInt64, toInt_toInt64]
  exact Int.add_bmod_bmod

section

variable {t : TimeStamp} {now : Timespec}

/-- No sum of nanoseconds leaves its type. -/
theorem itValue_nsec (hnow : now.Valid) : (itValue t now).tvNsec.toInt =
    now.tvNsec.toInt + (t.microsecond.toNat % 1000000 * 100 : Nat) := by
  obtain ⟨h0, h1⟩ := hnow
  rw [itValue, toInt_add, toNat_nanosecond, Int.bmod_eq_of_le (by omega) (by omega)]

variable (ht : t.microsecond.toNat < 2 ^ 62) (hnow : now.Valid)

include ht hnow

/-- The time is right exactly for whole seconds that the clock has room for. -/
theorem itValue_iff : (itValue t now).value = now.value + t.value ↔
    t.microsecond.toNat % 1000000 = 0 ∧ now.tvSec.toInt + (t.microsecond.toNat / 1000000 : Nat) < 2 ^ 63 := by
  have hnsec := itValue_nsec (t := t) hnow
  have hsec : (itValue t now).tvSec.toInt =
      (now.tvSec.toInt + (t.microsecond.toNat / 1000000 : Nat)).bmod 18446744073709551616 := by
    rw [itValue, toInt_add, toNat_second]
  have hlow := now.tvSec.le_toInt
  have hhigh := now.tvSec.toInt_lt
  rw [Timespec.value, Timespec.value, TimeStamp.value, hnsec, hsec]
  rcases Int.lt_or_le (now.tvSec.toInt + (t.microsecond.toNat / 1000000 : Nat)) (2 ^ 63) with hfits | hover
  · rw [Int.bmod_eq_of_le (by omega) (by omega)]
    omega
  · -- the seconds wrap to a time before the epoch
    have hwrap : (now.tvSec.toInt + (t.microsecond.toNat / 1000000 : Nat)).bmod 18446744073709551616 =
        now.tvSec.toInt + (t.microsecond.toNat / 1000000 : Nat) - 18446744073709551616 := by
      rw [← Int.sub_bmod_right, Int.bmod_eq_of_le (by omega) (by omega)]
      rfl
    rw [hwrap]
    omega

/-- The spans that the timer is programmed with as they are. -/
theorem programs_iff : Programs t now ↔
    t.microsecond.toNat % 1000000 = 0 ∧ now.tvSec.toInt + (t.microsecond.toNat / 1000000 : Nat) < 2 ^ 63 := by
  refine ⟨fun h => (itValue_iff ht hnow).mp h.once, fun h => ?_⟩
  have hvalue := (itValue_iff ht hnow).mpr h
  have hnsec := itValue_nsec (t := t) hnow
  rw [h.1, Nat.zero_mul, Nat.cast_zero, Int.add_zero] at hnsec
  have hvalid : (itValue t now).Valid := by
    rw [Timespec.Valid, hnsec]
    exact hnow
  have hnano : (nanosecond t).toInt64.toInt = 0 := by
    rw [toInt_of_lt (by rw [toNat_nanosecond]; omega), toNat_nanosecond, h.1]
    rfl
  have hsecond : t.second.toInt64.toInt = (t.microsecond.toNat / 1000000 : Nat) := by
    rw [toInt_of_lt (by rw [toNat_second]; omega), toNat_second]
  have hzero : (⟨0, 0⟩ : Timespec).Valid := by decide
  refine ⟨⟨hvalid, hzero⟩, hvalue, ⟨hvalid, ?_⟩, hvalue, ?_⟩
  · rw [runForever, Timespec.Valid, hnano]
    decide
  · rw [runForever, Timespec.value, TimeStamp.value, hsecond, hnano]
    omega

end

/-- Five seconds, from the last nanosecond of a second on. -/
theorem programs_five :
    ((⟨5000000⟩ : TimeStamp).microsecond.toNat < 2 ^ 62 ∧ (⟨1700000000, 999999999⟩ : Timespec).Valid) ∧
    Programs ⟨5000000⟩ ⟨1700000000, 999999999⟩ :=
  ⟨⟨by decide, by decide⟩, (programs_iff (by decide) (by decide)).mpr ⟨by decide, by decide⟩⟩

/-- Half a second. -/
theorem not_programs_half : ¬ Programs ⟨500000⟩ ⟨1700000000, 0⟩ ∧
    (runForever ⟨500000⟩ ⟨1700000000, 0⟩).itInterval.value = 50000000 ∧
    ¬ (runOnce ⟨500000⟩ ⟨1700000000, 999999999⟩).itValue.Valid := by
  refine ⟨fun h => ?_, by decide, fun h => ?_⟩
  · exact absurd h.interval (by decide)
  · exact absurd h.2 (by decide)

end TimerQueue

/-- A timer that is made with a punctual time-out is not due when it is made. -/
theorem TimeStamp.Punctual.not_fires {C : Type} {sec : Int32} (hp : TimeStamp.Punctual sec) (hsec : sec ≠ 0)
    {now : TimeStamp} (hnow : now.microsecond.toNat < 2 ^ 63) {m : TimerHeap.Timers C} {ts : List (Timer C)}
    (hf : TimerHeap.Fires m now.microsecond.toNat ts) {t : Timer C}
    (ht : t.expire = (TimeStamp.nowSecond now sec).microsecond.toNat) : t ∉ ts := by
  intro hin
  have hdue := ((hf.due t).mp hin).2
  rw [ht] at hdue
  exact hsec (hp.pending now hnow (decide_eq_true (UInt64.le_iff_toNat_le.mpr hdue)))

end HahaWeb
