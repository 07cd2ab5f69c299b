/-
  HahaWeb.Library.Calendar — places in blocks that follow each other, and the Gregorian
  calendar.

  A count of days falls into a year, and what is left of it into a month: each is the search
  for a block among consecutive ones (`locate`). Proved: a later place is in a later block,
  or later in the same one (`locate_lt`), hence the fields of a later second are
  lexicographically greater (`Tm.lt_of_lt`); and the seconds before the year 10000 have
  years of four digits (`year_lt`).
-/

import Mathlib.Algebra.BigOperators.Intervals
import Mathlib.Algebra.Order.BigOperators.Group.Finset
import Mathlib.Tactic.Linarith

namespace Calendar

/-! ## Blocks -/

/-- The block of place `d`, counted from the start of block `i`, and the place in it. -/
def locate (len : Nat → Nat) : Nat → Nat → Nat → Nat × Nat
  | 0, i, d => (i, d)
  | fuel + 1, i, d => if d < len i then (i, d) else locate len fuel (i + 1) (d - len i)

variable {len : Nat → Nat}

/-- The place is that far behind the blocks before its own. -/
theorem locate_spec (hpos : ∀ i, 0 < len i) {fuel i d : Nat} (h : d ≤ fuel) :
    i ≤ (locate len fuel i d).1 ∧ (locate len fuel i d).2 < len (locate len fuel i d).1 ∧
      ∑ k ∈ Finset.Ico i (locate len fuel i d).1, len k + (locate len fuel i d).2 = d := by
  induction fuel generalizing i d with
  | zero =>
    obtain rfl : d = 0 := Nat.le_zero.mp h
    simp [locate, hpos i]
  | succ fuel ih =>
    have hi := hpos i
    by_cases hd : d < len i
    · simp [locate, hd]
    · obtain ⟨h1, h2, h3⟩ := ih (i := i + 1) (d := d - len i) (by omega)
      rw [locate, if_neg hd]
      refine ⟨by omega, h2, ?_⟩
      rw [Finset.sum_eq_sum_Ico_succ_bot (by omega)]
      omega

theorem locate_lt (hpos : ∀ i, 0 < len i) {fuel fuel' i d d' : Nat} (hf : d ≤ fuel) (hf' : d' ≤ fuel') (h : d < d') :
    (locate len fuel i d).1 < (locate len fuel' i d').1 ∨
      (locate len fuel i d).1 = (locate len fuel' i d').1 ∧ (locate len fuel i d).2 < (locate len fuel' i d').2 := by
  obtain ⟨h1, h2, h3⟩ := locate_spec hpos hf (i := i)
  obtain ⟨h1', h2', h3'⟩ := locate_spec hpos hf' (i := i)
  generalize locate len fuel i d = p at *
  generalize locate len fuel' i d' = q at *
  rcases Nat.lt_trichotomy p.1 q.1 with hlt | heq | hgt
  · exact .inl hlt
  · rw [heq] at h3
    exact .inr ⟨heq, by omega⟩
  · -- the whole of the later place's block would lie before the earlier place
    have hsub : ∑ k ∈ Finset.Ico i (q.1 + 1), len k ≤ ∑ k ∈ Finset.Ico i p.1, len k :=
      Finset.sum_le_sum_of_subset (Finset.Ico_subset_Ico_right hgt)
    rw [Finset.sum_Ico_succ_top h1'] at hsub
    omega

/-- A place before the end of block `n - 1` is in a block before `n`. -/
theorem locate_block_lt (hpos : ∀ i, 0 < len i) {fuel i d n : Nat} (hf : d ≤ fuel)
    (h : d < ∑ k ∈ Finset.Ico i n, len k) : (locate len fuel i d).1 < n := by
  obtain ⟨h1, -, h3⟩ := locate_spec hpos hf (i := i)
  by_contra hn
  have hsub : ∑ k ∈ Finset.Ico i n, len k ≤ ∑ k ∈ Finset.Ico i (locate len fuel i d).1, len k :=
    Finset.sum_le_sum_of_subset (Finset.Ico_subset_Ico_right (Nat.not_lt.mp hn))
  omega

/-! ## Years and months -/

def Leap (y : Nat) : Prop := 4 ∣ y ∧ (¬ 100 ∣ y ∨ 400 ∣ y)

instance (y : Nat) : Decidable (Leap y) := inferInstanceAs (Decidable (_ ∧ _))

def daysInYear (y : Nat) : Nat := if Leap y then 366 else 365

/-- The months are counted from 0. -/
def daysInMonth (y m : Nat) : Nat :=
  if m = 1 then (if Leap y then 29 else 28) else if m = 3 ∨ m = 5 ∨ m = 8 ∨ m = 10 then 30 else 31

theorem daysInYear_pos (y : Nat) : 0 < daysInYear y := by
  unfold daysInYear
  split <;> omega

theorem daysInMonth_pos (y m : Nat) : 0 < daysInMonth y m := by
  unfold daysInMonth
  split
  · split <;> omega
  · split <;> omega

/-- The months of a year are the year. -/
theorem sum_daysInMonth (y : Nat) : ∑ m ∈ Finset.Ico 0 12, daysInMonth y m = daysInYear y := by
  rw [Nat.Ico_zero_eq_range]
  simp only [Finset.sum_range_succ, Finset.sum_range_zero, daysInMonth, daysInYear]
  by_cases hy : Leap y <;> simp [hy]

theorem daysInYear_succ (y : Nat) :
    daysInYear (y + 1) + y / 4 + y / 400 + (y + 1) / 100 = 365 + (y + 1) / 4 + (y + 1) / 400 + y / 100 := by
  rw [Nat.succ_div (b := 4), Nat.succ_div (b := 400), Nat.succ_div (b := 100)]
  unfold daysInYear Leap
  by_cases h4 : 4 ∣ y + 1 <;> by_cases hc : 100 ∣ y + 1 <;> by_cases hq : 400 ∣ y + 1 <;>
    simp only [h4, hc, hq, true_and, false_and, not_true, not_false_iff, or_true, or_false, if_true, if_false] <;>
    omega

/-- The days of the years from behind `a` to `b`. -/
theorem sum_daysInYear {a b : Nat} (h : a ≤ b) :
    ∑ y ∈ Finset.Ico (a + 1) (b + 1), daysInYear y + a / 4 + a / 400 + b / 100 =
      365 * (b - a) + b / 4 + b / 400 + a / 100 := by
  induction b, h using Nat.le_induction with
  | base => simp
  | succ b hab ih =>
    rw [Finset.sum_Ico_succ_top (by omega)]
    have hstep := daysInYear_succ b
    have hdays : 365 * (b + 1 - a) = 365 * (b - a) + 365 := by rw [Nat.succ_sub hab, Nat.mul_succ]
    -- the divisions stay closed, of which there are too many for omega
    linarith

/-! ## Broken-down time -/

/-- `month` and `mday` from 1 on. -/
structure Tm where
  year : Nat
  month : Nat
  mday : Nat
  hour : Nat
  min : Nat
  sec : Nat
  deriving DecidableEq, Repr

/-- The date of a day, counted from the first of January 1970. -/
def date (days : Nat) : Nat × Nat × Nat :=
  let y := locate daysInYear days 1970 days
  let m := locate (daysInMonth y.1) y.2 0 y.2
  (y.1, m.1 + 1, m.2 + 1)

/-- The time in UTC of a number of seconds since then. -/
def gmtime (t : Nat) : Tm :=
  let d := date (t / 86400)
  ⟨d.1, d.2.1, d.2.2, t % 86400 / 3600, t % 3600 / 60, t % 60⟩

/-- The fields, the greatest first. -/
def Tm.fields (tm : Tm) : List Nat := [tm.year, tm.month, tm.mday, tm.hour, tm.min, tm.sec]

theorem date_lt {d d' : Nat} (h : d < d') :
    (date d).1 < (date d').1 ∨ (date d).1 = (date d').1 ∧
      ((date d).2.1 < (date d').2.1 ∨ (date d).2.1 = (date d').2.1 ∧ (date d).2.2 < (date d').2.2) := by
  simp only [date]
  rcases locate_lt daysInYear_pos (Nat.le_refl d) (Nat.le_refl d') (i := 1970) h with hy | ⟨hy, hday⟩
  · exact .inl hy
  · refine .inr ⟨hy, ?_⟩
    rw [← hy]
    rcases locate_lt (daysInMonth_pos _) (Nat.le_refl _) (Nat.le_refl _) (i := 0) hday with hm | ⟨hm, hd⟩
    · exact .inl (Nat.succ_lt_succ hm)
    · exact .inr ⟨by rw [hm], Nat.succ_lt_succ hd⟩

/-- A later second has greater fields. -/
theorem Tm.lt_of_lt {t t' : Nat} (h : t < t') : (gmtime t).fields < (gmtime t').fields := by
  simp only [Tm.fields, gmtime, List.cons_lt_cons_iff, List.not_lt_nil, and_false, or_false]
  by_cases hd : t / 86400 < t' / 86400
  · rcases date_lt hd with hy | ⟨hy, hm | ⟨hm, hday⟩⟩
    · exact .inl hy
    · exact .inr ⟨hy, .inl hm⟩
    · exact .inr ⟨hy, .inr ⟨hm, .inl hday⟩⟩
  · have hday : t / 86400 = t' / 86400 := by omega
    rw [hday]
    refine .inr ⟨rfl, .inr ⟨rfl, .inr ⟨rfl, ?_⟩⟩⟩
    omega

theorem month_le (days : Nat) : 1 ≤ (date days).2.1 ∧ (date days).2.1 ≤ 12 := by
  obtain ⟨-, hlt, -⟩ := locate_spec daysInYear_pos (Nat.le_refl days) (i := 1970)
  have hm := locate_block_lt (daysInMonth_pos (locate daysInYear days 1970 days).1)
    (Nat.le_refl (locate daysInYear days 1970 days).2) (i := 0) (n := 12) (by rw [sum_daysInMonth]; exact hlt)
  simp only [date]
  omega

theorem mday_le (days : Nat) : 1 ≤ (date days).2.2 ∧ (date days).2.2 ≤ 31 := by
  obtain ⟨-, hlt, -⟩ := locate_spec (daysInMonth_pos (locate daysInYear days 1970 days).1)
    (Nat.le_refl (locate daysInYear days 1970 days).2) (i := 0)
  have hle : ∀ y m, daysInMonth y m ≤ 31 := by
    intro y m
    unfold daysInMonth
    split
    · split <;> omega
    · split <;> omega
  have h31 := hle (locate daysInYear days 1970 days).1
    (locate (daysInMonth (locate daysInYear days 1970 days).1) (locate daysInYear days 1970 days).2 0
      (locate daysInYear days 1970 days).2).1
  simp only [date]
  omega

theorem le_year (days : Nat) : 1970 ≤ (date days).1 := (locate_spec daysInYear_pos (Nat.le_refl days)).1

/-- The first of January 10000 is 2932897 days away. -/
theorem year_lt {days : Nat} (h : days < 2932897) : (date days).1 < 10000 := by
  refine locate_block_lt daysInYear_pos (Nat.le_refl days) ?_
  have hsum := sum_daysInYear (a := 1969) (b := 9999) (by omega)
  rw [show (1970 : Nat) = 1969 + 1 from rfl, show (10000 : Nat) = 9999 + 1 from rfl]
  omega

example : gmtime 1709210096 = ⟨2024, 2, 29, 12, 34, 56⟩ := by decide +kernel

end Calendar
