/-
  HahaWeb.Base.KmpSearch — `get_next` and `KMP_search` of `base/stringView.cpp`.

  `get_next` writes the failures of the pattern into `next`, `KMP_search` goes along them;
  -1 stands in both loops for starting over at the next byte. The lengths are taken as
  `int`, so the two search for the front part of the pattern in the front part of the text
  that the narrowed lengths leave (`kmpSearch_answer`), and for nothing where the one of
  the pattern is negative. Proved: both loops end and index only inside, and exactly when
  the answer is that of the plain search (`searches_iff`). `find` takes its lengths as
  `size_t`.
-/

import HahaWeb.Base.StringView
import HahaWeb.Library.While

namespace HahaWeb.StringView

open Borders

/-! ## The functions -/

/-- `operator[]`, of an `int`. The test of the source lets `*end_` pass; it is a fault
    here whether or not the array goes on behind it. -/
def index (v : StringView) (pos : Int) : Except Fault UInt8 :=
  let pos := pos % 2 ^ 64
  if v.end_ < v.begin_ + pos then .error .stdOutOfRange
  else if v.begin_ + pos = v.end_ then .error .outOfRange
  else v.read (v.begin_ + pos)

/-- `next[k]` -/
def load (next : List Int) (k : Int) : Except Fault Int :=
  match next[(k % 2 ^ 64).toNat]? with
  | some f => .ok f
  | none => .error .outOfRange

/-- `next[k] = f` -/
def store (next : List Int) (k f : Int) : Except Fault (List Int) :=
  if (k % 2 ^ 64).toNat < next.length then .ok (next.set (k % 2 ^ 64).toNat f) else .error .outOfRange

/-- `j == -1 || a[i] == t[j]` -/
def goesOn (a t : StringView) (i j : Int) : Except Fault Bool :=
  if j = -1 then .ok true else do .ok ((← a.index i) == (← t.index j))

structure Building where
  i : Int
  j : Int
  next : List Int

/-- `(int)t.size() - 1` -/
def last (t : StringView) : Int := toInt (toInt t.size - 1)

/-- The loop of `get_next`, one pass. -/
def getNextPass (t : StringView) : Building → Except Fault (Option Building)
  | ⟨i, j, next⟩ => do
    if i < last t then
      if ← goesOn t t i j then
        .ok (some ⟨toInt (i + 1), toInt (j + 1), ← store next (toInt (i + 1)) (toInt (j + 1))⟩)
      else .ok (some ⟨i, ← load next j, next⟩)
    else .ok none

/-- `get_next`; `none` when the fuel was not enough. -/
def getNext (fuel : Nat) (t : StringView) (next : List Int) : Except Fault (Option (List Int)) := do
  let next ← store next 0 (-1)
  let r ← While.run (getNextPass t) fuel ⟨0, -1, next⟩
  .ok (r.map Building.next)

/-- The loop of `KMP_search`, one pass. -/
def searchPass (s t : StringView) (next : List Int) : Int × Int → Except Fault (Option (Int × Int))
  | (i, j) => do
    if j = -1 ∨ (i < toInt s.size ∧ j < toInt t.size) then
      if ← goesOn s t i j then .ok (some (toInt (i + 1), toInt (j + 1))) else .ok (some (i, ← load next j))
    else .ok none

/-- What is returned after the loop. -/
def result (t : StringView) (r : Int × Int) : Int := if r.2 = toInt t.size then toInt (r.1 - r.2) else -1

/-- `KMP_search` -/
def kmpSearch (fuel : Nat) (s t : StringView) : Except Fault (Option Int) := do
  match ← getNext fuel t (List.replicate t.size 0) with
  | none => .ok none
  | some next =>
    match ← While.run (searchPass s t next) fuel (0, 0) with
    | none => .ok none
    | some r => .ok (some (result t r))

/-! ## The plain search -/

/-- `r` is the first place where `t` occurs in `s`, or -1. -/
def Least (t s : Bytes) (r : Int) : Prop := (∃ i, First t s i ∧ r = i) ∨ (r = -1 ∧ ∀ i, ¬ t <+: s.drop i)

abbrev Pattern := {t : Range // t.1.bytes ≠ []}

/-- With enough fuel the search comes to an end without a fault, with that answer. -/
def Searches (s t : StringView) : Prop :=
  ∃ r, Least t.bytes s.bytes r ∧ ∃ enough, ∀ fuel, enough ≤ fuel → kmpSearch fuel s t = .ok (some r)

/-! ## Indices -/

theorem index_eq {v : StringView} (hv : v.Valid) {i : Nat} (hi : i < v.bytes.length) :
    v.index i = .ok v.bytes[i] := by
  have hsize := size_eq hv
  have hlen := bytes_length hv
  have hnonneg := hv.nonneg
  have hinside := hv.inside
  have hsmall := hv.small
  have hpos : (i : Int) % 2 ^ 64 = i := Int.emod_eq_of_lt (by omega) (by omega)
  rw [index, hpos]
  rw [if_neg (by omega), if_neg (by omega), read_eq hv hi]

theorem load_eq {next : List Int} (hsmall : next.length < 2 ^ 64) {k : Nat} (hk : k < next.length) :
    load next k = .ok (next.getD k 0) := by
  have hpos : (k : Int) % 2 ^ 64 = k := Int.emod_eq_of_lt (by omega) (by omega)
  rw [load, hpos, Int.toNat_natCast, List.getD_eq_getElem?_getD, List.getElem?_eq_getElem hk]
  rfl

theorem store_eq {next : List Int} (hsmall : next.length < 2 ^ 64) {k : Nat} (hk : k < next.length) (f : Int) :
    store next k f = .ok (next.set k f) := by
  have hpos : (k : Int) % 2 ^ 64 = k := Int.emod_eq_of_lt (by omega) (by omega)
  rw [store, hpos, Int.toNat_natCast, if_pos hk]

theorem goesOn_eq {a t : StringView} (ha : a.Valid) (ht : t.Valid) {i j : Nat} (hi : i < a.bytes.length)
    (hj : j < t.bytes.length) : goesOn a t i j = .ok (a.bytes[i] == t.bytes[j]) := by
  rw [goesOn, if_neg (by omega), index_eq ha hi, index_eq ht hj]
  rfl

theorem ok_bind {β γ : Type} (b : β) (g : β → Except Fault γ) : ((.ok b : Except Fault β) >>= g) = g b := rfl

theorem toInt_lt (x : Int) : toInt x < 2 ^ 31 := by
  unfold toInt
  rw [Int.bmod_def]
  split <;> omega

theorem toInt_of_nonneg {x : Int} (h0 : 0 ≤ x) (h : x < 2 ^ 31) : toInt x = x := by
  have hnat := toInt_of_lt (n := x.toNat) (by omega)
  rwa [Int.toNat_of_nonneg h0] at hnat

/-! ## The table -/

section

variable {t : StringView} (ht : t.Valid)

/-- The failures up to `r.i` are in the table. -/
structure Built (t : StringView) (r : Building) (i : Nat) : Prop where
  eq : r.i = i
  le : i = 0 ∨ i ≤ last t
  length : r.next.length = t.size
  build : Build t.bytes (fun k => r.next.getD k 0) i r.j

/-- The table as far as the narrowed length goes. -/
structure Tabled (t : StringView) (r : Building) : Prop where
  length : r.next.length = t.size
  failures : ∀ k : Nat, (k : Int) ≤ last t → Failure t.bytes k (r.next.getD k 0)

def Building.rank (t : StringView) (r : Building) : Nat := (2 * (last t - r.i) + r.j + 1).toNat

include ht

omit ht in
theorem last_le (t : StringView) : (last t + 1).toNat ≤ t.size := by
  rw [last]
  exact narrow_le t.size

omit ht in
theorem le_last {x : Int} (hx : 0 ≤ x) (h : x < toInt t.size) : x ≤ last t := by
  have hlt := toInt_lt t.size
  rw [last, toInt_of_nonneg (by omega) (by omega)]
  omega

omit ht in
theorem succ_of_lt_last {x : Int} (hx : -1 ≤ x) (h : x < last t) : toInt (x + 1) = x + 1 := by
  have hlast : last t < 2 ^ 31 := toInt_lt _
  exact toInt_of_nonneg (by omega) (by omega)

theorem size_lt : t.size < 2 ^ 64 := by
  have hsize := size_eq ht
  have hnonneg := ht.nonneg
  have hinside := ht.inside
  have hsmall := ht.small
  omega

theorem Built.small {r : Building} {i : Nat} (h : Built t r i) : r.next.length < 2 ^ 64 := by
  rw [h.length]
  exact size_lt ht

omit ht in
/-- One byte more of the pattern, or a shorter border of it. -/
theorem rank_lt {r r' : Building} (h : (r'.i = r.i + 1 ∧ r'.j = r.j + 1) ∨ (r'.i = r.i ∧ r'.j < r.j))
    (hlt : r.i < last t) (hlow : -1 ≤ r.j) : r'.rank t < r.rank t := by
  unfold Building.rank
  omega

/-- Both counters one further, and the failure written. -/
theorem Built.advance {j : Int} {next : List Int} {i : Nat} (h : Built t ⟨i, j, next⟩ i) (hlt : (i : Int) < last t)
    (hon : goesOn t t i j = .ok true) (hsuf : t.bytes.take (j + 1).toNat <:+ t.bytes.take (i + 1)) :
    While.Passes (getNextPass t) (fun r => ∃ i, Built t r i) (Tabled t) (Building.rank t) ⟨i, j, next⟩ := by
  have hlast := last_le t
  have hlen := bytes_length ht
  have hsmall : next.length < 2 ^ 64 := h.small ht
  have hlength : next.length = t.size := h.length
  have hlow : -1 ≤ j := h.build.low
  have hjlt : j < i := h.build.lt
  have hi : toInt ((i : Int) + 1) = (i + 1 : Nat) := succ_of_lt_last (by omega) hlt
  have hj : toInt (j + 1) = j + 1 := succ_of_lt_last hlow (hjlt.trans hlt)
  refine .inr ⟨⟨(i + 1 : Nat), j + 1, next.set (i + 1) (j + 1)⟩, ?_, ⟨i + 1, rfl, .inr (by omega), ?_, ?_⟩, ?_⟩
  · rw [getNextPass, if_pos hlt, hon]
    rw [ok_bind, if_pos rfl, hi, hj, store_eq hsmall (show i + 1 < next.length by omega), ok_bind]
  · rw [List.length_set, hlength]
  · refine h.build.succ (by omega) hsuf ?_ fun k hk => ?_
    · rw [List.getD_eq_getElem?_getD, List.getElem?_set_self (by omega), Option.getD_some]
    · rw [List.getD_eq_getElem?_getD, List.getElem?_set_ne (by omega), ← List.getD_eq_getElem?_getD]
  · exact rank_lt (.inl ⟨Int.natCast_succ i, rfl⟩) hlt hlow

/-- A pass of the loop goes on to the next byte, or falls to a shorter border. -/
theorem Built.passes {r : Building} {i : Nat} (h : Built t r i) :
    While.Passes (getNextPass t) (fun r => ∃ i, Built t r i) (Tabled t) (Building.rank t) r := by
  have hlast := last_le t
  have hlen := bytes_length ht
  obtain ⟨ri, rj, next⟩ := r
  obtain rfl : ri = i := h.eq
  have hsmall : next.length < 2 ^ 64 := h.small ht
  have hlow : -1 ≤ rj := h.build.low
  have hjlt : rj < i := h.build.lt
  have hlength : next.length = t.size := h.length
  by_cases hlt : (i : Int) < last t
  · by_cases hneg : rj = -1
    · subst hneg
      exact h.advance ht hlt (if_pos rfl) List.nil_suffix
    · obtain ⟨j, rfl⟩ : ∃ j : Nat, rj = j := ⟨rj.toNat, by omega⟩
      have hi : i < t.bytes.length := by omega
      have hj : j < t.bytes.length := by omega
      have hon := goesOn_eq ht ht hi hj
      by_cases heq : t.bytes[j] = t.bytes[i]
      · refine h.advance ht hlt (by rw [hon, heq, beq_self_eq_true]) ?_
        exact (take_succ_suffix_iff hj hi).mpr ⟨heq, h.build.ends (Int.natCast_nonneg j)⟩
      · have hfall := h.build.differ hi hj heq
        refine .inr ⟨⟨i, next.getD j 0, next⟩, ?_, ⟨i, rfl, h.le, h.length, hfall⟩, ?_⟩
        · rw [getNextPass, if_pos hlt, hon, beq_eq_false_iff_ne.mpr (Ne.symm heq)]
          rw [ok_bind, if_neg Bool.false_ne_true, load_eq hsmall (show j < next.length by omega), ok_bind]
        · exact rank_lt (.inr ⟨rfl, (h.build.done j (by omega)).lt⟩) hlt (by omega)
  · refine .inl ⟨by rw [getNextPass, if_neg hlt], hlength, fun k hk => h.build.done k ?_⟩
    omega

theorem getNext_spec (hpos : 0 < t.size) {fuel : Nat} (hfuel : 2 * t.size < fuel) :
    ∃ r, Tabled t r ∧ getNext fuel t (List.replicate t.size 0) = .ok (some r.next) := by
  have hlast := last_le t
  have hlength : (List.replicate t.size (0 : Int)).length = t.size := List.length_replicate
  have hstore : store (List.replicate t.size 0) 0 (-1) = .ok ((List.replicate t.size 0).set 0 (-1)) :=
    store_eq (by rw [hlength]; exact size_lt ht) (by rw [hlength]; exact hpos) (-1)
  have hstart : Built t ⟨0, -1, (List.replicate t.size 0).set 0 (-1)⟩ 0 := by
    refine ⟨rfl, .inl rfl, by rw [List.length_set, hlength], Build.start ?_⟩
    rw [List.getD_eq_getElem?_getD, List.getElem?_set_self (by rw [hlength]; exact hpos), Option.getD_some]
  have hrank : Building.rank t ⟨0, -1, (List.replicate t.size 0).set 0 (-1)⟩ < fuel := by
    simp only [Building.rank]
    omega
  have hpasses : ∀ r, (∃ i, Built t r i) → While.Passes _ _ (Tabled t) (Building.rank t) r :=
    fun r ⟨i, hr⟩ => hr.passes ht
  obtain ⟨r, hrun, hr⟩ := While.run_total hpasses ⟨0, hstart⟩ hrank
  exact ⟨r, hr, by rw [getNext, hstore, ok_bind, hrun, ok_bind]; rfl⟩

end

/-! ## The search -/

/-- The front part that the length as an `int` leaves. -/
def front (x : Bytes) : Bytes := x.take (toInt x.length).toNat

theorem front_length (x : Bytes) : (front x).length = (toInt x.length).toNat := by
  have hle := toInt_le x.length
  rw [front, List.length_take]
  omega

section

variable {s t : StringView} (hs : s.Valid) (ht : t.Valid)

/-- Where the loop of `KMP_search` stands. -/
structure Searched (s t : StringView) (r : Int × Int) (i : Nat) : Prop where
  eq : r.1 = i
  le : i ≤ (front s.bytes).length
  within : r.2 ≤ (front t.bytes).length
  fresh : r.2 = -1 → i < (front s.bytes).length
  scan : Scan (front t.bytes) (front s.bytes) i r.2

def searchRank (s : StringView) (r : Int × Int) : Nat := (2 * (toInt s.size - r.1) + r.2 + 1).toNat

theorem searchRank_lt {r r' : Int × Int} (h : (r'.1 = r.1 + 1 ∧ r'.2 = r.2 + 1) ∨ (r'.1 = r.1 ∧ r'.2 < r.2))
    (hlt : r.1 < toInt s.size) (hlow : -1 ≤ r.2) : searchRank s r' < searchRank s r := by
  unfold searchRank
  omega

include hs in
theorem front_bytes_length : (front s.bytes).length = (toInt s.size).toNat := by
  rw [front_length, bytes_length hs]

include hs ht

theorem Searched.stop {i j : Nat} (h : Searched s t (i, j) i)
    (hend : ¬ ((i : Int) < toInt s.size ∧ (j : Int) < toInt t.size)) (h0 : 0 ≤ toInt t.size) :
    Least (front t.bytes) (front s.bytes) (result t (i, j)) := by
  have hsfront := front_bytes_length hs
  have htfront := front_bytes_length ht
  have hslt := toInt_lt s.size
  have hile := h.le
  have hjle : (j : Int) ≤ (front t.bytes).length := h.within
  have hscan : Scan (front t.bytes) (front s.bytes) i j := h.scan
  unfold result
  by_cases hj : (j : Int) = toInt t.size
  · have hfull : j = (front t.bytes).length := by omega
    rw [hfull] at hscan
    have hends := (hscan.ends (Int.natCast_nonneg _)).length_le
    rw [Int.toNat_natCast, List.take_length, List.length_take] at hends
    have hsub : toInt ((i : Int) - j) = i - j := toInt_of_nonneg (by omega) (by omega)
    rw [if_pos hj, hsub]
    exact .inl ⟨_, hscan.found h.le, by omega⟩
  · rw [if_neg hj]
    have hread : i = (front s.bytes).length := by omega
    rw [hread] at hscan
    exact .inr ⟨rfl, fun k => hscan.absent (List.length_pos_iff.mp (by omega)) (by omega)⟩

theorem Searched.advance {i : Nat} {j : Int} {next : List Int} (h : Searched s t (i, j) i)
    (hguard : j = -1 ∨ ((i : Int) < toInt s.size ∧ j < toInt t.size)) (hon : goesOn s t i j = .ok true)
    (hscan : Scan (front t.bytes) (front s.bytes) (i + 1) (j + 1)) :
    While.Passes (searchPass s t next) (fun r => ∃ i, Searched s t r i)
      (fun r => Least (front t.bytes) (front s.bytes) (result t r)) (searchRank s) (i, j) := by
  have hsfront := front_bytes_length hs
  have htfront := front_bytes_length ht
  have hlow : -1 ≤ j := h.scan.low
  have hfresh : j = -1 → i < (front s.bytes).length := h.fresh
  have hlt : (i : Int) < toInt s.size := by omega
  have hslt := toInt_lt s.size
  have htlt := toInt_lt t.size
  have hi : toInt ((i : Int) + 1) = (i + 1 : Nat) := toInt_of_nonneg (by omega) (by omega)
  have hj : toInt (j + 1) = j + 1 := toInt_of_nonneg (by omega) (by omega)
  refine .inr ⟨((i + 1 : Nat), j + 1), ?_, ⟨i + 1, rfl, by omega, ?_, fun h1 => ?_, hscan⟩, ?_⟩
  · rw [searchPass, if_pos hguard, hon, ok_bind, if_pos rfl, hi, hj]
  · show j + 1 ≤ _
    omega
  · exfalso
    have : j + 1 = -1 := h1
    omega
  · exact searchRank_lt (.inl ⟨Int.natCast_succ i, rfl⟩) hlt hlow

omit hs in
/-- The bytes differ, and the loop falls to a shorter part of the pattern. -/
theorem Searched.fall {i j : Nat} {b : Building} (h : Searched s t (i, j) i) (hb : Tabled t b)
    (hguard : (i : Int) < toInt s.size ∧ (j : Int) < toInt t.size) (hon : goesOn s t i j = .ok false)
    (hi : i < (front s.bytes).length) (hj : j < (front t.bytes).length)
    (hne : (front t.bytes)[j] ≠ (front s.bytes)[i]) :
    While.Passes (searchPass s t b.next) (fun r => ∃ i, Searched s t r i)
      (fun r => Least (front t.bytes) (front s.bytes) (result t r)) (searchRank s) (i, j) := by
  have htlen := bytes_length ht
  have hlength := hb.length
  have hlow : -1 ≤ (j : Int) := by omega
  have hsmall : b.next.length < 2 ^ 64 := by
    rw [hb.length]
    exact size_lt ht
  have hin : j < b.next.length := by
    have htle := toInt_le t.size
    omega
  have hfailure : Failure (front t.bytes) j (b.next.getD j 0) := by
    rw [front_length] at hj
    exact (hb.failures j (le_last (Int.natCast_nonneg j) hguard.2)).take (Nat.le_of_lt hj)
  have hscan : Scan (front t.bytes) (front s.bytes) i j := h.scan
  have hwithin : b.next.getD j 0 ≤ (front t.bytes).length := Int.le_trans (Int.le_of_lt hfailure.lt) h.within
  refine .inr ⟨(i, b.next.getD j 0), ?_, ⟨i, rfl, h.le, hwithin, fun _ => hi, hscan.differ hj hi hne hfailure⟩, ?_⟩
  · rw [searchPass, if_pos (.inr hguard), hon, ok_bind, if_neg Bool.false_ne_true, load_eq hsmall hin, ok_bind]
  · exact searchRank_lt (.inr ⟨rfl, hfailure.lt⟩) hguard.1 hlow

theorem Searched.passes {r : Int × Int} {i : Nat} (h : Searched s t r i) (h0 : 0 ≤ toInt t.size) {b : Building}
    (hb : Tabled t b) :
    While.Passes (searchPass s t b.next) (fun r => ∃ i, Searched s t r i)
      (fun r => Least (front t.bytes) (front s.bytes) (result t r)) (searchRank s) r := by
  have hsfront := front_bytes_length hs
  have htfront := front_bytes_length ht
  have hslen := bytes_length hs
  have htlen := bytes_length ht
  have hsle := toInt_le s.size
  have htle := toInt_le t.size
  obtain ⟨ri, rj⟩ := r
  obtain rfl : ri = i := h.eq
  have hlow : -1 ≤ rj := h.scan.low
  by_cases hneg : rj = -1
  · subst hneg
    have hscan : Scan (front t.bytes) (front s.bytes) i (-1) := h.scan
    exact h.advance hs ht (.inl rfl) (if_pos rfl) hscan.restart
  · obtain ⟨j, rfl⟩ : ∃ j : Nat, rj = j := ⟨rj.toNat, by omega⟩
    by_cases hguard : (i : Int) < toInt s.size ∧ (j : Int) < toInt t.size
    · have hi : i < (front s.bytes).length := by omega
      have hj : j < (front t.bytes).length := by omega
      have hscan : Scan (front t.bytes) (front s.bytes) i j := h.scan
      have hon : goesOn s t i j = .ok ((front s.bytes)[i] == (front t.bytes)[j]) := by
        have hi' : i < s.bytes.length := by omega
        have hj' : j < t.bytes.length := by omega
        rw [goesOn_eq hs ht hi' hj']
        simp [front]
      by_cases heq : (front t.bytes)[j] = (front s.bytes)[i]
      · exact h.advance hs ht (.inr hguard) (by rw [hon, heq, beq_self_eq_true])
          (hscan.equal hj hi heq)
      · exact h.fall ht hb hguard (by rw [hon, beq_eq_false_iff_ne.mpr (Ne.symm heq)]) hi hj heq
    · refine .inl ⟨?_, h.stop hs ht hguard h0⟩
      rw [searchPass, if_neg (fun h => h.elim hneg hguard)]

end

/-! ## The answer -/

theorem Least.unique {p s : Bytes} {r r' : Int} (h : Least p s r) (h' : Least p s r') : r = r' := by
  rcases h with ⟨i, hi, hr⟩ | ⟨hr, hnone⟩ <;> rcases h' with ⟨k, hk, hr'⟩ | ⟨hr', hnone'⟩
  · rw [hr, hr', hi.unique hk]
  · exact absurd hi.here (hnone' i)
  · exact absurd hk.here (hnone k)
  · rw [hr, hr']

/-- What `KMP_search` returns: the place of the front part of the pattern in that of the
    text. -/
inductive Answer (t s : Bytes) : Int → Prop
  | negative : toInt t.length < 0 → Answer t s (-1)
  | least {r : Int} : 0 ≤ toInt t.length → Least (front t) (front s) r → Answer t s r

theorem Answer.unique {t s : Bytes} {r r' : Int} (h : Answer t s r) (h' : Answer t s r') : r = r' := by
  cases h with
  | negative hneg =>
    cases h' with
    | negative _ => rfl
    | least h0 _ => exact absurd hneg (Int.not_lt.mpr h0)
  | least h0 hr =>
    cases h' with
    | negative hneg => exact absurd hneg (Int.not_lt.mpr h0)
    | least _ hr' => exact hr.unique hr'

section

variable {s t : StringView} (hs : s.Valid) (ht : t.Valid)

include hs ht

theorem search_spec {fuel : Nat} (hfuel : 2 * s.size + 1 < fuel) {b : Building} (hb : Tabled t b) :
    ∃ r, While.run (searchPass s t b.next) fuel (0, 0) = .ok (some r) ∧ Answer t.bytes s.bytes (result t r) := by
  have htlen := bytes_length ht
  have hsle := toInt_le s.size
  by_cases hneg : toInt t.size < 0
  · have hstop : searchPass s t b.next (0, 0) = .ok none := by
      rw [searchPass, if_neg (by omega)]
    obtain ⟨fuel, rfl⟩ : ∃ k, fuel = k + 1 := ⟨fuel - 1, by omega⟩
    refine ⟨(0, 0), While.run_stop hstop fuel, ?_⟩
    rw [result, if_neg (Int.ne_of_gt hneg)]
    exact .negative (htlen ▸ hneg)
  · have hstart : Searched s t (0, 0) 0 := by
      refine ⟨rfl, Nat.zero_le _, Int.natCast_nonneg _, fun h => ?_, Scan.start⟩
      cases h
    have hrank : searchRank s (0, 0) < fuel := by
      unfold searchRank
      omega
    have h0 := Int.not_lt.mp hneg
    have hpasses : ∀ r, (∃ i, Searched s t r i) → While.Passes (searchPass s t b.next) _ _ (searchRank s) r :=
      fun r ⟨i, hi⟩ => hi.passes hs ht h0 hb
    obtain ⟨r, hrun, hr⟩ := While.run_total hpasses ⟨0, hstart⟩ hrank
    exact ⟨r, hrun, .least (htlen ▸ h0) hr⟩

theorem kmpSearch_spec (hne : t.bytes ≠ []) {fuel : Nat} (hfuel : 2 * (s.size + t.size) + 1 < fuel) :
    ∃ r, Answer t.bytes s.bytes r ∧ kmpSearch fuel s t = .ok (some r) := by
  have hpos : 0 < t.size := by
    rw [← bytes_length ht]
    exact List.length_pos_iff.mpr hne
  have htfuel : 2 * t.size < fuel := by omega
  have hsfuel : 2 * s.size + 1 < fuel := by omega
  obtain ⟨b, hb, htable⟩ := getNext_spec ht hpos htfuel
  obtain ⟨r, hloop, hanswer⟩ := search_spec hs ht hsfuel hb
  refine ⟨result t r, hanswer, ?_⟩
  rw [kmpSearch, htable, ok_bind]
  dsimp only
  rw [hloop, ok_bind]

/-- It ends within a number of passes linear in the two lengths, and has touched nothing
    outside. -/
theorem kmpSearch_answer (hne : t.bytes ≠ []) : ∃ r, Answer t.bytes s.bytes r ∧
    ∀ fuel, 2 * (s.size + t.size) + 1 < fuel → kmpSearch fuel s t = .ok (some r) := by
  obtain ⟨r, hr, _⟩ := kmpSearch_spec hs ht hne (Nat.lt_succ_self _)
  refine ⟨r, hr, fun fuel hfuel => ?_⟩
  obtain ⟨r', hr', heq⟩ := kmpSearch_spec hs ht hne hfuel
  rw [heq, hr'.unique hr]

theorem searches_iff_answer (hne : t.bytes ≠ []) :
    Searches s t ↔ ∃ r, Least t.bytes s.bytes r ∧ Answer t.bytes s.bytes r := by
  obtain ⟨a, ha, hrun⟩ := kmpSearch_answer hs ht hne
  refine ⟨fun ⟨r, hr, enough, h⟩ => ?_, fun ⟨r, hr, har⟩ => ?_⟩
  · have hmax := h (enough + (2 * (s.size + t.size) + 2)) (by omega)
    rw [hrun _ (by omega), Except.ok.injEq, Option.some.injEq] at hmax
    exact ⟨r, hr, hmax ▸ ha⟩
  · refine ⟨r, hr, 2 * (s.size + t.size) + 2, fun fuel hfuel => ?_⟩
    rw [hrun fuel (by omega), ha.unique har]

end

/-! ## When it is that of the plain search -/

theorem Least.first_iff {p s : Bytes} {r : Int} (h : Least p s r) (i : Nat) : First p s i ↔ r = i := by
  rcases h with ⟨k, hk, hr⟩ | ⟨hr, hnone⟩
  · refine ⟨fun hi => by rw [hr, hk.unique hi], fun hri => ?_⟩
    have hki : k = i := by omega
    exact hki ▸ hk
  · exact iff_of_false (fun hi => hnone i hi.here) (by omega)

theorem exists_least (p s : Bytes) : ∃ r, Least p s r := by
  by_cases h : ∃ k, p <+: s.drop k
  · obtain ⟨k, hk⟩ := h
    obtain ⟨i, hi⟩ := exists_first hk
    exact ⟨i, .inl ⟨i, hi, rfl⟩⟩
  · exact ⟨-1, .inr ⟨rfl, fun i hi => h ⟨i, hi⟩⟩⟩

theorem least_agree_iff {p s p' s' : Bytes} :
    (∃ r, Least p s r ∧ Least p' s' r) ↔ ∀ i, First p s i ↔ First p' s' i := by
  refine ⟨fun ⟨r, hr, hr'⟩ i => (hr.first_iff i).trans (hr'.first_iff i).symm, fun h => ?_⟩
  obtain ⟨r, hr⟩ := exists_least p s
  refine ⟨r, hr, ?_⟩
  rcases hr with ⟨i, hi, hri⟩ | ⟨hr, hnone⟩
  · exact .inl ⟨i, (h i).mp hi, hri⟩
  · refine .inr ⟨hr, fun i hocc => ?_⟩
    obtain ⟨k, hk⟩ := exists_first hocc
    exact hnone k ((h k).mpr hk).here

theorem front_of_small {x : Bytes} (h : x.length < 2 ^ 31) : front x = x := by
  rw [front, toInt_of_lt h, Int.toNat_natCast, List.take_length]

/-- A pattern whose length is an `int`: what cuts the text short is all that matters. -/
theorem first_front_iff {t s : Bytes} (ht : t ≠ []) (hsmall : t.length < 2 ^ 31) (i : Nat) :
    First (front t) (front s) i ↔ First t s i ∧ ((i + t.length : Nat) : Int) ≤ toInt s.length := by
  have hpos := List.length_pos_iff.mpr ht
  rw [front_of_small hsmall, front, First.take_iff ht]
  exact and_congr_right fun _ => by omega

/-- Narrowing the two lengths changes nothing. -/
structure Unnarrowed (t s : Bytes) : Prop where
  negative : toInt t.length < 0 → ∀ i, ¬ t <+: s.drop i
  small : t.length < 2 ^ 31 → ∀ i, First t s i → ((i + t.length : Nat) : Int) ≤ toInt s.length
  large : 0 ≤ toInt t.length → 2 ^ 31 ≤ t.length → ∀ i, First t s i ↔ First (front t) (front s) i

theorem unnarrowed_iff {t s : Bytes} (ht : t ≠ []) : (∃ r, Least t s r ∧ Answer t s r) ↔ Unnarrowed t s := by
  refine ⟨fun ⟨r, hr, ha⟩ => ?_, fun h => ?_⟩
  · cases ha with
    | negative hneg =>
      refine ⟨fun _ i hocc => ?_, fun hsmall => ?_, fun h0 => absurd hneg (Int.not_lt.mpr h0)⟩
      · obtain ⟨k, hk⟩ := exists_first hocc
        have hk := (hr.first_iff k).mp hk
        omega
      · rw [toInt_of_lt hsmall] at hneg
        omega
    | least h0 hr' =>
      have hiff := least_agree_iff.mp ⟨r, hr, hr'⟩
      refine ⟨fun hneg => absurd hneg (Int.not_lt.mpr h0), fun hsmall i hi => ?_, fun _ _ => hiff⟩
      exact ((first_front_iff ht hsmall i).mp ((hiff i).mp hi)).2
  · by_cases hneg : toInt t.length < 0
    · exact ⟨-1, .inr ⟨rfl, h.negative hneg⟩, .negative hneg⟩
    · have h0 := Int.not_lt.mp hneg
      have hiff : ∀ i, First t s i ↔ First (front t) (front s) i := by
        by_cases hsmall : t.length < 2 ^ 31
        · intro i
          rw [first_front_iff ht hsmall]
          exact ⟨fun hi => ⟨hi, h.small hsmall i hi⟩, fun hi => hi.1⟩
        · exact h.large h0 (Nat.not_lt.mp hsmall)
      obtain ⟨r, hr, hr'⟩ := least_agree_iff.mpr hiff
      exact ⟨r, hr, .least h0 hr'⟩

theorem unnarrowed_of_small {t s : Bytes} (ht : t.length < 2 ^ 31) (hs : s.length < 2 ^ 31) (hne : t ≠ []) :
    Unnarrowed t s := by
  refine ⟨fun hneg => ?_, fun _ i hi => ?_, fun _ hlarge => absurd ht (Nat.not_lt.mpr hlarge)⟩
  · rw [toInt_of_lt ht] at hneg
    omega
  · have hpos := List.length_pos_iff.mpr hne
    have hle := hi.here.length_le
    rw [List.length_drop] at hle
    rw [toInt_of_lt hs]
    omega

/-- The texts and patterns for which `KMP_search` is the plain search. -/
theorem searches_iff (s : Range) (t : Pattern) : Searches s.1 t.1.1 ↔ Unnarrowed t.1.1.bytes s.1.bytes := by
  obtain ⟨⟨t, ht⟩, hne⟩ := t
  exact (searches_iff_answer s.2 ht hne).trans (unnarrowed_iff hne)

example : kmpSearch 30 (ofBytes (lit "aabaabaaaba")) (ofBytes (lit "abaaab")) = .ok (some 4) := by decide +kernel

/-- `a` in as many `a`s as no `int` counts. -/
theorem not_searches_replicate {n : Nat} (h : n = 2 ^ 31) :
    ¬ Searches (ofBytes (List.replicate n 97)) (ofBytes [97]) := by
  have hlength : (List.replicate n (97 : UInt8)).length = n := List.length_replicate
  have hs : (ofBytes (List.replicate n 97)).Valid := valid_ofBytes (by omega)
  have ht : (ofBytes [97]).Valid := valid_ofBytes (by decide)
  have hsb := bytes_ofBytes hs
  have htb := bytes_ofBytes ht
  intro hsearch
  rw [searches_iff_answer hs ht (by rw [htb]; exact List.cons_ne_nil 97 []), hsb, htb,
    unnarrowed_iff (List.cons_ne_nil 97 [])] at hsearch
  have hfirst : First [97] (List.replicate n (97 : UInt8)) 0 := by
    obtain ⟨m, rfl⟩ : ∃ m, n = m + 1 := ⟨n - 1, by omega⟩
    refine ⟨?_, fun k hk => absurd hk (Nat.not_lt_zero k)⟩
    rw [List.drop_zero, List.replicate_succ]
    exact ⟨List.replicate m 97, rfl⟩
  have hle := hsearch.small (by decide) 0 hfirst
  have hneg : toInt n < 0 := by
    unfold toInt
    rw [Int.bmod_def]
    split <;> omega
  rw [hlength] at hle
  omega

theorem not_searches_long : ¬ Searches (ofBytes (List.replicate (2 ^ 31) 97)) (ofBytes [97]) :=
  not_searches_replicate rfl

end HahaWeb.StringView
