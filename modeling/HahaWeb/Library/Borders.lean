/-
  HahaWeb.Library.Borders — the borders of a pattern, and a search along them.

  `Failure p j f` says that `f` is the longest border of the first `j` of `p` that is
  shorter than `j`, or -1 when there is none. A search holds a `j` for which the first `j`
  of `p` are the last of what it has read, and for no longer part can the search go on
  (`Along`); -1 is for no part at all. Where it cannot go on with `j` either, it falls to
  the failure of `j` (`Along.fall`). Proved with it:
  - `Scan`, over a text: the first place where the pattern occurs (`Scan.found`), or that
    it occurs nowhere (`Scan.absent`).
  - `Build`, over the pattern itself: the failures one after the other.
-/

import Mathlib.Data.List.Basic
import Mathlib.Data.Nat.Find

namespace Borders

variable {α : Type} {p s u : List α} {i j k : Nat} {f : Int}

/-! ## Where a pattern occurs -/

/-- `i` is the first place where `p` occurs in `s`. -/
structure First (p s : List α) (i : Nat) : Prop where
  here : p <+: s.drop i
  before : ∀ k < i, ¬ p <+: s.drop k

theorem First.unique (hi : First p s i) (hk : First p s k) : i = k := by
  rcases Nat.lt_trichotomy i k with hlt | heq | hlt
  · exact absurd hi.here (hk.before i hlt)
  · exact heq
  · exact absurd hk.here (hi.before k hlt)

theorem exists_first (h : p <+: s.drop k) : ∃ i, First p s i := by
  classical
  have hex : ∃ k, p <+: s.drop k := ⟨k, h⟩
  exact ⟨Nat.find hex, Nat.find_spec hex, fun _ hlt => Nat.find_min hex hlt⟩

theorem prefix_drop_take_iff (hp : p ≠ []) {m : Nat} : p <+: (s.take m).drop i ↔ p <+: s.drop i ∧ i + p.length ≤ m := by
  have hpos := List.length_pos_iff.mpr hp
  rw [List.drop_take, List.prefix_take_iff]
  exact and_congr_right fun _ => by omega

theorem First.take_iff (hp : p ≠ []) {m : Nat} : First p (s.take m) i ↔ First p s i ∧ i + p.length ≤ m := by
  refine ⟨fun h => ?_, fun ⟨h, hm⟩ => ?_⟩
  · obtain ⟨hhere, hm⟩ := (prefix_drop_take_iff hp).mp h.here
    refine ⟨⟨hhere, fun k hk hocc => ?_⟩, hm⟩
    exact h.before k hk ((prefix_drop_take_iff hp).mpr ⟨hocc, by omega⟩)
  · exact ⟨(prefix_drop_take_iff hp).mpr ⟨h.here, hm⟩, fun k hk hocc =>
      h.before k hk ((prefix_drop_take_iff hp).mp hocc).1⟩

/-- Where `p` occurs, so much of `p` ends so much later. -/
theorem take_suffix_of_prefix_drop (h : p <+: s.drop k) (hj : j ≤ p.length) : p.take j <:+ s.take (k + j) := by
  obtain ⟨t, ht⟩ := h
  refine ⟨s.take k, ?_⟩
  rw [List.take_add, ← ht, List.take_append_of_le_length hj]

theorem prefix_drop_of_suffix_take (hi : i ≤ s.length) (h : p <:+ s.take i) : p <+: s.drop (i - p.length) := by
  obtain ⟨t, ht⟩ := h
  have hlen := congrArg List.length ht
  rw [List.length_append, List.length_take, Nat.min_eq_left hi] at hlen
  refine ⟨s.drop i, ?_⟩
  have hall : t ++ (p ++ s.drop i) = s := by rw [← List.append_assoc, ht, List.take_append_drop]
  rw [← congrArg (List.drop (i - p.length)) hall, List.drop_left' (by omega)]

theorem take_succ_suffix_iff (hj : j < p.length) (hi : i < s.length) :
    p.take (j + 1) <:+ s.take (i + 1) ↔ p[j] = s[i] ∧ p.take j <:+ s.take i := by
  rw [List.take_succ_eq_append_getElem hj, List.take_succ_eq_append_getElem hi, ← List.reverse_prefix,
    List.reverse_concat, List.reverse_concat, List.cons_prefix_cons, List.reverse_prefix]

/-! ## Falling to a border -/

structure Failure (p : List α) (j : Nat) (f : Int) : Prop where
  low : -1 ≤ f
  lt : f < j
  border : 0 ≤ f → p.take f.toNat <:+ p.take j
  longest : ∀ k < j, p.take k <:+ p.take j → k ≤ f

theorem Failure.take (h : Failure p j f) {n : Nat} (hj : j ≤ n) : Failure (p.take n) j f where
  low := h.low
  lt := h.lt
  border hf := by
    have hlt := h.lt
    rw [List.take_take, List.take_take, Nat.min_eq_left (by omega), Nat.min_eq_left hj]
    exact h.border hf
  longest k hk hsuf := by
    rw [List.take_take, List.take_take, Nat.min_eq_left (by omega), Nat.min_eq_left hj] at hsuf
    exact h.longest k hk hsuf

/-- The first `j` of `p` are the last of `u`, and `Goes` for no more than these. -/
structure Along (p u : List α) (Goes : Nat → Prop) (j : Int) : Prop where
  low : -1 ≤ j
  ends : 0 ≤ j → p.take j.toNat <:+ u
  longer : ∀ l : Nat, j < l → ¬ Goes l

theorem Along.fall {Goes : Nat → Prop} (h : Along p u Goes j) (hgoes : ∀ l, Goes l → l ≤ j → p.take l <:+ u)
    (hno : ¬ Goes j) (hf : Failure p j f) : Along p u Goes f where
  low := hf.low
  ends hf0 := (hf.border hf0).trans (h.ends (Int.natCast_nonneg j))
  longer l hl hl' := by
    rcases Nat.lt_trichotomy l j with hlt | rfl | hlt
    · have hshort : (p.take l).length ≤ (p.take j).length := by
        rw [List.length_take, List.length_take]
        omega
      have hborder := List.suffix_of_suffix_length_le (hgoes l hl' (Nat.le_of_lt hlt))
        (h.ends (Int.natCast_nonneg j)) hshort
      exact absurd (hf.longest l hlt hborder) (by omega)
    · exact hno hl'
    · exact h.longer l (by omega) hl'

/-! ## Over a text -/

/-- The pattern occurs where its first `l` would end here. -/
def Starts (p s : List α) (i l : Nat) : Prop := l ≤ i ∧ p <+: s.drop (i - l)

/-- `i` have been read. -/
def Scan (p s : List α) (i : Nat) (j : Int) : Prop := Along p (s.take i) (Starts p s i) j

theorem Scan.start : Scan p s 0 0 where
  low := by omega
  ends _ := List.nil_suffix
  longer l hl h := by
    have := h.1
    omega

theorem starts_succ {l : Nat} (h : Starts p s (i + 1) (l + 1)) : Starts p s i l :=
  ⟨by have := h.1; omega, by have := h.2; rwa [Nat.add_sub_add_right] at this⟩

theorem Scan.longer_succ {j : Int} (h : Scan p s i j) (l : Nat) (hl : j + 1 < l) : ¬ Starts p s (i + 1) l := by
  intro hstarts
  have := h.low
  obtain ⟨l, rfl⟩ : ∃ l', l = l' + 1 := ⟨l - 1, by omega⟩
  exact h.longer l (by omega) (starts_succ hstarts)

theorem Scan.restart (h : Scan p s i (-1)) : Scan p s (i + 1) 0 :=
  ⟨by omega, fun _ => List.nil_suffix, fun l hl => h.longer_succ l (by omega)⟩

theorem Scan.equal (h : Scan p s i j) (hj : j < p.length) (hi : i < s.length) (heq : p[j] = s[i]) :
    Scan p s (i + 1) (j + 1) :=
  ⟨by omega, fun _ => (take_succ_suffix_iff hj hi).mpr ⟨heq, h.ends (Int.natCast_nonneg j)⟩, h.longer_succ⟩

theorem Scan.differ (h : Scan p s i j) (hj : j < p.length) (hi : i < s.length) (hne : p[j] ≠ s[i])
    (hf : Failure p j f) : Scan p s i f := by
  refine Along.fall h (fun l hl hle => ?_) (fun hstarts => ?_) hf
  · have hsuf := take_suffix_of_prefix_drop hl.2 (j := l) (by omega)
    rwa [Nat.sub_add_cancel hl.1] at hsuf
  · have hsuf := take_suffix_of_prefix_drop hstarts.2 (j := j + 1) hj
    rw [← Nat.add_assoc, Nat.sub_add_cancel hstarts.1] at hsuf
    exact hne ((take_succ_suffix_iff hj hi).mp hsuf).1

theorem Scan.found (h : Scan p s i p.length) (hi : i ≤ s.length) : First p s (i - p.length) := by
  have hends := h.ends (Int.natCast_nonneg _)
  rw [Int.toNat_natCast, List.take_length] at hends
  have hle := hends.length_le
  rw [List.length_take] at hle
  refine ⟨prefix_drop_of_suffix_take hi hends, fun k hk hocc => ?_⟩
  exact h.longer (i - k) (by omega) ⟨by omega, by rwa [show i - (i - k) = k by omega]⟩

theorem Scan.absent {j : Int} (h : Scan p s s.length j) (hp : p ≠ []) (hj : j < p.length) : ¬ p <+: s.drop k := by
  intro hocc
  have hpos := List.length_pos_iff.mpr hp
  have hle := hocc.length_le
  rw [List.length_drop] at hle
  have hlow := h.low
  exact h.longer (s.length - k) (by omega) ⟨by omega, by rwa [show s.length - (s.length - k) = k by omega]⟩

/-! ## Over the pattern itself -/

/-- The first `l` can be made one longer. -/
def Extends (p : List α) (i l : Nat) : Prop := l < i ∧ i < p.length ∧ p.take (l + 1) <:+ p.take (i + 1)

/-- The failures up to `i` are known. -/
structure Build (p : List α) (next : Nat → Int) (i : Nat) (j : Int) : Prop extends
    Along p (p.take i) (Extends p i) j where
  lt : j < i
  done : ∀ k ≤ i, Failure p k (next k)

theorem Failure.longer {j : Int} (h : Failure p i j) (l : Nat) (hl : j < l) : ¬ Extends p i l := by
  intro ⟨hli, hi, hsuf⟩
  have := h.longest l hli ((take_succ_suffix_iff (by omega) hi).mp hsuf).2
  omega

theorem Build.start {next : Nat → Int} (h : next 0 = -1) : Build p next 0 (-1) where
  low := by omega
  ends h := by omega
  longer l _ h := by
    have := h.1
    omega
  lt := by omega
  done k hk := by
    obtain rfl : k = 0 := by omega
    rw [h]
    exact ⟨by omega, by omega, fun h => by omega, fun k hk => by omega⟩

section

variable {next next' : Nat → Int}

/-- With the last failure written. -/
theorem Build.succ {j : Int} (h : Build p next i j) (hi : i < p.length) (hsuf : p.take (j + 1).toNat <:+ p.take (i + 1))
    (hnew : next' (i + 1) = j + 1) (hold : ∀ k ≤ i, next' k = next k) : Build p next' (i + 1) (j + 1) := by
  have hlow := h.low
  have hlt := h.lt
  have hlast : Failure p (i + 1) (j + 1) := by
    refine ⟨by omega, by omega, fun _ => hsuf, fun k hk hborder => ?_⟩
    by_contra hgt
    obtain ⟨l, rfl⟩ : ∃ l, k = l + 1 := ⟨k - 1, by omega⟩
    exact h.longer l (by omega) ⟨by omega, hi, hborder⟩
  refine ⟨⟨hlast.low, hlast.border, hlast.longer⟩, hlast.lt, fun k hk => ?_⟩
  rcases Nat.lt_or_eq_of_le hk with hlt | rfl
  · rw [hold k (by omega)]
    exact h.done k (by omega)
  · rw [hnew]
    exact hlast

theorem Build.differ (h : Build p next i j) (hi : i < p.length) (hj : j < p.length) (hne : p[j] ≠ p[i]) :
    Build p next i (next j) := by
  have hlt := h.lt
  have hf := h.done j (by omega)
  have hfall := Along.fall h.toAlong (fun l hl _ => ((take_succ_suffix_iff (by have := hl.1; omega) hi).mp hl.2.2).2)
    (fun hext => hne ((take_succ_suffix_iff hj hi).mp hext.2.2).1) hf
  have hflt := hf.lt
  exact ⟨hfall, by omega, h.done⟩

end

end Borders
