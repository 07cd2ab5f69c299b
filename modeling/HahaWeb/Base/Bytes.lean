/-
  HahaWeb.Base.Bytes — byte strings as the sources use them: `std::string`,
  `std::string_view` and the C string functions, with the checks their members make
  or leave to the caller.

  An access the library does not check (`operator[]`, `remove_prefix`) is `outOfRange`
  past the end instead of undefined; one it checks throws (`substr`, `stoul`, `stoi`).
  Sizes are natural numbers (no container is as large as 2^64); a cast to `int` wraps.
-/

import Mathlib.Data.List.Infix

namespace HahaWeb

abbrev Bytes := List UInt8

/-- The bytes of a literal of the sources. -/
def lit (s : String) : Bytes := s.toList.map fun c => UInt8.ofNat c.toNat

def CR : UInt8 := 13
def LF : UInt8 := 10
def crlf : Bytes := [CR, LF]

/-- A property of bytes is checked one byte at a time. -/
theorem forall_byte {p : UInt8 → Prop} (h : ∀ n : Fin 256, p (UInt8.ofNat n)) (c : UInt8) : p c := by
  have := h ⟨c.toNat, c.toNat_lt⟩
  rwa [UInt8.ofNat_toNat] at this

/-- A run of one kind of elements ends where the next is of another. -/
theorem takeWhile_run {α : Type} {p : α → Bool} {run rest : List α} (h : ∀ c ∈ run, p c = true)
    (hr : ∀ c ∈ rest.head?, p c = false) :
    (run ++ rest).takeWhile p = run ∧ (run ++ rest).dropWhile p = rest := by
  rw [List.takeWhile_append_of_pos h, List.dropWhile_append_of_pos h]
  cases rest with
  | nil => simp
  | cons c t => simp [hr c rfl]

/-- How a call ends other than by returning. -/
inductive Fault where
  /-- An index or `remove_prefix` past the end of a view. -/
  | outOfRange
  | assertion
  /-- `std::invalid_argument` -/
  | invalidArgument
  /-- `std::out_of_range` -/
  | stdOutOfRange
  /-- An object used after its end. -/
  | dangling
  /-- A signed sum beyond its type: undefined, and an optimiser reckons with that. -/
  | overflow
  /-- A loop that never ends. -/
  | hang
  /-- `std::length_error` -/
  | lengthError
  /-- `std::filesystem::filesystem_error` -/
  | filesystemError
  /-- `std::terminate`: an exception left a destructor. -/
  | terminate
  deriving DecidableEq, Repr

/-! ## Views -/

/-- `view[k]` -/
def charAt (v : Bytes) (k : Nat) : Except Fault UInt8 :=
  match v[k]? with
  | some c => .ok c
  | none => .error .outOfRange

/-- `view.remove_prefix(n)` -/
def removePrefix (v : Bytes) (n : Nat) : Except Fault Bytes :=
  if n ≤ v.length then .ok (v.drop n) else .error .outOfRange

/-- `view.substr(pos, n)` -/
def substr (v : Bytes) (pos n : Nat) : Except Fault Bytes :=
  if pos ≤ v.length then .ok ((v.drop pos).take n) else .error .stdOutOfRange

@[simp] theorem removePrefix_of_le {v : Bytes} {n : Nat} (h : n ≤ v.length) : removePrefix v n = .ok (v.drop n) := by
  simp [removePrefix, h]

@[simp] theorem substr_of_le {v : Bytes} {pos n : Nat} (h : pos ≤ v.length) :
    substr v pos n = .ok ((v.drop pos).take n) := by
  simp [substr, h]

theorem charAt_of_lt {v : Bytes} {k : Nat} (h : k < v.length) : charAt v k = .ok v[k] := by
  simp [charAt, h]

/-! ## Searches -/

/-- `view.find(pat)`, `none` for `npos`. -/
def find (pat : Bytes) : Bytes → Option Nat
  | [] => if pat.isEmpty then some 0 else none
  | c :: v => if pat.isPrefixOf (c :: v) then some 0 else (find pat v).map (· + 1)

/-- A found position holds the pattern and no earlier one does. -/
theorem find_eq_some {pat v : Bytes} {n : Nat} :
    find pat v = some n ↔ pat <+: v.drop n ∧ n ≤ v.length ∧ ∀ m < n, ¬ pat <+: v.drop m := by
  induction v generalizing n with
  | nil =>
    cases n with
    | zero => cases pat <;> simp [find]
    | succ n => cases pat <;> simp [find]
  | cons c v ih =>
    unfold find
    by_cases hp : pat <+: c :: v
    · rw [if_pos (List.isPrefixOf_iff_prefix.mpr hp)]
      constructor
      · intro h
        cases h
        exact ⟨hp, Nat.zero_le _, fun m hm => absurd hm (Nat.not_lt_zero m)⟩
      · intro hx
        rcases hx with ⟨-, -, h⟩
        cases n with
        | zero => rfl
        | succ n => exact absurd hp (h 0 (Nat.succ_pos n))
    · rw [if_neg fun h => hp (List.isPrefixOf_iff_prefix.mp h)]
      cases n with
      | zero => simp [hp]
      | succ n =>
        simp only [Option.map_eq_some_iff, Nat.add_right_cancel_iff, exists_eq_right, ih, List.drop_succ_cons,
          List.length_cons, Nat.add_le_add_iff_right]
        constructor
        · intro hx
          rcases hx with ⟨h1, h2, h3⟩
          refine ⟨h1, h2, fun m hm => ?_⟩
          cases m with
          | zero => exact hp
          | succ m => exact h3 m (by omega)
        · intro hx
          rcases hx with ⟨h1, h2, h3⟩
          exact ⟨h1, h2, fun m hm => h3 (m + 1) (by omega)⟩

theorem find_spec {pat v : Bytes} {n : Nat} (h : find pat v = some n) :
    pat <+: v.drop n ∧ n ≤ v.length ∧ ∀ m < n, ¬ pat <+: v.drop m := by
  rwa [find_eq_some] at h

theorem find_le {pat v : Bytes} {n : Nat} (h : find pat v = some n) : n + pat.length ≤ v.length := by
  obtain ⟨hp, hn, -⟩ := find_spec h
  have := hp.length_le
  simp at this
  omega

theorem find_drop {pat v : Bytes} {n : Nat} (h : find pat v = some n) : v.drop n = pat ++ v.drop (n + pat.length) := by
  obtain ⟨⟨w, hw⟩, -, -⟩ := find_spec h
  have : (v.drop n).drop pat.length = w := by rw [← hw]; simp
  rw [← List.drop_drop, this, hw]

theorem find_eq_none {pat v : Bytes} : find pat v = none ↔ ∀ n ≤ v.length, ¬ pat <+: v.drop n := by
  induction v with
  | nil => cases pat <;> simp [find]
  | cons c v ih =>
    unfold find
    by_cases hp : pat <+: c :: v
    · rw [if_pos (List.isPrefixOf_iff_prefix.mpr hp)]
      simp only [reduceCtorEq, false_iff]
      exact fun h => h 0 (Nat.zero_le _) hp
    · rw [if_neg fun h => hp (List.isPrefixOf_iff_prefix.mp h), Option.map_eq_none_iff, ih]
      constructor
      · intro h n hn
        cases n with
        | zero => exact hp
        | succ n => exact h n (by simpa using hn)
      · exact fun h n hn => h (n + 1) (by simpa using hn)

theorem prefix_append_iff {pat v : Bytes} (h : pat.length ≤ v.length) (z : Bytes) : pat <+: v ++ z ↔ pat <+: v :=
  ⟨fun hp => List.prefix_of_prefix_length_le hp (List.prefix_append _ _) h, fun hp => hp.trans (List.prefix_append _ _)⟩

/-- What is found stays found when more bytes arrive. -/
theorem find_append {pat v : Bytes} {n : Nat} (h : find pat v = some n) (z : Bytes) : find pat (v ++ z) = some n := by
  obtain ⟨hp, hn, hno⟩ := find_spec h
  have hlen := find_le h
  rw [find_eq_some]
  refine ⟨?_, by simp; omega, fun m hm hpm => ?_⟩
  · rw [List.drop_append_of_le_length hn]
    exact hp.trans (List.prefix_append _ _)
  · apply hno m hm
    rw [List.drop_append_of_le_length (by omega)] at hpm
    exact List.prefix_of_prefix_length_le hpm (List.prefix_append _ _) (by simp; omega)

theorem find_byte {c : UInt8} {u : Bytes} (h : c ∉ u) (w : Bytes) : find [c] (u ++ c :: w) = some u.length := by
  rw [find_eq_some]
  refine ⟨by simp, by simp, fun m hm hp => h ?_⟩
  rw [List.drop_append_of_le_length (by omega), List.drop_eq_getElem_cons hm, List.cons_append,
    List.cons_prefix_cons] at hp
  exact hp.1 ▸ List.getElem_mem hm

theorem find_byte_none {c : UInt8} {u : Bytes} (h : c ∉ u) : find [c] u = none := by
  rw [find_eq_none]
  refine fun n _ hp => h ?_
  obtain ⟨w, hw⟩ := hp
  exact List.mem_of_mem_drop (by rw [← hw]; simp)

/-- A byte that is found stands right behind the bytes without it. -/
theorem find_byte_some {c : UInt8} {v : Bytes} {n : Nat} (h : find [c] v = some n) :
    c ∉ v.take n ∧ v = v.take n ++ c :: v.drop (n + 1) := by
  obtain ⟨-, hn, hno⟩ := find_spec h
  refine ⟨fun hc => ?_, ?_⟩
  · obtain ⟨m, hm, rfl⟩ := List.mem_iff_getElem.mp hc
    rw [List.length_take] at hm
    apply hno m (by omega)
    rw [List.drop_eq_getElem_cons (show m < v.length by omega), List.getElem_take]
    exact List.prefix_cons_iff.mpr (.inr ⟨[], rfl, List.nil_prefix⟩)
  · have hd : v.drop n = c :: v.drop (n + 1) := find_drop h
    rw [← hd, List.take_append_drop]

theorem not_mem_of_find_none {c : UInt8} {v : Bytes} (h : find [c] v = none) : c ∉ v := by
  intro hc
  obtain ⟨n, hn, rfl⟩ := List.mem_iff_getElem.mp hc
  rw [find_eq_none] at h
  apply h n (by omega)
  rw [List.drop_eq_getElem_cons hn]
  exact List.prefix_cons_iff.mpr (.inr ⟨[], rfl, List.nil_prefix⟩)

/-- What stands before and behind the first byte of a kind. -/
theorem cut_unique {c : UInt8} {a a' b b' : Bytes} (ha : c ∉ a) (ha' : c ∉ a') (h : a ++ c :: b = a' ++ c :: b') :
    a = a' ∧ b = b' := by
  have hlen : a.length = a'.length := by
    have hfind := find_byte ha b
    rw [h, find_byte ha' b', Option.some.injEq] at hfind
    exact hfind.symm
  obtain ⟨h1, h2⟩ := List.append_inj h hlen
  exact ⟨h1, (List.cons.inj h2).2⟩

/-- `view.find_first_of(c, pos)` for a single byte `c`. -/
def findFirstOf (c : UInt8) (v : Bytes) (pos : Nat) : Option Nat :=
  ((v.drop pos).findIdx? (· == c)).map (· + pos)

/-- `view.find_first_not_of(c, pos)` for a single byte `c`. -/
def findFirstNotOf (c : UInt8) (v : Bytes) (pos : Nat) : Option Nat :=
  ((v.drop pos).findIdx? (· != c)).map (· + pos)

theorem findFirstOf_lt {c : UInt8} {v : Bytes} {pos n : Nat} (h : findFirstOf c v pos = some n) : pos ≤ n ∧
    n < v.length := by
  obtain ⟨i, hi, rfl⟩ := Option.map_eq_some_iff.mp h
  obtain ⟨hlt, -⟩ := List.findIdx?_eq_some_iff_getElem.mp hi
  simp only [List.length_drop] at hlt
  omega

theorem findFirstNotOf_lt {c : UInt8} {v : Bytes} {pos n : Nat} (h : findFirstNotOf c v pos = some n) :
    pos ≤ n ∧ n < v.length := by
  obtain ⟨i, hi, rfl⟩ := Option.map_eq_some_iff.mp h
  obtain ⟨hlt, -⟩ := List.findIdx?_eq_some_iff_getElem.mp hi
  simp only [List.length_drop] at hlt
  omega

/-- The first `c` behind bytes that are not `c`. -/
theorem findFirstOf_append {c : UInt8} {u : Bytes} (hu : c ∉ u) (p w : Bytes) :
    findFirstOf c (p ++ (u ++ c :: w)) p.length = some (p.length + u.length) := by
  have hn : (u ++ c :: w).findIdx? (· == c) = some u.length := by
    rw [List.findIdx?_eq_some_iff_getElem]
    refine ⟨by simp, by simp, fun j hj => ?_⟩
    rw [List.getElem_append_left hj]
    simp only [beq_iff_eq]
    exact fun h => hu (h ▸ List.getElem_mem hj)
  rw [findFirstOf, List.drop_left, hn]
  simp [Nat.add_comm]

theorem crlf_prefix_drop {v : Bytes} {k : Nat} (h : k + 1 < v.length) : crlf <+: v.drop k ↔ v[k] = CR ∧
    v[k + 1] = LF := by
  rw [List.drop_eq_getElem_cons (by omega), List.drop_eq_getElem_cons h]
  simp only [crlf, List.cons_prefix_cons, List.nil_prefix, and_true, eq_comm]

theorem find_crlf_eq_none {v : Bytes} (h : CR ∉ v) : find crlf v = none := by
  rw [find_eq_none]
  refine fun n _ hp => h ?_
  obtain ⟨w, hw⟩ := hp
  exact List.mem_of_mem_drop (by rw [← hw]; simp [crlf])

@[simp] theorem drop_line (line rest : Bytes) : (line ++ crlf ++ rest).drop (line.length + 2) = rest := by
  rw [List.append_assoc, ← List.drop_drop, List.drop_left]
  rfl

/-- A line without CR ends at the CRLF written behind it. -/
theorem find_crlf_of_not_mem {line : Bytes} (h : CR ∉ line) (rest : Bytes) :
    find crlf (line ++ crlf ++ rest) = some line.length := by
  rw [find_eq_some]
  refine ⟨by simp, by simp, fun m hm hp => h ?_⟩
  obtain ⟨w, hw⟩ := hp
  rw [List.append_assoc, List.drop_append_of_le_length (by omega), List.drop_eq_getElem_cons hm] at hw
  have hc : CR = (line)[m] := (List.cons.inj hw).1
  exact hc ▸ List.getElem_mem hm

end HahaWeb
