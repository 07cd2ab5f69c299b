/-
  HahaWeb.Base.StringView — `base/stringView.h` against what strings do.

  A view is two pointers into an array. The comments say what each member is for, and the
  loops do something else: `substr` ends a byte early, both `starts_with` ask whether the
  view is a prefix of the string, and `ends_with` of a range refuses every range that is
  not empty (`begin < end`). `ends_with` of a C string takes the lengths as `int`.
  `compare` is right. Proved: for each call, exactly when it gives what the string
  operation gives (`agrees_iff`).
-/

import HahaWeb.Base.Util
import HahaWeb.Library.Borders

namespace HahaWeb

/-- `begin_` and `end_` as their distances from the start of the array. -/
structure StringView where
  data : Bytes
  begin_ : Int
  end_ : Int

namespace StringView

/-! ## The members -/

def size (v : StringView) : Nat := ((v.end_ - v.begin_) % 2 ^ 64).toNat

/-- `*p` -/
def read (v : StringView) (p : Int) : Except Fault UInt8 :=
  if 0 ≤ p then charAt v.data p.toNat else .error .outOfRange

/-- `substr(pos, len)` -/
def substr (v : StringView) (pos len : Nat) : Except Fault StringView :=
  let begin1 := v.begin_ + pos
  if v.end_ < begin1 then .error .stdOutOfRange
  else
    let end1 := begin1 + len - 1
    if v.end_ < end1 then .error .stdOutOfRange else .ok ⟨v.data, begin1, end1⟩

/-- The loop of both `starts_with`, with the test for the end of the string. -/
def startsLoop (v str : StringView) (more : Nat → Except Fault Bool) (i : Nat) : Except Fault Nat := do
  if !(← more i) then .ok i
  else if _h : i < v.size then
    if (← str.read (str.begin_ + i)) = (← v.read (v.begin_ + i)) then startsLoop v str more (i + 1) else .ok i
  else .ok i
termination_by v.size - i

/-- `starts_with(begin, end)` -/
def startsWithRange (v str : StringView) : Except Fault Bool := do
  let i ← startsLoop v str (fun i => .ok (str.begin_ + i != str.end_)) 0
  .ok (if i < v.size then false else true)

/-- A C string, with its NUL. -/
def cString (str : Bytes) : StringView := ⟨str ++ [0], 0, str.length⟩

/-- `starts_with(str)` -/
def startsWith (v : StringView) (str : Bytes) : Except Fault Bool := do
  let str := cString str
  let i ← startsLoop v str (fun i => do .ok ((← str.read (str.begin_ + i)) != 0)) 0
  .ok (if i < v.size then false else true)

/-- The loop of both `ends_with`: `i` where it ends. -/
def endsLoop (v str : StringView) (i j : Int) : Except Fault Int := do
  if _h : 0 ≤ i ∧ 0 ≤ j then
    if (← str.read (str.begin_ + i)) = (← v.read (v.begin_ + j)) then endsLoop v str (i - 1) (j - 1) else .ok i
  else .ok i
termination_by (i + 1).toNat

/-- `ends_with(begin, end)` -/
def endsWithRange (v str : StringView) : Except Fault Bool :=
  if str.begin_ = str.end_ then .ok true
  else if str.begin_ < str.end_ ∨ v.size = 0 ∨ toInt v.size < str.end_ - str.begin_ then .ok false
  else do
    let i ← endsLoop v str (toInt (str.end_ - str.begin_ - 1)) (toInt (toInt v.size - 1))
    .ok (if 0 ≤ i then false else true)

/-- `ends_with(str)` -/
def endsWith (v : StringView) (str : Bytes) : Except Fault Bool :=
  let i := toInt str.length
  if i = 0 then .ok true
  else if toInt v.size = 0 ∨ toInt v.size < i then .ok false
  else do
    let i ← endsLoop v (cString str) (toInt (i - 1)) (toInt (toInt v.size - 1))
    .ok (if 0 ≤ i then false else true)

/-- `strncmp`, its sign. -/
def strncmp : Bytes → Bytes → Nat → Int
  | _, _, 0 => 0
  | a, b, n + 1 =>
    if a.headD 0 ≠ b.headD 0 then if a.headD 0 < b.headD 0 then -1 else 1
    else if a.headD 0 = 0 then 0
    else strncmp a.tail b.tail n

/-- `compare(start, len, str)` -/
def compare (v : StringView) (start len : Nat) (str : Bytes) : Except Fault Int :=
  if v.end_ < v.begin_ + len then .error .stdOutOfRange
  else .ok (strncmp (v.data.drop (v.begin_ + start).toNat) str len)

/-! ## What they are for -/

/-- A range within its array. -/
structure Valid (v : StringView) : Prop where
  nonneg : 0 ≤ v.begin_
  le : v.begin_ ≤ v.end_
  inside : v.end_ ≤ v.data.length
  small : v.data.length < 2 ^ 64

/-- The bytes between the pointers. -/
def bytes (v : StringView) : Bytes := (v.data.drop v.begin_.toNat).take v.size

/-- A range, and a string without NUL. -/
abbrev Range := {v : StringView // v.Valid}

abbrev CString := {str : Bytes // 0 ∉ str}

/-- A call on a view of `n` bytes. -/
inductive Call (n : Nat) where
  | substr (pos len : Nat) : pos + len ≤ n → Call n
  | startsWithRange (str : Range)
  | startsWith (str : CString)
  | endsWithRange (str : Range)
  | endsWith (str : CString)
  | compare (start len : Nat) (str : CString) : start + len ≤ n → len ≤ str.1.length → Call n

/-- The call gives what the operation on strings gives. -/
def Agrees (v : StringView) : Call v.size → Prop
  | .substr pos len _ => ∃ w, v.substr pos len = .ok w ∧ w.size = len ∧ w.bytes = (v.bytes.drop pos).take len
  | .startsWithRange str => v.startsWithRange str = .ok (decide (str.1.bytes <+: v.bytes))
  | .startsWith str => v.startsWith str = .ok (decide (str.1 <+: v.bytes))
  | .endsWithRange str => v.endsWithRange str = .ok (decide (str.1.bytes <:+ v.bytes))
  | .endsWith str => v.endsWith str = .ok (decide (str.1 <:+ v.bytes))
  | .compare start len str _ _ => ∃ r, v.compare start len str = .ok r ∧
      (r = 0 ↔ (v.bytes.drop start).take len = str.1.take len)

/-! ## Reading -/

section

variable {v : StringView} (hv : v.Valid)

include hv

theorem size_eq : (v.size : Int) = v.end_ - v.begin_ := by
  have := hv.nonneg
  have := hv.le
  have := hv.inside
  have := hv.small
  rw [size]
  omega

theorem bytes_length : v.bytes.length = v.size := by
  have := hv.nonneg
  have := hv.inside
  have hsize := size_eq hv
  rw [bytes, List.length_take, List.length_drop]
  omega

theorem read_eq {i : Nat} (hi : i < v.bytes.length) : v.read (v.begin_ + i) = .ok v.bytes[i] := by
  have hnonneg := hv.nonneg
  have hinside := hv.inside
  have hsize := size_eq hv
  have hlt := bytes_length hv ▸ hi
  have hp : (v.begin_ + i).toNat = v.begin_.toNat + i := by omega
  have hin : v.begin_.toNat + i < v.data.length := by omega
  rw [read, if_pos (by omega), hp, charAt_of_lt hin]
  simp [bytes]

end

theorem read_cString {str : Bytes} {i : Nat} (hi : i < (str ++ [0]).length) :
    (cString str).read ((cString str).begin_ + i) = .ok (str ++ [0])[i] := by
  have hp : (0 + (i : Int)).toNat = i := by omega
  have hnonneg : 0 ≤ 0 + (i : Int) := by omega
  rw [read, cString, if_pos hnonneg, hp, charAt_of_lt hi]

theorem read_cString_lt (str : Bytes) (i : Nat) (hi : i < str.length) :
    (cString str).read ((cString str).begin_ + i) = .ok str[i] := by
  rw [read_cString (by rw [List.length_append]; omega), List.getElem_append_left hi]

theorem more_cString {str : Bytes} (h : 0 ∉ str) {i : Nat} (hi : i ≤ str.length) :
    (do .ok ((← (cString str).read ((cString str).begin_ + i)) != 0)) =
      (.ok (decide (i < str.length)) : Except Fault Bool) := by
  rcases Nat.lt_or_eq_of_le hi with hlt | heq
  · have hne : str[i] ≠ 0 := fun h0 => h (h0 ▸ List.getElem_mem hlt)
    rw [read_cString_lt str i hlt, decide_eq_true hlt]
    exact congrArg Except.ok (bne_iff_ne.mpr hne)
  · subst heq
    rw [read_cString (by simp), List.getElem_append_right (Nat.le_refl _), decide_eq_false (Nat.lt_irrefl _)]
    simp [bind, Except.bind]

/-! ## The loops -/

section

variable {v str : StringView} (hv : v.Valid) {p : Bytes}
  (hread : ∀ i (hi : i < p.length), str.read (str.begin_ + i) = .ok p[i])

include hv hread

/-- It stops where the two differ, or one of them ends. -/
theorem startsLoop_spec {more : Nat → Except Fault Bool} (hmore : ∀ i ≤ p.length, more i = .ok (decide (i < p.length)))
    {i : Nat} (hi : i ≤ p.length) (his : i ≤ v.size) :
    ∃ n, startsLoop v str more i = .ok n ∧ (n < v.size ↔ ¬ v.bytes.drop i <+: p.drop i) := by
  have hlen := bytes_length hv
  induction hk : v.size - i generalizing i with
  | zero =>
    have hend : i = v.size := by omega
    refine ⟨i, ?_, ?_⟩
    · rw [startsLoop, hmore i hi]
      simp [bind, Except.bind, hend]
    · rw [List.drop_of_length_le (by omega)]
      simp [hend]
  | succ k ih =>
    have hlt : i < v.bytes.length := by omega
    rw [startsLoop, hmore i hi]
    rcases Nat.lt_or_eq_of_le hi with hip | hip
    · rw [List.drop_eq_getElem_cons hlt, List.drop_eq_getElem_cons hip, List.cons_prefix_cons]
      simp only [bind, Except.bind, decide_eq_true hip, Bool.not_true, Bool.false_eq_true, if_false, hread i hip,
        read_eq hv hlt]
      rw [dif_pos (by omega)]
      by_cases hc : p[i] = v.bytes[i]
      · obtain ⟨n, hn, hiff⟩ := ih (i := i + 1) hip (by omega) (by omega)
        rw [if_pos hc]
        exact ⟨n, hn, by rw [hiff, and_iff_right hc.symm]⟩
      · rw [if_neg hc]
        exact ⟨i, rfl, iff_of_true (by omega) fun h => hc h.1.symm⟩
    · -- the string is at its end, the view is not
      refine ⟨i, ?_, ?_⟩
      · simp [bind, Except.bind, hip]
      · rw [List.drop_of_length_le (Nat.le_of_eq hip.symm), List.prefix_nil, List.drop_eq_nil_iff]
        omega

/-- It goes from the ends to the front, as far as the two agree. -/
theorem endsLoop_spec (m : Nat) : ∀ i j : Int, (i + 1).toNat = m → m ≤ p.length → (j + 1).toNat ≤ v.size →
    ∃ n, endsLoop v str i j = .ok n ∧ (0 ≤ n ↔ ¬ p.take m <:+ v.bytes.take (j + 1).toNat) := by
  have hlen := bytes_length hv
  induction m with
  | zero =>
    intro i j hi _ _
    refine ⟨i, ?_, ?_⟩
    · rw [endsLoop, dif_neg (by omega)]
    · rw [List.take_zero]
      exact iff_of_false (by omega) (not_not.mpr List.nil_suffix)
  | succ m ih =>
    intro i j hi hm hj
    obtain rfl : i = m := by omega
    rw [endsLoop]
    by_cases hneg : j < 0
    · rw [dif_neg (by omega), Int.toNat_of_nonpos (by omega), List.take_zero, List.suffix_nil]
      refine ⟨m, rfl, iff_of_true (Int.natCast_nonneg m) fun hnil => ?_⟩
      have hzero := congrArg List.length hnil
      rw [List.length_take, List.length_nil] at hzero
      omega
    · obtain ⟨k, rfl⟩ : ∃ k : Nat, j = k := ⟨j.toNat, by omega⟩
      have hk : k < v.bytes.length := by omega
      have hstep : ((k : Int) + 1).toNat = k + 1 := by omega
      rw [dif_pos ⟨Int.natCast_nonneg m, Int.natCast_nonneg k⟩, hread m hm, read_eq hv hk, hstep,
        Borders.take_succ_suffix_iff hm hk]
      simp only [bind, Except.bind]
      by_cases hc : p[m] = v.bytes[k]
      · obtain ⟨n, hn, hiff⟩ := ih (m - 1) (k - 1) (by omega) (by omega) (by omega)
        rw [if_pos hc]
        exact ⟨n, hn, by rw [hiff, and_iff_right hc, show ((k : Int) - 1 + 1).toNat = k by omega]⟩
      · rw [if_neg hc]
        exact ⟨m, rfl, iff_of_true (Int.natCast_nonneg m) fun h => hc h.1⟩

end

theorem strncmp_eq_zero {n : Nat} : ∀ {a b : Bytes}, n ≤ a.length → n ≤ b.length → 0 ∉ b →
    (strncmp a b n = 0 ↔ a.take n = b.take n) := by
  induction n with
  | zero => simp [strncmp]
  | succ n ih =>
    intro a b ha hb h0
    cases a with
    | nil => cases ha
    | cons c a =>
      cases b with
      | nil => cases hb
      | cons d b =>
        have hd : d ≠ 0 := fun h => h0 (by rw [h]; exact List.mem_cons_self)
        have hrest := ih (Nat.le_of_succ_le_succ ha) (Nat.le_of_succ_le_succ hb) fun h => h0 (List.mem_cons_of_mem _ h)
        rw [List.take_succ_cons, List.take_succ_cons, List.cons.injEq]
        by_cases hc : c = d
        · subst hc
          have hstep : strncmp (c :: a) (c :: b) (n + 1) = strncmp a b n := by simp [strncmp, hd]
          rw [hstep, hrest, and_iff_right rfl]
        · have hne : strncmp (c :: a) (d :: b) (n + 1) ≠ 0 := by
            by_cases hlt : c < d <;> simp [strncmp, hc, hlt]
          exact iff_of_false hne fun h => hc h.1

/-! ## What the members do -/

/-- What `ends_with` of a C string compares: the front parts of the two, as long as the `int`s
    of their lengths say. -/
def NarrowSuffix (p s : Bytes) : Prop :=
  toInt p.length = 0 ∨ toInt s.length ≠ 0 ∧ toInt p.length ≤ toInt s.length ∧
    p.take (toInt (toInt p.length - 1) + 1).toNat <:+ s.take (toInt (toInt s.length - 1) + 1).toNat

instance {p s : Bytes} : Decidable (NarrowSuffix p s) := inferInstanceAs (Decidable (_ ∨ _))

theorem toInt_pred {n : Nat} (h : n < 2 ^ 31) : toInt ((n : Int) - 1) = n - 1 := by
  unfold toInt
  rw [Int.bmod_def]
  split <;> omega

theorem narrowSuffix_small {p s : Bytes} (hp : p.length < 2 ^ 31) (hs : s.length < 2 ^ 31) :
    NarrowSuffix p s ↔ p <:+ s := by
  have hp0 : toInt p.length = p.length := toInt_of_lt hp
  have hs0 : toInt s.length = s.length := toInt_of_lt hs
  rw [NarrowSuffix, hp0, hs0, toInt_pred hp, toInt_pred hs, List.take_of_length_le (by omega),
    List.take_of_length_le (by omega)]
  refine ⟨fun h => ?_, fun h => ?_⟩
  · rcases h with hnil | ⟨_, _, hsuf⟩
    · have hnil : p = [] := List.length_eq_zero_iff.mp (by omega)
      exact hnil ▸ List.nil_suffix
    · exact hsuf
  · have hle := h.length_le
    by_cases hnil : p.length = 0
    · exact .inl (by omega)
    · exact .inr ⟨by omega, by omega, h⟩

/-- A length narrowed to `int` twice points within the string. -/
theorem narrow_le (n : Nat) : (toInt (toInt n - 1) + 1).toNat ≤ n := by
  have hcongr : toInt (toInt n - 1) = toInt ((n : Int) - 1) := Int.bmod_sub_bmod
  rw [hcongr]
  cases n with
  | zero => decide
  | succ n =>
    have hle := toInt_le n
    rw [show ((n + 1 : Nat) : Int) - 1 = n by omega]
    omega

/-- One byte less than asked for, or far more. -/
theorem substr_size {v w : StringView} {pos len : Nat} (h : v.substr pos len = .ok w) : w.size ≠ len := by
  unfold substr at h
  dsimp only at h
  split at h
  · cases h
  · split at h
    · cases h
    · cases h
      simp only [size]
      omega

section

variable {v : StringView} (hv : v.Valid)

include hv

/-- `starts_with` asks whether the view is a prefix of the string. -/
theorem startsWithRange_eq {str : StringView} (hs : str.Valid) :
    v.startsWithRange str = .ok (decide (v.bytes <+: str.bytes)) := by
  have hlen := bytes_length hs
  have hsize := size_eq hs
  have hmore : ∀ i ≤ str.bytes.length,
      (.ok (str.begin_ + i != str.end_) : Except Fault Bool) = .ok (decide (i < str.bytes.length)) := by
    intro i hi
    rw [Except.ok.injEq, Bool.eq_iff_iff, bne_iff_ne, decide_eq_true_iff]
    omega
  obtain ⟨n, hn, hiff⟩ := startsLoop_spec hv (fun i hi => read_eq hs hi) hmore (Nat.zero_le _) (Nat.zero_le _)
  rw [startsWithRange, hn]
  by_cases hp : v.bytes <+: str.bytes <;> simp_all [bind, Except.bind]

theorem startsWith_eq {str : Bytes} (h0 : 0 ∉ str) : v.startsWith str = .ok (decide (v.bytes <+: str)) := by
  obtain ⟨n, hn, hiff⟩ := startsLoop_spec hv (read_cString_lt str) (fun i hi => more_cString h0 hi)
    (Nat.zero_le _) (Nat.zero_le _)
  rw [startsWith]
  by_cases hp : v.bytes <+: str <;> simp_all [bind, Except.bind]

omit hv in
/-- `begin < end` refuses every range but the empty one. -/
theorem endsWithRange_eq {str : StringView} (hs : str.Valid) : v.endsWithRange str = .ok (decide (str.bytes = [])) := by
  have hsize := size_eq hs
  have hlen := bytes_length hs
  have hle := hs.le
  rw [endsWithRange]
  by_cases heq : str.begin_ = str.end_
  · rw [if_pos heq, decide_eq_true (List.length_eq_zero_iff.mp (by omega))]
  · have hne : str.bytes ≠ [] := fun hnil => by
      rw [hnil, List.length_nil] at hlen
      omega
    rw [if_neg heq, if_pos (.inl (by omega)), decide_eq_false hne]

theorem endsWith_eq (str : Bytes) : v.endsWith str = .ok (decide (NarrowSuffix str v.bytes)) := by
  have hlen := bytes_length hv
  rw [endsWith]
  by_cases hi : toInt str.length = 0
  · rw [if_pos hi, decide_eq_true (.inl hi)]
  by_cases hlong : toInt v.size = 0 ∨ toInt v.size < toInt str.length
  · have hnot : ¬ NarrowSuffix str v.bytes := by
      rw [NarrowSuffix, hlen]
      omega
    rw [if_neg hi, if_pos hlong, decide_eq_false hnot]
  · obtain ⟨n, hn, hiff⟩ := endsLoop_spec hv (read_cString_lt str) _ (toInt (toInt str.length - 1))
      (toInt (toInt v.size - 1)) rfl (narrow_le _) (narrow_le _)
    have hnarrow : NarrowSuffix str v.bytes ↔ ¬ 0 ≤ n := by
      rw [hiff, not_not, NarrowSuffix, hlen, or_iff_right hi]
      exact ⟨fun h => h.2.2, fun h => ⟨by omega, by omega, h⟩⟩
    rw [if_neg hi, if_neg hlong, hn]
    by_cases hneg : 0 ≤ n <;> simp [bind, Except.bind, hnarrow, hneg]

theorem compare_eq {start len : Nat} (hlen : start + len ≤ v.size) {str : Bytes} (hs : len ≤ str.length)
    (h0 : 0 ∉ str) : ∃ r, v.compare start len str = .ok r ∧ (r = 0 ↔ (v.bytes.drop start).take len = str.take len) := by
  have hsize := size_eq hv
  have hnonneg := hv.nonneg
  have hinside := hv.inside
  have hstart : (v.begin_ + start).toNat = v.begin_.toNat + start := by omega
  have htake : (v.bytes.drop start).take len = (v.data.drop (v.begin_ + start).toNat).take len := by
    rw [bytes, List.drop_take, List.take_take, List.drop_drop, Nat.min_eq_left (by omega), hstart]
  refine ⟨_, by rw [compare, if_neg (by omega)], ?_⟩
  rw [htake]
  exact strncmp_eq_zero (by rw [List.length_drop]; omega) hs h0

end

/-! ## The calls that are right -/

/-- A string and a view that agree on what is a prefix of what. -/
def SamePrefix (p s : Bytes) : Prop := p = s ∨ ¬ p <+: s ∧ ¬ s <+: p

theorem samePrefix_iff {p s : Bytes} : (s <+: p ↔ p <+: s) ↔ SamePrefix p s := by
  refine ⟨fun h => ?_, fun h => ?_⟩
  · by_cases hps : p <+: s
    · exact .inl (List.IsPrefix.eq_of_length_le hps (h.mpr hps).length_le)
    · exact .inr ⟨hps, fun hsp => hps (h.mp hsp)⟩
  · rcases h with rfl | ⟨hps, hsp⟩
    · exact Iff.rfl
    · exact iff_of_false hsp hps

def Right (v : StringView) : Call v.size → Prop
  | .substr _ _ _ => False
  | .startsWithRange str => SamePrefix str.1.bytes v.bytes
  | .startsWith str => SamePrefix str.1 v.bytes
  | .endsWithRange str => str.1.bytes = [] ∨ ¬ str.1.bytes <:+ v.bytes
  | .endsWith str =>
    (str.1.length < 2 ^ 31 ∧ v.bytes.length < 2 ^ 31) ∨ (NarrowSuffix str.1 v.bytes ↔ str.1 <:+ v.bytes)
  | .compare _ _ _ _ _ => True

/-- The calls that agree with the operations on strings. -/
theorem agrees_iff (v : Range) (c : Call v.1.size) : Agrees v.1 c ↔ Right v.1 c := by
  obtain ⟨v, hv⟩ := v
  cases c with
  | substr pos len h => exact iff_of_false (fun ⟨w, hw, hlen, _⟩ => substr_size hw hlen) id
  | startsWithRange str =>
    rw [Agrees, startsWithRange_eq hv str.2, Except.ok.injEq, decide_eq_decide]
    exact samePrefix_iff
  | startsWith str =>
    rw [Agrees, startsWith_eq hv str.2, Except.ok.injEq, decide_eq_decide]
    exact samePrefix_iff
  | endsWithRange str =>
    rw [Agrees, endsWithRange_eq str.2, Except.ok.injEq, decide_eq_decide, Right]
    refine ⟨fun h => ?_, fun h => ?_⟩
    · by_cases hnil : str.1.bytes = []
      · exact .inl hnil
      · exact .inr fun hsuf => hnil (h.mpr hsuf)
    · rcases h with hnil | hsuf
      · rw [hnil]
        exact iff_of_true rfl List.nil_suffix
      · exact iff_of_false (fun hnil => hsuf (hnil ▸ List.nil_suffix)) hsuf
  | endsWith str =>
    rw [Agrees, endsWith_eq hv, Except.ok.injEq, decide_eq_decide, Right]
    exact ⟨.inr, fun h => h.elim (fun hsmall => narrowSuffix_small hsmall.1 hsmall.2) id⟩
  | compare start len str h hs => exact iff_of_true (compare_eq hv h hs str.2) trivial

/-- The whole of an array as a view. -/
def ofBytes (s : Bytes) : StringView := ⟨s, 0, s.length⟩

theorem valid_ofBytes {s : Bytes} (h : s.length < 2 ^ 64) : (ofBytes s).Valid :=
  ⟨Int.le_refl 0, Int.natCast_nonneg _, Int.le_refl _, h⟩

theorem bytes_ofBytes {s : Bytes} (hv : (ofBytes s).Valid) : (ofBytes s).bytes = s := by
  have hsize : ((ofBytes s).size : Int) = s.length - 0 := size_eq hv
  refine List.take_of_length_le ?_
  show (s.drop (0 : Int).toNat).length ≤ _
  rw [List.length_drop]
  omega

/-- Of `hello`: all of it, whether it starts with `he`, and whether it ends with `lo`. -/
theorem not_agrees_hello :
    ¬ Agrees (ofBytes (lit "hello")) (.substr 0 5 (by decide)) ∧
    ¬ Agrees (ofBytes (lit "hello")) (.startsWith ⟨lit "he", by decide⟩) ∧
    ¬ Agrees (ofBytes (lit "hello")) (.endsWithRange ⟨ofBytes (lit "lo"), valid_ofBytes (by decide)⟩) := by
  have hv : (ofBytes (lit "hello")).Valid := valid_ofBytes (by decide)
  have hs : (ofBytes (lit "lo")).Valid := valid_ofBytes (by decide)
  refine ⟨fun ⟨w, hw, hlen, _⟩ => substr_size hw hlen, ?_, ?_⟩
  · rw [Agrees, startsWith_eq hv (by decide)]
    decide
  · rw [Agrees, endsWithRange_eq hs]
    decide

end StringView

end HahaWeb
