/-
  HahaWeb.Json.Progress — every call of the parser returns, and every success takes bytes.

  The functions call one another, and each loop skips white space, reads an item and then
  asks whether there is another. What they return does not depend on the fuel once there
  is enough (`parse_settles`), and two units for each byte are enough. Proved: each of the
  five functions returns on every text, an end of the text where a byte is read counted as
  a failure; what a success leaves is a proper suffix of the text, and so is what each
  round of a container's loop leaves for the next one (`progress`).
-/

import HahaWeb.Json.WhiteSpace

namespace HahaWeb.Json

variable {D : Type} (S : Stod D)

/-! ## The functions -/

/-- `parse_string`, its loop with fuel. -/
def readString (fuel : Nat) (str : Bytes) : Except Fault (Option (Bytes × Bytes)) := do
  let c ← charAt str 0
  if c ≠ 34 then .ok none else stringLoop fuel (str.drop 1) []

def parseArray (fuel : Nat) (str : Bytes) : Except Fault (Option (JsonNode D × Bytes)) := do
  let c ← charAt str 0
  if c ≠ 91 then .ok none
  else
    let str := str.drop 1
    if str.head? = some 93 then .ok (some (.array [], str.drop 1)) else arrayLoop S fuel str []

def parseObject (fuel : Nat) (str : Bytes) : Except Fault (Option (JsonNode D × Bytes)) := do
  let c ← charAt str 0
  if c ≠ 123 then .ok none
  else
    let str := str.drop 1
    if str.head? = some 125 then .ok (some (.object [], str.drop 1)) else objectLoop S fuel str []

/-- `parse_value` calls them by the first byte. -/
theorem parseValue_container_eq (fuel : Nat) (rest : Bytes) :
    parseValue S (fuel + 1) (91 :: rest) = parseArray S fuel (91 :: rest) ∧
    parseValue S (fuel + 1) (123 :: rest) = parseObject S fuel (123 :: rest) := by
  refine ⟨?_, ?_⟩
  · simp [parseValue_cons, parseArray, charAt_cons, bind, Except.bind]
  · simp [parseValue_cons, parseObject, charAt_cons, bind, Except.bind]

/-- The bytes that begin no container. -/
theorem parseValue_flat {c : UInt8} (h91 : c ≠ 91) (h123 : c ≠ 123) (fuel fuel' : Nat) (rest : Bytes) :
    parseValue S (fuel + 1) (c :: rest) = parseValue S (fuel' + 1) (c :: rest) := by
  simp only [parseValue_cons, h91, h123, if_false]

/-- `run` returns, the same from some fuel on, and a success leaves a proper suffix. -/
structure Advances {α : Type} (run : Nat → Except Fault (Option (α × Bytes))) (str : Bytes) : Prop where
  returns : ∃ n, run n ≠ .error .hang ∧ ∀ fuel ≥ n, run fuel = run n
  leaves : ∀ fuel v rest, run fuel = .ok (some (v, rest)) → rest <:+ str ∧ rest ≠ str

structure Progress : Prop where
  value : ∀ str, Advances (fun fuel => parseValue S fuel str) str
  array : ∀ str, Advances (fun fuel => parseArray S fuel str) str
  object : ∀ str, Advances (fun fuel => parseObject S fuel str) str
  string : ∀ str, Advances (fun fuel => readString fuel str) str
  number : ∀ str, Advances (fun _ => parseNumber S str) str
  elements : ∀ fuel str v rest, readElement S fuel str = .ok (some (v, rest)) →
    (checkFunc 93 rest).2 <:+ str ∧ (checkFunc 93 rest).2 ≠ str
  members : ∀ fuel str m rest, readMember S fuel str = .ok (some (m, rest)) →
    (checkFunc 125 rest).2 <:+ str ∧ (checkFunc 125 rest).2 ≠ str

variable {S}

/-! ## More fuel changes nothing -/

/-- `b` is what `a` is, unless `a` is still running. -/
def Settles {α : Type} (a b : Except Fault α) : Prop := a ≠ .error .hang → b = a

theorem Settles.rfl {α : Type} {a : Except Fault α} : Settles a a := fun _ => Eq.refl a

theorem Settles.bind {α β : Type} {a b : Except Fault α} {f g : α → Except Fault β} (h : Settles a b)
    (hfg : ∀ x, Settles (f x) (g x)) : Settles (a >>= f) (b >>= g) := by
  intro hne
  cases a with
  | error e =>
    have he : b = .error e := h fun hhang => hne (congrArg (· >>= f) hhang)
    rw [he]
    exact Eq.refl _
  | ok x =>
    have hx : b = .ok x := h (by simp)
    rw [hx]
    exact hfg x hne

theorem stringLoop_settles (fuel : Nat) : ∀ str output,
    Settles (stringLoop fuel str output) (stringLoop (fuel + 1) str output) := by
  induction fuel with
  | zero => exact fun str output h => absurd (Eq.refl _) h
  | succ fuel ih =>
    intro str output
    rw [stringLoop.eq_def (fuel + 1), stringLoop.eq_def (fuel + 1 + 1)]
    dsimp only
    repeat' split
    all_goals first
      | exact ih _ _
      | exact Settles.rfl
      | refine Settles.rfl.bind fun o => ?_
        split
        · exact Settles.rfl
        · exact ih _ _

theorem behindItem_settles {α : Type} {loop loop' : Bytes → α → Except Fault (Option (JsonNode D × Bytes))}
    (h : ∀ str acc, Settles (loop str acc) (loop' str acc)) (close : UInt8) (node : α → JsonNode D) (acc : α)
    (str : Bytes) : Settles (behindItem close loop node acc str) (behindItem close loop' node acc str) := by
  unfold behindItem
  dsimp only
  split
  · exact h _ _
  · exact Settles.rfl

section

variable {fuel : Nat} (hv : ∀ str, Settles (parseValue S fuel str) (parseValue S (fuel + 1) str))

include hv

theorem readElement_settles (str : Bytes) : Settles (readElement S fuel str) (readElement S (fuel + 1) str) := by
  unfold readElement
  dsimp only
  split
  · exact Settles.rfl
  · exact (hv _).bind fun _ => Settles.rfl

theorem readMember_settles (str : Bytes) : Settles (readMember S fuel str) (readMember S (fuel + 1) str) := by
  unfold readMember
  dsimp only
  split
  · exact Settles.rfl
  · refine Settles.rfl.bind fun o => ?_
    split
    · exact Settles.rfl
    · refine Settles.rfl.bind fun c => ?_
      split
      · exact Settles.rfl
      · exact (readElement_settles hv _).bind fun _ => Settles.rfl

end

theorem parseArray_settles {fuel : Nat}
    (ha : ∀ str arr, Settles (arrayLoop S fuel str arr) (arrayLoop S (fuel + 1) str arr)) (str : Bytes) :
    Settles (parseArray S fuel str) (parseArray S (fuel + 1) str) := by
  refine Settles.rfl.bind fun c => ?_
  dsimp only
  split
  · exact Settles.rfl
  · split
    · exact Settles.rfl
    · exact ha _ _

theorem parseObject_settles {fuel : Nat} (ho : ∀ str obj, Settles (objectLoop S fuel str obj)
    (objectLoop S (fuel + 1) str obj)) (str : Bytes) :
    Settles (parseObject S fuel str) (parseObject S (fuel + 1) str) := by
  refine Settles.rfl.bind fun c => ?_
  dsimp only
  split
  · exact Settles.rfl
  · split
    · exact Settles.rfl
    · exact ho _ _

theorem parse_settles (fuel : Nat) : (∀ str, Settles (parseValue S fuel str) (parseValue S (fuel + 1) str)) ∧
    (∀ str arr, Settles (arrayLoop S fuel str arr) (arrayLoop S (fuel + 1) str arr)) ∧
    ∀ str obj, Settles (objectLoop S fuel str obj) (objectLoop S (fuel + 1) str obj) := by
  induction fuel with
  | zero =>
    refine ⟨fun str h => ?_, fun str arr h => ?_, fun str obj h => ?_⟩
    · exact absurd (by rw [parseValue]) h
    · exact absurd (by rw [arrayLoop]) h
    · exact absurd (by rw [objectLoop]) h
  | succ fuel ih =>
    obtain ⟨hv, ha, ho⟩ := ih
    refine ⟨fun str => ?_, fun str arr => ?_, fun str obj => ?_⟩
    · cases str with
      | nil => exact Settles.rfl
      | cons c rest =>
        by_cases h91 : c = 91
        · rw [h91, (parseValue_container_eq S fuel rest).1, (parseValue_container_eq S (fuel + 1) rest).1]
          exact parseArray_settles ha _
        · by_cases h123 : c = 123
          · rw [h123, (parseValue_container_eq S fuel rest).2, (parseValue_container_eq S (fuel + 1) rest).2]
            exact parseObject_settles ho _
          · rw [parseValue_flat S h91 h123 (fuel + 1) fuel]
            exact Settles.rfl
    · rw [arrayLoop_succ, arrayLoop_succ]
      refine (readElement_settles hv str).bind fun o => ?_
      split
      · exact Settles.rfl
      · exact behindItem_settles ha 93 _ _ _
    · rw [objectLoop_succ, objectLoop_succ]
      refine (readMember_settles hv str).bind fun o => ?_
      split
      · exact Settles.rfl
      · exact behindItem_settles ho 125 _ _ _

/-! ## What a success leaves -/

/-- What is left is a suffix, and shorter. -/
theorem proper {rest str : Bytes} (h : rest <:+ str) (hlen : rest.length < str.length) : rest <:+ str ∧ rest ≠ str :=
  ⟨h, fun heq => absurd hlen (by rw [heq]; exact Nat.lt_irrefl _)⟩

theorem loop_suffix {fuel : Nat} {k : Container} {t r : Bytes} {v : JsonNode D}
    (h : readItems S fuel t k = .ok (some (v, r))) : r <:+ t := by
  have hread := Rereads.items (parse_rereads (S := S) fuel).2.1 (parse_rereads fuel).2.2 k t v r h
  obtain ⟨ls, rest, ht, rfl, -⟩ := hread
  exact ⟨text ls, ht.symm⟩

theorem parseString_suffix {t r s : Bytes} (h : parseString t = .ok (some (s, r))) : r <:+ t := by
  obtain ⟨u, ht, -⟩ := parseString_anywhere h
  exact ⟨34 :: u, ht.symm⟩

theorem parseNumber_suffix {t r : Bytes} {v : JsonNode D} (h : parseNumber S t = .ok (some (v, r))) : r <:+ t := by
  cases t with
  | nil => cases h
  | cons c u =>
    by_cases hopen : isdigit c = true ∨ c = 45
    · obtain ⟨w, ht, -⟩ := parseNumber_anywhere hopen h
      exact ⟨c :: w, ht.symm⟩
    · simp [parseNumber, charAt_cons, bind, Except.bind, not_or.mp hopen] at h

theorem parseValue_suffix {fuel : Nat} {t r : Bytes} {v : JsonNode D}
    (h : parseValue S fuel t = .ok (some (v, r))) : r <:+ t := by
  cases fuel with
  | zero => cases h
  | succ fuel =>
    rcases parseValue_cases h with ⟨k, ⟨rfl, -⟩ | ⟨u, rfl, -, hitems⟩⟩ | ⟨s, hs, -⟩ | ⟨c, u, -, -, hn⟩ |
      ⟨w, -, rfl, -⟩
    · exact ⟨[k.opens, k.closes], rfl⟩
    · exact (loop_suffix hitems).trans (List.suffix_cons ..)
    · exact parseString_suffix hs
    · exact parseNumber_suffix hn
    · exact List.suffix_append ..

theorem skip_suffix (t : Bytes) : skipCtrlAndSpace t <:+ t := List.dropWhile_suffix _

theorem checkFunc_suffix (close : UInt8) (t : Bytes) : (checkFunc close t).2 <:+ t := by
  unfold checkFunc
  split
  · exact List.suffix_cons ..
  · exact List.suffix_rfl

theorem readElement_suffix {fuel : Nat} {t r : Bytes} {v : JsonNode D}
    (h : readElement S fuel t = .ok (some (v, r))) : r <:+ t := by
  unfold readElement at h
  dsimp only at h
  split at h
  · cases h
  rcases hp : parseValue S fuel (skipCtrlAndSpace t) with f | _ | ⟨jv, w⟩
  · rw [hp] at h
    cases h
  · rw [hp] at h
    cases h
  · rw [hp] at h
    cases h
    exact (skip_suffix w).trans ((parseValue_suffix hp).trans (skip_suffix t))

theorem readMember_suffix {fuel : Nat} {t r : Bytes} {m : Bytes × JsonNode D}
    (h : readMember S fuel t = .ok (some (m, r))) : r <:+ t := by
  obtain ⟨w, x, hk, hcolon, he⟩ := readMember_cases h
  have hx : x <:+ w := by
    refine List.IsSuffix.trans ?_ (skip_suffix w)
    rw [hcolon]
    exact List.suffix_cons ..
  exact (readElement_suffix he).trans (hx.trans ((parseString_suffix hk).trans (skip_suffix t)))

/-! ## The functions -/

theorem settles_of_le {α : Type} {run : Nat → Except Fault α} (hs : ∀ fuel, Settles (run fuel) (run (fuel + 1)))
    {n fuel : Nat} (h : n ≤ fuel) : Settles (run n) (run fuel) := by
  intro hn
  induction fuel, h using Nat.le_induction with
  | base => exact Eq.refl _
  | succ fuel _ ih => rw [hs fuel (by rw [ih]; exact hn), ih]

/-- The one fuel that is enough decides. -/
theorem Advances.of_settles {α : Type} {run : Nat → Except Fault (Option (α × Bytes))} {str : Bytes}
    (hs : ∀ fuel, Settles (run fuel) (run (fuel + 1))) (n : Nat) (hn : run n ≠ .error .hang)
    (hl : ∀ v rest, run n = .ok (some (v, rest)) → rest <:+ str ∧ rest.length < str.length) : Advances run str := by
  refine ⟨⟨n, hn, fun fuel hle => settles_of_le hs hle hn⟩, fun fuel v rest h => ?_⟩
  have hsame : run n = run fuel := by
    rcases Nat.le_total n fuel with hle | hle
    · exact (settles_of_le hs hle hn).symm
    · exact settles_of_le hs hle (by simp [h])
  obtain ⟨hsuffix, hlen⟩ := hl v rest (hsame.trans h)
  exact proper hsuffix hlen

theorem Advances.const {α : Type} {r : Except Fault (Option (α × Bytes))} {str : Bytes} (hr : r ≠ .error .hang)
    (hl : ∀ v rest, r = .ok (some (v, rest)) → rest <:+ str ∧ rest.length < str.length) : Advances (fun _ => r) str :=
  .of_settles (fun _ => Settles.rfl) 0 hr hl

/-- One unit of fuel is for the call. -/
theorem Advances.shift {α : Type} {run : Nat → Except Fault (Option (α × Bytes))} {str : Bytes}
    (h : Advances run str) : Advances (fun fuel => run (fuel + 1)) str := by
  obtain ⟨n, hn, hsame⟩ := h.returns
  refine ⟨⟨n, ?_, fun fuel hle => ?_⟩, fun fuel => h.leaves (fuel + 1)⟩
  · rw [hsame (n + 1) (Nat.le_succ n)]
    exact hn
  · rw [hsame (fuel + 1) (Nat.le_succ_of_le hle), hsame (n + 1) (Nat.le_succ n)]

theorem parseValue_advances (S : Stod D) (str : Bytes) : Advances (fun fuel => parseValue S fuel str) str :=
  .of_settles (fun fuel => (parse_settles fuel).1 str) (2 * str.length + 1)
    (((parse_consumes S _).1 str).1 (Nat.le_refl _))
    fun v rest h => ⟨parseValue_suffix h, ((parse_consumes S _).1 str).2 v rest h⟩

/-- The containers' functions are what `parse_value` does at their brackets. -/
theorem container_advances (S : Stod D) (str : Bytes) :
    Advances (fun fuel => parseArray S fuel str) str ∧ Advances (fun fuel => parseObject S fuel str) str := by
  cases str with
  | nil => exact ⟨.const (by simp) (by simp), .const (by simp) (by simp)⟩
  | cons c rest =>
    have hvalue := (parseValue_advances S (c :: rest)).shift
    refine ⟨?_, ?_⟩
    · by_cases hc : c = 91
      · subst hc
        simp only [(parseValue_container_eq S _ rest).1] at hvalue
        exact hvalue
      · have hnull : ∀ fuel, parseArray S fuel (c :: rest) = .ok none := by
          intro fuel
          simp [parseArray, charAt_cons, bind, Except.bind, hc]
        simp only [hnull]
        exact .const (by simp) (by simp)
    · by_cases hc : c = 123
      · subst hc
        simp only [(parseValue_container_eq S _ rest).2] at hvalue
        exact hvalue
      · have hnull : ∀ fuel, parseObject S fuel (c :: rest) = .ok none := by
          intro fuel
          simp [parseObject, charAt_cons, bind, Except.bind, hc]
        simp only [hnull]
        exact .const (by simp) (by simp)

theorem readString_advances (str : Bytes) : Advances (fun fuel => readString fuel str) str := by
  have hsettles : ∀ fuel, Settles (readString fuel str) (readString (fuel + 1) str) := by
    intro fuel
    refine Settles.rfl.bind fun c => ?_
    split
    · exact Settles.rfl
    · exact stringLoop_settles fuel _ _
  obtain ⟨hne, hlen⟩ := parseString_spec str
  exact .of_settles hsettles (str.length + 1) hne fun v rest h => ⟨parseString_suffix h, hlen v rest h⟩

/-- Every call returns, and every success takes bytes. -/
theorem progress (S : Stod D) : Progress S := by
  refine ⟨parseValue_advances S, fun str => (container_advances S str).1, fun str => (container_advances S str).2,
    readString_advances, fun str => ?_, fun fuel str v rest h => ?_, fun fuel str m rest h => ?_⟩
  · obtain ⟨hne, hlen⟩ := parseNumber_spec S str
    exact .const hne fun v rest h => ⟨parseNumber_suffix h, hlen v rest h⟩
  · have hlen := (readElement_step (fun str => (parse_consumes S fuel).1 str) str).2 v rest h
    exact proper ((checkFunc_suffix 93 rest).trans (readElement_suffix h))
      (Nat.lt_of_le_of_lt (checkFunc_spec 93 rest).1 hlen)
  · have hlen := (readMember_step (fun str => (parse_consumes S fuel).1 str) str).2 m rest h
    exact proper ((checkFunc_suffix 125 rest).trans (readMember_suffix h))
      (Nat.lt_of_le_of_lt (checkFunc_spec 125 rest).1 hlen)

end HahaWeb.Json
