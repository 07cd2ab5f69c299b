/-
  HahaWeb.Json.Reading — what the parser reads, and where it reads past its view.

  A text is cut (`Cuts`) when it ends where the parser looks at the next byte without
  asking whether there is one: behind an item of a container, behind a key, and within a
  string. Proved, for values and for the loops of the containers: what the parser returns
  the dialect reads and where it faults the text is cut (`parse_agrees`, by induction on
  the fuel), what the dialect reads the parser returns, and on a text that is cut it
  faults (`parse_reads`, `parse_cuts`, by induction on the derivation).
-/

import HahaWeb.Json.Characters

namespace HahaWeb.Json

variable {D : Type} (S : Stod D)

/-! ## Texts that are cut -/

/-- The text ends where the parser reads the next byte. -/
inductive Cuts : Part → Bytes → Prop
  | string {t : Bytes} : StrCut t → Cuts .value t
  | container (k : Container) {t : Bytes} : Cuts (.items k) t → Cuts .value (k.opens :: t)
  | element {t u : Bytes} : Blanks (parserDialect S).blank t u → Cuts .value u → Cuts (.item .array) t
  | key {t u : Bytes} : Blanks (parserDialect S).blank t u → StrCut u → Cuts (.item .object) t
  | colon {t u v : Bytes} : Blanks (parserDialect S).blank t u → (parserDialect S).Str u v →
      (∀ c ∈ v, (parserDialect S).blank c) → Cuts (.item .object) t
  | member {t u v w x : Bytes} : Blanks (parserDialect S).blank t u → (parserDialect S).Str u v →
      Blanks (parserDialect S).blank v (58 :: w) → Blanks (parserDialect S).blank w x → Cuts .value x →
      Cuts (.item .object) t
  | item (k : Container) {t : Bytes} : Cuts (.item k) t → Cuts (.items k) t
  | behind (k : Container) {t : Bytes} : (parserDialect S).Reads (.item k) t [] → Cuts (.items k) t
  | more (k : Container) {t u : Bytes} : (parserDialect S).Reads (.item k) t (44 :: u) → Cuts (.items k) u →
      Cuts (.items k) t

/-! ## Numbers and white space -/

theorem parseNumber_reads {t rest : Bytes} (h : (parserDialect S).number t rest) :
    ∃ v, parseNumber S t = .ok (some (v, rest)) := by
  obtain ⟨run, rfl, ⟨c, u, hc, hopen⟩, hrun, hrest, hstod⟩ := h
  obtain ⟨d, hd⟩ := Option.isSome_iff_exists.mp hstod
  obtain ⟨htake, hdrop⟩ := takeWhile_stops hrun hrest
  rw [parseNumber_run hc hopen, htake, hdrop, hd]
  exact ⟨_, rfl⟩

theorem parseNumber_agrees {c : UInt8} {u : Bytes} (hopen : isdigit c = true ∨ c = 45) (cut : Prop) :
    Agrees ((parserDialect S).number (c :: u)) cut (parseNumber S (c :: u)) := by
  have hrun : parseNumber S ((c :: u) ++ []) = _ := parseNumber_run rfl hopen
  rw [List.append_nil] at hrun
  rw [hrun]
  cases hd : S.stod ((c :: u).takeWhile isNumberComponent) with
  | none => exact .null
  | some d =>
    refine .value ⟨_, (List.takeWhile_append_dropWhile ..).symm, ?_, fun c h => List.mem_takeWhile_imp h, ?_, ?_⟩
    · rw [List.takeWhile_cons_of_pos (opens_number c hopen).2.1]
      exact ⟨c, _, rfl, hopen⟩
    · intro e he
      have hhead := List.head?_dropWhile_not isNumberComponent (c :: u)
      rw [Option.mem_def.mp he] at hhead
      simpa using hhead
    · rw [hd]
      rfl

theorem blanks_skip (t : Bytes) : Blanks (parserDialect S).blank t (skipCtrlAndSpace t) :=
  ⟨t.takeWhile isCtrlAndSpace, fun _ h => List.mem_takeWhile_imp h, (List.takeWhile_append_dropWhile ..).symm⟩

theorem skip_blanks {t u : Bytes} (h : Blanks (parserDialect S).blank t u) :
    skipCtrlAndSpace t = skipCtrlAndSpace u := by
  obtain ⟨ws, hws, rfl⟩ := h
  exact skip_append hws u

/-! ## What the dialect reads -/

theorem Blanks.length_le {p : UInt8 → Prop} {t u : Bytes} (h : Blanks p t u) : u.length ≤ t.length := by
  obtain ⟨ws, -, rfl⟩ := h
  simp

/-! ## What the parser returns is read, and where it faults the text is cut -/

section

variable {S} {fuel : Nat}
  (hv : ∀ t, t ≠ [] → Agrees ((parserDialect S).Reads .value t) (Cuts S .value t) (parseValue S fuel t))

include hv in
theorem readElement_agrees (t : Bytes) :
    Agrees ((parserDialect S).Reads (.item .array) t) (Cuts S (.item .array) t) (readElement S fuel t) := by
  unfold readElement
  dsimp only
  split
  · exact .null
  · rename_i hne
    exact (hv _ (by simpa using hne)).bind (.element (blanks_skip S t)) rfl fun jv r hr =>
      .value (.element (blanks_skip S t) hr (blanks_skip S r))

include hv in
theorem readMember_agrees (t : Bytes) :
    Agrees ((parserDialect S).Reads (.item .object) t) (Cuts S (.item .object) t) (readMember S fuel t) := by
  unfold readMember
  dsimp only
  split
  · exact .null
  · rename_i hne
    refine (parseString_agrees S (by simpa using hne)).bind (.key (blanks_skip S t)) rfl fun k v hstr => ?_
    have hblanks := blanks_skip S v
    dsimp only
    cases hskip : skipCtrlAndSpace v with
    | nil => exact .ended (.colon (blanks_skip S t) hstr (List.dropWhile_eq_nil_iff.mp hskip))
    | cons c w =>
      rw [charAt_cons]
      show Agrees _ _ (if c ≠ 58 then _ else _)
      split
      · exact .null
      · rename_i h58
        rw [hskip, not_not.mp h58] at hblanks
        refine (readElement_agrees hv w).bind (fun hcut => ?_) rfl fun jv y hr => .value ?_
        · cases hcut with
          | element hx hval => exact .member (blanks_skip S t) hstr hblanks hx hval
        · cases hr with
          | element hx hval hy => exact .member (blanks_skip S t) hstr hblanks hx hval hy

end

/-- What a loop does behind an item that left `r`. -/
theorem behindItem_agrees {α : Type} {k : Container} {t r : Bytes}
    {loop : Bytes → α → Except Fault (Option (JsonNode D × Bytes))} {nodeOf : α → JsonNode D} {acc : α}
    (hitem : (parserDialect S).Reads (.item k) t r)
    (hl : ∀ u acc, Agrees ((parserDialect S).Reads (.items k) u) (Cuts S (.items k) u) (loop u acc)) :
    Agrees ((parserDialect S).Reads (.items k) t) (Cuts S (.items k) t)
      (behindItem k.closes loop nodeOf acc r) := by
  have hc44 : k.closes ≠ 44 := by cases k <;> decide
  cases r with
  | nil => exact .ended (.behind k hitem)
  | cons c u =>
    by_cases h44 : c = 44
    · subst h44
      by_cases hclose : u.head? = some k.closes
      · obtain ⟨u', rfl⟩ : ∃ u', u = k.closes :: u' := by
          cases u with
          | nil => cases hclose
          | cons d u' =>
            cases hclose
            exact ⟨u', rfl⟩
        have hend : behindItem k.closes loop nodeOf acc (44 :: k.closes :: u') = .ok (some (nodeOf acc, u')) := by
          simp [behindItem, checkFunc, closeWith, charAt_cons, bind, Except.bind]
        rw [hend]
        exact .value (.comma k hitem ⟨[], by simp, rfl⟩)
      · rw [behindItem_more acc hclose]
        exact (hl u acc).mono (fun rest h => .more k hitem h) (.more k hitem)
    · by_cases hclose : c = k.closes
      · subst hclose
        rw [behindItem_close acc hc44]
        exact .value (.last k hitem)
      · have hnone : behindItem k.closes loop nodeOf acc (c :: u) = .ok none := by
          have hcheck : checkFunc k.closes (c :: u) = (false, c :: u) := by
            unfold checkFunc
            split
            · rename_i heq
              exact absurd (List.cons.inj heq).1 h44
            · rfl
          simp [behindItem, hcheck, closeWith, charAt_cons, hclose, bind, Except.bind]
        rw [hnone]
        exact .null

theorem head_eq_some {c : UInt8} {u : Bytes} (h : u.head? = some c) : u = c :: u.drop 1 := by
  cases u with
  | nil => cases h
  | cons d u =>
    cases h
    rfl

theorem word_append {w t : Bytes} {n : Nat} (h : t.take n = w) : t = w ++ t.drop n := by
  rw [← h, List.take_append_drop]

theorem parseValue_agrees {fuel : Nat}
    (ha : ∀ t arr, Agrees ((parserDialect S).Reads (.items .array) t) (Cuts S (.items .array) t)
      (arrayLoop S fuel t arr))
    (ho : ∀ t obj, Agrees ((parserDialect S).Reads (.items .object) t) (Cuts S (.items .object) t)
      (objectLoop S fuel t obj)) {t : Bytes} (ht : t ≠ []) :
    Agrees ((parserDialect S).Reads .value t) (Cuts S .value t) (parseValue S (fuel + 1) t) := by
  obtain ⟨c, u, rfl⟩ := List.exists_cons_of_ne_nil ht
  unfold parseValue
  dsimp only
  split
  · rename_i hc
    subst hc
    split
    · rename_i hclose
      exact .value (.empty .object ⟨[], by simp, head_eq_some hclose⟩)
    · exact (ho u []).mono (fun _ => .container .object) (.container .object)
  split
  · rename_i hc
    subst hc
    split
    · rename_i hclose
      exact .value (.empty .array ⟨[], by simp, head_eq_some hclose⟩)
    · exact (ha u []).mono (fun _ => .container .array) (.container .array)
  split
  · exact (parseString_agrees S ht).bind .string rfl fun s rest h => .value (.string h)
  split
  · rename_i hopen
    exact (parseNumber_agrees S hopen.symm _).mono (fun _ => .number) id
  split
  · rename_i hw
    refine .value ?_
    rw [word_append hw]
    exact .null _
  split
  · rename_i hw
    refine .value ?_
    rw [word_append hw]
    exact .true _
  split
  · rename_i hw
    refine .value ?_
    rw [word_append hw]
    exact .false _
  · exact .null

theorem parse_agrees (fuel : Nat) :
    (∀ t, t ≠ [] → Agrees ((parserDialect S).Reads .value t) (Cuts S .value t) (parseValue S fuel t)) ∧
    (∀ t arr, Agrees ((parserDialect S).Reads (.items .array) t) (Cuts S (.items .array) t)
      (arrayLoop S fuel t arr)) ∧
    (∀ t obj, Agrees ((parserDialect S).Reads (.items .object) t) (Cuts S (.items .object) t)
      (objectLoop S fuel t obj)) := by
  induction fuel with
  | zero => exact ⟨fun _ _ => .hang, fun _ _ => .hang, fun _ _ => .hang⟩
  | succ fuel ih =>
    obtain ⟨hv, ha, ho⟩ := ih
    refine ⟨fun t ht => ?_, fun t arr => ?_, fun t obj => ?_⟩
    · exact parseValue_agrees S ha ho ht
    · rw [arrayLoop_succ]
      exact (readElement_agrees hv t).bind (.item .array) rfl fun jv r hr => behindItem_agrees S hr ha
    · rw [objectLoop_succ]
      exact (readMember_agrees hv t).bind (.item .object) rfl fun m r hr => behindItem_agrees S hr ho

/-! ## What is read the parser returns, and on a text that is cut it faults -/

theorem Str.shorter {t rest : Bytes} (h : (parserDialect S).Str t rest) : rest.length + 2 ≤ t.length := by
  obtain ⟨u, rfl, hu⟩ := h
  have := chars_shorter hu
  simp only [List.length_cons] at this ⊢
  omega

theorem Reads.shorter {p : Part} {t rest : Bytes} (h : (parserDialect S).Reads p t rest) :
    rest.length < t.length := by
  induction h with
  | null rest | true rest | false rest =>
    rw [List.length_append]
    exact Nat.lt_add_of_pos_left (by decide)
  | string h =>
    have := Str.shorter S h
    omega
  | number h =>
    obtain ⟨run, rfl, ⟨c, u, rfl, -⟩, -⟩ := h
    simp only [List.length_append, List.length_cons]
    omega
  | empty k h =>
    have := h.length_le
    simp only [List.length_cons] at this ⊢
    omega
  | container k _ ih =>
    simp only [List.length_cons]
    omega
  | element h1 _ h2 ih =>
    have := h1.length_le
    have := h2.length_le
    omega
  | member h1 h2 h3 h4 _ h5 ih =>
    have := h1.length_le
    have := Str.shorter S h2
    have := h3.length_le
    have := h4.length_le
    have := h5.length_le
    simp only [List.length_cons] at *
    omega
  | last k _ ih =>
    simp only [List.length_cons] at ih
    omega
  | comma k _ h ih =>
    have := h.length_le
    simp only [List.length_cons] at *
    omega
  | more k _ _ ih ih' =>
    simp only [List.length_cons] at ih
    omega

/-- White space, and then a byte that a value begins with. -/
def Opens (t : Bytes) : Prop :=
  ∃ ws text, t = ws ++ text ∧ (∀ c ∈ ws, isCtrlAndSpace c = true) ∧ ∃ c u, text = c :: u ∧ opensValue c = true

theorem Opens.head_ne {t : Bytes} (h : Opens t) (k : Container) : t.head? ≠ some k.closes := by
  obtain ⟨ws, text, rfl, hws, htext⟩ := h
  exact head_ne_close hws htext (by cases k <;> decide)

/-- What the parts begin with; a value with no white space. -/
def Begins : Part → Bytes → Prop
  | .value, t => ∃ c u, t = c :: u ∧ opensValue c = true
  | _, t => Opens t

theorem opens_container (k : Container) : opensValue k.opens = true := by cases k <;> decide

theorem begins_blanks {t u : Bytes} (h : Blanks (parserDialect S).blank t u)
    (hu : ∃ c w, u = c :: w ∧ opensValue c = true) : Opens t := by
  obtain ⟨ws, hws, rfl⟩ := h
  exact ⟨ws, u, rfl, hws, hu⟩

theorem Str.begins {t rest : Bytes} (h : (parserDialect S).Str t rest) : ∃ c u, t = c :: u ∧ opensValue c = true := by
  obtain ⟨u, rfl, -⟩ := h
  exact ⟨34, u, rfl, by decide⟩

theorem StrCut.begins {t : Bytes} (h : StrCut t) : ∃ c u, t = c :: u ∧ opensValue c = true := by
  obtain ⟨u, -, rfl, -⟩ := h
  exact ⟨34, u, rfl, by decide⟩

theorem Reads.begins {p : Part} {t rest : Bytes} (h : (parserDialect S).Reads p t rest) : Begins p t := by
  induction h with
  | null rest => exact ⟨110, _, rfl, by decide⟩
  | true rest => exact ⟨116, _, rfl, by decide⟩
  | false rest => exact ⟨102, _, rfl, by decide⟩
  | string h => exact Str.begins S h
  | number h =>
    obtain ⟨run, rfl, ⟨c, u, rfl, hopen⟩, -⟩ := h
    exact ⟨c, _, rfl, (opens_number c hopen).1⟩
  | empty k _ => exact ⟨k.opens, _, rfl, opens_container k⟩
  | container k _ _ => exact ⟨k.opens, _, rfl, opens_container k⟩
  | element h1 _ _ ih => exact begins_blanks S h1 ih
  | member h1 h2 => exact begins_blanks S h1 (Str.begins S h2)
  | last k _ ih => exact ih
  | comma k _ _ ih => exact ih
  | more k _ _ ih _ => exact ih

theorem Cuts.begins {p : Part} {t : Bytes} (h : Cuts S p t) : Begins p t := by
  induction h with
  | string h => exact h.begins
  | container k _ _ => exact ⟨k.opens, _, rfl, opens_container k⟩
  | element h1 _ ih => exact begins_blanks S h1 ih
  | key h1 h2 => exact begins_blanks S h1 h2.begins
  | colon h1 h2 _ => exact begins_blanks S h1 (Str.begins S h2)
  | member h1 h2 => exact begins_blanks S h1 (Str.begins S h2)
  | item k _ ih => exact ih
  | behind k h => exact show Begins (.item k) _ from Reads.begins S h
  | more k h _ _ => exact show Begins (.item k) _ from Reads.begins S h

/-- The function for an item returns `rest`. -/
def ItemLeaves (fuel : Nat) (t rest : Bytes) : Container → Prop
  | .array => ∃ jv, readElement S fuel t = .ok (some (jv, rest))
  | .object => ∃ m, readMember S fuel t = .ok (some (m, rest))

def ItemFaults (fuel : Nat) (t : Bytes) : Container → Prop
  | .array => ∃ f, f ≠ .hang ∧ readElement S fuel t = .error f
  | .object => ∃ f, f ≠ .hang ∧ readMember S fuel t = .error f

/-- Whatever it has gathered, the loop returns what `P` says. -/
def LoopGives (fuel : Nat) (t : Bytes) (P : Except Fault (Option (JsonNode D × Bytes)) → Prop) : Container → Prop
  | .array => ∀ arr, P (arrayLoop S fuel t arr)
  | .object => ∀ obj, P (objectLoop S fuel t obj)

def Leaves (rest : Bytes) (r : Except Fault (Option (JsonNode D × Bytes))) : Prop := ∃ v, r = .ok (some (v, rest))

def Faults (r : Except Fault (Option (JsonNode D × Bytes))) : Prop := ∃ f, f ≠ .hang ∧ r = .error f

section

variable {S} {fuel : Nat} {t u r : Bytes} {P : Except Fault (Option (JsonNode D × Bytes)) → Prop}

/-- What a loop gives behind an item is what is done with what the item left. -/
theorem LoopGives.of_item : ∀ {k : Container}, ItemLeaves S fuel t r k →
    (∀ {α : Type} (loop : Bytes → α → Except Fault (Option (JsonNode D × Bytes))) (nodeOf : α → JsonNode D) (acc : α),
      (∀ u, LoopGives S fuel u P k → ∀ acc, P (loop u acc)) → P (behindItem k.closes loop nodeOf acc r)) →
    LoopGives S (fuel + 1) t P k := by
  intro k hitem hbehind
  cases k with
  | array =>
    intro arr
    obtain ⟨jv, hr⟩ := hitem
    rw [arrayLoop_succ, hr]
    exact hbehind (arrayLoop S fuel) .array (arr ++ [jv]) fun u h => h
  | object =>
    intro obj
    obtain ⟨⟨k, v⟩, hr⟩ := hitem
    rw [objectLoop_succ, hr]
    exact hbehind (objectLoop S fuel) .object (insertMember k v obj) fun u h => h

theorem LoopGives.fault {k : Container} (h : ItemFaults S fuel t k) : LoopGives S (fuel + 1) t Faults k := by
  cases k with
  | array =>
    intro arr
    obtain ⟨f, hne, hr⟩ := h
    rw [arrayLoop_succ, hr]
    exact ⟨f, hne, rfl⟩
  | object =>
    intro obj
    obtain ⟨f, hne, hr⟩ := h
    rw [objectLoop_succ, hr]
    exact ⟨f, hne, rfl⟩

theorem closes_ne_comma (k : Container) : k.closes ≠ 44 := by cases k <;> decide

theorem LoopGives.last {k : Container} (h : ItemLeaves S fuel t (k.closes :: r) k) :
    LoopGives S (fuel + 1) t (Leaves r) k :=
  .of_item h fun _ _ _ _ => ⟨_, behindItem_close _ (closes_ne_comma k)⟩

theorem LoopGives.comma {k : Container} (h : ItemLeaves S fuel t (44 :: k.closes :: r) k) :
    LoopGives S (fuel + 1) t (Leaves r) k :=
  .of_item h fun _ nodeOf acc _ => ⟨nodeOf acc, by
    simp [behindItem, checkFunc, closeWith, charAt_cons, bind, Except.bind]⟩

theorem LoopGives.more {k : Container} (h : ItemLeaves S fuel t (44 :: u) k) (hu : Opens u)
    (hl : LoopGives S fuel u P k) : LoopGives S (fuel + 1) t P k :=
  .of_item h fun loop nodeOf acc hloop => by
    rw [behindItem_more acc (hu.head_ne k)]
    exact hloop u hl acc

theorem LoopGives.behind {k : Container} (h : ItemLeaves S fuel t [] k) : LoopGives S (fuel + 1) t Faults k :=
  .of_item h fun _ _ _ _ => ⟨.outOfRange, by decide, rfl⟩

theorem parseValue_container {k : Container} (hu : u.head? ≠ some k.closes) (hl : LoopGives S fuel u P k) :
    P (parseValue S (fuel + 1) (k.opens :: u)) := by
  cases k with
  | array =>
    rw [Container.opens, parseValue_array hu]
    exact hl []
  | object =>
    rw [Container.opens, parseValue_object hu]
    exact hl []

end

/-- What is read the functions of the parser return, given the fuel for it. -/
def Returns (fuel : Nat) : Part → Bytes → Bytes → Prop
  | .value, t, rest => 2 * t.length + 1 ≤ fuel → Leaves rest (parseValue S fuel t)
  | .item k, t, rest => 2 * t.length + 1 ≤ fuel → ItemLeaves S fuel t (skipCtrlAndSpace rest) k
  | .items k, t, rest => 2 * t.length + 2 ≤ fuel → LoopGives S fuel t (Leaves rest) k

theorem skip_closes (k : Container) (rest : Bytes) : skipCtrlAndSpace (k.closes :: rest) = k.closes :: rest :=
  skip_cons (by cases k <;> decide) rest

theorem skip_comma (rest : Bytes) : skipCtrlAndSpace (44 :: rest) = 44 :: rest := skip_cons (by decide) rest

theorem skip_colon {v w : Bytes} (h : Blanks (parserDialect S).blank v (58 :: w)) : skipCtrlAndSpace v = 58 :: w := by
  rw [skip_blanks S h, skip_cons (by decide)]

/-- The dialect has no white space before a bracket that closes. -/
theorem gap_eq {t u : Bytes} (h : Blanks (parserDialect S).gap t u) : t = u := by
  obtain ⟨ws, hws, rfl⟩ := h
  cases ws with
  | nil => rfl
  | cons c ws => exact absurd (hws c List.mem_cons_self) id

theorem readElement_reads {fuel : Nat} {t u v rest : Bytes} {jv : JsonNode D} (h1 : Blanks (parserDialect S).blank t u)
    (hu : ∃ c w, u = c :: w ∧ opensValue c = true) (hv : parseValue S fuel u = .ok (some (jv, v)))
    (h2 : Blanks (parserDialect S).blank v rest) :
    readElement S fuel t = .ok (some (jv, skipCtrlAndSpace rest)) := by
  obtain ⟨ws, hws, rfl⟩ := h1
  rw [readElement_of_value hws hu hv, skip_blanks S h2]

theorem parse_reads {p : Part} {t rest : Bytes} (h : (parserDialect S).Reads p t rest) :
    ∀ fuel, Returns S fuel p t rest := by
  induction h with
  | null rest =>
    intro fuel hf
    obtain ⟨fuel, rfl⟩ := Nat.exists_eq_add_of_lt (show 0 < fuel by omega)
    exact ⟨_, parseValue_null⟩
  | true rest =>
    intro fuel hf
    obtain ⟨fuel, rfl⟩ := Nat.exists_eq_add_of_lt (show 0 < fuel by omega)
    exact ⟨_, parseValue_true⟩
  | false rest =>
    intro fuel hf
    obtain ⟨fuel, rfl⟩ := Nat.exists_eq_add_of_lt (show 0 < fuel by omega)
    exact ⟨_, parseValue_false⟩
  | string h =>
    intro fuel hf
    obtain ⟨fuel, rfl⟩ := Nat.exists_eq_add_of_lt (show 0 < fuel by omega)
    obtain ⟨s, hs⟩ := parseString_str S h
    obtain ⟨u, rfl, -⟩ := h
    exact ⟨.string s, by rw [parseValue_string, hs]; rfl⟩
  | number h =>
    intro fuel hf
    obtain ⟨fuel, rfl⟩ := Nat.exists_eq_add_of_lt (show 0 < fuel by omega)
    obtain ⟨v, hv⟩ := parseNumber_reads S h
    obtain ⟨run, rfl, ⟨c, u, rfl, hopen⟩, -⟩ := h
    exact ⟨v, by rw [List.cons_append, parseValue_number hopen, ← List.cons_append, hv]⟩
  | @empty k t rest h =>
    intro fuel hf
    obtain ⟨fuel, rfl⟩ := Nat.exists_eq_add_of_lt (show 0 < fuel by omega)
    rw [gap_eq S h]
    cases k with
    | array => exact ⟨.array [], by simp [Container.opens, Container.closes, parseValue_cons]⟩
    | object => exact ⟨.object [], by simp [Container.opens, Container.closes, parseValue_cons]⟩
  | container k h ih =>
    intro fuel hf
    simp only [List.length_cons] at hf
    obtain ⟨fuel, rfl⟩ := Nat.exists_eq_add_of_lt (show 0 < fuel by omega)
    have hopens : Opens _ := Reads.begins S h
    exact parseValue_container (hopens.head_ne k) (ih _ (by omega))
  | element h1 hval h2 ih =>
    intro fuel hf
    have hlen := h1.length_le
    obtain ⟨jv, hv⟩ := ih fuel (by omega)
    exact ⟨jv, readElement_reads S h1 (Reads.begins S hval) hv h2⟩
  | member h1 h2 h3 h4 hval h5 ih =>
    intro fuel hf
    have hlen1 := h1.length_le
    have hlen2 := Str.shorter S h2
    have hlen3 := h3.length_le
    have hlen4 := h4.length_le
    rw [List.length_cons] at hlen3
    obtain ⟨jv, hv⟩ := ih fuel (by omega)
    obtain ⟨s, hs⟩ := parseString_str S h2
    obtain ⟨u, rfl, -⟩ := h2
    obtain ⟨ws, hws, rfl⟩ := h1
    exact ⟨_, readMember_of_value hws hs (skip_colon S h3) (readElement_reads S h4 (Reads.begins S hval) hv h5)⟩
  | last k h ih =>
    intro fuel hf
    obtain ⟨fuel, rfl⟩ := Nat.exists_eq_add_of_lt (show 0 < fuel by omega)
    have hitem := ih (0 + fuel) (by omega)
    rw [skip_closes] at hitem
    exact .last hitem
  | comma k h hgap ih =>
    intro fuel hf
    obtain ⟨fuel, rfl⟩ := Nat.exists_eq_add_of_lt (show 0 < fuel by omega)
    have hitem := ih (0 + fuel) (by omega)
    rw [skip_comma, gap_eq S hgap] at hitem
    exact .comma hitem
  | more k h hmore ih ih' =>
    intro fuel hf
    obtain ⟨fuel, rfl⟩ := Nat.exists_eq_add_of_lt (show 0 < fuel by omega)
    have hlen := Reads.shorter S h
    rw [List.length_cons] at hlen
    have hitem := ih (0 + fuel) (by omega)
    rw [skip_comma] at hitem
    exact .more hitem (Reads.begins S hmore) (ih' (0 + fuel) (by omega))

/-- On a text that is cut they fault, given the fuel to get there. -/
def Ends (fuel : Nat) : Part → Bytes → Prop
  | .value, t => 2 * t.length + 1 ≤ fuel → Faults (parseValue S fuel t)
  | .item k, t => 2 * t.length + 1 ≤ fuel → ItemFaults S fuel t k
  | .items k, t => 2 * t.length + 2 ≤ fuel → LoopGives S fuel t Faults k

theorem readElement_faults {fuel : Nat} {t u : Bytes} {f : Fault} (h : Blanks (parserDialect S).blank t u)
    (hu : ∃ c w, u = c :: w ∧ opensValue c = true) (hv : parseValue S fuel u = .error f) :
    readElement S fuel t = .error f := by
  obtain ⟨c, w, rfl, hc⟩ := hu
  unfold readElement
  rw [skip_blanks S h, skip_cons (opensValue_spec c hc).1]
  simp [hv, bind, Except.bind]

theorem readMember_key {fuel : Nat} {t u : Bytes} (h : Blanks (parserDialect S).blank t (34 :: u)) :
    readMember S fuel t = (do
      match ← parseString (34 :: u) with
      | none => .ok none
      | some (k, str) =>
        let str := skipCtrlAndSpace str
        let c ← charAt str 0
        if c ≠ 58 then .ok none
        else
          match ← readElement S fuel (str.drop 1) with
          | none => .ok none
          | some (v, str) => .ok (some ((k, v), str))) := by
  unfold readMember
  rw [skip_blanks S h, skip_cons (by decide)]
  rfl

theorem parse_cuts {p : Part} {t : Bytes} (h : Cuts S p t) : ∀ fuel, Ends S fuel p t := by
  induction h with
  | string h =>
    intro fuel hf
    obtain ⟨fuel, rfl⟩ := Nat.exists_eq_add_of_lt (show 0 < fuel by omega)
    obtain ⟨f, hne, hs⟩ := parseString_strCut h
    obtain ⟨u, -, rfl, -⟩ := h
    exact ⟨f, hne, by rw [parseValue_string, hs]; rfl⟩
  | container k h ih =>
    intro fuel hf
    simp only [List.length_cons] at hf
    obtain ⟨fuel, rfl⟩ := Nat.exists_eq_add_of_lt (show 0 < fuel by omega)
    have hopens : Opens _ := Cuts.begins S h
    exact parseValue_container (hopens.head_ne k) (ih _ (by omega))
  | element h1 hval ih =>
    intro fuel hf
    have hlen := h1.length_le
    obtain ⟨f, hne, hv⟩ := ih fuel (by omega)
    exact ⟨f, hne, readElement_faults S h1 (Cuts.begins S hval) hv⟩
  | key h1 h2 =>
    intro fuel hf
    obtain ⟨f, hne, hs⟩ := parseString_strCut h2
    obtain ⟨u, -, rfl, -⟩ := h2
    exact ⟨f, hne, by rw [readMember_key S h1, hs]; rfl⟩
  | colon h1 h2 hall =>
    intro fuel hf
    obtain ⟨s, hs⟩ := parseString_str S h2
    obtain ⟨u, rfl, -⟩ := h2
    have hskip : skipCtrlAndSpace _ = [] := List.dropWhile_eq_nil_iff.mpr hall
    refine ⟨.outOfRange, by decide, ?_⟩
    rw [readMember_key S h1, hs]
    simp [bind, Except.bind, hskip, charAt]
  | member h1 h2 h3 h4 hval ih =>
    intro fuel hf
    have hlen1 := h1.length_le
    have hlen2 := Str.shorter S h2
    have hlen3 := h3.length_le
    have hlen4 := h4.length_le
    rw [List.length_cons] at hlen3
    obtain ⟨f, hne, hv⟩ := ih fuel (by omega)
    obtain ⟨s, hs⟩ := parseString_str S h2
    obtain ⟨u, rfl, -⟩ := h2
    refine ⟨f, hne, ?_⟩
    rw [readMember_key S h1, hs]
    simp [bind, Except.bind, skip_colon S h3, charAt_cons, readElement_faults S h4 (Cuts.begins S hval) hv]
  | item k h ih =>
    intro fuel hf
    obtain ⟨fuel, rfl⟩ := Nat.exists_eq_add_of_lt (show 0 < fuel by omega)
    exact .fault (ih (0 + fuel) (by omega))
  | behind k h =>
    intro fuel hf
    obtain ⟨fuel, rfl⟩ := Nat.exists_eq_add_of_lt (show 0 < fuel by omega)
    exact .behind (parse_reads S h (0 + fuel) (by omega))
  | more k h hmore ih =>
    intro fuel hf
    obtain ⟨fuel, rfl⟩ := Nat.exists_eq_add_of_lt (show 0 < fuel by omega)
    have hlen := Reads.shorter S h
    rw [List.length_cons] at hlen
    have hitem := parse_reads S h (0 + fuel)
    have hitem' := hitem (by omega)
    rw [skip_comma] at hitem'
    exact .more hitem' (Cuts.begins S hmore) (ih (0 + fuel) (by omega))

end HahaWeb.Json
