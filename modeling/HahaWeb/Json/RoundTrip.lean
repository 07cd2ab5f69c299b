/-
  HahaWeb.Json.RoundTrip — the text of a tree is read back as the tree.

  The tree has no `double`; its strings and keys are ones the parser recovers from their
  own text, its integers are of an `int`, and the members of an object are in the order of
  the map. A number's text ends where a byte stands that no number has, which is so of
  every byte the printer puts behind one. Proved: whatever the format, `fromString` of the
  text is the tree (`tree_round_trip`), by induction on the tree, the loops of the parser
  going through the elements as the printer wrote them.
-/

import HahaWeb.Json.Number
import HahaWeb.Json.Print

namespace HahaWeb.Json

variable {D : Type} {S : Stod D} {doubleText : D → Bytes} {fmt : JsonFormatType}

/-! ## Trees -/

/-- `parse_string` recovers the string from its own text. -/
def Recovered (s : Bytes) : Prop := parseString (stringText s) = .ok (some (s, []))

theorem Recovered.parse {s : Bytes} (h : Recovered s) (rest : Bytes) :
    parseString (stringText s ++ rest) = .ok (some (s, rest)) := by
  have hq : 34 ∉ s := by
    intro hmem
    have hself := parseString_text s []
    rw [List.append_nil, if_pos hmem] at hself
    rw [Recovered, hself] at h
    cases h
  rw [parseString_text, if_neg hq]

/-- A tree of the kinds that have a text of their own. -/
inductive Plain : JsonNode D → Prop
  | object {members : List (Bytes × JsonNode D)} : (members.map (·.1)).Pairwise (· < ·) →
      (∀ m ∈ members, Recovered m.1) → (∀ m ∈ members, Plain m.2) → Plain (.object members)
  | array {elements : List (JsonNode D)} : (∀ e ∈ elements, Plain e) → Plain (.array elements)
  | string {s : Bytes} : Recovered s → Plain (.string s)
  | integer {n : Int} : -2 ^ 31 ≤ n → n < 2 ^ 31 → Plain (.integer n)
  | boolean (b : Bool) : Plain (.boolean b)
  | null : Plain .null

/-- `std::stod` reads what `std::to_string` writes of an `int`, as that number. -/
def ReadsInts (S : Stod D) : Prop :=
  ∀ n : Int, -2 ^ 31 ≤ n → n < 2 ^ 31 → ∃ d, S.stod (intText n) = some d ∧ S.toInt d = some n

/-! ## Numbers -/

theorem intText_cons (n : Int) : ∃ c u, intText n = c :: u ∧ (isdigit c = true ∨ c = 45) := by
  unfold intText
  obtain ⟨c, u, hd⟩ := List.exists_cons_of_ne_nil (decimal_ne_nil n.natAbs)
  split
  · exact ⟨45, _, rfl, .inr rfl⟩
  · exact ⟨c, u, hd, .inl (isdigit_decimal (hd ▸ List.mem_cons_self))⟩

theorem intText_component {n : Int} {c : UInt8} (h : c ∈ intText n) : isNumberComponent c = true ∧ c ≠ 46 := by
  unfold intText at h
  split at h
  · rcases List.mem_cons.mp h with rfl | h
    · decide
    · exact component_of_digit c (isdigit_decimal h)
  · exact component_of_digit c (isdigit_decimal h)

theorem parseNumber_int (hS : ReadsInts S) {n : Int} (hlo : -2 ^ 31 ≤ n) (hhi : n < 2 ^ 31) {rest : Bytes}
    (hr : Stops rest) : parseNumber S (intText n ++ rest) = .ok (some (.integer n, rest)) := by
  obtain ⟨c, u, hc, hopen⟩ := intText_cons n
  obtain ⟨ht, hdrop⟩ := takeWhile_stops (fun c h => (intText_component h).1) hr
  have hlast : (intText n).getLast? ≠ some 46 := fun h => (intText_component (List.mem_of_getLast? h)).2 rfl
  obtain ⟨d, hd, hn⟩ := hS n hlo hhi
  unfold parseNumber
  rw [ht, hdrop]
  have hfirst : charAt (intText n ++ rest) 0 = .ok c := by rw [hc]; rfl
  have hopen' : (!isdigit c && c != 45) = false := by
    rcases hopen with h | rfl
    · simp [h]
    · decide
  simp [hfirst, hopen', hd, hlast, hn, bind, Except.bind]

/-! ## What stands between the items -/

theorem newLine_blank (depth : Nat) : ∀ c ∈ newLine fmt depth, isCtrlAndSpace c = true := by
  intro c h
  unfold newLine at h
  split at h
  · rcases List.mem_cons.mp h with rfl | h
    · decide
    · rw [(List.mem_replicate.mp h).2]
      decide
  · cases h

/-- What stands before the next item behind the comma. -/
def gap (fmt : JsonFormatType) : Bytes := if fmt = .space then [32] else []

theorem separator_eq : separator fmt = 44 :: gap fmt := by
  unfold separator gap
  split <;> rfl

theorem gap_blank : ∀ c ∈ gap fmt, isCtrlAndSpace c = true := by
  intro c h
  unfold gap at h
  split at h
  · rw [List.mem_singleton.mp h]
    decide
  · cases h

theorem stops_newLine (depth : Nat) {close : UInt8} (hc : isNumberComponent close = false) (rest : Bytes) :
    Stops (newLine fmt depth ++ close :: rest) := by
  unfold newLine
  split
  · exact stops_cons (by decide) _
  · exact stops_cons hc _

theorem skip_newLine (depth : Nat) {close : UInt8} (hc : isCtrlAndSpace close = false) (rest : Bytes) :
    skipCtrlAndSpace (newLine fmt depth ++ close :: rest) = close :: rest := by
  rw [skip_append (newLine_blank depth), skip_cons hc]

/-! ## The items of a container -/

/-- The text is read as the node, whatever stands behind it that ends a number. -/
structure ReadAs (S : Stod D) (text : Bytes) (node : JsonNode D) : Prop where
  opens : ∃ c u, text = c :: u ∧ opensValue c = true
  parse : ∀ (fuel : Nat) (rest : Bytes), Stops rest → 2 * text.length + 1 ≤ fuel →
    parseValue S fuel (text ++ rest) = .ok (some (node, rest))

theorem ReadAs.readElement {text ws behind : Bytes} {node : JsonNode D} (h : ReadAs S text node)
    (hw : ∀ c ∈ ws, isCtrlAndSpace c = true) (hb : Stops behind) {fuel : Nat} (hf : 2 * text.length + 1 ≤ fuel) :
    readElement S fuel (ws ++ (text ++ behind)) = .ok (some (node, skipCtrlAndSpace behind)) := by
  obtain ⟨c, u, hc, hopen⟩ := h.opens
  exact readElement_of_value hw ⟨c, u ++ behind, by rw [hc]; rfl, hopen⟩ (h.parse fuel behind hb hf)

/-- What stands before the value of a member, behind the colon. -/
def colonGap (fmt : JsonFormatType) : Bytes := if fmt = .raw then [] else [32]

theorem colonGap_blank : ∀ c ∈ colonGap fmt, isCtrlAndSpace c = true := by
  intro c h
  unfold colonGap at h
  split at h
  · cases h
  · rw [List.mem_singleton.mp h]
    decide

/-- The text of a member whose value has the text `text`. -/
def memberText (fmt : JsonFormatType) (k text : Bytes) : Bytes := stringText k ++ (58 :: (colonGap fmt ++ text))

theorem ReadAs.readMember {k text ws behind : Bytes} {node : JsonNode D} (h : ReadAs S text node) (hk : Recovered k)
    (hw : ∀ c ∈ ws, isCtrlAndSpace c = true) (hb : Stops behind) {fuel : Nat} (hf : 2 * text.length + 1 ≤ fuel) :
    readMember S fuel (ws ++ (memberText fmt k text ++ behind)) = .ok (some ((k, node), skipCtrlAndSpace behind)) := by
  have hkey := hk.parse (58 :: (colonGap fmt ++ (text ++ behind)))
  have htext : memberText fmt k text ++ behind = stringText k ++ (58 :: (colonGap fmt ++ (text ++ behind))) := by
    simp only [memberText, List.append_assoc, List.cons_append]
  rw [htext]
  exact readMember_of_value hw hkey (skip_cons (by decide) _) (h.readElement colonGap_blank hb hf)

/-- A loop that reads each item as the printer wrote it goes through all of them. -/
theorem loop_text {α β : Type} {close : UInt8} (hclose : close = 93 ∨ close = 125)
    (loop : Nat → Bytes → α → Except Fault (Option (JsonNode D × Bytes))) (nodeOf : α → JsonNode D)
    (add : α → β → α) (text : β → Bytes) (itemsText : List β → Bytes) (depth : Nat) (rest : Bytes)
    (hnil : itemsText [] = [])
    (hcons : ∀ x xs, itemsText (x :: xs) =
      newLine fmt (depth + 1) ++ text x ++ (if xs.isEmpty then [] else separator fmt) ++ itemsText xs) :
    ∀ (xs : List β), xs ≠ [] → (∀ x ∈ xs, ∃ c u, text x = c :: u ∧ opensValue c = true) →
    (∀ x ∈ xs, ∀ (ws behind : Bytes) (fuel : Nat) (acc : α), (∀ c ∈ ws, isCtrlAndSpace c = true) → Stops behind →
      2 * (text x).length + 1 ≤ fuel →
      loop (fuel + 1) (ws ++ (text x ++ behind)) acc =
        behindItem close (loop fuel) nodeOf (add acc x) (skipCtrlAndSpace behind)) →
    ∀ (ws : Bytes) (acc : α) (fuel : Nat), (∀ c ∈ ws, isCtrlAndSpace c = true) →
      2 * (itemsText xs).length + 2 ≤ fuel →
      loop fuel (ws ++ (itemsText xs ++ (newLine fmt depth ++ close :: rest))) acc =
        .ok (some (nodeOf (xs.foldl add acc), rest)) := by
  have hc44 : close ≠ 44 := by rcases hclose with rfl | rfl <;> decide
  have hblank : isCtrlAndSpace close = false := by rcases hclose with rfl | rfl <;> decide
  have hstop : isNumberComponent close = false := by rcases hclose with rfl | rfl <;> decide
  intro xs
  induction xs with
  | nil => exact fun h => absurd rfl h
  | cons x xs ih =>
    intro _ hopens hstep ws acc fuel hw hf
    obtain ⟨c, u, hcu, hopen⟩ := hopens x List.mem_cons_self
    have hpre : ∀ c ∈ ws ++ newLine fmt (depth + 1), isCtrlAndSpace c = true := by
      intro c h
      rcases List.mem_append.mp h with h | h
      · exact hw c h
      · exact newLine_blank _ c h
    have hlen : (itemsText (x :: xs)).length = (newLine fmt (depth + 1)).length + (text x).length +
        (if xs.isEmpty then [] else separator fmt).length + (itemsText xs).length := by
      rw [hcons]
      simp only [List.length_append]
    obtain ⟨fuel, rfl⟩ := Nat.exists_eq_add_of_lt (show 0 < fuel by omega)
    rw [Nat.zero_add] at hf ⊢
    have hx := fun behind hb => hstep x List.mem_cons_self _ behind fuel acc hpre hb (by omega)
    cases xs with
    | nil =>
      have htext : ws ++ (itemsText [x] ++ (newLine fmt depth ++ close :: rest)) =
          (ws ++ newLine fmt (depth + 1)) ++ (text x ++ (newLine fmt depth ++ close :: rest)) := by
        rw [hcons, hnil]
        simp only [List.isEmpty_nil, if_true, List.append_nil, List.append_assoc]
      rw [htext, hx _ (stops_newLine depth hstop rest), skip_newLine depth hblank, behindItem_close _ hc44]
      rfl
    | cons y ys =>
      let next := itemsText (y :: ys) ++ (newLine fmt depth ++ close :: rest)
      have htext : ws ++ (itemsText (x :: y :: ys) ++ (newLine fmt depth ++ close :: rest)) =
          (ws ++ newLine fmt (depth + 1)) ++ (text x ++ (44 :: (gap fmt ++ next))) := by
        rw [hcons x]
        simp only [next, separator_eq, List.isEmpty_cons, Bool.false_eq_true, if_false, List.append_assoc,
          List.cons_append]
      -- the next item stands behind blanks, so that no bracket does
      have hhead : (gap fmt ++ next).head? ≠ some close := by
        obtain ⟨c', u', hcu', hopen'⟩ := hopens y (List.mem_cons_of_mem _ List.mem_cons_self)
        have hnext : gap fmt ++ next = (gap fmt ++ newLine fmt (depth + 1)) ++
            (c' :: (u' ++ ((if ys.isEmpty then [] else separator fmt) ++
              (itemsText ys ++ (newLine fmt depth ++ close :: rest))))) := by
          simp only [next, hcons y, hcu', List.append_assoc, List.cons_append]
        rw [hnext]
        refine head_ne_close (fun c h => ?_) ⟨c', _, rfl, hopen'⟩ hclose
        rcases List.mem_append.mp h with h | h
        · exact gap_blank c h
        · exact newLine_blank _ c h
      have hsep : 0 < (if (y :: ys).isEmpty then [] else separator fmt).length := by
        rw [separator_eq]
        simp
      rw [htext, hx _ (stops_cons (by decide) _), skip_cons (by decide), behindItem_more _ hhead]
      exact ih (by simp) (fun z hz => hopens z (List.mem_cons_of_mem _ hz))
        (fun z hz => hstep z (List.mem_cons_of_mem _ hz)) (gap fmt) (add acc x) fuel gap_blank
        (by rw [hcu, List.length_cons] at hlen; omega)

/-! ## The tree -/

theorem insertMember_last {k : Bytes} {v : JsonNode D} : ∀ {obj : List (Bytes × JsonNode D)},
    (∀ m ∈ obj, m.1 < k) → insertMember k v obj = obj ++ [(k, v)] := by
  intro obj
  induction obj with
  | nil => exact fun _ => rfl
  | cons m obj ih =>
    intro h
    have hlt := h m List.mem_cons_self
    have hne : k ≠ m.1 := by
      intro he
      rw [he] at hlt
      exact List.lt_irrefl _ hlt
    obtain ⟨k', v'⟩ := m
    rw [insertMember, if_neg hne, if_neg (List.lt_asymm hlt), ih fun m hm => h m (List.mem_cons_of_mem _ hm)]
    rfl

/-- Members in the order of the map are put where they were. -/
theorem foldl_insertMember {ms : List (Bytes × JsonNode D)} : ∀ {obj : List (Bytes × JsonNode D)},
    ((obj ++ ms).map (·.1)).Pairwise (· < ·) →
    ms.foldl (fun obj m => insertMember m.1 m.2 obj) obj = obj ++ ms := by
  induction ms with
  | nil =>
    intro obj _
    exact (List.append_nil obj).symm
  | cons m ms ih =>
    intro obj h
    have hlast : ∀ x ∈ obj, x.1 < m.1 := by
      intro x hx
      rw [List.map_append, List.pairwise_append] at h
      exact h.2.2 x.1 (List.mem_map_of_mem hx) m.1 (List.mem_map_of_mem List.mem_cons_self)
    rw [List.foldl_cons, insertMember_last hlast, ih (by simpa using h), List.append_assoc, List.singleton_append]

section

variable {depth : Nat}

theorem readAs_array {es : List (JsonNode D)} (h : ∀ e ∈ es, ReadAs S (toString doubleText fmt (depth + 1) e) e) :
    ReadAs S (toString doubleText fmt depth (.array es)) (.array es) := by
  refine ⟨⟨91, _, rfl, by decide⟩, fun fuel rest hr hf => ?_⟩
  obtain ⟨fuel, rfl⟩ := Nat.exists_eq_add_of_lt (show 0 < fuel by omega)
  cases es with
  | nil => simp [toString, elementsText, parseValue]
  | cons e es =>
    have htext : toString doubleText fmt depth (.array (e :: es)) ++ rest =
        91 :: (elementsText doubleText fmt depth (e :: es) ++ (newLine fmt depth ++ 93 :: rest)) := by
      simp only [toString, List.isEmpty_cons, Bool.false_eq_true, if_false, List.cons_append, List.append_assoc,
        List.nil_append]
    have hhead : (elementsText doubleText fmt depth (e :: es) ++ (newLine fmt depth ++ 93 :: rest)).head? ≠
        some 93 := by
      obtain ⟨c, u, hcu, hopen⟩ := (h e List.mem_cons_self).opens
      rw [elementsText, hcu]
      simp only [List.append_assoc, List.cons_append]
      exact head_ne_close (newLine_blank _) ⟨c, _, rfl, hopen⟩ (.inl rfl)
    have hlen : (elementsText doubleText fmt depth (e :: es)).length + 1 ≤
        (toString doubleText fmt depth (.array (e :: es))).length := by
      simp only [toString, List.length_cons, List.length_append]
      omega
    rw [htext, parseValue_array hhead]
    have hloop := loop_text (.inl rfl) (arrayLoop S) .array (fun arr e => arr ++ [e])
      (toString doubleText fmt (depth + 1)) (elementsText doubleText fmt depth) depth rest rfl (fun _ _ => rfl)
      (e :: es) (by simp) (fun x hx => (h x hx).opens)
      (fun x hx ws behind fuel acc hw hb hf => by
        rw [arrayLoop_succ, (h x hx).readElement hw hb hf]
        rfl) [] [] (0 + fuel) (by simp) (by omega)
    have hall : (e :: es).foldl (fun arr e => arr ++ [e]) [] = e :: es := by
      rw [List.foldl_append_eq_append, ← List.flatMap_def, List.flatMap_singleton', List.nil_append]
    rw [hall] at hloop
    exact hloop

theorem readAs_object {ms : List (Bytes × JsonNode D)} (hsorted : (ms.map (·.1)).Pairwise (· < ·))
    (hk : ∀ m ∈ ms, Recovered m.1) (h : ∀ m ∈ ms, ReadAs S (toString doubleText fmt (depth + 1) m.2) m.2) :
    ReadAs S (toString doubleText fmt depth (.object ms)) (.object ms) := by
  refine ⟨⟨123, _, rfl, by decide⟩, fun fuel rest hr hf => ?_⟩
  obtain ⟨fuel, rfl⟩ := Nat.exists_eq_add_of_lt (show 0 < fuel by omega)
  cases ms with
  | nil => simp [toString, membersText, parseValue]
  | cons m ms =>
    have htext : toString doubleText fmt depth (.object (m :: ms)) ++ rest =
        123 :: (membersText doubleText fmt depth (m :: ms) ++ (newLine fmt depth ++ 125 :: rest)) := by
      simp only [toString, List.isEmpty_cons, Bool.false_eq_true, if_false, List.cons_append, List.append_assoc,
        List.nil_append]
    have hcons : ∀ m ms, membersText doubleText fmt depth (m :: ms) = newLine fmt (depth + 1) ++
        memberText fmt m.1 (toString doubleText fmt (depth + 1) m.2) ++
        (if ms.isEmpty then [] else separator fmt) ++ membersText doubleText fmt depth ms := by
      intro m ms
      simp only [membersText, memberText, colonGap, List.append_assoc, List.cons_append, List.nil_append]
    have hhead : (membersText doubleText fmt depth (m :: ms) ++ (newLine fmt depth ++ 125 :: rest)).head? ≠
        some 125 := by
      rw [hcons]
      simp only [memberText, stringText, List.append_assoc, List.cons_append]
      exact head_ne_close (newLine_blank _) ⟨34, _, rfl, by decide⟩ (.inr rfl)
    have hlen : (membersText doubleText fmt depth (m :: ms)).length + 1 ≤
        (toString doubleText fmt depth (.object (m :: ms))).length := by
      simp only [toString, List.length_cons, List.length_append]
      omega
    rw [htext, parseValue_object hhead]
    have hloop := loop_text (.inr rfl) (objectLoop S) .object (fun obj m => insertMember m.1 m.2 obj)
      (fun m => memberText fmt m.1 (toString doubleText fmt (depth + 1) m.2)) (membersText doubleText fmt depth)
      depth rest rfl hcons (m :: ms) (by simp) (fun x hx => ⟨34, _, rfl, by decide⟩)
      (fun x hx ws behind fuel acc hw hb hf => by
        have hle : (toString doubleText fmt (depth + 1) x.2).length ≤
            (memberText fmt x.1 (toString doubleText fmt (depth + 1) x.2)).length := by
          simp only [memberText, List.length_append, List.length_cons]
          omega
        rw [objectLoop_succ, (h x hx).readMember (hk x hx) hw hb (by omega)]
        rfl) [] [] (0 + fuel) (by simp) (by omega)
    rw [foldl_insertMember (by simpa using hsorted)] at hloop
    exact hloop

theorem readAs_scalar {text : Bytes} {node : JsonNode D} (hopen : ∃ c u, text = c :: u ∧ opensValue c = true)
    (h : ∀ (fuel : Nat) (rest : Bytes), Stops rest → parseValue S (fuel + 1) (text ++ rest) = .ok (some (node, rest))) :
    ReadAs S text node := by
  refine ⟨hopen, fun fuel rest hr hf => ?_⟩
  obtain ⟨fuel, rfl⟩ := Nat.exists_eq_add_of_lt (show 0 < fuel by omega)
  exact h _ rest hr

theorem readAs_string {s : Bytes} (h : Recovered s) : ReadAs S (stringText s) (.string s) := by
  refine readAs_scalar ⟨34, _, rfl, by decide⟩ fun fuel rest _ => ?_
  have hs := h.parse rest
  rw [stringText, List.cons_append] at hs ⊢
  rw [parseValue_string, hs]
  rfl

theorem readAs_integer (hS : ReadsInts S) {n : Int} (hlo : -2 ^ 31 ≤ n) (hhi : n < 2 ^ 31) :
    ReadAs S (intText n) (.integer n) := by
  obtain ⟨c, u, hc, hopen⟩ := intText_cons n
  refine readAs_scalar ⟨c, u, hc, (opens_number c hopen).1⟩ fun fuel rest hr => ?_
  have hn := parseNumber_int hS hlo hhi hr
  rw [hc, List.cons_append] at hn ⊢
  rw [parseValue_number hopen, hn]

end

/-- The text of a tree is read as the tree. -/
theorem readAs_plain (hS : ReadsInts S) {node : JsonNode D} (h : Plain node) :
    ∀ depth, ReadAs S (toString doubleText fmt depth node) node := by
  induction h with
  | object hsorted hk _ ih => exact fun depth => readAs_object hsorted hk fun m hm => ih m hm (depth + 1)
  | array _ ih => exact fun depth => readAs_array fun e he => ih e he (depth + 1)
  | string hs => exact fun depth => readAs_string hs
  | integer hlo hhi => exact fun depth => readAs_integer hS hlo hhi
  | boolean b =>
    intro depth
    cases b with
    | true => exact readAs_scalar ⟨116, _, rfl, by decide⟩ fun _ _ _ => parseValue_true
    | false => exact readAs_scalar ⟨102, _, rfl, by decide⟩ fun _ _ _ => parseValue_false
  | null => exact fun depth => readAs_scalar ⟨110, _, rfl, by decide⟩ fun _ _ _ => parseValue_null

/-- The text of a tree, in whatever format, is read back as the tree. -/
theorem tree_round_trip (S : Stod D) (doubleText : D → Bytes) (fmt : JsonFormatType) (node : JsonNode D)
    (hS : ReadsInts S) (h : Plain node) : fromString S (toString doubleText fmt 0 node) = .ok (some node) := by
  have hread : ReadAs S (toString doubleText fmt 0 node) node := readAs_plain hS h 0
  have hv := hread.parse (2 * (toString doubleText fmt 0 node).length + 2) [] (by simp [Stops]) (by omega)
  obtain ⟨c, u, hc, hopen⟩ := hread.opens
  have hbom : skipUtf8Bom (toString doubleText fmt 0 node) = toString doubleText fmt 0 node := by
    rw [hc]
    refine if_neg fun htake => ?_
    have h239 := (List.cons.inj htake).1
    rw [h239] at hopen
    exact absurd hopen (by decide)
  have hskip : skipCtrlAndSpace (toString doubleText fmt 0 node) = toString doubleText fmt 0 node := by
    rw [hc, skip_cons (opensValue_spec c hopen).1]
  rw [List.append_nil] at hv
  unfold fromString
  rw [hbom, hskip, hv]
  rfl

/-- `std::stod` of the text of an `int`, with the integers for the values. -/
def intStod : Stod Int where
  stod s := (readDecimal s).map fun r => if r.1 then -(r.2 : Int) else r.2
  toInt n := if -2 ^ 31 ≤ n ∧ n < 2 ^ 31 then some n else none

theorem readsInts_intStod : ReadsInts intStod := by
  intro n hlo hhi
  refine ⟨n, ?_, if_pos ⟨hlo, hhi⟩⟩
  obtain ⟨c, u, hd⟩ := List.exists_cons_of_ne_nil (decimal_ne_nil n.natAbs)
  have hread := readDecimal_of_digits (fun c => isdigit_decimal (n := n.natAbs)) (decimal_ne_nil n.natAbs)
  rw [decimalValue_decimal] at hread
  show (readDecimal (intText n)).map _ = _
  unfold intText
  split
  · rename_i hneg
    have hdigits : (decimal n.natAbs).takeWhile isdigit = decimal n.natAbs :=
      List.takeWhile_eq_self_iff.mpr fun c h => isdigit_decimal h
    have hminus : readDecimal (45 :: decimal n.natAbs) = some (true, n.natAbs) := by
      have hspace : isspace 45 = false := by decide
      simp [readDecimal, hspace, hdigits, decimal_ne_nil, decimalValue_decimal]
    rw [hminus]
    show some (-(n.natAbs : Int)) = some n
    rw [Int.ofNat_natAbs_of_nonpos (by omega), Int.neg_neg]
  · rw [hread]
    show some (n.natAbs : Int) = some n
    rw [Int.natAbs_of_nonneg (by omega)]

theorem tree_round_trip_object :
    fromString intStod (toString (fun _ : Int => []) .newline 0
      (.object [(lit "a", .array [.integer (-2 ^ 31), .array [], .boolean true]), (lit "b", .string (lit "x"))])) =
    .ok (some (.object [(lit "a", .array [.integer (-2 ^ 31), .array [], .boolean true]),
      (lit "b", .string (lit "x"))])) := by
  refine tree_round_trip _ _ _ _ readsInts_intStod (.object (by decide) ?_ ?_)
  · intro m hm
    rcases List.mem_cons.mp hm with rfl | hm
    · exact parseString_text (lit "a") []
    · rw [List.mem_singleton.mp hm]
      exact parseString_text (lit "b") []
  · intro m hm
    rcases List.mem_cons.mp hm with rfl | hm
    · refine .array fun e he => ?_
      rcases List.mem_cons.mp he with rfl | he
      · exact .integer (by decide) (by decide)
      · rcases List.mem_cons.mp he with rfl | he
        · exact .array (by simp)
        · rw [List.mem_singleton.mp he]
          exact .boolean true
    · rw [List.mem_singleton.mp hm]
      exact .string (parseString_text (lit "x") [])

end HahaWeb.Json
