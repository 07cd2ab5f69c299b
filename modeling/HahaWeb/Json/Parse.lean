/-
  HahaWeb.Json.Parse — `haha_json/json.cpp` and the parts of `haha_json/jsonUtil.cpp`
  its parser calls.

  A parse function takes its view and returns the node with the view left behind, or
  `none` for the null pointer (no caller looks at the view then). `char` is signed, as
  on the platforms the library is built for. `Stod` stands for what the parser uses of
  `double`: `std::stod` (`none` when it throws) and the value as an `int` when it lies
  within `INT_MIN` and `INT_MAX`.

  The recursion is bounded by fuel; two units for each byte of the text are enough
  (`parse_consumes`, `fromString_not_hang`): each value consumes a byte. The calls of
  `parse_value`, `parse_array` and `parse_object` nest as deep as the text does, and nothing
  in the source limits that: the stack they take is not modelled, so a text whose nesting
  exhausts it returns here and does not there.
-/

import HahaWeb.Base.Util

namespace HahaWeb.Json

/-- `JsonNode`: the members of an object in the order of the map, which is by key. -/
inductive JsonNode (D : Type) where
  | object (members : List (Bytes × JsonNode D))
  | array (elements : List (JsonNode D))
  | string (s : Bytes)
  | integer (n : Int)
  | double (d : D)
  | boolean (b : Bool)
  | null

structure Stod (D : Type) where
  stod : Bytes → Option D
  toInt : D → Option Int

variable {D : Type} (S : Stod D)

/-! ## `jsonUtil` -/

def isNumberComponent (c : UInt8) : Bool := isdigit c || c == 101 || c == 69 || c == 45 || c == 46

/-- `c <= 32` for a signed `char`. -/
def isCtrlAndSpace (c : UInt8) : Bool := c ≤ 32 || 128 ≤ c

def skipCtrlAndSpace (str : Bytes) : Bytes := str.dropWhile isCtrlAndSpace

def skipUtf8Bom (str : Bytes) : Bytes := if str.take 3 = [0xEF, 0xBB, 0xBF] then str.drop 3 else str

/-- The number hexadecimal digits write. -/
def hexValue (s : Bytes) : Nat := s.foldl (fun n c => n * 16 + (hex2dec c).toNat) 0

/-- `toBase<int, 16>`: a number too large for an `int` is read as `INT_MAX`. -/
def toBase16 (s : Bytes) : Nat := min (hexValue s) (2 ^ 31 - 1)

/-- `parse_hex4`: zero when a byte is no hexadecimal digit. -/
def parseHex4 (s : Bytes) : Nat := if s.all isxdigit then hexValue s else 0

/-- The UTF-8 encoding of a code point. -/
def encodeUtf8 (cp : Nat) : Bytes :=
  let tail (n : Nat) : UInt8 := UInt8.ofNat ((cp >>> (6 * n) ||| 0x80) &&& 0xBF)
  if cp < 0x80 then [UInt8.ofNat (cp &&& 0x7F)]
  else if cp < 0x800 then [UInt8.ofNat ((cp >>> 6 ||| 0xC0) &&& 0xFF), tail 0]
  else if cp < 0x10000 then [UInt8.ofNat ((cp >>> 12 ||| 0xE0) &&& 0xFF), tail 1, tail 0]
  else [UInt8.ofNat ((cp >>> 18 ||| 0xF0) &&& 0xFF), tail 2, tail 1, tail 0]

/-- `utf16_literal_to_utf8` on a view that begins with `\u`; `none` for the empty string. -/
def utf16LiteralToUtf8 (str : Bytes) : Except Fault (Option (Bytes × Bytes)) :=
  if str.length ≤ 2 then .error .assertion
  else
    let str := str.drop 2
    if str.length < 4 then .ok none
    else
      let first := parseHex4 (str.take 4)
      if 0xDC00 ≤ first ∧ first ≤ 0xDFFF then .ok none
      else
        let str := str.drop 4
        if 0xD800 ≤ first ∧ first ≤ 0xDBFF then
          if str.length < 6 ∨ str.take 2 ≠ lit "\\u" then .ok none
          else
            let str := str.drop 2
            let second := parseHex4 (str.take 4)
            if second < 0xDC00 ∨ 0xDFFF < second then .ok none
            else .ok (some (encodeUtf8 (0x10000 + ((first &&& 0x3FF) <<< 10 ||| (second &&& 0x3FF))), str.drop 4))
        else .ok (some (encodeUtf8 first, str))

/-! ## The parser -/

/-- The byte a one-letter escape stands for. -/
def escape (c : UInt8) : Option UInt8 :=
  if c = 92 then some 92        -- \\
  else if c = 116 then some 9   -- \t
  else if c = 110 then some 10  -- \n
  else if c = 114 then some 13  -- \r
  else if c = 48 then some 0    -- \0
  else if c = 98 then some 8    -- \b
  else if c = 102 then some 12  -- \f
  else none

/-- The loop of `parse_string`, behind the opening quote. -/
def stringLoop : Nat → Bytes → Bytes → Except Fault (Option (Bytes × Bytes))
  | 0, _, _ => .error .hang
  | fuel + 1, str, output =>
    match str with
    | [] => .ok none
    | c :: rest =>
      if c = 34 then .ok (some (output, rest))
      else if c = 92 then
        match rest with
        | [] => .ok none
        | e :: rest' =>
          match escape e with
          | some b => stringLoop fuel rest' (output ++ [b])
          | none =>
            if e = 120 then
              let hexs := rest'.takeWhile isxdigit
              let after := rest'.dropWhile isxdigit
              -- the loop over the digits reads the byte behind the last one
              if after.isEmpty then .error .outOfRange
              else if hexs.isEmpty then .ok none
              else stringLoop fuel after (output ++ decimal (toBase16 hexs))
            else if e = 117 then do
              match ← utf16LiteralToUtf8 str with
              | none => .ok none
              | some (temp, after) => stringLoop fuel after (output ++ temp)
            else .ok none
      else stringLoop fuel rest (output ++ [c])

def parseString (str : Bytes) : Except Fault (Option (Bytes × Bytes)) := do
  let c ← charAt str 0
  if c ≠ 34 then .ok none else stringLoop (str.length + 1) (str.drop 1) []

def parseNumber (str : Bytes) : Except Fault (Option (JsonNode D × Bytes)) := do
  let c ← charAt str 0
  if !isdigit c && c != 45 then .ok none
  else
    let numberStr := str.takeWhile isNumberComponent
    -- set again at every byte: only the last one counts
    let isInt := numberStr.getLast? != some 46
    match S.stod numberStr with
    | none => .ok none
    | some number =>
      match (if isInt then S.toInt number else none) with
      | some n => .ok (some (.integer n, str.dropWhile isNumberComponent))
      | none => .ok (some (.double number, str.dropWhile isNumberComponent))

/-- `std::map::insert`: a key that is there keeps its value. -/
def insertMember (k : Bytes) (v : JsonNode D) : List (Bytes × JsonNode D) → List (Bytes × JsonNode D)
  | [] => [(k, v)]
  | (k', v') :: l => if k = k' then (k', v') :: l else if k < k' then (k, v) :: (k', v') :: l else
    (k', v') :: insertMember k v l

/-- `check_func`: whether the container's loop goes on, and the view behind a comma. -/
def checkFunc (close : UInt8) (str : Bytes) : Bool × Bytes :=
  match str with
  | 44 :: rest => (rest.head? != some close, rest)
  | _ => (false, str)

/-- The byte that closes a container. -/
def closeWith (close : UInt8) (node : JsonNode D) (str : Bytes) : Except Fault (Option (JsonNode D × Bytes)) := do
  let c ← charAt str 0
  if c ≠ close then .ok none else .ok (some (node, str.drop 1))

mutual

def parseValue : Nat → Bytes → Except Fault (Option (JsonNode D × Bytes))
  | 0, _ => .error .hang
  | fuel + 1, str =>
    match str with
    | [] => .ok none
    | c :: rest =>
      if c = 123 then if rest.head? = some 125 then .ok (some (.object [], rest.drop 1)) else objectLoop fuel rest []
      else if c = 91 then if rest.head? = some 93 then .ok (some (.array [], rest.drop 1)) else arrayLoop fuel rest []
      else if c = 34 then do
        match ← parseString str with
        | none => .ok none
        | some (s, str) => .ok (some (.string s, str))
      else if c = 45 ∨ isdigit c then parseNumber S str
      else if str.take 4 = lit "null" then .ok (some (.null, str.drop 4))
      else if str.take 4 = lit "true" then .ok (some (.boolean true, str.drop 4))
      else if str.take 5 = lit "false" then .ok (some (.boolean false, str.drop 5))
      else .ok none

/-- The loop of `parse_array`, behind the bracket. -/
def arrayLoop : Nat → Bytes → List (JsonNode D) → Except Fault (Option (JsonNode D × Bytes))
  | 0, _, _ => .error .hang
  | fuel + 1, str, arr =>
    let str := skipCtrlAndSpace str
    if str.isEmpty then .ok none
    else do
      match ← parseValue fuel str with
      | none => .ok none
      | some (jv, str) =>
        let arr := arr ++ [jv]
        let (goOn, str) := checkFunc 93 (skipCtrlAndSpace str)
        if goOn then arrayLoop fuel str arr else closeWith 93 (.array arr) str

/-- The loop of `parse_object`, behind the brace. -/
def objectLoop : Nat → Bytes → List (Bytes × JsonNode D) → Except Fault (Option (JsonNode D × Bytes))
  | 0, _, _ => .error .hang
  | fuel + 1, str, obj =>
    let str := skipCtrlAndSpace str
    if str.isEmpty then .ok none
    else do
      match ← parseString str with
      | none => .ok none
      | some (k, str) =>
        let str := skipCtrlAndSpace str
        let c ← charAt str 0
        if c ≠ 58 then .ok none
        else
          let str := skipCtrlAndSpace (str.drop 1)
          if str.isEmpty then .ok none
          else
            match ← parseValue fuel str with
            | none => .ok none
            | some (v, str) =>
              let obj := insertMember k v obj
              let (goOn, str) := checkFunc 125 (skipCtrlAndSpace str)
              if goOn then objectLoop fuel str obj else closeWith 125 (.object obj) str

end

/-- `fromString`: what stands behind the value is not looked at. -/
def fromString (str : Bytes) : Except Fault (Option (JsonNode D)) := do
  let r ← parseValue S (2 * str.length + 2) (skipCtrlAndSpace (skipUtf8Bom str))
  .ok (r.map (·.1))

/-! ## One round of a loop -/

/-- An element and the white space around it. -/
def readElement (fuel : Nat) (str : Bytes) : Except Fault (Option (JsonNode D × Bytes)) :=
  let str := skipCtrlAndSpace str
  if str.isEmpty then .ok none
  else do
    match ← parseValue S fuel str with
    | none => .ok none
    | some (jv, str) => .ok (some (jv, skipCtrlAndSpace str))

/-- A member and the white space around it. -/
def readMember (fuel : Nat) (str : Bytes) : Except Fault (Option ((Bytes × JsonNode D) × Bytes)) :=
  let str := skipCtrlAndSpace str
  if str.isEmpty then .ok none
  else do
    match ← parseString str with
    | none => .ok none
    | some (k, str) =>
      let str := skipCtrlAndSpace str
      let c ← charAt str 0
      if c ≠ 58 then .ok none
      else
        match ← readElement S fuel (str.drop 1) with
        | none => .ok none
        | some (v, str) => .ok (some ((k, v), str))

/-- What a loop does behind an item: it goes around again, or closes the container. -/
def behindItem {α : Type} (close : UInt8) (loop : Bytes → α → Except Fault (Option (JsonNode D × Bytes)))
    (node : α → JsonNode D) (acc : α) (str : Bytes) : Except Fault (Option (JsonNode D × Bytes)) :=
  let (goOn, str) := checkFunc close str
  if goOn then loop str acc else closeWith close (node acc) str

/-- The bytes a value begins with. -/
def opensValue (c : UInt8) : Bool :=
  c == 123 || c == 91 || c == 34 || c == 45 || isdigit c || c == 110 || c == 116 || c == 102

theorem opensValue_spec (c : UInt8) : opensValue c = true →
    isCtrlAndSpace c = false ∧ c ≠ 93 ∧ c ≠ 125 ∧ c ≠ 44 ∧ c ≠ 58 := by
  revert c
  exact forall_byte (by decide +kernel)

theorem skip_append {ws : Bytes} (h : ∀ c ∈ ws, isCtrlAndSpace c = true) (t : Bytes) :
    skipCtrlAndSpace (ws ++ t) = skipCtrlAndSpace t :=
  List.dropWhile_append_of_pos h

theorem skip_cons {c : UInt8} (h : isCtrlAndSpace c = false) (t : Bytes) : skipCtrlAndSpace (c :: t) = c :: t :=
  List.dropWhile_cons_of_neg (by simp [h])

/-- No bracket that closes stands first in white space with a value behind it. -/
theorem head_ne_close {ws text : Bytes} (hw : ∀ c ∈ ws, isCtrlAndSpace c = true)
    (ht : ∃ c u, text = c :: u ∧ opensValue c = true) {close : UInt8} (hc : close = 93 ∨ close = 125) :
    (ws ++ text).head? ≠ some close := by
  cases ws with
  | nil =>
    obtain ⟨c, u, rfl, hopen⟩ := ht
    obtain ⟨-, h93, h125, -⟩ := opensValue_spec c hopen
    intro h
    cases h
    rcases hc with hc | hc
    · exact h93 hc
    · exact h125 hc
  | cons c ws =>
    have hblank := hw c List.mem_cons_self
    intro h
    cases h
    rcases hc with hc | hc <;> rw [hc] at hblank <;> exact absurd hblank (by decide)

theorem charAt_cons {c : UInt8} {rest : Bytes} : charAt (c :: rest) 0 = .ok c := rfl

section

variable {S} {fuel : Nat} {ws text t : Bytes} {node : JsonNode D}

/-- One round of `parse_value`, by the byte in front. -/
theorem parseValue_cons (c : UInt8) (t : Bytes) :
    parseValue S (fuel + 1) (c :: t) =
      if c = 123 then if t.head? = some 125 then .ok (some (.object [], t.drop 1)) else objectLoop S fuel t []
      else if c = 91 then if t.head? = some 93 then .ok (some (.array [], t.drop 1)) else arrayLoop S fuel t []
      else if c = 34 then (parseString (c :: t)).map (·.map fun r => (.string r.1, r.2))
      else if c = 45 ∨ isdigit c then parseNumber S (c :: t)
      else if (c :: t).take 4 = lit "null" then .ok (some (.null, (c :: t).drop 4))
      else if (c :: t).take 4 = lit "true" then .ok (some (.boolean true, (c :: t).drop 4))
      else if (c :: t).take 5 = lit "false" then .ok (some (.boolean false, (c :: t).drop 5))
      else .ok none := by
  rw [parseValue]
  rcases parseString (c :: t) with _ | _ | r <;> rfl

theorem parseValue_array (h : t.head? ≠ some 93) : parseValue S (fuel + 1) (91 :: t) = arrayLoop S fuel t [] := by
  simp [parseValue_cons, h]

theorem parseValue_object (h : t.head? ≠ some 125) : parseValue S (fuel + 1) (123 :: t) = objectLoop S fuel t [] := by
  simp [parseValue_cons, h]

theorem parseValue_string :
    parseValue S (fuel + 1) (34 :: t) = (parseString (34 :: t)).map (·.map fun r => (.string r.1, r.2)) := by
  simp [parseValue_cons]

theorem opens_number (c : UInt8) : isdigit c = true ∨ c = 45 →
    opensValue c = true ∧ isNumberComponent c = true ∧ c ≠ 123 ∧ c ≠ 91 ∧ c ≠ 34 := by
  revert c
  exact forall_byte (by decide +kernel)

theorem parseValue_number {c : UInt8} (h : isdigit c = true ∨ c = 45) :
    parseValue S (fuel + 1) (c :: t) = parseNumber S (c :: t) := by
  obtain ⟨-, -, h1, h2, h3⟩ := opens_number c h
  simp [parseValue_cons, h1, h2, h3, h.symm]

theorem parseValue_null : parseValue S (fuel + 1) (lit "null" ++ t) = .ok (some (.null, t)) := by
  have hdigit : isdigit 110 = false := by decide
  simp [parseValue_cons, lit, hdigit]

theorem parseValue_true : parseValue S (fuel + 1) (lit "true" ++ t) = .ok (some (.boolean true, t)) := by
  have hdigit : isdigit 116 = false := by decide
  simp [parseValue_cons, lit, hdigit]

theorem parseValue_false : parseValue S (fuel + 1) (lit "false" ++ t) = .ok (some (.boolean false, t)) := by
  have hdigit : isdigit 102 = false := by decide
  simp [parseValue_cons, lit, hdigit]

/-- An element that is read, behind white space. -/
theorem readElement_of_value (hw : ∀ c ∈ ws, isCtrlAndSpace c = true) (ht : ∃ c u, text = c :: u ∧ opensValue c = true)
    (hv : parseValue S fuel text = .ok (some (node, t))) :
    readElement S fuel (ws ++ text) = .ok (some (node, skipCtrlAndSpace t)) := by
  obtain ⟨c, u, rfl, hc⟩ := ht
  unfold readElement
  rw [skip_append hw, skip_cons (opensValue_spec c hc).1]
  simp [hv, bind, Except.bind]

theorem readMember_of_value {k u w : Bytes} (hw : ∀ c ∈ ws, isCtrlAndSpace c = true)
    (hk : parseString (34 :: u) = .ok (some (k, w))) (hcolon : skipCtrlAndSpace w = 58 :: text)
    (hv : readElement S fuel text = .ok (some (node, t))) :
    readMember S fuel (ws ++ 34 :: u) = .ok (some ((k, node), t)) := by
  unfold readMember
  rw [skip_append hw, skip_cons (by decide)]
  simp [hk, hcolon, charAt_cons, hv, bind, Except.bind]

variable {α : Type} {close : UInt8} {loop : Bytes → α → Except Fault (Option (JsonNode D × Bytes))}
  {nodeOf : α → JsonNode D}

theorem behindItem_more (acc : α) (ht : t.head? ≠ some close) :
    behindItem close loop nodeOf acc (44 :: t) = loop t acc := by
  simp [behindItem, checkFunc, ht]

theorem behindItem_close (acc : α) (hclose : close ≠ 44) :
    behindItem close loop nodeOf acc (close :: t) = .ok (some (nodeOf acc, t)) := by
  have hcheck : checkFunc close (close :: t) = (false, close :: t) := by
    unfold checkFunc
    split
    · rename_i heq
      exact absurd (List.cons.inj heq).1 hclose
    · rfl
  simp [behindItem, hcheck, closeWith, charAt_cons, bind, Except.bind]

end

theorem arrayLoop_succ (fuel : Nat) (str : Bytes) (arr : List (JsonNode D)) :
    arrayLoop S (fuel + 1) str arr = (do
      match ← readElement S fuel str with
      | none => .ok none
      | some (jv, str) => behindItem 93 (arrayLoop S fuel) .array (arr ++ [jv]) str) := by
  unfold arrayLoop readElement
  dsimp only
  split
  · rfl
  · rcases parseValue S fuel (skipCtrlAndSpace str) with _ | _ | ⟨jv, r⟩ <;> rfl

theorem objectLoop_succ (fuel : Nat) (str : Bytes) (obj : List (Bytes × JsonNode D)) :
    objectLoop S (fuel + 1) str obj = (do
      match ← readMember S fuel str with
      | none => .ok none
      | some ((k, v), str) => behindItem 125 (objectLoop S fuel) .object (insertMember k v obj) str) := by
  unfold objectLoop readMember
  dsimp only
  split
  · rfl
  · rcases parseString (skipCtrlAndSpace str) with _ | _ | ⟨k, r⟩
    · rfl
    · rfl
    · simp only [bind, Except.bind]
      rcases charAt (skipCtrlAndSpace r) 0 with _ | c
      · rfl
      · dsimp only
        split
        · rfl
        · unfold readElement
          dsimp only
          split
          · rfl
          · rcases parseValue S fuel (skipCtrlAndSpace ((skipCtrlAndSpace r).drop 1)) with _ | _ | ⟨v, r'⟩ <;> rfl

/-! ## The fuel is enough -/

theorem utf16_shorter {str out after : Bytes} (h : utf16LiteralToUtf8 str = .ok (some (out, after))) :
    after.length + 2 ≤ str.length := by
  unfold utf16LiteralToUtf8 at h
  dsimp only at h
  repeat' split at h
  all_goals first
    | cases h
      simp only [List.length_drop] at *
      omega
    | cases h

theorem utf16_not_hang (str : Bytes) : utf16LiteralToUtf8 str ≠ .error .hang := by
  unfold utf16LiteralToUtf8
  dsimp only
  repeat' split
  all_goals simp

theorem stringLoop_spec : ∀ (fuel : Nat) (str output : Bytes), str.length < fuel →
    stringLoop fuel str output ≠ .error .hang ∧
      ∀ out rest, stringLoop fuel str output = .ok (some (out, rest)) → rest.length < str.length := by
  intro fuel
  induction fuel with
  | zero => intro str output h; omega
  | succ fuel ih =>
    intro str output h
    cases str with
    | nil => simp [stringLoop]
    | cons c rest =>
      simp only [List.length_cons] at h
      unfold stringLoop
      dsimp only
      split
      · refine ⟨by simp, fun out r hr => ?_⟩
        cases hr
        simp
      · split
        · cases rest with
          | nil => simp
          | cons e rest' =>
            simp only [List.length_cons] at h
            dsimp only
            split
            · obtain ⟨h1, h2⟩ := ih rest' (output ++ [‹UInt8›]) (by omega)
              exact ⟨h1, fun out r hr => by have := h2 out r hr; simp only [List.length_cons]; omega⟩
            · split
              · have hd : (rest'.dropWhile isxdigit).length ≤ rest'.length := (List.dropWhile_suffix _).length_le
                split
                · simp
                · split
                  · simp
                  · obtain ⟨h1, h2⟩ := ih (rest'.dropWhile isxdigit)
                      (output ++ decimal (toBase16 (rest'.takeWhile isxdigit))) (by omega)
                    exact ⟨h1, fun out r hr => by have := h2 out r hr; simp only [List.length_cons]; omega⟩
              · split
                · cases hu : utf16LiteralToUtf8 (c :: e :: rest') with
                  | error f =>
                    have := utf16_not_hang (c :: e :: rest')
                    rw [hu] at this
                    simpa [bind, Except.bind] using this
                  | ok o =>
                    match o with
                    | none => simp [bind, Except.bind]
                    | some (temp, after) =>
                      have hs := utf16_shorter hu
                      simp only [List.length_cons] at hs
                      obtain ⟨h1, h2⟩ := ih after (output ++ temp) (by omega)
                      exact ⟨h1, fun out r hr => by have := h2 out r hr; simp only [List.length_cons]; omega⟩
                · simp
        · obtain ⟨h1, h2⟩ := ih rest (output ++ [c]) (by omega)
          exact ⟨h1, fun out r hr => by have := h2 out r hr; simp only [List.length_cons]; omega⟩

theorem parseString_spec (str : Bytes) : parseString str ≠ .error .hang ∧
    ∀ out rest, parseString str = .ok (some (out, rest)) → rest.length < str.length := by
  unfold parseString
  cases str with
  | nil => simp [charAt, bind, Except.bind]
  | cons c s =>
    obtain ⟨h1, h2⟩ := stringLoop_spec ((c :: s).length + 1) s [] (by simp only [List.length_cons]; omega)
    simp only [charAt, List.getElem?_cons_zero, bind, Except.bind, List.drop_succ_cons, List.drop_zero]
    split
    · simp
    · exact ⟨h1, fun out r hr => by have := h2 out r hr; simp only [List.length_cons]; omega⟩

theorem parseNumber_spec (str : Bytes) : parseNumber S str ≠ .error .hang ∧
    ∀ v rest, parseNumber S str = .ok (some (v, rest)) → rest.length < str.length := by
  unfold parseNumber
  cases str with
  | nil => simp [charAt, bind, Except.bind]
  | cons c s =>
    simp only [charAt, List.getElem?_cons_zero, bind, Except.bind]
    split
    · simp
    · rename_i hc
      have hcomp : isNumberComponent c = true := by
        simp only [isNumberComponent, Bool.and_eq_true, Bool.not_eq_true', bne_iff_ne, not_and, not_not] at hc ⊢
        cases hd : isdigit c with
        | true => rfl
        | false => simp [hc hd]
      have hd : ((c :: s).dropWhile isNumberComponent).length ≤ s.length := by
        rw [List.dropWhile_cons_of_pos hcomp]
        exact (List.dropWhile_suffix _).length_le
      split
      · simp
      · split <;> refine ⟨by simp, fun v r hr => ?_⟩ <;> cases hr <;> simp only [List.length_cons] <;> omega

theorem closeWith_spec (close : UInt8) (node : JsonNode D) (str : Bytes) : closeWith close node str ≠ .error .hang ∧
    ∀ v rest, closeWith close node str = .ok (some (v, rest)) → rest.length < str.length := by
  unfold closeWith
  cases str with
  | nil => simp [charAt, bind, Except.bind]
  | cons c s =>
    simp only [charAt, List.getElem?_cons_zero, bind, Except.bind]
    split
    · simp
    · refine ⟨by simp, fun v r hr => ?_⟩
      cases hr
      simp

theorem skip_le (str : Bytes) : (skipCtrlAndSpace str).length ≤ str.length := (List.dropWhile_suffix _).length_le

/-- The loop goes on only behind a comma. -/
theorem checkFunc_spec (close : UInt8) (str : Bytes) : (checkFunc close str).2.length ≤ str.length ∧
    ((checkFunc close str).1 = true → (checkFunc close str).2.length < str.length) := by
  unfold checkFunc
  split <;> simp

/-- Within `fuel`, `f` returns on a text of length `n`, and what it leaves is shorter. -/
def Consumes (fuel need n : Nat) (r : Except Fault (Option (JsonNode D × Bytes))) : Prop :=
  (2 * n + need ≤ fuel → r ≠ .error .hang) ∧ ∀ v rest, r = .ok (some (v, rest)) → rest.length < n

theorem Consumes.mono {fuel fuel' need need' n n' : Nat} {r : Except Fault (Option (JsonNode D × Bytes))}
    (h : Consumes fuel need n r) (hf : 2 * n' + need' ≤ fuel' → 2 * n + need ≤ fuel) (hn : n ≤ n') :
    Consumes fuel' need' n' r :=
  ⟨fun hle => h.1 (hf hle), fun v rest hr => Nat.lt_of_lt_of_le (h.2 v rest hr) hn⟩

theorem Consumes.none (fuel need n : Nat) : Consumes (D := D) fuel need n (.ok none) := ⟨by simp, by simp⟩

theorem Consumes.some {fuel need n : Nat} {v : JsonNode D} {rest : Bytes} (h : rest.length < n) :
    Consumes fuel need n (.ok (some (v, rest))) :=
  ⟨by simp, fun v' rest' hr => by cases hr; exact h⟩

section

variable {S} {fuel : Nat}
  (hv : ∀ str, Consumes fuel 1 str.length (parseValue S fuel str))
  (ha : ∀ str arr, Consumes fuel 2 str.length (arrayLoop S fuel str arr))
  (ho : ∀ str obj, Consumes fuel 2 str.length (objectLoop S fuel str obj))

include ha ho in
theorem parseValue_step (str : Bytes) : Consumes (fuel + 1) 1 str.length (parseValue S (fuel + 1) str) := by
  cases str with
  | nil => exact .none _ _ _
  | cons c rest =>
    have hdrop : ∀ k, ((c :: rest).drop (k + 1)).length < (c :: rest).length := by
      intro k
      simp only [List.length_drop, List.length_cons]
      omega
    unfold parseValue
    dsimp only
    repeat' split
    · exact .some (by simp)
    · exact (ho rest []).mono (by simp only [List.length_cons]; omega) (by simp)
    · exact .some (by simp)
    · exact (ha rest []).mono (by simp only [List.length_cons]; omega) (by simp)
    · obtain ⟨h1, h2⟩ := parseString_spec (c :: rest)
      cases hp : parseString (c :: rest) with
      | error f =>
        rw [hp] at h1
        exact ⟨fun _ => by simpa [bind, Except.bind] using h1, by simp [bind, Except.bind]⟩
      | ok o =>
        match o with
        | none => exact .none _ _ _
        | some (out, r) => exact .some (h2 out r hp)
    · obtain ⟨h1, h2⟩ := parseNumber_spec S (c :: rest)
      exact ⟨fun _ => h1, h2⟩
    · exact .some (hdrop 3)
    · exact .some (hdrop 3)
    · exact .some (hdrop 4)
    · exact .none _ _ _

include hv in
theorem readElement_step (str : Bytes) : Consumes (fuel + 1) 2 str.length (readElement S fuel str) := by
  have hskip := skip_le str
  unfold readElement
  dsimp only
  split
  · exact .none _ _ _
  · obtain ⟨h1, h2⟩ := hv (skipCtrlAndSpace str)
    rcases hp : parseValue S fuel (skipCtrlAndSpace str) with f | _ | ⟨jv, r⟩
    · rw [hp] at h1
      exact ⟨fun hle => by simpa [bind, Except.bind] using h1 (by omega), by simp [bind, Except.bind]⟩
    · exact .none _ _ _
    · have hr := h2 jv r hp
      have hskip' := skip_le r
      apply Consumes.some
      omega

include hv in
theorem readMember_step (str : Bytes) : (2 * str.length + 2 ≤ fuel + 1 → readMember S fuel str ≠ .error .hang) ∧
    ∀ m rest, readMember S fuel str = .ok (some (m, rest)) → rest.length < str.length := by
  have hskip := skip_le str
  unfold readMember
  dsimp only
  split
  · exact ⟨by simp, by simp⟩
  · obtain ⟨h1, h2⟩ := parseString_spec (skipCtrlAndSpace str)
    rcases hp : parseString (skipCtrlAndSpace str) with f | _ | ⟨k, r⟩
    · rw [hp] at h1
      exact ⟨fun _ => by simpa [bind, Except.bind] using h1, by simp [bind, Except.bind]⟩
    · exact ⟨by simp [bind, Except.bind], by simp [bind, Except.bind]⟩
    · have hr := h2 k r hp
      have hskip' := skip_le r
      cases hc : skipCtrlAndSpace r with
      | nil => exact ⟨by simp [bind, Except.bind, hc, charAt], by simp [bind, Except.bind, hc, charAt]⟩
      | cons c r' =>
        rw [hc, List.length_cons] at hskip'
        simp only [bind, Except.bind, hc, charAt_cons, List.drop_succ_cons, List.drop_zero]
        split
        · exact ⟨by simp, by simp⟩
        · obtain ⟨h3, h4⟩ := readElement_step hv r'
          rcases he : readElement S fuel r' with f | _ | ⟨v, r''⟩
          · rw [he] at h3
            exact ⟨fun hle => by simpa using h3 (by omega), by simp⟩
          · exact ⟨by simp, by simp⟩
          · have hr'' := h4 v r'' he
            refine ⟨by simp, fun m rest h => ?_⟩
            cases h
            omega

/-- Behind an item that left `str` the loop goes on with less, or ends. -/
theorem behindItem_step {α : Type} {close : UInt8} {n : Nat} {str : Bytes} {node : α → JsonNode D}
    {loop : Bytes → α → Except Fault (Option (JsonNode D × Bytes))} (hstr : str.length < n)
    (hl : ∀ str acc, Consumes fuel 2 str.length (loop str acc)) (acc : α) :
    Consumes (fuel + 1) 2 n (behindItem close loop node acc str) := by
  obtain ⟨h1, h2⟩ := checkFunc_spec close str
  unfold behindItem
  dsimp only
  split
  · rename_i hgo
    have := h2 hgo
    exact (hl _ acc).mono (by omega) (by omega)
  · obtain ⟨h3, h4⟩ := closeWith_spec close (node acc) (checkFunc close str).2
    exact ⟨fun _ => h3, fun v r hr => by have := h4 v r hr; omega⟩

include hv ha in
theorem arrayLoop_step (str : Bytes) (arr : List (JsonNode D)) :
    Consumes (fuel + 1) 2 str.length (arrayLoop S (fuel + 1) str arr) := by
  obtain ⟨h1, h2⟩ := readElement_step hv str
  rw [arrayLoop_succ]
  rcases he : readElement S fuel str with f | _ | ⟨jv, r⟩
  · rw [he] at h1
    exact ⟨h1, by simp [bind, Except.bind]⟩
  · exact .none _ _ _
  · exact behindItem_step (h2 jv r he) ha (arr ++ [jv])

include hv ho in
theorem objectLoop_step (str : Bytes) (obj : List (Bytes × JsonNode D)) :
    Consumes (fuel + 1) 2 str.length (objectLoop S (fuel + 1) str obj) := by
  obtain ⟨h1, h2⟩ := readMember_step hv str
  rw [objectLoop_succ]
  rcases hm : readMember S fuel str with f | _ | ⟨⟨k, v⟩, r⟩
  · rw [hm] at h1
    exact ⟨fun hle => by simpa [bind, Except.bind] using h1 hle, by simp [bind, Except.bind]⟩
  · exact .none _ _ _
  · exact behindItem_step (h2 (k, v) r hm) ho (insertMember k v obj)

end

/-- Each function returns within its fuel, and a value takes at least a byte. -/
theorem parse_consumes (fuel : Nat) :
    (∀ str, Consumes fuel 1 str.length (parseValue S fuel str)) ∧
    (∀ str arr, Consumes fuel 2 str.length (arrayLoop S fuel str arr)) ∧
    (∀ str obj, Consumes fuel 2 str.length (objectLoop S fuel str obj)) := by
  induction fuel with
  | zero =>
    refine ⟨fun str => ?_, fun str arr => ?_, fun str obj => ?_⟩ <;>
      exact ⟨fun h => absurd h (by omega), by simp [parseValue, arrayLoop, objectLoop]⟩
  | succ fuel ih =>
    obtain ⟨hv, ha, ho⟩ := ih
    exact ⟨parseValue_step ha ho, arrayLoop_step hv ha, objectLoop_step hv ho⟩

theorem fromString_not_hang (str : Bytes) : fromString S str ≠ .error .hang := by
  have hbom : (skipUtf8Bom str).length ≤ str.length := by
    unfold skipUtf8Bom
    split
    · simp only [List.length_drop]
      omega
    · exact Nat.le_refl _
  have hskip := skip_le (skipUtf8Bom str)
  have h := ((parse_consumes S (2 * str.length + 2)).1 (skipCtrlAndSpace (skipUtf8Bom str))).1 (by omega)
  unfold fromString
  cases hp : parseValue S (2 * str.length + 2) (skipCtrlAndSpace (skipUtf8Bom str)) with
  | error f =>
    rw [hp] at h
    simpa [bind, Except.bind] using h
  | ok o => simp [bind, Except.bind]

end HahaWeb.Json
