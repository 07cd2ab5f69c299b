/-
  HahaWeb.Json.Characters — the dialect of JSON the parser reads, and its strings.

  White space is every byte up to 32 and, `char` being signed, from 128 on; a number is a
  run of bytes that `stod` takes; a string may have any byte, and after `\u` any four. Two
  characters end with the text although the parser looks at the byte behind them: `\x`
  with its digits, and `\u`. Proved: `parse_string` returns exactly for a string of the
  dialect, and faults exactly where such a character ends the text (`parseString_str`,
  `parseString_strCut`, `parseString_agrees`).
-/

import HahaWeb.Json.Grammar

namespace HahaWeb.Json

/-! ## The dialect of the parser -/

/-- `parse_hex4` makes zero of four bytes that are not all hexadecimal digits. -/
inductive ParserChar : Bytes → Bytes → Prop
  | plain {c : UInt8} (rest : Bytes) : c ≠ 34 → c ≠ 92 → ParserChar (c :: rest) rest
  | escape {e : UInt8} (rest : Bytes) : (escape e).isSome = true → ParserChar (92 :: e :: rest) rest
  | hex {ds : Bytes} {c : UInt8} (rest : Bytes) : ds ≠ [] → (∀ c ∈ ds, isxdigit c = true) → isxdigit c = false →
      ParserChar (92 :: 120 :: (ds ++ c :: rest)) (c :: rest)
  | unicode {ds : Bytes} (rest : Bytes) : ds.length = 4 → ¬ (0xD800 ≤ parseHex4 ds ∧ parseHex4 ds ≤ 0xDFFF) →
      ParserChar (92 :: 117 :: (ds ++ rest)) rest
  | surrogates {hi lo : Bytes} (rest : Bytes) : hi.length = 4 → 0xD800 ≤ parseHex4 hi → parseHex4 hi ≤ 0xDBFF →
      lo.length = 4 → 0xDC00 ≤ parseHex4 lo → parseHex4 lo ≤ 0xDFFF →
      ParserChar (92 :: 117 :: (hi ++ 92 :: 117 :: (lo ++ rest))) rest

variable {D : Type} (S : Stod D)

/-- A number is the whole run of bytes a number has, when `stod` takes it. -/
def parserDialect : Dialect where
  blank c := isCtrlAndSpace c = true
  gap _ := False
  char := ParserChar
  number t rest := ∃ run, t = run ++ rest ∧ (∃ c u, run = c :: u ∧ (isdigit c = true ∨ c = 45)) ∧
    (∀ c ∈ run, isNumberComponent c = true) ∧ Stops rest ∧ (S.stod run).isSome = true

/-- A character that ends with the text, where the next byte is read all the same. -/
def CharCut (t : Bytes) : Prop := t = [92, 117] ∨ ∃ ds, t = 92 :: 120 :: ds ∧ ∀ c ∈ ds, isxdigit c = true

def StrCut (t : Bytes) : Prop := ∃ u v, t = 34 :: u ∧ Relation.ReflTransGen ParserChar u v ∧ CharCut v

/-! ## Strings -/

theorem ParserChar.shorter {t rest : Bytes} (h : ParserChar t rest) : rest.length < t.length := by
  cases h <;> simp only [List.length_cons, List.length_append] <;> omega

theorem takeWhile_hex {ds : Bytes} (h : ∀ c ∈ ds, isxdigit c = true) {c : UInt8} (hc : isxdigit c = false) (t : Bytes) :
    (ds ++ c :: t).takeWhile isxdigit = ds ∧ (ds ++ c :: t).dropWhile isxdigit = c :: t := by
  refine takeWhile_run h fun d hd => ?_
  cases hd
  exact hc

theorem utf16_unicode {ds : Bytes} (hd : ds.length = 4) (hs : ¬ (0xD800 ≤ parseHex4 ds ∧ parseHex4 ds ≤ 0xDFFF))
    (rest : Bytes) :
    utf16LiteralToUtf8 (92 :: 117 :: (ds ++ rest)) = .ok (some (encodeUtf8 (parseHex4 ds), rest)) := by
  have htake : (ds ++ rest).take 4 = ds := by rw [← hd, List.take_left]
  have hdrop : (ds ++ rest).drop 4 = rest := by rw [← hd, List.drop_left]
  have hlow : ¬ (0xDC00 ≤ parseHex4 ds ∧ parseHex4 ds ≤ 0xDFFF) := by omega
  have hhigh : ¬ (0xD800 ≤ parseHex4 ds ∧ parseHex4 ds ≤ 0xDBFF) := by omega
  simp [utf16LiteralToUtf8, htake, hdrop, hd, hlow, hhigh]

theorem utf16_surrogates {hi lo : Bytes} (hh : hi.length = 4) (h1 : 0xD800 ≤ parseHex4 hi) (h2 : parseHex4 hi ≤ 0xDBFF)
    (hl : lo.length = 4) (h3 : 0xDC00 ≤ parseHex4 lo) (h4 : parseHex4 lo ≤ 0xDFFF) (rest : Bytes) :
    utf16LiteralToUtf8 (92 :: 117 :: (hi ++ 92 :: 117 :: (lo ++ rest))) = .ok (some
      (encodeUtf8 (0x10000 + ((parseHex4 hi &&& 0x3FF) <<< 10 ||| (parseHex4 lo &&& 0x3FF))), rest)) := by
  have htake : (hi ++ 92 :: 117 :: (lo ++ rest)).take 4 = hi := by rw [← hh, List.take_left]
  have hdrop : (hi ++ 92 :: 117 :: (lo ++ rest)).drop 4 = 92 :: 117 :: (lo ++ rest) := by rw [← hh, List.drop_left]
  have htake' : (lo ++ rest).take 4 = lo := by rw [← hl, List.take_left]
  have hdrop' : (lo ++ rest).drop 4 = rest := by rw [← hl, List.drop_left]
  have hlow : ¬ (0xDC00 ≤ parseHex4 hi ∧ parseHex4 hi ≤ 0xDFFF) := by omega
  have hsecond : ¬ (parseHex4 lo < 0xDC00 ∨ 0xDFFF < parseHex4 lo) := by omega
  have hescape : (92 :: 117 :: (lo ++ rest) : Bytes).take 2 = lit "\\u" := by
    show [92, 117] = _
    decide
  simp only [utf16LiteralToUtf8, List.length_cons, List.length_append, List.drop_succ_cons, List.drop_zero, htake,
    hdrop, htake', hdrop', hh]
  rw [if_neg (by omega), if_neg (by omega), if_neg hlow, if_pos ⟨h1, h2⟩,
    if_neg (not_or.mpr ⟨by omega, not_not.mpr hescape⟩), if_neg hsecond]

/-- A character is read, and the loop goes on behind it. -/
theorem stringLoop_char {t rest : Bytes} (h : ParserChar t rest) :
    ∃ out, ∀ fuel output, stringLoop (fuel + 1) t output = stringLoop fuel rest (output ++ out) := by
  cases h with
  | @plain c _ h34 h92 => exact ⟨[c], fun fuel output => by simp [stringLoop, h34, h92]⟩
  | @escape e _ he =>
    obtain ⟨b, hb⟩ := Option.isSome_iff_exists.mp he
    exact ⟨[b], fun fuel output => by simp [stringLoop, hb]⟩
  | @hex ds c r hne hds hc =>
    obtain ⟨htake, hdrop⟩ := takeWhile_hex hds hc r
    have hx : escape 120 = none := by decide
    exact ⟨decimal (toBase16 ds), fun fuel output => by simp [stringLoop, hx, htake, hdrop, hne]⟩
  | @unicode ds _ hd hs =>
    have hu : escape 117 = none := by decide
    exact ⟨_, fun fuel output => by simp [stringLoop, hu, utf16_unicode hd hs, bind, Except.bind]; rfl⟩
  | @surrogates hi lo _ hh h1 h2 hl h3 h4 =>
    have hu : escape 117 = none := by decide
    exact ⟨_, fun fuel output => by
      simp [stringLoop, hu, utf16_surrogates hh h1 h2 hl h3 h4 rest, bind, Except.bind]
      rfl⟩

theorem stringLoop_cut {t : Bytes} (h : CharCut t) (fuel : Nat) (output : Bytes) :
    ∃ f, f ≠ .hang ∧ stringLoop (fuel + 1) t output = .error f := by
  rcases h with rfl | ⟨ds, rfl, hds⟩
  · refine ⟨.assertion, by decide, ?_⟩
    have hu : escape 117 = none := by decide
    simp [stringLoop, hu, utf16LiteralToUtf8, bind, Except.bind]
  · refine ⟨.outOfRange, by decide, ?_⟩
    have hx : escape 120 = none := by decide
    have hafter : ds.dropWhile isxdigit = [] := List.dropWhile_eq_nil_iff.mpr hds
    simp [stringLoop, hx, hafter]

/-- What a parse function returns is what may be read, and it faults, but for want of fuel,
    only where the text is cut. -/
structure Agrees {α : Type} (reads : Bytes → Prop) (cut : Prop) (r : Except Fault (Option (α × Bytes))) : Prop where
  left : ∀ v rest, r = .ok (some (v, rest)) → reads rest
  fault : ∀ f, r = .error f → f = .hang ∨ cut

section

variable {α : Type} {reads reads' : Bytes → Prop} {cut cut' : Prop} {r : Except Fault (Option (α × Bytes))}

theorem Agrees.null : Agrees (α := α) reads cut (.ok none) := ⟨by simp, by simp⟩

theorem Agrees.hang : Agrees (α := α) reads cut (.error .hang) := ⟨by simp, by simp⟩

theorem Agrees.value {v : α} {rest : Bytes} (h : reads rest) : Agrees reads cut (.ok (some (v, rest))) :=
  ⟨fun v' rest' hr => by cases hr; exact h, by simp⟩

theorem Agrees.ended {f : Fault} (h : cut) : Agrees (α := α) reads cut (.error f) := ⟨by simp, fun _ _ => .inr h⟩

theorem Agrees.mono (h : Agrees reads cut r) (hr : ∀ rest, reads rest → reads' rest) (hc : cut → cut') :
    Agrees reads' cut' r :=
  ⟨fun v rest he => hr rest (h.left v rest he), fun f he => (h.fault f he).imp_right hc⟩

end

/-- A parse function that goes on with what another left. -/
theorem Agrees.bind {α β : Type} {reads reads' : Bytes → Prop} {cut cut' : Prop}
    {r : Except Fault (Option (α × Bytes))} (h : Agrees reads cut r) (hc : cut → cut')
    {k : Option (α × Bytes) → Except Fault (Option (β × Bytes))} (hn : k none = .ok none)
    (hs : ∀ v rest, reads rest → Agrees reads' cut' (k (some (v, rest)))) : Agrees reads' cut' (r >>= k) := by
  rcases r with f | _ | ⟨v, rest⟩
  · refine ⟨fun v rest hr => ?_, fun f' hf => ?_⟩
    · cases hr
    · cases hf
      exact (h.fault f rfl).imp_right hc
  · show Agrees reads' cut' (k none)
    rw [hn]
    exact .null
  · exact hs v rest (h.left v rest rfl)

/-- `utf16_literal_to_utf8` reads a character. -/
theorem utf16_agrees (r : Bytes) :
    Agrees (ParserChar (92 :: 117 :: r)) (CharCut (92 :: 117 :: r)) (utf16LiteralToUtf8 (92 :: 117 :: r)) := by
  unfold utf16LiteralToUtf8
  simp only [List.length_cons, List.drop_succ_cons, List.drop_zero]
  split
  · have hr : r = [] := List.eq_nil_of_length_eq_zero (by omega)
    exact .ended (.inl (by rw [hr]))
  split
  · exact .null
  split
  · exact .null
  rename_i hlen hlow
  have hsplit : r = r.take 4 ++ r.drop 4 := (List.take_append_drop 4 r).symm
  have htake : (r.take 4).length = 4 := by
    rw [List.length_take]
    omega
  split
  · rename_i hhigh
    split
    · exact .null
    split
    · exact .null
    -- behind the first half stands another escape
    rename_i hsecond hrange
    obtain ⟨hlen', hu⟩ := not_or.mp hsecond
    have hu' : (r.drop 4).take 2 = [92, 117] := not_not.mp hu
    have hsplit' : r.drop 4 = 92 :: 117 :: (((r.drop 4).drop 2).take 4 ++ ((r.drop 4).drop 2).drop 4) := by
      rw [List.take_append_drop, ← List.take_append_drop 2 (r.drop 4), hu']
      rfl
    have hlo : (((r.drop 4).drop 2).take 4).length = 4 := by
      rw [List.length_take, List.length_drop]
      omega
    refine .value ?_
    have hchar := ParserChar.surrogates (((r.drop 4).drop 2).drop 4) htake hhigh.1 hhigh.2 hlo (by omega) (by omega)
    rwa [← hsplit', ← hsplit] at hchar
  · refine .value ?_
    have hchar := ParserChar.unicode (r.drop 4) htake (by omega)
    rwa [← hsplit] at hchar

/-- The digits of a `\x` that nothing ends. -/
theorem hex_ends {r : Bytes} (h : r.dropWhile isxdigit = []) : CharCut (92 :: 120 :: r) :=
  .inr ⟨r, rfl, List.dropWhile_eq_nil_iff.mp h⟩

theorem hex_char {r u : Bytes} {d : UInt8} (h : r.dropWhile isxdigit = d :: u) (hne : r.takeWhile isxdigit ≠ []) :
    ParserChar (92 :: 120 :: r) (d :: u) := by
  have hd : isxdigit d = false := by
    have hhead := List.head?_dropWhile_not isxdigit r
    rw [h] at hhead
    simpa using hhead
  have hchar := ParserChar.hex u hne (fun c hc => List.mem_takeWhile_imp hc) hd
  rwa [← h, List.takeWhile_append_dropWhile, h] at hchar

theorem stringLoop_agrees : ∀ (fuel : Nat) (t output : Bytes),
    Agrees (fun rest => Relation.ReflTransGen ParserChar t (34 :: rest))
      (∃ v, Relation.ReflTransGen ParserChar t v ∧ CharCut v) (stringLoop fuel t output) := by
  intro fuel
  induction fuel with
  | zero => exact fun _ _ => .hang
  | succ fuel ih =>
    intro t output
    have step : ∀ {rest : Bytes}, ParserChar t rest → ∀ output, Agrees
        (fun rest => Relation.ReflTransGen ParserChar t (34 :: rest))
        (∃ v, Relation.ReflTransGen ParserChar t v ∧ CharCut v) (stringLoop fuel rest output) := by
      intro rest hchar output
      refine (ih rest output).mono (fun rest h => .head hchar h) fun h => ?_
      obtain ⟨v, hv, hcut⟩ := h
      exact ⟨v, .head hchar hv, hcut⟩
    cases t with
    | nil => exact .null
    | cons c rest =>
      unfold stringLoop
      dsimp only
      split
      · rename_i hc
        exact .value (by rw [hc])
      · rename_i h34
        split
        · rename_i h92
          subst h92
          cases rest with
          | nil => exact .null
          | cons e r =>
            dsimp only
            cases he : escape e with
            | some b => exact step (.escape r (by rw [he]; rfl)) _
            | none =>
              dsimp only
              split
              · rename_i hx
                subst hx
                cases hafter : r.dropWhile isxdigit with
                | nil => exact .ended ⟨_, .refl, hex_ends hafter⟩
                | cons d u =>
                  rw [if_neg (by simp)]
                  split
                  · exact .null
                  · rename_i hne
                    exact step (hex_char hafter (by simpa using hne)) _
              · split
                · rename_i hu
                  subst hu
                  exact (utf16_agrees r).bind (fun hcut => ⟨_, .refl, hcut⟩) rfl fun temp after hchar => step hchar _
                · exact .null
        · rename_i h92
          exact step (.plain rest h34 h92) _

theorem chars_shorter {u v : Bytes} (h : Relation.ReflTransGen ParserChar u v) : v.length ≤ u.length := by
  induction h with
  | refl => exact Nat.le_refl _
  | tail _ hchar ih =>
    have := hchar.shorter
    omega

/-- The loop goes through characters. -/
theorem stringLoop_chars {u v : Bytes} (h : Relation.ReflTransGen ParserChar u v) :
    ∀ (fuel : Nat) (output : Bytes), u.length < fuel →
      ∃ fuel' output', v.length < fuel' ∧ stringLoop fuel u output = stringLoop fuel' v output' := by
  induction h using Relation.ReflTransGen.head_induction_on with
  | refl => exact fun fuel output hf => ⟨fuel, output, hf, rfl⟩
  | head hchar _ ih =>
    intro fuel output hf
    obtain ⟨fuel, rfl⟩ := Nat.exists_eq_add_of_lt (show 0 < fuel by omega)
    obtain ⟨out, hout⟩ := stringLoop_char hchar
    have hshort := hchar.shorter
    obtain ⟨fuel', output', hf', he⟩ := ih (0 + fuel) (output ++ out) (by omega)
    exact ⟨fuel', output', hf', by rw [hout, he]⟩

theorem parseString_cons (u : Bytes) : parseString (34 :: u) = stringLoop (u.length + 2) u [] := rfl

theorem parseString_str {t rest : Bytes} (h : (parserDialect S).Str t rest) :
    ∃ s, parseString t = .ok (some (s, rest)) := by
  obtain ⟨u, rfl, hu⟩ := h
  obtain ⟨fuel, output, hf, he⟩ := stringLoop_chars hu (u.length + 2) [] (by omega)
  obtain ⟨fuel, rfl⟩ := Nat.exists_eq_add_of_lt (show 0 < fuel by omega)
  exact ⟨output, by rw [parseString_cons, he]; simp [stringLoop]⟩

theorem parseString_strCut {t : Bytes} (h : StrCut t) : ∃ f, f ≠ .hang ∧ parseString t = .error f := by
  obtain ⟨u, v, rfl, hu, hcut⟩ := h
  obtain ⟨fuel, output, hf, he⟩ := stringLoop_chars hu (u.length + 2) [] (by omega)
  obtain ⟨fuel, rfl⟩ := Nat.exists_eq_add_of_lt (show 0 < fuel by omega)
  obtain ⟨f, hne, hfault⟩ := stringLoop_cut hcut (0 + fuel) output
  exact ⟨f, hne, by rw [parseString_cons, he, hfault]⟩

theorem parseString_agrees {t : Bytes} (ht : t ≠ []) :
    Agrees ((parserDialect S).Str t) (StrCut t) (parseString t) := by
  obtain ⟨c, u, rfl⟩ := List.exists_cons_of_ne_nil ht
  by_cases hc : c = 34
  · subst hc
    rw [parseString_cons]
    refine (stringLoop_agrees (u.length + 2) u []).mono (fun rest h => ⟨u, rfl, h⟩) fun h => ?_
    obtain ⟨v, hv, hcut⟩ := h
    exact ⟨u, v, rfl, hv, hcut⟩
  · have hnone : parseString (c :: u) = .ok none := by
      simp [parseString, charAt_cons, hc, bind, Except.bind]
    rw [hnone]
    exact .null

end HahaWeb.Json
