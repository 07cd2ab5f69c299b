/-
  HahaWeb.Json.Language — the texts `fromString` returns on, and those it accepts.

  It skips its white space, reads one value and looks no further. Proved: it returns
  exactly on a text that is not cut (`parse_returns_iff`); and it gives the null pointer for a
  text that is not JSON exactly when the text is neither one that its dialect reads a
  value in front of nor one that is cut (`rejects_iff`).
-/

import HahaWeb.Json.Reading

namespace HahaWeb.Json

variable {D : Type} (S : Stod D)

/-- Behind white space stands a value, and then anything. -/
def Accepted (t : Bytes) : Prop :=
  ∃ u rest, Blanks (parserDialect S).blank t u ∧ (parserDialect S).Reads .value u rest

/-- Behind white space the text is cut. -/
def Cut (t : Bytes) : Prop := ∃ u, Blanks (parserDialect S).blank t u ∧ Cuts S .value u

/-- A byte order mark is white space of the parser. -/
theorem skip_bom (t : Bytes) : skipCtrlAndSpace (skipUtf8Bom t) = skipCtrlAndSpace t := by
  unfold skipUtf8Bom
  split
  · rename_i h
    nth_rewrite 2 [word_append h]
    exact (skip_append (List.all_eq_true.mp (by decide)) _).symm
  · rfl

theorem skip_begins {t u : Bytes} (h : Blanks (parserDialect S).blank t u)
    (hu : ∃ c w, u = c :: w ∧ opensValue c = true) : skipCtrlAndSpace t = u := by
  obtain ⟨c, w, rfl, hc⟩ := hu
  rw [skip_blanks S h, skip_cons (opensValue_spec c hc).1]

theorem fromString_eq (t : Bytes) :
    fromString S t = (parseValue S (2 * t.length + 2) (skipCtrlAndSpace t)).map (·.map (·.1)) := by
  unfold fromString
  rw [skip_bom]
  rcases parseValue S (2 * t.length + 2) (skipCtrlAndSpace t) with _ | _ <;> rfl

theorem fromString_accepted {t : Bytes} (h : Accepted S t) : ∃ v, fromString S t = .ok (some v) := by
  obtain ⟨u, rest, hu, hread⟩ := h
  have hlen := hu.length_le
  obtain ⟨v, hv⟩ := parse_reads S hread (2 * t.length + 2) (by omega)
  rw [fromString_eq, skip_begins S hu (Reads.begins S hread), hv]
  exact ⟨v, rfl⟩

theorem fromString_cut {t : Bytes} (h : Cut S t) : ∃ f, fromString S t = .error f := by
  obtain ⟨u, hu, hcut⟩ := h
  have hlen := hu.length_le
  obtain ⟨f, -, hf⟩ := parse_cuts S hcut (2 * t.length + 2) (by omega)
  rw [fromString_eq, skip_begins S hu (Cuts.begins S hcut), hf]
  exact ⟨f, rfl⟩

theorem fromString_agrees (t : Bytes) : Agrees ((parserDialect S).Reads .value (skipCtrlAndSpace t))
    (Cuts S .value (skipCtrlAndSpace t)) (parseValue S (2 * t.length + 2) (skipCtrlAndSpace t)) := by
  cases ht : skipCtrlAndSpace t with
  | nil => exact .null
  | cons c u => exact (parse_agrees S _).1 _ (by simp)

theorem accepted_of_some {t : Bytes} {v : JsonNode D} (h : fromString S t = .ok (some v)) : Accepted S t := by
  have hagrees := fromString_agrees S t
  rw [fromString_eq] at h
  rcases hp : parseValue S (2 * t.length + 2) (skipCtrlAndSpace t) with _ | _ | ⟨v', rest⟩
  · rw [hp] at h
    cases h
  · rw [hp] at h
    cases h
  · exact ⟨_, rest, blanks_skip S t, hagrees.left v' rest hp⟩

theorem cut_of_error {t : Bytes} {f : Fault} (h : fromString S t = .error f) : Cut S t := by
  have hagrees := fromString_agrees S t
  have hhang := fromString_not_hang S t
  rw [fromString_eq] at h hhang
  rcases hp : parseValue S (2 * t.length + 2) (skipCtrlAndSpace t) with f' | _
  · rcases hagrees.fault f' hp with rfl | hcut
    · rw [hp] at hhang
      exact absurd rfl hhang
    · exact ⟨_, blanks_skip S t, hcut⟩
  · rw [hp] at h
    cases h

theorem not_cut_of_ok {t : Bytes} {r : Option (JsonNode D)} (h : fromString S t = .ok r) : ¬ Cut S t := by
  intro hcut
  obtain ⟨f, hf⟩ := fromString_cut S hcut
  rw [h] at hf
  cases hf

/-- `fromString` returns, with a node or the null pointer, exactly on a text that is not cut. -/
theorem parse_returns_iff (S : Stod D) (t : Bytes) : (∃ r, fromString S t = .ok r) ↔ ¬ Cut S t := by
  constructor
  · intro h
    obtain ⟨r, hr⟩ := h
    exact not_cut_of_ok S hr
  · intro h
    cases hr : fromString S t with
    | error f => exact absurd (cut_of_error S hr) h
    | ok r => exact ⟨r, rfl⟩

theorem null_iff (t : Bytes) : fromString S t = .ok none ↔ ¬ (Accepted S t ∨ Cut S t) := by
  constructor
  · intro h hor
    rcases hor with hacc | hcut
    · obtain ⟨v, hv⟩ := fromString_accepted S hacc
      rw [h] at hv
      cases hv
    · exact not_cut_of_ok S h hcut
  · intro h
    rcases hr : fromString S t with f | _ | v
    · exact absurd (.inr (cut_of_error S hr)) h
    · rfl
    · exact absurd (.inl (accepted_of_some S hr)) h

/-- A text that is not JSON gives the null pointer exactly when the parser neither accepts it
    nor reads past its end. -/
theorem rejects_iff (S : Stod D) (t : Bytes) :
    (¬ IsJson t → fromString S t = .ok none) ↔ IsJson t ∨ ¬ (Accepted S t ∨ Cut S t) := by
  rw [null_iff]
  exact or_iff_not_imp_left.symm

/-! ## Two texts -/

/-- The text ends behind an element. -/
theorem returns_open : ¬ ∀ (D : Type) (S : Stod D) (t : Bytes), ∃ r, fromString S t = .ok r := by
  intro h
  obtain ⟨r, hr⟩ := h Unit ⟨fun _ => none, fun _ => none⟩ (lit "[null")
  have hvalue : (parserDialect (⟨fun _ => none, fun _ => none⟩ : Stod Unit)).Reads .value (lit "null") [] := .null []
  have hitem := Dialect.Reads.element ⟨[], by simp, rfl⟩ hvalue ⟨[], by simp, rfl⟩
  exact not_cut_of_ok _ hr ⟨_, ⟨[], by simp, rfl⟩, .container .array (.behind .array hitem)⟩

/-- A value of JSON that begins with an `n` is the word for null. -/
theorem json_null {t rest : Bytes} (h : json.Reads .value t rest) (hn : t.head? = some 110) :
    t = lit "null" ++ rest := by
  cases h with
  | null => rfl
  | true => cases hn
  | false => cases hn
  | string h =>
    obtain ⟨u, rfl, -⟩ := h
    cases hn
  | number h =>
    obtain ⟨l, rfl⟩ := h
    obtain ⟨c, u, hc, hopen⟩ := l.text_cons
    rw [hc] at hn
    cases hn
    exact absurd hopen (by decide)
  | empty k => cases k <;> cases hn
  | container k => cases k <;> cases hn

theorem not_json_trailing : ¬ IsJson (lit "null x") := by
  intro h
  obtain ⟨u, v, rest, hbom, ⟨ws, hws, rfl⟩, hread, hrest⟩ := h
  have hu : lit "null x" = ws ++ v := by
    rcases hbom with h | h
    · exact h
    · cases h
  have hnil : ws = [] := by
    cases ws with
    | nil => rfl
    | cons c ws =>
      have hc : c = 110 := (List.cons.inj hu).1.symm
      have hblank := hws c List.mem_cons_self
      rw [hc] at hblank
      exact absurd hblank (by decide)
  rw [hnil, List.nil_append] at hu
  rw [← hu] at hread
  have hrest' : lit " x" = rest := List.append_cancel_left (json_null hread rfl)
  have hx := hrest 120 (by rw [← hrest']; decide)
  exact absurd hx (by decide)

/-- What stands behind the value is not looked at. -/
theorem rejects_trailing : ¬ ∀ (D : Type) (S : Stod D) (t : Bytes), ¬ IsJson t → fromString S t = .ok none := by
  intro h
  have hnone := h Unit ⟨fun _ => none, fun _ => none⟩ (lit "null x") not_json_trailing
  obtain ⟨v, hv⟩ := fromString_accepted _ (t := lit "null x") ⟨_, lit " x", ⟨[], by simp, rfl⟩, .null (lit " x")⟩
  rw [hnone] at hv
  cases hv

end HahaWeb.Json
