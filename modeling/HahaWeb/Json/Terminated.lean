/-
  HahaWeb.Json.Terminated — a text that ends with `!` is not cut.

  No production but a character of a string has a `!`, so what a value leaves of such a
  text ends with `!` too (`reads_bang`), there is always a byte behind it, and the text is
  not cut (`cuts_bang`, `Bang.not_cut`).
-/

import HahaWeb.Json.Language

namespace HahaWeb.Json

variable {D : Type} (S : Stod D)

/-! ## Texts -/

def Bang (str : Bytes) : Prop := str.getLast? = some 33

theorem bang_append (str : Bytes) : Bang (str ++ [33]) := by simp [Bang]

theorem Bang.ne_nil {str : Bytes} (h : Bang str) : str ≠ [] := by
  intro hx
  subst hx
  cases h

theorem Bang.suffix {str rest : Bytes} (h : Bang str) (hs : rest <:+ str) (hne : rest ≠ []) : Bang rest := by
  obtain ⟨t, rfl⟩ := hs
  unfold Bang at *
  rwa [List.getLast?_append_of_ne_nil t hne] at h

/-- What stands behind a word without `!`. -/
theorem Bang.behind {w rest : Bytes} (h : Bang (w ++ rest)) (hw : 33 ∉ w) : Bang rest := by
  refine h.suffix (List.suffix_append w rest) fun hnil => hw ?_
  rw [hnil, List.append_nil] at h
  exact List.mem_of_getLast? h

theorem Bang.tail {c : UInt8} {rest : Bytes} (h : Bang (c :: rest)) (hc : c ≠ 33) : Bang rest :=
  Bang.behind (w := [c]) h (by simpa using hc.symm)

theorem Bang.blanks {t rest : Bytes} (h : Bang t) (hb : Blanks (parserDialect S).blank t rest) : Bang rest := by
  obtain ⟨ws, hws, rfl⟩ := hb
  refine h.behind fun hmem => ?_
  have hblank : isCtrlAndSpace 33 = true := hws 33 hmem
  exact absurd hblank (by decide)

/-! ## A text that ends with `!` is not cut -/

theorem ParserChar.suffix {t rest : Bytes} (h : ParserChar t rest) : rest <:+ t := by
  cases h with
  | plain => exact List.suffix_cons _ _
  | escape => exact ⟨[92, _], rfl⟩
  | hex => exact ⟨92 :: 120 :: _, rfl⟩
  | unicode => exact ⟨92 :: 117 :: _, rfl⟩
  | @surrogates hi lo => exact ⟨92 :: 117 :: (hi ++ 92 :: 117 :: lo), by simp⟩

theorem Bang.chars {u v : Bytes} (h : Bang u) (hu : Relation.ReflTransGen ParserChar u v) (hv : v ≠ []) : Bang v := by
  have hs : v <:+ u := by
    induction hu with
    | refl => exact List.suffix_rfl
    | tail _ hchar ih => exact hchar.suffix.trans (ih (hchar.suffix.ne_nil hv))
  exact h.suffix hs hv

theorem Bang.str {t rest : Bytes} (h : Bang t) (hs : (parserDialect S).Str t rest) : Bang rest := by
  obtain ⟨u, rfl, hu⟩ := hs
  exact ((h.tail (by decide)).chars hu (by simp)).tail (by decide)

theorem Bang.strCut {t : Bytes} (h : Bang t) : ¬ StrCut t := by
  intro hs
  obtain ⟨u, v, rfl, hu, hcut⟩ := hs
  rcases hcut with rfl | ⟨ds, rfl, hds⟩
  · exact absurd ((h.tail (by decide)).chars hu (by simp)) (by simp [Bang])
  · have hb := (((h.tail (by decide)).chars hu (by simp)).tail (by decide)).tail (by decide)
    exact absurd (hds 33 (List.mem_of_getLast? hb)) (by decide)

theorem opens_ne_bang (k : Container) : k.opens ≠ 33 := by cases k <;> decide

theorem closes_ne_bang (k : Container) : k.closes ≠ 33 := by cases k <;> decide

/-- What a part leaves of a text that ends with `!`. -/
theorem reads_bang {p : Part} {t rest : Bytes} (h : (parserDialect S).Reads p t rest) : Bang t → Bang rest := by
  induction h with
  | null rest | true rest | false rest => exact fun hb => hb.behind (by decide)
  | string h => exact fun hb => hb.str S h
  | number h =>
    intro hb
    obtain ⟨run, rfl, -, hrun, -⟩ := h
    exact hb.behind fun hmem => absurd (hrun 33 hmem) (by decide)
  | empty k h =>
    intro hb
    rw [gap_eq S h] at hb
    exact (hb.tail (opens_ne_bang k)).tail (closes_ne_bang k)
  | container k _ ih => exact fun hb => ih (hb.tail (opens_ne_bang k))
  | element h1 _ h2 ih => exact fun hb => (ih (hb.blanks S h1)).blanks S h2
  | member h1 h2 h3 h4 _ h5 ih =>
    intro hb
    have hcolon := (((hb.blanks S h1).str S h2).blanks S h3).tail (by decide)
    exact (ih (hcolon.blanks S h4)).blanks S h5
  | last k _ ih => exact fun hb => (ih hb).tail (closes_ne_bang k)
  | comma k _ h ih =>
    intro hb
    have hu := (ih hb).tail (by decide)
    rw [gap_eq S h] at hu
    exact hu.tail (closes_ne_bang k)
  | more k _ _ ih ih' => exact fun hb => ih' ((ih hb).tail (by decide))

theorem cuts_bang {p : Part} {t : Bytes} (h : Cuts S p t) : ¬ Bang t := by
  induction h with
  | string h => exact fun hb => hb.strCut h
  | container k _ ih => exact fun hb => ih (hb.tail (opens_ne_bang k))
  | element h1 _ ih => exact fun hb => ih (hb.blanks S h1)
  | key h1 h2 => exact fun hb => (hb.blanks S h1).strCut h2
  | @colon t u v h1 h2 hall =>
    intro hb
    have hv := (hb.blanks S h1).str S h2
    exact Bang.ne_nil (hv.blanks S ⟨v, hall, (List.append_nil v).symm⟩) rfl
  | member h1 h2 h3 h4 _ ih =>
    intro hb
    have hcolon := (((hb.blanks S h1).str S h2).blanks S h3).tail (by decide)
    exact ih (hcolon.blanks S h4)
  | item k _ ih => exact ih
  | behind k h => exact fun hb => (reads_bang S h hb).ne_nil rfl
  | more k h _ ih => exact fun hb => ih ((reads_bang S h hb).tail (by decide))

/-- So a body that ends with `!` is read to an end. -/
theorem Bang.not_cut {str : Bytes} (h : Bang str) : ¬ Cut S str := by
  intro hcut
  obtain ⟨u, hu, hcut⟩ := hcut
  exact cuts_bang S hcut (h.blanks S hu)

end HahaWeb.Json
