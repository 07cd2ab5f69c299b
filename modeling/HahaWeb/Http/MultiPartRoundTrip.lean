/-
  HahaWeb.Http.MultiPartRoundTrip — multipart bodies as a client writes them, and what
  `HttpMultiPart::parse` makes of them.

  Each part takes the state machine once round (`turns_item`), so a body is parsed to the
  parts added one after the other (`parse_render`). Four things are lost on the way. A
  name or file name that ends with `=` is read together with its closing quote as the
  start of another; a further file of a name is put into a copy; the pointer that
  `getFile` returns is to a copy, too; and data in which `strncmp` finds the delimiter is
  cut there, which a boundary with a NUL or a CR makes possible in data that does not hold
  the delimiter.

  Proved:
  - `delimits_of_not_infix`: for a boundary without NUL and CR the data is cut nowhere.
  - `parse_delimits`: of any body, every value stored is one that the test does not cut.
  - `roundTrip_iff`: what was written comes back when there is no file, no name ends with
    `=` and no data is cut, and only then, the data of replaced fields apart.
-/

import HahaWeb.Http.PartData
import Mathlib.Data.Finset.Max

namespace HahaWeb.HttpMultiPart

/-! ## Bodies -/

/-- What a client sends. -/
inductive Item where
  | field (name data : Bytes)
  | file (name filename type data : Bytes)
  deriving DecidableEq, Repr

def Item.name : Item → Bytes
  | .field name _ => name
  | .file name _ _ _ => name

def Item.data : Item → Bytes
  | .field _ data => data
  | .file _ _ _ data => data

/-- A text that can stand between quotes. -/
structure Quotable (s : Bytes) : Prop where
  noQuote : 34 ∉ s
  noCR : CR ∉ s

def Item.Quotable : Item → Prop
  | .field name _ => HttpMultiPart.Quotable name
  | .file name filename type _ => HttpMultiPart.Quotable name ∧ HttpMultiPart.Quotable filename ∧
    HttpMultiPart.Quotable type

/-- The parameters of `Content-Disposition`. -/
def Item.parameters : Item → Bytes
  | .field name _ => lit "name" ++ (lit "=\"" ++ (name ++ [34]))
  | .file name filename _ _ =>
    lit "name" ++ (lit "=\"" ++ (name ++ 34 :: (lit "; filename" ++ (lit "=\"" ++ (filename ++ [34])))))

def Item.typeLine : Item → Bytes
  | .field _ _ => []
  | .file _ _ type _ => lit "Content-Type: " ++ (type ++ crlf)

def Item.text (boundary : Bytes) (it : Item) : Bytes :=
  lit "--" ++ boundary ++ crlf ++ (lit "Content-Disposition" ++ (lit ": form-data; " ++ (it.parameters ++ (crlf ++
    (it.typeLine ++ (crlf ++ (it.data ++ crlf)))))))

/-- The parts and the closing delimiter. -/
def render (boundary : Bytes) (items : List Item) : Bytes :=
  items.flatMap (Item.text boundary) ++ (lit "--" ++ boundary ++ lit "--\r\n")

/-- The parser's test for the delimiter fails before the end of the data. -/
def Delimits (boundary data : Bytes) : Prop :=
  ∀ k < data.length, ∀ rest, atDelimiter boundary (data.drop k ++ (crlf ++ (lit "--" ++ boundary ++ rest))) = false

/-- That is so when the data does not hold the delimiter, for a boundary without NUL and CR. -/
theorem delimits_of_not_infix {boundary data : Bytes} (h0 : 0 ∉ boundary) (hcr : CR ∉ boundary)
    (h : ¬ crlf ++ (lit "--" ++ boundary) <:+: data) : Delimits boundary data := by
  intro k hk rest
  by_contra hd
  simp only [Bool.not_eq_false, atDelimiter, Bool.and_eq_true, List.isPrefixOf_iff_prefix, strncmpEq_iff h0] at hd
  obtain ⟨⟨-, h1⟩, h2⟩ := hd
  have hp : crlf ++ (lit "--" ++ boundary) <+: data.drop k ++ (crlf ++ (lit "--" ++ boundary ++ rest)) := by
    obtain ⟨w, hw⟩ := h1
    rw [← hw] at h2 ⊢
    have h4 : (lit "\r\n--" ++ w).drop 4 = w := rfl
    rw [h4] at h2
    have h5 : crlf ++ (lit "--" ++ boundary) = lit "\r\n--" ++ boundary := rfl
    rw [h5]
    exact (List.prefix_append_right_inj _).mpr h2
  rcases Nat.lt_or_ge (data.drop k).length (crlf ++ (lit "--" ++ boundary)).length with hlt | hge
  · -- the delimiter would begin again inside itself
    have hk' : 0 < (data.drop k).length := by rw [List.length_drop]; omega
    obtain ⟨u, hu⟩ := List.prefix_of_prefix_length_le (List.prefix_append (data.drop k) _) hp hlt.le
    rw [← hu, List.prefix_append_right_inj] at hp
    have hne : u ≠ [] := by
      intro hx
      subst hx
      rw [← hu, List.append_nil] at hlt
      omega
    obtain ⟨c, u', rfl⟩ := List.exists_cons_of_ne_nil hne
    have hc : c = CR := (List.cons_prefix_cons.mp hp).1
    obtain ⟨d, ds, hd⟩ := List.exists_cons_of_ne_nil (List.length_pos_iff.mp hk')
    rw [hd, List.cons_append] at hu
    have hmem : CR ∈ LF :: (lit "--" ++ boundary) := by
      rw [show LF :: (lit "--" ++ boundary) = ds ++ c :: u' from (List.cons.inj hu).2.symm, hc]
      simp
    simp [CR, LF, lit] at hmem
    exact hcr hmem
  · exact h (((prefix_append_iff hge _).mp hp).isInfix.trans (List.drop_suffix k data).isInfix)

-- a NUL in the boundary: the comparison ends at it
example : ¬ crlf ++ (lit "--" ++ [97, 0, 98]) <:+: lit "\r\n--" ++ [97, 0, 99] ∧
    atDelimiter [97, 0, 98] (lit "\r\n--" ++ [97, 0, 99]) = true := by decide

/-! ## The inner loops -/

/-- Text without a quote and a line end, between quotes or not. -/
theorem dispositionLoop_skip {w : Bytes} (hq : 34 ∉ w) (hcr : CR ∉ w) (he : 61 ∉ w) (isName : Bool)
    (name filename rest : Bytes)
    {c : UInt8} : dispositionLoop (w ++ c :: rest) false isName name filename =
      dispositionLoop (c :: rest) false isName name filename := by
  induction w with
  | nil => rfl
  | cons d w ih =>
    simp only [List.mem_cons, not_or] at hq hcr he
    obtain ⟨e, v, hv⟩ : ∃ e v, w ++ c :: rest = e :: v := by cases w <;> simp
    rw [List.cons_append, hv, dispositionLoop, if_neg (by simp [Ne.symm hcr.1]), if_neg (by simp [Ne.symm he.1]),
      if_neg (Ne.symm hq.1), if_neg (by decide), ← hv]
    exact ih hq.2 hcr.2 he.2

theorem dispositionLoop_open (start isName : Bool) (name filename rest : Bytes) :
    dispositionLoop (61 :: 34 :: rest) start isName name filename = dispositionLoop rest true isName name filename := by
  rw [dispositionLoop, if_neg (by decide), if_pos ⟨rfl, rfl⟩]

theorem dispositionLoop_close (start isName : Bool) (name filename : Bytes) (c : UInt8) (rest : Bytes) :
    dispositionLoop (34 :: c :: rest) start isName name filename =
      dispositionLoop (c :: rest) false (!isName) name filename := by
  have h1 : (34 : UInt8) ≠ CR := by decide
  have h2 : (34 : UInt8) ≠ 61 := by decide
  rw [dispositionLoop, if_neg fun h => h1 h.1, if_neg fun h => h2 h.1, if_pos rfl]

theorem dispositionLoop_end (start isName : Bool) (name filename rest : Bytes) :
    dispositionLoop (crlf ++ rest) start isName name filename = (name, filename, some rest) := by
  rw [crlf, List.cons_append, List.cons_append, dispositionLoop, if_pos ⟨rfl, rfl⟩]
  rfl

/-- Text between quotes, up to where `="` may stand, is added to the name or the file name. -/
theorem dispositionLoop_text {w : Bytes} (hq : 34 ∉ w) (hcr : CR ∉ w) {c : UInt8} (hc : c ≠ 34 ∨ w.getLast? ≠ some 61)
    (isName : Bool) (name filename rest : Bytes) : dispositionLoop (w ++ c :: rest) true isName name filename =
      dispositionLoop (c :: rest) true isName (if isName then name ++ w else name)
        (if isName then filename else filename ++ w) := by
  induction w generalizing name filename with
  | nil => cases isName <;> simp
  | cons d w ih =>
    simp only [List.mem_cons, not_or] at hq hcr
    have hlast : c ≠ 34 ∨ w.getLast? ≠ some 61 := by
      refine hc.imp_right fun h hw => h ?_
      rw [List.getLast?_cons, hw]
      rfl
    have hopen : ∀ e v, w ++ c :: rest = e :: v → ¬ (d = 61 ∧ e = 34) := by
      intro e v hv hx
      rcases hx with ⟨rfl, rfl⟩
      cases w with
      | nil =>
        simp only [List.nil_append, List.cons.injEq] at hv
        exact hc.elim (fun h => h hv.1) fun h => h rfl
      | cons x w =>
        simp only [List.cons_append, List.cons.injEq] at hv
        exact hq.2 (by simp [hv.1])
    obtain ⟨e, v, hv⟩ : ∃ e v, w ++ c :: rest = e :: v := by cases w <;> simp
    rw [List.cons_append, hv, dispositionLoop, if_neg (by simp [Ne.symm hcr.1]), if_neg (hopen e v hv),
      if_neg (Ne.symm hq.1),
      if_pos rfl, ← hv]
    cases isName with
    | true => simpa using ih hq.2 hcr.2 hlast (name ++ [d]) filename
    | false => simpa using ih hq.2 hcr.2 hlast name (filename ++ [d])

theorem typeLoop_text {w : Bytes} (hcr : CR ∉ w) (type rest : Bytes) : typeLoop (w ++ (crlf ++ rest)) type =
    (type ++ w, some rest) := by
  induction w generalizing type with
  | nil =>
    rw [List.nil_append, crlf, List.cons_append, List.cons_append, typeLoop, if_pos ⟨rest, rfl⟩, List.append_nil]
    rfl
  | cons d w ih =>
    simp only [List.mem_cons, not_or] at hcr
    have hno : ¬ crlf <+: d :: (w ++ (crlf ++ rest)) := fun h => hcr.1 (List.cons_prefix_cons.mp h).1
    rw [List.cons_append, typeLoop, if_neg hno, ih hcr.2, List.append_assoc, List.singleton_append]

/-- At the delimiter, with something behind it. -/
theorem atDelimiter_true (boundary : Bytes) {rest : Bytes} (h : rest ≠ []) :
    atDelimiter boundary (crlf ++ (lit "--" ++ boundary ++ rest)) = true := by
  have hpos := List.length_pos_iff.mpr h
  have hdrop : (crlf ++ (lit "--" ++ boundary ++ rest)).drop 4 = boundary ++ rest := rfl
  have hpre : (lit "\r\n--").isPrefixOf (crlf ++ (lit "--" ++ boundary ++ rest)) = true :=
    List.isPrefixOf_iff_prefix.mpr ⟨boundary ++ rest, rfl⟩
  simp only [atDelimiter, hdrop, hpre, strncmpEq, strncmpBy_append, Bool.and_true, decide_eq_true_eq]
  simp only [crlf, lit, List.length_append, List.length_cons, List.length_nil]
  simp
  omega

/-- The data up to the delimiter, whatever part of it is in the local buffer. -/
theorem dataLoop_data {boundary data rest : Bytes} (hd : Delimits boundary data) (hr : rest ≠ [])
    {acc buffer : Bytes} {n : Nat}
    (hn : n = (acc ++ buffer).length) : dataLoop boundary (data ++ (crlf ++ (lit "--" ++ boundary ++ rest))) acc
    buffer n =
      (acc ++ buffer ++ data, some (lit "--" ++ boundary ++ rest)) := by
  induction data generalizing acc buffer n with
  | nil =>
    have hat := atDelimiter_true boundary hr
    have hresize : Buffer.resize (acc ++ buffer) n = acc ++ buffer := by simp [Buffer.resize, hn]
    have hx : crlf ++ (lit "--" ++ boundary ++ rest) = CR :: LF :: (lit "--" ++ boundary ++ rest) := rfl
    rw [hx] at hat
    rw [List.nil_append, hx, dataLoop, if_pos hat, hresize, List.append_nil]
    rfl
  | cons c data ih =>
    have hat := hd 0 (by simp) rest
    have hd' : Delimits boundary data := fun k hk rest => hd (k + 1) (by simpa using hk) rest
    rw [List.drop_zero] at hat
    rw [List.cons_append] at hat ⊢
    have hlen : n + 1 = (acc ++ (buffer ++ [c])).length := by
      rw [hn]
      simp only [List.length_append, List.length_cons, List.length_nil]
      omega
    rw [dataLoop, hat, if_neg Bool.false_ne_true]
    split
    · rw [ih hd' (by rw [hlen, List.append_nil])]
      simp
    · rw [ih hd' hlen]
      simp

/-! ## One part -/

/-- What is read of a text between quotes: a `=` at its end goes with the quote. -/
def kept (s : Bytes) : Bytes := if s.getLast? = some 61 then s.dropLast else s

/-- The part the parser reads. -/
def Item.stored : Item → Item
  | .field name data => .field (kept name) data
  | .file name filename type data =>
    if name.getLast? = some 61 then .file (kept name ++ (lit "; filename" ++ kept filename)) [] type data
    else .file name (kept filename) type data

def Item.filename : Item → Bytes
  | .field _ _ => []
  | .file _ filename _ _ => filename

theorem eq_append_of_getLast {s : Bytes} (h : s.getLast? = some 61) : s = s.dropLast ++ [61] := by
  rw [← List.dropLast_append_getLast? 61 h]
  simp

theorem dispositionLoop_last {w : Bytes} (hw : Quotable w) (isName : Bool) (name filename rest : Bytes) :
    dispositionLoop (w ++ 34 :: (crlf ++ rest)) true isName name filename =
      (if isName then name ++ kept w else name, if isName then filename else filename ++ kept w, some rest) := by
  by_cases he : w.getLast? = some 61
  · have hq : 34 ∉ w.dropLast := fun h => hw.noQuote (List.mem_of_mem_dropLast h)
    have hcr : CR ∉ w.dropLast := fun h => hw.noCR (List.mem_of_mem_dropLast h)
    have hsplit : w ++ 34 :: (crlf ++ rest) = w.dropLast ++ 61 :: 34 :: (crlf ++ rest) := by
      conv_lhs => rw [eq_append_of_getLast he]
      simp
    rw [hsplit, dispositionLoop_text hq hcr (.inl (by decide)), dispositionLoop_open, dispositionLoop_end, kept,
      if_pos he]
  · rw [dispositionLoop_text hw.noQuote hw.noCR (.inr he)]
    have hclose := dispositionLoop_close true isName (if isName then name ++ w else name)
      (if isName then filename else filename ++ w) CR (LF :: rest)
    rw [show (34 : UInt8) :: (crlf ++ rest) = 34 :: CR :: LF :: rest from rfl, hclose,
      show CR :: LF :: rest = crlf ++ rest from rfl, dispositionLoop_end, kept, if_neg he]

theorem dispositionLoop_item {it : Item} (h : it.Quotable) (rest : Bytes) :
    dispositionLoop (it.parameters ++ (crlf ++ rest)) false true [] [] =
      (it.stored.name, it.stored.filename, some rest) := by
  have hname : ∀ x, dispositionLoop (lit "name" ++ (lit "=\"" ++ x)) false true [] [] =
      dispositionLoop x true true [] [] := by
    intro x
    have hskip := dispositionLoop_skip (w := lit "name") (by decide) (by decide) (by decide) true [] [] (34 :: x)
      (c := 61)
    exact hskip.trans (dispositionLoop_open _ _ _ _ _)
  cases it with
  | field name data =>
    simp only [Item.parameters, List.append_assoc, List.cons_append, List.nil_append]
    rw [hname, dispositionLoop_last h]
    rfl
  | file name filename type data =>
    obtain ⟨hn, hf, -⟩ := h
    simp only [Item.parameters, List.append_assoc, List.cons_append, List.nil_append]
    rw [hname]
    by_cases he : name.getLast? = some 61
    · -- the closing quote is taken with the sign: all that follows goes into the name
      have hq : 34 ∉ name.dropLast := fun h => hn.noQuote (List.mem_of_mem_dropLast h)
      have hcr : CR ∉ name.dropLast := fun h => hn.noCR (List.mem_of_mem_dropLast h)
      have hsplit : ∀ x : Bytes, name ++ 34 :: x = name.dropLast ++ 61 :: 34 :: x := by
        intro x
        conv_lhs => rw [eq_append_of_getLast he]
        simp
      have htext := dispositionLoop_text (w := lit "; filename") (c := 61) (by decide) (by decide)
        (.inl (by decide)) true
        name.dropLast [] (34 :: (filename ++ 34 :: (crlf ++ rest)))
      have hopen := dispositionLoop_open true true (name.dropLast ++ lit "; filename") []
        (filename ++ 34 :: (crlf ++ rest))
      rw [hsplit, dispositionLoop_text hq hcr (.inl (by decide)), dispositionLoop_open]
      simp only [if_true, List.nil_append] at htext ⊢
      refine (htext.trans hopen).trans ?_
      rw [dispositionLoop_last hf]
      simp [Item.stored, kept, he, Item.name, Item.filename]
    · have htext := dispositionLoop_text hn.noQuote hn.noCR (c := 34) (.inr he) true [] []
        (lit "; filename" ++ (lit "=\"" ++ (filename ++ 34 :: (crlf ++ rest))))
      have hclose := dispositionLoop_close true true name [] 59
        (lit " filename" ++ (lit "=\"" ++ (filename ++ 34 :: (crlf ++ rest))))
      have hskip := dispositionLoop_skip (w := lit "; filename") (c := 61) (by decide) (by decide) (by decide)
        false name []
        (34 :: (filename ++ 34 :: (crlf ++ rest)))
      have hopen := dispositionLoop_open false false name [] (filename ++ 34 :: (crlf ++ rest))
      refine htext.trans (hclose.trans (hskip.trans (hopen.trans ?_)))
      rw [dispositionLoop_last hf]
      simp [Item.stored, he, Item.name, Item.filename]

section

variable (bd : Bytes) {name filename type formFileData : Bytes} {fileMark : Bool} {form : HttpMap .yes}
  {files : HttpBaseMap (List Part) .yes} (rest : Bytes)

theorem iter_startBody :
    iter bd ⟨lit "--" ++ rest, name, filename, type, formFileData, fileMark, .startBody, form, files⟩ =
    ⟨rest, name, filename, type, formFileData, fileMark, .startBoundary, form, files⟩ := by
  simp only [iter]
  rw [if_pos (List.prefix_append _ _)]
  rfl

theorem iter_startBoundary :
    iter bd ⟨bd ++ (crlf ++ rest), name, filename, type, formFileData, fileMark, .startBoundary, form,
    files⟩ = ⟨rest, name, filename, type, formFileData, fileMark, .endBoundary, form, files⟩ := by
  have hcmp : strncmpEq (bd ++ (crlf ++ rest)) bd bd.length = true := strncmpBy_append id bd _
  simp only [iter, hcmp, if_true, List.drop_left]
  rw [if_pos (List.prefix_append _ _)]
  rfl

theorem iter_closeBoundary :
    iter bd ⟨bd ++ (lit "--" ++ rest), name, filename, type, formFileData, fileMark, .startBoundary,
    form, files⟩ = ⟨rest, name, filename, type, formFileData, fileMark, .endBody, form, files⟩ := by
  have hcmp : strncmpEq (bd ++ (lit "--" ++ rest)) bd bd.length = true := strncmpBy_append id bd _
  have hno : ¬ crlf <+: lit "--" ++ rest := fun h => absurd (List.cons_prefix_cons.mp h).1 (by decide)
  simp only [iter, hcmp, if_true, List.drop_left]
  rw [if_neg hno, if_pos (List.prefix_append _ _)]
  rfl

theorem iter_endBoundary : iter bd ⟨lit "Content-Disposition" ++ rest, name, filename, type, formFileData, fileMark,
    .endBoundary, form, files⟩ =
      ⟨rest, name, filename, type, formFileData, fileMark, .startContentDisposition, form, files⟩ := by
  have hcmp : strncasecmpEq (lit "Content-Disposition" ++ rest) (lit "Content-Disposition") 19 = true :=
    strncmpBy_append tolower (lit "Content-Disposition") rest
  simp only [iter, hcmp, if_true]
  rfl

theorem iter_startContentDisposition {it : Item} (h : it.Quotable) :
    iter bd ⟨lit ": form-data; " ++ (it.parameters ++ (crlf ++ rest)), [], [], type, formFileData, fileMark,
      .startContentDisposition, form, files⟩ =
    ⟨rest, it.stored.name, it.stored.filename, type, formFileData, fileMark, .endContentDisposition, form, files⟩ := by
  have hdrop : (lit ": form-data; " ++ (it.parameters ++ (crlf ++ rest))).drop 13 =
    it.parameters ++ (crlf ++ rest) := rfl
  simp only [iter, hdrop, dispositionLoop_item h]

theorem iter_noType : iter bd ⟨crlf ++ rest, name, filename, type, formFileData, fileMark, .endContentDisposition, form,
    files⟩ = ⟨rest, name, filename, type, formFileData, false, .startContentData, form, files⟩ := by
  simp only [iter]
  rw [if_pos (List.prefix_append _ _)]
  rfl

theorem iter_endContentDisposition :
    iter bd ⟨lit "Content-Type: " ++ rest, name, filename, type, formFileData, fileMark,
    .endContentDisposition, form, files⟩ =
      ⟨rest, name, filename, type, formFileData, true, .startContentType, form, files⟩ := by
  have hno : ¬ crlf <+: lit "Content-Type: " ++ rest := fun h => absurd (List.cons_prefix_cons.mp h).1 (by decide)
  have hcmp : strncasecmpEq (lit "Content-Type: " ++ rest) (lit "Content-Type") 12 = true :=
    strncmpBy_append tolower (lit "Content-Type") (lit ": " ++ rest)
  simp only [iter, hcmp, if_true]
  rw [if_neg hno]
  rfl

theorem iter_startContentType {w : Bytes} (hcr : CR ∉ w) :
    iter bd ⟨w ++ (crlf ++ rest), name, filename, [], formFileData,
    fileMark, .startContentType, form, files⟩ =
    ⟨rest, name, filename, w, formFileData, fileMark, .endContentType, form, files⟩ := by
  simp only [iter, typeLoop_text hcr, List.nil_append]

theorem iter_endContentType :
    iter bd ⟨crlf ++ rest, name, filename, type, formFileData, fileMark, .endContentType, form,
    files⟩ = ⟨rest, name, filename, type, formFileData, fileMark, .startContentData, form, files⟩ := by
  simp only [iter]
  rw [if_pos (List.prefix_append _ _)]
  rfl

theorem iter_startContentData {data : Bytes} (hd : Delimits bd data) (hr : rest ≠ []) :
    iter bd ⟨data ++ (crlf ++ (lit "--" ++ bd ++ rest)), name, filename, type, [], fileMark, .startContentData,
      form, files⟩ =
    ⟨lit "--" ++ bd ++ rest, name, filename, type, data, fileMark, .endContentData, form, files⟩ := by
  simp only [iter, dataLoop_data hd hr (show 0 = ([] ++ [] : Bytes).length from rfl), List.nil_append]

end

/-- Where the machine stands between two parts. -/
def between (rest : Bytes) (m : HttpMultiPart) : Vars := ⟨rest, [], [], [], [], false, .startBody, m.form, m.files⟩

/-- What storing a part does. -/
def addPart (m : HttpMultiPart) : Item → HttpMultiPart
  | .field name data => { m with form := m.form.add name data }
  | .file name filename type data =>
    match m.files.get name with
    | some _ => m
    | none => { m with files := m.files.add name [⟨name, filename, type, data⟩] }

def Item.addTo (m : HttpMultiPart) (it : Item) : HttpMultiPart := addPart m it.stored

/-- A part takes the machine round to the next delimiter. -/
theorem turns_item {bd : Bytes} {it : Item} (hq : it.Quotable) (hd : Delimits bd it.data) {rest : Bytes}
    (hr : rest ≠ [])
    (m : HttpMultiPart) : Turns bd (between (it.text bd ++ (lit "--" ++ bd ++ rest)) m)
      (between (lit "--" ++ bd ++ rest) (Item.addTo m it)) := by
  simp only [between, Item.text, List.append_assoc]
  refine .head ⟨by simp [lit], (iter_startBody bd _).symm⟩ ?_
  refine .head ⟨by simp [crlf], (iter_startBoundary bd _).symm⟩ ?_
  refine .head ⟨by simp [lit], (iter_endBoundary bd _).symm⟩ ?_
  refine .head ⟨by simp [lit], (iter_startContentDisposition bd _ hq).symm⟩ ?_
  cases it with
  | field name data =>
    simp only [Item.typeLine, List.nil_append]
    refine .head ⟨by simp [crlf], (iter_noType bd _).symm⟩ ?_
    have hdata := @iter_startContentData bd (Item.field name data).stored.name
      (Item.field name data).stored.filename [] false m.form m.files rest data hd hr
    simp only [List.append_assoc] at hdata
    refine .head ⟨by simp [crlf], hdata.symm⟩ (.single ⟨by simp [lit], ?_⟩)
    rfl
  | file name filename type data =>
    simp only [Item.typeLine, List.append_assoc]
    refine .head ⟨by simp [lit], (iter_endContentDisposition bd _).symm⟩ ?_
    refine .head ⟨by simp [crlf], (iter_startContentType bd _ hq.2.2.noCR).symm⟩ ?_
    refine .head ⟨by simp [crlf], (iter_endContentType bd _).symm⟩ ?_
    have hdata := @iter_startContentData bd (Item.file name filename type data).stored.name
      (Item.file name filename type data).stored.filename type true m.form m.files rest data hd hr
    simp only [List.append_assoc] at hdata
    refine .head ⟨by simp [crlf], hdata.symm⟩ (.single ⟨by simp [lit], ?_⟩)
    simp only [iter, storePart, Item.addTo, addPart]
    by_cases he : name.getLast? = some 61
    · simp only [Item.stored, he, if_true, Item.name, Item.filename]
      cases m.files.get (kept name ++ (lit "; filename" ++ kept filename)) <;> rfl
    · simp only [Item.stored, he, if_false, Item.name, Item.filename]
      cases m.files.get name <;> rfl

/-! ## Whole bodies -/

/-- A body begins with a delimiter. -/
theorem render_eq (boundary : Bytes) (items : List Item) :
    ∃ rest, rest ≠ [] ∧ render boundary items = lit "--" ++ boundary ++ rest := by
  cases items with
  | nil => exact ⟨lit "--\r\n", by decide, rfl⟩
  | cons it items =>
    exact ⟨crlf ++ (lit "Content-Disposition" ++ (lit ": form-data; " ++ (it.parameters ++ (crlf ++
      (it.typeLine ++ (crlf ++ (it.data ++ crlf))))))) ++ render boundary items, by simp [crlf], by
      simp only [render, List.flatMap_cons, Item.text, List.append_assoc]⟩

/-- Behind the closing delimiter everything is skipped. -/
theorem turns_endBody {bd : Bytes} {form : HttpMap .yes} {files : HttpBaseMap (List Part) .yes} (rest : Bytes) :
    Turns bd ⟨rest, [], [], [], [], false, .endBody, form, files⟩
    ⟨[], [], [], [], [], false, .endBody, form, files⟩ := by
  match rest with
  | [] => exact .refl
  | [c] => exact .single ⟨by simp, rfl⟩
  | c :: d :: rest => exact .head ⟨by simp, rfl⟩ (turns_endBody rest)

theorem turns_render {bd : Bytes} {items : List Item} (hq : ∀ it ∈ items, it.Quotable)
    (hd : ∀ it ∈ items, Delimits bd it.data)
    (m : HttpMultiPart) : Turns bd (between (render bd items) m) ⟨[], [], [], [], [], false, .endBody,
      (items.foldl Item.addTo m).form, (items.foldl Item.addTo m).files⟩ := by
  induction items generalizing m with
  | nil =>
    have hbody : render bd [] = lit "--" ++ (bd ++ (lit "--" ++ crlf)) := rfl
    rw [hbody]
    refine .head ⟨by simp [lit, between], (iter_startBody bd _).symm⟩ ?_
    exact .head ⟨by simp [lit], (iter_closeBoundary bd _).symm⟩ (turns_endBody crlf)
  | cons it items ih =>
    obtain ⟨rest, hr, hrest⟩ := render_eq bd items
    have hbody : render bd (it :: items) = it.text bd ++ (lit "--" ++ bd ++ rest) := by
      rw [← hrest]
      simp only [render, List.flatMap_cons, List.append_assoc]
    have hturn := turns_item (hq it List.mem_cons_self) (hd it List.mem_cons_self) hr m
    rw [hbody]
    rw [← hrest] at hturn ⊢
    exact hturn.trans (ih (fun it h => hq it (List.mem_cons_of_mem _ h))
      (fun it h => hd it (List.mem_cons_of_mem _ h)) _)

theorem foldl_addTo_bd (items : List Item) (m : HttpMultiPart) : (items.foldl Item.addTo m).bd = m.bd := by
  induction items generalizing m with
  | nil => rfl
  | cons it items ih =>
    rw [List.foldl_cons, ih]
    unfold Item.addTo addPart
    repeat' split
    all_goals rfl

/-- A body is parsed to its parts, added one after the other. -/
theorem parse_render {m : HttpMultiPart} {items : List Item} (hq : ∀ it ∈ items, it.Quotable)
    (hd : ∀ it ∈ items, Delimits m.bd it.data) : m.parse (render m.bd items) = .ok (items.foldl Item.addTo m) := by
  rw [parse_ok_iff]
  refine ⟨_, turns_render hq hd m, rfl, ?_⟩
  rw [← foldl_addTo_bd items m]

/-! ## What is stored, of any body -/

theorem atDelimiter_iff_strncmp (bd x : Bytes) : atDelimiter bd x = true ↔
    4 < x.length ∧ strncmpEq x (lit "\r\n--" ++ bd) (4 + bd.length) = true := by
  rw [atDelimiter, Bool.and_eq_true, Bool.and_eq_true, decide_eq_true_eq, List.isPrefixOf_iff_prefix, and_assoc]
  exact and_congr_right' (strncmpEq_append (p := lit "\r\n--") (by decide) x bd bd.length).symm

/-- What the test sees of a text does not change when the delimiter behind it is put for
    another text that passes for it. -/
theorem atDelimiter_seam {bd w x rest : Bytes} (hx : atDelimiter bd x = true)
    (h : atDelimiter bd (w ++ (crlf ++ (lit "--" ++ bd ++ rest))) = true) : atDelimiter bd (w ++ x) = true := by
  rw [atDelimiter_iff_strncmp, strncmpEq_iff_getD] at hx h ⊢
  refine ⟨by rw [List.length_append]; omega, fun i hi hb => ?_⟩
  have hi' := h.2 i hi hb
  rcases Nat.lt_or_ge i w.length with hlt | hge
  · rwa [List.getD_append _ _ _ _ hlt] at hi' ⊢
  · rw [List.getD_append_right _ _ _ _ hge] at hi' ⊢
    -- behind the text both are the delimiter, as far as it is looked at
    have hdelim : crlf ++ (lit "--" ++ bd ++ rest) = lit "\r\n--" ++ bd ++ rest := by rfl
    rw [hdelim, List.getD_append _ _ _ _ (by simp [lit]; omega)] at hi'
    rw [← hi']
    exact hx.2 _ (by omega) fun j hj => hb j (by omega)

theorem dataLoop_delimits {bd x data y : Bytes} (h : dataLoop bd x [] [] 0 = (data, some y)) : Delimits bd data := by
  have hex : ∃ j, atDelimiter bd (x.drop j) = true := by
    by_contra hno
    have hnone := behind_eq_none (p := atDelimiter bd) (x := x) fun k => by simpa using not_exists.mp hno k
    rw [← dataLoop_behind bd x [] [] 0, h] at hnone
    cases hnone
  have hmin : ∀ k < Nat.find hex, atDelimiter bd (x.drop k) = false := by
    intro k hk
    simpa using Nat.find_min hex hk
  have hat := Nat.find_spec hex
  have htake : dataLoop bd x [] [] 0 = ([] ++ [] ++ x.take (Nat.find hex), _) := dataLoop_take _ rfl hat hmin
  rw [h] at htake
  have hdata : data = x.take (Nat.find hex) := (Prod.mk.inj htake).1
  intro k hk rest
  by_contra hd
  rw [Bool.not_eq_false] at hd
  have hlt : k < Nat.find hex := hk.trans_le (by rw [hdata]; exact List.length_take_le ..)
  have hseam := atDelimiter_seam hat hd
  rw [hdata, ← List.drop_append_of_le_length (by rw [← hdata]; exact hk.le), List.take_append_drop, hmin k hlt] at hseam
  cases hseam

/-- The machine holds and stores only data that the test for the delimiter does not cut. -/
structure Uncut (bd : Bytes) (v : Vars) : Prop where
  idle : Idle v
  held : v.state = .endContentData → Delimits bd v.formFileData
  stored : ∀ name data, v.form.get name = some data → Delimits bd data

theorem storePart_form_get {v : Vars} {name data : Bytes} (h : (storePart v).form.get name = some data) :
    data = v.formFileData ∨ v.form.get name = some data := by
  unfold storePart at h
  by_cases hm : v.fileMark = true
  · rw [hm] at h
    cases hg : v.files.get v.name <;> rw [hg] at h <;> exact .inr h
  · rw [Bool.eq_false_iff.mpr hm] at h
    simp only [Bool.not_false, if_true] at h
    rw [HttpBaseMap.get_add] at h
    split at h
    · cases h
      exact .inl rfl
    · exact .inr h

/-- Only storing a part changes the form. -/
theorem iter_form {bd : Bytes} {v : Vars} (h : v.state ≠ .endContentData) : (iter bd v).form = v.form := by
  obtain ⟨rest, name, filename, type, data, mark, state, form, files⟩ := v
  cases state with
  | endContentData => exact absurd rfl h
  | _ =>
    simp only [iter]
    repeat' split
    all_goals rfl

/-- A part waits to be stored only when the scan has found its end. -/
theorem iter_waits {bd : Bytes} {v : Vars} (h : (iter bd v).state = .endContentData) :
    v.state = .startContentData ∧
      ∃ y, dataLoop bd v.rest v.formFileData [] 0 = ((iter bd v).formFileData, some y) := by
  obtain ⟨rest, name, filename, type, data, mark, state, form, files⟩ := v
  cases state with
  | startContentData =>
    refine ⟨rfl, ?_⟩
    simp only [iter] at h ⊢
    rcases hd : dataLoop bd rest data [] 0 with ⟨data', _ | y⟩
    · rw [hd] at h
      cases h
    · exact ⟨y, rfl⟩
  | endContentData =>
    rw [iter, (storePart_state _).1] at h
    cases h
  | _ =>
    simp only [iter] at h
    repeat' split at h
    all_goals cases h

theorem Uncut.iter {bd : Bytes} {v : Vars} (h : Uncut bd v) (hv : v.rest ≠ []) : Uncut bd (iter bd v) := by
  refine ⟨iter_idle h.idle hv, fun hstate => ?_, fun name data hget => ?_⟩
  · obtain ⟨hdata, y, hy⟩ := iter_waits hstate
    rw [h.idle (by rw [hdata]; exact State.noConfusion) hv] at hy
    exact dataLoop_delimits hy
  · by_cases hstore : v.state = .endContentData
    · rw [HttpMultiPart.iter, hstore] at hget
      rcases storePart_form_get hget with hnew | hold
      · rw [hnew]
        exact h.held hstore
      · exact h.stored name data hold
    · rw [iter_form hstore] at hget
      exact h.stored name data hget

theorem Uncut.turns {bd : Bytes} {v w : Vars} (h : Uncut bd v) (ht : Turns bd v w) : Uncut bd w := by
  induction ht with
  | refl => exact h
  | tail _ hw ih =>
    obtain ⟨hw, rfl⟩ := hw
    exact ih.iter hw

/-- Whatever the body, every value of a fresh object's form is one that the test does not cut. -/
theorem parse_delimits {m m' : HttpMultiPart} {body name data : Bytes} (hm : m.form = .new)
    (h : m.parse body = .ok m') (hget : m'.getValue name = some data) : Delimits m.bd data := by
  obtain ⟨w, hturns, -, rfl⟩ := (parse_ok_iff m m' body).mp h
  have hstart : Uncut m.bd (m.start body) := by
    refine ⟨fun _ _ => rfl, fun hstate => State.noConfusion hstate, fun name data hget => ?_⟩
    rw [start, hm, HttpBaseMap.get_new] at hget
    cases hget
  exact (hstart.turns hturns).stored name data hget

/-! ## What comes back -/

/-- The fields, with their names. -/
def fields (items : List Item) : List (Bytes × Bytes) :=
  items.filterMap fun it => match it with
    | .field name data => some (name, data)
    | .file .. => none

/-- The files of a name. -/
def filesOf (items : List Item) (name : Bytes) : List Part :=
  items.filterMap fun it => match it with
    | .field .. => none
    | .file name' filename type data => if name' = name then some ⟨name', filename, type, data⟩ else none

/-- A field's value is the data last given for its name; the files of a name come back in
    order, each through its pointer. -/
structure Returned (m : HttpMultiPart) (items : List Item) : Prop where
  value : ∀ name data, ((fields items).filter (·.1 = name)).getLast? = some (name, data) → m.getValue name = some data
  file : ∀ name k part, (filesOf items name)[k]? = some part → ∃ p, m.getFile name k = some p ∧ p.read = .ok part

def RoundTrip (boundary : Bytes) (items : List Item) : Prop :=
  ∃ m, (new.setBoundary boundary).parse (render boundary items) = .ok m ∧ Returned m items

/-- A pointer from `getFile` is to an element of a copy that is gone. -/
theorem getFile_dangling {m : HttpMultiPart} {name : Bytes} {k : Nat} {p : PartPtr} (h : m.getFile name k = some p) :
    p.read = .error .dangling := by
  unfold getFile at h
  split at h
  · cases h
  · obtain ⟨q, -, rfl⟩ := Option.map_eq_some_iff.mp h
    rfl

theorem foldl_addTo_form_eq (items : List Item) (m : HttpMultiPart) : (items.foldl Item.addTo m).form =
    ((fields items).map fun p => (kept p.1, p.2)).foldl (fun f p => f.add p.1 p.2) m.form := by
  induction items generalizing m with
  | nil => rfl
  | cons it items ih =>
    rw [List.foldl_cons, ih]
    cases it with
    | field name data => rfl
    | file name filename type data =>
      have hform : (Item.addTo m (.file name filename type data)).form = m.form := by
        simp only [Item.addTo, Item.stored]
        split <;> simp only [addPart] <;> split <;> rfl
      rw [hform]
      rfl

/-- A value is found under what was kept of its name. -/
theorem foldl_addTo_form (items : List Item) (m : HttpMultiPart) (name : Bytes) :
    (items.foldl Item.addTo m).form.get name =
      (((fields items).filter fun p => kept p.1 = name).getLast?.map (·.2)).or (m.form.get name) := by
  rw [foldl_addTo_form_eq, HttpBaseMap.get_foldl_add, List.filter_map, List.getLast?_map, Option.map_map]
  rfl

theorem kept_of_ne {s : Bytes} (h : s.getLast? ≠ some 61) : kept s = s := if_neg h

/-- A name that ends with `=` is not found again, unless a longer one is mistaken for it. -/
theorem kept_eq {s name : Bytes} (h : kept s = name) (hn : name.getLast? = some 61) : s = name ++ [61] := by
  unfold kept at h
  split at h
  · rename_i hs
    rw [← h]
    exact eq_append_of_getLast hs
  · rename_i hs
    rw [h] at hs
    exact absurd hn hs

theorem mem_fields {items : List Item} {p : Bytes × Bytes} : p ∈ fields items ↔ Item.field p.1 p.2 ∈ items := by
  simp only [fields, List.mem_filterMap]
  constructor
  · intro hx
    rcases hx with ⟨it, hit, h⟩
    cases it with
    | field name data => cases h; exact hit
    | file => cases h
  · intro h
    exact ⟨_, h, rfl⟩

theorem exists_last {l : List (Bytes × Bytes)} {p : Bytes × Bytes} (hp : p ∈ l) :
    ∃ data, (l.filter (·.1 = p.1)).getLast? = some (p.1, data) := by
  have hne : l.filter (·.1 = p.1) ≠ [] := List.ne_nil_of_mem (List.mem_filter.mpr ⟨hp, by simp⟩)
  have hlast := List.getLast_mem hne
  simp only [List.mem_filter, decide_eq_true_eq] at hlast
  exact ⟨(List.getLast _ hne).2, (List.getLast?_eq_some_getLast hne).trans (congrArg some (Prod.ext hlast.2 rfl))⟩

/-- When every field's value is returned, no name ends with `=`. -/
theorem name_of_value {items : List Item} {m : HttpMultiPart} (hm : m.form = .new)
    (h : ∀ name data, ((fields items).filter (·.1 = name)).getLast? = some (name, data) →
      (items.foldl Item.addTo m).getValue name = some data) :
    ∀ p ∈ fields items, p.1.getLast? ≠ some 61 := by
  intro p hp hlast
  -- the longest such name: nothing longer is stored under it
  obtain ⟨q, hq, hmax⟩ := Finset.exists_max_image ((fields items).filter fun p => p.1.getLast? = some 61).toFinset
    (fun p => p.1.length) ⟨p, by simp [hp, hlast]⟩
  simp only [List.mem_toFinset, List.mem_filter, decide_eq_true_eq] at hq hmax
  obtain ⟨data, hdata⟩ := exists_last hq.1
  have hget := h q.1 data hdata
  rw [getValue, foldl_addTo_form, hm, HttpBaseMap.get_new, Option.or_none, List.filter_eq_nil_iff.mpr] at hget
  · cases hget
  · intro r hr hk
    have hr1 := kept_eq (of_decide_eq_true hk) hq.2
    have hle := hmax r ⟨hr, by rw [hr1]; simp⟩
    rw [hr1, List.length_append] at hle
    simp at hle

theorem files_nil {items : List Item} (h : ∀ it ∈ items, ∃ name data, it = .field name data) (name : Bytes) :
    filesOf items name = [] := by
  refine List.filterMap_eq_nil_iff.mpr fun it hit => ?_
  obtain ⟨n, d, rfl⟩ := h it hit
  rfl

/-- A file does not come back. -/
theorem Returned.fields {items : List Item} {m : HttpMultiPart} (h : Returned m items) :
    ∀ it ∈ items, ∃ name data, it = .field name data := by
  intro it hit
  cases it with
  | field name data => exact ⟨name, data, rfl⟩
  | file name filename type data =>
    have hmem : (⟨name, filename, type, data⟩ : Part) ∈ filesOf items name :=
      List.mem_filterMap.mpr ⟨_, hit, by simp⟩
    obtain ⟨p, ps, hps⟩ := List.exists_cons_of_ne_nil (List.ne_nil_of_mem hmem)
    obtain ⟨ptr, hptr, hread⟩ := h.file name 0 p (by simp [hps])
    rw [getFile_dangling hptr] at hread
    cases hread

/-- Of the parts added to a fresh object, what was written is found again if it has no file
    and no name that ends with `=`. -/
theorem returned_iff {items : List Item} {m : HttpMultiPart} (hm : m.form = .new) :
    Returned (items.foldl Item.addTo m) items ↔ ∀ it ∈ items, ∃ name data, it = .field name data ∧
    name.getLast? ≠ some 61 := by
  constructor
  · intro hret it hit
    obtain ⟨name, data, rfl⟩ := hret.fields it hit
    exact ⟨name, data, rfl, name_of_value hm hret.value (name, data) (mem_fields.mpr hit)⟩
  · intro h
    refine ⟨fun name data hv => ?_, fun name k part hf => ?_⟩
    · have hkept : ∀ p ∈ fields items, decide (kept p.1 = name) = decide (p.1 = name) := by
        intro p hp
        obtain ⟨n, d, he, hn⟩ := h _ (mem_fields.mp hp)
        cases he
        rw [kept_of_ne hn]
      rw [getValue, foldl_addTo_form, List.filter_congr hkept, hv]
      rfl
    · rw [files_nil fun it hit => (h it hit).imp fun n => Exists.imp fun d => And.left] at hf
      cases hf

/-- No part is a file, and no name ends with `=`. -/
def Plain (items : List Item) : Prop :=
  ∀ it ∈ items, ∃ name data, it = .field name data ∧ name.getLast? ≠ some 61

/-- The name is given other data further on. -/
def Replaced (items : List Item) (name data : Bytes) : Prop :=
  .field name data ∈ items ∧ ((fields items).filter (·.1 = name)).getLast? ≠ some (name, data)

section

variable {boundary : Bytes} {items : List Item}

theorem roundTrip_plain_iff (hq : ∀ it ∈ items, it.Quotable) (hd : ∀ it ∈ items, Delimits boundary it.data) :
    RoundTrip boundary items ↔ Plain items := by
  have hparse : (new.setBoundary boundary).parse (render boundary items) =
    .ok (items.foldl Item.addTo (new.setBoundary boundary)) :=
    parse_render hq hd
  rw [RoundTrip, Plain, ← returned_iff (m := new.setBoundary boundary) rfl]
  constructor
  · intro hx
    rcases hx with ⟨m, hm, hret⟩
    rw [hparse] at hm
    cases hm
    exact hret
  · intro hret
    exact ⟨_, hparse, hret⟩

theorem RoundTrip.fields (h : RoundTrip boundary items) : ∀ it ∈ items, ∃ name data, it = .field name data := by
  obtain ⟨m, -, hret⟩ := h
  exact hret.fields

/-- The data that came back is not cut by the test. -/
theorem RoundTrip.delimits (h : RoundTrip boundary items) {name data : Bytes} (hmem : .field name data ∈ items)
    (hlast : ¬ Replaced items name data) : Delimits boundary data := by
  obtain ⟨m, hm, hret⟩ := h
  have hget := hret.value name data (by_contra fun hne => hlast ⟨hmem, hne⟩)
  exact parse_delimits (m := new.setBoundary boundary) rfl hm hget

/-- What was written comes back when there is no file, no name ends with `=` and the test for
    the delimiter cuts no data; and only then, but that a replaced field may be cut. For a
    boundary without NUL and CR it is the data itself that must not hold the delimiter. -/
theorem roundTrip_iff (hq : ∀ it ∈ items, it.Quotable) :
    (Plain items → (∀ it ∈ items, Delimits boundary it.data) → RoundTrip boundary items) ∧
    (RoundTrip boundary items → (∀ it ∈ items, ∃ name data, it = .field name data) ∧
      ∀ name data, .field name data ∈ items → ¬ Replaced items name data → Delimits boundary data) ∧
    ((∀ name data, Replaced items name data → Delimits boundary data) →
      (RoundTrip boundary items ↔ Plain items ∧ ∀ it ∈ items, Delimits boundary it.data)) ∧
    (0 ∉ boundary → CR ∉ boundary → (∀ it ∈ items, ¬ crlf ++ (lit "--" ++ boundary) <:+: it.data) →
      (RoundTrip boundary items ↔ Plain items)) := by
  refine ⟨fun hplain hd => (roundTrip_plain_iff hq hd).mpr hplain,
    fun h => ⟨h.fields, fun name data hmem hlast => h.delimits hmem hlast⟩, fun hrep => ⟨fun h => ?_, fun h => ?_⟩,
    fun h0 hcr hno => roundTrip_plain_iff hq fun it hit => delimits_of_not_infix h0 hcr (hno it hit)⟩
  · have hd : ∀ it ∈ items, Delimits boundary it.data := by
      intro it hit
      obtain ⟨name, data, rfl⟩ := h.fields it hit
      by_cases hlast : Replaced items name data
      · exact hrep name data hlast
      · exact h.delimits hit hlast
    exact ⟨(roundTrip_plain_iff hq hd).mp h, hd⟩
  · exact (roundTrip_plain_iff hq h.2).mpr h.1

end

theorem roundTrip_two : RoundTrip (lit "b") [.field (lit "k") (lit "1"), .field (lit "k") (lit "2")] :=
  ((roundTrip_iff (by
      simp only [List.mem_cons, List.not_mem_nil, or_false, forall_eq_or_imp, forall_eq]
      exact ⟨⟨by decide, by decide⟩, ⟨by decide, by decide⟩⟩)).2.2.2 (by decide) (by decide) (by decide)).mpr (by
      simp only [Plain, List.mem_cons, List.not_mem_nil, or_false, forall_eq_or_imp, forall_eq]
      exact ⟨⟨_, _, rfl, by decide⟩, ⟨_, _, rfl, by decide⟩⟩)

/-- One file is enough. -/
theorem roundTrip_file : ¬ ∀ (boundary : Bytes) (items : List Item), boundary ≠ [] → (∀ it ∈ items, it.Quotable) →
    (∀ it ∈ items, ¬ crlf ++ (lit "--" ++ boundary) <:+: it.data) → RoundTrip boundary items := by
  intro h
  obtain ⟨m, -, hret⟩ := h (lit "b") [.file (lit "f") (lit "a.txt") (lit "text/plain") (lit "x")] (by decide)
    (by
      simp only [List.mem_cons, List.not_mem_nil, or_false, forall_eq]
      exact ⟨⟨by decide, by decide⟩, ⟨by decide, by decide⟩, ⟨by decide, by decide⟩⟩)
    (by decide)
  obtain ⟨name, data, he⟩ := hret.fields _ List.mem_cons_self
  cases he

end HahaWeb.HttpMultiPart
