/-
  HahaWeb.Http.MultiPartTermination — the bodies on which `HttpMultiPart::parse` returns.

  `Legible` is a grammar of what may stand before each state of the machine. A body that
  ends early is legible, wherever it ends; a body that has something else where the
  dashes, the boundary, a header name or a line end is due is not. The branches of the
  source that say "bad body, ignored" leave the index and the state as they are, so the
  loop never comes past such a place. Proved: from every state and every position the
  loop comes to the end of the body exactly when what is left is legible (`returns_iff`).
-/

import HahaWeb.Http.HttpMultiPart

namespace HahaWeb.HttpMultiPart

/-! ## The grammar -/

/-- The text from two bytes behind the first place where `p` holds. -/
def behind (p : Bytes → Bool) : Bytes → Option Bytes
  | [] => none
  | c :: rest => if p (c :: rest) then some (rest.drop 1) else behind p rest

def lineEnd (x : Bytes) : Bool := crlf.isPrefixOf x

inductive Legible (bd : Bytes) : State → Bytes → Prop
  | ended (s : State) : Legible bd s []
  | dashes {x : Bytes} : Legible bd .startBoundary x → Legible bd .startBody (lit "--" ++ x)
  | boundary {x y : Bytes} : strncmpEq x bd bd.length = true → x.drop bd.length = crlf ++ y →
      Legible bd .endBoundary y → Legible bd .startBoundary x
  | closing {x y : Bytes} : strncmpEq x bd bd.length = true → x.drop bd.length = lit "--" ++ y →
      Legible bd .startBoundary x
  /-- A boundary with neither behind it is skipped, and must come again. -/
  | again {x : Bytes} : strncmpEq x bd bd.length = true → ¬ crlf <+: x.drop bd.length →
    ¬ lit "--" <+: x.drop bd.length →
      bd ≠ [] → Legible bd .startBoundary (x.drop bd.length) → Legible bd .startBoundary x
  | disposition {x : Bytes} : strncasecmpEq x (lit "Content-Disposition") 19 = true →
      Legible bd .startContentDisposition (x.drop 19) → Legible bd .endBoundary x
  | names {x : Bytes} : (∀ y, behind lineEnd (x.drop 13) = some y → Legible bd .endContentDisposition y) →
      Legible bd .startContentDisposition x
  | noType {x : Bytes} : Legible bd .startContentData x → Legible bd .endContentDisposition (crlf ++ x)
  | type {x : Bytes} : strncasecmpEq x (lit "Content-Type") 12 = true → Legible bd .startContentType (x.drop 14) →
      Legible bd .endContentDisposition x
  | typeText {x : Bytes} : (∀ y, behind lineEnd x = some y → Legible bd .endContentType y) →
      Legible bd .startContentType x
  | headEnd {x : Bytes} : Legible bd .startContentData x → Legible bd .endContentType (crlf ++ x)
  | data {x : Bytes} : (∀ y, behind (atDelimiter bd) x = some y → Legible bd .endContentData y) →
      Legible bd .startContentData x
  | part {x : Bytes} : Legible bd .startBody x → Legible bd .endContentData x
  | epilogue (x : Bytes) : Legible bd .endBody x

/-! ## Where the inner loops stop -/

theorem lineEnd_cons (c d : UInt8) (rest : Bytes) : lineEnd (c :: d :: rest) = true ↔ c = CR ∧ d = LF := by
  rw [lineEnd, List.isPrefixOf_iff_prefix, crlf, List.cons_prefix_cons, List.cons_prefix_cons]
  constructor
  · intro h
    exact ⟨h.1.symm, h.2.1.symm⟩
  · intro h
    exact ⟨h.1.symm, h.2.symm, List.nil_prefix⟩

theorem behind_lineEnd_single (c : UInt8) : behind lineEnd [c] = none := by
  simp [behind, lineEnd, crlf]

theorem behind_lineEnd_skip {c d : UInt8} (rest : Bytes) (h : ¬ (c = CR ∧ d = LF)) :
    behind lineEnd (c :: d :: rest) = behind lineEnd (d :: rest) := by
  rw [behind, if_neg ((lineEnd_cons c d rest).not.mpr h)]

theorem dispositionLoop_behind (x : Bytes) (start isName : Bool) (name filename : Bytes) :
    (dispositionLoop x start isName name filename).2.2 = behind lineEnd x := by
  fun_induction dispositionLoop x start isName name filename with
  | case1 => rfl
  | case2 | case3 | case4 | case5 => exact (behind_lineEnd_single _).symm
  | case6 c d rest _ _ _ _ h => rw [behind, if_pos ((lineEnd_cons c d rest).mpr h)]; rfl
  | case7 c d rest _ _ _ _ h he ih =>
    -- the closing quote is no line feed, so no line end begins at it or before it
    have hd : ¬ d = CR := by rw [he.2]; decide
    rw [ih, behind_lineEnd_skip rest h]
    cases rest with
    | nil => rw [behind_lineEnd_single, behind]
    | cons e rest => rw [behind_lineEnd_skip rest fun hh => hd hh.1]
  | case8 _ _ _ _ _ _ h _ ih => rw [ih, behind_lineEnd_skip _ h]
  | case9 _ _ rest _ _ h _ _ ih => rw [ih, behind_lineEnd_skip rest h]
  | case10 _ _ rest _ _ _ h _ _ _ ih => rw [ih, behind_lineEnd_skip rest h]
  | case11 _ _ rest _ _ _ _ h _ _ _ ih => rw [ih, behind_lineEnd_skip rest h]

theorem typeLoop_behind (x type : Bytes) : (typeLoop x type).2 = behind lineEnd x := by
  fun_induction typeLoop x type with
  | case1 => rfl
  | case2 type c rest h => rw [behind, lineEnd, if_pos (List.isPrefixOf_iff_prefix.mpr h)]
  | case3 type c rest h ih => rw [ih, behind, lineEnd, if_neg (by simpa using h)]

theorem dataLoop_behind (bd x acc buffer : Bytes) (n : Nat) :
    (dataLoop bd x acc buffer n).2 = behind (atDelimiter bd) x := by
  fun_induction dataLoop bd x acc buffer n with
  | case1 => rfl
  | case2 acc buffer n c rest h => rw [behind, if_pos h]
  | case3 acc buffer n c rest h _ ih => rw [ih, behind, if_neg h]
  | case4 acc buffer n c rest h _ ih => rw [ih, behind, if_neg h]

/-! ## One turn -/

theorem crlf_prefix_not_type {x : Bytes} (h : crlf <+: x) : strncasecmpEq x (lit "Content-Type") 12 = false := by
  obtain ⟨y, hy⟩ := h
  rw [← hy]
  rfl

theorem storePart_state (v : Vars) : (storePart v).state = .startBody ∧ (storePart v).rest = v.rest := by
  unfold storePart
  by_cases hm : v.fileMark = true
  · rw [hm]
    cases v.files.get v.name with
    | none => exact ⟨rfl, rfl⟩
    | some => exact ⟨rfl, rfl⟩
  · rw [Bool.eq_false_iff.mpr hm]
    exact ⟨rfl, rfl⟩

/-- A turn over `x` that ends behind the first place where `p` holds, or with the body. -/
inductive Scanned (p : Bytes → Bool) (x : Bytes) (next : State) (w : Vars) : Prop
  | ended : behind p x = none → w.rest = [] → Scanned p x next w
  | found {y : Bytes} : behind p x = some y → w.rest = y → w.state = next → Scanned p x next w

section

variable {v : Vars}

theorem iter_names (bd : Bytes) (hs : v.state = .startContentDisposition) :
    Scanned lineEnd (v.rest.drop 13) .endContentDisposition (iter bd v) := by
  have hr := dispositionLoop_behind (v.rest.drop 13) false true v.name v.filename
  simp only [iter, hs]
  rcases hd : dispositionLoop (v.rest.drop 13) false true v.name v.filename with ⟨name, filename, _ | y⟩
  · exact .ended (by rw [← hr, hd]) rfl
  · exact .found (by rw [← hr, hd]) rfl rfl

theorem iter_typeText (bd : Bytes) (hs : v.state = .startContentType) :
    Scanned lineEnd v.rest .endContentType (iter bd v) := by
  have hr := typeLoop_behind v.rest v.type
  simp only [iter, hs]
  rcases hd : typeLoop v.rest v.type with ⟨type, _ | y⟩
  · exact .ended (by rw [← hr, hd]) rfl
  · exact .found (by rw [← hr, hd]) rfl rfl

theorem iter_data (bd : Bytes) (hs : v.state = .startContentData) :
    Scanned (atDelimiter bd) v.rest .endContentData (iter bd v) := by
  have hr := dataLoop_behind bd v.rest v.formFileData [] 0
  simp only [iter, hs]
  rcases hd : dataLoop bd v.rest v.formFileData [] 0 with ⟨data, _ | y⟩
  · exact .ended (by rw [← hr, hd]) rfl
  · exact .found (by rw [← hr, hd]) rfl rfl

variable {w : Vars} {p : Bytes → Bool} {x : Bytes} {next : State}

theorem Scanned.ne (h : Scanned p x next w) (hv : v.rest ≠ []) (hs : next ≠ v.state) : w ≠ v := by
  cases h with
  | ended _ hrest => exact fun he => hv (by rw [← he, hrest])
  | found _ _ hstate => exact fun he => hs (by rw [← he, hstate])

theorem Scanned.legible_iff {bd : Bytes} (h : Scanned p x next w) :
    Legible bd w.state w.rest ↔ ∀ y, behind p x = some y → Legible bd next y := by
  cases h with
  | ended hb hrest =>
    rw [hrest]
    refine iff_of_true (.ended _) fun y hy => ?_
    rw [hb] at hy
    cases hy
  | found hb hrest hstate =>
    rw [hrest, hstate]
    refine ⟨fun hl y hy => ?_, fun hl => hl _ hb⟩
    rw [hb] at hy
    cases hy
    exact hl

end

/-- Before a legible rest the loop is not stuck, and the turn leaves a legible rest. -/
theorem Legible.iter {bd : Bytes} {v : Vars} (h : Legible bd v.state v.rest) (hv : v.rest ≠ []) :
    iter bd v ≠ v ∧ Legible bd (iter bd v).state (iter bd v).rest := by
  have hstate : ∀ w : Vars, w.state ≠ v.state → w ≠ v := by
    intro w hw he
    exact hw (by rw [he])
  obtain ⟨rest, name, filename, type, data, mark, state, form, files⟩ := v
  simp only at h hv
  cases h with
  | ended => exact absurd rfl hv
  | @dashes x hx =>
    simp only [HttpMultiPart.iter, if_pos (List.prefix_append (lit "--") x)]
    exact ⟨hstate _ (by simp), hx⟩
  | @boundary _ y hb hy hl =>
    simp only [HttpMultiPart.iter, hb, if_true, hy, if_pos (List.prefix_append crlf y)]
    exact ⟨hstate _ (by simp), hl⟩
  | @closing _ y hb hy =>
    have hno : ¬ crlf <+: lit "--" ++ y := by simp [crlf, lit, CR]
    simp only [HttpMultiPart.iter, hb, if_true, hy, if_neg hno, if_pos (List.prefix_append (lit "--") y)]
    exact ⟨hstate _ (by simp), .epilogue _⟩
  | again hb h1 h2 hbd hl =>
    simp only [HttpMultiPart.iter, hb, if_true, if_neg h1, if_neg h2]
    refine ⟨?_, hl⟩
    intro he
    have hlen := congrArg (fun v : Vars => v.rest.length) he
    have := List.length_pos_iff.mpr hbd
    have := List.length_pos_iff.mpr hv
    simp only [List.length_drop] at hlen
    omega
  | disposition hd hl =>
    simp only [HttpMultiPart.iter, hd, if_true]
    exact ⟨hstate _ (by simp), hl⟩
  | names hl =>
    have hscan := iter_names bd
      (v := ⟨rest, name, filename, type, data, mark, .startContentDisposition, form, files⟩) rfl
    exact ⟨hscan.ne hv State.noConfusion, hscan.legible_iff.mpr hl⟩
  | @noType x hl =>
    simp only [HttpMultiPart.iter, if_pos (List.prefix_append crlf x)]
    exact ⟨hstate _ (by simp), hl⟩
  | type ht hl =>
    have hno : ¬ crlf <+: rest := by
      intro hc
      rw [crlf_prefix_not_type hc] at ht
      cases ht
    simp only [HttpMultiPart.iter, if_neg hno, ht, if_true]
    exact ⟨hstate _ (by simp), hl⟩
  | typeText hl =>
    have hscan := iter_typeText bd (v := ⟨rest, name, filename, type, data, mark, .startContentType, form, files⟩) rfl
    exact ⟨hscan.ne hv State.noConfusion, hscan.legible_iff.mpr hl⟩
  | @headEnd x hl =>
    simp only [HttpMultiPart.iter, if_pos (List.prefix_append crlf x)]
    exact ⟨hstate _ (by simp), hl⟩
  | data hl =>
    have hscan := iter_data bd (v := ⟨rest, name, filename, type, data, mark, .startContentData, form, files⟩) rfl
    exact ⟨hscan.ne hv State.noConfusion, hscan.legible_iff.mpr hl⟩
  | part hl =>
    obtain ⟨hs, hr⟩ := storePart_state ⟨rest, name, filename, type, data, mark, .endContentData, form, files⟩
    refine ⟨hstate _ ?_, ?_⟩
    · rw [HttpMultiPart.iter, hs]
      simp
    · rw [HttpMultiPart.iter, hs, hr]
      exact hl
  | epilogue =>
    refine ⟨?_, .epilogue _⟩
    intro he
    have hlen := congrArg (fun v : Vars => v.rest.length) he
    have := List.length_pos_iff.mpr hv
    simp only [HttpMultiPart.iter, List.length_drop] at hlen
    omega

/-- A turn that changes something finds what is due at its place. -/
theorem legible_of_iter {bd : Bytes} {v : Vars} (hne : iter bd v ≠ v)
    (h : Legible bd (iter bd v).state (iter bd v).rest) :
    Legible bd v.state v.rest := by
  obtain ⟨rest, name, filename, type, data, mark, state, form, files⟩ := v
  cases state with
  | startBody =>
    by_cases hd : lit "--" <+: rest
    · simp only [iter, if_pos hd] at h
      obtain ⟨x, rfl⟩ := hd
      exact .dashes h
    · exact absurd (by simp only [iter, if_neg hd]) hne
  | startBoundary =>
    by_cases hb : strncmpEq rest bd bd.length = true
    · simp only [iter, hb, if_true] at h hne
      by_cases h1 : crlf <+: rest.drop bd.length
      · simp only [if_pos h1] at h
        obtain ⟨y, hy⟩ := h1
        rw [← hy] at h
        exact .boundary hb hy.symm h
      · by_cases h2 : lit "--" <+: rest.drop bd.length
        · obtain ⟨y, hy⟩ := h2
          exact .closing hb hy.symm
        · simp only [if_neg h1, if_neg h2] at h hne
          refine .again hb h1 h2 ?_ h
          intro hbd
          exact hne (by rw [hbd]; rfl)
    · exact absurd (by simp only [iter, if_neg hb]) hne
  | endBoundary =>
    by_cases hd : strncasecmpEq rest (lit "Content-Disposition") 19 = true
    · simp only [iter, hd, if_true] at h
      exact .disposition hd h
    · exact absurd (by simp only [iter, if_neg hd]) hne
  | startContentDisposition => exact .names ((iter_names bd rfl).legible_iff.mp h)
  | endContentDisposition =>
    by_cases hc : crlf <+: rest
    · simp only [iter, if_pos hc] at h
      obtain ⟨x, rfl⟩ := hc
      exact .noType h
    · by_cases ht : strncasecmpEq rest (lit "Content-Type") 12 = true
      · simp only [iter, if_neg hc, ht, if_true] at h
        exact .type ht h
      · exact absurd (by simp only [iter, if_neg hc, if_neg ht]) hne
  | startContentType => exact .typeText ((iter_typeText bd rfl).legible_iff.mp h)
  | endContentType =>
    by_cases hc : crlf <+: rest
    · simp only [iter, if_pos hc] at h
      obtain ⟨x, rfl⟩ := hc
      exact .headEnd h
    · exact absurd (by simp only [iter, if_neg hc]) hne
  | startContentData => exact .data ((iter_data bd rfl).legible_iff.mp h)
  | endContentData =>
    obtain ⟨hs, hr⟩ := storePart_state ⟨rest, name, filename, type, data, mark, .endContentData, form, files⟩
    rw [iter, hs, hr] at h
    exact .part h
  | endBody => exact .epilogue rest

/-! ## The whole loop -/

theorem legible_of_turns {bd : Bytes} {v w : Vars} (h : Turns bd v w) (hw : w.rest = []) :
    Legible bd v.state v.rest := by
  induction h using Relation.ReflTransGen.head_induction_on with
  | refl =>
    rw [hw]
    exact .ended _
  | @head v u hv _ ih =>
    obtain ⟨-, rfl⟩ := hv
    by_cases hne : iter bd v = v
    · rwa [hne] at ih
    · exact legible_of_iter hne ih

theorem Legible.turns {bd : Bytes} {v : Vars} (h : Legible bd v.state v.rest) : ∃ w, Turns bd v w ∧ w.rest = [] := by
  induction hk : work v using Nat.strongRecOn generalizing v with
  | ind k ih =>
    by_cases hv : v.rest = []
    · exact ⟨v, .refl, hv⟩
    · obtain ⟨hne, hl⟩ := h.iter hv
      rcases iter_turns bd hv with hi | hi
      · exact absurd hi hne
      · obtain ⟨w, hw, hend⟩ := ih _ (hk ▸ hi) hl rfl
        exact ⟨w, .head ⟨hv, rfl⟩ hw, hend⟩

/-- From any state and position the loop comes to the end of the body exactly when what is
    left is legible there. -/
theorem returns_iff (bd : Bytes) (v : Vars) : (∃ w, Turns bd v w ∧ w.rest = []) ↔ Legible bd v.state v.rest := by
  constructor
  · intro h
    obtain ⟨w, hw, hend⟩ := h
    exact legible_of_turns hw hend
  · exact Legible.turns

/-- A body that does not begin with the dashes. -/
theorem returns_x : ¬ ∀ (bd : Bytes) (v : Vars), ∃ w, Turns bd v w ∧ w.rest = [] := by
  intro h
  obtain ⟨w, hw, hend⟩ := h (lit "b") ((HttpMultiPart.new.setBoundary (lit "b")).start (lit "x"))
  have hstuck : ∀ u, Turns (lit "b") ((HttpMultiPart.new.setBoundary (lit "b")).start (lit "x")) u →
      u = (HttpMultiPart.new.setBoundary (lit "b")).start (lit "x") := by
    intro u hu
    induction hu with
    | refl => rfl
    | tail _ hu ih =>
      rw [hu.2, ih]
      rfl
  rw [hstuck w hw] at hend
  cases hend

/-- `parse` begins at the start of the body. -/
theorem parse_ok_iff_legible (m : HttpMultiPart) (body : Bytes) :
    (∃ m', m.parse body = .ok m') ↔ Legible m.bd .startBody body := by
  constructor
  · intro h
    obtain ⟨m', hm⟩ := h
    obtain ⟨w, hw, hend, -⟩ := (parse_ok_iff m m' body).mp hm
    exact legible_of_turns hw hend
  · intro h
    obtain ⟨w, hw, hend⟩ := Legible.turns (v := m.start body) h
    exact ⟨_, (parse_ok_iff m _ body).mpr ⟨w, hw, hend, rfl⟩⟩

end HahaWeb.HttpMultiPart
