/-
  HahaWeb.Http.PartData — the data of a part: the scan of `HttpMultiPart::parse` in
  `start_content_data`.

  The bytes go through a local block of 4096, which is flushed when it is full, and the
  rest of it when the delimiter comes; the `resize` at the end has nothing to cut off.
  Proved: at every place of every body where the machine begins to read data, the data
  is the text up to the first delimiter and the machine stands behind its line end; with
  no delimiter the scan comes to the end of the body and no part is recorded (`collects`).
-/

import HahaWeb.Http.MultiPartTermination

namespace HahaWeb.HttpMultiPart

/-- The delimiter stands at `j`, and before the last four bytes. -/
def DelimiterAt (bd body : Bytes) (j : Nat) : Prop := j + 4 < body.length ∧ lit "\r\n--" ++ bd <+: body.drop j

/-- `j` is the first place from `pi` on where it does. -/
structure FirstDelimiter (bd body : Bytes) (pi j : Nat) : Prop where
  le : pi ≤ j
  here : DelimiterAt bd body j
  least : ∀ k, pi ≤ k → k < j → ¬ DelimiterAt bd body k

/-- The index `i`, at most `len`. -/
def index (body : Bytes) (v : Vars) : Nat := body.length - v.rest.length

/-- What a turn in `start_content_data` does. -/
structure Collects (m : HttpMultiPart) (body : Bytes) (v : Vars) : Prop where
  found : ∀ j, FirstDelimiter m.bd body (index body v) j → index body (iter m.bd v) = j + 2 ∧
    iter m.bd v = { v with
      rest := body.drop (j + 2), formFileData := (body.drop (index body v)).take (j - index body v),
      state := .endContentData }
  ended : (∀ j, index body v ≤ j → ¬ DelimiterAt m.bd body j) → index body (iter m.bd v) = body.length ∧
    m.parse body = .ok { m with form := v.form, files := v.files }

/-! ## The scan -/

theorem atDelimiter_iff {bd : Bytes} (hbd : 0 ∉ bd) (x : Bytes) :
    atDelimiter bd x = true ↔ 4 < x.length ∧ lit "\r\n--" ++ bd <+: x := by
  rw [atDelimiter, Bool.and_eq_true, Bool.and_eq_true, decide_eq_true_eq, List.isPrefixOf_iff_prefix, and_assoc,
    strncmpEq_iff hbd]
  have hdrop : ∀ z, (lit "\r\n--" ++ z).drop 4 = z := fun _ => rfl
  refine and_congr_right fun _ => ⟨fun h => ?_, fun h => ?_⟩
  · obtain ⟨⟨y, rfl⟩, hy⟩ := h
    rw [hdrop] at hy
    exact (List.prefix_append_right_inj _).mpr hy
  · obtain ⟨y, rfl⟩ := h
    rw [List.append_assoc, hdrop]
    exact ⟨List.prefix_append .., List.prefix_append ..⟩

theorem delimiterAt_iff {bd : Bytes} (hbd : 0 ∉ bd) (body : Bytes) (pi k : Nat) :
    atDelimiter bd ((body.drop pi).drop k) = true ↔ DelimiterAt bd body (pi + k) := by
  rw [atDelimiter_iff hbd, DelimiterAt, List.drop_drop, List.length_drop]
  refine and_congr_left fun _ => ?_
  omega

/-- Whatever part of the data is in the block, with the first delimiter after `j` bytes. -/
theorem dataLoop_take {bd : Bytes} (j : Nat) : ∀ {x acc buffer : Bytes} {n : Nat}, n = (acc ++ buffer).length →
    atDelimiter bd (x.drop j) = true → (∀ k < j, atDelimiter bd (x.drop k) = false) →
    dataLoop bd x acc buffer n = (acc ++ buffer ++ x.take j, some (x.drop (j + 2))) := by
  induction j with
  | zero =>
    intro x acc buffer n hn hat _
    rw [List.drop_zero] at hat
    cases x with
    | nil => cases hat
    | cons c rest =>
      have hresize : Buffer.resize (acc ++ buffer) n = acc ++ buffer := by simp [Buffer.resize, hn]
      rw [dataLoop, if_pos hat, hresize, List.take_zero, List.append_nil]
      rfl
  | succ j ih =>
    intro x acc buffer n hn hat hbefore
    cases x with
    | nil => cases hat
    | cons c rest =>
      have hnot : atDelimiter bd (c :: rest) = false := hbefore 0 (Nat.zero_lt_succ j)
      have hrest : ∀ k < j, atDelimiter bd (rest.drop k) = false := fun k hk => hbefore (k + 1) (Nat.succ_lt_succ hk)
      have hlen : n + 1 = (acc ++ (buffer ++ [c])).length := by
        rw [hn]
        simp only [List.length_append, List.length_cons, List.length_nil]
        omega
      rw [dataLoop, hnot, if_neg Bool.false_ne_true]
      split
      · -- the block is full, and the next one is empty
        rw [ih (by rw [hlen, List.append_nil]) hat hrest]
        simp
      · rw [ih hlen hat hrest]
        simp

theorem behind_eq_none {p : Bytes → Bool} {x : Bytes} (h : ∀ k, p (x.drop k) = false) : behind p x = none := by
  induction x with
  | nil => rfl
  | cons c rest ih =>
    rw [behind, show p (c :: rest) = false from h 0, if_neg Bool.false_ne_true]
    exact ih fun k => h (k + 1)

theorem behind_suffix {p : Bytes → Bool} {x y : Bytes} (h : behind p x = some y) : y <:+ x := by
  induction x with
  | nil => cases h
  | cons c rest ih =>
    rw [behind] at h
    split at h
    · cases h
      exact (List.drop_suffix 1 rest).trans (List.suffix_cons c rest)
    · exact (ih h).trans (List.suffix_cons c rest)

theorem Scanned.suffix {p : Bytes → Bool} {x : Bytes} {next : State} {w : Vars} (h : Scanned p x next w) :
    w.rest <:+ x := by
  cases h with
  | ended _ hrest =>
    rw [hrest]
    exact List.nil_suffix
  | found hb hrest _ =>
    rw [hrest]
    exact behind_suffix hb

/-! ## Where the machine stands -/

theorem iter_suffix (bd : Bytes) (v : Vars) : (iter bd v).rest <:+ v.rest := by
  obtain ⟨rest, name, filename, type, data, mark, state, form, files⟩ := v
  cases state with
  | startBody =>
    simp only [iter]
    split
    · exact List.drop_suffix ..
    · exact List.suffix_rfl
  | startBoundary =>
    simp only [iter]
    split
    · split
      · exact (List.drop_suffix ..).trans (List.drop_suffix ..)
      · split
        · exact (List.drop_suffix ..).trans (List.drop_suffix ..)
        · exact List.drop_suffix ..
    · exact List.suffix_rfl
  | endBoundary =>
    simp only [iter]
    split
    · exact List.drop_suffix ..
    · exact List.suffix_rfl
  | startContentDisposition => exact (iter_names bd rfl).suffix.trans (List.drop_suffix ..)
  | endContentDisposition =>
    simp only [iter]
    split
    · exact List.drop_suffix ..
    · split
      · exact List.drop_suffix ..
      · exact List.suffix_rfl
  | startContentType => exact (iter_typeText bd rfl).suffix
  | endContentType =>
    simp only [iter]
    split
    · exact List.drop_suffix ..
    · exact List.suffix_rfl
  | startContentData => exact (iter_data bd rfl).suffix
  | endContentData =>
    rw [iter, (storePart_state _).2]
  | endBody => exact List.drop_suffix ..

/-- No data is held, but between the end of the data and the storing of the part. -/
def Idle (v : Vars) : Prop := v.state ≠ .endContentData → v.rest ≠ [] → v.formFileData = []

theorem iter_idle {bd : Bytes} {v : Vars} (h : Idle v) (hv : v.rest ≠ []) : Idle (iter bd v) := by
  intro hstate hrest
  obtain ⟨rest, name, filename, type, data, mark, state, form, files⟩ := v
  cases state with
  | startContentData =>
    simp only [iter] at hstate hrest
    rcases hd : dataLoop bd rest data [] 0 with ⟨data', _ | y⟩
    · rw [hd] at hrest
      exact absurd rfl hrest
    · rw [hd] at hstate
      exact absurd rfl hstate
  | endContentData => simp only [iter, storePart]
  | startBody | startBoundary | endBoundary | endContentDisposition | endContentType | endBody =>
    have hdata := h State.noConfusion hv
    simp only [iter]
    repeat' split
    all_goals exact hdata
  | startContentDisposition | startContentType =>
    have hdata := h State.noConfusion hv
    simp only [iter]
    split
    all_goals exact hdata

theorem turns_inv {bd body : Bytes} {u v : Vars} (h : Turns bd u v) (hu : u.rest <:+ body ∧ Idle u) :
    v.rest <:+ body ∧ Idle v := by
  induction h with
  | refl => exact hu
  | tail _ hw ih =>
    obtain ⟨hw, rfl⟩ := hw
    exact ⟨(iter_suffix bd _).trans ih.1, iter_idle ih.2 hw⟩

section

variable {bd body : Bytes} {v : Vars} (hstate : v.state = .startContentData) (hrest : v.rest = body.drop (index body v))

include hstate hrest

/-- With a delimiter the turn takes the text before it. -/
theorem iter_delimiter (hbd : 0 ∉ bd) (hidle : Idle v) {j : Nat} (hj : FirstDelimiter bd body (index body v) j) :
    iter bd v = { v with
      rest := body.drop (j + 2), formFileData := (body.drop (index body v)).take (j - index body v),
      state := .endContentData } := by
  obtain ⟨k, rfl⟩ := Nat.exists_eq_add_of_le hj.le
  have hat := (delimiterAt_iff hbd body (index body v) k).mpr hj.here
  have hbefore : ∀ i < k, atDelimiter bd (v.rest.drop i) = false := by
    intro i hi
    rw [hrest]
    refine Bool.eq_false_iff.mpr fun hat => ?_
    exact hj.least _ (Nat.le_add_right ..) (by omega) ((delimiterAt_iff hbd body (index body v) i).mp hat)
  rw [← hrest] at hat
  have hne : v.rest ≠ [] := by
    intro hnil
    rw [hnil, List.drop_nil] at hat
    cases hat
  have hdata : v.formFileData = [] := hidle (by rw [hstate]; exact State.noConfusion) hne
  have hloop : dataLoop bd v.rest v.formFileData [] 0 = _ := dataLoop_take k (by rw [hdata]; rfl) hat hbefore
  have hdrop : v.rest.drop (k + 2) = body.drop (index body v + k + 2) := by
    rw [hrest, List.drop_drop, ← Nat.add_assoc]
  simp only [iter, hstate, hloop]
  rw [hdrop, hdata, List.nil_append, List.nil_append, Nat.add_sub_cancel_left, ← hrest]

/-- Without one it takes all that is left, and no part is stored. -/
theorem iter_no_delimiter (hbd : 0 ∉ bd) (hno : ∀ j, index body v ≤ j → ¬ DelimiterAt bd body j) :
    (iter bd v).rest = [] ∧ (iter bd v).form = v.form ∧ (iter bd v).files = v.files := by
  have hnone : behind (atDelimiter bd) v.rest = none := by
    refine behind_eq_none fun k => Bool.eq_false_iff.mpr fun hat => ?_
    rw [hrest] at hat
    exact hno _ (Nat.le_add_right ..) ((delimiterAt_iff hbd body _ k).mp hat)
  rw [← dataLoop_behind bd v.rest v.formFileData [] 0] at hnone
  simp only [iter, hstate]
  rcases hd : dataLoop bd v.rest v.formFileData [] 0 with ⟨data, _ | y⟩
  · exact ⟨rfl, rfl, rfl⟩
  · rw [hd] at hnone
    cases hnone

end

/-- The data of every part, wherever the machine begins to read it. -/
theorem collects {m : HttpMultiPart} {body : Bytes} {v : Vars} (hbd : 0 ∉ m.bd) (hv : Turns m.bd (m.start body) v)
    (hstate : v.state = .startContentData) : Collects m body v := by
  have hinv : v.rest <:+ body ∧ Idle v := turns_inv hv ⟨List.suffix_rfl, fun _ _ => rfl⟩
  obtain ⟨hsuffix, hidle⟩ := hinv
  have hrest : v.rest = body.drop (index body v) := List.suffix_iff_eq_drop.mp hsuffix
  refine ⟨fun j hj => ?_, fun hno => ?_⟩
  · have hiter := iter_delimiter hstate hrest hbd hidle hj
    refine ⟨?_, hiter⟩
    have hlt := hj.here.1
    rw [hiter, index, List.length_drop]
    omega
  · obtain ⟨hend, hform, hfiles⟩ := iter_no_delimiter hstate hrest hbd hno
    refine ⟨by rw [index, hend]; rfl, (parse_ok_iff m _ body).mpr ?_⟩
    by_cases hnil : v.rest = []
    · exact ⟨v, hv, hnil, rfl⟩
    · exact ⟨_, hv.tail ⟨hnil, rfl⟩, hend, by rw [hform, hfiles]⟩

/-- A field with two bytes of data. -/
theorem collects_two : ∃ v, (0 ∉ (new.setBoundary (lit "b")).bd ∧
    Turns (lit "b") ((new.setBoundary (lit "b")).start
      (lit "--b\r\nContent-Disposition: form-data; name=\"n\"\r\n\r\nxy\r\n--b--\r\n")) v ∧
    v.state = .startContentData) ∧ Collects (new.setBoundary (lit "b"))
      (lit "--b\r\nContent-Disposition: form-data; name=\"n\"\r\n\r\nxy\r\n--b--\r\n") v := by
  have hbd : 0 ∉ (new.setBoundary (lit "b")).bd := by decide
  have hv : Turns (lit "b") ((new.setBoundary (lit "b")).start
      (lit "--b\r\nContent-Disposition: form-data; name=\"n\"\r\n\r\nxy\r\n--b--\r\n")) _ :=
    .tail (.tail (.tail (.tail (.tail .refl ⟨by decide +kernel, rfl⟩) ⟨by decide +kernel, rfl⟩)
      ⟨by decide +kernel, rfl⟩) ⟨by decide +kernel, rfl⟩) ⟨by decide +kernel, rfl⟩
  exact ⟨_, ⟨hbd, hv, by decide +kernel⟩, collects hbd hv (by decide +kernel)⟩

end HahaWeb.HttpMultiPart
