/-
  HahaWeb.Http.HttpMultiPart — `http/HttpMultiPart`: the form and the files of a
  multipart body.

  `Vars` are the variables of `parse` with the members it changes; the index `i` is
  held as the body from `i` on (`rest`), so `i < len` is `rest ≠ []` and `iter` is one
  turn of the outer loop. The view is that of a `std::string`: a NUL follows its bytes,
  and the C comparisons stop there.

  A turn that finds a bad body changes nothing, and the loop goes round for ever. Every
  other turn consumes bytes, or finishes a part (`iter_turns`). Proved: `parse` returns
  exactly when the loop comes to the end of the body (`parse_ok_iff`), and its result is
  the state there.
-/

import HahaWeb.Base.Buffer
import HahaWeb.Http.HttpMap
import Mathlib.Data.List.GetD
import Mathlib.Logic.Relation

namespace HahaWeb

/-! ## C string comparison -/

/-- `strncmp(a, b, n) == 0`, the bytes compared after `f`. -/
def strncmpBy (f : UInt8 → UInt8) (a b : Bytes) : Nat → Bool
  | 0 => true
  | n + 1 =>
    if f (a.headD 0) ≠ f (b.headD 0) then false
    else if a.headD 0 = 0 then true
    else strncmpBy f a.tail b.tail n

def strncmpEq : Bytes → Bytes → Nat → Bool := strncmpBy id

def strncasecmpEq : Bytes → Bytes → Nat → Bool := strncmpBy tolower

theorem strncmpBy_append (f : UInt8 → UInt8) (b z : Bytes) : strncmpBy f (b ++ z) b b.length = true := by
  induction b with
  | nil => rfl
  | cons c b ih =>
    simp only [strncmpBy, List.cons_append, List.length_cons, List.headD_cons, List.tail_cons, ne_eq, not_true_eq_false,
      if_false, ih, ite_self]

/-- Against a string without NUL the comparison is that of the bytes. -/
theorem strncmpEq_iff {b : Bytes} (hb : 0 ∉ b) (a : Bytes) : strncmpEq a b b.length = true ↔ b <+: a := by
  induction b generalizing a with
  | nil => simp [strncmpEq, strncmpBy]
  | cons c b ih =>
    have hc : c ≠ 0 := fun h => hb (by simp [h])
    have hb' : 0 ∉ b := fun h => hb (List.mem_cons_of_mem _ h)
    cases a with
    | nil => simp [strncmpEq, strncmpBy, hc.symm]
    | cons d a =>
      simp only [strncmpEq, strncmpBy, List.length_cons, List.headD_cons, List.tail_cons, id, List.cons_prefix_cons]
      by_cases hd : d = c
      · subst hd
        simpa [hc, strncmpEq] using ih hb' a
      · simp [hd, Ne.symm hd]

/-- Behind a part without NUL the comparison goes on with the rest. -/
theorem strncmpEq_append {p : Bytes} (hp : 0 ∉ p) (a b : Bytes) (n : Nat) :
    strncmpEq a (p ++ b) (p.length + n) = true ↔ p <+: a ∧ strncmpEq (a.drop p.length) b n = true := by
  induction p generalizing a with
  | nil => simp
  | cons c p ih =>
    have hc : c ≠ 0 := fun h => hp (by simp [h])
    have ih := ih (fun h => hp (List.mem_cons_of_mem _ h))
    rw [List.cons_append, List.length_cons, Nat.add_right_comm]
    cases a with
    | nil => simp [strncmpEq, strncmpBy, hc.symm]
    | cons d a =>
      simp only [strncmpEq, strncmpBy, List.headD_cons, List.tail_cons, id, List.cons_prefix_cons,
        List.drop_succ_cons] at ih ⊢
      by_cases hd : d = c
      · subst hd
        simpa [hc] using ih a
      · simp [hd, Ne.symm hd]

/-- The bytes agree up to the first NUL, which an end is, too. -/
theorem strncmpEq_iff_getD (a b : Bytes) (n : Nat) : strncmpEq a b n = true ↔
    ∀ i < n, (∀ j < i, b.getD j 0 ≠ 0) → a.getD i 0 = b.getD i 0 := by
  induction n generalizing a b with
  | zero => simp [strncmpEq, strncmpBy]
  | succ n ih =>
    have hzero : ∀ l : Bytes, l.headD 0 = l.getD 0 0 := by intro l; cases l <;> rfl
    have hsucc : ∀ (l : Bytes) i, l.tail.getD i 0 = l.getD (i + 1) 0 := by intro l i; cases l <;> rfl
    have ih := ih a.tail b.tail
    simp only [strncmpEq, hsucc] at ih
    simp only [strncmpEq, strncmpBy, id, hzero]
    by_cases hne : a.getD 0 0 = b.getD 0 0
    · rw [if_neg (not_not_intro hne)]
      by_cases hnul : a.getD 0 0 = 0
      · rw [if_pos hnul]
        refine iff_of_true rfl fun i _ hb => ?_
        cases i with
        | zero => exact hne
        | succ i => exact absurd (hne.symm.trans hnul) (hb 0 (Nat.zero_lt_succ i))
      · rw [if_neg hnul, ih]
        constructor
        · intro h i hi hb
          cases i with
          | zero => exact hne
          | succ i => exact h i (Nat.lt_of_succ_lt_succ hi) fun j hj => hb (j + 1) (Nat.succ_lt_succ hj)
        · intro h i hi hb
          refine h (i + 1) (Nat.succ_lt_succ hi) fun j hj => ?_
          cases j with
          | zero => exact fun h0 => hnul (hne.trans h0)
          | succ j => exact hb j (Nat.lt_of_succ_lt_succ hj)
    · rw [if_pos hne]
      refine iff_of_false Bool.false_ne_true fun h => hne ?_
      exact h 0 (Nat.zero_lt_succ n) fun j hj => absurd hj (Nat.not_lt_zero j)

/-! ## Parts -/

structure Part where
  name : Bytes
  fileName : Bytes
  fileType : Bytes
  data : Bytes
  deriving DecidableEq, Repr

/-- Where an object lives: in a member, or in the frame of the call that made it. -/
inductive Storage where
  | member
  | frame
  deriving DecidableEq, Repr

/-- `Part *`, not null. -/
structure PartPtr where
  storage : Storage
  part : Part
  deriving DecidableEq, Repr

/-- Reading through a pointer when the call it comes from has returned. -/
def PartPtr.read (p : PartPtr) : Except Fault Part :=
  match p.storage with
  | .member => .ok p.part
  | .frame => .error .dangling

structure HttpMultiPart where
  bd : Bytes
  form : HttpMap .yes
  files : HttpBaseMap (List Part) .yes

namespace HttpMultiPart

def new : HttpMultiPart := ⟨[], .new, .new⟩

def setBoundary (m : HttpMultiPart) (boundary : Bytes) : HttpMultiPart := { m with bd := boundary }
def getBoundary (m : HttpMultiPart) : Bytes := m.bd

def getValue (m : HttpMultiPart) (name : Bytes) : Option Bytes := m.form.get name

/-- `getFile`, `none` for the null pointer. `files_.get` copies the vector into the local
    `it`, and the pointer is to an element of that copy. -/
def getFile (m : HttpMultiPart) (name : Bytes) (index : Nat) : Option PartPtr :=
  match m.files.get name with
  | none => none
  | some it => it[index]?.map fun p => ⟨.frame, p⟩

/-! ## The state machine -/

inductive State where
  | startBody
  | startBoundary
  | endBoundary
  | startContentDisposition
  | endContentDisposition
  | startContentType
  | endContentType
  | startContentData
  | endContentData
  | endBody
  deriving DecidableEq, Repr

structure Vars where
  rest : Bytes
  name : Bytes
  filename : Bytes
  type : Bytes
  formFileData : Bytes
  fileMark : Bool
  state : State
  form : HttpMap .yes
  files : HttpBaseMap (List Part) .yes

def bufSize : Nat := 4096

/-- The loop of `start_content_disposition`: name and filename, and the body behind the
    line, `none` when it ends first. -/
def dispositionLoop : Bytes → Bool → Bool → Bytes → Bytes → Bytes × Bytes × Option Bytes
  | [], _, _, name, filename => (name, filename, none)
  | [c], start, isName, name, filename =>
    if c = 34 then (name, filename, none)
    else if start then if isName then (name ++ [c], filename, none) else (name, filename ++ [c], none)
    else (name, filename, none)
  | c :: d :: rest, start, isName, name, filename =>
    if c = CR ∧ d = LF then (name, filename, some rest)
    else if c = 61 ∧ d = 34 then dispositionLoop rest true isName name filename
    else if c = 34 then dispositionLoop (d :: rest) false (!isName) name filename
    else if start then
      if isName then dispositionLoop (d :: rest) start isName (name ++ [c]) filename
      else dispositionLoop (d :: rest) start isName name (filename ++ [c])
    else dispositionLoop (d :: rest) start isName name filename

/-- The loop of `start_content_type`. -/
def typeLoop : Bytes → Bytes → Bytes × Option Bytes
  | [], type => (type, none)
  | c :: rest, type => if crlf <+: c :: rest then (type, some (rest.drop 1)) else typeLoop rest (type ++ [c])

/-- The test for the delimiter, at the body from `i` on. -/
def atDelimiter (bd rest : Bytes) : Bool :=
  4 < rest.length && (lit "\r\n--").isPrefixOf rest && strncmpEq (rest.drop 4) bd bd.length

/-- The loop of `start_content_data`: `acc` is `form_file_data`, `buffer` the bytes up to
    `k` of the local array, `n` is `i - pi`. -/
def dataLoop (bd : Bytes) : Bytes → Bytes → Bytes → Nat → Bytes × Option Bytes
  | [], acc, _, _ => (acc, none)
  | c :: rest, acc, buffer, n =>
    if atDelimiter bd (c :: rest) then (Buffer.resize (acc ++ buffer) n, some (rest.drop 1))
    else if bufSize ≤ (buffer ++ [c]).length then dataLoop bd rest (acc ++ (buffer ++ [c])) [] (n + 1)
    else dataLoop bd rest acc (buffer ++ [c]) (n + 1)

/-- `end_content_data`. A further file of a name is appended to the copy `x` of the
    vector, which is gone with the block. -/
def storePart (v : Vars) : Vars :=
  let v' := if !v.fileMark then { v with form := v.form.add v.name v.formFileData }
    else match v.files.get v.name with
      | some _ => v
      | none => { v with files := v.files.add v.name [⟨v.name, v.filename, v.type, v.formFileData⟩] }
  { v' with name := [], filename := [], type := [], formFileData := [], fileMark := false, state := .startBody }

/-- One turn of the loop. -/
def iter (bd : Bytes) (v : Vars) : Vars :=
  match v.state with
  | .startBody =>
    if lit "--" <+: v.rest then { v with rest := v.rest.drop 2, state := .startBoundary } else v
  | .startBoundary =>
    if strncmpEq v.rest bd bd.length then
      let rest := v.rest.drop bd.length
      if crlf <+: rest then { v with rest := rest.drop 2, state := .endBoundary }
      else if lit "--" <+: rest then { v with rest := rest.drop 2, state := .endBody }
      else { v with rest := rest }
    else v
  | .endBoundary =>
    if strncasecmpEq v.rest (lit "Content-Disposition") 19 then
      { v with rest := v.rest.drop 19, state := .startContentDisposition }
    else v
  | .startContentDisposition =>
    match dispositionLoop (v.rest.drop 13) false true v.name v.filename with
    | (name, filename, some rest) =>
      { v with rest := rest, name := name, filename := filename, state := .endContentDisposition }
    | (name, filename, none) => { v with rest := [], name := name, filename := filename }
  | .endContentDisposition =>
    if crlf <+: v.rest then { v with rest := v.rest.drop 2, fileMark := false, state := .startContentData }
    else if strncasecmpEq v.rest (lit "Content-Type") 12 then
      { v with rest := v.rest.drop 14, fileMark := true, state := .startContentType }
    else v
  | .startContentType =>
    match typeLoop v.rest v.type with
    | (type, some rest) => { v with rest := rest, type := type, state := .endContentType }
    | (type, none) => { v with rest := [], type := type }
  | .endContentType => if crlf <+: v.rest then { v with rest := v.rest.drop 2, state := .startContentData } else v
  | .startContentData =>
    match dataLoop bd v.rest v.formFileData [] 0 with
    | (data, some rest) => { v with rest := rest, formFileData := data, state := .endContentData }
    | (data, none) => { v with rest := [], formFileData := data }
  | .endContentData => storePart v
  | .endBody => { v with rest := v.rest.drop 2 }

def loop (bd : Bytes) : Nat → Vars → Except Fault Vars
  | 0, _ => .error .hang
  | fuel + 1, v => if v.rest.isEmpty then .ok v else loop bd fuel (iter bd v)

def start (m : HttpMultiPart) (body : Bytes) : Vars := ⟨body, [], [], [], [], false, .startBody, m.form, m.files⟩

def parse (m : HttpMultiPart) (body : Bytes) : Except Fault HttpMultiPart := do
  let v ← loop m.bd (2 * body.length + 1) (m.start body)
  .ok { m with form := v.form, files := v.files }

/-! ## Every turn goes on, or the loop is stuck -/

/-- Turns of the loop, none taken at the end of the body. -/
abbrev Turns (bd : Bytes) : Vars → Vars → Prop := Relation.ReflTransGen fun v w => v.rest ≠ [] ∧ w = iter bd v

/-- The bytes left, and the part still to be stored. -/
def work (v : Vars) : Nat := 2 * v.rest.length + if v.state = .endContentData then 1 else 0

theorem dispositionLoop_shorter (x : Bytes) (start isName : Bool) (name filename : Bytes) :
    ∀ {name' filename' y}, dispositionLoop x start isName name filename = (name', filename', some y) →
      y.length < x.length := by
  fun_induction dispositionLoop x start isName name filename <;> intro name' filename' y h <;>
    simp_all <;> grind

theorem typeLoop_shorter (x type : Bytes) : ∀ {type' y}, typeLoop x type = (type', some y) → y.length < x.length := by
  fun_induction typeLoop x type <;> intro type' y h <;> simp_all <;> grind

theorem dataLoop_shorter (bd x acc buffer : Bytes) (n : Nat) :
    ∀ {data y}, dataLoop bd x acc buffer n = (data, some y) → y.length + 2 ≤ x.length := by
  fun_induction dataLoop bd x acc buffer n <;> intro data y h
  · simp at h
  · rename_i ha
    simp only [atDelimiter, Bool.and_eq_true, decide_eq_true_eq, List.length_cons] at ha
    simp only [Prod.mk.injEq, Option.some.injEq] at h
    rw [← h.2]
    simp only [List.length_drop, List.length_cons]
    omega
  · rename_i ih
    have := ih h
    simp only [List.length_cons]
    omega
  · rename_i ih
    have := ih h
    simp only [List.length_cons]
    omega

theorem work_lt_of_shorter {v w : Vars} (h : w.rest.length < v.rest.length) : work w < work v := by
  unfold work
  split <;> split <;> omega

theorem work_lt_of_drop {v w : Vars} {n : Nat} (hn : 0 < n) (hv : v.rest ≠ []) (h : w.rest = v.rest.drop n) :
    work w < work v := by
  have hpos := List.length_pos_iff.mpr hv
  apply work_lt_of_shorter
  rw [h, List.length_drop]
  omega

/-- A turn before the end of the body leaves less to do, or it changes nothing. -/
theorem iter_turns (bd : Bytes) {v : Vars} (hv : v.rest ≠ []) : iter bd v = v ∨ work (iter bd v) < work v := by
  have hpos : 0 < v.rest.length := List.length_pos_iff.mpr hv
  obtain ⟨rest, name, filename, type, data, mark, state, form, files⟩ := v
  simp only at hpos hv
  cases state with
  | startBody =>
    simp only [iter]
    split
    · exact .inr (work_lt_of_drop (by decide) hv rfl)
    · exact .inl rfl
  | startBoundary =>
    simp only [iter]
    split
    · split
      · exact .inr (work_lt_of_drop (Nat.lt_add_left bd.length Nat.two_pos) hv List.drop_drop)
      · split
        · exact .inr (work_lt_of_drop (Nat.lt_add_left bd.length Nat.two_pos) hv List.drop_drop)
        · rcases Nat.eq_zero_or_pos bd.length with h0 | h0
          · left; simp [h0]
          · exact .inr (work_lt_of_drop h0 hv rfl)
    · exact .inl rfl
  | endBoundary =>
    simp only [iter]
    split
    · exact .inr (work_lt_of_drop (by decide) hv rfl)
    · exact .inl rfl
  | startContentDisposition =>
    right
    simp only [iter]
    split
    · rename_i h
      have := dispositionLoop_shorter _ _ _ _ _ h
      rw [List.length_drop] at this
      exact work_lt_of_shorter (by simp only; omega)
    · exact work_lt_of_shorter hpos
  | endContentDisposition =>
    simp only [iter]
    split
    · exact .inr (work_lt_of_drop (by decide) hv rfl)
    · split
      · exact .inr (work_lt_of_drop (by decide) hv rfl)
      · exact .inl rfl
  | startContentType =>
    right
    simp only [iter]
    split
    · rename_i h
      exact work_lt_of_shorter (typeLoop_shorter _ _ h)
    · exact work_lt_of_shorter hpos
  | endContentType =>
    simp only [iter]
    split
    · exact .inr (work_lt_of_drop (by decide) hv rfl)
    · exact .inl rfl
  | startContentData =>
    right
    simp only [iter]
    split
    · rename_i h
      exact work_lt_of_shorter (Nat.lt_of_succ_lt (dataLoop_shorter _ _ _ _ _ h))
    · exact work_lt_of_shorter hpos
  | endContentData =>
    -- the bytes stay, and no part waits any more
    right
    simp only [iter, storePart, work, reduceCtorEq, if_false, if_true]
    repeat' split
    all_goals simp only; omega
  | endBody => exact .inr (work_lt_of_drop (by decide) hv rfl)

theorem loop_of_turns {bd : Bytes} {v w : Vars} (h : Turns bd v w) (hw : w.rest = []) :
    ∀ fuel, work v < fuel → loop bd fuel v = .ok w := by
  induction h using Relation.ReflTransGen.head_induction_on with
  | refl =>
    intro fuel hf
    cases fuel with
    | zero => omega
    | succ fuel => simp [loop, hw]
  | head hv _ ih =>
    obtain ⟨hv, rfl⟩ := hv
    intro fuel hf
    rcases iter_turns bd hv with hi | hi
    · rw [hi] at ih
      exact ih fuel hf
    · cases fuel with
      | zero => omega
      | succ fuel => simpa [loop, hv] using ih fuel (by omega)

theorem turns_of_loop {bd : Bytes} : ∀ fuel {v w : Vars}, loop bd fuel v = .ok w → Turns bd v w ∧ w.rest = [] := by
  intro fuel
  induction fuel with
  | zero => intro v w h; simp [loop] at h
  | succ fuel ih =>
    intro v w h
    simp only [loop, List.isEmpty_iff] at h
    split at h
    · rename_i hv
      cases h
      exact ⟨.refl, hv⟩
    · rename_i hv
      obtain ⟨h1, h2⟩ := ih h
      exact ⟨.head ⟨hv, rfl⟩ h1, h2⟩

/-- `parse` returns exactly when the loop comes to the end of the body. -/
theorem parse_ok_iff (m m' : HttpMultiPart) (body : Bytes) : m.parse body = .ok m' ↔
    ∃ w, Turns m.bd (m.start body) w ∧ w.rest = [] ∧ m' = { m with form := w.form, files := w.files } := by
  unfold parse
  constructor
  · intro h
    cases hl : loop m.bd (2 * body.length + 1) (m.start body) with
    | error f => rw [hl] at h; cases h
    | ok w =>
      rw [hl] at h
      cases h
      obtain ⟨h1, h2⟩ := turns_of_loop _ hl
      exact ⟨w, h1, h2, rfl⟩
  · intro hx
    rcases hx with ⟨w, h1, h2, rfl⟩
    rw [loop_of_turns h1 h2 _ (by simp [work, start])]
    rfl

end HttpMultiPart

end HahaWeb
