/-
  HahaWeb.Log.LogFormatter — `log/LogFormatter`: patterns of log lines, and the scanner that
  takes them apart.

  The scanner gathers literal text until a `%`, then takes letters up to a byte that is
  none, or a format between braces. For `%%` it appends a `%` to the text, as its comment
  says, but goes on with the second `%` as the start of an item. Proved: a pattern without
  `%%` is read as the items it was written from, and one with `%%` never is: it is refused,
  or formats another text (`undoes_iff`).

  What an item writes is taken as a text; the room for it is `LogStream`'s. `strftime` and
  the clock are part of a record.
-/

import HahaWeb.Log.LogStream

namespace HahaWeb.Log

/-! ## Records and items -/

inductive Level where
  | UNKNOW
  | DEBUG
  | INFO
  | WARN
  | ERROR
  | FATAL
  deriving DecidableEq, Repr

/-- `LogLevel::toString` -/
def Level.toString : Level → Bytes
  | .DEBUG => lit "DEBUG"
  | .INFO => lit "INFO"
  | .WARN => lit "WARN"
  | .ERROR => lit "ERROR"
  | .FATAL => lit "FATAL"
  | .UNKNOW => lit "UNKNOW"

/-- `LogInfo`, with what `strftime` makes of its time for each format. -/
structure LogInfo where
  loggerName : Bytes
  file : Bytes
  line : Int32
  elapse : UInt32
  threadId : UInt32
  threadName : Bytes
  content : Bytes
  level : Level
  strftime : Bytes → Bytes

/-- The classes derived from `FormatItem`. -/
inductive FormatItem where
  | message
  | level
  | elapse
  | name
  | threadId
  | threadName
  | dateTime (format : Bytes)
  | filename
  | line
  | newLine
  | string (s : Bytes)
  | tab
  deriving DecidableEq, Repr

/-- `DateTimeFormatItem(format)` -/
def dateTimeFormatItem (format : Bytes) : FormatItem :=
  .dateTime (if format.isEmpty then lit "%Y-%m-%d %H:%M:%S" else format)

def FormatItem.format (info : LogInfo) : FormatItem → Bytes
  | .message => info.content
  | .level => info.level.toString
  | .elapse => LogStream.decimalOf info.elapse.toNat
  | .name => info.loggerName
  | .threadId => LogStream.decimalOf info.threadId.toNat
  | .threadName => info.threadName
  | .dateTime format => info.strftime format
  | .filename => info.file
  | .line => LogStream.decimalOf info.line.toInt
  | .newLine => [10]
  | .string s => s
  | .tab => [9]

/-- `s_format_items`, and the constructors in it. -/
def formatItem (str fmt : Bytes) : Option FormatItem :=
  if str = lit "m" then some .message
  else if str = lit "p" then some .level
  else if str = lit "r" then some .elapse
  else if str = lit "c" then some .name
  else if str = lit "t" then some .threadId
  else if str = lit "n" then some .newLine
  else if str = lit "d" then some (dateTimeFormatItem fmt)
  else if str = lit "f" then some .filename
  else if str = lit "l" then some .line
  else if str = lit "T" then some .tab
  else if str = lit "N" then some .threadName
  else none

/-! ## `init` -/

def isalpha (c : UInt8) : Bool := isupper c || (97 ≤ c && c ≤ 122)

/-- An entry of `vec`. -/
inductive Piece where
  | plain (str : Bytes)
  | format (str fmt : Bytes)
  deriving DecidableEq, Repr

/-- How the inner loop ends: `status` is `fmt_status == 1`, and `rest` the pattern from `n` on. -/
structure Item where
  status : Bool
  str : Bytes
  fmt : Bytes
  rest : Bytes
  deriving DecidableEq, Repr

/-- The inner loop, at the pattern from `n` on: `seen` is what lies between the `%` and `n`,
    `inside` what lies between the brace and `n`. -/
def itemLoop (status : Bool) (seen str inside : Bytes) : Bytes → Item
  | [] => ⟨status, str, [], []⟩
  | c :: rest =>
    if !status && (!isalpha c && c != 123 && c != 125) then ⟨false, seen, [], c :: rest⟩
    else if !status && c == 123 then itemLoop true (seen ++ [c]) seen [] rest
    else if status && c == 125 then ⟨false, str, inside, rest⟩
    else
      let seen := seen ++ [c]
      let str := if rest.isEmpty && str.isEmpty then seen else str
      itemLoop status seen str (inside ++ [c]) rest

theorem itemLoop_rest_le (status : Bool) (seen str inside pattern : Bytes) :
    (itemLoop status seen str inside pattern).rest.length ≤ pattern.length := by
  induction pattern generalizing status seen str inside with
  | nil => exact Nat.le_refl _
  | cons c rest ih =>
    unfold itemLoop
    split
    · exact Nat.le_refl _
    · split
      · exact (ih ..).trans (Nat.le_succ _)
      · split
        · exact Nat.le_succ _
        · exact (ih ..).trans (Nat.le_succ _)

/-- The literal text, when there is one. -/
def flush (nstr : Bytes) : List Piece := if nstr.isEmpty then [] else [.plain nstr]

/-- The scanner, at the pattern from `i` on: the entries it pushes and `m_error`. -/
def scan (nstr : Bytes) : Bytes → List Piece × Bool
  | [] => (flush nstr, false)
  | c :: rest =>
    if c ≠ 37 then scan (nstr ++ [c]) rest
    else if rest.head? = some 37 then scan (nstr ++ [37]) rest
    else
      let item := itemLoop false [] [] [] rest
      if item.status then
        let (vec, _) := scan nstr rest
        (.plain (lit "<<pattern_error>>") :: vec, true)
      else
        let (vec, error) := scan [] item.rest
        (flush nstr ++ .format item.str item.fmt :: vec, error)
termination_by pattern => pattern.length
decreasing_by
  all_goals have := itemLoop_rest_le false [] [] [] rest
  all_goals simp only [List.length_cons]
  all_goals omega

structure LogFormatter where
  pattern : Bytes
  items : List FormatItem
  error : Bool

namespace LogFormatter

/-- The entry's item, and whether it is one. -/
def itemOf : Piece → FormatItem × Bool
  | .plain str => (.string str, true)
  | .format str fmt =>
    match formatItem str fmt with
    | some item => (item, true)
    | none => (.string (lit "<<error_format %" ++ str ++ lit ">>"), false)

/-- `LogFormatter(pattern)` -/
def new (pattern : Bytes) : LogFormatter :=
  let (vec, error) := scan [] pattern
  ⟨pattern, vec.map fun piece => (itemOf piece).1, error || vec.any fun piece => !(itemOf piece).2⟩

def isError (f : LogFormatter) : Bool := f.error

def format (f : LogFormatter) (info : LogInfo) : Bytes := f.items.flatMap (FormatItem.format info)

end LogFormatter

/-! ## Patterns as they are written -/

/-- The format letters. -/
inductive Letter where
  | m | p | r | c | t | n | d | f | l | T | N
  deriving DecidableEq, Repr

def Letter.byte : Letter → UInt8
  | .m => 109
  | .p => 112
  | .r => 114
  | .c => 99
  | .t => 116
  | .n => 110
  | .d => 100
  | .f => 102
  | .l => 108
  | .T => 84
  | .N => 78

/-- What the comments of the source say that it stands for. -/
def Letter.item : Letter → FormatItem
  | .m => .message
  | .p => .level
  | .r => .elapse
  | .c => .name
  | .t => .threadId
  | .n => .newLine
  | .d => dateTimeFormatItem []
  | .f => .filename
  | .l => .line
  | .T => .tab
  | .N => .threadName

inductive PatternItem where
  | text (s : Bytes)
  | percent
  | letter (x : Letter)
  | date (fmt : Bytes)
  deriving DecidableEq, Repr

namespace PatternItem

def written : PatternItem → Bytes
  | .text s => s
  | .percent => lit "%%"
  | .letter x => [37, x.byte]
  | .date fmt => lit "%d\x7b" ++ fmt ++ lit "\x7d"

def item : PatternItem → FormatItem
  | .text s => .string s
  | .percent => .string (lit "%")
  | .letter x => x.item
  | .date fmt => dateTimeFormatItem fmt

end PatternItem

def render (l : List PatternItem) : Bytes := l.flatMap PatternItem.written

/-- The text behind a letter does not carry it on. -/
def Stops (t : Bytes) : Prop := ∀ c ∈ t.head?, isalpha c = false ∧ c ≠ 123 ∧ c ≠ 125

def Separated : List PatternItem → Prop
  | [] => True
  | .text s :: l => 37 ∉ s ∧ Separated l
  | .percent :: l => Separated l
  | .letter _ :: l => Stops (render l) ∧ Separated l
  | .date fmt :: l => 125 ∉ fmt ∧ Separated l

/-- The pattern is read without an error, and formats every record as its items do. -/
def Undoes (l : List PatternItem) : Prop :=
  (LogFormatter.new (render l)).isError = false ∧
  ∀ info, (LogFormatter.new (render l)).format info = l.flatMap fun it => it.item.format info

/-! ## The scanner -/

/-- What entries write, `none` with an error. -/
def writes (info : LogInfo) (r : List Piece × Bool) : Option Bytes :=
  if r.2 || r.1.any fun piece => !(LogFormatter.itemOf piece).2 then none
  else some (r.1.flatMap fun piece => (LogFormatter.itemOf piece).1.format info)

section

variable (info : LogInfo)

theorem writes_cons {piece : Piece} {item : FormatItem} (h : LogFormatter.itemOf piece = (item, true))
    (vec : List Piece) (error : Bool) :
    writes info (piece :: vec, error) = (writes info (vec, error)).map (item.format info ++ ·) := by
  simp only [writes, List.any_cons, h, Bool.not_true, Bool.false_or, List.flatMap_cons]
  by_cases he : (error || vec.any fun piece => !(LogFormatter.itemOf piece).2) = true
  · rw [if_pos he, if_pos he]
    rfl
  · rw [if_neg he, if_neg he]
    rfl

theorem writes_flush (nstr : Bytes) (vec : List Piece) (error : Bool) :
    writes info (flush nstr ++ vec, error) = (writes info (vec, error)).map (nstr ++ ·) := by
  unfold flush
  cases nstr with
  | nil => simp
  | cons c nstr =>
    have hitem : LogFormatter.itemOf (.plain (c :: nstr)) = (.string (c :: nstr), true) := rfl
    exact writes_cons info hitem vec error

theorem writes_format (str fmt : Bytes) (vec : List Piece) (error : Bool) :
    writes info (.format str fmt :: vec, error) =
      (formatItem str fmt).bind fun item => (writes info (vec, error)).map (item.format info ++ ·) := by
  cases h : formatItem str fmt with
  | none => simp [writes, LogFormatter.itemOf, h]
  | some item => exact writes_cons info (by rw [LogFormatter.itemOf, h]) vec error

theorem writes_error (vec : List Piece) : writes info (vec, true) = none := by
  rw [writes, Bool.true_or, if_pos rfl]

theorem scan_text {c : UInt8} (hc : c ≠ 37) (nstr rest : Bytes) : scan nstr (c :: rest) = scan (nstr ++ [c]) rest := by
  rw [scan, if_pos hc]

theorem scan_percent (nstr rest : Bytes) : scan nstr (37 :: 37 :: rest) = scan (nstr ++ [37]) (37 :: rest) := by
  rw [scan, if_neg (not_not.mpr rfl), if_pos (show (37 :: rest).head? = some 37 from rfl)]

theorem scan_item {rest : Bytes} (h : rest.head? ≠ some 37) (nstr : Bytes) :
    writes info (scan nstr (37 :: rest)) =
      if (itemLoop false [] [] [] rest).status then none
      else (formatItem (itemLoop false [] [] [] rest).str (itemLoop false [] [] [] rest).fmt).bind fun item =>
        (writes info (scan [] (itemLoop false [] [] [] rest).rest)).map fun t => nstr ++ (item.format info ++ t) := by
  rw [scan, if_neg (not_not.mpr rfl), if_neg h]
  dsimp only
  split
  · exact writes_error info _
  · rw [writes_flush, writes_format, Option.map_bind]
    congr 1
    funext item
    exact Option.map_map ..

/-- The text gathered comes first, unless there is an error. -/
theorem writes_scan (nstr pattern : Bytes) :
    writes info (scan nstr pattern) = (writes info (scan [] pattern)).map (nstr ++ ·) := by
  induction hn : pattern.length using Nat.strongRecOn generalizing nstr pattern with
  | ind n ih =>
    cases pattern with
    | nil =>
      rw [scan, ← List.append_nil (flush nstr), writes_flush, scan]
      rfl
    | cons c rest =>
      by_cases hc : c = 37
      · subst hc
        by_cases hhead : rest.head? = some 37
        · obtain ⟨rest, rfl⟩ : ∃ w, rest = 37 :: w := by
            cases rest with
            | nil => cases hhead
            | cons d w => exact ⟨w, by rw [Option.some.inj hhead]⟩
          rw [scan_percent, scan_percent, ih _ (by rw [← hn]; exact Nat.lt_succ_self _) _ _ rfl,
            ih _ (by rw [← hn]; exact Nat.lt_succ_self _) ([] ++ [37]) _ rfl, Option.map_map]
          congr 1
          funext t
          simp
        · rw [scan_item info hhead, scan_item info hhead]
          split
          · rfl
          · rw [Option.map_bind]
            congr 1
            funext item
            simp [Function.comp_def]
      · rw [scan_text hc, scan_text hc, ih _ (by rw [← hn]; exact Nat.lt_succ_self _) _ _ rfl,
          ih _ (by rw [← hn]; exact Nat.lt_succ_self _) ([] ++ [c]) _ rfl, Option.map_map]
        congr 1
        funext t
        simp

/-- What a pattern writes. -/
def reads (pattern : Bytes) : Option Bytes := writes info (scan [] pattern)

theorem reads_text {c : UInt8} (hc : c ≠ 37) (rest : Bytes) :
    reads info (c :: rest) = (reads info rest).map ([c] ++ ·) := by
  rw [reads, scan_text hc, writes_scan]
  rfl

theorem reads_percent (rest : Bytes) : reads info (37 :: 37 :: rest) = (reads info (37 :: rest)).map ([37] ++ ·) := by
  rw [reads, scan_percent, writes_scan]
  rfl

theorem reads_literal {s : Bytes} (hs : 37 ∉ s) (rest : Bytes) :
    reads info (s ++ rest) = (reads info rest).map (s ++ ·) := by
  induction s with
  | nil => simp
  | cons c s ih =>
    rw [List.cons_append, reads_text info fun hc => hs (by rw [hc]; exact List.mem_cons_self),
      ih fun h => hs (List.mem_cons_of_mem _ h), Option.map_map]
    rfl

end

/-! ## One item -/

theorem alpha_spec (c : UInt8) : isalpha c = true → c ≠ 37 ∧ c ≠ 123 := by
  revert c
  exact forall_byte (by decide +kernel)

/-- A letter ends where the text behind it begins, or with the pattern. -/
theorem itemLoop_letter {x : UInt8} {rest : Bytes} (hx : isalpha x = true) (hrest : Stops rest) :
    itemLoop false [] [] [] (x :: rest) = ⟨false, [x], [], rest⟩ := by
  obtain ⟨-, h123⟩ := alpha_spec x hx
  cases rest with
  | nil => simp [itemLoop, hx, h123]
  | cons c rest =>
    obtain ⟨hc, hopen, hclose⟩ := hrest c rfl
    simp [itemLoop, hx, h123, hc, hopen, hclose]

theorem itemLoop_inside {fmt : Bytes} (hf : 125 ∉ fmt) (str rest : Bytes) : ∀ seen inside,
    itemLoop true seen str inside (fmt ++ 125 :: rest) = ⟨false, str, inside ++ fmt, rest⟩ := by
  induction fmt with
  | nil =>
    intro seen inside
    simp [itemLoop]
  | cons c fmt ih =>
    intro seen inside
    have hc : c ≠ 125 := fun h => hf (by rw [h]; exact List.mem_cons_self)
    have hrest := ih (fun h => hf (List.mem_cons_of_mem _ h)) (seen ++ [c]) (inside ++ [c])
    simp [itemLoop, hc, hrest]

theorem itemLoop_date {fmt : Bytes} (hf : 125 ∉ fmt) (rest : Bytes) :
    itemLoop false [] [] [] (100 :: 123 :: (fmt ++ 125 :: rest)) = ⟨false, lit "d", fmt, rest⟩ := by
  have hinside := itemLoop_inside hf (lit "d") rest (lit "d\x7b") []
  have hd : isalpha 100 = true := by decide
  have hbrace : isalpha 123 = false := by decide
  rw [List.nil_append] at hinside
  rw [← hinside]
  simp [itemLoop, hd, hbrace]
  rfl

/-- What is read as the name of an item is empty, or begins with the first byte. -/
theorem itemLoop_head {c : UInt8} {status : Bool} {seen str inside pattern : Bytes}
    (hseen : seen.head? = some c ∨ (seen = [] ∧ ∀ d ∈ pattern.head?, d = c)) (hstr : str = [] ∨ str.head? = some c) :
    (itemLoop status seen str inside pattern).str = [] ∨
      (itemLoop status seen str inside pattern).str.head? = some c := by
  induction pattern generalizing status seen str inside with
  | nil => exact hstr
  | cons d rest ih =>
    have hnext : (seen ++ [d]).head? = some c := by
      rcases hseen with h | ⟨rfl, h⟩
      · rw [List.head?_append, h]
        rfl
      · rw [h d rfl]
        rfl
    have hseen' : seen = [] ∨ seen.head? = some c := hseen.symm.imp_left And.left
    unfold itemLoop
    split
    · exact hseen'
    · split
      · exact ih (.inl hnext) hseen'
      · split
        · exact hstr
        · refine ih (.inl hnext) ?_
          split
          · exact .inr hnext
          · exact hstr

theorem letter_spec (x : Letter) : isalpha x.byte = true ∧ ∀ fmt, formatItem [x.byte] fmt =
    some (if x = .d then dateTimeFormatItem fmt else x.item) := by
  cases x <;> exact ⟨by decide, fun fmt => rfl⟩

theorem letter_item (x : Letter) : x.item = if x = .d then dateTimeFormatItem [] else x.item := by
  cases x <;> rfl

/-- The names of items are single letters. -/
theorem formatItem_none {str : Bytes} (h : ∀ x : Letter, str ≠ [x.byte]) (fmt : Bytes) : formatItem str fmt = none := by
  have hm : str ≠ lit "m" := h .m
  have hp : str ≠ lit "p" := h .p
  have hr : str ≠ lit "r" := h .r
  have hc : str ≠ lit "c" := h .c
  have ht : str ≠ lit "t" := h .t
  have hn : str ≠ lit "n" := h .n
  have hd : str ≠ lit "d" := h .d
  have hf : str ≠ lit "f" := h .f
  have hl : str ≠ lit "l" := h .l
  have hT : str ≠ lit "T" := h .T
  have hN : str ≠ lit "N" := h .N
  simp only [formatItem, hm, hp, hr, hc, ht, hn, hd, hf, hl, hT, hN, if_false]

theorem letter_of_formatItem {str fmt : Bytes} {item : FormatItem} (h : formatItem str fmt = some item) :
    ∃ x : Letter, str = [x.byte] ∧ item = if x = .d then dateTimeFormatItem fmt else x.item := by
  by_contra hno
  have hnone : ∀ x : Letter, str ≠ [x.byte] := by
    intro x hx
    rw [hx, (letter_spec x).2] at h
    exact hno ⟨x, hx, (Option.some.inj h).symm⟩
  rw [formatItem_none hnone] at h
  cases h

/-! ## Patterns that are read back -/

/-- What the items of a pattern write. -/
def meaning (info : LogInfo) (l : List PatternItem) : Bytes := l.flatMap fun it => it.item.format info

section

variable (info : LogInfo)

theorem reads_letter (x : Letter) {rest : Bytes} (hrest : Stops rest) :
    reads info (37 :: x.byte :: rest) = (reads info rest).map (x.item.format info ++ ·) := by
  obtain ⟨halpha, hitem⟩ := letter_spec x
  have hhead : (x.byte :: rest).head? ≠ some 37 := fun h => (alpha_spec _ halpha).1 (Option.some.inj h)
  have hname : formatItem [x.byte] [] = some x.item := by rw [hitem, ← letter_item]
  rw [reads, scan_item info hhead, itemLoop_letter halpha hrest, if_neg Bool.false_ne_true, hname, Option.bind_some]
  rfl

theorem reads_date {fmt : Bytes} (hf : 125 ∉ fmt) (rest : Bytes) :
    reads info (lit "%d\x7b" ++ fmt ++ lit "\x7d" ++ rest) =
      (reads info rest).map ((dateTimeFormatItem fmt).format info ++ ·) := by
  have htext : lit "%d\x7b" ++ fmt ++ lit "\x7d" ++ rest = 37 :: 100 :: 123 :: (fmt ++ 125 :: rest) := by
    simp [lit]
  rw [htext, reads, scan_item info (by simp), itemLoop_date hf, if_neg Bool.false_ne_true]
  rfl

/-- Every item but `%%` is read as what it says. -/
theorem reads_item {it : PatternItem} {l : List PatternItem} (hit : it ≠ .percent) (h : Separated (it :: l)) :
    reads info (render (it :: l)) = (reads info (render l)).map (it.item.format info ++ ·) ∧ Separated l := by
  cases it with
  | percent => exact absurd rfl hit
  | text s => exact ⟨reads_literal info h.1 (render l), h.2⟩
  | letter x => exact ⟨reads_letter info x h.1, h.2⟩
  | date fmt => exact ⟨reads_date info h.1 (render l), h.2⟩

theorem reads_render {l : List PatternItem} (h : Separated l) (hno : .percent ∉ l) :
    reads info (render l) = some (meaning info l) := by
  induction l with
  | nil =>
    rw [reads, render, List.flatMap_nil, scan]
    rfl
  | cons it l ih =>
    obtain ⟨hreads, hl⟩ := reads_item info (fun heq => hno (by rw [heq]; exact List.mem_cons_self)) h
    rw [hreads, ih hl fun hmem => hno (List.mem_cons_of_mem _ hmem)]
    rfl

theorem reads_eq (pattern : Bytes) : reads info pattern =
    if (LogFormatter.new pattern).isError then none else some ((LogFormatter.new pattern).format info) := by
  rw [reads, writes, LogFormatter.isError, LogFormatter.format, LogFormatter.new, List.flatMap_map]

end

/-! ## Patterns with a doubled percent sign -/

/-- A record of which no item begins with its own letter, or with a percent sign. -/
def sample : LogInfo := ⟨[0], [0], 0, 0, 0, [0], [0], .DEBUG, fun _ => [0]⟩

theorem sample_item (x : Letter) (fmt : Bytes) : ∃ c t,
    (if x = .d then dateTimeFormatItem fmt else x.item).format sample = c :: t ∧ c ≠ 37 ∧ c ≠ x.byte := by
  have hzero : LogStream.decimalOf 0 = [48] := by decide
  cases x with
  | m | c | f | N | d => exact ⟨0, [], rfl, by decide, by decide⟩
  | p => exact ⟨68, lit "EBUG", rfl, by decide, by decide⟩
  | r | t | l => exact ⟨48, [], hzero, by decide, by decide⟩
  | n => exact ⟨10, [], rfl, by decide, by decide⟩
  | T => exact ⟨9, [], rfl, by decide, by decide⟩

/-- A percent sign in front of a text other than one that begins with its byte. -/
theorem replicate_differs {k : Nat} {a b : Bytes} {c : UInt8} (hb : b.head? = some c) (hc : c ≠ 37)
    (ha : a.head? ≠ some c) : List.replicate k 37 ++ a ≠ b := by
  intro heq
  cases k with
  | zero => exact ha (by rw [← hb, ← heq]; rfl)
  | succ k =>
    rw [← heq, List.replicate_succ, List.cons_append] at hb
    exact hc (Option.some.inj hb).symm

/-- A percent sign in front of a literal text takes its first byte for the name of an item. -/
theorem reads_mark {c : UInt8} (hc : c ≠ 37) {w t : Bytes} (h : reads sample (37 :: c :: w) = some t) :
    t.head? ≠ some c := by
  have hhead : (c :: w).head? ≠ some 37 := fun heq => hc (Option.some.inj heq)
  rw [reads, scan_item sample hhead] at h
  split at h
  · cases h
  obtain ⟨item, hitem, ht⟩ := Option.bind_eq_some_iff.mp h
  obtain ⟨u, -, rfl⟩ := Option.map_eq_some_iff.mp ht
  obtain ⟨x, hx, rfl⟩ := letter_of_formatItem hitem
  have hbyte : x.byte = c := by
    have hname : (itemLoop false [] [] [] (c :: w)).str = [] ∨ (itemLoop false [] [] [] (c :: w)).str.head? = some c :=
      itemLoop_head (.inr ⟨rfl, fun d hd => (Option.some.inj hd).symm⟩) (.inl rfl)
    rw [hx] at hname
    exact Option.some.inj (hname.resolve_left (List.cons_ne_nil _ _))
  obtain ⟨d, v, hd, -, hne⟩ := sample_item x (itemLoop false [] [] [] (c :: w)).fmt
  rw [List.nil_append, hd]
  exact fun heq => hne (by rw [Option.some.inj heq, hbyte])

/-- However many percent signs there are too many, the text behind them differs. -/
theorem percent_differs {l : List PatternItem} (h : Separated l) : ∀ k,
    (reads sample (37 :: render l)).map (List.replicate k 37 ++ ·) ≠ some (meaning sample l) := by
  induction l with
  | nil =>
    intro k hk
    have hnone : reads sample (37 :: render []) = none := by
      rw [reads, render, List.flatMap_nil, scan_item sample (by simp)]
      rfl
    rw [hnone] at hk
    cases hk
  | cons it l ih =>
    intro k hk
    obtain ⟨t, ht, heq⟩ := Option.map_eq_some_iff.mp hk
    cases it with
    | text s =>
      cases s with
      | nil => exact ih h.2 k hk
      | cons c s =>
        have hc : c ≠ 37 := fun heq => h.1 (by rw [heq]; exact List.mem_cons_self)
        exact replicate_differs rfl hc (reads_mark hc ht) heq
    | percent =>
      -- both signs are taken for text, and the next one begins an item again
      rw [show render (.percent :: l) = 37 :: 37 :: render l from rfl, reads_percent, reads_percent] at ht
      obtain ⟨u, hu, rfl⟩ := Option.map_eq_some_iff.mp ht
      obtain ⟨v, hv, rfl⟩ := Option.map_eq_some_iff.mp hu
      refine ih h (k + 1) ?_
      rw [hv, Option.map_some]
      have hcons : List.replicate k 37 ++ 37 :: 37 :: v = 37 :: (List.replicate (k + 1) 37 ++ v) := by
        rw [List.append_cons, ← List.replicate_succ', List.replicate_succ, List.cons_append, List.append_cons,
          ← List.replicate_succ', ← List.replicate_succ]
      exact congrArg some (List.cons.inj (hcons.symm.trans heq)).2
    | letter x =>
      rw [show render (.letter x :: l) = 37 :: x.byte :: render l from rfl, reads_percent] at ht
      obtain ⟨u, -, rfl⟩ := Option.map_eq_some_iff.mp ht
      obtain ⟨d, v, hd, h37, -⟩ := sample_item x []
      rw [← letter_item] at hd
      have hhead : (meaning sample (.letter x :: l)).head? = some d := by
        rw [meaning, List.flatMap_cons, PatternItem.item, hd]
        rfl
      have hfirst : ([37] ++ u).head? ≠ some d := fun h => h37 (Option.some.inj h).symm
      exact replicate_differs hhead h37 hfirst heq
    | date fmt =>
      rw [show render (.date fmt :: l) = 37 :: (100 :: 123 :: (fmt ++ lit "\x7d") ++ render l) from rfl,
        reads_percent] at ht
      obtain ⟨u, -, rfl⟩ := Option.map_eq_some_iff.mp ht
      exact replicate_differs (c := 0) rfl (by decide) (by simp) heq

theorem reads_percent_differs {l : List PatternItem} (h : Separated l) (hmem : .percent ∈ l) :
    reads sample (render l) ≠ some (meaning sample l) := by
  induction l with
  | nil => cases hmem
  | cons it l ih =>
    intro heq
    by_cases hit : it = .percent
    · subst hit
      rw [show render (.percent :: l) = 37 :: 37 :: render l from rfl, reads_percent] at heq
      obtain ⟨t, ht, hcons⟩ := Option.map_eq_some_iff.mp heq
      refine percent_differs (l := l) h 0 ?_
      rw [ht]
      exact congrArg some (List.cons.inj hcons).2
    · obtain ⟨hreads, hl⟩ := reads_item sample hit h
      rw [hreads] at heq
      obtain ⟨t, ht, happ⟩ := Option.map_eq_some_iff.mp heq
      refine ih hl ((List.mem_cons.mp hmem).resolve_left (Ne.symm hit)) ?_
      rw [ht, List.append_cancel_left happ]
      rfl

theorem undoes_of_reads {l : List PatternItem} : Undoes l ↔ ∀ info, reads info (render l) = some (meaning info l) := by
  refine ⟨fun h info => ?_, fun h => ?_⟩
  · rw [reads_eq, h.1, if_neg Bool.false_ne_true, h.2 info]
    rfl
  · have hok : (LogFormatter.new (render l)).isError = false := by
      have hread := h sample
      rw [reads_eq] at hread
      split at hread
      · cases hread
      · rename_i hno
        exact Bool.eq_false_iff.mpr hno
    refine ⟨hok, fun info => ?_⟩
    have hread := h info
    rw [reads_eq, hok, if_neg Bool.false_ne_true] at hread
    exact Option.some.inj hread

/-- The patterns that are read as they were written. -/
theorem undoes_iff {l : List PatternItem} (h : Separated l) : Undoes l ↔ .percent ∉ l := by
  rw [undoes_of_reads]
  exact ⟨fun hread hmem => reads_percent_differs h hmem (hread sample), fun hno info => reads_render info h hno⟩

theorem stops_cons {c : UInt8} (h : isalpha c = false ∧ c ≠ 123 ∧ c ≠ 125) (t : Bytes) : Stops (c :: t) := by
  intro d hd
  obtain rfl : c = d := Option.some.inj hd
  exact h

/-- Items of each kind. -/
theorem undoes_kinds : Separated [.letter .p, .text (lit ": ["), .date (lit "%H:%M"), .letter .T, .letter .m] ∧
    Undoes [.letter .p, .text (lit ": ["), .date (lit "%H:%M"), .letter .T, .letter .m] := by
  have h : Separated [.letter .p, .text (lit ": ["), .date (lit "%H:%M"), .letter .T, .letter .m] :=
    ⟨stops_cons (by decide) _, by decide, by decide, stops_cons (by decide) _, fun _ hc => absurd hc (by simp [render]),
      trivial⟩
  exact ⟨h, (undoes_iff h).mpr (by decide)⟩

/-- A doubled percent sign alone: it is written, and an error behind it. -/
theorem not_undoes_percent : ¬ (∀ l, Separated l → Undoes l) ∧ (LogFormatter.new (lit "%%")).isError = true ∧
    (LogFormatter.new (lit "%%")).items = [.string (lit "%"), .string (lit "<<error_format %>>")] := by
  have hscan : scan [] (lit "%%") = ([.plain [37], .format [] []], false) := by
    rw [show lit "%%" = [37, 37] from rfl, scan_percent]
    simp [scan, itemLoop, flush]
  have herror : (LogFormatter.new (lit "%%")).isError = true := by
    rw [LogFormatter.isError, LogFormatter.new, hscan]
    decide
  refine ⟨fun h => ?_, herror, ?_⟩
  · have hok := (h [.percent] trivial).1
    rw [show render [.percent] = lit "%%" from rfl, herror] at hok
    cases hok
  · rw [LogFormatter.new, hscan]
    decide

end HahaWeb.Log
