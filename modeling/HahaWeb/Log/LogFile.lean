/-
  HahaWeb.Log.LogFile — `log/LogFile`: the file a log is appended to, and the rolling from
  one file to the next.

  `AppendFile::append` writes until the line is there or the stream has an error.
  `LogFile::append_unlocked` rolls when the file is larger than `rollSize_`, and at every
  `checkEveryN_`-th line short of that when the day is over; `rollFile` refuses in the second
  in which the file was opened. The clock is read anew by each, and may go back.

  Proved, over every run: the files, in the order of their names, are what was appended, and
  no line is in two of them (`sorted_files`); where one file ends and where it goes on
  (`file_cuts`).

  A run begins with an empty directory: what an earlier process has left under a name is not
  modelled. The times are seconds since 1970.
-/

import HahaWeb.Base.Util
import HahaWeb.Library.Calendar
import HahaWeb.Library.Labelled

namespace HahaWeb

namespace Log

/-! ## `AppendFile` -/

/-- What `fwrite_unlocked` returns, and whether the stream has an error behind it. -/
structure Fwrite where
  n : Nat
  err : Bool
  deriving DecidableEq, Repr

/-- `data` is what the stream was given since the file was opened, `flushed` how much of it
    was there at the last flush. -/
structure AppendFile where
  filename : Bytes
  data : Bytes
  flushed : Nat
  writtenBytes : Nat
  deriving DecidableEq, Repr

namespace AppendFile

/-- `fopen` with mode `ae` -/
def fopen (filename : Bytes) : AppendFile := ⟨filename, [], 0, 0⟩

/-- The loop of `append`: what it counts as written and what the stream was given. A call
    that fails is given its part of the line, which is not counted. -/
def appendLoop (len : Nat) : Nat → List Fwrite → Option (Nat × Nat)
  | written, [] => if written = len then some (written, written) else none
  | written, r :: rs =>
    if written = len then some (written, written)
    else if len - written < r.n then none
    else if r.n ≠ len - written ∧ r.err = true then some (written, written + r.n)
    else appendLoop len (written + r.n) rs

/-- `none` when it has not returned, and for results that `fwrite_unlocked` does not have. -/
def append (f : AppendFile) (logline : Bytes) (rs : List Fwrite) : Option AppendFile :=
  (appendLoop logline.length 0 rs).map fun p =>
    { f with data := f.data ++ logline.take p.2, writtenBytes := f.writtenBytes + p.1 }

def flush (f : AppendFile) : AppendFile := { f with flushed := f.data.length }

/-- Without an error the loop ends at the end of the line. -/
theorem appendLoop_whole {len : Nat} {rs : List Fwrite} (hrs : ∀ r ∈ rs, r.err = false) :
    ∀ {written : Nat} {p : Nat × Nat}, appendLoop len written rs = some p → p = (len, len) := by
  induction rs with
  | nil =>
    intro written p h
    rw [appendLoop] at h
    split at h
    · cases h
      simp [*]
    · cases h
  | cons r rs ih =>
    intro written p h
    rw [appendLoop] at h
    split at h
    · cases h
      simp [*]
    · split at h
      · cases h
      · rw [if_neg (by simp [hrs r List.mem_cons_self])] at h
        exact ih (fun r hr => hrs r (List.mem_cons_of_mem _ hr)) h

end AppendFile

/-! ## `LogFile` -/

/-- The constant members of a `LogFile`, with what `ProcessInfo` says. -/
structure LogFileConf where
  basename : Bytes
  rollSize : Int
  flushInterval : Int
  checkEveryN : Int
  hostname : Bytes
  pid : Nat
  deriving DecidableEq, Repr

/-- `closed` are the files that `file_` pointed to before. -/
structure LogFile where
  count : Nat
  startOfPeriod : Nat
  lastRoll : Nat
  lastFlush : Nat
  file : Option AppendFile
  closed : List AppendFile
  deriving DecidableEq, Repr

def kRollPerSeconds : Nat := 60 * 60 * 24

/-- `%m` and the other conversions of two digits. -/
def twoDigits (n : Nat) : Bytes := [UInt8.ofNat (48 + n / 10), UInt8.ofNat (48 + n % 10)]

/-- `strftime` with `.%Y%m%d-%H%M%S.` -/
def timebuf (now : Nat) : Bytes :=
  let tm := Calendar.gmtime now
  lit "." ++ (decimal tm.year ++ twoDigits tm.month ++ twoDigits tm.mday ++ lit "-" ++ twoDigits tm.hour ++
    twoDigits tm.min ++ twoDigits tm.sec) ++ lit "."

namespace LogFileConf

variable (c : LogFileConf)

def getLogFileName (now : Nat) : Bytes :=
  c.basename ++ timebuf now ++ c.hostname ++ lit "." ++ decimal c.pid ++ lit ".log"

end LogFileConf

namespace LogFile

variable (c : LogFileConf)

/-- The files opened so far, in that order. -/
def files (s : LogFile) : List AppendFile := s.closed ++ s.file.toList

def rollFile (s : LogFile) (now : Nat) : LogFile :=
  if s.lastRoll < now then
    { s with
      lastRoll := now
      lastFlush := now
      startOfPeriod := now / kRollPerSeconds * kRollPerSeconds
      file := some (.fopen (c.getLogFileName now))
      closed := s.closed ++ (s.file.map AppendFile.flush).toList }
  else s

/-- The constructor, which asserts that the name has no `/`. -/
def new (now : Nat) : Option LogFile :=
  if 47 ∈ c.basename then none else some (rollFile c ⟨0, 0, 0, 0, none, []⟩ now)

/-- `now` is what the check reads from the clock, `nowRoll` what `rollFile` reads. -/
def appendUnlocked (s : LogFile) (logline : Bytes) (rs : List Fwrite) (now nowRoll : Nat) : Option LogFile := do
  let f ← s.file
  let f ← f.append logline rs
  let s := { s with file := some f }
  if c.rollSize < f.writtenBytes then some (s.rollFile c nowRoll)
  else if (s.count + 1 : Int) < c.checkEveryN then some { s with count := s.count + 1 }
  else
    let s := { s with count := 0 }
    if now / kRollPerSeconds * kRollPerSeconds ≠ s.startOfPeriod then some (s.rollFile c nowRoll)
    else if c.flushInterval < (now : Int) - s.lastFlush then some { s with lastFlush := now, file := some f.flush }
    else some s

def flush (s : LogFile) : Option LogFile := s.file.map fun f => { s with file := some f.flush }

/-! ## Runs -/

inductive Event where
  | append (logline : Bytes) (rs : List Fwrite) (now nowRoll : Nat)
  | flush
  | rollFile (now : Nat)
  deriving DecidableEq, Repr

def perform (s : LogFile) : Event → Option LogFile
  | .append logline rs now nowRoll => s.appendUnlocked c logline rs now nowRoll
  | .flush => s.flush
  | .rollFile now => some (s.rollFile c now)

def Step (s : LogFile) (e : Event) (s' : LogFile) : Prop := s.perform c e = some s'

namespace Event

/-- What an event gives to the stream. -/
def given : Event → Bytes
  | .append logline rs _ _ => logline.take ((AppendFile.appendLoop logline.length 0 rs).elim 0 (·.2))
  | _ => []

/-- What it counts as written. -/
def written : Event → Nat
  | .append logline rs _ _ => (AppendFile.appendLoop logline.length 0 rs).elim 0 (·.1)
  | _ => 0

/-- The time that `rollFile` would read. -/
def reading : Event → Nat
  | .append _ _ _ nowRoll => nowRoll
  | .flush => 0
  | .rollFile now => now

end Event

end LogFile

/-! ## The names -/

theorem append_lt_append {a b x y : Bytes} (hlen : a.length = b.length) (h : a < b ∨ a = b ∧ x < y) :
    a ++ x < b ++ y := by
  induction a generalizing b with
  | nil =>
    obtain rfl : b = [] := List.length_eq_zero_iff.mp hlen.symm
    rcases h with h | h
    · exact absurd h (List.not_lt_nil _)
    · exact h.2
  | cons c a ih =>
    cases b with
    | nil => cases hlen
    | cons d b =>
      rw [List.cons_append, List.cons_append, List.cons_lt_cons_iff]
      rw [List.cons_lt_cons_iff, List.cons.injEq] at h
      rcases h with (h | ⟨rfl, h⟩) | ⟨⟨rfl, h⟩, hxy⟩
      · exact .inl h
      · exact .inr ⟨rfl, ih (Nat.succ.inj hlen) (.inl h)⟩
      · exact .inr ⟨rfl, ih (Nat.succ.inj hlen) (.inr ⟨h, hxy⟩)⟩

theorem ofNat_lt {m n : Nat} (h : m < n) (hn : n < 256) : UInt8.ofNat m < UInt8.ofNat n := by
  rw [UInt8.lt_iff_toNat_lt, UInt8.toNat_ofNat_of_lt' (Nat.lt_trans h hn), UInt8.toNat_ofNat_of_lt' hn]
  exact h

theorem decimalValue_cons (c : UInt8) (ds : Bytes) :
    decimalValue (c :: ds) = (c.toNat - 48) * 10 ^ ds.length + decimalValue ds := by
  have hacc : ∀ (ds : Bytes) (n : Nat), ds.foldl (fun n c => n * 10 + (c.toNat - 48)) n =
      n * 10 ^ ds.length + decimalValue ds := by
    intro ds
    induction ds with
    | nil => simp [decimalValue]
    | cons d ds ih =>
      intro n
      rw [decimalValue, List.foldl_cons, List.foldl_cons, ih, ih, List.length_cons, Nat.pow_succ]
      ring
  rw [decimalValue, List.foldl_cons, hacc, Nat.zero_mul, Nat.zero_add]

/-- Numerals of one length stand in the order of their values. -/
theorem numeral_lt {a b : Bytes} (hlen : a.length = b.length) (ha : ∀ c ∈ a, isdigit c = true)
    (hb : ∀ c ∈ b, isdigit c = true) (h : decimalValue a < decimalValue b) : a < b := by
  induction a generalizing b with
  | nil =>
    obtain rfl : b = [] := List.length_eq_zero_iff.mp hlen.symm
    exact absurd h (Nat.lt_irrefl _)
  | cons c a ih =>
    cases b with
    | nil => cases hlen
    | cons d b =>
      have hlen' : a.length = b.length := Nat.succ.inj hlen
      have ha' := List.forall_mem_cons.mp ha
      have hb' := List.forall_mem_cons.mp hb
      rw [decimalValue_cons, decimalValue_cons, hlen'] at h
      rw [List.cons_lt_cons_iff]
      rcases Nat.lt_trichotomy c.toNat d.toNat with hc | hc | hc
      · exact .inl (UInt8.lt_iff_toNat_lt.mpr hc)
      · rw [hc] at h
        exact .inr ⟨UInt8.toNat_inj.mp hc, ih hlen' ha'.2 hb'.2 (by omega)⟩
      · -- a greater first digit outweighs what follows it
        have hd : isdigit d = true := hb'.1
        have hval := decimalValue_lt hb'.2
        simp only [isdigit, Bool.and_eq_true, decide_eq_true_eq, UInt8.le_iff_toNat_le] at hd
        have hd48 : 48 ≤ d.toNat := hd.1
        have hmul : (d.toNat - 48 + 1) * 10 ^ b.length ≤ (c.toNat - 48) * 10 ^ b.length :=
          Nat.mul_le_mul_right _ (by omega)
        rw [Nat.add_mul, Nat.one_mul] at hmul
        omega

theorem twoDigits_lt {m n : Nat} (h : m < n) (hn : n < 100) : twoDigits m < twoDigits n := by
  rw [twoDigits, twoDigits, List.cons_lt_cons_iff, List.cons_lt_cons_iff]
  by_cases hten : m / 10 < n / 10
  · exact .inl (ofNat_lt (by omega) (by omega))
  · have heq : m / 10 = n / 10 := by omega
    rw [heq]
    exact .inr ⟨rfl, .inl (ofNat_lt (by omega) (by omega))⟩

theorem decimal_year_length {y : Nat} (h : 1970 ≤ y) (h' : y < 10000) : (decimal y).length = 4 := by
  have hle : (decimal y).length ≤ 4 := decimal_length_le (by omega) h'
  have hgt : ¬ (decimal y).length ≤ 3 := by
    rw [decimal, if_neg (by omega), List.length_map, List.length_reverse, Nat.digits_length_le_iff (by omega)]
    omega
  omega

theorem decimal_year_lt {y y' : Nat} (h : 1970 ≤ y) (hlt : y < y') (h' : y' < 10000) : decimal y < decimal y' := by
  refine numeral_lt ?_ (fun _ => isdigit_decimal) (fun _ => isdigit_decimal) ?_
  · rw [decimal_year_length h (by omega), decimal_year_length (by omega) h']
  · rw [decimalValue_decimal, decimalValue_decimal]
    exact hlt

/-- The first second of the year 10000. -/
def endOfYears : Nat := 253402300800

theorem gmtime_year {now : Nat} (h : now < endOfYears) :
    1970 ≤ (Calendar.gmtime now).year ∧ (Calendar.gmtime now).year < 10000 := by
  refine ⟨Calendar.le_year _, Calendar.year_lt ?_⟩
  rw [endOfYears] at h
  omega

theorem timebuf_length {now : Nat} (h : now < endOfYears) : (timebuf now).length = 17 := by
  obtain ⟨h1, h2⟩ := gmtime_year h
  simp [timebuf, twoDigits, decimal_year_length h1 h2, lit]

/-- The text of a later second is greater. -/
theorem timebuf_lt {t t' : Nat} (h : t < t') (h' : t' < endOfYears) : timebuf t < timebuf t' := by
  have hy := gmtime_year (Nat.lt_trans h h')
  have hy' := gmtime_year h'
  have hmonth := Calendar.month_le (t' / 86400)
  have hmday := Calendar.mday_le (t' / 86400)
  have hfields := Calendar.Tm.lt_of_lt h
  have htwo : ∀ m n, (twoDigits m).length = (twoDigits n).length := fun _ _ => rfl
  simp only [Calendar.Tm.fields, List.cons_lt_cons_iff, List.not_lt_nil, and_false, or_false] at hfields
  simp only [timebuf, List.append_assoc]
  refine List.append_left_lt ?_
  refine append_lt_append ?_ (hfields.imp (fun h => decimal_year_lt hy.1 h hy'.2) (And.imp (congrArg _) fun h => ?_))
  · rw [decimal_year_length hy.1 hy.2, decimal_year_length hy'.1 hy'.2]
  refine append_lt_append (htwo _ _) (h.imp (fun h => twoDigits_lt h ?_) (And.imp (congrArg _) fun h => ?_))
  · exact Nat.lt_of_le_of_lt hmonth.2 (by omega)
  refine append_lt_append (htwo _ _) (h.imp (fun h => twoDigits_lt h ?_) (And.imp (congrArg _) fun h => ?_))
  · exact Nat.lt_of_le_of_lt hmday.2 (by omega)
  refine List.append_left_lt ?_
  refine append_lt_append (htwo _ _) (h.imp (fun h => twoDigits_lt h ?_) (And.imp (congrArg _) fun h => ?_))
  · simp only [Calendar.gmtime]
    omega
  refine append_lt_append (htwo _ _) (h.imp (fun h => twoDigits_lt h ?_) (And.imp (congrArg _) fun h => ?_))
  · simp only [Calendar.gmtime]
    omega
  · refine append_lt_append (htwo _ _) (.inl (twoDigits_lt h ?_))
    simp only [Calendar.gmtime]
    omega

/-- A file opened later has a greater name. -/
theorem getLogFileName_lt (c : LogFileConf) {t t' : Nat} (h : t < t') (h' : t' < endOfYears) :
    c.getLogFileName t < c.getLogFileName t' := by
  simp only [LogFileConf.getLogFileName, List.append_assoc]
  refine List.append_left_lt (append_lt_append ?_ (.inl (timebuf_lt h h')))
  rw [timebuf_length (Nat.lt_trans h h'), timebuf_length h']

/-! ## The parts of a run -/

namespace LogFile

open AppendFile

variable (c : LogFileConf)

def given (es : List Event) : Bytes := es.flatMap Event.given

def written (es : List Event) : Nat := (es.map Event.written).sum

def Event.isAppend : Event → Bool
  | .append .. => true
  | _ => false

def lines (es : List Event) : Nat := es.countP Event.isAppend

/-- For a file opened at `t`, the clock has left the second and, for a line, the day. -/
def Event.Late (t : Nat) : Event → Prop
  | .append _ _ now nowRoll => now / kRollPerSeconds ≠ t / kRollPerSeconds ∧ t < nowRoll
  | .flush => True
  | .rollFile now => t < now

/-- The events while a file was open, and the second in which it was opened. -/
structure Part where
  opened : Nat
  events : List Event

structure Holds (f : AppendFile) (p : Part) : Prop where
  filename : f.filename = c.getLogFileName p.opened
  data : f.data = given p.events
  writtenBytes : f.writtenBytes = written p.events

/-- The file opened at `t` is still open behind these events: where it is too large, or is
    asked to roll, the clock stands in its second, and of the lines of later days fewer than
    `checkEveryN_` follow each other. -/
structure GoesOn (t : Nat) (es : List Event) : Prop where
  full : ∀ pre e, pre ++ [e] <+: es → c.rollSize < written (pre ++ [e]) → e.reading ≤ t
  asked : ∀ now, .rollFile now ∈ es → now ≤ t
  day : ∀ pre mid post, es = pre ++ mid ++ post → (∀ e ∈ mid, e.Late t) →
    lines mid = 0 ∨ (lines mid : Int) < c.checkEveryN

/-- The last event of a part is where it ends: the file is too large or the day over, and its
    second is. The next file is opened then. -/
structure Ended (p q : Part) : Prop where
  events : ∃ pre e, p.events = pre ++ [e] ∧ GoesOn c p.opened pre ∧ e.reading = q.opened ∧
    (c.rollSize < written p.events ∨ e.Late p.opened)
  opened : p.opened < q.opened

/-- The parts of the closed files, and that of the open one, when the first is opened at `t₀`. -/
structure Story (t₀ : Nat) (s : LogFile) (es : List Event) (ps : List Part) (p : Part) : Prop where
  events : (ps ++ [p]).flatMap (·.events) = es
  closed : List.Forall₂ (Holds c) s.closed ps
  file : ∃ f, s.file = some f ∧ Holds c f p
  ended : (ps ++ [p]).IsChain (Ended c)
  lastRoll : s.lastRoll = p.opened
  period : s.startOfPeriod = p.opened / kRollPerSeconds * kRollPerSeconds
  goesOn : GoesOn c p.opened p.events
  count : s.count = 0 ∨ (s.count : Int) < c.checkEveryN
  late : ∀ pre mid, p.events = pre ++ mid → (∀ e ∈ mid, e.Late p.opened) → lines mid ≤ s.count
  times : ∀ q ∈ ps ++ [p], q.opened = t₀ ∨ ∃ e ∈ es, q.opened = e.reading

theorem given_append (es es' : List Event) : given (es ++ es') = given es ++ given es' := List.flatMap_append ..

theorem written_snoc (es : List Event) (e : Event) : written (es ++ [e]) = written es + e.written := by
  simp [written]

theorem lines_append (es es' : List Event) : lines (es ++ es') = lines es + lines es' := List.countP_append ..

variable {c}

theorem Holds.flush {f : AppendFile} {p : Part} (h : Holds c f p) : Holds c f.flush p :=
  ⟨h.filename, h.data, h.writtenBytes⟩

/-- A line goes to the open file. -/
theorem Holds.append {f f' : AppendFile} {p : Part} (h : Holds c f p) {logline : Bytes} {rs : List Fwrite}
    {now nowRoll : Nat} (hf : f.append logline rs = some f') :
    Holds c f' ⟨p.opened, p.events ++ [.append logline rs now nowRoll]⟩ := by
  rw [AppendFile.append, Option.map_eq_some_iff] at hf
  obtain ⟨r, hr, rfl⟩ := hf
  refine ⟨h.filename, ?_, ?_⟩
  · rw [given_append, ← h.data]
    simp [given, Event.given, hr]
  · rw [written_snoc, ← h.writtenBytes]
    simp [Event.written, hr]

/-- What keeps a file open at one more event. -/
theorem GoesOn.snoc {t : Nat} {es : List Event} {e : Event} {count : Nat} (h : GoesOn c t es)
    (hfull : c.rollSize < written (es ++ [e]) → e.reading ≤ t) (hasked : ∀ now, e = .rollFile now → now ≤ t)
    (hlate : ∀ pre mid, es ++ [e] = pre ++ mid → (∀ e ∈ mid, e.Late t) → lines mid ≤ count)
    (hcount : count = 0 ∨ (count : Int) < c.checkEveryN) : GoesOn c t (es ++ [e]) := by
  refine ⟨fun pre e' hp => ?_, fun now hnow => ?_, fun pre mid post hsplit hmid => ?_⟩
  · rcases List.prefix_concat_iff.mp hp with hp | hp
    · obtain ⟨rfl, he⟩ := List.append_inj' hp rfl
      obtain rfl := List.singleton_inj.mp he
      exact hfull
    · exact h.full pre e' hp
  · rcases List.mem_append.mp hnow with hnow | hnow
    · exact h.asked now hnow
    · exact hasked now (List.mem_singleton.mp hnow).symm
  · rcases List.eq_nil_or_concat' post with rfl | ⟨post, x, rfl⟩
    · rw [List.append_nil] at hsplit
      have hle := hlate pre mid hsplit hmid
      omega
    · rw [← List.append_assoc] at hsplit
      exact h.day pre mid post (List.append_inj_left' hsplit rfl) hmid

theorem GoesOn.nil (t : Nat) : GoesOn c t [] := by
  refine ⟨fun pre e hp => ?_, fun now hnow => ?_, fun pre mid post hsplit _ => ?_⟩
  · simp at hp
  · cases hnow
  · have hmid : mid = [] := by simp_all
    exact .inl (by rw [hmid]; rfl)

variable {t₀ : Nat} {s : LogFile} {es : List Event} {ps : List Part} {p : Part} {e : Event}

/-- The file stays open. -/
theorem Story.stays (h : Story c t₀ s es ps p) {f : AppendFile} (hf : Holds c f ⟨p.opened, p.events ++ [e]⟩)
    (count lastFlush : Nat) (hfull : c.rollSize < written (p.events ++ [e]) → e.reading ≤ p.opened)
    (hasked : ∀ now, e = .rollFile now → now ≤ p.opened) (hcount : count = 0 ∨ (count : Int) < c.checkEveryN)
    (hlate : e.Late p.opened → s.count + lines [e] ≤ count) :
    Story c t₀ { s with file := some f, count := count, lastFlush := lastFlush } (es ++ [e]) ps
      ⟨p.opened, p.events ++ [e]⟩ := by
  have hlate' : ∀ pre mid, p.events ++ [e] = pre ++ mid → (∀ e ∈ mid, e.Late p.opened) → lines mid ≤ count := by
    intro pre mid hsplit hmid
    rcases List.eq_nil_or_concat' mid with rfl | ⟨mid, x, rfl⟩
    · exact Nat.zero_le _
    · rw [← List.append_assoc] at hsplit
      obtain ⟨hevents, hx⟩ := List.append_inj' hsplit rfl
      obtain rfl := List.singleton_inj.mp hx
      have hold := h.late pre mid hevents fun e he => hmid e (List.mem_append_left _ he)
      have hnew := hlate (hmid e (by simp))
      rw [lines_append]
      omega
  refine ⟨?_, h.closed, ⟨f, rfl, hf⟩, ?_, h.lastRoll, h.period, ?_, hcount, hlate', fun q hq => ?_⟩
  · rw [← h.events]
    simp
  · obtain ⟨h1, -, h3⟩ := List.isChain_append.mp h.ended
    refine List.isChain_append.mpr ⟨h1, List.isChain_singleton _, fun q hq r hr => ?_⟩
    have hlast := h3 q hq p rfl
    cases hr
    exact ⟨hlast.events, hlast.opened⟩
  · exact h.goesOn.snoc hfull hasked hlate' hcount
  · have hold : ∀ q ∈ ps ++ [p], q.opened = t₀ ∨ ∃ x ∈ es ++ [e], q.opened = x.reading := fun q hq =>
      (h.times q hq).imp id fun ⟨x, hx, heq⟩ => ⟨x, List.mem_append_left _ hx, heq⟩
    rcases List.mem_append.mp hq with hq | hq
    · exact hold q (List.mem_append_left _ hq)
    · rw [List.mem_singleton.mp hq]
      exact hold p (by simp)

/-- The file is closed and the next one opened. -/
theorem Story.rolls (h : Story c t₀ s es ps p) {f : AppendFile} (hf : Holds c f ⟨p.opened, p.events ++ [e]⟩)
    (hnow : p.opened < e.reading) (hend : c.rollSize < written (p.events ++ [e]) ∨ e.Late p.opened) (count : Nat)
    (hcount : count = 0 ∨ (count : Int) < c.checkEveryN) :
    Story c t₀ (rollFile c { s with file := some f, count := count } e.reading) (es ++ [e])
      (ps ++ [⟨p.opened, p.events ++ [e]⟩]) ⟨e.reading, []⟩ := by
  have hroll : s.lastRoll < e.reading := by rw [h.lastRoll]; exact hnow
  rw [rollFile, if_pos hroll]
  refine ⟨?_, ?_, ⟨_, rfl, rfl, rfl, rfl⟩, ?_, rfl, rfl, .nil _, hcount, fun pre mid hsplit _ => ?_,
    fun q hq => ?_⟩
  · rw [← h.events]
    simp
  · exact List.rel_append h.closed (.cons hf.flush .nil)
  · obtain ⟨h1, -, h3⟩ := List.isChain_append.mp h.ended
    rw [List.append_assoc]
    refine List.isChain_append.mpr ⟨h1, ?_, fun q hq r hr => ?_⟩
    · exact List.isChain_pair.mpr ⟨⟨_, _, rfl, h.goesOn, rfl, hend⟩, hnow⟩
    · have hlast := h3 q hq p rfl
      cases hr
      exact ⟨hlast.events, hlast.opened⟩
  · have hmid : mid = [] := by simp_all
    rw [hmid]
    exact Nat.zero_le _
  · have hold : ∀ q ∈ ps ++ [p], q.opened = t₀ ∨ ∃ x ∈ es ++ [e], q.opened = x.reading := fun q hq =>
      (h.times q hq).imp id fun ⟨x, hx, heq⟩ => ⟨x, List.mem_append_left _ hx, heq⟩
    simp only [List.append_assoc, List.mem_append, List.mem_singleton] at hq
    rcases hq with hq | rfl | rfl
    · exact hold q (List.mem_append_left _ hq)
    · exact hold p (by simp)
    · exact .inr ⟨e, by simp, rfl⟩

theorem Event.Late.lt {t : Nat} (h : e.Late t) (hne : e ≠ .flush) : t < e.reading := by
  cases e with
  | append => exact h.2
  | flush => exact absurd rfl hne
  | rollFile => exact h

/-- `rollFile` opens the next file, or the clock stands. -/
theorem Story.rollFile (h : Story c t₀ s es ps p) {f : AppendFile} (hf : Holds c f ⟨p.opened, p.events ++ [e]⟩)
    (hne : e ≠ .flush) (hend : p.opened < e.reading → c.rollSize < written (p.events ++ [e]) ∨ e.Late p.opened)
    (count : Nat) (hcount : count = 0 ∨ (count : Int) < c.checkEveryN) :
    ∃ ps' p', Story c t₀ (LogFile.rollFile c { s with file := some f, count := count } e.reading) (es ++ [e])
      ps' p' := by
  by_cases hnow : p.opened < e.reading
  · exact ⟨_, _, h.rolls hf hnow (hend hnow) count hcount⟩
  · have hstay := h.stays hf count s.lastFlush (fun _ => Nat.not_lt.mp hnow)
      (fun now he => by rw [he] at hnow; exact Nat.not_lt.mp hnow) hcount
      (fun hlate => absurd (hlate.lt hne) hnow)
    rw [LogFile.rollFile, if_neg (by rw [h.lastRoll]; exact hnow)]
    exact ⟨_, _, hstay⟩

theorem Story.append (h : Story c t₀ s es ps p) {logline : Bytes} {rs : List Fwrite} {now nowRoll : Nat} {s' : LogFile}
    (hs : s.appendUnlocked c logline rs now nowRoll = some s') :
    ∃ ps' p', Story c t₀ s' (es ++ [.append logline rs now nowRoll]) ps' p' := by
  obtain ⟨f, hfile, hf⟩ := h.file
  simp only [appendUnlocked, hfile, Option.bind_eq_bind, Option.bind_some, Option.bind_eq_some_iff] at hs
  obtain ⟨f', hf', hs⟩ := hs
  have hholds : Holds c f' ⟨p.opened, p.events ++ [.append logline rs now nowRoll]⟩ := hf.append hf'
  have hsize := hholds.writtenBytes
  by_cases hfull : c.rollSize < f'.writtenBytes
  · rw [if_pos hfull, Option.some.injEq] at hs
    rw [hsize] at hfull
    exact hs ▸ h.rollFile hholds (by simp) (fun _ => .inl hfull) _ h.count
  · rw [if_neg hfull] at hs
    rw [hsize] at hfull
    by_cases hcount : (s.count + 1 : Int) < c.checkEveryN
    · rw [if_pos hcount, Option.some.injEq] at hs
      exact ⟨_, _, hs ▸ h.stays hholds (s.count + 1) _ (fun hx => absurd hx hfull) (by simp) (.inr hcount)
        fun _ => Nat.le_refl _⟩
    · rw [if_neg hcount] at hs
      by_cases hday : now / kRollPerSeconds * kRollPerSeconds ≠ s.startOfPeriod
      · rw [if_pos hday, Option.some.injEq] at hs
        have hlate : now / kRollPerSeconds ≠ p.opened / kRollPerSeconds := by
          rw [h.period] at hday
          exact fun heq => hday (by rw [heq])
        exact hs ▸ h.rollFile hholds (by simp) (fun hlt => .inr ⟨hlate, hlt⟩) 0 (.inl rfl)
      · -- in the day of the file no line is late
        rw [if_neg hday] at hs
        have hnot : ¬ (Event.append logline rs now nowRoll).Late p.opened := by
          intro hlate
          rw [h.period, not_ne_iff] at hday
          exact hlate.1 (Nat.eq_of_mul_eq_mul_right (by decide) hday)
        split at hs
        · rw [Option.some.injEq] at hs
          exact ⟨_, _, hs ▸ h.stays hholds.flush 0 now (fun hx => absurd hx hfull) (by simp) (.inl rfl)
            fun hx => absurd hx hnot⟩
        · rw [Option.some.injEq] at hs
          exact ⟨_, _, hs ▸ h.stays hholds 0 _ (fun hx => absurd hx hfull) (by simp) (.inl rfl)
            fun hx => absurd hx hnot⟩

theorem Story.step (h : Story c t₀ s es ps p) {s' : LogFile} (hs : Step c s e s') :
    ∃ ps' p', Story c t₀ s' (es ++ [e]) ps' p' := by
  obtain ⟨f, hfile, hf⟩ := h.file
  cases e with
  | append => exact h.append hs
  | flush =>
    have hholds : Holds c f.flush ⟨p.opened, p.events ++ [.flush]⟩ := by
      refine ⟨hf.filename, ?_, ?_⟩
      · rw [given_append]
        simpa [given, Event.given] using hf.flush.data
      · rw [written_snoc]
        exact hf.writtenBytes
    have hstay := h.stays hholds s.count s.lastFlush (fun _ => Nat.zero_le _) (by simp) h.count fun _ => Nat.le_refl _
    simp only [Step, perform, LogFile.flush, hfile, Option.map_some, Option.some.injEq] at hs
    exact ⟨_, _, hs ▸ hstay⟩
  | rollFile now =>
    have hholds : Holds c f ⟨p.opened, p.events ++ [.rollFile now]⟩ := by
      refine ⟨hf.filename, ?_, ?_⟩
      · rw [given_append]
        simpa [given, Event.given] using hf.data
      · rw [written_snoc]
        exact hf.writtenBytes
    have hroll := h.rollFile hholds (by simp) (fun hlt => .inr hlt) _ h.count
    simp only [Step, perform, Option.some.injEq] at hs
    rw [← hs]
    have hself : s = { s with file := some f, count := s.count } := by rw [← hfile]
    rw [hself]
    exact hroll

theorem story_new (h : new c t₀ = some s) (ht₀ : 0 < t₀) : Story c t₀ s [] [] ⟨t₀, []⟩ := by
  rw [new] at h
  split at h
  · cases h
  · rw [LogFile.rollFile, if_pos ht₀, Option.some.injEq] at h
    subst h
    refine ⟨rfl, .nil, ⟨_, rfl, rfl, rfl, rfl⟩, List.isChain_singleton _, rfl, rfl, .nil _, .inl rfl,
      fun pre mid hsplit _ => ?_, fun q hq => ?_⟩
    · have hmid : mid = [] := by simp_all
      rw [hmid]
      exact Nat.zero_le _
    · rw [List.nil_append, List.mem_singleton] at hq
      exact .inl (by rw [hq])

theorem story_run {s₀ : LogFile} (h₀ : new c t₀ = some s₀) (ht₀ : 0 < t₀) (h : Labelled.Run (Step c) s₀ es s) :
    ∃ ps p, Story c t₀ s es ps p := by
  have hstart : ∃ ps p, Story c t₀ s₀ [] ps p := ⟨_, _, story_new h₀ ht₀⟩
  have hrun := h.history (I := fun s es => ∃ ps p, Story c t₀ s es ps p)
    (fun _ _ _ _ ⟨_, _, hst⟩ hs => hst.step hs) hstart
  rwa [List.nil_append] at hrun

theorem map_eq_of_forall₂ {α β γ : Type} {R : α → β → Prop} {f : α → γ} {g : β → γ} {as : List α} {bs : List β}
    (h : List.Forall₂ R as bs) (hfg : ∀ a b, R a b → f a = g b) : as.map f = bs.map g := by
  induction h with
  | nil => rfl
  | cons hab _ ih => rw [List.map_cons, List.map_cons, hfg _ _ hab, ih]

/-- The files in their order, and their parts of the run. -/
theorem Story.files (h : Story c t₀ s es ps p) : List.Forall₂ (Holds c) s.files (ps ++ [p]) := by
  obtain ⟨f, hfile, hf⟩ := h.file
  rw [LogFile.files, hfile]
  exact List.rel_append h.closed (.cons hf .nil)

theorem Story.opened_lt (h : Story c t₀ s es ps p) : (ps ++ [p]).Pairwise fun q r => q.opened < r.opened :=
  List.IsChain.pairwise (h.ended.imp fun _ _ hend => hend.opened)

theorem Story.names (h : Story c t₀ s es ps p) (ht₀ : t₀ < endOfYears) (hes : ∀ e ∈ es, e.reading < endOfYears) :
    (s.files.map (·.filename)).Pairwise (· < ·) := by
  rw [map_eq_of_forall₂ h.files fun _ _ hq => hq.filename, List.pairwise_map]
  refine h.opened_lt.imp_of_mem fun _ hq hlt => getLogFileName_lt c hlt ?_
  rcases h.times _ hq with heq | ⟨e, he, heq⟩
  · exact heq ▸ ht₀
  · exact heq ▸ hes e he

theorem Story.parts (h : Story c t₀ s es ps p) :
    ((ps ++ [p]).map (·.events)).flatten = es ∧ s.files.map (·.data) = ((ps ++ [p]).map (·.events)).map given := by
  rw [List.map_map, ← h.events, List.flatMap_def]
  exact ⟨rfl, map_eq_of_forall₂ h.files fun _ _ hq => hq.data⟩

/-- A line is given to the stream whole when no write fails. -/
theorem Event.given_whole {s' : LogFile} {logline : Bytes} {rs : List Fwrite} {now nowRoll : Nat}
    (hs : Step c s (.append logline rs now nowRoll) s') (hrs : ∀ r ∈ rs, r.err = false) :
    (Event.append logline rs now nowRoll).given = logline := by
  simp only [Step, perform, appendUnlocked, Option.bind_eq_bind, Option.bind_eq_some_iff] at hs
  obtain ⟨f, -, f', hf', -⟩ := hs
  rw [AppendFile.append, Option.map_eq_some_iff] at hf'
  obtain ⟨r, hr, -⟩ := hf'
  rw [Event.given, hr, appendLoop_whole hrs hr]
  exact List.take_length

/-- In every run of a log opened behind the second 0, whatever the clock says before the year
    10000: sorting the files by their names gives the order in which they were written, and in
    that order they are what was appended, each line in one file, and whole unless a write
    failed. -/
theorem sorted_files {s₀ : LogFile} (h₀ : new c t₀ = some s₀) (ht₀ : 0 < t₀) (h : Labelled.Run (Step c) s₀ es s)
    (hclock : t₀ < endOfYears ∧ ∀ e ∈ es, e.reading < endOfYears) :
    (s.files.map (·.filename)).Pairwise (· < ·) ∧
      ∃ parts : List (List Event), parts.flatten = es ∧ s.files.map (·.data) = parts.map given ∧
        ∀ logline rs now nowRoll, .append logline rs now nowRoll ∈ es → (∀ r ∈ rs, r.err = false) →
          (Event.append logline rs now nowRoll).given = logline := by
  obtain ⟨ps, p, hst⟩ := story_run h₀ ht₀ h
  obtain ⟨hflatten, hdata⟩ := hst.parts
  refine ⟨hst.names hclock.1 hclock.2, _, hflatten, hdata, fun logline rs now nowRoll he hrs => ?_⟩
  obtain ⟨u, v, huv⟩ := h.step_of_mem he
  exact Event.given_whole huv hrs

/-- Two files, the second opened behind the line with which the first was too large. -/
theorem sorted_files_two : ∃ s : LogFile,
    (s.files.map (·.filename)).Pairwise (· < ·) ∧ s.files.map (·.data) = [lit "abcd", lit "e"] := by
  let c : LogFileConf := ⟨lit "app", 3, 3, 2, lit "host", 7⟩
  have hrun : Labelled.Run (Step c) (LogFile.rollFile c ⟨0, 0, 0, 0, none, []⟩ 1)
      [.append (lit "ab") [⟨1, false⟩, ⟨1, false⟩] 1 1, .append (lit "cd") [⟨2, false⟩] 2 2,
        .append (lit "e") [⟨1, false⟩] 2 2]
      ⟨0, 0, 2, 2, some ⟨c.getLogFileName 2, lit "e", 0, 1⟩, [⟨c.getLogFileName 1, lit "abcd", 4, 4⟩]⟩ :=
    .cons rfl (.cons rfl (.cons rfl (.nil _)))
  have hall := sorted_files (c := c) (show new c 1 = some _ from rfl) (by decide) hrun (by decide)
  exact ⟨_, hall.1, rfl⟩

/-- In every run of a log opened behind the second 0, the `lastRoll_` of a log without a file:
    a file goes on as long as it is not larger than `rollSize_` or the clock has not left the
    second of its opening, and takes fewer than `checkEveryN_` lines in a row of
    later days; one that ends is too large or of an earlier day, and the next is opened in the
    second that is read there. -/
theorem file_cuts {s₀ : LogFile} (h₀ : new c t₀ = some s₀) (ht₀ : 0 < t₀) (h : Labelled.Run (Step c) s₀ es s) :
    ∃ (ps : List Part) (p : Part), (ps ++ [p]).flatMap (·.events) = es ∧
      List.Forall₂ (Holds c) s.files (ps ++ [p]) ∧ (ps ++ [p]).IsChain (Ended c) ∧ GoesOn c p.opened p.events := by
  obtain ⟨ps, p, hst⟩ := story_run h₀ ht₀ h
  exact ⟨ps, p, hst.events, hst.files, hst.ended, hst.goesOn⟩

/-- The third line of a later day opens the next file, when every third line is checked. -/
theorem file_cuts_day : ∃ (c : LogFileConf) (s : LogFile) (ps : List Part) (p : Part),
    s.files.length = 2 ∧ List.Forall₂ (Holds c) s.files (ps ++ [p]) ∧ (ps ++ [p]).IsChain (Ended c) := by
  let c : LogFileConf := ⟨lit "app", 100, 3, 3, lit "host", 7⟩
  have hrun : Labelled.Run (Step c) (LogFile.rollFile c ⟨0, 0, 0, 0, none, []⟩ 5)
      [.append (lit "a") [⟨1, false⟩] 90000 90000, .append (lit "b") [⟨1, false⟩] 90001 90001,
        .append (lit "c") [⟨1, false⟩] 90002 90002]
      ⟨0, 86400, 90002, 90002, some ⟨c.getLogFileName 90002, [], 0, 0⟩, [⟨c.getLogFileName 5, lit "abc", 3, 3⟩]⟩ :=
    .cons rfl (.cons rfl (.cons rfl (.nil _)))
  obtain ⟨ps, p, -, hfiles, hended, -⟩ := file_cuts (c := c) (show new c 5 = some _ from rfl) (by decide) hrun
  exact ⟨c, _, ps, p, rfl, hfiles, hended⟩

end LogFile

end Log

end HahaWeb
