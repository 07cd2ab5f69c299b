/-
  HahaWeb.Log.Rotation — `FileAsyncLogAppender` on its `LogFile`.

  `flush` hands the file a whole buffer at a time, and the notice about dropped ones, and
  flushes it at its end; the file rolls between two such calls. Here the two state machines
  step together: a step of the appender that appends to `file_` is one of the file. Proved,
  over every interleaving of appends with the steps of the log thread: the files in the order
  of their names are whole records and notices, in the order of what was appended, and all of
  them are on the disk when no flush is under way (`rotation_keeps`).
-/

import HahaWeb.Log.LogAppender
import HahaWeb.Log.LogFile

namespace HahaWeb

namespace Log

/-- What is in a file: a record, or the text about dropped buffers. -/
inductive FileEntry where
  | record (r : Bytes)
  | notice (text : Bytes)
  deriving DecidableEq, Repr

namespace FileEntry

def bytes : FileEntry → Bytes
  | record r => r
  | notice text => text

def record? : FileEntry → Option Bytes
  | record r => some r
  | notice _ => none

end FileEntry

/-- The appender and its `file_`. -/
structure RollingAppender where
  appender : FileAsyncLogAppender
  file : LogFile

namespace RollingAppender

variable (c : LogFileConf)

/-- A step of the appender, the text of the date that a notice has, and what `fwrite` and the
    clock return when it comes to the file. -/
structure Label where
  act : FileAsyncLogAppender.Label
  date : Bytes
  rs : List Fwrite
  now : Nat
  nowRoll : Nat
  deriving DecidableEq

/-- `snprintf` into 256 bytes. -/
def noticeText (date : Bytes) (n : Nat) : Bytes :=
  (lit "Dropped log messages at " ++ date ++ lit ", " ++ decimal n ++ lit " larger buffers\n").take 255

/-- What a step of the appender appends to the file. -/
def writes (a : FileAsyncLogAppender) (l : Label) : Option (List FileEntry) :=
  match l.act, a.flush with
  | .trim, _ =>
    if kbuffersMaxSize < a.buffersToWrite.length then
      some [.notice (noticeText l.date (a.buffersToWrite.length - kbuffersMaxSize))]
    else none
  | .write, .writing k => (a.buffersToWrite[k]?.getD none).map fun b => b.records.map .record
  | _, _ => none

/-- What a step does with the file: `append`, `flush` at the end, or nothing. -/
def onFile (a : FileAsyncLogAppender) (l : Label) : Option LogFile.Event :=
  if l.act = .finish then some .flush
  else (writes a l).map fun ps => .append (ps.flatMap FileEntry.bytes) l.rs l.now l.nowRoll

inductive Step : RollingAppender → Label → RollingAppender → Prop
  | inside {r : RollingAppender} {l : Label} {a : FileAsyncLogAppender} : onFile r.appender l = none →
      FileAsyncLogAppender.Step r.appender l.act a → Step r l { r with appender := a }
  | onFile {r : RollingAppender} {l : Label} {a : FileAsyncLogAppender} {e : LogFile.Event} {f : LogFile} :
      onFile r.appender l = some e → FileAsyncLogAppender.Step r.appender l.act a → LogFile.Step c r.file e f →
      Step r l ⟨a, f⟩

/-! ## What is on the disk -/

def Synced (f : AppendFile) : Prop := f.flushed = f.data.length

theorem synced_flush (f : AppendFile) : Synced f.flush := rfl

/-- The closed files are on the disk. -/
theorem rollFile_closed (s : LogFile) (h : ∀ f ∈ s.closed, Synced f) (now : Nat) :
    ∀ f ∈ (s.rollFile c now).closed, Synced f := by
  rw [LogFile.rollFile]
  split
  · intro f hf
    rcases List.mem_append.mp hf with hf | hf
    · exact h f hf
    · obtain ⟨g, hg, rfl⟩ := Option.map_eq_some_iff.mp (Option.mem_toList.mp hf)
      exact synced_flush g
  · exact h

theorem step_closed {s s' : LogFile} {e : LogFile.Event} (hs : LogFile.Step c s e s') (h : ∀ f ∈ s.closed, Synced f) :
    ∀ f ∈ s'.closed, Synced f := by
  cases e with
  | append logline rs now nowRoll =>
    simp only [LogFile.Step, LogFile.perform, LogFile.appendUnlocked, Option.bind_eq_bind,
      Option.bind_eq_some_iff] at hs
    obtain ⟨f, -, f', -, hs⟩ := hs
    split at hs
    · cases hs
      exact rollFile_closed c { s with file := some f' } h nowRoll
    · split at hs
      · cases hs
        exact h
      · split at hs
        · cases hs
          exact rollFile_closed c { s with file := some f', count := 0 } h nowRoll
        · split at hs
          · cases hs
            exact h
          · cases hs
            exact h
  | flush =>
    obtain ⟨f, -, rfl⟩ := Option.map_eq_some_iff.mp hs
    exact h
  | rollFile now =>
    cases hs
    exact rollFile_closed c _ h now

/-- Behind a flush all the files are on the disk. -/
theorem flush_synced {s s' : LogFile} (hs : LogFile.Step c s .flush s') (h : ∀ f ∈ s.closed, Synced f) :
    ∀ f ∈ s'.files, Synced f := by
  obtain ⟨f, -, rfl⟩ := Option.map_eq_some_iff.mp hs
  intro g hg
  rcases List.mem_append.mp hg with hg | hg
  · exact h g hg
  · cases Option.mem_toList.mp hg
    exact synced_flush f

/-! ## One step -/

theorem filterMap_records (rs : List Bytes) : (rs.map FileEntry.record).filterMap FileEntry.record? = rs := by
  induction rs with
  | nil => rfl
  | cons r rs ih => simp [FileEntry.record?, ih]

/-- The records written by a step are those it hands to the file. -/
theorem step_written {a a' : FileAsyncLogAppender} {l : Label} (hi : a.Inv)
    (h : FileAsyncLogAppender.Step a l.act a') :
    a'.written = a.written ++ ((writes a l).getD []).filterMap FileEntry.record? := by
  obtain ⟨act, date, rs, now, nowRoll⟩ := l
  dsimp only at h
  cases h with
  | append _ hr =>
    obtain ⟨-, -, cur, n, bs, he⟩ := FileAsyncLogAppender.append_spec hi hr
    rw [he]
    simp [writes, FileAsyncLogAppender.written]
  | enter hf =>
    obtain ⟨-, he⟩ := FileAsyncLogAppender.enter_spec hi hf
    rw [he]
    simp [writes, FileAsyncLogAppender.written]
  | take => simp [writes, FileAsyncLogAppender.written, FileAsyncLogAppender.take]
  | trim hf =>
    obtain ⟨-, -, -, hw, -⟩ := FileAsyncLogAppender.trim_inv hi hf
    rw [hw]
    simp only [writes]
    split <;> simp [FileEntry.record?]
  | @write k hk hf =>
    obtain ⟨-, -, -, hw, -⟩ := FileAsyncLogAppender.write_spec hi hf hk
    have hfl := hi.flushing
    simp only [FileAsyncLogAppender.Flushing, hf] at hfl
    obtain ⟨b, hb⟩ := Option.ne_none_iff_exists'.mp (hfl.1.full _ (List.getElem_mem hk))
    simp only [hw, writes, hf, hb, List.getElem?_eq_getElem hk, Option.getD_some, Option.map_some, contents,
      Option.elim_some, filterMap_records]
  | finish hf =>
    obtain ⟨-, -, hfile, -⟩ := FileAsyncLogAppender.finish_spec hi hf
    simp [writes, FileAsyncLogAppender.written, hfile]

/-- Between two flushes: nothing has been handed to the file since the last `file_->flush()`. -/
def Resting (a : FileAsyncLogAppender) : Prop := a.flush = .idle ∨ a.flush = .entered ∨ a.flush = .taken

/-- A step that leaves the appender between two flushes began there, or was the last of a
    flush. -/
theorem step_resting {a a' : FileAsyncLogAppender} {l : Label} (hi : a.Inv)
    (h : FileAsyncLogAppender.Step a l.act a') (hrest : Resting a') :
    l.act = .finish ∨ Resting a ∧ onFile a l = none := by
  obtain ⟨act, date, rs, now, nowRoll⟩ := l
  dsimp only at h
  cases h with
  | append _ hr =>
    obtain ⟨-, -, cur, n, bs, he⟩ := FileAsyncLogAppender.append_spec hi hr
    rw [he] at hrest
    exact .inr ⟨hrest, rfl⟩
  | enter hf => exact .inr ⟨.inl hf, rfl⟩
  | take hf => exact .inr ⟨.inr (.inl hf), rfl⟩
  | trim hf =>
    obtain ⟨-, hf', -⟩ := FileAsyncLogAppender.trim_inv hi hf
    simp [Resting, hf'] at hrest
  | write hk hf =>
    obtain ⟨-, hf', -⟩ := FileAsyncLogAppender.write_spec hi hf hk
    simp [Resting, hf'] at hrest
  | finish => exact .inl rfl

/-! ## Runs -/

variable {c}

/-- What has been handed to the file, event by event with its pieces. -/
structure Keeps (s₀ : LogFile) (r : RollingAppender) (as : List Label) (es : List (LogFile.Event × List FileEntry)) :
    Prop where
  appender : Labelled.Run FileAsyncLogAppender.Step .new (as.map (·.act)) r.appender
  file : Labelled.Run (LogFile.Step c) s₀ (es.map (·.1)) r.file
  given : ∀ x ∈ es, x.1.given = x.2.flatMap FileEntry.bytes
  written : (es.flatMap (·.2)).filterMap FileEntry.record? = r.appender.written
  closed : ∀ f ∈ r.file.closed, Synced f
  synced : Resting r.appender → ∀ f ∈ r.file.files, Synced f
  readings : ∀ x ∈ es, x.1.reading = 0 ∨ ∃ l ∈ as, x.1.reading = l.nowRoll

theorem Keeps.inv {s₀ : LogFile} {r : RollingAppender} {as : List Label} {es : List (LogFile.Event × List FileEntry)}
    (h : Keeps (c := c) s₀ r as es) : r.appender.Inv :=
  h.appender.invariant (fun _ _ _ => FileAsyncLogAppender.step_inv) FileAsyncLogAppender.inv_new

/-- The appender's part of a run gets longer. -/
theorem Keeps.run {s₀ : LogFile} {r : RollingAppender} {as : List Label} {es : List (LogFile.Event × List FileEntry)}
    (h : Keeps (c := c) s₀ r as es) {l : Label} {a : FileAsyncLogAppender}
    (hs : FileAsyncLogAppender.Step r.appender l.act a) :
    Labelled.Run FileAsyncLogAppender.Step .new ((as ++ [l]).map (·.act)) a := by
  rw [List.map_append]
  exact h.appender.append (.cons hs (.nil _))

theorem Keeps.step {s₀ : LogFile} {r r' : RollingAppender} {as : List Label}
    {es : List (LogFile.Event × List FileEntry)} (h : Keeps (c := c) s₀ r as es) {l : Label}
    (hl : ∀ x ∈ l.rs, x.err = false) (hs : Step c r l r') : ∃ es', Keeps (c := c) s₀ r' (as ++ [l]) es' := by
  have hmem : ∀ x ∈ es, x.1.reading = 0 ∨ ∃ l' ∈ as ++ [l], x.1.reading = l'.nowRoll := fun x hx =>
    (h.readings x hx).imp id fun ⟨l', hl', heq⟩ => ⟨l', List.mem_append_left _ hl', heq⟩
  cases hs with
  | inside hnone hstep =>
    have hwritten := step_written h.inv hstep
    have hnowrites : writes r.appender l = none := by
      rw [RollingAppender.onFile] at hnone
      split at hnone
      · cases hnone
      · exact Option.map_eq_none_iff.mp hnone
    rw [hnowrites, Option.getD_none, List.filterMap_nil, List.append_nil] at hwritten
    refine ⟨es, h.run hstep, h.file, h.given, h.written.trans hwritten.symm, h.closed, fun hrest => ?_, hmem⟩
    rcases step_resting h.inv hstep hrest with hfin | ⟨hrest', -⟩
    · rw [RollingAppender.onFile, if_pos hfin] at hnone
      cases hnone
    · exact h.synced hrest'
  | @onFile a e f hsome hstep hfile =>
    have hwritten := step_written h.inv hstep
    refine ⟨es ++ [(e, (writes r.appender l).getD [])], h.run hstep, ?_, fun x hx => ?_, ?_,
      step_closed c hfile h.closed, fun hrest => ?_, fun x hx => ?_⟩
    · rw [List.map_append]
      exact h.file.append (.cons hfile (.nil _))
    · rcases List.mem_append.mp hx with hx | hx
      · exact h.given x hx
      · obtain rfl := List.mem_singleton.mp hx
        rw [RollingAppender.onFile] at hsome
        split at hsome
        · rename_i hfin
          cases hsome
          simp [LogFile.Event.given, writes, hfin]
        · obtain ⟨ps, hps, rfl⟩ := Option.map_eq_some_iff.mp hsome
          rw [hps]
          exact LogFile.Event.given_whole hfile hl
    · simp only [List.flatMap_append, List.filterMap_append, h.written, List.flatMap_cons, List.flatMap_nil,
        List.append_nil]
      exact hwritten.symm
    · rcases step_resting h.inv hstep hrest with hfin | ⟨-, hnone⟩
      · rw [RollingAppender.onFile, if_pos hfin] at hsome
        cases hsome
        exact flush_synced c hfile h.closed
      · rw [hnone] at hsome
        cases hsome
    · rcases List.mem_append.mp hx with hx | hx
      · exact hmem x hx
      · obtain rfl := List.mem_singleton.mp hx
        rw [RollingAppender.onFile] at hsome
        split at hsome
        · cases hsome
          exact .inl rfl
        · obtain ⟨ps, -, rfl⟩ := Option.map_eq_some_iff.mp hsome
          exact .inr ⟨l, by simp, rfl⟩

theorem keeps_run {t₀ : Nat} {s₀ : LogFile} (h₀ : LogFile.new c t₀ = some s₀) (ht₀ : 0 < t₀)
    {as : List Label} {r : RollingAppender} (h : Labelled.Run (Step c) ⟨.new, s₀⟩ as r)
    (hio : ∀ l ∈ as, ∀ x ∈ l.rs, x.err = false) : ∃ es, Keeps (c := c) s₀ r as es := by
  have hnew : Keeps (c := c) s₀ ⟨.new, s₀⟩ [] [] := by
    have hs₀ : s₀.closed = [] ∧ ∀ f ∈ s₀.files, Synced f := by
      rw [LogFile.new] at h₀
      split at h₀
      · cases h₀
      · rw [LogFile.rollFile, if_pos ht₀] at h₀
        cases h₀
        exact ⟨rfl, fun f hf => by cases List.mem_singleton.mp hf; rfl⟩
    exact ⟨.nil _, .nil _, by simp, rfl, by simp [hs₀.1], fun _ => hs₀.2, by simp⟩
  have hrun := h.history (I := fun r as => (∀ l ∈ as, ∀ x ∈ l.rs, x.err = false) → ∃ es, Keeps (c := c) s₀ r as es)
    (fun r as l r' ih hs hio => by
      obtain ⟨es, hk⟩ := ih fun l hl => hio l (List.mem_append_left _ hl)
      exact hk.step (hio l (by simp)) hs)
    (fun _ => ⟨[], hnew⟩)
  rw [List.nil_append] at hrun
  exact hrun hio

/-- A list whose images fall into parts falls into parts itself. -/
theorem parts_of_map {α β : Type} {f : α → β} {parts : List (List β)} : ∀ {l : List α}, l.map f = parts.flatten →
    ∃ parts' : List (List α), parts'.flatten = l ∧ parts'.map (List.map f) = parts := by
  induction parts with
  | nil =>
    intro l h
    exact ⟨[], (List.map_eq_nil_iff.mp h).symm, rfl⟩
  | cons p parts ih =>
    intro l h
    obtain ⟨l1, l2, rfl, h1, h2⟩ := List.map_eq_append_iff.mp h
    obtain ⟨parts', rfl, h3⟩ := ih h2
    exact ⟨l1 :: parts', rfl, by rw [List.map_cons, h1, h3]⟩

/-- However appends and the log thread follow each other, and wherever the files roll, as long
    as no write reports an error and the clock stands behind the second 0 and before the year
    10000: sorted by name, the files are whole records and notices, none of them in two files;
    the records in them, those a flush has still to write and those no flush has taken are what
    was appended, in order, when no flush takes more than 25 buffers; and between two flushes
    everything that was written is on the disk. -/
theorem rotation_keeps {t₀ : Nat} {s₀ : LogFile} (h₀ : LogFile.new c t₀ = some s₀) (ht₀ : 0 < t₀)
    {as : List Label} {r : RollingAppender} (h : Labelled.Run (Step c) ⟨.new, s₀⟩ as r)
    (hio : ∀ l ∈ as, ∀ x ∈ l.rs, x.err = false)
    (hclock : t₀ < endOfYears ∧ ∀ l ∈ as, l.nowRoll < endOfYears) :
    (r.file.files.map (·.filename)).Pairwise (· < ·) ∧
      (∃ parts : List (List FileEntry), r.file.files.map (·.data) = parts.map (·.flatMap FileEntry.bytes) ∧
        ((∀ bs, .take bs ∈ as.map (·.act) → bs.length ≤ kbuffersMaxSize) →
          parts.flatten.filterMap FileEntry.record? ++ r.appender.unwritten.flatMap contents ++ r.appender.fresh =
            as.flatMap fun l => l.act.appended)) ∧
      (r.appender.flush = .idle → ∀ f ∈ r.file.files, f.flushed = f.data.length) := by
  obtain ⟨es, hk⟩ := keeps_run h₀ ht₀ h hio
  obtain ⟨ps, p, hst⟩ := LogFile.story_run h₀ ht₀ hk.file
  obtain ⟨hflatten, hdata⟩ := hst.parts
  obtain ⟨parts, hparts, hmap⟩ := parts_of_map hflatten.symm
  refine ⟨hst.names hclock.1 fun e he => ?_, ⟨parts.map (·.flatMap (·.2)), ?_, fun hfits => ?_⟩,
    fun hidle => hk.synced (.inl hidle)⟩
  · obtain ⟨x, hx, rfl⟩ := List.mem_map.mp he
    rcases hk.readings x hx with heq | ⟨l, hl, heq⟩
    · rw [heq]
      decide
    · exact heq ▸ hclock.2 l hl
  · rw [hdata, ← hmap, List.map_map, List.map_map]
    refine List.map_congr_left fun part hpart => ?_
    have hgiven : ∀ x ∈ part, x.1.given = x.2.flatMap FileEntry.bytes := fun x hx =>
      hk.given x (hparts ▸ List.mem_flatten.mpr ⟨part, hpart, hx⟩)
    simp only [Function.comp_apply, LogFile.given, List.flatMap_map, List.flatMap_assoc]
    exact List.flatMap_congr hgiven
  · have hwritten : (parts.map (·.flatMap (·.2))).flatten = es.flatMap (·.2) := by
      simp only [← hparts, List.flatMap_def, List.map_flatten, List.flatten_flatten, List.map_map, Function.comp_def]
    obtain ⟨j, hj, hkeeps, -⟩ := FileAsyncLogAppender.run_counts hk.appender FileAsyncLogAppender.keeps_new
    rw [hwritten, hk.written, hkeeps.records, FileAsyncLogAppender.journal_fits hj hfits (Nat.zero_le _),
      List.flatMap_map]
    rfl

/-- A record that is larger than the file may be: it is in the first file, and on the disk. -/
theorem rotation_keeps_one : ∃ r : RollingAppender, (∀ f ∈ r.file.files, f.flushed = f.data.length) ∧
    r.file.files.map (·.data) = [lit "abcd", []] := by
  let c : LogFileConf := ⟨lit "app", 3, 3, 1024, lit "host", 7⟩
  let a : FileAsyncLogAppender := (FileAsyncLogAppender.new.append (lit "abcd")).enter.take.trim
  let s : LogFile := LogFile.rollFile c ⟨0, 0, 0, 0, none, []⟩ 1
  let s' : LogFile := ⟨0, 0, 2, 2, some ⟨c.getLogFileName 2, [], 0, 0⟩, [⟨c.getLogFileName 1, lit "abcd", 4, 4⟩]⟩
  let l : FileAsyncLogAppender.Label → Label := fun act => ⟨act, [], [⟨4, false⟩], 2, 2⟩
  have hwrite : Step c ⟨a, s⟩ (l .write) ⟨a.write 0 (by decide), s'⟩ :=
    .onFile (e := .append (lit "abcd") [⟨4, false⟩] 2 2) rfl (.write (by decide) rfl) rfl
  have hfinish : Step c ⟨a.write 0 (by decide), s'⟩ (l .finish) ⟨(a.write 0 (by decide)).finish, s'⟩ :=
    .onFile rfl (.finish rfl (by decide)) rfl
  have hrun : Labelled.Run (Step c) ⟨.new, s⟩
      [l (.append (lit "abcd")), l .enter, l (.take [[lit "abcd"]]), l .trim, l .write, l .finish]
      ⟨(a.write 0 (by decide)).finish, s'⟩ := by
    apply Labelled.Run.cons (.inside rfl (.append (by decide) (by decide)))
    apply Labelled.Run.cons (.inside rfl (.enter rfl))
    apply Labelled.Run.cons (.inside rfl (.take rfl))
    apply Labelled.Run.cons (.inside rfl (.trim rfl))
    exact .cons hwrite (.cons hfinish (.nil _))
  have hall := rotation_keeps (c := c) (show LogFile.new c 1 = some _ from rfl) (by decide) hrun (by decide) (by decide)
  exact ⟨_, hall.2.2 rfl, rfl⟩

end RollingAppender

end Log

end HahaWeb
