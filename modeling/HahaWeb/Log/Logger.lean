/-
  HahaWeb.Log.Logger — `log/Logger`: `AsyncLogger`, its thread and its end.

  The log thread waits, and then flushes each appender that has a full buffer. The
  destructor stops it and waits for its end; then the appenders are destroyed, which flushes
  their files and not their buffers. Proved: the files have every record exactly when every
  record was taken over by a flush, and no flush took more than 25 buffers
  (`shutdown_saves_iff`). A record behind the last flush, which is any record that never
  filled a buffer, is lost; so is the partly filled buffer behind 25 full ones.

  Each appender's part of a run is a run of `FileAsyncLogAppender` (`run_projects`). Not
  modelled: the level, the logger's own lock, which only its thread takes, and changes of
  the list of appenders.
-/

import Mathlib.Logic.Function.Basic
import HahaWeb.Log.LogAppender

namespace HahaWeb

namespace Log

open FileAsyncLogAppender (Fits)

/-- Where the log thread is in `task`. -/
inductive LogThread (I : Type) where
  /-- At `while (running_ == true)`. -/
  | top
  /-- In `waitForSeconds`. -/
  | waiting
  /-- In the loop over `appenders_`, with these to come. -/
  | visiting (rest : List I)
  /-- In `flush` of an appender. -/
  | flushing (i : I) (rest : List I)
  | done
  deriving DecidableEq, Repr

/-- Where the destructor is; `destroyed` when the appenders are, too. -/
inductive Destructor where
  | alive
  | stopped
  | notified
  | joined
  | destroyed
  deriving DecidableEq, Repr

structure AsyncLogger (I : Type) where
  running : Bool
  appenders : I → FileAsyncLogAppender
  thread : LogThread I
  destructor : Destructor

namespace AsyncLogger

variable {I : Type}

def new : AsyncLogger I := ⟨true, fun _ => .new, .top, .alive⟩

inductive Label (I : Type) where
  | thread
  /-- What an appender does: any thread appends, the log thread flushes. -/
  | appender (i : I) (l : FileAsyncLogAppender.Label)
  | stop
  | notifyAll
  | join
  | destroy
  deriving DecidableEq

def sets [DecidableEq I] (s : AsyncLogger I) (i : I) (a : FileAsyncLogAppender) : AsyncLogger I :=
  { s with appenders := Function.update s.appenders i a }

/-- What may happen next; `apps` is the list `appenders_`. A wait ends by its time, by a
    notification or by itself. -/
inductive Step [DecidableEq I] (apps : List I) : AsyncLogger I → Label I → AsyncLogger I → Prop
  | append {s : AsyncLogger I} {i : I} {r : Bytes} {a : FileAsyncLogAppender} : s.destructor ≠ .destroyed →
      FileAsyncLogAppender.Step (s.appenders i) (.append r) a → Step apps s (.appender i (.append r)) (s.sets i a)
  | test {s : AsyncLogger I} : s.thread = .top → s.running = true → Step apps s .thread { s with thread := .waiting }
  | leave {s : AsyncLogger I} : s.thread = .top → s.running = false → Step apps s .thread { s with thread := .done }
  | wake {s : AsyncLogger I} : s.thread = .waiting → Step apps s .thread { s with thread := .visiting apps }
  | skip {s : AsyncLogger I} {i : I} {rest : List I} : s.thread = .visiting (i :: rest) →
      (s.appenders i).empty = true → Step apps s .thread { s with thread := .visiting rest }
  | visit {s : AsyncLogger I} {i : I} {rest : List I} : s.thread = .visiting (i :: rest) →
      (s.appenders i).empty = false → Step apps s .thread { s with thread := .flushing i rest }
  | flush {s : AsyncLogger I} {i : I} {rest : List I} {l : FileAsyncLogAppender.Label} {a : FileAsyncLogAppender} :
      s.thread = .flushing i rest → (∀ r, l ≠ .append r) → l ≠ .finish →
      FileAsyncLogAppender.Step (s.appenders i) l a → Step apps s (.appender i l) (s.sets i a)
  | flushed {s : AsyncLogger I} {i : I} {rest : List I} {a : FileAsyncLogAppender} : s.thread = .flushing i rest →
      FileAsyncLogAppender.Step (s.appenders i) .finish a →
      Step apps s (.appender i .finish) { s.sets i a with thread := .visiting rest }
  | round {s : AsyncLogger I} : s.thread = .visiting [] → Step apps s .thread { s with thread := .top }
  | stop {s : AsyncLogger I} : s.destructor = .alive →
      Step apps s .stop { s with running := false, destructor := .stopped }
  | notifyAll {s : AsyncLogger I} : s.destructor = .stopped → Step apps s .notifyAll { s with destructor := .notified }
  | join {s : AsyncLogger I} : s.destructor = .notified → s.thread = .done →
      Step apps s .join { s with destructor := .joined }
  | destroy {s : AsyncLogger I} : s.destructor = .joined →
      Step apps s .destroy { s with appenders := fun i => (s.appenders i).destroy, destructor := .destroyed }

/-- An appender's part of a run. -/
def part [DecidableEq I] (i : I) (as : List (Label I)) : List FileAsyncLogAppender.Label :=
  as.filterMap fun
    | .appender j l => if j = i then some l else none
    | _ => none

/-- The records in the file of an appender, on the disk. -/
def stored (a : FileAsyncLogAppender) : List Bytes :=
  a.disk.flatMap fun
    | .record r => [r]
    | .dropped _ => []

/-- The files have the records that were appended, each once and in order. -/
def Saved [DecidableEq I] (as : List (Label I)) (s : AsyncLogger I) : Prop :=
  ∀ i, stored (s.appenders i) = (part i as).flatMap FileAsyncLogAppender.Label.appended

/-- Every record appended is taken over by a later flush. -/
def Covered : List FileAsyncLogAppender.Label → Prop
  | [] => True
  | .append _ :: ls => (∃ bs, .take bs ∈ ls) ∧ Covered ls
  | _ :: ls => Covered ls

/-! ## What no flush has taken -/

theorem covered_iff {ls : List FileAsyncLogAppender.Label} {j j' : Journal} (h : Labelled.Run Journal.Step j ls j') :
    j'.fresh = [] ↔ Covered ls ∧ (j.fresh = [] ∨ ∃ bs, .take bs ∈ ls) := by
  induction h with
  | nil => simp [Covered]
  | cons hs _ ih =>
    rw [ih]
    cases hs with
    | append => simp [Covered]; tauto
    | take => simp [Covered]
    | trim => simp [Covered]
    | enter => simp [Covered]
    | write => simp [Covered]
    | finish => simp [Covered]

/-! ## The invariant -/

/-- Only the appender that the log thread flushes is in `flush`, and before its buffers are
    taken over one is full. -/
structure Inv (s : AsyncLogger I) : Prop where
  appender : ∀ i, (s.appenders i).Inv
  phase : ∀ i, (s.appenders i).flush ≠ .idle → ∃ rest, s.thread = .flushing i rest
  due : ∀ i rest, s.thread = .flushing i rest → (s.appenders i).flush = .idle ∨ (s.appenders i).flush = .entered →
    (s.appenders i).buffers ≠ []
  ended : s.destructor = .joined ∨ s.destructor = .destroyed → s.thread = .done

theorem inv_new : Inv (new : AsyncLogger I) := by
  refine ⟨fun _ => FileAsyncLogAppender.inv_new, ?_, ?_, ?_⟩ <;> simp [new, FileAsyncLogAppender.new]

/-- The log thread moves while no appender is in `flush`. -/
theorem Inv.moves {s : AsyncLogger I} (hi : Inv s) (hidle : ∀ i rest, s.thread ≠ .flushing i rest) {p : LogThread I}
    (hp : ∀ i rest, p = .flushing i rest → (s.appenders i).empty = false) (hdone : s.thread = .done → p = .done) :
    Inv { s with thread := p } := by
  refine ⟨hi.appender, fun i hf => ?_, fun i rest hfl _ => ?_, fun hd => hdone (hi.ended hd)⟩
  · obtain ⟨rest, hth⟩ := hi.phase i hf
    exact absurd hth (hidle i rest)
  · intro hb
    have hfull := hp i rest hfl
    rw [FileAsyncLogAppender.empty, hb] at hfull
    cases hfull

variable [DecidableEq I] {apps : List I} {s s' : AsyncLogger I} {i : I}

theorem sets_self (s : AsyncLogger I) (i : I) (a : FileAsyncLogAppender) : (s.sets i a).appenders i = a :=
  Function.update_self ..

theorem sets_of_ne (s : AsyncLogger I) {i k : I} (a : FileAsyncLogAppender) (h : k ≠ i) :
    (s.sets i a).appenders k = s.appenders k :=
  Function.update_of_ne h ..

/-- One appender changes, and the log thread stays where it is. -/
theorem Inv.sets (hi : Inv s) {a : FileAsyncLogAppender} (ha : a.Inv)
    (hphase : a.flush ≠ .idle → ∃ rest, s.thread = .flushing i rest)
    (hdue : ∀ rest, s.thread = .flushing i rest → a.flush = .idle ∨ a.flush = .entered → a.buffers ≠ []) :
    Inv (s.sets i a) := by
  refine ⟨fun k => ?_, fun k hf => ?_, fun k rest hth hf => ?_, hi.ended⟩
  · by_cases hk : k = i
    · rw [hk, sets_self]
      exact ha
    · rw [sets_of_ne s a hk]
      exact hi.appender k
  · by_cases hk : k = i
    · rw [hk, sets_self] at hf
      exact hk ▸ hphase hf
    · rw [sets_of_ne s a hk] at hf
      exact hi.phase k hf
  · by_cases hk : k = i
    · subst hk
      rw [sets_self] at hf ⊢
      exact hdue rest hth hf
    · rw [sets_of_ne s a hk] at hf ⊢
      exact hi.due k rest hth hf

theorem step_inv {l : Label I} (hi : Inv s) (h : Step apps s l s') : Inv s' := by
  cases h with
  | @append i r a hnot hs =>
    have hi' := FileAsyncLogAppender.step_inv (hi.appender i) hs
    have hflush : a.flush = (s.appenders i).flush ∧ ((s.appenders i).buffers ≠ [] → a.buffers ≠ []) := by
      cases hs with
      | append _ hr =>
        obtain ⟨-, -, c, n, bs, he⟩ := FileAsyncLogAppender.append_spec (hi.appender i) hr
        exact ⟨by rw [he], FileAsyncLogAppender.append_buffers⟩
    refine hi.sets hi' (fun hf => hi.phase i (hflush.1 ▸ hf)) fun rest hth hf => ?_
    rw [hflush.1] at hf
    exact hflush.2 (hi.due i rest hth hf)
  | test hth => exact hi.moves (by simp [hth]) (by simp) (by simp [hth])
  | leave hth => exact hi.moves (by simp [hth]) (by simp) (by simp [hth])
  | wake hth => exact hi.moves (by simp [hth]) (by simp) (by simp [hth])
  | skip hth => exact hi.moves (by simp [hth]) (by simp) (by simp [hth])
  | visit hth he =>
    refine hi.moves (by simp [hth]) (fun i rest hp => ?_) (by simp [hth])
    cases hp
    exact he
  | @flush i rest l a hth hl hlast hs =>
    have hi' := FileAsyncLogAppender.step_inv (hi.appender i) hs
    obtain ⟨hbusy, hent⟩ := FileAsyncLogAppender.step_flushing (hi.appender i) hs hl hlast
    refine hi.sets hi' (fun _ => ⟨rest, hth⟩) fun rest' hth' hf => ?_
    have he := hent (hf.resolve_left hbusy)
    rw [he.2]
    exact hi.due i rest' hth' (.inl he.1)
  | @flushed i rest a hth hs =>
    have hi' := FileAsyncLogAppender.step_inv (hi.appender i) hs
    have hidle : a.flush = .idle := by
      cases hs with
      | finish hf => exact (FileAsyncLogAppender.finish_spec (hi.appender i) hf).2.1
    refine ⟨fun k => ?_, fun k hf => ?_, by simp, fun hd => ?_⟩
    · by_cases hk : k = i
      · rw [hk]
        exact (sets_self s i a).symm ▸ hi'
      · exact (sets_of_ne s a hk).symm ▸ hi.appender k
    · have hf : ((s.sets i a).appenders k).flush ≠ .idle := hf
      by_cases hk : k = i
      · rw [hk, sets_self] at hf
        exact absurd hidle hf
      · rw [sets_of_ne s a hk] at hf
        obtain ⟨rest', hth'⟩ := hi.phase k hf
        cases hth.symm.trans hth'
        exact absurd rfl hk
    · cases hth.symm.trans (hi.ended hd)
  | round hth => exact hi.moves (by simp [hth]) (by simp) (by simp [hth])
  | stop => exact ⟨hi.appender, hi.phase, hi.due, by simp⟩
  | notifyAll => exact ⟨hi.appender, hi.phase, hi.due, by simp⟩
  | join _ hth => exact ⟨hi.appender, hi.phase, hi.due, fun _ => hth⟩
  | destroy hd =>
    have hth := hi.ended (.inl hd)
    refine ⟨fun i => ?_, hi.phase, hi.due, fun _ => hth⟩
    obtain ⟨h1, h2, h3, h4, h5, h6⟩ := hi.appender i
    exact ⟨h1, h2, h3, h4, h5, h6⟩

/-- What a flush takes over ends with the current buffer, which has a record. -/
theorem step_loaded {bs : List (List Bytes)} (hi : Inv s) (h : Step apps s (.appender i (.take bs)) s') :
    ∃ front b, bs = front ++ [b] ∧ b ≠ [] := by
  cases h with
  | @flush _ rest _ a hth _ _ hs =>
    cases hs with
    | take hf =>
      have hfull := hi.due i rest hth (.inr hf)
      exact ⟨_, _, by rw [List.map_append, List.map_singleton], (hi.appender i).fed hfull⟩

theorem run_loaded {as : List (Label I)} (h : Labelled.Run (Step apps) s as s') (hi : Inv s) :
    ∀ i bs, .appender i (.take bs) ∈ as → ∃ front b, bs = front ++ [b] ∧ b ≠ [] := by
  induction h with
  | nil => simp
  | cons hs _ ih =>
    intro i bs hmem
    rcases List.mem_cons.mp hmem with rfl | hmem
    · exact step_loaded hi hs
    · exact ih (step_inv hi hs) i bs hmem

/-! ## The part of an appender -/

/-- What the appender is in its own run. -/
structure Plays (i : I) (s : AsyncLogger I) (a : FileAsyncLogAppender) : Prop where
  inv : Inv s
  before : s.destructor ≠ .destroyed → s.appenders i = a
  after : s.destructor = .destroyed → s.appenders i = a.destroy

theorem mem_part {l : FileAsyncLogAppender.Label} {as : List (Label I)} : l ∈ part i as ↔ .appender i l ∈ as := by
  unfold part
  rw [List.mem_filterMap]
  constructor
  · intro h
    obtain ⟨m, hm, heq⟩ := h
    cases m with
    | appender k l' =>
      by_cases hk : k = i
      · simp only [hk, if_true, Option.some.injEq] at heq
        rwa [hk, heq] at hm
      · simp [hk] at heq
    | _ => simp at heq
  · exact fun h => ⟨_, h, if_pos rfl⟩

theorem part_cons (i : I) (l : Label I) (as : List (Label I)) : part i (l :: as) = part i [l] ++ part i as := by
  rw [part, part, part, ← List.filterMap_append]
  rfl

/-- An appender moves, whichever it is. -/
theorem Plays.sets {a a' : FileAsyncLogAppender} {k : I} {l : FileAsyncLogAppender.Label} (hp : Plays i s a)
    (hnot : s.destructor ≠ .destroyed) (hs : FileAsyncLogAppender.Step (s.appenders k) l a') (hi : Inv s')
    (happ : s'.appenders = (s.sets k a').appenders) (hd : s'.destructor = s.destructor) :
    ∃ b, Labelled.Run FileAsyncLogAppender.Step a (part i [.appender k l]) b ∧ Plays i s' b := by
  have hsame := hp.before hnot
  by_cases hk : k = i
  · subst hk
    refine ⟨a', ?_, hi, fun _ => ?_, fun h => absurd (hd ▸ h) hnot⟩
    · rw [← hsame]
      simpa [part] using Labelled.Run.cons hs (.nil a')
    · rw [happ, sets_self]
  · refine ⟨a, ?_, hi, fun _ => ?_, fun h => absurd (hd ▸ h) hnot⟩
    · simpa [part, hk] using Labelled.Run.nil a
    · rw [happ, sets_of_ne s a' (Ne.symm hk)]
      exact hsame

/-- A step that no appender makes. -/
theorem Plays.stays {a : FileAsyncLogAppender} {l : Label I} (hp : Plays i s a) (hi : Inv s')
    (hl : part i [l] = []) (happ : s'.appenders = s.appenders)
    (hd : s'.destructor = .destroyed ↔ s.destructor = .destroyed) :
    ∃ b, Labelled.Run FileAsyncLogAppender.Step a (part i [l]) b ∧ Plays i s' b := by
  refine ⟨a, hl ▸ .nil a, hi, fun h => ?_, fun h => ?_⟩
  · rw [happ]
    exact hp.before (mt hd.mpr h)
  · rw [happ]
    exact hp.after (hd.mp h)

theorem step_plays {a : FileAsyncLogAppender} {l : Label I} (hp : Plays i s a) (h : Step apps s l s') :
    ∃ b, Labelled.Run FileAsyncLogAppender.Step a (part i [l]) b ∧ Plays i s' b := by
  have hi' := step_inv hp.inv h
  have hend : s.destructor = .destroyed → s.thread = .done := fun hd => hp.inv.ended (.inr hd)
  cases h with
  | append hnot hs => exact hp.sets hnot hs hi' rfl rfl
  | flush hth _ _ hs => exact hp.sets (fun hd => by cases hth.symm.trans (hend hd)) hs hi' rfl rfl
  | flushed hth hs => exact hp.sets (fun hd => by cases hth.symm.trans (hend hd)) hs hi' rfl rfl
  | test => exact hp.stays hi' rfl rfl .rfl
  | leave => exact hp.stays hi' rfl rfl .rfl
  | wake => exact hp.stays hi' rfl rfl .rfl
  | skip => exact hp.stays hi' rfl rfl .rfl
  | visit => exact hp.stays hi' rfl rfl .rfl
  | round => exact hp.stays hi' rfl rfl .rfl
  | stop hd => exact hp.stays hi' rfl rfl (by simp [hd])
  | notifyAll hd => exact hp.stays hi' rfl rfl (by simp [hd])
  | join hd => exact hp.stays hi' rfl rfl (by simp [hd])
  | destroy hd =>
    have hsame := hp.before (by rw [hd]; simp)
    exact ⟨a, .nil a, hi', by simp, fun _ => congrArg FileAsyncLogAppender.destroy hsame⟩

/-- Each appender's part of a run is a run of its own. -/
theorem run_projects {as : List (Label I)} (h : Labelled.Run (Step apps) s as s') :
    ∀ {a : FileAsyncLogAppender}, Plays i s a →
      ∃ b, Labelled.Run FileAsyncLogAppender.Step a (part i as) b ∧ Plays i s' b := by
  induction h with
  | nil => exact fun hp => ⟨_, .nil _, hp⟩
  | @cons _ _ _ l as hs _ ih =>
    intro a hp
    obtain ⟨b, hone, hp'⟩ := step_plays hp hs
    obtain ⟨c, hrest, hp''⟩ := ih hp'
    exact ⟨c, part_cons i l as ▸ hone.append hrest, hp''⟩

/-! ## The end -/

/-- What an appender has in its file at the end, and what it lost. -/
theorem shutdown_keeps {as : List (Label I)} (h : Labelled.Run (Step apps) new as s) (hd : s.destructor = .destroyed)
    (i : I) : ∃ j, Labelled.Run Journal.Step .new (part i as) j ∧
      stored (s.appenders i) ++ j.fresh = j.records ∧
      j.records.length + ((part i as).flatMap FileAsyncLogAppender.Label.dropped).length =
        ((part i as).flatMap FileAsyncLogAppender.Label.appended).length := by
  have hplays : Plays i (new : AsyncLogger I) .new := ⟨inv_new, fun _ => rfl, by simp [new]⟩
  obtain ⟨a, hrun, hp⟩ := run_projects h hplays
  obtain ⟨j, hj, hk, hcount⟩ := FileAsyncLogAppender.run_counts hrun FileAsyncLogAppender.keeps_new
  have hsame := hp.after hd
  -- the log thread is done, so the appender is not in `flush`
  have hidle : a.flush = .idle := by
    by_contra hbusy
    obtain ⟨rest, hth⟩ := hp.inv.phase i (by rw [hsame]; exact hbusy)
    cases hth.symm.trans (hp.inv.ended (.inr hd))
  have hw := hk.written
  simp only [FileAsyncLogAppender.Written, hidle] at hw
  refine ⟨j, hj, ?_, ?_⟩
  · rw [hsame, Journal.records, ← hw]
    rfl
  · have hnone : a.excess j = [] := FileAsyncLogAppender.excess_of_ne (by rw [hidle]; simp)
    rw [hnone] at hcount
    simpa [Journal.records, Journal.new, FileAsyncLogAppender.excess, FileAsyncLogAppender.new] using hcount

/-- The files have every record exactly when every record was taken over by a flush and no
    flush took more than 25 buffers. -/
theorem shutdown_saves_iff {as : List (Label I)} (h : Labelled.Run (Step apps) new as s)
    (hd : s.destructor = .destroyed) : Saved as s ↔ ∀ i, Covered (part i as) ∧ Fits (part i as) := by
  constructor
  · intro hsaved i
    obtain ⟨j, hj, hstored, hcount⟩ := shutdown_keeps h hd i
    have hlen := congrArg List.length hstored
    rw [hsaved i, List.length_append] at hlen
    have hfresh : j.fresh = [] := List.length_eq_zero_iff.mp (by omega)
    have hdropped : (part i as).flatMap FileAsyncLogAppender.Label.dropped = [] := List.length_eq_zero_iff.mp (by omega)
    refine ⟨((covered_iff hj).mp hfresh).1, fun bs hbs => ?_⟩
    by_contra hlarge
    obtain ⟨front, b, rfl, hb⟩ := run_loaded h inv_new i bs (mem_part.mp hbs)
    -- the last of the buffers is behind the first 25
    have hbehind : kbuffersMaxSize ≤ front.length := by
      rw [List.length_append, List.length_singleton] at hlarge
      omega
    have hnone : ((front ++ [b]).drop kbuffersMaxSize).flatten = [] := List.flatMap_eq_nil_iff.mp hdropped _ hbs
    rw [List.drop_append_of_le_length hbehind, List.flatten_append] at hnone
    exact hb (by simpa using (List.append_eq_nil_iff.mp hnone).2)
  · intro hall i
    obtain ⟨hcov, hfits⟩ := hall i
    obtain ⟨j, hj, hstored, -⟩ := shutdown_keeps h hd i
    have hfresh : j.fresh = [] := (covered_iff hj).mpr ⟨hcov, .inl rfl⟩
    rw [hfresh, List.append_nil] at hstored
    rw [hstored, FileAsyncLogAppender.journal_fits hj hfits (Nat.zero_le _)]
    rfl

/-! ## A run that saves -/

/-- Every record is covered that has a flush behind it. -/
theorem covered_replicate {r : Bytes} {ls : List FileAsyncLogAppender.Label} (htake : ∃ bs, .take bs ∈ ls)
    (hc : Covered ls) (n : Nat) : Covered (List.replicate n (.append r) ++ ls) := by
  induction n with
  | zero => exact hc
  | succ n ih =>
    obtain ⟨bs, hbs⟩ := htake
    exact ⟨⟨bs, List.mem_append_right _ hbs⟩, ih⟩

/-- A logger whose appender has the record `n` times in its current buffer. -/
def holding (r : Bytes) (n : Nat) : AsyncLogger Unit :=
  { new with appenders := fun _ => { FileAsyncLogAppender.new with currentBuffer := some ⟨List.replicate n r⟩ } }

theorem append_holding {r : Bytes} (hr : r.length < kSmallBuffer) {n : Nat} (hn : (n + 1) * r.length < kLargeBuffer) :
    Step [()] (holding r n) (.appender () (.append r)) (holding r (n + 1)) := by
  have hlen : FixedBuffer.length ⟨List.replicate n r⟩ = n * r.length := by
    simp [FixedBuffer.length]
  have havail : r.length < FixedBuffer.avail ⟨List.replicate n r⟩ := by
    rw [FixedBuffer.avail, hlen]
    rw [Nat.succ_mul] at hn
    omega
  have happ : ((holding r n).appenders ()).append r = (holding r (n + 1)).appenders () := by
    simp only [holding, FileAsyncLogAppender.append, Option.elim_some]
    rw [if_pos havail, FixedBuffer.append, if_pos havail, List.replicate_succ']
  have hsets : (holding r n).sets () (((holding r n).appenders ()).append r) = holding r (n + 1) := by
    rw [happ, sets]
    congr 1
  have hstep : Step [()] (holding r n) (.appender () (.append r))
      ((holding r n).sets () (((holding r n).appenders ()).append r)) :=
    .append (by simp [holding, new]) (.append (by simp [holding, FileAsyncLogAppender.new]) hr)
  rwa [hsets] at hstep

theorem run_holding {r : Bytes} (hr : r.length < kSmallBuffer) {n : Nat} (hn : n * r.length < kLargeBuffer) :
    Labelled.Run (Step [()]) new (List.replicate n (.appender () (.append r))) (holding r n) := by
  induction n with
  | zero => exact .nil _
  | succ n ih =>
    have hless : n * r.length < kLargeBuffer := by
      rw [Nat.succ_mul] at hn
      omega
    rw [List.replicate_succ']
    exact (ih hless).append (.cons (append_holding hr hn) (.nil _))

/-- What happens when the current buffer has no room for the record: it goes to the full ones,
    a flush takes both over, and the logger ends. -/
def flushed (r : Bytes) (n : Nat) : List (Label Unit) :=
  [.appender () (.append r), .thread, .thread, .thread, .appender () .enter,
    .appender () (.take [List.replicate n r, [r]]), .appender () .trim, .appender () .write, .appender () .write,
    .appender () .finish, .thread, .stop, .notifyAll, .thread, .join, .destroy]

theorem run_flushed {r : Bytes} (hr : r.length < kSmallBuffer) {n : Nat} (hn : kLargeBuffer ≤ (n + 1) * r.length) :
    ∃ s, Labelled.Run (Step [()]) (holding r n) (flushed r n) s ∧ s.destructor = .destroyed := by
  have hnot : ¬r.length < FixedBuffer.avail ⟨List.replicate n r⟩ := by
    rw [Nat.succ_mul] at hn
    have hlen : FixedBuffer.length ⟨List.replicate n r⟩ = n * r.length := by simp [FixedBuffer.length]
    rw [FixedBuffer.avail, hlen]
    omega
  have happ : ((holding r n).appenders ()).append r =
      { FileAsyncLogAppender.new with
        currentBuffer := some ⟨[r]⟩
        nextBuffer := none
        buffers := [some ⟨List.replicate n r⟩] } := by
    have hrec := FixedBuffer.append_new hr
    simp only [holding, FileAsyncLogAppender.append, Option.elim_some]
    rw [if_neg hnot]
    simp [FileAsyncLogAppender.new, ← hrec]
  have hfirst : Step [()] (holding r n) (.appender () (.append r))
      ((holding r n).sets () (((holding r n).appenders ()).append r)) :=
    .append (by simp [holding, new]) (.append (by simp [holding, FileAsyncLogAppender.new]) hr)
  rw [happ] at hfirst
  refine ⟨?_, ?run, ?_⟩
  case run =>
    apply Labelled.Run.cons hfirst
    apply Labelled.Run.cons (.test rfl rfl)
    apply Labelled.Run.cons (.wake rfl)
    apply Labelled.Run.cons (.visit rfl rfl)
    apply Labelled.Run.cons (.flush rfl (by simp) (by simp) (.enter rfl))
    apply Labelled.Run.cons (.flush rfl (by simp) (by simp) (.take rfl))
    apply Labelled.Run.cons (.flush rfl (by simp) (by simp) (.trim rfl))
    apply Labelled.Run.cons (.flush rfl (by simp) (by simp) (.write (Nat.zero_lt_succ 1) rfl))
    apply Labelled.Run.cons (.flush rfl (by simp) (by simp) (.write (Nat.one_lt_succ_succ 0) rfl))
    apply Labelled.Run.cons (.flushed rfl (.finish rfl (Nat.le_refl 2)))
    apply Labelled.Run.cons (.round rfl)
    apply Labelled.Run.cons (.stop rfl)
    apply Labelled.Run.cons (.notifyAll rfl)
    apply Labelled.Run.cons (.leave rfl rfl)
    apply Labelled.Run.cons (.join rfl rfl)
    apply Labelled.Run.cons (.destroy rfl)
    exact .nil _
  rfl

theorem part_flushed (r : Bytes) (n k : Nat) :
    part () (List.replicate k (.appender () (.append r)) ++ flushed r n) =
      List.replicate k (.append r) ++ part () (flushed r n) := by
  induction k with
  | zero => rfl
  | succ k ih =>
    rw [List.replicate_succ, List.cons_append, part_cons, ih]
    rfl

/-- A run whose records fill a buffer, all of which a flush takes over. -/
theorem run_covered {r : Bytes} (hr : r.length < kSmallBuffer) {n : Nat} (hn : n * r.length < kLargeBuffer)
    (hfull : kLargeBuffer ≤ (n + 1) * r.length) : ∃ (as : List (Label Unit)) (s : AsyncLogger Unit),
      Labelled.Run (Step [()]) new as s ∧ s.destructor = .destroyed ∧ (Covered (part () as) ∧ Fits (part () as)) ∧
        (part () as).flatMap FileAsyncLogAppender.Label.appended = List.replicate (n + 1) r := by
  obtain ⟨s, hend, hd⟩ := run_flushed hr hfull
  refine ⟨_, s, (run_holding hr hn).append hend, hd, ?_, ?_⟩
  · rw [part_flushed]
    have hcov : Covered (part () (flushed r n)) := ⟨⟨_, .tail _ (.head _)⟩, trivial⟩
    refine ⟨covered_replicate ⟨_, .tail _ (.tail _ (.head _))⟩ hcov n, fun bs hbs => ?_⟩
    have hlast : bs = [List.replicate n r, [r]] := by simpa [part, flushed] using hbs
    rw [hlast]
    exact (by decide : 2 ≤ 25)
  · have hlast : (part () (flushed r n)).flatMap FileAsyncLogAppender.Label.appended = [r] := rfl
    rw [part_flushed, List.flatMap_append, hlast, List.flatMap_replicate]
    exact (congrArg (· ++ [r]) List.flatten_replicate_singleton).trans List.replicate_succ'.symm

/-- A thousand records fill the buffer; the next one is in the second, and the flush that
    follows takes both over. -/
theorem shutdown_saves_full : ∃ (as : List (Label Unit)) (s : AsyncLogger Unit),
    Labelled.Run (Step [()]) new as s ∧ s.destructor = .destroyed ∧ Saved as s ∧
      stored (s.appenders ()) = List.replicate 1001 (List.replicate 3999 120) := by
  have hlen : (List.replicate 3999 120 : Bytes).length = 3999 := List.length_replicate
  obtain ⟨as, s, hrun, hd, hall, happ⟩ := run_covered (r := List.replicate 3999 120) (n := 1000)
    (by rw [hlen]; decide) (by rw [hlen]; decide) (by rw [hlen]; decide)
  have hsaved := (shutdown_saves_iff hrun hd).mpr fun () => hall
  exact ⟨as, s, hrun, hd, hsaved, (hsaved ()).trans happ⟩

/-- One record, in a buffer that is never full. -/
theorem shutdown_loses : ¬ ∀ (as : List (Label Unit)) (s : AsyncLogger Unit),
    Labelled.Run (fun s l s' => Step [()] s l s' ∧ ∀ i, (s'.appenders i).buffers.length ≤ 25) new as s →
      s.destructor = .destroyed → Saved as s := by
  intro hall
  have hrun : Labelled.Run (fun s l s' => Step [()] s l s' ∧ ∀ i, (s'.appenders i).buffers.length ≤ 25) new
      [.appender () (.append (lit "a")), .stop, .notifyAll, .thread, .join, .destroy]
      ⟨false, fun _ => (FileAsyncLogAppender.new.append (lit "a")).destroy, .done, .destroyed⟩ := by
    apply Labelled.Run.cons ⟨.append (by simp [new]) (.append (by decide) (by decide)), fun () => by decide⟩
    apply Labelled.Run.cons ⟨.stop rfl, fun () => by decide⟩
    apply Labelled.Run.cons ⟨.notifyAll rfl, fun () => by decide⟩
    apply Labelled.Run.cons ⟨.leave rfl rfl, fun () => by decide⟩
    apply Labelled.Run.cons ⟨.join rfl rfl, fun () => by decide⟩
    apply Labelled.Run.cons ⟨.destroy rfl, fun () => by decide⟩
    exact .nil _
  have hsaved := hall _ _ hrun rfl ()
  revert hsaved
  decide

end AsyncLogger

end Log

end HahaWeb
