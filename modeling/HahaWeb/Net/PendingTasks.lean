/-
  HahaWeb.Net.PendingTasks — `EventLoop` and the tasks other threads give it.

  A thread outside the loop pushes its task under the lock and then writes to the eventfd;
  between the two anything may happen. The loop's thread waits in `epoll_wait`, handles
  the events it got, takes all the tasks there are and runs them. The eventfd is
  registered edge-triggered: a write is reported once, when the counter is still above
  zero. A task the loop's own thread is given runs at once and is part of the handler or
  the task that gave it.

  Proved: the tasks run, those taken and those pending are the tasks pushed, in order,
  and when the loop is blocked with a task pending, a write is still to be reported or a
  thread is behind its push and before its write (`no_lost_task`).

  Not modelled: the lock, by which the push and the swap are one step each, and
  `epoll_wait` failing but for `EINTR`.
-/

import Mathlib.Logic.Function.Basic
import HahaWeb.Library.Labelled

namespace HahaWeb

namespace PendingTasks

/-- Where a thread outside the loop is: `queueInLoop` and `quit` write to the eventfd last. -/
inductive Producer where
  | idle
  | pushed
  | quitting
  deriving DecidableEq, Repr

inductive Event where
  | wakeup
  | other
  deriving DecidableEq, Repr

/-- Where the loop's thread is. -/
inductive Phase (T : Type) where
  /-- Before `addChannel(wakeupChannel_)`. -/
  | starting
  /-- In `epoll_wait`. -/
  | waiting
  /-- In the loop over the events, with these to come. -/
  | handling (events : List Event)
  /-- In the loop of `doPendingTasks`, with these to come. -/
  | running (tasks : List T)
  | stopped
  deriving DecidableEq, Repr

/-- `unreported` is the edge of the eventfd in the loop's `epoll`, once it is registered. -/
structure Loop (P T : Type) where
  pendingTasks : List T
  counter : Nat
  unreported : Bool
  quit : Bool
  phase : Phase T
  producers : P → Producer

variable {P T : Type}

def new : Loop P T := ⟨[], 0, false, false, .starting, fun _ => .idle⟩

/-- The greatest value of the counter of an eventfd. -/
def counterMax : Nat := 0xfffffffffffffffe

/-- `wakeup`: the write fails when the counter is at its greatest value. -/
def Loop.wakeup (s : Loop P T) : Loop P T :=
  if s.counter < counterMax then { s with counter := s.counter + 1, unreported := true } else s

/-- `handleEvents`: `handleWakeup` reads the counter, which sets it to zero. -/
def Loop.handleEvents (s : Loop P T) : Event → Loop P T
  | .wakeup => { s with counter := 0 }
  | .other => s

/-- The tasks that `doPendingTasks` has taken and not yet run. -/
def Phase.tasks : Phase T → List T
  | .running tasks => tasks
  | _ => []

inductive Label (P T : Type) where
  | push (p : P) (task : T)
  | quit (p : P)
  | write (p : P)
  | register
  | returns (events : List Event)
  | drop
  | handle (e : Event)
  | swap
  | run (task : T)
  | quitInLoop
  | again
  | exit

variable [DecidableEq P]

inductive Step : Loop P T → Label P T → Loop P T → Prop
  /-- `queueInLoop`, up to the end of the lock. -/
  | push (s : Loop P T) (p : P) (task : T) : s.producers p = .idle →
      Step s (.push p task) { s with
        pendingTasks := s.pendingTasks ++ [task]
        producers := Function.update s.producers p .pushed }
  | quit (s : Loop P T) (p : P) : s.producers p = .idle →
      Step s (.quit p) { s with quit := true, producers := Function.update s.producers p .quitting }
  | write (s : Loop P T) (p : P) : s.producers p ≠ .idle →
      Step s (.write p) { s.wakeup with producers := Function.update s.producers p .idle }
  /-- A descriptor that is ready when it is registered is reported. -/
  | register (s : Loop P T) : s.phase = .starting →
      Step s .register { s with unreported := 0 < s.counter, phase := .running [] }
  /-- `epoll_wait` returns, with no event when it was interrupted. -/
  | returns (s : Loop P T) (events : List Event) : s.phase = .waiting → events.count .wakeup ≤ 1 →
      (.wakeup ∈ events → s.unreported = true ∧ 0 < s.counter) →
      Step s (.returns events) { s with
        unreported := s.unreported && !events.contains .wakeup
        phase := .handling events }
  /-- `epoll_wait` finds that the counter has been read since the write. -/
  | drop (s : Loop P T) : s.phase = .waiting → s.counter = 0 → Step s .drop { s with unreported := false }
  | handle (s : Loop P T) (e : Event) (events : List Event) : s.phase = .handling (e :: events) →
      Step s (.handle e) { s.handleEvents e with phase := .handling events }
  | swap (s : Loop P T) : s.phase = .handling [] →
      Step s .swap { s with pendingTasks := [], phase := .running s.pendingTasks }
  | run (s : Loop P T) (task : T) (tasks : List T) : s.phase = .running (task :: tasks) →
      Step s (.run task) { s with phase := .running tasks }
  /-- `quit` called by a handler or a task. -/
  | quitInLoop (s : Loop P T) : s.phase ≠ .starting → s.phase ≠ .waiting → s.phase ≠ .stopped →
      Step s .quitInLoop { s with quit := true }
  | again (s : Loop P T) : s.phase = .running [] → s.quit = false → Step s .again { s with phase := .waiting }
  | exit (s : Loop P T) : s.phase = .running [] → s.quit = true → Step s .exit { s with phase := .stopped }

/-! ## The tasks, in order -/

def Label.pushed : Label P T → List T
  | .push _ task => [task]
  | _ => []

def Label.ran : Label P T → List T
  | .run task => [task]
  | _ => []

/-- The tasks pushed in the course of a run. -/
def pushed (labels : List (Label P T)) : List T := labels.flatMap Label.pushed

/-- The tasks run in its course. -/
def ran (labels : List (Label P T)) : List T := labels.flatMap Label.ran

/-- The tasks that wait to be run. -/
def Loop.held (s : Loop P T) : List T := s.phase.tasks ++ s.pendingTasks

omit [DecidableEq P] in
@[simp] theorem wakeup_pendingTasks (s : Loop P T) : s.wakeup.pendingTasks = s.pendingTasks := by
  unfold Loop.wakeup
  split <;> rfl

omit [DecidableEq P] in
@[simp] theorem wakeup_phase (s : Loop P T) : s.wakeup.phase = s.phase := by
  unfold Loop.wakeup
  split <;> rfl

omit [DecidableEq P] in
@[simp] theorem handleEvents_pendingTasks (s : Loop P T) (e : Event) :
    (s.handleEvents e).pendingTasks = s.pendingTasks := by
  cases e <;> rfl

theorem step_held {s s' : Loop P T} {a : Label P T} (h : Step s a s') : s.held ++ a.pushed = a.ran ++ s'.held := by
  cases h with
  | push p task => simp [Loop.held, Label.pushed, Label.ran]
  | write p => simp [Loop.held, Label.pushed, Label.ran]
  | handle e events hp => simp [Loop.held, Label.pushed, Label.ran, hp, Phase.tasks]
  | swap hp => simp [Loop.held, Label.pushed, Label.ran, hp, Phase.tasks]
  | run task tasks hp => simp [Loop.held, Label.pushed, Label.ran, hp, Phase.tasks]
  -- the other steps leave the tasks where they are
  | _ => simp [Loop.held, Label.pushed, Label.ran, Phase.tasks, *]

/-! ## The wakeups -/

/-- A counter above zero is going to be seen, and so is a task behind whose push no thread
    is any more. -/
structure Woken (s : Loop P T) : Prop where
  counter : 0 < s.counter → s.unreported = true ∨ s.phase = .starting ∨
    ∃ events, s.phase = .handling events ∧ .wakeup ∈ events
  pending : s.pendingTasks ≠ [] →
    (∃ p, s.producers p = .pushed) ∨ (∃ events, s.phase = .handling events) ∨ 0 < s.counter

omit [DecidableEq P] in
/-- A write leaves the counter above zero; it sets the edge unless it fails. -/
theorem wakeup_spec (s : Loop P T) :
    0 < s.wakeup.counter ∧ (s.wakeup.unreported = true ∨ s.wakeup = s ∧ 0 < s.counter) := by
  unfold Loop.wakeup
  split
  · exact ⟨Nat.succ_pos _, .inl rfl⟩
  · rename_i hmax
    have hpos : 0 < s.counter := by
      unfold counterMax at hmax
      omega
    exact ⟨hpos, .inr ⟨rfl, hpos⟩⟩

omit [DecidableEq P] in
theorem woken_new : Woken (new : Loop P T) where
  counter h := absurd h (Nat.lt_irrefl 0)
  pending h := absurd rfl h

theorem Woken.write {s : Loop P T} (hw : Woken s) (p : P) :
    Woken { s.wakeup with producers := Function.update s.producers p .idle } := by
  obtain ⟨hpos, hedge⟩ := wakeup_spec s
  refine ⟨fun _ => ?_, fun _ => .inr (.inr hpos)⟩
  rcases hedge with hedge | ⟨heq, h0⟩
  · exact .inl hedge
  · show s.wakeup.unreported = true ∨ _
    rw [heq]
    exact hw.counter h0

theorem Woken.push {s : Loop P T} (hw : Woken s) (p : P) (task : T) :
    Woken { s with
      pendingTasks := s.pendingTasks ++ [task]
      producers := Function.update s.producers p .pushed } where
  counter := hw.counter
  pending _ := .inl ⟨p, Function.update_self ..⟩

/-- A thread that was not behind a push is elsewhere now. -/
theorem Woken.quit {s : Loop P T} (hw : Woken s) (p : P) (hp : s.producers p = .idle) :
    Woken { s with quit := true, producers := Function.update s.producers p .quitting } where
  counter := hw.counter
  pending h := by
    rcases hw.pending h with ⟨q, hq⟩ | hrest
    · have hne : q ≠ p := by
        intro he
        rw [he, hp] at hq
        cases hq
      exact .inl ⟨q, by simpa [Function.update_of_ne hne] using hq⟩
    · exact .inr hrest

omit [DecidableEq P] in
theorem Woken.returns {s : Loop P T} (hw : Woken s) (hp : s.phase = .waiting) (events : List Event) :
    Woken { s with
      unreported := s.unreported && !events.contains .wakeup
      phase := .handling events } where
  counter h := by
    have hedge : s.unreported = true := by
      rcases hw.counter h with hedge | hs | ⟨es, hs, -⟩
      · exact hedge
      · rw [hp] at hs
        cases hs
      · rw [hp] at hs
        cases hs
    by_cases hmem : .wakeup ∈ events
    · exact .inr (.inr ⟨events, rfl, hmem⟩)
    · exact .inl (by simp [hedge, hmem])
  pending _ := .inr (.inl ⟨events, rfl⟩)

omit [DecidableEq P] in
theorem Woken.handle {s : Loop P T} (hw : Woken s) {e : Event} {events : List Event}
    (hp : s.phase = .handling (e :: events)) : Woken { s.handleEvents e with phase := .handling events } where
  counter h := by
    cases e with
    | wakeup => exact absurd h (Nat.lt_irrefl 0)
    | other =>
      rcases hw.counter h with hedge | hs | ⟨es, hs, hmem⟩
      · exact .inl hedge
      · rw [hp] at hs
        cases hs
      · rw [hp] at hs
        cases hs
        exact .inr (.inr ⟨events, rfl, by simpa using hmem⟩)
  pending _ := .inr (.inl ⟨events, rfl⟩)

omit [DecidableEq P] in
/-- Outside the handling of events, and once the eventfd is registered, the edge is all
    there is to see of the counter. -/
theorem Woken.edge {s : Loop P T} (hw : Woken s) (hs : s.phase ≠ .starting)
    (hh : ∀ events, s.phase = .handling events → .wakeup ∉ events) (h : 0 < s.counter) : s.unreported = true := by
  rcases hw.counter h with hedge | hs' | ⟨es, hp, hmem⟩
  · exact hedge
  · exact absurd hs' hs
  · exact absurd hmem (hh es hp)

omit [DecidableEq P] in
/-- A step of the loop's thread that neither takes tasks nor reads the counter. -/
theorem Woken.move {s : Loop P T} (hw : Woken s) {unreported quit : Bool} {phase : Phase T}
    (hh : ∀ events, s.phase ≠ .handling events) (hedge : 0 < s.counter → unreported = true) :
    Woken { s with unreported := unreported, quit := quit, phase := phase } where
  counter h := .inl (hedge h)
  pending h := by
    rcases hw.pending h with hp | ⟨es, hs⟩ | hpos
    · exact .inl hp
    · exact absurd hs (hh es)
    · exact .inr (.inr hpos)

theorem step_woken {s s' : Loop P T} {a : Label P T} (hw : Woken s) (h : Step s a s') : Woken s' := by
  cases h with
  | push p task => exact hw.push p task
  | quit p hp => exact hw.quit p hp
  | write p => exact hw.write p
  | register hp => exact hw.move (by simp [hp]) (by simp)
  | returns events hp => exact hw.returns hp events
  | drop hp h0 => exact hw.move (by simp [hp]) (by omega)
  | handle e events hp => exact hw.handle hp
  | swap hp =>
    have hedge := hw.edge (by simp [hp]) fun es hs => by
      rw [hp] at hs
      cases hs
      exact List.not_mem_nil
    exact ⟨fun h => .inl (hedge h), fun h => absurd rfl h⟩
  | run task tasks hp => exact hw.move (by simp [hp]) (hw.edge (by simp [hp]) (by simp [hp]))
  | quitInLoop => exact ⟨hw.counter, hw.pending⟩
  | again hp => exact hw.move (by simp [hp]) (hw.edge (by simp [hp]) (by simp [hp]))
  | exit hp => exact hw.move (by simp [hp]) (hw.edge (by simp [hp]) (by simp [hp]))

/-- Whatever the threads do, the tasks run are the first of those pushed, each once; and a
    loop that is blocked with a task pending has a write to be reported, or a thread that is
    about to write. -/
theorem no_lost_task (labels : List (Label P T)) (s : Loop P T) (hrun : Labelled.Run Step new labels s) :
    ran labels ++ s.phase.tasks ++ s.pendingTasks = pushed labels ∧
      (s.phase = .waiting → s.pendingTasks ≠ [] →
        (s.unreported = true ∧ 0 < s.counter) ∨ ∃ p, s.producers p = .pushed) := by
  constructor
  · have hheld := hrun.conserves Loop.held Label.pushed Label.ran fun _ _ _ => step_held
    rw [List.append_assoc]
    exact hheld.symm
  · intro hp hne
    have hw : Woken s := hrun.invariant (fun _ _ _ hw => step_woken hw) woken_new
    rcases hw.pending hne with hpush | ⟨es, hs⟩ | hpos
    · exact .inr hpush
    · rw [hp] at hs
      cases hs
    · exact .inl ⟨hw.edge (by simp [hp]) (by simp [hp]) hpos, hpos⟩

theorem no_lost_task_two : ∃ s : Loop Bool Nat,
    Labelled.Run Step new [.register, .again, .push true 1, .push false 2, .write false] s ∧
      s.phase = .waiting ∧ s.pendingTasks ≠ [] ∧
      ((s.unreported = true ∧ 0 < s.counter) ∨ ∃ p, s.producers p = .pushed) := by
  have hrun : Labelled.Run Step (new : Loop Bool Nat)
      [.register, .again, .push true 1, .push false 2, .write false] _ :=
    .cons (.register _ rfl) (.cons (.again _ rfl rfl) (.cons (.push _ true 1 rfl)
      (.cons (.push _ false 2 (by decide)) (.cons (.write _ false (by decide)) (.nil _)))))
  exact ⟨_, hrun, rfl, by decide, (no_lost_task _ _ hrun).2 rfl (by decide)⟩

end PendingTasks

end HahaWeb
