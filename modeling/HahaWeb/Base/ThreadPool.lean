/-
  HahaWeb.Base.ThreadPool — `base/ThreadPool`: the workers, the tasks and the destructor.

  A worker tests `isRunning_` and the queue under the mutex; when it has to wait it gives
  the mutex up and blocks in one step. The destructor sets `isRunning_` and notifies without
  the mutex, so it may do both while a worker is behind its test and not yet blocked.

  Proved: in a run whose `notify_all` comes when no worker is there, no worker is blocked
  afterwards (`shutdown_wakes`). A worker that is there blocks (`notify_too_early`) and stays
  blocked, and the destructor does not return (`blocked_stays`), until something else wakes
  it. The queue is not empty when a task is taken (`front_exists`).

  `isRunning_` and `empty()` are tested in one step, since the queue changes only under the
  mutex. A task that calls `addTask` is one more client. Not modelled: `start`, which sets
  `isRunning_` before there is a worker.
-/

import Mathlib.Logic.Function.Basic
import HahaWeb.Library.Labelled

namespace HahaWeb

namespace ThreadPool

/-- Where a worker is in `run`. -/
inductive Worker (T : Type) where
  /-- At `while(isRunning_)`. -/
  | top
  /-- At `RAIILock lock_gaurd(mtx_)`. -/
  | lock
  /-- At `while(isRunning_ && taskPool_.empty())`. -/
  | test
  /-- At `cond_.wait(mtx_)`, behind a test that was true. -/
  | wait
  /-- Blocked in `cond_.wait`, without the mutex. -/
  | blocked
  /-- Woken, and not yet with the mutex. -/
  | woken
  /-- At `if(!isRunning_)break`. -/
  | check
  | run (task : T)
  | done
  deriving DecidableEq, Repr

/-- Where a thread is in `addTask`. -/
inductive Client (T : Type) where
  | idle
  | locking (task : T)
  | unlocking
  | notifying
  deriving DecidableEq, Repr

inductive Destructor where
  | alive
  | stopped
  | notified
  | joined
  deriving DecidableEq, Repr

structure Pool (W A T : Type) where
  isRunning : Bool
  taskPool : List T
  mtx : Option (W ⊕ A)
  workers : W → Worker T
  clients : A → Client T
  destructor : Destructor

variable {W A T : Type}

def new : Pool W A T := ⟨true, [], none, fun _ => .top, fun _ => .idle, .alive⟩

inductive Label (W A T : Type) where
  | worker (w : W)
  /-- A wake-up that nothing asked for. -/
  | spurious (w : W)
  | addTask (a : A) (task : T)
  | client (a : A)
  /-- `notify_one`, with the worker it wakes. -/
  | notifyOne (a : A) (w : Option W)
  | stop
  | notifyAll
  | join

def Pool.goes [DecidableEq W] (s : Pool W A T) (w : W) (p : Worker T) : Pool W A T :=
  { s with workers := Function.update s.workers w p }

theorem goes_self [DecidableEq W] (s : Pool W A T) (w : W) (p : Worker T) : (s.goes w p).workers w = p :=
  Function.update_self ..

theorem goes_of_ne [DecidableEq W] (s : Pool W A T) {w u : W} (p : Worker T) (h : u ≠ w) :
    (s.goes w p).workers u = s.workers u :=
  Function.update_of_ne h ..

def Pool.client [DecidableEq A] (s : Pool W A T) (a : A) (p : Client T) : Pool W A T :=
  { s with clients := Function.update s.clients a p }

theorem client_self [DecidableEq A] (s : Pool W A T) (a : A) (p : Client T) : (s.client a p).clients a = p :=
  Function.update_self ..

theorem client_of_ne [DecidableEq A] (s : Pool W A T) {a b : A} (p : Client T) (h : b ≠ a) :
    (s.client a p).clients b = s.clients b :=
  Function.update_of_ne h ..

def Worker.wake : Worker T → Worker T
  | .blocked => .woken
  | p => p

/-- What may happen next. `front()` of an empty queue has no meaning and is no step. -/
inductive Step [DecidableEq W] [DecidableEq A] : Pool W A T → Label W A T → Pool W A T → Prop
  | enter {s : Pool W A T} {w : W} : s.workers w = .top → s.isRunning = true → Step s (.worker w) (s.goes w .lock)
  | leave {s : Pool W A T} {w : W} : s.workers w = .top → s.isRunning = false → Step s (.worker w) (s.goes w .done)
  | lock {s : Pool W A T} {w : W} : s.workers w = .lock ∨ s.workers w = .woken → s.mtx = none →
      Step s (.worker w) { s.goes w .test with mtx := some (.inl w) }
  | sleepy {s : Pool W A T} {w : W} : s.workers w = .test → s.isRunning = true → s.taskPool = [] →
      Step s (.worker w) (s.goes w .wait)
  | ready {s : Pool W A T} {w : W} : s.workers w = .test → ¬ (s.isRunning = true ∧ s.taskPool = []) →
      Step s (.worker w) (s.goes w .check)
  | block {s : Pool W A T} {w : W} : s.workers w = .wait → Step s (.worker w) { s.goes w .blocked with mtx := none }
  | quit {s : Pool W A T} {w : W} : s.workers w = .check → s.isRunning = false →
      Step s (.worker w) { s.goes w .done with mtx := none }
  | take {s : Pool W A T} {w : W} {task : T} {rest : List T} : s.workers w = .check → s.isRunning = true →
      s.taskPool = task :: rest → Step s (.worker w) { s.goes w (.run task) with taskPool := rest, mtx := none }
  | finish {s : Pool W A T} {w : W} {task : T} : s.workers w = .run task → Step s (.worker w) (s.goes w .top)
  | spurious {s : Pool W A T} {w : W} : s.workers w = .blocked → Step s (.spurious w) (s.goes w .woken)
  | refuse {s : Pool W A T} {a : A} {task : T} : s.clients a = .idle → s.isRunning = false → Step s (.addTask a task) s
  | accept {s : Pool W A T} {a : A} {task : T} : s.clients a = .idle → s.isRunning = true →
      Step s (.addTask a task) (s.client a (.locking task))
  | emplace {s : Pool W A T} {a : A} {task : T} : s.clients a = .locking task → s.mtx = none →
      Step s (.client a) { s.client a .unlocking with taskPool := s.taskPool ++ [task], mtx := some (.inr a) }
  | unlock {s : Pool W A T} {a : A} : s.clients a = .unlocking →
      Step s (.client a) { s.client a .notifying with mtx := none }
  | notifyOne {s : Pool W A T} {a : A} {w : W} : s.clients a = .notifying → s.workers w = .blocked →
      Step s (.notifyOne a (some w)) ((s.goes w .woken).client a .idle)
  | notifyNone {s : Pool W A T} {a : A} : s.clients a = .notifying → (∀ w, s.workers w ≠ .blocked) →
      Step s (.notifyOne a none) (s.client a .idle)
  | stop {s : Pool W A T} : s.destructor = .alive → Step s .stop { s with isRunning := false, destructor := .stopped }
  | notifyAll {s : Pool W A T} : s.destructor = .stopped →
      Step s .notifyAll { s with workers := fun w => (s.workers w).wake, destructor := .notified }
  | join {s : Pool W A T} : s.destructor = .notified → (∀ w, s.workers w = .done) →
      Step s .join { s with destructor := .joined }

/-- The places in `run` where a worker has the mutex. -/
def Worker.holds (p : Worker T) : Prop := p = .test ∨ p = .wait ∨ p = .check

/-- A worker blocked though the pool has stopped and its `notify_all` has been. -/
def Deadlocked (s : Pool W A T) : Prop :=
  ∃ w, s.workers w = .blocked ∧ s.isRunning = false ∧ (s.destructor = .notified ∨ s.destructor = .joined)

/-- `notify_all` comes when no worker is behind its test and not yet blocked. -/
def Timely (s : Pool W A T) (l : Label W A T) : Prop := l = .notifyAll → ∀ w, s.workers w ≠ .wait

/-! ## The queue -/

/-- Whoever is where the mutex is needed has it, and behind a test that was false there is a
    task, or the pool has stopped. -/
structure Guarded (s : Pool W A T) : Prop where
  worker : ∀ w, (s.workers w).holds → s.mtx = some (.inl w)
  client : ∀ a, s.clients a = .unlocking → s.mtx = some (.inr a)
  task : ∀ w, s.workers w = .check → s.isRunning = true → s.taskPool ≠ []

theorem guarded_new : Guarded (new : Pool W A T) :=
  ⟨by simp [new, Worker.holds], by simp [new], by simp [new]⟩

/-- A worker moves: it has the mutex where it gets to if it needs it, and one that another
    thread has stays, and so does the queue. -/
theorem Guarded.goes [DecidableEq W] {s s' : Pool W A T} {w : W} {p : Worker T} (hs : Guarded s)
    (hw : s'.workers = (s.goes w p).workers) (hc : s'.clients = s.clients) (hr : s'.isRunning = s.isRunning)
    (hown : p.holds → s'.mtx = some (.inl w)) (htask : p = .check → s.isRunning = true → s'.taskPool ≠ [])
    (hother : s.mtx ≠ none → s.mtx ≠ some (.inl w) → s'.mtx = s.mtx ∧ s'.taskPool = s.taskPool) : Guarded s' := by
  have hkeep : ∀ u, u ≠ w → (s.workers u).holds → s'.mtx = some (.inl u) ∧ s'.taskPool = s.taskPool := by
    intro u hne hu
    have hm := hs.worker u hu
    obtain ⟨hm', ht⟩ := hother (by rw [hm]; simp) (by rw [hm]; simpa using hne)
    exact ⟨hm'.trans hm, ht⟩
  constructor
  · intro u hu
    by_cases huw : u = w
    · subst huw
      rw [hw, goes_self] at hu
      exact hown hu
    · rw [hw, goes_of_ne s p huw] at hu
      exact (hkeep u huw hu).1
  · intro a ha
    rw [hc] at ha
    have hm := hs.client a ha
    exact (hother (by rw [hm]; simp) (by rw [hm]; simp)).1.trans hm
  · intro u hu hrun
    rw [hr] at hrun
    by_cases huw : u = w
    · subst huw
      rw [hw, goes_self] at hu
      exact htask hu hrun
    · rw [hw, goes_of_ne s p huw] at hu
      rw [(hkeep u huw (.inr (.inr hu))).2]
      exact hs.task u hu hrun

/-- A client moves to where it needs no mutex. -/
theorem Guarded.moves [DecidableEq A] {s : Pool W A T} (hs : Guarded s) {a : A} {p : Client T} (hp : p ≠ .unlocking) :
    Guarded (s.client a p) := by
  refine ⟨hs.worker, fun b hb => ?_, hs.task⟩
  by_cases hba : b = a
  · rw [hba, client_self] at hb
    exact absurd hb hp
  · rw [client_of_ne s p hba] at hb
    exact hs.client b hb

/-- A client moves while no worker and no other client needs the mutex. -/
theorem Guarded.passes [DecidableEq A] {s s' : Pool W A T} {a : A} {p : Client T}
    (hnone : ∀ w, ¬ (s.workers w).holds) (hother : ∀ b, b ≠ a → s.clients b ≠ .unlocking)
    (hw : s'.workers = s.workers) (hc : s'.clients = (s.client a p).clients)
    (hp : p = .unlocking → s'.mtx = some (.inr a)) : Guarded s' := by
  rw [← hw] at hnone
  refine ⟨fun w hw => absurd hw (hnone w), fun b hb => ?_, fun w hw => absurd (.inr (.inr hw)) (hnone w)⟩
  rw [hc] at hb
  by_cases hba : b = a
  · rw [hba, client_self] at hb
    rw [hba, hp hb]
  · rw [client_of_ne s p hba] at hb
    exact absurd hb (hother b hba)

/-- `notify_all` moves no worker that has the mutex. -/
theorem Guarded.wakes {s : Pool W A T} (hs : Guarded s) (d : Destructor) :
    Guarded { s with workers := fun w => (s.workers w).wake, destructor := d } := by
  have hwake : ∀ w, (s.workers w).wake = .woken ∨ (s.workers w).wake = s.workers w := by
    intro w
    cases s.workers w <;> simp [Worker.wake]
  refine ⟨fun w hw => ?_, hs.client, fun w hw => ?_⟩
  · rcases hwake w with he | he
    · simp only [he, Worker.holds] at hw
      simp at hw
    · simp only [he] at hw
      exact hs.worker w hw
  · rcases hwake w with he | he
    · simp only [he] at hw
      cases hw
    · simp only [he] at hw
      exact hs.task w hw

theorem step_guarded [DecidableEq W] [DecidableEq A] {s s' : Pool W A T} {l : Label W A T} (hs : Guarded s)
    (h : Step s l s') : Guarded s' := by
  -- a worker that needs no mutex where it gets to, and leaves mutex and queue alone
  have hfree : ∀ w {p : Worker T}, ¬ p.holds → Guarded (s.goes w p) := fun w p hp =>
    hs.goes rfl rfl rfl (fun h => absurd h hp) (fun h => absurd (.inr (.inr h)) hp) fun _ _ => ⟨rfl, rfl⟩
  -- nobody has a mutex that is free
  have hnone : s.mtx = none → ∀ w, ¬ (s.workers w).holds := by
    intro hm w hw
    cases hm.symm.trans (hs.worker w hw)
  cases h with
  | enter => exact hfree _ (by simp [Worker.holds])
  | leave => exact hfree _ (by simp [Worker.holds])
  | lock _ hm => exact hs.goes rfl rfl rfl (fun _ => rfl) (by simp) fun hne => absurd hm hne
  | @sleepy w hw => exact hs.goes rfl rfl rfl (fun _ => hs.worker w (.inl hw)) (by simp) fun _ _ => ⟨rfl, rfl⟩
  | @ready w hw hnot =>
    exact hs.goes rfl rfl rfl (fun _ => hs.worker w (.inl hw)) (fun _ hr he => hnot ⟨hr, he⟩) fun _ _ => ⟨rfl, rfl⟩
  | @block w hw =>
    have hm := hs.worker w (.inr (.inl hw))
    exact hs.goes rfl rfl rfl (by simp [Worker.holds]) (by simp) fun _ hne => absurd hm hne
  | @quit w hw =>
    have hm := hs.worker w (.inr (.inr hw))
    exact hs.goes rfl rfl rfl (by simp [Worker.holds]) (by simp) fun _ hne => absurd hm hne
  | @take w _ _ hw =>
    have hm := hs.worker w (.inr (.inr hw))
    exact hs.goes rfl rfl rfl (by simp [Worker.holds]) (by simp) fun _ hne => absurd hm hne
  | finish => exact hfree _ (by simp [Worker.holds])
  | spurious => exact hfree _ (by simp [Worker.holds])
  | refuse => exact hs
  | accept => exact hs.moves (by simp)
  | @emplace a _ _ hm =>
    refine .passes (s := s) (a := a) (p := .unlocking) (hnone hm) (fun b _ hb => ?_) rfl rfl fun _ => rfl
    cases hm.symm.trans (hs.client b hb)
  | @unlock a ha =>
    -- the client has the mutex, so nobody else needs it
    have hm := hs.client a ha
    refine .passes (s := s) (a := a) (p := .notifying) (fun w hw => ?_) (fun b hba hb => ?_) rfl rfl (by simp)
    · cases hm.symm.trans (hs.worker w hw)
    · have hab := hm.symm.trans (hs.client b hb)
      exact hba (Sum.inr.inj (Option.some.inj hab)).symm
  | @notifyOne a w => exact (hfree w (p := .woken) (by simp [Worker.holds])).moves (by simp)
  | notifyNone => exact hs.moves (by simp)
  | stop => exact ⟨hs.worker, hs.client, fun _ _ hr => by cases hr⟩
  | notifyAll => exact hs.wakes _
  | join => exact ⟨hs.worker, hs.client, hs.task⟩

/-- A worker that takes a task finds one. -/
theorem front_exists [DecidableEq W] [DecidableEq A] {ls : List (Label W A T)} {s : Pool W A T}
    (h : Labelled.Run Step new ls s) {w : W} (hw : s.workers w = .check) (hr : s.isRunning = true) : s.taskPool ≠ [] :=
  (h.invariant (fun _ _ _ hs ha => step_guarded hs ha) guarded_new).task w hw hr

/-! ## The end of the pool -/

/-- The pool runs until the destructor stops it, and from `notify_all` on no worker waits. -/
structure Awake (s : Pool W A T) : Prop where
  running : s.isRunning = false ↔ s.destructor ≠ .alive
  awake : s.destructor = .notified ∨ s.destructor = .joined → ∀ w, s.workers w ≠ .wait ∧ s.workers w ≠ .blocked

theorem awake_new : Awake (new : Pool W A T) :=
  ⟨by simp [new], by simp [new]⟩

theorem Awake.stopped {s : Pool W A T} (hs : Awake s) (hd : s.destructor = .notified ∨ s.destructor = .joined) :
    s.isRunning = false := by
  refine hs.running.mpr fun halive => ?_
  rcases hd with hd | hd <;> exact absurd (halive.symm.trans hd) (by decide)

/-- A worker moves: where it gets while the pool runs, and where it does not wait. -/
theorem Awake.goes [DecidableEq W] {s s' : Pool W A T} {w : W} {p : Worker T} (hs : Awake s)
    (hp : s.isRunning = true ∨ p ≠ .wait ∧ p ≠ .blocked) (hr : s'.isRunning = s.isRunning)
    (hd : s'.destructor = s.destructor) (hw : s'.workers = (s.goes w p).workers) : Awake s' := by
  refine ⟨by rw [hr, hd]; exact hs.running, fun hend u => ?_⟩
  rw [hd] at hend
  rw [hw]
  by_cases hu : u = w
  · rw [hu, goes_self]
    rcases hp with hp | hp
    · rw [hs.stopped hend] at hp
      cases hp
    · exact hp
  · rw [goes_of_ne s p hu]
    exact hs.awake hend u

theorem step_awake [DecidableEq W] [DecidableEq A] {s s' : Pool W A T} {l : Label W A T} (hs : Awake s)
    (ht : Timely s l) (h : Step s l s') : Awake s' := by
  cases h with
  | enter hw hr => exact hs.goes (.inl hr) rfl rfl rfl
  | leave => exact hs.goes (.inr (by simp)) rfl rfl rfl
  | lock => exact hs.goes (.inr (by simp)) rfl rfl rfl
  | sleepy hw hr => exact hs.goes (.inl hr) rfl rfl rfl
  | ready => exact hs.goes (.inr (by simp)) rfl rfl rfl
  | @block w hw =>
    -- behind `notify_all` no worker is at `wait`
    refine ⟨hs.running, fun hend => ?_⟩
    exact absurd hw (hs.awake hend w).1
  | quit => exact hs.goes (.inr (by simp)) rfl rfl rfl
  | take => exact hs.goes (.inr (by simp)) rfl rfl rfl
  | finish => exact hs.goes (.inr (by simp)) rfl rfl rfl
  | spurious => exact hs.goes (.inr (by simp)) rfl rfl rfl
  | refuse => exact hs
  | accept => exact ⟨hs.running, hs.awake⟩
  | emplace => exact ⟨hs.running, hs.awake⟩
  | unlock => exact ⟨hs.running, hs.awake⟩
  | notifyOne => exact hs.goes (.inr (by simp)) rfl rfl rfl
  | notifyNone => exact ⟨hs.running, hs.awake⟩
  | stop => exact ⟨by simp, by simp⟩
  | notifyAll hd =>
    refine ⟨?_, fun _ w => ?_⟩
    · have hr : s.isRunning = false := hs.running.mpr (by rw [hd]; decide)
      simp [hr]
    · have hnot := ht rfl w
      cases hw : s.workers w <;> simp_all [Worker.wake]
  | join hd => exact ⟨by rw [hs.running, hd]; simp, fun _ => hs.awake (.inl hd)⟩

/-- When `notify_all` comes while no worker is behind its test and not yet blocked, no worker
    is left blocked. -/
theorem shutdown_wakes [DecidableEq W] [DecidableEq A] {ls : List (Label W A T)} {s : Pool W A T}
    (h : Labelled.Run (fun s l s' => Timely s l ∧ Step s l s') new ls s) : ¬ Deadlocked s := by
  have hs : Awake s := h.invariant (fun _ _ _ hs ha => step_awake hs ha.1 ha.2) awake_new
  intro hdead
  obtain ⟨w, hw, -, hend⟩ := hdead
  exact (hs.awake hend w).2 hw

/-- A worker behind its test when `notify_all` comes blocks afterwards. -/
theorem notify_too_early [DecidableEq W] [DecidableEq A] {s : Pool W A T} {w : W}
    (hr : s.isRunning = false) (hd : s.destructor = .stopped) (hw : s.workers w = .wait) :
    ∃ s', Labelled.Run Step s [.notifyAll, .worker w] s' ∧ Deadlocked s' := by
  let t : Pool W A T := { s with workers := fun w => (s.workers w).wake, destructor := .notified }
  have htw : t.workers w = .wait := by simp only [t, hw, Worker.wake]
  refine ⟨_, .cons (.notifyAll hd) (.cons (.block htw) (.nil _)), w, ?_, hr, .inl rfl⟩
  exact goes_self t w .blocked

theorem step_blocked [DecidableEq W] [DecidableEq A] {s s' : Pool W A T} {l : Label W A T} {w : W}
    (hw : s.workers w = .blocked) (hd : s.destructor = .notified)
    (hl : l ≠ .spurious w ∧ ∀ a, l ≠ .notifyOne a (some w)) (h : Step s l s') :
    s'.workers w = .blocked ∧ s'.destructor = .notified := by
  have hne : ∀ {u : W} {p : Worker T}, s.workers u = p → p ≠ .blocked → (∀ q, (s.goes u q).workers w = .blocked) := by
    intro u p hu hp q
    have huw : w ≠ u := by
      intro he
      rw [← he, hw] at hu
      exact hp hu.symm
    rw [goes_of_ne s q huw]
    exact hw
  cases h with
  | enter hu => exact ⟨hne hu (by simp) _, hd⟩
  | leave hu => exact ⟨hne hu (by simp) _, hd⟩
  | lock hu =>
    rcases hu with hu | hu
    · exact ⟨hne hu (by simp) _, hd⟩
    · exact ⟨hne hu (by simp) _, hd⟩
  | sleepy hu => exact ⟨hne hu (by simp) _, hd⟩
  | ready hu => exact ⟨hne hu (by simp) _, hd⟩
  | block hu => exact ⟨hne hu (by simp) _, hd⟩
  | quit hu => exact ⟨hne hu (by simp) _, hd⟩
  | take hu => exact ⟨hne hu (by simp) _, hd⟩
  | finish hu => exact ⟨hne hu (by simp) _, hd⟩
  | @spurious u =>
    have huw : w ≠ u := fun he => hl.1 (by rw [he])
    exact ⟨(goes_of_ne s _ huw).trans hw, hd⟩
  | @notifyOne a u =>
    have huw : w ≠ u := fun he => hl.2 a (by rw [he])
    exact ⟨(goes_of_ne s _ huw).trans hw, hd⟩
  | stop hd' => cases hd.symm.trans hd'
  | notifyAll hd' => cases hd.symm.trans hd'
  | join _ hdone => cases hw.symm.trans (hdone w)
  | refuse => exact ⟨hw, hd⟩
  | accept => exact ⟨hw, hd⟩
  | emplace => exact ⟨hw, hd⟩
  | unlock => exact ⟨hw, hd⟩
  | notifyNone => exact ⟨hw, hd⟩

/-- A blocked worker stays blocked until it wakes of itself or a `notify_one` chooses it, and
    the destructor does not return before. -/
theorem blocked_stays [DecidableEq W] [DecidableEq A] {s s' : Pool W A T} {ls : List (Label W A T)}
    (h : Labelled.Run Step s ls s') {w : W} (hw : s.workers w = .blocked) (hd : s.destructor = .notified)
    (hls : ∀ l ∈ ls, l ≠ .spurious w ∧ ∀ a, l ≠ .notifyOne a (some w)) :
    s'.workers w = .blocked ∧ s'.destructor = .notified := by
  induction h with
  | nil => exact ⟨hw, hd⟩
  | cons hs _ ih =>
    obtain ⟨hw', hd'⟩ := step_blocked hw hd (hls _ List.mem_cons_self) hs
    exact ih hw' hd' fun l hl => hls l (List.mem_cons_of_mem _ hl)

/-- The one worker there is, at some place in `run` of a pool without tasks. -/
def lone (isRunning : Bool) (mtx : Option (Unit ⊕ Unit)) (p : Worker Unit) (d : Destructor) : Pool Unit Unit Unit :=
  ⟨isRunning, [], mtx, fun _ => p, fun _ => .idle, d⟩

/-- The worker is blocked, and woken by `notify_all`. -/
theorem shutdown_wakes_one : ∃ (ls : List (Label Unit Unit Unit)) (s : Pool Unit Unit Unit),
    Labelled.Run (fun s l s' => Timely s l ∧ Step s l s') new ls s ∧ s.destructor = .joined ∧ ¬ Deadlocked s := by
  have hother : ∀ {s : Pool Unit Unit Unit} {l : Label Unit Unit Unit}, l ≠ .notifyAll → Timely s l :=
    fun hl he => absurd he hl
  have hrun : Labelled.Run (fun s l s' => Timely s l ∧ Step s l s') new
      [.worker (), .worker (), .worker (), .worker (), .stop, .notifyAll, .worker (), .worker (), .worker (), .join]
      (lone false none .done .joined) := by
    apply Labelled.Run.cons (t := lone true none .lock .alive) ⟨hother (by simp), .enter rfl rfl⟩
    apply Labelled.Run.cons (t := lone true (some (.inl ())) .test .alive) ⟨hother (by simp), .lock (.inl rfl) rfl⟩
    apply Labelled.Run.cons (t := lone true (some (.inl ())) .wait .alive) ⟨hother (by simp), .sleepy rfl rfl rfl⟩
    apply Labelled.Run.cons (t := lone true none .blocked .alive) ⟨hother (by simp), .block rfl⟩
    apply Labelled.Run.cons (t := lone false none .blocked .stopped) ⟨hother (by simp), .stop rfl⟩
    apply Labelled.Run.cons (t := lone false none .woken .notified) ⟨by simp [Timely, lone], .notifyAll rfl⟩
    apply Labelled.Run.cons (t := lone false (some (.inl ())) .test .notified) ⟨hother (by simp), .lock (.inr rfl) rfl⟩
    apply Labelled.Run.cons (t := lone false (some (.inl ())) .check .notified)
      ⟨hother (by simp), .ready rfl (by simp [lone])⟩
    apply Labelled.Run.cons (t := lone false none .done .notified) ⟨hother (by simp), .quit rfl rfl⟩
    apply Labelled.Run.cons (t := lone false none .done .joined) ⟨hother (by simp), .join rfl fun _ => rfl⟩
    exact .nil _
  exact ⟨_, _, hrun, rfl, shutdown_wakes hrun⟩

/-- The worker is behind its test when `notify_all` comes. -/
theorem shutdown_deadlocks : ¬ ∀ (ls : List (Label Unit Unit Unit)) (s : Pool Unit Unit Unit),
    Labelled.Run Step new ls s → ¬ Deadlocked s := by
  intro hall
  have hrun : Labelled.Run Step new [.worker (), .worker (), .worker (), .stop]
      (lone false (some (.inl ())) .wait .stopped) := by
    apply Labelled.Run.cons (t := lone true none .lock .alive) (.enter rfl rfl)
    apply Labelled.Run.cons (t := lone true (some (.inl ())) .test .alive) (.lock (.inl rfl) rfl)
    apply Labelled.Run.cons (t := lone true (some (.inl ())) .wait .alive) (.sleepy rfl rfl rfl)
    apply Labelled.Run.cons (t := lone false (some (.inl ())) .wait .stopped) (.stop rfl)
    exact .nil _
  obtain ⟨s, hlast, hdead⟩ := notify_too_early (s := lone false (some (.inl ())) .wait .stopped) (w := ()) rfl rfl rfl
  exact hall _ s (hrun.append hlast) hdead

end ThreadPool

end HahaWeb
