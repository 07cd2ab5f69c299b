/-
  HahaWeb.Base.TaskDelivery — `base/ThreadPool`: what becomes of the tasks while the pool runs.

  `addTask` notifies after it gave the mutex up, and one worker only. A notification that
  finds no worker blocked is lost. Each worker that is not blocked tests the queue before it
  blocks, so none is lost that is needed.

  Proved: while a worker is blocked, each task in the queue has a worker of its own on the
  way to the queue, or a notification to come (`work_conserving`). When every thread gets
  the mutex again and again if it is free again and again, a task given to a pool that is
  not stopped is started, after those that were in the queue before it and no others
  (`task_starts`).
-/

import Mathlib.Algebra.BigOperators.Group.Finset.Piecewise
import Mathlib.Data.Fintype.BigOperators
import HahaWeb.Base.ThreadPool
import HahaWeb.Library.Liveness

namespace HahaWeb

namespace ThreadPool

open Liveness

variable {W A T : Type}

/-! ## Every task is attended to -/

/-- 1 on the way to the queue. -/
def Worker.seeking : Worker T → Nat
  | .top | .lock | .test | .woken | .check => 1
  | .wait | .blocked | .run _ | .done => 0

/-- 1 with a notification to come. -/
def Client.calling : Client T → Nat
  | .unlocking | .notifying => 1
  | .idle | .locking _ => 0

@[simp] theorem goes_taskPool [DecidableEq W] (s : Pool W A T) (w : W) (p : Worker T) :
    (s.goes w p).taskPool = s.taskPool := rfl

@[simp] theorem client_taskPool [DecidableEq A] (s : Pool W A T) (a : A) (p : Client T) :
    (s.client a p).taskPool = s.taskPool := rfl

def Pool.seekers [Fintype W] (s : Pool W A T) : Nat := ∑ w, (s.workers w).seeking

def Pool.callers [Fintype A] (s : Pool W A T) : Nat := ∑ a, (s.clients a).calling

theorem seekers_goes [Fintype W] [DecidableEq W] {s s' : Pool W A T} {w : W} {p : Worker T}
    (h : s'.workers = (s.goes w p).workers) : s'.seekers + (s.workers w).seeking = s.seekers + p.seeking := by
  unfold Pool.seekers
  rw [h, ← Finset.add_sum_erase _ _ (Finset.mem_univ w), ← Finset.add_sum_erase _ (fun w => (s.workers w).seeking)
    (Finset.mem_univ w), goes_self]
  have hrest : ∑ u ∈ Finset.univ.erase w, ((s.goes w p).workers u).seeking =
      ∑ u ∈ Finset.univ.erase w, (s.workers u).seeking :=
    Finset.sum_congr rfl fun u hu => by rw [goes_of_ne s p (Finset.ne_of_mem_erase hu)]
  omega

theorem callers_client [Fintype A] [DecidableEq A] {s s' : Pool W A T} {a : A} {p : Client T}
    (h : s'.clients = (s.client a p).clients) : s'.callers + (s.clients a).calling = s.callers + p.calling := by
  unfold Pool.callers
  rw [h, ← Finset.add_sum_erase _ _ (Finset.mem_univ a), ← Finset.add_sum_erase _ (fun a => (s.clients a).calling)
    (Finset.mem_univ a), client_self]
  have hrest : ∑ b ∈ Finset.univ.erase a, ((s.client a p).clients b).calling =
      ∑ b ∈ Finset.univ.erase a, (s.clients b).calling :=
    Finset.sum_congr rfl fun b hb => by rw [client_of_ne s p (Finset.ne_of_mem_erase hb)]
  omega

/-- A worker waits only while the queue is empty, and of a pool that runs one is blocked only
    while each task has somebody. -/
structure Attended [Fintype W] [Fintype A] (s : Pool W A T) : Prop where
  empty : ∀ w, s.workers w = .wait → s.taskPool = []
  stopped : s.destructor ≠ .alive → s.isRunning = false
  attended : s.isRunning = true → ∀ w, s.workers w = .blocked → s.taskPool.length ≤ s.seekers + s.callers

section Attended

variable [Fintype W] [Fintype A] [DecidableEq W] [DecidableEq A] {s s' : Pool W A T} {w : W} {a : A}

omit [DecidableEq A] in
/-- A worker moves, and takes no more from the queue than itself from those on the way to it. -/
theorem Attended.goes {p : Worker T} (hs : Attended s) (hw : s'.workers = (s.goes w p).workers)
    (hc : s'.clients = s.clients) (hr : s'.isRunning = s.isRunning) (hd : s'.destructor = s.destructor)
    (hnil : s.taskPool = [] → s'.taskPool = [])
    (hlen : s'.taskPool = [] ∨ p ≠ .wait ∧ p ≠ .blocked ∧
      (s.isRunning = true → s'.taskPool.length + (s.workers w).seeking ≤ s.taskPool.length + p.seeking)) :
    Attended s' := by
  have hcallers : s'.callers = s.callers := by
    unfold Pool.callers
    rw [hc]
  refine ⟨fun u hu => ?_, by rw [hd, hr]; exact hs.stopped, fun hrun u hu => ?_⟩
  · rw [hw] at hu
    by_cases huw : u = w
    · rw [huw, goes_self] at hu
      exact hlen.resolve_right fun hp => hp.1 hu
    · rw [goes_of_ne s p huw] at hu
      exact hnil (hs.empty u hu)
  · rw [hw] at hu
    rcases hlen with hempty | ⟨-, hp, hlen⟩
    · rw [hempty]
      exact Nat.zero_le _
    · have huw : u ≠ w := by
        intro huw
        rw [huw, goes_self] at hu
        exact hp hu
      rw [goes_of_ne s p huw] at hu
      have hatt := hs.attended (hr ▸ hrun) u hu
      have hseek := seekers_goes hw
      have hle := hlen (hr ▸ hrun)
      omega

omit [DecidableEq W] in
/-- A client moves, and puts no more into the queue than itself among those that notify. -/
theorem Attended.moves {p : Client T} (hs : Attended s) (hw : s'.workers = s.workers)
    (hc : s'.clients = (s.client a p).clients) (hr : s'.isRunning = s.isRunning)
    (hd : s'.destructor = s.destructor) (hnil : (∀ w, s.workers w ≠ .wait) ∨ s'.taskPool = s.taskPool)
    (hlen : s'.taskPool.length + (s.clients a).calling ≤ s.taskPool.length + p.calling) : Attended s' := by
  have hseekers : s'.seekers = s.seekers := by
    unfold Pool.seekers
    rw [hw]
  refine ⟨fun w hwait => ?_, by rw [hd, hr]; exact hs.stopped, fun hrun w hb => ?_⟩
  · rw [hw] at hwait
    rcases hnil with hnone | hsame
    · exact absurd hwait (hnone w)
    · exact hsame.trans (hs.empty w hwait)
  · rw [hw] at hb
    have hatt := hs.attended (hr ▸ hrun) w hb
    have hcall := callers_client hc
    omega

theorem step_attended {l : Label W A T} (hg : Guarded s) (hs : Attended s) (h : Step s l s') : Attended s' := by
  cases h with
  | enter hw | ready hw | finish hw | spurious hw =>
    exact hs.goes rfl rfl rfl rfl id (.inr ⟨by simp, by simp, fun _ => by simp [hw, Worker.seeking]⟩)
  | leave _ hr | quit _ hr =>
    exact hs.goes rfl rfl rfl rfl id (.inr ⟨by simp, by simp, fun hrun => by simp [hr] at hrun⟩)
  | lock hw =>
    refine hs.goes rfl rfl rfl rfl id (.inr ⟨by simp, by simp, fun _ => ?_⟩)
    rcases hw with hw | hw <;> simp [hw, Worker.seeking]
  | sleepy _ _ hnil => exact hs.goes rfl rfl rfl rfl id (.inl hnil)
  | block hw => exact hs.goes rfl rfl rfl rfl id (.inl (hs.empty _ hw))
  | take hw _ hpool =>
    refine hs.goes rfl rfl rfl rfl (fun hnil => ?_) (.inr ⟨by simp, by simp, fun _ => ?_⟩)
    · simp [hpool] at hnil
    · simp [hw, hpool, Worker.seeking]
  | refuse => exact hs
  | accept ha => exact hs.moves rfl rfl rfl rfl (.inr rfl) (by simp [ha, Client.calling])
  | emplace ha hm =>
    refine hs.moves rfl rfl rfl rfl (.inl fun w hwait => ?_) (by simp [ha, Client.calling])
    cases hm.symm.trans (hg.worker w (.inr (.inl hwait)))
  | unlock ha => exact hs.moves rfl rfl rfl rfl (.inr rfl) (by simp [ha, Client.calling])
  | @notifyOne a w ha hb =>
    -- the one notified takes the place of the one that notifies
    have hmid : Attended (s.goes w .woken) :=
      hs.goes rfl rfl rfl rfl id (.inr ⟨by simp, by simp, fun _ => by simp [hb, Worker.seeking]⟩)
    refine ⟨hmid.empty, hmid.stopped, fun hrun u hu => ?_⟩
    have hub : s.workers u = .blocked := by
      by_cases huw : u = w
      · rw [huw]
        exact hb
      · exact (goes_of_ne s _ huw).symm.trans hu
    have hatt := hs.attended hrun u hub
    have hseek : ((s.goes w .woken).client a .idle).seekers + (s.workers w).seeking = s.seekers + _ := seekers_goes rfl
    have hcall : ((s.goes w .woken).client a .idle).callers + (s.clients a).calling = s.callers + _ :=
      callers_client rfl
    simp only [hb, ha, Worker.seeking, Client.calling] at hseek hcall
    show s.taskPool.length ≤ _
    omega
  | notifyNone ha hnone => exact ⟨hs.empty, hs.stopped, fun _ w hw => absurd hw (hnone w)⟩
  | stop => exact ⟨hs.empty, fun _ => rfl, fun hrun => by cases hrun⟩
  | notifyAll hd =>
    have hr := hs.stopped (by rw [hd]; simp)
    refine ⟨fun w hw => ?_, fun _ => hr, fun hrun => ?_⟩
    · refine hs.empty w ?_
      cases hw' : s.workers w <;> simp_all [Worker.wake]
    · cases hr.symm.trans hrun
  | join hd =>
    have hr := hs.stopped (by rw [hd]; simp)
    exact ⟨hs.empty, fun _ => hr, hs.attended⟩

theorem attended_of_run {ls : List (Label W A T)} (h : Labelled.Run Step new ls s) : Guarded s ∧ Attended s :=
  h.invariant (I := fun s : Pool W A T => Guarded s ∧ Attended s)
    (fun _ _ _ hs ha => ⟨step_guarded hs.1 ha, step_attended hs.1 hs.2 ha⟩)
    ⟨guarded_new, by simp [new], by simp [new], by simp [new]⟩

/-- While a worker of a pool that was not stopped is blocked, there are at least as many
    workers on the way to the queue and notifications to come as tasks in it. -/
theorem work_conserving {ls : List (Label W A T)} (h : Labelled.Run Step new ls s) (hr : s.isRunning = true)
    (hb : s.workers w = .blocked) : s.taskPool.length ≤ s.seekers + s.callers :=
  (attended_of_run h).2.attended hr w hb

end Attended

/-- One worker is blocked, and the other comes for the task. -/
theorem work_conserving_two : ∃ (ls : List (Label Bool Unit Nat)) (s : Pool Bool Unit Nat),
    Labelled.Run Step new ls s ∧ s.workers false = .blocked ∧ s.taskPool = [7] ∧
      s.taskPool.length ≤ s.seekers + s.callers := by
  have hrun : Labelled.Run Step (new : Pool Bool Unit Nat)
      [.worker false, .worker false, .worker false, .worker false, .addTask () 7, .client ()] _ :=
    .cons (.enter rfl rfl) (.cons (.lock (.inl rfl) rfl) (.cons (.sleepy rfl rfl rfl) (.cons (.block rfl)
      (.cons (.accept rfl rfl) (.cons (.emplace rfl rfl) (.nil _))))))
  exact ⟨_, _, hrun, rfl, rfl, work_conserving (w := false) hrun rfl rfl⟩

/-! ## The threads -/

variable [DecidableEq W] [DecidableEq A] {s t : Pool W A T} {l : Label W A T}

/-- A worker, or a client that is in `addTask`. A task that is run ends. -/
def thread : W ⊕ A → Process (Step (W := W) (A := A) (T := T))
  | .inl w => .of {.worker w}
  | .inr a => .of {l | l = .client a ∨ ∃ w, l = .notifyOne a w}

theorem worker_stays {w : W} (h : Step s l t) (hl : l ≠ .worker w) (hw : s.workers w ≠ .blocked) :
    t.workers w = s.workers w := by
  have hne : ∀ {u : W} (p : Worker T), l = .worker u → (s.goes u p).workers w = s.workers w := by
    intro u p hlu
    exact goes_of_ne s p fun hwu => hl (hwu ▸ hlu)
  have hwoken : ∀ {u : W} (p : Worker T), s.workers u = .blocked → (s.goes u p).workers w = s.workers w := by
    intro u p hu
    exact goes_of_ne s p fun hwu => hw (hwu ▸ hu)
  cases h with
  | enter | leave | lock | sleepy | ready | block | quit | take | finish => exact hne _ rfl
  | spurious hu => exact hwoken _ hu
  | notifyOne _ hu => exact hwoken _ hu
  | notifyAll => cases hw' : s.workers w <;> simp_all [Worker.wake]
  | _ => rfl

theorem client_stays {a : A} (h : Step s l t) (hl : l ∉ (thread (W := W) (T := T) (.inr a)).labels)
    (ha : s.clients a ≠ .idle) : t.clients a = s.clients a := by
  have hne : ∀ {b : A} (p : Client T), l = .client b ∨ (∃ w, l = .notifyOne b w) →
      (s.client b p).clients a = s.clients a := by
    intro b p hlb
    exact client_of_ne s p fun hab => hl (hab ▸ hlb)
  cases h with
  | accept hb => exact client_of_ne s _ fun hab => ha (hab ▸ hb)
  | emplace => exact hne _ (.inl rfl)
  | unlock => exact hne _ (.inl rfl)
  | notifyOne => exact hne _ (.inr ⟨_, rfl⟩)
  | notifyNone => exact hne _ (.inr ⟨_, rfl⟩)
  | _ => rfl

/-- The task that a step starts. -/
def Pool.starts (s : Pool W A T) : Label W A T → List T
  | .worker w => match s.workers w with
    | .check => if s.isRunning then s.taskPool.take 1 else []
    | _ => []
  | _ => []

omit [DecidableEq W] [DecidableEq A] in
theorem starts_length (s : Pool W A T) (l : Label W A T) : (s.starts l).length ≤ 1 := by
  cases l with
  | worker w =>
    simp only [Pool.starts]
    split
    · split
      · exact List.length_take_le _ _
      · exact Nat.zero_le _
    · exact Nat.zero_le _
  | _ => exact Nat.zero_le _

/-- The queue gives its tasks out at the front and takes new ones in at the back. -/
theorem step_queue (h : Step s l t) : ∃ new, s.taskPool ++ new = s.starts l ++ t.taskPool := by
  cases h with
  | emplace => exact ⟨_, rfl⟩
  | take hw hr hpool => exact ⟨[], by simp [Pool.starts, hw, hr, hpool]⟩
  | quit hw hr => exact ⟨[], by simp [Pool.starts, hw, hr]⟩
  | lock hw =>
    refine ⟨[], ?_⟩
    rcases hw with hw | hw <;> simp [Pool.starts, hw]
  | enter hw | leave hw | sleepy hw | ready hw | block hw | finish hw => exact ⟨[], by simp [Pool.starts, hw]⟩
  | _ => exact ⟨[], by simp [Pool.starts]⟩

/-- What starts no task leaves the queue's tasks in it. -/
theorem step_queue_ne (h : Step s l t) (hq : s.taskPool ≠ []) (hl : s.starts l = []) : t.taskPool ≠ [] := by
  obtain ⟨new, hnew⟩ := step_queue h
  rw [hl, List.nil_append] at hnew
  exact hnew ▸ List.append_ne_nil_of_left_ne_nil hq _

theorem stays_stopped (hs : s.isRunning = false) (h : Step s l t) : t.isRunning = false := by
  cases h with
  | stop => rfl
  | _ => exact hs

theorem blocked_not_ready {w : W} (hw : s.workers w = .blocked) : ¬ (thread (T := T) (.inl w : W ⊕ A)).ready s := by
  intro hready
  obtain ⟨l, rfl, t, h⟩ := hready
  cases h with
  | enter h' | leave h' | sleepy h' | ready h' | block h' | quit h' | take h' | finish h' => cases hw.symm.trans h'
  | lock h' => rcases h' with h' | h' <;> cases hw.symm.trans h'

theorem idle_not_ready {a : A} (ha : s.clients a = .idle) : ¬ (thread (T := T) (.inr a : W ⊕ A)).ready s := by
  intro hready
  obtain ⟨l, rfl | ⟨w, rfl⟩, t, h⟩ := hready
  · cases h with
    | emplace h' | unlock h' => cases ha.symm.trans h'
  · cases h with
    | notifyOne h' | notifyNone h' => cases ha.symm.trans h'

/-! ## The mutex is given up -/

/-- Whoever has the mutex is where it is needed, and while the pool runs no worker leaves. -/
structure Kept (s : Pool W A T) : Prop where
  worker : ∀ w, s.mtx = some (.inl w) → (s.workers w).holds
  client : ∀ a, s.mtx = some (.inr a) → s.clients a = .unlocking
  done : s.isRunning = true → ∀ w, s.workers w ≠ .done

omit [DecidableEq A] in
theorem Kept.goes {w : W} {p : Worker T} (hs : Kept s) (hw : t.workers = (s.goes w p).workers)
    (hc : t.clients = s.clients) (hr : t.isRunning = s.isRunning) (hdone : s.isRunning = true → p ≠ .done)
    (hm : t.mtx = none ∨ t.mtx = some (.inl w) ∧ p.holds ∨ t.mtx = s.mtx ∧ ¬ (s.workers w).holds) : Kept t := by
  refine ⟨fun u hu => ?_, fun a ha => ?_, fun hrun u => ?_⟩
  · rw [hw]
    rcases hm with hm | ⟨hm, hp⟩ | ⟨hm, hp⟩
    · cases hm.symm.trans hu
    · obtain rfl : w = u := Sum.inl.inj (Option.some.inj (hm.symm.trans hu))
      rwa [goes_self]
    · have hold := hs.worker u (hm ▸ hu)
      have huw : u ≠ w := fun he => hp (he ▸ hold)
      rwa [goes_of_ne s p huw]
  · rw [hc]
    rcases hm with hm | ⟨hm, -⟩ | ⟨hm, -⟩
    · cases hm.symm.trans ha
    · cases hm.symm.trans ha
    · exact hs.client a (hm ▸ ha)
  · rw [hw]
    by_cases huw : u = w
    · rw [huw, goes_self]
      exact hdone (hr ▸ hrun)
    · rw [goes_of_ne s p huw]
      exact hs.done (hr ▸ hrun) u

omit [DecidableEq W] in
theorem Kept.moves {a : A} {p : Client T} (hs : Kept s) (hw : t.workers = s.workers)
    (hc : t.clients = (s.client a p).clients) (hr : t.isRunning = s.isRunning)
    (hm : t.mtx = none ∨ t.mtx = some (.inr a) ∧ p = .unlocking ∨ t.mtx = s.mtx ∧ s.clients a ≠ .unlocking) :
    Kept t := by
  refine ⟨fun w hmw => ?_, fun b hb => ?_, fun hrun => by rw [hw]; exact hs.done (hr ▸ hrun)⟩
  · rw [hw]
    rcases hm with hm | ⟨hm, -⟩ | ⟨hm, -⟩
    · cases hm.symm.trans hmw
    · cases hm.symm.trans hmw
    · exact hs.worker w (hm ▸ hmw)
  · rw [hc]
    rcases hm with hm | ⟨hm, hp⟩ | ⟨hm, hp⟩
    · cases hm.symm.trans hb
    · obtain rfl : a = b := Sum.inr.inj (Option.some.inj (hm.symm.trans hb))
      rwa [client_self]
    · have hold := hs.client b (hm ▸ hb)
      have hba : b ≠ a := fun he => hp (he ▸ hold)
      rwa [client_of_ne s p hba]

theorem step_kept (hg : Guarded s) (hs : Kept s) (h : Step s l t) : Kept t := by
  cases h with
  | enter hw | finish hw | spurious hw =>
    exact hs.goes rfl rfl rfl (by simp) (.inr (.inr ⟨rfl, by simp [hw, Worker.holds]⟩))
  | leave hw hr => exact hs.goes rfl rfl rfl (by simp [hr]) (.inr (.inr ⟨rfl, by simp [hw, Worker.holds]⟩))
  | lock => exact hs.goes rfl rfl rfl (by simp) (.inr (.inl ⟨rfl, by simp [Worker.holds]⟩))
  | @sleepy w hw => exact hs.goes rfl rfl rfl (by simp) (.inr (.inl ⟨hg.worker w (.inl hw), by simp [Worker.holds]⟩))
  | @ready w hw => exact hs.goes rfl rfl rfl (by simp) (.inr (.inl ⟨hg.worker w (.inl hw), by simp [Worker.holds]⟩))
  | quit _ hr => exact hs.goes rfl rfl rfl (by simp [hr]) (.inl rfl)
  | block | take => exact hs.goes rfl rfl rfl (by simp) (.inl rfl)
  | refuse => exact hs
  | accept ha => exact hs.moves rfl rfl rfl (.inr (.inr ⟨rfl, by simp [ha]⟩))
  | emplace => exact hs.moves rfl rfl rfl (.inr (.inl ⟨rfl, rfl⟩))
  | unlock => exact hs.moves rfl rfl rfl (.inl rfl)
  | @notifyOne a w ha hb =>
    have hmid : Kept (s.goes w .woken) := hs.goes rfl rfl rfl (by simp) (.inr (.inr ⟨rfl, by simp [hb, Worker.holds]⟩))
    exact hmid.moves rfl rfl rfl (.inr (.inr ⟨rfl, fun hc => by cases ha.symm.trans hc⟩))
  | notifyNone ha => exact hs.moves rfl rfl rfl (.inr (.inr ⟨rfl, by simp [ha]⟩))
  | stop => exact ⟨hs.worker, hs.client, fun hrun => by cases hrun⟩
  | notifyAll =>
    refine ⟨fun w hmw => ?_, hs.client, fun hrun w => ?_⟩
    · rcases hs.worker w hmw with hw | hw | hw <;> simp [hw, Worker.wake, Worker.holds]
    · have hnot := hs.done hrun w
      cases hw : s.workers w <;> simp_all [Worker.wake]
  | join => exact ⟨hs.worker, hs.client, hs.done⟩

/-- How far the one that has the mutex is from giving it up. -/
def Pool.holding (s : Pool W A T) : W ⊕ A → Nat
  | .inl w => match s.workers w with
    | .test => 1
    | _ => 0
  | .inr _ => 0

def Pool.has (s : Pool W A T) : W ⊕ A → Prop
  | .inl w => (s.workers w).holds
  | .inr a => s.clients a = .unlocking

/-- The one that has the mutex gives it up, or comes nearer to it. -/
theorem has_step {i : W ⊕ A} (hi : s.has i) (h : Step s l t) : t.mtx = none ∨
    t.has i ∧ (t.holding i < s.holding i ∨ t.holding i = s.holding i ∧ l ∉ (thread (T := T) i).labels) := by
  cases i with
  | inr a =>
    by_cases hl : l ∈ (thread (W := W) (T := T) (.inr a)).labels
    · obtain rfl | ⟨w, rfl⟩ := hl
      · cases h with
        | emplace ha => cases ha.symm.trans hi
        | unlock => exact .inl rfl
      · cases h with
        | notifyOne ha => cases ha.symm.trans hi
        | notifyNone ha => cases ha.symm.trans hi
    · refine .inr ⟨?_, .inr ⟨rfl, hl⟩⟩
      exact (client_stays h hl fun hidle => by cases hidle.symm.trans hi).trans hi
  | inl w =>
    by_cases hl : l = .worker w
    · subst hl
      cases h with
      | enter hw | finish hw => simp [Pool.has, hw, Worker.holds] at hi
      | leave hw => simp [Pool.has, hw, Worker.holds] at hi
      | lock hw => rcases hw with hw | hw <;> simp [Pool.has, hw, Worker.holds] at hi
      | sleepy hw | ready hw =>
        exact .inr ⟨by simp [Pool.has, goes_self, Worker.holds], .inl (by simp [Pool.holding, goes_self, hw])⟩
      | block | quit | take => exact .inl rfl
    · have hw : t.workers w = s.workers w :=
        worker_stays h hl fun hb => by simp [Pool.has, hb, Worker.holds] at hi
      exact .inr ⟨by simpa [Pool.has, hw] using hi, .inr ⟨by simp [Pool.holding, hw], hl⟩⟩

section Progress

variable [Fintype W] [Fintype A]

/-- What holds of a pool that runs. -/
structure Running (s : Pool W A T) : Prop where
  isRunning : s.isRunning = true
  guarded : Guarded s
  attended : Attended s
  kept : Kept s

omit [DecidableEq W] [DecidableEq A] in
theorem Running.has_of_mtx (hs : Running s) {i : W ⊕ A} (hm : s.mtx = some i) : s.has i := by
  cases i with
  | inl w => exact hs.kept.worker w hm
  | inr a => exact hs.kept.client a hm

theorem has_ready (hs : Running s) {i : W ⊕ A} (hi : s.has i) : (thread (T := T) i).ready s := by
  cases i with
  | inr a => exact ⟨_, .inl rfl, _, .unlock hi⟩
  | inl w =>
    refine ⟨_, rfl, ?_⟩
    rcases hi with hw | hw | hw
    · by_cases hnil : s.taskPool = []
      · exact ⟨_, .sleepy hw hs.isRunning hnil⟩
      · exact ⟨_, .ready hw fun h => hnil h.2⟩
    · exact ⟨_, .block hw⟩
    · obtain ⟨task, rest, hpool⟩ := List.exists_cons_of_ne_nil (hs.guarded.task w hw hs.isRunning)
      exact ⟨_, .take hw hs.isRunning hpool⟩

variable {e : Execution (Step (W := W) (A := A) (T := T))}

theorem running (h0 : e.state 0 = new) (hrun : ∀ n, (e.state n).isRunning = true) (n : Nat) : Running (e.state n) := by
  have hn := e.run n
  rw [h0] at hn
  obtain ⟨hg, hatt⟩ := attended_of_run hn
  have hkept : Guarded (e.state n) ∧ Kept (e.state n) :=
    hn.invariant (I := fun s : Pool W A T => Guarded s ∧ Kept s)
      (fun _ _ _ hs ha => ⟨step_guarded hs.1 ha, step_kept hs.1 hs.2 ha⟩)
      ⟨guarded_new, by simp [new], by simp [new], by simp [new]⟩
  exact ⟨hrun n, hg, hatt, hkept.2⟩

theorem mtx_free (h0 : e.state 0 = new) (hfair : ∀ i, e.StronglyFair (thread i))
    (hrun : ∀ n, (e.state n).isRunning = true) (n : Nat) : ∃ m, n ≤ m ∧ (e.state m).mtx = none := by
  cases hm : (e.state n).mtx with
  | none => exact ⟨n, le_rfl, hm⟩
  | some i =>
    have hP : (e.state n).has i := (running h0 hrun n).has_of_mtx hm
    obtain ⟨m, hm, _, -, hnone⟩ := e.leads thread (fun i s => s.holding i) Running (fun i s => s.has i)
      (fun _ _ t => t.mtx = none) (fun m _ => running h0 hrun m)
      (fun i k _ hhas => (hfair i).fair k fun m hm => has_ready (running h0 hrun m) (hhas m hm))
      (fun i s l t _ _ hi h => (has_step hi h).imp_right fun ⟨hi', hrank⟩ =>
        ⟨i, hi', hrank.imp_right fun ⟨heq, hl⟩ => ⟨heq, rfl, hl⟩⟩) hP
    exact ⟨m + 1, Nat.le_succ_of_le hm, hnone⟩

/-! ## Every task is started -/

/-- On the way to the queue, or with a task that ends. -/
def Worker.awake : Worker T → Prop
  | .wait | .blocked | .done => False
  | _ => True

/-- How far from the task it takes next. -/
def Worker.distance : Worker T → Nat
  | .check => 1
  | .test => 2
  | .lock | .woken => 3
  | .top => 4
  | _ => 5

def Client.distance : Client T → Nat
  | .notifying => 6
  | _ => 7

def Pool.distance (s : Pool W A T) : W ⊕ A → Nat
  | .inl w => (s.workers w).distance
  | .inr a => (s.clients a).distance

/-- Who sees to it that a task is taken. -/
def Pool.attends (s : Pool W A T) : W ⊕ A → Prop
  | .inl w => (s.workers w).awake
  | .inr a => (s.clients a).calling = 1

omit [DecidableEq W] [DecidableEq A] in
theorem Running.awake_of_free (hs : Running s) (hq : s.taskPool ≠ []) {w : W} (hw : s.workers w ≠ .blocked) :
    (s.workers w).awake := by
  have hdone := hs.kept.done hs.isRunning w
  have hwait : s.workers w ≠ .wait := fun h => hq (hs.attended.empty w h)
  cases hp : s.workers w with
  | wait => exact absurd hp hwait
  | blocked => exact absurd hp hw
  | done => exact absurd hp hdone
  | _ => trivial

omit [DecidableEq W] [DecidableEq A] in
theorem Running.attended_by [Nonempty W] (hs : Running s) (hq : s.taskPool ≠ []) : ∃ i, s.attends i := by
  by_cases hb : ∃ w, s.workers w = .blocked
  · obtain ⟨w, hb⟩ := hb
    have hlen := hs.attended.attended hs.isRunning w hb
    have hpos := List.length_pos_iff.mpr hq
    by_cases hseek : s.seekers = 0
    · obtain ⟨a, -, ha⟩ := Finset.exists_ne_zero_of_sum_ne_zero (by omega : s.callers ≠ 0)
      refine ⟨.inr a, ?_⟩
      cases hp : s.clients a <;> simp_all [Pool.attends, Client.calling]
    · obtain ⟨u, -, hu⟩ := Finset.exists_ne_zero_of_sum_ne_zero hseek
      refine ⟨.inl u, hs.awake_of_free hq fun hub => ?_⟩
      simp [hub, Worker.seeking] at hu
  · obtain ⟨w⟩ := ‹Nonempty W›
    exact ⟨.inl w, hs.awake_of_free hq fun h => hb ⟨w, h⟩⟩

/-- A worker that can go on does, once the mutex is free. -/
theorem awake_ready (hs : Running s) (hq : s.taskPool ≠ []) (hm : s.mtx = none) {w : W} (hw : (s.workers w).awake) :
    (thread (T := T) (.inl w : W ⊕ A)).ready s := by
  refine ⟨_, rfl, ?_⟩
  cases hp : s.workers w with
  | top => exact ⟨_, .enter hp hs.isRunning⟩
  | lock => exact ⟨_, .lock (.inl hp) hm⟩
  | woken => exact ⟨_, .lock (.inr hp) hm⟩
  | test => exact ⟨_, .ready hp fun h => hq h.2⟩
  | check =>
    obtain ⟨task, rest, hpool⟩ := List.exists_cons_of_ne_nil hq
    exact ⟨_, .take hp hs.isRunning hpool⟩
  | run => exact ⟨_, .finish hp⟩
  | _ => simp [hp, Worker.awake] at hw

omit [Fintype A] in
theorem calling_ready {a : A} (ha : (s.clients a).calling = 1) : (thread (T := T) (.inr a : W ⊕ A)).ready s := by
  cases hp : s.clients a with
  | unlocking => exact ⟨_, .inl rfl, _, .unlock hp⟩
  | notifying =>
    by_cases hb : ∃ w, s.workers w = .blocked
    · obtain ⟨w, hb⟩ := hb
      exact ⟨_, .inr ⟨w, rfl⟩, _, .notifyOne hp hb⟩
    · exact ⟨_, .inr ⟨none, rfl⟩, _, .notifyNone hp fun w hw => hb ⟨w, hw⟩⟩
  | _ => simp [hp, Client.calling] at ha

/-- What comes of a step: a task is taken sooner, or the same one still sees to it. -/
def Nearer (i : W ⊕ A) (s : Pool W A T) (l : Label W A T) (t : Pool W A T) : Prop :=
  ∃ j, t.attends j ∧
    (t.distance j < s.distance i ∨ t.distance j = s.distance i ∧ j = i ∧ l ∉ (thread (T := T) i).labels)

theorem attends_step [Nonempty W] (hs : Running s) (ht : Running t) (hq : s.taskPool ≠ []) {i : W ⊕ A}
    (hi : s.attends i) (hstart : s.starts l = []) (h : Step s l t) : Nearer i s l t := by
  have hq' := step_queue_ne h hq hstart
  by_cases hl : l ∈ (thread (T := T) i).labels
  · cases i with
    | inl w =>
      obtain rfl : l = .worker w := hl
      -- a step of its own, after which it is still on its way
      have hfree : t.workers w ≠ .blocked → (t.workers w).distance < (s.workers w).distance →
          Nearer (.inl w) s (.worker w) t := fun hb hlt =>
        ⟨.inl w, ht.awake_of_free hq' hb, .inl hlt⟩
      cases h with
      | enter hw => exact hfree (by simp [goes_self]) (by simp [goes_self, hw, Worker.distance])
      | lock hw =>
        refine hfree (by simp [goes_self]) ?_
        rcases hw with hw | hw <;> simp [goes_self, hw, Worker.distance]
      | ready hw => exact hfree (by simp [goes_self]) (by simp [goes_self, hw, Worker.distance])
      | finish hw => exact hfree (by simp [goes_self]) (by simp [goes_self, hw, Worker.distance])
      | take hw hr hpool => simp [Pool.starts, hw, hr, hpool] at hstart
      | leave _ hr | quit _ hr => cases hr.symm.trans hs.isRunning
      | sleepy _ _ hnil => exact absurd hnil hq
      | block hw => simp [Pool.attends, hw, Worker.awake] at hi
    | inr a =>
      obtain rfl | ⟨w, rfl⟩ := hl
      · cases h with
        | emplace ha => simp [Pool.attends, ha, Client.calling] at hi
        | unlock ha => exact ⟨.inr a, by simp [Pool.attends, client_self, Client.calling],
            .inl (by simp [Pool.distance, client_self, ha, Client.distance])⟩
      · -- it wakes a worker, or none is blocked
        have hwake : ∀ u, t.workers u ≠ .blocked → s.clients a = .notifying →
            Nearer (.inr a) s (.notifyOne a w) t := fun u hu ha =>
          ⟨.inl u, ht.awake_of_free hq' hu, .inl (by
            simp only [Pool.distance, ha, Client.distance]
            cases t.workers u <;> simp [Worker.distance])⟩
        cases h with
        | @notifyOne _ u ha => exact hwake u (by simp [Pool.client, goes_self]) ha
        | notifyNone ha hnone =>
          obtain ⟨u⟩ := ‹Nonempty W›
          exact hwake u (hnone u) ha
  · cases i with
    | inl w =>
      have hw : t.workers w = s.workers w := worker_stays h hl fun hb => by simp [Pool.attends, hb, Worker.awake] at hi
      exact ⟨.inl w, by simpa [Pool.attends, hw] using hi, .inr ⟨by simp [Pool.distance, hw], rfl, hl⟩⟩
    | inr a =>
      have ha : t.clients a = s.clients a :=
        client_stays h hl fun hidle => by simp [Pool.attends, hidle, Client.calling] at hi
      exact ⟨.inr a, by simpa [Pool.attends, ha] using hi, .inr ⟨by simp [Pool.distance, ha], rfl, hl⟩⟩

variable (h0 : e.state 0 = new) (hfair : ∀ i, e.StronglyFair (thread i)) (hrun : ∀ n, (e.state n).isRunning = true)

include h0 hfair hrun

theorem some_task_starts [Nonempty W] {n : Nat} (hq : (e.state n).taskPool ≠ []) :
    ∃ m, n ≤ m ∧ ∃ l, e.label m = some l ∧ (e.state m).starts l ≠ [] := by
  obtain ⟨i, hi⟩ := (running h0 hrun n).attended_by hq
  refine e.leads thread (fun i s => s.distance i) Running (fun i s => s.taskPool ≠ [] ∧ s.attends i)
    (fun s l _ => s.starts l ≠ []) (fun m _ => running h0 hrun m) (fun i k _ hP => ?_)
    (fun i s l t hs ht hP h => ?_) ⟨hq, hi⟩
  · cases i with
    | inl w =>
      refine hfair (.inl w) (fun j => ?_) k
      obtain ⟨m, hm, hfree⟩ := mtx_free h0 hfair hrun (max j k)
      have hPm := hP m ((Nat.le_max_right _ _).trans hm)
      exact ⟨m, (Nat.le_max_left _ _).trans hm, awake_ready (running h0 hrun m) hPm.1 hfree hPm.2⟩
    | inr a => exact (hfair (.inr a)).fair k fun m hm => calling_ready (hP m hm).2
  · by_cases hstart : s.starts l = []
    · obtain ⟨j, hj, hrank⟩ := attends_step hs ht hP.1 hP.2 hstart h
      exact .inr ⟨j, ⟨step_queue_ne h hP.1 hstart, hj⟩, hrank⟩
    · exact .inl hstart

/-- A client that waits for the mutex gets it. -/
theorem client_emplaces {n : Nat} {a : A} {task : T} (ha : (e.state n).clients a = .locking task) :
    ∃ m, n ≤ m ∧ e.label m = some (.client a) ∧ (e.state (m + 1)).taskPool = (e.state m).taskPool ++ [task] := by
  have hstep : ∀ s l t, s.clients a = .locking task → Step s l t →
      (l = .client a ∧ t.taskPool = s.taskPool ++ [task]) ∨
        t.clients a = .locking task ∧ l ∉ (thread (W := W) (T := T) (.inr a)).labels := by
    intro s l t hs h
    by_cases hl : l ∈ (thread (W := W) (T := T) (.inr a)).labels
    · obtain rfl | ⟨w, rfl⟩ := hl
      · cases h with
        | emplace ha' =>
          obtain rfl : task = _ := Client.locking.inj (hs.symm.trans ha')
          exact .inl ⟨rfl, rfl⟩
        | unlock ha' => cases hs.symm.trans ha'
      · cases h with
        | notifyOne ha' => cases hs.symm.trans ha'
        | notifyNone ha' => cases hs.symm.trans ha'
    · exact .inr ⟨(client_stays h hl fun hidle => by cases hidle.symm.trans hs).trans hs, hl⟩
  obtain ⟨m, hm, l, hl, rfl, hpool⟩ := e.leads (fun _ : Unit => thread (.inr a)) (fun _ _ => (0 : Nat)) (fun _ => True)
    (fun _ s => s.clients a = .locking task) (fun s l t => l = .client a ∧ t.taskPool = s.taskPool ++ [task])
    (fun _ _ => trivial)
    (fun _ k _ hP => hfair (.inr a) (fun j => by
      obtain ⟨m, hm, hfree⟩ := mtx_free h0 hfair hrun (max j k)
      have hlock := hP m ((Nat.le_max_right _ _).trans hm)
      exact ⟨m, (Nat.le_max_left _ _).trans hm, _, .inl rfl, _, .emplace hlock hfree⟩) k)
    (fun _ s l t _ _ hP h => (hstep s l t hP h).imp_right fun ⟨hP', hl⟩ => ⟨(), hP', .inr ⟨rfl, rfl, hl⟩⟩)
    (i := ()) ha
  exact ⟨m, hm, hl, hpool⟩

omit h0 hfair hrun in
/-- A task given to a pool that is not stopped is started, after those that were in the queue
    when it came into it, and before any other. -/
theorem task_starts [Nonempty W] (e : Execution (Step (W := W) (A := A) (T := T))) (h0 : e.state 0 = new)
    (hfair : ∀ i, e.StronglyFair (thread i)) (hrun : ∀ n, (e.state n).isRunning = true)
    {n : Nat} {a : A} {task : T} (hadd : e.label n = some (.addTask a task)) :
    ∃ m d, n < m ∧ e.label m = some (.client a) ∧ (e.state (m + 1)).taskPool = (e.state m).taskPool ++ [task] ∧
      e.output Pool.starts (m + 1) d = (e.state m).taskPool ++ [task] := by
  have hlocking : (e.state (n + 1)).clients a = .locking task := by
    have hrunning := hrun n
    generalize hs : e.state n = s at hrunning
    have h := e.steps n _ hadd
    rw [hs] at h
    generalize e.state (n + 1) = t at h
    cases h with
    | refuse _ hr => cases hr.symm.trans hrunning
    | accept => exact client_self s a _
  obtain ⟨m, hm, hl, hpool⟩ := client_emplaces h0 hfair hrun hlocking
  have hqueue : ∀ d, ∃ new, (e.state m).taskPool ++ [task] ++ new =
      e.output Pool.starts (m + 1) d ++ (e.state (m + 1 + d)).taskPool := fun d =>
    hpool ▸ e.output_conserves Pool.starts Pool.taskPool (fun _ _ _ h => step_queue h) (m + 1) d
  obtain ⟨d, hd⟩ := e.output_length Pool.starts starts_length (m + 1) ((e.state m).taskPool ++ [task]).length
    fun d hlt => by
      refine some_task_starts h0 hfair hrun fun hnil => ?_
      obtain ⟨new, hnew⟩ := hqueue d
      have hlen := congrArg List.length hnew
      rw [hnil, List.append_nil, List.length_append] at hlen
      omega
  obtain ⟨new, hnew⟩ := hqueue d
  exact ⟨m, d, hm, hl, hpool, (List.append_inj_left hnew hd.symm).symm⟩

end Progress

/-- A worker that is blocked already is woken for the task, and blocks again. -/
theorem task_starts_one : ∃ (e : Execution (Step (W := Unit) (A := Unit) (T := Nat))) (n m d : Nat),
    e.label n = some (.addTask () 7) ∧ n < m ∧ e.label m = some (.client ()) ∧
      e.output Pool.starts (m + 1) d = (e.state m).taskPool ++ [7] := by
  have hrun : Labelled.Run Step (new : Pool Unit Unit Nat) [.worker (), .worker (), .worker (), .worker (),
      .addTask () 7, .client (), .client (), .notifyOne () (some ()), .worker (), .worker (), .worker (), .worker (),
      .worker (), .worker (), .worker (), .worker ()] _ :=
    .cons (.enter rfl rfl) (.cons (.lock (.inl rfl) rfl) (.cons (.sleepy rfl rfl rfl) (.cons (.block rfl)
      (.cons (.accept rfl rfl) (.cons (.emplace rfl rfl) (.cons (.unlock rfl) (.cons (.notifyOne rfl rfl)
      (.cons (.lock (.inr rfl) rfl) (.cons (.ready rfl (by decide)) (.cons (.take rfl rfl rfl) (.cons (.finish rfl)
      (.cons (.enter rfl rfl) (.cons (.lock (.inl rfl) rfl) (.cons (.sleepy rfl rfl rfl) (.cons (.block rfl)
      (.nil _))))))))))))))))
  obtain ⟨e, h0, hlabels, hend⟩ := execution_of_run hrun
  have hfair : ∀ i, e.StronglyFair (thread i) := by
    refine fun i => Execution.StronglyFair.of_not_ready hend ?_
    cases i with
    | inl w => exact blocked_not_ready rfl
    | inr a => exact idle_not_ready rfl
  have hrunning : ∀ n, (e.state n).isRunning = true := by
    intro n
    by_contra hr
    have hlast := Execution.stable (I := fun s : Pool Unit Unit Nat => s.isRunning = false)
      (fun _ _ _ => stays_stopped) (by simpa using hr) (max n 16) (Nat.le_max_left _ _)
    rw [hend (max n 16) (Nat.le_max_right _ _)] at hlast
    cases hlast
  obtain ⟨n, -, hadd⟩ := Execution.mem_labels.mp (hlabels ▸ (by simp) : Label.addTask () 7 ∈ e.labels 16)
  obtain ⟨m, d, hm, hl, -, hout⟩ := task_starts e h0 hfair hrunning hadd
  exact ⟨e, n, m, d, hadd, hm, hl, hout⟩

end ThreadPool

end HahaWeb
