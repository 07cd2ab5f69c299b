/-
  HahaWeb.Net.LoopLiveness — what `EventLoop` is bound to do.

  The loop's thread and the threads that give it tasks are each run again and again. The
  loop's thread is ready where it is not blocked: in `epoll_wait` only a write to the
  eventfd that is still to be reported makes it so, whatever else may end the wait. A
  handler and a task end; one that calls `quit` over and over does not.

  Proved: when no thread is kept waiting for ever, each task pushed is run, in order, as
  long as nobody asks the loop to quit (`tasks_run`), and a loop that was asked to quit
  stops, also when it was asked before it started, between its look at `quit_` and its
  `epoll_wait`, or while it waits (`quit_stops`).
-/

import Mathlib.Data.Prod.Lex
import Mathlib.Data.DFinsupp.WellFounded
import HahaWeb.Library.Liveness
import HahaWeb.Net.PendingTasks

namespace HahaWeb

namespace PendingTasks

open Liveness

variable {P T : Type}

/-- A write that `epoll_wait` is going to report. -/
def Loop.edge (s : Loop P T) : Prop := s.unreported = true ∧ 0 < s.counter

/-- What ends a wait, a handler, a task or a look at `quit_`. -/
def Label.inLoop : Label P T → Prop
  | .register | .returns _ | .handle _ | .swap | .run _ | .again | .exit => True
  | _ => False

def Loop.ready (s : Loop P T) : Prop := s.phase ≠ .stopped ∧ (s.phase = .waiting → s.edge)

variable [DecidableEq P]

def loopThread : Process (Step (P := P) (T := T)) where
  ready := Loop.ready
  labels := Label.inLoop
  enabled s hs := by
    cases hp : s.phase with
    | starting => exact ⟨.register, trivial, _, .register s hp⟩
    | waiting =>
      exact ⟨.returns [.wakeup], trivial, _, .returns s [.wakeup] hp (by decide) fun _ => hs.2 hp⟩
    | handling events =>
      cases events with
      | nil => exact ⟨.swap, trivial, _, .swap s hp⟩
      | cons e events => exact ⟨.handle e, trivial, _, .handle s e events hp⟩
    | running tasks =>
      cases tasks with
      | cons task tasks => exact ⟨.run task, trivial, _, .run s task tasks hp⟩
      | nil =>
        cases hq : s.quit with
        | false => exact ⟨.again, trivial, _, .again s hp hq⟩
        | true => exact ⟨.exit, trivial, _, .exit s hp hq⟩
    | stopped => exact absurd hp hs.1

def producer (p : P) : Process (Step (P := P) (T := T)) where
  ready s := s.producers p ≠ .idle
  labels a := a = .write p
  enabled s hs := ⟨.write p, rfl, _, .write s p hs⟩

/-- The loop's thread and the others. -/
def process : Option P → Process (Step (P := P) (T := T))
  | none => loopThread
  | some p => producer p

/-! ## Who brings the loop on -/

/-- The loop's thread goes on by itself, or it is blocked and another thread is about to write. -/
def Awake : Option P → Loop P T → Prop
  | none, s => s.ready
  | some p, s => s.phase = .waiting ∧ ¬ s.edge ∧ s.producers p ≠ .idle

theorem Awake.ready {i : Option P} {s : Loop P T} (h : Awake i s) : (process i).ready s := by
  cases i with
  | none => exact h
  | some p => exact h.2.2

/-- How far the loop is from the tasks it takes next; `r` is for the tasks it has taken. -/
noncomputable def Loop.rank (r : List T → ℕ ×ₗ ℕ) (s : Loop P T) : ℕ ×ₗ ℕ := open Classical in
  match s.phase with
  | .running tasks => r tasks
  | .handling events => toLex (1, events.length)
  | .waiting => if s.edge then toLex (2, 0) else toLex (3, 0)
  | .starting => toLex (5, 0)
  | .stopped => toLex (0, 0)

/-- What comes of a step: the loop is nearer, or it is where it was and waits for the same thread. -/
def Helped (r : List T → ℕ ×ₗ ℕ) (i : Option P) (s : Loop P T) (a : Label P T) (t : Loop P T) : Prop :=
  ∃ j, Awake j t ∧ (t.rank r < s.rank r ∨ t.rank r = s.rank r ∧ j = i ∧ a ∉ (process i).labels)

variable {r : List T → ℕ ×ₗ ℕ} {s t : Loop P T} {a : Label P T} {i : Option P}

theorem step_phase (h : Step s a t) (ha : ¬ a.inLoop) : t.phase = s.phase := by
  cases h with
  | push | quit | write | drop | quitInLoop => simp
  | _ => exact absurd trivial ha

omit [DecidableEq P] in
theorem rank_of_phase {n : ℕ ×ₗ ℕ} (hphase : t.phase = s.phase) (hw : s.phase ≠ .waiting) (hs : s.rank r = n) :
    t.rank r = n := by
  subst hs
  unfold Loop.rank
  rw [hphase]
  cases hp : s.phase with
  | waiting => exact absurd hp hw
  | _ => rfl

omit [DecidableEq P] in
theorem rank_edge (hp : s.phase = .waiting) (he : s.edge) : s.rank r = toLex (2, 0) := by
  simp [Loop.rank, hp, he]

omit [DecidableEq P] in
theorem rank_blocked (hp : s.phase = .waiting) (he : ¬ s.edge) : s.rank r = toLex (3, 0) := by
  simp [Loop.rank, hp, he]

/-- A step that is not the loop's own does not take the edge away. -/
theorem step_edge (h : Step s a t) (ha : ¬ a.inLoop) (he : s.edge) : t.edge := by
  cases h with
  | push | quit | quitInLoop => exact he
  | write p =>
    obtain ⟨hpos, hset | ⟨heq, -⟩⟩ := wakeup_spec s
    · exact ⟨hset, hpos⟩
    · exact ⟨(congrArg Loop.unreported heq).trans he.1, hpos⟩
  | drop _ h0 => exact absurd h0 (Nat.pos_iff_ne_zero.mp he.2)
  | _ => exact absurd trivial ha

/-- A write that is made in `epoll_wait` is going to be reported. -/
theorem write_edge (hw : Woken s) (hp : s.phase = .waiting) {p : P} (h : Step s (.write p) t) : t.edge := by
  have hw' := step_woken hw h
  have hwait : t.phase = .waiting := (step_phase h id).trans hp
  have hpos : 0 < t.counter := by
    cases h
    exact (wakeup_spec s).1
  exact ⟨hw'.edge (by simp [hwait]) (by simp [hwait]) hpos, hpos⟩

/-- A step that is not the loop's own, nor the awaited write, leaves the awaited thread behind its push. -/
theorem step_producer {p : P} (h : Step s a t) (hp : s.producers p ≠ .idle) (ha : ∀ q, a ≠ .write q) :
    t.producers p ≠ .idle := by
  cases h with
  | push q task hq =>
    have hne : p ≠ q := fun he => hp (he ▸ hq)
    simpa [Function.update_of_ne hne] using hp
  | quit q hq =>
    have hne : p ≠ q := fun he => hp (he ▸ hq)
    simpa [Function.update_of_ne hne] using hp
  | write q => exact absurd rfl (ha q)
  | handle e => cases e <;> exact hp
  | _ => exact hp

/-- The other threads never take the loop back. -/
theorem others_help (hw : Woken s) (h : Step s a t) (ha : ¬ a.inLoop) (hs : Awake i s) : Helped r i s a t := by
  have hphase := step_phase h ha
  cases i with
  | none =>
    have hready : t.ready := ⟨hphase ▸ hs.1, fun hp => step_edge h ha (hs.2 (hphase ▸ hp))⟩
    refine ⟨none, hready, .inr ⟨?_, rfl, ha⟩⟩
    by_cases hwait : s.phase = .waiting
    · rw [rank_edge (hphase.trans hwait) (hready.2 (hphase.trans hwait)), rank_edge hwait (hs.2 hwait)]
    · exact rank_of_phase hphase hwait rfl
  | some p =>
    obtain ⟨hwait, hblocked, hpush⟩ := hs
    have hwait' := hphase.trans hwait
    by_cases he : t.edge
    · refine ⟨none, ⟨by simp [hwait'], fun _ => he⟩, .inl ?_⟩
      rw [rank_edge hwait' he, rank_blocked hwait hblocked]
      decide
    · have hnot : ∀ q, a ≠ .write q := fun q hq => he (write_edge hw hwait (hq ▸ h))
      refine ⟨some p, ⟨hwait', he, step_producer h hpush hnot⟩, .inr ⟨?_, rfl, hnot p⟩⟩
      rw [rank_blocked hwait' he, rank_blocked hwait hblocked]

omit [DecidableEq P] in
theorem ready_of_phase {phase : Phase T} (hp : t.phase = phase) (hs : phase ≠ .stopped) (hw : phase ≠ .waiting) :
    t.ready :=
  ⟨hp ▸ hs, fun h => absurd (hp.symm.trans h) hw⟩

/-- The loop's own steps up to the tasks it takes, which are nearer than the events it handles. -/
theorem loop_helps (h : Step s a t) (ha : a.inLoop) (hrun : ∀ tasks, s.phase ≠ .running tasks)
    (hstart : r [] < toLex (5, 0)) (hswap : s.phase = .handling [] → r s.pendingTasks < toLex (1, 0)) :
    Helped r i s a t := by
  cases h with
  | register hp => exact ⟨none, ready_of_phase rfl (by simp) (by simp), .inl (by simpa [Loop.rank, hp] using hstart)⟩
  | returns events hp =>
    refine ⟨none, ready_of_phase rfl (by simp) (by simp), .inl ?_⟩
    by_cases he : s.edge
    · simp [Loop.rank, hp, he, Prod.Lex.toLex_lt_toLex]
    · simp [Loop.rank, hp, he, Prod.Lex.toLex_lt_toLex]
  | handle e events hp =>
    exact ⟨none, ready_of_phase rfl (by simp) (by simp), .inl (by simp [Loop.rank, hp, Prod.Lex.toLex_lt_toLex])⟩
  | swap hp => exact ⟨none, ready_of_phase rfl (by simp) (by simp), .inl (by simpa [Loop.rank, hp] using hswap hp)⟩
  | run task tasks hp => exact absurd hp (hrun _)
  | again hp => exact absurd hp (hrun _)
  | exit hp => exact absurd hp (hrun _)
  | _ => exact ha.elim

/-- Back in `epoll_wait`. -/
theorem again_helps (hp : s.phase = .running []) (hr : r [] = toLex (4, 0))
    (hback : t.edge ∨ ∃ p, t.producers p ≠ .idle) (ht : t.phase = .waiting) : Helped r i s a t := by
  by_cases he : t.edge
  · refine ⟨none, ⟨by simp [ht], fun _ => he⟩, .inl ?_⟩
    rw [rank_edge ht he]
    simp [Loop.rank, hp, hr, Prod.Lex.toLex_lt_toLex]
  · obtain hedge | ⟨p, hpush⟩ := hback
    · exact absurd hedge he
    · refine ⟨some p, ⟨ht, he, hpush⟩, .inl ?_⟩
      rw [rank_blocked ht he]
      simp [Loop.rank, hp, hr, Prod.Lex.toLex_lt_toLex]

/-! ## Every task is run -/

omit [DecidableEq P] in
@[simp] theorem wakeup_quit (s : Loop P T) : s.wakeup.quit = s.quit := by
  unfold Loop.wakeup
  split <;> rfl

theorem step_quit (hs : s.quit = true) (h : Step s a t) : t.quit = true := by
  cases h with
  | quit | quitInLoop => rfl
  | write => simpa using hs
  | handle e => cases e <;> exact hs
  | _ => exact hs

/-- The loop stops only when it was asked to. -/
theorem step_stopped (hs : s.phase = .stopped → s.quit = true) (h : Step s a t) :
    t.phase = .stopped → t.quit = true := by
  cases h with
  | push | write | drop => simpa using hs
  | exit _ hq => exact fun _ => hq
  | quit | quitInLoop => exact fun _ => rfl
  | _ => exact nofun

/-- The loop keeps what it has to run until it runs some of it. -/
theorem step_keeps (h : Step s a t) (ha : ∀ task, a ≠ .run task) (hs : s.held ≠ []) : t.held ≠ [] := by
  have hheld := step_held h
  have hran : a.ran = [] := by
    cases a with
    | run task => exact absurd rfl (ha task)
    | _ => rfl
  rw [hran, List.nil_append] at hheld
  exact hheld ▸ List.append_ne_nil_of_left_ne_nil hs _

/-- First the tasks that were taken, then those that came in while they ran. -/
def taskRank : List T → ℕ ×ₗ ℕ
  | [] => toLex (4, 0)
  | _ :: _ => toLex (0, 0)

omit [DecidableEq P] in
theorem awake_of_held (hw : Woken s) (hs : s.phase ≠ .stopped) (hheld : s.held ≠ []) : ∃ i, Awake i s := by
  by_cases hwait : s.phase = .waiting ∧ ¬ s.edge
  · obtain ⟨hp, he⟩ := hwait
    have hpending : s.pendingTasks ≠ [] := by simpa [Loop.held, Phase.tasks, hp] using hheld
    rcases hw.pending hpending with ⟨p, hpush⟩ | ⟨es, hh⟩ | hpos
    · exact ⟨some p, hp, he, by simp [hpush]⟩
    · rw [hp] at hh
      cases hh
    · exact absurd ⟨hw.edge (by simp [hp]) (by simp [hp]) hpos, hpos⟩ he
  · exact ⟨none, hs, fun hp => not_not.mp fun he => hwait ⟨hp, he⟩⟩

/-- Unless it is a task that is run, a step brings the next one nearer. -/
theorem task_nearer (hw : Woken s) (hw' : Woken t) (hquit : s.quit = false) (hs : s.held ≠ []) (hi : Awake i s)
    (h : Step s a t) : (∃ task, a = .run task) ∨ t.held ≠ [] ∧ Helped taskRank i s a t := by
  by_cases hran : ∃ task, a = .run task
  · exact .inl hran
  have hheld := step_keeps h (fun task ha => hran ⟨task, ha⟩) hs
  refine .inr ⟨hheld, ?_⟩
  by_cases ha : a.inLoop
  · by_cases hrun : ∃ tasks, s.phase = .running tasks
    · cases h with
      | run task => exact absurd ⟨task, rfl⟩ hran
      | again hp =>
        refine again_helps hp rfl ?_ rfl
        have hpending : s.pendingTasks ≠ [] := by simpa [Loop.held, Phase.tasks] using hheld
        rcases hw'.pending hpending with ⟨p, hpush⟩ | ⟨es, hh⟩ | hpos
        · exact .inr ⟨p, fun hidle => absurd (hpush.symm.trans hidle) (by decide)⟩
        · cases hh
        · exact .inl ⟨hw'.edge (by simp) (by simp) hpos, hpos⟩
      | exit _ hq => exact absurd (hq.symm.trans hquit) (by decide)
      | register hp | returns _ hp | handle _ _ hp | swap hp => simp [hp] at hrun
      | _ => exact ha.elim
    · have hstart : taskRank ([] : List T) < toLex (5, 0) := by simp [taskRank, Prod.Lex.toLex_lt_toLex]
      refine loop_helps h ha (fun tasks hp => hrun ⟨tasks, hp⟩) hstart fun hp => ?_
      have hpending : s.pendingTasks ≠ [] := by simpa [Loop.held, Phase.tasks, hp] using hs
      obtain ⟨task, tasks, hcons⟩ := List.exists_cons_of_ne_nil hpending
      simp [hcons, taskRank, Prod.Lex.toLex_lt_toLex]
  · exact others_help hw h ha hi

variable {e : Execution (Step (P := P) (T := T))}

/-- What holds at every time of an execution that nobody asks to quit. -/
theorem always_woken (h0 : e.state 0 = new) (n : Nat) :
    Woken (e.state n) ∧ ((e.state n).phase = .stopped → (e.state n).quit = true) := by
  have hrun := e.run n
  rw [h0] at hrun
  exact ⟨hrun.invariant (fun _ _ _ hw => step_woken hw) woken_new,
    hrun.invariant (I := fun s => s.phase = .stopped → s.quit = true) (fun _ _ _ hs => step_stopped hs) nofun⟩

theorem some_task_runs (h0 : e.state 0 = new) (hfair : ∀ i, e.Fair (process i)) (hquit : ∀ n, (e.state n).quit = false)
    (n : Nat) (hheld : (e.state n).held ≠ []) : ∃ m, n ≤ m ∧ ∃ task, e.label m = some (.run task) := by
  have hphase : (e.state n).phase ≠ .stopped := fun hp => by
    simpa [hquit n] using (always_woken h0 n).2 hp
  obtain ⟨i, hi⟩ := awake_of_held (always_woken h0 n).1 hphase hheld
  obtain ⟨m, hm, a, ha, task, rfl⟩ := e.reaches process (Loop.rank taskRank) (fun s => Woken s ∧ s.quit = false)
    (fun i s => s.held ≠ [] ∧ Awake i s) (fun a _ => ∃ task, a = .run task)
    (fun n _ => ⟨(always_woken h0 n).1, hquit n⟩) (fun i s _ hP => hP.2.ready)
    (fun i s a t hs ht hP h => (task_nearer hs.1 ht.1 hs.2 hP.1 hP.2 h).imp_right
      fun ⟨hheld, j, hj, hrank⟩ => ⟨j, ⟨hheld, hj⟩, hrank⟩)
    hfair ⟨hheld, hi⟩
  exact ⟨m, hm, task, ha⟩

theorem ran_of_label {m : Nat} {task : T} (h : e.label m = some (.run task)) :
    ran (e.labels (m + 1)) = ran (e.labels m) ++ [task] := by
  simp [Execution.labels, h, ran, Label.ran]

/-- When no thread is kept waiting for ever and nobody asks the loop to quit, the tasks
    pushed by any time have all been run at a later one, in the order in which they were pushed. -/
theorem tasks_run (e : Execution (Step (P := P) (T := T))) (h0 : e.state 0 = new) (hfair : ∀ i, e.Fair (process i))
    (hquit : ∀ n, (e.state n).quit = false) (n : Nat) : ∃ m, n ≤ m ∧ pushed (e.labels n) <+: ran (e.labels m) := by
  have hheld : ∀ m, ran (e.labels m) ++ (e.state m).held = pushed (e.labels m) := by
    intro m
    have hrun := e.run m
    rw [h0] at hrun
    exact (hrun.conserves Loop.held Label.pushed Label.ran fun _ _ _ => step_held).symm
  have hmono : ∀ m, n ≤ m → pushed (e.labels n) <+: pushed (e.labels m) := fun m hm => by
    obtain ⟨rest, hrest⟩ := Execution.labels_prefix (e := e) hm
    rw [← hrest, pushed, pushed, List.flatMap_append]
    exact List.prefix_append _ _
  -- as many tasks as were pushed are run, one after the other
  have hcount : ∀ k, k ≤ (pushed (e.labels n)).length → ∃ m, n ≤ m ∧ k ≤ (ran (e.labels m)).length := by
    intro k
    induction k with
    | zero => exact fun _ => ⟨n, le_rfl, Nat.zero_le _⟩
    | succ k ih =>
      intro hk
      obtain ⟨m, hm, hran⟩ := ih (Nat.le_of_succ_le hk)
      by_cases hlt : k < (ran (e.labels m)).length
      · exact ⟨m, hm, hlt⟩
      · have hne : (e.state m).held ≠ [] := by
          intro hnil
          have hlen := (hmono m hm).length_le
          rw [← hheld m, hnil, List.append_nil] at hlen
          omega
        obtain ⟨j, hj, task, hl⟩ := some_task_runs h0 hfair hquit m hne
        refine ⟨j + 1, by omega, ?_⟩
        obtain ⟨rest, hrest⟩ := Execution.labels_prefix (e := e) hj
        have hlen : (ran (e.labels m)).length ≤ (ran (e.labels j)).length := by
          rw [← hrest]
          simp [ran]
        rw [ran_of_label hl, List.length_append]
        exact Nat.succ_le_succ (hran.trans hlen)
  obtain ⟨m, hm, hlen⟩ := hcount _ le_rfl
  refine ⟨m, hm, ?_⟩
  exact List.prefix_of_prefix_length_le (hmono m hm) ⟨_, hheld m⟩ hlen

/-- Two tasks of one thread, the second pushed while the first runs. -/
theorem tasks_run_two : ∃ (e : Execution (Step (P := Unit) (T := Nat))) (n m : Nat),
    n ≤ m ∧ pushed (e.labels n) = [1, 2] ∧ pushed (e.labels n) <+: ran (e.labels m) := by
  have hrun : Labelled.Run Step (new : Loop Unit Nat)
      [.register, .again, .push () 1, .write (), .returns [.wakeup], .handle .wakeup, .swap, .push () 2, .run 1, .again,
        .write (), .returns [.wakeup], .handle .wakeup, .swap, .run 2, .again] _ :=
    .cons (.register _ rfl) (.cons (.again _ rfl rfl) (.cons (.push _ () 1 rfl) (.cons (.write _ () (by decide))
      (.cons (.returns _ [.wakeup] rfl (by decide) (by decide)) (.cons (.handle _ .wakeup [] rfl) (.cons (.swap _ rfl)
      (.cons (.push _ () 2 rfl) (.cons (.run _ 1 [] rfl) (.cons (.again _ rfl rfl) (.cons (.write _ () (by decide))
      (.cons (.returns _ [.wakeup] rfl (by decide) (by decide)) (.cons (.handle _ .wakeup [] rfl) (.cons (.swap _ rfl)
      (.cons (.run _ 2 [] rfl) (.cons (.again _ rfl rfl) (.nil _))))))))))))))))
  obtain ⟨e, h0, hlabels, hend⟩ := execution_of_run hrun
  have hfair : ∀ i, e.Fair (process i) := by
    intro i
    refine Execution.Fair.of_not_ready hend ?_
    cases i with
    | none => exact fun hready => absurd (hready.2 rfl).2 (by decide)
    | some p => exact fun hready => hready rfl
  have hquit : ∀ n, (e.state n).quit = false := by
    intro n
    by_contra hq
    have hlast := Execution.stable (I := fun s : Loop Unit Nat => s.quit = true) (fun _ _ _ => step_quit)
      (by simpa using hq) (max n 16) (Nat.le_max_left _ _)
    rw [hend (max n 16) (Nat.le_max_right _ _)] at hlast
    cases hlast
  obtain ⟨m, hm, hran⟩ := tasks_run e h0 hfair hquit 16
  exact ⟨e, 16, m, hm, congrArg pushed hlabels, hran⟩

/-! ## The loop stops -/

/-- A loop that waits though it was asked to quit is about to be woken. -/
def Roused (s : Loop P T) : Prop := s.phase = .waiting → s.quit = true → s.edge ∨ ∃ p, s.producers p ≠ .idle

theorem step_roused (hw : Woken s) (hr : Roused s) (h : Step s a t) : Roused t := by
  intro hwait' hquit'
  by_cases ha : a.inLoop
  · cases h with
    | again _ hq => exact absurd (hq.symm.trans hquit') (by decide)
    | register | returns | handle | swap | run | exit => cases hwait'
    | _ => exact ha.elim
  · have hwait : s.phase = .waiting := (step_phase h ha).symm.trans hwait'
    by_cases hwrite : ∃ p, a = .write p
    · obtain ⟨p, rfl⟩ := hwrite
      exact .inl (write_edge hw hwait h)
    by_cases hquit : s.quit = true
    · rcases hr hwait hquit with he | ⟨p, hp⟩
      · exact .inl (step_edge h ha he)
      · exact .inr ⟨p, step_producer h hp fun q hq => hwrite ⟨q, hq⟩⟩
    · cases h with
      | quit p => exact .inr ⟨p, by simp⟩
      | quitInLoop _ hphase => exact absurd hwait hphase
      | write p => exact absurd ⟨p, rfl⟩ hwrite
      | push | drop => exact absurd hquit' hquit
      | _ => exact absurd trivial ha

/-- Only the tasks that were taken are still to run. -/
def quitRank (tasks : List T) : ℕ ×ₗ ℕ := toLex (0, tasks.length)

/-- A loop that was asked to quit comes nearer to its end with every step. -/
theorem quit_nearer (hw : Woken s) (hquit : s.quit = true) (hi : Awake i s) (h : Step s a t) :
    t.phase = .stopped ∨ Helped quitRank i s a t := by
  by_cases ha : a.inLoop
  · by_cases hrun : ∃ tasks, s.phase = .running tasks
    · cases h with
      | run task tasks hp =>
        refine .inr ⟨none, ready_of_phase rfl (by simp) (by simp), .inl ?_⟩
        simp [Loop.rank, hp, quitRank, Prod.Lex.toLex_lt_toLex]
      | again _ hq => exact absurd (hq.symm.trans hquit) (by decide)
      | exit => exact .inl rfl
      | register hp | returns _ hp | handle _ _ hp | swap hp => simp [hp] at hrun
      | _ => exact ha.elim
    · refine .inr (loop_helps h ha (fun tasks hp => hrun ⟨tasks, hp⟩) ?_ fun _ => ?_)
      · simp [quitRank, Prod.Lex.toLex_lt_toLex]
      · simp [quitRank, Prod.Lex.toLex_lt_toLex]
  · exact .inr (others_help hw h ha hi)

/-- A loop that was asked to quit stops, when no thread is kept waiting for ever. -/
theorem quit_stops (h0 : e.state 0 = new) (hfair : ∀ i, e.Fair (process i)) {n : Nat}
    (hquit : (e.state n).quit = true) : ∃ m, n ≤ m ∧ (e.state m).phase = .stopped := by
  have hinv : ∀ m, Woken (e.state m) ∧ Roused (e.state m) := by
    intro m
    have hrun := e.run m
    rw [h0] at hrun
    exact hrun.invariant (I := fun s => Woken s ∧ Roused s)
      (fun _ _ _ hs h => ⟨step_woken hs.1 h, step_roused hs.1 hs.2 h⟩) ⟨woken_new, nofun⟩
  by_cases hstop : (e.state n).phase = .stopped
  · exact ⟨n, le_rfl, hstop⟩
  have hawake : ∃ i, Awake i (e.state n) := by
    by_cases hwait : (e.state n).phase = .waiting ∧ ¬ (e.state n).edge
    · obtain ⟨hp, he⟩ := hwait
      obtain ⟨p, hpush⟩ := ((hinv n).2 hp hquit).resolve_left he
      exact ⟨some p, hp, he, hpush⟩
    · exact ⟨none, hstop, fun hp => not_not.mp fun he => hwait ⟨hp, he⟩⟩
  have hstays := Execution.stable (I := fun s : Loop P T => s.quit = true) (fun _ _ _ => step_quit) hquit
  obtain ⟨i, hi⟩ := hawake
  obtain ⟨m, hm, a, -, hstopped⟩ := e.reaches process (Loop.rank quitRank) (fun s => Woken s ∧ s.quit = true) Awake
    (fun _ s => s.phase = .stopped) (fun m hm => ⟨(hinv m).1, hstays m hm⟩) (fun _ _ _ => Awake.ready)
    (fun i s a t hs _ hi h => quit_nearer hs.1 hs.2 hi h) hfair hi
  exact ⟨m + 1, Nat.le_succ_of_le hm, hstopped⟩

end PendingTasks

end HahaWeb
