/-
  HahaWeb.Net.EventLoopThread — `EventLoopThread`, a loop in a thread of its own.

  The constructor creates the thread and spins, in `Thread` until the new thread has set
  `started_`, and then until `work` has made the loop and set `loop_ok_`. From then on any
  thread may hold the loop (`getLoop`) and give it tasks. The destructor asks the loop to
  quit, writes to its eventfd and joins the thread.

  Proved: the loop is there whenever the object is built, so that neither `getLoop` nor the
  destructor meets a null pointer, and when no thread is kept waiting for ever the
  constructor returns, and so does the destructor, behind the end of the loop, whatever the
  loop is doing and whoever gives it tasks (`thread_joins`).

  Not modelled: `pthread_create` and `pthread_join` failing, and the destructor called by a
  task of the loop, which would wait for itself.
-/

import HahaWeb.Net.LoopLiveness

namespace HahaWeb

namespace EventLoopThread

open Liveness

open PendingTasks (Loop Producer)

/-- Where the thread is that builds the object and destroys it. -/
inductive Owner where
  | creating
  /-- In `while(!started_)` of `Thread`. -/
  | awaitsStart
  /-- In `while(!loop_ok_)`. -/
  | awaitsLoop
  | alive
  /-- In `quit`, behind `quit_ = true`. -/
  | quitting
  | joining
  | destroyed
  deriving DecidableEq, Repr

/-- Where the new thread is in `Thread::run` and in `work`. -/
inductive Worker where
  | absent
  | created
  /-- Behind `started_ = true`. -/
  | started
  /-- Behind the assignment to `loop_`. -/
  | made
  /-- In `loop`. -/
  | looping
  | returned
  deriving DecidableEq, Repr

/-- The constructor has returned. -/
def Owner.built : Owner → Bool
  | .creating | .awaitsStart | .awaitsLoop => false
  | _ => true

/-- The threads that push tasks are the owner, `none`, and the others. -/
structure State (P T : Type) where
  owner : Owner
  worker : Worker
  started : Bool
  loopOk : Bool
  exiting : Bool
  loop : Option (Loop (Option P) T)

variable {P T : Type}

def new : State P T := ⟨.creating, .absent, false, false, false, none⟩

/-- The thread that takes a step of the loop, none for the loop's own. -/
def caller : PendingTasks.Label (Option P) T → Option (Option P)
  | .push p _ | .quit p | .write p => some p
  | _ => none

/-- Who may take a step of the loop: its thread in `loop`, and whoever has the loop. -/
def State.admits (s : State P T) : Option (Option P) → Prop
  | none => s.worker = .looping
  | some none => s.owner = .alive
  | some (some _) => s.owner.built = true

inductive Label (P T : Type) where
  | create
  | seesStarted
  | seesLoop
  | start
  | make
  | ok
  | inLoop (a : PendingTasks.Label (Option P) T)
  | quit
  | wakeup
  | join
  | returns

variable [DecidableEq P]

inductive Step : State P T → Label P T → State P T → Prop
  | create (s : State P T) : s.owner = .creating →
      Step s .create { s with owner := .awaitsStart, worker := .created }
  | seesStarted (s : State P T) : s.owner = .awaitsStart → s.started = true →
      Step s .seesStarted { s with owner := .awaitsLoop }
  | seesLoop (s : State P T) : s.owner = .awaitsLoop → s.loopOk = true → Step s .seesLoop { s with owner := .alive }
  | start (s : State P T) : s.worker = .created → Step s .start { s with started := true, worker := .started }
  | make (s : State P T) : s.worker = .started →
      Step s .make { s with loop := some PendingTasks.new, worker := .made }
  | ok (s : State P T) : s.worker = .made → Step s .ok { s with loopOk := true, worker := .looping }
  | inLoop (s : State P T) (l l' : Loop (Option P) T) (a : PendingTasks.Label (Option P) T) : s.loop = some l →
      s.admits (caller a) → PendingTasks.Step l a l' → Step s (.inLoop a) { s with loop := some l' }
  | quit (s : State P T) (l l' : Loop (Option P) T) : s.owner = .alive → s.loop = some l →
      PendingTasks.Step l (.quit none) l' →
      Step s .quit { s with exiting := true, owner := .quitting, loop := some l' }
  | wakeup (s : State P T) (l l' : Loop (Option P) T) : s.owner = .quitting → s.loop = some l →
      PendingTasks.Step l (.write none) l' → Step s .wakeup { s with owner := .joining, loop := some l' }
  | join (s : State P T) : s.owner = .joining → s.worker = .returned → Step s .join { s with owner := .destroyed }
  | returns (s : State P T) (l : Loop (Option P) T) : s.worker = .looping → s.loop = some l → l.phase = .stopped →
      Step s .returns { s with worker := .returned }

/-! ## What the flags stand for -/

def Owner.left : Owner → Nat
  | .creating => 6
  | .awaitsStart => 5
  | .awaitsLoop => 4
  | .alive => 3
  | .quitting => 2
  | .joining => 1
  | .destroyed => 0

def Worker.left : Worker → Nat
  | .absent => 5
  | .created => 4
  | .started => 3
  | .made => 2
  | .looping => 1
  | .returned => 0

structure Inv (s : State P T) : Prop where
  started : s.started = true ↔ s.worker.left ≤ 3
  loop : s.loop.isSome = true ↔ s.worker.left ≤ 2
  loopOk : s.loopOk = true ↔ s.worker.left ≤ 1
  creating : s.owner = .creating ↔ s.worker = .absent
  built : s.owner.built = true → s.loopOk = true
  returned : ∀ l, s.loop = some l → s.worker = .returned → l.phase = .stopped
  quitting : ∀ l, s.loop = some l → s.owner.left ≤ 2 → l.quit = true
  waking : ∀ l, s.loop = some l → s.owner = .quitting → l.producers none ≠ .idle
  owner : ∀ l, s.loop = some l → l.producers none ≠ .idle → s.owner = .alive ∨ s.owner = .quitting
  producer : ∀ l p, s.loop = some l → l.producers p ≠ .idle → s.owner.built = true

variable {s t : State P T} {a : Label P T}

theorem built_of_left {o : Owner} (h : o.left ≤ 3) : o.built = true := by
  cases o <;> simp_all [Owner.left, Owner.built]

omit [DecidableEq P] in
theorem inv_new : Inv (new : State P T) := by
  constructor <;> simp [new, Worker.left, Owner.built]

section Loop

variable {l l' : Loop (Option P) T} {b : PendingTasks.Label (Option P) T} {q : Option P}

theorem step_remains (h : PendingTasks.Step l b l') (hl : l.phase = .stopped) : l'.phase = .stopped := by
  by_cases hb : b.inLoop
  · cases h with
    | register hp | returns _ hp | handle _ _ hp | swap hp | run _ _ hp | again hp | exit hp =>
      exact absurd (hl.symm.trans hp) (by simp)
    | _ => exact hb.elim
  · exact (PendingTasks.step_phase h hb).trans hl

omit [DecidableEq P] in
theorem caller_inLoop (hb : b.inLoop) : caller b = none := by
  cases b with
  | push | quit | write => exact hb.elim
  | _ => rfl

/-- A thread gets behind a push only by a step of its own. -/
theorem step_caller (h : PendingTasks.Step l b l') (hb : caller b ≠ some q) : l'.producers q = l.producers q := by
  cases h with
  | push p | quit p | write p => exact Function.update_of_ne (fun he => hb (congrArg some he.symm)) ..
  | handle e => cases e <;> rfl
  | _ => rfl

theorem write_idle (h : PendingTasks.Step l (.write q) l') : l'.producers q = .idle := by
  cases h
  exact Function.update_self ..

end Loop

theorem step_inv (hs : Inv s) (h : Step s a t) : Inv t := by
  cases h with
  | create ho =>
    have hw := hs.creating.mp ho
    have hloop : s.loop = none := by simpa [hw, Worker.left] using hs.loop
    have hstarted : s.started = false := by simpa [hw, Worker.left] using hs.started
    have hok : s.loopOk = false := by simpa [hw, Worker.left] using hs.loopOk
    constructor <;> simp [hloop, hstarted, hok, Worker.left, Owner.built]
  | seesStarted ho =>
    refine ⟨hs.started, hs.loop, hs.loopOk, ?_, nofun, hs.returned, ?_, nofun, ?_, ?_⟩
    · simpa [ho] using hs.creating
    · simp [Owner.left]
    · intro l hl hp
      simpa [ho] using hs.owner l hl hp
    · intro l p hl hp
      simpa [ho, Owner.built] using hs.producer l p hl hp
  | seesLoop ho hok =>
    refine ⟨hs.started, hs.loop, hs.loopOk, ?_, fun _ => hok, hs.returned, ?_, nofun, fun _ _ _ => .inl rfl,
      fun _ _ _ _ => rfl⟩
    · simpa [ho] using hs.creating
    · simp [Owner.left]
  | start hw =>
    have hloop : s.loop = none := by simpa [hw, Worker.left] using hs.loop
    have hok : s.loopOk = false := by simpa [hw, Worker.left] using hs.loopOk
    refine ⟨by simp [Worker.left], by simp [hloop, Worker.left], by simp [hok, Worker.left], ?_, hs.built, ?_, ?_, ?_,
      ?_, ?_⟩
    · simpa [hw] using hs.creating
    all_goals simp [hloop]
  | make hw =>
    have hstarted : s.started = true := hs.started.mpr (by simp [hw, Worker.left])
    have hok : s.loopOk = false := by simpa [hw, Worker.left] using hs.loopOk
    have hbuilt : s.owner.built = false := by simpa [hok] using hs.built
    refine ⟨by simp [hstarted, Worker.left], by simp [Worker.left], by simp [hok, Worker.left], ?_, hs.built, nofun, ?_,
      ?_, ?_, ?_⟩
    · simpa [hw] using hs.creating
    · intro l _ ho
      rw [built_of_left (Nat.le_succ_of_le ho)] at hbuilt
      cases hbuilt
    · intro l _ ho
      rw [show s.owner = .quitting from ho] at hbuilt
      cases hbuilt
    · intro l hl hp
      cases hl
      exact absurd rfl hp
    · intro l p hl hp
      cases hl
      exact absurd rfl hp
  | ok hw =>
    have hstarted : s.started = true := hs.started.mpr (by simp [hw, Worker.left])
    have hloop : s.loop.isSome = true := hs.loop.mpr (by simp [hw, Worker.left])
    refine ⟨by simp [hstarted, Worker.left], by simp [hloop, Worker.left], by simp [Worker.left], ?_, fun _ => rfl,
      nofun, hs.quitting, hs.waking, hs.owner, hs.producer⟩
    simpa [hw] using hs.creating
  | inLoop l l' b hl hadmits hb =>
    have hisSome : s.loop.isSome = true := by simp [hl]
    refine ⟨hs.started, by simpa [hisSome] using hs.loop, hs.loopOk, hs.creating, hs.built, ?_, ?_, ?_, ?_, ?_⟩
    · intro k hk hw
      cases hk
      exact step_remains hb (hs.returned l hl hw)
    · intro k hk ho
      cases hk
      exact PendingTasks.step_quit (hs.quitting l hl ho) hb
    · intro k hk ho
      cases hk
      have hc : caller b ≠ some none := by
        intro hc
        rw [hc] at hadmits
        exact absurd (hadmits.symm.trans ho) (by decide)
      exact step_caller hb hc ▸ hs.waking l hl ho
    · intro k hk hp
      cases hk
      by_cases hc : caller b = some none
      · rw [hc] at hadmits
        exact .inl hadmits
      · exact hs.owner l hl (step_caller hb hc ▸ hp)
    · intro k p hk hp
      cases hk
      by_cases hc : caller b = some p
      · rw [hc] at hadmits
        cases p with
        | none => exact congrArg Owner.built hadmits
        | some p => exact hadmits
      · exact hs.producer l p hl (step_caller hb hc ▸ hp)
  | quit l l' ho hl hb =>
    have hisSome : s.loop.isSome = true := by simp [hl]
    have hok : s.loopOk = true := hs.built (by simp [ho, Owner.built])
    refine ⟨hs.started, by simpa [hisSome] using hs.loop, hs.loopOk, ?_, fun _ => hok, ?_, ?_, ?_, ?_,
      fun _ _ _ _ => rfl⟩
    · simpa [ho] using hs.creating
    · intro k hk hw
      cases hk
      exact step_remains hb (hs.returned l hl hw)
    · intro k hk _
      cases hk
      cases hb
      rfl
    · intro k hk _
      cases hk
      cases hb
      simp
    · exact fun _ _ _ => .inr rfl
  | wakeup l l' ho hl hb =>
    have hisSome : s.loop.isSome = true := by simp [hl]
    have hok : s.loopOk = true := hs.built (by simp [ho, Owner.built])
    refine ⟨hs.started, by simpa [hisSome] using hs.loop, hs.loopOk, ?_, fun _ => hok, ?_, ?_, nofun, ?_,
      fun _ _ _ _ => rfl⟩
    · simpa [ho] using hs.creating
    · intro k hk hw
      cases hk
      exact step_remains hb (hs.returned l hl hw)
    · intro k hk _
      cases hk
      exact PendingTasks.step_quit (hs.quitting l hl (by simp [ho, Owner.left])) hb
    · intro k hk hp
      cases hk
      exact absurd (write_idle hb) hp
  | join ho hw =>
    have hok : s.loopOk = true := hs.built (by simp [ho, Owner.built])
    refine ⟨hs.started, hs.loop, hs.loopOk, ?_, fun _ => hok, hs.returned, ?_, nofun, ?_, fun _ _ _ _ => rfl⟩
    · simpa [ho] using hs.creating
    · exact fun l hl _ => hs.quitting l hl (by simp [ho, Owner.left])
    · intro l hl hp
      simpa [ho] using hs.owner l hl hp
  | returns l hw hl hstop =>
    refine ⟨?_, ?_, ?_, ?_, hs.built, ?_, hs.quitting, hs.waking, hs.owner, hs.producer⟩
    · simpa [hw, Worker.left] using hs.started
    · simpa [hw, Worker.left] using hs.loop
    · simpa [hw, Worker.left] using hs.loopOk
    · simpa [hw] using hs.creating
    · intro k hk _
      rw [hl] at hk
      cases hk
      exact hstop

/-! ## Who is waited for -/

/-- The steps by which the owner goes on. -/
def Label.ofOwner : Label P T → Prop
  | .create | .seesStarted | .seesLoop | .wakeup | .join => True
  | .inLoop b => b = .write none
  | _ => False

def Label.ofWorker : Label P T → Prop
  | .start | .make | .ok | .returns => True
  | .inLoop b => b.inLoop
  | _ => False

def ownerThread : Process (Step (P := P) (T := T)) where
  ready s := s.owner = .creating ∨ (s.owner = .awaitsStart ∧ s.started = true) ∨
    (s.owner = .awaitsLoop ∧ s.loopOk = true) ∨ (s.owner = .joining ∧ s.worker = .returned) ∨
    ((s.owner = .alive ∨ s.owner = .quitting) ∧ ∃ l, s.loop = some l ∧ l.producers none ≠ .idle)
  labels := Label.ofOwner
  enabled s hs := by
    rcases hs with ho | ⟨ho, hstarted⟩ | ⟨ho, hok⟩ | ⟨ho, hw⟩ | ⟨ho | ho, l, hl, hp⟩
    · exact ⟨.create, trivial, _, .create s ho⟩
    · exact ⟨.seesStarted, trivial, _, .seesStarted s ho hstarted⟩
    · exact ⟨.seesLoop, trivial, _, .seesLoop s ho hok⟩
    · exact ⟨.join, trivial, _, .join s ho hw⟩
    · exact ⟨.inLoop (.write none), rfl, _, .inLoop s l _ _ hl ho (.write l none hp)⟩
    · exact ⟨.wakeup, trivial, _, .wakeup s l _ ho hl (.write l none hp)⟩

def workerThread : Process (Step (P := P) (T := T)) where
  ready s := s.worker = .created ∨ s.worker = .started ∨ s.worker = .made ∨
    (s.worker = .looping ∧ ∃ l, s.loop = some l ∧ (l.phase = .stopped ∨ l.ready))
  labels := Label.ofWorker
  enabled s hs := by
    rcases hs with hw | hw | hw | ⟨hw, l, hl, hstop | hready⟩
    · exact ⟨.start, trivial, _, .start s hw⟩
    · exact ⟨.make, trivial, _, .make s hw⟩
    · exact ⟨.ok, trivial, _, .ok s hw⟩
    · exact ⟨.returns, trivial, _, .returns s l hw hl hstop⟩
    · obtain ⟨b, hb, l', hstep⟩ := PendingTasks.loopThread.enabled l hready
      exact ⟨.inLoop b, hb, _, .inLoop s l l' b hl (caller_inLoop hb ▸ hw) hstep⟩

/-- A thread that has the loop. -/
def otherThread (p : P) : Process (Step (P := P) (T := T)) where
  ready s := s.owner.built = true ∧ ∃ l, s.loop = some l ∧ l.producers (some p) ≠ .idle
  labels a := a = .inLoop (.write (some p))
  enabled s := fun ⟨ho, l, hl, hp⟩ => ⟨_, rfl, _, .inLoop s l _ _ hl ho (.write l (some p) hp)⟩

def process : Option (Option P) → Process (Step (P := P) (T := T))
  | none => workerThread
  | some none => ownerThread
  | some (some p) => otherThread p

/-- The thread that has to go on before the owner can. -/
def Needs : Option (Option P) → State P T → Prop
  | some none, s => s.owner = .creating ∨ (s.owner = .awaitsStart ∧ s.started = true) ∨
    (s.owner = .awaitsLoop ∧ s.loopOk = true) ∨ s.owner = .quitting ∨ (s.owner = .joining ∧ s.worker = .returned)
  | none, s => (s.owner = .awaitsStart ∧ s.started = false) ∨ (s.owner = .awaitsLoop ∧ s.loopOk = false) ∨
    (s.owner = .joining ∧ s.worker = .looping ∧ ∃ l, s.loop = some l ∧ l.phase = .stopped)
  | some (some _), _ => False

def State.left (s : State P T) : Nat := s.owner.left + s.worker.left

/-- A step brings the two threads on, or it is one of the loop. -/
theorem step_left (hs : Inv s) (h : Step s a t) : t.left < s.left ∨
    ∃ b l l', a = .inLoop b ∧ s.loop = some l ∧ s.admits (caller b) ∧ PendingTasks.Step l b l' ∧
      t = { s with loop := some l' } := by
  cases h with
  | inLoop l l' b hl hadmits hb => exact .inr ⟨b, l, l', rfl, hl, hadmits, hb, rfl⟩
  | create ho => exact .inl (by simp [State.left, ho, hs.creating.mp ho, Owner.left, Worker.left])
  | seesStarted ho | seesLoop ho | quit _ _ ho | wakeup _ _ ho | join ho =>
    exact .inl (by simp [State.left, ho, Owner.left])
  | start hw | make hw | ok hw | returns _ hw => exact .inl (by simp [State.left, hw, Worker.left])

/-- A step of the loop is none that anyone waits for, and changes nothing of what is needed. -/
theorem needs_inLoop {i : Option (Option P)} {b : PendingTasks.Label (Option P) T} {l l' : Loop (Option P) T}
    (hs : Inv s) (hl : s.loop = some l) (hadmits : s.admits (caller b)) (hb : PendingTasks.Step l b l')
    (hi : Needs i s) : Needs i { s with loop := some l' } ∧ Label.inLoop b ∉ (process i).labels := by
  cases i with
  | none =>
    constructor
    · refine hi.imp_right (Or.imp_right fun ⟨ho, hw, k, hk, hstop⟩ => ⟨ho, hw, l', rfl, ?_⟩)
      rw [hl] at hk
      cases hk
      exact step_remains hb hstop
    · intro hin
      rw [caller_inLoop hin] at hadmits
      have hw : s.worker = .looping := hadmits
      rcases hi with ⟨-, hstarted⟩ | ⟨-, hok⟩ | ⟨-, -, k, hk, hstop⟩
      · exact absurd (hs.started.mpr (by simp [hw, Worker.left])) (by simp [hstarted])
      · exact absurd (hs.loopOk.mpr (by simp [hw, Worker.left])) (by simp [hok])
      · rw [hl] at hk
        cases hk
        have hin : b.inLoop := hin
        cases hb with
        | register hp | returns _ hp | handle _ _ hp | swap hp | run _ _ hp | again hp | exit hp =>
          exact absurd (hstop.symm.trans hp) (by simp)
        | _ => exact hin.elim
  | some q =>
    cases q with
    | some p => exact hi.elim
    | none =>
      refine ⟨hi, fun hin => ?_⟩
      have hb : b = .write none := hin
      rw [hb] at hadmits
      have ho : s.owner = .alive := hadmits
      simp [Needs, ho] at hi

variable {e : Execution (Step (P := P) (T := T))}

theorem always_inv (h0 : e.state 0 = new) (n : Nat) : Inv (e.state n) := by
  have hrun := e.run n
  rw [h0] at hrun
  exact hrun.invariant (fun _ _ _ => step_inv) inv_new

theorem Needs.ready {i : Option (Option P)} (hs : Inv s) (hi : Needs i s) : (process i).ready s := by
  cases i with
  | none =>
    rcases hi with ⟨ho, hstarted⟩ | ⟨ho, hok⟩ | ⟨-, hw, l, hl, hstop⟩
    · have hw : ¬ s.worker.left ≤ 3 := fun h => by simp [hs.started.mpr h] at hstarted
      have habsent : s.worker ≠ .absent := fun h => by simp [hs.creating.mpr h] at ho
      cases hworker : s.worker <;> simp_all [Worker.left, process, workerThread]
    · have hw : ¬ s.worker.left ≤ 1 := fun h => by simp [hs.loopOk.mpr h] at hok
      have habsent : s.worker ≠ .absent := fun h => by simp [hs.creating.mpr h] at ho
      cases hworker : s.worker <;> simp_all [Worker.left, process, workerThread]
    · exact .inr (.inr (.inr ⟨hw, l, hl, .inl hstop⟩))
  | some q =>
    cases q with
    | some p => exact hi.elim
    | none =>
      rcases hi with ho | ho | ho | ho | ho
      · exact .inl ho
      · exact .inr (.inl ho)
      · exact .inr (.inr (.inl ho))
      · have hok : s.loopOk = true := hs.built (by simp [ho, Owner.built])
        obtain ⟨l, hl⟩ := Option.isSome_iff_exists.mp (hs.loop.mpr (Nat.le_succ_of_le (hs.loopOk.mp hok)))
        exact .inr (.inr (.inr (.inr ⟨.inr ho, l, hl, hs.waking l hl ho⟩)))
      · exact .inr (.inr (.inr (.inl ho)))

/-- Sooner or later nobody is waited for. -/
theorem settles (h0 : e.state 0 = new) (hfair : ∀ i, e.Fair (process i)) (n : Nat) :
    ∃ m, n ≤ m ∧ ∀ i, ¬ Needs i (e.state m) := by
  by_cases hn : ∃ i, Needs i (e.state n)
  · obtain ⟨i, hi⟩ := hn
    obtain ⟨m, hm, -, -, hdone⟩ := e.reaches process State.left Inv Needs (fun _ t => ∀ i, ¬ Needs i t)
      (fun m _ => always_inv h0 m) (fun i s => Needs.ready)
      (fun i s a t hs _ hi h => by
        by_cases hdone : ∀ j, ¬ Needs j t
        · exact .inl hdone
        · rcases step_left hs h with hlt | ⟨b, l, l', rfl, hl, hadmits, hb, rfl⟩
          · obtain ⟨j, hj⟩ := not_forall_not.mp hdone
            exact .inr ⟨j, hj, .inl hlt⟩
          · obtain ⟨hkeep, hnot⟩ := needs_inLoop hs hl hadmits hb hi
            exact .inr ⟨i, hkeep, .inr ⟨rfl, rfl, hnot⟩⟩)
      hfair hi
    exact ⟨m + 1, Nat.le_succ_of_le hm, hdone⟩
  · exact ⟨n, le_rfl, not_exists.mp hn⟩

/-! ## The loop inside -/

def State.inner (s : State P T) : Loop (Option P) T := s.loop.getD PendingTasks.new

def Label.inner : Label P T → Option (PendingTasks.Label (Option P) T)
  | .inLoop b => some b
  | .quit => some (.quit none)
  | .wakeup => some (.write none)
  | _ => none

theorem step_inner {b : PendingTasks.Label (Option P) T} (h : Step s a t) (ha : a.inner = some b) :
    PendingTasks.Step s.inner b t.inner := by
  cases h with
  | inLoop l l' b' hl _ hb | quit l l' _ hl hb | wakeup l l' _ hl hb =>
    cases ha
    simpa [State.inner, hl] using hb
  | _ => cases ha

theorem step_outer (hs : Inv s) (h : Step s a t) (ha : a.inner = none) : t.inner = s.inner := by
  cases h with
  | make hw =>
    have hloop : s.loop = none := by simpa [hw, Worker.left] using hs.loop
    simp [State.inner, hloop]
  | inLoop | quit | wakeup => cases ha
  | _ => rfl

/-- The execution of the loop, which does not move before there is one. -/
def inner (e : Execution (Step (P := P) (T := T))) (h0 : e.state 0 = new) :
    Execution (PendingTasks.Step (P := Option P) (T := T)) :=
  e.project State.inner Label.inner (fun n _ _ ha hb => step_inner (e.steps n _ ha) hb)
    fun n _ ha hb => step_outer (always_inv h0 n) (e.steps n _ ha) hb

theorem step_built (hs : s.owner.built = true) (h : Step s a t) : t.owner.built = true := by
  cases h with
  | create ho | seesStarted ho | seesLoop ho =>
    rw [ho] at hs
    cases hs
  | quit | wakeup | join => rfl
  | _ => exact hs

theorem step_owner (hs : s.owner.left ≤ 2) (h : Step s a t) : t.owner.left ≤ 2 := by
  cases h with
  | create ho | seesStarted ho | seesLoop ho | quit _ _ ho =>
    rw [ho] at hs
    exact absurd hs (by decide)
  | wakeup | join => simp [Owner.left]
  | _ => exact hs

theorem eventually_built (h0 : e.state 0 = new) (hfair : ∀ i, e.Fair (process i)) :
    ∃ n, (e.state n).owner.built = true := by
  obtain ⟨n, -, hn⟩ := settles h0 hfair 0
  refine ⟨n, ?_⟩
  have howner := hn (some none)
  have hworker := hn none
  simp only [Needs, not_or] at howner hworker
  cases ho : (e.state n).owner with
  | creating => exact absurd ho howner.1
  | awaitsStart => simp_all
  | awaitsLoop => simp_all
  | _ => rfl

omit [DecidableEq P] in
/-- A loop that is there has been made: a thread that is behind a push of it is a thread that has it. -/
theorem loop_of_inner {q : Option P} (hq : s.inner.producers q ≠ .idle) : ∃ l, s.loop = some l ∧ s.inner = l := by
  cases hl : s.loop with
  | none => simp [State.inner, hl, PendingTasks.new] at hq
  | some l => exact ⟨l, rfl, by simp [State.inner, hl]⟩

theorem worker_in_loop {l : Loop (Option P) T} (h : Step s a t) (ha : a.ofWorker) (hw : s.worker = .looping)
    (hl : s.loop = some l) (hrun : l.phase ≠ .stopped) : ∃ b, b.inLoop ∧ a = .inLoop b := by
  cases h with
  | inLoop _ _ b => exact ⟨b, ha, rfl⟩
  | start hw' | make hw' | ok hw' => exact absurd (hw.symm.trans hw') (by simp)
  | returns k _ hk hstop =>
    rw [hl] at hk
    cases hk
    exact absurd hstop hrun
  | _ => exact ha.elim

theorem owner_writes (h : Step s a t) (ha : a.ofOwner) (ho : s.owner = .alive ∨ s.owner = .quitting) :
    a.inner = some (.write none) := by
  cases h with
  | inLoop _ _ b => exact congrArg some ha
  | create ho' | seesStarted ho' | seesLoop ho' | join ho' => simp [ho'] at ho
  | wakeup => rfl
  | _ => exact ha.elim

/-- No thread is kept waiting in the loop if none is. -/
theorem inner_fair (h0 : e.state 0 = new) (hfair : ∀ i, e.Fair (process i)) (i : Option (Option P)) :
    (inner e h0).Fair (PendingTasks.process i) := by
  intro n hn
  have hlabel : ∀ m a b, e.label m = some a → a.inner = some b → (inner e h0).label m = some b := fun m a b ha hb => by
    show (e.label m).bind Label.inner = some b
    rw [ha]
    exact hb
  cases i with
  | none =>
    obtain ⟨k, hk⟩ := eventually_built h0 hfair
    have hlooping : ∀ m, max n k ≤ m → (e.state m).worker = .looping ∧ ∃ l, (e.state m).loop = some l ∧ l.ready := by
      intro m hm
      have hs := always_inv h0 m
      have hbuilt := Execution.stable (I := fun s : State P T => s.owner.built = true) (fun _ _ _ => step_built) hk m
        (le_of_max_le_right hm)
      have hready : (e.state m).inner.ready := hn m (le_of_max_le_left hm)
      have hleft := hs.loopOk.mp (hs.built hbuilt)
      obtain ⟨l, hl⟩ := Option.isSome_iff_exists.mp (hs.loop.mpr (Nat.le_succ_of_le hleft))
      have hin : (e.state m).inner = l := by simp [State.inner, hl]
      rw [hin] at hready
      refine ⟨?_, l, hl, hready⟩
      cases hw : (e.state m).worker with
      | looping => rfl
      | returned => exact absurd (hs.returned l hl hw) hready.1
      | _ => simp [hw, Worker.left] at hleft
    obtain ⟨m, hm, a, ha, hl⟩ := hfair none (max n k) fun m hm =>
      .inr (.inr (.inr ⟨(hlooping m hm).1, (hlooping m hm).2.imp fun l hl => ⟨hl.1, .inr hl.2⟩⟩))
    obtain ⟨hw, l, hloop, hready⟩ := hlooping m hm
    obtain ⟨b, hb, rfl⟩ := worker_in_loop (e.steps m a hl) ha hw hloop hready.1
    exact ⟨m, le_of_max_le_left hm, b, hb, hlabel m _ b hl rfl⟩
  | some q =>
    have hbehind : ∀ m, n ≤ m → ∃ l, (e.state m).loop = some l ∧ l.producers q ≠ .idle := fun m hm => by
      have hq : (e.state m).inner.producers q ≠ .idle := hn m hm
      obtain ⟨l, hl, hin⟩ := loop_of_inner hq
      exact ⟨l, hl, hin ▸ hq⟩
    cases q with
    | none =>
      have howner : ∀ m, n ≤ m → (e.state m).owner = .alive ∨ (e.state m).owner = .quitting := fun m hm => by
        obtain ⟨l, hl, hq⟩ := hbehind m hm
        exact (always_inv h0 m).owner l hl hq
      obtain ⟨m, hm, a, ha, hl⟩ := hfair (some none) n fun m hm =>
        .inr (.inr (.inr (.inr ⟨howner m hm, hbehind m hm⟩)))
      exact ⟨m, hm, _, rfl, hlabel m a _ hl (owner_writes (e.steps m a hl) ha (howner m hm))⟩
    | some p =>
      obtain ⟨m, hm, a, rfl, hl⟩ := hfair (some (some p)) n fun m hm => by
        obtain ⟨l, hl, hq⟩ := hbehind m hm
        exact ⟨(always_inv h0 m).producer l _ hl hq, l, hl, hq⟩
      exact ⟨m, hm, _, rfl, hlabel m _ _ hl rfl⟩

/-- When no thread is kept waiting for ever, the constructor returns, the loop is there from
    then on, and the destructor returns with the loop stopped. -/
theorem thread_joins (e : Execution (Step (P := P) (T := T))) (h0 : e.state 0 = new)
    (hfair : ∀ i, e.Fair (process i)) : (∃ n, ∀ m, n ≤ m → (e.state m).owner.built = true) ∧
      (∀ n, (e.state n).owner.built = true → (e.state n).loop ≠ none) ∧
      ∀ n, (e.state n).owner = .quitting →
        ∃ m, n ≤ m ∧ (e.state m).owner = .destroyed ∧ ∃ l, (e.state m).loop = some l ∧ l.phase = .stopped := by
  have hloop : ∀ n, (e.state n).owner.built = true → ∃ l, (e.state n).loop = some l := fun n hn => by
    have hs := always_inv h0 n
    exact Option.isSome_iff_exists.mp (hs.loop.mpr (Nat.le_succ_of_le (hs.loopOk.mp (hs.built hn))))
  refine ⟨?_, fun n hn hnone => ?_, fun n hn => ?_⟩
  · obtain ⟨n, hn⟩ := eventually_built h0 hfair
    exact ⟨n, Execution.stable (I := fun s : State P T => s.owner.built = true) (fun _ _ _ => step_built) hn⟩
  · obtain ⟨l, hl⟩ := hloop n hn
    rw [hnone] at hl
    cases hl
  · have hleft : ∀ m, n ≤ m → (e.state m).owner.left ≤ 2 :=
      Execution.stable (I := fun s : State P T => s.owner.left ≤ 2) (fun _ _ _ => step_owner) (by simp [hn, Owner.left])
    have hin : ∀ m, n ≤ m → ∃ l, (e.state m).loop = some l ∧ (e.state m).inner = l := fun m hm => by
      obtain ⟨l, hl⟩ := hloop m (built_of_left (Nat.le_succ_of_le (hleft m hm)))
      exact ⟨l, hl, by simp [State.inner, hl]⟩
    obtain ⟨l, hl, hl'⟩ := hin n le_rfl
    have hquit : ((inner e h0).state n).quit = true := by
      show (e.state n).inner.quit = true
      rw [hl']
      exact (always_inv h0 n).quitting l hl (hleft n le_rfl)
    have hnew : (inner e h0).state 0 = PendingTasks.new := by
      show (e.state 0).inner = _
      rw [h0]
      rfl
    obtain ⟨k, hk, hstop⟩ := PendingTasks.quit_stops hnew (inner_fair h0 hfair) hquit
    have hstopped : ∀ m, k ≤ m → ∃ l, (e.state m).loop = some l ∧ l.phase = .stopped := fun m hm => by
      obtain ⟨l, hl, hl'⟩ := hin m (hk.trans hm)
      have hphase : (e.state m).inner.phase = .stopped :=
        Execution.stable (e := inner e h0) (fun _ _ _ hs h => step_remains h hs) hstop m hm
      exact ⟨l, hl, hl' ▸ hphase⟩
    obtain ⟨m, hm, hdone⟩ := settles h0 hfair k
    refine ⟨m, hk.trans hm, ?_, hstopped m hm⟩
    have hle := hleft m (hk.trans hm)
    cases ho : (e.state m).owner with
    | destroyed => rfl
    | quitting => exact absurd (.inr (.inr (.inr (.inl ho)))) (hdone (some none))
    | joining =>
      have hs := always_inv h0 m
      have hworker := hs.loopOk.mp (hs.built (by simp [ho, Owner.built]))
      cases hw : (e.state m).worker with
      | returned => exact absurd (.inr (.inr (.inr (.inr ⟨ho, hw⟩)))) (hdone (some none))
      | looping => exact absurd (.inr (.inr ⟨ho, hw, hstopped m hm⟩)) (hdone none)
      | _ => simp [hw, Worker.left] at hworker
    | _ => simp [ho, Owner.left] at hle

/-- A thread gives the loop a task, and the object is destroyed before the loop has seen it. -/
theorem thread_joins_one : ∃ (e : Execution (Step (P := Unit) (T := Nat))) (n : Nat), .quit ∈ e.labels n ∧
    (∀ n, (e.state n).owner.built = true → (e.state n).loop ≠ none) ∧
    ∀ n, (e.state n).owner = .quitting →
      ∃ m, n ≤ m ∧ (e.state m).owner = .destroyed ∧ ∃ l, (e.state m).loop = some l ∧ l.phase = .stopped := by
  have hrun : Labelled.Run Step (new : State Unit Nat)
      [.create, .start, .seesStarted, .make, .ok, .seesLoop, .inLoop .register, .inLoop .again,
        .inLoop (.push (some ()) 1), .quit, .inLoop (.write (some ())), .wakeup, .inLoop (.returns [.wakeup]),
        .inLoop (.handle .wakeup), .inLoop .swap, .inLoop (.run 1), .inLoop .exit, .returns, .join] _ :=
    .cons (.create _ rfl) (.cons (.start _ rfl) (.cons (.seesStarted _ rfl rfl) (.cons (.make _ rfl) (.cons (.ok _ rfl)
      (.cons (.seesLoop _ rfl rfl) (.cons (.inLoop _ _ _ _ rfl rfl (.register _ rfl))
      (.cons (.inLoop _ _ _ _ rfl rfl (.again _ rfl rfl)) (.cons (.inLoop _ _ _ _ rfl rfl (.push _ (some ()) 1 rfl))
      (.cons (.quit _ _ _ rfl rfl (.quit _ none rfl)) (.cons (.inLoop _ _ _ _ rfl rfl (.write _ (some ()) (by decide)))
      (.cons (.wakeup _ _ _ rfl rfl (.write _ none (by decide)))
      (.cons (.inLoop _ _ _ _ rfl rfl (.returns _ [.wakeup] rfl (by decide) (by decide)))
      (.cons (.inLoop _ _ _ _ rfl rfl (.handle _ .wakeup [] rfl)) (.cons (.inLoop _ _ _ _ rfl rfl (.swap _ rfl))
      (.cons (.inLoop _ _ _ _ rfl rfl (.run _ 1 [] rfl)) (.cons (.inLoop _ _ _ _ rfl rfl (.exit _ rfl rfl))
      (.cons (.returns _ _ rfl rfl rfl) (.cons (.join _ rfl rfl) (.nil _)))))))))))))))))))
  obtain ⟨e, h0, hlabels, hend⟩ := execution_of_run hrun
  have hfair : ∀ i, e.Fair (process i) := by
    intro i
    refine Execution.Fair.of_not_ready hend ?_
    match i with
    | none => simp [process, workerThread]
    | some none => simp [process, ownerThread]
    | some (some ()) =>
      intro hready
      obtain ⟨-, l, hl, hp⟩ := hready
      cases hl
      exact hp rfl
  refine ⟨e, 19, ?_, (thread_joins e h0 hfair).2⟩
  have hlast : e.labels 19 = _ := hlabels
  rw [hlast]
  simp

end EventLoopThread

end HahaWeb
