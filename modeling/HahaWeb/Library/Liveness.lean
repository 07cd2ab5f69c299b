/-
  HahaWeb.Library.Liveness — what must happen in a system whose steps carry labels.

  An execution goes on without end: at each time it takes a step, or stays where it is. A
  process is a set of labels and the states in which it is ready to go on with one of them.
  An execution is fair to a process that is not kept waiting once it stays ready, and
  strongly fair to one that is not kept waiting when it is ready again and again.

  Proved: where one process is the one to help and takes a step sooner or later, and every
  step of the system leads to the goal or goes down in rank, or is another's and changes
  neither the rank nor who is to help, an execution reaches the goal (`Execution.leads`;
  `Execution.reaches` where the helper stays ready and the execution is fair to it). A run
  that ends is an execution that stays at its end (`execution_of_run`), and what an
  execution does to a part of the state is one too (`Execution.project`).
-/

import Mathlib.Data.Set.Basic
import Mathlib.Order.WellFounded
import HahaWeb.Library.Labelled

namespace Liveness

variable {σ α : Type} {step : σ → α → σ → Prop}

/-- `label n` is the label of the step at time `n`, none where nothing is done. -/
structure Execution (step : σ → α → σ → Prop) where
  state : Nat → σ
  label : Nat → Option α
  steps : ∀ n a, label n = some a → step (state n) a (state (n + 1))
  stays : ∀ n, label n = none → state (n + 1) = state n

structure Process (step : σ → α → σ → Prop) where
  ready : σ → Prop
  labels : Set α
  enabled : ∀ s, ready s → ∃ a ∈ labels, ∃ t, step s a t

/-- Ready whenever one of the labels can come next. -/
def Process.of (labels : Set α) : Process step := ⟨fun s => ∃ a ∈ labels, ∃ t, step s a t, labels, fun _ h => h⟩

namespace Execution

variable (e : Execution step)

def Fair (p : Process step) : Prop :=
  ∀ n, (∀ m, n ≤ m → p.ready (e.state m)) → ∃ m, n ≤ m ∧ ∃ a ∈ p.labels, e.label m = some a

def StronglyFair (p : Process step) : Prop :=
  (∀ n, ∃ m, n ≤ m ∧ p.ready (e.state m)) → ∀ n, ∃ m, n ≤ m ∧ ∃ a ∈ p.labels, e.label m = some a

/-- The labels of the steps before time `n`. -/
def labels : Nat → List α
  | 0 => []
  | n + 1 => labels n ++ (e.label n).toList

/-- What `d` steps from time `n` on give out. -/
def output {β : Type} (f : σ → α → List β) (n : Nat) : Nat → List β
  | 0 => []
  | d + 1 => output f n d ++ (e.label (n + d)).elim [] (f (e.state (n + d)))

variable {e}

theorem run (n : Nat) : Labelled.Run step (e.state 0) (e.labels n) (e.state n) := by
  induction n with
  | zero => exact .nil _
  | succ n ih =>
    refine ih.append ?_
    cases hl : e.label n with
    | none => exact e.stays n hl ▸ .nil _
    | some a => exact .cons (e.steps n a hl) (.nil _)

theorem labels_prefix {n m : Nat} (h : n ≤ m) : e.labels n <+: e.labels m := by
  induction h with
  | refl => exact List.prefix_refl _
  | step _ ih => exact ih.trans (List.prefix_append _ _)

theorem mem_labels {n : Nat} {a : α} : a ∈ e.labels n ↔ ∃ m < n, e.label m = some a := by
  induction n with
  | zero => simp [labels]
  | succ n ih =>
    rw [labels, List.mem_append, ih, Option.mem_toList]
    constructor
    · intro h
      rcases h with ⟨m, hm, hl⟩ | hl
      · exact ⟨m, Nat.lt_succ_of_lt hm, hl⟩
      · exact ⟨n, Nat.lt_succ_self n, hl⟩
    · intro ⟨m, hm, hl⟩
      rcases Nat.lt_succ_iff_lt_or_eq.mp hm with hlt | rfl
      · exact .inl ⟨m, hlt, hl⟩
      · exact .inr hl

/-- What no step ends holds from then on. -/
theorem stable {I : σ → Prop} (hI : ∀ s a t, I s → step s a t → I t) {n : Nat} (hn : I (e.state n)) :
    ∀ m, n ≤ m → I (e.state m) := by
  intro m hm
  induction hm with
  | refl => exact hn
  | @step m _ ih =>
    cases hl : e.label m with
    | none => exact e.stays m hl ▸ ih
    | some a => exact hI _ _ _ ih (e.steps m a hl)

/-- What an execution does to a part of the state, `f`, with the labels that concern it. -/
def project {τ β : Type} {step' : τ → β → τ → Prop} (e : Execution step) (f : σ → τ) (g : α → Option β)
    (hsteps : ∀ n a b, e.label n = some a → g a = some b → step' (f (e.state n)) b (f (e.state (n + 1))))
    (hstays : ∀ n a, e.label n = some a → g a = none → f (e.state (n + 1)) = f (e.state n)) : Execution step' where
  state n := f (e.state n)
  label n := (e.label n).bind g
  steps n b hb := by
    obtain ⟨a, ha, hg⟩ := Option.bind_eq_some_iff.mp hb
    exact hsteps n a b ha hg
  stays n hn := by
    cases ha : e.label n with
    | none => exact congrArg f (e.stays n ha)
    | some a => exact hstays n a ha (by simpa [ha] using hn)

/-- `P i` says that `process i` is the one to help, and `rank i` how far it is. The steps
    count only between states where `I` holds, as it does from now on. -/
theorem leads {ι ω : Type} [Preorder ω] [WellFoundedLT ω] (process : ι → Process step) (rank : ι → σ → ω)
    (I : σ → Prop) (P : ι → σ → Prop) (Q : σ → α → σ → Prop) {n : Nat} (hI : ∀ m, n ≤ m → I (e.state m))
    (hserved : ∀ i k, n ≤ k → (∀ m, k ≤ m → P i (e.state m)) →
      ∃ m, k ≤ m ∧ ∃ a ∈ (process i).labels, e.label m = some a)
    (hstep : ∀ i s a t, I s → I t → P i s → step s a t → Q s a t ∨
      ∃ j, P j t ∧ (rank j t < rank i s ∨ rank j t = rank i s ∧ j = i ∧ a ∉ (process i).labels))
    {i : ι} (hP : P i (e.state n)) : ∃ m, n ≤ m ∧ ∃ a, e.label m = some a ∧ Q (e.state m) a (e.state (m + 1)) := by
  induction hr : rank i (e.state n) using WellFoundedLT.induction generalizing i n with
  | ind r ih =>
    by_contra hnone
    -- unless the rank goes down, the same process is the one to help for ever
    have hstuck : ∀ m, n ≤ m → P i (e.state m) ∧ rank i (e.state m) = r ∧
        ∀ a, e.label m = some a → a ∉ (process i).labels := by
      have hstays : ∀ m, n ≤ m → P i (e.state m) → rank i (e.state m) = r → ∀ a, e.label m = some a →
          P i (e.state (m + 1)) ∧ rank i (e.state (m + 1)) = r ∧ a ∉ (process i).labels := by
        intro m hm hPm hrm a ha
        have hnext := hstep i _ a _ (hI m hm) (hI (m + 1) (Nat.le_succ_of_le hm)) hPm (e.steps m a ha)
        rcases hnext with hQ | ⟨j, hj, hlt | ⟨heq, rfl, hna⟩⟩
        · exact absurd ⟨m, hm, a, ha, hQ⟩ hnone
        · obtain ⟨k, hk, hgoal⟩ := ih _ (hrm ▸ hlt) (fun k hk => hI k (by omega))
            (fun i k hk => hserved i k (by omega)) hj rfl
          exact absurd ⟨k, by omega, hgoal⟩ hnone
        · exact ⟨hj, heq.trans hrm, hna⟩
      have hkeep : ∀ m, n ≤ m → P i (e.state m) ∧ rank i (e.state m) = r := by
        intro m hm
        induction hm with
        | refl => exact ⟨hP, hr⟩
        | @step m hm ihm =>
          cases hl : e.label m with
          | none => exact e.stays m hl ▸ ihm
          | some a =>
            obtain ⟨hPm, hrm, -⟩ := hstays m hm ihm.1 ihm.2 a hl
            exact ⟨hPm, hrm⟩
      intro m hm
      obtain ⟨hPm, hrm⟩ := hkeep m hm
      exact ⟨hPm, hrm, fun a ha => (hstays m hm hPm hrm a ha).2.2⟩
    obtain ⟨m, hm, a, ha, hl⟩ := hserved i n le_rfl fun m hm => (hstuck m hm).1
    exact (hstuck m hm).2.2 a hl ha

/-- The helper stays ready. -/
theorem reaches {ι ω : Type} [Preorder ω] [WellFoundedLT ω] (process : ι → Process step) (rank : σ → ω)
    (I : σ → Prop) (P : ι → σ → Prop) (Q : α → σ → Prop) {n : Nat} (hI : ∀ m, n ≤ m → I (e.state m))
    (hready : ∀ i s, I s → P i s → (process i).ready s)
    (hstep : ∀ i s a t, I s → I t → P i s → step s a t → Q a t ∨
      ∃ j, P j t ∧ (rank t < rank s ∨ rank t = rank s ∧ j = i ∧ a ∉ (process i).labels))
    (hfair : ∀ i, e.Fair (process i)) {i : ι} (hP : P i (e.state n)) :
    ∃ m, n ≤ m ∧ ∃ a, e.label m = some a ∧ Q a (e.state (m + 1)) :=
  e.leads process (fun _ => rank) I P (fun _ => Q) hI
    (fun i k hk hPk => hfair i k fun m hm => hready i _ (hI m (hk.trans hm)) (hPk m hm)) hstep hP

/-- What is given out has been held, or came in since. -/
theorem output_conserves {β : Type} (f : σ → α → List β) (held : σ → List β)
    (h : ∀ s a t, step s a t → ∃ new, held s ++ new = f s a ++ held t) (n d : Nat) :
    ∃ new, held (e.state n) ++ new = e.output f n d ++ held (e.state (n + d)) := by
  induction d with
  | zero => exact ⟨[], List.append_nil _⟩
  | succ d ih =>
    obtain ⟨new, hnew⟩ := ih
    cases hl : e.label (n + d) with
    | none => exact ⟨new, by simp only [output, hl, Option.elim, List.append_nil, ← Nat.add_assoc, e.stays _ hl, hnew]⟩
    | some a =>
      obtain ⟨new', hnew'⟩ := h _ a _ (e.steps _ a hl)
      refine ⟨new ++ new', ?_⟩
      rw [← List.append_assoc, hnew, List.append_assoc, hnew', ← List.append_assoc]
      simp only [output, hl, Option.elim, Nat.add_assoc]

/-- Where more is given out again and again, any number of things is, one after the other. -/
theorem output_length {β : Type} (f : σ → α → List β) (hone : ∀ s a, (f s a).length ≤ 1) (n k : Nat)
    (hmore : ∀ d, (e.output f n d).length < k → ∃ m, n + d ≤ m ∧ ∃ a, e.label m = some a ∧ f (e.state m) a ≠ []) :
    ∃ d, (e.output f n d).length = k := by
  by_contra hnone
  have hle : ∀ d, (e.output f n d).length < k := by
    intro d
    induction d with
    | zero => exact Nat.pos_of_ne_zero fun h0 => hnone ⟨0, h0.symm⟩
    | succ d ih =>
      refine lt_of_le_of_ne ?_ fun heq => hnone ⟨d + 1, heq⟩
      rw [output, List.length_append]
      cases e.label (n + d) with
      | none => exact Nat.le_of_lt ih
      | some a => exact Nat.le_trans (Nat.add_le_add_left (hone _ a) _) ih
  have hgrows : ∀ j, ∃ d, j ≤ (e.output f n d).length := by
    intro j
    induction j with
    | zero => exact ⟨0, Nat.zero_le _⟩
    | succ j ih =>
      obtain ⟨d, hd⟩ := ih
      obtain ⟨m, hm, a, ha, hne⟩ := hmore d (hle d)
      obtain ⟨c, rfl⟩ := Nat.exists_eq_add_of_le hm
      have hmono : ∀ c, (e.output f n d).length ≤ (e.output f n (d + c)).length := by
        intro c
        induction c with
        | zero => exact le_rfl
        | succ c ih =>
          rw [← Nat.add_assoc, output, List.length_append]
          exact Nat.le_add_right_of_le ih
      refine ⟨d + c + 1, ?_⟩
      rw [output, ← Nat.add_assoc, ha, List.length_append]
      exact Nat.add_le_add (hd.trans (hmono c)) (List.length_pos_iff.mpr hne)
  obtain ⟨d, hd⟩ := hgrows k
  exact absurd (hle d) (Nat.not_lt.mpr hd)

theorem StronglyFair.fair {p : Process step} (h : e.StronglyFair p) : e.Fair p := fun n hn =>
  h (fun k => ⟨max n k, Nat.le_max_right _ _, hn _ (Nat.le_max_left _ _)⟩) n

/-- An execution is fair to what is not ready in the end. -/
theorem StronglyFair.of_not_ready {p : Process step} {n : Nat} {t : σ} (hn : ∀ m, n ≤ m → e.state m = t)
    (ht : ¬ p.ready t) : e.StronglyFair p := by
  intro hready
  obtain ⟨m, hm, hr⟩ := hready n
  exact absurd (hn m hm ▸ hr) ht

theorem Fair.of_not_ready {p : Process step} {n : Nat} {t : σ} (hn : ∀ m, n ≤ m → e.state m = t) (ht : ¬ p.ready t) :
    e.Fair p :=
  (StronglyFair.of_not_ready hn ht).fair

/-- A step, and an execution from there. -/
def cons {s : σ} {a : α} (e : Execution step) (h : step s a (e.state 0)) : Execution step where
  state | 0 => s | n + 1 => e.state n
  label | 0 => some a | n + 1 => e.label n
  steps
    | 0, _, rfl => h
    | n + 1, b, hb => e.steps n b hb
  stays
    | n + 1, hn => e.stays n hn

theorem labels_cons {s : σ} {a : α} (h : step s a (e.state 0)) (n : Nat) :
    (e.cons h).labels (n + 1) = a :: e.labels n := by
  induction n with
  | zero => rfl
  | succ n ih =>
    show (e.cons h).labels (n + 1) ++ (e.label n).toList = _
    rw [ih]
    rfl

end Execution

theorem execution_of_run {s t : σ} {as : List α} (h : Labelled.Run step s as t) : ∃ e : Execution step,
    e.state 0 = s ∧ e.labels as.length = as ∧ ∀ m, as.length ≤ m → e.state m = t := by
  induction h with
  | nil s => exact ⟨⟨fun _ => s, fun _ => none, fun _ _ h => (nomatch h), fun _ _ => rfl⟩, rfl, rfl, fun _ _ => rfl⟩
  | @cons s _ u a as ha _ ih =>
    obtain ⟨e, rfl, hl, hend⟩ := ih
    refine ⟨e.cons ha, rfl, ?_, ?_⟩
    · rw [List.length_cons, Execution.labels_cons, hl]
    · intro m hm
      obtain ⟨m, rfl⟩ := Nat.exists_eq_add_of_lt (Nat.lt_of_lt_of_le (Nat.succ_pos _) hm)
      rw [Nat.zero_add]
      exact hend m (by simpa using hm)

end Liveness
