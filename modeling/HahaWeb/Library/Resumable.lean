/-
  HahaWeb.Library.Resumable — readers that are called again whenever more input has
  arrived.

  A reader looks at its state and at the input received and not consumed yet, and
  either consumes some of it and goes on (`take`), stops with a result (`halt`), or
  ends the call asking for more (`wait`). A call takes steps until one of the last two;
  a run appends the reads one at a time, with a call after each, until a call halts.

  A reader is steady under an invariant of its state and of all input still to come
  when whatever it does but wait for more is what it would do with the rest of the input
  there too. It is stable when, besides, a wait that consumes leaves nothing. Proved:
  - `Call.unique`: a call has one outcome.
  - `Run.call_or`: a run of a steady reader, however its input was cut, ends as one call
    on the whole input does, or goes on behind a wait of that call that consumed.
  - `Run.call`: a run of a stable reader ends as one call on the whole input does, in the
    same state and with the same input left over.
  - `Run.det`: over the same reads a run has one outcome.
  - `Run.none_of_halts`: a run that has not received what the call on the whole input
    consumes is still waiting.
  - `Visits.invariant`: what every step and wait keeps holds wherever a run looks.
  - `Visits.consumed`: and so does what they keep of the input consumed up to there.
  - `Run.congr`: two readers that agree wherever a run looks have the same run.
-/

import Mathlib.Logic.Relation

namespace Resumable

open Relation (ReflTransGen)

inductive Act (σ ρ : Type*) where
  | wait (n : Nat) (s : σ)
  | take (n : Nat) (s : σ)
  | halt (n : Nat) (r : ρ) (s : σ)

/-- How much of the input an act consumes. -/
def Act.used {σ ρ : Type*} : Act σ ρ → Nat
  | .wait n _ => n
  | .take n _ => n
  | .halt n _ _ => n

variable {α σ ρ : Type*} (step : σ → List α → Act σ ρ)

/-- One step on: the state and the input left. -/
def Took (p q : σ × List α) : Prop := ∃ n, step p.1 p.2 = .take n q.1 ∧ q.2 = p.2.drop n

abbrev Steps : σ × List α → σ × List α → Prop := ReflTransGen (Took step)

/-- The step that ends a call, with its result if it halts. -/
inductive Ends : σ → List α → Option ρ → σ → List α → Prop
  | wait {s : σ} {x : List α} {n : Nat} {t : σ} : step s x = .wait n t → Ends s x none t (x.drop n)
  | halt {s : σ} {x : List α} {n : Nat} {r : ρ} {t : σ} : step s x = .halt n r t → Ends s x (some r) t (x.drop n)

def Call (s : σ) (x : List α) (o : Option ρ) (t : σ) (y : List α) : Prop :=
  ∃ s' x', Steps step (s, x) (s', x') ∧ Ends step s' x' o t y

/-- Reads appended one by one to what is left; after a halt the remaining reads are left over. -/
inductive Run : σ → List α → List (List α) → Option ρ → σ → List α → Prop
  | nil (s : σ) (x : List α) : Run s x [] none s x
  | wait {s : σ} {x r : List α} {rs : List (List α)} {s' : σ} {x' : List α} {o : Option ρ} {t : σ} {y : List α} :
      Call step s (x ++ r) none s' x' → Run s' x' rs o t y → Run s x (r :: rs) o t y
  | halt {s : σ} {x r : List α} {rs : List (List α)} {v : ρ} {t : σ} {y : List α} :
      Call step s (x ++ r) (some v) t y → Run s x (r :: rs) (some v) t (y ++ rs.flatten)

/-- The states, with the input before them, that a run looks at. -/
inductive Visits : σ → List α → List (List α) → σ → List α → Prop
  | here {s : σ} {x r : List α} {rs : List (List α)} {t : σ} {y : List α} :
      Steps step (s, x ++ r) (t, y) → Visits s x (r :: rs) t y
  | later {s : σ} {x r : List α} {rs : List (List α)} {s' : σ} {x' : List α} {t : σ} {y : List α} :
      Call step s (x ++ r) none s' x' → Visits s' x' rs t y → Visits s x (r :: rs) t y

/-- `I s z`: the invariant of a state with all the input still to come. -/
structure Steady (I : σ → List α → Prop) : Prop where
  /-- More input changes no act but a wait that leaves everything as it is. -/
  more : ∀ {s x z}, I s (x ++ z) →
    step s x = .wait 0 s ∨ step s (x ++ z) = step s x ∧ (step s x).used ≤ x.length
  next : ∀ {s x n t}, I s x → step s x = .take n t → I t (x.drop n)

structure Stable (I : σ → List α → Prop) : Prop extends Steady step I where
  /-- A wait that consumes leaves nothing, and then waits on. -/
  last : ∀ {s x n t}, I s x → step s x = .wait n t → (n = 0 ∧ t = s) ∨ x.drop n = [] ∧ step t [] = .wait 0 t

variable {step}

/-! ## One call -/

theorem took_unique : Relator.RightUnique (Took step) := by
  intro hx hy hz hp hq
  rcases hx with ⟨s, x⟩
  rcases hy with ⟨t, y⟩
  rcases hz with ⟨u, z⟩
  rcases hp with ⟨n, h1, h2⟩
  rcases hq with ⟨m, h3, h4⟩
  simp only at h1 h2 h3 h4
  rw [h1] at h3
  cases h3
  rw [h2, h4]

theorem Ends.not_took {s : σ} {x : List α} {o : Option ρ} {t : σ} {y : List α} (h : Ends step s x o t y)
    (q : σ × List α) : ¬ Took step (s, x) q := by
  intro hx
  rcases hx with ⟨n, hn, -⟩
  cases h with
  | wait h => rw [h] at hn; cases hn
  | halt h => rw [h] at hn; cases hn

theorem Ends.unique {s : σ} {x : List α} {o o' : Option ρ} {t t' : σ} {y y' : List α} (h : Ends step s x o t y)
    (h' : Ends step s x o' t' y') : o = o' ∧ t = t' ∧ y = y' := by
  cases h with
  | wait h =>
    cases h' with
    | wait h' => rw [h] at h'; cases h'; exact ⟨rfl, rfl, rfl⟩
    | halt h' => rw [h] at h'; cases h'
  | halt h =>
    cases h' with
    | wait h' => rw [h] at h'; cases h'
    | halt h' => rw [h] at h'; cases h'; exact ⟨rfl, rfl, rfl⟩

/-- What a call reaches lies on the way to its end. -/
theorem Ends.steps_to {s s' t u : σ} {x x' y w : List α} {o : Option ρ} (he : Ends step s' x' o t y)
    (hs : Steps step (s, x) (s', x')) (hu : Steps step (s, x) (u, w)) : Steps step (u, w) (s', x') := by
  rcases ReflTransGen.total_of_right_unique took_unique hu hs with h | h
  · exact h
  · rcases ReflTransGen.cases_head h with h | ⟨q, hq, -⟩
    · rw [h]
    · exact absurd hq (he.not_took q)

theorem Call.unique {s : σ} {x : List α} {o o' : Option ρ} {t t' : σ} {y y' : List α} (h : Call step s x o t y)
    (h' : Call step s x o' t' y') : o = o' ∧ t = t' ∧ y = y' := by
  obtain ⟨s1, x1, hs, he⟩ := h
  obtain ⟨s2, x2, hs', he'⟩ := h'
  rcases ReflTransGen.cases_head (he.steps_to hs hs') with h | ⟨q, hq, -⟩
  · cases h
    exact he.unique he'
  · exact absurd hq (he'.not_took q)

theorem Call.of_steps {s u : σ} {x w : List α} {o : Option ρ} {t : σ} {y : List α} (hs : Steps step (s, x) (u, w))
    (h : Call step u w o t y) : Call step s x o t y := by
  obtain ⟨s', x', hs', he⟩ := h
  exact ⟨s', x', hs.trans hs', he⟩

theorem Steps.of_take {s t : σ} {x : List α} {n : Nat} (h : step s x = .take n t) : Steps step (s, x) (t, x.drop n) :=
  .single ⟨n, h, rfl⟩

theorem Call.of_take {s t u : σ} {x y : List α} {n : Nat} {o : Option ρ} (h : step s x = .take n u)
    (hc : Call step u (x.drop n) o t y) : Call step s x o t y :=
  hc.of_steps (.of_take h)

theorem Call.of_wait {s t : σ} {x : List α} {n : Nat} (h : step s x = .wait n t) : Call step s x none t (x.drop n) :=
  ⟨s, x, .refl, .wait h⟩

theorem Call.of_halt {s t : σ} {x : List α} {n : Nat} {r : ρ} (h : step s x = .halt n r t) :
    Call step s x (some r) t (x.drop n) :=
  ⟨s, x, .refl, .halt h⟩

/-! ## What a run looks at -/

theorem Steps.invariant {P : σ → Prop} {V : σ → List α → Prop}
    (take : ∀ {s x n t}, V s x → P s → step s x = .take n t → P t) {p q : σ × List α} (h : Steps step p q) (hp : P p.1)
    (hv : ∀ u w, Steps step p (u, w) → V u w) : P q.1 := by
  induction h with
  | refl => exact hp
  | tail h hq ih =>
    obtain ⟨n, hn, -⟩ := hq
    exact take (hv _ _ h) ih hn

/-- What every step and every wait keeps, of the places `V` a run looks at, holds wherever
    the run looks. -/
theorem Visits.invariant {P : σ → Prop} {V : σ → List α → Prop}
    (take : ∀ {s x n t}, V s x → P s → step s x = .take n t → P t)
    (wait : ∀ {s x n t}, V s x → P s → step s x = .wait n t → P t) {s t : σ} {x y : List α} {rs : List (List α)}
    (h : Visits step s x rs t y) (hs : P s) (hv : ∀ u w, Visits step s x rs u w → V u w) : P t := by
  induction h with
  | here h => exact h.invariant take hs fun u w hu => hv u w (.here hu)
  | later hc _ ih =>
    obtain ⟨s1, x1, h1, he⟩ := id hc
    have hp := h1.invariant take hs fun u w hu => hv u w (.here hu)
    cases he with
    | wait he => exact ih (wait (hv _ _ (.here h1)) hp he) fun u w hu => hv u w (.later hc hu)

/-- What holds of a run that still waits: `P` is kept by every step and wait, `Q` is what a
    wait leaves. -/
theorem Run.waiting {P : σ → Prop} {Q : σ → List α → Prop} (take : ∀ {s x n t}, P s → step s x = .take n t → P t)
    (wait : ∀ {s x n t}, P s → step s x = .wait n t → P t ∧ Q t (x.drop n)) {s t : σ} {x y : List α}
    {rs : List (List α)} {o : Option ρ} (h : Run step s x rs o t y) (ho : o = none) (hs : P s ∧ Q s x) : P t ∧
    Q t y := by
  induction h with
  | nil => exact hs
  | wait hc _ ih =>
    obtain ⟨s1, x1, h1, he⟩ := hc
    have hp := h1.invariant (V := fun _ _ => True) (fun _ hp h => take hp h) hs.1 fun _ _ _ => trivial
    cases he with
    | wait he => exact ih ho (wait hp he)
  | halt => cases ho

theorem Steps.length_le {p q : σ × List α} (h : Steps step p q) : q.2.length ≤ p.2.length := by
  induction h with
  | refl => exact Nat.le_refl _
  | tail _ hq ih =>
    obtain ⟨n, -, hn⟩ := hq
    rw [hn, List.length_drop]
    omega

/-- A run looks at no more than it has received. -/
theorem Visits.length_le {s t : σ} {x y : List α} {rs : List (List α)} (h : Visits step s x rs t y) :
    y.length ≤ x.length + rs.flatten.length := by
  induction h with
  | here h =>
    have := h.length_le
    simp only [List.flatten_cons, List.length_append] at *
    omega
  | later hc _ ih =>
    obtain ⟨s1, x1, hs, he⟩ := hc
    have := hs.length_le
    cases he with
    | wait =>
      simp only [List.flatten_cons, List.length_append, List.length_drop] at *
      omega

/-- Where a run looks it also looks when more reads follow. -/
theorem Visits.append {s t : σ} {x y : List α} {rs : List (List α)} (h : Visits step s x rs t y) (rs' : List (List α)) :
    Visits step s x (rs ++ rs') t y := by
  induction h with
  | here h => exact .here h
  | later hc _ ih => exact .later hc ih

/-- What every step keeps of a state and of what was consumed up to it. -/
theorem Steps.consumed {P : σ → List α → Prop}
    (take : ∀ {s x n t c}, P s c → step s x = .take n t → P t (c ++ x.take n)) {s t : σ} {x y c : List α}
    (h : Steps step (s, x) (t, y)) (hc : P s c) : ∃ c', c ++ x = c' ++ y ∧ P t c' := by
  generalize hp : (s, x) = p at h
  generalize hq : (t, y) = q at h
  induction h generalizing t y with
  | refl =>
    cases hp
    cases hq
    exact ⟨c, rfl, hc⟩
  | tail _ hstep ih =>
    cases hq
    obtain ⟨c', heq, hc'⟩ := ih rfl
    obtain ⟨n, hn, hy⟩ := hstep
    simp only at hn hy
    exact ⟨_, by rw [heq, List.append_assoc, hy, List.take_append_drop], take hc' hn⟩

/-- The same of a run, with its waits, wherever it looks. -/
theorem Visits.consumed {P : σ → List α → Prop}
    (take : ∀ {s x n t c}, P s c → step s x = .take n t → P t (c ++ x.take n))
    (wait : ∀ {s x n t c}, P s c → step s x = .wait n t → P t (c ++ x.take n)) {s t : σ} {x y : List α}
    {rs : List (List α)} (h : Visits step s x rs t y) :
    ∀ {c : List α}, P s c → ∃ c' z, c ++ (x ++ rs.flatten) = c' ++ (y ++ z) ∧ P t c' := by
  induction h with
  | @here s x r rs t y hst =>
    intro c hc
    obtain ⟨c', heq, hc'⟩ := hst.consumed take hc
    refine ⟨c', rs.flatten, ?_, hc'⟩
    rw [List.flatten_cons, ← List.append_assoc x, ← List.append_assoc c, heq, List.append_assoc]
  | @later s x r rs s' x' t y hcall _ ih =>
    intro c hc
    obtain ⟨s1, x1, hst, he⟩ := hcall
    obtain ⟨c1, heq, hc1⟩ := hst.consumed take hc
    cases he with
    | @wait n _ he =>
      obtain ⟨c', z, heq', hc'⟩ := ih (wait hc1 he)
      refine ⟨c', z, ?_, hc'⟩
      rw [← heq', List.flatten_cons, ← List.append_assoc x, ← List.append_assoc c, heq, List.append_assoc,
        List.append_assoc, ← List.append_assoc (x1.take n), List.take_append_drop]

/-- What is visited behind a run that waits. -/
theorem Run.visits {s t u : σ} {x y w : List α} {rs rs' : List (List α)} {o : Option ρ} (h : Run step s x rs o t y)
    (ho : o = none) (hv : Visits step t y rs' u w) : Visits step s x (rs ++ rs') u w := by
  induction h with
  | nil => exact hv
  | wait hc _ ih => exact .later hc (ih ho hv)
  | halt => cases ho

/-- A run of one read. -/
theorem Run.of_call {s t : σ} {x r y : List α} {v : ρ} (h : Call step s (x ++ r) (some v) t y) :
    Run step s x [r] (some v) t y := by
  have hrun : Run step s x [r] (some v) t (y ++ [].flatten) := .halt h
  simpa using hrun

/-- The step at which a run halts. -/
theorem Run.halts {s t : σ} {x y : List α} {rs : List (List α)} {r : ρ} (h : Run step s x rs (some r) t y) :
    ∃ u w n, Visits step s x rs u w ∧ step u w = .halt n r t := by
  generalize ho : some r = o at h
  induction h with
  | nil => cases ho
  | wait hc _ ih =>
    obtain ⟨u, w, n, hv, hstep⟩ := ih ho
    exact ⟨u, w, n, .later hc hv, hstep⟩
  | halt hc =>
    cases ho
    obtain ⟨u, w, hst, he⟩ := hc
    cases he with
    | halt he => exact ⟨u, w, _, .here hst, he⟩

/-- A read that brings the reader to `t` is, from there on, a read of what is left of it. -/
theorem Run.of_steps {s t u : σ} {x r r' y : List α} {rs : List (List α)} {o : Option ρ}
    (hs : Steps step (s, x ++ r) (t, r'))
    (h : Run step t [] (r' :: rs) o u y) : Run step s x (r :: rs) o u y := by
  cases h with
  | wait hc hr => exact .wait (hc.of_steps hs) hr
  | halt hc => exact .halt (hc.of_steps hs)

/-- Over the same reads a run has one outcome. -/
theorem Run.det {s t t' : σ} {x y y' : List α} {rs : List (List α)} {o o' : Option ρ} (h : Run step s x rs o t y)
    (h' : Run step s x rs o' t' y') : o = o' ∧ t = t' ∧ y = y' := by
  induction h with
  | nil => cases h'; exact ⟨rfl, rfl, rfl⟩
  | wait hc _ ih =>
    cases h' with
    | wait hc' hr' =>
      obtain ⟨-, rfl, rfl⟩ := hc.unique hc'
      exact ih hr'
    | halt hc' =>
      obtain ⟨h, -⟩ := hc.unique hc'
      cases h
  | halt hc =>
    cases h' with
    | wait hc' _ =>
      obtain ⟨h, -⟩ := hc.unique hc'
      cases h
    | halt hc' =>
      obtain ⟨h, rfl, rfl⟩ := hc.unique hc'
      exact ⟨h, rfl, rfl⟩

/-! ## More input -/

variable {I : σ → List α → Prop}

section

variable {s t : σ} {x z : List α} {n : Nat} (hS : Steady step I) (hi : I s (x ++ z))
include hS hi

theorem Steady.take (h : step s x = .take n t) :
    n ≤ x.length ∧ step s (x ++ z) = .take n t ∧ I t ((x ++ z).drop n) := by
  rcases hS.more hi with hw | ⟨hm, hu⟩
  · rw [hw] at h
    cases h
  · rw [h] at hm hu
    exact ⟨hu, hm, hS.next hi hm⟩

theorem Steady.halt {r : ρ} (h : step s x = .halt n r t) : n ≤ x.length ∧ step s (x ++ z) = .halt n r t := by
  rcases hS.more hi with hw | ⟨hm, hu⟩
  · rw [hw] at h
    cases h
  · rw [h] at hm hu
    exact ⟨hu, hm⟩

theorem Steady.wait (h : step s x = .wait n t) :
    (n = 0 ∧ t = s) ∨ n ≤ x.length ∧ step s (x ++ z) = .wait n t := by
  rcases hS.more hi with hw | ⟨hm, hu⟩
  · rw [hw] at h
    cases h
    exact .inl ⟨rfl, rfl⟩
  · rw [h] at hm hu
    exact .inr ⟨hu, hm⟩

end

theorem Steady.steps (hS : Steady step I) {p q : σ × List α} (h : Steps step p q) (z : List α) (hi : I p.1 (p.2 ++ z)) :
    Steps step (p.1, p.2 ++ z) (q.1, q.2 ++ z) ∧ I q.1 (q.2 ++ z) := by
  induction h with
  | refl => exact ⟨.refl, hi⟩
  | tail _ hq ih =>
    obtain ⟨ih1, ih2⟩ := ih
    obtain ⟨n, h1, h2⟩ := hq
    obtain ⟨hn, h3, h4⟩ := hS.take ih2 h1
    rw [List.drop_append_of_le_length hn, ← h2] at h4
    exact ⟨ih1.tail ⟨n, h3, by rw [h2, List.drop_append_of_le_length hn]⟩, h4⟩

/-- A call that halted would have halted so with more input. -/
theorem Steady.call_halt (hS : Steady step I) {s t : σ} {x y : List α} {r : ρ} (h : Call step s x (some r) t y)
    (z : List α) (hi : I s (x ++ z)) : Call step s (x ++ z) (some r) t (y ++ z) := by
  obtain ⟨s', x', hs, he⟩ := h
  obtain ⟨hs', hi'⟩ := hS.steps hs z hi
  cases he with
  | halt h =>
    obtain ⟨hn, h'⟩ := hS.halt hi' h
    refine ⟨s', x' ++ z, hs', ?_⟩
    rw [← List.drop_append_of_le_length hn]
    exact .halt h'

/-- A run ends as a call on all its input does, or that call waits somewhere having
    consumed, and the run goes on from there over what was left. -/
theorem Run.call_or (hS : Steady step I) {s t : σ} {x y : List α} {rs : List (List α)} {o : Option ρ}
    (h : Run step s x rs o t y) (hw : step s x = .wait 0 s) (hi : I s (x ++ rs.flatten)) :
    Call step s (x ++ rs.flatten) o t y ∨ ∃ s' x' n t' u rs', Steps step (s, x ++ rs.flatten) (s', x') ∧
      step s' x' = .wait n t' ∧ ¬ (n = 0 ∧ t' = s') ∧ x'.drop n = u ++ rs'.flatten ∧ Run step t' u rs' o t y := by
  induction h with
  | nil s x => exact .inl (by simpa using Call.of_wait hw)
  | @wait s x r rs s' x' o t y hc hr ih =>
    obtain ⟨s1, x1, hs, he⟩ := hc
    cases he with
    | @wait n _ he =>
      rw [List.flatten_cons, ← List.append_assoc] at hi ⊢
      obtain ⟨hs', hi'⟩ := hS.steps hs rs.flatten hi
      by_cases hz : n = 0 ∧ s' = s1
      · obtain ⟨rfl, rfl⟩ := hz
        rcases ih (by simpa using he) (by simpa using hi') with hcall | ⟨s2, x2, n, t', u, rs', hst, hrest⟩
        · exact .inl (hcall.of_steps (by simpa using hs'))
        · exact .inr ⟨s2, x2, n, t', u, rs', Relation.ReflTransGen.trans (by simpa using hs') hst, hrest⟩
      · obtain ⟨hn, he'⟩ := (hS.wait hi' he).resolve_left hz
        exact .inr ⟨s1, x1 ++ rs.flatten, n, s', x1.drop n, rs, hs', he', hz, List.drop_append_of_le_length hn, hr⟩
  | halt hc =>
    rw [List.flatten_cons, ← List.append_assoc] at hi ⊢
    exact .inl (hS.call_halt hc _ hi)

/-- Reads that bring nothing leave a waiting reader as it is. -/
theorem Run.idle {s t : σ} {x y : List α} {rs : List (List α)} {o : Option ρ} (h : Run step s x rs o t y)
    (hw : step s x = .wait 0 s) (hrs : rs.flatten = []) : o = none ∧ t = s ∧ y = x := by
  induction h with
  | nil => exact ⟨rfl, rfl, rfl⟩
  | wait hc hr ih =>
    simp only [List.flatten_cons, List.append_eq_nil_iff] at hrs
    rw [hrs.1, List.append_nil] at hc
    obtain ⟨-, rfl, rfl⟩ := hc.unique (.of_wait hw)
    simpa using ih (by simpa using hw) hrs.2
  | halt hc =>
    simp only [List.flatten_cons, List.append_eq_nil_iff] at hrs
    rw [hrs.1, List.append_nil] at hc
    obtain ⟨h, -⟩ := hc.unique (.of_wait hw)
    cases h

/-- A run ends as one call on all its input. -/
theorem Run.call (hS : Stable step I) {s t : σ} {x y : List α} {rs : List (List α)} {o : Option ρ}
    (h : Run step s x rs o t y) (hw : step s x = .wait 0 s) (hi : I s (x ++ rs.flatten)) :
    Call step s (x ++ rs.flatten) o t y := by
  rcases h.call_or hS.toSteady hw hi with hc | ⟨s', x', n, t', u, rs', hst, hwait, hne, hleft, hrun⟩
  · exact hc
  · have hi' : I s' x' := by simpa using (hS.steps hst [] (by simpa using hi)).2
    obtain ⟨hnil, hw'⟩ := (hS.last hi' hwait).resolve_left hne
    rw [hnil] at hleft
    obtain ⟨hu, hrs⟩ := List.append_eq_nil_iff.mp hleft.symm
    subst hu
    obtain ⟨rfl, rfl, rfl⟩ := hrun.idle hw' hrs
    exact hnil ▸ ⟨s', x', hst, .wait hwait⟩

/-- If the call on all the input halts having used more than was received, the run still waits. -/
theorem Run.none_of_halts (hS : Stable step I) {s t u : σ} {x y z w : List α} {rs : List (List α)} {o : Option ρ}
    {r : ρ}
    (h : Run step s x rs o t y) (hw : step s x = .wait 0 s) (hi : I s (x ++ rs.flatten ++ z))
    (hi' : I s (x ++ rs.flatten)) (hc : Call step s (x ++ rs.flatten ++ z) (some r) u w) (hz : w.length < z.length) :
    o = none := by
  cases ho : o with
  | none => rfl
  | some v =>
    subst ho
    obtain ⟨-, -, hy⟩ := (hS.call_halt (h.call hS hw hi') z hi).unique hc
    have := congrArg List.length hy
    simp only [List.length_append] at this
    omega

/-! ## Readers that agree where a run looks -/

theorem Steps.congr {step' : σ → List α → Act σ ρ} {p q : σ × List α} (h : Steps step p q)
    (he : ∀ u w, Steps step p (u, w) → step' u w = step u w) : Steps step' p q := by
  induction h with
  | refl => exact .refl
  | tail hp hq ih =>
    obtain ⟨n, h1, h2⟩ := hq
    exact ih.tail ⟨n, by rw [he _ _ hp, h1], h2⟩

theorem Call.congr {step' : σ → List α → Act σ ρ} {s t : σ} {x y : List α} {o : Option ρ} (h : Call step s x o t y)
    (he : ∀ u w, Steps step (s, x) (u, w) → step' u w = step u w) : Call step' s x o t y := by
  obtain ⟨s', x', hs, hend⟩ := h
  refine ⟨s', x', hs.congr he, ?_⟩
  cases hend with
  | wait h => exact .wait (by rw [he _ _ hs, h])
  | halt h => exact .halt (by rw [he _ _ hs, h])

theorem Run.congr {step' : σ → List α → Act σ ρ} {s t : σ} {x y : List α} {rs : List (List α)} {o : Option ρ}
    (h : Run step s x rs o t y) (he : ∀ u w, Visits step s x rs u w → step' u w = step u w) :
    Run step' s x rs o t y := by
  induction h with
  | nil s x => exact .nil s x
  | wait hc _ ih =>
    exact .wait (hc.congr fun u w h => he u w (.here h)) (ih fun u w h => he u w (.later hc h))
  | halt hc => exact .halt (hc.congr fun u w h => he u w (.here h))

end Resumable
