/-
  HahaWeb.Library.Labelled — runs of a system whose steps carry labels.

  A step is a relation of a state, a label and the next state; a label may hold what was
  asked and what came out. Proved: what every step keeps holds after a run
  (`Run.invariant`), also when it speaks of the labels so far (`Run.history`), what every
  step conserves a run conserves (`Run.conserves`), systems with the same steps where an
  invariant holds have the same runs there (`Run.congr`), and when each step of a system is
  matched by one of another with the same label, so is each run (`Run.simulates`).
-/

namespace Labelled

variable {σ τ α : Type} {step : σ → α → σ → Prop} {step' : τ → α → τ → Prop}

inductive Run (step : σ → α → σ → Prop) : σ → List α → σ → Prop
  | nil (s : σ) : Run step s [] s
  | cons {s t u : σ} {a : α} {as : List α} : step s a t → Run step t as u → Run step s (a :: as) u

theorem Run.append {s t u : σ} {as bs : List α} (h : Run step s as t) (h' : Run step t bs u) : Run step s
    (as ++ bs) u := by
  induction h with
  | nil => exact h'
  | cons hs _ ih => exact .cons hs (ih h')

theorem Run.split {as bs : List α} : ∀ {s u : σ}, Run step s (as ++ bs) u → ∃ t, Run step s as t ∧ Run step t bs u := by
  induction as with
  | nil => exact fun h => ⟨_, .nil _, h⟩
  | cons a as ih =>
    intro s u h
    cases h with
    | cons hs h =>
      obtain ⟨t, h1, h2⟩ := ih h
      exact ⟨t, .cons hs h1, h2⟩

theorem Run.invariant {I : σ → Prop} {s t : σ} {as : List α} (h : Run step s as t)
    (hstep : ∀ s a t, I s → step s a t → I t) (hs : I s) : I t := by
  induction h with
  | nil => exact hs
  | cons ha _ ih => exact ih (hstep _ _ _ hs ha)

/-- Every label of a run is the label of a step. -/
theorem Run.step_of_mem {s t : σ} {as : List α} (h : Run step s as t) {a : α} (ha : a ∈ as) : ∃ u v, step u a v := by
  induction h with
  | nil => cases ha
  | @cons s t _ b _ hb _ ih =>
    rcases List.mem_cons.mp ha with rfl | ha
    · exact ⟨s, t, hb⟩
    · exact ih ha

/-- What holds of the state and of the labels so far holds at the end of a run, of all its labels. -/
theorem Run.history {I : σ → List α → Prop} {s t : σ} {as : List α} (h : Run step s as t)
    (hstep : ∀ s bs a t, I s bs → step s a t → I t (bs ++ [a])) : ∀ {bs : List α}, I s bs → I t (bs ++ as) := by
  induction h with
  | nil => exact fun hs => by rwa [List.append_nil]
  | @cons s t u a as ha _ ih =>
    intro bs hs
    have hnext := ih (hstep s bs a t hs ha)
    rwa [List.append_assoc] at hnext

/-- What is held and what came in is what went out and what is held, in order. -/
theorem Run.conserves {β : Type} (held : σ → List β) (enters leaves : α → List β) {s t : σ} {as : List α}
    (h : Run step s as t) (hstep : ∀ s a t, step s a t → held s ++ enters a = leaves a ++ held t) :
    held s ++ as.flatMap enters = as.flatMap leaves ++ held t := by
  induction h with
  | nil => simp
  | @cons s t u a as ha _ ih =>
    rw [List.flatMap_cons, List.flatMap_cons, ← List.append_assoc, hstep s a t ha, List.append_assoc, ih,
      List.append_assoc]

theorem Run.mono {step₂ : σ → α → σ → Prop} {s t : σ} {as : List α} (h : Run step s as t)
    (hstep : ∀ s a t, step s a t → step₂ s a t) : Run step₂ s as t := by
  induction h with
  | nil s => exact .nil s
  | cons ha _ ih => exact .cons (hstep _ _ _ ha) ih

/-- Two systems have the same runs from a state in which, and after which, they have the same steps. -/
theorem Run.congr {step₂ : σ → α → σ → Prop} {I : σ → Prop} (hI : ∀ s a t, I s → step s a t → I t)
    (hstep : ∀ s a t, I s → (step s a t ↔ step₂ s a t)) {as : List α} :
    ∀ {s t : σ}, I s → (Run step s as t ↔ Run step₂ s as t) := by
  induction as with
  | nil =>
    intro s t _
    constructor
    · intro h
      cases h
      exact .nil s
    · intro h
      cases h
      exact .nil s
  | cons a as ih =>
    intro s t hs
    constructor
    · intro h
      cases h with
      | cons ha h => exact .cons ((hstep _ _ _ hs).mp ha) ((ih (hI _ _ _ hs ha)).mp h)
    · intro h
      cases h with
      | cons ha h =>
        have ha' := (hstep _ _ _ hs).mpr ha
        exact .cons ha' ((ih (hI _ _ _ hs ha')).mpr h)

theorem Run.simulates {R : σ → τ → Prop} {s t : σ} {as : List α} (h : Run step s as t)
    (hstep : ∀ s a t s', R s s' → step s a t → ∃ t', step' s' a t' ∧ R t t') :
    ∀ {s' : τ}, R s s' → ∃ t', Run step' s' as t' ∧ R t t' := by
  induction h with
  | nil => exact fun hr => ⟨_, .nil _, hr⟩
  | cons hs _ ih =>
    intro s' hr
    obtain ⟨t', ht, hr'⟩ := hstep _ _ _ _ hr hs
    obtain ⟨u', hu, hr''⟩ := ih hr'
    exact ⟨u', .cons ht hu, hr''⟩

end Labelled
