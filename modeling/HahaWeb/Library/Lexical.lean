/-
  HahaWeb.Library.Lexical — paths resolved by their text alone.

  A path is a list of steps: staying, going up, going into a name. What is left of it is a
  `Place`: how many directories above the start, then into which names. Proved: walking
  from a place is composing it with the walk from the start (`walk_eq_comp`), so whether
  a path taken from a root comes out under that root depends on the path's own place and
  on nothing else of it (`under_walk_iff`).
-/

import Mathlib.Data.List.Basic

namespace Lexical

variable {α : Type}

inductive Step (α : Type) where
  | here
  | up
  | into (name : α)

/-- `names` has the innermost first. -/
structure Place (α : Type) where
  ups : Nat
  names : List α
  deriving DecidableEq

namespace Place

def start : Place α := ⟨0, []⟩

/-- The place `n` directories above. -/
def climb (p : Place α) (n : Nat) : Place α := ⟨p.ups + (n - p.names.length), p.names.drop n⟩

def step (p : Place α) : Step α → Place α
  | .here => p
  | .up => p.climb 1
  | .into name => ⟨p.ups, name :: p.names⟩

/-- The place `q`, seen from `p`. -/
def comp (p q : Place α) : Place α := ⟨(p.climb q.ups).ups, q.names ++ (p.climb q.ups).names⟩

def Under (root p : Place α) : Prop := p.ups = root.ups ∧ root.names <:+ p.names

end Place

open Place

def walk (p : Place α) (steps : List (Step α)) : Place α := steps.foldl Place.step p

theorem walk_append (p : Place α) (steps more : List (Step α)) : walk p (steps ++ more) = walk (walk p steps) more :=
  List.foldl_append

@[simp] theorem walk_here (p : Place α) (steps : List (Step α)) : walk p (.here :: steps) = walk p steps := rfl

theorem climb_climb (p : Place α) (m n : Nat) : (p.climb m).climb n = p.climb (m + n) := by
  simp only [climb, List.length_drop, List.drop_drop, Place.mk.injEq, and_true]
  omega

@[simp] theorem comp_start (p : Place α) : p.comp start = p := by
  simp [comp, climb, start]

theorem comp_step (p q : Place α) (s : Step α) : (p.comp q).step s = p.comp (q.step s) := by
  cases s with
  | here => rfl
  | into name => rfl
  | up =>
    obtain ⟨n, names⟩ := q
    cases names with
    | nil =>
      have h := climb_climb p n 1
      simpa [comp, step, climb] using h
    | cons a names => simp [comp, step, climb]

theorem walk_comp (p : Place α) (steps : List (Step α)) : ∀ q : Place α, walk (p.comp q) steps = p.comp
    (walk q steps) := by
  induction steps with
  | nil => exact fun _ => rfl
  | cons s steps ih =>
    intro q
    show walk ((p.comp q).step s) steps = p.comp (walk (q.step s) steps)
    rw [comp_step, ih]

theorem walk_eq_comp (p : Place α) (steps : List (Step α)) : walk p steps = p.comp (walk start steps) := by
  rw [← walk_comp, comp_start]

/-- A place seen from a root is under it when it does not go above the root, or comes back
    through the names it left. -/
theorem under_comp_iff (root q : Place α) :
    Under root (root.comp q) ↔ q.ups ≤ root.names.length ∧ root.names.take q.ups <:+ q.names := by
  have hsplit : root.names <:+ q.names ++ root.names.drop q.ups ↔ root.names.take q.ups <:+ q.names := by
    have h : root.names.take q.ups ++ root.names.drop q.ups <:+ q.names ++ root.names.drop q.ups ↔
      root.names.take q.ups <:+ q.names :=
      List.suffix_append_self_iff
    rwa [List.take_append_drop] at h
  constructor
  · intro h
    have hle : q.ups ≤ root.names.length := by
      have := h.1
      simp only [comp, climb] at this
      omega
    exact ⟨hle, hsplit.mp h.2⟩
  · intro h
    refine ⟨?_, hsplit.mpr h.2⟩
    simp only [comp, climb]
    omega

theorem under_walk_iff (root : Place α) (steps : List (Step α)) : Under root (walk root steps) ↔
    (walk start steps).ups ≤ root.names.length ∧ root.names.take (walk start steps).ups <:+
    (walk start steps).names := by
  rw [walk_eq_comp, under_comp_iff]

end Lexical
