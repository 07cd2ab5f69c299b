/-
  HahaWeb.Library.While — loops that need not end.

  `body` is a pass of the loop from its state, `none` when the guard is false, and `run`
  goes on as long as it has fuel. Proved: when every pass from a state of an invariant
  keeps the invariant and lowers a rank, a run with more fuel than the rank comes to the
  end of the loop, in a state as a last pass leaves it (`run_total`).
-/

import Mathlib.Data.Nat.Init

namespace While

variable {σ ε : Type} (body : σ → Except ε (Option σ))

/-- `none` when the fuel was not enough. -/
def run : Nat → σ → Except ε (Option σ)
  | 0, _ => .ok none
  | fuel + 1, s => do
    match ← body s with
    | none => .ok (some s)
    | some s' => run fuel s'

variable {body}

theorem run_stop {s : σ} (h : body s = .ok none) (fuel : Nat) : run body (fuel + 1) s = .ok (some s) := by
  rw [run, h]
  rfl

theorem run_pass {s s' : σ} (h : body s = .ok (some s')) (fuel : Nat) : run body (fuel + 1) s = run body fuel s' := by
  rw [run, h]
  rfl

/-- A pass from `s`: the end of the loop, as `Post` says, or a state of the invariant with a
    lower rank. -/
def Passes (body : σ → Except ε (Option σ)) (Inv Post : σ → Prop) (rank : σ → Nat) (s : σ) : Prop :=
  (body s = .ok none ∧ Post s) ∨ ∃ s', body s = .ok (some s') ∧ Inv s' ∧ rank s' < rank s

theorem run_total {Inv Post : σ → Prop} {rank : σ → Nat} (hbody : ∀ s, Inv s → Passes body Inv Post rank s)
    {fuel : Nat} : ∀ {s : σ}, Inv s → rank s < fuel → ∃ r, run body fuel s = .ok (some r) ∧ Post r := by
  induction fuel with
  | zero => exact fun _ hlt => absurd hlt (Nat.not_lt_zero _)
  | succ fuel ih =>
    intro s hs hlt
    rcases hbody s hs with ⟨hstop, hpost⟩ | ⟨s', hpass, hs', hrank⟩
    · exact ⟨s, run_stop hstop fuel, hpost⟩
    · rw [run_pass hpass]
      exact ih hs' (by omega)

end While
