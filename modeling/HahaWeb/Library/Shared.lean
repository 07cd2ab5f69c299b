/-
  HahaWeb.Library.Shared — nodes that own each other through shared pointers.

  A store has its nodes by address, each with the pointers its value holds, and the
  pointers that are held outside. A node is destroyed with the last pointer to it, and
  with it the pointers it holds (`release`); an address is not used again. `Lost` says,
  without the order of things, which nodes are left without an owner when one node lets go
  of its pointers: those whose every owner is that node or lost. Proved: `release` destroys
  exactly these and changes no other (`release_spec`), and what is lost was below the node
  (`below_of_lost`). Nodes in a cycle own each other and are not lost.
-/

import Mathlib.Data.List.Basic
import Mathlib.Logic.Relation

namespace Shared

class Node (V : Type) where
  pointers : V → List Nat

structure Store (V : Type) where
  /-- By address; `none` for a node that was destroyed. -/
  cells : List (Option V)
  /-- What is held from outside. -/
  held : List Nat

namespace Store

variable {V : Type}

def value (σ : Store V) (r : Nat) : Option V := σ.cells[r]?.join

def set (σ : Store V) (r : Nat) (v : Option V) : Store V := { σ with cells := σ.cells.set r v }

/-- A new node, at the next address. -/
def alloc (σ : Store V) (v : V) : Store V := { σ with cells := σ.cells ++ [some v] }

/-- How many nodes there are. -/
def live (σ : Store V) : Nat := σ.cells.countP Option.isSome

variable {σ : Store V} {r x : Nat} {v : V} {o : Option V}

theorem lt_of_value (h : σ.value r = some v) : r < σ.cells.length := by
  by_contra hr
  rw [value, List.getElem?_eq_none (Nat.not_lt.mp hr)] at h
  cases h

theorem value_set_self (h : r < σ.cells.length) : (σ.set r o).value r = o := by
  rw [value, set, List.getElem?_set_self h]
  rfl

theorem value_set_of_ne (h : x ≠ r) : (σ.set r o).value x = σ.value x := by
  rw [value, set, List.getElem?_set_ne (Ne.symm h)]
  rfl

@[simp]
theorem length_set : (σ.set r o).cells.length = σ.cells.length := List.length_set

theorem value_alloc_self : (σ.alloc v).value σ.cells.length = some v := by
  simp [value, alloc]

theorem value_alloc (h : r < σ.cells.length) : (σ.alloc v).value r = σ.value r := by
  rw [value, value, alloc, List.getElem?_append_left h]

@[simp]
theorem length_alloc : (σ.alloc v).cells.length = σ.cells.length + 1 := by simp [alloc]

theorem live_set (h : σ.value r = some v) : (σ.set r none).live < σ.live := by
  have hr := lt_of_value h
  have hv : σ.cells[r] = some v := by
    rw [value, List.getElem?_eq_getElem hr] at h
    exact h
  have hpos : 0 < σ.cells.countP Option.isSome :=
    List.countP_pos_iff.mpr ⟨some v, by rw [← hv]; exact List.getElem_mem hr, rfl⟩
  rw [live, live, set, List.countP_set hr, hv]
  simp only [Option.isSome_some, if_true, Option.isSome_none, Bool.false_eq_true, if_false]
  omega

/-! ## Owners -/

variable [Node V]

/-- The pointers a node holds. -/
def pointers (σ : Store V) (r : Nat) : List Nat := (σ.value r).elim [] Node.pointers

/-- The node `x` holds a pointer to `r`. -/
def Owns (σ : Store V) (x r : Nat) : Prop := r ∈ σ.pointers x

def Reaches (σ : Store V) : Nat → Nat → Prop := Relation.ReflTransGen σ.Owns

/-- Reached by at least one pointer. -/
def Below (σ : Store V) : Nat → Nat → Prop := Relation.TransGen σ.Owns

/-- A pointer to `r` is left: outside, in `ws`, or in a node. -/
def owned (σ : Store V) (ws : List Nat) (r : Nat) : Bool :=
  σ.held.contains r || ws.contains r || σ.cells.any fun o => (o.elim [] Node.pointers).contains r

theorem owned_iff {ws : List Nat} : σ.owned ws r = true ↔ r ∈ σ.held ∨ r ∈ ws ∨ ∃ x, σ.Owns x r := by
  have hcells : (σ.cells.any fun o => (o.elim [] Node.pointers).contains r) = true ↔ ∃ x, σ.Owns x r := by
    rw [List.any_eq_true]
    constructor
    · intro h
      obtain ⟨o, ho, hr⟩ := h
      obtain ⟨x, hx, rfl⟩ := List.mem_iff_getElem.mp ho
      refine ⟨x, ?_⟩
      unfold Owns pointers value
      rw [List.getElem?_eq_getElem hx]
      simpa using hr
    · intro h
      obtain ⟨x, hx⟩ := h
      unfold Owns pointers at hx
      cases hv : σ.value x with
      | none =>
        rw [hv] at hx
        cases hx
      | some v =>
        rw [hv] at hx
        refine ⟨some v, ?_, by simpa using hx⟩
        have hlt := lt_of_value hv
        rw [value, List.getElem?_eq_getElem hlt] at hv
        rw [← show σ.cells[x] = some v from hv]
        exact List.getElem_mem hlt
  unfold owned
  rw [Bool.or_eq_true, Bool.or_eq_true, hcells, List.contains_iff_mem, List.contains_iff_mem, or_assoc]

/-- The pointers are let go of one after the other. -/
def release (σ : Store V) : List Nat → Store V
  | [] => σ
  | r :: ws =>
    if _h : (σ.value r).isSome = true ∧ σ.owned ws r = false then (σ.set r none).release (σ.pointers r ++ ws)
    else σ.release ws
termination_by ws => (σ.live, ws.length)
decreasing_by
  · obtain ⟨v, hv⟩ := Option.isSome_iff_exists.mp _h.1
    exact Prod.Lex.left _ _ (live_set hv)
  · exact Prod.Lex.right _ (Nat.lt_succ_self _)

/-- What is left without an owner when `a` lets go of its pointers. -/
inductive Lost (σ : Store V) (a : Nat) : Nat → Prop
  | mk {r : Nat} : r ∉ σ.held → (∀ x, σ.Owns x r → x ≠ a → Lost σ a x) → Lost σ a r

/-- A pointer points to a node, and every node has an owner. -/
structure Valid (σ : Store V) : Prop where
  points : ∀ x r, σ.Owns x r → ∃ v, σ.value r = some v
  owned : ∀ r v, σ.value r = some v → r ∈ σ.held ∨ ∃ x, σ.Owns x r

theorem owns_iff : σ.Owns x r ↔ ∃ v, σ.value x = some v ∧ r ∈ Node.pointers v := by
  unfold Owns pointers
  cases σ.value x <;> simp

theorem Owns.congr {τ : Store V} (h : σ.Owns x r) (hv : τ.value x = σ.value x) : τ.Owns x r := by
  unfold Owns pointers at h ⊢
  rw [hv]
  exact h

/-- Where the nodes reached are as before, no other is reached. -/
theorem Reaches.congr {τ : Store V} {a : Nat} (h : τ.Reaches a r) (hv : ∀ x, σ.Reaches a x → τ.value x = σ.value x) :
    σ.Reaches a r := by
  induction h with
  | refl => exact .refl
  | tail _ hown ih => exact ih.tail (hown.congr (hv _ ih).symm)

/-! ## What a release destroys -/

/-- What is lost was below the node that lets go of its pointers. -/
theorem below_of_lost {a : Nat} (hw : σ.Valid) (h : σ.Lost a r) : ∀ {v}, σ.value r = some v → σ.Below a r := by
  induction h with
  | @mk r hheld _ ih =>
    intro v hv
    rcases hw.owned r v hv with hr | ⟨x, hx⟩
    · exact absurd hr hheld
    · by_cases hxa : x = a
      · rw [hxa] at hx
        exact .single hx
      · obtain ⟨w, hxw, -⟩ := owns_iff.mp hx
        exact (ih x hx hxa hxw).tail hx

/-- What a node that is not lost points to is not lost. -/
theorem not_lost_of_owns {a : Nat} (h : ¬ σ.Lost a x) (hxa : x ≠ a) (hown : σ.Owns x r) : ¬ σ.Lost a r := by
  intro hr
  cases hr with
  | mk _ howners => exact h (howners x hown hxa)

/-- While `τ` lets go of `ws`: nothing changes but what is destroyed, which is lost, and
    what is left has an owner. `σ` is the store before, and `b` the value `a` is given. -/
structure Releasing (σ : Store V) (a : Nat) (b : V) (τ : Store V) (ws : List Nat) : Prop where
  held : τ.held = σ.held
  length : τ.cells.length = σ.cells.length
  kept : ∀ r v, τ.value r = some v → (σ.set a (some b)).value r = some v
  gone : ∀ r v, (σ.set a (some b)).value r = some v → τ.value r = none → σ.Lost a r
  owned : ∀ r v, τ.value r = some v → τ.owned ws r = true

section

variable {τ : Store V} {a : Nat} {b : V} {ws : List Nat}

theorem Releasing.start (hw : σ.Valid) (ha : σ.value a = some v) :
    Releasing σ a b (σ.set a (some b)) (σ.pointers a) := by
  refine ⟨rfl, length_set, fun _ _ h => h, fun r v h hnone => ?_, fun r v h => ?_⟩
  · rw [h] at hnone
    cases hnone
  · obtain ⟨w, hw'⟩ : ∃ w, σ.value r = some w := by
      by_cases hr : r = a
      · exact ⟨_, hr ▸ ha⟩
      · exact ⟨v, by rw [← h, value_set_of_ne hr]⟩
    rw [owned_iff]
    rcases hw.owned r w hw' with hr | ⟨x, hx⟩
    · exact .inl hr
    · by_cases hxa : x = a
      · rw [hxa] at hx
        exact .inr (.inl hx)
      · exact .inr (.inr ⟨x, hx.congr (value_set_of_ne hxa)⟩)

/-- A node whose last pointer is let go of. -/
theorem Releasing.destroy (h : Releasing σ a b τ (r :: ws)) (hlive : (τ.value r).isSome = true)
    (howned : τ.owned ws r = false) :
    Releasing σ a b (τ.set r none) (τ.pointers r ++ ws) := by
  have hr : r < τ.cells.length := by
    obtain ⟨v, hv⟩ := Option.isSome_iff_exists.mp hlive
    exact lt_of_value hv
  have hnot : ¬ (r ∈ τ.held ∨ r ∈ ws ∨ ∃ x, τ.Owns x r) := by
    rw [← owned_iff, howned]
    exact Bool.false_ne_true
  push Not at hnot
  obtain ⟨hheld, -, hnone⟩ := hnot
  have hself : (τ.set r none).value r = none := value_set_self hr
  refine ⟨h.held, by rw [length_set, h.length], fun x v hx => ?_, fun x v hx hgone => ?_, fun x v hx => ?_⟩
  · by_cases hxr : x = r
    · rw [hxr, hself] at hx
      cases hx
    · rw [value_set_of_ne hxr] at hx
      exact h.kept x v hx
  · by_cases hxr : x = r
    · subst hxr
      refine .mk (by rwa [← h.held]) fun y hy hya => ?_
      obtain ⟨w, hyw, -⟩ := owns_iff.mp hy
      have hset : (σ.set a (some b)).value y = some w := by rw [value_set_of_ne hya, hyw]
      cases hτ : τ.value y with
      | none => exact h.gone y w hset hτ
      | some w' =>
        have hsame := h.kept y w' hτ
        rw [value_set_of_ne hya] at hsame
        exact absurd (hy.congr (by rw [hτ, hsame])) (hnone y)
    · rw [value_set_of_ne hxr] at hgone
      exact h.gone x v hx hgone
  · have hxr : x ≠ r := by
      intro hxr
      rw [hxr, hself] at hx
      cases hx
    rw [value_set_of_ne hxr] at hx
    have hbefore := h.owned x v hx
    rw [owned_iff] at hbefore ⊢
    rcases hbefore with hxheld | hmem | ⟨y, hy⟩
    · exact .inl hxheld
    · exact .inr (.inl (List.mem_append_right _ ((List.mem_cons.mp hmem).resolve_left hxr)))
    · by_cases hyr : y = r
      · rw [hyr] at hy
        exact .inr (.inl (List.mem_append_left _ hy))
      · exact .inr (.inr ⟨y, hy.congr (value_set_of_ne hyr)⟩)

/-- A node that has another owner. -/
theorem Releasing.keep (h : Releasing σ a b τ (r :: ws)) (hr : (τ.value r).isSome = true → τ.owned ws r = true) :
    Releasing σ a b τ ws := by
  refine ⟨h.held, h.length, h.kept, h.gone, fun x v hx => ?_⟩
  have hbefore := h.owned x v hx
  rw [owned_iff] at hbefore
  rcases hbefore with hxheld | hmem | hown
  · exact owned_iff.mpr (.inl hxheld)
  · rcases List.mem_cons.mp hmem with rfl | hmem
    · exact hr (by rw [hx]; rfl)
    · exact owned_iff.mpr (.inr (.inl hmem))
  · exact owned_iff.mpr (.inr (.inr hown))

theorem Releasing.release (h : Releasing σ a b τ ws) : Releasing σ a b (τ.release ws) [] := by
  fun_induction Store.release τ ws with
  | case1 => exact h
  | case2 τ r ws hcond ih => exact ih (h.destroy hcond.1 hcond.2)
  | case3 τ r ws hcond ih =>
    refine ih (h.keep fun hlive => ?_)
    by_contra howned
    exact hcond ⟨hlive, by simpa using howned⟩

/-- What is lost is destroyed in the end. -/
theorem Releasing.lost (h : Releasing σ a b τ []) (ha : a < σ.cells.length) (hb : Node.pointers b = [])
    (hr : σ.Lost a r) : τ.value r = none := by
  induction hr with
  | @mk r hheld _ ih =>
    cases hv : τ.value r with
    | none => rfl
    | some v =>
      rcases owned_iff.mp (h.owned r v hv) with hr | hr | ⟨x, hx⟩
      · rw [h.held] at hr
        exact absurd hr hheld
      · cases hr
      · obtain ⟨w, hxw, hmem⟩ := owns_iff.mp hx
        have hset := h.kept x w hxw
        by_cases hxa : x = a
        · rw [hxa, value_set_self ha] at hset
          cases hset
          rw [hb] at hmem
          cases hmem
        · rw [value_set_of_ne hxa] at hset
          rw [ih x (owns_iff.mpr ⟨w, hset, hmem⟩) hxa] at hxw
          cases hxw

/-- When `a` lets go of its pointers, what is lost is destroyed and nothing else changes. -/
theorem release_spec (hw : σ.Valid) (ha : σ.value a = some v) (hb : Node.pointers b = []) :
    let τ := (σ.set a (some b)).release (σ.pointers a)
    τ.held = σ.held ∧ τ.cells.length = σ.cells.length ∧ (∀ r, σ.Lost a r → τ.value r = none) ∧
      ∀ r, ¬ σ.Lost a r → τ.value r = (σ.set a (some b)).value r := by
  have h := (Releasing.start (b := b) hw ha).release
  refine ⟨h.held, h.length, fun r => h.lost (lt_of_value ha) hb, fun r hr => ?_⟩
  cases hv : ((σ.set a (some b)).release (σ.pointers a)).value r with
  | some w => exact (h.kept r w hv).symm
  | none =>
    cases hset : (σ.set a (some b)).value r with
    | none => rfl
    | some w => exact absurd (h.gone r w hset hv) hr

end

end Store

end Shared
