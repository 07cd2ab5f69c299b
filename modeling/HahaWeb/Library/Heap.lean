/-
  HahaWeb.Library.Heap — the order of a binary heap in a sequence of keys.

  `f i` is the key at position `i`, and a heap of `n` keys is the first `n` positions. A
  sift moves a hole: the pairs of parent and child that do not touch it are in order, and
  its children are not below its parent (`Hole`). Proved: what a swap does to a hole, up
  and down, and when the hole is closed.
-/

import Mathlib.Order.Lattice
import Mathlib.Logic.Equiv.Basic

namespace HeapOrder

def parent (i : Nat) : Nat := (i - 1) / 2

theorem parent_lt {i : Nat} (h : 0 < i) : parent i < i := by
  unfold parent
  omega

theorem parent_eq_iff {i k : Nat} (h : 0 < k) : parent k = i ↔ k = 2 * i + 1 ∨ k = 2 * i + 2 := by
  unfold parent
  omega

variable {β : Type} [LinearOrder β] {f : Nat → β} {n i j : Nat}

def Ordered (f : Nat → β) (n : Nat) : Prop := ∀ k, 0 < k → k < n → f (parent k) ≤ f k

/-- The pairs that touch position `i` are out of order. -/
structure Hole (f : Nat → β) (n i : Nat) : Prop where
  off : ∀ k, 0 < k → k < n → k ≠ i → parent k ≠ i → f (parent k) ≤ f k
  across : 0 < i → ∀ k, 0 < k → k < n → parent k = i → f (parent i) ≤ f k

/-- The key at `i` is not above its children. -/
def Over (f : Nat → β) (n i : Nat) : Prop := ∀ k, 0 < k → k < n → parent k = i → f i ≤ f k

/-- The key at `i` is not below its parent. -/
def Under (f : Nat → β) (i : Nat) : Prop := 0 < i → f (parent i) ≤ f i

theorem Ordered.least (h : Ordered f n) : ∀ i, i < n → f 0 ≤ f i := by
  intro i
  induction i using Nat.strongRecOn with
  | ind i ih =>
    intro hi
    by_cases h0 : i = 0
    · rw [h0]
    · have hlt := parent_lt (Nat.pos_of_ne_zero h0)
      exact (ih _ hlt (by omega)).trans (h i (by omega) hi)

theorem Ordered.mono (h : Ordered f n) {m : Nat} (hm : m ≤ n) : Ordered f m :=
  fun k h0 hk => h k h0 (by omega)

theorem Ordered.congr {g : Nat → β} (h : Ordered f n) (hg : ∀ k, k < n → g k = f k) : Ordered g n := by
  intro k h0 hk
  have := parent_lt h0
  rw [hg k hk, hg _ (by omega)]
  exact h k h0 hk

/-- A key of a heap that is replaced leaves a hole. -/
theorem Ordered.hole (h : Ordered f n) (hi : i < n) {g : Nat → β} (hg : ∀ k, k < n → k ≠ i → g k = f k) :
    Hole g n i := by
  refine ⟨?_, ?_⟩
  · intro k h0 hk hki hp
    have := parent_lt h0
    rw [hg k hk hki, hg _ (by omega) hp]
    exact h k h0 hk
  · intro h0 k hk0 hk hp
    have := parent_lt h0
    have := parent_lt hk0
    rw [hg k hk (by omega), hg _ (by omega) (by omega)]
    exact (h i h0 hi).trans (hp ▸ h k hk0 hk)

/-- A key behind a heap. -/
theorem Ordered.hole_last (h : Ordered f n) : Hole f (n + 1) n := by
  refine ⟨?_, ?_⟩
  · intro k h0 hk hkn _
    exact h k h0 (by omega)
  · intro _ k h0 hk hp
    have := parent_lt h0
    omega

theorem over_last : Over f (n + 1) n := by
  intro k h0 hk hp
  have := parent_lt h0
  omega

theorem Hole.close (h : Hole f n i) (hu : Under f i) (ho : Over f n i) : Ordered f n := by
  intro k h0 hk
  by_cases hki : k = i
  · rw [hki] at h0 ⊢
    exact hu h0
  · by_cases hp : parent k = i
    · rw [hp]
      exact ho k h0 hk hp
    · exact h.off k h0 hk hki hp

/-! ## Up -/

/-- One step up. -/
theorem Hole.up (h : Hole f n i) (h0 : 0 < i) (hi : i < n) (hle : f i ≤ f (parent i)) :
    Hole (f ∘ Equiv.swap i (parent i)) n (parent i) ∧ Over (f ∘ Equiv.swap i (parent i)) n (parent i) := by
  have hlt := parent_lt h0
  have hgp : 0 < parent i → f (parent (parent i)) ≤ f (parent i) := fun hp =>
    h.off _ hp (by omega) (by omega) (by have := parent_lt hp; omega)
  have hoff : ∀ k, k ≠ i → k ≠ parent i → Equiv.swap i (parent i) k = k :=
    fun k h1 h2 => Equiv.swap_apply_of_ne_of_ne h1 h2
  refine ⟨⟨?_, ?_⟩, ?_⟩
  · intro k hk0 hk hkp hpp
    have hki : k ≠ i := by
      intro hki
      exact hpp (hki ▸ rfl)
    simp only [Function.comp_apply, hoff k hki hkp]
    by_cases hpi : parent k = i
    · rw [hpi, Equiv.swap_apply_left]
      exact h.across h0 k hk0 hk hpi
    · rw [hoff _ hpi hpp]
      exact h.off k hk0 hk hki hpi
  · intro hp0 k hk0 hk hpk
    have hpl := parent_lt hp0
    have hkl := parent_lt hk0
    simp only [Function.comp_apply, hoff (parent (parent i)) (by omega) (by omega)]
    by_cases hki : k = i
    · rw [hki, Equiv.swap_apply_left]
      exact hgp hp0
    · rw [hoff k hki (by omega)]
      exact (hgp hp0).trans (hpk ▸ h.off k hk0 hk hki (by omega))
  · intro k hk0 hk hpk
    have hkl := parent_lt hk0
    simp only [Function.comp_apply, Equiv.swap_apply_right]
    by_cases hki : k = i
    · rw [hki, Equiv.swap_apply_left]
      exact hle
    · rw [hoff k hki (by omega)]
      exact hle.trans (hpk ▸ h.off k hk0 hk hki (by omega))

/-! ## Down -/

/-- One step down, to a child that is not above the other one. -/
theorem Hole.down (h : Hole f n i) (hj0 : 0 < j) (hj : j < n) (hpj : parent j = i)
    (hmin : ∀ k, 0 < k → k < n → parent k = i → f j ≤ f k) (hle : f j ≤ f i) :
    Hole (f ∘ Equiv.swap i j) n j ∧ Under (f ∘ Equiv.swap i j) j := by
  have hlt := parent_lt hj0
  have hoff : ∀ k, k ≠ i → k ≠ j → Equiv.swap i j k = k := fun k h1 h2 => Equiv.swap_apply_of_ne_of_ne h1 h2
  refine ⟨⟨?_, ?_⟩, ?_⟩
  · intro k hk0 hk hkj hpk
    have hkl := parent_lt hk0
    by_cases hki : k = i
    · subst hki
      simp only [Function.comp_apply, Equiv.swap_apply_left, hoff (parent k) (by omega) (by omega)]
      exact h.across hk0 j hj0 hj hpj
    · simp only [Function.comp_apply, hoff k hki hkj]
      by_cases hpi : parent k = i
      · rw [hpi, Equiv.swap_apply_left]
        exact hmin k hk0 hk hpi
      · rw [hoff _ hpi hpk]
        exact h.off k hk0 hk hki hpi
  · intro _ k hk0 hk hpk
    have hkl := parent_lt hk0
    simp only [Function.comp_apply, hpj, Equiv.swap_apply_left, hoff k (by omega) (by omega)]
    exact hpk ▸ h.off k hk0 hk (by omega) (by omega)
  · intro _
    simp only [Function.comp_apply, hpj, Equiv.swap_apply_left, Equiv.swap_apply_right]
    exact hle

end HeapOrder
