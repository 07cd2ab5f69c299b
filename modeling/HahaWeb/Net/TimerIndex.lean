/-
  HahaWeb.Net.TimerIndex — what the table of a timer heap holds after any operations.

  No order is asked of the heap here: an `adjust` may be to an earlier expiry, which
  leaves the heap out of order and the table exact. Proved: after any sequence of
  operations the table has one entry for each timer, at its position, and the next
  operation returns (`index_exact`). That the indices of `siftup_`, `siftdown_` and `SwapNode_`
  are inside the heap is in the types of their models; `del` returns only where its own
  assertions hold.
-/

import Mathlib.Data.Set.Card
import HahaWeb.Net.TimerHeap

namespace HahaWeb

namespace TimerHeap

variable {C : Type} {h h' : TimerHeap C}

/-- The table has the position of each timer, and nothing else. -/
structure Exact (h : TimerHeap C) : Prop where
  position : ∀ i (hi : i < h.heap.size), h.ref h.heap[i].fd = some i
  entry : ∀ fd i, h.ref fd = some i → ∃ hi : i < h.heap.size, h.heap[i].fd = fd
  once : (h.heap.toList.map (·.fd)).Nodup
  entries : {fd | (h.ref fd).isSome}.ncard = h.heap.size

/-- The descriptors that have an entry are those of the timers. -/
theorem Indexed.keys (hx : Indexed h) : {fd | (h.ref fd).isSome} = {fd | fd ∈ h.heap.toList.map (·.fd)} := by
  ext fd
  simp only [Set.mem_ofPred_eq, List.mem_map, Array.mem_toList_iff, Option.isSome_iff_exists]
  constructor
  · intro he
    obtain ⟨i, hr⟩ := he
    obtain ⟨t, ht, hfd⟩ := hx.timer hr
    exact ⟨t, Array.mem_of_getElem? ht, hfd⟩
  · intro ht
    obtain ⟨t, hmem, hfd⟩ := ht
    obtain ⟨i, hi⟩ := Array.getElem?_of_mem hmem
    exact ⟨i, hfd ▸ hx.ref hi⟩

theorem Indexed.exact (hx : Indexed h) : Exact h where
  position i hi := hx.ref (Array.getElem?_eq_getElem hi)
  entry fd i hr := by
    have hi := hx.lt hr
    obtain ⟨t, ht, hfd⟩ := hx.timer hr
    rw [Array.getElem?_eq_getElem hi] at ht
    exact ⟨hi, Option.some.inj ht ▸ hfd⟩
  once := hx.nodup
  entries := by
    have hset : {fd | fd ∈ h.heap.toList.map (·.fd)} = ((h.heap.toList.map (·.fd)).toFinset : Set Fd) := by
      ext fd
      simp
    rw [hx.keys, hset, Set.ncard_coe_finset, List.toFinset_card_of_nodup hx.nodup, List.length_map,
      Array.length_toList]

/-- An operation returns, unless it is a `pop` of an empty heap. -/
theorem apply_indexed (hx : Indexed h) (op : Op C) (hop : op = .pop → h.heap.isEmpty = false) :
    ∃ out h', h.apply op = .ok (out, h') ∧ Indexed h' := by
  cases op with
  | push timer =>
    obtain ⟨h', he, hb⟩ := push_becomes hx timer
    exact ⟨none, h', by rw [apply, he]; rfl, hb.indexed⟩
  | adjust fd expire =>
    obtain ⟨h', he, hb⟩ := adjust_becomes hx fd expire
    exact ⟨none, h', by rw [apply, he]; rfl, hb.indexed⟩
  | remove fd =>
    obtain ⟨h', he, hb⟩ := remove_becomes hx fd
    exact ⟨none, h', by rw [apply, he]; rfl, hb.indexed⟩
  | pop =>
    have hpos : 0 < h.heap.size := by
      by_contra h0
      have := hop rfl
      rw [Array.isEmpty_eq_false_iff, ← Array.size_eq_zero_iff.ne] at this
      omega
    have ht : h.top = some h.heap[0] := Array.getElem?_eq_getElem hpos
    obtain ⟨h', he, hb⟩ := pop_becomes hx ht
    exact ⟨h.top, h', by rw [apply, he]; rfl, hb.indexed⟩
  | clear => exact ⟨none, _, rfl, indexed_new⟩

theorem pop_empty (he : h.heap.isEmpty = true) : h.pop = .error .assertion := by
  unfold pop
  rw [if_pos he]

/-- An operation, whatever it asks for, that returned. -/
def Returned (h : TimerHeap C) (op : Op C) (h' : TimerHeap C) : Prop := ∃ out, h.apply op = .ok (out, h')

theorem returned_indexed {op : Op C} (hx : Indexed h) (hr : h.Returned op h') : Indexed h' := by
  obtain ⟨out, he⟩ := hr
  have hop : op = .pop → h.heap.isEmpty = false := by
    intro hp
    by_contra hne
    rw [hp, apply, pop_empty (by simpa using hne)] at he
    cases he
  obtain ⟨out', h'', he', hx'⟩ := apply_indexed hx op hop
  rw [he] at he'
  cases he'
  exact hx'

/-- After any operations the table is exact, and the next operation returns; only a `pop` of
    an empty heap does not, which ends at the assertion of `pop` itself. -/
theorem index_exact (ops : List (Op C)) (h : TimerHeap C) (hrun : Labelled.Run Returned new ops h) :
    Exact h ∧ (∀ op, (op = .pop → h.heap.isEmpty = false) → ∃ h', h.Returned op h') ∧
      (h.heap.isEmpty = true → h.pop = .error .assertion) := by
  have hx : Indexed h := hrun.invariant (fun _ _ _ => returned_indexed) indexed_new
  refine ⟨hx.exact, fun op hop => ?_, pop_empty⟩
  obtain ⟨out, h', he, -⟩ := apply_indexed hx op hop
  exact ⟨h', out, he⟩

theorem index_exact_earlier : ∃ h : TimerHeap Unit,
    Labelled.Run Returned new [.push ⟨3, 5, ()⟩, .push ⟨4, 7, ()⟩, .adjust 4 2] h ∧ Exact h := by
  obtain ⟨_, h1, he1, hx1⟩ := apply_indexed (@indexed_new Unit) (.push ⟨3, 5, ()⟩) (by simp)
  obtain ⟨_, h2, he2, hx2⟩ := apply_indexed hx1 (.push ⟨4, 7, ()⟩) (by simp)
  obtain ⟨_, h3, he3, -⟩ := apply_indexed hx2 (.adjust 4 2) (by simp)
  have hrun : Labelled.Run Returned new [.push ⟨3, 5, ()⟩, .push ⟨4, 7, ()⟩, .adjust 4 2] h3 :=
    .cons ⟨_, he1⟩ (.cons ⟨_, he2⟩ (.cons ⟨_, he3⟩ (.nil h3)))
  exact ⟨h3, hrun, (index_exact _ _ hrun).1⟩

end TimerHeap

end HahaWeb
