/-
  HahaWeb.Net.TimerHeap — `net/TimerHeap`: the timers of a loop, a binary heap by expiry
  with a table of the position of each descriptor.

  The assertions of the sifts and of `SwapNode_` are in their types; those of `del_` and
  `pop`, and a table that points behind the heap, are faults. `siftup_` stops at the top
  because `(i - 1) / 2` of a `size_t` zero is the `int` -1. Not modelled: the check that
  the caller is the thread of the loop.
-/

import HahaWeb.Base.Bytes
import HahaWeb.Base.Util
import HahaWeb.Library.Heap
import HahaWeb.Library.Labelled

namespace HahaWeb

/-- `cb` is what `TimeoutCallBack` refers to; `expire` is in microseconds. -/
structure Timer (C : Type) where
  fd : Fd
  expire : Nat
  cb : C
  deriving DecidableEq, Repr

structure TimerHeap (C : Type) where
  heap : Array (Timer C)
  ref : Fd → Option Nat

namespace TimerHeap

variable {C : Type}

def new : TimerHeap C := ⟨#[], fun _ => none⟩

def swapNode (h : TimerHeap C) (i j : Nat) (hi : i < h.heap.size) (hj : j < h.heap.size) : TimerHeap C :=
  ⟨h.heap.swap i j hi hj, Function.update (Function.update h.ref h.heap[j].fd (some i)) h.heap[i].fd (some j)⟩

@[simp] theorem swapNode_size (h : TimerHeap C) (i j : Nat) (hi : i < h.heap.size) (hj : j < h.heap.size) :
    (h.swapNode i j hi hj).heap.size = h.heap.size :=
  Array.size_swap

/-- `int j = (i - 1) / 2` -/
@[irreducible] def above (i : Nat) : Int := toInt (sizeSub i 1 / 2 : Nat)

theorem above_zero : above 0 = -1 := by
  unfold above
  decide

theorem above_lt {i : Nat} (h : 0 ≤ above i) : (above i).toNat < i := by
  by_cases h0 : i = 0
  · rw [h0, above_zero] at h
    omega
  · have hle := toInt_le (sizeSub i 1 / 2)
    have hs : sizeSub i 1 ≤ i - 1 := by
      unfold sizeSub
      omega
    unfold above at h ⊢
    omega

def siftup (h : TimerHeap C) (i : Nat) (hi : i < h.heap.size) : TimerHeap C :=
  if ha : 0 ≤ above i then
    let j := (above i).toNat
    have hlt : j < i := above_lt ha
    have hj : j < h.heap.size := hlt.trans hi
    if h.heap[j].expire < h.heap[i].expire then h
    else (h.swapNode i j hi hj).siftup j (by rwa [swapNode_size])
  else h
termination_by i

/-- The lesser child of `i` among the first `n`, given that there is one. -/
def lesser (h : TimerHeap C) (i n : Nat) (_ : i * 2 + 1 < n) (hn : n ≤ h.heap.size) : Nat :=
  if hj' : i * 2 + 1 + 1 < n then
    if h.heap[i * 2 + 1 + 1].expire < h.heap[i * 2 + 1].expire then i * 2 + 1 + 1 else i * 2 + 1
  else i * 2 + 1

theorem lesser_lt {h : TimerHeap C} {i n : Nat} {hj : i * 2 + 1 < n} {hn : n ≤ h.heap.size} :
    i < h.lesser i n hj hn ∧ h.lesser i n hj hn < n := by
  unfold lesser
  split
  · split <;> omega
  · omega

/-- The loop of `siftdown_`, and where it ends. -/
def siftdownLoop (h : TimerHeap C) (i n : Nat) (hi : i < h.heap.size) (hn : n ≤ h.heap.size) : TimerHeap C × Nat :=
  if hj : i * 2 + 1 < n then
    let j := h.lesser i n hj hn
    have hlt : i < j ∧ j < n := lesser_lt
    if h.heap[i].expire < h.heap[j].expire then (h, i)
    else (h.swapNode i j hi (hlt.2.trans_le hn)).siftdownLoop j n (by simpa using hlt.2.trans_le hn) (by simpa using hn)
  else (h, i)
termination_by n - i
decreasing_by omega

def siftdown (h : TimerHeap C) (index n : Nat) (hi : index < h.heap.size) (hn : n ≤ h.heap.size) : TimerHeap C × Bool :=
  let r := h.siftdownLoop index n hi hn
  (r.1, index < r.2)

theorem siftdownLoop_size (h : TimerHeap C) (i n : Nat) (hi : i < h.heap.size) (hn : n ≤ h.heap.size) :
    (h.siftdownLoop i n hi hn).1.heap.size = h.heap.size := by
  induction h, i, hi, hn using siftdownLoop.induct (n := n) with
  | case1 h i hi hn hj j hlt hlow => rw [siftdownLoop, dif_pos hj, if_pos hlow]
  | case2 h i hi hn hj j hlt hlow ih =>
    rw [siftdownLoop, dif_pos hj, if_neg hlow]
    exact ih.trans (swapNode_size ..)
  | case3 h i hi hn hj => rw [siftdownLoop, dif_neg hj]

theorem siftdown_size (h : TimerHeap C) (i n : Nat) (hi : i < h.heap.size) (hn : n ≤ h.heap.size) :
    (h.siftdown i n hi hn).1.heap.size = h.heap.size :=
  siftdownLoop_size h i n hi hn

/-- `if(!siftdown_(i, n)) siftup_(i)` -/
def sift (h : TimerHeap C) (i n : Nat) (hi : i < h.heap.size) (hn : n ≤ h.heap.size) : TimerHeap C :=
  let r := h.siftdown i n hi hn
  if r.2 then r.1 else r.1.siftup i (by rwa [siftdown_size])

/-- `del_`, up to the erasure: the timer at `index` is last, and the others are sifted. -/
def bringLast (h : TimerHeap C) (index : Nat) (hi : index < h.heap.size) : TimerHeap C :=
  if hn : index < h.heap.size - 1 then
    (h.swapNode index (h.heap.size - 1) hi (by omega)).sift index (h.heap.size - 1) (by rwa [swapNode_size])
      (by rw [swapNode_size]; omega)
  else h

def del (h : TimerHeap C) (index : Nat) : Except Fault (TimerHeap C) :=
  if hi : index < h.heap.size then
    let h := h.bringLast index hi
    match h.heap.back? with
    | some t => if (h.ref t.fd).isSome then .ok ⟨h.heap.pop, Function.update h.ref t.fd none⟩ else .error .assertion
    | none => .error .outOfRange
  else .error .assertion

def push (h : TimerHeap C) (timer : Timer C) : Except Fault (TimerHeap C) :=
  (h.ref timer.fd).elim
    (.ok (siftup ⟨h.heap.push timer, Function.update h.ref timer.fd (some h.heap.size)⟩ h.heap.size
      (by rw [Array.size_push]; omega)))
    fun i =>
      if hi : i < h.heap.size then
        .ok (sift ⟨h.heap.set i timer, h.ref⟩ i h.heap.size (by rwa [Array.size_set]) (by rw [Array.size_set]))
      else .error .outOfRange

/-- `adjust`, which reads of its timer the descriptor and the expiry. -/
def adjust (h : TimerHeap C) (fd : Fd) (expire : Nat) : Except Fault (TimerHeap C) :=
  (h.ref fd).elim (.ok h) fun pos =>
    if hp : pos < h.heap.size then
      .ok (siftdown ⟨h.heap.set pos { h.heap[pos] with expire := expire }, h.ref⟩ pos h.heap.size
        (by rwa [Array.size_set])
        (by rw [Array.size_set])).1
    else .error .outOfRange

/-- `remove`, which reads of its timer the descriptor. -/
def remove (h : TimerHeap C) (fd : Fd) : Except Fault (TimerHeap C) := (h.ref fd).elim (.ok h) fun pos => h.del pos

def pop (h : TimerHeap C) : Except Fault (TimerHeap C) :=
  if h.heap.isEmpty then .error .assertion else h.del 0

def clear (_ : TimerHeap C) : TimerHeap C := new

def top (h : TimerHeap C) : Option (Timer C) := h.heap[0]?

def empty (h : TimerHeap C) : Bool := h.heap.isEmpty

/-! ## The table -/

/-- The table gives the position of each timer. -/
def Indexed (h : TimerHeap C) : Prop := ∀ fd i, h.ref fd = some i ↔ h.heap[i]?.map (·.fd) = some fd

/-- The timer of a descriptor. -/
def timers (h : TimerHeap C) (fd : Fd) : Option (Timer C) := (h.ref fd).bind fun i => h.heap[i]?

variable {h h' : TimerHeap C} {t : Timer C} {fd : Fd} {i n : Nat}

theorem Indexed.timer (hx : Indexed h) (hr : h.ref fd = some i) : ∃ t, h.heap[i]? = some t ∧ t.fd = fd := by
  have hm := (hx fd i).mp hr
  rwa [Option.map_eq_some_iff] at hm

theorem Indexed.lt (hx : Indexed h) (hr : h.ref fd = some i) : i < h.heap.size := by
  obtain ⟨t, ht, -⟩ := hx.timer hr
  exact (Array.getElem?_eq_some_iff.mp ht).1

theorem Indexed.ref (hx : Indexed h) (ht : h.heap[i]? = some t) : h.ref t.fd = some i :=
  (hx t.fd i).mpr (by rw [ht]; rfl)

theorem timers_eq_some (hx : Indexed h) : h.timers fd = some t ↔ t ∈ h.heap ∧ t.fd = fd := by
  unfold timers
  constructor
  · intro ht
    obtain ⟨i, hi, ht⟩ := Option.bind_eq_some_iff.mp ht
    obtain ⟨u, hu, hfd⟩ := hx.timer hi
    rw [ht] at hu
    cases hu
    exact ⟨Array.mem_of_getElem? ht, hfd⟩
  · intro ht
    obtain ⟨hmem, rfl⟩ := ht
    obtain ⟨i, hi⟩ := Array.getElem?_of_mem hmem
    rw [hx.ref hi]
    exact hi

theorem timers_eq_none (hx : Indexed h) : h.timers fd = none ↔ h.ref fd = none := by
  unfold timers
  constructor
  · intro hn
    by_contra hr
    obtain ⟨i, hi⟩ := Option.ne_none_iff_exists'.mp hr
    obtain ⟨t, ht, -⟩ := hx.timer hi
    rw [hi, Option.bind_some, ht] at hn
    cases hn
  · intro hr
    rw [hr]
    rfl

/-- No more timers than descriptors. -/
theorem Indexed.size_le (hx : Indexed h) : h.heap.size ≤ 2 ^ 31 := by
  have hinj : Function.Injective fun k : Fin h.heap.size => h.heap[k].fd := by
    intro a b hab
    have ha := hx.ref (Array.getElem?_eq_getElem a.2)
    have hb := hx.ref (Array.getElem?_eq_getElem b.2)
    have hab : h.heap[a].fd = h.heap[b].fd := hab
    rw [← Fin.getElem_fin, hab, Fin.getElem_fin, hb] at ha
    exact Fin.ext (Option.some.inj ha.symm)
  simpa using Fintype.card_le_of_injective _ hinj

theorem indexed_new : Indexed (new : TimerHeap C) := by
  intro fd i
  simp [new]

theorem Indexed.swapNode (hx : Indexed h) {j : Nat} (hi : i < h.heap.size) (hj : j < h.heap.size) :
    Indexed (h.swapNode i j hi hj) := by
  intro fd k
  have hri := hx.ref (Array.getElem?_eq_getElem hi)
  have hrj := hx.ref (Array.getElem?_eq_getElem hj)
  have hk := hx fd k
  simp only [TimerHeap.swapNode, Array.getElem?_swap, Function.update_apply]
  have hfd : h.heap[i].fd = h.heap[j].fd → i = j := fun he => by
    rw [he, hrj] at hri
    exact (Option.some.inj hri).symm
  grind

/-! ## Swaps -/

/-- Swaps among the first `n` timers. -/
inductive Swaps (n : Nat) : TimerHeap C → TimerHeap C → Prop
  | refl (h : TimerHeap C) : Swaps n h h
  | swap {h h' : TimerHeap C} {i j : Nat} (hi : i < h.heap.size) (hj : j < h.heap.size) :
      i < n → j < n → Swaps n (h.swapNode i j hi hj) h' → Swaps n h h'

theorem Swaps.trans {h'' : TimerHeap C} (hs : Swaps n h h') (hs' : Swaps n h' h'') : Swaps n h h'' := by
  induction hs with
  | refl => exact hs'
  | swap hi hj hin hjn _ ih => exact .swap hi hj hin hjn (ih hs')

theorem Swaps.mono {m : Nat} (hs : Swaps n h h') (hm : n ≤ m) : Swaps m h h' := by
  induction hs with
  | refl => exact .refl _
  | swap hi hj hin hjn _ ih => exact .swap hi hj (hin.trans_le hm) (hjn.trans_le hm) ih

theorem Swaps.size (hs : Swaps n h h') : h'.heap.size = h.heap.size := by
  induction hs with
  | refl => rfl
  | swap hi hj _ _ _ ih => exact ih.trans (swapNode_size ..)

theorem Swaps.indexed (hs : Swaps n h h') (hx : Indexed h) : Indexed h' := by
  induction hs with
  | refl => exact hx
  | swap hi hj _ _ _ ih => exact ih (hx.swapNode hi hj)

theorem Swaps.perm (hs : Swaps n h h') : h'.heap.Perm h.heap := by
  induction hs with
  | refl => exact .rfl
  | swap hi hj _ _ _ ih => exact ih.trans (Array.swap_perm hi hj)

/-- Swaps leave the timer of each descriptor. -/
theorem Swaps.timers (hs : Swaps n h h') (hx : Indexed h) : h'.timers = h.timers := by
  funext fd
  refine Option.ext fun t => ?_
  rw [timers_eq_some (hs.indexed hx), timers_eq_some hx, hs.perm.mem_iff]

theorem Swaps.beyond (hs : Swaps n h h') {k : Nat} (hk : n ≤ k) : h'.heap[k]? = h.heap[k]? := by
  induction hs with
  | refl => rfl
  | swap hi hj hin hjn _ ih =>
    rw [ih, TimerHeap.swapNode, Array.getElem?_swap, if_neg (by omega), if_neg (by omega)]

theorem siftup_swaps (h : TimerHeap C) (i : Nat) (hi : i < h.heap.size) (hn : i < n) : Swaps n h (h.siftup i hi) := by
  induction h, i, hi using siftup.induct with
  | case1 h i hi ha j hlt hj hlow =>
    rw [siftup, dif_pos ha, if_pos hlow]
    exact .refl h
  | case2 h i hi ha j hlt hj hlow ih =>
    rw [siftup, dif_pos ha, if_neg hlow]
    exact .swap hi hj hn (hlt.trans hn) (ih (hlt.trans hn))
  | case3 h i hi ha =>
    rw [siftup, dif_neg ha]
    exact .refl h

theorem siftdownLoop_swaps (h : TimerHeap C) (i n : Nat) (hi : i < h.heap.size) (hn : n ≤ h.heap.size) (hin : i < n) :
    Swaps n h (h.siftdownLoop i n hi hn).1 := by
  induction h, i, hi, hn using siftdownLoop.induct (n := n) with
  | case1 h i hi hn hj j hlt hlow =>
    rw [siftdownLoop, dif_pos hj, if_pos hlow]
    exact .refl h
  | case2 h i hi hn hj j hlt hlow ih =>
    rw [siftdownLoop, dif_pos hj, if_neg hlow]
    exact .swap hi (hlt.2.trans_le hn) hin hlt.2 (ih hlt.2)
  | case3 h i hi hn hj =>
    rw [siftdownLoop, dif_neg hj]
    exact .refl h

theorem sift_swaps (h : TimerHeap C) (i n : Nat) (hi : i < h.heap.size) (hn : n ≤ h.heap.size) (hin : i < n) :
    Swaps n h (h.sift i n hi hn) := by
  have hdown := siftdownLoop_swaps h i n hi hn hin
  unfold sift
  dsimp only
  split
  · exact hdown
  · exact hdown.trans (siftup_swaps _ i _ hin)

/-! ## The order -/

def key (h : TimerHeap C) (i : Nat) : Nat := (h.heap[i]?.map (·.expire)).getD 0

theorem key_of_lt (h : TimerHeap C) {i : Nat} (hi : i < h.heap.size) : h.key i = h.heap[i].expire := by
  rw [key, Array.getElem?_eq_getElem hi]
  rfl

theorem key_swapNode (h : TimerHeap C) {i j : Nat} (hi : i < h.heap.size) (hj : j < h.heap.size) :
    (h.swapNode i j hi hj).key = h.key ∘ Equiv.swap i j := by
  funext k
  simp only [key, swapNode, Array.getElem?_swap, Function.comp_apply, Equiv.swap_apply_def]
  grind

theorem above_pos {i : Nat} (h0 : 0 < i) (hi : i < 2 ^ 32) : above i = HeapOrder.parent i := by
  unfold above HeapOrder.parent
  rw [sizeSub_of_le h0 (by omega), toInt_of_lt (by omega)]

theorem siftup_ordered (h : TimerHeap C) (i : Nat) (hi : i < h.heap.size) (hin : i < n) (hmax : i < 2 ^ 32)
    (hhole : HeapOrder.Hole h.key n i) (hover : HeapOrder.Over h.key n i) : HeapOrder.Ordered
    (h.siftup i hi).key n := by
  induction h, i, hi using siftup.induct with
  | case1 h i hi ha j hlt hj hlow =>
    have hp : above i = HeapOrder.parent i := above_pos (by omega) hmax
    rw [siftup, dif_pos ha, if_pos hlow]
    refine hhole.close (fun _ => ?_) hover
    rw [← h.key_of_lt hi, ← h.key_of_lt hj] at hlow
    have hj' : j = HeapOrder.parent i := by omega
    exact hj' ▸ hlow.le
  | case2 h i hi ha j hlt hj hlow ih =>
    have hp : above i = HeapOrder.parent i := above_pos (by omega) hmax
    have hj' : j = HeapOrder.parent i := by omega
    rw [siftup, dif_pos ha, if_neg hlow]
    rw [← h.key_of_lt hi, ← h.key_of_lt hj, not_lt] at hlow
    obtain ⟨hhole', hover'⟩ := hhole.up (by omega) hin (hj' ▸ hlow)
    rw [← hj', ← h.key_swapNode hi hj] at hhole' hover'
    exact ih (by omega) (by omega) hhole' hover'
  | case3 h i hi ha =>
    rw [siftup, dif_neg ha]
    refine hhole.close (fun h0 => absurd ?_ ha) hover
    rw [above_pos h0 hmax]
    omega

theorem lesser_parent {hj : i * 2 + 1 < n} {hn : n ≤ h.heap.size} : HeapOrder.parent (h.lesser i n hj hn) = i := by
  unfold lesser HeapOrder.parent
  split
  · split <;> omega
  · omega

theorem lesser_le (hj : i * 2 + 1 < n) (hn : n ≤ h.heap.size) :
    ∀ k, 0 < k → k < n → HeapOrder.parent k = i → h.key (h.lesser i n hj hn) ≤ h.key k := by
  intro k h0 hk hp
  rw [HeapOrder.parent_eq_iff h0] at hp
  have hleft := h.key_of_lt (show i * 2 + 1 < h.heap.size by omega)
  unfold lesser
  split
  · rename_i hj'
    have hright := h.key_of_lt (show i * 2 + 1 + 1 < h.heap.size by omega)
    rw [← hleft, ← hright]
    rcases hp with rfl | rfl
    · rw [show 2 * i + 1 = i * 2 + 1 by omega]
      split <;> omega
    · rw [show 2 * i + 2 = i * 2 + 1 + 1 by omega]
      split <;> omega
  · rcases hp with rfl | rfl
    · rw [show 2 * i + 1 = i * 2 + 1 by omega]
    · omega

theorem siftdownLoop_ordered (h : TimerHeap C) (i n : Nat) (hi : i < h.heap.size) (hn : n ≤ h.heap.size)
    (hhole : HeapOrder.Hole h.key n i) (hunder : HeapOrder.Under h.key i) :
    HeapOrder.Ordered (h.siftdownLoop i n hi hn).1.key n := by
  induction h, i, hi, hn using siftdownLoop.induct (n := n) with
  | case1 h i hi hn hj j hlt hlow =>
    rw [siftdownLoop, dif_pos hj, if_pos hlow]
    rw [← h.key_of_lt hi, ← h.key_of_lt (hlt.2.trans_le hn)] at hlow
    exact hhole.close hunder fun k h0 hk hp => hlow.le.trans (lesser_le hj hn k h0 hk hp)
  | case2 h i hi hn hj j hlt hlow ih =>
    rw [siftdownLoop, dif_pos hj, if_neg hlow]
    rw [← h.key_of_lt hi, ← h.key_of_lt (hlt.2.trans_le hn), not_lt] at hlow
    obtain ⟨hhole', hunder'⟩ := hhole.down (by omega) hlt.2 lesser_parent (lesser_le hj hn) hlow
    rw [← h.key_swapNode hi (hlt.2.trans_le hn)] at hhole' hunder'
    exact ih hhole' hunder'
  | case3 h i hi hn hj =>
    rw [siftdownLoop, dif_neg hj]
    refine hhole.close hunder fun k h0 hk hp => ?_
    rw [HeapOrder.parent_eq_iff h0] at hp
    omega

theorem siftdownLoop_le (h : TimerHeap C) (i n : Nat) (hi : i < h.heap.size) (hn : n ≤ h.heap.size) :
    i ≤ (h.siftdownLoop i n hi hn).2 := by
  induction h, i, hi, hn using siftdownLoop.induct (n := n) with
  | case1 h i hi hn hj j hlt hlow => rw [siftdownLoop, dif_pos hj, if_pos hlow]
  | case2 h i hi hn hj j hlt hlow ih =>
    rw [siftdownLoop, dif_pos hj, if_neg hlow]
    exact hlt.1.le.trans ih
  | case3 h i hi hn hj => rw [siftdownLoop, dif_neg hj]

/-- `siftdown_` leaves a key that is not above its children, or moves it and restores the order. -/
theorem siftdown_cases (h : TimerHeap C) (i n : Nat) (hi : i < h.heap.size) (hn : n ≤ h.heap.size)
    (hhole : HeapOrder.Hole h.key n i) :
    (h.siftdown i n hi hn = (h, false) ∧ HeapOrder.Over h.key n i) ∨
      ((h.siftdown i n hi hn).2 = true ∧ HeapOrder.Ordered (h.siftdown i n hi hn).1.key n) := by
  unfold siftdown
  rw [siftdownLoop]
  by_cases hj : i * 2 + 1 < n
  · have hlt : i < h.lesser i n hj hn ∧ h.lesser i n hj hn < n := lesser_lt
    have hjs := hlt.2.trans_le hn
    rw [dif_pos hj]
    dsimp only
    by_cases hlow : h.heap[i].expire < h.heap[h.lesser i n hj hn].expire
    · rw [if_pos hlow]
      rw [← h.key_of_lt hi, ← h.key_of_lt hjs] at hlow
      refine .inl ⟨by simp, fun k h0 hk hp => ?_⟩
      exact hlow.le.trans (lesser_le hj hn k h0 hk hp)
    · rw [if_neg hlow]
      rw [← h.key_of_lt hi, ← h.key_of_lt hjs, not_lt] at hlow
      obtain ⟨hhole', hunder'⟩ := hhole.down (by omega) hlt.2 lesser_parent (lesser_le hj hn) hlow
      rw [← h.key_swapNode hi hjs] at hhole' hunder'
      refine .inr ⟨?_, siftdownLoop_ordered _ _ n _ _ hhole' hunder'⟩
      rw [decide_eq_true_eq]
      exact hlt.1.trans_le (siftdownLoop_le ..)
  · rw [dif_neg hj]
    refine .inl ⟨by simp, fun k h0 hk hp => ?_⟩
    rw [HeapOrder.parent_eq_iff h0] at hp
    omega

/-- Wherever a key was replaced, down or else up restores the order. -/
theorem sift_ordered (h : TimerHeap C) (i n : Nat) (hi : i < h.heap.size) (hn : n ≤ h.heap.size) (hin : i < n)
    (hmax : i < 2 ^ 32) (hhole : HeapOrder.Hole h.key n i) : HeapOrder.Ordered (h.sift i n hi hn).key n := by
  unfold sift
  rcases h.siftdown_cases i n hi hn hhole with ⟨hstay, hover⟩ | ⟨hmoved, hord⟩
  · simp only [hstay, Bool.false_eq_true, if_false]
    exact siftup_ordered h i hi hin hmax hhole hover
  · simp only [hmoved, if_true]
    exact hord

/-! ## The operations -/

/-- The heap is in order by expiry. -/
def Ordered (h : TimerHeap C) : Prop := HeapOrder.Ordered h.key h.heap.size

/-- What an operation leaves: a table that fits, the timers it should, and the order if it
    was there and `keep` holds. -/
structure Becomes (h : TimerHeap C) (keep : Prop) (m : Fd → Option (Timer C)) (h' : TimerHeap C) : Prop where
  indexed : Indexed h'
  timers : h'.timers = m
  ordered : Ordered h → keep → Ordered h'

theorem key_set (h : TimerHeap C) {i : Nat} (hi : i < h.heap.size) (t : Timer C) (ref : Fd → Option Nat) :
    ∀ k, k ≠ i → (⟨h.heap.set i t, ref⟩ : TimerHeap C).key k = h.key k := by
  intro k hk
  simp only [key, Array.getElem?_set, if_neg (Ne.symm hk)]

/-- A timer replaced by one of the same descriptor. -/
theorem set_becomes (hx : Indexed h) (hi : i < h.heap.size) {t : Timer C} (ht : h.ref t.fd = some i) :
    Indexed ⟨h.heap.set i t, h.ref⟩ ∧
      (⟨h.heap.set i t, h.ref⟩ : TimerHeap C).timers = Function.update h.timers t.fd (some t) := by
  refine ⟨?_, ?_⟩
  · intro fd k
    simp only [Array.getElem?_set]
    split
    · rename_i hik
      subst hik
      rw [hx fd i, (hx t.fd i).mp ht, Option.map_some]
    · exact hx fd k
  · funext fd
    simp only [timers, Function.update_apply]
    by_cases hfd : fd = t.fd
    · rw [if_pos hfd, hfd, ht, Option.bind_some, Array.getElem?_set_self]
    · rw [if_neg hfd]
      cases hr : h.ref fd with
      | none => rfl
      | some k =>
        have hik : i ≠ k := by
          intro hik
          subst hik
          rw [hx, (hx t.fd i).mp ht] at hr
          exact hfd (Option.some.inj hr).symm
        rw [Option.bind_some, Option.bind_some, Array.getElem?_set_ne hi hik]

theorem push_new_becomes (hx : Indexed h) (t : Timer C) (ht : h.ref t.fd = none) :
    Indexed ⟨h.heap.push t, Function.update h.ref t.fd (some h.heap.size)⟩ ∧
      (⟨h.heap.push t, Function.update h.ref t.fd (some h.heap.size)⟩ : TimerHeap C).timers =
        Function.update h.timers t.fd (some t) := by
  refine ⟨?_, ?_⟩
  · intro fd k
    have hk := hx fd k
    have hlt : h.ref fd = some k → k < h.heap.size := hx.lt
    simp only [Array.getElem?_push, Function.update_apply]
    by_cases hfd : fd = t.fd
    · subst hfd
      rw [if_pos rfl]
      split
      · simp_all
      · rename_i hne
        rw [← hk, ht]
        simp only [Option.some.injEq, reduceCtorEq, iff_false]
        exact fun h => hne h.symm
    · rw [if_neg hfd]
      split
      · rename_i hk'
        subst hk'
        refine iff_of_false (fun hr => absurd (hlt hr) (lt_irrefl _)) ?_
        simpa using Ne.symm hfd
      · exact hk
  · funext fd
    simp only [timers, Function.update_apply]
    by_cases hfd : fd = t.fd
    · rw [if_pos hfd, if_pos hfd, Option.bind_some, Array.getElem?_push_size]
    · rw [if_neg hfd, if_neg hfd]
      cases hr : h.ref fd with
      | none => rfl
      | some k =>
        have hlt := hx.lt hr
        rw [Option.bind_some, Option.bind_some, Array.getElem?_push, if_neg (by omega)]

theorem push_becomes (hx : Indexed h) (t : Timer C) :
    ∃ h', h.push t = .ok h' ∧ Becomes h True (Function.update h.timers t.fd (some t)) h' := by
  unfold push
  cases hr : h.ref t.fd with
  | none =>
    obtain ⟨hx', ht'⟩ := push_new_becomes hx t hr
    have hlt : h.heap.size < (h.heap.push t).size := by
      rw [Array.size_push]
      omega
    have hs := siftup_swaps ⟨h.heap.push t, Function.update h.ref t.fd (some h.heap.size)⟩ h.heap.size hlt hlt
    refine ⟨_, rfl, hs.indexed hx', (hs.timers hx').trans ht', fun ho _ => ?_⟩
    have hmax := hx.size_le
    have hkey : ∀ k, k < h.heap.size →
      (⟨h.heap.push t, Function.update h.ref t.fd (some h.heap.size)⟩ : TimerHeap C).key k =
        h.key k := by
      intro k hk
      simp only [key, Array.getElem?_push, if_neg (show ¬ k = h.heap.size by omega)]
    unfold Ordered
    rw [hs.size, Array.size_push]
    exact siftup_ordered _ _ hlt (by omega) (by omega) (HeapOrder.Ordered.congr ho hkey).hole_last HeapOrder.over_last
  | some i =>
    have hi := hx.lt hr
    obtain ⟨hx', ht'⟩ := set_becomes hx hi hr
    have hi' : i < (h.heap.set i t).size := by rwa [Array.size_set]
    have hs := sift_swaps ⟨h.heap.set i t, h.ref⟩ i h.heap.size hi' (by rw [Array.size_set]) hi
    rw [Option.elim_some, dif_pos hi]
    refine ⟨_, rfl, hs.indexed hx', (hs.timers hx').trans ht', fun ho _ => ?_⟩
    have hmax := hx.size_le
    unfold Ordered
    rw [hs.size, Array.size_set]
    exact sift_ordered _ i _ hi' _ hi (by omega) (HeapOrder.Ordered.hole ho hi fun k _ hk => h.key_set hi t _ k hk)

/-- A changed expiry only sinks, so it must not be earlier than the one above. -/
theorem adjust_under (hx : Indexed h) (fd : Fd) (expire : Nat) :
    ∃ h', h.adjust fd expire = .ok h' ∧
      Becomes h (∀ i, h.ref fd = some i → 0 < i → h.key (HeapOrder.parent i) ≤ expire)
        (Function.update h.timers fd ((h.timers fd).map fun t => { t with expire := expire })) h' := by
  unfold adjust
  cases hr : h.ref fd with
  | none =>
    refine ⟨h, rfl, hx, ?_, fun ho _ => ho⟩
    have hn := (timers_eq_none hx).mpr hr
    rw [hn, Option.map_none, ← hn, Function.update_eq_self]
  | some i =>
    have hi := hx.lt hr
    obtain ⟨u, hu, hfd⟩ := hx.timer hr
    have htm : h.timers fd = some u := by rw [timers, hr, Option.bind_some, hu]
    have hget : h.heap[i] = u := by
      rw [Array.getElem?_eq_getElem hi] at hu
      exact Option.some.inj hu
    rw [Option.elim_some, dif_pos hi]
    have hr' : h.ref ({ h.heap[i] with expire := expire } : Timer C).fd = some i := by rw [hget, ← hr, ← hfd]
    obtain ⟨hx', ht'⟩ := set_becomes hx hi hr'
    have hi' : i < (h.heap.set i { h.heap[i] with expire := expire }).size := by rwa [Array.size_set]
    have hs := siftdownLoop_swaps ⟨h.heap.set i { h.heap[i] with expire := expire }, h.ref⟩ i h.heap.size hi'
      (by rw [Array.size_set]) hi
    refine ⟨_, rfl, hs.indexed hx', ?_, fun ho hle => ?_⟩
    · rw [siftdown, hs.timers hx', ht', htm, hget, hfd]
      rfl
    · have hmax := hx.size_le
      have hother := h.key_set hi { h.heap[i] with expire := expire } h.ref
      unfold Ordered
      rw [siftdown, hs.size, Array.size_set]
      refine siftdownLoop_ordered _ i _ hi' _ (HeapOrder.Ordered.hole ho hi fun k _ hk => hother k hk) fun h0 => ?_
      have hp := HeapOrder.parent_lt h0
      have hkey : (⟨h.heap.set i { h.heap[i] with expire := expire }, h.ref⟩ : TimerHeap C).key i = expire := by
        rw [key, Array.getElem?_set_self]
        rfl
      rw [hother _ (by omega), hkey]
      exact hle i rfl h0

theorem adjust_becomes (hx : Indexed h) (fd : Fd) (expire : Nat) :
    ∃ h', h.adjust fd expire = .ok h' ∧ Becomes h (∀ t, h.timers fd = some t → t.expire ≤ expire)
      (Function.update h.timers fd ((h.timers fd).map fun t => { t with expire := expire })) h' := by
  obtain ⟨h', he, hb⟩ := adjust_under hx fd expire
  refine ⟨h', he, hb.indexed, hb.timers, fun ho hle => hb.ordered ho fun i hr h0 => ?_⟩
  have hi := hx.lt hr
  have htm : h.timers fd = some h.heap[i] := by rw [timers, hr, Option.bind_some, Array.getElem?_eq_getElem hi]
  calc h.key (HeapOrder.parent i)
    _ ≤ h.key i := ho i h0 hi
    _ = h.heap[i].expire := h.key_of_lt hi
    _ ≤ expire := hle _ htm

/-- `del_`, up to the erasure. -/
theorem bringLast_spec (hx : Indexed h) (hi : i < h.heap.size) :
    Swaps h.heap.size h (h.bringLast i hi) ∧ (h.bringLast i hi).heap[h.heap.size - 1]? = some h.heap[i] ∧
      (Ordered h → HeapOrder.Ordered (h.bringLast i hi).key (h.heap.size - 1)) := by
  have hmax := hx.size_le
  unfold bringLast
  split
  · rename_i hn
    have hlast : h.heap.size - 1 < h.heap.size := by omega
    have hi' : i < (h.swapNode i (h.heap.size - 1) hi hlast).heap.size := by rwa [swapNode_size]
    have hn' : h.heap.size - 1 ≤ (h.swapNode i (h.heap.size - 1) hi hlast).heap.size := by
      rw [swapNode_size]
      omega
    have hs := sift_swaps (h.swapNode i (h.heap.size - 1) hi hlast) i (h.heap.size - 1) hi' hn' hn
    refine ⟨?_, ?_, fun ho => ?_⟩
    · exact .swap hi hlast hi hlast (hs.mono (Nat.sub_le _ 1))
    · rw [hs.beyond (Nat.le_refl _), swapNode, Array.getElem?_swap, if_pos rfl]
    · refine sift_ordered _ i _ hi' hn' hn (by omega) ?_
      refine HeapOrder.Ordered.hole (HeapOrder.Ordered.mono ho (Nat.sub_le _ 1)) hn fun k hk hki => ?_
      rw [key_swapNode, Function.comp_apply, Equiv.swap_apply_of_ne_of_ne hki (by omega)]
  · rename_i hn
    have hlast : i = h.heap.size - 1 := by omega
    refine ⟨.refl h, ?_, fun ho => HeapOrder.Ordered.mono ho (Nat.sub_le _ 1)⟩
    rw [← hlast, Array.getElem?_eq_getElem hi]

/-- The last timer, dropped. -/
theorem drop_becomes (hx : Indexed h) (ht : h.heap.back? = some t) :
    Indexed ⟨h.heap.pop, Function.update h.ref t.fd none⟩ ∧
      (⟨h.heap.pop, Function.update h.ref t.fd none⟩ : TimerHeap C).timers = Function.update h.timers t.fd none := by
  rw [Array.back?_eq_getElem?] at ht
  have hlast := hx.ref ht
  have hlt := hx.lt hlast
  refine ⟨?_, ?_⟩
  · intro fd k
    simp only [Array.getElem?_pop, Function.update_apply]
    by_cases hfd : fd = t.fd
    · rw [if_pos hfd, hfd]
      refine iff_of_false (by simp) fun hk => ?_
      split at hk
      · rw [← hx, hlast] at hk
        have := Option.some.inj hk
        omega
      · cases hk
    · rw [if_neg hfd, hx]
      split
      · rfl
      · rename_i hk
        refine iff_of_false (fun hk' => ?_) (by simp)
        have hlt' := hx.lt ((hx fd k).mpr hk')
        rw [show k = h.heap.size - 1 by omega, ht] at hk'
        exact hfd (Option.some.inj hk').symm
  · funext fd
    simp only [timers, Function.update_apply]
    by_cases hfd : fd = t.fd
    · rw [if_pos hfd, if_pos hfd]
      rfl
    · rw [if_neg hfd, if_neg hfd]
      cases hr : h.ref fd with
      | none => rfl
      | some k =>
        have hk := hx.lt hr
        have hne : k ≠ h.heap.size - 1 := by
          intro he
          obtain ⟨u, hu, hfd'⟩ := hx.timer hr
          rw [he, ht] at hu
          exact hfd (hfd'.symm.trans (congrArg Timer.fd (Option.some.inj hu).symm))
        rw [Option.bind_some, Option.bind_some, Array.getElem?_pop, if_pos (by omega)]

theorem del_becomes (hx : Indexed h) (hi : i < h.heap.size) :
    ∃ h', h.del i = .ok h' ∧ Becomes h True (Function.update h.timers h.heap[i].fd none) h' := by
  obtain ⟨hs, hlast, hord⟩ := bringLast_spec hx hi
  have hx' := hs.indexed hx
  rw [← hs.size, ← Array.back?_eq_getElem?] at hlast
  obtain ⟨hx'', ht⟩ := drop_becomes hx' hlast
  unfold del
  rw [dif_pos hi]
  dsimp only
  rw [hlast]
  dsimp only
  rw [if_pos (by rw [hx'.ref (Array.back?_eq_getElem? ▸ hlast)]; rfl)]
  refine ⟨_, rfl, hx'', by rw [ht, hs.timers hx], fun ho _ => ?_⟩
  have hsize := hs.size
  refine HeapOrder.Ordered.congr (HeapOrder.Ordered.mono (hord ho) (by rw [Array.size_pop]; omega)) fun k hk => ?_
  rw [Array.size_pop] at hk
  simp only [key, Array.getElem?_pop, if_pos hk]

theorem remove_becomes (hx : Indexed h) (fd : Fd) :
    ∃ h', h.remove fd = .ok h' ∧ Becomes h True (Function.update h.timers fd none) h' := by
  unfold remove
  cases hr : h.ref fd with
  | none =>
    refine ⟨h, rfl, hx, ?_, fun ho _ => ho⟩
    rw [← (timers_eq_none hx).mpr hr, Function.update_eq_self]
  | some i =>
    have hi := hx.lt hr
    obtain ⟨u, hu, hfd⟩ := hx.timer hr
    rw [Array.getElem?_eq_getElem hi] at hu
    rw [← hfd, ← Option.some.inj hu]
    exact del_becomes hx hi

theorem pop_becomes (hx : Indexed h) (ht : h.top = some t) :
    ∃ h', h.pop = .ok h' ∧ Becomes h True (Function.update h.timers t.fd none) h' := by
  obtain ⟨hi, hget⟩ := Array.getElem?_eq_some_iff.mp ht
  unfold pop
  rw [if_neg (by rw [Array.isEmpty_iff_size_eq_zero]; omega), ← hget]
  exact del_becomes hx hi

theorem clear_becomes (h : TimerHeap C) : Becomes h True (fun _ => none) h.clear :=
  ⟨indexed_new, rfl, fun _ _ k h0 hk => absurd hk (by simp [clear, new])⟩

theorem top_least (hx : Indexed h) (ho : Ordered h) (ht : h.top = some t) {u : Timer C} (hu : h.timers fd = some u) :
    t.expire ≤ u.expire := by
  obtain ⟨hi, rfl⟩ := Array.getElem?_eq_some_iff.mp ht
  obtain ⟨hmem, -⟩ := (timers_eq_some hx).mp hu
  obtain ⟨k, hk, rfl⟩ := Array.mem_iff_getElem.mp hmem
  rw [← h.key_of_lt hi, ← h.key_of_lt hk]
  exact HeapOrder.Ordered.least ho k hk

theorem top_timer (hx : Indexed h) (ht : h.top = some t) : h.timers t.fd = some t :=
  (timers_eq_some hx).mpr ⟨Array.mem_of_getElem? ht, rfl⟩

theorem top_none (hx : Indexed h) : h.top = none ↔ h.timers = fun _ => none := by
  constructor
  · intro ht
    funext fd
    by_contra hne
    obtain ⟨u, hu⟩ := Option.ne_none_iff_exists'.mp hne
    obtain ⟨k, hk⟩ := Array.getElem?_of_mem ((timers_eq_some hx).mp hu).1
    have hlt := (Array.getElem?_eq_some_iff.mp hk).1
    rw [top, Array.getElem?_eq_none_iff] at ht
    omega
  · intro hm
    by_contra hne
    obtain ⟨u, hu⟩ := Option.ne_none_iff_exists'.mp hne
    have htm := top_timer hx hu
    rw [hm] at htm
    cases htm

/-! ## A map with extract-minimum -/

inductive Op (C : Type) where
  | push (timer : Timer C)
  | adjust (fd : Fd) (expire : Nat)
  | remove (fd : Fd)
  | pop
  | clear

/-- What the heap does, with what `top` returns before a `pop`. -/
def apply (h : TimerHeap C) : Op C → Except Fault (Option (Timer C) × TimerHeap C)
  | .push timer => (h.push timer).map (none, ·)
  | .adjust fd expire => (h.adjust fd expire).map (none, ·)
  | .remove fd => (h.remove fd).map (none, ·)
  | .pop => h.pop.map (h.top, ·)
  | .clear => .ok (none, h.clear)

/-- A map from descriptors to timers. -/
abbrev Timers (C : Type) := Fd → Option (Timer C)

/-- The operations that are asked for: no `pop` when there is nothing, and no `adjust` to an
    earlier expiry. -/
def Timers.Allows (m : Timers C) : Op C → Prop
  | .adjust fd expire => ∀ t, m fd = some t → t.expire ≤ expire
  | .pop => m ≠ fun _ => none
  | _ => True

/-- What the operations do to a map; a `pop` takes out a timer of least expiry. -/
inductive Timers.Step : Timers C → Op C × Option (Timer C) → Timers C → Prop
  | push (m : Timers C) (timer : Timer C) : Step m (.push timer, none) (Function.update m timer.fd (some timer))
  | adjust (m : Timers C) (fd : Fd) (expire : Nat) :
      Step m (.adjust fd expire, none) (Function.update m fd ((m fd).map fun t => { t with expire := expire }))
  | remove (m : Timers C) (fd : Fd) : Step m (.remove fd, none) (Function.update m fd none)
  | pop {m : Timers C} {t : Timer C} : m t.fd = some t → (∀ fd u, m fd = some u → t.expire ≤ u.expire) →
      Step m (.pop, some t) (Function.update m t.fd none)
  | clear (m : Timers C) : Step m (.clear, none) fun _ => none

/-- A step of the heap: an operation that is allowed, and its result. -/
def Step (h : TimerHeap C) (e : Op C × Option (Timer C)) (h' : TimerHeap C) : Prop :=
  Timers.Allows h.timers e.1 ∧ h.apply e.1 = .ok (e.2, h')

/-- A heap in order whose table fits, and the map it stands for. -/
structure Refines (h : TimerHeap C) (m : Timers C) : Prop where
  indexed : Indexed h
  ordered : Ordered h
  timers : h.timers = m

theorem Becomes.stands {keep : Prop} {m : Timers C} (hb : Becomes h keep m h') (ho : Ordered h) (hk : keep) :
    Refines h' m :=
  ⟨hb.indexed, hb.ordered ho hk, hb.timers⟩

/-- An operation that is allowed returns, and does to the heap what it does to the map. -/
theorem apply_refines {m : Timers C} (hr : Refines h m) {op : Op C} (ha : m.Allows op) :
    ∃ out h' m', h.apply op = .ok (out, h') ∧ Timers.Step m (op, out) m' ∧ Refines h' m' := by
  obtain ⟨hx, ho, rfl⟩ := hr
  cases op with
  | push timer =>
    obtain ⟨h', he, hb⟩ := push_becomes hx timer
    exact ⟨none, h', _, by rw [apply, he]; rfl, .push _ _, hb.stands ho trivial⟩
  | adjust fd expire =>
    obtain ⟨h', he, hb⟩ := adjust_becomes hx fd expire
    exact ⟨none, h', _, by rw [apply, he]; rfl, .adjust _ _ _, hb.stands ho ha⟩
  | remove fd =>
    obtain ⟨h', he, hb⟩ := remove_becomes hx fd
    exact ⟨none, h', _, by rw [apply, he]; rfl, .remove _ _, hb.stands ho trivial⟩
  | pop =>
    obtain ⟨t, ht⟩ := Option.ne_none_iff_exists'.mp (mt (top_none hx).mp ha)
    obtain ⟨h', he, hb⟩ := pop_becomes hx ht
    refine ⟨some t, h', _, by rw [apply, he, ht]; rfl, .pop (top_timer hx ht) ?_, hb.stands ho trivial⟩
    exact fun fd u hu => top_least hx ho ht hu
  | clear => exact ⟨none, _, _, rfl, .clear _, h.clear_becomes.stands ho trivial⟩

theorem step_refines {m : Timers C} {e : Op C × Option (Timer C)} (hr : Refines h m) (hs : Step h e h') :
    ∃ m', Timers.Step m e m' ∧ Refines h' m' := by
  obtain ⟨ha, he⟩ := hs
  rw [hr.timers] at ha
  obtain ⟨out, h'', m', he', hstep, hr'⟩ := apply_refines hr ha
  rw [he] at he'
  cases he'
  exact ⟨m', hstep, hr'⟩

theorem refines_new : Refines (new : TimerHeap C) fun _ => none :=
  ⟨indexed_new, fun _ _ hk => absurd hk (by simp [new]), rfl⟩

theorem Indexed.nodup (hx : Indexed h) : (h.heap.toList.map (·.fd)).Nodup := by
  rw [List.nodup_iff_getElem?_ne_getElem?]
  intro i j hij hj heq
  rw [List.length_map, Array.length_toList] at hj
  rw [List.getElem?_map, List.getElem?_map, Array.getElem?_toList, Array.getElem?_toList,
    Array.getElem?_eq_getElem hj] at heq
  have hri := (hx h.heap[j].fd i).mpr heq
  rw [hx.ref (Array.getElem?_eq_getElem hj)] at hri
  have := Option.some.inj hri
  omega

/-- The heap holds one timer of the descriptor. -/
theorem Indexed.filter (hx : Indexed h) (ht : h.timers fd = some t) : h.heap.toList.filter (·.fd = fd) = [t] := by
  obtain ⟨hmem, rfl⟩ := (timers_eq_some hx).mp ht
  have hunique : ∀ l : List (Timer C), (l.map (·.fd)).Nodup → t ∈ l → l.filter (·.fd = t.fd) = [t] := by
    intro l
    induction l with
    | nil =>
      intro _ hl
      cases hl
    | cons u l ih =>
      intro hn hl
      rw [List.map_cons, List.nodup_cons] at hn
      rcases List.mem_cons.mp hl with rfl | hl
      · have hrest : l.filter (·.fd = t.fd) = [] := by
          rw [List.filter_eq_nil_iff]
          intro v hv hfd
          exact hn.1 (List.mem_map.mpr ⟨v, hv, by simpa using hfd⟩)
        rw [List.filter_cons_of_pos (by simp), hrest]
      · have hne : u.fd ≠ t.fd := fun hne => hn.1 (List.mem_map.mpr ⟨t, hl, hne.symm⟩)
        rw [List.filter_cons_of_neg (by simpa using hne), ih hn.2 hl]
  exact hunique h.heap.toList hx.nodup (Array.mem_toList_iff.mpr hmem)

/-! ## Draining -/

def pushes (ts : List (Timer C)) : List (Op C × Option (Timer C)) := ts.map fun t => (.push t, none)

def pops (ts : List (Timer C)) : List (Op C × Option (Timer C)) := ts.map fun t => (.pop, some t)

/-- The last timer of the list for a descriptor. -/
def lastOf (ts : List (Timer C)) (fd : Fd) : Option (Timer C) := ts.reverse.find? (·.fd = fd)

theorem run_pushes {ts : List (Timer C)} : ∀ {m m' : Timers C}, Labelled.Run Timers.Step m (pushes ts) m' →
    ∀ fd, m' fd = (lastOf ts fd).or (m fd) := by
  induction ts with
  | nil =>
    intro m m' h fd
    cases h
    rfl
  | cons t ts ih =>
    intro m m' h fd
    cases h with
    | cons hs h =>
      cases hs
      rw [ih h fd, lastOf, lastOf, List.reverse_cons, List.find?_append, Option.or_assoc]
      congr 1
      by_cases hfd : t.fd = fd
      · simp [hfd]
      · simp [hfd, Function.update_of_ne (Ne.symm hfd)]

/-- What is popped from a map until it is empty. -/
structure Drains (m : Timers C) (ts : List (Timer C)) : Prop where
  sorted : ts.Pairwise (·.expire ≤ ·.expire)
  once : (ts.map (·.fd)).Nodup
  mem : ∀ t, t ∈ ts ↔ m t.fd = some t

theorem run_pops {ts : List (Timer C)} : ∀ {m : Timers C}, Labelled.Run Timers.Step m (pops ts) (fun _ => none) →
    Drains m ts := by
  induction ts with
  | nil =>
    intro m h
    cases h
    exact ⟨.nil, .nil, by simp⟩
  | cons t ts ih =>
    intro m h
    cases h with
    | cons hs h =>
      cases hs with
      | pop ht hleast =>
        obtain ⟨hsort, honce, hmem⟩ := ih h
        have hin : ∀ u ∈ ts, u.fd ≠ t.fd ∧ m u.fd = some u := by
          intro u hu
          have hm := (hmem u).mp hu
          by_cases hfd : u.fd = t.fd
          · rw [hfd, Function.update_self] at hm
            cases hm
          · rw [Function.update_of_ne hfd] at hm
            exact ⟨hfd, hm⟩
        refine ⟨List.pairwise_cons.mpr ⟨fun u hu => hleast _ u (hin u hu).2, hsort⟩, ?_, fun u => ?_⟩
        · rw [List.map_cons, List.nodup_cons]
          refine ⟨fun hmem' => ?_, honce⟩
          obtain ⟨u, hu, hfd⟩ := List.mem_map.mp hmem'
          exact (hin u hu).1 hfd
        · rw [List.mem_cons]
          constructor
          · intro hu
            rcases hu with rfl | hu
            · exact ht
            · exact (hin u hu).2
          · intro hu
            by_cases hfd : u.fd = t.fd
            · rw [hfd, ht] at hu
              exact .inl (Option.some.inj hu).symm
            · exact .inr ((hmem u).mpr (by rw [Function.update_of_ne hfd, hu]))

theorem pop_size (hx : Indexed h) (he : h.pop = .ok h') : h'.heap.size < h.heap.size := by
  unfold pop at he
  split at he
  · cases he
  · rename_i hne
    have hi : 0 < h.heap.size := by
      rw [Array.isEmpty_iff_size_eq_zero] at hne
      omega
    have hs := (bringLast_spec hx hi).1.size
    unfold del at he
    rw [dif_pos hi] at he
    dsimp only at he
    split at he
    · split at he
      · cases he
        rw [Array.size_pop]
        omega
      · cases he
    · cases he

theorem empty_iff (hx : Indexed h) : h.empty = true ↔ h.timers = fun _ => none := by
  rw [← top_none hx, empty, Array.isEmpty_iff_size_eq_zero, top, Array.getElem?_eq_none_iff, Nat.le_zero]

/-- Popping comes to an end. -/
theorem exists_drain : ∀ {h : TimerHeap C} {m : Timers C}, Refines h m →
    ∃ ts h', Labelled.Run Step h (pops ts) h' ∧ h'.empty = true := by
  intro h
  induction hn : h.heap.size using Nat.strongRecOn generalizing h with
  | ind n ih =>
    intro m hr
    by_cases he : h.empty = true
    · exact ⟨[], h, .nil h, he⟩
    · have ha : Timers.Allows h.timers .pop := fun h0 => he ((empty_iff hr.indexed).mpr h0)
      obtain ⟨out, h', m', happ, hs, hr'⟩ := apply_refines hr (hr.timers ▸ ha)
      have hpop : h.pop = .ok h' := by
        rw [apply] at happ
        cases hp : h.pop with
        | error f =>
          rw [hp] at happ
          cases happ
        | ok g =>
          rw [hp] at happ
          exact congrArg Except.ok (congrArg Prod.snd (Except.ok.inj happ))
      obtain ⟨ts, h'', hrun, hempty⟩ := ih _ (hn ▸ pop_size hr.indexed hpop) rfl hr'
      cases hs with
      | @pop t _ _ => exact ⟨t :: ts, h'', .cons ⟨ha, happ⟩ hrun, hempty⟩

theorem exists_pushes (ts : List (Timer C)) : ∀ {h : TimerHeap C} {m : Timers C}, Refines h m →
    ∃ h' m', Labelled.Run Step h (pushes ts) h' ∧ Refines h' m' := by
  induction ts with
  | nil => exact fun hr => ⟨_, _, .nil _, hr⟩
  | cons t ts ih =>
    intro h m hr
    obtain ⟨out, h1, m1, happ, hs, hr1⟩ := apply_refines hr (show m.Allows (.push t) from trivial)
    cases hs
    obtain ⟨h', m', hrun, hr'⟩ := ih hr1
    exact ⟨h', m', .cons ⟨trivial, happ⟩ hrun, hr'⟩

theorem drain_refines {ts us : List (Timer C)} (h : Labelled.Run Step new (pushes ts ++ pops us) h')
    (he : h'.empty = true) :
    Drains (lastOf ts) us := by
  obtain ⟨m', hrun, hr⟩ := h.simulates (fun _ _ _ _ => step_refines) refines_new
  obtain ⟨m, hpush, hpop⟩ := hrun.split
  rw [← hr.timers, (empty_iff hr.indexed).mp he] at hpop
  have hm : m = lastOf ts := funext fun fd => by rw [run_pushes hpush fd, Option.or_none]
  exact hm ▸ run_pops hpop

/-- What is seen of a heap that stands for a map. -/
structure Represents (h : TimerHeap C) (m : Timers C) : Prop where
  ordered : ∀ i, 0 < i → ∀ (hi : i < h.heap.size), h.heap[(i - 1) / 2].expire ≤ h.heap[i].expire
  once : (h.heap.toList.map (·.fd)).Nodup
  mem : ∀ t, t ∈ h.heap ↔ m t.fd = some t
  top : ∀ t, h.top = some t → m t.fd = some t ∧ ∀ fd u, m fd = some u → t.expire ≤ u.expire
  empty : h.empty = true ↔ m = fun _ => none

theorem Refines.represents {m : Timers C} (hr : Refines h m) : Represents h m := by
  obtain ⟨hx, ho, rfl⟩ := hr
  refine ⟨fun i h0 hi => ?_, hx.nodup, fun t => ?_, fun t ht => ?_, empty_iff hx⟩
  · rw [← h.key_of_lt hi, ← h.key_of_lt (by omega)]
    exact ho i h0 hi
  · rw [timers_eq_some hx]
    exact ⟨fun hm => ⟨hm, rfl⟩, fun hm => hm.1⟩
  · exact ⟨top_timer hx ht, fun fd u hu => top_least hx ho ht hu⟩

/-- Whatever is asked of it that is allowed, the heap stands for the map it should, and is
    ready for the next operation; draining it yields each timer once, in order. -/
theorem refines :
    (∀ (es : List (Op C × Option (Timer C))) (h : TimerHeap C), Labelled.Run Step new es h →
      ∃ m, Labelled.Run Timers.Step (fun _ => none) es m ∧ Represents h m ∧
        ∀ op, m.Allows op → ∃ out h', Step h (op, out) h') ∧
    ∀ ts : List (Timer C), ∃ us h', Labelled.Run Step new (pushes ts ++ pops us) h' ∧ h'.empty = true ∧
      Drains (lastOf ts) us := by
  refine ⟨fun es h hrun => ?_, fun ts => ?_⟩
  · obtain ⟨m, hm, hr⟩ := hrun.simulates (fun _ _ _ _ => step_refines) refines_new
    refine ⟨m, hm, hr.represents, fun op ha => ?_⟩
    obtain ⟨out, h', -, he, -, -⟩ := apply_refines hr ha
    exact ⟨out, h', hr.timers ▸ ha, he⟩
  · obtain ⟨h, m, hpush, hr⟩ := exists_pushes ts refines_new
    obtain ⟨us, h', hpop, hempty⟩ := exists_drain hr
    have hrun := hpush.append hpop
    exact ⟨us, h', hrun, hempty, drain_refines hrun hempty⟩

theorem refines_two : ∃ us, ∃ h' : TimerHeap Unit, ∃ m,
    Labelled.Run Step new (pushes [⟨3, 5, ()⟩, ⟨4, 2, ()⟩] ++ pops us) h' ∧ Represents h' m ∧
      Drains (lastOf [⟨3, 5, ()⟩, ⟨4, 2, ()⟩]) us := by
  obtain ⟨us, h', hrun, -, hd⟩ := refines.2 ([⟨3, 5, ()⟩, ⟨4, 2, ()⟩] : List (Timer Unit))
  obtain ⟨m, -, hm, -⟩ := refines.1 _ _ hrun
  exact ⟨us, h', m, hrun, hm, hd⟩

end TimerHeap

end HahaWeb
