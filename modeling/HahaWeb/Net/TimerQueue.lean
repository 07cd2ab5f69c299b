/-
  HahaWeb.Net.TimerQueue — `net/TimerQueue`: an expiry changed, and the timers that are due.

  `adjust` sinks a timer and never lifts it. Proved: it leaves the heap in order exactly
  when the new expiry is not earlier than the one above (`adjust_ordered_iff`); and
  `handleTimeout` fires the timers that are due, each once, in order, and leaves the others
  in a heap in order (`handleTimeout_fires`).

  A callback acts on the rest of the world, not on the heap. Not modelled: the read of the
  timerfd, whose failure is only logged.
-/

import HahaWeb.Net.TimerHeap

namespace HahaWeb

namespace TimerHeap

variable {C : Type} {h : TimerHeap C} {m : Timers C} {t : Timer C} {fd : Fd} {i n : Nat}

/-! ## A heap of two -/

theorem two_timers : ∃ h : TimerHeap Unit, ∃ m : Timers Unit, Refines h m ∧ m 4 = some ⟨4, 7, ()⟩ ∧
    h.ref 4 = some 1 ∧ ∃ hi : 0 < h.heap.size, h.heap[0] = ⟨3, 5, ()⟩ := by
  let h : TimerHeap Unit :=
    ⟨#[⟨3, 5, ()⟩, ⟨4, 7, ()⟩], fun fd => if fd = 3 then some 0 else if fd = 4 then some 1 else none⟩
  have hx : Indexed h := by
    intro fd i
    match i with
    | 0 => simp only [h]; grind
    | 1 => simp only [h]; grind
    | i + 2 => simp only [h]; grind
  have ho : Ordered h := by
    intro k h0 hk
    have hk1 : k = 1 := by
      have hsize : h.heap.size = 2 := rfl
      omega
    rw [hk1]
    decide
  exact ⟨h, h.timers, ⟨hx, ho, rfl⟩, rfl, rfl, by decide, rfl⟩

/-! ## An expiry changed -/

/-- A timer that is earlier than its children does not sink. -/
theorem siftdown_stays (hi : i < h.heap.size) (hn : n ≤ h.heap.size)
    (hover : ∀ k, 0 < k → k < n → HeapOrder.parent k = i → h.key i < h.key k) :
    h.siftdown i n hi hn = (h, false) := by
  unfold siftdown
  rw [siftdownLoop]
  by_cases hj : i * 2 + 1 < n
  · have hlt : i < h.lesser i n hj hn ∧ h.lesser i n hj hn < n := lesser_lt
    have hlow := hover (h.lesser i n hj hn) (by omega) hlt.2 lesser_parent
    rw [h.key_of_lt hi, h.key_of_lt (hlt.2.trans_le hn)] at hlow
    rw [dif_pos hj]
    dsimp only
    rw [if_pos hlow]
    simp
  · rw [dif_neg hj]
    simp

/-- A timer made earlier than the one above it stays below it. -/
theorem adjust_disorders (hx : Indexed h) (ho : Ordered h) {expire : Nat} (href : h.ref fd = some i) (h0 : 0 < i)
    (hearly : expire < h.key (HeapOrder.parent i)) : ∃ h', h.adjust fd expire = .ok h' ∧ ¬ Ordered h' := by
  have hi : i < h.heap.size := hx.lt href
  have hp : HeapOrder.parent i < i := HeapOrder.parent_lt h0
  -- the heap with the new expiry: below it nothing is earlier than what was above
  let g : TimerHeap C := ⟨h.heap.set i { h.heap[i] with expire := expire }, h.ref⟩
  have hother : ∀ k, k ≠ i → g.key k = h.key k := h.key_set hi { h.heap[i] with expire := expire } h.ref
  have hself : g.key i = expire := by
    simp only [g]
    rw [key, Array.getElem?_set_self]
    rfl
  have hhole : HeapOrder.Hole g.key h.heap.size i := HeapOrder.Ordered.hole ho hi fun k _ hk => hother k hk
  have hstay : g.siftdown i h.heap.size (by rwa [Array.size_set]) (by rw [Array.size_set]) = (g, false) := by
    apply siftdown_stays
    intro k hk0 hk hpk
    calc g.key i
      _ = expire := hself
      _ < h.key (HeapOrder.parent i) := hearly
      _ = g.key (HeapOrder.parent i) := (hother _ (by omega)).symm
      _ ≤ g.key k := hhole.across h0 k hk0 hk hpk
  refine ⟨g, ?_, fun hg => ?_⟩
  · unfold adjust
    rw [href, Option.elim_some, dif_pos hi]
    exact congrArg (fun r : TimerHeap C × Bool => Except.ok r.1) hstay
  · have hbad := hg i h0 (by rw [Array.size_set]; exact hi)
    rw [hself, hother _ (by omega)] at hbad
    omega

/-- `adjust` leaves the heap in order exactly when the new expiry is not earlier than the one
    above the timer. -/
theorem adjust_ordered_iff (hr : Refines h m) (hm : m fd = some t) (expire : Nat) :
    (∃ h', h.adjust fd expire = .ok h' ∧ Refines h' (Function.update m fd (some { t with expire := expire }))) ↔
      ∀ i above, h.ref fd = some i → 0 < i → h.heap[(i - 1) / 2]? = some above → above.expire ≤ expire := by
  obtain ⟨hx, ho, rfl⟩ := hr
  constructor
  · intro hadj i above href h0 habove
    obtain ⟨h', he, hr'⟩ := hadj
    obtain ⟨hp, rfl⟩ := Array.getElem?_eq_some_iff.mp habove
    by_contra hearly
    rw [not_le, ← h.key_of_lt hp] at hearly
    obtain ⟨g, hg, hbad⟩ := adjust_disorders hx ho href h0 hearly
    rw [he] at hg
    cases hg
    exact hbad hr'.ordered
  · intro hle
    obtain ⟨h', he, hb⟩ := adjust_under hx fd expire
    rw [hm, Option.map_some] at hb
    refine ⟨h', he, hb.stands ho fun i href h0 => ?_⟩
    have hi := hx.lt href
    have hp : HeapOrder.parent i < i := HeapOrder.parent_lt h0
    rw [h.key_of_lt (by omega)]
    exact hle i _ href h0 (Array.getElem?_eq_getElem (by omega))

theorem adjust_ordered_later : ∃ h : TimerHeap Unit, ∃ m : Timers Unit, Refines h m ∧
    ∃ h', h.adjust 4 6 = .ok h' ∧ Refines h' (Function.update m 4 (some ⟨4, 6, ()⟩)) := by
  obtain ⟨h, m, hr, hm, href, hi, h0⟩ := two_timers
  refine ⟨h, m, hr, (adjust_ordered_iff hr hm 6).mpr fun i above hri _ habove => ?_⟩
  have h1 : i = 1 := Option.some.inj (hri.symm.trans href)
  subst h1
  obtain ⟨_, rfl⟩ := Array.getElem?_eq_some_iff.mp habove
  simp [h0]

/-- An expiry changed from 7 to 2, below one of 5. -/
theorem adjust_earlier_disorders :
    ¬ ∀ (h : TimerHeap Unit) (m : Timers Unit) (fd : Fd) (t : Timer Unit) (expire : Nat),
      Refines h m → m fd = some t →
      ∃ h', h.adjust fd expire = .ok h' ∧ Refines h' (Function.update m fd (some { t with expire := expire })) := by
  intro hall
  obtain ⟨h, m, hr, hm, href, hi, h0⟩ := two_timers
  obtain ⟨h', he, hr'⟩ := hall h m 4 _ 2 hr hm
  obtain ⟨hx, ho, rfl⟩ := hr
  have hearly : 2 < h.key (HeapOrder.parent 1) := by
    have hp : HeapOrder.parent 1 = 0 := rfl
    rw [hp, h.key_of_lt hi, h0]
    decide
  obtain ⟨g, hg, hbad⟩ := adjust_disorders hx ho href (by decide) hearly
  rw [he] at hg
  cases hg
  exact hbad hr'.ordered

/-! ## What is due -/

variable {σ : Type} {now : Nat}

/-- The loop of `handleTimeout`, for a number of rounds; `call` is what a callback does. -/
def fire (call : C → σ → σ) (now : Nat) : Nat → TimerHeap C → σ → Except Fault (TimerHeap C × σ)
  | 0, _, _ => .error .hang
  | rounds + 1, h, s =>
    h.top.elim (.ok (h, s)) fun timer =>
      if timer.expire ≤ now then h.pop.bind fun h => fire call now rounds h (call timer.cb s) else .ok (h, s)

/-- The last round is the one that finds no timer due. -/
def handleTimeout (call : C → σ → σ) (h : TimerHeap C) (now : Nat) (s : σ) : Except Fault (TimerHeap C × σ) :=
  fire call now (h.heap.size + 1) h s

/-- What fires of a map: the timers that are due, each once, in order of expiry. -/
structure Fires (m : Timers C) (now : Nat) (ts : List (Timer C)) : Prop where
  sorted : ts.Pairwise (·.expire ≤ ·.expire)
  once : (ts.map (·.fd)).Nodup
  due : ∀ t, t ∈ ts ↔ m t.fd = some t ∧ t.expire ≤ now

/-- What is left of a map. -/
def Timers.pending (m : Timers C) (now : Nat) : Timers C := fun fd => (m fd).filter (now < ·.expire)

/-- When the first timer is not due, none is. -/
theorem Fires.nil (hr : Refines h m) (hlate : ∀ t, h.top = some t → now < t.expire) :
    Fires m now [] ∧ m.pending now = m := by
  obtain ⟨hx, ho, rfl⟩ := hr
  have hall : ∀ fd u, h.timers fd = some u → now < u.expire := by
    intro fd u hu
    cases ht : h.top with
    | none =>
      rw [(top_none hx).mp ht] at hu
      cases hu
    | some t => exact (hlate t ht).trans_le (top_least hx ho ht hu)
  refine ⟨⟨.nil, .nil, fun t => ?_⟩, ?_⟩
  · refine iff_of_false List.not_mem_nil fun hdue => ?_
    have := hall _ t hdue.1
    omega
  · funext fd
    cases hu : h.timers fd with
    | none => simp [Timers.pending, hu]
    | some u => simp [Timers.pending, hu, hall fd u hu]

/-- The first timer is due, and then those of what it leaves. -/
theorem Fires.cons {ts : List (Timer C)} (ht : m t.fd = some t) (hdue : t.expire ≤ now)
    (hleast : ∀ fd u, m fd = some u → t.expire ≤ u.expire) (hf : Fires (Function.update m t.fd none) now ts) :
    Fires m now (t :: ts) := by
  have hmem : ∀ u ∈ ts, u.fd ≠ t.fd ∧ m u.fd = some u ∧ u.expire ≤ now := by
    intro u hu
    obtain ⟨hm, hd⟩ := (hf.due u).mp hu
    have hfd : u.fd ≠ t.fd := by
      intro hfd
      rw [hfd, Function.update_self] at hm
      cases hm
    rw [Function.update_of_ne hfd] at hm
    exact ⟨hfd, hm, hd⟩
  refine ⟨?_, ?_, fun u => ?_⟩
  · exact List.pairwise_cons.mpr ⟨fun u hu => hleast _ u (hmem u hu).2.1, hf.sorted⟩
  · rw [List.map_cons, List.nodup_cons]
    refine ⟨fun hin => ?_, hf.once⟩
    obtain ⟨u, hu, hfd⟩ := List.mem_map.mp hin
    exact (hmem u hu).1 hfd
  · rw [List.mem_cons]
    constructor
    · intro hu
      rcases hu with rfl | hu
      · exact ⟨ht, hdue⟩
      · exact (hmem u hu).2
    · intro hu
      by_cases hfd : u.fd = t.fd
      · left
        rw [hfd, ht] at hu
        exact (Option.some.inj hu.1).symm
      · right
        rw [hf.due, Function.update_of_ne hfd]
        exact hu

theorem Timers.pending_fired (ht : m t.fd = some t) (hdue : t.expire ≤ now) :
    Timers.pending (Function.update m t.fd none) now = m.pending now := by
  funext fd
  unfold pending
  by_cases hfd : fd = t.fd
  · rw [hfd, Function.update_self, ht, Option.filter_some_neg (by simpa using hdue)]
    rfl
  · rw [Function.update_of_ne hfd]

theorem fire_fires (call : C → σ → σ) (now : Nat) : ∀ {rounds : Nat} {h : TimerHeap C} {m : Timers C}, Refines h m →
    h.heap.size < rounds → ∀ s, ∃ ts h',
      fire call now rounds h s = .ok (h', ts.foldl (fun s t => call t.cb s) s) ∧
      Fires m now ts ∧ Refines h' (m.pending now) := by
  intro rounds
  induction rounds with
  | zero =>
    intro h m _ hlt
    omega
  | succ rounds ih =>
    intro h m hr hlt s
    by_cases hlate : ∀ t, h.top = some t → now < t.expire
    · obtain ⟨hnil, hpend⟩ := Fires.nil hr hlate
      refine ⟨[], h, ?_, hnil, hpend.symm ▸ hr⟩
      rw [fire]
      cases ht : h.top with
      | none => rfl
      | some t =>
        rw [Option.elim_some, if_neg (not_le.mpr (hlate t ht))]
        rfl
    · push Not at hlate
      obtain ⟨t, ht, hdue⟩ := hlate
      obtain ⟨hx, ho, rfl⟩ := hr
      obtain ⟨h1, hpop, hb⟩ := pop_becomes hx ht
      have hsize : h1.heap.size < h.heap.size := pop_size hx hpop
      obtain ⟨ts, h', hfire, hts, hr'⟩ := ih (hb.stands ho trivial) (by omega) (call t.cb s)
      have htm : h.timers t.fd = some t := top_timer hx ht
      rw [Timers.pending_fired htm hdue] at hr'
      refine ⟨t :: ts, h', ?_, hts.cons htm hdue (fun fd u hu => top_least hx ho ht hu), hr'⟩
      rw [fire, ht, Option.elim_some, if_pos hdue, hpop]
      exact hfire

/-- `handleTimeout` calls the callbacks of the timers that are due, each once, in order of
    expiry, and leaves the others in a heap in order. -/
theorem handleTimeout_fires (call : C → σ → σ) (hr : Refines h m) (now : Nat) (s : σ) :
    ∃ (ts : List (Timer C)) (h' : TimerHeap C),
      h.handleTimeout call now s = .ok (h', ts.foldl (fun s t => call t.cb s) s) ∧
      ts.Pairwise (·.expire ≤ ·.expire) ∧ (ts.map (·.fd)).Nodup ∧
      (∀ t, t ∈ ts ↔ m t.fd = some t ∧ t.expire ≤ now) ∧
      Refines h' fun fd => (m fd).filter (now < ·.expire) := by
  obtain ⟨ts, h', hfire, hts, hr'⟩ := fire_fires call now hr (Nat.lt_succ_self _) s
  exact ⟨ts, h', hfire, hts.sorted, hts.once, hts.due, hr'⟩

theorem handleTimeout_fires_one : ∃ h : TimerHeap Unit, ∃ m : Timers Unit, Refines h m ∧
    ∃ (ts : List (Timer Unit)) (h' : TimerHeap Unit),
      h.handleTimeout (fun _ n => n + 1) 6 0 = .ok (h', ts.foldl (fun n _ => n + 1) 0) ∧
      Refines h' fun fd => (m fd).filter (6 < ·.expire) := by
  obtain ⟨h, m, hr, -⟩ := two_timers
  obtain ⟨ts, h', hfire, -, -, -, hr'⟩ := handleTimeout_fires (fun _ n => n + 1) hr 6 0
  exact ⟨h, m, hr, ts, h', hfire, hr'⟩

end TimerHeap

end HahaWeb
