/-
  HahaWeb.Http.KeyValue — the two readers of `k=v&k=v` beside each other: `parseKeyValue` of
  `http/HttpUtil.cpp` and the query loop of `http/HttpUrl.cpp`.

  Text that is not decoded is read pair by pair, each cut at its first `=`, whether or not a
  `&` ends it; a later pair replaces an earlier one under its key (`parseKeyValue_undecoded`).
  The query loop begins a new key at every `=` and so cuts a pair at its last one, the key
  what stands between the last two. On a query without escapes the two maps are the same
  exactly when no pair with a `=` in its value shows in either of them (`agree_iff`): as a
  last pair, such a pair never agrees.
-/

import HahaWeb.Http.UrlEncoded

namespace HahaWeb

namespace UrlEncoded

open EncodeUtil (urlDecode)

/-! ## Pairs that are not decoded -/

/-- The value of the last pair with the key. -/
def lastValue (ps : List (Bytes × Bytes)) (key : Bytes) : Option Bytes :=
  (ps.filter fun p => p.1 = key).getLast?.map (·.2)

/-- A key without `=` and `&` that begins with no space, a value without `&`. -/
structure Undecoded (p : Bytes × Bytes) : Prop where
  join : 61 ∉ p.1
  split : 38 ∉ p.1
  space : p.1.head? ≠ some 32
  value : 38 ∉ p.2

theorem get_foldl_pairs (ps : List (Bytes × Bytes)) (m : HttpForm) (key : Bytes) :
    (ps.foldl (fun m p => m.add p.1 p.2) m).get key = (lastValue ps key).or (m.get key) :=
  HttpBaseMap.get_foldl_add ps m key

/-- The next pair begins right behind the `&`. -/
theorem dropWhile_unspaced {q : Bytes × Bytes} (hq : q.1.head? ≠ some 32) (ps : List (Bytes × Bytes)) (t : Bytes) :
    (pairsText id (q :: ps) ++ t).dropWhile (· == 32) = pairsText id (q :: ps) ++ t := by
  have hhead : (pairsText id (q :: ps) ++ t).head? ≠ some 32 := by
    obtain ⟨k, v⟩ := q
    have htext : ∃ w, pairsText id ((k, v) :: ps) ++ t = k ++ 61 :: w := by
      cases ps with
      | nil => exact ⟨v ++ t, by simp [pairsText]⟩
      | cons r ps => exact ⟨v ++ 38 :: (pairsText id (r :: ps) ++ t), by simp [pairsText]⟩
    obtain ⟨w, hw⟩ := htext
    rw [hw]
    cases k with
    | nil => simp
    | cons c k => exact hq
  cases hs : pairsText id (q :: ps) ++ t with
  | nil => rfl
  | cons c s =>
    have hc : (c == 32) = false := beq_eq_false_iff_ne.mpr fun hc => hhead (by rw [hs, hc, List.head?_cons])
    rw [List.dropWhile_cons, hc]
    rfl

/-- Every pair is added, with or without a `&` at the end. -/
theorem keyValueLoop_undecoded {final : Bytes} (hf : final = [] ∨ final = [38]) (ps : List (Bytes × Bytes)) :
    ∀ fuel (m : HttpForm), (∀ p ∈ ps, Undecoded p) → ps.length < fuel →
      keyValueLoop [61] [38] fuel (pairsText id ps ++ final) m = .ok (ps.foldl (fun m p => m.add p.1 p.2) m) := by
  have hend : ∀ fuel (m : HttpForm), 0 < fuel → keyValueLoop [61] [38] fuel final m = .ok m := by
    intro fuel m hpos
    obtain ⟨fuel, rfl⟩ : ∃ n, fuel = n + 1 := ⟨fuel - 1, by omega⟩
    rcases hf with rfl | rfl <;> rfl
  induction ps with
  | nil => exact fun fuel m _ hlt => hend fuel m hlt
  | cons p ps ih =>
    intro fuel m hp hlt
    have hfirst := hp p List.mem_cons_self
    obtain ⟨fuel, rfl⟩ : ∃ n, fuel = n + 1 := ⟨fuel - 1, by omega⟩
    cases ps with
    | nil =>
      rcases hf with rfl | rfl
      · rw [List.append_nil]
        exact keyValueLoop_last hfirst.join hfirst.split hfirst.value fuel m
      · calc keyValueLoop [61] [38] (fuel + 1) (pairsText id [p] ++ [38]) m
          _ = keyValueLoop [61] [38] (fuel + 1) (p.1 ++ 61 :: (p.2 ++ 38 :: [])) m := by simp [pairsText]
          _ = keyValueLoop [61] [38] fuel [] (m.add p.1 p.2) :=
            keyValueLoop_pair hfirst.join hfirst.split hfirst.value fuel [] m
          _ = .ok (m.add p.1 p.2) := by
            obtain ⟨fuel, rfl⟩ : ∃ n, fuel = n + 1 := ⟨fuel - 1, by simp at hlt; omega⟩
            rfl
    | cons q ps =>
      have hrest : ∀ r ∈ q :: ps, Undecoded r := fun r hr => hp r (List.mem_cons_of_mem p hr)
      calc keyValueLoop [61] [38] (fuel + 1) (pairsText id (p :: q :: ps) ++ final) m
        _ = keyValueLoop [61] [38] (fuel + 1) (p.1 ++ 61 :: (p.2 ++ 38 :: (pairsText id (q :: ps) ++ final))) m := by
          simp [pairsText]
        _ = keyValueLoop [61] [38] fuel ((pairsText id (q :: ps) ++ final).dropWhile (· == 32)) (m.add p.1 p.2) :=
          keyValueLoop_pair hfirst.join hfirst.split hfirst.value fuel _ m
        _ = keyValueLoop [61] [38] fuel (pairsText id (q :: ps) ++ final) (m.add p.1 p.2) := by
          rw [dropWhile_unspaced (hrest q List.mem_cons_self).space]
        _ = .ok ((p :: q :: ps).foldl (fun m p => m.add p.1 p.2) m) :=
          ih fuel (m.add p.1 p.2) hrest (by simpa using hlt)

/-- Text that is not decoded is split into its pairs, whatever their values hold. -/
theorem parseKeyValue_undecoded (ps : List (Bytes × Bytes)) (final : Bool) (m : HttpForm)
    (hp : ∀ p ∈ ps, Undecoded p) :
    ∃ m', parseKeyValue (pairsText id ps ++ if final then lit "&" else []) (lit "=") (lit "&") m false = .ok m' ∧
      ∀ key, m'.get key = (lastValue ps key).or (m.get key) := by
  refine ⟨_, ?_, get_foldl_pairs ps m⟩
  have hlen := length_le_pairsText ps
  apply keyValueLoop_undecoded _ ps _ m hp
  · simp only [Bool.false_eq_true, if_false, List.length_append]
    omega
  · cases final
    · exact .inl rfl
    · exact .inr rfl

/-- `a=1=2&=`. -/
theorem parseKeyValue_undecoded_two :
    (∀ p ∈ [(lit "a", lit "1=2"), (lit "", lit "")], Undecoded p) ∧
      ∃ m', parseKeyValue (pairsText id [(lit "a", lit "1=2"), (lit "", lit "")] ++ if true then lit "&" else [])
        (lit "=") (lit "&") .new false = .ok m' ∧
        ∀ key, m'.get key = (lastValue [(lit "a", lit "1=2"), (lit "", lit "")] key).or
          ((HttpBaseMap.new : HttpForm).get key) := by
  have hp : ∀ p ∈ [(lit "a", lit "1=2"), (lit "", lit "")], Undecoded p := by
    intro p hp
    rcases List.mem_cons.mp hp with rfl | hp
    · exact ⟨by decide, by decide, by decide, by decide⟩
    · rw [List.mem_singleton.mp hp]
      exact ⟨by decide, by decide, by decide, by decide⟩
  exact ⟨hp, parseKeyValue_undecoded [(lit "a", lit "1=2"), (lit "", lit "")] true .new hp⟩

/-! ## The query loop on the same pairs -/

/-- What stands behind the last `=`, all of it when there is none. -/
def behind (t : Bytes) : Bytes := (t.reverse.takeWhile (· != 61)).reverse

/-- What stands before the last `=`. -/
def before (t : Bytes) : Bytes := ((t.reverse.dropWhile (· != 61)).drop 1).reverse

/-- A pair cut at its last `=`; the key does not reach behind an earlier one. -/
def lastCut (p : Bytes × Bytes) : Bytes × Bytes := (behind (before (p.1 ++ 61 :: p.2)), behind (p.1 ++ 61 :: p.2))

theorem behind_of_not_mem {t : Bytes} (ht : 61 ∉ t) : behind t = t := by
  rw [behind, List.takeWhile_eq_self_iff.mpr, List.reverse_reverse]
  exact fun c hc => bne_iff_ne.mpr fun h => ht (h ▸ List.mem_reverse.mp hc)

/-- From the end, the bytes up to the last `=`. -/
theorem reverse_join {y : Bytes} (hy : 61 ∉ y) (u : Bytes) :
    (u ++ 61 :: y).reverse.takeWhile (· != 61) = y.reverse ∧
      (u ++ 61 :: y).reverse.dropWhile (· != 61) = 61 :: u.reverse := by
  have hrev : (u ++ 61 :: y).reverse = y.reverse ++ 61 :: u.reverse := by simp
  rw [hrev]
  refine takeWhile_run (fun c hc => bne_iff_ne.mpr fun h => hy (h ▸ List.mem_reverse.mp hc)) fun c hc => ?_
  cases hc
  rfl

theorem behind_append {y : Bytes} (hy : 61 ∉ y) (u : Bytes) : behind (u ++ 61 :: y) = y := by
  rw [behind, (reverse_join hy u).1, List.reverse_reverse]

theorem before_append {y : Bytes} (hy : 61 ∉ y) (u : Bytes) : before (u ++ 61 :: y) = u := by
  rw [before, (reverse_join hy u).2, List.drop_one, List.tail_cons, List.reverse_reverse]

/-- A string with a `=` in it, cut at the last one. -/
theorem exists_last_join {t : Bytes} (ht : 61 ∈ t) : ∃ u y, t = u ++ 61 :: y ∧ 61 ∉ y := by
  induction t with
  | nil => cases ht
  | cons c t ih =>
    by_cases hin : 61 ∈ t
    · obtain ⟨u, y, rfl, hy⟩ := ih hin
      exact ⟨c :: u, y, rfl, hy⟩
    · have hc : c = 61 := ((List.mem_cons.mp ht).resolve_right hin).symm
      exact ⟨[], t, by rw [hc]; rfl, hin⟩

theorem lastCut_of_not_mem {p : Bytes × Bytes} (hk : 61 ∉ p.1) (hv : 61 ∉ p.2) : lastCut p = p := by
  rw [lastCut, before_append hv, behind_append hv, behind_of_not_mem hk]

/-- The two cuts of a pair: `x=y` at the end of it, behind an earlier `=` when its value has one. -/
theorem lastCut_spec {p : Bytes × Bytes} (hk : 61 ∉ p.1) :
    61 ∉ (lastCut p).1 ∧ 61 ∉ (lastCut p).2 ∧
      ∃ u, p.1 ++ 61 :: p.2 = u ++ ((lastCut p).1 ++ 61 :: (lastCut p).2) ∧ (u = [] ∨ ∃ w, u = w ++ [61]) := by
  by_cases hv : 61 ∈ p.2
  · obtain ⟨w, y, hwy, hy⟩ := exists_last_join hv
    have htext : p.1 ++ 61 :: p.2 = (p.1 ++ 61 :: w) ++ 61 :: y := by simp [hwy]
    obtain ⟨u, x, hux, hx⟩ := exists_last_join (t := p.1 ++ 61 :: w) (by simp)
    have hcut : lastCut p = (x, y) := by
      rw [lastCut, htext, before_append hy, behind_append hy, hux, behind_append hx]
    rw [hcut]
    exact ⟨hx, hy, u ++ [61], by rw [htext, hux]; simp, .inr ⟨u, rfl⟩⟩
  · rw [lastCut_of_not_mem hk hv]
    exact ⟨hk, hv, [], rfl, .inl rfl⟩

/-- Bytes without `&` leave the loop with some key and piece. -/
theorem queryScan_through {u : Bytes} (hu : 38 ∉ u) : ∀ piece key (query : AList fun _ : Bytes => Bytes),
    ∃ piece' key', ∀ t, queryScan (u ++ t) piece key query = queryScan t piece' key' query := by
  induction u with
  | nil => exact fun piece key query => ⟨piece, key, fun t => rfl⟩
  | cons c u ih =>
    intro piece key query
    rw [List.mem_cons, not_or] at hu
    have hc38 : (c == 38) = false := beq_eq_false_iff_ne.mpr (Ne.symm hu.1)
    by_cases hc : c = 61
    · obtain ⟨piece', key', h⟩ := ih hu.2 [] piece query
      exact ⟨piece', key', fun t => by rw [hc, List.cons_append, queryScan, if_pos (by decide), h]⟩
    · obtain ⟨piece', key', h⟩ := ih hu.2 (piece ++ [c]) key query
      have hc61 : (c == 61) = false := beq_eq_false_iff_ne.mpr hc
      exact ⟨piece', key', fun t => by rw [List.cons_append, queryScan, hc61, hc38]; exact h t⟩

/-- A pair is passed with its last cut. -/
theorem queryScan_cut {p : Bytes × Bytes} (hk : 61 ∉ p.1) (hk' : 38 ∉ p.1) (hv : 38 ∉ p.2) (t : Bytes)
    (query : AList fun _ : Bytes => Bytes) :
    queryScan (p.1 ++ 61 :: (p.2 ++ t)) [] [] query = queryScan t (lastCut p).2 (lastCut p).1 query := by
  obtain ⟨hx, hy, u, htext, hu⟩ := lastCut_spec hk
  generalize (lastCut p).1 = x at *
  generalize (lastCut p).2 = y at *
  have hno : 38 ∉ u ++ (x ++ 61 :: y) := by
    rw [← htext]
    simp [hk', hv]
  simp only [List.mem_append, List.mem_cons, not_or] at hno
  obtain ⟨hu38, hx38, -, hy38⟩ := hno
  have hsplit : p.1 ++ 61 :: (p.2 ++ t) = u ++ (x ++ 61 :: (y ++ t)) := by
    calc p.1 ++ 61 :: (p.2 ++ t)
      _ = (p.1 ++ 61 :: p.2) ++ t := by simp
      _ = u ++ (x ++ 61 :: (y ++ t)) := by rw [htext]; simp
  rw [hsplit]
  rcases hu with rfl | ⟨w, rfl⟩
  · exact queryScan_pair ⟨hx, hx38⟩ ⟨hy, hy38⟩ t query
  · rw [List.mem_append, not_or] at hu38
    obtain ⟨piece, key, hthrough⟩ := queryScan_through hu38.1 [] [] query
    rw [List.append_assoc, hthrough, List.singleton_append, queryScan, if_pos (by decide)]
    -- the key of the cut begins here, whatever key and piece were before it
    rw [queryScan_append ⟨hx, hx38⟩, queryScan, if_pos (by decide), queryScan_append ⟨hy, hy38⟩]
    rfl

theorem queryScan_cuts (ps : List (Bytes × Bytes)) (hp : ∀ p ∈ ps, 61 ∉ p.1 ∧ 38 ∉ p.1 ∧ 38 ∉ p.2)
    (hlast : ∀ p ∈ ps.getLast?, (lastCut p).1 ≠ []) : ∀ query,
      queryScan (pairsText id ps) [] [] query = (ps.map lastCut).foldl (fun m p => m.insert p.1 p.2) query := by
  induction ps with
  | nil => exact fun query => rfl
  | cons p ps ih =>
    intro query
    obtain ⟨hk, hk', hv⟩ := hp p List.mem_cons_self
    cases ps with
    | nil =>
      have hkey : (lastCut p).1.isEmpty = false := List.isEmpty_eq_false_iff.mpr (hlast p rfl)
      have hscan := queryScan_cut hk hk' hv [] query
      rw [List.append_nil] at hscan
      calc queryScan (p.1 ++ 61 :: p.2) [] [] query
        _ = queryScan [] (lastCut p).2 (lastCut p).1 query := hscan
        _ = query.insert (lastCut p).1 (lastCut p).2 := by rw [queryScan, hkey]; rfl
    | cons q ps =>
      have hnext := ih (fun r hr => hp r (List.mem_cons_of_mem p hr)) (by rwa [List.getLast?_cons_cons] at hlast)
      calc queryScan (p.1 ++ 61 :: (p.2 ++ 38 :: pairsText id (q :: ps))) [] [] query
        _ = queryScan (38 :: pairsText id (q :: ps)) (lastCut p).2 (lastCut p).1 query :=
          queryScan_cut hk hk' hv _ query
        _ = queryScan (pairsText id (q :: ps)) [] [] (query.insert (lastCut p).1 (lastCut p).2) := by
          rw [queryScan, if_neg (by decide), if_pos (by decide)]
        _ = ((p :: q :: ps).map lastCut).foldl (fun m p => m.insert p.1 p.2) query := hnext _

/-! ## When the two cuts show the same map -/

theorem lastValue_eq_some {ps : List (Bytes × Bytes)} {k v : Bytes} :
    lastValue ps k = some v ↔ ∃ l r, ps = l ++ (k, v) :: r ∧ ∀ q ∈ r, q.1 ≠ k := by
  constructor
  · intro h
    obtain ⟨⟨k', v'⟩, hlast, rfl⟩ := Option.map_eq_some_iff.mp h
    obtain ⟨front, hfront⟩ := List.getLast?_eq_some_iff.mp hlast
    obtain ⟨l, s, rfl, -, hs⟩ := List.filter_eq_append_iff.mp hfront
    obtain ⟨l', r, rfl, -, hk, hr⟩ := List.filter_eq_cons_iff.mp hs
    obtain rfl : k' = k := of_decide_eq_true hk
    refine ⟨l ++ l', r, by rw [List.append_assoc], fun q hq hqk => ?_⟩
    exact List.filter_eq_nil_iff.mp hr q hq (decide_eq_true hqk)
  · intro h
    obtain ⟨l, r, rfl, hr⟩ := h
    have hnone : r.filter (fun p => p.1 = k) = [] :=
      List.filter_eq_nil_iff.mpr fun q hq hqk => hr q hq (of_decide_eq_true hqk)
    rw [lastValue, List.filter_append, List.filter_cons, if_pos (decide_eq_true rfl), hnone, List.getLast?_concat]
    rfl

theorem lastValue_eq_none {ps : List (Bytes × Bytes)} {k : Bytes} : lastValue ps k = none ↔ ∀ q ∈ ps, q.1 ≠ k := by
  simp [lastValue]

/-- What a pair with a `=` in its value must have behind it so that no reader shows it: a pair with its key, and one
    cut to the same last key, unless that key has the same value anyhow. -/
def Covered (ps : List (Bytes × Bytes)) : Prop := ∀ l p r, ps = l ++ p :: r → 61 ∈ p.2 →
  (∃ q ∈ r, q.1 = p.1) ∧
    ((∃ q ∈ r, (lastCut q).1 = (lastCut p).1) ∨ lastValue ps (lastCut p).1 = some (lastCut p).2)

/-- The last pair with a key has no `=` in its value, when every such pair is followed by one with its key. -/
theorem not_mem_of_last {ps l r : List (Bytes × Bytes)} {k v : Bytes}
    (hlater : ∀ l p r, ps = l ++ p :: r → 61 ∈ p.2 → ∃ q ∈ r, q.1 = p.1) (hps : ps = l ++ (k, v) :: r)
    (hr : ∀ q ∈ r, q.1 ≠ k) : 61 ∉ v := by
  intro hv
  obtain ⟨q, hq, hqk⟩ := hlater l (k, v) r hps hv
  exact hr q hq hqk

/-- A value that is found under its key then has a pair that both cuts leave alone. -/
theorem uncut_of_last {ps l r : List (Bytes × Bytes)} {k v : Bytes} (hp : ∀ p ∈ ps, 61 ∉ p.1)
    (hlater : ∀ l p r, ps = l ++ p :: r → 61 ∈ p.2 → ∃ q ∈ r, q.1 = p.1) (hps : ps = l ++ (k, v) :: r)
    (hr : ∀ q ∈ r, q.1 ≠ k) : lastCut (k, v) = (k, v) :=
  lastCut_of_not_mem (hp (k, v) (by rw [hps]; simp)) (not_mem_of_last hlater hps hr)

theorem covered_of_agree {ps : List (Bytes × Bytes)} (hp : ∀ p ∈ ps, 61 ∉ p.1)
    (hagree : ∀ k, lastValue (ps.map lastCut) k = lastValue ps k) : Covered ps := by
  intro l p r hps hv
  constructor
  · -- otherwise the value with its `=` is found under the key
    by_contra hno
    have hlast : lastValue ps p.1 = some p.2 :=
      lastValue_eq_some.mpr ⟨l, r, hps, fun q hq hqk => hno ⟨q, hq, hqk⟩⟩
    rw [← hagree] at hlast
    obtain ⟨l', r', hcuts, -⟩ := lastValue_eq_some.mp hlast
    obtain ⟨q, hq, hcut⟩ := List.mem_map.mp (show (p.1, p.2) ∈ ps.map lastCut by rw [hcuts]; simp)
    have hplain := (lastCut_spec (hp q hq)).2.1
    rw [hcut] at hplain
    exact hplain hv
  · by_cases hcut : ∃ q ∈ r, (lastCut q).1 = (lastCut p).1
    · exact .inl hcut
    · right
      rw [← hagree]
      refine lastValue_eq_some.mpr ⟨l.map lastCut, r.map lastCut, by rw [hps]; simp, fun q hq hqk => hcut ?_⟩
      obtain ⟨q', hq', rfl⟩ := List.mem_map.mp hq
      exact ⟨q', hq', hqk⟩

/-- What is found among the last cuts is found among the pairs. -/
theorem lastValue_of_cuts {ps : List (Bytes × Bytes)} {k v : Bytes} (hp : ∀ p ∈ ps, 61 ∉ p.1) (hcov : Covered ps)
    (h : lastValue (ps.map lastCut) k = some v) : lastValue ps k = some v := by
  have hlater : ∀ l p r, ps = l ++ p :: r → 61 ∈ p.2 → ∃ q ∈ r, q.1 = p.1 := fun l p r h hv => (hcov l p r h hv).1
  obtain ⟨l', r', hmap, hr'⟩ := lastValue_eq_some.mp h
  obtain ⟨l, pr, hps, rfl, hpr⟩ := List.map_eq_append_iff.mp hmap
  obtain ⟨p, r, rfl, hcut, rfl⟩ := List.map_eq_cons_iff.mp hpr
  have hnot : ¬ ∃ q ∈ r, (lastCut q).1 = (lastCut p).1 := by
    intro h
    obtain ⟨q, hq, hqk⟩ := h
    exact hr' (lastCut q) (List.mem_map_of_mem hq) (by rw [hqk, hcut])
  by_cases hv : 61 ∈ p.2
  · have hval := (hcov l p r hps hv).2.resolve_left hnot
    rwa [hcut] at hval
  · have hpk : p = (k, v) := by rw [← hcut, lastCut_of_not_mem (hp p (by rw [hps]; simp)) hv]
    refine lastValue_eq_some.mpr ⟨l, r, by rw [hps, hpk], fun q hq hqk => ?_⟩
    -- a later pair with this key would be last, so cut to the key as well
    have hfound : lastValue r k ≠ none := fun h => lastValue_eq_none.mp h q hq hqk
    obtain ⟨w, hw⟩ := Option.ne_none_iff_exists'.mp hfound
    obtain ⟨l₂, r₂, hr₂, hlast⟩ := lastValue_eq_some.mp hw
    have hps₂ : ps = (l ++ p :: l₂) ++ (k, w) :: r₂ := by rw [hps, hr₂]; simp
    have hkw : (k, w) ∈ r := by rw [hr₂]; simp
    exact hnot ⟨(k, w), hkw, by rw [uncut_of_last hp hlater hps₂ hlast, hcut]⟩

theorem lastCut_agree_iff {ps : List (Bytes × Bytes)} (hp : ∀ p ∈ ps, 61 ∉ p.1) :
    (∀ k, lastValue (ps.map lastCut) k = lastValue ps k) ↔ Covered ps := by
  refine ⟨covered_of_agree hp, fun hcov k => ?_⟩
  cases hcuts : lastValue (ps.map lastCut) k with
  | some v => exact (lastValue_of_cuts hp hcov hcuts).symm
  | none =>
    cases hval : lastValue ps k with
    | none => rfl
    | some v =>
      obtain ⟨l, r, hps, hr⟩ := lastValue_eq_some.mp hval
      have hcut := uncut_of_last hp (fun l p r h hv => (hcov l p r h hv).1) hps hr
      refine absurd rfl (lastValue_eq_none.mp hcuts (k, v) ?_)
      exact List.mem_map.mpr ⟨(k, v), by rw [hps]; simp, hcut⟩

/-! ## A query without escapes -/

/-- The byte is in neither half of the pair. -/
def Free (c : UInt8) (p : Bytes × Bytes) : Prop := c ∉ p.1 ∧ c ∉ p.2

instance (c : UInt8) (p : Bytes × Bytes) : Decidable (Free c p) := inferInstanceAs (Decidable (_ ∧ _))

/-- A pair of a query: a key, a `=` behind it, and nothing that is decoded, split or skipped. -/
structure QueryPair (p : Bytes × Bytes) : Prop where
  key : p.1 ≠ []
  join : 61 ∉ p.1
  split : Free 38 p
  percent : Free 37 p
  plus : Free 43 p
  mark : Free 63 p
  space : Free 32 p

theorem QueryPair.undecoded {p : Bytes × Bytes} (h : QueryPair p) : Undecoded p :=
  ⟨h.join, h.split.1, fun hs => h.space.1 (List.mem_of_mem_head? hs), h.split.2⟩

theorem not_mem_pairsText {c : UInt8} (h61 : c ≠ 61) (h38 : c ≠ 38) {ps : List (Bytes × Bytes)}
    (hp : ∀ p ∈ ps, Free c p) : c ∉ pairsText id ps := by
  induction ps with
  | nil => exact List.not_mem_nil
  | cons p ps ih =>
    obtain ⟨hk, hv⟩ := hp p List.mem_cons_self
    have hrest := ih fun q hq => hp q (List.mem_cons_of_mem p hq)
    cases ps with
    | nil => simp [pairsText, hk, hv, h61]
    | cons q ps => simp [pairsText, hk, hv, h61, h38, hrest]

/-- The query map of a target that is `/`, `?` and plain pairs. -/
theorem ofString_query {ps : List (Bytes × Bytes)} (hp : ∀ p ∈ ps, QueryPair p) :
    ∃ u, HttpUrl.ofString (lit "/?" ++ pairsText id ps) = .ok u ∧ u.query = queryScan (pairsText id ps) [] [] ∅ := by
  let u : HttpUrl := { HttpUrl.blank (47 :: 63 :: pairsText id ps) with
    path := [47], query := queryScan (pairsText id ps) [] [] ∅, state := .parseSuccess }
  have h37 := not_mem_pairsText (by decide) (by decide) fun p h => (hp p h).percent
  have h43 := not_mem_pairsText (by decide) (by decide) fun p h => (hp p h).plus
  have hdecode : urlDecode (47 :: 63 :: pairsText id ps) = 47 :: 63 :: pairsText id ps :=
    EncodeUtil.urlDecode_plain (by simp [h37]) (by simp [h43])
  refine ⟨u, ?_, rfl⟩
  change HttpUrl.ofString (47 :: 63 :: pairsText id ps) = .ok u
  have hfind : find (lit "?") (47 :: 63 :: pairsText id ps) = some 1 := find_byte (u := [47]) (by decide) _
  have hview : removePrefix (47 :: 63 :: pairsText id ps) (1 + 1) = .ok (pairsText id ps) := by
    rw [removePrefix_of_le (by simp)]
    rfl
  have hfrom : HttpUrl.parseFromUrl (HttpUrl.blank (47 :: 63 :: pairsText id ps)) =
      HttpUrl.parsePath (HttpUrl.blank (47 :: 63 :: pairsText id ps)) (47 :: 63 :: pairsText id ps) := by
    rw [HttpUrl.parseFromUrl, if_neg, if_neg]
    · rfl
    · simp [HttpUrl.blank, lit]
    · simp [HttpUrl.blank, lit]
  unfold HttpUrl.ofString
  simp only [hdecode]
  rw [if_neg (by simp [HttpUrl.blank]), hfrom]
  simp only [HttpUrl.parsePath, hfind, hview, bind, Except.bind, parseQuery_scan]
  rfl

theorem lookup_foldl_insert (ps : List (Bytes × Bytes)) (k : Bytes) :
    (ps.foldl (fun m p => m.insert p.1 p.2) (∅ : AList fun _ : Bytes => Bytes)).lookup k = lastValue ps k := by
  have hget := get_foldl_pairs ps .new k
  rw [HttpBaseMap.get_new, Option.or_none, HttpBaseMap.get, foldl_add_map] at hget
  exact hget

/-- Both readers build the map of the pairs cut at their first `=`. -/
def Agree (ps : List (Bytes × Bytes)) : Prop :=
  ∃ u m, HttpUrl.ofString (lit "/?" ++ pairsText id ps) = .ok u ∧
    parseKeyValue (pairsText id ps) (lit "=") (lit "&") .new true = .ok m ∧
    ∀ k, u.query.lookup k = m.get k ∧ m.get k = lastValue ps k

theorem parseKeyValue_query {ps : List (Bytes × Bytes)} (hp : ∀ p ∈ ps, QueryPair p) :
    ∃ m, parseKeyValue (pairsText id ps) (lit "=") (lit "&") .new true = .ok m ∧ ∀ k, m.get k = lastValue ps k := by
  obtain ⟨m, hm, hget⟩ := parseKeyValue_undecoded ps false .new fun p h => (hp p h).undecoded
  have hdecode : urlDecode (pairsText id ps) = pairsText id ps :=
    EncodeUtil.urlDecode_plain (not_mem_pairsText (by decide) (by decide) fun p h => (hp p h).percent)
      (not_mem_pairsText (by decide) (by decide) fun p h => (hp p h).plus)
  refine ⟨m, ?_, fun k => by rw [hget, HttpBaseMap.get_new, Option.or_none]⟩
  rw [← hm, parseKeyValue, parseKeyValue]
  simp [hdecode]

/-- The two readers agree on a query without escapes exactly when no pair with a `=` in its value shows. -/
theorem agree_iff (ps : List (Bytes × Bytes)) (hp : ∀ p ∈ ps, QueryPair p) : Agree ps ↔ Covered ps := by
  have hjoin : ∀ p ∈ ps, 61 ∉ p.1 := fun p h => (hp p h).join
  obtain ⟨u, hu, hquery⟩ := ofString_query hp
  obtain ⟨m, hm, hget⟩ := parseKeyValue_query hp
  have hagree : Agree ps ↔ ∀ k, u.query.lookup k = lastValue ps k := by
    constructor
    · intro h k
      obtain ⟨u', m', hu', hm', h⟩ := h
      rw [hu] at hu'
      cases hu'
      exact (h k).1.trans (h k).2
    · exact fun h => ⟨u, m, hu, hm, fun k => ⟨(h k).trans (hget k).symm, hget k⟩⟩
  -- once the last pair has no `=` in its value, the query map is the map of the last cuts
  have hcuts : (∀ l p r, ps = l ++ p :: r → 61 ∈ p.2 → ∃ q ∈ r, q.1 = p.1) →
      ∀ k, u.query.lookup k = lastValue (ps.map lastCut) k := by
    intro hlater k
    have hlast : ∀ p ∈ ps.getLast?, (lastCut p).1 ≠ [] := by
      intro p hpl
      obtain ⟨l, hl⟩ := List.getLast?_eq_some_iff.mp hpl
      have hmem : p ∈ ps := by rw [hl]; simp
      have hv : 61 ∉ p.2 := not_mem_of_last hlater hl (by simp)
      rw [lastCut_of_not_mem (hjoin p hmem) hv]
      exact (hp p hmem).key
    rw [hquery, queryScan_cuts ps (fun p h => ⟨(hp p h).join, (hp p h).split⟩) hlast, lookup_foldl_insert]
  rw [hagree]
  constructor
  · intro h
    have hlater : ∀ l p r, ps = l ++ p :: r → 61 ∈ p.2 → ∃ q ∈ r, q.1 = p.1 := by
      intro l p r hps hv
      by_contra hno
      have hfound : u.query.lookup p.1 = some p.2 := by
        rw [h]
        exact lastValue_eq_some.mpr ⟨l, r, hps, fun q hq hqk => hno ⟨q, hq, hqk⟩⟩
      have hplain := queryScan_plain (pairsText id ps) [] [] ∅ plain_nil plain_nil (entries_empty _)
      rw [← hquery] at hplain
      exact (hplain p.1 p.2 hfound).2.1 hv
    exact (lastCut_agree_iff hjoin).mp fun k => by rw [← hcuts hlater, h]
  · intro hcov k
    rw [hcuts fun l p r hps hv => (hcov l p r hps hv).1]
    exact (lastCut_agree_iff hjoin).mpr hcov k

/-- `a=1&b=2`. -/
theorem agree_two : (∀ p ∈ [(lit "a", lit "1"), (lit "b", lit "2")], QueryPair p) ∧
    Agree [(lit "a", lit "1"), (lit "b", lit "2")] := by
  have hp : ∀ p ∈ [(lit "a", lit "1"), (lit "b", lit "2")], QueryPair p := by
    intro p hp
    rcases List.mem_cons.mp hp with rfl | hp
    · constructor <;> decide
    · rw [List.mem_singleton.mp hp]
      constructor <;> decide
  refine ⟨hp, (agree_iff _ hp).mpr fun l p r hps hv => ?_⟩
  have hmem : p ∈ [(lit "a", lit "1"), (lit "b", lit "2")] := by
    rw [hps]
    simp
  rcases List.mem_cons.mp hmem with rfl | hmem
  · exact absurd hv (by decide)
  · rw [List.mem_singleton.mp hmem] at hv
    exact absurd hv (by decide)

/-- `a=b=c` is the pair of `b` to the query loop. -/
theorem not_agree_joined : ¬ Agree [(lit "a", lit "b=c")] := by
  intro h
  obtain ⟨u, m, hu, -, h⟩ := h
  have hread : (HttpUrl.ofString (lit "/?" ++ pairsText id [(lit "a", lit "b=c")])).toOption.bind
      (fun u => u.query.lookup (lit "a")) = none := by decide
  have hvalue : lastValue [(lit "a", lit "b=c")] (lit "a") = some (lit "b=c") := by decide
  have hlook := (h (lit "a")).1.trans (h (lit "a")).2
  rw [hu] at hread
  rw [hvalue] at hlook
  change u.query.lookup (lit "a") = none at hread
  rw [hread] at hlook
  cases hlook

end UrlEncoded

end HahaWeb
