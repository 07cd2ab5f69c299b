/-
  HahaWeb.Http.UrlEncoded — pairs written url-encoded, read back as a form and as a query.

  A key and its value are encoded and joined by `=`, the pairs joined by `&`. Both readers
  decode the whole text first and split it then, at the bytes the encoding was to protect.
  Proved: a form is read back exactly when no key has a `=` or a `&`, no value a `&`, and no
  key but the first begins with a space (`form_round_trip_iff`); a query, behind a path
  that is always read back, exactly when no key and no value has a `=` or a `&`
  (`url_round_trip_iff`).
-/

import HahaWeb.Http.HttpUrl
import HahaWeb.Http.HttpUtil

namespace HahaWeb

namespace UrlEncoded

open EncodeUtil (urlEncode urlDecode decodeLoop)

/-! ## The texts -/

/-- Pairs joined by `&`, keys and values as `enc` writes them. -/
def pairsText (enc : Bytes → Bytes) : List (Bytes × Bytes) → Bytes
  | [] => []
  | [p] => enc p.1 ++ 61 :: enc p.2
  | p :: q :: ps => enc p.1 ++ 61 :: (enc p.2 ++ 38 :: pairsText enc (q :: ps))

/-- Segments, each behind a `/`. -/
def pathText (enc : Bytes → Bytes) : List Bytes → Bytes
  | [] => []
  | s :: segments => 47 :: (enc s ++ pathText enc segments)

/-- The map has the pairs, and nothing else. -/
def HasPairs (m : AList fun _ : Bytes => Bytes) (ps : List (Bytes × Bytes)) : Prop :=
  ∀ k v, m.lookup k = some v ↔ (k, v) ∈ ps

theorem decode_pairs (ps : List (Bytes × Bytes)) :
    decodeLoop (pairsText urlEncode ps) = some (pairsText id ps) := by
  induction ps with
  | nil => rfl
  | cons p ps ih =>
    have hsep : ∀ (c : UInt8) (t : Bytes), c = 61 ∨ c = 38 → decodeLoop (c :: t) = (decodeLoop t).map (c :: ·) := by
      intro c t hc
      rcases hc with rfl | rfl <;> exact EncodeUtil.decodeLoop_plain (by decide) (by decide) t
    cases ps with
    | nil =>
      have hlast := EncodeUtil.decodeLoop_urlEncode p.2 []
      rw [List.append_nil] at hlast
      simp [pairsText, EncodeUtil.decodeLoop_urlEncode, hsep 61 _ (.inl rfl), hlast, decodeLoop]
    | cons q ps =>
      simp [pairsText, EncodeUtil.decodeLoop_urlEncode, hsep 61 _ (.inl rfl), hsep 38 _ (.inr rfl), ih]

theorem decode_path (segments : List Bytes) (t : Bytes) :
    decodeLoop (pathText urlEncode segments ++ t) = (decodeLoop t).map (pathText id segments ++ ·) := by
  induction segments with
  | nil => simp [pathText]
  | cons s segments ih =>
    simp [pathText, EncodeUtil.decodeLoop_plain (c := 47) (by decide) (by decide), EncodeUtil.decodeLoop_urlEncode, ih,
      Function.comp_def]

/-! ## The pairs of a map -/

/-- Every entry of the map has the property. -/
def Entries (P : Bytes → Bytes → Prop) (m : AList fun _ : Bytes => Bytes) : Prop := ∀ k v, m.lookup k = some v → P k v

theorem entries_empty (P : Bytes → Bytes → Prop) : Entries P ∅ := by
  intro k v h
  rw [AList.lookup_empty] at h
  cases h

theorem Entries.insert {P : Bytes → Bytes → Prop} {m : AList fun _ : Bytes => Bytes} {k v : Bytes} (hm : Entries P m)
    (h : P k v) : Entries P (m.insert k v) := by
  intro k' v' hlook
  rw [lookup_insert_eq] at hlook
  split at hlook
  · rename_i hk
    rw [hk, ← Option.some.inj hlook]
    exact h
  · exact hm k' v' hlook

theorem Entries.foldl {P : Bytes → Bytes → Prop} {m : AList fun _ : Bytes => Bytes} {ps : List (Bytes × Bytes)}
    (hm : Entries P m) (hp : ∀ p ∈ ps, P p.1 p.2) : Entries P (ps.foldl (fun m p => m.insert p.1 p.2) m) := by
  induction ps generalizing m with
  | nil => exact hm
  | cons p ps ih => exact ih (hm.insert (hp p List.mem_cons_self)) fun q hq => hp q (List.mem_cons_of_mem p hq)

theorem lookup_foldl_of_not_mem (ps : List (Bytes × Bytes)) (m : AList fun _ : Bytes => Bytes) {k : Bytes}
    (hk : k ∉ ps.map (·.1)) : (ps.foldl (fun m p => m.insert p.1 p.2) m).lookup k = m.lookup k := by
  induction ps generalizing m with
  | nil => rfl
  | cons p ps ih =>
    rw [List.map_cons, List.mem_cons, not_or] at hk
    rw [List.foldl_cons, ih _ hk.2, lookup_insert_eq, if_neg hk.1]

/-- Pairs with distinct keys are all kept. -/
theorem hasPairs_foldl {ps : List (Bytes × Bytes)} (hd : (ps.map (·.1)).Nodup) :
    HasPairs (ps.foldl (fun m p => m.insert p.1 p.2) ∅) ps := by
  intro k v
  constructor
  · exact (entries_empty fun k v => (k, v) ∈ ps).foldl (fun p hp => hp) k v
  · generalize (∅ : AList fun _ : Bytes => Bytes) = m
    intro h
    induction ps generalizing m with
    | nil => cases h
    | cons p ps ih =>
      rw [List.map_cons, List.nodup_cons] at hd
      rw [List.foldl_cons]
      rcases List.mem_cons.mp h with rfl | h
      · rw [lookup_foldl_of_not_mem ps _ hd.1, AList.lookup_insert]
      · exact ih hd.2 _ h

theorem foldl_add_map (ps : List (Bytes × Bytes)) (m : HttpForm) :
    (ps.foldl (fun m p => m.add p.1 p.2) m).map = ps.foldl (fun m p => m.insert p.1 p.2) m.map := by
  induction ps generalizing m with
  | nil => rfl
  | cons p ps ih => exact ih (m.add p.1 p.2)

/-! ## A form -/

/-- Keys that have neither `=` nor `&`, values that have no `&`. -/
def Splits (ps : List (Bytes × Bytes)) : Prop := ∀ p ∈ ps, 61 ∉ p.1 ∧ 38 ∉ p.1 ∧ 38 ∉ p.2

/-- The pair without the spaces its key begins with. -/
def strip (p : Bytes × Bytes) : Bytes × Bytes := (p.1.dropWhile (· == 32), p.2)

/-- An entry cut at the first `=` from bytes without `&`. -/
def Cut (k v : Bytes) : Prop := 61 ∉ k ∧ 38 ∉ k ∧ 38 ∉ v

/-- Whatever is read, the entries of the form are cut so. -/
theorem keyValueLoop_cut : ∀ fuel view (m m' : HttpForm), keyValueLoop [61] [38] fuel view m = .ok m' →
    Entries Cut m.map → Entries Cut m'.map := by
  intro fuel
  induction fuel with
  | zero => intro view m m' h; cases h
  | succ fuel ih =>
    intro view m m' h hm
    have hadd : ∀ (kv : Bytes) (n : Nat), 38 ∉ kv → find [61] kv = some n →
        Entries Cut (m.add (kv.take n) ((kv.drop (n + 1)).take kv.length)).map := by
      intro kv n hkv hn
      apply hm.insert
      refine ⟨(find_byte_some hn).1, fun hc => hkv ?_, fun hc => hkv ?_⟩
      · exact List.mem_of_mem_take hc
      · exact List.mem_of_mem_drop (List.mem_of_mem_take hc)
    unfold keyValueLoop at h
    split at h
    · cases h
      exact hm
    · cases hp : find [38] view with
      | none =>
        simp only [hp] at h
        cases hn : find [61] view with
        | none =>
          simp only [hn] at h
          cases h
          exact hm
        | some n =>
          simp only [hn, substr_of_le (find_le hn), bind, Except.bind] at h
          cases h
          exact hadd view n (not_mem_of_find_none hp) hn
      | some p =>
        simp only [hp] at h
        cases hn : find [61] (view.take p) with
        | none =>
          simp only [hn] at h
          cases h
          exact hm
        | some n =>
          have hle := find_le hp
          have hsp := spaces_le (view.drop (p + [(38 : UInt8)].length))
          rw [List.length_drop] at hsp
          simp only [hn, substr_of_le (find_le hn), bind, Except.bind, removePrefix_of_le
            (show p + [(38 : UInt8)].length + spaces (view.drop (p + [(38 : UInt8)].length)) ≤ view.length by omega)]
            at h
          exact ih _ _ _ h (hadd (view.take p) n (find_byte_some hp).1 hn)

/-- What stands behind the first `=` of a pair. -/
theorem substr_value (k v : Bytes) : substr (k ++ 61 :: v) (k.length + 1) (k ++ 61 :: v).length = .ok v := by
  rw [substr_of_le (by simp), ← List.drop_drop, List.drop_left, List.drop_one, List.tail_cons]
  rw [List.take_of_length_le (by simp; omega)]

/-- The last pair. -/
theorem keyValueLoop_last {k v : Bytes} (hk : 61 ∉ k) (hk' : 38 ∉ k) (hv : 38 ∉ v) (fuel : Nat) (m : HttpForm) :
    keyValueLoop [61] [38] (fuel + 1) (k ++ 61 :: v) m = .ok (m.add k v) := by
  have hsplit : find [38] (k ++ 61 :: v) = none := find_byte_none (by simp [hk', hv])
  rw [keyValueLoop]
  simp only [List.isEmpty_iff, List.append_eq_nil_iff, reduceCtorEq, and_false, if_false, hsplit, find_byte hk v,
    List.length_singleton, substr_value, List.take_left]
  rfl

/-- A pair with more behind it: the spaces behind the `&` are dropped. -/
theorem keyValueLoop_pair {k v : Bytes} (hk : 61 ∉ k) (hk' : 38 ∉ k) (hv : 38 ∉ v) (fuel : Nat) (t : Bytes)
    (m : HttpForm) :
    keyValueLoop [61] [38] (fuel + 1) (k ++ 61 :: (v ++ 38 :: t)) m =
      keyValueLoop [61] [38] fuel (t.dropWhile (· == 32)) (m.add k v) := by
  have htext : k ++ 61 :: (v ++ 38 :: t) = (k ++ 61 :: v) ++ 38 :: t := by simp
  have hsplit : find [38] (k ++ 61 :: (v ++ 38 :: t)) = some (k ++ 61 :: v).length := by
    rw [htext]
    exact find_byte (by simp [hk', hv]) t
  have hkv : (k ++ 61 :: (v ++ 38 :: t)).take (k ++ 61 :: v).length = k ++ 61 :: v := by
    rw [htext]
    exact List.take_left
  have hrest : (k ++ 61 :: (v ++ 38 :: t)).drop ((k ++ 61 :: v).length + [(38 : UInt8)].length) = t := by
    rw [htext, ← List.drop_drop, List.drop_left]
    rfl
  have hdrop : t.drop (spaces t) = t.dropWhile (· == 32) := by
    calc t.drop (spaces t)
      _ = (t.takeWhile (· == 32) ++ t.dropWhile (· == 32)).drop (spaces t) := by rw [List.takeWhile_append_dropWhile]
      _ = t.dropWhile (· == 32) := List.drop_left
  have hlen : (k ++ 61 :: v).length + [(38 : UInt8)].length + spaces t ≤ (k ++ 61 :: (v ++ 38 :: t)).length := by
    have := spaces_le t
    simp
    omega
  rw [keyValueLoop]
  simp only [List.isEmpty_iff, List.append_eq_nil_iff, reduceCtorEq, and_false, if_false, hsplit, hkv,
    find_byte hk v, hrest, removePrefix_of_le hlen]
  rw [List.length_singleton, substr_value, List.take_left, ← List.drop_drop, hrest, hdrop]
  rfl

theorem dropWhile_pairsText (q : Bytes × Bytes) (ps : List (Bytes × Bytes)) :
    (pairsText id (q :: ps)).dropWhile (· == 32) = pairsText id (strip q :: ps) := by
  have hkey : ∀ (k t : Bytes), (k ++ 61 :: t).dropWhile (· == 32) = k.dropWhile (· == 32) ++ 61 :: t := by
    intro k t
    induction k with
    | nil => rfl
    | cons c k ih =>
      rw [List.cons_append, List.dropWhile_cons, List.dropWhile_cons]
      split
      · exact ih
      · rfl
  cases ps with
  | nil => exact hkey q.1 q.2
  | cons r ps => exact hkey q.1 _

/-- All pairs are added, each but the first under its key without leading spaces. -/
theorem keyValueLoop_pairs (ps : List (Bytes × Bytes)) : ∀ p fuel (m : HttpForm), Splits (p :: ps) → ps.length < fuel →
    keyValueLoop [61] [38] fuel (pairsText id (p :: ps)) m =
      .ok ((p :: ps.map strip).foldl (fun m p => m.add p.1 p.2) m) := by
  induction ps with
  | nil =>
    intro p fuel m hs hf
    obtain ⟨hk, hk', hv⟩ := hs p List.mem_cons_self
    cases fuel with
    | zero => omega
    | succ fuel => exact keyValueLoop_last hk hk' hv fuel m
  | cons q ps ih =>
    intro p fuel m hs hf
    obtain ⟨hk, hk', hv⟩ := hs p List.mem_cons_self
    cases fuel with
    | zero => omega
    | succ fuel =>
      have hstrip : Splits (strip q :: ps) := by
        intro r hr
        rcases List.mem_cons.mp hr with rfl | hr
        · obtain ⟨h1, h2, h3⟩ := hs q (by simp)
          have hsub : ∀ c, c ∈ (strip q).1 → c ∈ q.1 := fun c hc => (List.dropWhile_suffix _).subset hc
          exact ⟨fun h => h1 (hsub _ h), fun h => h2 (hsub _ h), h3⟩
        · exact hs r (by simp [hr])
      have hnext := ih (strip q) fuel (m.add p.1 p.2) hstrip (by simpa using hf)
      calc keyValueLoop [61] [38] (fuel + 1) (pairsText id (p :: q :: ps)) m
        _ = keyValueLoop [61] [38] fuel ((pairsText id (q :: ps)).dropWhile (· == 32)) (m.add p.1 p.2) :=
          keyValueLoop_pair hk hk' hv fuel _ m
        _ = .ok ((p :: (q :: ps).map strip).foldl (fun m p => m.add p.1 p.2) m) := by
          rw [dropWhile_pairsText, hnext]
          rfl

theorem parseKeyValue_pairs (ps : List (Bytes × Bytes)) (m : HttpForm) :
    parseKeyValue (pairsText urlEncode ps) (lit "=") (lit "&") m true =
      keyValueLoop [61] [38] ((pairsText id ps).length + 1) (pairsText id ps) m := by
  have hdecode : urlDecode (pairsText urlEncode ps) = pairsText id ps := by
    rw [urlDecode, decode_pairs, Option.getD_some]
  unfold parseKeyValue
  rw [if_pos rfl, hdecode]
  rfl

theorem length_le_pairsText (ps : List (Bytes × Bytes)) : ps.length ≤ (pairsText id ps).length := by
  induction ps with
  | nil => exact Nat.le_refl 0
  | cons p ps ih =>
    cases ps with
    | nil =>
      simp only [pairsText, List.length_append, List.length_cons, List.length_nil]
      omega
    | cons q ps =>
      simp only [pairsText, List.length_append, List.length_cons] at ih ⊢
      omega

/-- The pairs of a form, split and stripped. -/
theorem parseKeyValue_of_splits {ps : List (Bytes × Bytes)} (hs : Splits ps) :
    ∃ m, parseKeyValue (pairsText urlEncode ps) (lit "=") (lit "&") .new true = .ok m ∧
      m.map = (ps.take 1 ++ ps.tail.map strip).foldl (fun m p => m.insert p.1 p.2) ∅ := by
  cases ps with
  | nil => exact ⟨.new, rfl, rfl⟩
  | cons p ps =>
    refine ⟨_, ?_, foldl_add_map (p :: ps.map strip) .new⟩
    rw [parseKeyValue_pairs]
    apply keyValueLoop_pairs ps p _ .new hs
    have := length_le_pairsText (p :: ps)
    rw [List.length_cons] at this
    omega

theorem strip_of_head {p : Bytes × Bytes} (h : p.1.head? ≠ some 32) : strip p = p := by
  obtain ⟨k, v⟩ := p
  cases k with
  | nil => rfl
  | cons c k =>
    have hc : (c == 32) = false := beq_eq_false_iff_ne.mpr fun hc => h (by rw [hc, List.head?_cons])
    rw [strip, List.dropWhile_cons, hc]
    rfl

theorem head_strip (p : Bytes × Bytes) : (strip p).1.head? ≠ some 32 := by
  intro h
  have hnot := List.head?_dropWhile_not (· == (32 : UInt8)) p.1
  change (p.1.dropWhile (· == 32)).head? = some 32 at h
  rw [h] at hnot
  exact absurd hnot (by decide)

/-- The pair found under the key of a later one is stripped, so that key begins with no space. -/
theorem HasPairs.unstripped {ps : List (Bytes × Bytes)} (hd : (ps.map (·.1)).Nodup)
    (h : HasPairs ((ps.take 1 ++ ps.tail.map strip).foldl (fun m p => m.insert p.1 p.2) ∅) ps) :
    ∀ p ∈ ps.tail, p.1.head? ≠ some 32 := by
  intro q hq hspace
  have hmem : (q.1, q.2) ∈ ps.take 1 ++ ps.tail.map strip := by
    apply (entries_empty fun k v => (k, v) ∈ ps.take 1 ++ ps.tail.map strip).foldl fun p hp => hp
    exact (h q.1 q.2).mpr (List.mem_of_mem_tail hq)
  rcases List.mem_append.mp hmem with hfirst | hrest
  · cases ps with
    | nil => cases hq
    | cons p ps =>
      rw [List.map_cons, List.nodup_cons] at hd
      apply hd.1
      have hp : q = p := by simpa using hfirst
      rw [← hp]
      exact List.mem_map_of_mem hq
  · obtain ⟨r, -, hr⟩ := List.mem_map.mp hrest
    apply head_strip r
    rw [hr]
    exact hspace

/-- A form is read back exactly when no key has a `=` or a `&`, no value a `&`, and no key
    but the first begins with a space. -/
theorem form_round_trip_iff (ps : List (Bytes × Bytes)) (hd : (ps.map (·.1)).Nodup) :
    (∃ m, parseKeyValue (pairsText urlEncode ps) (lit "=") (lit "&") .new true = .ok m ∧ HasPairs m.map ps) ↔
      Splits ps ∧ ∀ p ∈ ps.tail, p.1.head? ≠ some 32 := by
  constructor
  · intro h
    obtain ⟨m, hm, hpairs⟩ := h
    have hs : Splits ps := by
      intro p hp
      rw [parseKeyValue_pairs] at hm
      apply keyValueLoop_cut _ _ _ _ hm (entries_empty Cut)
      exact (hpairs p.1 p.2).mpr hp
    obtain ⟨m', hm', hmap⟩ := parseKeyValue_of_splits hs
    rw [hm] at hm'
    cases hm'
    rw [hmap] at hpairs
    exact ⟨hs, hpairs.unstripped hd⟩
  · intro h
    obtain ⟨hs, hspace⟩ := h
    obtain ⟨m, hm, hmap⟩ := parseKeyValue_of_splits hs
    have hstrip : ps.tail.map strip = ps.tail := by
      rw [List.map_congr_left fun q hq => strip_of_head (hspace q hq), List.map_id']
    refine ⟨m, hm, ?_⟩
    rw [hmap, hstrip, ← List.drop_one, List.take_append_drop]
    exact hasPairs_foldl hd

/-- `a=1&b=2`. -/
theorem form_round_trip_two :
    ∃ m, parseKeyValue (pairsText urlEncode [(lit "a", lit "1"), (lit "b", lit "2")]) (lit "=") (lit "&") .new true =
      .ok m ∧ HasPairs m.map [(lit "a", lit "1"), (lit "b", lit "2")] :=
  (form_round_trip_iff [(lit "a", lit "1"), (lit "b", lit "2")] (by decide)).mpr
    ⟨by intro p hp; revert p; decide, by decide⟩

/-- The value `&`, written `%26`, is read as an empty value. -/
theorem form_ampersand_lost :
    ¬ ∃ m, parseKeyValue (pairsText urlEncode [(lit "a", lit "&")]) (lit "=") (lit "&") .new true = .ok m ∧
      HasPairs m.map [(lit "a", lit "&")] := by
  intro h
  obtain ⟨m, hm, hpairs⟩ := h
  have hread : parseKeyValue (pairsText urlEncode [(lit "a", lit "&")]) (lit "=") (lit "&") .new true =
      .ok (HttpBaseMap.new.add (lit "a") []) := by rfl
  rw [hread] at hm
  cases hm
  have hlook := (hpairs (lit "a") (lit "&")).mpr List.mem_cons_self
  revert hlook
  decide

/-! ## A query -/

/-- The loop over the query and what follows it, over the bytes still ahead; `piece` is what
    has been passed since the last `=` or `&`. -/
def queryScan : Bytes → Bytes → Bytes → (AList fun _ : Bytes => Bytes) → AList fun _ : Bytes => Bytes
  | [], piece, key, query => if key.isEmpty then query else query.insert key piece
  | c :: t, piece, key, query =>
    if c == 61 then queryScan t [] piece query
    else if c == 38 then queryScan t [] [] (query.insert key piece)
    else queryScan t (piece ++ [c]) key query

/-- The index into the query and the bytes still ahead of it tell the same. -/
theorem queryLoop_scan (q : Bytes) : ∀ fuel i j key query, i + fuel = q.length → j ≤ i →
    ∃ j' key' query', HttpUrl.queryLoop q fuel i j key query = .ok (j', key', query') ∧ j' ≤ q.length ∧
      queryScan (q.drop i) ((q.drop j).take (i - j)) key query =
        if key'.isEmpty then query' else query'.insert key' (q.drop j') := by
  intro fuel
  induction fuel with
  | zero =>
    intro i j key query hi hj
    refine ⟨j, key, query, rfl, by omega, ?_⟩
    rw [List.drop_of_length_le (show q.length ≤ i by omega),
      List.take_of_length_le (show (q.drop j).length ≤ i - j by rw [List.length_drop]; omega)]
    rfl
  | succ fuel ih =>
    intro i j key query hi hj
    have hc : charAt q i = .ok q[i] := charAt_of_lt (by omega)
    have hs : substr q j (i - j) = .ok ((q.drop j).take (i - j)) := substr_of_le (by omega)
    have hpiece : (q.drop j).take (i - j) ++ [q[i]] = (q.drop j).take (i + 1 - j) := by
      rw [show i + 1 - j = i - j + 1 by omega, List.take_add_one, List.getElem?_drop, show j + (i - j) = i by omega,
        List.getElem?_eq_getElem (show i < q.length by omega)]
      rfl
    rw [List.drop_eq_getElem_cons (show i < q.length by omega)]
    simp only [HttpUrl.queryLoop, queryScan, hc, hs, bind, Except.bind]
    split
    · simpa using ih (i + 1) (i + 1) ((q.drop j).take (i - j)) query (by omega) (Nat.le_refl _)
    · split
      · simpa using ih (i + 1) (i + 1) [] (query.insert key ((q.drop j).take (i - j))) (by omega) (Nat.le_refl _)
      · rw [hpiece]
        exact ih (i + 1) j key query (by omega) (by omega)

theorem parseQuery_scan (q : Bytes) : HttpUrl.parseQuery q = .ok (queryScan q [] [] ∅) := by
  obtain ⟨j, key, query, hloop, hj, hscan⟩ := queryLoop_scan q q.length 0 0 [] ∅ (by omega) (Nat.le_refl _)
  have htake : (q.drop j).take (q.length - j) = q.drop j := List.take_of_length_le (by rw [List.length_drop])
  simp only [Nat.sub_zero, List.drop_zero, List.take_zero] at hscan
  simp only [HttpUrl.parseQuery, hloop, bind, Except.bind, substr_of_le hj, htake]
  rw [hscan]
  split <;> rfl

/-- Bytes without `=` and `&`. -/
def Plain (s : Bytes) : Prop := 61 ∉ s ∧ 38 ∉ s

theorem Plain.append {s t : Bytes} (hs : Plain s) (ht : Plain t) : Plain (s ++ t) :=
  ⟨List.not_mem_append hs.1 ht.1, List.not_mem_append hs.2 ht.2⟩

theorem plain_nil : Plain [] := ⟨List.not_mem_nil, List.not_mem_nil⟩

/-- Whatever is read, keys and values have neither `=` nor `&`. -/
theorem queryScan_plain (q : Bytes) : ∀ piece key query, Plain piece → Plain key →
    Entries (fun k v => Plain k ∧ Plain v) query →
    Entries (fun k v => Plain k ∧ Plain v) (queryScan q piece key query) := by
  induction q with
  | nil =>
    intro piece key query hp hk hq
    rw [queryScan]
    split
    · exact hq
    · exact hq.insert ⟨hk, hp⟩
  | cons c t ih =>
    intro piece key query hp hk hq
    rw [queryScan]
    split
    · exact ih [] piece query plain_nil hp hq
    · rename_i h61
      split
      · exact ih [] [] _ plain_nil plain_nil (hq.insert ⟨hk, hp⟩)
      · rename_i h38
        have hc : Plain [c] := by
          constructor
          · exact fun h => h61 (beq_iff_eq.mpr (List.mem_singleton.mp h).symm)
          · exact fun h => h38 (beq_iff_eq.mpr (List.mem_singleton.mp h).symm)
        exact ih (piece ++ [c]) key query (hp.append hc) hk hq

theorem queryScan_append {u : Bytes} (hu : Plain u) (t : Bytes) : ∀ piece key query,
    queryScan (u ++ t) piece key query = queryScan t (piece ++ u) key query := by
  induction u with
  | nil =>
    intro piece key query
    rw [List.append_nil, List.nil_append]
  | cons c u ih =>
    intro piece key query
    obtain ⟨h61, h38⟩ := hu
    rw [List.mem_cons, not_or] at h61 h38
    have hc61 : (c == 61) = false := beq_eq_false_iff_ne.mpr (Ne.symm h61.1)
    have hc38 : (c == 38) = false := beq_eq_false_iff_ne.mpr (Ne.symm h38.1)
    rw [List.cons_append, queryScan, hc61, hc38]
    simp only [Bool.false_eq_true, if_false]
    rw [ih ⟨h61.2, h38.2⟩, List.append_assoc, List.singleton_append]

/-- One pair: up to its `=`, then up to what ends it. -/
theorem queryScan_pair {k v : Bytes} (hk : Plain k) (hv : Plain v) (t : Bytes) (query : AList fun _ : Bytes => Bytes) :
    queryScan (k ++ 61 :: (v ++ t)) [] [] query = queryScan t v k query := by
  rw [queryScan_append hk, queryScan, if_pos (by decide), queryScan_append hv]
  rfl

theorem queryScan_pairs (ps : List (Bytes × Bytes)) (hp : ∀ p ∈ ps, Plain p.1 ∧ Plain p.2) (hne : ∀ p ∈ ps, p.1 ≠ []) :
    ∀ query, queryScan (pairsText id ps) [] [] query = ps.foldl (fun m p => m.insert p.1 p.2) query := by
  induction ps with
  | nil => exact fun query => rfl
  | cons p ps ih =>
    intro query
    obtain ⟨hk, hv⟩ := hp p List.mem_cons_self
    cases ps with
    | nil =>
      have hlast := queryScan_pair hk hv [] query
      rw [List.append_nil] at hlast
      have hkey : p.1.isEmpty = false := List.isEmpty_eq_false_iff.mpr (hne p List.mem_cons_self)
      calc queryScan (p.1 ++ 61 :: p.2) [] [] query
        _ = queryScan [] p.2 p.1 query := hlast
        _ = query.insert p.1 p.2 := by rw [queryScan, hkey]; rfl
    | cons q ps =>
      have hnext := ih (fun r hr => hp r (List.mem_cons_of_mem p hr)) (fun r hr => hne r (List.mem_cons_of_mem p hr))
      calc queryScan (p.1 ++ 61 :: (p.2 ++ 38 :: pairsText id (q :: ps))) [] [] query
        _ = queryScan (38 :: pairsText id (q :: ps)) p.2 p.1 query := queryScan_pair hk hv _ query
        _ = queryScan (pairsText id (q :: ps)) [] [] (query.insert p.1 p.2) := by
          rw [queryScan, if_neg (by decide), if_pos (by decide)]
        _ = (p :: q :: ps).foldl (fun m p => m.insert p.1 p.2) query := hnext _

/-! ## A target -/

/-- The path is read back whatever it is; the query is what the loop finds. -/
theorem ofString_pathText {segments : List Bytes} (hs : segments ≠ []) (h63 : ∀ s ∈ segments, 63 ∉ s)
    (ps : List (Bytes × Bytes)) :
    ∃ u, HttpUrl.ofString (pathText urlEncode segments ++ 63 :: pairsText urlEncode ps) = .ok u ∧
      u.state = .parseSuccess ∧ u.path = pathText id segments ∧ u.query = queryScan (pairsText id ps) [] [] ∅ := by
  have hdecode : urlDecode (pathText urlEncode segments ++ 63 :: pairsText urlEncode ps) =
      pathText id segments ++ 63 :: pairsText id ps := by
    rw [urlDecode, decode_path, EncodeUtil.decodeLoop_plain (by decide) (by decide), decode_pairs]
    rfl
  have hpath : 63 ∉ pathText id segments := by
    clear hs hdecode
    induction segments with
    | nil => exact List.not_mem_nil
    | cons s segments ih =>
      rw [pathText, List.mem_cons, List.mem_append, not_or, not_or]
      exact ⟨by decide, h63 s List.mem_cons_self, ih fun s hs => h63 s (List.mem_cons_of_mem _ hs)⟩
  have hslash : ∃ t, pathText id segments ++ 63 :: pairsText id ps = 47 :: t := by
    cases segments with
    | nil => exact absurd rfl hs
    | cons s segments => exact ⟨_, rfl⟩
  obtain ⟨t, ht⟩ := hslash
  have hread : HttpUrl.parsePath (HttpUrl.blank (47 :: t)) (47 :: t) =
      .ok { HttpUrl.blank (47 :: t) with
        path := pathText id segments, query := queryScan (pairsText id ps) [] [] ∅, state := .parseSuccess } := by
    have hfind : find (lit "?") (47 :: t) = some (pathText id segments).length := by
      rw [← ht]
      exact find_byte hpath _
    have hview : removePrefix (47 :: t) ((pathText id segments).length + 1) = .ok (pairsText id ps) := by
      rw [← ht, removePrefix_of_le (by simp), ← List.drop_drop, List.drop_left]
      rfl
    have htake : (47 :: t).take (pathText id segments).length = pathText id segments := by
      rw [← ht]
      exact List.take_left
    simp only [HttpUrl.parsePath, hfind, hview, bind, Except.bind, parseQuery_scan, htake]
  have hblank : (HttpUrl.blank (47 :: t)).url = 47 :: t := rfl
  have hfrom : HttpUrl.parseFromUrl (HttpUrl.blank (47 :: t)) =
      HttpUrl.parsePath (HttpUrl.blank (47 :: t)) (47 :: t) := by
    rw [HttpUrl.parseFromUrl, hblank, if_neg, if_neg]
    · simp [lit]
    · simp [lit]
  have hstring : HttpUrl.ofString (pathText urlEncode segments ++ 63 :: pairsText urlEncode ps) =
      HttpUrl.parseFromUrl (HttpUrl.blank (47 :: t)) := by
    unfold HttpUrl.ofString
    rw [hdecode, ht]
    simp only [hblank, List.isEmpty_cons, Bool.and_false, Bool.false_eq_true, if_false]
  exact ⟨_, hstring.trans (hfrom.trans hread), rfl, rfl, rfl⟩

/-- A target is read back exactly when no key and no value has a `=` or a `&`. -/
theorem url_round_trip_iff (segments : List Bytes) (ps : List (Bytes × Bytes)) (hs : segments ≠ [])
    (h63 : ∀ s ∈ segments, 63 ∉ s) (hd : (ps.map (·.1)).Nodup) (hne : ∀ p ∈ ps, p.1 ≠ []) :
    (∃ u, HttpUrl.ofString (pathText urlEncode segments ++ 63 :: pairsText urlEncode ps) = .ok u ∧
      u.state = .parseSuccess ∧ u.path = pathText id segments ∧ HasPairs u.query ps) ↔
      ∀ p ∈ ps, Plain p.1 ∧ Plain p.2 := by
  obtain ⟨u, hu, hstate, hpath, hquery⟩ := ofString_pathText hs h63 ps
  constructor
  · intro h p hp
    obtain ⟨u', hu', -, -, hpairs⟩ := h
    rw [hu] at hu'
    cases hu'
    apply queryScan_plain (pairsText id ps) [] [] ∅ plain_nil plain_nil (entries_empty _)
    rw [← hquery]
    exact (hpairs p.1 p.2).mpr hp
  · intro hplain
    refine ⟨u, hu, hstate, hpath, ?_⟩
    rw [hquery, queryScan_pairs ps hplain hne]
    exact hasPairs_foldl hd

/-- `/a%20b/c?x=1`. -/
theorem url_round_trip_one :
    ∃ u, HttpUrl.ofString (pathText urlEncode [lit "a b", lit "c"] ++ 63 :: pairsText urlEncode [(lit "x", lit "1")]) =
      .ok u ∧ u.state = .parseSuccess ∧ u.path = pathText id [lit "a b", lit "c"] ∧
      HasPairs u.query [(lit "x", lit "1")] :=
  (url_round_trip_iff [lit "a b", lit "c"] [(lit "x", lit "1")] (by decide)
    (by intro s hs; revert s; decide) (by decide) (by intro p hp; revert p; decide)).mpr
    (by intro p hp; unfold Plain; revert p; decide)

/-- The value `=`, written `%3D`, ends the key a second time: the pair is dropped. -/
theorem url_equals_lost :
    ¬ ∃ u, HttpUrl.ofString (pathText urlEncode [[]] ++ 63 :: pairsText urlEncode [(lit "x", lit "=")]) = .ok u ∧
      u.state = .parseSuccess ∧ u.path = pathText id [[]] ∧ HasPairs u.query [(lit "x", lit "=")] := by
  intro h
  obtain ⟨u, hu, -, -, hpairs⟩ := h
  have hread : HttpUrl.ofString (pathText urlEncode [[]] ++ 63 :: pairsText urlEncode [(lit "x", lit "=")]) =
      .ok { HttpUrl.blank (lit "/?x==") with path := lit "/", state := .parseSuccess } := by rfl
  rw [hread] at hu
  cases hu
  have hlook := (hpairs (lit "x") (lit "=")).mpr List.mem_cons_self
  revert hlook
  decide

end UrlEncoded

end HahaWeb
