/-
  HahaWeb.Config.Config — `config/config`: a JSON object flattened to a map from dotted keys.

  `ListAllMember` walks the objects of the tree and leaves every node but the root with the
  keys on the way to it joined by dots; the constructor puts that list into a map in which
  the first entry of a key stays. `Leads` says which keys lead from a node through nested
  objects to another. Proved: when no key on the way is empty or has a dot in it, the map has
  the node a sequence of keys leads to under their dotted key, and nothing else
  (`config_lookup_iff`); so a query gives that node's value or the default (`query_dotted`).

  The tree is that of a store of nodes, as `fromFile` leaves it. Not modelled: what is
  printed, and `json_` itself, which nothing reads again.
-/

import HahaWeb.Http.HttpMap
import HahaWeb.Json.JsonCopy

namespace HahaWeb.Config

open Json (Ref Value TreeAt TreeOf Trees)
open Shared (Store)

variable {D : Type} (σ : Store (Value D))

/-! ## The constructor -/

/-- `ListAllMember`: the prefix is empty at the root, which is not listed. -/
def listAllMember : Nat → Bytes → Ref → List (Bytes × Ref) → Except Fault (List (Bytes × Ref))
  | 0, _, _, _ => .error .hang
  | fuel + 1, pre, node, output => do
    let output := if pre.isEmpty then output else output ++ [(pre, node)]
    match σ.value node with
    | none => .error .dangling
    | some (.object obj) =>
      obj.foldlM
        (fun output it => listAllMember fuel (if pre.isEmpty then it.1 else pre ++ lit "." ++ it.1) it.2 output) output
    | some _ => .ok output

abbrev Items := AList fun _ : Bytes => Ref

/-- `unordered_map::insert`: an entry that is there stays. -/
def insertItem (m : Items) (it : Bytes × Ref) : Items := if it.1 ∈ m then m else m.insert it.1 it.2

/-- `Config()`, from what `fromFile` has returned. -/
def config (fuel : Nat) (json : Option Ref) : Except Fault Items :=
  match json with
  | none => .ok ∅
  | some root =>
    match σ.value root with
    | none => .error .dangling
    | some (.object _) => (listAllMember σ fuel [] root []).map fun allNodes => allNodes.foldl insertItem ∅
    | some _ => .ok ∅

/-- `query`: the node's value when it has the type `get` reads, the default otherwise. -/
def query {T : Type} (get : Value D → Option T) (m : Items) (queryStr : Bytes) (defaultValue : T) : T :=
  ((m.lookup queryStr).bind fun node => (σ.value node).bind get).getD defaultValue

def queryString : Items → Bytes → Bytes → Bytes := query σ fun v => match v with
  | .string s => some s
  | _ => none

def queryInt : Items → Bytes → Int → Int := query σ fun v => match v with
  | .integer n => some n
  | _ => none

def queryDouble : Items → Bytes → D → D := query σ fun v => match v with
  | .double d => some d
  | _ => none

def queryBool : Items → Bytes → Bool → Bool := query σ fun v => match v with
  | .boolean b => some b
  | _ => none

/-! ## Paths -/

/-- The keys lead from the first node through nested objects to the second. -/
inductive Leads : Ref → List Bytes → Ref → Prop
  | here (r : Ref) : Leads r [] r
  | step {r q p : Ref} {obj : List (Bytes × Ref)} {k : Bytes} {ks : List Bytes} :
    σ.value r = some (.object obj) → (k, q) ∈ obj → Leads q ks p → Leads r (k :: ks) p

/-- The keys of the objects that are led to are neither empty nor dotted. -/
def Undotted (root : Ref) : Prop :=
  ∀ ks r obj, Leads σ root ks r → σ.value r = some (.object obj) → ∀ m ∈ obj, m.1 ≠ [] ∧ 46 ∉ m.1

/-- `a.b.c` -/
def dotted (ks : List Bytes) : Bytes := [46].intercalate ks

variable {σ}

theorem dotted_inj {ks ks' : List Bytes} (hne : ks ≠ []) (hne' : ks' ≠ []) (h : ∀ k ∈ ks, 46 ∉ k)
    (h' : ∀ k ∈ ks', 46 ∉ k) (heq : dotted ks = dotted ks') : ks = ks' := by
  rw [← List.splitOn_intercalate (x := 46) h hne, ← List.splitOn_intercalate (x := 46) h' hne']
  exact congrArg (List.splitOn 46) heq

theorem dotted_eq_nil {ks : List Bytes} (h : ∀ k ∈ ks, k ≠ []) : dotted ks = [] ↔ ks = [] := by
  constructor
  · intro hd
    cases ks with
    | nil => rfl
    | cons k ks =>
      cases ks with
      | nil =>
        rw [dotted, List.intercalate_singleton] at hd
        exact absurd hd (h k List.mem_cons_self)
      | cons l ks =>
        rw [dotted, List.intercalate_cons_cons] at hd
        exact absurd hd (by simp)
  · intro hks
    rw [hks]
    rfl

/-- The key of a member below a path. -/
theorem dotted_snoc {ks : List Bytes} (h : ∀ k ∈ ks, k ≠ []) (k : Bytes) :
    dotted (ks ++ [k]) = if (dotted ks).isEmpty then k else dotted ks ++ lit "." ++ k := by
  have hdot : lit "." = [46] := by decide
  have hif : (dotted ks).isEmpty = true ↔ ks = [] := by rw [List.isEmpty_iff, dotted_eq_nil h]
  rw [hdot]
  cases ks with
  | nil => simp [dotted]
  | cons l ks =>
    rw [if_neg fun hd => List.cons_ne_nil l ks (hif.mp hd)]
    clear h hif
    induction ks generalizing l with
    | nil => simp [dotted, List.intercalate_cons_cons]
    | cons m ks ih =>
      have hrest := ih m
      unfold dotted at hrest ⊢
      rw [List.cons_append, List.cons_append, List.intercalate_cons_cons, ← List.cons_append, hrest,
        List.intercalate_cons_cons]
      simp only [List.append_assoc]

/-- The keys on a way are those of objects that are led to. -/
theorem Undotted.keys {root p : Ref} {ks : List Bytes} (hu : Undotted σ root) (h : Leads σ root ks p) :
    ∀ k ∈ ks, k ≠ [] ∧ 46 ∉ k := by
  induction h with
  | here r => exact fun k hk => absurd hk List.not_mem_nil
  | @step r q p obj k ks hv hm _ ih =>
    intro k' hk'
    rcases List.mem_cons.mp hk' with rfl | hk'
    · exact hu [] r obj (.here r) hv (k', q) hm
    · exact ih (fun ks r obj hl => hu (k :: ks) r obj (.step hv hm hl)) k' hk'

/-- A key of an object has one pointer. -/
theorem ordered_unique {obj : List (Bytes × Ref)} {k : Bytes} {q q' : Ref}
    (h : (Value.object obj : Value D).Ordered) (hm : (k, q) ∈ obj) (hm' : (k, q') ∈ obj) : q = q' := by
  have hnodup : (obj.map (·.1)).Nodup := by
    apply List.Pairwise.imp _ (show (obj.map (·.1)).Pairwise (· < ·) from h)
    intro a b hlt heq
    rw [heq] at hlt
    exact List.lt_irrefl b hlt
  exact (Prod.mk.inj (List.inj_on_of_nodup_map hnodup hm hm' rfl)).2

/-- In a tree the keys lead to one node at most. -/
theorem Leads.unique {root p p' : Ref} {t : Json.JsonNode D} {ks : List Bytes} (ht : TreeOf σ root t)
    (h : Leads σ root ks p) (h' : Leads σ root ks p') : p = p' := by
  induction h generalizing t with
  | here r =>
    cases h'
    rfl
  | @step r q p obj k ks hv hm _ ih =>
    cases h' with
    | @step _ q' _ obj' _ _ hv' hm' h' =>
      obtain rfl : obj = obj' := by
        rw [hv] at hv'
        cases hv'
        rfl
      obtain ⟨v, ts, hval, hord, hts, -⟩ := ht.cases
      obtain rfl : Value.object obj = v := Option.some.inj (hv.symm.trans hval)
      have hsame : q = q' := ordered_unique hord hm hm'
      obtain rfl := hsame
      obtain ⟨d, -, hd⟩ := Json.forall₂_mem hts hm
      exact ih hd h'

/-! ## What is listed -/

/-- Each round of a loop over members appends what its member gives. -/
theorem foldlM_appends {f : List (Bytes × Ref) → Bytes × Ref → Except Fault (List (Bytes × Ref))}
    {P : Bytes × Ref → Bytes × Ref → Prop} (ms : List (Bytes × Ref))
    (h : ∀ m ∈ ms, ∀ output, ∃ l, f output m = .ok (output ++ l) ∧ ∀ x, x ∈ l ↔ P m x) :
    ∀ output, ∃ l, ms.foldlM f output = .ok (output ++ l) ∧ ∀ x, x ∈ l ↔ ∃ m ∈ ms, P m x := by
  induction ms with
  | nil => exact fun output => ⟨[], by simp [pure, Except.pure], by simp⟩
  | cons m ms ih =>
    intro output
    obtain ⟨l, hl, hmem⟩ := h m List.mem_cons_self output
    obtain ⟨l', hl', hmem'⟩ := ih (fun m' hm' => h m' (List.mem_cons_of_mem m hm')) (output ++ l)
    refine ⟨l ++ l', ?_, fun x => ?_⟩
    · rw [List.foldlM_cons, hl]
      exact hl'.trans (by rw [List.append_assoc])
    · rw [List.mem_append, hmem, hmem']
      simp

/-- What is listed at a node the path leads to: the nodes below it, and itself but at the root. -/
def Listed (σ : Store (Value D)) (path : List Bytes) (r : Ref) (x : Bytes × Ref) : Prop :=
  ∃ ks, Leads σ r ks x.2 ∧ x.1 = dotted (path ++ ks) ∧ path ++ ks ≠ []

/-- A node and its members. -/
theorem listed_iff {path : List Bytes} {r : Ref} {x : Bytes × Ref} :
    Listed σ path r x ↔ (path ≠ [] ∧ x = (dotted path, r)) ∨
      ∃ obj, σ.value r = some (.object obj) ∧ ∃ m ∈ obj, Listed σ (path ++ [m.1]) m.2 x := by
  constructor
  · intro h
    obtain ⟨ks, hl, hx, hne⟩ := h
    cases hl with
    | here =>
      rw [List.append_nil] at hx hne
      exact .inl ⟨hne, Prod.ext hx rfl⟩
    | @step _ q _ obj k ks hv hm hl =>
      exact .inr ⟨obj, hv, (k, q), hm, ks, hl, by rw [hx]; simp, by simp⟩
  · intro h
    rcases h with ⟨hne, rfl⟩ | ⟨obj, hv, m, hm, ks, hl, hx, -⟩
    · exact ⟨[], .here r, by rw [List.append_nil], by rwa [List.append_nil]⟩
    · exact ⟨m.1 :: ks, .step hv hm hl, by rw [hx]; simp, by simp⟩

theorem Undotted.member {r : Ref} {obj : List (Bytes × Ref)} {m : Bytes × Ref} (hu : Undotted σ r)
    (hv : σ.value r = some (.object obj)) (hm : m ∈ obj) : Undotted σ m.2 :=
  fun ks q obj' hl => hu (m.1 :: ks) q obj' (.step hv hm hl)

/-- What a node adds for itself. -/
theorem self_spec {path : List Bytes} (hpath : ∀ k ∈ path, k ≠ []) (r : Ref) (output : List (Bytes × Ref)) :
    ∃ self : List (Bytes × Ref),
      (if (dotted path).isEmpty then output else output ++ [(dotted path, r)]) = output ++ self ∧
        ∀ x, x ∈ self ↔ path ≠ [] ∧ x = (dotted path, r) := by
  have hempty : (dotted path).isEmpty = true ↔ path = [] := by rw [List.isEmpty_iff, dotted_eq_nil hpath]
  by_cases hnil : path = []
  · exact ⟨[], by rw [if_pos (hempty.mpr hnil), List.append_nil], by simp [hnil]⟩
  · exact ⟨[(dotted path, r)], by rw [if_neg fun hd => hnil (hempty.mp hd)], by simp [hnil]⟩

theorem listAllMember_spec : ∀ (n : Nat) {r : Ref} {t : Json.JsonNode D} {path : List Bytes}, TreeAt n σ r t →
    Undotted σ r → (∀ k ∈ path, k ≠ []) → ∀ fuel, n ≤ fuel → ∀ output,
      ∃ l, listAllMember σ fuel (dotted path) r output = .ok (output ++ l) ∧ ∀ x, x ∈ l ↔ Listed σ path r x := by
  intro n
  induction n with
  | zero =>
    intro r t path h
    exact h.elim
  | succ n ih =>
    intro r t path h hu hpath fuel hfuel output
    obtain ⟨fuel, rfl⟩ : ∃ m, fuel = m + 1 := ⟨fuel - 1, by omega⟩
    obtain ⟨v, ts, hv, -, hts, -⟩ := h
    obtain ⟨self, hself, hmem⟩ := self_spec hpath r output
    rw [listAllMember]
    simp only [hself, hv]
    by_cases hobj : ∃ obj, v = .object obj
    · obtain ⟨obj, rfl⟩ := hobj
      have hmembers : ∀ m ∈ obj, ∀ output, ∃ l,
          listAllMember σ fuel (if (dotted path).isEmpty then m.1 else dotted path ++ lit "." ++ m.1) m.2 output =
            .ok (output ++ l) ∧ ∀ x, x ∈ l ↔ Listed σ (path ++ [m.1]) m.2 x := by
        intro m hm output
        obtain ⟨d, -, hd⟩ := Json.forall₂_mem hts hm
        have hkey := (hu [] r obj (.here r) hv m hm).1
        have hpath' : ∀ k ∈ path ++ [m.1], k ≠ [] := by
          intro k hk
          rcases List.mem_append.mp hk with hk | hk
          · exact hpath k hk
          · rw [List.mem_singleton.mp hk]
            exact hkey
        have hnext := ih hd (hu.member hv hm) hpath' fuel (by omega) output
        rwa [dotted_snoc hpath] at hnext
      obtain ⟨l, hl, hlmem⟩ := foldlM_appends obj hmembers (output ++ self)
      refine ⟨self ++ l, hl.trans (by rw [List.append_assoc]), fun x => ?_⟩
      rw [List.mem_append, hmem, hlmem, listed_iff]
      refine or_congr_right ⟨fun hx => ⟨obj, hv, hx⟩, fun hx => ?_⟩
      obtain ⟨obj', hv', hx⟩ := hx
      rw [hv, Option.some.injEq, Value.object.injEq] at hv'
      rwa [← hv'] at hx
    · refine ⟨self, ?_, fun x => ?_⟩
      · cases v with
        | object obj => exact absurd ⟨obj, rfl⟩ hobj
        | _ => rfl
      · rw [hmem, listed_iff]
        refine ⟨.inl, fun hx => hx.resolve_right fun hx => ?_⟩
        obtain ⟨obj, hv', -⟩ := hx
        rw [hv, Option.some.injEq] at hv'
        exact hobj ⟨obj, hv'⟩

/-! ## What is inserted -/

/-- An entry is found when it was there or is the one inserted, unless its key had another. -/
theorem insertItem_lookup {m : Items} {k : Bytes} {q : Ref} (hm : ∀ p, m.lookup k = some p → p = q) (s : Bytes)
    (p : Ref) : (insertItem m (k, q)).lookup s = some p ↔ m.lookup s = some p ∨ (s, p) = (k, q) := by
  unfold insertItem
  by_cases hk : k ∈ m
  · rw [if_pos hk]
    refine ⟨.inl, fun h => h.elim id fun heq => ?_⟩
    obtain ⟨rfl, rfl⟩ := Prod.mk.inj heq
    obtain ⟨p', hp'⟩ := Option.isSome_iff_exists.mp (AList.lookup_isSome.mpr hk)
    rw [hp', hm p' hp']
  · rw [if_neg hk, lookup_insert_eq]
    by_cases hs : s = k
    · have hnone : m.lookup k = none := AList.lookup_eq_none.mpr hk
      rw [if_pos hs, hs, hnone, Option.some.injEq, Prod.mk.injEq]
      simp [eq_comm]
    · rw [if_neg hs, Prod.mk.injEq]
      simp [hs]

/-- The first entry of a key stays; so with one entry for each key all of them are found. -/
theorem lookup_insertItem {l : List (Bytes × Ref)} : ∀ (m : Items),
    (∀ s p, m.lookup s = some p → ∀ p', (s, p') ∈ l → p' = p) → (∀ s p p', (s, p) ∈ l → (s, p') ∈ l → p = p') →
    ∀ s p, (l.foldl insertItem m).lookup s = some p ↔ m.lookup s = some p ∨ (s, p) ∈ l := by
  induction l with
  | nil => exact fun m _ _ s p => by simp
  | cons it l ih =>
    intro m hm hl s p
    obtain ⟨k, q⟩ := it
    have hstep := insertItem_lookup fun p h => (hm k p h q List.mem_cons_self).symm
    have htail := ih (insertItem m (k, q)) (fun s p hlook p' hp' => ?_)
      (fun s p p' h h' => hl s p p' (List.mem_cons_of_mem _ h) (List.mem_cons_of_mem _ h')) s p
    · rw [List.foldl_cons, htail, hstep, List.mem_cons, or_assoc]
    · rcases (hstep s p).mp hlook with hold | hnew
      · exact hm s p hold p' (List.mem_cons_of_mem _ hp')
      · exact hl s p' p (List.mem_cons_of_mem _ hp') (by rw [hnew]; exact List.mem_cons_self)

/-- The map has each node that keys lead to under its dotted key, and nothing else. -/
theorem config_lookup_iff {root : Ref} {t : Json.JsonNode D} {obj : List (Bytes × Ref)} (ht : TreeOf σ root t)
    (hroot : σ.value root = some (.object obj)) (hkeys : Undotted σ root) :
    ∃ n, ∀ fuel, n ≤ fuel → ∃ map, config σ fuel (some root) = .ok map ∧
      ∀ s p, map.lookup s = some p ↔ ∃ ks, ks ≠ [] ∧ Leads σ root ks p ∧ s = dotted ks := by
  obtain ⟨n, hn⟩ := ht
  refine ⟨n, fun fuel hfuel => ?_⟩
  obtain ⟨l, hl, hmem⟩ := @listAllMember_spec D σ n root t [] hn hkeys (by simp) fuel hfuel []
  have hlisted : ∀ s p, (s, p) ∈ l ↔ ∃ ks, ks ≠ [] ∧ Leads σ root ks p ∧ s = dotted ks := by
    intro s p
    rw [hmem]
    constructor
    · intro h
      obtain ⟨ks, hks, hs, hne⟩ := h
      exact ⟨ks, hne, hks, hs⟩
    · intro h
      obtain ⟨ks, hne, hks, hs⟩ := h
      exact ⟨ks, hks, hs, hne⟩
  have hone : ∀ s p p', (s, p) ∈ l → (s, p') ∈ l → p = p' := by
    intro s p p' h h'
    obtain ⟨ks, hne, hks, hs⟩ := (hlisted s p).mp h
    obtain ⟨ks', hne', hks', hs'⟩ := (hlisted s p').mp h'
    have heq : ks = ks' := dotted_inj hne hne' (fun k hk => (hkeys.keys hks k hk).2)
      (fun k hk => (hkeys.keys hks' k hk).2) (hs.symm.trans hs')
    rw [← heq] at hks'
    exact hks.unique ⟨n, hn⟩ hks'
  refine ⟨l.foldl insertItem ∅, ?_, fun s p => ?_⟩
  · simp only [config, hroot]
    have hnil : listAllMember σ fuel [] root [] = .ok l := hl
    rw [hnil]
    rfl
  · rw [lookup_insertItem ∅ (by simp) hone, ← hlisted]
    simp

/-- `{"a": {"b": 7}}` -/
def small : Store (Value Unit) := ⟨[some (.object [(lit "a", 1)]), some (.object [(lit "b", 2)]), some (.integer 7)], []⟩

theorem undotted_small : Undotted small 0 := by
  intro ks r obj _ hv m hm
  match r with
  | 0 | 1 =>
    cases hv
    rw [List.mem_singleton.mp hm]
    exact ⟨by decide, by decide⟩
  | 2 => cases hv
  | r + 3 => cases hv

theorem config_small : ∃ n, ∀ fuel, n ≤ fuel → ∃ map, config small fuel (some 0) = .ok map ∧
    map.lookup (lit "a.b") = some 2 := by
  have hleaf : TreeOf small 2 (.integer 7) := @TreeOf.intro _ small 2 (.integer 7) [] rfl trivial .nil
  have hinner : TreeOf small 1 (.object [(lit "b", .integer 7)]) :=
    @TreeOf.intro _ small 1 (.object [(lit "b", 2)]) [(lit "b", .integer 7)] rfl (List.pairwise_singleton ..)
      (.cons ⟨rfl, hleaf⟩ .nil)
  have htree : TreeOf small 0 (.object [(lit "a", .object [(lit "b", .integer 7)])]) :=
    @TreeOf.intro _ small 0 (.object [(lit "a", 1)]) [(lit "a", .object [(lit "b", .integer 7)])] rfl
      (List.pairwise_singleton ..) (.cons ⟨rfl, hinner⟩ .nil)
  obtain ⟨n, hn⟩ := config_lookup_iff htree rfl undotted_small
  refine ⟨n, fun fuel hfuel => ?_⟩
  obtain ⟨map, hmap, hlook⟩ := hn fuel hfuel
  refine ⟨map, hmap, (hlook (lit "a.b") 2).mpr ⟨[lit "a", lit "b"], by simp, ?_, by decide⟩⟩
  exact .step rfl List.mem_cons_self (.step rfl List.mem_cons_self (.here 2))

/-! ## Queries -/

/-- A query by a dotted key has the value of the node the keys lead to, if it has the type; any other query the
    default. -/
theorem query_dotted {T : Type} (get : Value D → Option T) (defaultValue : T) {root : Ref} {map : Items}
    (hmap : ∀ s p, map.lookup s = some p ↔ ∃ ks, ks ≠ [] ∧ Leads σ root ks p ∧ s = dotted ks) (s : Bytes) :
    (∀ ks p v, ks ≠ [] → Leads σ root ks p → s = dotted ks → σ.value p = some v →
      query σ get map s defaultValue = (get v).getD defaultValue) ∧
    ((¬ ∃ ks p, ks ≠ [] ∧ Leads σ root ks p ∧ s = dotted ks) → query σ get map s defaultValue = defaultValue) := by
  constructor
  · intro ks p v hne hks hs hv
    rw [query, (hmap s p).mpr ⟨ks, hne, hks, hs⟩, Option.bind_some, hv, Option.bind_some]
  · intro hno
    have hnone : map.lookup s = none := by
      cases hlook : map.lookup s with
      | none => rfl
      | some p =>
        obtain ⟨ks, hks⟩ := (hmap s p).mp hlook
        exact absurd ⟨ks, p, hks⟩ hno
    rw [query, hnone, Option.bind_none, Option.getD_none]

end HahaWeb.Config
