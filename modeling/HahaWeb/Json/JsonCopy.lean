/-
  HahaWeb.Json.JsonCopy — `haha_json/jsonValue.cpp`: `copyFrom`, the copy constructors, and
  the assignment of containers, over a store of nodes owned by shared pointers.

  An assignment lets go of the target's children and then reads the source. Proved: the
  target has the source's tree afterwards, in new nodes, and nothing else is changed but
  what it alone held, exactly when the target and the source have another owner than what
  is let go of, the source is not the target, unless it is empty, and wherever the target
  stands below the i-th child of the source its old tree is what the first i children make
  (`assign_copies_iff`). The tree is the source's from before the assignment.

  The pointers of a container are not null, and an address is not used again. Not modelled:
  nodes of the type `UNKOWN`, which neither the parser nor `add` makes.
-/

import HahaWeb.Json.Grammar
import HahaWeb.Library.Shared

namespace HahaWeb.Json

open Shared

variable {D : Type}

/-! ## Nodes -/

abbrev Ref := Nat

/-- `val_` of a node, and with it `type_`. -/
inductive Value (D : Type) where
  | string (s : Bytes)
  | integer (n : Int)
  | double (d : D)
  | boolean (b : Bool)
  | null
  | array (elements : List Ref)
  | object (members : List (Bytes × Ref))

/-- `std::map::insert`: a key that is there keeps its pointer. -/
def insertPointer (k : Bytes) (p : Ref) : List (Bytes × Ref) → List (Bytes × Ref)
  | [] => [(k, p)]
  | x :: l => if k = x.1 then x :: l else if k < x.1 then (k, p) :: x :: l else x :: insertPointer k p l

namespace Value

/-- The pointers of a container in its order; elements have no keys. -/
def items : Value D → List (Bytes × Ref)
  | array ps => ps.map fun p => ([], p)
  | object ms => ms
  | _ => []

instance : Node (Value D) where
  pointers v := v.items.map (·.2)

/-- The value, a container with nothing in it. -/
def blank : Value D → Value D
  | array _ => array []
  | object _ => object []
  | v => v

/-- `emplace_back`, and `insert`. -/
def add (key : Bytes) (p : Ref) : Value D → Value D
  | array ps => array (ps ++ [p])
  | object ms => object (insertPointer key p ms)
  | v => v

def kind : Value D → Option Container
  | array _ => some .array
  | object _ => some .object
  | _ => none

/-- A map is in the order of its keys. -/
def Ordered : Value D → Prop
  | object ms => (ms.map (·.1)).Pairwise (· < ·)
  | _ => True

/-- The tree of a node with this value and the trees `ts` below it. -/
def tree (ts : List (Bytes × JsonNode D)) : Value D → JsonNode D
  | string s => .string s
  | integer n => .integer n
  | double d => .double d
  | boolean b => .boolean b
  | null => .null
  | array _ => .array (ts.map (·.2))
  | object _ => .object ts

end Value

/-- A container that holds these. -/
def Container.value (k : Container) (xs : List (Bytes × Ref)) : Value D :=
  match k with
  | .array => .array (xs.map (·.2))
  | .object => .object xs

def Container.tree (k : Container) (ts : List (Bytes × JsonNode D)) : JsonNode D :=
  match k with
  | .array => .array (ts.map (·.2))
  | .object => .object ts

/-- The trees below a tree. -/
def JsonNode.items : JsonNode D → List (Bytes × JsonNode D)
  | .array es => es.map fun e => ([], e)
  | .object ms => ms
  | _ => []

/-! ## Copies and assignments -/

def addTo (σ : Store (Value D)) (dst : Ref) (key : Bytes) (p : Ref) : Store (Value D) :=
  σ.set dst ((σ.value dst).map (·.add key p))

/-- The loop over a container: each child is copied, and the copy put into `dst`. -/
def copyItems (copy : Store (Value D) → Ref → Except Fault (Store (Value D) × Ref)) (σ : Store (Value D)) (dst : Ref)
    (xs : List (Bytes × Ref)) : Except Fault (Store (Value D)) :=
  xs.foldlM (fun σ x => (copy σ x.2).map fun r => addTo r.1 dst x.1 r.2) σ

/-- `copyFrom`, with the copy constructor it calls. -/
def copyFrom : Nat → Store (Value D) → Ref → Except Fault (Store (Value D) × Ref)
  | 0, _, _ => .error .hang
  | fuel + 1, σ, src => (σ.value src).elim (.error .dangling) fun v =>
    (copyItems (copyFrom fuel) (σ.alloc v.blank) σ.cells.length v.items).map (·, σ.cells.length)

/-- `operator=` of the containers: the target is emptied, and with that its old children are
    let go of; then the source is read. -/
def assign (k : Container) (fuel : Nat) (σ : Store (Value D)) (a b : Ref) : Except Fault (Store (Value D)) :=
  let σ := (σ.set a (some (k.value []))).release (σ.pointers a)
  if (σ.value a).isNone then .error .dangling
  else (σ.value b).elim (.error .dangling) fun v => copyItems (copyFrom fuel) σ a v.items

def JsonArray.assign : Nat → Store (Value D) → Ref → Ref → Except Fault (Store (Value D)) := Json.assign .array

def JsonObject.assign : Nat → Store (Value D) → Ref → Ref → Except Fault (Store (Value D)) := Json.assign .object

/-! ## Trees -/

/-- The node has the tree, of at most `n` levels. -/
def TreeAt : Nat → Store (Value D) → Ref → JsonNode D → Prop
  | 0, _, _, _ => False
  | n + 1, σ, r, t => ∃ v ts, σ.value r = some v ∧ v.Ordered ∧
      List.Forall₂ (fun x d => x.1 = d.1 ∧ TreeAt n σ x.2 d.2) v.items ts ∧ t = v.tree ts

def TreeOf (σ : Store (Value D)) (r : Ref) (t : JsonNode D) : Prop := ∃ n, TreeAt n σ r t

/-- What an assignment is to do: the target has the tree, in nodes of its own that are new,
    and no other node is changed but what stood below the target and is destroyed. -/
structure Copied (σ σ' : Store (Value D)) (a : Ref) (t : JsonNode D) : Prop where
  tree : TreeOf σ' a t
  apart : ∀ r, σ'.Reaches a r → r = a ∨ σ.cells.length ≤ r
  kept : ∀ r v, r ≠ a → σ.value r = some v → σ'.value r = some v ∨ σ'.value r = none ∧ σ.Below a r


section

variable {α β : Type} {R R' : α → β → Prop} {xs : List α} {ts : List β}

theorem forall₂_mem (h : List.Forall₂ R xs ts) {x : α} (hx : x ∈ xs) : ∃ d, R x d := by
  induction h with
  | nil => cases hx
  | cons hR _ ih =>
    rcases List.mem_cons.mp hx with rfl | hx
    · exact ⟨_, hR⟩
    · exact ih hx

theorem forall₂_imp (h : List.Forall₂ R xs ts) (himp : ∀ x ∈ xs, ∀ d, R x d → R' x d) : List.Forall₂ R' xs ts := by
  induction h with
  | nil => exact .nil
  | cons hR _ ih =>
    exact .cons (himp _ List.mem_cons_self _ hR) (ih fun x hx => himp x (List.mem_cons_of_mem _ hx))

end

section

variable {σ τ : Store (Value D)} {r p a : Ref} {v : Value D} {t u : JsonNode D} {ts us : List (Bytes × JsonNode D)}
  {xs : List (Bytes × Ref)}

/-- The trees `ts` are those of the pointers, with the same keys. -/
def Trees (tree : Ref → JsonNode D → Prop) (xs : List (Bytes × Ref)) (ts : List (Bytes × JsonNode D)) : Prop :=
  List.Forall₂ (fun x d => x.1 = d.1 ∧ tree x.2 d.2) xs ts

theorem Trees.imp {tree tree' : Ref → JsonNode D → Prop} (h : Trees tree xs ts)
    (himp : ∀ x ∈ xs, ∀ t, tree x.2 t → tree' x.2 t) : Trees tree' xs ts :=
  forall₂_imp h fun x hx d hd => ⟨hd.1, himp x hx d.2 hd.2⟩

theorem Trees.keys {tree : Ref → JsonNode D → Prop} (h : Trees tree xs ts) : xs.map (·.1) = ts.map (·.1) := by
  induction h with
  | nil => rfl
  | cons hx _ ih => rw [List.map_cons, List.map_cons, ih, hx.1]

theorem TreeAt.mono : ∀ {n m : Nat}, n ≤ m → ∀ {r : Ref} {t : JsonNode D}, TreeAt n σ r t → TreeAt m σ r t := by
  intro n
  induction n with
  | zero =>
    intro _ _ _ _ h
    exact h.elim
  | succ n ih =>
    intro m hm r t h
    obtain ⟨m, rfl⟩ := Nat.exists_eq_add_of_le' (show 1 ≤ m by omega)
    obtain ⟨v, ts, hv, ho, hts, ht⟩ := h
    exact ⟨v, ts, hv, ho, Trees.imp hts fun x _ t hx => ih (by omega) hx, ht⟩

theorem Trees.bound (h : Trees (TreeOf σ) xs ts) : ∃ n, Trees (TreeAt n σ) xs ts := by
  induction h with
  | nil => exact ⟨0, .nil⟩
  | cons hx _ ih =>
    obtain ⟨hkey, n, hn⟩ := hx
    obtain ⟨m, hm⟩ := ih
    refine ⟨max n m, .cons ⟨hkey, hn.mono (Nat.le_max_left ..)⟩ (Trees.imp hm fun x _ t hx => hx.mono ?_)⟩
    exact Nat.le_max_right ..

/-- A node over nodes that have trees. -/
theorem TreeOf.intro (hv : σ.value r = some v) (ho : v.Ordered) (h : Trees (TreeOf σ) v.items ts) :
    TreeOf σ r (v.tree ts) := by
  obtain ⟨n, hn⟩ := h.bound
  exact ⟨n + 1, v, ts, hv, ho, hn, rfl⟩

theorem TreeOf.cases (h : TreeOf σ r t) :
    ∃ v ts, σ.value r = some v ∧ v.Ordered ∧ Trees (TreeOf σ) v.items ts ∧ t = v.tree ts := by
  obtain ⟨n, hn⟩ := h
  cases n with
  | zero => exact hn.elim
  | succ n =>
    obtain ⟨v, ts, hv, ho, hts, ht⟩ := hn
    exact ⟨v, ts, hv, ho, Trees.imp hts fun x _ t hx => ⟨n, hx⟩, ht⟩

theorem owns_of_mem (hv : σ.value r = some v) {x : Bytes × Ref} (hx : x ∈ v.items) : σ.Owns r x.2 :=
  Store.owns_iff.mpr ⟨v, hv, List.mem_map_of_mem hx⟩

theorem mem_of_owns (hv : σ.value r = some v) (h : σ.Owns r p) : ∃ x ∈ v.items, x.2 = p := by
  obtain ⟨w, hw, hmem⟩ := Store.owns_iff.mp h
  obtain rfl : v = w := Option.some.inj (hv.symm.trans hw)
  exact List.mem_map.mp hmem

/-- With the same keys, the trees below are told from the tree. -/
theorem Value.tree_inj (hts : v.items.map (·.1) = ts.map (·.1)) (hus : v.items.map (·.1) = us.map (·.1)) :
    v.tree ts = v.tree us ↔ ts = us := by
  have hkeys : ts.map (·.1) = us.map (·.1) := hts.symm.trans hus
  have hpairs : ts.map (·.2) = us.map (·.2) → ts = us := by
    intro h
    rw [← List.zip_unzip ts, ← List.zip_unzip us, List.unzip_eq_map, List.unzip_eq_map]
    simp only [hkeys, h]
  refine ⟨fun h => ?_, fun h => by rw [h]⟩
  cases v with
  | array ps => exact hpairs (JsonNode.array.inj h)
  | object ms => exact JsonNode.object.inj h
  | _ => rw [List.map_eq_nil_iff.mp hts.symm, List.map_eq_nil_iff.mp hus.symm]

theorem TreeAt.unique : ∀ {n : Nat} {r : Ref} {t u : JsonNode D}, TreeAt n σ r t → TreeOf σ r u → t = u := by
  intro n
  induction n with
  | zero =>
    intro _ _ _ h
    exact h.elim
  | succ n ih =>
    intro r t u h hu
    obtain ⟨v, ts, hv, -, hts, rfl⟩ := h
    obtain ⟨w, us, hw, -, hus, rfl⟩ := hu.cases
    obtain rfl : v = w := Option.some.inj (hv.symm.trans hw)
    have hsame : ∀ {xs : List (Bytes × Ref)} {ts us : List (Bytes × JsonNode D)}, Trees (TreeAt n σ) xs ts →
        Trees (TreeOf σ) xs us → ts = us := by
      intro xs ts us hts
      induction hts generalizing us with
      | nil =>
        intro hus
        cases hus
        rfl
      | cons hx _ ihs =>
        intro hus
        cases hus with
        | cons hy hys => rw [ihs hys, Prod.ext (hx.1.symm.trans hy.1) (ih hx.2 hy.2)]
    rw [hsame hts hus]

theorem TreeOf.unique (h : TreeOf σ r t) (hu : TreeOf σ r u) : t = u := by
  obtain ⟨n, hn⟩ := h
  exact hn.unique hu

/-- What is reached from a node that has a tree is there, with a tree. -/
theorem TreeAt.reached : ∀ {n : Nat} {r : Ref} {t : JsonNode D}, TreeAt n σ r t → ∀ {x}, σ.Reaches r x →
    ∃ u, TreeOf σ x u := by
  intro n
  induction n with
  | zero =>
    intro _ _ h
    exact h.elim
  | succ n ih =>
    intro r t h x hx
    have htree : TreeOf σ r t := ⟨n + 1, h⟩
    obtain ⟨v, ts, hv, -, hts, -⟩ := h
    rcases Relation.ReflTransGen.cases_head hx with rfl | ⟨y, hown, hyx⟩
    · exact ⟨t, htree⟩
    · obtain ⟨z, hz, rfl⟩ := mem_of_owns hv hown
      obtain ⟨d, -, hd⟩ := forall₂_mem hts hz
      exact ih hd hyx

theorem TreeOf.live (h : TreeOf σ r t) {x : Ref} (hx : σ.Reaches r x) : x < σ.cells.length := by
  obtain ⟨n, hn⟩ := h
  obtain ⟨u, hu⟩ := hn.reached hx
  obtain ⟨v, -, hv, -⟩ := hu.cases
  exact Store.lt_of_value hv

/-- A tree is that of the nodes reached. -/
theorem TreeAt.frame : ∀ {n : Nat} {r : Ref} {t : JsonNode D}, TreeAt n σ r t →
    (∀ x, σ.Reaches r x → τ.value x = σ.value x) → TreeAt n τ r t := by
  intro n
  induction n with
  | zero =>
    intro _ _ h
    exact h.elim
  | succ n ih =>
    intro r t h hsame
    obtain ⟨v, ts, hv, ho, hts, ht⟩ := h
    refine ⟨v, ts, by rw [hsame r .refl, hv], ho, Trees.imp hts fun x hx t ht => ?_, ht⟩
    exact ih ht fun y hy => hsame y (.head (owns_of_mem hv hx) hy)

/-- What the target's new tree makes of a tree above it: the same tree, when the target is not
    below or had that tree before. `K` are nodes that are kept. -/
theorem TreeAt.above {K : Ref → Prop} (hK : ∀ r, K r → r ≠ a → τ.value r = σ.value r ∧ ∀ x, σ.Owns r x → K x)
    (hu : TreeOf τ a u) : ∀ {n : Nat} {r : Ref} {t : JsonNode D}, TreeAt n σ r t → K r →
    ∃ t', TreeOf τ r t' ∧ (t' = t ↔ (σ.Reaches r a → TreeOf σ a u)) := by
  intro n
  induction n with
  | zero =>
    intro _ _ h
    exact h.elim
  | succ n ih =>
    intro r t h hr
    have htree : TreeOf σ r t := ⟨n + 1, h⟩
    by_cases hra : r = a
    · subst hra
      refine ⟨u, hu, fun hut _ => hut ▸ htree, fun hold => ?_⟩
      exact (hold .refl).unique htree
    · obtain ⟨v, ts, hv, ho, hts, rfl⟩ := h
      obtain ⟨hsame, hnext⟩ := hK r hr hra
      have hall : ∀ {xs : List (Bytes × Ref)} {ts : List (Bytes × JsonNode D)}, Trees (TreeAt n σ) xs ts →
          (∀ x ∈ xs, K x.2) → ∃ ts', Trees (TreeOf τ) xs ts' ∧
            (ts' = ts ↔ ∀ x ∈ xs, σ.Reaches x.2 a → TreeOf σ a u) := by
        intro xs ts hts
        induction hts with
        | nil => exact fun _ => ⟨[], .nil, by simp⟩
        | @cons x d xs ts hx _ ihs =>
          intro hkept
          obtain ⟨t', ht', hiff⟩ := ih hx.2 (hkept x List.mem_cons_self)
          obtain ⟨ts', hts', hiff'⟩ := ihs fun y hy => hkept y (List.mem_cons_of_mem _ hy)
          refine ⟨(x.1, t') :: ts', .cons ⟨rfl, ht'⟩ hts', ?_⟩
          rw [List.cons.injEq, Prod.ext_iff, hiff', List.forall_mem_cons, ← hiff]
          simp [hx.1]
      obtain ⟨ts', hts', hiff⟩ := hall hts fun x hx => hnext x.2 (owns_of_mem hv hx)
      refine ⟨v.tree ts', TreeOf.intro (by rw [hsame, hv]) ho hts', ?_⟩
      rw [Value.tree_inj hts'.keys (Trees.keys hts), hiff]
      constructor
      · intro h hreach
        rcases Relation.ReflTransGen.cases_head hreach with heq | ⟨y, hown, hy⟩
        · exact absurd heq hra
        · obtain ⟨x, hx, rfl⟩ := mem_of_owns hv hown
          exact h x hx hy
      · exact fun h x hx hreach => h (.head (owns_of_mem hv hx) hreach)

/-! ## Copies -/

/-- The node has the tree, and all its nodes are new, from the address `N` on. -/
structure New (N : Nat) (σ : Store (Value D)) (r : Ref) (t : JsonNode D) : Prop where
  tree : TreeOf σ r t
  apart : ∀ x, σ.Reaches r x → N ≤ x

theorem New.frame {N : Nat} (h : New N σ r t) (hsame : ∀ x, σ.Reaches r x → τ.value x = σ.value x) : New N τ r t := by
  obtain ⟨n, hn⟩ := h.tree
  exact ⟨⟨n, hn.frame hsame⟩, fun x hx => h.apart x (hx.congr hsame)⟩

/-- The keys of a container: none, or in order. -/
def Keyed (k : Container) (keys : List Bytes) : Prop :=
  match k with
  | .array => ∀ key ∈ keys, key = []
  | .object => keys.Pairwise (· < ·)

theorem Keyed.left {k : Container} {keys keys' : List Bytes} (h : Keyed k (keys ++ keys')) : Keyed k keys := by
  cases k with
  | array => exact fun key hkey => h key (List.mem_append_left _ hkey)
  | object => exact (List.pairwise_append.mp h).1

theorem Value.keyed {k : Container} (hk : v.kind = some k) (ho : v.Ordered) : Keyed k (v.items.map (·.1)) := by
  cases v with
  | array ps =>
    cases hk
    intro key hkey
    simp only [Value.items, List.map_map, List.mem_map] at hkey
    obtain ⟨p, -, rfl⟩ := hkey
    rfl
  | object ms =>
    cases hk
    exact ho
  | _ => cases hk

theorem Container.ordered {k : Container} (h : Keyed k (xs.map (·.1))) : (k.value xs : Value D).Ordered := by
  cases k with
  | array => trivial
  | object => exact h

theorem insertPointer_last {key : Bytes} (h : ∀ x ∈ xs, x.1 < key) (p : Ref) :
    insertPointer key p xs = xs ++ [(key, p)] := by
  induction xs with
  | nil => rfl
  | cons x xs ih =>
    have hx := h x List.mem_cons_self
    have hne : key ≠ x.1 := fun he => absurd (he ▸ hx) (List.lt_irrefl _)
    have hnlt : ¬ key < x.1 := fun hlt => absurd (List.lt_trans hx hlt) (List.lt_irrefl _)
    rw [insertPointer, if_neg hne, if_neg hnlt, ih fun y hy => h y (List.mem_cons_of_mem _ hy), List.cons_append]

/-- What is added in order is added last. -/
theorem Container.value_add {k : Container} {key : Bytes} (h : Keyed k (xs.map (·.1) ++ [key])) (p : Ref) :
    (k.value xs : Value D).add key p = k.value (xs ++ [(key, p)]) := by
  cases k with
  | array => simp [Container.value, Value.add]
  | object =>
    have hlast : ∀ x ∈ xs, x.1 < key := by
      intro x hx
      exact (List.pairwise_append.mp h).2.2 x.1 (List.mem_map_of_mem hx) key List.mem_cons_self
    simp only [Container.value, Value.add, insertPointer_last hlast]

theorem Container.value_items {k : Container} (h : Keyed k (xs.map (·.1))) : (k.value xs : Value D).items = xs := by
  cases k with
  | array =>
    have hnil : ∀ x ∈ xs, (([], x.2) : Bytes × Ref) = x := by
      intro x hx
      rw [← h x.1 (List.mem_map_of_mem hx)]
    simp only [Container.value, Value.items, List.map_map]
    exact (List.map_congr_left hnil).trans (List.map_id _)
  | object => rfl

theorem Value.tree_eq {k : Container} (hk : v.kind = some k) : v.tree ts = k.tree ts := by
  cases v <;> cases hk <;> rfl

theorem Container.kind_value (k : Container) (xs : List (Bytes × Ref)) : (k.value xs : Value D).kind = some k := by
  cases k <;> rfl

/-- The loop has filled the container `dst` of `σ` with copies whose trees are `ts`. -/
structure Filled (σ : Store (Value D)) (dst : Ref) (k : Container) (ts : List (Bytes × JsonNode D))
    (τ : Store (Value D)) : Prop where
  size : σ.cells.length ≤ τ.cells.length
  kept : ∀ r, r < σ.cells.length → r ≠ dst → τ.value r = σ.value r
  filled : ∃ ys, τ.value dst = some (k.value ys) ∧ Trees (New σ.cells.length τ) ys ts

/-- What is copied: a new node with the tree, and nothing changed. -/
def Copies (σ : Store (Value D)) (src : Ref) (t : JsonNode D) : Prop :=
  ∃ m σ' res, (∀ fuel, m ≤ fuel → copyFrom fuel σ src = .ok (σ', res)) ∧ σ.cells.length ≤ σ'.cells.length ∧
    (∀ r, r < σ.cells.length → σ'.value r = σ.value r) ∧ New σ.cells.length σ' res t

variable {dst : Ref} {k : Container} {ds : List (Bytes × JsonNode D)}

theorem Filled.tree (h : Filled σ dst k ds τ) (hkeys : Keyed k (ds.map (·.1))) : TreeOf τ dst (k.tree ds) := by
  obtain ⟨ys, hv, hys⟩ := h.filled
  have hitems : (k.value ys : Value D).items = ys := Container.value_items (by rwa [hys.keys])
  have htree := TreeOf.intro hv (Container.ordered (by rwa [hys.keys]))
    (by rw [hitems]; exact hys.imp fun _ _ _ hx => hx.tree)
  rwa [Value.tree_eq (k.kind_value ys)] at htree

/-- Below the container all is new. -/
theorem Filled.apart (h : Filled σ dst k ds τ) (hkeys : Keyed k (ds.map (·.1))) {x : Ref} (hx : τ.Reaches dst x) :
    x = dst ∨ σ.cells.length ≤ x := by
  obtain ⟨ys, hv, hys⟩ := h.filled
  have hitems : (k.value ys : Value D).items = ys := Container.value_items (by rwa [hys.keys])
  rcases Relation.ReflTransGen.cases_head hx with heq | ⟨y, hown, hyx⟩
  · exact .inl heq.symm
  · obtain ⟨z, hz, rfl⟩ := mem_of_owns hv hown
    rw [hitems] at hz
    obtain ⟨d, -, hd⟩ := forall₂_mem hys hz
    exact .inr (hd.apart x hyx)

/-- One child is copied, and the copy put into the container. -/
theorem Filled.add {key : Bytes} {σ' : Store (Value D)} {res : Ref} (h : Filled σ dst k ds τ)
    (hdst : dst < σ.cells.length) (hkeys : Keyed k (ds.map (·.1) ++ [key])) (hsize : τ.cells.length ≤ σ'.cells.length)
    (hkept : ∀ r, r < τ.cells.length → σ'.value r = τ.value r) (hnew : New τ.cells.length σ' res t) :
    Filled σ dst k (ds ++ [(key, t)]) (addTo σ' dst key res) := by
  obtain ⟨ys, hv, hys⟩ := h.filled
  have hv' : σ'.value dst = some (k.value ys) := by rw [hkept dst (hdst.trans_le h.size), hv]
  have hother : ∀ r, r ≠ dst → (addTo σ' dst key res).value r = σ'.value r := fun r hr => Store.value_set_of_ne hr
  have hne : ∀ r, σ.cells.length ≤ r → r ≠ dst := by
    intro r hr heq
    rw [heq] at hr
    exact absurd hdst (Nat.not_lt.mpr hr)
  refine ⟨h.size.trans (hsize.trans (by simp [addTo])), fun r hr hrd => ?_, ys ++ [(key, res)], ?_, ?_⟩
  · rw [hother r hrd, hkept r (hr.trans_le h.size), h.kept r hr hrd]
  · rw [addTo, Store.value_set_self (hdst.trans_le (h.size.trans hsize)), hv', Option.map_some,
      Container.value_add (by rwa [hys.keys])]
  · refine List.rel_append (hys.imp fun x _ t hx => ?_) (.cons ⟨rfl, ?_⟩ .nil)
    · refine hx.frame fun y hy => ?_
      rw [hother y (hne y (hx.apart y hy)), hkept y (hx.tree.live hy)]
    · have hres : New σ.cells.length σ' res t := ⟨hnew.tree, fun y hy => h.size.trans (hnew.apart y hy)⟩
      exact hres.frame fun y hy => hother y (hne y (hres.apart y hy))

/-- The loop, over children each of which is copied at every stage: the copies have the old
    trees exactly when the target, where it is below a child, had what it holds by then. -/
theorem copyItems_spec {has : Ref → JsonNode D → Prop} (hit : Ref → Prop) (old : JsonNode D → Prop)
    (hdst : dst < σ.cells.length)
    (hitem : ∀ p t, has p t → ∀ ds τ, Keyed k (ds.map (·.1)) → Filled σ dst k ds τ →
      ∃ t', Copies τ p t' ∧ (t' = t ↔ (hit p → old (k.tree ds)))) :
    ∀ {xs : List (Bytes × Ref)} {ts : List (Bytes × JsonNode D)}, Trees has xs ts → ∀ {ds τ},
      Filled σ dst k ds τ → Keyed k (ds.map (·.1) ++ xs.map (·.1)) →
      ∃ m τ' ds', (∀ fuel, m ≤ fuel → copyItems (copyFrom fuel) τ dst xs = .ok τ') ∧ Filled σ dst k (ds ++ ds') τ' ∧
        xs.map (·.1) = ds'.map (·.1) ∧
        (ds' = ts ↔ ∀ i x, xs[i]? = some x → hit x.2 → old (k.tree (ds ++ ts.take i))) := by
  intro xs ts hts
  induction hts with
  | nil =>
    intro ds τ hfilled _
    exact ⟨0, τ, [], fun _ _ => rfl, by simpa using hfilled, rfl, by simp⟩
  | @cons x d xs ts hx _ ih =>
    intro ds τ hfilled hkeys
    rw [List.map_cons] at hkeys
    have hkeysd : Keyed k (ds.map (·.1)) := hkeys.left
    have hkeys1 : Keyed k ((ds.map (·.1) ++ [x.1]) ++ xs.map (·.1)) := by simpa using hkeys
    obtain ⟨t', ⟨m1, σ', res, hcopy, hsize, hkept, hnew⟩, hiff⟩ := hitem x.2 d.2 hx.2 ds τ hkeysd hfilled
    have hadd := hfilled.add hdst hkeys1.left hsize hkept hnew
    obtain ⟨m2, τ', ds', hloop, hend, hkeys', hiff'⟩ := ih hadd (by simpa using hkeys)
    refine ⟨max m1 m2, τ', (x.1, t') :: ds', fun fuel hfuel => ?_, by simpa using hend,
      by rw [List.map_cons, List.map_cons, hkeys'], ?_⟩
    · rw [copyItems, List.foldlM_cons, hcopy fuel (le_of_max_le_left hfuel)]
      exact hloop fuel (le_of_max_le_right hfuel)
    · have hsplit : (x.1, t') :: ds' = d :: ts ↔ t' = d.2 ∧ ds' = ts := by
        rw [List.cons.injEq, Prod.ext_iff]
        simp [hx.1]
      rw [hsplit]
      constructor
      · intro h i y hy hhit
        obtain ⟨ht, hds⟩ := h
        cases i with
        | zero =>
          cases hy
          simpa using hiff.mp ht hhit
        | succ i =>
          have hold := hiff'.mp hds i y hy hhit
          rw [ht, hx.1] at hold
          simpa using hold
      · intro h
        have ht : t' = d.2 := hiff.mpr fun hhit => by simpa using h 0 x rfl hhit
        refine ⟨ht, hiff'.mpr fun i y hy hhit => ?_⟩
        have hold := h (i + 1) y hy hhit
        rw [ht, hx.1]
        simpa using hold

/-- A scalar is its value; of a container the kind is left. -/
theorem Value.blank_cases (v : Value D) :
    (v.items = [] ∧ v.blank = v) ∨ ∃ k : Container, v.kind = some k ∧ v.blank = k.value [] := by
  cases v with
  | array ps => exact .inr ⟨.array, rfl, rfl⟩
  | object ms => exact .inr ⟨.object, rfl, rfl⟩
  | _ => exact .inl ⟨rfl, rfl⟩

theorem copyFrom_succ (fuel : Nat) {src : Ref} (hv : σ.value src = some v) : copyFrom (fuel + 1) σ src =
    (copyItems (copyFrom fuel) (σ.alloc v.blank) σ.cells.length v.items).map (·, σ.cells.length) := by
  rw [copyFrom, hv]
  rfl

/-- What has a tree is copied, given the fuel for it. -/
theorem copyFrom_spec : ∀ {n : Nat} {σ : Store (Value D)} {src : Ref} {t : JsonNode D}, TreeAt n σ src t →
    Copies σ src t := by
  intro n
  induction n with
  | zero =>
    intro _ _ _ h
    exact h.elim
  | succ n ih =>
    intro σ src t h
    obtain ⟨v, ts, hv, ho, hts, rfl⟩ := h
    have hdst : σ.cells.length < (σ.alloc v.blank).cells.length := by simp
    rcases v.blank_cases with ⟨hnil, hblank⟩ | ⟨k, hk, hblank⟩
    · have hv' : (σ.alloc v.blank).value σ.cells.length = some v := by rw [Store.value_alloc_self, hblank]
      have hts' : ts = [] := by
        rw [hnil] at hts
        cases hts
        rfl
      refine ⟨1, σ.alloc v.blank, σ.cells.length, fun fuel hfuel => ?_, hdst.le, fun r hr => Store.value_alloc hr,
        ?_, ?_⟩
      · obtain ⟨fuel, rfl⟩ := Nat.exists_eq_add_of_le' hfuel
        rw [copyFrom_succ fuel hv, hnil]
        rfl
      · rw [hts']
        exact TreeOf.intro hv' ho (by rw [hnil]; exact .nil)
      · intro x hx
        rcases Relation.ReflTransGen.cases_head hx with rfl | ⟨y, hown, -⟩
        · exact Nat.le_refl _
        · obtain ⟨z, hz, -⟩ := mem_of_owns hv' hown
          rw [hnil] at hz
          cases hz
    · have hstart : Filled (σ.alloc v.blank) σ.cells.length k [] (σ.alloc v.blank) :=
        ⟨Nat.le_refl _, fun _ _ _ => rfl, [], by rw [Store.value_alloc_self, hblank], .nil⟩
      have hkeyed : Keyed k (v.items.map (·.1)) := Value.keyed hk ho
      -- the new node is below none of the children
      have hitem : ∀ p t, TreeAt n σ p t → ∀ ds τ, Keyed k (ds.map (·.1)) →
          Filled (σ.alloc v.blank) σ.cells.length k ds τ → ∃ t', Copies τ p t' ∧ (t' = t ↔ (False → True)) := by
        intro p t hp ds τ _ hfilled
        refine ⟨t, ih (hp.frame fun x hx => ?_), by simp⟩
        have hlt : x < σ.cells.length := TreeOf.live ⟨n, hp⟩ hx
        rw [hfilled.kept x (hlt.trans hdst) hlt.ne, Store.value_alloc hlt]
      obtain ⟨m, τ, ds, hloop, hfilled, hkeys, hiff⟩ :=
        copyItems_spec (fun _ => False) (fun _ => True) hdst hitem hts hstart hkeyed
      obtain rfl : ds = ts := hiff.mpr fun _ _ _ h => h.elim
      rw [List.nil_append] at hfilled
      rw [hkeys] at hkeyed
      refine ⟨m + 1, τ, σ.cells.length, fun fuel hfuel => ?_, ?_, fun r hr => ?_, ?_⟩
      · obtain ⟨fuel, rfl⟩ := Nat.exists_eq_add_of_le' (show 1 ≤ fuel by omega)
        rw [copyFrom_succ fuel hv, hloop fuel (by omega)]
        rfl
      · exact hdst.le.trans hfilled.size
      · rw [hfilled.kept r (hr.trans hdst) hr.ne, Store.value_alloc hr]
      · rw [Value.tree_eq hk]
        refine ⟨hfilled.tree hkeyed, fun x hx => ?_⟩
        rcases hfilled.apart hkeyed hx with rfl | hle
        · exact Nat.le_refl _
        · exact hdst.le.trans hle

/-! ## Assignments -/

theorem Container.tree_items (h : Keyed k (ts.map (·.1))) : (k.tree ts : JsonNode D).items = ts := by
  cases k with
  | array =>
    have hnil : ∀ d ∈ ts, (([], d.2) : Bytes × JsonNode D) = d := by
      intro d hd
      rw [← h d.1 (List.mem_map_of_mem hd)]
    simp only [Container.tree, JsonNode.items, List.map_map]
    exact (List.map_congr_left hnil).trans (List.map_id _)
  | object => rfl

theorem Container.tree_inj (hds : Keyed k (ds.map (·.1))) (hts : Keyed k (ts.map (·.1))) :
    (k.tree ds : JsonNode D) = k.tree ts ↔ ds = ts := by
  refine ⟨fun h => ?_, fun h => by rw [h]⟩
  rw [← Container.tree_items hds, h, Container.tree_items hts]

theorem Container.pointers_nil (k : Container) : Node.pointers (k.value [] : Value D) = [] := by
  cases k <;> rfl

/-- The store when the target was emptied. -/
def emptied (σ : Store (Value D)) (k : Container) (a : Ref) : Store (Value D) :=
  (σ.set a (some (k.value []))).release (σ.pointers a)

section

variable {b : Ref} {w : Value D} {fuel : Nat}

theorem assign_eq (k : Container) (fuel : Nat) (σ : Store (Value D)) (a b : Ref) : assign k fuel σ a b =
    if ((emptied σ k a).value a).isNone then .error .dangling
    else ((emptied σ k a).value b).elim (.error .dangling) fun v =>
      copyItems (copyFrom fuel) (emptied σ k a) a v.items := rfl

variable (hw : σ.Valid) (ha : σ.value a = some v)

include hw ha

theorem length_emptied : (emptied σ k a).cells.length = σ.cells.length :=
  (Store.release_spec hw ha k.pointers_nil).2.1

theorem value_emptied_lost (h : σ.Lost a r) : (emptied σ k a).value r = none :=
  (Store.release_spec hw ha k.pointers_nil).2.2.1 r h

theorem value_emptied (h : ¬ σ.Lost a r) : (emptied σ k a).value r = (σ.set a (some (k.value []))).value r :=
  (Store.release_spec hw ha k.pointers_nil).2.2.2 r h

theorem value_emptied_self (h : ¬ σ.Lost a a) : (emptied σ k a).value a = some (k.value []) := by
  rw [value_emptied hw ha h, Store.value_set_self (Store.lt_of_value ha)]

theorem value_emptied_of_ne (h : ¬ σ.Lost a r) (hr : r ≠ a) : (emptied σ k a).value r = σ.value r := by
  rw [value_emptied hw ha h, Store.value_set_of_ne hr]

/-- A target or a source without another owner is used after its end. -/
theorem assign_lost (h : σ.Lost a a ∨ σ.Lost a b) : assign k fuel σ a b = .error .dangling := by
  rw [assign_eq]
  by_cases hla : σ.Lost a a
  · rw [value_emptied_lost hw ha hla]
    rfl
  · rw [value_emptied_self hw ha hla, value_emptied_lost hw ha (h.resolve_left hla)]
    rfl

theorem filled_emptied (h : ¬ σ.Lost a a) : Filled (emptied σ k a) a k [] (emptied σ k a) :=
  ⟨Nat.le_refl _, fun _ _ _ => rfl, [], value_emptied_self hw ha h, .nil⟩

/-- What the loop leaves is what the assignment is to do when the trees are those of the source. -/
theorem copied_iff (hds : Keyed k (ds.map (·.1))) (hts : Keyed k (ts.map (·.1)))
    (hassign : ∀ fuel, m ≤ fuel → assign k fuel σ a b = .ok τ) (hfilled : Filled (emptied σ k a) a k ds τ) :
    (∃ m σ', (∀ fuel, m ≤ fuel → assign k fuel σ a b = .ok σ') ∧ Copied σ σ' a (k.tree ts)) ↔ ds = ts := by
  have htree := hfilled.tree hds
  constructor
  · intro h
    obtain ⟨m', σ', hassign', hcopied⟩ := h
    have hsame := (hassign (max m m') (Nat.le_max_left ..)).symm.trans (hassign' (max m m') (Nat.le_max_right ..))
    cases hsame
    exact (Container.tree_inj hds hts).mp (htree.unique hcopied.tree)
  · intro h
    subst h
    refine ⟨m, τ, hassign, htree, fun r hr => ?_, fun r w hr hv => ?_⟩
    · rw [← length_emptied hw ha]
      exact hfilled.apart hds hr
    · have hlt : r < (emptied σ k a).cells.length := by
        rw [length_emptied hw ha]
        exact Store.lt_of_value hv
      rw [hfilled.kept r hlt hr]
      by_cases hl : σ.Lost a r
      · exact .inr ⟨value_emptied_lost hw ha hl, Store.below_of_lost hw hl hv⟩
      · exact .inl (by rw [value_emptied_of_ne hw ha hl hr, hv])

/-- A container assigned to itself is emptied. -/
theorem assign_self_iff (hla : ¬ σ.Lost a a) (hts : Keyed k (ts.map (·.1))) :
    (∃ m σ', (∀ fuel, m ≤ fuel → assign k fuel σ a a = .ok σ') ∧ Copied σ σ' a (k.tree ts)) ↔ ts = [] := by
  have hassign : ∀ fuel, 0 ≤ fuel → assign k fuel σ a a = .ok (emptied σ k a) := by
    intro fuel _
    have hnil : (k.value [] : Value D).items = [] := by cases k <;> rfl
    rw [assign_eq, value_emptied_self hw ha hla, Option.elim_some, hnil]
    rfl
  have hnone : Keyed k (([] : List (Bytes × JsonNode D)).map (·.1)) := by cases k <;> simp [Keyed]
  rw [copied_iff hw ha hnone hts hassign (filled_emptied hw ha hla), eq_comm]

/-- A container assigned to another is copied item by item; a child that has the target below
    it is read as the target is by then. -/
theorem assign_other_iff (hla : ¬ σ.Lost a a) (hlb : ¬ σ.Lost a b) (hab : a ≠ b) (hwv : σ.value b = some w)
    (hchildren : Trees (TreeOf σ) w.items ts) (hkeys : Keyed k (w.items.map (·.1))) :
    (∃ m σ', (∀ fuel, m ≤ fuel → assign k fuel σ a b = .ok σ') ∧ Copied σ σ' a (k.tree ts)) ↔
      ∀ i p, (σ.pointers b)[i]? = some p → σ.Reaches p a → TreeOf σ a (k.tree (ts.take i)) := by
  have hkeyts : Keyed k (ts.map (·.1)) := by rwa [← hchildren.keys]
  have hassign : ∀ fuel, assign k fuel σ a b = copyItems (copyFrom fuel) (emptied σ k a) a w.items := by
    intro fuel
    rw [assign_eq, value_emptied_self hw ha hla, value_emptied_of_ne hw ha hlb (Ne.symm hab), hwv]
    rfl
  -- what is not lost is as before, but for the target, and what it points to is not lost
  have hnext : ∀ r, ¬ σ.Lost a r ∧ r < σ.cells.length → r ≠ a → ∀ x, σ.Owns r x →
      ¬ σ.Lost a x ∧ x < σ.cells.length := by
    intro r hr hra x hx
    obtain ⟨u, hu⟩ := hw.points r x hx
    exact ⟨Store.not_lost_of_owns hr.1 hra hx, Store.lt_of_value hu⟩
  have hitem : ∀ p t, TreeOf σ p t ∧ ¬ σ.Lost a p ∧ p < σ.cells.length → ∀ ds τ, Keyed k (ds.map (·.1)) →
      Filled (emptied σ k a) a k ds τ →
      ∃ t', Copies τ p t' ∧ (t' = t ↔ (σ.Reaches p a → TreeOf σ a (k.tree ds))) := by
    intro p t hp ds τ hds hfilled
    obtain ⟨⟨n, hn⟩, hkept⟩ := hp
    have hsame : ∀ r, ¬ σ.Lost a r ∧ r < σ.cells.length → r ≠ a → τ.value r = σ.value r := by
      intro r hr hra
      rw [hfilled.kept r (by rw [length_emptied hw ha]; exact hr.2) hra, value_emptied_of_ne hw ha hr.1 hra]
    obtain ⟨t', ⟨n', hn'⟩, hiff⟩ :=
      hn.above (fun r hr hra => ⟨hsame r hr hra, hnext r hr hra⟩) (hfilled.tree hds) hkept
    exact ⟨t', copyFrom_spec hn', hiff⟩
  have hlive : Trees (fun p t => TreeOf σ p t ∧ ¬ σ.Lost a p ∧ p < σ.cells.length) w.items ts :=
    hchildren.imp fun x hx t ht => ⟨ht, hnext b ⟨hlb, Store.lt_of_value hwv⟩ (Ne.symm hab) x.2 (owns_of_mem hwv hx)⟩
  have hdst : a < (emptied σ k a).cells.length := by
    rw [length_emptied hw ha]
    exact Store.lt_of_value ha
  obtain ⟨m, τ, ds, hloop, hfilled, hkeysd, hiff⟩ :=
    copyItems_spec (fun p => σ.Reaches p a) (TreeOf σ a) hdst hitem hlive (filled_emptied hw ha hla) hkeys
  rw [List.nil_append] at hfilled
  rw [copied_iff hw ha (by rwa [← hkeysd]) hkeyts (fun fuel hfuel => (hassign fuel).trans (hloop fuel hfuel)) hfilled,
    hiff]
  have hpointers : σ.pointers b = w.items.map (·.2) := by
    rw [Store.pointers, hwv]
    rfl
  simp only [hpointers, List.getElem?_map, Option.map_eq_some_iff, List.nil_append]
  constructor
  · intro h i p hp hreach
    obtain ⟨x, hx, rfl⟩ := hp
    exact h i x hx hreach
  · exact fun h i x hx hreach => h i x.2 ⟨x, hx, rfl⟩ hreach

end

/-- The target has the source's tree afterwards, in new nodes, and nothing else is changed,
    exactly when both have another owner than what is let go of, the source is not the target
    or is empty, and wherever the target is below the i-th child of the source it had the
    tree of the first i children. -/
theorem assign_copies_iff {σ : Store (Value D)} (hw : σ.Valid) (k : Container) {a b : Ref} {t : JsonNode D}
    (ha : (σ.value a).bind Value.kind = some k) (hb : (σ.value b).bind Value.kind = some k) (ht : TreeOf σ b t) :
    (∃ m σ', (∀ fuel, m ≤ fuel → assign k fuel σ a b = .ok σ') ∧ Copied σ σ' a t) ↔
      ¬ σ.Lost a a ∧ ¬ σ.Lost a b ∧ (a = b → t.items = []) ∧
      (a ≠ b → ∀ i p, (σ.pointers b)[i]? = some p → σ.Reaches p a → TreeOf σ a (k.tree (t.items.take i))) := by
  obtain ⟨v, hv, -⟩ := Option.bind_eq_some_iff.mp ha
  obtain ⟨w, ts, hwv, ho, hts, rfl⟩ := ht.cases
  have hk : w.kind = some k := by rwa [hwv] at hb
  have hkeys : Keyed k (w.items.map (·.1)) := Value.keyed hk ho
  have hkeyts : Keyed k (ts.map (·.1)) := by rwa [← hts.keys]
  rw [Value.tree_eq hk, Container.tree_items hkeyts]
  by_cases hlost : σ.Lost a a ∨ σ.Lost a b
  · constructor
    · intro h
      obtain ⟨m, σ', hassign, -⟩ := h
      have hfault := hassign m (Nat.le_refl m)
      rw [assign_lost hw hv hlost] at hfault
      cases hfault
    · exact fun h => (hlost.elim h.1 h.2.1).elim
  push Not at hlost
  obtain ⟨hla, hlb⟩ := hlost
  rw [and_iff_right hla, and_iff_right hlb]
  by_cases hab : a = b
  · subst hab
    rw [assign_self_iff hw hv hla hkeyts]
    simp
  · rw [assign_other_iff hw hv hla hlb hab hwv hts hkeys]
    constructor
    · exact fun h => ⟨fun heq => absurd heq hab, fun _ => h⟩
    · exact fun h => h.2 hab

end

/-! ## Two arrays -/

/-- Two arrays that share their child. -/
def sharing : Store (Value Unit) := ⟨[some (.array [2]), some (.array [2]), some .null], [0, 1]⟩

theorem sharing_owns {x r : Ref} (h : sharing.Owns x r) : x < 2 ∧ r = 2 := by
  obtain ⟨v, hv, hmem⟩ := Store.owns_iff.mp h
  match x with
  | 0 =>
    cases hv
    exact ⟨by decide, by simpa [Node.pointers, Value.items] using hmem⟩
  | 1 =>
    cases hv
    exact ⟨by decide, by simpa [Node.pointers, Value.items] using hmem⟩
  | 2 =>
    cases hv
    simp [Node.pointers, Value.items] at hmem
  | x + 3 => simp [Store.value, sharing] at hv

theorem sharing_valid : sharing.Valid where
  points x r h := by
    rw [(sharing_owns h).2]
    exact ⟨.null, rfl⟩
  owned r v h := by
    match r with
    | 0 => exact .inl (by decide)
    | 1 => exact .inl (by decide)
    | 2 => exact .inr ⟨0, by simp [Store.Owns, Store.pointers, Store.value, sharing, Node.pointers, Value.items]⟩
    | r + 3 => simp [Store.value, sharing] at h

theorem sharing_tree {r : Ref} (h : sharing.value r = some (.array [2])) : TreeOf sharing r (.array [.null]) := by
  have hnull : TreeOf sharing 2 .null := ⟨1, .null, [], rfl, trivial, .nil, rfl⟩
  have hchildren : Trees (TreeOf sharing) (Value.array (D := Unit) [2]).items [([], .null)] := .cons ⟨rfl, hnull⟩ .nil
  exact TreeOf.intro h trivial hchildren

theorem assign_copies_shared : ∃ m σ', (∀ fuel, m ≤ fuel → JsonArray.assign fuel sharing 0 1 = .ok σ') ∧
    Copied sharing σ' 0 (.array [.null]) := by
  have hheld : ∀ r, r ∈ sharing.held → ¬ sharing.Lost 0 r := by
    intro r hr h
    cases h with
    | mk hnot => exact hnot hr
  refine (assign_copies_iff sharing_valid .array rfl rfl (sharing_tree rfl)).mpr
    ⟨hheld 0 (by decide), hheld 1 (by decide), by decide, fun _ i p hp hreach => ?_⟩
  -- the child does not point to the target
  have hp2 : p = 2 := by
    have hmem := List.mem_of_getElem? hp
    simpa [Store.pointers, Store.value, sharing, Node.pointers, Value.items] using hmem
  rw [hp2] at hreach
  rcases Relation.ReflTransGen.cases_head hreach with h | ⟨y, hown, -⟩
  · cases h
  · exact absurd (sharing_owns hown).1 (by decide)

/-- An array assigned to itself. -/
theorem assign_self_empties : ¬ ∀ (D : Type) (σ : Store (Value D)) (a b : Ref) (t : JsonNode D), σ.Valid →
    (σ.value a).bind Value.kind = some .array → (σ.value b).bind Value.kind = some .array → TreeOf σ b t →
    ∃ m σ', (∀ fuel, m ≤ fuel → JsonArray.assign fuel σ a b = .ok σ') ∧ Copied σ σ' a t := by
  intro h
  obtain ⟨m, σ', hassign, hcopied⟩ := h Unit sharing 0 0 _ sharing_valid rfl rfl (sharing_tree rfl)
  have hself : JsonArray.assign m sharing 0 0 = .ok ⟨[some (.array []), some (.array [2]), some .null], [0, 1]⟩ := by
    simp [JsonArray.assign, assign, sharing, Store.release, Store.pointers, Store.value, Store.set, Store.owned,
      Node.pointers, Value.items, Container.value, copyItems, pure, Except.pure]
  have hok := hassign m (Nat.le_refl m)
  rw [hself] at hok
  cases hok
  obtain ⟨v, ts, hv, -, hts, ht⟩ := hcopied.tree.cases
  cases hv
  cases hts
  cases ht

end HahaWeb.Json
