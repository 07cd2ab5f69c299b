/-
  HahaWeb.Http.HeaderSize — the running total of `http/HttpHeader.h` against the entries the
  map holds, over every sequence of `add` and `del`.

  `add` counts what it stores and never takes off what it replaces, so the total is the sum
  over the entries together with everything that was written over (`length_run`): it is
  exact as long as no `add` finds an entry other than the empty one under its name.
  `empty` asks whether the total is positive, so it is right about a header without entries
  only when the total is wrong; total and `empty` are both right for a header that holds
  nothing but an empty value under the empty name (`exact_run_iff`).
-/

import HahaWeb.Http.HttpMap

namespace HahaWeb

namespace HttpHeader

/-! ## Runs -/

inductive Op where
  | add (key value : Bytes)
  | del (key : Bytes)

def Op.run (h : HttpHeader) : Op → HttpHeader
  | .add key value => h.add key value
  | .del key => h.del key

/-- A header after a sequence of calls. -/
def run (ops : List Op) : HttpHeader := ops.foldl Op.run new

/-- The sizes of the names and values a header holds. -/
def stored (h : HttpHeader) : Nat := (h.map.entries.map fun e => e.1.length + e.2.length).sum

/-- Size and emptiness as the entries have them. -/
def Exact (h : HttpHeader) : Prop := h.size = h.stored ∧ (h.empty = true ↔ h.map.entries = [])

/-! ### What the calls ask for -/

/-- What a header is for: a value for some folded names. -/
abbrev Contents := Bytes → Option Bytes

def Op.write (f : Contents) : Op → Contents
  | .add key value => fun k => if k = toLowers key then some value else f k
  | .del key => fun k => if k = toLowers key then none else f k

def contents (ops : List Op) : Contents := ops.foldl Op.write fun _ => none

/-- No `add` of the sequence replaces an entry that has a size. -/
def Fresh (ops : List Op) : Prop :=
  ∀ a key value b, ops = a ++ .add key value :: b → ∀ old, contents a (toLowers key) = some old → key = [] ∧ old = []

/-- The empty value under the empty name, and nothing else. -/
def OnlyEmpty (ops : List Op) : Prop :=
  (∃ key value, contents ops key = some value) ∧ ∀ key value, contents ops key = some value → key = [] ∧ value = []

theorem run_snoc (ops : List Op) (op : Op) : run (ops ++ [op]) = op.run (run ops) := List.foldl_concat ..

theorem contents_snoc (ops : List Op) (op : Op) : contents (ops ++ [op]) = op.write (contents ops) :=
  List.foldl_concat ..

@[simp] theorem toLowers_length (s : Bytes) : (toLowers s).length = s.length := List.length_map _

/-! ## The map -/

theorem lookup_run (ops : List Op) (k : Bytes) : (run ops).map.lookup k = contents ops k := by
  induction ops using List.reverseRecOn generalizing k with
  | nil => rfl
  | append_singleton ops op ih =>
    rw [run_snoc, contents_snoc]
    cases op with
    | add key value =>
      exact (lookup_insert_eq _ _ _ _).trans (by rw [ih]; rfl)
    | del key =>
      change ((run ops).del key).map.lookup k = if k = toLowers key then none else contents ops k
      cases hget : (run ops).get key with
      | none =>
        have hnone : contents ops (toLowers key) = none := (ih (toLowers key)).symm.trans hget
        simp only [del, hget, ih]
        split
        · rename_i hk
          rw [hk, hnone]
        · rfl
      | some old =>
        simp only [del, hget]
        split
        · rename_i hk
          rw [hk]
          exact AList.lookup_erase ..
        · rename_i hk
          exact (AList.lookup_erase_ne hk).trans (ih k)

theorem entries_eq_nil_iff (h : HttpHeader) : h.map.entries = [] ↔ ∀ k, h.map.lookup k = none := by
  constructor
  · intro hnil k
    rw [AList.lookup, hnil, List.dlookup_nil]
  · intro hnone
    cases hent : h.map.entries with
    | nil => rfl
    | cons e l =>
      have := hnone e.1
      rw [AList.lookup, hent] at this
      rw [show e = ⟨e.1, e.2⟩ from rfl, List.dlookup_cons_eq] at this
      cases this

/-! ## The total -/

/-- One entry's size off the sum, when there is such an entry. -/
theorem sum_kerase (f : Bytes → Bytes → Nat) (k : Bytes) (l : List (Sigma fun _ : Bytes => Bytes)) :
    (l.map fun e => f e.1 e.2).sum =
      (l.dlookup k).elim 0 (f k) + ((l.kerase k).map fun e => f e.1 e.2).sum := by
  induction l with
  | nil => rfl
  | cons e l ih =>
    obtain ⟨k', v⟩ := e
    by_cases hk : k = k'
    · have herase : (⟨k', v⟩ :: l : List (Sigma fun _ : Bytes => Bytes)).kerase k' = l := by simp
      rw [hk, List.dlookup_cons_eq, herase]
      rfl
    · rw [List.dlookup_cons_ne _ _ hk, List.kerase_cons_ne hk, List.map_cons, List.sum_cons, List.map_cons,
        List.sum_cons, ih]
      omega

theorem stored_eq (h : HttpHeader) (k : Bytes) :
    h.stored = (h.map.lookup k).elim 0 (fun v => k.length + v.length) +
      ((h.map.entries.kerase k).map fun e => e.1.length + e.2.length).sum :=
  sum_kerase (fun k v => k.length + v.length) k h.map.entries

theorem stored_add (h : HttpHeader) (key value : Bytes) :
    (h.add key value).stored + ((h.get key).elim 0 fun old => key.length + old.length) =
      h.stored + (key.length + value.length) := by
  have hnew : (h.add key value).stored =
      key.length + value.length +
        ((h.map.entries.kerase (toLowers key)).map fun e => e.1.length + e.2.length).sum := by
    change (((h.map.insert (toLowers key) value).entries).map _).sum = _
    rw [AList.entries_insert, List.map_cons, List.sum_cons, toLowers_length]
  have hget : h.get key = h.map.lookup (toLowers key) := rfl
  rw [hnew, stored_eq h (toLowers key), hget, toLowers_length]
  omega

theorem stored_del (h : HttpHeader) (key : Bytes) :
    (h.del key).stored + ((h.get key).elim 0 fun old => key.length + old.length) = h.stored := by
  unfold del
  cases hget : h.get key with
  | none => rfl
  | some old =>
    have hlook : h.map.lookup (toLowers key) = some old := hget
    rw [stored_eq h (toLowers key), hlook, toLowers_length]
    exact Nat.add_comm _ _

/-- The size of the entry a call writes over. -/
def Op.replaced (f : Contents) : Op → Nat
  | .add key _ => (f (toLowers key)).elim 0 fun old => key.length + old.length
  | .del _ => 0

/-- The sizes of all entries written over, from the contents `f` on. -/
def lost (f : Contents) : List Op → Nat
  | [] => 0
  | op :: ops => op.replaced f + lost (op.write f) ops

theorem lost_snoc (f : Contents) (ops : List Op) (op : Op) :
    lost f (ops ++ [op]) = lost f ops + op.replaced (ops.foldl Op.write f) := by
  induction ops generalizing f with
  | nil => exact Nat.add_comm _ _
  | cons o ops ih =>
    change o.replaced f + lost (o.write f) (ops ++ [op]) = o.replaced f + lost (o.write f) ops + _
    rw [ih, Nat.add_assoc]
    rfl

theorem length_run (ops : List Op) : (run ops).length = (run ops).stored + lost (fun _ => none) ops := by
  induction ops using List.reverseRecOn with
  | nil => rfl
  | append_singleton ops op ih =>
    rw [run_snoc, lost_snoc]
    change _ = _ + (_ + op.replaced (contents ops))
    cases op with
    | add key value =>
      have hget : (run ops).get key = contents ops (toLowers key) := lookup_run ops (toLowers key)
      have hstored := stored_add (run ops) key value
      have hlength : ((run ops).add key value).length = (run ops).length + (key.length + value.length) := rfl
      rw [hget] at hstored
      simp only [Op.run, Op.replaced]
      omega
    | del key =>
      have hstored := stored_del (run ops) key
      have hlength : ((run ops).del key).length =
          (run ops).length - ((run ops).get key).elim 0 fun old => key.length + old.length := by
        unfold del
        cases (run ops).get key <;> rfl
      simp only [Op.run, Op.replaced]
      omega

/-! ## When the total is exact -/

theorem fresh_snoc (ops : List Op) (op : Op) : Fresh (ops ++ [op]) ↔ Fresh ops ∧ op.replaced (contents ops) = 0 := by
  constructor
  · intro h
    refine ⟨fun a key value b heq => h a key value (b ++ [op]) (by rw [heq]; simp), ?_⟩
    cases op with
    | del key => rfl
    | add key value =>
      rw [Op.replaced]
      cases hold : contents ops (toLowers key) with
      | none => rfl
      | some old =>
        obtain ⟨rfl, rfl⟩ := h ops key value [] rfl old hold
        rfl
  · intro h a key value b heq old hold
    obtain ⟨hfresh, hzero⟩ := h
    cases b using List.reverseRecOn with
    | nil =>
      obtain ⟨rfl, hop⟩ := List.append_inj' heq rfl
      rw [(List.cons.inj hop).1, Op.replaced, hold, Option.elim_some] at hzero
      exact ⟨List.length_eq_zero_iff.mp (by omega), List.length_eq_zero_iff.mp (by omega)⟩
    | append_singleton b o _ =>
      have hcut : ops = a ++ .add key value :: b := by
        have : ops ++ [op] = (a ++ .add key value :: b) ++ [o] := by rw [heq]; simp
        exact (List.append_inj' this rfl).1
      exact hfresh a key value b hcut old hold

theorem lost_eq_zero_iff (ops : List Op) : lost (fun _ => none) ops = 0 ↔ Fresh ops := by
  induction ops using List.reverseRecOn with
  | nil => exact ⟨fun _ a key value b heq => by simp at heq, fun _ => rfl⟩
  | append_singleton ops op ih =>
    rw [lost_snoc, fresh_snoc, ← ih]
    exact Nat.add_eq_zero_iff

theorem size_run_iff (ops : List Op) : (run ops).size = (run ops).stored ↔ Fresh ops := by
  have h := length_run ops
  rw [← lost_eq_zero_iff]
  unfold size
  omega

/-- Entries of no size at all: the empty name and value, or no entry. -/
theorem stored_eq_zero_iff (ops : List Op) :
    (run ops).stored = 0 ↔ ∀ key value, contents ops key = some value → key = [] ∧ value = [] := by
  constructor
  · intro h key value hc
    rw [stored_eq _ key, lookup_run, hc, Option.elim_some] at h
    exact ⟨List.length_eq_zero_iff.mp (by omega), List.length_eq_zero_iff.mp (by omega)⟩
  · intro h
    apply List.sum_eq_zero
    intro n hn
    obtain ⟨e, he, rfl⟩ := List.mem_map.mp hn
    have hlook : (run ops).map.lookup e.1 = some e.2 := AList.mem_lookup_iff.mpr he
    rw [lookup_run] at hlook
    obtain ⟨hk, hv⟩ := h e.1 e.2 hlook
    rw [hk, hv]
    rfl

theorem onlyEmpty_iff (ops : List Op) : OnlyEmpty ops ↔ (run ops).map.entries ≠ [] ∧ (run ops).stored = 0 := by
  rw [OnlyEmpty, stored_eq_zero_iff, ne_eq, entries_eq_nil_iff]
  simp only [lookup_run, not_forall, Option.ne_none_iff_exists']

/-- The total is exact when nothing of a size is written over; total and `empty` are when the header then holds nothing
but the empty entry. -/
theorem exact_run_iff (ops : List Op) :
    ((run ops).size = (run ops).stored ↔ Fresh ops) ∧ (Exact (run ops) ↔ Fresh ops ∧ OnlyEmpty ops) := by
  refine ⟨size_run_iff ops, ?_⟩
  rw [Exact, size_run_iff, onlyEmpty_iff]
  refine and_congr_right fun hfresh => ?_
  have hlen : (run ops).length = (run ops).stored := (size_run_iff ops).mpr hfresh
  have hempty : (run ops).empty = true ↔ 0 < (run ops).stored := by rw [empty, hlen, decide_eq_true_eq]
  rw [hempty]
  constructor
  · intro h
    have hne : (run ops).map.entries ≠ [] := by
      intro hnil
      have hpos := h.mpr hnil
      rw [stored, hnil] at hpos
      cases hpos
    exact ⟨hne, Nat.eq_zero_of_not_pos fun hpos => hne (h.mp hpos)⟩
  · intro h
    exact ⟨fun hpos => absurd h.2 (by omega), fun hnil => absurd hnil h.1⟩

/-- Nothing added, and one name added twice. -/
theorem not_exact_new : ¬ Exact (run []) ∧
    (run [.add (lit "Age") (lit "1"), .add (lit "age") (lit "22")]).size = 9 ∧
    (run [.add (lit "Age") (lit "1"), .add (lit "age") (lit "22")]).stored = 5 := by
  refine ⟨fun h => ?_, by decide, by decide⟩
  have hempty := h.2.mpr rfl
  cases hempty

end HttpHeader

end HahaWeb
