/-
  HahaWeb.Http.HttpMap — `http/HttpMap.h` and `http/HttpHeader.h`: maps from strings,
  the keys compared with or without their case.

  An `unordered_map` is an association list without repeated keys; nothing below
  depends on its order. `HttpHeader` also keeps a running total of the sizes added.
-/

import HahaWeb.Base.Util
import Mathlib.Data.List.AList

namespace HahaWeb

theorem lookup_insert_eq {V : Type} (m : AList fun _ : Bytes => V) (k : Bytes) (v : V) (k' : Bytes) :
    (m.insert k v).lookup k' = if k' = k then some v else m.lookup k' := by
  split
  · rename_i h
    rw [h, AList.lookup_insert]
  · rename_i h
    rw [AList.lookup_insert_ne h]

inductive CaseSensitive where
  | yes
  | no
  deriving DecidableEq, Repr

/-- The key under which a map of the given kind stores `key`. -/
def CaseSensitive.fold : CaseSensitive → Bytes → Bytes
  | .yes, key => key
  | .no, key => toLowers key

structure HttpBaseMap (V : Type) (c : CaseSensitive) where
  map : AList fun _ : Bytes => V

abbrev HttpMap := HttpBaseMap Bytes

namespace HttpBaseMap

variable {V : Type} {c : CaseSensitive}

def new : HttpBaseMap V c := ⟨∅⟩

def add (m : HttpBaseMap V c) (key : Bytes) (value : V) : HttpBaseMap V c := ⟨m.map.insert (c.fold key) value⟩

def del (m : HttpBaseMap V c) (key : Bytes) : HttpBaseMap V c := ⟨m.map.erase (c.fold key)⟩

/-- `get`: a copy of the value, `none` for a `RetOption` that does not exist. -/
def get (m : HttpBaseMap V c) (key : Bytes) : Option V := m.map.lookup (c.fold key)

def contains (m : HttpBaseMap V c) (key : Bytes) : Bool := (m.get key).isSome

def size (m : HttpBaseMap V c) : Nat := m.map.entries.length

@[simp] theorem get_new (key : Bytes) : (new : HttpBaseMap V c).get key = none := rfl

@[simp] theorem get_add_same (m : HttpBaseMap V c) (key : Bytes) (value : V) :
    (m.add key value).get key = some value := by
  simp [add, get]

theorem get_add (m : HttpBaseMap V c) (key key' : Bytes) (value : V) :
    (m.add key value).get key' = if c.fold key' = c.fold key then some value else m.get key' := by
  exact lookup_insert_eq m.map (c.fold key) value (c.fold key')

/-- Adding a list of entries leaves under each key the last value given for it. -/
theorem get_foldl_add (l : List (Bytes × V)) (m : HttpBaseMap V c) (key : Bytes) :
    (l.foldl (fun m p => m.add p.1 p.2) m).get key =
      ((l.filter fun p => c.fold p.1 = c.fold key).getLast?.map (·.2)).or (m.get key) := by
  induction l generalizing m with
  | nil => rfl
  | cons p l ih =>
    rw [List.foldl_cons, ih, get_add, List.filter_cons]
    by_cases h : c.fold p.1 = c.fold key
    · simp only [h, decide_true, if_true, List.getLast?_cons]
      cases (l.filter fun p => c.fold p.1 = c.fold key).getLast? <;> simp
    · simp [h, Ne.symm h]

end HttpBaseMap

/-! ## Headers -/

/-- `length`: the sizes of all names and values added, less those deleted. -/
structure HttpHeader extends HttpBaseMap Bytes .no where
  length : Nat

namespace HttpHeader

def new : HttpHeader := ⟨.new, 0⟩

def add (h : HttpHeader) (key value : Bytes) : HttpHeader :=
  ⟨h.toHttpBaseMap.add key value, h.length + (key.length + value.length)⟩

def del (h : HttpHeader) (key : Bytes) : HttpHeader :=
  match h.get key with
  | some value => ⟨h.toHttpBaseMap.del key, h.length - (key.length + value.length)⟩
  | none => h

def size (h : HttpHeader) : Nat := h.length

def empty (h : HttpHeader) : Bool := 0 < h.length

@[simp] theorem add_toHttpBaseMap (h : HttpHeader) (key value : Bytes) :
    (h.add key value).toHttpBaseMap = h.toHttpBaseMap.add key value := rfl

@[simp] theorem add_size (h : HttpHeader) (key value : Bytes) :
    (h.add key value).size = h.size + (key.length + value.length) := rfl

end HttpHeader

end HahaWeb
