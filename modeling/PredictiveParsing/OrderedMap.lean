/-
Module: PredictiveParsing.OrderedMap
Layer: Collections
Purpose: Finite maps that list their entries in the order in which the keys were first written.
  Lookahead sets and prediction rows are printed in this order, and writing a key again replaces
  the value but leaves the key where it stands.
Imports: PredictiveParsing.OrderedSet
Main exports: OrderedMap, OrderedMap.get?, OrderedMap.insert, OrderedMap.get?_insert
Open obligations: none
-/
import PredictiveParsing.OrderedSet

namespace PredictiveParsing

/-- A map given by its entries in the order in which the keys were first written. -/
structure OrderedMap (κ ν : Type) where
  /-- The entries, oldest key first. -/
  toList : List (κ × ν)
  /-- No key has two entries. -/
  nodup_keys : (toList.map Prod.fst).Nodup
deriving DecidableEq

namespace OrderedMap

variable {κ ν : Type}

/-- Two ordered maps are equal when they list the same entries in the same order. -/
@[ext]
theorem ext {m n : OrderedMap κ ν} (h : m.toList = n.toList) : m = n := by
  cases m
  cases n
  cases h
  rfl

/-- The map without entries. -/
def empty : OrderedMap κ ν := ⟨[], List.nodup_nil⟩

instance : EmptyCollection (OrderedMap κ ν) := ⟨empty⟩

instance : Inhabited (OrderedMap κ ν) := ⟨empty⟩

/-- The keys in their order. -/
def keys (m : OrderedMap κ ν) : OrderedSet κ := ⟨m.toList.map Prod.fst, m.nodup_keys⟩

/-- The map that gives every key of a set the same value. -/
def const (keys : OrderedSet κ) (value : ν) : OrderedMap κ ν :=
  ⟨keys.toList.map fun key => (key, value), by simpa [Function.comp_def] using keys.nodup⟩

@[simp]
theorem keys_const (keys : OrderedSet κ) (value : ν) : (const keys value).keys = keys := by
  ext1
  simp [OrderedMap.keys, const, Function.comp_def]

section Lookup

variable [DecidableEq κ]

/-- The first value that a list of entries holds for a key. -/
def lookup (key : κ) : List (κ × ν) → Option ν
  | [] => none
  | (k, v) :: rest => if k = key then some v else lookup key rest

/-- The value of a key. -/
def get? (m : OrderedMap κ ν) (key : κ) : Option ν := lookup key m.toList

/-- The value of a key, or a given one where the key is missing. -/
def getD (m : OrderedMap κ ν) (key : κ) (fallback : ν) : ν := (m.get? key).getD fallback

/-- Overwrite the value of a key where it stands, or add the entry at the end. -/
def write (key : κ) (value : ν) : List (κ × ν) → List (κ × ν)
  | [] => [(key, value)]
  | (k, v) :: rest => if k = key then (k, value) :: rest else (k, v) :: write key value rest

theorem mem_map_fst_write {key k : κ} {value : ν} {entries : List (κ × ν)} :
    k ∈ (write key value entries).map Prod.fst ↔ k = key ∨ k ∈ entries.map Prod.fst := by
  induction entries with
  | nil => simp [write]
  | cons entry rest ih =>
      obtain ⟨k', v'⟩ := entry
      by_cases h : k' = key
      · subst h
        simp [write]
      · rw [write, if_neg h, List.map_cons, List.mem_cons, ih, List.map_cons, List.mem_cons]
        exact or_left_comm

theorem nodup_map_fst_write {key : κ} {value : ν} {entries : List (κ × ν)}
    (h : (entries.map Prod.fst).Nodup) : ((write key value entries).map Prod.fst).Nodup := by
  induction entries with
  | nil => simp [write]
  | cons entry rest ih =>
      obtain ⟨k, v⟩ := entry
      have hparts := List.nodup_cons.1 h
      by_cases hk : k = key
      · simpa [write, hk] using h
      · rw [write, if_neg hk, List.map_cons, List.nodup_cons, mem_map_fst_write]
        exact ⟨not_or.2 ⟨hk, hparts.1⟩, ih hparts.2⟩

theorem lookup_write {key k : κ} {value : ν} {entries : List (κ × ν)} :
    lookup k (write key value entries) = if key = k then some value else lookup k entries := by
  induction entries with
  | nil => rfl
  | cons entry rest ih =>
      obtain ⟨k', v'⟩ := entry
      by_cases h : k' = key
      · subst h
        by_cases hk : k' = k <;> simp [write, lookup, hk]
      · rw [write, if_neg h, lookup, lookup, ih]
        by_cases hk : k' = k
        · have hne : key ≠ k := fun e => h (hk.trans e.symm)
          rw [if_pos hk, if_neg hne, if_pos hk]
        · rw [if_neg hk, if_neg hk]

theorem lookup_eq_none {key : κ} {entries : List (κ × ν)} :
    lookup key entries = none ↔ key ∉ entries.map Prod.fst := by
  induction entries with
  | nil => simp [lookup]
  | cons entry rest ih =>
      obtain ⟨k, v⟩ := entry
      by_cases h : k = key
      · simp [lookup, h]
      · have h' : key ≠ k := fun e => h e.symm
        simpa [lookup, h, h'] using ih

/-- With distinct keys, looking up finds exactly the listed entries. -/
theorem lookup_eq_some {key : κ} {value : ν} {entries : List (κ × ν)}
    (hnodup : (entries.map Prod.fst).Nodup) :
    lookup key entries = some value ↔ (key, value) ∈ entries := by
  induction entries with
  | nil => simp [lookup]
  | cons entry rest ih =>
      obtain ⟨k, v⟩ := entry
      have hparts := List.nodup_cons.1 hnodup
      by_cases h : k = key
      · subst h
        have hnot : (k, value) ∉ rest := fun hmem =>
          hparts.1 (List.mem_map.2 ⟨_, hmem, rfl⟩)
        simp [lookup, hnot, eq_comm]
      · have h' : key ≠ k := fun e => h e.symm
        simp [lookup, h, h', ih hparts.2]

/-- Give a key a value. A key that has an entry keeps its place. -/
def insert (m : OrderedMap κ ν) (key : κ) (value : ν) : OrderedMap κ ν :=
  ⟨write key value m.toList, nodup_map_fst_write m.nodup_keys⟩

/-- The last value written for a key is the one that is read. -/
theorem get?_insert (m : OrderedMap κ ν) (key k : κ) (value : ν) :
    (m.insert key value).get? k = if key = k then some value else m.get? k := lookup_write

@[simp]
theorem get?_empty (key : κ) : (∅ : OrderedMap κ ν).get? key = none := rfl

theorem get?_eq_some {m : OrderedMap κ ν} {key : κ} {value : ν} :
    m.get? key = some value ↔ (key, value) ∈ m.toList := lookup_eq_some m.nodup_keys

theorem get?_eq_none {m : OrderedMap κ ν} {key : κ} : m.get? key = none ↔ key ∉ m.keys :=
  lookup_eq_none

theorem get?_const {keys : OrderedSet κ} {value : ν} {key : κ} :
    (const keys value).get? key = if key ∈ keys then some value else none := by
  by_cases h : key ∈ keys
  · rw [if_pos h, get?_eq_some]
    exact List.mem_map_of_mem h
  · rw [if_neg h, get?_eq_none, keys_const]
    exact h

end Lookup

end OrderedMap

end PredictiveParsing
