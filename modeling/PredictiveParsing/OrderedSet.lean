/-
Module: PredictiveParsing.OrderedSet
Layer: Collections
Purpose: Finite sets that remember the order in which their members arrived. Grammars are read by
  people, so alternatives, symbols and lookahead sets are always shown in the order in which they
  were first met; the order is therefore part of the value and not an accident of a hash.
Imports: none
Main exports: OrderedSet, OrderedSet.insert, OrderedSet.insertAll, OrderedSet.ofList,
  OrderedSet.mem_insertAll, OrderedSet.ofList_toList
Open obligations: none
-/

namespace PredictiveParsing

/-- A set given by the list of its members in the order of their first insertion. -/
structure OrderedSet (α : Type) where
  /-- The members, oldest first. -/
  toList : List α
  /-- No member is listed twice. -/
  nodup : toList.Nodup
deriving DecidableEq

namespace OrderedSet

variable {α : Type}

/-- Two ordered sets are equal when they list the same members in the same order. -/
@[ext]
theorem ext {s t : OrderedSet α} (h : s.toList = t.toList) : s = t := by
  cases s
  cases t
  cases h
  rfl

/-- The set without members. -/
def empty : OrderedSet α := ⟨[], List.nodup_nil⟩

instance : EmptyCollection (OrderedSet α) := ⟨empty⟩

instance : Inhabited (OrderedSet α) := ⟨empty⟩

instance : Membership α (OrderedSet α) := ⟨fun s a => a ∈ s.toList⟩

instance [DecidableEq α] (a : α) (s : OrderedSet α) : Decidable (a ∈ s) :=
  inferInstanceAs (Decidable (a ∈ s.toList))

/-- The number of members. -/
def size (s : OrderedSet α) : Nat := s.toList.length

/-- Whether the set has no members. -/
def isEmpty (s : OrderedSet α) : Bool := s.toList.isEmpty

/-- The set with a single member. -/
def singleton (a : α) : OrderedSet α := ⟨[a], by simp⟩

@[simp]
theorem mem_toList {a : α} {s : OrderedSet α} : a ∈ s.toList ↔ a ∈ s := Iff.rfl

@[simp]
theorem toList_empty : (∅ : OrderedSet α).toList = [] := rfl

@[simp]
theorem toList_singleton (a : α) : (singleton a).toList = [a] := rfl

@[simp]
theorem not_mem_empty (a : α) : a ∉ (∅ : OrderedSet α) := List.not_mem_nil

@[simp]
theorem mem_singleton {a b : α} : a ∈ singleton b ↔ a = b := List.mem_singleton

section Filter

/-- The members that pass a test, in their old order. -/
def filter (s : OrderedSet α) (p : α → Bool) : OrderedSet α :=
  ⟨s.toList.filter p, s.nodup.filter p⟩

@[simp]
theorem toList_filter (s : OrderedSet α) (p : α → Bool) :
    (s.filter p).toList = s.toList.filter p := rfl

@[simp]
theorem mem_filter {a : α} {s : OrderedSet α} {p : α → Bool} :
    a ∈ s.filter p ↔ a ∈ s ∧ p a = true := List.mem_filter

end Filter

section Insertion

variable [DecidableEq α]

/-- The values of a list that are neither in `seen` nor earlier in the list, in order. -/
def newcomers (seen : List α) : List α → List α
  | [] => []
  | a :: rest => if a ∈ seen then newcomers seen rest else a :: newcomers (a :: seen) rest

theorem mem_newcomers {seen list : List α} {a : α} :
    a ∈ newcomers seen list ↔ a ∈ list ∧ a ∉ seen := by
  induction list generalizing seen with
  | nil => simp [newcomers]
  | cons b rest ih =>
      by_cases hb : b ∈ seen
      · -- `b` is skipped, and it does not matter on the right either.
        simp only [newcomers, hb, if_true, ih, List.mem_cons]
        constructor
        · rintro ⟨h, hn⟩
          exact ⟨Or.inr h, hn⟩
        · rintro ⟨rfl | h, hn⟩
          · exact absurd hb hn
          · exact ⟨h, hn⟩
      · -- `b` is kept; afterwards it counts as seen.
        simp only [newcomers, hb, if_false, ih, List.mem_cons, not_or]
        constructor
        · rintro (rfl | ⟨h, _, hn⟩)
          · exact ⟨Or.inl rfl, hb⟩
          · exact ⟨Or.inr h, hn⟩
        · rintro ⟨rfl | h, hn⟩
          · exact Or.inl rfl
          · by_cases hab : a = b
            · exact Or.inl hab
            · exact Or.inr ⟨h, hab, hn⟩

theorem nodup_newcomers (seen list : List α) : (newcomers seen list).Nodup := by
  induction list generalizing seen with
  | nil => simp [newcomers]
  | cons b rest ih =>
      by_cases hb : b ∈ seen
      · simpa [newcomers, hb] using ih seen
      · simp only [newcomers, hb, if_false, List.nodup_cons]
        exact ⟨fun h => (mem_newcomers.1 h).2 List.mem_cons_self, ih _⟩

/-- A list of distinct values, none of them seen, consists of newcomers only. -/
theorem newcomers_eq_self {seen list : List α} (hnodup : list.Nodup)
    (hnew : ∀ a ∈ list, a ∉ seen) : newcomers seen list = list := by
  induction list generalizing seen with
  | nil => rfl
  | cons b rest ih =>
      have hb : b ∉ seen := hnew b List.mem_cons_self
      have hrest := List.nodup_cons.1 hnodup
      simp only [newcomers, hb, if_false, List.cons.injEq, true_and]
      refine ih hrest.2 fun a ha => ?_
      rintro (_ | ⟨_, hmem⟩)
      · exact hrest.1 ha
      · exact hnew a (List.mem_cons_of_mem _ ha) hmem

/-- A list of values all of which were seen has no newcomers. -/
theorem newcomers_eq_nil {seen list : List α} (hseen : ∀ a ∈ list, a ∈ seen) :
    newcomers seen list = [] := by
  induction list with
  | nil => rfl
  | cons b rest ih =>
      simp [newcomers, hseen b List.mem_cons_self,
        ih fun a ha => hseen a (List.mem_cons_of_mem _ ha)]

/-- Newcomers keep the order of the list. -/
theorem newcomers_sublist (seen list : List α) : (newcomers seen list).Sublist list := by
  induction list generalizing seen with
  | nil => exact List.Sublist.refl []
  | cons b rest ih =>
      rw [newcomers]
      split
      · exact (ih seen).cons b
      · exact (ih (b :: seen)).cons_cons b

/-- Insert the values of a list one after the other. A value that is already there keeps its
place, a new one goes to the end. -/
def insertAll (s : OrderedSet α) (list : List α) : OrderedSet α where
  toList := s.toList ++ newcomers s.toList list
  nodup := by
    refine List.nodup_append.2 ⟨s.nodup, nodup_newcomers _ _, ?_⟩
    rintro a ha _ hb rfl
    exact (mem_newcomers.1 hb).2 ha

/-- Insert one value. -/
def insert (s : OrderedSet α) (a : α) : OrderedSet α := s.insertAll [a]

/-- The distinct values of a list, each at the place of its first occurrence. -/
def ofList (list : List α) : OrderedSet α := (∅ : OrderedSet α).insertAll list

theorem toList_insertAll (s : OrderedSet α) (list : List α) :
    (s.insertAll list).toList = s.toList ++ newcomers s.toList list := rfl

theorem toList_ofList (list : List α) : (ofList list).toList = newcomers [] list := rfl

@[simp]
theorem mem_insertAll {a : α} {s : OrderedSet α} {list : List α} :
    a ∈ s.insertAll list ↔ a ∈ s ∨ a ∈ list := by
  show a ∈ s.toList ++ newcomers s.toList list ↔ a ∈ s.toList ∨ a ∈ list
  rw [List.mem_append, mem_newcomers]
  by_cases h : a ∈ s.toList <;> simp [h]

@[simp]
theorem mem_insert {a b : α} {s : OrderedSet α} : a ∈ s.insert b ↔ a ∈ s ∨ a = b := by
  simp [insert]

@[simp]
theorem mem_ofList {a : α} {list : List α} : a ∈ ofList list ↔ a ∈ list := by
  simp [ofList]

/-- Inserting values that are all there changes nothing, not even the order. -/
theorem insertAll_of_subset {s : OrderedSet α} {list : List α} (h : ∀ a ∈ list, a ∈ s) :
    s.insertAll list = s := by
  ext1
  rw [toList_insertAll, newcomers_eq_nil h, List.append_nil]

theorem insert_of_mem {s : OrderedSet α} {a : α} (h : a ∈ s) : s.insert a = s :=
  insertAll_of_subset (by simpa using h)

theorem toList_insert_of_not_mem {s : OrderedSet α} {a : α} (h : a ∉ s) :
    (s.insert a).toList = s.toList ++ [a] := by
  have h' : a ∉ s.toList := h
  simp [insert, toList_insertAll, newcomers, h']

/-- Collecting the members of a set in their order gives the set back. -/
@[simp]
theorem ofList_toList (s : OrderedSet α) : ofList s.toList = s := by
  ext1
  rw [toList_ofList]
  exact newcomers_eq_self s.nodup (by simp)

/-- A list with a repetition has more entries than values. -/
theorem size_ofList_lt {list : List α} (h : ¬ list.Nodup) : (ofList list).size < list.length := by
  have hsub : (newcomers [] list).Sublist list := newcomers_sublist [] list
  apply Nat.lt_of_le_of_ne hsub.length_le
  intro heq
  have hnodup := nodup_newcomers [] list
  rw [hsub.eq_of_length heq] at hnodup
  exact h hnodup

/-- The set without one value; the others keep their order. -/
def erase (s : OrderedSet α) (a : α) : OrderedSet α := s.filter (· ≠ a)

@[simp]
theorem mem_erase {a b : α} {s : OrderedSet α} : a ∈ s.erase b ↔ a ∈ s ∧ a ≠ b := by
  simp [erase]

/-- The members of both sets, those of the first one in front. -/
def union (s t : OrderedSet α) : OrderedSet α := s.insertAll t.toList

@[simp]
theorem mem_union {a : α} {s t : OrderedSet α} : a ∈ s.union t ↔ a ∈ s ∨ a ∈ t := by
  simp [union]

end Insertion

end OrderedSet

end PredictiveParsing
