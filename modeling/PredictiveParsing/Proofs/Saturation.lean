/-
Module: PredictiveParsing.Proofs.Saturation
Layer: Proofs
Purpose: Rounds of lookahead computation end in a fixed point. A round goes through a list of
  demands and meets each by adding characters to one set. It never takes a character away, so when
  the total does not grow, every demand was met before; and as the sets stay within a finite range,
  the total cannot grow for ever. The bound that cuts saturation off is therefore never felt.
Imports: Mathlib.Logic.Function.Iterate, PredictiveParsing.Lookahead.CharSets
Main exports: CharSets.sweep, CharSets.sweep_induction, CharSets.sweep_of_total_le,
  CharSets.total_le, CharSets.round_saturate, CharSets.exists_iterate_eq_saturate
Open obligations: none
-/
import Mathlib.Logic.Function.Iterate
import PredictiveParsing.Lookahead.CharSets

namespace PredictiveParsing

theorem OrderedSet.size_insertAll {α : Type} [DecidableEq α] (s : OrderedSet α) (list : List α) :
    (s.insertAll list).size = s.size + (OrderedSet.newcomers s.toList list).length := by
  simp [OrderedSet.size, OrderedSet.toList_insertAll]

namespace OrderedMap

variable {κ ν : Type} [DecidableEq κ]

theorem map_fst_write_of_mem {key : κ} {value : ν} {entries : List (κ × ν)}
    (h : key ∈ entries.map Prod.fst) :
    (write key value entries).map Prod.fst = entries.map Prod.fst := by
  induction entries with
  | nil => cases h
  | cons entry rest ih =>
      obtain ⟨k, v⟩ := entry
      rw [write]
      split
      · rfl
      · next hne =>
          rcases List.mem_cons.1 h with heq | hrest
          · exact absurd heq.symm hne
          · rw [List.map_cons, ih hrest, List.map_cons]

/-- Writing to a key that is there keeps the keys and their order. -/
theorem keys_insert_of_mem {m : OrderedMap κ ν} {key : κ} {value : ν} (h : key ∈ m.keys) :
    (m.insert key value).keys = m.keys :=
  OrderedSet.ext (map_fst_write_of_mem h)

theorem write_of_lookup {key : κ} {value : ν} {entries : List (κ × ν)}
    (h : lookup key entries = some value) : write key value entries = entries := by
  induction entries with
  | nil => cases h
  | cons entry rest ih =>
      obtain ⟨k, v⟩ := entry
      rw [lookup] at h
      rw [write]
      split
      · next hkey =>
          rw [if_pos hkey] at h
          cases h
          rfl
      · next hne =>
          rw [if_neg hne] at h
          rw [ih h]

/-- Writing the value that a key has already changes nothing. -/
theorem insert_of_get? {m : OrderedMap κ ν} {key : κ} {value : ν} (h : m.get? key = some value) :
    m.insert key value = m :=
  OrderedMap.ext (write_of_lookup h)

end OrderedMap

namespace CharSets

/-! ### One addition -/

theorem exists_get?_of_mem_keys {sets : CharSets} {n : NonTerminal} (h : n ∈ sets.keys) :
    sets.get? n = some (sets.charsOf n) := by
  cases hget : sets.get? n with
  | none => exact absurd h (OrderedMap.get?_eq_none.1 hget)
  | some chars => simp [charsOf, OrderedMap.getD, hget]

theorem total_write {n : NonTerminal} {old : OrderedSet Char} (new : OrderedSet Char)
    {entries : List (NonTerminal × OrderedSet Char)}
    (h : OrderedMap.lookup n entries = some old) :
    (OrderedMap.write n new entries).foldr (fun entry sum => entry.2.size + sum) 0 + old.size =
      entries.foldr (fun entry sum => entry.2.size + sum) 0 + new.size := by
  induction entries with
  | nil => cases h
  | cons entry rest ih =>
      obtain ⟨m, chars⟩ := entry
      rw [OrderedMap.lookup] at h
      rw [OrderedMap.write]
      split
      · next hm =>
          rw [if_pos hm] at h
          cases h
          simp only [List.foldr_cons]
          omega
      · next hne =>
          rw [if_neg hne] at h
          have hrest := ih h
          simp only [List.foldr_cons]
          omega

/-- The total grows by the number of characters that were not there. -/
theorem total_extend {sets : CharSets} {n : NonTerminal} (h : n ∈ sets.keys) (chars : List Char) :
    (sets.extend n chars).total =
      sets.total + (OrderedSet.newcomers (sets.charsOf n).toList chars).length := by
  have hwrite := total_write ((sets.charsOf n).insertAll chars) (exists_get?_of_mem_keys h)
  rw [OrderedSet.size_insertAll] at hwrite
  unfold extend total OrderedMap.insert
  dsimp only
  omega

theorem keys_extend {sets : CharSets} {n : NonTerminal} (h : n ∈ sets.keys) (chars : List Char) :
    (sets.extend n chars).keys = sets.keys := OrderedMap.keys_insert_of_mem h

/-- An addition that does not increase the total adds nothing. -/
theorem extend_of_total_le {sets : CharSets} {n : NonTerminal} {chars : List Char}
    (h : n ∈ sets.keys) (hle : (sets.extend n chars).total ≤ sets.total) :
    (∀ c ∈ chars, c ∈ sets.charsOf n) ∧ sets.extend n chars = sets := by
  have hlength := total_extend h chars
  have hnil : OrderedSet.newcomers (sets.charsOf n).toList chars = [] :=
    List.length_eq_zero_iff.1 (by omega)
  have hsubset : ∀ c ∈ chars, c ∈ sets.charsOf n := by
    intro c hc
    by_contra hnot
    have hnew := OrderedSet.mem_newcomers.2 ⟨hc, hnot⟩
    rw [hnil] at hnew
    cases hnew
  refine ⟨hsubset, ?_⟩
  rw [extend, OrderedSet.insertAll_of_subset hsubset]
  exact OrderedMap.insert_of_get? (exists_get?_of_mem_keys h)

/-! ### One round -/

section Sweep

variable {α : Type} {key : α → NonTerminal} {chars : CharSets → α → List Char}

/-- Meet demands one after the other. What is demanded may depend on the sets as they are then. -/
def sweep (key : α → NonTerminal) (chars : CharSets → α → List Char) (demands : List α)
    (sets : CharSets) : CharSets :=
  demands.foldl (fun sets demand => sets.extend (key demand) (chars sets demand)) sets

/-- A round keeps what each of its additions keeps. -/
theorem sweep_induction {demands : List α} {sets : CharSets} (P : CharSets → Prop)
    (hstart : P sets)
    (hextend : ∀ sets, P sets → ∀ demand ∈ demands,
      P (sets.extend (key demand) (chars sets demand))) :
    P (sweep key chars demands sets) := by
  induction demands generalizing sets with
  | nil => exact hstart
  | cons demand rest ih =>
      apply ih (hextend sets hstart demand List.mem_cons_self)
      intro sets hsets other hother
      exact hextend sets hsets other (List.mem_cons_of_mem _ hother)

theorem total_le_total_sweep {demands : List α} {sets : CharSets}
    (h : ∀ demand ∈ demands, key demand ∈ sets.keys) :
    sets.total ≤ (sweep key chars demands sets).total := by
  induction demands generalizing sets with
  | nil => exact Nat.le_refl _
  | cons demand rest ih =>
      have hkey := h demand List.mem_cons_self
      have hfirst : sets.total ≤ (sets.extend (key demand) (chars sets demand)).total := by
        rw [total_extend hkey]
        exact Nat.le_add_right _ _
      apply Nat.le_trans hfirst
      apply ih
      intro other hother
      rw [keys_extend hkey]
      exact h other (List.mem_cons_of_mem _ hother)

/-- A round that does not increase the total changes nothing, and all its demands were met. -/
theorem sweep_of_total_le {demands : List α} {sets : CharSets}
    (h : ∀ demand ∈ demands, key demand ∈ sets.keys)
    (hle : (sweep key chars demands sets).total ≤ sets.total) :
    (∀ demand ∈ demands, ∀ c ∈ chars sets demand, c ∈ sets.charsOf (key demand)) ∧
      sweep key chars demands sets = sets := by
  induction demands with
  | nil => exact ⟨by simp, rfl⟩
  | cons demand rest ih =>
      have hkey := h demand List.mem_cons_self
      have hrest : ∀ other ∈ rest, key other ∈ sets.keys := fun other hother =>
        h other (List.mem_cons_of_mem _ hother)
      -- Neither the first addition nor the later ones can have made up for the other.
      have hfirst : (sets.extend (key demand) (chars sets demand)).total ≤ sets.total := by
        refine Nat.le_trans ?_ hle
        apply total_le_total_sweep
        rw [keys_extend hkey]
        exact hrest
      obtain ⟨hmet, hsame⟩ := extend_of_total_le hkey hfirst
      have hsweep : sweep key chars (demand :: rest) sets = sweep key chars rest sets := by
        rw [sweep, List.foldl_cons, hsame, sweep]
      rw [hsweep] at hle ⊢
      obtain ⟨hothers, hfixed⟩ := ih hrest hle
      refine ⟨?_, hfixed⟩
      intro other hother
      rcases List.mem_cons.1 hother with rfl | hother
      · exact hmet
      · exact hothers other hother

end Sweep

/-! ### Rounds until nothing is added -/

/-- Sets within a finite range hold no more characters than there are pairs of a nonterminal and a
character of the range. -/
theorem total_le {sets : CharSets} {range : List Char}
    (h : ∀ n, ∀ c ∈ sets.charsOf n, c ∈ range) :
    sets.total ≤ sets.keys.size * range.length := by
  have hentries : ∀ entries : List (NonTerminal × OrderedSet Char),
      (∀ entry ∈ entries, entry.2.size ≤ range.length) →
      entries.foldr (fun entry sum => entry.2.size + sum) 0 ≤ entries.length * range.length := by
    intro entries
    induction entries with
    | nil => simp
    | cons entry rest ih =>
        intro hsizes
        have hfirst := hsizes entry List.mem_cons_self
        have hrest := ih fun other hother => hsizes other (List.mem_cons_of_mem _ hother)
        rw [List.foldr_cons, List.length_cons, Nat.succ_mul]
        omega
  have hsize : sets.keys.size = sets.toList.length := by simp [OrderedMap.keys, OrderedSet.size]
  rw [hsize]
  apply hentries
  intro entry hentry
  have hchars : sets.charsOf entry.1 = entry.2 := by
    rw [charsOf, OrderedMap.getD, OrderedMap.get?_eq_some.2 hentry, Option.getD_some]
  apply entry.2.nodup.length_le_of_subset
  intro c hc
  exact h entry.1 c (hchars ▸ hc)

variable {bound : Nat} {round : CharSets → CharSets} {sets : CharSets}

/-- If the sets stay below the bound, and a round that adds nothing changes nothing, then saturation
ends in a fixed point. -/
theorem round_saturate (P : CharSets → Prop) (hstart : P sets)
    (hround : ∀ sets, P sets → P (round sets)) (hbound : ∀ sets, P sets → sets.total ≤ bound)
    (hfixed : ∀ sets, P sets → (round sets).total ≤ sets.total → round sets = sets) :
    round (saturate bound round sets) = saturate bound round sets := by
  have hP : P (saturate bound round sets) := saturate_induction P hstart hround
  have hstop : (round (saturate bound round sets)).total ≤ (saturate bound round sets).total ∨
      bound < (round (saturate bound round sets)).total := total_round_saturate
  rcases hstop with hle | hgt
  · exact hfixed _ hP hle
  · exact absurd (hbound _ (hround _ hP)) (Nat.not_le_of_gt hgt)

/-- Saturation is some number of rounds. -/
theorem exists_iterate_eq_saturate : ∃ rounds, round^[rounds] sets = saturate bound round sets := by
  fun_induction saturate bound round sets with
  | case1 sets next _ ih =>
      obtain ⟨rounds, hrounds⟩ := ih
      exact ⟨rounds + 1, hrounds⟩
  | case2 sets => exact ⟨0, rfl⟩

end CharSets

end PredictiveParsing
