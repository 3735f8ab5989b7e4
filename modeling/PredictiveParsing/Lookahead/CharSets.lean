/-
Module: PredictiveParsing.Lookahead.CharSets
Layer: Lookahead
Purpose: Families of character sets, one for each nonterminal, and their growth up to a fixed
  point. FIRST and FOLLOW are both such families: they start from small sets, a round adds what the
  rules demand, and rounds are repeated until nothing is added.
Imports: PredictiveParsing.OrderedMap, PredictiveParsing.Symbol
Main exports: CharSets, CharSets.charsOf, CharSets.extend, CharSets.saturate,
  CharSets.mem_charsOf_extend
Open obligations: none
-/
import PredictiveParsing.OrderedMap
import PredictiveParsing.Symbol

namespace PredictiveParsing

/-- A set of characters for each of several nonterminals. -/
abbrev CharSets := OrderedMap NonTerminal (OrderedSet Char)

namespace CharSets

/-- The characters of a nonterminal; none if the family does not cover it. -/
def charsOf (sets : CharSets) (n : NonTerminal) : OrderedSet Char := sets.getD n ∅

/-- Add characters to the set of a nonterminal. -/
def extend (sets : CharSets) (n : NonTerminal) (chars : List Char) : CharSets :=
  sets.insert n ((sets.charsOf n).insertAll chars)

/-- The number of characters in all sets together. -/
def total (sets : CharSets) : Nat := sets.toList.foldr (fun entry sum => entry.2.size + sum) 0

/-- A family grows by the added characters at the one nonterminal and nowhere else. -/
theorem mem_charsOf_extend {sets : CharSets} {m n : NonTerminal} {chars : List Char} {c : Char} :
    c ∈ (sets.extend n chars).charsOf m ↔ c ∈ sets.charsOf m ∨ (n = m ∧ c ∈ chars) := by
  unfold extend
  rw [charsOf, OrderedMap.getD, OrderedMap.get?_insert]
  by_cases h : n = m
  · subst h
    simp
  · simp [h, charsOf, OrderedMap.getD]

/-- Repeat a round as long as it adds characters. A family never holds more characters than
`bound`, the number of its nonterminals times the number of characters that they can have, so the
rounds come to an end. -/
def saturate (bound : Nat) (round : CharSets → CharSets) (sets : CharSets) : CharSets :=
  let next := round sets
  if _h : sets.total < next.total ∧ next.total ≤ bound then saturate bound round next else sets
termination_by bound - sets.total
decreasing_by
  have hlt : sets.total < (round sets).total := _h.1
  have hle : (round sets).total ≤ bound := _h.2
  omega

/-- Saturation keeps every property that a round keeps. -/
theorem saturate_induction {bound : Nat} {round : CharSets → CharSets} {sets : CharSets}
    (P : CharSets → Prop) (hstart : P sets) (hround : ∀ s, P s → P (round s)) :
    P (saturate bound round sets) := by
  fun_induction saturate bound round sets with
  | case1 sets next _ ih => exact ih (hround _ hstart)
  | case2 => exact hstart

/-- Where saturation stops, another round adds nothing, unless the bound is exceeded. -/
theorem total_round_saturate {bound : Nat} {round : CharSets → CharSets} {sets : CharSets} :
    (round (saturate bound round sets)).total ≤ (saturate bound round sets).total ∨
      bound < (round (saturate bound round sets)).total := by
  fun_induction saturate bound round sets with
  | case1 _ _ _ ih => exact ih
  | case2 sets next h =>
      rcases Nat.lt_or_ge sets.total next.total with hlt | hge
      · exact Or.inr (Nat.lt_of_not_ge fun hle => h ⟨hlt, hle⟩)
      · exact Or.inl hge

end CharSets

end PredictiveParsing
