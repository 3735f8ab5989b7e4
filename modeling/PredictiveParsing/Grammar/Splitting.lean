/-
Module: PredictiveParsing.Grammar.Splitting
Layer: Grammars
Purpose: Splitting a nonterminal in two. Both steps of normalization do this: they create a
  nonterminal of the same letter, hand some of the work over to it, and give the old one new
  alternatives. The new name has more primes than the old one and must not be in use, not even in
  a body only.
Imports: PredictiveParsing.Grammar.Basic
Main exports: NonTerminal.unusedFrom, Grammar.freshFor, Grammar.setBodies, Grammar.splitOff,
  NonTerminal.unusedFrom_not_mem
Open obligations: none
-/
import PredictiveParsing.Grammar.Basic

namespace PredictiveParsing

namespace NonTerminal

/-- The first of `n`, `n'`, `n''`, … that is not in a list. A name that is in the list can be
struck off it, because only names with more primes are tried afterwards. -/
def unusedFrom (used : List NonTerminal) (n : NonTerminal) : NonTerminal :=
  if _h : n ∈ used then unusedFrom (used.erase n) n.primed else n
termination_by used.length
decreasing_by
  rw [List.length_erase_of_mem _h]
  have := List.length_pos_of_mem _h
  omega

/-- The unused name has the given letter and at least the given number of primes. -/
theorem unusedFrom_letter_primes (used : List NonTerminal) (n : NonTerminal) :
    (unusedFrom used n).letter = n.letter ∧ n.primes ≤ (unusedFrom used n).primes := by
  fun_induction unusedFrom used n with
  | case1 used n _ ih =>
      refine ⟨ih.1, ?_⟩
      have h := ih.2
      rw [primes_primed] at h
      omega
  | case2 => simp

/-- The unused name is not in the list. -/
theorem unusedFrom_not_mem (used : List NonTerminal) (n : NonTerminal) :
    unusedFrom used n ∉ used := by
  fun_induction unusedFrom used n with
  | case1 used n _ ih =>
      intro hmem
      -- The only name that was struck off has fewer primes than the result.
      have hprimes := (unusedFrom_letter_primes (used.erase n) n.primed).2
      have hne : unusedFrom (used.erase n) n.primed ≠ n := by
        intro e
        rw [e, primes_primed] at hprimes
        omega
      exact ih ((List.mem_erase_of_ne hne).2 hmem)
  | case2 _ _ h => exact h

end NonTerminal

namespace Grammar

/-- A name for a nonterminal that is split off from `base`. -/
def freshFor (g : Grammar) (base : NonTerminal) : NonTerminal :=
  NonTerminal.unusedFrom g.nonTerminals.toList base.primed

/-- The new name is none of the grammar's nonterminals, defined or merely used. -/
theorem freshFor_not_mem (g : Grammar) (base : NonTerminal) :
    g.freshFor base ∉ g.nonTerminals :=
  NonTerminal.unusedFrom_not_mem _ _

/-- Replace the alternatives of a nonterminal that has a rule. -/
def setBodies (g : Grammar) (n : NonTerminal) (bodies : OrderedSet Body) : Grammar :=
  { g with
    rules := g.rules.map fun rule => if rule.head = n then { rule with bodies } else rule }

/-- Replace the rule of `base` by two: its own with the alternatives `kept`, and right after it the
rule of the new nonterminal `fresh` with the alternatives `moved`. -/
def splitOff (g : Grammar) (base fresh : NonTerminal) (kept moved : OrderedSet Body) : Grammar :=
  { g with
    rules := g.rules.flatMap fun rule =>
      if rule.head = base then [⟨base, kept⟩, ⟨fresh, moved⟩] else [rule]
    nonTerminals := g.nonTerminals.insert fresh
    lineage := (fresh, base) :: g.lineage }

@[simp]
theorem order_setBodies (g : Grammar) (n : NonTerminal) (bodies : OrderedSet Body) :
    (g.setBodies n bodies).order = g.order := by
  simp only [order, setBodies, List.map_map]
  apply List.map_congr_left
  intro rule _
  by_cases h : rule.head = n <;> simp [h]

/-- The new nonterminal stands directly after the one that it was split off from. -/
theorem order_splitOff (g : Grammar) (base fresh : NonTerminal) (kept moved : OrderedSet Body) :
    (g.splitOff base fresh kept moved).order =
      g.order.flatMap fun n => if n = base then [base, fresh] else [n] := by
  show List.map Rule.head (List.flatMap _ g.rules) = _
  rw [order]
  induction g.rules with
  | nil => rfl
  | cons rule rest ih =>
      by_cases h : rule.head = base <;> simp_all

end Grammar

end PredictiveParsing
