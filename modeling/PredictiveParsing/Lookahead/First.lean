/-
Module: PredictiveParsing.Lookahead.First
Layer: Lookahead
Purpose: FIRST sets: the characters with which the strings derived from a nonterminal can begin,
  together with the empty mark if the empty string can be derived. Within a round every rule
  already uses what the rules before it have added.
Imports: PredictiveParsing.Grammar.Basic, PredictiveParsing.Lookahead.CharSets
Main exports: firstOfSymbol, firstOf, Grammar.firstRound, Grammar.firstSets
Open obligations: none
-/
import PredictiveParsing.Grammar.Basic
import PredictiveParsing.Lookahead.CharSets

namespace PredictiveParsing

/-- The FIRST set of a symbol, given those of the nonterminals. -/
def firstOfSymbol (first : CharSets) : Symbol → OrderedSet Char
  | .terminal c => OrderedSet.singleton c
  | .nonTerminal n => first.charsOf n

/-- The FIRST set of a string of symbols. It has the empty mark exactly if all symbols do. -/
def firstOf (first : CharSets) : List Symbol → OrderedSet Char
  | [] => OrderedSet.singleton emptyMark
  | s :: rest =>
      let front := firstOfSymbol first s
      if emptyMark ∈ front then (front.erase emptyMark).union (firstOf first rest) else front

namespace Grammar

/-- The most characters that families over the grammar's nonterminals can hold: every terminal and
one mark for each nonterminal. -/
def lookaheadBound (g : Grammar) : Nat := g.nonTerminals.size * (g.terminals.size + 1)

/-- The family that gives every nonterminal the empty set. -/
def emptySets (g : Grammar) : CharSets := OrderedMap.const g.nonTerminals ∅

/-- One round for FIRST: every rule adds the FIRST sets of its bodies to that of its head. -/
def firstRound (g : Grammar) (first : CharSets) : CharSets :=
  g.rules.foldl (fun sets rule =>
    sets.extend rule.head (rule.bodies.toList.flatMap fun p => (firstOf sets p).toList)) first

/-- The FIRST sets of all nonterminals. -/
def firstSets (g : Grammar) : CharSets :=
  CharSets.saturate g.lookaheadBound g.firstRound g.emptySets

end Grammar

end PredictiveParsing
