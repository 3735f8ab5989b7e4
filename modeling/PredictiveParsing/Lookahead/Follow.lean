/-
Module: PredictiveParsing.Lookahead.Follow
Layer: Lookahead
Purpose: FOLLOW sets: the characters that can stand directly after a nonterminal in a string
  derived from the start symbol, the end mark included. All additions of a round are computed from
  the sets as they were before that round, and are made afterwards.
Imports: PredictiveParsing.Lookahead.First
Main exports: Lookahead, Grammar.followRound, Grammar.followSets, Grammar.lookahead,
  Lookahead.isNullable
Open obligations: none
-/
import PredictiveParsing.Lookahead.First

namespace PredictiveParsing

/-- What each nonterminal in a body of `head` has to be given for the symbols after it: their FIRST
set, and the FOLLOW set of `head` if they can all vanish. -/
def followDemands (first follow : CharSets) (head : NonTerminal) :
    List Symbol → List (NonTerminal × List Char)
  | [] => []
  | .terminal _ :: rest => followDemands first follow head rest
  | .nonTerminal n :: rest =>
      let after := firstOf first rest
      let beyond := if emptyMark ∈ after then (follow.charsOf head).toList else []
      (n, (after.erase emptyMark).toList ++ beyond) :: followDemands first follow head rest

namespace Grammar

/-- One round for FOLLOW: all rules make their demands on the old sets, which are then met. -/
def followRound (g : Grammar) (first follow : CharSets) : CharSets :=
  let demands := g.rules.flatMap fun rule =>
    rule.bodies.toList.flatMap (followDemands first follow rule.head)
  demands.foldl (fun sets demand => sets.extend demand.1 demand.2) follow

/-- The FOLLOW sets of all nonterminals. The end mark follows the start symbol; without a start
symbol all sets are empty. -/
def followSets (g : Grammar) (first : CharSets) : CharSets :=
  match g.start? with
  | none => g.emptySets
  | some start =>
      CharSets.saturate g.lookaheadBound (g.followRound first) (g.emptySets.extend start [endMark])

end Grammar

/-- The FIRST and FOLLOW sets of a grammar. -/
structure Lookahead where
  first : CharSets
  follow : CharSets

namespace Lookahead

/-- Sets that cover no nonterminal, as before any computation. -/
def empty : Lookahead := ⟨∅, ∅⟩

instance : EmptyCollection Lookahead := ⟨empty⟩

/-- Whether the FIRST set of a nonterminal has the empty mark. -/
def isNullable (lookahead : Lookahead) (n : NonTerminal) : Bool :=
  emptyMark ∈ lookahead.first.charsOf n

end Lookahead

/-- Compute the FIRST and FOLLOW sets of a grammar. -/
def Grammar.lookahead (g : Grammar) : Lookahead :=
  let first := g.firstSets
  ⟨first, g.followSets first⟩

end PredictiveParsing
