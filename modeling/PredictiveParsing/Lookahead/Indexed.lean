/-
Module: PredictiveParsing.Lookahead.Indexed
Layer: Lookahead
Purpose: Lookahead sets of a grammar kept in two containers. The rounds go through the order and
  look up the alternatives in the map, and the rounds for FOLLOW look up the set of the left side.
  Each such lookup is made without asking first whether there is an entry; here a missing entry
  leaves the whole computation without a result.
Imports: PredictiveParsing.Grammar.Indexed, PredictiveParsing.Lookahead.Follow
Main exports: CharSets.saturate?, IndexedGrammar.firstRound?, IndexedGrammar.followRound?,
  IndexedGrammar.lookahead?
Open obligations: none
-/
import PredictiveParsing.Grammar.Indexed
import PredictiveParsing.Lookahead.Follow

namespace PredictiveParsing

/-- Saturation with rounds that can fail. Rounds that go on beyond the bound have no result either,
so where there is one, it was the last round that added nothing. -/
def CharSets.saturate? (bound : Nat) (round? : CharSets → Option CharSets) (sets : CharSets) :
    Option CharSets :=
  match round? sets with
  | none => none
  | some next =>
      if _hgrows : sets.total < next.total then
        if _hbound : next.total ≤ bound then saturate? bound round? next else none
      else some next
termination_by bound - sets.total
decreasing_by omega

/-- What each nonterminal in a body of `head` has to be given for the symbols after it. Where these
can all vanish, there has to be a FOLLOW set of `head`. -/
def followDemands? (first follow : CharSets) (head : NonTerminal) :
    List Symbol → Option (List (NonTerminal × List Char))
  | [] => some []
  | .terminal _ :: rest => followDemands? first follow head rest
  | .nonTerminal n :: rest =>
      let after := firstOf first rest
      let beyond? :=
        if emptyMark ∈ after then (follow.get? head).map OrderedSet.toList else some []
      match beyond?, followDemands? first follow head rest with
      | some beyond, some demands => some ((n, (after.erase emptyMark).toList ++ beyond) :: demands)
      | _, _ => none

namespace IndexedGrammar

/-- The most characters that families over the grammar's nonterminals can hold. -/
def lookaheadBound (g : IndexedGrammar) : Nat := g.nonTerminals.size * (g.terminals.size + 1)

/-- The family that gives every nonterminal the empty set. -/
def emptySets (g : IndexedGrammar) : CharSets := OrderedMap.const g.nonTerminals ∅

/-- One round for FIRST. Every nonterminal of the order has to have an entry in the map. -/
def firstRound? (g : IndexedGrammar) (first : CharSets) : Option CharSets :=
  g.order.foldlM (fun sets n =>
    (g.productions.get? n).map fun bodies =>
      sets.extend n (bodies.toList.flatMap fun p => (firstOf sets p).toList)) first

/-- The productions in order, each with its left side. -/
def listing (g : IndexedGrammar) : List (NonTerminal × Body) :=
  g.order.flatMap fun n => (g.productions.getD n ∅).toList.map fun p => (n, p)

/-- What the productions demand in a round for FOLLOW. -/
def demands? (g : IndexedGrammar) (first follow : CharSets) :
    Option (List (NonTerminal × List Char)) :=
  (g.listing.mapM fun entry => followDemands? first follow entry.1 entry.2).map List.flatten

/-- One round for FOLLOW. -/
def followRound? (g : IndexedGrammar) (first follow : CharSets) : Option CharSets :=
  (g.demands? first follow).map fun demands =>
    demands.foldl (fun sets demand => sets.extend demand.1 demand.2) follow

/-- The FOLLOW sets of all nonterminals. There has to be an entry for the start symbol, to which the
end mark is added. -/
def followSets? (g : IndexedGrammar) (first : CharSets) : Option CharSets :=
  match g.order.head? with
  | none => some g.emptySets
  | some start =>
      match g.emptySets.get? start with
      | none => none
      | some chars =>
          CharSets.saturate? g.lookaheadBound (g.followRound? first)
            (g.emptySets.insert start (chars.insert endMark))

/-- The FIRST and FOLLOW sets, if all entries that are looked up are there. -/
def lookahead? (g : IndexedGrammar) : Option Lookahead :=
  match CharSets.saturate? g.lookaheadBound g.firstRound? g.emptySets with
  | none => none
  | some first => (g.followSets? first).map fun follow => ⟨first, follow⟩

end IndexedGrammar

end PredictiveParsing
