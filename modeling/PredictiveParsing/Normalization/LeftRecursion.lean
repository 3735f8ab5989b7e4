/-
Module: PredictiveParsing.Normalization.LeftRecursion
Layer: Normalization
Purpose: Removing the left recursion of one nonterminal. First the nonterminals that come earlier
  in the grammar are substituted at the front of its bodies wherever that brings the nonterminal
  itself to the front. Then `A -> A a | b` becomes `A -> b A'` and `A' -> a A' | ε`.
Imports: PredictiveParsing.Grammar.Splitting, PredictiveParsing.Normalization.Substitution
Main exports: Grammar.substitutions, Grammar.expandEarlier, Grammar.splitRecursion,
  Grammar.removeLeftRecursion
Open obligations: none
-/
import PredictiveParsing.Grammar.Splitting
import PredictiveParsing.Normalization.Substitution

namespace PredictiveParsing.Grammar

/-- The rules that stand before the rule of a nonterminal. -/
def earlierRules (g : Grammar) (n : NonTerminal) : List Rule :=
  g.rules.takeWhile (·.head ≠ n)

/-- The bodies that arise from a body of `n` when its leading nonterminal is substituted. Only a
nonterminal that comes before `n` is substituted, and not one that `n` was split off from: that
would undo the split. -/
def substitutions (g : Grammar) (n : NonTerminal) (p : Body) : List Body :=
  match p.leading? with
  | none => []
  | some head =>
      match (g.earlierRules n).find? (·.head = head) with
      | none => []
      | some rule =>
          if g.descendsFrom n head then [] else rule.bodies.toList.map p.substituteLeading

/-- Substitute earlier nonterminals where that exposes `n`. There is no result if more than
`limit` bodies have to be looked at. -/
def expandEarlier (limit : Nat) (n : NonTerminal) (g : Grammar) : Option Grammar :=
  match g.bodies? n with
  | none => some g
  | some bodies =>
      (Forest.grow? (g.substitutions n) limit bodies.toList).map fun forest =>
        g.setBodies n (OrderedSet.ofList (forest.fold n))

/-- The alternatives that `n` keeps once its direct recursion is moved to `fresh`: those that do
not begin with `n`, each followed by `fresh`. If there are none, only `fresh` is left. -/
def baseBodies (n fresh : NonTerminal) (bodies : OrderedSet Body) : OrderedSet Body :=
  match bodies.toList.filter (!·.beginsWith n) with
  | [] => OrderedSet.singleton [.nonTerminal fresh]
  | bases => OrderedSet.ofList (bases.map (·.followedBy fresh))

/-- The alternatives of `fresh`: what follows `n` in the bodies that begin with it, followed by
`fresh`, and the empty body. The body that is `n` alone derives nothing new and is dropped. -/
def repeatBodies (n fresh : NonTerminal) (bodies : OrderedSet Body) : OrderedSet Body :=
  let tails := ((bodies.toList.filter (·.beginsWith n)).map List.tail).filter (· ≠ [])
  (OrderedSet.ofList (tails.map (Body.followedBy · fresh))).insert []

/-- Move the direct left recursion of a nonterminal to a new one. -/
def splitRecursion (n : NonTerminal) (g : Grammar) : Grammar :=
  match g.bodies? n with
  | none => g
  | some bodies =>
      let fresh := g.freshFor n
      g.splitOff n fresh (baseBodies n fresh bodies) (repeatBodies n fresh bodies)

/-- Remove the left recursion of a nonterminal, if substitution stays within the limit. -/
def removeLeftRecursion (limit : Nat) (n : NonTerminal) (g : Grammar) : Option Grammar :=
  (g.expandEarlier limit n).map fun expanded =>
    if expanded.isLeftRecursive n then expanded.splitRecursion n else expanded

end PredictiveParsing.Grammar
