/-
Module: PredictiveParsing.Normalization.Indexed
Layer: Normalization
Purpose: Normalization of a grammar kept in two containers. What comes before what is read off the
  order, and alternatives are looked up in the map and written back to it. A nonterminal that is
  created has no alternatives until they are set, and those of the old one are still the old ones
  then; the bodies that are set are the same as for a grammar in one piece.
Imports: PredictiveParsing.Grammar.Indexed, PredictiveParsing.Normalization.Basic
Main exports: IndexedGrammar.substitutions, IndexedGrammar.expandEarlier,
  IndexedGrammar.splitRecursion, IndexedGrammar.removeLeftRecursion, IndexedGrammar.factor,
  IndexedGrammar.normalizeWithin
Open obligations: none
-/
import PredictiveParsing.Grammar.Indexed
import PredictiveParsing.Normalization.Basic

namespace PredictiveParsing.IndexedGrammar

/-- Whether `head` may be substituted for the sake of `n`, which has the given place: it comes
earlier in the order, it has alternatives, and `n` was not split off from it. -/
def isExpandable (g : IndexedGrammar) (n : NonTerminal) (place : Nat) (head : NonTerminal) : Bool :=
  (g.place? head).any (· < place) && (g.productions.get? head).any (!·.isEmpty) &&
    !Grammar.isDescendant n head g.lineage

/-- The bodies that arise from a body of `n` when its leading nonterminal is substituted. -/
def substitutions (g : IndexedGrammar) (n : NonTerminal) (place : Nat) (p : Body) : List Body :=
  match p.leading? with
  | none => []
  | some head =>
      if g.isExpandable n place head then
        (g.productions.getD head ∅).toList.map p.substituteLeading
      else []

/-- Substitute earlier nonterminals where that exposes `n`, if the limit allows it. -/
def expandEarlier (limit : Nat) (n : NonTerminal) (g : IndexedGrammar) : Option IndexedGrammar :=
  match g.place? n with
  | none => some g
  | some place =>
      (Forest.grow? (g.substitutions n place) limit (g.productions.getD n ∅).toList).map
        fun forest => g.setProductions n (OrderedSet.ofList (forest.fold n))

/-- Move the direct left recursion of a nonterminal to a new one. -/
def splitRecursion (n : NonTerminal) (g : IndexedGrammar) : IndexedGrammar :=
  let old := g.productions.getD n ∅
  let fresh := g.freshFor n
  ((g.freshNonTerminal n).setProductions n (Grammar.baseBodies n fresh old)).setProductions fresh
    (Grammar.repeatBodies n fresh old)

/-- Remove the left recursion of a nonterminal, if substitution stays within the limit. -/
def removeLeftRecursion (limit : Nat) (n : NonTerminal) (g : IndexedGrammar) :
    Option IndexedGrammar :=
  (g.expandEarlier limit n).map fun expanded =>
    if expanded.isLeftRecursive n then expanded.splitRecursion n else expanded

/-- Factor one prefix out of the alternatives of a nonterminal. -/
def factorOnce (n : NonTerminal) (bodies : OrderedSet Body) (shared : Body) (g : IndexedGrammar) :
    IndexedGrammar :=
  let fresh := g.freshFor n
  ((g.freshNonTerminal n).setProductions n
    (Grammar.factoredBodies shared fresh bodies)).setProductions fresh
      (Grammar.remainders shared bodies)

/-- Factor the alternatives of a nonterminal, in no more than the given number of rounds. The place
where factoring gave up comes with the grammar that is left. -/
def factor : (rounds : Nat) → NonTerminal → IndexedGrammar → IndexedGrammar × Option Obstacle
  | 0, n, g => (g, some ⟨.factoring, n⟩)
  | rounds + 1, n, g =>
      match g.productions.get? n with
      | none => (g, none)
      | some bodies =>
          match Body.longestSharedPrefix bodies.toList with
          | [] => (g, none)
          | shared => factor rounds n (g.factorOnce n bodies shared)

/-- Whether the order or the number of productions is beyond the limit. -/
def exceeds (limit : Nat) (g : IndexedGrammar) : Bool :=
  limit < g.order.length || limit < g.size

/-- Remove the left recursion of one nonterminal and factor it. -/
def visit (limit : Nat) (n : NonTerminal) (g : IndexedGrammar) :
    IndexedGrammar × Option Obstacle :=
  match g.removeLeftRecursion limit n with
  | none => (g, some ⟨.substitution, n⟩)
  | some eliminated => eliminated.factor limit n

/-- Visit the nonterminals from the given place in the order on. -/
def normalizeFrom (limit place : Nat) (g : IndexedGrammar) : IndexedGrammar × Option Obstacle :=
  match _hplace : g.order[place]? with
  | none => (g, none)
  | some n =>
      if _hsize : g.exceeds limit = true then (g, some ⟨.size, n⟩)
      else
        match g.visit limit n with
        | (visited, some obstacle) => (visited, some obstacle)
        | (visited, none) => normalizeFrom limit (place + 1) visited
termination_by limit - place
decreasing_by
  have hlt : place < g.order.length := (List.getElem?_eq_some_iff.1 _hplace).1
  simp only [exceeds, Bool.or_eq_true, decide_eq_true_eq, not_or] at _hsize
  omega

/-- Normalize a grammar within a limit. -/
def normalizeWithin (limit : Nat) (g : IndexedGrammar) : IndexedGrammar × Option Obstacle :=
  g.normalizeFrom limit 0

end PredictiveParsing.IndexedGrammar
