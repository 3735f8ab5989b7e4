/-
Module: PredictiveParsing.Normalization.LeftFactoring
Layer: Normalization
Purpose: Factoring out what alternatives of one nonterminal have in common at their front. In each
  round the longest common prefix of two alternatives is followed by a new nonterminal, which takes
  over the remainders of all alternatives with that prefix; this goes on until no two alternatives
  begin with the same symbol.
Imports: PredictiveParsing.Grammar.Splitting, PredictiveParsing.Grammar.Error
Main exports: NormalizationResult, Grammar.factorOnce, Grammar.factor
Open obligations: none
-/
import PredictiveParsing.Grammar.Splitting
import PredictiveParsing.Grammar.Error

namespace PredictiveParsing

/-- What a normalization step leaves behind. A step that gives up keeps the work done so far. -/
structure NormalizationResult where
  grammar : Grammar
  /-- Where the step gave up, if it did. -/
  obstacle? : Option Obstacle

namespace Grammar

/-- The alternatives with a prefix put together in one, in which `fresh` stands for the remainder;
the others are kept. -/
def factoredBodies (shared : Body) (fresh : NonTerminal) (bodies : OrderedSet Body) :
    OrderedSet Body :=
  OrderedSet.ofList (bodies.toList.map fun p =>
    if (p.dropPrefix? shared).isSome then shared.followedBy fresh else p)

/-- What remains of the alternatives with a prefix. -/
def remainders (shared : Body) (bodies : OrderedSet Body) : OrderedSet Body :=
  OrderedSet.ofList (bodies.toList.filterMap (·.dropPrefix? shared))

/-- Factor one prefix out of the alternatives of a nonterminal. -/
def factorOnce (n : NonTerminal) (bodies : OrderedSet Body) (shared : Body) (g : Grammar) :
    Grammar :=
  let fresh := g.freshFor n
  g.splitOff n fresh (factoredBodies shared fresh bodies) (remainders shared bodies)

/-- Factor the alternatives of a nonterminal. The last of the permitted rounds has to find that
nothing is left to do. -/
def factor : (rounds : Nat) → NonTerminal → Grammar → NormalizationResult
  | 0, n, g => ⟨g, some ⟨.factoring, n⟩⟩
  | rounds + 1, n, g =>
      match g.bodies? n with
      | none => ⟨g, none⟩
      | some bodies =>
          match Body.longestSharedPrefix bodies.toList with
          | [] => ⟨g, none⟩
          | shared => factor rounds n (g.factorOnce n bodies shared)

end Grammar

end PredictiveParsing
