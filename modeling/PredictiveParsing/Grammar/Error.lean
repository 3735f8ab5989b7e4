/-
Module: PredictiveParsing.Grammar.Error
Layer: Grammars
Purpose: What can be wrong with the text of a grammar, and where normalizing a grammar gives
  up. It does so at one of three stages; the message does not tell them apart, since for a reader of
  the grammar only the nonterminal matters.
Imports: PredictiveParsing.Symbol
Main exports: NormalizationStage, Obstacle, GrammarError, GrammarError.message
Open obligations: none
-/
import PredictiveParsing.Symbol

namespace PredictiveParsing

/-- The stages of normalization at which its limit is checked. -/
inductive NormalizationStage where
  /-- The grammar as a whole has too many rules or productions. -/
  | size
  /-- Substituting earlier nonterminals takes too many steps. -/
  | substitution
  /-- Factoring takes too many rounds. -/
  | factoring
deriving DecidableEq

/-- The place at which normalization gave up. -/
structure Obstacle where
  stage : NormalizationStage
  nonTerminal : NonTerminal
deriving DecidableEq

/-- The reasons for which a grammar is refused. Lines are counted from one. -/
inductive GrammarError where
  /-- A line is not a production. -/
  | invalidProduction (line : Nat) (content : String)
  /-- The left side of a line that was to be added is not a nonterminal. -/
  | malformedNonTerminal (name : String)
  /-- A body uses the mark for the end of the input. -/
  | reservedSymbol (line : Nat)
  /-- Normalization went beyond its limit. -/
  | limitExceeded (obstacle : Obstacle)
deriving DecidableEq

/-- The text that tells a user what is wrong. -/
def GrammarError.message : GrammarError → String
  | .invalidProduction line content =>
      "Line " ++ toString line ++ ": invalid production \"" ++ content ++ "\""
  | .malformedNonTerminal name => "\"" ++ name ++ "\" is not a valid non-terminal"
  | .reservedSymbol line =>
      "Line " ++ toString line ++ ": \"" ++ String.singleton endMark ++ "\" is reserved"
  | .limitExceeded obstacle =>
      "rewriting " ++ obstacle.nonTerminal.toString ++ " did not converge"

end PredictiveParsing
