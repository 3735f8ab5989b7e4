/-
Module: PredictiveParsing.Limit
Layer: Grammars
Purpose: The one limit that keeps work finite. Normalizing a grammar and parsing with its table can
  both go on for ever on some inputs; each gives up where the limit is reached.
Imports: none
Main exports: workLimit
Open obligations: none
-/

namespace PredictiveParsing

/-- The usual limit on the size of a grammar under normalization and on the work on a single
nonterminal, and the number of predictions that a parse makes between two shifts at most. -/
def workLimit : Nat := 10000

end PredictiveParsing
