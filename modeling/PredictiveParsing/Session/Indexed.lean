/-
Module: PredictiveParsing.Session.Indexed
Layer: Sessions
Purpose: The operations of a session as they change a grammar kept in two containers. Lookahead sets
  and tables are computed from the containers and leave them alone. An operation that fails leaves
  what it leaves of a session: what normalization has done so far, nothing after loading, and the
  old containers otherwise.
Imports: PredictiveParsing.Normalization.Indexed, PredictiveParsing.Session
Main exports: IndexedGrammar.apply, IndexedGrammar.run, Session.run
Open obligations: none
-/
import PredictiveParsing.Normalization.Indexed
import PredictiveParsing.Session

namespace PredictiveParsing

namespace IndexedGrammar

/-- The grammar read from a text and normalized, unless that takes too much work. -/
def build (text : String) : Except GrammarError IndexedGrammar :=
  match parse text with
  | .error e => .error e
  | .ok g =>
      match g.normalizeWithin workLimit with
      | (_, some obstacle) => .error (.limitExceeded obstacle)
      | (normalized, none) => .ok normalized

/-- Keep the grammar after a failure, or take the one that was read. -/
def adopt (g : IndexedGrammar) :
    Except GrammarError IndexedGrammar → IndexedGrammar × Option GrammarError
  | .ok h => (h, none)
  | .error e => (g, some e)

/-- Go on with what a normalization step leaves behind. -/
def adoptNormalized (result : IndexedGrammar × Option Obstacle) :
    IndexedGrammar × Option GrammarError :=
  (result.1, result.2.map GrammarError.limitExceeded)

/-- Do one operation. -/
def apply (g : IndexedGrammar) : Operation → IndexedGrammar × Option GrammarError
  | .reset => (∅, none)
  | .parse text => g.adopt (parse text)
  | .build text => g.adopt (build text)
  | .load text => (∅ : IndexedGrammar).adopt (build text)
  | .insertLine line => g.adopt (g.insertLine line)
  | .normalize => adoptNormalized (g.normalizeWithin workLimit)
  | .normalizeWithin limit => adoptNormalized (g.normalizeWithin limit)
  | .removeLeftRecursion n =>
      match g.removeLeftRecursion workLimit n with
      | some h => (h, none)
      | none => (g, some (.limitExceeded ⟨.substitution, n⟩))
  | .factor n => adoptNormalized (g.factor workLimit n)
  | .computeLookahead => (g, none)
  | .computeTable => (g, none)

/-- Do operations one after the other, from empty containers on, whether or not they fail. -/
def run (operations : List Operation) : IndexedGrammar :=
  operations.foldl (fun g operation => (g.apply operation).1) ∅

end IndexedGrammar

/-- Do operations one after the other, from the empty session on, whether or not they fail. -/
def Session.run (operations : List Operation) : Session :=
  operations.foldl (fun s operation => (s.apply operation).1) ∅

end PredictiveParsing
