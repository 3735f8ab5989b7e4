/-
Module: PredictiveParsing.Session
Layer: Sessions
Purpose: A session works on one grammar step by step. It keeps the grammar and the lookahead sets
  and the table that were last computed; editing the grammar leaves these as they are, so they may
  be out of date until they are computed again. An operation that fails reports an error and leaves
  the session in a definite state: normalization keeps the work done so far, loading leaves it
  empty, and everything else changes nothing.
Imports: PredictiveParsing.Grammar.Lines, PredictiveParsing.Normalization.Basic,
  PredictiveParsing.Recognition.Basic
Main exports: Session, Session.parse, Session.build, Operation, Session.apply
Open obligations: none
-/
import PredictiveParsing.Grammar.Lines
import PredictiveParsing.Normalization.Basic
import PredictiveParsing.Recognition.Basic

namespace PredictiveParsing

/-- A grammar with the results last computed for it. -/
structure Session where
  grammar : Grammar
  lookahead : Lookahead
  table : Table

namespace Session

/-- The session at its start. -/
def empty : Session := ⟨∅, ∅, ∅⟩

instance : EmptyCollection Session := ⟨empty⟩

instance : Inhabited Session := ⟨empty⟩

/-- The session on a grammar for which nothing has been computed. -/
def ofGrammar (g : Grammar) : Session := ⟨g, ∅, ∅⟩

/-- Compute the lookahead sets of the grammar. -/
def computeLookahead (s : Session) : Session := { s with lookahead := s.grammar.lookahead }

/-- Compute the table of the grammar from the lookahead sets at hand. -/
def computeTable (s : Session) : Session := { s with table := s.grammar.table s.lookahead }

/-- The session on a grammar read from a text. -/
def parse (text : String) : Except GrammarError Session := (Grammar.parse text).map ofGrammar

/-- The session on a grammar read from a text, normalized, with its lookahead sets and table. -/
def build (text : String) : Except GrammarError Session :=
  match Grammar.parse text with
  | .error e => .error e
  | .ok g =>
      match g.normalize with
      | ⟨_, some obstacle⟩ => .error (.limitExceeded obstacle)
      | ⟨normalized, none⟩ => .ok (ofGrammar normalized).computeLookahead.computeTable

/-- Parse a string with the table at hand. -/
def recognize (s : Session) (input : String) : Trace :=
  s.table.recognize s.grammar.start? input

end Session

/-- What can be done to a session. -/
inductive Operation where
  /-- Start again from nothing. -/
  | reset
  /-- Read a grammar; a faulty text leaves the session as it is. -/
  | parse (text : String)
  /-- Read and normalize a grammar and compute its table; a failure leaves the session as it is. -/
  | build (text : String)
  /-- The same, but a failure leaves the session empty. -/
  | load (text : String)
  /-- Add one production. -/
  | insertLine (line : String)
  /-- Normalize the grammar within the usual limit. -/
  | normalize
  /-- Normalize the grammar within a limit. -/
  | normalizeWithin (limit : Nat)
  /-- Remove the left recursion of one nonterminal. -/
  | removeLeftRecursion (n : NonTerminal)
  /-- Factor one nonterminal. -/
  | factor (n : NonTerminal)
  | computeLookahead
  | computeTable

namespace Session

/-- Keep the session after a failure, or take the one that was read. -/
def adopt (s : Session) : Except GrammarError Session → Session × Option GrammarError
  | .ok t => (t, none)
  | .error e => (s, some e)

/-- Go on with the grammar that a normalization step leaves behind, complete or not. -/
def adoptNormalized (s : Session) (result : NormalizationResult) : Session × Option GrammarError :=
  ({ s with grammar := result.grammar }, result.obstacle?.map GrammarError.limitExceeded)

/-- Do one operation. The error, if there is one, comes with the session that is left. -/
def apply (s : Session) : Operation → Session × Option GrammarError
  | .reset => (∅, none)
  | .parse text => s.adopt (Session.parse text)
  | .build text => s.adopt (Session.build text)
  | .load text => (∅ : Session).adopt (Session.build text)
  | .insertLine line =>
      s.adopt ((s.grammar.insertLine line).map fun g => { s with grammar := g })
  | .normalize => s.adoptNormalized s.grammar.normalize
  | .normalizeWithin limit => s.adoptNormalized (s.grammar.normalizeWithin limit)
  | .removeLeftRecursion n =>
      match s.grammar.removeLeftRecursion workLimit n with
      | some g => ({ s with grammar := g }, none)
      | none => (s, some (.limitExceeded ⟨.substitution, n⟩))
  | .factor n => s.adoptNormalized (s.grammar.factor workLimit n)
  | .computeLookahead => (s.computeLookahead, none)
  | .computeTable => (s.computeTable, none)

/-- The sessions that operations can lead to, failed ones included. -/
inductive Reachable : Session → Prop where
  | empty : Reachable ∅
  | apply {s : Session} (operation : Operation) (h : Reachable s) :
      Reachable (s.apply operation).1

end Session

end PredictiveParsing
