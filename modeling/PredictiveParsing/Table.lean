/-
Module: PredictiveParsing.Table
Layer: Prediction
Purpose: Prediction tables. A cell of the table says which body to put in place of a nonterminal
  when a given character comes next. Two bodies of one nonterminal may claim the same cell; the
  later one wins and the conflict is recorded, so that the table is a function in any case and the
  grammar is predictable exactly if there are no conflicts.
Imports: PredictiveParsing.Lookahead.Follow
Main exports: Conflict, Table, Lookahead.predict, Grammar.table, Table.entry?, Grammar.columns
Open obligations: none
-/
import PredictiveParsing.Lookahead.Follow

namespace PredictiveParsing

/-- The cells of one nonterminal, in the order in which they were first written. -/
abbrev Row := OrderedMap Char Body

/-- A cell that two different bodies claim. -/
structure Conflict where
  nonTerminal : NonTerminal
  terminal : Char
  /-- The body that stood in the cell. -/
  replaced : Body
  /-- The body that stands there now. -/
  winner : Body
deriving DecidableEq

/-- A prediction table with the conflicts met while it was filled. -/
structure Table where
  rows : OrderedMap NonTerminal Row
  conflicts : List Conflict

/-- The characters on which a body of `n` is predicted: those of its FIRST set and, if it can
vanish, those that follow `n`. -/
def Lookahead.predict (lookahead : Lookahead) (n : NonTerminal) (p : Body) : List Char :=
  let front := firstOf lookahead.first p
  let beyond := if emptyMark ∈ front then (lookahead.follow.charsOf n).toList else []
  (front.erase emptyMark).toList ++ beyond

namespace Table

/-- The table without cells. -/
def empty : Table := ⟨∅, []⟩

instance : EmptyCollection Table := ⟨empty⟩

/-- The body predicted for a nonterminal and the next character. -/
def entry? (table : Table) (n : NonTerminal) (c : Char) : Option Body :=
  (table.rows.get? n).bind (·.get? c)

/-- Write one cell of the row of `n`. Writing the body that stands there already is no conflict. -/
def writeCell (n : NonTerminal) (filled : Row × List Conflict) (cell : Char × Body) :
    Row × List Conflict :=
  let (row, conflicts) := filled
  let (c, p) := cell
  let clash :=
    match row.get? c with
    | none => []
    | some old => if old = p then [] else [⟨n, c, old, p⟩]
  (row.insert c p, conflicts ++ clash)

/-- The row of `n` and its conflicts, the bodies being entered one after the other. -/
def fillRow (lookahead : Lookahead) (n : NonTerminal) (bodies : List Body) :
    Row × List Conflict :=
  let cells := bodies.flatMap fun p => (lookahead.predict n p).map fun c => (c, p)
  cells.foldl (writeCell n) (∅, [])

/-- Add the row of a rule. -/
def addRow (lookahead : Lookahead) (table : Table) (rule : Rule) : Table :=
  let (row, conflicts) := fillRow lookahead rule.head rule.bodies.toList
  ⟨table.rows.insert rule.head row, table.conflicts ++ conflicts⟩

end Table

namespace Grammar

/-- The prediction table of a grammar for given lookahead sets. -/
def table (g : Grammar) (lookahead : Lookahead) : Table :=
  g.rules.foldl (Table.addRow lookahead) ∅

/-- The characters that head the columns of a table: every terminal and the end mark. -/
def columns (g : Grammar) : List Char := g.terminals.toList ++ [endMark]

end Grammar

end PredictiveParsing
