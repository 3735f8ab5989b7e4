/-
Module: PredictiveParsing.Recognition.Basic
Layer: Recognition
Purpose: Parsing with a prediction table. The stack holds what is still expected. A nonterminal on
  top is replaced by the body that the table has for the next character, a terminal on top must be
  the next character. A table with left recursion hidden behind vanishing symbols could predict for
  ever without shifting, so the number of predictions in a row is bounded.
Imports: PredictiveParsing.Limit, PredictiveParsing.Recognition.Trace, PredictiveParsing.Table
Main exports: Table.run, Table.recognize
Open obligations: none
-/
import PredictiveParsing.Limit
import PredictiveParsing.Recognition.Trace
import PredictiveParsing.Table

namespace PredictiveParsing.Table

/-- Run a parse from a given stack and input. `patience` is the number of predictions still allowed
before the next shift, `limit` the number allowed after it, and `past` holds the rows so far, the
last one first. -/
def run (table : Table) (limit : Nat) (patience : Nat) (stack : List Symbol) (input : List Char)
    (past : List TraceStep) : Trace :=
  match stack, input with
  | [], [] => ⟨past.reverse, true⟩
  | [], _ :: _ =>
      -- An end mark in the input was taken for the one at the bottom of the stack.
      ⟨(⟨stack, input, .reject⟩ :: past).reverse, false⟩
  | .terminal c :: below, d :: later =>
      if c = d then run table limit limit below later (⟨stack, input, .shift⟩ :: past)
      else ⟨(⟨stack, input, .reject⟩ :: past).reverse, false⟩
  | .nonTerminal n :: below, d :: later =>
      match patience, table.entry? n d with
      | left + 1, some body =>
          run table limit left (body ++ below) (d :: later)
            (⟨stack, input, .predict n body⟩ :: past)
      | _, _ => ⟨(⟨stack, input, .reject⟩ :: past).reverse, false⟩
  | _ :: _, [] => ⟨(⟨stack, input, .reject⟩ :: past).reverse, false⟩
termination_by (input.length, patience)

/-- Parse a string: the start symbol is expected, and then the end of the input. -/
def recognize (table : Table) (start? : Option NonTerminal) (input : String) : Trace :=
  table.run workLimit workLimit
    ((start?.map Symbol.nonTerminal).toList ++ [.terminal endMark]) (input.toList ++ [endMark]) []

end PredictiveParsing.Table
