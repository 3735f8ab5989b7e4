/-
Module: PredictiveParsing.Recognition.Trace
Layer: Recognition
Purpose: The record of a parse. Each row shows the stack and the input before a step and names the
  step; a parse that goes wrong ends in a row that says so.
Imports: PredictiveParsing.Body
Main exports: Action, TraceStep, Trace
Open obligations: none
-/
import PredictiveParsing.Body

namespace PredictiveParsing

/-- A step of a parse. -/
inductive Action where
  /-- The terminal on top of the stack is the next character; both are taken away. -/
  | shift
  /-- The nonterminal on top of the stack is replaced by a body. -/
  | predict (n : NonTerminal) (body : Body)
  /-- There is no step to make, and the input is rejected. -/
  | reject
deriving DecidableEq

/-- The situation before a step, and the step. -/
structure TraceStep where
  /-- The stack, its top first. -/
  stack : List Symbol
  /-- The characters not yet shifted, with the end mark behind them. -/
  input : List Char
  action : Action
deriving DecidableEq

/-- The steps of a parse and its outcome. -/
structure Trace where
  rows : List TraceStep
  accepted : Bool
deriving DecidableEq

namespace Action

/-- The text of a step; nothing is said about shifting. -/
def text : Action → String
  | .shift => ""
  | .predict n body => n.toString ++ " -> " ++ body.toString
  | .reject => "Error"

end Action

namespace TraceStep

/-- The stack as it is written, its bottom first. -/
def stackText (row : TraceStep) : String :=
  String.ofList (row.stack.reverse.flatMap Symbol.text)

/-- The remaining input as it is written. -/
def inputText (row : TraceStep) : String := String.ofList row.input

end TraceStep

end PredictiveParsing
