/-
Module: PredictiveParsing.Grammar.Lines
Layer: Grammars
Purpose: Grammars written as text, one production a line. All lines are checked before the first
  production is added, so a faulty text yields an error for its first faulty line and no grammar.
Imports: PredictiveParsing.Grammar.Basic, PredictiveParsing.Grammar.Error,
  PredictiveParsing.Text.Blank, PredictiveParsing.Text.Lines
Main exports: ProductionLine, Grammar.validate, Grammar.parse, Grammar.insertLine
Open obligations: none
-/
import PredictiveParsing.Grammar.Basic
import PredictiveParsing.Grammar.Error
import PredictiveParsing.Text.Blank
import PredictiveParsing.Text.Lines

namespace PredictiveParsing

/-- A line that was found to be a production. -/
structure ProductionLine where
  /-- The whole line without the white space around it. -/
  content : List Char
  head : NonTerminal
  /-- The text of the body. -/
  right : List Char
deriving DecidableEq

namespace ProductionLine

/-- Check one trimmed line. The line has an arrow; what stands before it is a nonterminal; what
stands behind it holds no white space and not the mark for the end of the input. The faults are
reported in this order. -/
def check (number : Nat) (content : List Char) : Except GrammarError ProductionLine :=
  let invalid := GrammarError.invalidProduction number (String.ofList content)
  match Text.splitArrow content with
  | none => .error invalid
  | some (left, right) =>
      match NonTerminal.ofChars? left with
      | none => .error invalid
      | some head =>
          if right.any Text.isBlank then .error invalid
          else if endMark ∈ right then .error (.reservedSymbol number)
          else .ok ⟨content, head, right⟩

/-- Check numbered lines one after the other, up to the first faulty one. Blank lines are
skipped. -/
def checkAll : List (List Char × Nat) → Except GrammarError (List ProductionLine)
  | [] => .ok []
  | (line, number) :: rest =>
      let content := Text.trim line
      if content.isEmpty then checkAll rest
      else
        match check number content with
        | .error e => .error e
        | .ok production =>
            match checkAll rest with
            | .error e => .error e
            | .ok productions => .ok (production :: productions)

end ProductionLine

namespace Grammar

/-- The productions of a text. Every line counts for the numbering, blank ones too. -/
def validate (text : String) : Except GrammarError (List ProductionLine) :=
  ProductionLine.checkAll ((Text.lines text.toList).zipIdx 1)

/-- The grammar with the given productions, added one after the other. -/
def ofLines (productions : List ProductionLine) : Grammar :=
  productions.foldl (fun g line => g.insert line.head (Body.read line.right)) ∅

/-- Read a grammar from its text. -/
def parse (text : String) : Except GrammarError Grammar := (validate text).map ofLines

/-- Add one line to a grammar without the checks made for a whole text: only the left side has to
be a nonterminal, and a line without an arrow has the empty body. -/
def insertLine (g : Grammar) (line : String) : Except GrammarError Grammar :=
  let (left, right) := (Text.splitArrow line.toList).getD (line.toList, [])
  match NonTerminal.ofChars? left with
  | none => .error (.malformedNonTerminal (String.ofList left))
  | some head => .ok (g.insert head (Body.read right))

end Grammar

end PredictiveParsing
