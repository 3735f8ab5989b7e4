/-
Module: PredictiveParsing.Report.Table
Layer: Reports
Purpose: The prediction table as a grid with one column for each terminal and one row for each
  nonterminal that has a rule, and the grid as plain text, as a TeX array and as a JSON document.
Imports: PredictiveParsing.Json, PredictiveParsing.Table, PredictiveParsing.Text.Aligned,
  PredictiveParsing.Text.Tex
Main exports: Report.Grid, Report.grid, Report.Grid.plain, Report.Grid.tex, Report.Grid.json,
  Report.conflictJson
Open obligations: none
-/
import PredictiveParsing.Json
import PredictiveParsing.Table
import PredictiveParsing.Text.Aligned
import PredictiveParsing.Text.Tex

namespace PredictiveParsing.Report

/-- A table laid out in columns and rows; a cell without a prediction is empty. -/
structure Grid where
  columns : List Char
  rows : List (NonTerminal × List (Option Body))

/-- The grid of a grammar's table. -/
def grid (g : Grammar) (table : Table) : Grid :=
  { columns := g.columns
    rows := g.order.map fun n => (n, g.columns.map (table.entry? n)) }

namespace Grid

/-- The texts of a cell. -/
def cellText (n : NonTerminal) : Option Body → String
  | none => ""
  | some p => n.toString ++ " -> " ++ p.toString

/-- All texts of the grid, row by row, the column heads first. -/
def texts (grid : Grid) : List (List String) :=
  ("" :: grid.columns.map String.singleton) ::
    grid.rows.map fun row => row.1.toString :: row.2.map (cellText row.1)

/-- The grid as plain text, its columns aligned. -/
def plain (grid : Grid) : String := "\n".intercalate (Text.alignedLines grid.texts)

/-- A cell in TeX. -/
def cellTex (n : NonTerminal) : Option Body → String
  | none => ""
  | some p =>
      Text.Tex.escape Text.Tex.plainEmpty n.text ++ " \\rightarrow " ++
        Text.Tex.escape Text.Tex.mathEmpty p.text

/-- A row in TeX. -/
def rowTex (row : NonTerminal × List (Option Body)) : String :=
  " & ".intercalate
    (Text.Tex.escape Text.Tex.plainEmpty row.1.text :: row.2.map (cellTex row.1))

/-- The column heads in TeX, after the opening of the array. -/
def headTex (grid : Grid) : String :=
  let alignment := "c" ++ String.join (grid.columns.map fun _ => "|l")
  " & ".intercalate
    (("\\[\\begin\x7barray\x7d\x7b" ++ alignment ++ "\x7d\n") ::
      grid.columns.map fun c => "\\text\x7b" ++ Text.Tex.escape Text.Tex.plainEmpty [c] ++ "\x7d")

/-- The grid as a TeX array. -/
def tex (grid : Grid) : String :=
  grid.headTex ++ "\\\\\\hline\n" ++ "\\\\\n".intercalate (grid.rows.map rowTex) ++
    "\n\\end\x7barray\x7d\\]"

/-- The document of a cell. -/
def cellJson : Option Body → Json
  | none => .null
  | some p => .string p.toString

/-- The grid as a JSON document. -/
def json (grid : Grid) : Json :=
  .object [("terminals", .array (grid.columns.map Json.char)),
    ("rows", .array (grid.rows.map fun row =>
      .array [.string row.1.toString, .array (row.2.map cellJson)]))]

end Grid

/-- A conflict as a JSON document. -/
def conflictJson (conflict : Conflict) : Json :=
  .object [("non_terminal", .string conflict.nonTerminal.toString),
    ("terminal", Json.char conflict.terminal),
    ("replaced", .string conflict.replaced.toString),
    ("winner", .string conflict.winner.toString)]

end PredictiveParsing.Report
