/-
Module: PredictiveParsing.Report.Lookahead
Layer: Reports
Purpose: The FIRST and FOLLOW sets of a grammar's nonterminals as plain text, as a TeX table and as
  a JSON document. The characters of a set are listed by code point, the empty mark last.
Imports: PredictiveParsing.Json, PredictiveParsing.Lookahead.Follow, PredictiveParsing.Text.Tex
Main exports: Report.LookaheadRow, Report.lookaheadRows, Report.lookaheadPlain,
  Report.lookaheadTex, Report.lookaheadJson
Open obligations: none
-/
import PredictiveParsing.Json
import PredictiveParsing.Lookahead.Follow
import PredictiveParsing.Text.Tex

namespace PredictiveParsing.Report

/-- What is shown of one nonterminal. -/
structure LookaheadRow where
  name : NonTerminal
  nullable : Bool
  first : List Char
  follow : List Char

/-- The characters of a list by code point. -/
def byCodePoint (chars : List Char) : List Char := chars.mergeSort fun c d => c ≤ d

/-- The row of a nonterminal. -/
def lookaheadRow (lookahead : Lookahead) (n : NonTerminal) : LookaheadRow :=
  let nullable := lookahead.isNullable n
  { name := n
    nullable
    first := byCodePoint ((lookahead.first.charsOf n).erase emptyMark).toList ++
      if nullable then [emptyMark] else []
    follow := byCodePoint (lookahead.follow.charsOf n).toList }

/-- The rows of all nonterminals that have a rule. -/
def lookaheadRows (g : Grammar) (lookahead : Lookahead) : List LookaheadRow :=
  g.order.map (lookaheadRow lookahead)

/-- A truth value in words. -/
def truthText (b : Bool) : String := if b then "true" else "false"

/-- A set of characters in braces. -/
def setText (chars : List Char) : String :=
  "\x7b" ++ ", ".intercalate (chars.map String.singleton) ++ "\x7d"

/-- A row as plain text. -/
def LookaheadRow.plain (row : LookaheadRow) : String :=
  " | ".intercalate
    [row.name.toString, truthText row.nullable, setText row.first, setText row.follow]

/-- The sets as plain text. -/
def lookaheadPlain (g : Grammar) (lookahead : Lookahead) : String :=
  "\n".intercalate ((lookaheadRows g lookahead).map LookaheadRow.plain)

/-- A set of characters in TeX, with a space between neighbours. -/
def setTex (chars : List Char) : String :=
  "\\ ".intercalate (chars.map fun c => Text.Tex.escape Text.Tex.textEmpty [c])

/-- A row of a TeX table. -/
def LookaheadRow.tex (row : LookaheadRow) : String :=
  " & ".intercalate
    [Text.Tex.escape Text.Tex.mathEmpty row.name.text, truthText row.nullable, setTex row.first,
      setTex row.follow]

/-- The sets as a TeX table. -/
def lookaheadTex (g : Grammar) (lookahead : Lookahead) : String :=
  "\\begin\x7btabular\x7d\x7bc|c|c|c\x7d\nSymbol & Nullable & First & Follow\\\\\\hline\n" ++
    "\\\\\n ".intercalate ((lookaheadRows g lookahead).map LookaheadRow.tex) ++
    "\\\\\n\\end\x7btabular\x7d"

/-- A row as a JSON document. -/
def LookaheadRow.json (row : LookaheadRow) : Json :=
  .object [("name", .string row.name.toString), ("nullable", .bool row.nullable),
    ("first", .array (row.first.map Json.char)), ("follow", .array (row.follow.map Json.char))]

/-- The sets as a JSON document. -/
def lookaheadJson (g : Grammar) (lookahead : Lookahead) : Json :=
  .object [("data", .array ((lookaheadRows g lookahead).map LookaheadRow.json))]

end PredictiveParsing.Report
