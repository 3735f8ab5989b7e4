/-
Module: PredictiveParsing.Report.Productions
Layer: Reports
Purpose: The productions of a grammar as plain text, as a TeX formula and as a JSON document. The
  rules come in the order of the grammar, and so do the alternatives of each.
Imports: PredictiveParsing.Grammar.Basic, PredictiveParsing.Json, PredictiveParsing.Text.Aligned,
  PredictiveParsing.Text.Tex
Main exports: Report.productionsPlain, Report.productionsTex, Report.productionsJson
Open obligations: none
-/
import PredictiveParsing.Grammar.Basic
import PredictiveParsing.Json
import PredictiveParsing.Text.Aligned
import PredictiveParsing.Text.Tex

namespace PredictiveParsing.Report

/-- The lines of a rule: the first alternative stands after an arrow, each further one after a bar
below it. -/
def ruleLines (width : Nat) (rule : Rule) : List String :=
  match rule.bodies.toList with
  | [] => [""]
  | first :: others =>
      (Text.padLeft width rule.head.toString ++ " -> " ++ first.toString) ::
        others.map fun p => Text.padLeft width "" ++ "  | " ++ p.toString

/-- The productions as plain text, the left sides flush right. -/
def productionsPlain (g : Grammar) : String :=
  let width := (g.order.map fun n => n.toString.length).foldl max 0
  "\n".intercalate (g.rules.flatMap (ruleLines width))

/-- The line of a rule in a TeX array. -/
def ruleTex (rule : Rule) : String :=
  match rule.bodies.toList with
  | [] => ""
  | bodies =>
      Text.Tex.escape Text.Tex.mathEmpty rule.head.text ++ " & \\rightarrow & " ++
        " \\mid ".intercalate (bodies.map fun p => Text.Tex.escape Text.Tex.mathEmpty p.text)

/-- The productions as a TeX formula. -/
def productionsTex (g : Grammar) : String :=
  "\\\\\n".intercalate
    (["\\[\\begin\x7barray\x7d\x7bcll\x7d"] ++ g.rules.map ruleTex ++ ["\\end\x7barray\x7d\\]"])

/-- The productions as a JSON document. -/
def productionsJson (g : Grammar) : Json :=
  .object [("productions", .array (g.rules.map fun rule =>
    .object [("left", .string rule.head.toString),
      ("rights", .array (rule.bodies.toList.map fun p => .string p.toString))]))]

end PredictiveParsing.Report
