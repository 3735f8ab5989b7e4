/-
Module: PredictiveParsing.Report.Trace
Layer: Reports
Purpose: The record of a parse as plain text, with tabs between the columns, and as a JSON document.
Imports: PredictiveParsing.Json, PredictiveParsing.Recognition.Trace
Main exports: Report.tracePlain, Report.traceJson
Open obligations: none
-/
import PredictiveParsing.Json
import PredictiveParsing.Recognition.Trace

namespace PredictiveParsing.Report

/-- A row as plain text. -/
def traceStepPlain (row : TraceStep) : String :=
  "\t".intercalate [row.stackText, row.inputText, row.action.text]

/-- The record as plain text, under a line that names the columns. -/
def tracePlain (trace : Trace) : String :=
  "\n".intercalate ("Stack\tInput\tOutput" :: trace.rows.map traceStepPlain)

/-- A row as a JSON document. -/
def traceStepJson (row : TraceStep) : Json :=
  .object [("stack", .string row.stackText), ("input", .string row.inputText),
    ("action", .string row.action.text)]

/-- The record as a JSON document. -/
def traceJson (trace : Trace) : Json :=
  .object [("rows", .array (trace.rows.map traceStepJson)), ("accepted", .bool trace.accepted)]

end PredictiveParsing.Report
