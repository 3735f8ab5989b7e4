/-
Module: PredictiveParsing.Report.Document
Layer: Reports
Purpose: Reports as texts: each kind of report in each format, and the JSON documents that answer a
  single question about the text of a grammar. A grammar that is refused is answered by a document
  that holds the message.
Imports: PredictiveParsing.Report.Lookahead, PredictiveParsing.Report.Productions,
  PredictiveParsing.Report.Table, PredictiveParsing.Report.Trace, PredictiveParsing.Session
Main exports: Report.Format, Report.productions, Report.lookahead, Report.table,
  Report.lookaheadDocument, Report.grammarDocument, Report.traceDocument
Open obligations: none
-/
import PredictiveParsing.Report.Lookahead
import PredictiveParsing.Report.Productions
import PredictiveParsing.Report.Table
import PredictiveParsing.Report.Trace
import PredictiveParsing.Session

namespace PredictiveParsing.Report

/-- The formats of reports. -/
inductive Format where
  | plain
  | tex
  | json
deriving DecidableEq

/-- The productions of a session's grammar. -/
def productions (s : Session) : Format → String
  | .plain => productionsPlain s.grammar
  | .tex => productionsTex s.grammar
  | .json => (productionsJson s.grammar).text

/-- The lookahead sets of a session. -/
def lookahead (s : Session) : Format → String
  | .plain => lookaheadPlain s.grammar s.lookahead
  | .tex => lookaheadTex s.grammar s.lookahead
  | .json => (lookaheadJson s.grammar s.lookahead).text

/-- The table of a session. -/
def table (s : Session) : Format → String
  | .plain => (grid s.grammar s.table).plain
  | .tex => (grid s.grammar s.table).tex
  | .json => (grid s.grammar s.table).json.text

/-- The document for a grammar that was refused. -/
def errorJson (e : GrammarError) : Json := .object [("error", .string e.message)]

/-- Everything that is known about the grammar of a session. -/
def sessionJson (s : Session) : Json :=
  .object [("productions", productionsJson s.grammar),
    ("first_follow", lookaheadJson s.grammar s.lookahead),
    ("table", (grid s.grammar s.table).json),
    ("conflicts", .array (s.table.conflicts.map conflictJson))]

/-- Answer a question about the text of a grammar. -/
def document (answer : Session → Json) (text : String) : String :=
  match Session.build text with
  | .ok s => (answer s).text
  | .error e => (errorJson e).text

/-- The lookahead sets of a grammar given by its text. -/
def lookaheadDocument (text : String) : String :=
  document (fun s => lookaheadJson s.grammar s.lookahead) text

/-- Everything that is known about a grammar given by its text, members sorted by name. -/
def grammarDocument (text : String) : String :=
  document (fun s => (sessionJson s).sorted) text

/-- The parse of a string with a grammar given by its text. -/
def traceDocument (text input : String) : String :=
  document (fun s => traceJson (s.recognize input)) text

end PredictiveParsing.Report
