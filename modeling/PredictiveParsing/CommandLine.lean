/-
Module: PredictiveParsing.CommandLine
Layer: Command line
Purpose: What the command line answers. The arguments alone decide whether help is printed, a
  complaint is made or a grammar is read; the text of the grammar then decides what is printed. A
  run either prints everything that was asked for or nothing but one error message.
Imports: PredictiveParsing.Report.Document
Main exports: CommandLine.Plan, CommandLine.plan, CommandLine.respond, CommandLine.run
Open obligations: none
-/
import PredictiveParsing.Report.Document

namespace PredictiveParsing.CommandLine

/-- What can be asked for. -/
inductive Output where
  | productions
  | lookahead
  | table
  | trace
deriving DecidableEq

/-- The output that an argument names. -/
def Output.ofArgument? : String → Option Output
  | "prod" => some .productions
  | "ff" => some .lookahead
  | "ll1" => some .table
  | "trace" => some .trace
  | _ => none

/-- The options: a format, and the strings to parse. -/
structure Options where
  format : Report.Format
  inputs : List String

/-- A request for outputs. The grammar is in a file or comes from the standard input. -/
structure Request where
  outputs : List Output
  options : Options
  file? : Option String

/-- What the arguments ask for. -/
inductive Plan where
  | help
  | complain (message : String)
  | answer (request : Request)

/-- Split off the outputs at the front of the arguments. -/
def readOutputs : List String → List Output × List String
  | [] => ([], [])
  | argument :: rest =>
      match Output.ofArgument? argument with
      | none => ([], argument :: rest)
      | some output =>
          let (outputs, others) := readOutputs rest
          (output :: outputs, others)

/-- Read options and hand what is left of the arguments to `finish`. The last format given counts,
strings to parse add up, and a request for help is met at once. -/
def readOptions (finish : Options → List String → Plan) (options : Options) :
    List String → Plan
  | "-h" :: _ => .help
  | "--help" :: _ => .help
  | "-l" :: rest => readOptions finish { options with format := .tex } rest
  | "-j" :: rest => readOptions finish { options with format := .json } rest
  | "-i" :: input :: rest =>
      readOptions finish { options with inputs := options.inputs ++ [input] } rest
  | ["-i"] => .complain "-i needs an argument"
  | rest => finish options rest

/-- The plan once outputs and options are known. At most one argument may be left, the name of the
file; without an output there is nothing to do but to help. -/
def planOutputs (outputs : List Output) (options : Options) (rest : List String) : Plan :=
  if outputs = [] || 1 < rest.length then .help
  else if .trace ∈ outputs ∧ options.inputs = [] then
    .complain "trace needs at least one -i <string>"
  else .answer ⟨outputs, options, rest.head?⟩

/-- Read the arguments. -/
def plan (arguments : List String) : Plan :=
  let (outputs, rest) := readOutputs arguments
  readOptions (planOutputs outputs) ⟨.plain, []⟩ rest

/-- The reasons for which the text of a grammar cannot be read. -/
inductive ReadError where
  | notFound
  | isDirectory
  | notText
  | other (message : String)
deriving DecidableEq

/-- The system's message for a text that cannot be read. -/
def ReadError.message : ReadError → String
  | .notFound => "No such file or directory (os error 2)"
  | .isDirectory => "Is a directory (os error 21)"
  | .notText => "stream did not contain valid UTF-8"
  | .other message => message

/-- What a run prints and its exit code. -/
structure Outcome where
  exitCode : Nat
  stdout : String
  stderr : String
deriving DecidableEq

/-- The text of lines, each with a line break. -/
def printed (lines : List String) : String := String.join (lines.map (· ++ "\n"))

/-- A run that fails prints one message and nothing else. -/
def failure (message : String) : Outcome := ⟨1, "", printed ["error: " ++ message]⟩

/-- The lines of the help. -/
def helpLines : List String :=
  ["Usage: ll1-helper outputs [options] [grammar file]",
    "outputs:",
    "  prod: Productions after left recursion removal and left factoring",
    "  ff: First and follow sets",
    "  ll1: LL(1) parsing table",
    "  trace: Table-driven parse of every -i input",
    "options:",
    "  -h: Print this help",
    "  -l: Print in LaTeX format",
    "  -j: Print in JSON format",
    "  -i <string>: Input to recognize (repeatable)"]

/-- The record of a parse and its outcome; there is no form in TeX. -/
def traceText (format : Report.Format) (trace : Trace) : String :=
  match format with
  | .json => (Report.traceJson trace).text
  | _ => Report.tracePlain trace ++ "\n" ++ if trace.accepted then "accepted" else "rejected"

/-- The texts printed for one output, each followed by a line break. -/
def outputTexts (s : Session) (options : Options) : Output → List String
  | .productions => [Report.productions s options.format]
  | .lookahead => [Report.lookahead s options.format]
  | .table => [Report.table s options.format]
  | .trace => options.inputs.map fun input => traceText options.format (s.recognize input)

/-- The warning for a nonterminal without a rule. -/
def undefinedWarning (n : NonTerminal) : String :=
  "warning: " ++ n.toString ++ " is used but never defined"

/-- The warning for a cell that two bodies claim. -/
def conflictWarning (conflict : Conflict) : String :=
  let n := conflict.nonTerminal.toString
  "warning: M[" ++ n ++ ", " ++ String.singleton conflict.terminal ++ "] = " ++ n ++ " -> " ++
    conflict.winner.toString ++ " overwrote " ++ n ++ " -> " ++ conflict.replaced.toString

/-- The warnings that come with one output: those about the table come whenever it is printed. -/
def outputWarnings (s : Session) : Output → List String
  | .table => s.table.conflicts.map conflictWarning
  | _ => []

/-- Answer a request, given what was read for the grammar's text. -/
def respond (request : Request) : Except ReadError String → Outcome
  | .error e => failure e.message
  | .ok text =>
      match Session.build text with
      | .error e => failure e.message
      | .ok s =>
          { exitCode := 0
            stdout := printed (request.outputs.flatMap (outputTexts s request.options))
            stderr := printed (s.grammar.undefined.map undefinedWarning ++
              request.outputs.flatMap (outputWarnings s)) }

/-- The outcome of a run with given arguments, standard input and files. -/
def run (arguments : List String) (stdin : Except ReadError String)
    (file : String → Except ReadError String) : Outcome :=
  match plan arguments with
  | .help => ⟨0, printed helpLines, ""⟩
  | .complain message => failure message
  | .answer request => respond request (request.file?.elim stdin file)

end PredictiveParsing.CommandLine
