/-
Module: PredictiveParsing.Main
Layer: Command line
Purpose: The program. It reads what a request needs, and prints the outcome.
Imports: PredictiveParsing.CommandLine
Main exports: main
Open obligations: none
-/
import PredictiveParsing.CommandLine

namespace PredictiveParsing.CommandLine

/-- The bytes of a text. -/
def decode (bytes : ByteArray) : Except ReadError String :=
  match String.fromUTF8? bytes with
  | some text => .ok text
  | none => .error .notText

/-- The reason behind a system error. -/
def ReadError.ofSystem : IO.Error → ReadError
  | .noFileOrDirectory .. => .notFound
  | .inappropriateType .. => .isDirectory
  | e => .other e.toString

/-- Read a stream up to its end. -/
partial def readStream (stream : IO.FS.Stream) (past : ByteArray) : IO ByteArray := do
  let chunk ← stream.read 65536
  if chunk.isEmpty then return past
  readStream stream (past ++ chunk)

/-- Read the standard input. -/
def readStdin : IO (Except ReadError String) := do
  try
    return decode (← readStream (← IO.getStdin) ByteArray.empty)
  catch e =>
    return .error (.ofSystem e)

/-- Read a file. -/
def readFile (name : String) : IO (Except ReadError String) := do
  try
    return decode (← IO.FS.readBinFile name)
  catch e =>
    return .error (.ofSystem e)

/-- Run with the given arguments. Only what is asked for is read. -/
def runSystem (arguments : List String) : IO Outcome := do
  match plan arguments with
  | .answer request =>
      match request.file? with
      | some name =>
          let content ← readFile name
          return run arguments (.ok "") fun _ => content
      | none =>
          let content ← readStdin
          return run arguments content fun _ => .error .notFound
  | _ => return run arguments (.ok "") fun _ => .error .notFound

end PredictiveParsing.CommandLine

/-- The program's entry. -/
def main (arguments : List String) : IO UInt32 := do
  let outcome ← PredictiveParsing.CommandLine.runSystem arguments
  IO.print outcome.stdout
  IO.eprint outcome.stderr
  return UInt32.ofNat outcome.exitCode
