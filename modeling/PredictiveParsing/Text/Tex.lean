/-
Module: PredictiveParsing.Text.Tex
Layer: Text
Purpose: Text that is to be typeset as it stands. Characters with a meaning of their own in TeX are
  written so that they lose it; the mark for the empty body can be replaced by a command.
Imports: PredictiveParsing.Symbol
Main exports: Text.Tex.escape
Open obligations: none
-/
import PredictiveParsing.Symbol

namespace PredictiveParsing.Text.Tex

/-- How one character is written. The braces keep a command apart from the letters after it, and
an exclamation or a bracket apart from what it would combine with. -/
def escapeChar (c : Char) : String :=
  match c with
  | '&' => "\\&"
  | '%' => "\\%"
  | '$' => "\\$"
  | '#' => "\\#"
  | '_' => "\\_"
  | '\x7b' => "\\\x7b"
  | '\x7d' => "\\\x7d"
  | '[' => "\x7b[\x7d"
  | ']' => "\x7b]\x7d"
  | '~' => "\\textasciitilde\x7b\x7d"
  | '^' => "\\textasciicircum\x7b\x7d"
  | '<' => "\\textless\x7b\x7d"
  | '>' => "\\textgreater\x7b\x7d"
  | '!' => "!\x7b\x7d"
  | '\\' => "\\textbackslash\x7b\x7d"
  | c => String.singleton c

/-- The written forms of the characters of a text, `empty` standing for the empty mark. A hyphen is
kept apart from a hyphen after it, since the two would make a dash. -/
def pieces (empty : String) : List Char → List String
  | [] => []
  | c :: rest =>
      let piece :=
        if c = '-' && rest.head? = some '-' then "-\x7b\x7d"
        else if c = emptyMark then empty
        else escapeChar c
      piece :: pieces empty rest

/-- The text as it is written for TeX, `empty` standing for the empty mark. -/
def escape (empty : String) (text : List Char) : String := String.join (pieces empty text)

/-- The empty mark as it is. -/
def plainEmpty : String := String.singleton emptyMark

/-- The command for the empty mark inside a formula. -/
def mathEmpty : String := "\\epsilon"

/-- The command for the empty mark in running text. -/
def textEmpty : String := "$\\epsilon$"

end PredictiveParsing.Text.Tex
