/-
Module: PredictiveParsing.Text.Aligned
Layer: Text
Purpose: Tables in plain text. The cells of a column are padded on the left to the width of the
  widest one, where width is the number of code points.
Imports: none
Main exports: Text.padLeft, Text.columnWidths, Text.alignedLines
Open obligations: none
-/

namespace PredictiveParsing.Text

/-- A text with as many blanks before it as it takes to reach a width. -/
def padLeft (width : Nat) (s : String) : String :=
  String.ofList (List.replicate (width - s.length) ' ') ++ s

/-- The width of each column of a table, given row by row. -/
def columnWidths : List (List String) → List Nat
  | [] => []
  | [row] => row.map String.length
  | row :: rest => List.zipWith max (row.map String.length) (columnWidths rest)

/-- The line for one row: its cells, padded, with a bar between neighbours. -/
def alignedLine (widths : List Nat) (row : List String) : String :=
  " | ".intercalate (List.zipWith padLeft widths row)

/-- The lines of a table. -/
def alignedLines (rows : List (List String)) : List String :=
  rows.map (alignedLine (columnWidths rows))

/-- Padding puts the missing blanks in front and changes nothing else. -/
theorem toList_padLeft (width : Nat) (s : String) :
    (padLeft width s).toList = List.replicate (width - s.length) ' ' ++ s.toList := by
  simp [padLeft]

/-- Padding reaches the width and cuts nothing off. -/
theorem length_padLeft (width : Nat) (s : String) :
    (padLeft width s).length = max width s.length := by
  simp only [padLeft, String.length_append, String.length_ofList, List.length_replicate]
  omega

end PredictiveParsing.Text
