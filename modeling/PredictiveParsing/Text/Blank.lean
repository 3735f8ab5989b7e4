/-
Module: PredictiveParsing.Text.Blank
Layer: Text
Purpose: The characters that count as white space, and what remains of a text without the white
  space around it. The class is Unicode's White_Space property: it holds the ideographic space and
  the no-break spaces, but neither the zero-width characters nor the separators U+001C to U+001F.
Imports: none
Main exports: Text.isBlank, Text.trim, Text.mem_of_mem_trim
Open obligations: none
-/

namespace PredictiveParsing.Text

/-- The code points of the property White_Space, as closed ranges. -/
def blankRanges : List (Nat × Nat) :=
  [(0x9, 0xD), (0x20, 0x20), (0x85, 0x85), (0xA0, 0xA0), (0x1680, 0x1680), (0x2000, 0x200A),
    (0x2028, 0x2029), (0x202F, 0x202F), (0x205F, 0x205F), (0x3000, 0x3000)]

/-- Whether a character is white space. -/
def isBlank (c : Char) : Bool :=
  blankRanges.any fun range => range.1 ≤ c.toNat && c.toNat ≤ range.2

/-- The text without the white space at its end. -/
def trimEnd (cs : List Char) : List Char := (cs.reverse.dropWhile isBlank).reverse

/-- The text without the white space at both ends. -/
def trim (cs : List Char) : List Char := trimEnd (cs.dropWhile isBlank)

/-- Trimming adds no characters. -/
theorem mem_of_mem_trim {cs : List Char} {c : Char} (h : c ∈ trim cs) : c ∈ cs := by
  rw [trim, trimEnd, List.mem_reverse] at h
  have hmem := (List.dropWhile_sublist _).subset h
  exact (List.dropWhile_sublist _).subset (List.mem_reverse.1 hmem)

end PredictiveParsing.Text
