/-
Module: PredictiveParsing.Json
Layer: Text
Purpose: Documents in JSON, as far as reports need them: there are no numbers. The text is compact.
  An object keeps its members in the order in which they are given; a document can also be put in
  the form in which the members of every object are sorted by name.
Imports: none
Main exports: Json, Json.text, Json.sorted
Open obligations: none
-/

namespace PredictiveParsing

/-- A JSON document without numbers. -/
inductive Json where
  | null
  | bool (value : Bool)
  | string (value : String)
  | array (items : List Json)
  | object (members : List (String × Json))

namespace Json

/-- The two hexadecimal digits of a number below 256. -/
def hexByte (n : Nat) : String := String.ofList [Nat.digitChar (n / 16), Nat.digitChar (n % 16)]

/-- How one character is written inside a string. Only the quote, the backslash and the control
characters below the blank are escaped. -/
def escapeChar (c : Char) : String :=
  match c with
  | '"' => "\\\""
  | '\\' => "\\\\"
  | '\x08' => "\\b"
  | '\x0c' => "\\f"
  | '\n' => "\\n"
  | '\x0d' => "\\r"
  | '\t' => "\\t"
  | c => if c.toNat < 0x20 then "\\u00" ++ hexByte c.toNat else String.singleton c

/-- A string in quotes. -/
def quote (s : String) : String := "\"" ++ String.join (s.toList.map escapeChar) ++ "\""

mutual

/-- The text of a document, without any white space. -/
def text : Json → String
  | .null => "null"
  | .bool true => "true"
  | .bool false => "false"
  | .string value => quote value
  | .array items => "[" ++ ",".intercalate (itemTexts items) ++ "]"
  | .object members => "\x7b" ++ ",".intercalate (memberTexts members) ++ "\x7d"

/-- The texts of the items of an array. -/
def itemTexts : List Json → List String
  | [] => []
  | item :: rest => text item :: itemTexts rest

/-- The texts of the members of an object. -/
def memberTexts : List (String × Json) → List String
  | [] => []
  | (name, value) :: rest => (quote name ++ ":" ++ text value) :: memberTexts rest

end

mutual

/-- The document with the members of every object in the order of their names. -/
def sorted : Json → Json
  | .array items => .array (sortedItems items)
  | .object members =>
      .object ((sortedMembers members).mergeSort fun one two => one.1 ≤ two.1)
  | document => document

/-- The items of an array, each sorted in itself. -/
def sortedItems : List Json → List Json
  | [] => []
  | item :: rest => sorted item :: sortedItems rest

/-- The members of an object, each sorted in itself. -/
def sortedMembers : List (String × Json) → List (String × Json)
  | [] => []
  | (name, value) :: rest => (name, sorted value) :: sortedMembers rest

end

/-- A one-character string. -/
def char (c : Char) : Json := .string (String.singleton c)

end Json

end PredictiveParsing
