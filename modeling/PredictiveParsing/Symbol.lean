/-
Module: PredictiveParsing.Symbol
Layer: Grammars
Purpose: The symbols of a grammar. A nonterminal is an uppercase letter with any number of primes,
  as in `E` or `E''`; every other character is a terminal. A new nonterminal is made by adding
  primes to an old one, so the number of primes is data and not merely spelling.
Imports: none
Main exports: NonTerminal, NonTerminal.ofChars?, NonTerminal.text, Symbol, Symbol.compare,
  NonTerminal.ofChars?_eq_some_iff, NonTerminal.not_mem_text
Open obligations: none
-/

namespace PredictiveParsing

/-- The mark shown for the empty body, and the member of a FIRST set that stands for the empty
string. -/
def emptyMark : Char := 'ε'

/-- The mark that stands after the last character of every input. -/
def endMark : Char := '$'

/-- The mark that distinguishes nonterminals with the same letter. -/
def primeMark : Char := '\x27'

/-- The characters that may be written for the empty body in the text of a grammar. -/
def isEmptyMark (c : Char) : Bool := c == '&' || c == emptyMark

/-- An uppercase letter followed by primes. -/
structure NonTerminal where
  letter : Char
  primes : Nat
  /-- Only the letters `A` to `Z` name nonterminals. -/
  letter_isUpper : letter.isUpper = true
deriving DecidableEq

namespace NonTerminal

/-- The name as it is written: the letter and then its primes. -/
def text (n : NonTerminal) : List Char := n.letter :: List.replicate n.primes primeMark

/-- The name as a string. -/
def toString (n : NonTerminal) : String := String.ofList n.text

instance : ToString NonTerminal := ⟨toString⟩

/-- The nonterminal with one prime more. -/
def primed (n : NonTerminal) : NonTerminal := { n with primes := n.primes + 1 }

@[simp]
theorem letter_primed (n : NonTerminal) : n.primed.letter = n.letter := rfl

@[simp]
theorem primes_primed (n : NonTerminal) : n.primed.primes = n.primes + 1 := rfl

/-- Read a text that is a nonterminal's name and nothing else. -/
def ofChars? : List Char → Option NonTerminal
  | [] => none
  | c :: marks =>
      if h : c.isUpper = true then
        if marks.all (· == primeMark) then some ⟨c, marks.length, h⟩ else none
      else none

/-- Read a string that is a nonterminal's name and nothing else. -/
def ofString? (name : String) : Option NonTerminal := ofChars? name.toList

/-- A text is read as a nonterminal exactly when it is that nonterminal's name. -/
theorem ofChars?_eq_some_iff {cs : List Char} {n : NonTerminal} :
    ofChars? cs = some n ↔ cs = n.text := by
  cases cs with
  | nil => simp [ofChars?, text]
  | cons c marks =>
      obtain ⟨letter, primes, hletter⟩ := n
      by_cases h : c.isUpper = true
      · by_cases hall : marks.all (· == primeMark) = true
        · -- The marks are that many primes, so the name is determined by letter and length.
          have hmarks : marks = List.replicate marks.length primeMark :=
            List.eq_replicate_iff.2 ⟨rfl, by simpa using hall⟩
          simp only [ofChars?, h, hall, dif_pos, if_pos, Option.some.injEq, NonTerminal.mk.injEq,
            text, List.cons.injEq]
          constructor
          · rintro ⟨rfl, rfl⟩
            exact ⟨rfl, hmarks⟩
          · rintro ⟨rfl, hm⟩
            exact ⟨rfl, by rw [hm, List.length_replicate]⟩
        · have hne : marks ≠ List.replicate primes primeMark := by
            rintro rfl
            simp at hall
          simp [ofChars?, h, hall, text, hne]
      · have hne : c ≠ letter := by
          rintro rfl
          exact h hletter
        simp [ofChars?, h, text, hne]

/-- Every nonterminal's name reads back as itself. -/
@[simp]
theorem ofChars?_text (n : NonTerminal) : ofChars? n.text = some n :=
  ofChars?_eq_some_iff.2 rfl

/-- Different nonterminals have different names. -/
theorem text_injective {m n : NonTerminal} (h : m.text = n.text) : m = n := by
  have hm := ofChars?_text m
  rw [h, ofChars?_text] at hm
  exact (Option.some.inj hm).symm

/-- The letter is uppercase, and so it is no character that is not. -/
theorem letter_ne (n : NonTerminal) {c : Char} (h : c.isUpper = false) : n.letter ≠ c := by
  rintro rfl
  rw [n.letter_isUpper] at h
  cases h

/-- A name has no characters but its letter and primes. -/
theorem not_mem_text (n : NonTerminal) {c : Char} (hupper : c.isUpper = false)
    (hprime : c ≠ primeMark) : c ∉ n.text := by
  rw [text, List.mem_cons, not_or]
  exact ⟨(n.letter_ne hupper).symm, fun hmem => hprime (List.eq_of_mem_replicate hmem)⟩

/-- Nonterminals are ordered by letter and then by the number of primes. -/
def compare (m n : NonTerminal) : Ordering :=
  (Ord.compare m.letter n.letter).then (Ord.compare m.primes n.primes)

end NonTerminal

/-- A nonterminal, or any other single character. -/
inductive Symbol where
  | nonTerminal (n : NonTerminal)
  | terminal (c : Char)
deriving DecidableEq

namespace Symbol

/-- The nonterminal that a symbol is, if it is one. -/
def nonTerminal? : Symbol → Option NonTerminal
  | .nonTerminal n => some n
  | .terminal _ => none

/-- The character that a symbol is, if it is a terminal. -/
def terminal? : Symbol → Option Char
  | .nonTerminal _ => none
  | .terminal c => some c

/-- The symbol as it is written. -/
def text : Symbol → List Char
  | .nonTerminal n => n.text
  | .terminal c => [c]

/-- Every nonterminal comes before every terminal; terminals are ordered by code point. -/
def compare : Symbol → Symbol → Ordering
  | .nonTerminal m, .nonTerminal n => m.compare n
  | .nonTerminal _, .terminal _ => .lt
  | .terminal _, .nonTerminal _ => .gt
  | .terminal c, .terminal d => Ord.compare c d

/-- A symbol named by a whole string: a nonterminal's name is that nonterminal, any other single
character is a terminal. -/
def ofString? (name : String) : Option Symbol :=
  match NonTerminal.ofString? name, name.toList with
  | some n, _ => some (.nonTerminal n)
  | none, [c] => some (.terminal c)
  | none, _ => none

end Symbol

end PredictiveParsing
