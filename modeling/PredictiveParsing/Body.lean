/-
Module: PredictiveParsing.Body
Layer: Grammars
Purpose: Bodies, the right sides of productions: finite strings of symbols, of which the empty one
  derives the empty string. A body is read from text greedily (a letter takes all primes after it)
  and written by putting its symbols side by side. The two are not inverse on all bodies, because
  a terminal prime after a nonterminal is written like one more prime of that nonterminal.
Imports: PredictiveParsing.OrderedSet, PredictiveParsing.Symbol
Main exports: Body, Body.read, Body.text, Body.commonPrefix, Body.longestSharedPrefix
Open obligations: none
-/
import PredictiveParsing.OrderedSet
import PredictiveParsing.Symbol

namespace PredictiveParsing

/-- The right side of a production. The empty list is the empty body. -/
abbrev Body := List Symbol

namespace Body

/-- Read a body. Marks for the empty body are dropped wherever they stand, an uppercase letter is
a nonterminal together with all primes directly after it, and any other character is a terminal.
So `S&'` ends in a terminal prime, since the dropped mark parts it from the letter. -/
def read : List Char → Body
  | [] => []
  | c :: rest =>
      if isEmptyMark c then
        read rest
      else if h : c.isUpper = true then
        .nonTerminal ⟨c, (rest.takeWhile (· == primeMark)).length, h⟩ ::
          read (rest.dropWhile (· == primeMark))
      else
        .terminal c :: read rest
termination_by cs => cs.length
decreasing_by
  all_goals simp_wf
  all_goals have := (List.dropWhile_sublist (l := rest) (· == primeMark)).length_le
  all_goals omega

/-- Read a body from a string. -/
def ofString (s : String) : Body := read s.toList

/-- The body as it is written; the empty body has a mark of its own. -/
def text : Body → List Char
  | [] => [emptyMark]
  | symbols => symbols.flatMap Symbol.text

/-- The body as a string. -/
def toString (p : Body) : String := String.ofList p.text

/-- The nonterminal that a body begins with, if it does. -/
def leading? (p : Body) : Option NonTerminal := p.head?.bind Symbol.nonTerminal?

/-- Whether a body begins with the given nonterminal. -/
def beginsWith (p : Body) (n : NonTerminal) : Bool := p.head? == some (.nonTerminal n)

/-- The body with its first symbol replaced by another body. -/
def substituteLeading (p replacement : Body) : Body := replacement ++ p.tail

/-- The body with a nonterminal added at its end. -/
def followedBy (p : Body) (n : NonTerminal) : Body := p ++ [.nonTerminal n]

/-- The longest string of symbols with which both bodies begin. -/
def commonPrefix : Body → Body → Body
  | s :: p, t :: q => if s = t then s :: commonPrefix p q else []
  | _, _ => []

/-- The first of the longest bodies of a list, or the empty body. -/
def firstLongest : List Body → Body
  | [] => []
  | p :: rest =>
      let best := firstLongest rest
      if p.length < best.length then best else p

/-- The longest common prefix of two bodies at different places of a list. Of several longest ones
it is that of the first pair, pairs being ordered by the place of their first member. -/
def longestSharedPrefix : List Body → Body
  | [] => []
  | p :: rest =>
      let own := firstLongest (rest.map (commonPrefix p))
      let best := longestSharedPrefix rest
      if own.length < best.length then best else own

/-- The body without a prefix, if it begins with that prefix. -/
def dropPrefix? : Body → Body → Option Body
  | p, [] => some p
  | [], _ :: _ => none
  | s :: p, t :: q => if s = t then dropPrefix? p q else none

/-- Bodies are ordered symbol by symbol; a prefix comes before its extensions. -/
def compare : Body → Body → Ordering
  | [], [] => .eq
  | [], _ :: _ => .lt
  | _ :: _, [] => .gt
  | s :: p, t :: q => (s.compare t).then (compare p q)

/-- A prefix that was taken off can be put back. -/
theorem dropPrefix?_eq_some_iff {p q r : Body} : p.dropPrefix? q = some r ↔ p = q ++ r := by
  induction q generalizing p with
  | nil => cases p <;> simp [dropPrefix?]
  | cons t q ih =>
      cases p with
      | nil => simp [dropPrefix?]
      | cons s p =>
          by_cases h : s = t
          · simp [dropPrefix?, h, ih]
          · simp [dropPrefix?, h]

/-- The common prefix is a prefix of the first body. -/
theorem commonPrefix_prefix_left (p q : Body) : commonPrefix p q <+: p := by
  induction p generalizing q with
  | nil => simp [commonPrefix]
  | cons s p ih =>
      cases q with
      | nil => simp [commonPrefix]
      | cons t q =>
          by_cases h : s = t
          · subst h
            simpa [commonPrefix] using ih q
          · simp [commonPrefix, h]

/-- The common prefix does not depend on the order of the two bodies. -/
theorem commonPrefix_comm (p q : Body) : commonPrefix p q = commonPrefix q p := by
  induction p generalizing q with
  | nil => cases q <;> simp [commonPrefix]
  | cons s p ih =>
      cases q with
      | nil => simp [commonPrefix]
      | cons t q =>
          by_cases h : s = t
          · subst h
            simp [commonPrefix, ih q]
          · have h' : ¬ t = s := fun e => h e.symm
            simp [commonPrefix, h, h']

end Body

end PredictiveParsing
