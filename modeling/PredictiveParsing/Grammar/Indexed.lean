/-
Module: PredictiveParsing.Grammar.Indexed
Layer: Grammars
Purpose: Grammars kept in two containers: a map from nonterminals to their alternatives, and a list
  that holds the nonterminals in order. Nothing in the type ties the two together. Every change is
  made of a few primitive ones, each of which writes to the map, to the list or to both, so whether
  they list the same nonterminals depends on how the primitives are put together.
Imports: PredictiveParsing.Grammar.Lines, PredictiveParsing.Grammar.Splitting,
  PredictiveParsing.OrderedMap
Main exports: IndexedGrammar, IndexedGrammar.addNonTerminal, IndexedGrammar.addProduction,
  IndexedGrammar.setProductions, IndexedGrammar.freshNonTerminal, IndexedGrammar.insertLine,
  IndexedGrammar.parse
Open obligations: none
-/
import PredictiveParsing.Grammar.Lines
import PredictiveParsing.Grammar.Splitting
import PredictiveParsing.OrderedMap

namespace PredictiveParsing

/-- A grammar whose alternatives and whose order are kept apart. -/
structure IndexedGrammar where
  /-- The alternatives of the nonterminals. -/
  productions : OrderedMap NonTerminal (OrderedSet Body)
  /-- The nonterminals in the order in which they are treated and shown. -/
  order : List NonTerminal
  /-- The nonterminals met so far. -/
  nonTerminals : OrderedSet NonTerminal
  /-- The terminals met so far. -/
  terminals : OrderedSet Char
  /-- The nonterminals created by normalizing, newest first, each with the one that it was split off
  from. -/
  lineage : List (NonTerminal × NonTerminal)
deriving DecidableEq

namespace IndexedGrammar

/-- The grammar with empty containers. -/
def empty : IndexedGrammar := ⟨∅, [], ∅, ∅, []⟩

instance : EmptyCollection IndexedGrammar := ⟨empty⟩

instance : Inhabited IndexedGrammar := ⟨empty⟩

/-! ### Lookups -/

/-- The place of a nonterminal in the order. -/
def place? (g : IndexedGrammar) (n : NonTerminal) : Option Nat := g.order.findIdx? (· = n)

/-- The number of productions, counted in the map. -/
def size (g : IndexedGrammar) : Nat :=
  g.productions.toList.foldr (fun entry sum => entry.2.size + sum) 0

/-- Whether some production of a nonterminal begins with that nonterminal. -/
def isLeftRecursive (g : IndexedGrammar) (n : NonTerminal) : Bool :=
  (g.productions.get? n).any fun bodies => bodies.toList.any (·.beginsWith n)

/-! ### Primitive changes -/

/-- Meet the symbols of a body. -/
def meet (g : IndexedGrammar) (p : Body) : IndexedGrammar :=
  { g with
    nonTerminals := g.nonTerminals.insertAll p.nonTerminals
    terminals := g.terminals.insertAll p.terminals }

/-- Give a nonterminal that the map does not have an entry without alternatives and the last place
in the order. -/
def addNonTerminal (g : IndexedGrammar) (n : NonTerminal) : IndexedGrammar :=
  if n ∈ g.productions.keys then g
  else
    { g with
      productions := g.productions.insert n ∅
      nonTerminals := g.nonTerminals.insert n
      order := g.order ++ [n] }

/-- Add a body to the entry of a nonterminal. Only the map is written to. -/
def addProduction (g : IndexedGrammar) (n : NonTerminal) (p : Body) : IndexedGrammar :=
  let met := g.meet p
  { met with productions := met.productions.insert n ((met.productions.getD n ∅).insert p) }

/-- Replace the entry of a nonterminal, or create it. Only the map is written to. -/
def setProductions (g : IndexedGrammar) (n : NonTerminal) (bodies : OrderedSet Body) :
    IndexedGrammar :=
  let met := bodies.toList.foldl meet g
  { met with productions := met.productions.insert n bodies }

/-- The name that a nonterminal split off from `base` gets. -/
def freshFor (g : IndexedGrammar) (base : NonTerminal) : NonTerminal :=
  NonTerminal.unusedFrom g.nonTerminals.toList base.primed

/-- Create a nonterminal, without alternatives as yet, right behind `base` in the order; behind all
others if `base` is not in the order. -/
def freshNonTerminal (g : IndexedGrammar) (base : NonTerminal) : IndexedGrammar :=
  let fresh := g.freshFor base
  let place := match g.place? base with
    | none => g.order.length
    | some place => place + 1
  { g with
    productions := g.productions.insert fresh ∅
    order := g.order.insertIdx place fresh
    nonTerminals := g.nonTerminals.insert fresh
    lineage := (fresh, base) :: g.lineage }

/-! ### Reading -/

/-- Add a production together with the nonterminal on its left side. -/
def insert (g : IndexedGrammar) (head : NonTerminal) (body : Body) : IndexedGrammar :=
  (g.addNonTerminal head).addProduction head body

/-- Add one line. Only its left side is checked, and before anything is changed. -/
def insertLine (g : IndexedGrammar) (line : String) : Except GrammarError IndexedGrammar :=
  let (left, right) := (Text.splitArrow line.toList).getD (line.toList, [])
  match NonTerminal.ofChars? left with
  | none => .error (.malformedNonTerminal (String.ofList left))
  | some head => .ok (g.insert head (Body.read right))

/-- Check a whole text, and then add its lines one after the other. -/
def parse (text : String) : Except GrammarError IndexedGrammar :=
  match Grammar.validate text with
  | .error e => .error e
  | .ok lines => (lines.map fun line => String.ofList line.content).foldlM insertLine ∅

end IndexedGrammar

end PredictiveParsing
