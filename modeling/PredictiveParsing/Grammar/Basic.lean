/-
Module: PredictiveParsing.Grammar.Basic
Layer: Grammars
Purpose: Context-free grammars whose rules stand in a fixed order. The order matters: normalization
  treats the nonterminals one after the other, and a nonterminal may only be substituted into those
  that come after it. A grammar also remembers which symbols it has met and which nonterminals were
  split off from which while it was normalized.
Imports: PredictiveParsing.Body
Main exports: Rule, Grammar, Grammar.order, Grammar.bodies?, Grammar.insert,
  Grammar.descendsFrom
Open obligations: none
-/
import PredictiveParsing.Body

namespace PredictiveParsing

/-- A nonterminal with its alternatives. -/
structure Rule where
  head : NonTerminal
  bodies : OrderedSet Body
deriving DecidableEq

/-- A context-free grammar. -/
structure Grammar where
  /-- The rules in the order in which the nonterminals are treated and shown. -/
  rules : List Rule
  /-- The nonterminals met so far, with or without a rule. -/
  nonTerminals : OrderedSet NonTerminal
  /-- The terminals met so far. -/
  terminals : OrderedSet Char
  /-- The nonterminals created by normalizing, newest first, each with the one that it was split off
  from. -/
  lineage : List (NonTerminal × NonTerminal)
deriving DecidableEq

namespace Body

/-- The nonterminals of a body from left to right. -/
def nonTerminals (p : Body) : List NonTerminal := p.filterMap Symbol.nonTerminal?

/-- The terminals of a body from left to right. -/
def terminals (p : Body) : List Char := p.filterMap Symbol.terminal?

end Body

namespace Grammar

/-- The grammar without rules and symbols. -/
def empty : Grammar := ⟨[], ∅, ∅, []⟩

instance : EmptyCollection Grammar := ⟨empty⟩

instance : Inhabited Grammar := ⟨empty⟩

/-- Whether there are no rules. -/
def isEmpty (g : Grammar) : Bool := g.rules.isEmpty

/-- The nonterminals that have a rule, in the order of the rules. -/
def order (g : Grammar) : List NonTerminal := g.rules.map Rule.head

/-- The nonterminal of the first rule. -/
def start? (g : Grammar) : Option NonTerminal := g.order.head?

/-- The rule of a nonterminal. -/
def rule? (g : Grammar) (n : NonTerminal) : Option Rule := g.rules.find? (·.head = n)

/-- The alternatives of a nonterminal that has a rule. -/
def bodies? (g : Grammar) (n : NonTerminal) : Option (OrderedSet Body) :=
  (g.rule? n).map Rule.bodies

/-- The nonterminals that were met in some body but have no rule. -/
def undefined (g : Grammar) : List NonTerminal :=
  g.nonTerminals.toList.filter (· ∉ g.order)

/-- The number of productions, all rules taken together. -/
def size (g : Grammar) : Nat := g.rules.foldr (fun rule sum => rule.bodies.size + sum) 0

/-- Whether some production of a nonterminal begins with that nonterminal. -/
def isLeftRecursive (g : Grammar) (n : NonTerminal) : Bool :=
  (g.bodies? n).any fun bodies => bodies.toList.any (·.beginsWith n)

/-- Add a body to the alternatives of a nonterminal; a nonterminal without a rule gets one at the
end. -/
def addBody (head : NonTerminal) (body : Body) : List Rule → List Rule
  | [] => [⟨head, OrderedSet.singleton body⟩]
  | rule :: rest =>
      if rule.head = head then { rule with bodies := rule.bodies.insert body } :: rest
      else rule :: addBody head body rest

/-- Add a production. Its left side is met before the symbols of its body. -/
def insert (g : Grammar) (head : NonTerminal) (body : Body) : Grammar :=
  { g with
    rules := addBody head body g.rules
    nonTerminals := (g.nonTerminals.insert head).insertAll body.nonTerminals
    terminals := g.terminals.insertAll body.terminals }

/-- Whether `n` was split off from `ancestor`, directly or by way of other nonterminals. The list
is searched from the newest entry on, and since a nonterminal is created before others are split
off from it, the search for an earlier ancestor goes on among the older entries. -/
def isDescendant (n ancestor : NonTerminal) : List (NonTerminal × NonTerminal) → Bool
  | [] => false
  | (child, parent) :: older =>
      if child = n then parent = ancestor || isDescendant parent ancestor older
      else isDescendant n ancestor older

/-- Whether `n` was created by normalizing `ancestor` or one of its descendants. -/
def descendsFrom (g : Grammar) (n ancestor : NonTerminal) : Bool :=
  isDescendant n ancestor g.lineage

/-- Adding a production adds its body to the alternatives of its left side and leaves those of
all other nonterminals alone. -/
theorem bodies?_insert (g : Grammar) (head n : NonTerminal) (body : Body) :
    (g.insert head body).bodies? n =
      if n = head then some (((g.bodies? head).getD ∅).insert body) else g.bodies? n := by
  show ((addBody head body g.rules).find? (·.head = n)).map Rule.bodies =
    if n = head then
      some ((((g.rules.find? (·.head = head)).map Rule.bodies).getD ∅).insert body)
    else (g.rules.find? (·.head = n)).map Rule.bodies
  induction g.rules with
  | nil =>
      by_cases h : head = n
      · subst h
        simp [addBody]
        ext1
        simp [OrderedSet.toList_insert_of_not_mem]
      · have h' : ¬ n = head := fun e => h e.symm
        simp [addBody, h, h']
  | cons rule rest ih =>
      by_cases hr : rule.head = head
      · by_cases h : n = head
        · subst h
          simp [addBody, hr]
        · have h' : ¬ head = n := fun e => h e.symm
          simp [addBody, hr, h, h']
      · by_cases hn : rule.head = n
        · have h : ¬ n = head := fun e => hr (hn.trans e)
          simp [addBody, hn, h]
        · simpa [addBody, hr, hn] using ih

end Grammar

end PredictiveParsing
