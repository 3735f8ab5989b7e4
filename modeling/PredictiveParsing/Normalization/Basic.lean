/-
Module: PredictiveParsing.Normalization.Basic
Layer: Normalization
Purpose: Normalizing a whole grammar towards a form that can be predicted from one character. The
  nonterminals are visited in order, those created on the way included; each is freed from left
  recursion and then factored. Substitution may go in circles and visits may create nonterminals
  without end, so a limit bounds the size of the grammar and the work on a single nonterminal.
Imports: PredictiveParsing.Limit, PredictiveParsing.Normalization.LeftFactoring,
  PredictiveParsing.Normalization.LeftRecursion
Main exports: Grammar.exceeds, Grammar.visit, Grammar.normalizeWithin, Grammar.normalize
Open obligations: none
-/
import PredictiveParsing.Limit
import PredictiveParsing.Normalization.LeftFactoring
import PredictiveParsing.Normalization.LeftRecursion

namespace PredictiveParsing

namespace Grammar

/-- Whether the number of rules or the number of productions is beyond the limit. -/
def exceeds (limit : Nat) (g : Grammar) : Bool :=
  limit < g.rules.length || limit < g.size

/-- Remove the left recursion of one nonterminal and factor it. -/
def visit (limit : Nat) (n : NonTerminal) (g : Grammar) : NormalizationResult :=
  match g.removeLeftRecursion limit n with
  | none => ⟨g, some ⟨.substitution, n⟩⟩
  | some eliminated => eliminated.factor limit n

/-- Visit the nonterminals from the given place in the order on. A grammar that has grown beyond
the limit is not visited further, so the place never exceeds the limit. -/
def normalizeFrom (limit place : Nat) (g : Grammar) : NormalizationResult :=
  match _hplace : g.order[place]? with
  | none => ⟨g, none⟩
  | some n =>
      if _hsize : g.exceeds limit = true then ⟨g, some ⟨.size, n⟩⟩
      else
        match g.visit limit n with
        | ⟨visited, some obstacle⟩ => ⟨visited, some obstacle⟩
        | ⟨visited, none⟩ => normalizeFrom limit (place + 1) visited
termination_by limit - place
decreasing_by
  have hlt : place < g.rules.length := by
    have := (List.getElem?_eq_some_iff.1 _hplace).1
    simpa [order] using this
  simp only [exceeds, Bool.or_eq_true, decide_eq_true_eq, not_or] at _hsize
  omega

/-- Normalize a grammar within a limit. -/
def normalizeWithin (limit : Nat) (g : Grammar) : NormalizationResult := g.normalizeFrom limit 0

/-- Normalize a grammar within the usual limit. -/
def normalize (g : Grammar) : NormalizationResult := g.normalizeWithin workLimit

end Grammar

end PredictiveParsing
