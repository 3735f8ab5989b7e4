/-
Module: PredictiveParsing.Normalization.Substitution
Layer: Normalization
Purpose: Substitution trees. A body is a node, and its children are the bodies that arise when its
  leading nonterminal is substituted. A tree is folded from its leaves: where the children of a node
  are left as they are and none of them begins with a given nonterminal, the substitution was idle
  and the node stands for them.
  Growing a forest costs one unit of a budget for each node below the roots, and the budget is
  shared by all trees, so that a forest either fits as a whole or is refused as a whole.
Imports: PredictiveParsing.Body
Main exports: Forest, Forest.grow, Forest.grow?, Forest.parts, Forest.fold
Open obligations: none
-/
import PredictiveParsing.Body

namespace PredictiveParsing

/-- A list of substitution trees: the first tree by its root and the forest of its children, and
then the forest of the other trees. -/
inductive Forest where
  | nil
  | cons (root : Body) (children siblings : Forest)
deriving DecidableEq

namespace Forest

/-- Grow a tree from every body of a list. `expand` gives the children of a body, and a body
without children is a leaf. The result holds what is left of the budget, and there is none if the
budget does not suffice. -/
def grow (expand : Body → List Body) (budget : Nat) :
    List Body → Option { grown : Forest × Nat // grown.2 ≤ budget }
  | [] => some ⟨(.nil, budget), Nat.le_refl _⟩
  | root :: rest =>
      match expand root with
      | [] =>
          match grow expand budget rest with
          | none => none
          | some ⟨(siblings, left), hleft⟩ => some ⟨(.cons root .nil siblings, left), hleft⟩
      | child :: others =>
          if _hfits : (child :: others).length ≤ budget then
            match grow expand (budget - (child :: others).length) (child :: others) with
            | none => none
            | some ⟨(children, left), hleft⟩ =>
                match grow expand left rest with
                | none => none
                | some ⟨(siblings, unspent), hunspent⟩ =>
                    some ⟨(.cons root children siblings, unspent),
                      Nat.le_trans hunspent (Nat.le_trans hleft (Nat.sub_le _ _))⟩
          else
            none
termination_by list => (budget, list.length)
decreasing_by
  · exact Prod.Lex.right _ (Nat.lt_succ_self _)
  · refine Prod.Lex.left _ _ ?_
    simp only [List.length_cons] at _hfits ⊢
    omega
  · refine Prod.Lex.left _ _ ?_
    simp only [List.length_cons] at _hfits hleft
    omega

/-- The forest grown from a list of bodies, if it costs no more than the limit. -/
def grow? (expand : Body → List Body) (limit : Nat) (bodies : List Body) : Option Forest :=
  (grow expand limit bodies).map fun grown => grown.val.1

/-- What remains of each tree of the forest, beside the root of the tree. The root stays as it is
if below it nothing has come of substitution: none of its children begins with the nonterminal, and
each of them remains just as it is. Otherwise the root gives way to what remains of its children. -/
def parts (n : NonTerminal) : Forest → List (Body × List Body)
  | .nil => []
  | .cons root children siblings =>
      let below := parts n children
      let unchanged := below.all fun (child, part) => !child.beginsWith n && part == [child]
      (root, if unchanged then [root] else below.flatMap Prod.snd) :: parts n siblings

/-- The bodies that remain of a forest. -/
def fold (n : NonTerminal) (forest : Forest) : List Body :=
  (forest.parts n).flatMap Prod.snd

end Forest

end PredictiveParsing
