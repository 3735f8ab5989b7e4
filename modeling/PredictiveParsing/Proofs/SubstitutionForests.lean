/-
Module: PredictiveParsing.Proofs.SubstitutionForests
Layer: Proofs
Purpose: Complete forests, those in which every body has all bodies that can arise from it as its
  children. A complete forest is determined by its roots, so no body is found again below itself.
  Therefore folding, which compares what remains of a node with the node, keeps exactly the nodes
  below which the nonterminal never comes to the front.
Imports: PredictiveParsing.Normalization.Substitution
Main exports: Forest.Grown, Forest.grown_of_grow?, Forest.size, Forest.exposes, Forest.prune,
  Forest.Grown.exists_children_of_mem_prune, Forest.Grown.fold_eq_prune
Open obligations: none
-/
import PredictiveParsing.Normalization.Substitution

namespace PredictiveParsing.Forest

/-- The forest holds, for every body of the list, the complete tree of substitutions below it. -/
inductive Grown (expand : Body → List Body) : List Body → Forest → Prop where
  | nil : Grown expand [] .nil
  | cons {root : Body} {rest : List Body} {children siblings : Forest}
      (below : Grown expand (expand root) children) (beside : Grown expand rest siblings) :
      Grown expand (root :: rest) (.cons root children siblings)

/-- The number of nodes of a forest. -/
def size : Forest → Nat
  | .nil => 0
  | .cons _ children siblings => size children + size siblings + 1

/-- Whether some node of the forest begins with the nonterminal. -/
def exposes (n : NonTerminal) : Forest → Bool
  | .nil => false
  | .cons root children siblings => root.beginsWith n || exposes n children || exposes n siblings

/-- The bodies that remain when a node gives way to what remains of its children exactly if
substitution exposes the nonterminal below it. -/
def prune (n : NonTerminal) : Forest → List Body
  | .nil => []
  | .cons root children siblings =>
      (if exposes n children then prune n children else [root]) ++ prune n siblings

variable {expand : Body → List Body} {n : NonTerminal} {roots : List Body} {forest : Forest}

theorem grown_of_grow {budget : Nat} {bodies : List Body}
    {grown : { grown : Forest × Nat // grown.2 ≤ budget }}
    (h : grow expand budget bodies = some grown) : Grown expand bodies grown.val.1 := by
  fun_induction grow expand budget bodies with
  | case1 =>
      cases h
      exact .nil
  | case2 => cases h
  | case3 budget root rest hleaf siblings left hleft hgrow ih =>
      cases h
      refine .cons ?_ (ih hgrow)
      rw [hleaf]
      exact .nil
  | case4 => cases h
  | case5 => cases h
  | case6 budget root rest child others hexpand hfits children left hleft hbelow siblings unspent
      hunspent hbeside ihBelow ihBeside =>
      cases h
      refine .cons ?_ (ihBeside hbeside)
      rw [hexpand]
      exact ihBelow hbelow
  | case7 => cases h

/-- A forest that fits the limit is complete. -/
theorem grown_of_grow? {limit : Nat} {bodies : List Body}
    (h : grow? expand limit bodies = some forest) : Grown expand bodies forest := by
  obtain ⟨grown, hgrow, rfl⟩ := Option.map_eq_some_iff.1 h
  exact grown_of_grow hgrow

/-- A complete forest is determined by its roots. -/
theorem Grown.unique (h : Grown expand roots forest) {other : Forest}
    (hother : Grown expand roots other) : forest = other := by
  induction h generalizing other with
  | nil =>
      cases hother
      rfl
  | cons _ _ ihBelow ihBeside =>
      cases hother with
      | cons below beside => rw [ihBelow below, ihBeside beside]

/-- The tree of a body that remains is complete, nothing below it exposes the nonterminal, and it
is part of the forest. -/
theorem Grown.exists_children_of_mem_prune (h : Grown expand roots forest) {p : Body}
    (hp : p ∈ forest.prune n) :
    ∃ children, Grown expand (expand p) children ∧ children.exposes n = false ∧
      children.size < forest.size := by
  induction h with
  | nil => cases hp
  | @cons root rest children siblings below _ ihBelow ihBeside =>
      rcases List.mem_append.1 hp with htree | hsiblings
      · by_cases hexposes : exposes n children = true
        · rw [if_pos hexposes] at htree
          obtain ⟨under, hunder, hhidden, hsize⟩ := ihBelow htree
          exact ⟨under, hunder, hhidden, by simp only [size]; omega⟩
        · rw [if_neg hexposes, List.mem_singleton] at htree
          subst htree
          exact ⟨children, below, by simpa using hexposes, by simp only [size]; omega⟩
      · obtain ⟨under, hunder, hhidden, hsize⟩ := ihBeside hsiblings
        exact ⟨under, hunder, hhidden, by simp only [size]; omega⟩

/-- A body does not remain of its own children: its forest would be a part of itself. -/
theorem Grown.not_mem_prune {root : Body} {children : Forest}
    (h : Grown expand (expand root) children) : root ∉ children.prune n := by
  intro hroot
  obtain ⟨under, hunder, _, hsize⟩ := h.exists_children_of_mem_prune hroot
  rw [h.unique hunder] at hsize
  exact Nat.lt_irrefl _ hsize

/-- Where the nonterminal is exposed below a body, the children do not leave just the body. -/
theorem Grown.prune_eq_singleton_iff {root : Body} {children : Forest}
    (h : Grown expand (expand root) children) :
    (if children.exposes n then children.prune n else [root]) = [root] ↔
      children.exposes n = false := by
  cases hexposes : children.exposes n with
  | false => simp
  | true =>
      simp only [if_true, Bool.true_eq_false, iff_false]
      intro hprune
      exact h.not_mem_prune (hprune ▸ List.mem_singleton_self root)

/-- Folding a complete forest is pruning it, and its trees pass the comparison of a node with what
remains of it exactly if the forest does not expose the nonterminal. -/
theorem Grown.fold_eq_prune_and (h : Grown expand roots forest) :
    forest.fold n = forest.prune n ∧
      (forest.parts n).all (fun (child, part) => !child.beginsWith n && part == [child]) =
        !forest.exposes n := by
  induction h with
  | nil => exact ⟨rfl, rfl⟩
  | @cons root rest children siblings below _ ihBelow ihBeside =>
      obtain ⟨hfold, hunchanged⟩ := ihBelow
      obtain ⟨hfoldBeside, hunchangedBeside⟩ := ihBeside
      have hpart : (if (children.parts n).all (fun (child, part) =>
            !child.beginsWith n && part == [child]) then [root]
          else (children.parts n).flatMap Prod.snd) =
          if children.exposes n then children.prune n else [root] := by
        rw [hunchanged, ← hfold, fold]
        cases children.exposes n <;> rfl
      constructor
      · rw [prune, ← hfoldBeside, ← hpart]
        rfl
      · simp only [parts, List.all_cons, hpart, hunchangedBeside, exposes, Bool.not_or]
        congr 2
        rw [Bool.eq_iff_iff, beq_iff_eq, below.prune_eq_singleton_iff]
        simp

/-- On a complete forest, folding keeps exactly the nodes below which the nonterminal is not
exposed. -/
theorem Grown.fold_eq_prune (h : Grown expand roots forest) : forest.fold n = forest.prune n :=
  h.fold_eq_prune_and.1

end PredictiveParsing.Forest
