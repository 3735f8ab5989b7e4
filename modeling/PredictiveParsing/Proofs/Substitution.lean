/-
Module: PredictiveParsing.Proofs.Substitution
Layer: Proofs
Purpose: Substitution trees and derivation. Each child of a node is derived from it by one
  production, and the children together cover everything that the node derives; so what remains of
  a forest derives as much as its roots do.
Imports: Mathlib.Data.List.TakeWhile, PredictiveParsing.Proofs.NormalizationSteps
Main exports: Grammar.mem_substitutions, Forest.Grown.derives_of_mem_prune,
  Forest.Grown.exists_mem_prune, Forest.prune_ne_nil, Forest.Grown.exists_children_of_mem
Open obligations: none
-/
import Mathlib.Data.List.TakeWhile
import PredictiveParsing.Proofs.NormalizationSteps

namespace PredictiveParsing

namespace Grammar

variable {g : Grammar}

theorem map_head_earlierRules (n : NonTerminal) :
    (g.earlierRules n).map Rule.head = g.order.takeWhile (· ≠ n) := by
  rw [earlierRules, order, List.takeWhile_map]
  rfl

/-- The children of a body: its leading nonterminal stands before `n`, is none that `n` was split
off from, and is replaced by one of its own bodies. -/
theorem mem_substitutions (hnodup : g.order.Nodup) {n : NonTerminal} {p q : Body} :
    q ∈ g.substitutions n p ↔ ∃ b tail r, p = .nonTerminal b :: tail ∧
      b ∈ g.order.takeWhile (· ≠ n) ∧ g.descendsFrom n b = false ∧ g.Produces b r ∧
        q = r ++ tail := by
  rw [← map_head_earlierRules]
  have hsub : ∀ rule ∈ g.earlierRules n, rule ∈ g.rules := fun rule hrule =>
    (List.takeWhile_sublist _).subset hrule
  cases p with
  | nil => simp [substitutions, Body.leading?]
  | cons s tail =>
      cases s with
      | terminal c => simp [substitutions, Body.leading?, Symbol.nonTerminal?]
      | nonTerminal b =>
          cases hfind : (g.earlierRules n).find? (·.head = b) with
          | none =>
              -- No rule of `b` stands early enough.
              constructor
              · intro hq
                simp [substitutions, Body.leading?, Symbol.nonTerminal?, hfind] at hq
              · intro hq
                obtain ⟨b', tail', r, hp, hb, _⟩ := hq
                cases hp
                obtain ⟨rule, hrule, hhead⟩ := List.mem_map.1 hb
                have hnone := List.find?_eq_none.1 hfind rule hrule
                simp [hhead] at hnone
          | some rule =>
              have hhead : rule.head = b := by simpa using List.find?_some hfind
              have hearly : rule ∈ g.earlierRules n := List.mem_of_find?_eq_some hfind
              have hchildren : g.substitutions n (.nonTerminal b :: tail) =
                  if g.descendsFrom n b then [] else
                    rule.bodies.toList.map (Body.substituteLeading (.nonTerminal b :: tail)) := by
                simp [substitutions, Body.leading?, Symbol.nonTerminal?, hfind]
              rw [hchildren]
              by_cases hdesc : g.descendsFrom n b = true
              · simp only [hdesc, if_true, List.not_mem_nil, false_iff]
                intro hq
                obtain ⟨b', tail', r, hp, _, hnot, _⟩ := hq
                cases hp
                rw [hdesc] at hnot
                cases hnot
              · have hdesc' : g.descendsFrom n b = false := by simpa using hdesc
                simp only [hdesc', Bool.false_eq_true, if_false, List.mem_map]
                constructor
                · intro hq
                  obtain ⟨r, hr, rfl⟩ := hq
                  exact ⟨b, tail, r, rfl, ⟨rule, hearly, hhead⟩, hdesc',
                    ⟨rule, hsub rule hearly, hhead, hr⟩, rfl⟩
                · intro hq
                  obtain ⟨b', tail', r, hp, _, _, ⟨rule', hrule', hhead', hr⟩, rfl⟩ := hq
                  cases hp
                  have heq := rule_eq_of_head_eq hnodup hrule' (hsub rule hearly)
                    (hhead'.trans hhead.symm)
                  exact ⟨r, heq ▸ hr, rfl⟩

/-- A child is derived from its parent. -/
theorem derives_of_mem_substitutions (hnodup : g.order.Nodup) {n : NonTerminal} {p q : Body}
    (h : q ∈ g.substitutions n p) : g.Derives p q := by
  obtain ⟨b, tail, r, rfl, _, _, hr, rfl⟩ := (mem_substitutions hnodup).1 h
  exact hr.derives_cons (Derives.refl _)

end Grammar

namespace Forest

/-- A forest that is not empty does not vanish when it is pruned. -/
theorem prune_ne_nil {n : NonTerminal} {forest : Forest} (h : forest ≠ .nil) :
    forest.prune n ≠ [] := by
  induction forest with
  | nil => exact absurd rfl h
  | cons root children siblings ihChildren _ =>
      intro hprune
      obtain ⟨htree, _⟩ := List.append_eq_nil_iff.1 hprune
      by_cases hexposes : exposes n children = true
      · rw [if_pos hexposes] at htree
        have hne : children ≠ .nil := by
          intro e
          rw [e] at hexposes
          cases hexposes
        exact ihChildren hne htree
      · rw [if_neg hexposes] at htree
        cases htree

theorem Grown.ne_nil {expand : Body → List Body} {roots : List Body} {forest : Forest}
    (h : Grown expand roots forest) (hroots : roots ≠ []) : forest ≠ .nil := by
  cases h with
  | nil => exact absurd rfl hroots
  | cons => exact Forest.noConfusion

/-- Where a forest does not expose a nonterminal, neither do its trees. -/
theorem Grown.exists_children_of_mem {expand : Body → List Body} {n : NonTerminal}
    {roots : List Body} {forest : Forest} (h : Grown expand roots forest)
    (hexposes : forest.exposes n = false) {root : Body} (hroot : root ∈ roots) :
    root.beginsWith n = false ∧
      ∃ children, Grown expand (expand root) children ∧ children.exposes n = false := by
  induction h with
  | nil => cases hroot
  | cons below _ _ ihBeside =>
      simp only [exposes, Bool.or_eq_false_iff] at hexposes
      rcases List.mem_cons.1 hroot with rfl | hrest
      · exact ⟨hexposes.1.1, _, below, hexposes.1.2⟩
      · exact ihBeside hexposes.2 hrest

variable {g : Grammar} {n : NonTerminal}

/-- What remains of a forest is derived from its roots. -/
theorem Grown.derives_of_mem_prune (hnodup : g.order.Nodup) {roots : List Body} {forest : Forest}
    (h : Grown (g.substitutions n) roots forest) {p : Body} (hp : p ∈ forest.prune n) :
    ∃ root ∈ roots, g.Derives root p := by
  induction h with
  | nil => cases hp
  | @cons root rest children siblings _ _ ihBelow ihBeside =>
      rcases List.mem_append.1 hp with htree | hsiblings
      · by_cases hexposes : exposes n children = true
        · rw [if_pos hexposes] at htree
          obtain ⟨child, hchild, hder⟩ := ihBelow htree
          exact ⟨root, List.mem_cons_self,
            (Grammar.derives_of_mem_substitutions hnodup hchild).trans hder⟩
        · rw [if_neg hexposes, List.mem_singleton] at htree
          subst htree
          exact ⟨p, List.mem_cons_self, Grammar.Derives.refl p⟩
      · obtain ⟨root', hroot', hder⟩ := ihBeside hsiblings
        exact ⟨root', List.mem_cons_of_mem _ hroot', hder⟩

/-- Whatever a root derives in a grammar that has the same productions for the nonterminals before
`n`, something that remains of the forest derives too, unless a leading nonterminal is left as it
is. -/
theorem Grown.exists_mem_prune {h : Grammar} (hnodup : g.order.Nodup)
    (hsame : ∀ b p, b ≠ n → h.Produces b p → g.Produces b p) {roots : List Body}
    {forest : Forest} (hgrown : Grown (g.substitutions n) roots forest) {τ : List Symbol}
    (hτ : ∀ m ∈ g.order, .nonTerminal m ∉ τ) {root : Body} (hroot : root ∈ roots)
    (hder : h.Derives root τ) : ∃ p ∈ forest.prune n, h.Derives p τ := by
  induction hgrown generalizing root with
  | nil => cases hroot
  | @cons first rest children siblings below _ ihBelow ihBeside =>
      rcases List.mem_cons.1 hroot with rfl | hrest
      · by_cases hexposes : exposes n children = true
        · -- There are children, so the leading nonterminal has been substituted in all ways.
          have hchildren : g.substitutions n root ≠ [] := by
            intro hnil
            rw [hnil] at below
            cases below
            cases hexposes
          obtain ⟨child, hchild⟩ := List.exists_mem_of_ne_nil _ hchildren
          obtain ⟨b, tail, _, rfl, hb, hdesc, _⟩ := (Grammar.mem_substitutions hnodup).1 hchild
          have hne : b ≠ n := by simpa using List.mem_takeWhile_imp hb
          have horder : b ∈ g.order := (List.takeWhile_sublist _).subset hb
          rcases hder.nonTerminal_cons with ⟨τ', rfl, _⟩ | ⟨r, hr, hder'⟩
          · exact absurd List.mem_cons_self (hτ b horder)
          · have hmem : r ++ tail ∈ g.substitutions n (.nonTerminal b :: tail) :=
              (Grammar.mem_substitutions hnodup).2
                ⟨b, tail, r, rfl, hb, hdesc, hsame b r hne hr, rfl⟩
            obtain ⟨p, hp, hpder⟩ := ihBelow hmem hder'
            exact ⟨p, List.mem_append_left _ (by rwa [if_pos hexposes]), hpder⟩
        · exact ⟨root, List.mem_append_left _ (by simp [hexposes]), hder⟩
      · obtain ⟨p, hp, hpder⟩ := ihBeside hrest hder
        exact ⟨p, List.mem_append_right _ hp, hpder⟩

end Forest

end PredictiveParsing
