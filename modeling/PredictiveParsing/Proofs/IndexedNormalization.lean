/-
Module: PredictiveParsing.Proofs.IndexedNormalization
Layer: Proofs
Purpose: Normalizing two containers is normalizing the grammar that they represent. The order in the
  list decides which nonterminals are substituted as the order of the rules does, so the forests
  that are grown are the same; and since a change uses no symbols but those that were met, meeting
  them again when alternatives are set does nothing. Where the one gives up, so does the other, at
  the same nonterminal, and what is left still corresponds.
Imports: PredictiveParsing.Normalization.Indexed, PredictiveParsing.Proofs.IndexedGrammar
Main exports: IndexedGrammar.Represents.substitutions_eq,
  IndexedGrammar.Represents.removeLeftRecursion, IndexedGrammar.Matches,
  IndexedGrammar.Represents.factor, IndexedGrammar.Represents.normalizeFrom
Open obligations: none
-/
import PredictiveParsing.Normalization.Indexed
import PredictiveParsing.Proofs.IndexedGrammar

namespace PredictiveParsing

/-- The rule of a nonterminal is among the earlier ones if the nonterminal comes earlier. -/
theorem Grammar.find?_earlierRules {g : Grammar} {n b : NonTerminal} :
    (g.earlierRules n).find? (·.head = b) =
      if b ∈ g.order.takeWhile (· ≠ n) then g.rule? b else none := by
  rw [← map_head_earlierRules]
  split
  · next hb =>
      obtain ⟨rule, hrule, hhead⟩ := List.mem_map.1 hb
      have hall : g.rules.find? (·.head = b) = ((g.earlierRules n).find? (·.head = b)).or
          ((g.rules.dropWhile (·.head ≠ n)).find? (·.head = b)) := by
        rw [← List.find?_append, earlierRules, List.takeWhile_append_dropWhile]
      rw [rule?, hall]
      cases hfind : (g.earlierRules n).find? (·.head = b) with
      | none =>
          have hnone := List.find?_eq_none.1 hfind rule hrule
          simp [hhead] at hnone
      | some found => rfl
  · next hb =>
      apply List.find?_eq_none.2
      intro rule hrule
      have hne : rule.head ≠ b := fun e => hb (List.mem_map.2 ⟨rule, hrule, e⟩)
      simpa using hne

namespace IndexedGrammar

variable {c : IndexedGrammar} {g : Grammar} {limit place : Nat} {n : NonTerminal}

/-! ### Substitution -/

/-- A nonterminal has an earlier place if it is one of those that come before. -/
theorem any_place?_iff (hnodup : c.order.Nodup) {m : NonTerminal} :
    (c.place? m).any (· < place) = true ↔ m ∈ c.order.take place := by
  rw [Option.any_eq_true, List.mem_iff_getElem?]
  refine exists_congr fun i => ?_
  rw [place?_eq_some_iff hnodup, List.getElem?_take, decide_eq_true_eq]
  by_cases hi : i < place
  · simp [hi]
  · simp [hi]

namespace Represents

/-- A body leads to the same bodies by substitution. -/
theorem substitutions_eq (h : c.Represents g) (hg : g.WellFormed)
    (hplace : g.order[place]? = some n) (p : Body) :
    c.substitutions n place p = g.substitutions n p := by
  unfold substitutions Grammar.substitutions
  cases p.leading? with
  | none => rfl
  | some b =>
      dsimp only
      have hearly : (c.place? b).any (· < place) = true ↔ b ∈ g.order.takeWhile (· ≠ n) := by
        rw [any_place?_iff (h.order_eq ▸ hg.nodup_order), h.order_eq,
          Grammar.takeWhile_order hg.nodup_order hplace]
      rw [Grammar.find?_earlierRules]
      by_cases hb : b ∈ g.order.takeWhile (· ≠ n)
      · obtain ⟨bodies, hbodies⟩ :=
          Grammar.exists_bodies_of_mem_order ((List.takeWhile_sublist _).subset hb)
        obtain ⟨rule, hrule, rfl⟩ := Option.map_eq_some_iff.1 hbodies
        -- The rule has alternatives, so the test for an empty set lets it pass.
        have hnonempty : rule.bodies.isEmpty = false := by
          obtain ⟨q, hq⟩ := hg.exists_body b (Grammar.mem_order_of_bodies? hbodies)
          rw [Grammar.produces_iff_of_bodies? hg.nodup_order hbodies] at hq
          exact List.isEmpty_eq_false_iff.2 (List.ne_nil_of_mem hq)
        have hexpandable : c.isExpandable n place b = !g.descendsFrom n b := by
          rw [isExpandable, hearly.2 hb, h.get?_eq, hbodies, h.lineage_eq, Option.any_some,
            hnonempty]
          rfl
        rw [if_pos hb, hrule, hexpandable, OrderedMap.getD, h.get?_eq, hbodies]
        cases g.descendsFrom n b <;> rfl
      · have hexpandable : c.isExpandable n place b = false := by
          rw [isExpandable, Bool.eq_false_iff.2 (mt hearly.1 hb), Bool.false_and, Bool.false_and]
        rw [if_neg hb, hexpandable]
        rfl

/-! ### One nonterminal -/

theorem expandEarlier (h : c.Represents g) (hg : g.WellFormed) (limit : Nat) (n : NonTerminal) :
    Option.Rel Represents (c.expandEarlier limit n) (g.expandEarlier limit n) := by
  unfold IndexedGrammar.expandEarlier
  cases hplace : c.place? n with
  | none =>
      have hnone : g.bodies? n = none := by
        rw [Grammar.bodies?_eq_none_iff, ← h.order_eq]
        exact place?_eq_none_iff.1 hplace
      rw [Grammar.expandEarlier, hnone]
      exact .some h
  | some place =>
      rw [place?_eq_some_iff (h.order_eq ▸ hg.nodup_order), h.order_eq] at hplace
      have hn : n ∈ g.order := List.mem_of_getElem? hplace
      obtain ⟨bodies, hbodies⟩ := Grammar.exists_bodies_of_mem_order hn
      have hsame : c.substitutions n place = g.substitutions n :=
        funext (h.substitutions_eq hg hplace)
      dsimp only
      rw [OrderedMap.getD, h.get?_eq, hsame, hbodies, Option.getD_some]
      cases hgrow : Forest.grow? (g.substitutions n) limit bodies.toList with
      | none =>
          rw [Grammar.expandEarlier, hbodies]
          simp only [hgrow]
          exact .none
      | some forest =>
          have hexpand : g.expandEarlier limit n =
              some (g.setBodies n (OrderedSet.ofList (forest.fold n))) := by
            rw [Grammar.expandEarlier, hbodies]
            simp only [hgrow, Option.map_some]
          rw [hexpand]
          refine .some (h.setProductions hg.nodup_order hn ?_)
          intro p hp s hs
          have hmet := (hg.expandEarlier hexpand).body_met n p
            (Grammar.produces_setBodies.2 (Or.inr ⟨rfl, hn, hp⟩)) s hs
          exact (Grammar.meets_congr rfl rfl).1 hmet

theorem splitRecursion (h : c.Represents g) (hg : g.WellFormed)
    (hrecursive : g.isLeftRecursive n = true) :
    (c.splitRecursion n).Represents (g.splitRecursion n) := by
  obtain ⟨bodies, hbodies⟩ := Grammar.exists_bodies_of_isLeftRecursive hrecursive
  have hsplit := hg.splitRecursion hrecursive
  rw [Grammar.splitRecursion_eq hbodies] at hsplit ⊢
  rw [IndexedGrammar.splitRecursion, OrderedMap.getD, h.get?_eq, hbodies, Option.getD_some]
  have h' := h.split hg hbodies hsplit
  rw [h.freshFor_eq] at h' ⊢
  exact h'

/-- Left recursion is removed from both, or too much work for both. -/
theorem removeLeftRecursion (h : c.Represents g) (hg : g.WellFormed) (limit : Nat)
    (n : NonTerminal) : Option.Rel Represents (c.removeLeftRecursion limit n)
      (g.removeLeftRecursion limit n) := by
  unfold IndexedGrammar.removeLeftRecursion Grammar.removeLeftRecursion
  have hexpand := h.expandEarlier hg limit n
  generalize c.expandEarlier limit n = found at hexpand ⊢
  generalize hexpanded : g.expandEarlier limit n = expanded at hexpand ⊢
  cases hexpand with
  | none => exact .none
  | some hrepresents =>
      refine .some ?_
      dsimp only
      rw [hrepresents.isLeftRecursive_eq]
      split
      · next hrecursive => exact hrepresents.splitRecursion (hg.expandEarlier hexpanded) hrecursive
      · exact hrepresents

theorem factorOnce (h : c.Represents g) (hg : g.WellFormed) {bodies : OrderedSet Body}
    (hbodies : g.bodies? n = some bodies) {shared rest : Body} (hrest : shared ++ rest ∈ bodies) :
    (c.factorOnce n bodies shared).Represents (g.factorOnce n bodies shared) := by
  have h' := h.split hg hbodies (hg.factorOnce hbodies hrest)
  rw [IndexedGrammar.factorOnce]
  rw [h.freshFor_eq] at h' ⊢
  exact h'

end Represents

/-! ### Whole normalization -/

theorem normalizeFrom_of_none (hplace : c.order[place]? = none) :
    c.normalizeFrom limit place = (c, none) := by
  rw [normalizeFrom]
  split
  · rfl
  · next n hn => cases hplace.symm.trans hn

theorem normalizeFrom_of_some (hplace : c.order[place]? = some n) :
    c.normalizeFrom limit place =
      if c.exceeds limit then (c, some ⟨.size, n⟩)
      else
        match (c.visit limit n).2 with
        | some obstacle => ((c.visit limit n).1, some obstacle)
        | none => (c.visit limit n).1.normalizeFrom limit (place + 1) := by
  rw [normalizeFrom]
  split
  · next hnone => cases hplace.symm.trans hnone
  · next m hm =>
      cases hplace.symm.trans hm
      rw [dite_eq_ite]
      split
      · rfl
      · split
        · next visited obstacle hvisit => rw [hvisit]
        · next visited hvisit => rw [hvisit]

/-- What is left in the containers corresponds to the grammar that is left, and both steps have gone
through, or have given up at the same place. -/
def Matches (result : IndexedGrammar × Option Obstacle) (result' : NormalizationResult) : Prop :=
  result.1.Represents result'.grammar ∧ result.2 = result'.obstacle?

namespace Represents

theorem factor (h : c.Represents g) (hg : g.WellFormed) (rounds : Nat) :
    Matches (c.factor rounds n) (g.factor rounds n) := by
  induction rounds generalizing c g with
  | zero => exact ⟨h, rfl⟩
  | succ rounds ih =>
      unfold IndexedGrammar.factor Grammar.factor
      rw [h.get?_eq]
      cases hbodies : g.bodies? n with
      | none => exact ⟨h, rfl⟩
      | some bodies =>
          dsimp only
          cases hshared : Body.longestSharedPrefix bodies.toList with
          | nil => exact ⟨h, rfl⟩
          | cons s shared =>
              have hne : Body.longestSharedPrefix bodies.toList ≠ [] := by simp [hshared]
              obtain ⟨rest, hrest⟩ := Body.exists_append_mem_of_longestSharedPrefix hne
              rw [hshared] at hrest
              exact ih (h.factorOnce hg hbodies hrest) (hg.factorOnce hbodies hrest)

theorem visit (h : c.Represents g) (hg : g.WellFormed) (limit : Nat) (n : NonTerminal) :
    Matches (c.visit limit n) (g.visit limit n) := by
  unfold IndexedGrammar.visit Grammar.visit
  have hremove := h.removeLeftRecursion hg limit n
  generalize c.removeLeftRecursion limit n = found at hremove ⊢
  generalize heliminated : g.removeLeftRecursion limit n = eliminated at hremove ⊢
  cases hremove with
  | none => exact ⟨h, rfl⟩
  | some hrepresents =>
      have hsteps := Grammar.normalizationSteps_removeLeftRecursion heliminated
      exact hrepresents.factor (hg.normalizationSteps hsteps) limit

theorem exceeds_eq (h : c.Represents g) (hnodup : g.order.Nodup) :
    c.exceeds limit = g.exceeds limit := by
  rw [exceeds, Grammar.exceeds, h.size_eq hnodup, h.order_eq, Grammar.order, List.length_map]

/-- The same nonterminals are visited, and normalization gives up at the same one if it does. -/
theorem normalizeFrom (h : c.Represents g) (hg : g.WellFormed) (limit place : Nat) :
    Matches (c.normalizeFrom limit place) (g.normalizeFrom limit place) := by
  fun_induction Grammar.normalizeFrom limit place g generalizing c with
  | case1 place g hplace =>
      rw [normalizeFrom_of_none (h.order_eq ▸ hplace)]
      exact ⟨h, rfl⟩
  | case2 place g n hplace hsize =>
      rw [normalizeFrom_of_some (h.order_eq ▸ hplace), h.exceeds_eq hg.nodup_order, if_pos hsize]
      exact ⟨h, rfl⟩
  | case3 place g n hplace hsize visited obstacle hvisit =>
      rw [normalizeFrom_of_some (h.order_eq ▸ hplace), h.exceeds_eq hg.nodup_order, if_neg hsize]
      have hmatches := h.visit hg limit n
      rw [hvisit] at hmatches
      obtain ⟨hrepresents, hobstacle⟩ := hmatches
      rw [hobstacle]
      exact ⟨hrepresents, rfl⟩
  | case4 place g n hplace hsize visited hvisit ih =>
      rw [normalizeFrom_of_some (h.order_eq ▸ hplace), h.exceeds_eq hg.nodup_order, if_neg hsize]
      have hmatches := h.visit hg limit n
      have hvisited : visited.WellFormed := by
        have hsteps := Grammar.normalizationSteps_visit limit n g
        rw [hvisit] at hsteps
        exact hg.normalizationSteps hsteps
      rw [hvisit] at hmatches
      obtain ⟨hrepresents, hobstacle⟩ := hmatches
      rw [hobstacle]
      exact ih hrepresents hvisited

end Represents

end IndexedGrammar

end PredictiveParsing
