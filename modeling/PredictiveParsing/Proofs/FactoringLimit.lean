/-
Module: PredictiveParsing.Proofs.FactoringLimit
Layer: Proofs
Purpose: What it means that a normalization gives up while it factors a nonterminal. All permitted
  rounds were made, each of them found a prefix and created a nonterminal, and the nonterminal had
  more alternatives than the limit when factoring began, although the grammar was within the limit
  before its substitutions. Whether work is left is another matter: a round looks for a prefix
  before it does its work and not after it, so factoring that is finished by the last permitted
  round is given up, too.
Imports: Mathlib, PredictiveParsing.Proofs.FactoringConvergence,
  PredictiveParsing.Proofs.NormalizationFrame
Main exports: Grammar.SharesFront, Grammar.factor_succ_of_obstacle, Grammar.OutOfRounds,
  Grammar.outOfRounds_of_factor, Grammar.exists_of_normalizeFrom_factoring,
  Session.factoring_out_of_rounds, Session.factoring_out_of_rounds_finished
Open obligations: none
-/
import Mathlib
import PredictiveParsing.Proofs.FactoringConvergence
import PredictiveParsing.Proofs.NormalizationFrame

namespace PredictiveParsing

namespace Grammar

variable {g h : Grammar} {n : NonTerminal} {limit rounds : Nat} {obstacle : Obstacle}

/-! ### Work that is left -/

/-- Two different alternatives of a nonterminal begin with the same symbol. -/
def SharesFront (g : Grammar) (n : NonTerminal) : Prop :=
  ∃ σ p q, p ≠ q ∧ g.Produces n (σ :: p) ∧ g.Produces n (σ :: q)

/-- There is a prefix to factor out exactly if work is left. -/
theorem sharesFront_iff (hnodup : g.order.Nodup) {bodies : OrderedSet Body}
    (hbodies : g.bodies? n = some bodies) :
    g.SharesFront n ↔ Body.longestSharedPrefix bodies.toList ≠ [] := by
  have hproduces : ∀ {p}, g.Produces n p ↔ p ∈ bodies := produces_iff_of_bodies? hnodup hbodies
  constructor
  · intro hwork hnone
    obtain ⟨σ, p, q, hne, hp, hq⟩ := hwork
    exact hne (Body.eq_of_longestSharedPrefix hnone (hproduces.1 hp) (hproduces.1 hq))
  · intro hshared
    obtain ⟨rest, rest', hne, hrest, hrest'⟩ :=
      Body.exists_ne_of_longestSharedPrefix bodies.nodup hshared
    obtain ⟨σ, shared, hcons⟩ := List.exists_cons_of_ne_nil hshared
    rw [hcons] at hrest hrest'
    exact ⟨σ, shared ++ rest, shared ++ rest', fun heq => hne (List.append_cancel_left heq),
      hproduces.2 hrest, hproduces.2 hrest'⟩

/-! ### Rounds of factoring -/

/-- Factoring that runs out of rounds does, with one more round, what that round does at the end. -/
theorem factor_succ_of_obstacle (hstopped : g.factor rounds n = ⟨h, some obstacle⟩) :
    g.factor (rounds + 1) n = h.factor 1 n := by
  fun_induction factor rounds n g with
  | case1 =>
      cases hstopped
      rfl
  | case2 => cases hstopped
  | case3 => cases hstopped
  | case4 rounds n g bodies hbodies hshared ih =>
      rw [factor_succ_of_shared hbodies hshared]
      exact ih hstopped

/-- What factoring gives up on is the nonterminal itself. -/
theorem obstacle_of_factor (hstopped : g.factor rounds n = ⟨h, some obstacle⟩) :
    obstacle = ⟨.factoring, n⟩ := by
  fun_induction factor rounds n g with
  | case1 =>
      cases hstopped
      rfl
  | case2 => cases hstopped
  | case3 => cases hstopped
  | case4 _ _ _ _ _ _ ih => exact ih hstopped

/-- Each round that was made created a nonterminal. -/
theorem length_order_of_obstacle (hg : g.WellFormed)
    (hstopped : g.factor rounds n = ⟨h, some obstacle⟩) :
    h.order.length = g.order.length + rounds := by
  fun_induction factor rounds n g with
  | case1 =>
      cases hstopped
      rfl
  | case2 => cases hstopped
  | case3 => cases hstopped
  | case4 rounds n g bodies hbodies hshared ih =>
      obtain ⟨rest, hrest⟩ := Body.exists_append_mem_of_longestSharedPrefix hshared
      rw [ih (hg.factorOnce hbodies hrest) hstopped, length_order_factorOnce hg.nodup_order hbodies]
      omega

/-- Factoring a nonterminal used up all its rounds. -/
structure OutOfRounds (limit : Nat) (n : NonTerminal) (before after : Grammar) : Prop where
  stopped : before.factor limit n = ⟨after, some ⟨.factoring, n⟩⟩
  /-- Every round created a nonterminal. -/
  length_created : (after.createdSince before).length = limit
  /-- There were more alternatives than rounds. -/
  exists_bodies : ∃ bodies, before.bodies? n = some bodies ∧ limit < bodies.size
  /-- If no work is left, one more round would have seen that. -/
  finished_iff : ¬ after.SharesFront n ↔ before.factor (limit + 1) n = ⟨after, none⟩

theorem outOfRounds_of_factor (hg : g.WellFormed) (hn : n ∈ g.order)
    (hstopped : g.factor limit n = ⟨h, some ⟨.factoring, n⟩⟩) : OutOfRounds limit n g h := by
  have hfactoring : Factoring g n h := by
    have hall := Factoring.factor hg hn limit
    rwa [hstopped] at hall
  refine ⟨hstopped, ?_, ?_, ?_⟩
  · have hlength := hfactoring.length_created
    rw [length_order_of_obstacle hg hstopped] at hlength
    omega
  · obtain ⟨bodies, hbodies⟩ := exists_bodies_of_mem_order hn
    refine ⟨bodies, hbodies, Nat.lt_of_not_ge fun hle => ?_⟩
    have hfinished := (finished_factor hg hbodies hle).1
    rw [hstopped] at hfinished
    cases hfinished
  · have hn' : n ∈ h.order := by
      have hkept := (Keeps.normalizationSteps hg (normalizationSteps_factor limit n g)).mem_order hn
      rwa [hstopped] at hkept
    obtain ⟨bodies, hbodies⟩ := exists_bodies_of_mem_order hn'
    rw [sharesFront_iff hfactoring.wellFormed.nodup_order hbodies, not_not,
      factor_succ_of_obstacle hstopped]
    constructor
    · exact fun hnone => factor_succ_of_nil hbodies hnone 0
    · intro hfinished
      by_contra hshared
      rw [factor_succ_of_shared hbodies hshared] at hfinished
      cases congrArg NormalizationResult.obstacle? hfinished

/-! ### Giving up on the way -/

/-- A visit that gives up in factoring has removed the left recursion. -/
theorem exists_of_visit_factoring {m : NonTerminal}
    (hvisit : g.visit limit n = ⟨h, some ⟨.factoring, m⟩⟩) :
    m = n ∧ ∃ before, g.removeLeftRecursion limit n = some before ∧
      before.factor limit n = ⟨h, some ⟨.factoring, n⟩⟩ := by
  unfold visit at hvisit
  cases hremove : g.removeLeftRecursion limit n with
  | none =>
      rw [hremove] at hvisit
      cases hvisit
  | some before =>
      rw [hremove] at hvisit
      cases obstacle_of_factor hvisit
      exact ⟨rfl, before, rfl, hvisit⟩

/-- Where normalization gives up in factoring, the nonterminal was visited with a grammar within the
limit, and its left recursion was removed. -/
theorem exists_of_normalizeFrom_factoring {place : Nat}
    (hstopped : normalizeFrom limit place g = ⟨h, some ⟨.factoring, n⟩⟩) :
    ∃ visited before, NormalizationSteps g visited ∧ n ∈ visited.order ∧
      visited.exceeds limit = false ∧ visited.removeLeftRecursion limit n = some before ∧
      before.factor limit n = ⟨h, some ⟨.factoring, n⟩⟩ := by
  fun_induction normalizeFrom limit place g with
  | case1 => cases hstopped
  | case2 => cases hstopped
  | case3 place g m hplace hsize visited obstacle hvisit =>
      cases hstopped
      obtain ⟨rfl, before, hremove, hfactor⟩ := exists_of_visit_factoring hvisit
      exact ⟨g, before, .refl, List.mem_of_getElem? hplace, by simpa using hsize, hremove, hfactor⟩
  | case4 place g m hplace hsize visited hvisit ih =>
      obtain ⟨later, before, hsteps, hrest⟩ := ih hstopped
      have hfirst := normalizationSteps_visit limit m g
      rw [hvisit] at hfirst
      exact ⟨later, before, hfirst.trans hsteps, hrest⟩

end Grammar

namespace Session

open Grammar

variable {s : Session} {n : NonTerminal} {limit : Nat}

/-- If a normalization gives up while it factors a nonterminal, the grammar was within the limit
when that nonterminal was visited. The removal of left recursion then left it with more alternatives
than the limit, and all permitted rounds of factoring were made, each of which created a
nonterminal. Work is left or it is not; if not, one more round would have found that factoring was
finished. -/
theorem factoring_out_of_rounds (hs : s.Reachable)
    (hstopped : (s.apply (.normalizeWithin limit)).2 = some (.limitExceeded ⟨.factoring, n⟩)) :
    ∃ visited before, NormalizationSteps s.grammar visited ∧ visited.exceeds limit = false ∧
      visited.removeLeftRecursion limit n = some before ∧
      OutOfRounds limit n before (s.apply (.normalizeWithin limit)).1.grammar := by
  obtain ⟨obstacle, hobstacle, heq⟩ := Option.map_eq_some_iff.1 hstopped
  cases heq
  have hresult : s.grammar.normalizeFrom limit 0 =
      ⟨(s.apply (.normalizeWithin limit)).1.grammar, some ⟨.factoring, n⟩⟩ := by
    rw [← hobstacle]
    rfl
  obtain ⟨visited, before, hsteps, hn, hwithin, hremove, hfactor⟩ :=
    exists_of_normalizeFrom_factoring hresult
  have hvisited : visited.WellFormed := hs.wellFormed.normalizationSteps hsteps
  have hremoved := normalizationSteps_removeLeftRecursion hremove
  refine ⟨visited, before, hsteps, hwithin, hremove, ?_⟩
  exact outOfRounds_of_factor (hvisited.normalizationSteps hremoved)
    ((Keeps.normalizationSteps hvisited hremoved).mem_order hn) hfactor

/-- Fifteen rounds turn the alternatives of `A` into one that begins with `bbc` and one that begins
with `bc`, so `b` is still shared when the rounds are used up. -/
theorem factoring_out_of_rounds_left :
    let s := withLines ["S->Ay", "S->b", "S->&", "A->Sbcp", "A->Sbcqp", "A->Sbcqqp", "A->Sbcqqqp",
      "A->Sbcqqqq", "A->bcpr", "A->bcprr", "A->bcprrr", "A->bcprrrr", "A->bcprrrrr", "A->bcprrrrrr",
      "A->bcprrrrrrr"]
    let n : NonTerminal := ⟨'A', 0, rfl⟩
    let t := (s.apply (.normalizeWithin 15)).1
    s.Reachable ∧ (s.apply (.normalizeWithin 15)).2 = some (.limitExceeded ⟨.factoring, n⟩) ∧
      t.grammar.SharesFront n ∧
      ∃ visited before, NormalizationSteps s.grammar visited ∧ visited.exceeds 15 = false ∧
        visited.removeLeftRecursion 15 n = some before ∧ OutOfRounds 15 n before t.grammar := by
  intro s n t
  have hs : s.Reachable := reachable_withLines _
  have hstopped : (s.apply (.normalizeWithin 15)).2 = some (.limitExceeded ⟨.factoring, n⟩) := by
    unfold s n
    cbv
  have hbodies : t.grammar.bodies? n = some (OrderedSet.ofList
      (["bbcA'''''''''''''", "bcA''''''''''''''''"].map Body.ofString)) := by
    unfold t s n
    cbv
  have hwork : t.grammar.SharesFront n := by
    rw [sharesFront_iff (hs.apply _).wellFormed.nodup_order hbodies]
    decide +kernel
  exact ⟨hs, hstopped, hwork, factoring_out_of_rounds hs hstopped⟩

/-- Twelve rounds are permitted and twelve are needed here. The last of them leaves `A` with one
alternative, and the factoring of `A` is given up although it is finished. -/
theorem factoring_out_of_rounds_finished :
    let s := withLines ["S->Ay", "S->b", "S->&", "A->Sbcp", "A->Sbcqp", "A->Sbcqqp", "A->Sbcqqq",
      "A->bcpr", "A->bcprr", "A->bcprrr", "A->bcprrrr", "A->bcprrrrr"]
    let n : NonTerminal := ⟨'A', 0, rfl⟩
    let t := (s.apply (.normalizeWithin 12)).1
    s.Reachable ∧ s.grammar.order ≠ [] ∧
      (s.apply (.normalizeWithin 12)).2 = some (.limitExceeded ⟨.factoring, n⟩) ∧
      t.grammar.bodies? n = some (OrderedSet.ofList [Body.ofString "bA'''''''''''''"]) ∧
      ¬ t.grammar.SharesFront n := by
  intro s n t
  have hs : s.Reachable := reachable_withLines _
  have horder : s.grammar.order ≠ [] := by
    unfold s
    decide +kernel
  have hstopped : (s.apply (.normalizeWithin 12)).2 = some (.limitExceeded ⟨.factoring, n⟩) := by
    unfold s n
    cbv
  have hbodies :
      t.grammar.bodies? n = some (OrderedSet.ofList [Body.ofString "bA'''''''''''''"]) := by
    unfold t s n
    cbv
  refine ⟨hs, horder, hstopped, hbodies, ?_⟩
  rw [sharesFront_iff (hs.apply _).wellFormed.nodup_order hbodies, not_not]
  decide +kernel

end Session

end PredictiveParsing
