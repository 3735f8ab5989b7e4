/-
Module: PredictiveParsing.Proofs.TableExactness
Layer: Proofs
Purpose: What a session knows after its table was computed. The table and the list of its conflicts
  say nothing but which alternatives can come next where, according to the lookahead sets at hand,
  whether these are those of the grammar or out of date.
Imports: Mathlib, PredictiveParsing.Proofs.FollowSets, PredictiveParsing.Proofs.PredictionTable
Main exports: Grammar.conflicts_table_eq_nil_iff_comesNext, Session.conflicts_computeTable_exact
Open obligations: none
-/
import Mathlib
import PredictiveParsing.Proofs.FollowSets
import PredictiveParsing.Proofs.PredictionTable

namespace PredictiveParsing

namespace Grammar

/-- A table has no conflicts exactly if no character can come next for two alternatives of a
nonterminal. -/
theorem conflicts_table_eq_nil_iff_comesNext {g : Grammar} {lookahead : Lookahead}
    (h : g.order.Nodup) :
    (g.table lookahead).conflicts = [] ↔
      ∀ n p q, g.Produces n p → g.Produces n q → p ≠ q →
        ∀ c, ¬ (ComesNext lookahead.first p (lookahead.follow.charsOf n) c ∧
          ComesNext lookahead.first q (lookahead.follow.charsOf n) c) := by
  rw [conflicts_table_eq_nil_iff h]
  simp only [mem_predict_iff]

end Grammar

namespace Session

open Grammar

/-- Computing a table from the lookahead sets at hand, whatever they are. The claims to the cell of
a nonterminal and a character are made by the alternatives for which the character can come next, in
their order. The last of them stands in the cell, none if there is none, and the conflicts of the
cell are the replacements of each claim by the next. So there are no conflicts exactly if no
character can come next for two alternatives of a nonterminal. -/
theorem conflicts_computeTable_exact {s : Session} (hs : s.Reachable) :
    let g := s.grammar
    let first := s.lookahead.first
    let follow := s.lookahead.follow
    let table := (s.apply .computeTable).1.table
    (∀ n ∈ g.order, ∃ bodies, g.bodies? n = some bodies ∧ ∀ c,
      let claims := bodies.toList.filter fun p => ComesNext first p (follow.charsOf n) c
      table.entry? n c = claims.getLast? ∧
      table.conflicts.filter (fun k => k.nonTerminal = n ∧ k.terminal = c) =
        List.zipWith (fun p q => ⟨n, c, p, q⟩) claims claims.tail) ∧
    (table.conflicts = [] ↔
      ∀ n p q, g.Produces n p → g.Produces n q → p ≠ q →
        ∀ c, ¬ (ComesNext first p (follow.charsOf n) c ∧
          ComesNext first q (follow.charsOf n) c)) := by
  intro g first follow table
  have hnodup : g.order.Nodup := hs.wellFormed.nodup_order
  refine ⟨?_, conflicts_table_eq_nil_iff_comesNext hnodup⟩
  intro n hn
  obtain ⟨bodies, hbodies⟩ := exists_bodies_of_mem_order hn
  refine ⟨bodies, hbodies, fun c => ?_⟩
  intro claims
  have hclaims : Table.claimants s.lookahead n c bodies.toList = claims := by
    apply List.filter_congr
    intro p _
    rw [decide_eq_decide]
    exact mem_predict_iff
  have hclaimsNodup : claims.Nodup := bodies.nodup.filter _
  have hentry : table.entry? n c = _ := entry?_table hnodup n c
  have hconflicts : table.conflicts.filter (fun k => k.nonTerminal = n ∧ k.terminal = c) = _ :=
    filter_conflicts_table hnodup hbodies c
  rw [hbodies, Option.bind_some, hclaims] at hentry
  rw [hclaims, Table.replacements_eq_zipWith hclaimsNodup] at hconflicts
  exact ⟨hentry, hconflicts⟩

/-- Three alternatives with the same first character, one of which can also vanish: the last one
stands in the cell, and both replacements are recorded. -/
theorem conflicts_computeTable_exact_threefold :
    let s := ((withLines ["S->aS", "S->aT", "S->U", "T->b", "U->a", "U->"]).apply
      .computeLookahead).1
    let start : NonTerminal := ⟨'S', 0, rfl⟩
    let again : Body := [.terminal 'a', .nonTerminal start]
    let change : Body := [.terminal 'a', .nonTerminal ⟨'T', 0, rfl⟩]
    let leave : Body := [.nonTerminal ⟨'U', 0, rfl⟩]
    let table := (s.apply .computeTable).1.table
    s.Reachable ∧ start ∈ s.grammar.order ∧ table.entry? start 'a' = some leave ∧
      table.conflicts.filter (fun k => k.nonTerminal = start ∧ k.terminal = 'a') =
        [⟨start, 'a', again, change⟩, ⟨start, 'a', change, leave⟩] ∧
      ∃ n p q c, s.grammar.Produces n p ∧ s.grammar.Produces n q ∧ p ≠ q ∧
        ComesNext s.lookahead.first p (s.lookahead.follow.charsOf n) c ∧
        ComesNext s.lookahead.first q (s.lookahead.follow.charsOf n) c := by
  intro s start again change leave table
  have hs : s.Reachable := (reachable_withLines _).apply _
  have hstart : start ∈ s.grammar.order := by decide +kernel
  obtain ⟨hcells, hnone⟩ := conflicts_computeTable_exact hs
  obtain ⟨bodies, hbodies, hcell⟩ := hcells start hstart
  have hsome : s.grammar.bodies? start = some (.ofList [again, change, leave]) := by
    decide +kernel
  cases hbodies.symm.trans hsome
  obtain ⟨hentry, hconflicts⟩ := hcell 'a'
  have hclaims : (OrderedSet.ofList [again, change, leave]).toList.filter (fun p =>
      decide (ComesNext s.lookahead.first p (s.lookahead.follow.charsOf start) 'a')) =
        [again, change, leave] := by
    unfold s again change leave start
    cbv
  have hentry' : table.entry? start 'a' = some leave := by
    rw [hentry, hclaims]
    rfl
  have hconflicts' : table.conflicts.filter (fun k => k.nonTerminal = start ∧ k.terminal = 'a') =
      [⟨start, 'a', again, change⟩, ⟨start, 'a', change, leave⟩] := by
    rw [hconflicts, hclaims]
    rfl
  refine ⟨hs, hstart, hentry', hconflicts', ?_⟩
  by_contra hdisjoint
  have hempty : table.conflicts = [] := by
    apply hnone.2
    intro n p q hp hq hne c hboth
    exact hdisjoint ⟨n, p, q, c, hp, hq, hne, hboth⟩
  rw [hempty] at hconflicts'
  cases hconflicts'

end Session

end PredictiveParsing
