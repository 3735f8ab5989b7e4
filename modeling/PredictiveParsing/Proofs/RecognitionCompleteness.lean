/-
Module: PredictiveParsing.Proofs.RecognitionCompleteness
Layer: Proofs
Purpose: Parsing with a table without conflicts follows every leftmost derivation. Whatever the
  stack unfolds to begins in accordance with the FIRST and FOLLOW sets, so the body that a
  derivation uses is predicted by the next character, and without conflicts it is what the table
  holds. Hence there is only one leftmost derivation of a string, and the parser finds it unless it
  runs out of patience.
Imports: Mathlib, PredictiveParsing.Proofs.FollowSets, PredictiveParsing.Proofs.LeftmostDerivation,
  PredictiveParsing.Proofs.PredictionTable, PredictiveParsing.Proofs.TableRuns
Main exports: AtMostInRow, Grammar.Predicts, Grammar.Predicts.accepted_of_runs,
  Grammar.Predicts.steps_unique, Session.recognize_complete
Open obligations: none
-/
import Mathlib
import PredictiveParsing.Proofs.FollowSets
import PredictiveParsing.Proofs.LeftmostDerivation
import PredictiveParsing.Proofs.PredictionTable
import PredictiveParsing.Proofs.TableRuns

namespace PredictiveParsing

/-- No more than `limit` steps are made in a row before another terminal reaches the front. The
terminals in front only grow, so steps with the same front follow each other. -/
def AtMostInRow (limit : Nat) (steps : List LeftmostStep) : Prop :=
  ∀ front, (steps.filter (·.front = front)).length ≤ limit

theorem AtMostInRow.tail {limit : Nat} {step : LeftmostStep} {steps : List LeftmostStep}
    (h : AtMostInRow limit (step :: steps)) : AtMostInRow limit steps := by
  intro front
  refine Nat.le_trans ?_ (h front)
  exact ((List.sublist_cons_self step steps).filter _).length_le

namespace Grammar

/-- The lookahead sets miss nothing, and the table holds every body wherever they predict it. -/
structure Predicts (g : Grammar) (lookahead : Lookahead) (table : Table) : Prop where
  firstClosed : g.FirstClosed lookahead.first
  followClosed : g.FollowClosed lookahead.first lookahead.follow
  entry?_eq : ∀ {n p c}, g.Produces n p → c ∈ lookahead.predict n p → table.entry? n c = some p

variable {g : Grammar} {lookahead : Lookahead} {table : Table}

theorem Covers.tail {first follow : CharSets} {s : Symbol} {rest : List Symbol}
    (h : Covers first follow (s :: rest)) : Covers first follow rest := by
  intro u m v heq
  exact h (s :: u) m v (by rw [heq]; rfl)

namespace Predicts

/-- The body that an unfolding uses stands in the table under the next character. -/
theorem entry?_of_unfolds (h : g.Predicts lookahead table) {n : NonTerminal} {p : Body}
    {below : List Symbol} (hp : g.Produces n p)
    (hcovers : Covers lookahead.first lookahead.follow (.nonTerminal n :: below))
    {front : List Char} {steps : List LeftmostStep} {c : Char} {later : List Char}
    (hc : c ≠ emptyMark) (hunfolds : g.Unfolds front (p ++ below) steps (c :: later)) :
    table.entry? n c = some p := by
  have hbegins : c ∈ firstOf lookahead.first (p ++ below) := by
    apply h.firstClosed.mem_firstOf_of_derives hunfolds.derives
    exact mem_firstOf_cons.2 (Or.inl ⟨OrderedSet.mem_singleton.2 rfl, hc⟩)
  apply h.entry?_eq hp
  rw [mem_predict_iff]
  rcases mem_firstOf_append.1 hbegins with hbody | ⟨hvanish, hbelow⟩
  · exact Or.inl hbody
  · exact Or.inr ⟨hvanish, hcovers [] n below rfl c hbelow hc⟩

/-- Predicting a body keeps the stack, whatever is below it, covered by the FOLLOW sets. -/
theorem covers_append (h : g.Predicts lookahead table) {n : NonTerminal} {p : Body}
    {stack below : List Symbol} (hp : g.Produces n p)
    (hcovers : Covers lookahead.first lookahead.follow (.nonTerminal n :: (stack ++ below))) :
    Covers lookahead.first lookahead.follow (p ++ stack ++ below) := by
  apply h.followClosed.covers_of_step h.firstClosed _ hcovers
  simpa [List.append_assoc] using Step.expand [] (stack ++ below) hp

/-- With the end mark below the stack and behind the string there is always a next character. -/
theorem entry?_of_unfolds_endMark (h : g.Predicts lookahead table) {n : NonTerminal} {p : Body}
    {below : List Symbol} (hp : g.Produces n p)
    (hcovers : Covers lookahead.first lookahead.follow
      (.nonTerminal n :: (below ++ [.terminal endMark])))
    {front : List Char} {steps : List LeftmostStep} {w : List Char} (hw : emptyMark ∉ w)
    (hunfolds : g.Unfolds front (p ++ below) steps w) :
    ∃ c later, w ++ [endMark] = c :: later ∧ table.entry? n c = some p := by
  have hend : g.Unfolds front (p ++ (below ++ [.terminal endMark])) steps (w ++ [endMark]) := by
    rw [← List.append_assoc]
    exact unfolds_append_terminal_iff.2 ⟨w, rfl, hunfolds⟩
  cases w with
  | nil => exact ⟨endMark, [], rfl, h.entry?_of_unfolds hp hcovers (by decide) hend⟩
  | cons c later =>
      refine ⟨c, later ++ [endMark], rfl, h.entry?_of_unfolds hp hcovers ?_ hend⟩
      intro heq
      exact hw (heq ▸ List.mem_cons_self)

/-- A parse follows every unfolding of its stack, if it has patience enough. -/
theorem accepted_of_runs (h : g.Predicts lookahead table) {limit : Nat} {front : List Char}
    {stack : List Symbol} {steps : List LeftmostStep} {w : List Char}
    (hunfolds : g.Unfolds front stack steps w)
    (hcovers : Covers lookahead.first lookahead.follow (stack ++ [.terminal endMark]))
    (hw : emptyMark ∉ w) (hsteps : AtMostInRow limit steps) {patience : Nat}
    (hpatience : (steps.filter (·.front = front)).length ≤ patience) {trace : Trace}
    (hruns : table.Runs limit patience (stack ++ [.terminal endMark]) (w ++ [endMark]) trace) :
    trace.accepted = true ∧ trace.predictions = steps.map LeftmostStep.production := by
  induction hunfolds generalizing patience trace with
  | nil front =>
      have hend : table.Runs limit patience [.terminal endMark] [endMark] trace := hruns
      obtain ⟨rest, rfl, hrest⟩ := hend.exists_after_shift
      cases hrest.eq_of_nil
      exact ⟨rfl, rfl⟩
  | @shift front c below steps later _ ih =>
      rw [List.cons_append] at hcovers hruns
      rw [List.cons_append] at hruns
      obtain ⟨rest, rfl, hrest⟩ := hruns.exists_after_shift
      have hlater : emptyMark ∉ later := fun hmem => hw (List.mem_cons_of_mem _ hmem)
      have hboth := ih hcovers.tail hlater hsteps (hsteps (front ++ [c])) hrest
      exact hboth
  | @predict front n p below steps w hp hunfolds ih =>
      rw [List.cons_append] at hcovers hruns
      obtain ⟨c, later, hinput, hentry⟩ := h.entry?_of_unfolds_endMark hp hcovers hw hunfolds
      -- This step is one of those that the patience covers, so some patience is left.
      rw [List.filter_cons_of_pos (by simp), List.length_cons] at hpatience
      obtain ⟨left, rfl⟩ : ∃ left, patience = left + 1 := ⟨patience - 1, by omega⟩
      rw [hinput] at hruns
      obtain ⟨rest, rfl, hrest⟩ := hruns.exists_after_predict hentry
      rw [← hinput, ← List.append_assoc] at hrest
      obtain ⟨haccepted, hpredictions⟩ :=
        ih (h.covers_append hp hcovers) hw hsteps.tail (Nat.le_of_succ_le_succ hpatience) hrest
      refine ⟨haccepted, ?_⟩
      rw [Trace.predictions_after_predict, hpredictions]
      rfl

/-- What a stack unfolds to leaves no choice in how it does so. -/
theorem steps_unique (h : g.Predicts lookahead table) {front : List Char} {stack : List Symbol}
    {steps steps' : List LeftmostStep} {w : List Char} (hunfolds : g.Unfolds front stack steps w)
    (hunfolds' : g.Unfolds front stack steps' w)
    (hcovers : Covers lookahead.first lookahead.follow (stack ++ [.terminal endMark]))
    (hw : emptyMark ∉ w) : steps = steps' := by
  induction hunfolds generalizing steps' with
  | nil =>
      cases hunfolds'
      rfl
  | shift _ ih =>
      cases hunfolds' with
      | shift hrest =>
          rw [List.cons_append] at hcovers
          exact ih hrest hcovers.tail fun hmem => hw (List.mem_cons_of_mem _ hmem)
  | @predict front n p below steps w hp hunfolds ih =>
      cases hunfolds' with
      | @predict _ _ p' _ steps' _ hp' hrest =>
          rw [List.cons_append] at hcovers
          obtain ⟨c, later, hinput, hentry⟩ := h.entry?_of_unfolds_endMark hp hcovers hw hunfolds
          obtain ⟨c', later', hinput', hentry'⟩ :=
            h.entry?_of_unfolds_endMark hp' hcovers hw hrest
          -- Both bodies stand in the cell of the same next character.
          cases hinput.symm.trans hinput'
          cases hentry.symm.trans hentry'
          rw [ih hrest (h.covers_append hp hcovers) hw]

end Predicts

end Grammar

namespace Session

open Grammar

/-- If the table computed for a grammar has no conflicts, every leftmost derivation of a string from
the start symbol is followed, provided that it makes no more steps in a row than a parse is patient
for: the string is accepted, and the predictions are the productions that the derivation applies.
Whatever the number of steps, no string has two leftmost derivations. -/
theorem recognize_complete {s : Session} (hs : s.Reachable) {start : NonTerminal}
    (hstart : s.grammar.start? = some start)
    (hnone : ((s.apply .computeLookahead).1.apply .computeTable).1.table.conflicts = []) :
    (∀ (input : String) (steps : List LeftmostStep),
      s.grammar.LeftmostDerivation [.nonTerminal start] steps (word input.toList) →
      AtMostInRow workLimit steps →
      let trace := ((s.apply .computeLookahead).1.apply .computeTable).1.recognize input
      trace.accepted = true ∧ trace.predictions = steps.map LeftmostStep.production) ∧
    (∀ (w : List Char) (steps steps' : List LeftmostStep),
      s.grammar.LeftmostDerivation [.nonTerminal start] steps (word w) →
      s.grammar.LeftmostDerivation [.nonTerminal start] steps' (word w) → steps = steps') := by
  have hg : s.grammar.WellFormed := hs.wellFormed
  have hnone' : (s.grammar.table s.grammar.lookahead).conflicts = [] := hnone
  have hpredicts : s.grammar.Predicts s.grammar.lookahead (s.grammar.table s.grammar.lookahead) :=
    { firstClosed := firstClosed_firstSets hg
      followClosed := followClosed_followSets hg (firstSound_firstSets hg) hstart
      entry?_eq := fun hp hc => entry?_of_no_conflicts hg.nodup_order hnone' hp hc }
  have hcovers : Covers s.grammar.lookahead.first s.grammar.lookahead.follow
      ([.nonTerminal start] ++ [.terminal endMark]) := covers_start hstart
  -- The characters of a derived string are terminals of the grammar, so the mark is none of them.
  have hmark : ∀ {w : List Char} {steps : List LeftmostStep},
      s.grammar.LeftmostDerivation [.nonTerminal start] steps (word w) → emptyMark ∉ w := by
    intro w steps hder hmem
    rcases hder.derives.mem_or_produces (List.mem_map_of_mem hmem) with hself | ⟨n, p, hp, hbody⟩
    · cases List.mem_singleton.1 hself
    · exact hg.emptyMark_not_mem hp hbody
  refine ⟨?_, ?_⟩
  · intro input steps hder hsteps trace
    have hunfolds : s.grammar.Unfolds [] [.nonTerminal start] steps input.toList :=
      leftmostDerivation_iff_unfolds.1 hder
    have hrun : trace =
        (s.grammar.table s.grammar.lookahead).recognize s.grammar.start? input := rfl
    rw [hrun, hstart]
    exact hpredicts.accepted_of_runs hunfolds hcovers (hmark hder) hsteps (hsteps [])
      (Table.runs_run _ _ _)
  · intro w steps steps' hder hder'
    have hunfolds : s.grammar.Unfolds [] [.nonTerminal start] steps w :=
      leftmostDerivation_iff_unfolds.1 hder
    exact hpredicts.steps_unique hunfolds (leftmostDerivation_iff_unfolds.1 hder') hcovers
      (hmark hder)

/-- Balanced parentheses: the only leftmost derivation of `()` has three steps. -/
theorem recognize_complete_parentheses :
    let s := withLines ["S->(S)S", "S->"]
    let start : NonTerminal := ⟨'S', 0, rfl⟩
    let pair : Body :=
      [.terminal '(', .nonTerminal start, .terminal ')', .nonTerminal start]
    let steps : List LeftmostStep :=
      [⟨[], start, pair⟩, ⟨['('], start, []⟩, ⟨['(', ')'], start, []⟩]
    let t := ((s.apply .computeLookahead).1.apply .computeTable).1
    s.Reachable ∧ s.grammar.start? = some start ∧ t.table.conflicts = [] ∧
      s.grammar.LeftmostDerivation [.nonTerminal start] steps (word ['(', ')']) ∧
      AtMostInRow workLimit steps ∧ (t.recognize "()").accepted = true ∧
      (t.recognize "()").predictions = [(start, pair), (start, []), (start, [])] ∧
      ∀ steps', s.grammar.LeftmostDerivation [.nonTerminal start] steps' (word ['(', ')']) →
        steps' = steps := by
  intro s start pair steps t
  have hs : s.Reachable := reachable_withLines _
  have hstart : s.grammar.start? = some start := by decide +kernel
  have hnone : t.table.conflicts = [] := by
    unfold t s
    cbv
  have hbodies : s.grammar.bodies? start = some (.ofList [pair, []]) := by decide +kernel
  have hproduces : ∀ p, p ∈ [pair, []] → s.grammar.Produces start p := fun p hp =>
    (produces_iff_of_bodies? hs.wellFormed.nodup_order hbodies).2 (OrderedSet.mem_ofList.2 hp)
  have hpair : s.grammar.Produces start pair := hproduces pair (by simp)
  have hnil : s.grammar.Produces start [] := hproduces [] (by simp)
  have hunfolds : s.grammar.Unfolds [] [.nonTerminal start] steps ['(', ')'] :=
    .predict hpair (.shift (.predict hnil (.shift (.predict hnil (.nil _)))))
  have hder : s.grammar.LeftmostDerivation [.nonTerminal start] steps (word ['(', ')']) :=
    hunfolds.leftmostDerivation
  have hsteps : AtMostInRow workLimit steps := fun front =>
    Nat.le_trans (List.length_filter_le _ _) (by decide)
  obtain ⟨hfollows, hunique⟩ := recognize_complete hs hstart hnone
  obtain ⟨haccepted, hpredictions⟩ := hfollows "()" steps hder hsteps
  exact ⟨hs, hstart, hnone, hder, hsteps, haccepted, hpredictions,
    fun steps' hder' => hunique _ _ _ hder' hder⟩

end Session

end PredictiveParsing
