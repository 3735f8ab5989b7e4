/-
Module: PredictiveParsing.Proofs.RecognitionSoundness
Layer: Proofs
Purpose: Parsing accepts only strings that the grammar generates. The characters already shifted
  and the stack together are a left sentential form, and every prediction is a step of a leftmost
  derivation, whatever the table holds beyond productions of the grammar.
Imports: Mathlib, PredictiveParsing.Proofs.LeftmostDerivation,
  PredictiveParsing.Proofs.PredictionTable, PredictiveParsing.Proofs.TableRuns
Main exports: Table.Runs.unfolds, Session.recognize_sound
Open obligations: none
-/
import Mathlib
import PredictiveParsing.Proofs.LeftmostDerivation
import PredictiveParsing.Proofs.PredictionTable
import PredictiveParsing.Proofs.TableRuns

namespace PredictiveParsing

/-- An accepted parse unfolds its stack to its input, with its predictions as the steps. -/
theorem Table.Runs.unfolds {g : Grammar} {table : Table}
    (hsound : ∀ {n c p}, table.entry? n c = some p → g.Produces n p) {limit patience : Nat}
    {stack : List Symbol} {input : List Char} {trace : Trace}
    (h : table.Runs limit patience stack input trace) (haccepted : trace.accepted = true)
    (front : List Char) :
    ∃ steps, g.Unfolds front stack steps input ∧
      steps.map LeftmostStep.production = trace.predictions := by
  induction h generalizing front with
  | accept => exact ⟨[], .nil front, rfl⟩
  | @shift _ c _ _ _ _ ih =>
      obtain ⟨steps, hsteps, hproductions⟩ := ih haccepted (front ++ [c])
      exact ⟨steps, .shift hsteps, hproductions⟩
  | @predict _ n c p _ _ _ hentry _ ih =>
      obtain ⟨steps, hsteps, hproductions⟩ := ih haccepted front
      refine ⟨⟨front, n, p⟩ :: steps, .predict (hsound hentry) hsteps, ?_⟩
      rw [List.map_cons, hproductions]
      rfl
  | reject => cases haccepted

namespace Session

/-- The record of parsing a string with a table that was just computed. If the string is accepted,
the predictions are the steps of a leftmost derivation of it from the start symbol. It is accepted
exactly if no row rejects it, and otherwise just the last row does. -/
theorem recognize_sound {s : Session} (hs : s.Reachable) {start : NonTerminal}
    (hstart : s.grammar.start? = some start) (input : String) :
    let trace := (s.apply .computeTable).1.recognize input
    (trace.accepted = true →
      ∃ steps, s.grammar.LeftmostDerivation [.nonTerminal start] steps (word input.toList) ∧
        steps.map LeftmostStep.production = trace.predictions) ∧
    (trace.accepted = true ↔ ∀ row ∈ trace.rows, row.action ≠ .reject) ∧
    (trace.accepted = false →
      ∃ rows last, trace.rows = rows ++ [last] ∧ last.action = .reject ∧
        ∀ row ∈ rows, row.action ≠ .reject) := by
  intro trace
  have hruns : (s.grammar.table s.lookahead).Runs workLimit workLimit
      [.nonTerminal start, .terminal endMark] (input.toList ++ [endMark]) trace := by
    have hrun : trace = (s.grammar.table s.lookahead).recognize s.grammar.start? input := rfl
    rw [hrun, hstart]
    exact Table.runs_run _ _ _
  refine ⟨?_, hruns.accepted_iff, hruns.exists_last⟩
  intro haccepted
  obtain ⟨steps, hsteps, hproductions⟩ :=
    hruns.unfolds (Grammar.produces_of_entry hs.wellFormed.nodup_order) haccepted []
  -- The end mark below the start symbol is the one behind the input, even if the input has others.
  have hstack : s.grammar.Unfolds [] ([.nonTerminal start] ++ [.terminal endMark]) steps
      (input.toList ++ [endMark]) := hsteps
  obtain ⟨w, hw, hunfolds⟩ := Grammar.unfolds_append_terminal_iff.1 hstack
  cases List.append_cancel_right hw
  exact ⟨steps, hunfolds.leftmostDerivation, hproductions⟩

/-- Balanced parentheses: `()` is accepted and so has a leftmost derivation. -/
theorem recognize_sound_parentheses :
    let s := ((withLines ["S->(S)S", "S->"]).apply .computeLookahead).1
    let start : NonTerminal := ⟨'S', 0, rfl⟩
    let trace := (s.apply .computeTable).1.recognize "()"
    s.Reachable ∧ s.grammar.start? = some start ∧ trace.accepted = true ∧
      ∃ steps, s.grammar.LeftmostDerivation [.nonTerminal start] steps (word ['(', ')']) ∧
        steps.map LeftmostStep.production = trace.predictions := by
  intro s start trace
  have hs : s.Reachable := (reachable_withLines _).apply _
  have hstart : s.grammar.start? = some start := by decide +kernel
  have haccepted : trace.accepted = true := by
    unfold trace s
    cbv
  exact ⟨hs, hstart, haccepted, (recognize_sound hs hstart "()").1 haccepted⟩

end Session

end PredictiveParsing
