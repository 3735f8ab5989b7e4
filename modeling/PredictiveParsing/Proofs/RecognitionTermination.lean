/-
Module: PredictiveParsing.Proofs.RecognitionTermination
Layer: Proofs
Purpose: Every parse comes to an end, whatever stands in the table. A shift takes a character away
  and gives the parser its patience back, a prediction takes away patience and leaves the input as
  it is; so the rows are bounded by the input and the limit together, although the stack may grow
  without bound. How far the parser has come in the input is the number of its shifts, which never
  exceeds the length of the input, even where an end mark is shifted before its time.
Imports: Mathlib, PredictiveParsing.Proofs.TableRuns, PredictiveParsing.Session
Main exports: Trace.shifts, TraceStep.Continues, Table.Runs.length_rows_le,
  Table.Runs.input_eq_drop, Table.Runs.isChain_rows, Session.recognize_terminates
Open obligations: none
-/
import Mathlib
import PredictiveParsing.Proofs.TableRuns
import PredictiveParsing.Session

namespace PredictiveParsing

/-- The number of rows that shift a character. -/
def Trace.shifts (rows : List TraceStep) : Nat := rows.countP (·.action = .shift)

namespace Trace

@[simp]
theorem shifts_nil : shifts [] = 0 := rfl

@[simp]
theorem shifts_cons_shift (stack : List Symbol) (input : List Char) (rows : List TraceStep) :
    shifts (⟨stack, input, .shift⟩ :: rows) = shifts rows + 1 := by
  simp [shifts]

theorem shifts_cons_of_ne {row : TraceStep} (h : row.action ≠ .shift) (rows : List TraceStep) :
    shifts (row :: rows) = shifts rows := by
  simp [shifts, h]

end Trace

/-- How the input of a row goes on in the next one: it stays the same after a prediction and loses
its first character after a shift. Behind a row that rejects there is no other one. -/
inductive TraceStep.Continues (row next : TraceStep) : Prop where
  | predict {n : NonTerminal} {p : Body} (haction : row.action = .predict n p)
      (hinput : next.input = row.input) : Continues row next
  | shift {c : Char} (haction : row.action = .shift) (hinput : row.input = c :: next.input) :
      Continues row next

namespace Table.Runs

variable {table : Table} {limit patience : Nat} {stack : List Symbol} {input : List Char}
  {trace : Trace}

/-- Without a character before it, the parser stops at once. -/
theorem length_rows_le_one (h : table.Runs limit patience stack [] trace) :
    trace.rows.length ≤ 1 := by
  cases h with
  | accept => exact Nat.zero_le 1
  | reject => exact Nat.le_refl 1

/-- Each character of the input pays for its own shift and for the predictions before it, of which
those that the patience no longer allows are already paid. One more row may reject. -/
theorem length_rows_le (h : table.Runs limit patience stack input trace) (hinput : input ≠ []) :
    trace.rows.length + limit ≤ input.length * (limit + 1) + patience + 1 := by
  induction h with
  | accept => exact absurd rfl hinput
  | @shift patience c below later trace hrest ih =>
      rw [Trace.rows_after, List.length_cons, List.length_cons, Nat.succ_mul]
      cases hlater : later with
      | nil =>
          have hone : trace.rows.length ≤ 1 := (hlater ▸ hrest).length_rows_le_one
          omega
      | cons d rest =>
          have hrows := ih (by simp [hlater])
          rw [hlater] at hrows
          omega
  | predict _ _ ih =>
      have hrows := ih hinput
      rw [Trace.rows_after, List.length_cons]
      omega
  | @reject patience stack input _ =>
      have hpos : 0 < input.length := List.length_pos_of_ne_nil hinput
      have hpaid : limit + 1 ≤ input.length * (limit + 1) := Nat.le_mul_of_pos_left _ hpos
      rw [List.length_singleton]
      omega

/-- No more characters are shifted than there are. -/
theorem shifts_le (h : table.Runs limit patience stack input trace) :
    Trace.shifts trace.rows ≤ input.length := by
  induction h with
  | accept => exact Nat.zero_le _
  | shift _ ih =>
      rw [Trace.rows_after, Trace.shifts_cons_shift, List.length_cons]
      exact Nat.succ_le_succ ih
  | predict _ _ ih =>
      rw [Trace.rows_after, Trace.shifts_cons_of_ne (by simp)]
      exact ih
  | reject =>
      rw [Trace.shifts_cons_of_ne (by simp)]
      exact Nat.zero_le _

/-- The first row has the whole input before it. -/
theorem input_of_head? (h : table.Runs limit patience stack input trace) {row : TraceStep}
    (hrow : trace.rows.head? = some row) : row.input = input := by
  cases h with
  | accept => cases hrow
  | shift _ =>
      cases hrow
      rfl
  | predict _ _ =>
      cases hrow
      rfl
  | reject =>
      cases hrow
      rfl

/-- A row has before it what the shifts of the earlier rows have left of the input. -/
theorem input_eq_drop (h : table.Runs limit patience stack input trace)
    {before after : List TraceStep} {row : TraceStep}
    (hrows : trace.rows = before ++ row :: after) :
    row.input = input.drop (Trace.shifts before) := by
  induction before generalizing patience stack input trace with
  | nil =>
      rw [Trace.shifts_nil, List.drop_zero]
      exact h.input_of_head? (by simp [hrows])
  | cons first earlier ih =>
      cases h with
      | accept => cases hrows
      | shift hrest =>
          obtain ⟨rfl, hlater⟩ := List.cons.inj hrows
          rw [Trace.shifts_cons_shift, List.drop_succ_cons]
          exact ih hrest hlater
      | predict _ hrest =>
          obtain ⟨rfl, hlater⟩ := List.cons.inj hrows
          rw [Trace.shifts_cons_of_ne (by simp)]
          exact ih hrest hlater
      | reject => simp at hrows

theorem isChain_rows (h : table.Runs limit patience stack input trace) :
    trace.rows.IsChain TraceStep.Continues := by
  induction h with
  | accept => exact .nil
  | shift hrest ih =>
      refine ih.cons ?_
      intro next hnext
      have hinput := hrest.input_of_head? hnext
      exact .shift rfl (by rw [hinput])
  | predict _ hrest ih =>
      refine ih.cons ?_
      intro next hnext
      exact .predict rfl (hrest.input_of_head? hnext)
  | reject => exact .singleton _

end Table.Runs

namespace Session

/-- Parsing a string comes to an end in every session, also with a table that is out of date or
leads to endless predictions. The rows are bounded by the length of the string; each has before it
what is left of the string and its end mark after the shifts so far, which are never more than there
are characters; and from one row to the next a prediction keeps that rest, and a shift takes its
first character away. -/
theorem recognize_terminates (s : Session) (input : String) :
    let text := input.toList ++ [endMark]
    let trace := s.recognize input
    s.table.Runs workLimit workLimit
        ((s.grammar.start?.map Symbol.nonTerminal).toList ++ [.terminal endMark]) text trace ∧
      trace.rows.length ≤ (input.length + 1) * (workLimit + 1) + 1 ∧
      Trace.shifts trace.rows ≤ text.length ∧
      (∀ before row after, trace.rows = before ++ row :: after →
        row.input = text.drop (Trace.shifts before) ∧ row.input <:+ text) ∧
      trace.rows.IsChain TraceStep.Continues := by
  intro text trace
  have hruns : s.table.Runs workLimit workLimit
      ((s.grammar.start?.map Symbol.nonTerminal).toList ++ [.terminal endMark]) text trace :=
    Table.runs_run _ _ _
  refine ⟨hruns, ?_, hruns.shifts_le, ?_, hruns.isChain_rows⟩
  · have hrows := hruns.length_rows_le (by simp [text])
    have hlength : text.length = input.length + 1 := by simp [text, String.length_toList]
    rw [hlength] at hrows
    omega
  · intro before row after hrows
    have hdrop := hruns.input_eq_drop hrows
    refine ⟨hdrop, ?_⟩
    rw [hdrop]
    exact List.drop_suffix _ _

end Session

end PredictiveParsing
