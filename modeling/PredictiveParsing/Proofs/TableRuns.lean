/-
Module: PredictiveParsing.Proofs.TableRuns
Layer: Proofs
Purpose: A parse as a relation. The parser collects the rows of its record backwards; here the
  record of a parse is built from that of the parse after its first step, and there is one case for
  each kind of step. What the record looks like and what the steps amount to is proved by
  induction on this relation.
Imports: PredictiveParsing.Recognition.Basic
Main exports: Trace.predictions, Table.Stuck, Table.Runs, Table.runs_run, Table.Runs.accepted_iff,
  Table.Runs.exists_last
Open obligations: none
-/
import PredictiveParsing.Recognition.Basic

namespace PredictiveParsing

/-- The production that a step applies, if it is a prediction. -/
def Action.prediction? : Action → Option (NonTerminal × Body)
  | .predict n p => some (n, p)
  | .shift => none
  | .reject => none

namespace Trace

/-- The productions that a parse applies, in order. -/
def predictions (trace : Trace) : List (NonTerminal × Body) :=
  trace.rows.filterMap fun row => row.action.prediction?

/-- The record with one more row in front. -/
def after (row : TraceStep) (trace : Trace) : Trace := { trace with rows := row :: trace.rows }

@[simp]
theorem rows_after (row : TraceStep) (trace : Trace) : (trace.after row).rows = row :: trace.rows :=
  rfl

@[simp]
theorem accepted_after (row : TraceStep) (trace : Trace) :
    (trace.after row).accepted = trace.accepted := rfl

@[simp]
theorem predictions_after_shift (stack : List Symbol) (input : List Char) (trace : Trace) :
    (trace.after ⟨stack, input, .shift⟩).predictions = trace.predictions := rfl

@[simp]
theorem predictions_after_predict (stack : List Symbol) (input : List Char) (n : NonTerminal)
    (p : Body) (trace : Trace) :
    (trace.after ⟨stack, input, .predict n p⟩).predictions = (n, p) :: trace.predictions := rfl

end Trace

namespace Table

/-- There is neither a step to make nor an end to accept. -/
def Stuck (table : Table) (patience : Nat) : List Symbol → List Char → Prop
  | [], input => input ≠ []
  | .terminal c :: _, input => input.head? ≠ some c
  | .nonTerminal n :: _, input => patience = 0 ∨ (input.head?.bind fun c => table.entry? n c) = none

/-- A parse from a given stack and input leaves this record. -/
inductive Runs (table : Table) (limit : Nat) : Nat → List Symbol → List Char → Trace → Prop where
  | accept (patience : Nat) : Runs table limit patience [] [] ⟨[], true⟩
  | shift {patience : Nat} {c : Char} {below : List Symbol} {later : List Char} {trace : Trace}
      (h : Runs table limit limit below later trace) :
      Runs table limit patience (.terminal c :: below) (c :: later)
        (trace.after ⟨.terminal c :: below, c :: later, .shift⟩)
  | predict {left : Nat} {n : NonTerminal} {c : Char} {p : Body} {below : List Symbol}
      {later : List Char} {trace : Trace} (hentry : table.entry? n c = some p)
      (h : Runs table limit left (p ++ below) (c :: later) trace) :
      Runs table limit (left + 1) (.nonTerminal n :: below) (c :: later)
        (trace.after ⟨.nonTerminal n :: below, c :: later, .predict n p⟩)
  | reject {patience : Nat} {stack : List Symbol} {input : List Char}
      (h : table.Stuck patience stack input) :
      Runs table limit patience stack input ⟨[⟨stack, input, .reject⟩], false⟩

variable {table : Table} {limit : Nat}

/-- The parser leaves such a record behind the rows that it had already. -/
theorem exists_runs (table : Table) (limit patience : Nat) (stack : List Symbol) (input : List Char)
    (past : List TraceStep) : ∃ trace, table.Runs limit patience stack input trace ∧
      table.run limit patience stack input past =
        ⟨past.reverse ++ trace.rows, trace.accepted⟩ := by
  fun_induction table.run limit patience stack input past with
  | case1 patience past => exact ⟨_, .accept patience, by simp⟩
  | case2 patience past c rest => exact ⟨_, .reject (by simp [Stuck]), by simp⟩
  | case3 patience past c below later ih =>
      obtain ⟨trace, hruns, heq⟩ := ih
      exact ⟨_, .shift hruns, by simp [heq]⟩
  | case4 patience past c below d later hne =>
      refine ⟨_, .reject ?_, by simp⟩
      simpa [Stuck, eq_comm] using hne
  | case5 past n below d later left p hentry ih =>
      obtain ⟨trace, hruns, heq⟩ := ih
      exact ⟨_, .predict hentry hruns, by simp [heq]⟩
  | case6 patience past n below d later hnot =>
      refine ⟨_, .reject ?_, by simp⟩
      cases patience with
      | zero => exact Or.inl rfl
      | succ left =>
          right
          cases hentry : table.entry? n d with
          | none => exact hentry
          | some p => exact (hnot left p rfl hentry).elim
  | case7 patience past s below =>
      refine ⟨_, .reject ?_, by simp⟩
      cases s with
      | terminal c => simp [Stuck]
      | nonTerminal n => exact Or.inr rfl

theorem runs_run (patience : Nat) (stack : List Symbol) (input : List Char) :
    table.Runs limit patience stack input (table.run limit patience stack input []) := by
  obtain ⟨trace, hruns, heq⟩ := exists_runs table limit patience stack input []
  rw [heq]
  exact hruns

namespace Runs

variable {patience : Nat} {stack : List Symbol} {input : List Char} {trace : Trace}

/-- A parse is accepted exactly if no row says otherwise. -/
theorem accepted_iff (h : table.Runs limit patience stack input trace) :
    trace.accepted = true ↔ ∀ row ∈ trace.rows, row.action ≠ .reject := by
  induction h with
  | accept => simp
  | shift _ ih => simpa using ih
  | predict _ _ ih => simpa using ih
  | reject => simp

/-- A rejected parse ends in a row that says so, and no row before it does. -/
theorem exists_last (h : table.Runs limit patience stack input trace)
    (hrejected : trace.accepted = false) :
    ∃ rows last, trace.rows = rows ++ [last] ∧ last.action = .reject ∧
      ∀ row ∈ rows, row.action ≠ .reject := by
  have hcons : ∀ {row : TraceStep} {trace : Trace}, row.action ≠ .reject →
      (∃ rows last, trace.rows = rows ++ [last] ∧ last.action = .reject ∧
        ∀ row ∈ rows, row.action ≠ .reject) →
      ∃ rows last, (trace.after row).rows = rows ++ [last] ∧ last.action = .reject ∧
        ∀ row ∈ rows, row.action ≠ .reject := by
    intro row trace hrow hrest
    obtain ⟨rows, last, hrows, hlast, hothers⟩ := hrest
    exact ⟨row :: rows, last, by simp [hrows], hlast, by simpa using ⟨hrow, hothers⟩⟩
  induction h with
  | accept => cases hrejected
  | shift _ ih => exact hcons (by simp) (ih hrejected)
  | predict _ _ ih => exact hcons (by simp) (ih hrejected)
  | reject => exact ⟨[], _, rfl, rfl, by simp⟩

/-- Where a shift is possible the parse shifts. -/
theorem exists_after_shift {c : Char} {below : List Symbol} {later : List Char}
    (h : table.Runs limit patience (.terminal c :: below) (c :: later) trace) :
    ∃ rest, trace = rest.after ⟨.terminal c :: below, c :: later, .shift⟩ ∧
      table.Runs limit limit below later rest := by
  cases h with
  | shift hrest => exact ⟨_, rfl, hrest⟩
  | reject hstuck => exact absurd rfl hstuck

/-- Where the table has an entry, and there is patience left, the parse predicts that entry. -/
theorem exists_after_predict {left : Nat} {n : NonTerminal} {c : Char} {p : Body}
    {below : List Symbol} {later : List Char} (hentry : table.entry? n c = some p)
    (h : table.Runs limit (left + 1) (.nonTerminal n :: below) (c :: later) trace) :
    ∃ rest, trace = rest.after ⟨.nonTerminal n :: below, c :: later, .predict n p⟩ ∧
      table.Runs limit left (p ++ below) (c :: later) rest := by
  cases h with
  | predict hother hrest =>
      cases hentry.symm.trans hother
      exact ⟨_, rfl, hrest⟩
  | reject hstuck =>
      rcases hstuck with hzero | hnone
      · cases hzero
      · cases hentry.symm.trans hnone

theorem eq_of_nil (h : table.Runs limit patience [] [] trace) : trace = ⟨[], true⟩ := by
  cases h with
  | accept => rfl
  | reject hstuck => exact absurd rfl hstuck

end Runs

end Table

end PredictiveParsing
