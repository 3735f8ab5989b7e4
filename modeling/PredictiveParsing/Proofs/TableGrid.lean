/-
Module: PredictiveParsing.Proofs.TableGrid
Layer: Proofs
Purpose: The grid of a table shows all of it. The columns are the terminals that were met while the
  text was read, and the end mark, whereas the cells come from the lookahead sets; but a body is
  predicted only by characters with which derived strings begin or which follow a nonterminal, and
  these are terminals of the grammar or the end mark. Normalization keeps the terminals, and none of
  them is the end mark, because the text was checked.
Imports: Mathlib, PredictiveParsing.Proofs.FollowSets, PredictiveParsing.Proofs.GrammarText,
  PredictiveParsing.Proofs.NormalizationFrame, PredictiveParsing.Proofs.PredictionTable,
  PredictiveParsing.Report.Table
Main exports: Grammar.mem_predict_of_entry, Grammar.mem_columns_of_entry, Table.entry?_of_mem,
  Session.exists_keeps_of_build, Session.exists_valid_of_build, Session.nodup_columns_of_build,
  Session.grid_complete
Open obligations: none
-/
import Mathlib
import PredictiveParsing.Proofs.FollowSets
import PredictiveParsing.Proofs.GrammarText
import PredictiveParsing.Proofs.NormalizationFrame
import PredictiveParsing.Proofs.PredictionTable
import PredictiveParsing.Report.Table

namespace PredictiveParsing

namespace Grammar

variable {g : Grammar} {n : NonTerminal} {c : Char} {p : Body}

/-! ### The columns -/

theorem mem_columns : c ∈ g.columns ↔ c ∈ g.terminals ∨ c = endMark := by
  rw [columns, List.mem_append, List.mem_singleton, OrderedSet.mem_toList]

/-- No column stands twice if the end mark is no terminal. -/
theorem nodup_columns (h : endMark ∉ g.terminals) : g.columns.Nodup := by
  refine List.nodup_append.2 ⟨g.terminals.nodup, List.nodup_singleton _, ?_⟩
  rintro c hc _ hmark rfl
  rw [List.mem_singleton.1 hmark] at hc
  exact h hc

/-- A body is predicted by terminals and the end mark only. -/
theorem mem_columns_of_mem_predict (hg : g.WellFormed) (hp : g.Produces n p)
    (hc : c ∈ g.lookahead.predict n p) : c ∈ g.columns := by
  have hfirst : g.FirstSound g.firstSets := firstSound_firstSets hg
  rcases mem_predict_iff.1 hc with ⟨hfront, hne⟩ | ⟨_, hbehind⟩
  · have hannounced := hfirst.announces_of_mem_firstOf (hg.emptyMark_not_mem hp) hfront
    have hrange := hannounced.mem_range hg fun t ht => (hg.body_met n p hp _ ht).1
    exact mem_columns.2 (Or.inl ((List.mem_cons.1 hrange).resolve_left hne))
  · rcases List.mem_cons.1 ((followWithin_followSets hg hfirst).range n c hbehind) with hmark | hmet
    · exact mem_columns.2 (Or.inr hmark)
    · exact mem_columns.2 (Or.inl hmet)

/-! ### The cells -/

/-- A body stands only in cells where it is predicted. -/
theorem mem_predict_of_entry {lookahead : Lookahead} (h : g.order.Nodup)
    (hentry : Table.entry? (g.table lookahead) n c = some p) : c ∈ lookahead.predict n p := by
  rw [entry?_table h] at hentry
  obtain ⟨bodies, _, hlast⟩ := Option.bind_eq_some_iff.1 hentry
  have hclaim : p ∈ Table.claimants lookahead n c bodies.toList := List.mem_of_getLast? hlast
  exact of_decide_eq_true (List.mem_filter.1 hclaim).2

/-- Every cell that is filled has a row and a column. -/
theorem mem_columns_of_entry (hg : g.WellFormed)
    (hentry : Table.entry? (g.table g.lookahead) n c = some p) : n ∈ g.order ∧ c ∈ g.columns := by
  have hp := produces_of_entry hg.nodup_order hentry
  exact ⟨hp.mem_order,
    mem_columns_of_mem_predict hg hp (mem_predict_of_entry hg.nodup_order hentry)⟩

end Grammar

/-- What is written in a row of the table is what is read from it. -/
theorem Table.entry?_of_mem {table : Table} {n : NonTerminal} {row : Row} {c : Char} {p : Body}
    (hrow : (n, row) ∈ table.rows.toList) (hcell : (c, p) ∈ row.toList) :
    table.entry? n c = some p := by
  rw [Table.entry?, OrderedMap.get?_eq_some.2 hrow]
  exact OrderedMap.get?_eq_some.2 hcell

namespace Report

variable {g : Grammar} {table : Table} {n : NonTerminal} {cells : List (Option Body)}

theorem mem_rows_grid :
    (n, cells) ∈ (grid g table).rows ↔ n ∈ g.order ∧ cells = g.columns.map (table.entry? n) := by
  constructor
  · intro hrow
    obtain ⟨m, hm, heq⟩ := List.mem_map.1 hrow
    obtain ⟨rfl, rfl⟩ := Prod.mk.inj heq
    exact ⟨hm, rfl⟩
  · rintro ⟨hn, rfl⟩
    exact List.mem_map.2 ⟨n, hn, rfl⟩

/-- The cells of a row are what the table predicts in the columns, one after the other. -/
theorem forall₂_entry_of_mem_rows (h : (n, cells) ∈ (grid g table).rows) :
    List.Forall₂ (fun c cell => cell = table.entry? n c) (grid g table).columns cells := by
  rw [(mem_rows_grid.1 h).2]
  exact List.forall₂_map_right_iff.2 (List.forall₂_same.2 fun _ _ => rfl)

end Report

namespace Session

open Grammar

variable {text : String} {s : Session}

/-! ### Sessions that are built from a text -/

/-- The grammar keeps the terminals of the one that was read, and the table is its own. -/
theorem exists_keeps_of_build (h : Session.build text = .ok s) :
    ∃ g, Grammar.parse text = .ok g ∧ Keeps g s.grammar ∧ s.grammar.WellFormed ∧
      s.table = s.grammar.table s.grammar.lookahead := by
  obtain ⟨g, hparse, _, rfl⟩ := exists_of_build h
  have hg : g.WellFormed := .of_parse hparse
  have hsteps := normalizationSteps_normalizeWithin workLimit g
  exact ⟨g, hparse, Keeps.normalizationSteps hg hsteps, hg.normalizationSteps hsteps, rfl⟩

/-- Every terminal stands in the right side of a valid line. -/
theorem exists_valid_of_build (h : Session.build text = .ok s) {c : Char}
    (hc : c ∈ s.grammar.terminals) : ∃ line : ProductionLine, line.Valid ∧ c ∈ line.right := by
  obtain ⟨g, hparse, hkeeps, _⟩ := exists_keeps_of_build h
  rw [hkeeps.terminals] at hc
  exact exists_valid_of_mem_terminals hparse hc

theorem nodup_columns_of_build (h : Session.build text = .ok s) : s.grammar.columns.Nodup := by
  refine nodup_columns fun hmark => ?_
  obtain ⟨line, hvalid, hmem⟩ := exists_valid_of_build h hmark
  exact hvalid.endMark_not_mem hmem

/-- The grid of a session that is built from a text has distinct columns and a row for each
nonterminal of the order; what stands in a row is what the table predicts in its columns, and every
entry of the table stands in one of these cells. -/
theorem grid_complete (hbuild : Session.build text = .ok s) :
    let grid := Report.grid s.grammar s.table
    grid.columns.Nodup ∧ s.grammar.order.Nodup ∧ grid.rows.map Prod.fst = s.grammar.order ∧
      (∀ n cells, (n, cells) ∈ grid.rows →
        List.Forall₂ (fun c cell => cell = s.table.entry? n c) grid.columns cells) ∧
      ∀ n row c p, (n, row) ∈ s.table.rows.toList → (c, p) ∈ row.toList →
        ∃ (cells : List (Option Body)) (i : Nat), (n, cells) ∈ grid.rows ∧
          grid.columns[i]? = some c ∧ cells[i]? = some (some p) := by
  intro grid
  obtain ⟨_, _, _, hwell, htable⟩ := exists_keeps_of_build hbuild
  refine ⟨nodup_columns_of_build hbuild, hwell.nodup_order, ?_, ?_, ?_⟩
  · simp [grid, Report.grid, Function.comp_def]
  · exact fun n cells => Report.forall₂_entry_of_mem_rows
  · intro n row c p hrow hcell
    have hentry := Table.entry?_of_mem hrow hcell
    have hplace : n ∈ s.grammar.order ∧ c ∈ s.grammar.columns := by
      rw [htable] at hentry
      exact mem_columns_of_entry hwell hentry
    obtain ⟨i, hi⟩ := List.getElem?_of_mem hplace.2
    refine ⟨s.grammar.columns.map (s.table.entry? n), i,
      Report.mem_rows_grid.2 ⟨hplace.1, rfl⟩, hi, ?_⟩
    rw [List.getElem?_map, hi, Option.map_some, hentry]

/-- The empty body of `A` is predicted by what follows `A`, and it stands in that column. -/
theorem grid_complete_vanishing :
    let s := withLines ["S->aAb", "A->cA", "A->"]
    let t := (((s.apply .normalize).1.apply .computeLookahead).1.apply .computeTable).1
    let grid := Report.grid t.grammar t.table
    let n : NonTerminal := ⟨'A', 0, rfl⟩
    Session.build "S->aAb\nA->cA\nA->" = .ok t ∧ grid.columns = ['a', 'b', 'c', endMark] ∧
      grid.columns.Nodup ∧ t.table.entry? n 'b' = some [] ∧
      ∃ (cells : List (Option Body)) (i : Nat), (n, cells) ∈ grid.rows ∧
        grid.columns[i]? = some 'b' ∧ cells[i]? = some (some []) := by
  intro s t grid n
  have hbuild : Session.build "S->aAb\nA->cA\nA->" = .ok t := by
    unfold t s
    cbv
  have hcolumns : grid.columns = ['a', 'b', 'c', endMark] := by
    unfold grid t s
    cbv
  have hentry : t.table.entry? n 'b' = some [] := by
    unfold t s n
    cbv
  obtain ⟨row, hrow, hcell⟩ := Option.bind_eq_some_iff.1 hentry
  obtain ⟨hnodup, _, _, _, hall⟩ := grid_complete hbuild
  exact ⟨hbuild, hcolumns, hnodup, hentry,
    hall n row 'b' [] (OrderedMap.get?_eq_some.1 hrow) (OrderedMap.get?_eq_some.1 hcell)⟩

end Session

end PredictiveParsing
