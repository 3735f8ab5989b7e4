/-
Module: PredictiveParsing.Proofs.AlignedText
Layer: Proofs
Purpose: Tables in plain text can be read off again by position. Each line of a table consists of
  fields and of bars between them, and the offsets of the fields are the same for all lines; so it
  does no harm if a cell has a bar in it. The blanks before the content of a field can be told from
  it if no content begins with a blank, and the lines can be told apart if no content has a line
  break.
Imports: Mathlib, PredictiveParsing.Text.Aligned, PredictiveParsing.Text.Lines
Main exports: Text.fieldsAt, Text.LaidOut, Text.Fits, Text.forall₂_le_columnWidths,
  Text.laidOut_alignedLine, Text.LaidOut.length_eq, Text.forall₂_laidOut_lines
Open obligations: none
-/
import Mathlib
import PredictiveParsing.Text.Aligned
import PredictiveParsing.Text.Lines

namespace PredictiveParsing.Text

/-! ### Lines that are cut by position -/

/-- What stands between two fields. -/
def bar : List Char := [' ', '|', ' ']

/-- The fields of a line that begin and end where the widths say, with room for a bar after each. -/
def fieldsAt : List Nat → List Char → List (List Char)
  | [], _ => []
  | width :: widths, line => line.take width :: fieldsAt widths (line.drop (width + bar.length))

/-- The line consists of fields of the given widths and of bars between them, and the fields hold
the given texts behind blanks. -/
structure LaidOut (widths : List Nat) (line : List Char) (texts : List (List Char)) : Prop where
  line_eq : bar.intercalate (fieldsAt widths line) = line
  widths_eq : (fieldsAt widths line).map List.length = widths
  texts_eq : (fieldsAt widths line).map (List.dropWhile (· = ' ')) = texts

/-- A text that stands on one line and does not begin with a blank. -/
def Fits (text : List Char) : Prop := '\n' ∉ text ∧ text.head? ≠ some ' '

section Fields

variable {fields fields' : List (List Char)} {c : Char}

/-- Fields are found where they were put. -/
theorem fieldsAt_intercalate (fields : List (List Char)) :
    fieldsAt (fields.map List.length) (bar.intercalate fields) = fields := by
  induction fields with
  | nil => rfl
  | cons field rest ih =>
      cases rest with
      | nil => simp [fieldsAt]
      | cons next others =>
          have hdrop : (field ++ bar ++ bar.intercalate (next :: others)).drop
              (field.length + bar.length) = bar.intercalate (next :: others) := by
            rw [← List.length_append, List.drop_left]
          rw [List.map_cons, fieldsAt, List.intercalate_cons_cons, hdrop, ih, List.append_assoc,
            List.take_left]

theorem laidOut_intercalate (fields : List (List Char)) :
    LaidOut (fields.map List.length) (bar.intercalate fields)
      (fields.map (List.dropWhile (· = ' '))) where
  line_eq := by rw [fieldsAt_intercalate]
  widths_eq := by rw [fieldsAt_intercalate]
  texts_eq := by rw [fieldsAt_intercalate]

/-- The length of a line depends on the widths of its fields only. -/
theorem length_intercalate_congr (h : fields.map List.length = fields'.map List.length) :
    (bar.intercalate fields).length = (bar.intercalate fields').length := by
  induction fields generalizing fields' with
  | nil =>
      obtain rfl : fields' = [] := by simpa using h.symm
      rfl
  | cons field rest ih =>
      obtain ⟨field', rest', rfl, hfield, hrest⟩ := List.map_eq_cons_iff.1 h.symm
      have htail := ih hrest.symm
      cases rest with
      | nil =>
          obtain rfl : rest' = [] := by simpa using hrest
          simpa using hfield.symm
      | cons next others =>
          obtain ⟨next', others', rfl, _⟩ := List.map_eq_cons_iff.1 hrest
          simp only [List.intercalate_cons_cons, List.length_append, htail, hfield]

theorem LaidOut.length_eq {widths : List Nat} {line line' : List Char}
    {texts texts' : List (List Char)} (h : LaidOut widths line texts)
    (h' : LaidOut widths line' texts') : line.length = line'.length := by
  rw [← h.line_eq, ← h'.line_eq]
  exact length_intercalate_congr (h.widths_eq.trans h'.widths_eq.symm)

/-- Lines that are laid out with the same widths have the same length. -/
theorem length_eq_of_forall₂ {widths : List Nat} {lines : List (List Char)}
    {rows : List (List (List Char))} (h : List.Forall₂ (LaidOut widths) lines rows) :
    ∀ line ∈ lines, ∀ line' ∈ lines, line.length = line'.length := by
  have hlaid : ∀ line ∈ lines, ∃ shown, LaidOut widths line shown := by
    induction h with
    | nil => exact fun _ hline => absurd hline List.not_mem_nil
    | cons hline _ ih => exact List.forall_mem_cons.2 ⟨⟨_, hline⟩, ih⟩
  intro line hline line' hline'
  obtain ⟨_, hshown⟩ := hlaid line hline
  obtain ⟨_, hshown'⟩ := hlaid line' hline'
  exact hshown.length_eq hshown'

theorem not_mem_intercalate_bar (hbar : c ∉ bar) (h : ∀ field ∈ fields, c ∉ field) :
    c ∉ bar.intercalate fields := by
  induction fields with
  | nil => exact List.not_mem_nil
  | cons field rest ih =>
      obtain ⟨hfield, hrest⟩ := List.forall_mem_cons.1 h
      cases rest with
      | nil => rwa [List.intercalate_singleton]
      | cons next others =>
          rw [List.intercalate_cons_cons]
          simp only [List.mem_append, not_or]
          exact ⟨⟨hfield, hbar⟩, ih hrest⟩

end Fields

/-! ### Widths -/

section Widths

variable {lengths widths cells : List Nat}

theorem forall₂_le_zipWith_max_left (h : lengths.length = widths.length) :
    List.Forall₂ (· ≤ ·) lengths (List.zipWith max lengths widths) := by
  induction lengths generalizing widths with
  | nil => exact .nil
  | cons m lengths ih =>
      cases widths with
      | nil => cases h
      | cons n widths => exact .cons (Nat.le_max_left m n) (ih (Nat.succ.inj h))

theorem forall₂_le_zipWith_max_right (h : lengths.length = widths.length)
    (hcells : List.Forall₂ (· ≤ ·) cells widths) :
    List.Forall₂ (· ≤ ·) cells (List.zipWith max lengths widths) := by
  induction hcells generalizing lengths with
  | nil =>
      rw [List.zipWith_nil_right]
      exact .nil
  | @cons _ n _ _ hcell _ ih =>
      cases lengths with
      | nil => cases h
      | cons m lengths =>
          exact .cons (Nat.le_trans hcell (Nat.le_max_right m n)) (ih (Nat.succ.inj h))

end Widths

/-- If all rows have the same number of cells, every column is as wide as each of its cells. -/
theorem forall₂_le_columnWidths {rows : List (List String)} {count : Nat}
    (h : ∀ row ∈ rows, row.length = count) :
    ∀ row ∈ rows, List.Forall₂ (· ≤ ·) (row.map String.length) (columnWidths rows) := by
  induction rows with
  | nil => exact fun _ hrow => absurd hrow List.not_mem_nil
  | cons first rest ih =>
      obtain ⟨hfirst, hrest⟩ := List.forall_mem_cons.1 h
      cases rest with
      | nil =>
          refine List.forall_mem_singleton.2 ?_
          exact List.forall₂_same.2 fun _ _ => Nat.le_refl _
      | cons next others =>
          have hbelow := ih hrest
          have hnext := (hbelow next List.mem_cons_self).length_eq
          have hcount : (first.map String.length).length =
              (columnWidths (next :: others)).length := by
            rw [← hnext, List.length_map, List.length_map, hfirst, hrest next List.mem_cons_self]
          exact List.forall_mem_cons.2 ⟨forall₂_le_zipWith_max_left hcount,
            fun row hrow => forall₂_le_zipWith_max_right hcount (hbelow row hrow)⟩

/-! ### Aligned lines -/

/-- A text that does not begin with a blank is what remains of its padded form. -/
theorem dropWhile_padLeft {s : String} (h : Fits s.toList) (width : Nat) :
    (padLeft width s).toList.dropWhile (· = ' ') = s.toList := by
  have hblanks : ∀ c ∈ List.replicate (width - s.length) ' ', decide (c = ' ') = true := by
    intro c hc
    rw [List.eq_of_mem_replicate hc]
    rfl
  rw [toList_padLeft, List.dropWhile_append_of_pos hblanks]
  cases hs : s.toList with
  | nil => rfl
  | cons c rest =>
      have hc : c ≠ ' ' := fun heq => h.2 (by rw [hs, heq, List.head?_cons])
      rw [List.dropWhile_cons_of_neg (by simpa using hc)]

theorem newline_not_mem_padLeft {s : String} (h : Fits s.toList) (width : Nat) :
    '\n' ∉ (padLeft width s).toList := by
  rw [toList_padLeft, List.mem_append, not_or]
  exact ⟨fun hmem => absurd (List.eq_of_mem_replicate hmem) (by decide), h.1⟩

/-- The fields of a line, as wide as their columns. -/
def paddedFields (widths : List Nat) (row : List String) : List (List Char) :=
  (List.zipWith padLeft widths row).map String.toList

theorem toList_alignedLine (widths : List Nat) (row : List String) :
    (alignedLine widths row).toList = bar.intercalate (paddedFields widths row) := by
  rw [alignedLine, String.toList_intercalate]
  rfl

theorem newline_not_mem_alignedLine {row : List String} (h : ∀ s ∈ row, Fits s.toList)
    (widths : List Nat) : '\n' ∉ (alignedLine widths row).toList := by
  rw [toList_alignedLine]
  refine not_mem_intercalate_bar (by decide) fun field hfield => ?_
  rw [paddedFields, ← List.map_uncurry_zip_eq_zipWith] at hfield
  obtain ⟨_, hpadded, rfl⟩ := List.mem_map.1 hfield
  obtain ⟨⟨width, s⟩, hpair, rfl⟩ := List.mem_map.1 hpadded
  exact newline_not_mem_padLeft (h s (List.of_mem_zip hpair).2) width

section Row

variable {widths : List Nat} {row : List String}

theorem length_paddedFields (h : List.Forall₂ (· ≤ ·) (row.map String.length) widths) :
    (paddedFields widths row).map List.length = widths := by
  induction row generalizing widths with
  | nil =>
      cases h
      rfl
  | cons s row ih =>
      obtain ⟨width, widths, hcell, hcells, rfl⟩ := List.forall₂_cons_left_iff.1 h
      show (padLeft width s).toList.length :: (paddedFields widths row).map List.length = _
      rw [ih hcells, String.length_toList, length_padLeft, Nat.max_eq_left hcell]

theorem dropWhile_paddedFields (h : List.Forall₂ (· ≤ ·) (row.map String.length) widths)
    (hfits : ∀ s ∈ row, Fits s.toList) :
    (paddedFields widths row).map (List.dropWhile (· = ' ')) = row.map String.toList := by
  induction row generalizing widths with
  | nil => simp [paddedFields]
  | cons s row ih =>
      obtain ⟨width, widths, _, hcells, rfl⟩ := List.forall₂_cons_left_iff.1 h
      obtain ⟨hs, hrow⟩ := List.forall_mem_cons.1 hfits
      show (padLeft width s).toList.dropWhile (· = ' ') ::
        (paddedFields widths row).map (List.dropWhile (· = ' ')) = _
      rw [ih hcells hrow, dropWhile_padLeft hs, List.map_cons]

/-- A row that is not wider than its columns is laid out in them. -/
theorem laidOut_alignedLine (h : List.Forall₂ (· ≤ ·) (row.map String.length) widths)
    (hfits : ∀ s ∈ row, Fits s.toList) :
    LaidOut widths (alignedLine widths row).toList (row.map String.toList) := by
  have hlaid := laidOut_intercalate (paddedFields widths row)
  rwa [length_paddedFields h, dropWhile_paddedFields h hfits, ← toList_alignedLine] at hlaid

end Row

/-- The lines of a table show its rows, one after the other, at the same offsets. -/
theorem forall₂_laidOut_lines {rows : List (List String)} {count : Nat} (hne : rows ≠ [])
    (hcount : ∀ row ∈ rows, row.length = count) (hfits : ∀ row ∈ rows, ∀ s ∈ row, Fits s.toList) :
    List.Forall₂ (LaidOut (columnWidths rows))
      (lines ("\n".intercalate (alignedLines rows)).toList)
      (rows.map (List.map String.toList)) := by
  have hlines : lines ("\n".intercalate (alignedLines rows)).toList =
      rows.map fun row => (alignedLine (columnWidths rows) row).toList := by
    rw [String.toList_intercalate, alignedLines, List.map_map]
    refine lines_intercalate (by simpa using hne) ?_
    intro piece hpiece
    obtain ⟨row, hrow, rfl⟩ := List.mem_map.1 hpiece
    exact newline_not_mem_alignedLine (hfits row hrow) _
  rw [hlines]
  refine List.forall₂_map_left_iff.2 (List.forall₂_map_right_iff.2 ?_)
  refine List.forall₂_same.2 fun row hrow => ?_
  exact laidOut_alignedLine (forall₂_le_columnWidths hcount row hrow) (hfits row hrow)

end PredictiveParsing.Text
