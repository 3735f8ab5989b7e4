/-
Module: PredictiveParsing.Text.Lines
Layer: Text
Purpose: Cutting a text into lines and a line at its arrow.
Imports: none
Main exports: Text.lines, Text.splitArrow, Text.not_mem_of_mem_lines, Text.lines_intercalate,
  Text.splitArrow_eq_some, Text.splitArrow_append
Open obligations: none
-/

namespace PredictiveParsing.Text

/-- Put one character in front of the first line. -/
def addToFirstLine (c : Char) : List (List Char) → List (List Char)
  | [] => [[c]]
  | line :: rest => (c :: line) :: rest

/-- The pieces of a text between its line breaks; a text without a break is one line. -/
def lines (cs : List Char) : List (List Char) :=
  cs.foldr (fun c rest => if c = '\n' then [] :: rest else addToFirstLine c rest) [[]]

/-- A piece between line breaks has none. -/
theorem not_mem_of_mem_lines {cs line : List Char} (h : line ∈ lines cs) : '\n' ∉ line := by
  induction cs generalizing line with
  | nil =>
      obtain rfl : line = [] := List.mem_singleton.1 h
      exact List.not_mem_nil
  | cons c rest ih =>
      have hcons : lines (c :: rest) =
          if c = '\n' then [] :: lines rest else addToFirstLine c (lines rest) := rfl
      rw [hcons] at h
      split at h
      · rcases List.mem_cons.1 h with rfl | hrest
        · exact List.not_mem_nil
        · exact ih hrest
      · next hc =>
        have hfirst : ∀ {piece : List Char}, '\n' ∉ piece → '\n' ∉ c :: piece :=
          fun hpiece => List.not_mem_cons_of_ne_of_not_mem (Ne.symm hc) hpiece
        cases hlines : lines rest with
        | nil =>
            rw [hlines] at h
            obtain rfl : line = [c] := List.mem_singleton.1 h
            exact hfirst List.not_mem_nil
        | cons piece pieces =>
            rw [hlines] at h ih
            rcases List.mem_cons.1 h with rfl | hothers
            · exact hfirst (ih List.mem_cons_self)
            · exact ih (List.mem_cons_of_mem _ hothers)

/-- A text without a line break is one line. -/
theorem lines_of_not_mem {line : List Char} (h : '\n' ∉ line) : lines line = [line] := by
  induction line with
  | nil => rfl
  | cons c rest ih =>
      obtain ⟨hc, hrest⟩ := List.ne_and_not_mem_of_not_mem_cons h
      have hcons : lines (c :: rest) =
          if c = '\n' then [] :: lines rest else addToFirstLine c (lines rest) := rfl
      rw [hcons, if_neg (Ne.symm hc), ih hrest]
      rfl

/-- The first line break ends the first line. -/
theorem lines_append {line : List Char} (h : '\n' ∉ line) (rest : List Char) :
    lines (line ++ '\n' :: rest) = line :: lines rest := by
  induction line with
  | nil => rfl
  | cons c others ih =>
      obtain ⟨hc, hothers⟩ := List.ne_and_not_mem_of_not_mem_cons h
      have hcons : lines (c :: others ++ '\n' :: rest) =
          if c = '\n' then [] :: lines (others ++ '\n' :: rest)
          else addToFirstLine c (lines (others ++ '\n' :: rest)) := rfl
      rw [hcons, if_neg (Ne.symm hc), ih hothers]
      rfl

/-- Lines that were put together with line breaks between them are the lines of the text. -/
theorem lines_intercalate {pieces : List (List Char)} (hne : pieces ≠ [])
    (h : ∀ piece ∈ pieces, '\n' ∉ piece) : lines (['\n'].intercalate pieces) = pieces := by
  induction pieces with
  | nil => exact absurd rfl hne
  | cons piece rest ih =>
      have hpiece := h piece List.mem_cons_self
      cases rest with
      | nil => rw [List.intercalate_singleton, lines_of_not_mem hpiece]
      | cons next others =>
          rw [List.intercalate_cons_cons, List.append_assoc, List.singleton_append,
            lines_append hpiece,
            ih (List.cons_ne_nil next others) fun q hq => h q (List.mem_cons_of_mem _ hq)]

/-- The parts of a line before and after its first arrow `->`. -/
def splitArrow : List Char → Option (List Char × List Char)
  | [] => none
  | '-' :: '>' :: right => some ([], right)
  | c :: rest => (splitArrow rest).map fun parts => (c :: parts.1, parts.2)

/-- The arrow between the two sides of a production. -/
def arrow : List Char := ['-', '>']

/-- The two parts and the arrow make up the line. -/
theorem splitArrow_eq_some {line left right : List Char}
    (h : splitArrow line = some (left, right)) : line = left ++ arrow ++ right := by
  fun_induction splitArrow line generalizing left with
  | case1 => simp at h
  | case2 right' =>
      obtain ⟨rfl, rfl⟩ := Prod.mk.inj (Option.some.inj h)
      rfl
  | case3 c rest _ ih =>
      obtain ⟨⟨l, r⟩, hrest, heq⟩ := Option.map_eq_some_iff.1 h
      obtain ⟨rfl, rfl⟩ := Prod.mk.inj heq
      simp [ih hrest]

/-- Where the part in front has no hyphen, the arrow behind it is the first one. -/
theorem splitArrow_append {left : List Char} (h : '-' ∉ left) (right : List Char) :
    splitArrow (left ++ arrow ++ right) = some (left, right) := by
  induction left with
  | nil => rfl
  | cons c rest ih =>
      obtain ⟨hc, hrest⟩ := List.ne_and_not_mem_of_not_mem_cons h
      rw [List.cons_append, List.cons_append, splitArrow, ih hrest]
      · rfl
      · exact fun _ heq _ => hc heq.symm

end PredictiveParsing.Text
