/-
Module: PredictiveParsing.Proofs.GrammarText
Layer: Proofs
Purpose: Which texts are grammars, and which grammars they are. A line is a production if it is
  written as the two sides of one with an arrow between them; the name of a nonterminal has no
  hyphen, so there is only one way to take it apart, and adding the line takes it apart in the same
  way as checking it did. A text is read if all its lines that are not blank are productions. The
  grammar then lists everything in the order in which the text first mentions it.
Imports: Mathlib, PredictiveParsing.Proofs.WellFormed
Main exports: ProductionLine.Valid, ProductionLine.check_eq_ok_iff,
  ProductionLine.checkAll_eq_ok_iff, ProductionLine.checkAll_eq_error_iff, Grammar.order_ofLines,
  Grammar.bodies?_ofLines, Grammar.nonTerminals_ofLines, Grammar.terminals_ofLines,
  Grammar.exists_of_parse, Grammar.exists_valid_of_mem_terminals, Grammar.parse_exact
Open obligations: none
-/
import Mathlib
import PredictiveParsing.Proofs.WellFormed

namespace PredictiveParsing

/-! ### The distinct values of a list -/

namespace OrderedSet

variable {α : Type} [DecidableEq α] [BEq α] [LawfulBEq α]

theorem newcomers_eq_eraseDups (seen list : List α) :
    newcomers seen list = (list.removeAll seen).eraseDups := by
  induction list generalizing seen with
  | nil => rfl
  | cons a rest ih =>
      by_cases ha : a ∈ seen
      · simp [newcomers, ha, ih, List.removeAll]
      · have hkeep : (a :: rest).removeAll seen = a :: rest.removeAll seen := by
          simp [List.removeAll, ha]
        have hswap : (rest.filter fun b => !b == a).removeAll seen =
            (rest.removeAll seen).filter fun b => !b == a := List.filter_comm _ _ _
        rw [newcomers, if_neg ha, ih, hkeep, List.eraseDups_cons, List.removeAll_cons, hswap]

theorem toList_ofList_eq_eraseDups (list : List α) : (ofList list).toList = list.eraseDups := by
  rw [toList_ofList, newcomers_eq_eraseDups]
  simp [List.removeAll]

/-- Inserting goes on where collecting stopped. -/
theorem insertAll_ofList (list more : List α) :
    (ofList list).insertAll more = ofList (list ++ more) := by
  ext1
  have hseen : more.removeAll list.eraseDups = more.removeAll list := by
    simp [List.removeAll]
  rw [toList_insertAll, newcomers_eq_eraseDups, toList_ofList_eq_eraseDups,
    toList_ofList_eq_eraseDups, hseen, List.eraseDups_append]

end OrderedSet

/-! ### Productions on a line -/

namespace ProductionLine

/-- The line is written as the two sides of a production with an arrow between them, and there is
neither white space nor the end mark in the right one. -/
structure Valid (line : ProductionLine) : Prop where
  content_eq : line.content = line.head.text ++ Text.arrow ++ line.right
  not_blank : ∀ c ∈ line.right, Text.isBlank c = false
  endMark_not_mem : endMark ∉ line.right

/-- A trimmed line is a production. -/
def IsProduction (content : List Char) : Prop :=
  ∃ line : ProductionLine, line.content = content ∧ line.Valid

/-- What is wrong with a trimmed line that is no production. The end mark is blamed if there is
nothing else to blame. -/
inductive Fault (number : Nat) (content : List Char) : GrammarError → Prop where
  | reserved {n : NonTerminal} {right : List Char}
      (hcontent : content = n.text ++ Text.arrow ++ right)
      (hblank : ∀ c ∈ right, Text.isBlank c = false) (hmark : endMark ∈ right) :
      Fault number content (.reservedSymbol number)
  | invalid
      (hcontent : ∀ (n : NonTerminal) right, content = n.text ++ Text.arrow ++ right →
        ∃ c ∈ right, Text.isBlank c = true) :
      Fault number content (.invalidProduction number (String.ofList content))

theorem splitArrow_text (n : NonTerminal) (right : List Char) :
    Text.splitArrow (n.text ++ Text.arrow ++ right) = some (n.text, right) :=
  Text.splitArrow_append (n.not_mem_text rfl (by decide)) right

/-- A line can be taken apart in one way only. -/
theorem sides_unique {m n : NonTerminal} {left right : List Char}
    (h : m.text ++ Text.arrow ++ left = n.text ++ Text.arrow ++ right) : m = n ∧ left = right := by
  have hsplit := splitArrow_text m left
  rw [h, splitArrow_text, Option.some.injEq, Prod.mk.injEq] at hsplit
  exact ⟨NonTerminal.text_injective hsplit.1.symm, hsplit.2.symm⟩

/-- What checking a line comes to that is written as a name, an arrow and a right side. -/
theorem check_text (number : Nat) (n : NonTerminal) (right : List Char) :
    check number (n.text ++ Text.arrow ++ right) =
      if right.any Text.isBlank then
        .error (.invalidProduction number (String.ofList (n.text ++ Text.arrow ++ right)))
      else if endMark ∈ right then .error (.reservedSymbol number)
      else .ok ⟨n.text ++ Text.arrow ++ right, n, right⟩ := by
  simp only [check, splitArrow_text, NonTerminal.ofChars?_text]

/-- Any other line is refused. -/
theorem check_of_forall_ne {number : Nat} {content : List Char}
    (h : ∀ (n : NonTerminal) right, content ≠ n.text ++ Text.arrow ++ right) :
    check number content = .error (.invalidProduction number (String.ofList content)) := by
  unfold check
  split
  · rfl
  · next left right hsplit =>
    split
    · rfl
    · next n hn =>
      have hcontent := Text.splitArrow_eq_some hsplit
      rw [NonTerminal.ofChars?_eq_some_iff.1 hn] at hcontent
      exact absurd hcontent (h n right)

/-- A valid line is accepted, and nothing else is. -/
theorem check_eq_ok_iff {number : Nat} {content : List Char} {line : ProductionLine} :
    check number content = .ok line ↔ line.content = content ∧ line.Valid := by
  constructor
  · intro h
    by_cases hwritten : ∃ (n : NonTerminal) (right : List Char),
        content = n.text ++ Text.arrow ++ right
    · obtain ⟨n, right, rfl⟩ := hwritten
      rw [check_text] at h
      split_ifs at h with hblank hmark
      cases h
      exact ⟨rfl, rfl, by simpa using hblank, hmark⟩
    · rw [check_of_forall_ne fun n right heq => hwritten ⟨n, right, heq⟩] at h
      cases h
  · rintro ⟨rfl, hvalid⟩
    have hblank : line.right.any Text.isBlank = false := by simpa using hvalid.not_blank
    rw [hvalid.content_eq, check_text, hblank, if_neg Bool.false_ne_true,
      if_neg hvalid.endMark_not_mem, ← hvalid.content_eq]

/-- A line is refused for what is wrong with it. -/
theorem check_eq_error_iff {number : Nat} {content : List Char} {e : GrammarError} :
    check number content = .error e ↔ Fault number content e := by
  constructor
  · intro h
    by_cases hwritten : ∃ (n : NonTerminal) (right : List Char),
        content = n.text ++ Text.arrow ++ right
    · obtain ⟨n, right, rfl⟩ := hwritten
      rw [check_text] at h
      split_ifs at h with hblank hmark
      · cases h
        refine .invalid fun m left heq => ?_
        obtain ⟨_, rfl⟩ := sides_unique heq
        exact List.any_eq_true.1 hblank
      · cases h
        exact .reserved rfl (by simpa using hblank) hmark
    · rw [check_of_forall_ne fun n right heq => hwritten ⟨n, right, heq⟩] at h
      cases h
      exact .invalid fun n right heq => absurd ⟨n, right, heq⟩ hwritten
  · intro h
    cases h with
    | @reserved n right hcontent hblank hmark =>
        have hnone : right.any Text.isBlank = false := by simpa using hblank
        rw [hcontent, check_text, hnone, if_neg Bool.false_ne_true, if_pos hmark]
    | invalid hcontent =>
        by_cases hwritten : ∃ (n : NonTerminal) (right : List Char),
            content = n.text ++ Text.arrow ++ right
        · obtain ⟨n, right, rfl⟩ := hwritten
          rw [check_text, if_pos (List.any_eq_true.2 (hcontent n right rfl))]
        · exact check_of_forall_ne fun n right heq => hwritten ⟨n, right, heq⟩

/-- A production has no fault. -/
theorem IsProduction.not_fault {number : Nat} {content : List Char} {e : GrammarError}
    (h : IsProduction content) : ¬ Fault number content e := by
  intro hfault
  obtain ⟨line, hline⟩ := h
  have hok : check number content = .ok line := check_eq_ok_iff.2 hline
  rw [check_eq_error_iff.2 hfault] at hok
  cases hok

/-! ### All lines of a text -/

/-- Of the trimmed lines, numbered from the given number on, the first that is neither blank nor a
production has the given fault. -/
def FirstFault (number : Nat) (contents : List (List Char)) (e : GrammarError) : Prop :=
  ∃ before content after, contents = before ++ content :: after ∧
    (∀ earlier ∈ before, earlier ≠ [] → IsProduction earlier) ∧ content ≠ [] ∧
    Fault (number + before.length) content e

theorem firstFault_cons {number : Nat} {content : List Char} {rest : List (List Char)}
    {e : GrammarError} :
    FirstFault number (content :: rest) e ↔
      (content ≠ [] ∧ Fault number content e) ∨
        ((content ≠ [] → IsProduction content) ∧ FirstFault (number + 1) rest e) := by
  constructor
  · rintro ⟨before, faulty, after, heq, hbefore, hne, hfault⟩
    cases before with
    | nil =>
        obtain ⟨rfl, rfl⟩ := List.cons.inj heq
        exact Or.inl ⟨hne, hfault⟩
    | cons first before =>
        -- Seen from the next line on, there is one line less before the faulty one.
        obtain ⟨rfl, rfl⟩ := List.cons.inj heq
        refine Or.inr ⟨hbefore content List.mem_cons_self, before, faulty, after, rfl,
          fun earlier hmem => hbefore earlier (List.mem_cons_of_mem _ hmem), hne, ?_⟩
        rwa [Nat.add_assoc, Nat.add_comm 1, ← List.length_cons]
  · rintro (⟨hne, hfault⟩ | ⟨hfirst, before, faulty, after, rfl, hbefore, hne, hfault⟩)
    · exact ⟨[], content, rest, rfl, fun _ hmem => absurd hmem List.not_mem_nil, hne, hfault⟩
    · refine ⟨content :: before, faulty, after, rfl, ?_, hne, ?_⟩
      · intro earlier hmem
        rcases List.mem_cons.1 hmem with rfl | hrest
        · exact hfirst
        · exact hbefore earlier hrest
      · rwa [List.length_cons, Nat.add_comm before.length, ← Nat.add_assoc]

/-- A blank line is skipped. -/
theorem checkAll_cons_of_blank {line : List Char} (h : Text.trim line = []) (number : Nat)
    (rest : List (List Char × Nat)) : checkAll ((line, number) :: rest) = checkAll rest := by
  simp [checkAll, h]

section NotBlank

variable {line : List Char} {number : Nat} {rest : List (List Char × Nat)}

theorem checkAll_cons_eq_ok_iff (h : Text.trim line ≠ []) {productions : List ProductionLine} :
    checkAll ((line, number) :: rest) = .ok productions ↔
      ∃ first others, productions = first :: others ∧
        check number (Text.trim line) = .ok first ∧ checkAll rest = .ok others := by
  rw [checkAll]
  simp only [List.isEmpty_iff, h, if_false]
  cases check number (Text.trim line) with
  | error e => simp
  | ok first => cases checkAll rest <;> simp [eq_comm]

theorem checkAll_cons_eq_error_iff (h : Text.trim line ≠ []) {e : GrammarError} :
    checkAll ((line, number) :: rest) = .error e ↔
      check number (Text.trim line) = .error e ∨
        (∃ first, check number (Text.trim line) = .ok first) ∧ checkAll rest = .error e := by
  rw [checkAll]
  simp only [List.isEmpty_iff, h, if_false]
  cases check number (Text.trim line) with
  | error e => simp
  | ok first => cases checkAll rest <;> simp

end NotBlank

/-- Lines are accepted if those that are not blank are valid, and then these are what is left. -/
theorem checkAll_eq_ok_iff {lines : List (List Char)} {number : Nat}
    {productions : List ProductionLine} :
    checkAll (lines.zipIdx number) = .ok productions ↔
      productions.map content = (lines.map Text.trim).filter (· ≠ []) ∧
        ∀ line ∈ productions, line.Valid := by
  induction lines generalizing number productions with
  | nil =>
      simp only [List.zipIdx_nil, checkAll, List.map_nil, List.filter_nil, List.map_eq_nil_iff,
        Except.ok.injEq]
      constructor
      · rintro rfl
        exact ⟨rfl, fun _ hmem => absurd hmem List.not_mem_nil⟩
      · exact fun h => h.1.symm
  | cons line rest ih =>
      rw [List.zipIdx_cons, List.map_cons]
      by_cases hblank : Text.trim line = []
      · rw [checkAll_cons_of_blank hblank, ih, List.filter_cons_of_neg (by simpa using hblank)]
      · rw [checkAll_cons_eq_ok_iff hblank, List.filter_cons_of_pos (by simpa using hblank),
          List.map_eq_cons_iff]
        simp only [check_eq_ok_iff, ih]
        constructor
        · rintro ⟨first, others, rfl, ⟨hcontent, hfirst⟩, hothers, hvalid⟩
          exact ⟨⟨first, others, rfl, hcontent, hothers⟩, List.forall_mem_cons.2 ⟨hfirst, hvalid⟩⟩
        · rintro ⟨⟨first, others, rfl, hcontent, hothers⟩, hvalid⟩
          obtain ⟨hfirst, hvalid⟩ := List.forall_mem_cons.1 hvalid
          exact ⟨first, others, rfl, ⟨hcontent, hfirst⟩, hothers, hvalid⟩

/-- The check ends with the first faulty line. -/
theorem checkAll_eq_error_iff {lines : List (List Char)} {number : Nat} {e : GrammarError} :
    checkAll (lines.zipIdx number) = .error e ↔ FirstFault number (lines.map Text.trim) e := by
  induction lines generalizing number with
  | nil => simp [checkAll, FirstFault]
  | cons line rest ih =>
      rw [List.map_cons, firstFault_cons, List.zipIdx_cons]
      by_cases hblank : Text.trim line = []
      · rw [checkAll_cons_of_blank hblank, ih]
        simp [hblank]
      · rw [checkAll_cons_eq_error_iff hblank, ih, check_eq_error_iff]
        simp only [check_eq_ok_iff, ne_eq, hblank, not_false_eq_true, true_and, true_implies]
        rfl

/-! ### Adding lines -/

/-- Adding a valid line takes it apart in the same way as checking it did. -/
theorem Valid.insertLine {line : ProductionLine} (h : line.Valid) (g : Grammar) :
    g.insertLine (String.ofList line.content) =
      .ok (g.insert line.head (Body.read line.right)) := by
  unfold Grammar.insertLine
  rw [String.toList_ofList, h.content_eq, splitArrow_text]
  simp only [Option.getD_some, NonTerminal.ofChars?_text]

/-- The nonterminals of a line: its left side, and then those of its body. -/
def nonTerminals (line : ProductionLine) : List NonTerminal :=
  line.head :: (Body.read line.right).nonTerminals

/-- The terminals of a line. -/
def terminals (line : ProductionLine) : List Char := (Body.read line.right).terminals

/-- The bodies that lines give to a nonterminal. -/
def bodiesOf (n : NonTerminal) (lines : List ProductionLine) : List Body :=
  (lines.filter (·.head = n)).map fun line => Body.read line.right

end ProductionLine

namespace Grammar

open ProductionLine

/-- Adding valid lines one after the other never fails. -/
theorem foldlM_insertLine {lines : List ProductionLine} (h : ∀ line ∈ lines, line.Valid)
    (g : Grammar) :
    (lines.map fun line => String.ofList line.content).foldlM insertLine g =
      .ok (lines.foldl (fun g line => g.insert line.head (Body.read line.right)) g) := by
  induction lines generalizing g with
  | nil => rfl
  | cons line rest ih =>
      obtain ⟨hline, hrest⟩ := List.forall_mem_cons.1 h
      rw [List.map_cons, List.foldlM_cons, hline.insertLine, List.foldl_cons, ← ih hrest]
      rfl

theorem ofLines_append_singleton (lines : List ProductionLine) (line : ProductionLine) :
    ofLines (lines ++ [line]) = (ofLines lines).insert line.head (Body.read line.right) := by
  rw [ofLines, List.foldl_append]
  rfl

theorem order_ofLines (lines : List ProductionLine) :
    (ofLines lines).order = (OrderedSet.ofList (lines.map head)).toList := by
  induction lines using List.reverseRecOn with
  | nil => rfl
  | append_singleton lines line ih =>
      have hinsert : OrderedSet.ofList ((lines ++ [line]).map head) =
          (OrderedSet.ofList (lines.map head)).insert line.head := by
        rw [List.map_append, ← OrderedSet.insertAll_ofList]
        rfl
      rw [ofLines_append_singleton, order_insert, ih, hinsert]
      split_ifs with h
      · rw [OrderedSet.insert_of_mem h]
      · rw [OrderedSet.toList_insert_of_not_mem h]

theorem mem_order_ofLines {lines : List ProductionLine} {n : NonTerminal} :
    n ∈ (ofLines lines).order ↔ n ∈ lines.map head := by
  rw [order_ofLines, OrderedSet.mem_toList, OrderedSet.mem_ofList]

theorem nonTerminals_ofLines (lines : List ProductionLine) :
    (ofLines lines).nonTerminals =
      OrderedSet.ofList (lines.flatMap ProductionLine.nonTerminals) := by
  induction lines using List.reverseRecOn with
  | nil => rfl
  | append_singleton lines line ih =>
      rw [ofLines_append_singleton, List.flatMap_append, List.flatMap_singleton]
      show ((ofLines lines).nonTerminals.insertAll [line.head]).insertAll _ = _
      rw [ih, OrderedSet.insertAll_ofList, OrderedSet.insertAll_ofList, List.append_assoc]
      rfl

theorem terminals_ofLines (lines : List ProductionLine) :
    (ofLines lines).terminals = OrderedSet.ofList (lines.flatMap ProductionLine.terminals) := by
  induction lines using List.reverseRecOn with
  | nil => rfl
  | append_singleton lines line ih =>
      rw [ofLines_append_singleton, List.flatMap_append, List.flatMap_singleton]
      show (ofLines lines).terminals.insertAll _ = _
      rw [ih, OrderedSet.insertAll_ofList]
      rfl

theorem bodies?_ofLines (lines : List ProductionLine) (n : NonTerminal) :
    (ofLines lines).bodies? n =
      if n ∈ lines.map head then some (OrderedSet.ofList (bodiesOf n lines)) else none := by
  induction lines using List.reverseRecOn with
  | nil => rfl
  | append_singleton lines line ih =>
      rw [ofLines_append_singleton, bodies?_insert]
      by_cases hn : n = line.head
      · subst hn
        have hold : ((ofLines lines).bodies? line.head).getD ∅ =
            OrderedSet.ofList (bodiesOf line.head lines) := by
          rw [ih]
          split_ifs with h
          · rfl
          · -- Without an earlier line there are no bodies to add to.
            have hnone : bodiesOf line.head lines = [] := by
              simpa [bodiesOf] using h
            rw [hnone]
            rfl
        have hnew : bodiesOf line.head (lines ++ [line]) =
            bodiesOf line.head lines ++ [Body.read line.right] := by
          simp [bodiesOf]
        rw [if_pos rfl, if_pos (by simp), hold, hnew, ← OrderedSet.insertAll_ofList]
        rfl
      · have hsame : bodiesOf n (lines ++ [line]) = bodiesOf n lines := by
          simp [bodiesOf, Ne.symm hn]
        simp [hn, ih, hsame]

/-! ### Texts -/

/-- The lines of a text, without the white space around them. -/
def trimmedLines (text : String) : List (List Char) := (Text.lines text.toList).map Text.trim

theorem validate_eq_ok_iff {text : String} {lines : List ProductionLine} :
    validate text = .ok lines ↔
      lines.map content = (trimmedLines text).filter (· ≠ []) ∧ ∀ line ∈ lines, line.Valid :=
  checkAll_eq_ok_iff

theorem validate_eq_error_iff {text : String} {e : GrammarError} :
    validate text = .error e ↔ FirstFault 1 (trimmedLines text) e :=
  checkAll_eq_error_iff

/-- Every line of a text that passes the check is a production, blank ones apart. -/
theorem isProduction_of_validate {text : String} {lines : List ProductionLine}
    (h : validate text = .ok lines) {content : List Char} (hmem : content ∈ trimmedLines text)
    (hne : content ≠ []) : IsProduction content := by
  obtain ⟨hcontents, hvalid⟩ := validate_eq_ok_iff.1 h
  have hcontent : content ∈ lines.map ProductionLine.content := by
    rw [hcontents]
    exact List.mem_filter.2 ⟨hmem, decide_eq_true hne⟩
  obtain ⟨line, hline, rfl⟩ := List.mem_map.1 hcontent
  exact ⟨line, rfl, hvalid line hline⟩

/-- Reading a text fails where the check of its lines does, since adding them does not fail. -/
theorem parse_eq_error_iff {text : String} {e : GrammarError} :
    parse text = .error e ↔ FirstFault 1 (trimmedLines text) e := by
  rw [← validate_eq_error_iff, parse]
  cases validate text <;> simp [Except.map]

/-- The grammar that is read is that of the lines that were found valid. -/
theorem exists_of_parse {text : String} {g : Grammar} (h : parse text = .ok g) :
    ∃ lines, validate text = .ok lines ∧ g = ofLines lines := by
  unfold parse at h
  cases hlines : validate text with
  | error e =>
      rw [hlines] at h
      cases h
  | ok lines =>
      rw [hlines] at h
      cases h
      exact ⟨lines, rfl, rfl⟩

/-- Every terminal of a grammar that is read stands in the right side of a valid line. -/
theorem exists_valid_of_mem_terminals {text : String} {g : Grammar} (h : parse text = .ok g)
    {c : Char} (hc : c ∈ g.terminals) : ∃ line : ProductionLine, line.Valid ∧ c ∈ line.right := by
  obtain ⟨lines, hlines, rfl⟩ := exists_of_parse h
  rw [terminals_ofLines, OrderedSet.mem_ofList, List.mem_flatMap] at hc
  obtain ⟨line, hline, hmem⟩ := hc
  exact ⟨line, (validate_eq_ok_iff.1 hlines).2 line hline,
    (Body.of_mem_read (Body.mem_terminals.1 hmem)).1⟩

/-- A text is read exactly if its lines are productions, blank ones apart, and otherwise the first
line that is none is blamed. Every line is taken apart twice, when it is checked and when it is
added, and both agree. The grammar that is read lists the left sides, the bodies of each, and all
symbols, the left side of a line before its body, in the order in which they are first written. -/
theorem parse_exact (text : String) :
    (parse text = (validate text).bind fun lines =>
      (lines.map fun line => String.ofList line.content).foldlM insertLine ∅) ∧
    ((∃ g, parse text = .ok g) ↔
      ∀ content ∈ trimmedLines text, content ≠ [] → IsProduction content) ∧
    (∀ e, parse text = .error e ↔ FirstFault 1 (trimmedLines text) e) ∧
    (∀ name, parse text ≠ .error (.malformedNonTerminal name)) ∧
    (∀ g, parse text = .ok g → ∃ lines : List ProductionLine,
      lines.map content = (trimmedLines text).filter (· ≠ []) ∧ (∀ line ∈ lines, line.Valid) ∧
      g.order = (lines.map head).eraseDups ∧
      (∀ n, (g.bodies? n).map OrderedSet.toList =
        if n ∈ g.order then some (bodiesOf n lines).eraseDups else none) ∧
      g.nonTerminals.toList = (lines.flatMap ProductionLine.nonTerminals).eraseDups ∧
      g.terminals.toList = (lines.flatMap ProductionLine.terminals).eraseDups) := by
  refine ⟨?_, ?_, fun _ => parse_eq_error_iff, ?_, ?_⟩
  · rw [parse]
    cases hlines : validate text with
    | error e => rfl
    | ok lines =>
        have hvalid := (validate_eq_ok_iff.1 hlines).2
        exact (foldlM_insertLine hvalid ∅).symm
  · constructor
    · rintro ⟨g, hg⟩ content hcontent hne
      obtain ⟨lines, hlines, _⟩ := exists_of_parse hg
      exact isProduction_of_validate hlines hcontent hne
    · intro hall
      cases hparse : parse text with
      | ok g => exact ⟨g, rfl⟩
      | error e =>
          obtain ⟨before, content, after, heq, _, hne, hfault⟩ := parse_eq_error_iff.1 hparse
          have hmem : content ∈ trimmedLines text := by
            rw [heq]
            exact List.mem_append_right _ List.mem_cons_self
          exact absurd hfault (hall content hmem hne).not_fault
  · intro name hparse
    obtain ⟨_, _, _, _, _, _, hfault⟩ := parse_eq_error_iff.1 hparse
    cases hfault
  · intro g hg
    obtain ⟨lines, hlines, rfl⟩ := exists_of_parse hg
    obtain ⟨hcontents, hvalid⟩ := validate_eq_ok_iff.1 hlines
    refine ⟨lines, hcontents, hvalid, ?_, fun n => ?_, ?_, ?_⟩
    · rw [order_ofLines, OrderedSet.toList_ofList_eq_eraseDups]
    · simp only [mem_order_ofLines, bodies?_ofLines]
      split_ifs with hn
      · rw [Option.map_some, OrderedSet.toList_ofList_eq_eraseDups]
      · rfl
    · rw [nonTerminals_ofLines, OrderedSet.toList_ofList_eq_eraseDups]
    · rw [terminals_ofLines, OrderedSet.toList_ofList_eq_eraseDups]

/-- A text with a repeated line, an arrow inside a body and a mark that is dropped, and a text whose
third line is the first faulty one. -/
theorem parse_exact_mixed :
    let text := " S->aB''b\r\n\n\tB''->'->&\r\nS->aB''b\nS->B'"
    let start : NonTerminal := ⟨'S', 0, rfl⟩
    let other : NonTerminal := ⟨'B', 2, rfl⟩
    let unused : NonTerminal := ⟨'B', 1, rfl⟩
    (∃ g, parse text = .ok g ∧ g.order = [start, other] ∧
      (g.bodies? start).map OrderedSet.toList =
        some [[.terminal 'a', .nonTerminal other, .terminal 'b'], [.nonTerminal unused]] ∧
      g.nonTerminals.toList = [start, other, unused] ∧
      g.terminals.toList = ['a', 'b', primeMark, '-', '>']) ∧
    parse "S->a\r\n\n S->b$ \nab->c" = .error (.reservedSymbol 3) := by
  intro text start other unused
  let lineOf (n : NonTerminal) (right : List Char) : ProductionLine :=
    ⟨n.text ++ Text.arrow ++ right, n, right⟩
  have hvalid : ∀ n right, right.any Text.isBlank = false → endMark ∉ right →
      (lineOf n right).Valid := fun _ _ hblank hmark => ⟨rfl, by simpa using hblank, hmark⟩
  let lines : List ProductionLine :=
    [lineOf start ['a', 'B', primeMark, primeMark, 'b'],
      lineOf other [primeMark, '-', '>', '&'],
      lineOf start ['a', 'B', primeMark, primeMark, 'b'],
      lineOf start ['B', primeMark]]
  have hlines : validate text = .ok lines := by
    refine validate_eq_ok_iff.2 ⟨by decide +kernel, ?_⟩
    simp only [lines, List.forall_mem_cons, List.not_mem_nil, false_implies, implies_true, and_true]
    exact ⟨hvalid _ _ rfl (by decide), hvalid _ _ rfl (by decide),
      hvalid _ _ rfl (by decide), hvalid _ _ rfl (by decide)⟩
  obtain ⟨_, haccepted, _, _, hread⟩ := parse_exact text
  obtain ⟨_, _, hrefused, _⟩ := parse_exact "S->a\r\n\n S->b$ \nab->c"
  constructor
  · obtain ⟨g, hg⟩ := haccepted.2 fun _ => isProduction_of_validate hlines
    obtain ⟨lines', hcontents, hall, horder, hbodies, hnames, hterminals⟩ := hread g hg
    obtain rfl : lines' = lines :=
      Except.ok.inj ((validate_eq_ok_iff.2 ⟨hcontents, hall⟩).symm.trans hlines)
    have hstart : g.order = [start, other] := horder.trans (by decide +kernel)
    refine ⟨g, hg, hstart, ?_, hnames.trans (by decide +kernel),
      hterminals.trans (by decide +kernel)⟩
    rw [hbodies, if_pos (by rw [hstart]; exact List.mem_cons_self)]
    decide +kernel
  · have hmark : Fault 3 ['S', '-', '>', 'b', endMark] (.reservedSymbol 3) :=
      .reserved (n := start) rfl (by simp [Text.isBlank, Text.blankRanges, endMark]) (by decide)
    refine (hrefused _).2 ⟨[['S', '-', '>', 'a'], []], _, [['a', 'b', '-', '>', 'c']],
      by decide +kernel, ?_, by decide, hmark⟩
    intro earlier hmem hne
    obtain rfl : earlier = ['S', '-', '>', 'a'] := by simpa [hne] using hmem
    exact ⟨lineOf start ['a'], rfl, hvalid _ _ rfl (by decide)⟩

end Grammar

end PredictiveParsing
