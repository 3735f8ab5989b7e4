/-
Module: PredictiveParsing.Proofs.CommandLine
Layer: Proofs
Purpose: What the command line prints as a whole. The outputs stand in front of the arguments, and
  neither reading the options nor building the grammar depends on them; so a run prints one output
  after the other as the runs with these outputs alone do. A run that fails does so before anything
  is printed, with one message, which is one line unless it is the system's.
Imports: Mathlib, PredictiveParsing.CommandLine
Main exports: Session.isLine_message_of_build, CommandLine.plan_cases, CommandLine.run_failure,
  CommandLine.run_outputs, CommandLine.run_all_or_nothing
Open obligations: none
-/
import Mathlib
import PredictiveParsing.CommandLine

namespace PredictiveParsing

/-! ### Texts on one line -/

/-- The text has no line break. -/
def IsLine (text : String) : Prop := '\n' ∉ text.toList

instance (text : String) : Decidable (IsLine text) :=
  inferInstanceAs (Decidable (¬ '\n' ∈ text.toList))

theorem isLine_append {one two : String} : IsLine (one ++ two) ↔ IsLine one ∧ IsLine two := by
  simp [IsLine, String.toList_append, not_or]

theorem isLine_toString_nat (n : Nat) : IsLine (toString n) := by
  intro hmem
  have hdigits : '\n' ∈ Nat.toDigits 10 n := by rwa [← Nat.toList_repr]
  have hdigit := Nat.isDigit_of_mem_toDigits (by omega) (by omega) hdigits
  exact absurd hdigit (by decide)

theorem NonTerminal.isLine_toString (n : NonTerminal) : IsLine n.toString := by
  rw [IsLine, NonTerminal.toString, String.toList_ofList]
  exact n.not_mem_text rfl (by decide)

/-! ### Messages -/

/-- A line that is not a production is shown as it is, and it is one line. -/
theorem ProductionLine.isLine_message_of_check {number : Nat} {content : List Char}
    {e : GrammarError} (hcontent : '\n' ∉ content) (h : check number content = .error e) :
    IsLine e.message := by
  have hinvalid :
      IsLine (GrammarError.invalidProduction number (String.ofList content)).message := by
    simp only [GrammarError.message, isLine_append, isLine_toString_nat, and_true]
    refine ⟨⟨⟨by decide, by decide⟩, ?_⟩, by decide⟩
    rw [IsLine, String.toList_ofList]
    exact hcontent
  have hreserved : IsLine (GrammarError.reservedSymbol number).message := by
    simp only [GrammarError.message, isLine_append, isLine_toString_nat, and_true]
    decide
  unfold check at h
  split at h
  · cases h
    exact hinvalid
  · split at h
    · cases h
      exact hinvalid
    · split at h
      · cases h
        exact hinvalid
      · split at h
        · cases h
          exact hreserved
        · cases h

theorem ProductionLine.isLine_message_of_checkAll {lines : List (List Char × Nat)}
    {e : GrammarError} (hlines : ∀ line ∈ lines, '\n' ∉ line.1) (h : checkAll lines = .error e) :
    IsLine e.message := by
  fun_induction checkAll lines with
  | case1 => cases h
  | case2 _ _ _ _ _ ih =>
      exact ih (fun line hline => hlines line (List.mem_cons_of_mem _ hline)) h
  | case3 line number rest content _ e' hcheck =>
      cases h
      have hline : '\n' ∉ line := hlines (line, number) List.mem_cons_self
      exact isLine_message_of_check (fun hmem => hline (Text.mem_of_mem_trim hmem)) hcheck
  | case4 _ _ _ _ _ _ _ e' hrest ih =>
      cases h
      exact ih (fun line hline => hlines line (List.mem_cons_of_mem _ hline)) hrest
  | case5 => cases h

/-- What is wrong with the text of a grammar is told on one line. -/
theorem Session.isLine_message_of_build {text : String} {e : GrammarError}
    (h : Session.build text = .error e) : IsLine e.message := by
  have hlines : ∀ line ∈ (Text.lines text.toList).zipIdx 1, '\n' ∉ line.1 :=
    fun line hline => Text.not_mem_of_mem_lines (List.fst_mem_of_mem_zipIdx hline)
  unfold Session.build Grammar.parse Grammar.validate at h
  cases hcheck : ProductionLine.checkAll ((Text.lines text.toList).zipIdx 1) with
  | error e' =>
      rw [hcheck] at h
      cases h
      exact ProductionLine.isLine_message_of_checkAll hlines hcheck
  | ok productions =>
      rw [hcheck] at h
      rcases hresult : (Grammar.ofLines productions).normalize with ⟨normalized, _ | obstacle⟩
      · simp only [Except.map, hresult] at h
        cases h
      · simp only [Except.map, hresult] at h
        cases h
        simp only [GrammarError.message, isLine_append, obstacle.nonTerminal.isLine_toString]
        decide

namespace CommandLine

/-! ### Arguments -/

/-- Whether an argument names an output. -/
def namesOutput (argument : String) : Bool := (Output.ofArgument? argument).isSome

/-- The outputs are named by the arguments up to the first that names none. -/
theorem readOutputs_eq (arguments : List String) :
    readOutputs arguments =
      ((arguments.takeWhile namesOutput).filterMap Output.ofArgument?,
        arguments.dropWhile namesOutput) := by
  induction arguments with
  | nil => rfl
  | cons argument rest ih =>
      rw [readOutputs]
      cases hname : Output.ofArgument? argument with
      | none =>
          have hnot : namesOutput argument = false := by rw [namesOutput, hname]; rfl
          simp [hnot]
      | some output =>
          have hnames : namesOutput argument = true := by rw [namesOutput, hname]; rfl
          simp [hnames, hname, ih]

/-- The plan that is made of arguments, by the outputs they name and by what stands behind. -/
theorem plan_eq (arguments : List String) :
    plan arguments =
      readOptions (planOutputs ((arguments.takeWhile namesOutput).filterMap Output.ofArgument?))
        ⟨.plain, []⟩ (arguments.dropWhile namesOutput) := by
  rw [plan, readOutputs_eq]

/-- The plan for one output in front of what stands behind the outputs of a list of arguments. -/
theorem plan_cons_dropWhile {word : String} {output : Output}
    (hword : Output.ofArgument? word = some output) (arguments : List String) :
    plan (word :: arguments.dropWhile namesOutput) =
      readOptions (planOutputs [output]) ⟨.plain, []⟩ (arguments.dropWhile namesOutput) := by
  have hnames : namesOutput word = true := by rw [namesOutput, hword]; rfl
  have hrest : (arguments.dropWhile namesOutput).dropWhile namesOutput =
      arguments.dropWhile namesOutput := List.dropWhile_idempotent _ _
  have hnone : (arguments.dropWhile namesOutput).takeWhile namesOutput = [] := by
    have hsplit := List.takeWhile_append_dropWhile (p := namesOutput)
      (l := arguments.dropWhile namesOutput)
    rw [hrest] at hsplit
    exact List.append_left_eq_self.1 hsplit
  rw [plan_eq, List.takeWhile_cons_of_pos hnames, List.dropWhile_cons_of_pos hnames, hnone, hrest]
  simp [hword]

/-- What reading the options comes to does not depend on what is done with them. -/
theorem readOptions_cases (options : Options) (arguments : List String) :
    (∀ finish, readOptions finish options arguments = .help) ∨
      (∀ finish, readOptions finish options arguments = .complain "-i needs an argument") ∨
      ∃ options' rest, ∀ finish, readOptions finish options arguments = finish options' rest := by
  induction options, arguments using readOptions.induct with
  | case1 => exact Or.inl fun _ => by rw [readOptions]
  | case2 => exact Or.inl fun _ => by rw [readOptions]
  | case3 _ _ ih => simpa only [readOptions] using ih
  | case4 _ _ ih => simpa only [readOptions] using ih
  | case5 _ _ _ ih => simpa only [readOptions] using ih
  | case6 => exact Or.inr (Or.inl fun _ => by rw [readOptions])
  | case7 options rest hshort hlong htex hjson hinput hdangling =>
      refine Or.inr (Or.inr ⟨options, rest, fun _ => ?_⟩)
      rw [readOptions]
      all_goals assumption

/-- Arguments ask for the help, are complained about on one line, or are answered. In the last case
they name some output, and any one of the outputs in place of all is answered in the same way. -/
theorem plan_cases (arguments : List String) :
    plan arguments = .help ∨
      (∃ message, plan arguments = .complain message ∧ IsLine message) ∨
      ∃ request, plan arguments = .answer request ∧
        request.outputs = (arguments.takeWhile namesOutput).filterMap Output.ofArgument? ∧
        request.outputs ≠ [] ∧
        ∀ word output, Output.ofArgument? word = some output → output ∈ request.outputs →
          plan (word :: arguments.dropWhile namesOutput) =
            .answer { request with outputs := [output] } := by
  rw [plan_eq]
  rcases readOptions_cases ⟨.plain, []⟩ (arguments.dropWhile namesOutput) with
    hhelp | hcomplain | ⟨options, rest, hfinish⟩
  · exact Or.inl (hhelp _)
  · exact Or.inr (Or.inl ⟨_, hcomplain _, by decide⟩)
  · rw [hfinish, planOutputs]
    split
    · exact Or.inl rfl
    · next hfew =>
      split
      · exact Or.inr (Or.inl ⟨_, rfl, by decide⟩)
      · next htrace =>
        simp only [Bool.or_eq_true, decide_eq_true_eq, not_or] at hfew
        refine Or.inr (Or.inr ⟨_, rfl, rfl, hfew.1, ?_⟩)
        intro word output hword hmem
        have hinputs : ¬ (.trace ∈ [output] ∧ options.inputs = []) := by
          intro hboth
          rw [List.mem_singleton] at hboth
          exact htrace ⟨hboth.1 ▸ hmem, hboth.2⟩
        rw [plan_cons_dropWhile hword, hfinish, planOutputs, if_neg (by simpa using hfew.2),
          if_neg hinputs]

theorem exists_output_of_mem {arguments : List String} {word : String}
    (h : word ∈ arguments.takeWhile namesOutput) :
    ∃ output, Output.ofArgument? word = some output ∧
      output ∈ (arguments.takeWhile namesOutput).filterMap Output.ofArgument? := by
  have hnames : namesOutput word = true := List.mem_takeWhile_imp h
  obtain ⟨output, houtput⟩ := Option.isSome_iff_exists.1 hnames
  exact ⟨output, houtput, List.mem_filterMap.2 ⟨word, h, houtput⟩⟩

/-! ### Outcomes -/

theorem printed_append (lines more : List String) :
    printed (lines ++ more) = printed lines ++ printed more := by
  simp [printed]

/-- Lines that come from several sources are printed one source after the other. -/
theorem printed_flatMap {α : Type} (f : α → List String) (sources : List α) :
    printed (sources.flatMap f) = String.join (sources.map fun source => printed (f source)) := by
  induction sources with
  | nil => rfl
  | cons source rest ih =>
      rw [List.flatMap_cons, printed_append, ih, List.map_cons, String.join_cons]

theorem failure_eq (message : String) :
    failure message = ⟨1, "", "error: " ++ message ++ "\n"⟩ := by
  simp [failure, printed]

variable {stdin : Except ReadError String} {file : String → Except ReadError String}

/-- A request that is answered without failure is for a text of a grammar that can be built. -/
theorem exists_of_respond {request : Request} {content : Except ReadError String}
    (h : (respond request content).exitCode = 0) :
    ∃ text s, content = .ok text ∧ Session.build text = .ok s := by
  cases content with
  | error e => cases h
  | ok text =>
      cases hbuild : Session.build text with
      | error e =>
          rw [respond, hbuild] at h
          cases h
      | ok s => exact ⟨text, s, rfl, hbuild⟩

theorem respond_ok (request : Request) {text : String} {s : Session}
    (h : Session.build text = .ok s) :
    (respond request (.ok text)).exitCode = 0 ∧
      (respond request (.ok text)).stdout =
        printed (request.outputs.flatMap (outputTexts s request.options)) := by
  rw [respond, h]
  exact ⟨rfl, rfl⟩

/-- A request that fails makes one message. -/
theorem respond_failure {request : Request} {content : Except ReadError String}
    (h : (respond request content).exitCode ≠ 0) :
    ∃ message, respond request content = failure message ∧
      (IsLine message ∨ ∃ e, content = .error e ∧ message = e.message) := by
  cases content with
  | error e => exact ⟨e.message, rfl, Or.inr ⟨e, rfl, rfl⟩⟩
  | ok text =>
      cases hbuild : Session.build text with
      | error e =>
          refine ⟨e.message, ?_, Or.inl (Session.isLine_message_of_build hbuild)⟩
          rw [respond, hbuild]
      | ok s => exact absurd (respond_ok request hbuild).1 h

theorem run_failure {arguments : List String} (h : (run arguments stdin file).exitCode ≠ 0) :
    ∃ message, run arguments stdin file = failure message ∧
      (IsLine message ∨
        ∃ e, (stdin = .error e ∨ ∃ name, file name = .error e) ∧ message = e.message) := by
  unfold run at h ⊢
  rcases plan_cases arguments with hplan | ⟨message, hplan, hline⟩ | ⟨request, hplan, _⟩
  · rw [hplan] at h
    exact absurd rfl h
  · rw [hplan]
    exact ⟨message, rfl, Or.inl hline⟩
  · rw [hplan] at h ⊢
    obtain ⟨message, hrespond, hmessage⟩ := respond_failure h
    refine ⟨message, hrespond, ?_⟩
    rcases hmessage with hline | ⟨e, hcontent, rfl⟩
    · exact Or.inl hline
    · refine Or.inr ⟨e, ?_, rfl⟩
      cases hfile : request.file? with
      | none =>
          rw [hfile] at hcontent
          exact Or.inl hcontent
      | some name =>
          rw [hfile] at hcontent
          exact Or.inr ⟨name, hcontent⟩

/-- A run that is to answer for one output of a request prints the texts of that output. -/
theorem run_single {arguments : List String} {request : Request} {output : Output} {text : String}
    {s : Session} (hplan : plan arguments = .answer { request with outputs := [output] })
    (hcontent : request.file?.elim stdin file = .ok text) (hbuild : Session.build text = .ok s) :
    (run arguments stdin file).exitCode = 0 ∧ plan arguments ≠ .help ∧
      (run arguments stdin file).stdout = printed (outputTexts s request.options output) := by
  obtain ⟨hcode, hstdout⟩ := respond_ok { request with outputs := [output] } hbuild
  rw [run, hplan]
  simp only [hcontent]
  refine ⟨hcode, nofun, ?_⟩
  rw [hstdout, List.flatMap_singleton]

/-- A run that answers prints what the runs with one of its outputs each print. -/
theorem run_outputs {arguments : List String} (hdone : (run arguments stdin file).exitCode = 0)
    (hhelp : plan arguments ≠ .help) :
    arguments.takeWhile namesOutput ≠ [] ∧
      (∀ word ∈ arguments.takeWhile namesOutput,
        (run (word :: arguments.dropWhile namesOutput) stdin file).exitCode = 0 ∧
          plan (word :: arguments.dropWhile namesOutput) ≠ .help) ∧
      (run arguments stdin file).stdout =
        String.join ((arguments.takeWhile namesOutput).map fun word =>
          (run (word :: arguments.dropWhile namesOutput) stdin file).stdout) := by
  rcases plan_cases arguments with
    hplan | ⟨message, hplan, _⟩ | ⟨request, hplan, houtputs, hne, hone⟩
  · exact absurd hplan hhelp
  · rw [run, hplan] at hdone
    cases hdone
  · have hrun : run arguments stdin file =
        respond request (request.file?.elim stdin file) := by rw [run, hplan]
    rw [hrun] at hdone ⊢
    obtain ⟨text, s, hcontent, hbuild⟩ := exists_of_respond hdone
    have hsingle : ∀ word ∈ arguments.takeWhile namesOutput, ∃ output,
        Output.ofArgument? word = some output ∧
          plan (word :: arguments.dropWhile namesOutput) =
            .answer { request with outputs := [output] } := by
      intro word hword
      obtain ⟨output, houtput, hmem⟩ := exists_output_of_mem hword
      exact ⟨output, houtput, hone word output houtput (houtputs ▸ hmem)⟩
    refine ⟨?_, ?_, ?_⟩
    · intro hnone
      rw [houtputs, hnone] at hne
      exact hne rfl
    · intro word hword
      obtain ⟨output, _, hanswer⟩ := hsingle word hword
      obtain ⟨hcode, hnot, _⟩ := run_single hanswer hcontent hbuild
      exact ⟨hcode, hnot⟩
    · have htexts : ∀ word ∈ arguments.takeWhile namesOutput,
          (Output.ofArgument? word).map
              (fun output => printed (outputTexts s request.options output)) =
            some (run (word :: arguments.dropWhile namesOutput) stdin file).stdout := by
        intro word hword
        obtain ⟨output, houtput, hanswer⟩ := hsingle word hword
        obtain ⟨_, _, hstdout⟩ := run_single hanswer hcontent hbuild
        rw [houtput, Option.map_some, hstdout]
      rw [hcontent, (respond_ok request hbuild).2, printed_flatMap, houtputs, List.map_filterMap,
        List.filterMap_congr htexts, List.filterMap_eq_map']

end CommandLine

end PredictiveParsing
