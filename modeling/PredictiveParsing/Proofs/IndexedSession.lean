/-
Module: PredictiveParsing.Proofs.IndexedSession
Layer: Proofs
Purpose: Two containers and the grammar of a session through any sequence of operations. Each
  operation reports the same error, if any, for both, and leaves containers that represent the
  grammar it leaves, also where it fails in the middle of normalizing.
Imports: PredictiveParsing.Proofs.IndexedNormalization, PredictiveParsing.Session.Indexed
Main exports: IndexedGrammar.Follows, IndexedGrammar.Represents.apply, Session.reachable_run,
  IndexedGrammar.represents_run
Open obligations: none
-/
import PredictiveParsing.Proofs.IndexedNormalization
import PredictiveParsing.Session.Indexed

namespace PredictiveParsing

/-- Any sequence of operations leads to a session that operations lead to. -/
theorem Session.reachable_run (operations : List Operation) :
    (Session.run operations).Reachable := by
  induction operations using List.reverseRecOn with
  | nil => exact .empty
  | append_singleton operations operation ih =>
      rw [Session.run, List.foldl_append]
      exact .apply operation ih

namespace IndexedGrammar

variable {c : IndexedGrammar} {g : Grammar} {s : Session}

/-- The same error, if any, and what is left in the containers is the grammar that is left. -/
def Follows (result : IndexedGrammar × Option GrammarError)
    (result' : Session × Option GrammarError) : Prop :=
  result.1.Represents result'.1.grammar ∧ result.2 = result'.2

/-- Putting a grammar that was read into a session makes no difference. -/
theorem Agrees.map_map {result : Except GrammarError IndexedGrammar}
    {result' : Except GrammarError Grammar} (h : Agrees result result') {f : Grammar → Session}
    (hf : ∀ g, (f g).grammar = g) : Agrees result ((result'.map f).map Session.grammar) := by
  cases h with
  | error e => exact .error e
  | @ok c g hrepresents =>
      have hsame : c.Represents (f g).grammar := by rwa [hf]
      exact .ok hsame

/-- What is built is represented, and what is not built fails for the same reason. -/
theorem agrees_build (text : String) :
    Agrees (build text) ((Session.build text).map Session.grammar) := by
  have hparse := agrees_parse text
  unfold build Session.build
  generalize parse text = read at hparse ⊢
  generalize hread : Grammar.parse text = read' at hparse ⊢
  cases hparse with
  | error e => exact .error e
  | @ok c g hrepresents =>
      have hmatches := hrepresents.normalizeFrom (.of_parse hread) workLimit 0
      dsimp only [normalizeWithin, Grammar.normalize, Grammar.normalizeWithin]
      generalize c.normalizeFrom workLimit 0 = result at hmatches ⊢
      generalize g.normalizeFrom workLimit 0 = result' at hmatches ⊢
      obtain ⟨normalized, obstacle?⟩ := result
      obtain ⟨normalized', obstacle?'⟩ := result'
      obtain ⟨hnormalized, rfl⟩ := hmatches
      cases obstacle? with
      | none => exact .ok hnormalized
      | some obstacle => exact .error _

namespace Represents

theorem adopt (h : c.Represents s.grammar) {result : Except GrammarError IndexedGrammar}
    {result' : Except GrammarError Session} (hread : Agrees result (result'.map Session.grammar)) :
    Follows (c.adopt result) (s.adopt result') := by
  cases result' with
  | error e =>
      cases hread
      exact ⟨h, rfl⟩
  | ok t =>
      cases hread with
      | ok hrepresents => exact ⟨hrepresents, rfl⟩

theorem adoptNormalized {result : IndexedGrammar × Option Obstacle} {result' : NormalizationResult}
    (h : Matches result result') :
    Follows (IndexedGrammar.adoptNormalized result) (s.adoptNormalized result') :=
  ⟨h.1, congrArg (Option.map GrammarError.limitExceeded) h.2⟩

/-- One operation does the same to both. -/
theorem apply (h : c.Represents s.grammar) (hg : s.grammar.WellFormed) (operation : Operation) :
    Follows (c.apply operation) (s.apply operation) := by
  cases operation with
  | reset => exact ⟨represents_empty, rfl⟩
  | parse text => exact h.adopt ((agrees_parse text).map_map fun _ => rfl)
  | build text => exact h.adopt (agrees_build text)
  | load text => exact represents_empty.adopt (s := ∅) (agrees_build text)
  | insertLine line => exact h.adopt ((h.insertLine hg.order_met line).map_map fun _ => rfl)
  | normalize => exact adoptNormalized (h.normalizeFrom hg workLimit 0)
  | normalizeWithin limit => exact adoptNormalized (h.normalizeFrom hg limit 0)
  | removeLeftRecursion n =>
      have hremove := h.removeLeftRecursion hg workLimit n
      unfold IndexedGrammar.apply Session.apply
      dsimp only
      generalize c.removeLeftRecursion workLimit n = found at hremove ⊢
      generalize s.grammar.removeLeftRecursion workLimit n = eliminated at hremove ⊢
      cases hremove with
      | none => exact ⟨h, rfl⟩
      | some hrepresents => exact ⟨hrepresents, rfl⟩
  | factor n => exact adoptNormalized (h.factor hg workLimit)
  | computeLookahead => exact ⟨h, rfl⟩
  | computeTable => exact ⟨h, rfl⟩

end Represents

/-- The containers are in step with the grammar of the session after any sequence of operations. -/
theorem represents_run (operations : List Operation) :
    (run operations).Represents (Session.run operations).grammar := by
  induction operations using List.reverseRecOn with
  | nil => exact represents_empty
  | append_singleton operations operation ih =>
      have hg := (Session.reachable_run operations).wellFormed
      rw [run, Session.run, List.foldl_append, List.foldl_append]
      exact (ih.apply hg operation).1

end IndexedGrammar

end PredictiveParsing
