/-
Module: PredictiveParsing.Proofs.LeftmostDerivation
Layer: Proofs
Purpose: Leftmost derivations with their steps. Each step names the terminals in front, the leftmost
  nonterminal and the body that replaces it. A parser does not see the whole sentential form but
  keeps the terminals in front and a stack with the rest apart; a derivation of a string of
  terminals read in this way unfolds the stack.
Imports: PredictiveParsing.Proofs.Derivation
Main exports: LeftmostStep, Grammar.LeftmostDerivation, Grammar.Unfolds,
  Grammar.leftmostDerivation_iff_unfolds, Grammar.unfolds_append_terminal_iff
Open obligations: none
-/
import PredictiveParsing.Proofs.Derivation

namespace PredictiveParsing

/-- A step of a leftmost derivation. -/
structure LeftmostStep where
  /-- The terminals that stand before the nonterminal. -/
  front : List Char
  nonTerminal : NonTerminal
  /-- The body that takes the place of the nonterminal. -/
  body : Body
deriving DecidableEq

/-- The production that a step applies. -/
def LeftmostStep.production (step : LeftmostStep) : NonTerminal × Body :=
  (step.nonTerminal, step.body)

namespace Grammar

/-- The steps lead from one form to another, and each replaces the leftmost nonterminal. -/
inductive LeftmostDerivation (g : Grammar) :
    List Symbol → List LeftmostStep → List Symbol → Prop where
  | refl (σ : List Symbol) : LeftmostDerivation g σ [] σ
  | step {front : List Char} {n : NonTerminal} {p : Body} {v : List Symbol}
      {steps : List LeftmostStep} {τ : List Symbol} (h : g.Produces n p)
      (rest : LeftmostDerivation g (word front ++ (p ++ v)) steps τ) :
      LeftmostDerivation g (word front ++ .nonTerminal n :: v) (⟨front, n, p⟩ :: steps) τ

/-- A stack, its top first, unfolds to the rest of a string: a terminal on top is the next
character, a nonterminal on top is replaced by one of its bodies. `front` holds the characters that
were already passed. -/
inductive Unfolds (g : Grammar) : (front : List Char) → (stack : List Symbol) →
    List LeftmostStep → (rest : List Char) → Prop where
  | nil (front : List Char) : Unfolds g front [] [] []
  | shift {front : List Char} {c : Char} {below : List Symbol} {steps : List LeftmostStep}
      {later : List Char} (h : Unfolds g (front ++ [c]) below steps later) :
      Unfolds g front (.terminal c :: below) steps (c :: later)
  | predict {front : List Char} {n : NonTerminal} {p : Body} {below : List Symbol}
      {steps : List LeftmostStep} {rest : List Char} (hp : g.Produces n p)
      (h : Unfolds g front (p ++ below) steps rest) :
      Unfolds g front (.nonTerminal n :: below) (⟨front, n, p⟩ :: steps) rest

variable {g : Grammar}

theorem LeftmostDerivation.derives {σ τ : List Symbol} {steps : List LeftmostStep}
    (h : g.LeftmostDerivation σ steps τ) : g.Derives σ τ := by
  induction h with
  | refl => exact Derives.refl _
  | step hp _ ih => exact ((hp.derives_cons (Derives.refl _)).append_left _).trans ih

/-- Terminals in front stay there. -/
theorem derives_word_append_iff {u : List Char} {σ τ : List Symbol} :
    g.Derives (word u ++ σ) τ ↔ ∃ tail, τ = word u ++ tail ∧ g.Derives σ tail := by
  induction u generalizing τ with
  | nil => simp
  | cons c u ih =>
      rw [word_cons, List.cons_append, derives_terminal_cons_iff]
      constructor
      · intro h
        obtain ⟨τ', rfl, h'⟩ := h
        obtain ⟨tail, rfl, htail⟩ := ih.1 h'
        exact ⟨tail, rfl, htail⟩
      · intro h
        obtain ⟨tail, rfl, htail⟩ := h
        exact ⟨word u ++ tail, rfl, ih.2 ⟨tail, rfl, htail⟩⟩

/-- The terminals before the first nonterminal of a form begin with those that are known to stand in
front. -/
theorem exists_word_of_append_eq {front u : List Char} {n : NonTerminal} {v σ : List Symbol}
    (h : word front ++ .nonTerminal n :: v = word u ++ σ) :
    ∃ between, front = u ++ between ∧ σ = word between ++ .nonTerminal n :: v := by
  induction u generalizing front with
  | nil => exact ⟨front, rfl, h.symm⟩
  | cons c u ih =>
      cases front with
      | nil => cases h
      | cons d front =>
          obtain ⟨hhead, htail⟩ := List.cons.inj h
          cases hhead
          obtain ⟨between, rfl, hσ⟩ := ih htail
          exact ⟨between, rfl, hσ⟩

theorem eq_word_of_append_eq {u w : List Char} {σ : List Symbol} (h : word u ++ σ = word w) :
    ∃ rest, w = u ++ rest ∧ σ = word rest := by
  induction u generalizing w with
  | nil => exact ⟨w, rfl, h⟩
  | cons c u ih =>
      cases w with
      | nil => cases h
      | cons d w =>
          obtain ⟨hhead, htail⟩ := List.cons.inj h
          cases hhead
          obtain ⟨rest, rfl, hσ⟩ := ih htail
          exact ⟨rest, rfl, hσ⟩

namespace Unfolds

/-- Terminals on top of the stack are passed one by one. -/
theorem shift_word {u passed rest : List Char} {below : List Symbol} {steps : List LeftmostStep}
    (h : g.Unfolds (u ++ passed) below steps rest) :
    g.Unfolds u (word passed ++ below) steps (passed ++ rest) := by
  induction passed generalizing u with
  | nil => simpa using h
  | cons c passed ih =>
      apply Unfolds.shift
      apply ih
      simpa using h

theorem derives {u rest : List Char} {stack : List Symbol} {steps : List LeftmostStep}
    (h : g.Unfolds u stack steps rest) : g.Derives stack (word rest) := by
  induction h with
  | nil => exact Derives.refl []
  | @shift _ c _ _ _ _ ih => exact ih.append_left [.terminal c]
  | predict hp _ ih => exact hp.derives_cons ih

/-- Unfolding a stack is a leftmost derivation behind the characters that were passed. -/
theorem leftmostDerivation {u rest : List Char} {stack : List Symbol} {steps : List LeftmostStep}
    (h : g.Unfolds u stack steps rest) :
    g.LeftmostDerivation (word u ++ stack) steps (word (u ++ rest)) := by
  induction h with
  | nil front =>
      rw [List.append_nil, List.append_nil]
      exact .refl _
  | shift _ ih => simpa using ih
  | predict hp _ ih => exact .step hp ih

end Unfolds

/-- Every leftmost derivation of a string arises from unfolding a stack. -/
theorem LeftmostDerivation.unfolds {u w : List Char} {σ : List Symbol} {steps : List LeftmostStep}
    (h : g.LeftmostDerivation (word u ++ σ) steps (word (u ++ w))) : g.Unfolds u σ steps w := by
  generalize hform : word u ++ σ = form at h
  generalize hend : word (u ++ w) = τ at h
  induction h generalizing u σ w with
  | refl =>
      rw [← hform, word_append] at hend
      cases List.append_cancel_left hend
      simpa using (Unfolds.nil (u ++ w) : g.Unfolds _ _ _ _).shift_word
  | @step front n p v steps τ hp hrest ih =>
      -- What is passed before the step stands in the derived string, as terminals stay in front.
      obtain ⟨between, rfl, rfl⟩ := exists_word_of_append_eq hform.symm
      obtain ⟨tail, hτ, _⟩ := derives_word_append_iff.1 hrest.derives
      obtain ⟨later, hw, rfl⟩ := eq_word_of_append_eq (hτ.symm.trans hend.symm)
      rw [List.append_assoc] at hw
      cases List.append_cancel_left hw
      apply Unfolds.shift_word
      apply Unfolds.predict hp
      apply ih rfl
      rw [← hend, List.append_assoc]

theorem leftmostDerivation_iff_unfolds {u w : List Char} {σ : List Symbol}
    {steps : List LeftmostStep} :
    g.LeftmostDerivation (word u ++ σ) steps (word (u ++ w)) ↔ g.Unfolds u σ steps w :=
  ⟨LeftmostDerivation.unfolds, Unfolds.leftmostDerivation⟩

/-- A terminal at the bottom of the stack is the last character, and nothing else depends on it. -/
theorem unfolds_append_terminal_iff {u rest : List Char} {c : Char} {stack : List Symbol}
    {steps : List LeftmostStep} :
    g.Unfolds u (stack ++ [.terminal c]) steps rest ↔
      ∃ w, rest = w ++ [c] ∧ g.Unfolds u stack steps w := by
  constructor
  · intro h
    generalize hbottom : stack ++ [Symbol.terminal c] = whole at h
    induction h generalizing stack with
    | nil => simp at hbottom
    | @shift front d below steps later h ih =>
        cases stack with
        | nil =>
            obtain ⟨hd, rfl⟩ := List.cons.inj hbottom
            cases hd
            cases h
            exact ⟨[], rfl, .nil _⟩
        | cons s stack =>
            obtain ⟨rfl, rfl⟩ := List.cons.inj hbottom
            obtain ⟨w, rfl, hw⟩ := ih rfl
            exact ⟨d :: w, rfl, .shift hw⟩
    | @predict front n p below steps rest hp h ih =>
        cases stack with
        | nil => cases hbottom
        | cons s stack =>
            obtain ⟨rfl, rfl⟩ := List.cons.inj hbottom
            obtain ⟨w, rfl, hw⟩ := ih (List.append_assoc _ _ _)
            exact ⟨w, rfl, .predict hp hw⟩
  · intro h
    obtain ⟨w, rfl, h⟩ := h
    induction h with
    | nil front => exact .shift (.nil _)
    | shift _ ih => exact .shift ih
    | predict hp _ ih =>
        apply Unfolds.predict hp
        have hassoc := ih
        rw [List.append_assoc] at hassoc
        exact hassoc

end Grammar

end PredictiveParsing
