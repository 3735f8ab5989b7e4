/-
Module: PredictiveParsing.Proofs.FirstSets
Layer: Proofs
Purpose: FIRST sets are exact. Every character that a round adds announces how a derived string can
  begin, or that it can be empty. Where rounds end, the sets are closed under the productions, and
  then applying a production to a form never enlarges what the form can begin with, so that nothing
  is missing.
Imports: PredictiveParsing.Lookahead.First, PredictiveParsing.Proofs.Saturation,
  PredictiveParsing.Proofs.WellFormed
Main exports: Grammar.Announces, Grammar.FirstClosed, Grammar.firstRound_firstSets,
  Grammar.FirstClosed.mem_firstOf_of_derives, Grammar.mem_firstOf_firstSets_iff
Open obligations: none
-/
import PredictiveParsing.Lookahead.First
import PredictiveParsing.Proofs.Saturation
import PredictiveParsing.Proofs.WellFormed

namespace PredictiveParsing

open Relation

/-! ### FIRST sets of forms -/

theorem mem_firstOf_cons {first : CharSets} {s : Symbol} {rest : List Symbol} {c : Char} :
    c ∈ firstOf first (s :: rest) ↔ (c ∈ firstOfSymbol first s ∧ c ≠ emptyMark) ∨
      (emptyMark ∈ firstOfSymbol first s ∧ c ∈ firstOf first rest) := by
  rw [firstOf]
  rcases Decidable.em (emptyMark ∈ firstOfSymbol first s) with h | h
  · simp [h]
  · simp only [h, if_false, false_and, or_false, iff_self_and]
    intro hc heq
    exact h (heq ▸ hc)

/-- A form begins as its first part does or, if that can vanish, as the rest does. -/
theorem mem_firstOf_append {first : CharSets} {σ τ : List Symbol} {c : Char} :
    c ∈ firstOf first (σ ++ τ) ↔ (c ∈ firstOf first σ ∧ c ≠ emptyMark) ∨
      (emptyMark ∈ firstOf first σ ∧ c ∈ firstOf first τ) := by
  induction σ with
  | nil => simp [firstOf]
  | cons s rest ih =>
      rw [List.cons_append, mem_firstOf_cons, mem_firstOf_cons, mem_firstOf_cons, ih]
      grind

theorem mem_firstOf_nonTerminal {first : CharSets} {n : NonTerminal} {c : Char} :
    c ∈ firstOf first [.nonTerminal n] ↔ c ∈ first.charsOf n := by
  rw [mem_firstOf_cons]
  simp only [firstOfSymbol, firstOf, OrderedSet.mem_singleton]
  grind

namespace Grammar

/-- What it means that a character is in the FIRST set of a form: a form with that character in
front can be derived, or in the case of the empty mark the empty form. -/
def Announces (g : Grammar) (σ : List Symbol) (c : Char) : Prop :=
  (c = emptyMark ∧ g.Derives σ []) ∨ (c ≠ emptyMark ∧ ∃ τ, g.Derives σ (.terminal c :: τ))

/-- The sets of the nonterminals that were met, with nothing in them that is not derived. -/
structure FirstSound (g : Grammar) (first : CharSets) : Prop where
  keys : first.keys = g.nonTerminals
  announces : ∀ n, ∀ c ∈ first.charsOf n, g.Announces [.nonTerminal n] c

/-- The set of a nonterminal includes the FIRST sets of its bodies. -/
def FirstClosed (g : Grammar) (first : CharSets) : Prop :=
  ∀ n p, g.Produces n p → ∀ c ∈ firstOf first p, c ∈ first.charsOf n

variable {g : Grammar} {first : CharSets}

theorem charsOf_emptySets (n : NonTerminal) : g.emptySets.charsOf n = ∅ := by
  rw [CharSets.charsOf, OrderedMap.getD, emptySets, OrderedMap.get?_const]
  split <;> rfl

/-- The empty mark does not occur in the forms of a well formed grammar. -/
theorem WellFormed.emptyMark_not_mem (hg : g.WellFormed) {n : NonTerminal} {p : Body}
    (hp : g.Produces n p) : .terminal emptyMark ∉ p := by
  intro hmem
  have hmark := (hg.body_met n p hp _ hmem).2
  cases hmark

/-! ### Nothing is in the sets that is not derived -/

theorem FirstSound.announces_of_mem_firstOf (h : g.FirstSound first) {σ : List Symbol} {c : Char}
    (hσ : .terminal emptyMark ∉ σ) (hc : c ∈ firstOf first σ) : g.Announces σ c := by
  induction σ generalizing c with
  | nil =>
      rw [firstOf, OrderedSet.mem_singleton] at hc
      exact Or.inl ⟨hc, Derives.refl []⟩
  | cons s rest ih =>
      have hsymbol : ∀ d ∈ firstOfSymbol first s, g.Announces [s] d := by
        intro d hd
        cases s with
        | terminal t =>
            rw [firstOfSymbol, OrderedSet.mem_singleton] at hd
            subst hd
            refine Or.inr ⟨?_, [], Derives.refl _⟩
            intro heq
            exact hσ (heq ▸ List.mem_cons_self)
        | nonTerminal n => exact h.announces n d hd
      rcases mem_firstOf_cons.1 hc with ⟨hfront, hne⟩ | ⟨hvanish, hrest⟩
      · rcases hsymbol c hfront with ⟨heq, _⟩ | ⟨_, τ, hτ⟩
        · exact absurd heq hne
        · exact Or.inr ⟨hne, τ ++ rest, hτ.append_right rest⟩
      · -- The first symbol vanishes, and the form begins as the rest does.
        have hrest' : g.Derives (s :: rest) rest := by
          rcases hsymbol emptyMark hvanish with ⟨_, hnil⟩ | ⟨hne, _⟩
          · exact hnil.append_right rest
          · exact absurd rfl hne
        rcases ih (fun hmem => hσ (List.mem_cons_of_mem _ hmem)) hrest with
          ⟨heq, hnil⟩ | ⟨hne, τ, hτ⟩
        · exact Or.inl ⟨heq, hrest'.trans hnil⟩
        · exact Or.inr ⟨hne, τ, hrest'.trans hτ⟩

theorem firstSound_emptySets : g.FirstSound g.emptySets where
  keys := OrderedMap.keys_const _ _
  announces := by
    intro n c hc
    rw [charsOf_emptySets] at hc
    exact absurd hc (OrderedSet.not_mem_empty c)

/-- A round for FIRST meets the demands of the rules. -/
theorem firstRound_eq_sweep : g.firstRound first =
    CharSets.sweep Rule.head
      (fun sets rule => rule.bodies.toList.flatMap fun p => (firstOf sets p).toList)
      g.rules first := rfl

theorem head_mem_keys (hg : g.WellFormed) (h : first.keys = g.nonTerminals) :
    ∀ rule ∈ g.rules, rule.head ∈ first.keys := by
  intro rule hrule
  rw [h]
  exact hg.order_met _ (List.mem_map_of_mem hrule)

theorem FirstSound.firstRound (hg : g.WellFormed) (h : g.FirstSound first) :
    g.FirstSound (g.firstRound first) := by
  rw [firstRound_eq_sweep]
  apply CharSets.sweep_induction g.FirstSound h
  intro sets hsets rule hrule
  constructor
  · rw [CharSets.keys_extend (head_mem_keys hg hsets.keys rule hrule), hsets.keys]
  · intro n c hc
    rcases CharSets.mem_charsOf_extend.1 hc with hold | ⟨rfl, hnew⟩
    · exact hsets.announces n c hold
    · obtain ⟨p, hp, hcp⟩ := List.mem_flatMap.1 hnew
      have hproduces : g.Produces rule.head p := ⟨rule, hrule, rfl, hp⟩
      rcases hsets.announces_of_mem_firstOf (hg.emptyMark_not_mem hproduces) hcp with
        ⟨heq, hnil⟩ | ⟨hne, τ, hτ⟩
      · exact Or.inl ⟨heq, hproduces.derives.trans hnil⟩
      · exact Or.inr ⟨hne, τ, hproduces.derives.trans hτ⟩

theorem firstSound_firstSets (hg : g.WellFormed) : g.FirstSound g.firstSets :=
  CharSets.saturate_induction g.FirstSound firstSound_emptySets fun _ => FirstSound.firstRound hg

/-! ### The sets are closed -/

/-- A form that uses terminals of the grammar begins with these only. -/
theorem Announces.mem_range (hg : g.WellFormed) {σ : List Symbol}
    (hσ : ∀ t, .terminal t ∈ σ → t ∈ g.terminals) {c : Char} (h : g.Announces σ c) :
    c ∈ emptyMark :: g.terminals.toList := by
  rcases h with ⟨rfl, _⟩ | ⟨_, τ, hτ⟩
  · exact List.mem_cons_self
  · apply List.mem_cons_of_mem
    rcases hτ.mem_or_produces List.mem_cons_self with hself | ⟨m, p, hp, hmem⟩
    · exact hσ c hself
    · exact (hg.body_met m p hp _ hmem).1

theorem FirstSound.total_le (hg : g.WellFormed) (h : g.FirstSound first) :
    first.total ≤ g.lookaheadBound := by
  have hrange : ∀ n, ∀ c ∈ first.charsOf n, c ∈ emptyMark :: g.terminals.toList := by
    intro n c hc
    exact (h.announces n c hc).mem_range hg fun t ht => by cases List.mem_singleton.1 ht
  have htotal := CharSets.total_le hrange
  rw [h.keys, List.length_cons] at htotal
  exact htotal

/-- A round for FIRST that does not increase the total changes nothing. -/
theorem FirstSound.firstRound_eq (hg : g.WellFormed) (h : g.FirstSound first)
    (hle : (g.firstRound first).total ≤ first.total) : g.firstRound first = first :=
  (CharSets.sweep_of_total_le (head_mem_keys hg h.keys) hle).2

/-- Where the rounds for FIRST end, another round changes nothing. -/
theorem firstRound_firstSets (hg : g.WellFormed) : g.firstRound g.firstSets = g.firstSets := by
  apply CharSets.round_saturate g.FirstSound firstSound_emptySets
  · exact fun _ => FirstSound.firstRound hg
  · exact fun _ => FirstSound.total_le hg
  · exact fun _ => FirstSound.firstRound_eq hg

theorem firstClosed_firstSets (hg : g.WellFormed) : g.FirstClosed g.firstSets := by
  intro n p hp c hc
  obtain ⟨rule, hrule, rfl, hbody⟩ := hp
  have hle : (g.firstRound g.firstSets).total ≤ g.firstSets.total := by
    rw [firstRound_firstSets hg]
  have hkeys := head_mem_keys hg (firstSound_firstSets hg).keys
  exact (CharSets.sweep_of_total_le hkeys hle).1 rule hrule c (List.mem_flatMap.2 ⟨p, hbody, hc⟩)

/-! ### Nothing that is derived is missing from closed sets -/

/-- Applying a production does not let a form begin with anything new. -/
theorem FirstClosed.mem_firstOf_of_step (h : g.FirstClosed first) {σ τ : List Symbol}
    (hstep : g.Step σ τ) {c : Char} (hc : c ∈ firstOf first τ) : c ∈ firstOf first σ := by
  cases hstep with
  | @expand u v n p hp =>
      have hbody : ∀ d ∈ firstOf first p, d ∈ firstOf first [.nonTerminal n] := fun d hd =>
        mem_firstOf_nonTerminal.2 (h n p hp d hd)
      rw [List.append_assoc, mem_firstOf_append, mem_firstOf_append] at hc
      rw [List.append_cons, List.append_assoc, mem_firstOf_append, mem_firstOf_append]
      grind

theorem FirstClosed.mem_firstOf_of_derives (h : g.FirstClosed first) {σ τ : List Symbol}
    (hder : g.Derives σ τ) {c : Char} (hc : c ∈ firstOf first τ) : c ∈ firstOf first σ := by
  induction hder using ReflTransGen.head_induction_on with
  | refl => exact hc
  | head hstep _ ih => exact h.mem_firstOf_of_step hstep ih

theorem FirstClosed.mem_firstOf_of_announces (h : g.FirstClosed first) {σ : List Symbol} {c : Char}
    (hc : g.Announces σ c) : c ∈ firstOf first σ := by
  rcases hc with ⟨rfl, hnil⟩ | ⟨hne, τ, hτ⟩
  · exact h.mem_firstOf_of_derives hnil (OrderedSet.mem_singleton.2 rfl)
  · apply h.mem_firstOf_of_derives hτ
    exact mem_firstOf_cons.2 (Or.inl ⟨OrderedSet.mem_singleton.2 rfl, hne⟩)

/-- The FIRST set of a form holds exactly what the form can begin with. -/
theorem mem_firstOf_firstSets_iff (hg : g.WellFormed) {σ : List Symbol}
    (hσ : .terminal emptyMark ∉ σ) {c : Char} : c ∈ firstOf g.firstSets σ ↔ g.Announces σ c :=
  ⟨(firstSound_firstSets hg).announces_of_mem_firstOf hσ,
    (firstClosed_firstSets hg).mem_firstOf_of_announces⟩

end Grammar

end PredictiveParsing
