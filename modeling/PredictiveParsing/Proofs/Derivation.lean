/-
Module: PredictiveParsing.Proofs.Derivation
Layer: Proofs
Purpose: What a grammar derives, said without any of its algorithms: one production is applied at
  any place of a sentential form, any number of times. Parts of a form derive on their own, and so
  derivation is the least family of languages that is closed under the productions. Most facts
  about what a change of the grammar does to its language are read off that.
Imports: Mathlib.Logic.Relation, PredictiveParsing.Grammar.Splitting
Main exports: Grammar.Produces, Grammar.Derives, Grammar.Generates, Spells,
  Grammar.Derives.spells, Grammar.derives_append_iff, Grammar.Derives.nonTerminal_cons,
  Grammar.derives_nil_iff, Grammar.not_derives_nil_of_opening
Open obligations: none
-/
import Mathlib.Logic.Relation
import PredictiveParsing.Grammar.Splitting

namespace PredictiveParsing

open Relation

/-- A string of terminals as a sentential form. -/
def word (w : List Char) : List Symbol := w.map Symbol.terminal

@[simp]
theorem word_nil : word [] = [] := rfl

@[simp]
theorem word_cons (c : Char) (w : List Char) : word (c :: w) = .terminal c :: word w := rfl

@[simp]
theorem word_append (v w : List Char) : word (v ++ w) = word v ++ word w := List.map_append

theorem nonTerminal_not_mem_word (n : NonTerminal) (w : List Char) :
    .nonTerminal n ∉ word w := by
  intro hmem
  obtain ⟨c, _, hc⟩ := List.mem_map.1 hmem
  cases hc

/-- A form of one symbol leaves no room beside it. -/
theorem eq_of_singleton_eq_append {u v : List Symbol} {s t : Symbol} (h : [s] = u ++ t :: v) :
    u = [] ∧ s = t ∧ v = [] := by
  cases u with
  | nil => simpa using h
  | cons s' u => simp at h

/-- The places where a symbol stands in two strings together are those in each of them. -/
theorem split_append {σ τ u v : List Symbol} {s : Symbol} (h : σ ++ τ = u ++ s :: v) :
    (∃ rest, σ = u ++ s :: rest ∧ v = rest ++ τ) ∨ ∃ rest, u = σ ++ rest ∧ τ = rest ++ s :: v := by
  rcases List.append_eq_append_iff.1 h with ⟨rest, hu, hτ⟩ | ⟨rest, hσ, hv⟩
  · exact Or.inr ⟨rest, hu, hτ⟩
  · cases rest with
    | nil => exact Or.inr ⟨[], by simpa using hσ.symm, hv.symm⟩
    | cons t rest =>
        obtain ⟨rfl, rfl⟩ := List.cons.inj hv
        exact Or.inl ⟨rest, hσ, rfl⟩

namespace Grammar

/-- `p` is one of the alternatives of `n`. -/
def Produces (g : Grammar) (n : NonTerminal) (p : Body) : Prop :=
  ∃ rule ∈ g.rules, rule.head = n ∧ p ∈ rule.bodies

instance (g : Grammar) (n : NonTerminal) (p : Body) : Decidable (g.Produces n p) :=
  inferInstanceAs (Decidable (∃ rule ∈ g.rules, rule.head = n ∧ p ∈ rule.bodies))

/-- One production is applied somewhere in a sentential form. -/
inductive Step (g : Grammar) : List Symbol → List Symbol → Prop where
  | expand (u v : List Symbol) {n : NonTerminal} {p : Body} (h : g.Produces n p) :
      Step g (u ++ .nonTerminal n :: v) (u ++ p ++ v)

/-- Productions are applied one after the other, any number of times. -/
def Derives (g : Grammar) : List Symbol → List Symbol → Prop := ReflTransGen g.Step

/-- A nonterminal derives a string of terminals. -/
def Generates (g : Grammar) (n : NonTerminal) (w : List Char) : Prop :=
  g.Derives [.nonTerminal n] (word w)

/-- Every nonterminal that has a production generates some string of terminals. -/
def Productive (g : Grammar) : Prop := ∀ n p, g.Produces n p → ∃ w, g.Generates n w

variable {g : Grammar}

theorem Produces.mem_order {n : NonTerminal} {p : Body} (h : g.Produces n p) : n ∈ g.order := by
  obtain ⟨rule, hrule, rfl, _⟩ := h
  exact List.mem_map_of_mem hrule

namespace Step

theorem append_left {σ τ : List Symbol} (u : List Symbol) (h : g.Step σ τ) :
    g.Step (u ++ σ) (u ++ τ) := by
  cases h with
  | expand u' v h => simpa [List.append_assoc] using Step.expand (u ++ u') v h

theorem append_right {σ τ : List Symbol} (h : g.Step σ τ) (v : List Symbol) :
    g.Step (σ ++ v) (τ ++ v) := by
  cases h with
  | expand u v' h => simpa [List.append_assoc] using Step.expand u (v' ++ v) h

theorem of_singleton {n : NonTerminal} {τ : List Symbol} (h : g.Step [.nonTerminal n] τ) :
    g.Produces n τ := by
  generalize hform : [Symbol.nonTerminal n] = form at h
  cases h with
  | expand u v hp =>
      obtain ⟨rfl, heq, rfl⟩ := eq_of_singleton_eq_append hform
      cases heq
      simpa using hp

end Step

namespace Derives

theorem refl (σ : List Symbol) : g.Derives σ σ := ReflTransGen.refl

theorem trans {σ τ ρ : List Symbol} (h₁ : g.Derives σ τ) (h₂ : g.Derives τ ρ) :
    g.Derives σ ρ := ReflTransGen.trans h₁ h₂

theorem append_left {σ τ : List Symbol} (u : List Symbol) (h : g.Derives σ τ) :
    g.Derives (u ++ σ) (u ++ τ) := by
  induction h with
  | refl => exact refl _
  | tail _ hstep ih => exact ih.tail (hstep.append_left u)

theorem append_right {σ τ : List Symbol} (h : g.Derives σ τ) (v : List Symbol) :
    g.Derives (σ ++ v) (τ ++ v) := by
  induction h with
  | refl => exact refl _
  | tail _ hstep ih => exact ih.tail (hstep.append_right v)

/-- Two parts of a form derive side by side. -/
theorem append {σ τ σ' τ' : List Symbol} (h : g.Derives σ τ) (h' : g.Derives σ' τ') :
    g.Derives (σ ++ σ') (τ ++ τ') :=
  (h.append_right σ').trans (h'.append_left τ)

end Derives

theorem Produces.derives {n : NonTerminal} {p : Body} (h : g.Produces n p) :
    g.Derives [.nonTerminal n] p := by
  have hstep : g.Step [.nonTerminal n] p := by simpa using Step.expand [] [] h
  exact ReflTransGen.single hstep

/-- Applying a production in front of a form and deriving on. -/
theorem Produces.derives_cons {n : NonTerminal} {p : Body} {σ τ : List Symbol}
    (h : g.Produces n p) (hrest : g.Derives (p ++ σ) τ) :
    g.Derives (.nonTerminal n :: σ) τ :=
  (h.derives.append_right σ).trans hrest

end Grammar

/-! ### Families of languages

A family gives every nonterminal a set of forms. A string of symbols spells a form if the form can
be cut into one piece for each symbol: a terminal stands for itself, and the piece of a nonterminal
is in its language. -/

/-- `symbols` spells `form` when every nonterminal stands for a form of its language. -/
def Spells (language : NonTerminal → List Symbol → Prop) :
    (symbols form : List Symbol) → Prop
  | [], form => form = []
  | .terminal c :: rest, form => ∃ tail, form = .terminal c :: tail ∧ Spells language rest tail
  | .nonTerminal n :: rest, form =>
      ∃ piece tail, form = piece ++ tail ∧ language n piece ∧ Spells language rest tail

namespace Spells

variable {language : NonTerminal → List Symbol → Prop}

theorem append {σ σ' τ τ' : List Symbol} (h : Spells language σ τ)
    (h' : Spells language σ' τ') : Spells language (σ ++ σ') (τ ++ τ') := by
  induction σ generalizing τ with
  | nil =>
      cases h
      exact h'
  | cons s rest ih =>
      cases s with
      | terminal c =>
          obtain ⟨tail, rfl, hrest⟩ := h
          exact ⟨tail ++ τ', rfl, ih hrest⟩
      | nonTerminal n =>
          obtain ⟨piece, tail, rfl, hpiece, hrest⟩ := h
          exact ⟨piece, tail ++ τ', List.append_assoc _ _ _, hpiece, ih hrest⟩

/-- What two strings spell together is cut where the second one begins. -/
theorem of_append {σ σ' τ : List Symbol} (h : Spells language (σ ++ σ') τ) :
    ∃ τ₁ τ₂, τ = τ₁ ++ τ₂ ∧ Spells language σ τ₁ ∧ Spells language σ' τ₂ := by
  induction σ generalizing τ with
  | nil => exact ⟨[], τ, rfl, rfl, h⟩
  | cons s rest ih =>
      cases s with
      | terminal c =>
          obtain ⟨tail, rfl, hrest⟩ := h
          obtain ⟨τ₁, τ₂, rfl, h₁, h₂⟩ := ih hrest
          exact ⟨.terminal c :: τ₁, τ₂, rfl, ⟨τ₁, rfl, h₁⟩, h₂⟩
      | nonTerminal n =>
          obtain ⟨piece, tail, rfl, hpiece, hrest⟩ := h
          obtain ⟨τ₁, τ₂, rfl, h₁, h₂⟩ := ih hrest
          exact ⟨piece ++ τ₁, τ₂, (List.append_assoc _ _ _).symm, ⟨piece, τ₁, rfl, hpiece, h₁⟩, h₂⟩

/-- A form spells itself if its nonterminals may stand for themselves. -/
theorem refl {τ : List Symbol} (h : ∀ n, .nonTerminal n ∈ τ → language n [.nonTerminal n]) :
    Spells language τ τ := by
  induction τ with
  | nil => rfl
  | cons s rest ih =>
      have hrest := ih fun n hn => h n (List.mem_cons_of_mem _ hn)
      cases s with
      | terminal c => exact ⟨rest, rfl, hrest⟩
      | nonTerminal n => exact ⟨[.nonTerminal n], rest, rfl, h n List.mem_cons_self, hrest⟩

/-- The piece of each nonterminal is part of the form. -/
theorem exists_piece {σ τ : List Symbol} (h : Spells language σ τ) {n : NonTerminal}
    (hn : .nonTerminal n ∈ σ) : ∃ piece, language n piece ∧ ∀ s ∈ piece, s ∈ τ := by
  obtain ⟨u, v, rfl⟩ := List.append_of_mem hn
  obtain ⟨τ₁, τ₂, rfl, _, piece, tail, rfl, hpiece, _⟩ := h.of_append
  exact ⟨piece, hpiece, fun s hs =>
    List.mem_append_right _ (List.mem_append_left _ hs)⟩

theorem nonTerminal_singleton {n : NonTerminal} {τ : List Symbol}
    (h : Spells language [.nonTerminal n] τ) : language n τ := by
  obtain ⟨piece, tail, rfl, hpiece, hnil⟩ := h
  cases hnil
  simpa using hpiece

/-- If the symbols that are used have larger languages elsewhere, more is spelled there. -/
theorem mono {other : NonTerminal → List Symbol → Prop} {σ τ : List Symbol}
    (hle : ∀ n, .nonTerminal n ∈ σ → ∀ ρ, language n ρ → other n ρ)
    (h : Spells language σ τ) : Spells other σ τ := by
  induction σ generalizing τ with
  | nil => exact h
  | cons s rest ih =>
      have hrest : ∀ {ρ}, Spells language rest ρ → Spells other rest ρ :=
        ih fun n hn => hle n (List.mem_cons_of_mem _ hn)
      cases s with
      | terminal c =>
          obtain ⟨tail, rfl, htail⟩ := h
          exact ⟨tail, rfl, hrest htail⟩
      | nonTerminal n =>
          obtain ⟨piece, tail, rfl, hpiece, htail⟩ := h
          exact ⟨piece, tail, rfl, hle n List.mem_cons_self piece hpiece, hrest htail⟩

end Spells

namespace Grammar

variable {g : Grammar}

/-- Derivation is the least family that is closed under the productions: whatever a form derives,
it spells in every closed family in which the remaining nonterminals stand for themselves. -/
theorem Derives.spells {language : NonTerminal → List Symbol → Prop} {σ τ : List Symbol}
    (h : g.Derives σ τ)
    (hclosed : ∀ n p, g.Produces n p → ∀ ρ, Spells language p ρ → language n ρ)
    (hself : ∀ n, .nonTerminal n ∈ τ → language n [.nonTerminal n]) :
    Spells language σ τ := by
  induction h using ReflTransGen.head_induction_on with
  | refl => exact Spells.refl hself
  | head hstep _ ih =>
      cases hstep with
      | expand u v hn =>
          -- The piece that the body spells is a piece for the nonterminal as well.
          obtain ⟨τ', τ₃, rfl, h', h₃⟩ := ih.of_append
          obtain ⟨τ₁, τ₂, rfl, h₁, h₂⟩ := h'.of_append
          rw [List.append_assoc]
          exact h₁.append ⟨τ₂, τ₃, rfl, hclosed _ _ hn _ h₂, h₃⟩

/-- The symbols of a form derive independently of each other. -/
theorem derives_iff_spells {σ τ : List Symbol} :
    g.Derives σ τ ↔ Spells (fun n => g.Derives [.nonTerminal n]) σ τ := by
  have of_spells : ∀ {σ τ : List Symbol},
      Spells (fun n => g.Derives [.nonTerminal n]) σ τ → g.Derives σ τ := by
    intro σ
    induction σ with
    | nil =>
        intro τ h
        cases h
        exact Derives.refl []
    | cons s rest ih =>
        intro τ h
        cases s with
        | terminal c =>
            obtain ⟨tail, rfl, hrest⟩ := h
            exact (ih hrest).append_left [.terminal c]
        | nonTerminal n =>
            obtain ⟨piece, tail, rfl, hpiece, hrest⟩ := h
            exact Derives.append hpiece (ih hrest)
  constructor
  · intro h
    exact h.spells (fun n p hn ρ hρ => hn.derives.trans (of_spells hρ))
      (fun n _ => Derives.refl _)
  · exact of_spells

theorem derives_append_iff {σ σ' τ : List Symbol} :
    g.Derives (σ ++ σ') τ ↔ ∃ τ₁ τ₂, τ = τ₁ ++ τ₂ ∧ g.Derives σ τ₁ ∧ g.Derives σ' τ₂ := by
  constructor
  · intro h
    obtain ⟨τ₁, τ₂, hτ, h₁, h₂⟩ := (derives_iff_spells.1 h).of_append
    exact ⟨τ₁, τ₂, hτ, derives_iff_spells.2 h₁, derives_iff_spells.2 h₂⟩
  · intro h
    obtain ⟨τ₁, τ₂, rfl, h₁, h₂⟩ := h
    exact h₁.append h₂

theorem derives_terminal_cons_iff {c : Char} {σ τ : List Symbol} :
    g.Derives (.terminal c :: σ) τ ↔ ∃ τ', τ = .terminal c :: τ' ∧ g.Derives σ τ' := by
  constructor
  · intro h
    obtain ⟨τ', hτ, h'⟩ := derives_iff_spells.1 h
    exact ⟨τ', hτ, derives_iff_spells.2 h'⟩
  · intro h
    obtain ⟨τ', rfl, h'⟩ := h
    exact h'.append_left [.terminal c]

/-- A nonterminal in front either stays or is replaced by one of its bodies first. -/
theorem Derives.nonTerminal_cons {n : NonTerminal} {σ τ : List Symbol}
    (h : g.Derives (.nonTerminal n :: σ) τ) :
    (∃ τ', τ = .nonTerminal n :: τ' ∧ g.Derives σ τ') ∨
      ∃ p, g.Produces n p ∧ g.Derives (p ++ σ) τ := by
  obtain ⟨τ₁, τ₂, rfl, h₁, h₂⟩ := derives_append_iff (σ := [.nonTerminal n]).1 h
  cases h₁ using ReflTransGen.head_induction_on with
  | refl => exact Or.inl ⟨τ₂, rfl, h₂⟩
  | @head _ p hstep hrest =>
      have hrest' : g.Derives p τ₁ := hrest
      exact Or.inr ⟨p, hstep.of_singleton, hrest'.append h₂⟩

/-- Terminals stay in a form. -/
theorem Derives.terminal_mem {σ τ : List Symbol} (h : g.Derives σ τ) {c : Char}
    (hc : .terminal c ∈ σ) : .terminal c ∈ τ := by
  induction h with
  | refl => exact hc
  | tail _ hstep ih =>
      cases hstep with
      | expand u v _ =>
          simp only [List.mem_append, List.mem_cons, reduceCtorEq, false_or] at ih ⊢
          exact ih.imp_left Or.inl

/-- A grammar that derives each body from its head derives whatever the other one does. -/
theorem Derives.simulate {h : Grammar}
    (hbodies : ∀ n p, g.Produces n p → h.Derives [.nonTerminal n] p) {σ τ : List Symbol}
    (hder : g.Derives σ τ) : h.Derives σ τ := by
  induction hder with
  | refl => exact Derives.refl _
  | tail _ hstep ih =>
      cases hstep with
      | expand u v hp =>
          have hfront := ((hbodies _ _ hp).append_left u).append_right v
          rw [List.append_assoc] at hfront
          exact ih.trans hfront

/-- Only productions of symbols that a derivation comes to are used in it, so a grammar that has
these productions derives the same. -/
theorem Derives.of_closed {h : Grammar} {P : Symbol → Prop}
    (hclosed : ∀ n p, P (.nonTerminal n) → g.Produces n p → h.Produces n p ∧ ∀ s ∈ p, P s)
    {σ τ : List Symbol} (hσ : ∀ s ∈ σ, P s) (hder : g.Derives σ τ) : h.Derives σ τ := by
  induction hder using ReflTransGen.head_induction_on with
  | refl => exact Derives.refl τ
  | head hstep _ ih =>
      cases hstep with
      | expand u v hp =>
          simp only [List.forall_mem_append, List.forall_mem_cons] at hσ ih
          obtain ⟨hu, hn, hv⟩ := hσ
          obtain ⟨hp', hbody⟩ := hclosed _ _ hn hp
          exact ReflTransGen.head (.expand u v hp') (ih ⟨⟨hu, hbody⟩, hv⟩)

/-! ### Vanishing -/

theorem not_derives_terminal_nil (c : Char) : ¬ g.Derives [.terminal c] [] := by
  intro h
  obtain ⟨τ, hnil, _⟩ := derives_terminal_cons_iff.1 h
  cases hnil

/-- A form can vanish exactly if each of its symbols can. -/
theorem derives_nil_iff {σ : List Symbol} : g.Derives σ [] ↔ ∀ s ∈ σ, g.Derives [s] [] := by
  induction σ with
  | nil => simp [Derives.refl]
  | cons s rest ih =>
      rw [List.forall_mem_cons, ← ih, ← List.singleton_append, derives_append_iff]
      constructor
      · intro h
        obtain ⟨τ₁, τ₂, hnil, h₁, h₂⟩ := h
        obtain ⟨rfl, rfl⟩ := List.append_eq_nil_iff.1 hnil.symm
        exact ⟨h₁, h₂⟩
      · intro h
        exact ⟨[], [], rfl, h.1, h.2⟩

theorem derives_append_nil_iff {σ τ : List Symbol} :
    g.Derives (σ ++ τ) [] ↔ g.Derives σ [] ∧ g.Derives τ [] := by
  rw [derives_nil_iff, List.forall_mem_append, ← derives_nil_iff, ← derives_nil_iff]

/-- A nonterminal that can vanish has a body that can. -/
theorem exists_produces_of_derives_nil {n : NonTerminal} (h : g.Derives [.nonTerminal n] []) :
    ∃ p, g.Produces n p ∧ g.Derives p [] := by
  rcases h.nonTerminal_cons with ⟨τ, hnil, _⟩ | ⟨p, hp, hder⟩
  · cases hnil
  · exact ⟨p, hp, by simpa using hder⟩

theorem not_derives_nil_of_not_mem_order {n : NonTerminal} (hn : n ∉ g.order) :
    ¬ g.Derives [.nonTerminal n] [] := by
  intro h
  obtain ⟨p, hp, _⟩ := exists_produces_of_derives_nil h
  exact hn hp.mem_order

/-- If each body of certain nonterminals begins with a terminal or with such a nonterminal again,
none of them can vanish. -/
theorem not_derives_nil_of_opening {P : NonTerminal → Prop}
    (hopen : ∀ n p, P n → g.Produces n p →
      ∃ s rest, p = s :: rest ∧ ∀ m, s = .nonTerminal m → P m)
    {n : NonTerminal} (hn : P n) : ¬ g.Derives [.nonTerminal n] [] := by
  intro h
  have hspells : Spells (fun m ρ => P m → ρ ≠ []) [.nonTerminal n] [] := by
    apply h.spells
    · intro m p hp ρ hρ hm
      obtain ⟨s, rest, rfl, hs⟩ := hopen m p hm hp
      cases s with
      | terminal c =>
          obtain ⟨tail, rfl, _⟩ := hρ
          exact List.cons_ne_nil _ _
      | nonTerminal k =>
          obtain ⟨piece, tail, rfl, hpiece, _⟩ := hρ
          exact List.append_ne_nil_of_left_ne_nil (hpiece (hs k rfl)) tail
    · exact fun m hm => absurd hm List.not_mem_nil
  exact hspells.nonTerminal_singleton hn rfl

/-- A symbol that a derived form holds is a symbol of the form it is derived from or of a body. -/
theorem Derives.mem_or_produces {σ τ : List Symbol} (h : g.Derives σ τ) {s : Symbol}
    (hs : s ∈ τ) : s ∈ σ ∨ ∃ n p, g.Produces n p ∧ s ∈ p := by
  induction h using ReflTransGen.head_induction_on with
  | refl => exact Or.inl hs
  | head hstep _ ih =>
      rcases ih with hmem | hbody
      · cases hstep with
        | expand u v hp =>
            simp only [List.mem_append] at hmem
            rcases hmem with (hu | hbody) | hv
            · exact Or.inl (List.mem_append_left _ hu)
            · exact Or.inr ⟨_, _, hp, hbody⟩
            · exact Or.inl (List.mem_append_right _ (List.mem_cons_of_mem _ hv))
      · exact Or.inr hbody

end Grammar

end PredictiveParsing
