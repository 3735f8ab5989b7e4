/-
Module: PredictiveParsing.Proofs.LanguagePreservation
Layer: Proofs
Purpose: Normalization keeps what the nonterminals generate. Nothing is lost in any case. Nothing is
  gained if every nonterminal generates something: a nonterminal all of whose alternatives begin
  with itself generates nothing, and afterwards it generates the empty string. Nonterminals that are
  created on the way may generate no string of terminals, because a body may hold nonterminals
  without a rule; the proof therefore speaks of settled forms, in which these may remain.
Imports: Mathlib, PredictiveParsing.Proofs.WellFormed
Main exports: Grammar.Settled, Grammar.Grounded, Grammar.Preserves,
  Grammar.NormalizationSteps.preserves, Session.generates_normalizeWithin
Open obligations: none
-/
import Mathlib
import PredictiveParsing.Proofs.WellFormed

namespace PredictiveParsing

open Relation

namespace Grammar

/-- A form in which only nonterminals without a rule are left. -/
def Settled (g : Grammar) (τ : List Symbol) : Prop :=
  ∀ n, .nonTerminal n ∈ τ → n ∈ g.undefined

/-- Every nonterminal that has a rule derives a settled form. -/
def Grounded (g : Grammar) : Prop :=
  ∀ n ∈ g.order, ∃ τ, g.Settled τ ∧ g.Derives [.nonTerminal n] τ

variable {g h : Grammar}

theorem mem_undefined {n : NonTerminal} :
    n ∈ g.undefined ↔ n ∈ g.nonTerminals ∧ n ∉ g.order := by
  simp [undefined]

theorem settled_word (w : List Char) : g.Settled (word w) :=
  fun n hn => absurd hn (nonTerminal_not_mem_word n w)

theorem settled_singleton {n : NonTerminal} (hn : n ∈ g.undefined) :
    g.Settled [.nonTerminal n] := by
  intro m hm
  cases List.mem_singleton.1 hm
  exact hn

theorem settled_append {σ τ : List Symbol} :
    g.Settled (σ ++ τ) ↔ g.Settled σ ∧ g.Settled τ := by
  constructor
  · intro hs
    exact ⟨fun n hn => hs n (List.mem_append_left _ hn),
      fun n hn => hs n (List.mem_append_right _ hn)⟩
  · intro hs n hn
    rcases List.mem_append.1 hn with hσ | hτ
    · exact hs.1 n hσ
    · exact hs.2 n hτ

theorem Settled.not_mem_of_mem_order {τ : List Symbol} (hτ : g.Settled τ) {n : NonTerminal}
    (hn : n ∈ g.order) : .nonTerminal n ∉ τ :=
  fun hmem => (mem_undefined.1 (hτ n hmem)).2 hn

/-- Which forms are settled depends on the undefined nonterminals only. -/
theorem settled_iff_of_undefined_eq (hundefined : h.undefined = g.undefined) {τ : List Symbol} :
    h.Settled τ ↔ g.Settled τ := by
  unfold Settled
  rw [hundefined]

/-- What is spelled by settled pieces is settled. -/
theorem settled_of_spells {language : NonTerminal → List Symbol → Prop}
    (hpiece : ∀ n ρ, language n ρ → g.Settled ρ) {σ τ : List Symbol}
    (hspells : Spells language σ τ) : g.Settled τ := by
  induction σ generalizing τ with
  | nil =>
      cases hspells
      exact settled_word []
  | cons s rest ih =>
      cases s with
      | terminal c =>
          obtain ⟨tail, rfl, hrest⟩ := hspells
          exact settled_append.2 ⟨settled_word [c], ih hrest⟩
      | nonTerminal n =>
          obtain ⟨piece, tail, rfl, hn, hrest⟩ := hspells
          exact settled_append.2 ⟨hpiece n piece hn, ih hrest⟩

/-- A settled form that is derived is spelled in every family that the productions do not lead out
of, as far as settled forms go. -/
theorem Derives.spells_settled {language : NonTerminal → List Symbol → Prop} {σ τ : List Symbol}
    (hder : g.Derives σ τ) (hτ : g.Settled τ)
    (hclosed : ∀ n p, g.Produces n p → ∀ ρ, g.Settled ρ → Spells language p ρ → language n ρ)
    (hself : ∀ n ∈ g.undefined, language n [.nonTerminal n]) : Spells language σ τ := by
  have hboth : Spells (fun n ρ => g.Settled ρ ∧ language n ρ) σ τ := by
    apply hder.spells
    · intro n p hp ρ hρ
      have hsettled : g.Settled ρ := settled_of_spells (fun _ _ hpiece => hpiece.1) hρ
      exact ⟨hsettled, hclosed n p hp ρ hsettled (hρ.mono fun _ _ _ hpiece => hpiece.2)⟩
    · intro n hn
      exact ⟨settled_singleton (hτ n hn), hself n (hτ n hn)⟩
  exact hboth.mono fun _ _ _ hpiece => hpiece.2

/-- One grammar derives the settled forms of another if it does so after each production. -/
theorem Derives.transfer {σ τ : List Symbol} (hder : g.Derives σ τ) (hτ : g.Settled τ)
    (hclosed : ∀ n p, g.Produces n p → ∀ ρ, g.Settled ρ → h.Derives p ρ →
      h.Derives [.nonTerminal n] ρ) : h.Derives σ τ := by
  apply derives_iff_spells.2
  apply hder.spells_settled hτ
  · intro n p hp ρ hρ hspells
    exact hclosed n p hp ρ hρ (derives_iff_spells.2 hspells)
  · intro n _
    exact Derives.refl _

/-- In a grounded grammar every form of met symbols derives a settled one. -/
theorem Grounded.exists_settled (hground : g.Grounded) {σ : List Symbol}
    (hσ : ∀ s ∈ σ, g.Meets s) : ∃ τ, g.Settled τ ∧ g.Derives σ τ := by
  induction σ with
  | nil => exact ⟨[], settled_word [], Derives.refl []⟩
  | cons s rest ih =>
      obtain ⟨τ, hτ, hrest⟩ := ih fun t ht => hσ t (List.mem_cons_of_mem _ ht)
      have hs := hσ s List.mem_cons_self
      have hfront : ∃ ρ, g.Settled ρ ∧ g.Derives [s] ρ := by
        cases s with
        | terminal c => exact ⟨[.terminal c], settled_word [c], Derives.refl _⟩
        | nonTerminal n =>
            by_cases hn : n ∈ g.order
            · exact hground n hn
            · exact ⟨[.nonTerminal n], settled_singleton (mem_undefined.2 ⟨hs, hn⟩),
                Derives.refl _⟩
      obtain ⟨ρ, hρ, hder⟩ := hfront
      exact ⟨ρ ++ τ, settled_append.2 ⟨hρ, hτ⟩, hder.append hrest⟩

/-! ### Grammars with the same languages -/

/-- `h` derives from the nonterminals of `g` the settled forms that `g` does, and no others if `g`
is grounded. -/
structure Preserves (g h : Grammar) : Prop where
  undefined_eq : h.undefined = g.undefined
  mem_order : ∀ n ∈ g.order, n ∈ h.order
  complete : ∀ n ∈ g.order, ∀ τ, g.Settled τ → g.Derives [.nonTerminal n] τ →
    h.Derives [.nonTerminal n] τ
  grounded : g.Grounded → h.Grounded
  sound : g.Grounded → ∀ n ∈ g.order, ∀ τ, g.Settled τ → h.Derives [.nonTerminal n] τ →
    g.Derives [.nonTerminal n] τ

namespace Preserves

theorem refl (g : Grammar) : Preserves g g where
  undefined_eq := rfl
  mem_order := fun _ hn => hn
  complete := fun _ _ _ _ hder => hder
  grounded := fun hground => hground
  sound := fun _ _ _ _ _ hder => hder

theorem settled_iff (hp : Preserves g h) {τ : List Symbol} : h.Settled τ ↔ g.Settled τ :=
  settled_iff_of_undefined_eq hp.undefined_eq

theorem trans {k : Grammar} (hgh : Preserves g h) (hhk : Preserves h k) : Preserves g k where
  undefined_eq := hhk.undefined_eq.trans hgh.undefined_eq
  mem_order := fun n hn => hhk.mem_order n (hgh.mem_order n hn)
  complete := fun n hn τ hτ hder =>
    hhk.complete n (hgh.mem_order n hn) τ (hgh.settled_iff.2 hτ) (hgh.complete n hn τ hτ hder)
  grounded := fun hground => hhk.grounded (hgh.grounded hground)
  sound := fun hground n hn τ hτ hder =>
    hgh.sound hground n hn τ hτ
      (hhk.sound (hgh.grounded hground) n (hgh.mem_order n hn) τ (hgh.settled_iff.2 hτ) hder)

/-- A change preserves the languages if it simulates every production, if new nonterminals settle
where old ones do, and if nothing else is derived. -/
theorem of_produces (hundefined : h.undefined = g.undefined)
    (horder : ∀ n ∈ g.order, n ∈ h.order)
    (hcomplete : ∀ n p, g.Produces n p → ∀ ρ, g.Settled ρ → h.Derives p ρ →
      h.Derives [.nonTerminal n] ρ)
    (hnew : g.Grounded → (∀ σ τ, g.Settled τ → g.Derives σ τ → h.Derives σ τ) →
      ∀ n ∈ h.order, n ∉ g.order → ∃ τ, g.Settled τ ∧ h.Derives [.nonTerminal n] τ)
    (hsound : g.Grounded → ∀ n ∈ g.order, ∀ τ, g.Settled τ → h.Derives [.nonTerminal n] τ →
      g.Derives [.nonTerminal n] τ) : Preserves g h where
  undefined_eq := hundefined
  mem_order := horder
  complete := fun _ _ _ hτ hder => hder.transfer hτ hcomplete
  grounded := by
    intro hground n hn
    have hsettled : ∀ {τ}, g.Settled τ → h.Settled τ :=
      (settled_iff_of_undefined_eq hundefined).2
    by_cases hold : n ∈ g.order
    · obtain ⟨τ, hτ, hder⟩ := hground n hold
      exact ⟨τ, hsettled hτ, hder.transfer hτ hcomplete⟩
    · obtain ⟨τ, hτ, hder⟩ :=
        hnew hground (fun _ _ hτ hder => hder.transfer hτ hcomplete) n hn hold
      exact ⟨τ, hsettled hτ, hder⟩
  sound := hsound

/-- Of the forms that were met before, the same ones vanish before and after. -/
theorem derives_nil_iff (hp : Preserves g h) (hground : g.Grounded) {σ : List Symbol}
    (hσ : ∀ s ∈ σ, g.Meets s) : h.Derives σ [] ↔ g.Derives σ [] := by
  rw [Grammar.derives_nil_iff, Grammar.derives_nil_iff]
  refine forall₂_congr fun s hs => ?_
  cases s with
  | terminal c => exact iff_of_false (not_derives_terminal_nil c) (not_derives_terminal_nil c)
  | nonTerminal n =>
      by_cases hn : n ∈ g.order
      · exact ⟨hp.sound hground n hn [] (settled_word []), hp.complete n hn [] (settled_word [])⟩
      · have hundefined : n ∈ h.undefined := by
          rw [hp.undefined_eq]
          exact mem_undefined.2 ⟨hσ _ hs, hn⟩
        exact iff_of_false (not_derives_nil_of_not_mem_order (mem_undefined.1 hundefined).2)
          (not_derives_nil_of_not_mem_order hn)

end Preserves

/-! ### Substitution -/

theorem undefined_setBodies (n : NonTerminal) (bodies : OrderedSet Body) :
    (g.setBodies n bodies).undefined = g.undefined := by
  unfold undefined
  rw [order_setBodies]
  rfl

theorem preserves_expandEarlier (hg : g.WellFormed) {limit : Nat} {n : NonTerminal}
    (hexpand : g.expandEarlier limit n = some h) : Preserves g h := by
  rcases expandEarlier_cases hexpand with rfl | ⟨bodies, forest, hbodies, hgrown, rfl⟩
  · exact Preserves.refl _
  · have hproduces : ∀ {p}, g.Produces n p ↔ p ∈ bodies :=
      produces_iff_of_bodies? hg.nodup_order hbodies
    have hn : n ∈ g.order := mem_order_of_bodies? hbodies
    have horder : ∀ {bodies}, (g.setBodies n bodies).order = g.order := order_setBodies g n _
    apply Preserves.of_produces
    · exact undefined_setBodies n _
    · intro m hm
      rw [horder]
      exact hm
    · intro m p hp ρ hρ hder
      by_cases hmn : m = n
      · subst hmn
        obtain ⟨q, hq, hqder⟩ := hgrown.exists_mem_prune hg.nodup_order
          (fun b r hb hr => by
            rcases produces_setBodies.1 hr with ⟨_, hr'⟩ | ⟨hb', _⟩
            · exact hr'
            · exact absurd hb' hb)
          (fun k hk => hρ.not_mem_of_mem_order hk) (hproduces.1 hp) hder
        have hq' : (g.setBodies m (OrderedSet.ofList (forest.prune m))).Produces m q :=
          produces_setBodies.2 (Or.inr ⟨rfl, hn, OrderedSet.mem_ofList.2 hq⟩)
        exact hq'.derives.trans hqder
      · exact (Produces.derives (produces_setBodies.2 (Or.inl ⟨hmn, hp⟩))).trans hder
    · intro _ _ m hm hnot
      rw [horder] at hm
      exact absurd hm hnot
    · intro _ m _ τ hτ hder
      apply hder.transfer ((settled_iff_of_undefined_eq (undefined_setBodies n _)).2 hτ)
      intro k p hp ρ _ hpder
      rcases produces_setBodies.1 hp with ⟨_, hp'⟩ | ⟨rfl, _, hp'⟩
      · exact hp'.derives.trans hpder
      · obtain ⟨root, hroot, hroot'⟩ :=
          hgrown.derives_of_mem_prune hg.nodup_order (OrderedSet.mem_ofList.1 hp')
        exact ((hproduces.2 hroot).derives.trans hroot').trans hpder

/-! ### Splitting -/

section Splitting

/-- How the old grammar reads the nonterminals of one in which `fresh` was split off: all stand for
what they derive, except that `fresh` stands for a language of its own. -/
def readFresh (g : Grammar) (fresh : NonTerminal) (language : List Symbol → Prop)
    (k : NonTerminal) (ρ : List Symbol) : Prop :=
  (k = fresh → language ρ) ∧ (k ≠ fresh → g.Derives [.nonTerminal k] ρ)

variable {base fresh : NonTerminal} {kept moved : OrderedSet Body}
  {language : List Symbol → Prop}

/-- A string without the fresh nonterminal is read as what it derives. -/
theorem derives_of_spells_readFresh {p : Body} {ρ : List Symbol} (hp : .nonTerminal fresh ∉ p)
    (hspells : Spells (g.readFresh fresh language) p ρ) : g.Derives p ρ := by
  apply derives_iff_spells.2
  apply hspells.mono
  intro k hk ρ' hread
  apply hread.2
  intro e
  subst e
  exact hp hk

/-- What precedes the fresh nonterminal derives on its own, and the rest is in its language. -/
theorem exists_append_of_spells_readFresh {p : Body} {ρ : List Symbol}
    (hp : .nonTerminal fresh ∉ p) (hspells : Spells (g.readFresh fresh language)
      (p.followedBy fresh) ρ) :
    ∃ ρ₁ ρ₂, ρ = ρ₁ ++ ρ₂ ∧ g.Derives p ρ₁ ∧ language ρ₂ := by
  obtain ⟨ρ₁, ρ₂, hρ, h₁, h₂⟩ := hspells.of_append
  exact ⟨ρ₁, ρ₂, hρ, derives_of_spells_readFresh hp h₁, h₂.nonTerminal_singleton.1 rfl⟩

/-- Splitting adds nothing to the languages of the old nonterminals if, under some reading of the
fresh one, both parts derive no more than they should. -/
theorem derives_of_derives_splitOff (language : List Symbol → Prop) (hg : g.WellFormed)
    (hbase : base ∈ g.order) (hfresh : fresh ∉ g.nonTerminals)
    (hkept : ∀ p ∈ kept, ∀ ρ, Spells (g.readFresh fresh language) p ρ →
      g.Derives [.nonTerminal base] ρ)
    (hmoved : ∀ p ∈ moved, ∀ ρ, Spells (g.readFresh fresh language) p ρ → language ρ)
    {m : NonTerminal} (hm : m ∈ g.order) {τ : List Symbol} (hτ : g.Settled τ)
    (hder : (g.splitOff base fresh kept moved).Derives [.nonTerminal m] τ) :
    g.Derives [.nonTerminal m] τ := by
  have hundefined : (g.splitOff base fresh kept moved).undefined = g.undefined :=
    undefined_splitOff hbase hfresh
  have hne : ∀ {k}, k ∈ g.nonTerminals → k ≠ fresh := by
    intro k hk e
    subst e
    exact hfresh hk
  have hspells : Spells (g.readFresh fresh language) [.nonTerminal m] τ := by
    apply hder.spells_settled ((settled_iff_of_undefined_eq hundefined).2 hτ)
    · intro k p hp ρ _ hρ
      rcases produces_splitOff.1 hp with ⟨_, hp'⟩ | ⟨_, ⟨rfl, hp'⟩ | ⟨rfl, hp'⟩⟩
      · have hbody : .nonTerminal fresh ∉ p := fun hin => hfresh (hg.body_met k p hp' _ hin)
        exact ⟨fun e => absurd e (hne (hg.order_met k hp'.mem_order)),
          fun _ => hp'.derives.trans (derives_of_spells_readFresh hbody hρ)⟩
      · exact ⟨fun e => absurd e (hne (hg.order_met k hbase)), fun _ => hkept p hp' ρ hρ⟩
      · exact ⟨fun _ => hmoved p hp' ρ hρ, fun e => absurd rfl e⟩
    · intro k hk
      rw [hundefined] at hk
      exact ⟨fun e => absurd e (hne (mem_undefined.1 hk).1), fun _ => Derives.refl _⟩
  exact hspells.nonTerminal_singleton.2 (hne (hg.order_met m hm))

end Splitting

/-! ### Left recursion

`A -> A a | b` becomes `A -> b A'` and `A' -> a A' | ε`. Read from left to right, the new
nonterminal derives what the old one puts behind itself; read from right to left, whatever it
derives may be put behind the old one. -/

section LeftRecursion

variable {n : NonTerminal} {bodies : OrderedSet Body}

/-- A nonterminal all of whose bodies begin with itself derives no settled form. -/
theorem not_derives_of_forall_beginsWith (hn : n ∈ g.order)
    (hall : ∀ p, g.Produces n p → p.beginsWith n = true) {τ : List Symbol} (hτ : g.Settled τ) :
    ¬ g.Derives [.nonTerminal n] τ := by
  intro hder
  -- In the family in which `n` has no form and all others have every form, no production of `n`
  -- spells anything.
  have hspells : Spells (fun m _ => m ≠ n) [.nonTerminal n] τ := by
    apply hder.spells_settled hτ
    · intro m p hp ρ _ hρ hm
      subst hm
      obtain ⟨rest, rfl⟩ := Body.beginsWith_iff.1 (hall p hp)
      obtain ⟨_, _, _, hne, _⟩ := hρ
      exact hne rfl
    · intro m hm e
      subst e
      exact (mem_undefined.1 hm).2 hn
  exact hspells.nonTerminal_singleton rfl

/-- A grounded nonterminal cannot have left recursive alternatives only. -/
theorem Grounded.exists_not_beginsWith (hground : g.Grounded) (hg : g.WellFormed)
    (hbodies : g.bodies? n = some bodies) : ∃ q ∈ bodies, q.beginsWith n = false := by
  have hn : n ∈ g.order := mem_order_of_bodies? hbodies
  by_contra hnone
  obtain ⟨ρ, hρ, hder⟩ := hground n hn
  apply not_derives_of_forall_beginsWith hn _ hρ hder
  intro p hp
  by_contra hnot
  have hp' := (produces_iff_of_bodies? hg.nodup_order hbodies).1 hp
  exact hnone ⟨p, hp', by simpa using hnot⟩

/-- The new nonterminal can end the recursion. -/
theorem produces_splitRecursion_nil (hbodies : g.bodies? n = some bodies) :
    (g.splitRecursion n).Produces (g.freshFor n) [] :=
  (produces_splitRecursion hbodies).2 (Or.inr (Or.inr ⟨rfl, mem_repeatBodies.2 (Or.inl rfl)⟩))

variable (hg : g.WellFormed) (hbodies : g.bodies? n = some bodies)

include hg hbodies

theorem freshFor_ne : g.freshFor n ≠ n :=
  fun e => hg.freshFor_not_mem_order n (e.symm ▸ mem_order_of_bodies? hbodies)

/-- Behind whatever the new nonterminal derives, it can put one more remainder of a left recursive
body. -/
theorem derives_freshFor_append {tail : Body} (htail : tail ≠ [])
    (hmem : .nonTerminal n :: tail ∈ bodies) {τ₁ τ₂ : List Symbol}
    (hτ₁ : (g.splitRecursion n).Settled τ₁)
    (h₁ : (g.splitRecursion n).Derives [.nonTerminal (g.freshFor n)] τ₁)
    (h₂ : (g.splitRecursion n).Derives tail τ₂) :
    (g.splitRecursion n).Derives [.nonTerminal (g.freshFor n)] (τ₁ ++ τ₂) := by
  have hrepeat : (g.splitRecursion n).Produces (g.freshFor n) (tail.followedBy (g.freshFor n)) :=
    (produces_splitRecursion hbodies).2
      (Or.inr (Or.inr ⟨rfl, mem_repeatBodies.2 (Or.inr ⟨tail, htail, hmem, rfl⟩)⟩))
  have hstop := produces_splitRecursion_nil hbodies
  have hone : (g.splitRecursion n).Derives [.nonTerminal (g.freshFor n)] τ₂ := by
    have hboth := hrepeat.derives.trans (h₂.append hstop.derives)
    simpa using hboth
  -- The induction is on the derivation of the front part; only the pieces of the new nonterminal
  -- carry more than what they derive.
  have hspells : Spells (fun m ρ => (g.splitRecursion n).Derives [.nonTerminal m] ρ ∧
      (m = g.freshFor n →
        (g.splitRecursion n).Derives [.nonTerminal (g.freshFor n)] (ρ ++ τ₂)))
      [.nonTerminal (g.freshFor n)] τ₁ := by
    apply h₁.spells_settled hτ₁
    · intro m p hp ρ _ hρ
      have hder : (g.splitRecursion n).Derives p ρ :=
        derives_iff_spells.2 (hρ.mono fun _ _ _ hpiece => hpiece.1)
      refine ⟨hp.derives.trans hder, ?_⟩
      intro hm
      subst hm
      rcases (produces_splitRecursion hbodies).1 hp with ⟨_, hold⟩ | ⟨hm, _⟩ | ⟨_, hbody⟩
      · exact absurd hold.mem_order (hg.freshFor_not_mem_order n)
      · exact absurd hm (freshFor_ne hg hbodies)
      · rcases mem_repeatBodies.1 hbody with rfl | ⟨tail', htail', hmem', rfl⟩
        · cases hρ
          exact hone
        · obtain ⟨ρ₁, ρ₂, rfl, hρ₁, hρ₂⟩ := hρ.of_append
          have hfront : (g.splitRecursion n).Derives tail' ρ₁ :=
            derives_iff_spells.2 (hρ₁.mono fun _ _ _ hpiece => hpiece.1)
          have hback := hρ₂.nonTerminal_singleton.2 rfl
          rw [List.append_assoc]
          exact hp.derives.trans (hfront.append hback)
    · intro m hm
      refine ⟨Derives.refl _, ?_⟩
      intro e
      subst e
      exact absurd hstop.mem_order (mem_undefined.1 hm).2
  exact hspells.nonTerminal_singleton.2 rfl

/-- Every production of the old grammar is simulated. -/
theorem derives_splitRecursion_of_produces {m : NonTerminal} {p : Body} (hp : g.Produces m p)
    {ρ : List Symbol} (hρ : (g.splitRecursion n).Settled ρ)
    (hder : (g.splitRecursion n).Derives p ρ) :
    (g.splitRecursion n).Derives [.nonTerminal m] ρ := by
  by_cases hmn : m = n
  · subst hmn
    have hp' : p ∈ bodies := (produces_iff_of_bodies? hg.nodup_order hbodies).1 hp
    have hstop := produces_splitRecursion_nil hbodies
    have horder : m ∈ (g.splitRecursion m).order :=
      (mem_order_splitRecursion hbodies).2 (Or.inl (mem_order_of_bodies? hbodies))
    have hkept : ∀ {q}, q ∈ baseBodies m (g.freshFor m) bodies →
        (g.splitRecursion m).Produces m q :=
      fun hq => (produces_splitRecursion hbodies).2 (Or.inr (Or.inl ⟨rfl, hq⟩))
    by_cases hbegins : p.beginsWith m = true
    · obtain ⟨tail, rfl⟩ := Body.beginsWith_iff.1 hbegins
      by_cases htail : tail = []
      · subst htail
        exact hder
      · -- The old nonterminal in front ends in the new one, which takes in the remainder.
        obtain ⟨ρ₁, ρ₂, rfl, h₁, h₂⟩ := derives_append_iff (σ := [.nonTerminal m]).1 hder
        obtain ⟨hρ₁, _⟩ := settled_append.1 hρ
        rcases h₁.nonTerminal_cons with ⟨τ', rfl, _⟩ | ⟨q, hq, hqder⟩
        · exact absurd List.mem_cons_self (hρ₁.not_mem_of_mem_order horder)
        · obtain ⟨base, rfl⟩ : ∃ base : Body, q = base.followedBy (g.freshFor m) := by
            rcases (produces_splitRecursion hbodies).1 hq with ⟨hne, _⟩ | ⟨_, hq'⟩ | ⟨heq, _⟩
            · exact absurd rfl hne
            · rcases mem_baseBodies.1 hq' with ⟨base, _, _, rfl⟩ | ⟨_, rfl⟩
              · exact ⟨base, rfl⟩
              · exact ⟨[], rfl⟩
            · exact absurd heq.symm (freshFor_ne hg hbodies)
          rw [List.append_nil] at hqder
          obtain ⟨τ₁, τ₂, rfl, hbase, hfresh⟩ := derives_append_iff.1 hqder
          have hmore := derives_freshFor_append hg hbodies htail hp' (settled_append.1 hρ₁).2
            hfresh h₂
          rw [List.append_assoc]
          exact hq.derives.trans (hbase.append hmore)
    · have hbase : p.beginsWith m = false := by simpa using hbegins
      have hboth := hder.append hstop.derives
      rw [List.append_nil] at hboth
      exact (hkept (mem_baseBodies.2 (Or.inl ⟨p, hp', hbase, rfl⟩))).derives.trans hboth
  · exact (Produces.derives ((produces_splitRecursion hbodies).2 (Or.inl ⟨hmn, hp⟩))).trans hder

/-- Whatever the new grammar derives from an old nonterminal, the old grammar derives, provided that
some alternative of `n` does not begin with `n`. -/
theorem derives_of_derives_splitRecursion (hbase : ∃ q ∈ bodies, q.beginsWith n = false)
    {m : NonTerminal} (hm : m ∈ g.order) {τ : List Symbol} (hτ : g.Settled τ)
    (hder : (g.splitRecursion n).Derives [.nonTerminal m] τ) :
    g.Derives [.nonTerminal m] τ := by
  have hproduces : ∀ {p}, g.Produces n p ↔ p ∈ bodies :=
    produces_iff_of_bodies? hg.nodup_order hbodies
  rw [splitRecursion_eq hbodies] at hder
  -- The new nonterminal stands for what the old one can put behind itself.
  refine derives_of_derives_splitOff (fun ρ => g.Derives [.nonTerminal n] (.nonTerminal n :: ρ)) hg
    (mem_order_of_bodies? hbodies) (g.freshFor_not_mem n) ?_ ?_ hm hτ hder
  · intro p hp ρ hρ
    obtain ⟨q, hq, _, rfl⟩ := (mem_baseBodies_of_exists hbase).1 hp
    have hq' : g.Produces n q := hproduces.2 hq
    obtain ⟨ρ₁, ρ₂, rfl, hfront, hbehind⟩ :=
      exists_append_of_spells_readFresh (hg.freshFor_not_mem_body n hq') hρ
    exact hbehind.trans (hq'.derives_cons (hfront.append_right ρ₂))
  · intro p hp ρ hρ
    rcases mem_repeatBodies.1 hp with rfl | ⟨tail, _, hmem, rfl⟩
    · cases hρ
      exact Derives.refl _
    · have hmem' : g.Produces n (.nonTerminal n :: tail) := hproduces.2 hmem
      obtain ⟨ρ₁, ρ₂, rfl, hfront, hbehind⟩ := exists_append_of_spells_readFresh
        (fun hin => hg.freshFor_not_mem_body n hmem' (List.mem_cons_of_mem _ hin)) hρ
      -- One more round of the recursion puts the remainder before what is already behind.
      have hround : g.Derives [.nonTerminal n] (.nonTerminal n :: (tail ++ ρ₂)) :=
        hbehind.trans (hmem'.derives_cons (Derives.refl _))
      exact hround.trans ((hfront.append_right ρ₂).append_left [.nonTerminal n])

end LeftRecursion

theorem preserves_splitRecursion (hg : g.WellFormed) {n : NonTerminal}
    (hrecursive : g.isLeftRecursive n = true) : Preserves g (g.splitRecursion n) := by
  obtain ⟨bodies, hbodies⟩ := exists_bodies_of_isLeftRecursive hrecursive
  have hundefined := undefined_splitRecursion hbodies
  apply Preserves.of_produces hundefined
  · intro m hm
    exact (mem_order_splitRecursion hbodies).2 (Or.inl hm)
  · intro m p hp ρ hρ hder
    exact derives_splitRecursion_of_produces hg hbodies hp
      ((settled_iff_of_undefined_eq hundefined).2 hρ) hder
  · intro _ _ m hm hnot
    rcases (mem_order_splitRecursion hbodies).1 hm with hold | rfl
    · exact absurd hold hnot
    · exact ⟨[], settled_word [], (produces_splitRecursion_nil hbodies).derives⟩
  · intro hground m hm τ hτ hder
    exact derives_of_derives_splitRecursion hg hbodies
      (hground.exists_not_beginsWith hg hbodies) hm hτ hder

/-! ### Factoring -/

section Factoring

variable {n : NonTerminal} {bodies : OrderedSet Body} {shared : Body}

/-- The bodies of the new nonterminal are the remainders. -/
theorem append_mem_of_produces_freshFor (hg : g.WellFormed) (hbodies : g.bodies? n = some bodies)
    {p : Body} (hp : (g.factorOnce n bodies shared).Produces (g.freshFor n) p) :
    shared ++ p ∈ bodies := by
  rcases (produces_factorOnce hbodies).1 hp with ⟨_, hold⟩ | ⟨heq, _⟩ | ⟨_, hmoved⟩
  · exact absurd hold.mem_order (hg.freshFor_not_mem_order n)
  · exact absurd heq (freshFor_ne hg hbodies)
  · exact mem_remainders.1 hmoved

theorem derives_factorOnce_of_produces (hg : g.WellFormed) (hbodies : g.bodies? n = some bodies)
    {m : NonTerminal} {p : Body} (hp : g.Produces m p) {ρ : List Symbol}
    (hder : (g.factorOnce n bodies shared).Derives p ρ) :
    (g.factorOnce n bodies shared).Derives [.nonTerminal m] ρ := by
  by_cases hmn : m = n
  · subst hmn
    have hp' : p ∈ bodies := (produces_iff_of_bodies? hg.nodup_order hbodies).1 hp
    by_cases hrest : ∃ rest, p = shared ++ rest
    · obtain ⟨rest, rfl⟩ := hrest
      obtain ⟨hkept, hmoved⟩ := produces_factorOnce_merged hbodies hp'
      exact (hkept.derives.trans (hmoved.derives.append_left shared)).trans hder
    · exact (produces_factorOnce_kept hbodies hp' hrest).derives.trans hder
  · exact (Produces.derives ((produces_factorOnce hbodies).2 (Or.inl ⟨hmn, hp⟩))).trans hder

theorem derives_of_derives_factorOnce (hg : g.WellFormed) (hbodies : g.bodies? n = some bodies)
    {m : NonTerminal} (hm : m ∈ g.order) {τ : List Symbol} (hτ : g.Settled τ)
    (hder : (g.factorOnce n bodies shared).Derives [.nonTerminal m] τ) :
    g.Derives [.nonTerminal m] τ := by
  have hproduces : ∀ {p}, g.Produces n p ↔ p ∈ bodies :=
    produces_iff_of_bodies? hg.nodup_order hbodies
  -- The new nonterminal stands for the remainders of the alternatives with the prefix.
  refine derives_of_derives_splitOff (fun ρ => ∃ rest, shared ++ rest ∈ bodies ∧ g.Derives rest ρ)
    hg (mem_order_of_bodies? hbodies) (g.freshFor_not_mem n) ?_ ?_ hm hτ hder
  · intro p hp ρ hρ
    rcases mem_factoredBodies.1 hp with ⟨hp', _⟩ | ⟨rfl, rest, hrest⟩
    · have hold : g.Produces n p := hproduces.2 hp'
      exact hold.derives.trans
        (derives_of_spells_readFresh (hg.freshFor_not_mem_body n hold) hρ)
    · obtain ⟨ρ₁, ρ₂, rfl, hfront, rest', hrest', hback⟩ := exists_append_of_spells_readFresh
        (fun hin => hg.freshFor_not_mem_body n (hproduces.2 hrest) (List.mem_append_left _ hin)) hρ
      exact (hproduces.2 hrest').derives.trans (hfront.append hback)
  · intro p hp ρ hρ
    have hmem := mem_remainders.1 hp
    exact ⟨p, hmem, derives_of_spells_readFresh
      (fun hin => hg.freshFor_not_mem_body n (hproduces.2 hmem) (List.mem_append_right _ hin)) hρ⟩

theorem preserves_factorOnce (hg : g.WellFormed) (hbodies : g.bodies? n = some bodies)
    {rest : Body} (hrest : shared ++ rest ∈ bodies) :
    Preserves g (g.factorOnce n bodies shared) := by
  apply Preserves.of_produces (undefined_factorOnce hbodies shared)
  · intro m hm
    exact (mem_order_factorOnce hbodies).2 (Or.inl hm)
  · intro m p hp ρ _ hder
    exact derives_factorOnce_of_produces hg hbodies hp hder
  · -- The remainder consists of old symbols, which settle as they did before.
    intro hground hcomplete m hm hnot
    rcases (mem_order_factorOnce hbodies).1 hm with hold | rfl
    · exact absurd hold hnot
    · have hp : g.Produces n (shared ++ rest) :=
        (produces_iff_of_bodies? hg.nodup_order hbodies).2 hrest
      obtain ⟨τ, hτ, hder⟩ := hground.exists_settled (σ := rest)
        fun s hs => hg.body_met n _ hp s (List.mem_append_right _ hs)
      obtain ⟨_, hmoved⟩ := produces_factorOnce_merged hbodies hrest
      exact ⟨τ, hτ, hmoved.derives.trans (hcomplete rest τ hτ hder)⟩
  · intro _ m hm τ hτ hder
    exact derives_of_derives_factorOnce hg hbodies hm hτ hder

end Factoring

/-! ### Normalization as a whole -/

theorem NormalizationStep.preserves (hg : g.WellFormed) (hstep : NormalizationStep g h) :
    Preserves g h := by
  cases hstep with
  | expand hexpand => exact preserves_expandEarlier hg hexpand
  | split hrecursive => exact preserves_splitRecursion hg hrecursive
  | factor hbodies hshared =>
      obtain ⟨rest, hrest⟩ := Body.exists_append_mem_of_longestSharedPrefix hshared
      exact preserves_factorOnce hg hbodies hrest

theorem NormalizationSteps.preserves (hg : g.WellFormed) (hsteps : NormalizationSteps g h) :
    Preserves g h := by
  induction hsteps with
  | refl => exact Preserves.refl g
  | tail hbefore hlast ih => exact ih.trans (hlast.preserves (hg.normalizationSteps hbefore))

/-- Generating strings of terminals is more than settling. -/
theorem Productive.grounded (hg : g.WellFormed) (hproductive : g.Productive) : g.Grounded := by
  intro n hn
  obtain ⟨p, hp⟩ := hg.exists_body n hn
  obtain ⟨w, hw⟩ := hproductive n p hp
  exact ⟨word w, settled_word w, hw⟩

end Grammar

namespace Session

/-- Normalizing within any limit, whether it is finished or gives up, loses no string that a
nonterminal generates; and if every nonterminal with a production generates some string, then each
generates exactly the same strings before and after. -/
theorem generates_normalizeWithin {s : Session} (hs : s.Reachable) (limit : Nat) {n : NonTerminal}
    (hn : n ∈ s.grammar.order) :
    (∀ w, s.grammar.Generates n w →
      (s.apply (.normalizeWithin limit)).1.grammar.Generates n w) ∧
    (s.grammar.Productive → ∀ w,
      (s.apply (.normalizeWithin limit)).1.grammar.Generates n w ↔ s.grammar.Generates n w) := by
  have hpreserves : Grammar.Preserves s.grammar (s.apply (.normalizeWithin limit)).1.grammar :=
    (Grammar.normalizationSteps_normalizeWithin limit s.grammar).preserves hs.wellFormed
  have hforward : ∀ w, s.grammar.Generates n w →
      (s.apply (.normalizeWithin limit)).1.grammar.Generates n w :=
    fun w hw => hpreserves.complete n hn _ (Grammar.settled_word w) hw
  refine ⟨hforward, fun hproductive w => ⟨fun hw => ?_, hforward w⟩⟩
  exact hpreserves.sound (hproductive.grounded hs.wellFormed) n hn _ (Grammar.settled_word w) hw

/-- A left recursive grammar: removing the recursion changes the productions but not what is
generated. -/
theorem generates_normalizeWithin_leftRecursive :
    let s := withLines ["A->Aa", "A->b"]
    let n : NonTerminal := ⟨'A', 0, rfl⟩
    s.Reachable ∧ n ∈ s.grammar.order ∧ s.grammar.Productive ∧
      (s.apply (.normalizeWithin 10)).1.grammar ≠ s.grammar ∧
      ∀ w, (s.apply (.normalizeWithin 10)).1.grammar.Generates n w ↔ s.grammar.Generates n w := by
  intro s n
  have hs : s.Reachable := reachable_withLines _
  have horder : s.grammar.order = [n] := by decide +kernel
  have hn : n ∈ s.grammar.order := by
    rw [horder]
    exact List.mem_singleton_self n
  have hbodies : s.grammar.bodies? n =
      some (.ofList [[.nonTerminal n, .terminal 'a'], [.terminal 'b']]) := by decide +kernel
  have hproductive : s.grammar.Productive := by
    intro m p hp
    have hm : m = n := by
      have hmem := hp.mem_order
      rw [horder] at hmem
      exact List.mem_singleton.1 hmem
    subst hm
    refine ⟨['b'], Grammar.Produces.derives ?_⟩
    exact (Grammar.produces_iff_of_bodies? hs.wellFormed.nodup_order hbodies).2 (by decide +kernel)
  have hchanged : (s.apply (.normalizeWithin 10)).1.grammar ≠ s.grammar := by
    have hlength : (s.apply (.normalizeWithin 10)).1.grammar.order.length = 2 := by
      unfold s
      cbv
    intro heq
    rw [heq, horder] at hlength
    cases hlength
  exact ⟨hs, hn, hproductive, hchanged, (generates_normalizeWithin hs 10 hn).2 hproductive⟩

end Session

end PredictiveParsing
