/-
Module: PredictiveParsing.Proofs.Predictability
Layer: Proofs
Purpose: Predictability as a property of derivations. A body is used with a character in front if
  its nonterminal stands in a derived form and the body, with what stands behind the nonterminal,
  derives a form that begins with the character. In a reduced grammar, in which each nonterminal is
  reached and generates something, the table has no conflicts exactly if no two bodies of a
  nonterminal are used with the same character in front. Such a grammar is not left recursive: a
  loop and a way out of it would be used with the same character in front.
Imports: PredictiveParsing.Proofs.LanguagePreservation, PredictiveParsing.Proofs.LeftCorners,
  PredictiveParsing.Proofs.TableExactness
Main exports: Grammar.Predicted, Grammar.Predictable, Grammar.Reduced,
  Grammar.Reduced.conflicts_eq_nil_iff, Grammar.Predictable.loopFree_leftCorner
Open obligations: none
-/
import PredictiveParsing.Proofs.LanguagePreservation
import PredictiveParsing.Proofs.LeftCorners
import PredictiveParsing.Proofs.TableExactness

namespace PredictiveParsing

open Relation

namespace Grammar

/-- In some form that is derived from the start symbol with the end mark behind it, the body in the
place of the nonterminal leads to the character in front of all that follows. -/
def Predicted (g : Grammar) (start n : NonTerminal) (p : Body) (c : Char) : Prop :=
  ∃ u v τ, g.Derives [.nonTerminal start, .terminal endMark] (u ++ .nonTerminal n :: v) ∧
    g.Derives (p ++ v) (.terminal c :: τ)

/-- The character in front decides which body of a nonterminal is used. -/
def Predictable (g : Grammar) (start : NonTerminal) : Prop :=
  ∀ n p q c, g.Produces n p → g.Produces n q → g.Predicted start n p c →
    g.Predicted start n q c → p = q

/-- Every nonterminal has a rule, is reached from the start symbol and generates some string. -/
structure Reduced (g : Grammar) (start : NonTerminal) : Prop where
  wellFormed : g.WellFormed
  start?_eq : g.start? = some start
  undefined_eq : g.undefined = []
  reached : ∀ n p, g.Produces n p → g.Reaches start n
  productive : g.Productive

variable {g : Grammar} {start n : NonTerminal}

namespace Reduced

theorem mem_order_of_produces (hr : g.Reduced start) {p : Body} (hp : g.Produces n p)
    {m : NonTerminal} (hm : .nonTerminal m ∈ p) : m ∈ g.order := by
  by_contra hnot
  have hundefined : m ∈ g.undefined := mem_undefined.2 ⟨hr.wellFormed.body_met n p hp _ hm, hnot⟩
  rw [hr.undefined_eq] at hundefined
  cases hundefined

/-- The nonterminals of a form that is derived from the start symbol have rules. -/
theorem mem_order_of_derives (hr : g.Reduced start) {τ : List Symbol}
    (hder : g.Derives [.nonTerminal start, .terminal endMark] τ) {m : NonTerminal}
    (hm : .nonTerminal m ∈ τ) : m ∈ g.order := by
  rcases hder.mem_or_produces hm with hself | ⟨k, p, hp, hbody⟩
  · have hstart : m = start := by simpa using hself
    rw [hstart]
    exact start_mem_order hr.start?_eq
  · exact hr.mem_order_of_produces hp hbody

theorem exists_word (hr : g.Reduced start) {σ : List Symbol}
    (hσ : ∀ m, .nonTerminal m ∈ σ → m ∈ g.order) : ∃ w, g.Derives σ (word w) := by
  induction σ with
  | nil => exact ⟨[], Derives.refl []⟩
  | cons s rest ih =>
      obtain ⟨w, hw⟩ := ih fun m hm => hσ m (List.mem_cons_of_mem _ hm)
      cases s with
      | terminal c => exact ⟨c :: w, hw.append_left [.terminal c]⟩
      | nonTerminal m =>
          obtain ⟨p, hp⟩ := hr.wellFormed.exists_body m (hσ m List.mem_cons_self)
          obtain ⟨v, hv⟩ := hr.productive m p hp
          refine ⟨v ++ w, ?_⟩
          rw [word_append]
          exact Derives.append hv hw

/-- Every nonterminal with a rule stands in a derived form, the end mark being the last symbol. -/
theorem exists_context (hr : g.Reduced start) {p : Body} (hp : g.Produces n p) :
    ∃ u v, g.Derives [.nonTerminal start, .terminal endMark]
      (u ++ .nonTerminal n :: (v ++ [.terminal endMark])) := by
  obtain ⟨u, v, hder⟩ := hr.reached n p hp
  exact ⟨u, v, by simpa using hder.append_right [.terminal endMark]⟩

/-- Whatever stands before the end mark, some character comes next. -/
theorem exists_next (hr : g.Reduced start) {u v : List Symbol}
    (hder : g.Derives [.nonTerminal start, .terminal endMark] (u ++ (v ++ [.terminal endMark]))) :
    ∃ c τ, g.Derives (v ++ [.terminal endMark]) (.terminal c :: τ) := by
  obtain ⟨w, hw⟩ := hr.exists_word fun m hm =>
    hr.mem_order_of_derives hder (List.mem_append_right u (List.mem_append_left _ hm))
  have hend := hw.append_right [.terminal endMark]
  cases w with
  | nil => exact ⟨endMark, [], hend⟩
  | cons c w => exact ⟨c, _, hend⟩

/-! ### What the table knows -/

/-- A body is entered for exactly the characters it is used with. -/
theorem comesNext_iff_predicted (hr : g.Reduced start) {p : Body} (hp : g.Produces n p) {c : Char} :
    ComesNext g.firstSets p ((g.followSets g.firstSets).charsOf n) c ↔
      g.Predicted start n p c := by
  have hg := hr.wellFormed
  have hfirst : ∀ {d}, d ∈ firstOf g.firstSets p ↔ g.Announces p d :=
    mem_firstOf_firstSets_iff hg (hg.emptyMark_not_mem hp)
  constructor
  · intro hnext
    rcases hnext with ⟨hc, hne⟩ | ⟨hvanish, hc⟩
    · rcases hfirst.1 hc with ⟨heq, _⟩ | ⟨_, τ, hτ⟩
      · exact absurd heq hne
      · obtain ⟨u, v, hcontext⟩ := hr.exists_context hp
        exact ⟨u, _, _, hcontext, hτ.append_right _⟩
    · rcases hfirst.1 hvanish with ⟨_, hnil⟩ | ⟨hne, _⟩
      · obtain ⟨u, v, hcontext⟩ :=
          follows_of_mem_followSets hg hr.start?_eq hr.reached n c hc
        exact ⟨u, _, v, hcontext, hnil.append_right _⟩
      · exact absurd rfl hne
  · intro hpredicted
    obtain ⟨u, v, τ, hcontext, hder⟩ := hpredicted
    obtain ⟨τ₁, τ₂, heq, h₁, h₂⟩ := derives_append_iff.1 hder
    cases τ₁ with
    | nil =>
        -- The body vanishes, so the character follows the nonterminal.
        obtain rfl : .terminal c :: τ = τ₂ := heq
        have hfollows : g.Follows start n c :=
          ⟨u, τ, hcontext.trans ((h₂.append_left [.nonTerminal n]).append_left u)⟩
        exact Or.inr ⟨hfirst.2 (Or.inl ⟨rfl, h₁⟩),
          mem_followSets_of_follows hg hr.start?_eq hfollows⟩
    | cons s τ₁ =>
        obtain ⟨rfl, rfl⟩ := List.cons.inj heq
        have hne : c ≠ emptyMark := by
          rintro rfl
          rcases h₁.mem_or_produces List.mem_cons_self with hself | ⟨m, q, hq, hbody⟩
          · exact hg.emptyMark_not_mem hp hself
          · exact hg.emptyMark_not_mem hq hbody
        exact Or.inl ⟨hfirst.2 (Or.inr ⟨hne, τ₁, h₁⟩), hne⟩

/-- The table of a reduced grammar has no conflicts exactly if the grammar is predictable. -/
theorem conflicts_eq_nil_iff (hr : g.Reduced start) :
    (g.table g.lookahead).conflicts = [] ↔ g.Predictable start := by
  have hlookahead : g.lookahead = ⟨g.firstSets, g.followSets g.firstSets⟩ := rfl
  rw [conflicts_table_eq_nil_iff_comesNext hr.wellFormed.nodup_order, hlookahead]
  constructor
  · intro hdisjoint n p q c hp hq hpredicted hpredicted'
    by_contra hne
    exact hdisjoint n p q hp hq hne c
      ⟨(hr.comesNext_iff_predicted hp).2 hpredicted, (hr.comesNext_iff_predicted hq).2 hpredicted'⟩
  · intro hpredictable n p q hp hq hne c hboth
    exact hne (hpredictable n p q c hp hq ((hr.comesNext_iff_predicted hp).1 hboth.1)
      ((hr.comesNext_iff_predicted hq).1 hboth.2))

end Reduced

/-! ### Predictable grammars are not left recursive -/

/-- If a nonterminal of some kind generates a string, then one of that kind has a body that derives
a string of terminals and holds none of them. -/
theorem exists_produces_avoiding {P : NonTerminal → Prop} (hn : P n) {w : List Char}
    (hw : g.Generates n w) :
    ∃ m q τ, P m ∧ g.Produces m q ∧ g.Derives q τ ∧ (∀ k, .nonTerminal k ∉ τ) ∧
      ∀ k, P k → .nonTerminal k ∉ q := by
  by_contra hnone
  -- Otherwise nonterminals of that kind derive only forms that hold nonterminals.
  have hspells : Spells (fun m ρ => g.Derives [.nonTerminal m] ρ ∧
      (P m → ∃ k, .nonTerminal k ∈ ρ)) [.nonTerminal n] (word w) := by
    refine Derives.spells hw ?_ fun m hm => absurd hm (nonTerminal_not_mem_word m w)
    intro m q hq ρ hρ
    have hder : g.Derives q ρ := derives_iff_spells.2 (hρ.mono fun _ _ _ hpiece => hpiece.1)
    refine ⟨hq.derives.trans hder, fun hm => ?_⟩
    by_contra hterminals
    refine hnone ⟨m, q, ρ, hm, hq, hder, fun k hk => hterminals ⟨k, hk⟩, fun k hk hmem => ?_⟩
    obtain ⟨piece, ⟨_, hpiece⟩, hsub⟩ := hρ.exists_piece hmem
    obtain ⟨j, hj⟩ := hpiece hk
    exact hterminals ⟨j, hsub _ hj⟩
  obtain ⟨k, hk⟩ := hspells.nonTerminal_singleton.2 hn
  exact nonTerminal_not_mem_word k w hk

theorem Predictable.loopFree_leftCorner (hp : g.Predictable start) (hr : g.Reduced start) :
    LoopFree g.LeftCorner := by
  intro n hloop
  obtain ⟨_, ⟨_, _, hbody, _⟩, _⟩ := TransGen.head'_iff.1 hloop
  obtain ⟨w, hw⟩ := hr.productive n _ hbody
  obtain ⟨m, q, τ, hm, hq, hqder, hterminals, havoid⟩ :=
    exists_produces_avoiding (P := fun k => TransGen g.LeftCorner k k) hloop hw
  obtain ⟨y, ⟨u, v, hround, hu⟩, hback⟩ := TransGen.head'_iff.1 hm
  have hne : q ≠ u ++ .nonTerminal y :: v := by
    rintro rfl
    exact havoid y (TransGen.tail' hback ⟨u, v, hround, hu⟩) (by simp)
  obtain ⟨β, hβ⟩ := exists_derives_of_leftCorners hback
  -- Going round the loop leaves something behind the nonterminal.
  have hloops : ∀ ρ, g.Derives (u ++ .nonTerminal y :: v ++ ρ)
      (.nonTerminal m :: (β ++ v ++ ρ)) := by
    intro ρ
    simpa using hu.append (hβ.append_right (v ++ ρ))
  obtain ⟨a, b, hcontext⟩ := hr.exists_context hq
  have hagain : g.Derives [.nonTerminal start, .terminal endMark]
      (a ++ .nonTerminal m :: (β ++ v ++ (b ++ [.terminal endMark]))) :=
    hcontext.trans ((hround.derives_cons (hloops _)).append_left a)
  cases τ with
  | nil =>
      -- The way out vanishes, and what the loop leaves behind comes next in both cases.
      obtain ⟨c, τ, hnext⟩ := hr.exists_next (u := a ++ [.nonTerminal m]) (v := β ++ v ++ b) <| by
        simpa using hagain
      have hnext' : g.Derives (q ++ (β ++ v ++ (b ++ [.terminal endMark]))) (.terminal c :: τ) := by
        simpa using hqder.append hnext
      exact hne (hp m q _ c hq hround ⟨a, _, τ, hagain, hnext'⟩
        ⟨a, _, τ, hcontext, (hloops _).trans (hq.derives_cons hnext')⟩)
  | cons s τ =>
      cases s with
      | nonTerminal k => exact hterminals k List.mem_cons_self
      | terminal c =>
          have hfront : ∀ ρ, g.Derives (q ++ ρ) (.terminal c :: (τ ++ ρ)) :=
            fun ρ => hqder.append_right ρ
          exact hne (hp m q _ c hq hround ⟨a, _, _, hcontext, hfront _⟩
            ⟨a, _, _, hcontext, (hloops _).trans (hq.derives_cons (hfront _))⟩)

/-- Removing left recursion leaves a predictable grammar as it is. -/
theorem Predictable.removeLeftRecursion_eq_self (hp : g.Predictable start) (hr : g.Reduced start)
    {h : Grammar} {limit : Nat} (hremove : g.removeLeftRecursion limit n = some h) : h = g := by
  have hfree : LoopFree (g.LeftCornerIn fun _ => True) :=
    (hp.loopFree_leftCorner hr).mono fun _ _ hab => hab.2.2
  exact Grammar.removeLeftRecursion_eq_self hr.wellFormed.nodup_order trivial
    (fun _ _ => trivial) (hfree n) hremove

end Grammar

end PredictiveParsing
