/-
Module: PredictiveParsing.Proofs.LookaheadExactness
Layer: Proofs
Purpose: What a session knows after its lookahead sets were computed. The grammar of a session is
  well formed, so both computations end in fixed points, and the FIRST sets say exactly how derived
  strings can begin. The FOLLOW sets hold all that can come after a nonterminal, and nothing else
  if every nonterminal with a production is reached from the start symbol.
Imports: Mathlib, PredictiveParsing.Proofs.FollowSets
Main exports: Session.first_computeLookahead_exact, Session.follow_computeLookahead_exact
Open obligations: none
-/
import Mathlib
import PredictiveParsing.Proofs.FollowSets

namespace PredictiveParsing

namespace Session

open Grammar

/-- Computing the lookahead sets comes to an end: they are what some number of rounds leaves, and
one more round changes nothing. Afterwards the FIRST set of a nonterminal holds a terminal exactly
if some form with that terminal in front can be derived from it, and the empty mark exactly if the
empty string can; and the same is true of the FIRST set of any form. -/
theorem first_computeLookahead_exact {s : Session} (hs : s.Reachable) :
    let g := s.grammar
    let lookahead := (s.apply .computeLookahead).1.lookahead
    ((∃ rounds, g.firstRound^[rounds] g.emptySets = lookahead.first) ∧
      g.firstRound lookahead.first = lookahead.first) ∧
    (∀ start, g.start? = some start →
      (∃ rounds, (g.followRound lookahead.first)^[rounds] (g.emptySets.extend start [endMark]) =
        lookahead.follow) ∧
      g.followRound lookahead.first lookahead.follow = lookahead.follow) ∧
    (∀ n t, t ≠ emptyMark →
      (t ∈ lookahead.first.charsOf n ↔ ∃ τ, g.Derives [.nonTerminal n] (.terminal t :: τ))) ∧
    (∀ n, (emptyMark ∈ lookahead.first.charsOf n ↔ g.Derives [.nonTerminal n] []) ∧
      (lookahead.isNullable n = true ↔ g.Derives [.nonTerminal n] [])) ∧
    (∀ σ, .terminal emptyMark ∉ σ →
      (∀ t, t ≠ emptyMark →
        (t ∈ firstOf lookahead.first σ ↔ ∃ τ, g.Derives σ (.terminal t :: τ))) ∧
      (emptyMark ∈ firstOf lookahead.first σ ↔ g.Derives σ [])) := by
  intro g lookahead
  have hg : g.WellFormed := hs.wellFormed
  have hform : ∀ σ : List Symbol, .terminal emptyMark ∉ σ →
      (∀ t, t ≠ emptyMark →
        (t ∈ firstOf lookahead.first σ ↔ ∃ τ, g.Derives σ (.terminal t :: τ))) ∧
      (emptyMark ∈ firstOf lookahead.first σ ↔ g.Derives σ []) := by
    intro σ hσ
    have hexact : ∀ c, c ∈ firstOf lookahead.first σ ↔ g.Announces σ c := fun c =>
      mem_firstOf_firstSets_iff hg hσ
    refine ⟨fun t ht => ?_, ?_⟩
    · rw [hexact t]
      simp [Announces, ht]
    · rw [hexact emptyMark]
      simp [Announces]
  have hsingle : ∀ n, .terminal emptyMark ∉ [Symbol.nonTerminal n] := by simp
  refine ⟨⟨CharSets.exists_iterate_eq_saturate, firstRound_firstSets hg⟩, ?_, ?_, ?_, hform⟩
  · intro start hstart
    refine ⟨?_, followRound_followSets hg (firstSound_firstSets hg) hstart⟩
    have hfollow : lookahead.follow = g.followSets lookahead.first := rfl
    rw [hfollow, followSets, hstart]
    exact CharSets.exists_iterate_eq_saturate
  · intro n t ht
    rw [← mem_firstOf_nonTerminal]
    exact (hform _ (hsingle n)).1 t ht
  · intro n
    have hnil : emptyMark ∈ lookahead.first.charsOf n ↔ g.Derives [.nonTerminal n] [] := by
      rw [← mem_firstOf_nonTerminal]
      exact (hform _ (hsingle n)).2
    exact ⟨hnil, by rw [Lookahead.isNullable, decide_eq_true_iff, hnil]⟩

/-- Two nonterminals that derive each other, one of which can vanish. -/
theorem first_computeLookahead_exact_mutual :
    let s := withLines ["S->AB", "A->aS", "A->", "B->b"]
    let a : NonTerminal := ⟨'A', 0, rfl⟩
    let start : NonTerminal := ⟨'S', 0, rfl⟩
    s.Reachable ∧ s.grammar.Derives [.nonTerminal a] [] ∧
      ¬ s.grammar.Derives [.nonTerminal start] [] ∧
      ∀ t, t ≠ emptyMark →
        ((∃ τ, s.grammar.Derives [.nonTerminal start] (.terminal t :: τ)) ↔ t = 'a' ∨ t = 'b') := by
  intro s a start
  have hs : s.Reachable := reachable_withLines _
  obtain ⟨_, _, hterminal, hempty, _⟩ := first_computeLookahead_exact hs
  have ha : ((s.apply .computeLookahead).1.lookahead.first.charsOf a).toList =
      ['a', emptyMark] := by
    unfold s a
    cbv
  have hstart : ((s.apply .computeLookahead).1.lookahead.first.charsOf start).toList =
      ['a', 'b'] := by
    unfold s start
    cbv
  refine ⟨hs, ?_, ?_, ?_⟩
  · rw [← (hempty a).1, ← OrderedSet.mem_toList, ha]
    decide
  · rw [← (hempty start).1, ← OrderedSet.mem_toList, hstart]
    decide
  · intro t ht
    rw [← hterminal start t ht, ← OrderedSet.mem_toList, hstart]
    simp

/-- Computing the lookahead sets comes to an end, and afterwards the FOLLOW sets are those of the
nonterminals that were met. The set of a nonterminal holds every character that stands directly
after it in a form derived from the start symbol with the end mark behind it. If every nonterminal
with a production is reached from the start symbol, it holds no other character. -/
theorem follow_computeLookahead_exact {s : Session} (hs : s.Reachable) {start : NonTerminal}
    (hstart : s.grammar.start? = some start) :
    let g := s.grammar
    let lookahead := (s.apply .computeLookahead).1.lookahead
    ((∃ rounds, g.firstRound^[rounds] g.emptySets = lookahead.first) ∧
      g.firstRound lookahead.first = lookahead.first) ∧
    ((∃ rounds, (g.followRound lookahead.first)^[rounds] (g.emptySets.extend start [endMark]) =
        lookahead.follow) ∧
      g.followRound lookahead.first lookahead.follow = lookahead.follow) ∧
    lookahead.follow.keys = g.nonTerminals ∧
    (∀ n t, g.Follows start n t → t ∈ lookahead.follow.charsOf n) ∧
    ((∀ m p, g.Produces m p → g.Reaches start m) →
      ∀ n, ∀ t ∈ lookahead.follow.charsOf n, g.Follows start n t) := by
  intro g lookahead
  have hg : g.WellFormed := hs.wellFormed
  have hfirst : g.FirstSound lookahead.first := firstSound_firstSets hg
  have hrounds : ∃ rounds, (g.followRound lookahead.first)^[rounds]
      (g.emptySets.extend start [endMark]) = lookahead.follow := by
    have hfollow : lookahead.follow = g.followSets lookahead.first := rfl
    rw [hfollow, followSets, hstart]
    exact CharSets.exists_iterate_eq_saturate
  exact ⟨⟨CharSets.exists_iterate_eq_saturate, firstRound_firstSets hg⟩,
    ⟨hrounds, followRound_followSets hg hfirst hstart⟩, (followWithin_followSets hg hfirst).keys,
    fun n t => mem_followSets_of_follows hg hstart, follows_of_mem_followSets hg hstart⟩

/-- Behind a nonterminal that can vanish the end mark is seen as well. -/
theorem follow_computeLookahead_exact_nullable :
    let s := withLines ["S->AB", "A->a", "B->b", "B->"]
    let start : NonTerminal := ⟨'S', 0, rfl⟩
    let a : NonTerminal := ⟨'A', 0, rfl⟩
    s.Reachable ∧ s.grammar.start? = some start ∧
      (∀ m p, s.grammar.Produces m p → s.grammar.Reaches start m) ∧
      ∀ t, s.grammar.Follows start a t ↔ t = 'b' ∨ t = endMark := by
  intro s start a
  have hs : s.Reachable := reachable_withLines _
  have hstart : s.grammar.start? = some start := by decide +kernel
  have horder : s.grammar.order = [start, a, ⟨'B', 0, rfl⟩] := by decide +kernel
  have hbodies : s.grammar.bodies? start =
      some (.singleton [.nonTerminal a, .nonTerminal ⟨'B', 0, rfl⟩]) := by decide +kernel
  have hbody : s.grammar.Derives [.nonTerminal start]
      [.nonTerminal a, .nonTerminal ⟨'B', 0, rfl⟩] :=
    Produces.derives ((produces_iff_of_bodies? hs.wellFormed.nodup_order hbodies).2
      (OrderedSet.mem_singleton.2 rfl))
  have hreached : ∀ m p, s.grammar.Produces m p → s.grammar.Reaches start m := by
    intro m p hp
    have hm := hp.mem_order
    rw [horder] at hm
    simp only [List.mem_cons, List.not_mem_nil, or_false] at hm
    rcases hm with rfl | rfl | rfl
    · exact ⟨[], [], Derives.refl _⟩
    · exact ⟨[], _, hbody⟩
    · exact ⟨[.nonTerminal a], [], hbody⟩
  obtain ⟨_, _, _, hcomplete, hsound⟩ := follow_computeLookahead_exact hs hstart
  have hset : ((s.apply .computeLookahead).1.lookahead.follow.charsOf a).toList =
      ['b', endMark] := by
    unfold s a
    cbv
  refine ⟨hs, hstart, hreached, fun t => ?_⟩
  have hmem : t ∈ (s.apply .computeLookahead).1.lookahead.follow.charsOf a ↔
      t = 'b' ∨ t = endMark := by
    rw [← OrderedSet.mem_toList, hset]
    simp
  rw [← hmem]
  exact ⟨hcomplete a t, hsound hreached a t⟩

end Session

end PredictiveParsing
