/-
Module: PredictiveParsing.Proofs.SubstitutionChains
Layer: Proofs
Purpose: What substitution trees decide, said without trees. A body leads to another one if its
  leading nonterminal may be substituted; a nonterminal is exposed if a chain of such substitutions,
  however long, brings it to the front of one of its own bodies. A complete tree shows exactly that,
  so removing left recursion leaves no nonterminal exposed, and it touches only those that were.
Imports: Mathlib, PredictiveParsing.Proofs.NormalForm
Main exports: Grammar.Precedes, Grammar.Substitutes, Grammar.Exposed, Forest.Grown.exposes_iff,
  Grammar.exposed_iff, Session.not_exposed_removeLeftRecursion
Open obligations: none
-/
import Mathlib
import PredictiveParsing.Proofs.NormalForm

namespace PredictiveParsing

open Relation

namespace Grammar

/-- The nonterminal `b` stands before `n` in the order. -/
def Precedes (g : Grammar) (b n : NonTerminal) : Prop :=
  ∃ front back, g.order = front ++ n :: back ∧ b ∈ front

/-- One substitution for the sake of `n`: the leading nonterminal of a body stands before `n`, is
none that `n` was split off from, and is replaced by one of its own bodies. -/
inductive Substitutes (g : Grammar) (n : NonTerminal) : Body → Body → Prop where
  | leading {b : NonTerminal} {r : Body} (tail : Body) (hbefore : g.Precedes b n)
      (hsplit : g.descendsFrom n b = false) (hr : g.Produces b r) :
      Substitutes g n (.nonTerminal b :: tail) (r ++ tail)

/-- A chain of substitutions brings `n` to the front of one of its bodies. The chain may be empty:
the body begins with `n` then. -/
def Exposed (g : Grammar) (n : NonTerminal) : Prop :=
  ∃ p q, g.Produces n p ∧ ReflTransGen (g.Substitutes n) p q ∧ q.beginsWith n = true

variable {g : Grammar} {n : NonTerminal}

theorem precedes_iff_mem_takeWhile (hnodup : g.order.Nodup) (hn : n ∈ g.order) {b : NonTerminal} :
    g.Precedes b n ↔ b ∈ g.order.takeWhile (· ≠ n) := by
  have htake : ∀ {front back : List NonTerminal}, g.order = front ++ n :: back →
      g.order.takeWhile (· ≠ n) = front := by
    intro front back horder
    have hplace : g.order[front.length]? = some n := by simp [horder]
    rw [takeWhile_order hnodup hplace, horder, List.take_left' rfl]
  constructor
  · intro h
    obtain ⟨front, back, horder, hb⟩ := h
    rw [htake horder]
    exact hb
  · intro hb
    obtain ⟨front, back, horder⟩ := List.append_of_mem hn
    rw [htake horder] at hb
    exact ⟨front, back, horder, hb⟩

/-- The children of a body in a substitution tree are what it leads to by one substitution. -/
theorem mem_substitutions_iff_substitutes (hnodup : g.order.Nodup) (hn : n ∈ g.order)
    {p q : Body} : q ∈ g.substitutions n p ↔ g.Substitutes n p q := by
  rw [mem_substitutions hnodup]
  constructor
  · intro h
    obtain ⟨b, tail, r, rfl, hb, hsplit, hr, rfl⟩ := h
    exact .leading tail ((precedes_iff_mem_takeWhile hnodup hn).2 hb) hsplit hr
  · intro h
    cases h with
    | leading tail hbefore hsplit hr =>
        exact ⟨_, tail, _, rfl, (precedes_iff_mem_takeWhile hnodup hn).1 hbefore, hsplit, hr, rfl⟩

end Grammar

/-- A complete forest exposes a nonterminal exactly if going from bodies to their children leads
from one of its roots to a body that begins with the nonterminal. -/
theorem Forest.Grown.exposes_iff {expand : Body → List Body} {n : NonTerminal} {roots : List Body}
    {forest : Forest} (h : Forest.Grown expand roots forest) :
    forest.exposes n = true ↔ ∃ root ∈ roots, ∃ q,
      ReflTransGen (fun parent child => child ∈ expand parent) root q ∧ q.beginsWith n = true := by
  induction h with
  | nil => simp [Forest.exposes]
  | @cons root rest children siblings _ _ ihBelow ihBeside =>
      simp only [Forest.exposes, Bool.or_eq_true, ihBelow, ihBeside]
      constructor
      · intro h
        rcases h with (hroot | ⟨child, hchild, q, hchain, hq⟩) | ⟨other, hother, hfound⟩
        · exact ⟨root, List.mem_cons_self, root, .refl, hroot⟩
        · exact ⟨root, List.mem_cons_self, q, .head hchild hchain, hq⟩
        · exact ⟨other, List.mem_cons_of_mem _ hother, hfound⟩
      · intro h
        obtain ⟨first, hfirst, q, hchain, hq⟩ := h
        rcases List.mem_cons.1 hfirst with rfl | hrest
        · rcases hchain.cases_head with rfl | ⟨child, hchild, hbelow⟩
          · exact Or.inl (Or.inl hq)
          · exact Or.inl (Or.inr ⟨child, hchild, q, hbelow, hq⟩)
        · exact Or.inr ⟨first, hrest, q, hchain, hq⟩

namespace Grammar

variable {g h : Grammar} {n : NonTerminal} {limit : Nat}

/-- Whether a nonterminal is exposed can be seen from the complete forest of its alternatives. -/
theorem exposed_iff (hnodup : g.order.Nodup) {bodies : OrderedSet Body}
    (hbodies : g.bodies? n = some bodies) {forest : Forest}
    (hgrown : Forest.Grown (g.substitutions n) bodies.toList forest) :
    g.Exposed n ↔ forest.exposes n = true := by
  have hn : n ∈ g.order := mem_order_of_bodies? hbodies
  have hstep : (fun parent child => child ∈ g.substitutions n parent) = g.Substitutes n := by
    funext p q
    exact propext (mem_substitutions_iff_substitutes hnodup hn)
  rw [hgrown.exposes_iff, hstep]
  constructor
  · intro hexposed
    obtain ⟨p, q, hp, hchain, hq⟩ := hexposed
    exact ⟨p, (produces_iff_of_bodies? hnodup hbodies).1 hp, q, hchain, hq⟩
  · intro hfound
    obtain ⟨p, hp, q, hchain, hq⟩ := hfound
    exact ⟨p, q, (produces_iff_of_bodies? hnodup hbodies).2 hp, hchain, hq⟩

theorem CalmAt.not_exposed (hcalm : g.CalmAt limit n) (hnodup : g.order.Nodup) :
    ¬ g.Exposed n := by
  obtain ⟨bodies, hbodies, forest, hgrown, hexposes, _⟩ := hcalm
  rw [exposed_iff hnodup hbodies hgrown, hexposes]
  exact Bool.false_ne_true

/-- A nonterminal that is not exposed is left alone. -/
theorem removeLeftRecursion_of_not_exposed (hnodup : g.order.Nodup) (hn : n ∈ g.order)
    (hidle : ¬ g.Exposed n) (hremove : g.removeLeftRecursion limit n = some h) : h = g := by
  obtain ⟨bodies, hbodies⟩ := exists_bodies_of_mem_order hn
  have hcalm : g.CalmAt limit n := by
    obtain ⟨expanded, hexpand, _⟩ := Option.map_eq_some_iff.1 hremove
    rw [expandEarlier, hbodies] at hexpand
    obtain ⟨forest, hforest, _⟩ := Option.map_eq_some_iff.1 hexpand
    obtain ⟨hgrown, hcost⟩ := Forest.grow?_eq_some_iff.1 hforest
    rw [exposed_iff hnodup hbodies hgrown, Bool.not_eq_true] at hidle
    exact ⟨bodies, hbodies, forest, hgrown, hidle, hcost⟩
  rw [hcalm.removeLeftRecursion hnodup] at hremove
  exact (Option.some.inj hremove).symm

end Grammar

namespace Session

open Grammar

variable {s : Session} {n : NonTerminal}

/-- The removal of left recursion that reports no error is that of the grammar. -/
theorem exists_of_apply_removeLeftRecursion (hdone : (s.apply (.removeLeftRecursion n)).2 = none) :
    ∃ g, s.grammar.removeLeftRecursion workLimit n = some g ∧
      (s.apply (.removeLeftRecursion n)).1 = { s with grammar := g } := by
  cases hremove : s.grammar.removeLeftRecursion workLimit n with
  | none => simp [Session.apply, hremove] at hdone
  | some g => exact ⟨g, rfl, by simp [Session.apply, hremove]⟩

/-- Where the left recursion of a nonterminal is removed, no chain of substitutions brings the
nonterminal to the front of one of its bodies any more. If there was none before, nothing changes
at all: the alternatives are what they were, and no nonterminal is created. -/
theorem not_exposed_removeLeftRecursion (hs : s.Reachable) (hn : n ∈ s.grammar.order)
    (hdone : (s.apply (.removeLeftRecursion n)).2 = none) :
    let t := (s.apply (.removeLeftRecursion n)).1
    ¬ t.grammar.Exposed n ∧ (¬ s.grammar.Exposed n → t = s) := by
  intro t
  have hs' : t.grammar.WellFormed := (hs.apply (.removeLeftRecursion n)).wellFormed
  obtain ⟨g, hremove, ht⟩ := exists_of_apply_removeLeftRecursion hdone
  have hgrammar : t.grammar = g := congrArg Session.grammar ht
  constructor
  · have hcalm : g.CalmAt workLimit n := calmAt_removeLeftRecursion hs.wellFormed hn hremove
    rw [← hgrammar] at hcalm
    exact hcalm.not_exposed hs'.nodup_order
  · intro hidle
    have hsame : g = s.grammar :=
      removeLeftRecursion_of_not_exposed hs.wellFormed.nodup_order hn hidle hremove
    show (s.apply (.removeLeftRecursion n)).1 = s
    rw [ht, hsame]

/-- The body `Sd` leads to `Aad`, so `A` is exposed, and a nonterminal is created for it. -/
theorem not_exposed_removeLeftRecursion_indirect :
    let s := withLines ["S->Aa", "S->b", "A->Ac", "A->Sd", "A->"]
    let n : NonTerminal := ⟨'A', 0, rfl⟩
    let t := (s.apply (.removeLeftRecursion n)).1
    s.Reachable ∧ n ∈ s.grammar.order ∧ (s.apply (.removeLeftRecursion n)).2 = none ∧
      s.grammar.Exposed n ∧ t.grammar.order.length = 3 ∧
      ¬ t.grammar.Exposed n ∧ (¬ s.grammar.Exposed n → t = s) := by
  intro s n t
  have hs : s.Reachable := reachable_withLines _
  have horder : s.grammar.order = [⟨'S', 0, rfl⟩, n] := by decide +kernel
  have hn : n ∈ s.grammar.order := by simp [horder]
  have hdone : (s.apply (.removeLeftRecursion n)).2 = none := by
    unfold s n
    cbv
  have hafter : t.grammar.order.length = 3 := by
    unfold t s n
    cbv
  have hexposed : s.grammar.Exposed n := by
    refine ⟨[.nonTerminal ⟨'S', 0, rfl⟩, .terminal 'd'], _, by decide +kernel,
      .single (.leading [.terminal 'd'] ⟨[⟨'S', 0, rfl⟩], [], horder, List.mem_cons_self⟩
        (by decide +kernel) (r := [.nonTerminal n, .terminal 'a']) (by decide +kernel)), rfl⟩
  exact ⟨hs, hn, hdone, hexposed, hafter, not_exposed_removeLeftRecursion hs hn hdone⟩

end Session

end PredictiveParsing
