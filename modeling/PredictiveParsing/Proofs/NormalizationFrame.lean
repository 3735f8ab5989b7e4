/-
Module: PredictiveParsing.Proofs.NormalizationFrame
Layer: Proofs
Purpose: What normalization does not touch. Its changes replace alternatives and create
  nonterminals; the terminals, the nonterminals without a rule, the start symbol and the order among
  the old nonterminals stay as they are, and a change made for the sake of one nonterminal leaves
  the alternatives of all others alone. The bodies that it writes use symbols that were met before,
  apart from a new nonterminal, which is met when it is created; so it need not meet them again.
  Lookahead sets and table are not brought up to date.
Imports: Mathlib, PredictiveParsing.Proofs.Frame, PredictiveParsing.Proofs.SubstitutionChains
Main exports: Grammar.meet, Grammar.WellFormed.meet_eq_self, Grammar.Keeps,
  Grammar.Keeps.normalizationSteps, Grammar.ChangesOnly, Grammar.changesOnly_removeLeftRecursion,
  Grammar.changesOnly_factor, Session.normalization_frame
Open obligations: none
-/
import Mathlib
import PredictiveParsing.Proofs.Frame
import PredictiveParsing.Proofs.SubstitutionChains

namespace PredictiveParsing

namespace Grammar

variable {g h k : Grammar} {n : NonTerminal}

/-! ### Meeting symbols again -/

/-- Meet the symbols of a body. -/
def meet (g : Grammar) (p : Body) : Grammar :=
  { g with
    nonTerminals := g.nonTerminals.insertAll p.nonTerminals
    terminals := g.terminals.insertAll p.terminals }

/-- Symbols that were met keep their places when they are met again. -/
theorem meet_eq_self {p : Body} (hmet : ∀ s ∈ p, g.Meets s) : g.meet p = g := by
  have hnonTerminals : g.nonTerminals.insertAll p.nonTerminals = g.nonTerminals :=
    OrderedSet.insertAll_of_subset fun _ hm => hmet _ (Body.mem_nonTerminals.1 hm)
  have hterminals : g.terminals.insertAll p.terminals = g.terminals :=
    OrderedSet.insertAll_of_subset fun _ hc => (hmet _ (Body.mem_terminals.1 hc)).1
  rw [meet, hnonTerminals, hterminals]

theorem WellFormed.meet_eq_self (hg : g.WellFormed) {p : Body} (hp : g.Produces n p) :
    g.meet p = g :=
  Grammar.meet_eq_self (hg.body_met n p hp)

/-! ### The grammar as a whole -/

/-- What all changes made by normalization leave as it is. -/
structure Keeps (g h : Grammar) : Prop where
  terminals : h.terminals = g.terminals
  undefined : h.undefined = g.undefined
  start? : h.start? = g.start?
  /-- The old nonterminals are all there, in their old order. -/
  order : h.order.filter (· ∈ g.order) = g.order

namespace Keeps

theorem refl (g : Grammar) : Keeps g g where
  terminals := rfl
  undefined := rfl
  start? := rfl
  order := List.filter_eq_self.2 fun _ hn => decide_eq_true hn

theorem mem_order (hgh : Keeps g h) (hn : n ∈ g.order) : n ∈ h.order := by
  rw [← hgh.order] at hn
  exact (List.mem_filter.1 hn).1

theorem trans (hgh : Keeps g h) (hhk : Keeps h k) : Keeps g k where
  terminals := hhk.terminals.trans hgh.terminals
  undefined := hhk.undefined.trans hgh.undefined
  start? := hhk.start?.trans hgh.start?
  order := by
    calc k.order.filter (· ∈ g.order)
        = (k.order.filter (· ∈ h.order)).filter (· ∈ g.order) := by
          rw [List.filter_filter]
          refine List.filter_congr fun m _ => ?_
          by_cases hm : m ∈ g.order
          · simp [hm, hgh.mem_order hm]
          · simp [hm]
      _ = h.order.filter (· ∈ g.order) := by rw [hhk.order]
      _ = g.order := hgh.order

theorem setBodies (g : Grammar) (n : NonTerminal) (bodies : OrderedSet Body) :
    Keeps g (g.setBodies n bodies) where
  terminals := rfl
  undefined := by
    unfold Grammar.undefined
    rw [order_setBodies]
    rfl
  start? := by rw [Grammar.start?, Grammar.start?, order_setBodies]
  order := by
    rw [order_setBodies]
    exact (refl g).order

theorem splitOff (hg : g.WellFormed) (hn : n ∈ g.order) (kept moved : OrderedSet Body) :
    Keeps g (g.splitOff n (g.freshFor n) kept moved) where
  terminals := rfl
  undefined := undefined_splitOff hn (g.freshFor_not_mem n)
  start? := start?_splitOff
  order := by
    have hfresh := hg.freshFor_not_mem_order n
    obtain ⟨place, hplace⟩ := List.getElem?_of_mem hn
    rw [order_splitOff_of_getElem? hg.nodup_order hplace, List.append_cons, List.filter_append,
      List.filter_cons_of_neg (by simpa using hfresh), ← List.filter_append, ← List.append_cons,
      ← order_eq_of_getElem? hplace]
    exact (refl g).order

theorem normalizationStep (hg : g.WellFormed) (hstep : NormalizationStep g h) : Keeps g h := by
  cases hstep with
  | expand hexpand =>
      rcases expandEarlier_cases hexpand with rfl | ⟨_, _, _, _, rfl⟩
      · exact refl h
      · exact setBodies g _ _
  | split hrecursive =>
      obtain ⟨bodies, hbodies⟩ := exists_bodies_of_isLeftRecursive hrecursive
      rw [splitRecursion_eq hbodies]
      exact splitOff hg (mem_order_of_bodies? hbodies) _ _
  | factor hbodies _ => exact splitOff hg (mem_order_of_bodies? hbodies) _ _

theorem normalizationSteps (hg : g.WellFormed) (hsteps : NormalizationSteps g h) : Keeps g h := by
  induction hsteps with
  | refl => exact refl g
  | tail hfirst hlast ih => exact ih.trans (normalizationStep (hg.normalizationSteps hfirst) hlast)

end Keeps

/-! ### One nonterminal -/

/-- Only the rule of one nonterminal has changed, and nonterminals may have been split off from
it. -/
structure ChangesOnly (g : Grammar) (n : NonTerminal) (h : Grammar) : Prop where
  met : ∀ m ∈ g.nonTerminals, m ∈ h.nonTerminals
  bodies : ∀ m bodies, m ≠ n → g.bodies? m = some bodies → h.bodies? m = some bodies
  /-- The new nonterminals, whose names were not in use, stand directly behind it. -/
  order : ∃ created, (∀ m ∈ created, m ∉ g.nonTerminals) ∧ ∀ before later,
    g.order = before ++ n :: later → h.order = before ++ n :: (created ++ later)
  /-- Without a rule for it nothing has changed. -/
  eq_of_not_mem : n ∉ g.order → h = g

namespace ChangesOnly

theorem refl (g : Grammar) (n : NonTerminal) : ChangesOnly g n g where
  met := fun _ hm => hm
  bodies := fun _ _ _ hbodies => hbodies
  order := ⟨[], fun _ hm => absurd hm List.not_mem_nil, fun _ _ horder => horder⟩
  eq_of_not_mem := fun _ => rfl

theorem mem_order (hgh : ChangesOnly g n h) (hn : n ∈ h.order) : n ∈ g.order := by
  by_contra hnot
  rw [hgh.eq_of_not_mem hnot] at hn
  exact hnot hn

theorem setBodies (hgh : ChangesOnly g n h) (hnodup : h.order.Nodup) (hn : n ∈ h.order)
    (bodies : OrderedSet Body) : ChangesOnly g n (h.setBodies n bodies) where
  met := hgh.met
  bodies := fun m old hne hold => bodies?_setBodies_of_ne hnodup hne (hgh.bodies m old hne hold)
  order := by
    rw [order_setBodies]
    exact hgh.order
  eq_of_not_mem := fun hnot => absurd (hgh.mem_order hn) hnot

/-- The next nonterminal that is split off stands in front of the earlier ones. -/
theorem splitOff (hgh : ChangesOnly g n h) (hh : h.WellFormed) (hn : n ∈ h.order)
    (kept moved : OrderedSet Body) :
    ChangesOnly g n (h.splitOff n (h.freshFor n) kept moved) where
  met := fun m hm => OrderedSet.mem_insert.2 (Or.inl (hgh.met m hm))
  bodies := fun m old hne hold =>
    bodies?_splitOff_of_ne hh.nodup_order (hh.freshFor_not_mem_order n) hne
      (hgh.bodies m old hne hold)
  order := by
    obtain ⟨created, hcreated, horder⟩ := hgh.order
    refine ⟨h.freshFor n :: created, ?_, ?_⟩
    · refine List.forall_mem_cons.2 ⟨?_, hcreated⟩
      exact fun hmem => h.freshFor_not_mem n (hgh.met _ hmem)
    · intro before later hold
      have hnow := horder before later hold
      have hplace : h.order[before.length]? = some n := by simp [hnow]
      rw [order_splitOff_of_getElem? hh.nodup_order hplace]
      simp [hnow]
  eq_of_not_mem := fun hnot => absurd (hgh.mem_order hn) hnot

end ChangesOnly

theorem changesOnly_expandEarlier (hg : g.WellFormed) {limit : Nat}
    (hexpand : g.expandEarlier limit n = some h) : ChangesOnly g n h := by
  rcases expandEarlier_cases hexpand with rfl | ⟨bodies, _, hbodies, _, rfl⟩
  · exact .refl h n
  · exact (ChangesOnly.refl g n).setBodies hg.nodup_order (mem_order_of_bodies? hbodies) _

theorem changesOnly_removeLeftRecursion (hg : g.WellFormed) {limit : Nat}
    (hremove : g.removeLeftRecursion limit n = some h) : ChangesOnly g n h := by
  obtain ⟨expanded, hexpand, rfl⟩ := Option.map_eq_some_iff.1 hremove
  have hexpanded := changesOnly_expandEarlier hg hexpand
  by_cases hrecursive : expanded.isLeftRecursive n = true
  · obtain ⟨bodies, hbodies⟩ := exists_bodies_of_isLeftRecursive hrecursive
    rw [if_pos hrecursive, splitRecursion_eq hbodies]
    exact hexpanded.splitOff (hg.expandEarlier hexpand) (mem_order_of_bodies? hbodies) _ _
  · rw [if_neg hrecursive]
    exact hexpanded

theorem changesOnly_factor (hg : g.WellFormed) (rounds : Nat) :
    ChangesOnly g n (g.factor rounds n).grammar := by
  have hboth : (g.factor rounds n).grammar.WellFormed ∧
      ChangesOnly g n (g.factor rounds n).grammar := by
    refine factor_prefix_induction (P := fun h => h.WellFormed ∧ ChangesOnly g n h) ?_ rounds
      ⟨hg, .refl g n⟩
    intro h bodies shared rest hh hbodies hrest
    exact ⟨hh.1.factorOnce hbodies hrest,
      hh.2.splitOff hh.1 (mem_order_of_bodies? hbodies) _ _⟩
  exact hboth.2

/-! ### Substitution without an end -/

/-- Where an earlier nonterminal is left recursive, substituting it brings it to the front again. -/
theorem not_grown_of_leftRecursive (hg : g.WellFormed) {b : NonTerminal} {tail : Body}
    (hearlier : b ∈ g.order.takeWhile (· ≠ n)) (hsplit : g.descendsFrom n b = false)
    (hrecursive : g.Produces b (.nonTerminal b :: tail)) {roots : List Body} {forest : Forest}
    (hgrown : Forest.Grown (g.substitutions n) roots forest) :
    ∀ rest, .nonTerminal b :: rest ∉ roots := by
  induction hgrown with
  | nil => exact fun _ => List.not_mem_nil
  | @cons root others _ _ _ _ ihBelow ihBeside =>
      intro rest hmem
      rcases List.mem_cons.1 hmem with rfl | hother
      · have hchild :
            .nonTerminal b :: (tail ++ rest) ∈ g.substitutions n (.nonTerminal b :: rest) :=
          (mem_substitutions hg.nodup_order).2 ⟨b, rest, _, rfl, hearlier, hsplit, hrecursive, rfl⟩
        exact ihBelow _ hchild
      · exact ihBeside rest hother

/-- So removing left recursion fails, whatever the limit. -/
theorem removeLeftRecursion_eq_none (hg : g.WellFormed) {b : NonTerminal} {tail rest : Body}
    (hearlier : b ∈ g.order.takeWhile (· ≠ n)) (hsplit : g.descendsFrom n b = false)
    (hrecursive : g.Produces b (.nonTerminal b :: tail))
    (hp : g.Produces n (.nonTerminal b :: rest)) (limit : Nat) :
    g.removeLeftRecursion limit n = none := by
  rw [removeLeftRecursion, Option.map_eq_none_iff, Option.eq_none_iff_forall_ne_some]
  intro h hexpand
  obtain ⟨bodies, hbodies⟩ := exists_bodies_of_mem_order hp.mem_order
  obtain ⟨forest, hgrown, _⟩ := exists_grown_of_expandEarlier hbodies hexpand
  exact not_grown_of_leftRecursive hg hearlier hsplit hrecursive hgrown rest
    ((produces_iff_of_bodies? hg.nodup_order hbodies).1 hp)

end Grammar

namespace Session

open Grammar

variable {s : Session} {n : NonTerminal}

/-- What an operation that normalizes leaves as it is. -/
structure KeepsFrame (s t : Session) : Prop where
  grammar : Keeps s.grammar t.grammar
  lookahead : t.lookahead = s.lookahead
  table : t.table = s.table

/-- Only the grammar goes on to what normalization has made of it. -/
theorem KeepsFrame.of_normalizationSteps (hs : s.Reachable) {h : Grammar}
    (hsteps : NormalizationSteps s.grammar h) : KeepsFrame s { s with grammar := h } where
  grammar := Keeps.normalizationSteps hs.wellFormed hsteps
  lookahead := rfl
  table := rfl

/-- If removing left recursion fails, nothing has changed. -/
theorem apply_removeLeftRecursion_of_ne_none
    (hfailed : (s.apply (.removeLeftRecursion n)).2 ≠ none) :
    (s.apply (.removeLeftRecursion n)).1 = s := by
  cases hremove : s.grammar.removeLeftRecursion workLimit n with
  | none => simp [Session.apply, hremove]
  | some h => simp [Session.apply, hremove] at hfailed

theorem frame_removeLeftRecursion (hs : s.Reachable) (n : NonTerminal) :
    KeepsFrame s (s.apply (.removeLeftRecursion n)).1 ∧
      ChangesOnly s.grammar n (s.apply (.removeLeftRecursion n)).1.grammar := by
  by_cases hdone : (s.apply (.removeLeftRecursion n)).2 = none
  · obtain ⟨h, hremove, ht⟩ := exists_of_apply_removeLeftRecursion hdone
    rw [ht]
    exact ⟨.of_normalizationSteps hs (normalizationSteps_removeLeftRecursion hremove),
      changesOnly_removeLeftRecursion hs.wellFormed hremove⟩
  · rw [apply_removeLeftRecursion_of_ne_none hdone]
    exact ⟨.of_normalizationSteps hs .refl, .refl _ n⟩

theorem frame_factor (hs : s.Reachable) (n : NonTerminal) :
    KeepsFrame s (s.apply (.factor n)).1 ∧
      ChangesOnly s.grammar n (s.apply (.factor n)).1.grammar :=
  ⟨.of_normalizationSteps hs (normalizationSteps_factor workLimit n s.grammar),
    changesOnly_factor hs.wellFormed workLimit⟩

/-- Whether they are finished or give up, removing the left recursion of a nonterminal, factoring it
and normalizing the whole grammar keep the terminals, the nonterminals without a rule, the start
symbol, the order among the old nonterminals, and the lookahead sets and the table that are at hand.
All symbols of the bodies are among those that were met. The first two change no other nonterminal
and create new ones directly behind the given one; and if removing left recursion fails, the session
is as it was. -/
theorem normalization_frame (hs : s.Reachable) (n : NonTerminal) (limit : Nat) :
    ((s.apply (.removeLeftRecursion n)).2 ≠ none → (s.apply (.removeLeftRecursion n)).1 = s) ∧
      (∀ operation ∈ [.removeLeftRecursion n, .factor n, .normalize, .normalizeWithin limit],
        let t := (s.apply operation).1
        KeepsFrame s t ∧ ∀ m p, t.grammar.Produces m p → t.grammar.meet p = t.grammar) ∧
      ∀ operation ∈ [.removeLeftRecursion n, .factor n],
        ChangesOnly s.grammar n (s.apply operation).1.grammar := by
  obtain ⟨hremoved, hremovedOnly⟩ := frame_removeLeftRecursion hs n
  obtain ⟨hfactored, hfactoredOnly⟩ := frame_factor hs n
  have hnormalized : ∀ limit, KeepsFrame s (s.apply (.normalizeWithin limit)).1 := fun limit =>
    .of_normalizationSteps hs (normalizationSteps_normalizeWithin limit s.grammar)
  refine ⟨apply_removeLeftRecursion_of_ne_none, ?_, ?_⟩
  · intro operation hoperation t
    refine ⟨?_, fun m p hp => (hs.apply operation).wellFormed.meet_eq_self hp⟩
    simp only [List.mem_cons, List.not_mem_nil, or_false] at hoperation
    rcases hoperation with rfl | rfl | rfl | rfl
    · exact hremoved
    · exact hfactored
    · exact hnormalized workLimit
    · exact hnormalized limit
  · intro operation hoperation
    simp only [List.mem_cons, List.not_mem_nil, or_false] at hoperation
    rcases hoperation with rfl | rfl
    · exact hremovedOnly
    · exact hfactoredOnly

/-- The nonterminal `A` is factored, but its left recursion is not removed, since the earlier `S`
comes to the front again and again; and a normalization gives up on the way. No nonterminal is named
`S'`, which is used without a rule. -/
theorem normalization_frame_partial :
    let s := ((withLines ["S->Sa", "S->Sb", "S->S'c", "A->Sd", "A->Se", "A->Ad"]).apply
      .computeLookahead).1
    let n : NonTerminal := ⟨'A', 0, rfl⟩
    s.Reachable ∧ s.grammar.undefined = [⟨'S', 1, rfl⟩] ∧
      (s.apply (.removeLeftRecursion n)).2 ≠ none ∧ (s.apply (.removeLeftRecursion n)).1 = s ∧
      (s.apply (.factor n)).1.grammar.order = [⟨'S', 0, rfl⟩, n, ⟨'A', 1, rfl⟩] ∧
      ChangesOnly s.grammar n (s.apply (.factor n)).1.grammar ∧
      (s.apply (.normalizeWithin 8)).2 = some (.limitExceeded ⟨.size, ⟨'A', 2, rfl⟩⟩) ∧
      (s.apply (.normalizeWithin 8)).1.grammar.order =
        [⟨'S', 0, rfl⟩, ⟨'S', 2, rfl⟩, n, ⟨'A', 2, rfl⟩, ⟨'A', 1, rfl⟩] ∧
      KeepsFrame s (s.apply (.normalizeWithin 8)).1 := by
  intro s n
  have hs : s.Reachable := (reachable_withLines _).apply _
  have hundefined : s.grammar.undefined = [⟨'S', 1, rfl⟩] := by
    unfold s
    cbv
  have hfailed : (s.apply (.removeLeftRecursion n)).2 ≠ none := by
    have hearlier : ⟨'S', 0, rfl⟩ ∈ s.grammar.order.takeWhile (· ≠ n) := by
      unfold s n
      decide +kernel
    have hsplit : s.grammar.descendsFrom n ⟨'S', 0, rfl⟩ = false := by
      unfold s n
      cbv
    have hrecursive : s.grammar.Produces ⟨'S', 0, rfl⟩
        [.nonTerminal ⟨'S', 0, rfl⟩, .terminal 'a'] := by
      unfold s
      decide +kernel
    have hp : s.grammar.Produces n [.nonTerminal ⟨'S', 0, rfl⟩, .terminal 'd'] := by
      unfold s n
      decide +kernel
    have hnone := removeLeftRecursion_eq_none hs.wellFormed hearlier hsplit hrecursive hp workLimit
    simp [Session.apply, hnone]
  have hfactored : (s.apply (.factor n)).1.grammar.order = [⟨'S', 0, rfl⟩, n, ⟨'A', 1, rfl⟩] := by
    unfold s n
    cbv
  have hstopped : (s.apply (.normalizeWithin 8)).2 =
      some (.limitExceeded ⟨.size, ⟨'A', 2, rfl⟩⟩) := by
    unfold s
    cbv
  have horder : (s.apply (.normalizeWithin 8)).1.grammar.order =
      [⟨'S', 0, rfl⟩, ⟨'S', 2, rfl⟩, n, ⟨'A', 2, rfl⟩, ⟨'A', 1, rfl⟩] := by
    unfold s n
    cbv
  obtain ⟨hunchanged, hkeeps, honly⟩ := normalization_frame hs n 8
  exact ⟨hs, hundefined, hfailed, hunchanged hfailed, hfactored, honly _ (by simp), hstopped,
    horder, (hkeeps _ (by simp)).1⟩

end Session

end PredictiveParsing
