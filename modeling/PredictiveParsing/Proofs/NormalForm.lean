/-
Module: PredictiveParsing.Proofs.NormalForm
Layer: Proofs
Purpose: What normalization leaves where it is finished, and why doing it again changes nothing. A
  nonterminal is in normal form if substitution in its alternatives is idle within the limit and no
  two of them begin with the same symbol. A visit brings a nonterminal to normal form and keeps what
  stands before it in normal form, so in the end all nonterminals are, those created on the way
  included; and a visit of a nonterminal in normal form leaves the grammar alone.
Imports: Mathlib, PredictiveParsing.Proofs.Frame,
  PredictiveParsing.Proofs.LeftCorners, PredictiveParsing.Proofs.SubstitutionCost
Main exports: Grammar.NormalAt, Grammar.Visiting, Grammar.NormalBefore,
  Grammar.normalizeWithin_normal, Grammar.normalizeFrom_of_normal, Session.shape_normalizeWithin,
  Session.normalizeWithin_idempotent
Open obligations: none
-/
import Mathlib
import PredictiveParsing.Proofs.Frame
import PredictiveParsing.Proofs.LeftCorners
import PredictiveParsing.Proofs.SubstitutionCost

namespace PredictiveParsing

namespace Body

/-! ### Shared prefixes -/

theorem length_le_length_firstLongest {bodies : List Body} {p : Body} (hp : p ∈ bodies) :
    p.length ≤ (firstLongest bodies).length := by
  induction bodies with
  | nil => cases hp
  | cons q rest ih =>
      rw [firstLongest]
      split
      · next hlt =>
        rcases List.mem_cons.1 hp with rfl | hrest
        · exact Nat.le_of_lt hlt
        · exact ih hrest
      · next hge =>
        rcases List.mem_cons.1 hp with rfl | hrest
        · exact Nat.le_refl _
        · exact Nat.le_trans (ih hrest) (Nat.le_of_not_lt hge)

/-- Without a shared prefix, no body has a prefix in common with one behind it. -/
theorem pairwise_of_longestSharedPrefix {bodies : List Body} (h : longestSharedPrefix bodies = []) :
    bodies.Pairwise fun p q => commonPrefix p q = [] := by
  induction bodies with
  | nil => exact .nil
  | cons p rest ih =>
      have hown : firstLongest (rest.map (commonPrefix p)) = [] ∧
          longestSharedPrefix rest = [] := by
        rw [longestSharedPrefix] at h
        split at h
        · next hlt =>
          rw [h] at hlt
          cases hlt
        · next hge =>
          refine ⟨h, List.eq_nil_of_length_eq_zero ?_⟩
          rw [h] at hge
          exact Nat.eq_zero_of_not_pos hge
      refine .cons ?_ (ih hown.2)
      intro q hq
      have hle := length_le_length_firstLongest (List.mem_map_of_mem (f := commonPrefix p) hq)
      rw [hown.1] at hle
      exact List.eq_nil_of_length_eq_zero (Nat.le_zero.1 hle)

/-- Without a shared prefix, different bodies begin with different symbols. -/
theorem eq_of_longestSharedPrefix {bodies : List Body} (h : longestSharedPrefix bodies = [])
    {s : Symbol} {p q : Body} (hp : s :: p ∈ bodies) (hq : s :: q ∈ bodies) : p = q := by
  have hsymm : Std.Symm fun p q : Body => commonPrefix p q = [] :=
    ⟨fun p q hpq => (commonPrefix_comm q p).trans hpq⟩
  by_contra hne
  have hnone := (pairwise_of_longestSharedPrefix h).forall hp hq (by simpa using hne)
  simp [commonPrefix] at hnone

end Body

namespace Grammar

variable {g : Grammar} {limit : Nat} {n : NonTerminal}

/-! ### Nonterminals in normal form -/

/-- Substitution in the alternatives of `n` never brings `n` to the front, and stays within the
limit. -/
def CalmAt (limit : Nat) (g : Grammar) (n : NonTerminal) : Prop :=
  ∃ bodies, g.bodies? n = some bodies ∧ Forest.Calm (g.substitutions n) n limit bodies.toList

/-- What a visit makes of a nonterminal: substitution is idle, and no two alternatives begin with
the same symbol. -/
def NormalAt (limit : Nat) (g : Grammar) (n : NonTerminal) : Prop :=
  ∃ bodies, g.bodies? n = some bodies ∧ Forest.Calm (g.substitutions n) n limit bodies.toList ∧
    Body.longestSharedPrefix bodies.toList = []

/-- Removing left recursion leaves a nonterminal alone where substitution is idle. -/
theorem CalmAt.removeLeftRecursion (h : g.CalmAt limit n) (hnodup : g.order.Nodup) :
    g.removeLeftRecursion limit n = some g := by
  obtain ⟨bodies, hbodies, forest, hgrown, hexposes, hcost⟩ := h
  have hgrow : Forest.grow? (g.substitutions n) limit bodies.toList = some forest :=
    Forest.grow?_eq_some_iff.2 ⟨hgrown, hcost⟩
  have hexpand : g.expandEarlier limit n = some g := by
    rw [expandEarlier, hbodies]
    simp only [hgrow, Option.map_some, hgrown.fold_eq_prune,
      Forest.prune_of_exposes_eq_false hgrown hexposes, OrderedSet.ofList_toList,
      setBodies_self hnodup hbodies]
  have hdirect : g.isLeftRecursive n = false :=
    (isLeftRecursive_eq_false_iff hbodies).2 fun p hp =>
      (hgrown.exists_children_of_mem hexposes hp).1
  rw [Grammar.removeLeftRecursion, hexpand, Option.map_some, hdirect]
  rfl

/-- A visit leaves a nonterminal in normal form alone. -/
theorem NormalAt.visit (h : g.NormalAt limit n) (hnodup : g.order.Nodup) (hlimit : 0 < limit) :
    g.visit limit n = ⟨g, none⟩ := by
  obtain ⟨bodies, hbodies, hcalm, hshared⟩ := h
  have hremove := CalmAt.removeLeftRecursion ⟨bodies, hbodies, hcalm⟩ hnodup
  obtain ⟨rounds, rfl⟩ := Nat.exists_eq_succ_of_ne_zero (Nat.ne_of_gt hlimit)
  rw [Grammar.visit, hremove]
  simp only [factor, hbodies, hshared]

/-- Factoring that is finished leaves no two alternatives with a prefix in common. -/
theorem longestSharedPrefix_factor {rounds : Nat} (hdone : (factor rounds n g).obstacle? = none)
    {bodies : OrderedSet Body} (hbodies : (factor rounds n g).grammar.bodies? n = some bodies) :
    Body.longestSharedPrefix bodies.toList = [] := by
  fun_induction factor rounds n g with
  | case1 => cases hdone
  | case2 rounds n g hnone =>
      rw [hnone] at hbodies
      cases hbodies
  | case3 rounds n g bodies' hbodies' hshared =>
      obtain rfl : bodies = bodies' := Option.some.inj (hbodies.symm.trans hbodies')
      exact hshared
  | case4 rounds n g bodies' _ _ ih => exact ih hdone hbodies

/-! ### Changes elsewhere -/

theorem NormalAt.setBodies {m : NonTerminal} {bodies : OrderedSet Body} (h : g.NormalAt limit m)
    (hnodup : g.order.Nodup) (hne : m ≠ n) (hbefore : n ∉ g.order.takeWhile (· ≠ m)) :
    (g.setBodies n bodies).NormalAt limit m := by
  obtain ⟨old, hold, hcalm, hshared⟩ := h
  refine ⟨old, bodies?_setBodies_of_ne hnodup hne hold, ?_, hshared⟩
  rw [substitutions_setBodies hbefore]
  exact hcalm

theorem NormalAt.splitOff {m fresh : NonTerminal} {kept moved : OrderedSet Body}
    (h : g.NormalAt limit m) (hnodup : g.order.Nodup) (hfresh : fresh ∉ g.order) (hne : m ≠ n)
    (hbefore : n ∉ g.order.takeWhile (· ≠ m)) :
    (g.splitOff n fresh kept moved).NormalAt limit m := by
  obtain ⟨old, hold, hcalm, hshared⟩ := h
  have hfresh' : fresh ≠ m := by
    rintro rfl
    exact hfresh (mem_order_of_bodies? hold)
  refine ⟨old, bodies?_splitOff_of_ne hnodup hfresh hne hold, ?_, hshared⟩
  rw [substitutions_splitOff hbefore hfresh']
  exact hcalm

/-! ### Freeing one nonterminal -/

/-- Substitution leaves only such alternatives exposed as begin with `n` themselves. -/
theorem exists_calm_of_expandEarlier (hg : g.WellFormed) (hn : n ∈ g.order) {h : Grammar}
    (hexpand : g.expandEarlier limit n = some h) : ∃ bodies, h.bodies? n = some bodies ∧
      Forest.Calm (h.substitutions n) n limit (bodies.toList.filter (!·.beginsWith n)) := by
  obtain ⟨bodies, hbodies⟩ := exists_bodies_of_mem_order hn
  rw [Grammar.expandEarlier, hbodies] at hexpand
  obtain ⟨forest, hforest, rfl⟩ := Option.map_eq_some_iff.1 hexpand
  obtain ⟨hgrown, hcost⟩ := Forest.grow?_eq_some_iff.1 hforest
  refine ⟨_, bodies?_setBodies_self hg.nodup_order hn, ?_⟩
  rw [substitutions_setBodies (not_mem_takeWhile_self n), hgrown.fold_eq_prune]
  have hcalm : Forest.Calm (g.substitutions n) n (forest.cost + 0)
      ((forest.prune n).filter (!·.beginsWith n) ++ []) := hgrown.calm_prune Forest.calm_nil
  rw [List.append_nil] at hcalm
  exact (hcalm.mono hcost).sublist ((OrderedSet.newcomers_sublist _ _).filter _)

/-- If `n` keeps alternatives that are calm ones cut off, substitution in it is idle. -/
theorem calmAt_splitOff (hg : g.WellFormed) (hn : n ∈ g.order) {fresh : NonTerminal}
    {kept moved : OrderedSet Body} (hfresh : fresh ∉ g.order) {bodies bodies' : List Body}
    (hcalm : Forest.Calm (g.substitutions n) n limit bodies)
    (hcut : List.Forall₂ (Forest.CutOff fresh) bodies bodies')
    (hkept : kept.toList.Sublist bodies') : (g.splitOff n fresh kept moved).CalmAt limit n := by
  have hne : fresh ≠ n := by
    rintro rfl
    exact hfresh hn
  refine ⟨kept, bodies?_splitOff_base hg.nodup_order hfresh hn, ?_⟩
  rw [substitutions_splitOff (not_mem_takeWhile_self n) hne]
  exact (hcalm.cutOff hne (forall₂_cutOff_substitutions hfresh) hcut).sublist hkept

/-- Moving the recursion away leaves the alternatives that do not begin with `n`, cut off at their
ends. -/
theorem calmAt_splitRecursion (hg : g.WellFormed) {bodies : OrderedSet Body}
    (hbodies : g.bodies? n = some bodies)
    (hcalm : Forest.Calm (g.substitutions n) n limit (bodies.toList.filter (!·.beginsWith n))) :
    (g.splitRecursion n).CalmAt limit n := by
  have hn : n ∈ g.order := mem_order_of_bodies? hbodies
  have hfresh : g.freshFor n ∉ g.order := hg.freshFor_not_mem_order n
  rw [splitRecursion_eq hbodies]
  unfold baseBodies
  split
  · -- Only the new nonterminal is left: the empty body, cut off.
    have hnone : Forest.Calm (g.substitutions n) n 0 [] := Forest.calm_nil
    have hempty : Forest.Calm (g.substitutions n) n limit [[]] :=
      hnone.cons rfl .nil rfl (Nat.zero_le limit)
    exact calmAt_splitOff hg hn hfresh hempty (.cons (Or.inr ⟨[], [], rfl, rfl⟩) .nil)
      (List.Sublist.refl _)
  · next base hbase =>
    refine calmAt_splitOff hg hn hfresh hcalm ?_ (OrderedSet.newcomers_sublist _ _)
    rw [List.forall₂_map_right_iff]
    exact List.forall₂_same.2 fun p _ => Or.inr ⟨p, [], (List.append_nil p).symm, rfl⟩

/-- Freeing a nonterminal from left recursion leaves it such that substitution is idle. -/
theorem calmAt_removeLeftRecursion (hg : g.WellFormed) (hn : n ∈ g.order) {h : Grammar}
    (hremove : g.removeLeftRecursion limit n = some h) : h.CalmAt limit n := by
  obtain ⟨expanded, hexpand, rfl⟩ := Option.map_eq_some_iff.1 hremove
  obtain ⟨bodies, hbodies, hcalm⟩ := exists_calm_of_expandEarlier hg hn hexpand
  by_cases hrecursive : expanded.isLeftRecursive n = true
  · rw [if_pos hrecursive]
    exact calmAt_splitRecursion (hg.expandEarlier hexpand) hbodies hcalm
  · rw [if_neg hrecursive]
    have hnone := (isLeftRecursive_eq_false_iff hbodies).1 (by simpa using hrecursive)
    have hall : bodies.toList.filter (!·.beginsWith n) = bodies.toList := by
      apply List.filter_eq_self.2
      intro p hp
      rw [hnone p hp]
      rfl
    rw [hall] at hcalm
    exact ⟨bodies, hbodies, hcalm⟩

/-- Factoring a prefix out leaves the alternatives that have it, cut off behind the prefix. -/
theorem CalmAt.factorOnce (hn : g.CalmAt limit n) (hg : g.WellFormed) {bodies : OrderedSet Body}
    {shared : Body} (hbodies : g.bodies? n = some bodies) :
    (g.factorOnce n bodies shared).CalmAt limit n := by
  have hfresh : g.freshFor n ∉ g.order := hg.freshFor_not_mem_order n
  obtain ⟨bodies', hbodies', hcalm⟩ := hn
  obtain rfl : bodies = bodies' := Option.some.inj (hbodies.symm.trans hbodies')
  refine calmAt_splitOff hg (mem_order_of_bodies? hbodies) hfresh hcalm ?_
    (OrderedSet.newcomers_sublist _ _)
  rw [List.forall₂_map_right_iff]
  apply List.forall₂_same.2
  intro p _
  split
  · next hprefix =>
    obtain ⟨remainder, hremainder⟩ := Option.isSome_iff_exists.1 hprefix
    exact Or.inr ⟨shared, remainder, Body.dropPrefix?_eq_some_iff.1 hremainder, rfl⟩
  · exact Or.inl rfl

/-! ### One visit -/

/-- Where normalization stands during the visit of `n`: what stands before `n` is in normal form. -/
structure Visiting (limit place : Nat) (n : NonTerminal) (g : Grammar) : Prop where
  wellFormed : g.WellFormed
  stands : g.order[place]? = some n
  normal : ∀ m ∈ g.order.take place, g.NormalAt limit m

namespace Visiting

variable {place : Nat}

theorem mem_order (hg : Visiting limit place n g) : n ∈ g.order := List.mem_of_getElem? hg.stands

/-- The nonterminals before `n` are others, and `n` does not stand before them. -/
theorem ne_and_not_mem_takeWhile (hg : Visiting limit place n g) {m : NonTerminal}
    (hm : m ∈ g.order.take place) : m ≠ n ∧ n ∉ g.order.takeWhile (· ≠ m) := by
  have hnodup := hg.wellFormed.nodup_order
  refine ⟨?_, not_mem_takeWhile_of_mem_take hnodup hg.stands hm⟩
  rintro rfl
  exact (not_mem_take_drop hnodup hg.stands).1 hm

/-- Substitution in `n` does not touch what stands before it. -/
theorem expandEarlier (hg : Visiting limit place n g) {h : Grammar}
    (hexpand : g.expandEarlier limit n = some h) : Visiting limit place n h := by
  have hwell := hg.wellFormed.expandEarlier hexpand
  have horder := order_expandEarlier hexpand
  refine ⟨hwell, by rw [horder]; exact hg.stands, ?_⟩
  intro m hm
  rw [horder] at hm
  obtain ⟨hne, hbefore⟩ := hg.ne_and_not_mem_takeWhile hm
  rcases expandEarlier_cases hexpand with rfl | ⟨_, _, _, _, rfl⟩
  · exact hg.normal m hm
  · exact (hg.normal m hm).setBodies hg.wellFormed.nodup_order hne hbefore

/-- Splitting `n` does not touch what stands before it. -/
theorem splitOff (hg : Visiting limit place n g) {fresh : NonTerminal}
    {kept moved : OrderedSet Body} (hfresh : fresh ∉ g.order)
    (hwell : (g.splitOff n fresh kept moved).WellFormed) :
    Visiting limit place n (g.splitOff n fresh kept moved) := by
  have hnodup := hg.wellFormed.nodup_order
  have hlength : (g.order.take place).length = place :=
    List.length_take_of_le (Nat.le_of_lt (List.getElem?_eq_some_iff.1 hg.stands).1)
  refine ⟨hwell, (place_splitOff hnodup hg.stands).1, ?_⟩
  intro m hm
  rw [order_splitOff_of_getElem? hnodup hg.stands, List.take_left' hlength] at hm
  obtain ⟨hne, hbefore⟩ := hg.ne_and_not_mem_takeWhile hm
  exact (hg.normal m hm).splitOff hnodup hfresh hne hbefore

theorem removeLeftRecursion (hg : Visiting limit place n g) {h : Grammar}
    (hremove : g.removeLeftRecursion limit n = some h) :
    Visiting limit place n h ∧ h.CalmAt limit n := by
  refine ⟨?_, calmAt_removeLeftRecursion hg.wellFormed hg.mem_order hremove⟩
  obtain ⟨expanded, hexpand, rfl⟩ := Option.map_eq_some_iff.1 hremove
  have hexpanded := hg.expandEarlier hexpand
  by_cases hrecursive : expanded.isLeftRecursive n = true
  · rw [if_pos hrecursive]
    obtain ⟨bodies, hbodies⟩ := exists_bodies_of_isLeftRecursive hrecursive
    have hwell := hexpanded.wellFormed.splitRecursion hrecursive
    rw [splitRecursion_eq hbodies] at hwell ⊢
    exact hexpanded.splitOff (hexpanded.wellFormed.freshFor_not_mem_order n) hwell
  · rw [if_neg hrecursive]
    exact hexpanded

theorem factorOnce (hg : Visiting limit place n g) (hn : g.CalmAt limit n)
    {bodies : OrderedSet Body} {shared rest : Body} (hbodies : g.bodies? n = some bodies)
    (hrest : shared ++ rest ∈ bodies) :
    Visiting limit place n (g.factorOnce n bodies shared) ∧
      (g.factorOnce n bodies shared).CalmAt limit n :=
  ⟨hg.splitOff (hg.wellFormed.freshFor_not_mem_order n) (hg.wellFormed.factorOnce hbodies hrest),
    hn.factorOnce hg.wellFormed hbodies⟩

/-- A visit that is finished leaves `n` in normal form. -/
theorem visit (hg : Visiting limit place n g) {visited : Grammar}
    (hvisit : g.visit limit n = ⟨visited, none⟩) :
    Visiting limit place n visited ∧ visited.NormalAt limit n := by
  obtain ⟨eliminated, hremove, hfactored⟩ := exists_of_visit hvisit
  have hcalm := factor_prefix_induction (P := fun k => Visiting limit place n k ∧ k.CalmAt limit n)
    (fun _ _ _ _ hk hbodies hrest => hk.1.factorOnce hk.2 hbodies hrest) limit
    (hg.removeLeftRecursion hremove)
  have hfinished : ∀ {bodies}, (eliminated.factor limit n).grammar.bodies? n = some bodies →
      Body.longestSharedPrefix bodies.toList = [] :=
    longestSharedPrefix_factor (by rw [hfactored])
  rw [hfactored] at hcalm hfinished
  obtain ⟨hvisited, bodies, hbodies, hidle⟩ := hcalm
  exact ⟨hvisited, bodies, hbodies, hidle, hfinished hbodies⟩

end Visiting

/-! ### What a visit adds -/

/-- A body that begins with `n` is not substituted for the sake of `n`. -/
theorem substitutions_of_beginsWith {p : Body} (h : p.beginsWith n = true) :
    g.substitutions n p = [] := by
  obtain ⟨rest, rfl⟩ := Body.beginsWith_iff.1 h
  have hnone : (g.earlierRules n).find? (·.head = n) = none := by
    apply List.find?_eq_none.2
    intro rule hrule
    simpa using List.mem_takeWhile_imp hrule
  simp [substitutions, Body.leading?, Symbol.nonTerminal?, hnone]

/-- If substitution brings `n` to the front somewhere, some body that remains begins with `n`. -/
theorem exists_beginsWith_of_exposes {roots : List Body} {forest : Forest}
    (h : Forest.Grown (g.substitutions n) roots forest) (hexposes : forest.exposes n = true) :
    ∃ p ∈ forest.prune n, p.beginsWith n = true := by
  induction h with
  | nil => cases hexposes
  | @cons root rest children siblings below _ ihBelow ihBeside =>
      simp only [Forest.exposes, Bool.or_eq_true] at hexposes
      rcases hexposes with (hroot | hchildren) | hsiblings
      · rw [substitutions_of_beginsWith hroot] at below
        cases below
        exact ⟨root, by simp [Forest.prune, Forest.exposes], hroot⟩
      · obtain ⟨p, hp, hbegins⟩ := ihBelow hchildren
        exact ⟨p, by simp [Forest.prune, hchildren, hp], hbegins⟩
      · obtain ⟨p, hp, hbegins⟩ := ihBeside hsiblings
        exact ⟨p, List.mem_append_right _ hp, hbegins⟩

/-- Substitution that leaves no direct recursion behind was idle. -/
theorem expandEarlier_eq_self (hnodup : g.order.Nodup) {h : Grammar}
    (hexpand : g.expandEarlier limit n = some h) (hdirect : h.isLeftRecursive n = false) :
    h = g := by
  rcases expandEarlier_cases hexpand with heq | ⟨bodies, forest, hbodies, hgrown, heq⟩
  · exact heq
  · have hbodies' : h.bodies? n = some (OrderedSet.ofList (forest.prune n)) := by
      rw [heq]
      exact bodies?_setBodies_self hnodup (mem_order_of_bodies? hbodies)
    have hidle : forest.exposes n = false := by
      by_contra hexposed
      obtain ⟨p, hp, hbegins⟩ := exists_beginsWith_of_exposes hgrown (by simpa using hexposed)
      have hnot :=
        (isLeftRecursive_eq_false_iff hbodies').1 hdirect p (OrderedSet.mem_ofList.2 hp)
      rw [hnot] at hbegins
      cases hbegins
    rw [heq, Forest.prune_of_exposes_eq_false hgrown hidle, OrderedSet.ofList_toList,
      setBodies_self hnodup hbodies]

/-- Unless it changes nothing, freeing a nonterminal from left recursion creates a nonterminal. -/
theorem eq_or_length_lt_of_removeLeftRecursion (hg : g.WellFormed) {eliminated : Grammar}
    (hremove : g.removeLeftRecursion limit n = some eliminated) :
    eliminated.WellFormed ∧ (eliminated = g ∨ g.order.length < eliminated.order.length) := by
  obtain ⟨expanded, hexpand, rfl⟩ := Option.map_eq_some_iff.1 hremove
  have hexpanded : expanded.WellFormed := hg.expandEarlier hexpand
  by_cases hrecursive : expanded.isLeftRecursive n = true
  · rw [if_pos hrecursive]
    obtain ⟨bodies, hbodies⟩ := exists_bodies_of_isLeftRecursive hrecursive
    refine ⟨hexpanded.splitRecursion hrecursive, Or.inr ?_⟩
    rw [splitRecursion_eq hbodies,
      length_order_splitOff hexpanded.nodup_order (mem_order_of_bodies? hbodies),
      order_expandEarlier hexpand]
    exact Nat.lt_succ_self _
  · rw [if_neg hrecursive]
    have hdirect : expanded.isLeftRecursive n = false := by simpa using hrecursive
    exact ⟨hexpanded, Or.inl (expandEarlier_eq_self hg.nodup_order hexpand hdirect)⟩

/-- Unless it changes nothing, a visit creates a nonterminal. -/
theorem eq_or_length_lt_of_visit (hg : g.WellFormed) {visited : Grammar}
    (hvisit : g.visit limit n = ⟨visited, none⟩) :
    visited = g ∨ g.order.length < visited.order.length := by
  obtain ⟨eliminated, hremove, hfactored⟩ := exists_of_visit hvisit
  have hround : ∀ (k : Grammar) (bodies : OrderedSet Body) (shared rest : Body),
      k.WellFormed ∧ (k = g ∨ g.order.length < k.order.length) → k.bodies? n = some bodies →
      shared ++ rest ∈ bodies → (k.factorOnce n bodies shared).WellFormed ∧
        (k.factorOnce n bodies shared = g ∨
          g.order.length < (k.factorOnce n bodies shared).order.length) := by
    intro k bodies shared rest hk hbodies hrest
    refine ⟨hk.1.factorOnce hbodies hrest, Or.inr ?_⟩
    rw [length_order_factorOnce hk.1.nodup_order hbodies]
    rcases hk.2 with rfl | hlt
    · exact Nat.lt_succ_self _
    · exact Nat.lt_succ_of_lt hlt
  have hlast := factor_prefix_induction hround limit
    (eq_or_length_lt_of_removeLeftRecursion hg hremove)
  rw [hfactored] at hlast
  exact hlast.2

/-! ### All visits -/

/-- Where normalization stands when it comes to a place: what stands before it is in normal form,
and unless there is more to visit, the grammar is within the limit. -/
structure NormalBefore (limit place : Nat) (g : Grammar) : Prop where
  wellFormed : g.WellFormed
  normal : ∀ m ∈ g.order.take place, g.NormalAt limit m
  within : place < g.order.length ∨ g.exceeds limit = false

theorem normalBefore_zero (hg : g.WellFormed) : NormalBefore limit 0 g := by
  refine ⟨hg, fun m hm => absurd hm List.not_mem_nil, ?_⟩
  rcases Nat.eq_zero_or_pos g.order.length with hzero | hpos
  · right
    have hrules : g.rules = [] := List.map_eq_nil_iff.1 (List.eq_nil_of_length_eq_zero hzero)
    simp [exceeds, size, hrules]
  · exact Or.inl hpos

theorem NormalBefore.visit {place : Nat} (hg : NormalBefore limit place g) {visited : Grammar}
    (hplace : g.order[place]? = some n) (hwithin : g.exceeds limit = false)
    (hvisit : g.visit limit n = ⟨visited, none⟩) : NormalBefore limit (place + 1) visited := by
  have hstart : Visiting limit place n g := ⟨hg.wellFormed, hplace, hg.normal⟩
  obtain ⟨hvisited, hn⟩ := hstart.visit hvisit
  refine ⟨hvisited.wellFormed, ?_, ?_⟩
  · intro m hm
    rw [List.take_add_one, hvisited.stands, List.mem_append] at hm
    rcases hm with hm | hm
    · exact hvisited.normal m hm
    · obtain rfl : m = n := List.mem_singleton.1 hm
      exact hn
  · rcases eq_or_length_lt_of_visit hg.wellFormed hvisit with rfl | hlt
    · exact Or.inr hwithin
    · have hplace' := (List.getElem?_eq_some_iff.1 hplace).1
      exact Or.inl (by omega)

/-- A normalization that is finished leaves every nonterminal in normal form and stays within the
limit. -/
theorem normalizeWithin_normal (hg : g.WellFormed)
    (hdone : (g.normalizeWithin limit).obstacle? = none) :
    (∀ m ∈ (g.normalizeWithin limit).grammar.order,
      (g.normalizeWithin limit).grammar.NormalAt limit m) ∧
        (g.normalizeWithin limit).grammar.exceeds limit = false := by
  obtain ⟨last, hlast, hlength⟩ := normalizeFrom_visit_induction
    (P := fun place k => NormalBefore limit place k)
    (fun place k n visited hk hplace hwithin hvisit => hk.visit hplace hwithin hvisit)
    (normalBefore_zero hg) hdone
  constructor
  · intro m hm
    apply hlast.normal
    rw [List.take_of_length_le hlength]
    exact hm
  · exact hlast.within.resolve_left (Nat.not_lt_of_le hlength)

/-- Normalization leaves a grammar alone that is within the limit and all in normal form. -/
theorem normalizeFrom_of_normal {place : Nat} (hnodup : g.order.Nodup)
    (hnormal : ∀ m ∈ g.order, g.NormalAt limit m) (hwithin : g.exceeds limit = false) :
    normalizeFrom limit place g = ⟨g, none⟩ := by
  have hvisit : ∀ {i : Nat} {n : NonTerminal}, g.order[i]? = some n →
      g.visit limit n = ⟨g, none⟩ := by
    intro i n hplace
    have hpos : 0 < limit := by
      have hlength := (List.getElem?_eq_some_iff.1 hplace).1
      rw [order, List.length_map] at hlength
      simp only [exceeds, Bool.or_eq_false_iff, decide_eq_false_iff_not] at hwithin
      omega
    exact (hnormal n (List.mem_of_getElem? hplace)).visit hnodup hpos
  fun_induction normalizeFrom limit place g with
  | case1 => rfl
  | case2 place g n _ hsize =>
      rw [hwithin] at hsize
      cases hsize
  | case3 place g n hplace _ visited obstacle hvisited =>
      rw [hvisit hplace] at hvisited
      cases hvisited
  | case4 place g n hplace _ visited hvisited ih =>
      rw [hvisit hplace] at hvisited
      cases hvisited
      exact ih hnodup hnormal hwithin hvisit

end Grammar

namespace Session

open Grammar

variable {s : Session} {limit : Nat} {n : NonTerminal}

/-- The shape of a grammar whose normalization was finished: every nonterminal, old or new, has an
alternative, none of its alternatives begins with itself, and different ones begin with different
symbols. -/
theorem shape_normalizeWithin (hs : s.Reachable)
    (hdone : (s.apply (.normalizeWithin limit)).2 = none)
    (hn : n ∈ (s.apply (.normalizeWithin limit)).1.grammar.order) :
    let g := (s.apply (.normalizeWithin limit)).1.grammar
    (∃ p, g.Produces n p) ∧ (∀ p, ¬ g.Produces n (.nonTerminal n :: p)) ∧
      ∀ σ p q, g.Produces n (σ :: p) → g.Produces n (σ :: q) → p = q := by
  intro g
  have hg : g.WellFormed := (hs.apply (.normalizeWithin limit)).wellFormed
  have hfinished : (s.grammar.normalizeWithin limit).obstacle? = none :=
    Option.map_eq_none_iff.1 hdone
  obtain ⟨bodies, hbodies, hcalm, hshared⟩ :=
    (normalizeWithin_normal hs.wellFormed hfinished).1 n hn
  have hproduces : ∀ {p}, g.Produces n p ↔ p ∈ bodies :=
    produces_iff_of_bodies? hg.nodup_order hbodies
  refine ⟨hg.exists_body n hn, ?_, ?_⟩
  · intro p hp
    have hfront := hcalm.beginsWith_eq_false _ (hproduces.1 hp)
    simp [Body.beginsWith] at hfront
  · intro σ p q hp hq
    exact Body.eq_of_longestSharedPrefix hshared (hproduces.1 hp) (hproduces.1 hq)

/-- The recursion of `A` runs through `S`, and both parts that it is split in have to be factored;
the nonterminal created last takes over remainders. -/
theorem shape_normalizeWithin_created :
    let s := withLines ["S->Aa", "S->b", "A->Ac", "A->Sd", "A->Se", "A->"]
    let g := (s.apply (.normalizeWithin 100)).1.grammar
    let n : NonTerminal := ⟨'A', 3, rfl⟩
    s.Reachable ∧ (s.apply (.normalizeWithin 100)).2 = none ∧ n ∈ g.order ∧
      (∃ p, g.Produces n p) ∧ (∀ p, ¬ g.Produces n (.nonTerminal n :: p)) ∧
        ∀ σ p q, g.Produces n (σ :: p) → g.Produces n (σ :: q) → p = q := by
  intro s g n
  have hs : s.Reachable := reachable_withLines _
  have hdone : (s.apply (.normalizeWithin 100)).2 = none := by
    unfold s
    cbv
  have horder : g.order = [⟨'S', 0, rfl⟩, ⟨'A', 0, rfl⟩, ⟨'A', 2, rfl⟩, ⟨'A', 1, rfl⟩, n] := by
    unfold g n s
    cbv
  have hn : n ∈ g.order := by simp [horder]
  exact ⟨hs, hdone, hn, shape_normalizeWithin hs hdone hn⟩

/-- Normalizing once more, within the same limit, succeeds again and changes nothing at all. -/
theorem normalizeWithin_idempotent (hs : s.Reachable)
    (hdone : (s.apply (.normalizeWithin limit)).2 = none) :
    (s.apply (.normalizeWithin limit)).1.apply (.normalizeWithin limit) =
      ((s.apply (.normalizeWithin limit)).1, none) := by
  have hfinished : (s.grammar.normalizeWithin limit).obstacle? = none :=
    Option.map_eq_none_iff.1 hdone
  have hg : (s.grammar.normalizeWithin limit).grammar.WellFormed :=
    (hs.apply (.normalizeWithin limit)).wellFormed
  obtain ⟨hnormal, hwithin⟩ := normalizeWithin_normal hs.wellFormed hfinished
  have hagain : (s.grammar.normalizeWithin limit).grammar.normalizeWithin limit =
      ⟨(s.grammar.normalizeWithin limit).grammar, none⟩ :=
    normalizeFrom_of_normal hg.nodup_order hnormal hwithin
  simp [Session.apply, adoptNormalized, hagain]

/-- The first normalization creates three nonterminals, the second one none. -/
theorem normalizeWithin_idempotent_created :
    let s := withLines ["S->Aa", "S->b", "A->Ac", "A->Sd", "A->Se", "A->"]
    let t := (s.apply (.normalizeWithin 100)).1
    s.Reachable ∧ (s.apply (.normalizeWithin 100)).2 = none ∧
      s.grammar.order.length = 2 ∧ t.grammar.order.length = 5 ∧
      t.apply (.normalizeWithin 100) = (t, none) := by
  intro s t
  have hs : s.Reachable := reachable_withLines _
  have hdone : (s.apply (.normalizeWithin 100)).2 = none := by
    unfold s
    cbv
  have hbefore : s.grammar.order.length = 2 := by decide +kernel
  have hafter : t.grammar.order.length = 5 := by
    unfold t s
    cbv
  exact ⟨hs, hdone, hbefore, hafter, normalizeWithin_idempotent hs hdone⟩

end Session

end PredictiveParsing
