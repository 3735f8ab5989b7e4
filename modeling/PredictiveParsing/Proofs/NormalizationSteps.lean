/-
Module: PredictiveParsing.Proofs.NormalizationSteps
Layer: Proofs
Purpose: Normalization as a sequence of small changes of the grammar. There are three of them:
  substituting earlier nonterminals in one nonterminal, moving its direct left recursion to a new
  one, and factoring one prefix out of its alternatives. Whatever normalization leaves behind,
  finished or not, is reached by these changes, so a property that each of them keeps is kept by
  normalization.
Imports: PredictiveParsing.Normalization.Basic, PredictiveParsing.Proofs.Productions,
  PredictiveParsing.Proofs.SubstitutionForests
Main exports: Grammar.NormalizationStep, Grammar.normalizationSteps_normalizeWithin,
  Grammar.factor_succ_of_shared, Grammar.factor_succ_of_nil, Grammar.factor_induction,
  Grammar.factor_prefix_induction, Grammar.exists_of_visit, Grammar.normalizeFrom_visit_induction,
  Grammar.normalizeFrom_induction, Grammar.expandEarlier_cases, Grammar.produces_factorOnce
Open obligations: none
-/
import PredictiveParsing.Normalization.Basic
import PredictiveParsing.Proofs.Productions
import PredictiveParsing.Proofs.SubstitutionForests

namespace PredictiveParsing

open Relation

namespace Body

theorem beginsWith_iff {p : Body} {n : NonTerminal} :
    p.beginsWith n = true ↔ ∃ rest, p = .nonTerminal n :: rest := by
  cases p <;> simp [beginsWith]

theorem firstLongest_eq_nil_or_mem (bodies : List Body) :
    firstLongest bodies = [] ∨ firstLongest bodies ∈ bodies := by
  induction bodies with
  | nil => exact Or.inl rfl
  | cons p rest ih =>
      by_cases h : p.length < (firstLongest rest).length
      · simp only [firstLongest, h, if_true]
        rcases ih with hnil | hmem
        · exact Or.inl hnil
        · exact Or.inr (List.mem_cons_of_mem _ hmem)
      · simp only [firstLongest, h, if_false]
        exact Or.inr List.mem_cons_self

theorem commonPrefix_prefix_right (p q : Body) : commonPrefix p q <+: q := by
  rw [commonPrefix_comm]
  exact commonPrefix_prefix_left q p

theorem isSome_dropPrefix?_iff {p q : Body} :
    (p.dropPrefix? q).isSome = true ↔ ∃ rest, p = q ++ rest := by
  rw [Option.isSome_iff_exists]
  exact exists_congr fun rest => dropPrefix?_eq_some_iff

/-- A shared prefix that is not empty is a prefix of two bodies at different places. -/
theorem exists_pair_of_longestSharedPrefix {bodies : List Body}
    (h : longestSharedPrefix bodies ≠ []) :
    ∃ p q, [p, q].Sublist bodies ∧ longestSharedPrefix bodies <+: p ∧
      longestSharedPrefix bodies <+: q := by
  induction bodies with
  | nil => exact absurd rfl h
  | cons p others ih =>
      by_cases hlt : (firstLongest (others.map (commonPrefix p))).length <
          (longestSharedPrefix others).length
      · simp only [longestSharedPrefix, hlt, if_true] at h ⊢
        obtain ⟨q, q', hpair, hq, hq'⟩ := ih h
        exact ⟨q, q', hpair.cons p, hq, hq'⟩
      · simp only [longestSharedPrefix, hlt, if_false] at h ⊢
        rcases firstLongest_eq_nil_or_mem (others.map (commonPrefix p)) with hnil | hmem
        · exact absurd hnil h
        · obtain ⟨q, hmemq, hq⟩ := List.mem_map.1 hmem
          rw [← hq]
          exact ⟨p, q, (List.singleton_sublist.2 hmemq).cons_cons p, commonPrefix_prefix_left p q,
            commonPrefix_prefix_right p q⟩

theorem exists_append_mem_of_longestSharedPrefix {bodies : List Body}
    (h : longestSharedPrefix bodies ≠ []) :
    ∃ rest, longestSharedPrefix bodies ++ rest ∈ bodies := by
  obtain ⟨p, q, hpair, ⟨rest, hrest⟩, _⟩ := exists_pair_of_longestSharedPrefix h
  exact ⟨rest, hrest ▸ hpair.subset List.mem_cons_self⟩

/-- Among bodies without repetitions, a shared prefix that is not empty leaves two different
remainders. -/
theorem exists_ne_of_longestSharedPrefix {bodies : List Body} (hnodup : bodies.Nodup)
    (h : longestSharedPrefix bodies ≠ []) :
    ∃ rest rest', rest ≠ rest' ∧ longestSharedPrefix bodies ++ rest ∈ bodies ∧
      longestSharedPrefix bodies ++ rest' ∈ bodies := by
  obtain ⟨p, q, hpair, ⟨rest, hrest⟩, ⟨rest', hrest'⟩⟩ := exists_pair_of_longestSharedPrefix h
  have hne : p ≠ q := by simpa using hpair.nodup hnodup
  refine ⟨rest, rest', ?_, hrest ▸ hpair.subset List.mem_cons_self,
    hrest' ▸ hpair.subset (List.mem_cons_of_mem _ List.mem_cons_self)⟩
  rintro rfl
  exact hne (hrest.symm.trans hrest')

end Body

namespace Grammar

/-- One change made by normalization. -/
inductive NormalizationStep : Grammar → Grammar → Prop where
  | expand {g h : Grammar} {limit : Nat} {n : NonTerminal}
      (hexpand : g.expandEarlier limit n = some h) : NormalizationStep g h
  | split {g : Grammar} {n : NonTerminal} (hrecursive : g.isLeftRecursive n = true) :
      NormalizationStep g (g.splitRecursion n)
  | factor {g : Grammar} {n : NonTerminal} {bodies : OrderedSet Body}
      (hbodies : g.bodies? n = some bodies)
      (hshared : Body.longestSharedPrefix bodies.toList ≠ []) :
      NormalizationStep g (g.factorOnce n bodies (Body.longestSharedPrefix bodies.toList))

/-- Any number of changes made by normalization. -/
def NormalizationSteps : Grammar → Grammar → Prop := ReflTransGen NormalizationStep

theorem normalizationSteps_removeLeftRecursion {g h : Grammar} {limit : Nat} {n : NonTerminal}
    (hremove : g.removeLeftRecursion limit n = some h) : NormalizationSteps g h := by
  obtain ⟨expanded, hexpand, rfl⟩ := Option.map_eq_some_iff.1 hremove
  have hfirst : NormalizationSteps g expanded := ReflTransGen.single (.expand hexpand)
  by_cases hrecursive : expanded.isLeftRecursive n = true
  · rw [if_pos hrecursive]
    exact ReflTransGen.tail hfirst (.split hrecursive)
  · rw [if_neg hrecursive]
    exact hfirst

theorem normalizationSteps_factor (rounds : Nat) (n : NonTerminal) (g : Grammar) :
    NormalizationSteps g (factor rounds n g).grammar := by
  fun_induction factor rounds n g with
  | case1 => exact ReflTransGen.refl
  | case2 => exact ReflTransGen.refl
  | case3 => exact ReflTransGen.refl
  | case4 rounds n g bodies hbodies hshared ih =>
      exact ReflTransGen.head (.factor hbodies hshared) ih

theorem normalizationSteps_visit (limit : Nat) (n : NonTerminal) (g : Grammar) :
    NormalizationSteps g (g.visit limit n).grammar := by
  unfold visit
  cases hremove : g.removeLeftRecursion limit n with
  | none => exact ReflTransGen.refl
  | some eliminated =>
      exact ReflTransGen.trans (normalizationSteps_removeLeftRecursion hremove)
        (normalizationSteps_factor limit n eliminated)

theorem normalizationSteps_normalizeFrom (limit place : Nat) (g : Grammar) :
    NormalizationSteps g (normalizeFrom limit place g).grammar := by
  fun_induction normalizeFrom limit place g with
  | case1 => exact ReflTransGen.refl
  | case2 => exact ReflTransGen.refl
  | case3 place g n _ _ visited obstacle hvisit =>
      have hsteps := normalizationSteps_visit limit n g
      rw [hvisit] at hsteps
      exact hsteps
  | case4 place g n _ _ visited hvisit ih =>
      have hsteps := normalizationSteps_visit limit n g
      rw [hvisit] at hsteps
      exact ReflTransGen.trans hsteps ih

/-- What normalization leaves behind is reached by its changes, also where it gives up. -/
theorem normalizationSteps_normalizeWithin (limit : Nat) (g : Grammar) :
    NormalizationSteps g (g.normalizeWithin limit).grammar :=
  normalizationSteps_normalizeFrom limit 0 g

/-- If two alternatives have a prefix in common, the first round factors it out. -/
theorem factor_succ_of_shared {g : Grammar} {n : NonTerminal} {bodies : OrderedSet Body}
    (hbodies : g.bodies? n = some bodies)
    (hshared : Body.longestSharedPrefix bodies.toList ≠ []) (rounds : Nat) :
    factor (rounds + 1) n g =
      factor rounds n (g.factorOnce n bodies (Body.longestSharedPrefix bodies.toList)) := by
  cases hprefix : Body.longestSharedPrefix bodies.toList with
  | nil => exact absurd hprefix hshared
  | cons s shared => simp only [factor, hbodies, hprefix]

/-- Otherwise the first round finds nothing to do. -/
theorem factor_succ_of_nil {g : Grammar} {n : NonTerminal} {bodies : OrderedSet Body}
    (hbodies : g.bodies? n = some bodies)
    (hshared : Body.longestSharedPrefix bodies.toList = []) (rounds : Nat) :
    factor (rounds + 1) n g = ⟨g, none⟩ := by
  simp only [factor, hbodies, hshared]

/-! ### Invariants of a normalization that is finished -/

/-- What each round of factoring a nonterminal keeps, factoring keeps. -/
theorem factor_induction {P : Grammar → Prop} {n : NonTerminal}
    (hstep : ∀ g bodies, P g → g.bodies? n = some bodies →
      Body.longestSharedPrefix bodies.toList ≠ [] →
      P (g.factorOnce n bodies (Body.longestSharedPrefix bodies.toList)))
    (rounds : Nat) {g : Grammar} (hg : P g) : P (factor rounds n g).grammar := by
  fun_induction factor rounds n g with
  | case1 => exact hg
  | case2 => exact hg
  | case3 => exact hg
  | case4 rounds n g bodies hbodies hshared ih =>
      exact ih hstep (hstep g bodies hg hbodies hshared)

/-- What factoring any prefix of an alternative out of a nonterminal keeps, factoring keeps. -/
theorem factor_prefix_induction {P : Grammar → Prop} {n : NonTerminal}
    (hstep : ∀ g bodies shared rest, P g → g.bodies? n = some bodies → shared ++ rest ∈ bodies →
      P (g.factorOnce n bodies shared))
    (rounds : Nat) {g : Grammar} (hg : P g) : P (factor rounds n g).grammar := by
  refine factor_induction ?_ rounds hg
  intro g bodies hg hbodies hshared
  obtain ⟨rest, hrest⟩ := Body.exists_append_mem_of_longestSharedPrefix hshared
  exact hstep g bodies _ rest hg hbodies hrest

/-- A visit that is finished has removed the left recursion and has then finished factoring. -/
theorem exists_of_visit {limit : Nat} {n : NonTerminal} {g visited : Grammar}
    (h : g.visit limit n = ⟨visited, none⟩) :
    ∃ eliminated, g.removeLeftRecursion limit n = some eliminated ∧
      eliminated.factor limit n = ⟨visited, none⟩ := by
  unfold visit at h
  cases hremove : g.removeLeftRecursion limit n with
  | none =>
      rw [hremove] at h
      cases h
  | some eliminated =>
      rw [hremove] at h
      exact ⟨eliminated, rfl, h⟩

/-- What the visit of each place, with a grammar within the limit, passes on to the next one holds,
where normalization is finished, at a place behind all nonterminals. -/
theorem normalizeFrom_visit_induction {P : Nat → Grammar → Prop} {limit : Nat}
    (hvisit : ∀ place g n visited, P place g → g.order[place]? = some n →
      g.exceeds limit = false → g.visit limit n = ⟨visited, none⟩ → P (place + 1) visited)
    {place : Nat} {g : Grammar} (hg : P place g)
    (hdone : (normalizeFrom limit place g).obstacle? = none) :
    ∃ last, P last (normalizeFrom limit place g).grammar ∧
      (normalizeFrom limit place g).grammar.order.length ≤ last := by
  fun_induction normalizeFrom limit place g with
  | case1 place g hplace => exact ⟨place, hg, List.getElem?_eq_none_iff.1 hplace⟩
  | case2 => cases hdone
  | case3 => cases hdone
  | case4 place g n hplace hsize visited hvisited ih =>
      have hwithin : g.exceeds limit = false := by simpa using hsize
      exact ih (hvisit place g n visited hg hplace hwithin hvisited) hdone

/-- As before, for what follows from the removal of left recursion alone. -/
theorem normalizeFrom_induction {P : Nat → Grammar → Prop} {limit : Nat}
    (hvisit : ∀ place g n eliminated, P place g → g.order[place]? = some n →
      g.removeLeftRecursion limit n = some eliminated →
      P (place + 1) (eliminated.factor limit n).grammar)
    {place : Nat} {g : Grammar} (hg : P place g)
    (hdone : (normalizeFrom limit place g).obstacle? = none) :
    ∃ last, P last (normalizeFrom limit place g).grammar ∧
      (normalizeFrom limit place g).grammar.order.length ≤ last := by
  refine normalizeFrom_visit_induction ?_ hg hdone
  intro place g n visited hg hplace _ hvisited
  obtain ⟨eliminated, hremove, hfactored⟩ := exists_of_visit hvisited
  have hnext := hvisit place g n eliminated hg hplace hremove
  rw [hfactored] at hnext
  exact hnext

/-- Behind all nonterminals nothing is visited. -/
theorem normalizeFrom_of_length_le {limit place : Nat} {g : Grammar}
    (h : g.order.length ≤ place) : normalizeFrom limit place g = ⟨g, none⟩ := by
  rw [normalizeFrom]
  split
  · rfl
  · next n hplace =>
      rw [List.getElem?_eq_none h] at hplace
      cases hplace

/-! ### What a single change does -/

/-- Substitution puts what remains of the complete forest of all alternatives in their place. -/
theorem exists_grown_of_expandEarlier {g h : Grammar} {limit : Nat} {n : NonTerminal}
    {bodies : OrderedSet Body} (hbodies : g.bodies? n = some bodies)
    (hexpand : g.expandEarlier limit n = some h) :
    ∃ forest, Forest.Grown (g.substitutions n) bodies.toList forest ∧
      h = g.setBodies n (OrderedSet.ofList (forest.prune n)) := by
  rw [expandEarlier, hbodies] at hexpand
  obtain ⟨forest, hforest, rfl⟩ := Option.map_eq_some_iff.1 hexpand
  have hgrown := Forest.grown_of_grow? hforest
  exact ⟨forest, hgrown, by rw [hgrown.fold_eq_prune]⟩

/-- A nonterminal without a rule is left alone. -/
theorem expandEarlier_cases {g h : Grammar} {limit : Nat} {n : NonTerminal}
    (hexpand : g.expandEarlier limit n = some h) :
    h = g ∨ ∃ bodies forest, g.bodies? n = some bodies ∧
      Forest.Grown (g.substitutions n) bodies.toList forest ∧
      h = g.setBodies n (OrderedSet.ofList (forest.prune n)) := by
  cases hbodies : g.bodies? n with
  | none =>
      rw [expandEarlier, hbodies] at hexpand
      exact Or.inl (Option.some.inj hexpand).symm
  | some bodies =>
      obtain ⟨forest, hgrown, heq⟩ := exists_grown_of_expandEarlier hbodies hexpand
      exact Or.inr ⟨bodies, forest, rfl, hgrown, heq⟩

/-- A left recursive nonterminal has alternatives. -/
theorem exists_bodies_of_isLeftRecursive {g : Grammar} {n : NonTerminal}
    (h : g.isLeftRecursive n = true) : ∃ bodies, g.bodies? n = some bodies := by
  cases hbodies : g.bodies? n with
  | none => simp [isLeftRecursive, hbodies] at h
  | some bodies => exact ⟨bodies, rfl⟩

theorem isLeftRecursive_eq_false_iff {g : Grammar} {n : NonTerminal} {bodies : OrderedSet Body}
    (hbodies : g.bodies? n = some bodies) :
    g.isLeftRecursive n = false ↔ ∀ p ∈ bodies, p.beginsWith n = false := by
  rw [isLeftRecursive, hbodies, Option.any_some, List.any_eq_false]
  simp only [OrderedSet.mem_toList, Bool.not_eq_true]

/-- With distinct heads, a nonterminal is left recursive if some body of it begins with it. -/
theorem isLeftRecursive_iff {g : Grammar} (hnodup : g.order.Nodup) {n : NonTerminal} :
    g.isLeftRecursive n = true ↔ ∃ rest, g.Produces n (.nonTerminal n :: rest) := by
  cases hbodies : g.bodies? n with
  | none =>
      have hnone : ∀ rest, ¬ g.Produces n (.nonTerminal n :: rest) :=
        fun rest hp => bodies?_eq_none_iff.1 hbodies hp.mem_order
      simp [isLeftRecursive, hbodies, hnone]
  | some bodies =>
      rw [isLeftRecursive, hbodies, Option.any_some, List.any_eq_true]
      simp only [produces_iff_of_bodies? hnodup hbodies, OrderedSet.mem_toList, Body.beginsWith_iff]
      constructor
      · intro h
        obtain ⟨_, hp, rest, rfl⟩ := h
        exact ⟨rest, hp⟩
      · intro h
        obtain ⟨rest, hp⟩ := h
        exact ⟨_, hp, rest, rfl⟩

theorem order_expandEarlier {g h : Grammar} {limit : Nat} {n : NonTerminal}
    (hexpand : g.expandEarlier limit n = some h) : h.order = g.order := by
  rcases expandEarlier_cases hexpand with rfl | ⟨bodies, forest, _, _, rfl⟩
  · rfl
  · exact order_setBodies g n _

theorem splitRecursion_eq {g : Grammar} {n : NonTerminal} {bodies : OrderedSet Body}
    (h : g.bodies? n = some bodies) :
    g.splitRecursion n = g.splitOff n (g.freshFor n) (baseBodies n (g.freshFor n) bodies)
      (repeatBodies n (g.freshFor n) bodies) := by
  rw [splitRecursion, h]

theorem produces_splitRecursion {g : Grammar} {n : NonTerminal} {bodies : OrderedSet Body}
    (h : g.bodies? n = some bodies) {m : NonTerminal} {p : Body} :
    (g.splitRecursion n).Produces m p ↔
      (m ≠ n ∧ g.Produces m p) ∨ (m = n ∧ p ∈ baseBodies n (g.freshFor n) bodies) ∨
        (m = g.freshFor n ∧ p ∈ repeatBodies n (g.freshFor n) bodies) := by
  rw [splitRecursion_eq h, produces_splitOff]
  simp [mem_order_of_bodies? h]

theorem mem_order_splitRecursion {g : Grammar} {n : NonTerminal} {bodies : OrderedSet Body}
    (h : g.bodies? n = some bodies) {m : NonTerminal} :
    m ∈ (g.splitRecursion n).order ↔ m ∈ g.order ∨ m = g.freshFor n := by
  rw [splitRecursion_eq h, mem_order_splitOff]
  simp [mem_order_of_bodies? h]

theorem mem_order_factorOnce {g : Grammar} {n : NonTerminal} {bodies : OrderedSet Body}
    (h : g.bodies? n = some bodies) {shared : Body} {m : NonTerminal} :
    m ∈ (g.factorOnce n bodies shared).order ↔ m ∈ g.order ∨ m = g.freshFor n := by
  rw [factorOnce, mem_order_splitOff]
  simp [mem_order_of_bodies? h]

theorem undefined_splitRecursion {g : Grammar} {n : NonTerminal} {bodies : OrderedSet Body}
    (h : g.bodies? n = some bodies) : (g.splitRecursion n).undefined = g.undefined := by
  rw [splitRecursion_eq h]
  exact undefined_splitOff (mem_order_of_bodies? h) (g.freshFor_not_mem n)

theorem undefined_factorOnce {g : Grammar} {n : NonTerminal} {bodies : OrderedSet Body}
    (h : g.bodies? n = some bodies) (shared : Body) :
    (g.factorOnce n bodies shared).undefined = g.undefined :=
  undefined_splitOff (mem_order_of_bodies? h) (g.freshFor_not_mem n)

theorem produces_factorOnce {g : Grammar} {n : NonTerminal} {bodies : OrderedSet Body}
    (h : g.bodies? n = some bodies) {shared : Body} {m : NonTerminal} {p : Body} :
    (g.factorOnce n bodies shared).Produces m p ↔
      (m ≠ n ∧ g.Produces m p) ∨ (m = n ∧ p ∈ factoredBodies shared (g.freshFor n) bodies) ∨
        (m = g.freshFor n ∧ p ∈ remainders shared bodies) := by
  rw [factorOnce, produces_splitOff]
  simp [mem_order_of_bodies? h]

/-- The alternatives that are kept are old ones followed by the new nonterminal, unless all old
ones begin with the old nonterminal. -/
theorem mem_baseBodies {n fresh : NonTerminal} {bodies : OrderedSet Body} {p : Body} :
    p ∈ baseBodies n fresh bodies ↔
      (∃ q ∈ bodies, q.beginsWith n = false ∧ p = q.followedBy fresh) ∨
        ((∀ q ∈ bodies, q.beginsWith n = true) ∧ p = [.nonTerminal fresh]) := by
  have hmem : ∀ q, q ∈ bodies.toList.filter (!·.beginsWith n) ↔
      q ∈ bodies ∧ q.beginsWith n = false := by
    intro q
    simp
  unfold baseBodies
  cases hbases : bodies.toList.filter (!·.beginsWith n) with
  | nil =>
      have hall : ∀ q ∈ bodies, q.beginsWith n = true := by
        intro q hq
        by_contra hnot
        have hin := (hmem q).2 ⟨hq, by simpa using hnot⟩
        rw [hbases] at hin
        cases hin
      constructor
      · intro hp
        exact Or.inr ⟨hall, OrderedSet.mem_singleton.1 hp⟩
      · intro hp
        rcases hp with ⟨q, hq, hbase, _⟩ | ⟨_, rfl⟩
        · rw [hall q hq] at hbase
          cases hbase
        · exact OrderedSet.mem_singleton.2 rfl
  | cons base rest =>
      have hbase : base ∈ bodies ∧ base.beginsWith n = false :=
        (hmem base).1 (hbases ▸ List.mem_cons_self)
      show p ∈ OrderedSet.ofList ((base :: rest).map (·.followedBy fresh)) ↔ _
      rw [OrderedSet.mem_ofList, ← hbases, List.mem_map]
      constructor
      · intro hp
        obtain ⟨q, hq, rfl⟩ := hp
        exact Or.inl ⟨q, ((hmem q).1 hq).1, ((hmem q).1 hq).2, rfl⟩
      · intro hp
        rcases hp with ⟨q, hq, hnot, rfl⟩ | ⟨hall, _⟩
        · exact ⟨q, (hmem q).2 ⟨hq, hnot⟩, rfl⟩
        · have hbegins := hall base hbase.1
          rw [hbase.2] at hbegins
          cases hbegins

/-- If some old alternative does not begin with the old nonterminal, no other case is left. -/
theorem mem_baseBodies_of_exists {n fresh : NonTerminal} {bodies : OrderedSet Body}
    (hbase : ∃ q ∈ bodies, q.beginsWith n = false) {p : Body} :
    p ∈ baseBodies n fresh bodies ↔
      ∃ q ∈ bodies, q.beginsWith n = false ∧ p = q.followedBy fresh := by
  rw [mem_baseBodies]
  refine or_iff_left fun h => ?_
  obtain ⟨q, hq, hnot⟩ := hbase
  rw [h.1 q hq] at hnot
  cases hnot

theorem mem_repeatBodies {n fresh : NonTerminal} {bodies : OrderedSet Body} {p : Body} :
    p ∈ repeatBodies n fresh bodies ↔
      p = [] ∨ ∃ tail, tail ≠ [] ∧ .nonTerminal n :: tail ∈ bodies ∧
        p = Body.followedBy tail fresh := by
  simp only [repeatBodies, OrderedSet.mem_insert, OrderedSet.mem_ofList, List.mem_map,
    List.mem_filter, OrderedSet.mem_toList, decide_eq_true_eq]
  rw [or_comm]
  refine or_congr_right ⟨?_, ?_⟩
  · intro h
    obtain ⟨tail, ⟨⟨q, ⟨hq, hbegins⟩, rfl⟩, hne⟩, rfl⟩ := h
    obtain ⟨rest, rfl⟩ := Body.beginsWith_iff.1 hbegins
    exact ⟨rest, hne, hq, rfl⟩
  · intro h
    obtain ⟨tail, hne, hq, rfl⟩ := h
    exact ⟨tail, ⟨⟨_, ⟨hq, Body.beginsWith_iff.2 ⟨tail, rfl⟩⟩, rfl⟩, hne⟩, rfl⟩

/-- After factoring, the alternatives with the prefix are one, and the others are as before. -/
theorem mem_factoredBodies {shared : Body} {fresh : NonTerminal} {bodies : OrderedSet Body}
    {p : Body} :
    p ∈ factoredBodies shared fresh bodies ↔
      (p ∈ bodies ∧ ¬ ∃ rest, p = shared ++ rest) ∨
        (p = shared.followedBy fresh ∧ ∃ rest, shared ++ rest ∈ bodies) := by
  simp only [factoredBodies, OrderedSet.mem_ofList, List.mem_map, OrderedSet.mem_toList]
  constructor
  · intro h
    obtain ⟨q, hq, rfl⟩ := h
    by_cases hq' : ∃ rest, q = shared ++ rest
    · rw [if_pos (Body.isSome_dropPrefix?_iff.2 hq')]
      obtain ⟨rest, rfl⟩ := hq'
      exact Or.inr ⟨rfl, rest, hq⟩
    · rw [if_neg (mt Body.isSome_dropPrefix?_iff.1 hq')]
      exact Or.inl ⟨hq, hq'⟩
  · intro h
    rcases h with ⟨hp, hnot⟩ | ⟨rfl, rest, hq⟩
    · exact ⟨p, hp, if_neg (mt Body.isSome_dropPrefix?_iff.1 hnot)⟩
    · exact ⟨_, hq, if_pos (Body.isSome_dropPrefix?_iff.2 ⟨rest, rfl⟩)⟩

theorem mem_remainders {shared : Body} {bodies : OrderedSet Body} {p : Body} :
    p ∈ remainders shared bodies ↔ shared ++ p ∈ bodies := by
  simp only [remainders, OrderedSet.mem_ofList, List.mem_filterMap, OrderedSet.mem_toList,
    Body.dropPrefix?_eq_some_iff, exists_eq_right]

section FactorOnce

variable {g : Grammar} {n : NonTerminal} {bodies : OrderedSet Body} {shared rest p : Body}

/-- An alternative without the prefix is kept. -/
theorem produces_factorOnce_kept (hbodies : g.bodies? n = some bodies) (hp : p ∈ bodies)
    (hnot : ¬ ∃ rest, p = shared ++ rest) : (g.factorOnce n bodies shared).Produces n p :=
  (produces_factorOnce hbodies).2
    (Or.inr (Or.inl ⟨rfl, mem_factoredBodies.2 (Or.inl ⟨hp, hnot⟩)⟩))

/-- The alternatives with the prefix become one, and the new nonterminal has their remainders. -/
theorem produces_factorOnce_merged (hbodies : g.bodies? n = some bodies)
    (hrest : shared ++ rest ∈ bodies) :
    (g.factorOnce n bodies shared).Produces n (shared.followedBy (g.freshFor n)) ∧
      (g.factorOnce n bodies shared).Produces (g.freshFor n) rest :=
  ⟨(produces_factorOnce hbodies).2
      (Or.inr (Or.inl ⟨rfl, mem_factoredBodies.2 (Or.inr ⟨rfl, rest, hrest⟩)⟩)),
    (produces_factorOnce hbodies).2 (Or.inr (Or.inr ⟨rfl, mem_remainders.2 hrest⟩))⟩

end FactorOnce

end Grammar

end PredictiveParsing
