/-
Module: PredictiveParsing.Proofs.LeftRecursionFreedom
Layer: Proofs
Purpose: Normalization removes all left recursion, hidden and indirect, of a grammar without empty
  bodies and without nonterminals that derive themselves. Original nonterminals keep beginning with
  terminals and original nonterminals, so only the nonterminals that were created vanish. A visit
  leaves no loop of left corners among the nonterminals that are not waiting for their own visit;
  those created are never waiting, because splitting leads nothing to them and factoring only
  divides an old corner in two.
Imports: Mathlib, PredictiveParsing.Proofs.LanguagePreservation,
  PredictiveParsing.Proofs.LeftCorners
Main exports: Grammar.Evolved, Grammar.Evolved.expandEarlier, Grammar.Evolved.splitRecursion,
  Grammar.Evolved.factorOnce, Grammar.Cleared, Grammar.Cleared.removeLeftRecursion,
  Grammar.Cleared.factorOnce, Session.not_leftRecursive_normalizeWithin
Open obligations: none
-/
import Mathlib
import PredictiveParsing.Proofs.LanguagePreservation
import PredictiveParsing.Proofs.LeftCorners

namespace PredictiveParsing

open Relation

namespace Grammar

/-! ### How original nonterminals begin -/

/-- The body begins with a terminal or with an original nonterminal. If all that follows that one
can vanish, the original grammar already derived it alone from `n`. -/
def Opens (old g : Grammar) (n : NonTerminal) (p : Body) : Prop :=
  ∃ s rest, p = s :: rest ∧ ∀ m, s = .nonTerminal m →
    m ∈ old.nonTerminals ∧
      (g.Derives rest [] → TransGen old.Step [.nonTerminal n] [.nonTerminal m])

/-- What holds of every grammar that normalization makes of an original one without empty bodies. -/
structure Evolved (old g : Grammar) : Prop where
  wellFormed : g.WellFormed
  grounded : g.Grounded
  met : ∀ n ∈ old.nonTerminals, n ∈ g.nonTerminals
  root : ∀ n ∈ old.nonTerminals, ∀ m, g.descendsFrom n m = false
  opens : ∀ n ∈ old.nonTerminals, ∀ p, g.Produces n p → Opens old g n p

variable {old g h : Grammar} {n : NonTerminal}

/-- How a body begins does not depend on when it is looked at. -/
theorem Opens.transfer {p : Body} (hopens : Opens old g n p) (hp : Preserves g h)
    (hground : g.Grounded) (hmet : ∀ s ∈ p, g.Meets s) : Opens old h n p := by
  obtain ⟨s, rest, rfl, hs⟩ := hopens
  refine ⟨s, rest, rfl, fun m hm => ⟨(hs m hm).1, fun hrest => (hs m hm).2 ?_⟩⟩
  exact (hp.derives_nil_iff hground fun t ht => hmet t (List.mem_cons_of_mem _ ht)).1 hrest

namespace Evolved

theorem refl (hg : g.WellFormed) (hground : g.Grounded) (hlineage : g.lineage = [])
    (hempty : ∀ n, ¬ g.Produces n []) : Evolved g g where
  wellFormed := hg
  grounded := hground
  met := fun _ hn => hn
  root := by
    intro n _ m
    rw [descendsFrom, hlineage, isDescendant]
  opens := by
    intro n _ p hp
    cases p with
    | nil => exact absurd hp (hempty n)
    | cons s rest =>
        refine ⟨s, rest, rfl, ?_⟩
        rintro m rfl
        have hfirst : g.Step [.nonTerminal n] (.nonTerminal m :: rest) := by
          simpa using Step.expand [] [] hp
        refine ⟨hg.body_met n _ hp _ List.mem_cons_self, fun hrest => TransGen.head' hfirst ?_⟩
        exact hrest.append_left [.nonTerminal m]

/-- Original nonterminals do not vanish. -/
theorem not_derives_nil (hg : Evolved old g) (hn : n ∈ old.nonTerminals) :
    ¬ g.Derives [.nonTerminal n] [] := by
  refine not_derives_nil_of_opening (P := (· ∈ old.nonTerminals)) ?_ hn
  intro m p hm hp
  obtain ⟨s, rest, hbody, hs⟩ := hg.opens m hm p hp
  exact ⟨s, rest, hbody, fun k hk => (hs k hk).1⟩

/-- A body that opens as it should has no left corner but what it begins with. -/
theorem eq_nil_of_opens (hg : Evolved old g) {u v : Body} {m : NonTerminal}
    (hopens : Opens old g n (u ++ .nonTerminal m :: v)) (hu : g.Derives u []) : u = [] := by
  obtain ⟨s, rest, hbody, hs⟩ := hopens
  cases u with
  | nil => rfl
  | cons t u' =>
      obtain ⟨rfl, _⟩ := List.cons.inj hbody
      have hfront : g.Derives [t] [] := derives_nil_iff.1 hu t List.mem_cons_self
      cases t with
      | terminal c => exact absurd hfront (not_derives_terminal_nil c)
      | nonTerminal k => exact absurd hfront (hg.not_derives_nil (hs k rfl).1)

/-- The left corners of an original nonterminal are the original nonterminals that its bodies begin
with. -/
theorem exists_produces_of_leftCorner (hg : Evolved old g) (hn : n ∈ old.nonTerminals)
    {m : NonTerminal} (hcorner : g.LeftCorner n m) :
    m ∈ old.nonTerminals ∧ ∃ rest, g.Produces n (.nonTerminal m :: rest) := by
  obtain ⟨u, v, hp, hu⟩ := hcorner
  have hopens := hg.opens n hn _ hp
  cases hg.eq_nil_of_opens hopens hu
  obtain ⟨s, rest, hbody, hs⟩ := hopens
  obtain ⟨rfl, _⟩ := List.cons.inj hbody
  exact ⟨(hs m rfl).1, v, hp⟩

/-! ### Original nonterminals keep beginning so -/

/-- Substitution in front puts one original beginning in the place of another. -/
theorem opens_of_mem_substitutions (hg : Evolved old g) {p q : Body} (hopens : Opens old g n p)
    (hq : q ∈ g.substitutions n p) : Opens old g n q := by
  obtain ⟨b, tail, r, rfl, _, _, hr, rfl⟩ := (mem_substitutions hg.wellFormed.nodup_order).1 hq
  obtain ⟨_, _, hbody, hb⟩ := hopens
  obtain ⟨rfl, rfl⟩ := List.cons.inj hbody
  obtain ⟨hmem, htail⟩ := hb b rfl
  obtain ⟨s, rest, rfl, hs⟩ := hg.opens b hmem r hr
  refine ⟨s, rest ++ tail, rfl, fun m hm => ⟨(hs m hm).1, fun hvanish => ?_⟩⟩
  obtain ⟨hrest, htail'⟩ := derives_append_nil_iff.1 hvanish
  exact (htail htail').trans ((hs m hm).2 hrest)

theorem opens_of_mem_prune (hg : Evolved old g) {roots : List Body} {forest : Forest}
    (hgrown : Forest.Grown (g.substitutions n) roots forest)
    (hroots : ∀ root ∈ roots, Opens old g n root) : ∀ p ∈ forest.prune n, Opens old g n p := by
  induction hgrown with
  | nil => exact fun p hp => absurd hp List.not_mem_nil
  | @cons root rest children siblings _ _ ihBelow ihBeside =>
      obtain ⟨hroot, hrest⟩ := List.forall_mem_cons.1 hroots
      intro p hp
      rcases List.mem_append.1 hp with htree | hsiblings
      · by_cases hexposes : children.exposes n = true
        · rw [if_pos hexposes] at htree
          exact ihBelow (fun q hq => hg.opens_of_mem_substitutions hroot hq) p htree
        · rw [if_neg hexposes, List.mem_singleton] at htree
          rw [htree]
          exact hroot
      · exact ihBeside hrest p hsiblings

theorem expandEarlier (hg : Evolved old g) {limit : Nat}
    (hexpand : g.expandEarlier limit n = some h) : Evolved old h := by
  have hp : Preserves g h := preserves_expandEarlier hg.wellFormed hexpand
  have hwell : h.WellFormed := hg.wellFormed.expandEarlier hexpand
  rcases expandEarlier_cases hexpand with rfl | ⟨bodies, forest, hbodies, hgrown, rfl⟩
  · exact hg
  · have hproduces : ∀ {p}, g.Produces n p ↔ p ∈ bodies :=
      produces_iff_of_bodies? hg.wellFormed.nodup_order hbodies
    refine ⟨hwell, hp.grounded hg.grounded, hg.met, hg.root, ?_⟩
    intro m hm p hmp
    have hopens : Opens old g m p := by
      rcases produces_setBodies.1 hmp with ⟨_, hold⟩ | ⟨rfl, _, hnew⟩
      · exact hg.opens m hm p hold
      · exact hg.opens_of_mem_prune hgrown
          (fun root hroot => hg.opens m hm root (hproduces.2 hroot))
          p (OrderedSet.mem_ofList.1 hnew)
    -- Replacing alternatives meets no new symbols.
    exact hopens.transfer hp hg.grounded (hwell.body_met m p hmp)

/-- A nonterminal may be split if its new alternatives begin as they should. -/
theorem splitOff (hg : Evolved old g) {base fresh : NonTerminal} {kept moved : OrderedSet Body}
    (hfresh : fresh ∉ g.nonTerminals) (hp : Preserves g (g.splitOff base fresh kept moved))
    (hwell : (g.splitOff base fresh kept moved).WellFormed)
    (hkept : base ∈ old.nonTerminals → ∀ p ∈ kept,
      Opens old (g.splitOff base fresh kept moved) base p) :
    Evolved old (g.splitOff base fresh kept moved) := by
  have hne : ∀ {m}, m ∈ old.nonTerminals → m ≠ fresh := by
    intro m hm e
    exact hfresh (e ▸ hg.met m hm)
  refine ⟨hwell, hp.grounded hg.grounded, ?_, ?_, ?_⟩
  · exact fun m hm => OrderedSet.mem_insert.2 (Or.inl (hg.met m hm))
  · intro m hm ancestor
    have hnewest : isDescendant m ancestor ((fresh, base) :: g.lineage) =
        isDescendant m ancestor g.lineage := by
      rw [isDescendant, if_neg (hne hm).symm]
    exact hnewest.trans (hg.root m hm ancestor)
  · intro m hm p hmp
    rcases produces_splitOff.1 hmp with ⟨_, hold⟩ | ⟨_, ⟨rfl, hnew⟩ | ⟨rfl, _⟩⟩
    · exact (hg.opens m hm p hold).transfer hp hg.grounded (hg.wellFormed.body_met m p hold)
    · exact hkept hm p hnew
    · exact absurd rfl (hne hm)

theorem splitRecursion (hg : Evolved old g) (hrecursive : g.isLeftRecursive n = true) :
    Evolved old (g.splitRecursion n) := by
  have hp : Preserves g (g.splitRecursion n) := preserves_splitRecursion hg.wellFormed hrecursive
  have hwell : (g.splitRecursion n).WellFormed := hg.wellFormed.splitRecursion hrecursive
  obtain ⟨bodies, hbodies⟩ := exists_bodies_of_isLeftRecursive hrecursive
  have hproduces : ∀ {p}, g.Produces n p ↔ p ∈ bodies :=
    produces_iff_of_bodies? hg.wellFormed.nodup_order hbodies
  rw [splitRecursion_eq hbodies] at hp hwell ⊢
  apply hg.splitOff (g.freshFor_not_mem n) hp hwell
  intro hn p hkept
  have hbase := hg.grounded.exists_not_beginsWith hg.wellFormed hbodies
  obtain ⟨q, hq, _, rfl⟩ := (mem_baseBodies_of_exists hbase).1 hkept
  obtain ⟨s, rest, rfl, hs⟩ := (hg.opens n hn q (hproduces.2 hq)).transfer hp hg.grounded
    (hg.wellFormed.body_met n q (hproduces.2 hq))
  refine ⟨s, rest ++ [.nonTerminal (g.freshFor n)], rfl, fun m hm => ⟨(hs m hm).1, ?_⟩⟩
  exact fun hvanish => (hs m hm).2 (derives_append_nil_iff.1 hvanish).1

theorem factorOnce (hg : Evolved old g) {bodies : OrderedSet Body}
    (hbodies : g.bodies? n = some bodies) {shared rest : Body} (hshared : shared ≠ [])
    (hrest : shared ++ rest ∈ bodies) : Evolved old (g.factorOnce n bodies shared) := by
  have hp : Preserves g (g.factorOnce n bodies shared) :=
    preserves_factorOnce hg.wellFormed hbodies hrest
  have hproduces : ∀ {p}, g.Produces n p ↔ p ∈ bodies :=
    produces_iff_of_bodies? hg.wellFormed.nodup_order hbodies
  have hopens : ∀ {p}, n ∈ old.nonTerminals → p ∈ bodies →
      Opens old (g.factorOnce n bodies shared) n p := by
    intro p hn hp'
    exact (hg.opens n hn p (hproduces.2 hp')).transfer hp hg.grounded
      (hg.wellFormed.body_met n p (hproduces.2 hp'))
  apply hg.splitOff (g.freshFor_not_mem n) hp (hg.wellFormed.factorOnce hbodies hrest)
  intro hn p hkept
  rcases mem_factoredBodies.1 hkept with ⟨hold, _⟩ | ⟨rfl, _⟩
  · exact hopens hn hold
  · obtain ⟨s, front, rfl⟩ := List.exists_cons_of_ne_nil hshared
    refine ⟨s, front ++ [.nonTerminal (g.freshFor n)], rfl, fun m hm => ⟨?_, fun hvanish => ?_⟩⟩
    · obtain ⟨_, _, hbody, hs⟩ := hopens hn hrest
      obtain ⟨rfl, _⟩ := List.cons.inj hbody
      exact (hs m hm).1
    · -- If the new nonterminal vanishes, so does one of the remainders that it stands for.
      obtain ⟨hfront, hfresh⟩ := derives_append_nil_iff.1 hvanish
      obtain ⟨r, hr, hrvanish⟩ := exists_produces_of_derives_nil hfresh
      obtain ⟨_, _, hbody, hs⟩ :=
        hopens hn (append_mem_of_produces_freshFor hg.wellFormed hbodies hr)
      obtain ⟨rfl, rfl⟩ := List.cons.inj hbody
      exact (hs m hm).2 (derives_append_nil_iff.2 ⟨hfront, hrvanish⟩)

end Evolved

/-! ### What the changes do to left corners -/

/-- A left corner that an old body has after a change, it had before. -/
theorem Preserves.leftCorner_of_produces (hp : Preserves g h) (hg : g.WellFormed)
    (hground : g.Grounded) {a b : NonTerminal} {u v : Body}
    (hbody : g.Produces a (u ++ .nonTerminal b :: v)) (hu : h.Derives u []) :
    g.LeftCorner a b := by
  refine ⟨u, v, hbody, (hp.derives_nil_iff hground fun s hs => ?_).1 hu⟩
  exact hg.body_met a _ hbody s (List.mem_append_left _ hs)

/-- Of a nonterminal that got no new bodies, the left corners were left corners before. -/
theorem Preserves.leftCorner (hp : Preserves g h) (hg : g.WellFormed) (hground : g.Grounded)
    {a b : NonTerminal} (hsame : ∀ p, h.Produces a p → g.Produces a p)
    (hcorner : h.LeftCorner a b) : g.LeftCorner a b := by
  obtain ⟨u, v, hbody, hu⟩ := hcorner
  exact hp.leftCorner_of_produces hg hground (hsame _ hbody) hu

/-- The left corners after factoring are old ones, except at the new nonterminal. It is a left
corner of the factored nonterminal if the prefix can vanish, and then its own left corners were left
corners of the factored nonterminal. -/
theorem leftCorner_factorOnce (hg : g.WellFormed) (hground : g.Grounded)
    {bodies : OrderedSet Body} (hbodies : g.bodies? n = some bodies) {shared rest : Body}
    (hrest : shared ++ rest ∈ bodies) {a b : NonTerminal}
    (hcorner : (g.factorOnce n bodies shared).LeftCorner a b) :
    (a ≠ g.freshFor n ∧ b ≠ g.freshFor n ∧ g.LeftCorner a b) ∨
      (a = n ∧ b = g.freshFor n ∧ g.Derives shared []) ∨
        (a = g.freshFor n ∧ b ≠ g.freshFor n ∧ (g.Derives shared [] → g.LeftCorner n b)) := by
  have hp : Preserves g (g.factorOnce n bodies shared) := preserves_factorOnce hg hbodies hrest
  have hproduces : ∀ {p}, p ∈ bodies → g.Produces n p :=
    (produces_iff_of_bodies? hg.nodup_order hbodies).2
  have hold : ∀ {k m u v}, g.Produces k (u ++ .nonTerminal m :: v) →
      (g.factorOnce n bodies shared).Derives u [] →
      m ≠ g.freshFor n ∧ g.LeftCorner k m := by
    intro k m u v hbody hu
    refine ⟨?_, hp.leftCorner_of_produces hg hground hbody hu⟩
    rintro rfl
    exact hg.freshFor_not_mem_body n hbody (by simp)
  have hkept : ∀ {k}, k ∈ g.order → k ≠ g.freshFor n := by
    rintro k hk rfl
    exact hg.freshFor_not_mem_order n hk
  obtain ⟨u, v, hbody, hu⟩ := hcorner
  rcases (produces_factorOnce hbodies).1 hbody with ⟨_, hbody'⟩ | ⟨rfl, hbody'⟩ | ⟨rfl, hbody'⟩
  · exact Or.inl ⟨hkept hbody'.mem_order, hold hbody' hu⟩
  · have hne := hkept (mem_order_of_bodies? hbodies)
    rcases mem_factoredBodies.1 hbody' with ⟨hbody'', _⟩ | ⟨heq, _⟩
    · exact Or.inl ⟨hne, hold (hproduces hbody'') hu⟩
    · rcases split_append heq.symm with ⟨behind, rfl, _⟩ | ⟨behind, rfl, hlast⟩
      · -- The left corner stands in the prefix, which some old body begins with.
        have hfirst : g.Produces a (u ++ .nonTerminal b :: (behind ++ rest)) := by
          simpa using hproduces hrest
        exact Or.inl ⟨hne, hold hfirst hu⟩
      · obtain ⟨rfl, hsame, _⟩ := eq_of_singleton_eq_append hlast
        cases hsame
        rw [List.append_nil, hp.derives_nil_iff hground fun s hs =>
          hg.body_met a _ (hproduces hrest) s (List.mem_append_left _ hs)] at hu
        exact Or.inr (Or.inl ⟨rfl, rfl, hu⟩)
  · have hremainder := hproduces (mem_remainders.1 hbody')
    refine Or.inr (Or.inr ⟨rfl, ?_, fun hshared => ?_⟩)
    · rintro rfl
      exact hg.freshFor_not_mem_body n hremainder (by simp)
    · rw [hp.derives_nil_iff hground fun s hs => hg.body_met n _ hremainder s (by simp [hs])] at hu
      rw [← List.append_assoc] at hremainder
      exact ⟨shared ++ u, v, hremainder, derives_append_nil_iff.2 ⟨hshared, hu⟩⟩

/-- Factoring makes no loops among nonterminals that hold the factored one. -/
theorem loopFree_factorOnce (hg : g.WellFormed) (hground : g.Grounded)
    {bodies : OrderedSet Body} (hbodies : g.bodies? n = some bodies) {shared rest : Body}
    (hrest : shared ++ rest ∈ bodies) {V : NonTerminal → Prop} (hn : V n)
    (hloop : LoopFree (g.LeftCornerIn V)) :
    LoopFree ((g.factorOnce n bodies shared).LeftCornerIn V) := by
  have hcases : ∀ {a b}, (g.factorOnce n bodies shared).LeftCorner a b → _ :=
    fun hcorner => leftCorner_factorOnce hg hground hbodies hrest hcorner
  by_cases hshared : g.Derives shared []
  · -- The new nonterminal is taken for the factored one, whose left corners it has taken over.
    have hne : n ≠ g.freshFor n := (freshFor_ne hg hbodies).symm
    refine hloop.of_contract (y := g.freshFor n)
      (fun k => if k = g.freshFor n then n else k) (if_neg hne) (if_pos rfl) hne ?_
    intro a b hab
    obtain ⟨ha, hb, hcorner⟩ := hab
    rcases hcases hcorner with ⟨hane, hbne, hold⟩ | ⟨rfl, rfl, _⟩ | ⟨rfl, hbne, hold⟩
    · rw [if_neg hane, if_neg hbne]
      exact Or.inr ⟨ha, hb, hold⟩
    · exact Or.inl ⟨rfl, rfl⟩
    · rw [if_pos rfl, if_neg hbne]
      exact Or.inr ⟨hn, hb, hold hshared⟩
  · refine hloop.of_unreached (x := g.freshFor n) ?_ ?_
    · intro a hab
      rcases hcases hab.2.2 with ⟨_, hbne, _⟩ | ⟨_, _, hvanish⟩ | ⟨_, hbne, _⟩
      · exact hbne rfl
      · exact hshared hvanish
      · exact hbne rfl
    · intro a b hane hab
      obtain ⟨ha, hb, hcorner⟩ := hab
      rcases hcases hcorner with ⟨_, _, hold⟩ | ⟨_, _, hvanish⟩ | ⟨heq, _⟩
      · exact ⟨ha, hb, hold⟩
      · exact absurd hvanish hshared
      · exact absurd heq hane

namespace Evolved

/-- If no original nonterminal derives itself, nothing leads to a nonterminal that takes over the
recursion of an original one. -/
theorem not_leftCorner_freshFor (hg : Evolved old g)
    (hacyclic : ∀ m, ¬ TransGen old.Step [.nonTerminal m] [.nonTerminal m])
    (hn : n ∈ old.nonTerminals) (hrecursive : g.isLeftRecursive n = true) (a : NonTerminal) :
    ¬ (g.splitRecursion n).LeftCorner a (g.freshFor n) := by
  have hnew : ∀ {m}, m ∈ old.nonTerminals → m ≠ g.freshFor n := by
    rintro m hm rfl
    exact g.freshFor_not_mem n (hg.met _ hm)
  have hp : Preserves g (g.splitRecursion n) := preserves_splitRecursion hg.wellFormed hrecursive
  obtain ⟨bodies, hbodies⟩ := exists_bodies_of_isLeftRecursive hrecursive
  intro hcorner
  obtain ⟨u, v, hbody, hu⟩ := hcorner
  rcases (produces_splitRecursion hbodies).1 hbody with ⟨_, hold⟩ | ⟨rfl, _⟩ | ⟨rfl, hrepeat⟩
  · exact hg.wellFormed.freshFor_not_mem_body n hold (by simp)
  · have hcorner : (g.splitRecursion a).LeftCorner a (g.freshFor a) := ⟨u, v, hbody, hu⟩
    exact hnew ((hg.splitRecursion hrecursive).exists_produces_of_leftCorner hn hcorner).1 rfl
  · rcases mem_repeatBodies.1 hrepeat with hnil | ⟨tail, _, htail, heq⟩
    · simp at hnil
    · have hbody' := (produces_iff_of_bodies? hg.wellFormed.nodup_order hbodies).2 htail
      rcases split_append heq.symm with ⟨behind, rfl, _⟩ | ⟨behind, rfl, _⟩
      · exact hg.wellFormed.freshFor_not_mem_body n hbody' (by simp)
      · -- The rest of the recursive body would vanish, so the original nonterminal derives itself.
        have hvanish := (derives_append_nil_iff.1 hu).1
        rw [hp.derives_nil_iff hg.grounded fun s hs =>
          hg.wellFormed.body_met n _ hbody' s (List.mem_cons_of_mem _ hs)] at hvanish
        obtain ⟨_, _, hopen, hs⟩ := hg.opens n hn _ hbody'
        obtain ⟨rfl, rfl⟩ := List.cons.inj hopen
        exact hacyclic n ((hs n rfl).2 hvanish)

/-- Moving the recursion of an original nonterminal makes no loops among the others. -/
theorem loopFree_splitRecursion (hg : Evolved old g)
    (hacyclic : ∀ m, ¬ TransGen old.Step [.nonTerminal m] [.nonTerminal m])
    (hn : n ∈ old.nonTerminals) (hrecursive : g.isLeftRecursive n = true)
    {V : NonTerminal → Prop} (hV : ¬ V n) (hloop : LoopFree (g.LeftCornerIn V)) :
    LoopFree ((g.splitRecursion n).LeftCornerIn V) := by
  have hp : Preserves g (g.splitRecursion n) := preserves_splitRecursion hg.wellFormed hrecursive
  obtain ⟨bodies, hbodies⟩ := exists_bodies_of_isLeftRecursive hrecursive
  refine hloop.of_unreached
    (fun a hab => hg.not_leftCorner_freshFor hacyclic hn hrecursive a hab.2.2) ?_
  intro a b hane hab
  obtain ⟨ha, hb, hcorner⟩ := hab
  refine ⟨ha, hb, hp.leftCorner hg.wellFormed hg.grounded (fun p hbody => ?_) hcorner⟩
  rcases (produces_splitRecursion hbodies).1 hbody with ⟨_, hold⟩ | ⟨rfl, _⟩ | ⟨heq, _⟩
  · exact hold
  · exact absurd ha hV
  · exact absurd heq hane

/-- After its recursion was moved, an original nonterminal begins with what it began with before,
but no longer with itself. -/
theorem exists_produces_of_splitRecursion (hg : Evolved old g) (hn : n ∈ old.nonTerminals)
    (hrecursive : g.isLeftRecursive n = true) {b : NonTerminal} {v : Body}
    (hbody : (g.splitRecursion n).Produces n (.nonTerminal b :: v)) :
    b ≠ n ∧ ∃ tail, g.Produces n (.nonTerminal b :: tail) := by
  obtain ⟨bodies, hbodies⟩ := exists_bodies_of_isLeftRecursive hrecursive
  have hproduces : ∀ {p}, p ∈ bodies → g.Produces n p :=
    (produces_iff_of_bodies? hg.wellFormed.nodup_order hbodies).2
  rcases (produces_splitRecursion hbodies).1 hbody with ⟨hne, _⟩ | ⟨_, hkept⟩ | ⟨heq, _⟩
  · exact absurd rfl hne
  · have hbase := hg.grounded.exists_not_beginsWith hg.wellFormed hbodies
    obtain ⟨q, hq, hnot, heq⟩ := (mem_baseBodies_of_exists hbase).1 hkept
    obtain ⟨s, tail, rfl, _⟩ := hg.opens n hn q (hproduces hq)
    obtain ⟨rfl, _⟩ := List.cons.inj heq
    refine ⟨?_, tail, hproduces hq⟩
    rintro rfl
    simp [Body.beginsWith] at hnot
  · exact absurd heq.symm (freshFor_ne hg.wellFormed hbodies)

/-- Once the nonterminals before an original one have been substituted wherever this brings it to
the front, left corners do not lead back to it: whatever they lead to is at the front of a node of
the forest of substitutions. -/
theorem not_transGen_leftCornerIn (hg : Evolved old g) (hh : Evolved old h)
    (hn : n ∈ old.nonTerminals) {V : NonTerminal → Prop}
    (hV : ∀ b ∈ g.order, b ∈ old.nonTerminals → V b → b ≠ n → b ∈ g.order.takeWhile (· ≠ n))
    (hsame : ∀ b ∈ old.nonTerminals, b ≠ n → ∀ p, h.Produces b p → g.Produces b p)
    (hfront : ∀ b v, h.Produces n (.nonTerminal b :: v) → b ≠ n ∧ ∃ tail children,
      Forest.Grown (g.substitutions n) (g.substitutions n (.nonTerminal b :: tail)) children ∧
        children.exposes n = false) :
    ¬ TransGen (h.LeftCornerIn V) n n := by
  have hpath : ∀ {b}, ReflTransGen (h.LeftCornerIn V) b n → b ∈ old.nonTerminals → b ≠ n →
      ∀ tail children,
        Forest.Grown (g.substitutions n) (g.substitutions n (.nonTerminal b :: tail)) children →
        children.exposes n = true := by
    intro b hpath
    induction hpath using ReflTransGen.head_induction_on with
    | refl => exact fun _ hne => absurd rfl hne
    | @head b c hfirst _ ih =>
        intro hb hne tail children hgrown
        by_contra hnot
        obtain ⟨hVb, _, hcorner⟩ := hfirst
        obtain ⟨hc, v, hbody⟩ := hh.exists_produces_of_leftCorner hb hcorner
        have hold := hsame b hb hne _ hbody
        have hchild : .nonTerminal c :: v ++ tail ∈ g.substitutions n (.nonTerminal b :: tail) :=
          (mem_substitutions hg.wellFormed.nodup_order).2 ⟨b, tail, _, rfl,
            hV b hold.mem_order hb hVb hne, hg.root n hn b, hold, rfl⟩
        obtain ⟨hbegins, children', hgrown', hexposes'⟩ :=
          hgrown.exists_children_of_mem (by simpa using hnot) hchild
        have hcn : c ≠ n := by
          rintro rfl
          simp [Body.beginsWith] at hbegins
        have hexposed := ih hc hcn _ children' hgrown'
        rw [hexposes'] at hexposed
        cases hexposed
  intro hloop
  obtain ⟨b, hfirst, hrest⟩ := TransGen.head'_iff.1 hloop
  obtain ⟨hb, v, hbody⟩ := hh.exists_produces_of_leftCorner hn hfirst.2.2
  obtain ⟨hne, tail, children, hgrown, hexposes⟩ := hfront b v hbody
  have hexposed := hpath hrest hb hne tail children hgrown
  rw [hexposes] at hexposed
  cases hexposed

end Evolved

/-! ### Visiting the nonterminals -/

/-- An original nonterminal that is not visited before the given place. -/
def Waiting (old g : Grammar) (place : Nat) (n : NonTerminal) : Prop :=
  n ∈ old.nonTerminals ∧ n ∈ g.order.drop place

theorem waiting_iff {place : Nat} (hplace : g.order[place]? = some n) {m : NonTerminal} :
    Waiting old g place m ↔
      (m = n ∧ m ∈ old.nonTerminals) ∨ Waiting old g (place + 1) m := by
  unfold Waiting
  rw [List.drop_eq_getElem?_toList_append, hplace]
  simp only [Option.toList_some, List.singleton_append, List.mem_cons]
  tauto

/-- Where normalization stands when it comes to a place: there are no loops of left corners but
through original nonterminals that wait for their visit. -/
structure Cleared (old g : Grammar) (place : Nat) : Prop where
  evolved : Evolved old g
  loopFree : LoopFree (g.LeftCornerIn fun n => ¬ Waiting old g place n)

/-- Substituting earlier nonterminals in `n` leaves the others alone, and no alternative of `n` that
remains exposes `n` below it. -/
theorem produces_expandEarlier {limit : Nat} (hn : n ∈ g.order)
    (hexpand : g.expandEarlier limit n = some h) :
    (∀ m p, m ≠ n → h.Produces m p → g.Produces m p) ∧
      ∀ p, h.Produces n p → ∃ children,
        Forest.Grown (g.substitutions n) (g.substitutions n p) children ∧
          children.exposes n = false := by
  obtain ⟨bodies, hbodies⟩ := exists_bodies_of_mem_order hn
  obtain ⟨forest, hgrown, rfl⟩ := exists_grown_of_expandEarlier hbodies hexpand
  constructor
  · intro m p hne hp
    rcases produces_setBodies.1 hp with ⟨_, hold⟩ | ⟨heq, _⟩
    · exact hold
    · exact absurd heq hne
  · intro p hp
    rcases produces_setBodies.1 hp with ⟨hne, _⟩ | ⟨_, _, hnew⟩
    · exact absurd rfl hne
    · obtain ⟨children, hbelow, hhidden, _⟩ :=
        hgrown.exists_children_of_mem_prune (OrderedSet.mem_ofList.1 hnew)
      exact ⟨children, hbelow, hhidden⟩

namespace Cleared

variable {place : Nat}

/-- Where no nonterminal waits any more, there are no loops of left corners at all. -/
theorem loopFree_leftCorner (hc : Cleared old g place) (hlast : g.order.length ≤ place) :
    LoopFree g.LeftCorner := by
  have hnone : ∀ m, ¬ Waiting old g place m := by
    intro m hm
    have hmem := hm.2
    rw [List.drop_eq_nil_of_le hlast] at hmem
    cases hmem
  exact hc.loopFree.mono fun a b hab => ⟨hnone a, hnone b, hab⟩

/-- After the visit of an original nonterminal, it waits no more. -/
theorem of_original (hc : Cleared old g place) (hplace : g.order[place]? = some n)
    (hn : n ∈ old.nonTerminals) (hh : Evolved old h)
    (hbehind : ∀ m ∈ g.order.drop (place + 1), m ∈ h.order.drop (place + 1))
    (hloop : LoopFree (h.LeftCornerIn fun m => ¬ Waiting old g place m))
    (hsame : ∀ b ∈ old.nonTerminals, b ≠ n → ∀ p, h.Produces b p → g.Produces b p)
    (hfront : ∀ b v, h.Produces n (.nonTerminal b :: v) → b ≠ n ∧ ∃ tail children,
      Forest.Grown (g.substitutions n) (g.substitutions n (.nonTerminal b :: tail)) children ∧
        children.exposes n = false) :
    Cleared old h (place + 1) := by
  have hwaiting : ∀ m, m ≠ n → ¬ Waiting old h (place + 1) m → ¬ Waiting old g place m := by
    intro m hne hnot hm
    rcases (waiting_iff hplace).1 hm with ⟨heq, _⟩ | ⟨hold, hafter⟩
    · exact hne heq
    · exact hnot ⟨hold, hbehind m hafter⟩
  refine ⟨hh, hloop.of_not_through (x := n) ?_ ?_⟩
  · intro a b ha hb hab
    exact ⟨hwaiting a ha hab.1, hwaiting b hb hab.2.1, hab.2.2⟩
  · refine hc.evolved.not_transGen_leftCornerIn hh hn ?_ hsame hfront
    intro b hb hold hnot hne
    rw [takeWhile_order hc.evolved.wellFormed.nodup_order hplace]
    rw [order_eq_of_getElem? hplace, List.mem_append, List.mem_cons] at hb
    rcases hb with hbefore | heq | hafter
    · exact hbefore
    · exact absurd heq hne
    · exact absurd ⟨hold, hbehind b hafter⟩ hnot

theorem removeLeftRecursion_original (hc : Cleared old g place)
    (hacyclic : ∀ m, ¬ TransGen old.Step [.nonTerminal m] [.nonTerminal m])
    (hplace : g.order[place]? = some n) (hn : n ∈ old.nonTerminals) {limit : Nat}
    (hremove : g.removeLeftRecursion limit n = some h) :
    Cleared old h (place + 1) ∧ h.order[place]? = some n := by
  obtain ⟨expanded, hexpand, rfl⟩ := Option.map_eq_some_iff.1 hremove
  have hg : g.WellFormed := hc.evolved.wellFormed
  have hexpanded : Evolved old expanded := hc.evolved.expandEarlier hexpand
  have hnodup := hexpanded.wellFormed.nodup_order
  have horder : expanded.order = g.order := order_expandEarlier hexpand
  obtain ⟨hsame, hunexposed⟩ := produces_expandEarlier (List.mem_of_getElem? hplace) hexpand
  have hwaits : Waiting old g place n := (waiting_iff hplace).2 (Or.inl ⟨rfl, hn⟩)
  have hloop : LoopFree (expanded.LeftCornerIn fun m => ¬ Waiting old g place m) := by
    refine hc.loopFree.mono fun a b hab => ⟨hab.1, hab.2.1, ?_⟩
    refine (preserves_expandEarlier hg hexpand).leftCorner hg hc.evolved.grounded ?_ hab.2.2
    exact fun p => hsame a p fun e => hab.1 (e ▸ hwaits)
  by_cases hrecursive : expanded.isLeftRecursive n = true
  · rw [if_pos hrecursive]
    obtain ⟨bodies, hbodies⟩ := exists_bodies_of_isLeftRecursive hrecursive
    have hplaces : (expanded.splitRecursion n).order[place]? = some n ∧
        ∀ m ∈ g.order.drop (place + 1), m ∈ (expanded.splitRecursion n).order.drop (place + 1) := by
      rw [splitRecursion_eq hbodies, ← horder]
      exact place_splitOff hnodup (horder ▸ hplace)
    refine ⟨hc.of_original hplace hn (hexpanded.splitRecursion hrecursive) hplaces.2
      (hexpanded.loopFree_splitRecursion hacyclic hn hrecursive (not_not_intro hwaits) hloop)
      ?_ ?_, hplaces.1⟩
    · intro b hb hne p hp
      rcases (produces_splitRecursion hbodies).1 hp with ⟨_, hold⟩ | ⟨heq, _⟩ | ⟨rfl, _⟩
      · exact hsame b p hne hold
      · exact absurd heq hne
      · exact absurd (hexpanded.met _ hb) (expanded.freshFor_not_mem n)
    · intro b v hp
      obtain ⟨hne, tail, hbody⟩ := hexpanded.exists_produces_of_splitRecursion hn hrecursive hp
      exact ⟨hne, tail, hunexposed _ hbody⟩
  · rw [if_neg hrecursive]
    refine ⟨hc.of_original hplace hn hexpanded (by rw [horder]; exact fun _ hm => hm) hloop
      (fun b _ hne p => hsame b p hne) ?_, horder ▸ hplace⟩
    intro b v hp
    refine ⟨?_, v, hunexposed _ hp⟩
    rintro rfl
    exact hrecursive ((isLeftRecursive_iff hnodup).2 ⟨v, hp⟩)

/-- A nonterminal that was created is on no loop, so there is nothing to remove. -/
theorem removeLeftRecursion_created (hc : Cleared old g place)
    (hplace : g.order[place]? = some n) (hn : n ∉ old.nonTerminals) {limit : Nat}
    (hremove : g.removeLeftRecursion limit n = some h) :
    Cleared old h (place + 1) ∧ h.order[place]? = some n := by
  have hnodup := hc.evolved.wellFormed.nodup_order
  have hbefore : ∀ b ∈ g.order.takeWhile (· ≠ n), ¬ Waiting old g place b := by
    intro b hb hwaits
    rw [takeWhile_order hnodup hplace] at hb
    obtain ⟨hnotBefore, _, hdisjoint⟩ := not_mem_take_drop hnodup hplace
    rcases (waiting_iff hplace).1 hwaits with ⟨rfl, _⟩ | ⟨_, hafter⟩
    · exact hnotBefore hb
    · exact hdisjoint b hb hafter
  have hsame : h = g := removeLeftRecursion_eq_self hnodup (fun hwaits => hn hwaits.1) hbefore
    (hc.loopFree n) hremove
  subst hsame
  refine ⟨⟨hc.evolved, hc.loopFree.mono fun a b hab => ?_⟩, hplace⟩
  have hwaiting : ∀ m, ¬ Waiting old h (place + 1) m → ¬ Waiting old h place m := by
    intro m hnot hm
    rcases (waiting_iff hplace).1 hm with ⟨rfl, hold⟩ | hlater
    · exact hn hold
    · exact hnot hlater
  exact ⟨hwaiting a hab.1, hwaiting b hab.2.1, hab.2.2⟩

theorem removeLeftRecursion (hc : Cleared old g place)
    (hacyclic : ∀ m, ¬ TransGen old.Step [.nonTerminal m] [.nonTerminal m])
    (hplace : g.order[place]? = some n) {limit : Nat}
    (hremove : g.removeLeftRecursion limit n = some h) :
    Cleared old h (place + 1) ∧ h.order[place]? = some n := by
  by_cases hn : n ∈ old.nonTerminals
  · exact hc.removeLeftRecursion_original hacyclic hplace hn hremove
  · exact hc.removeLeftRecursion_created hplace hn hremove

/-- Factoring the nonterminal that was just freed from its recursion makes no loops. -/
theorem factorOnce (hc : Cleared old g (place + 1)) (hplace : g.order[place]? = some n)
    {bodies : OrderedSet Body} (hbodies : g.bodies? n = some bodies) {shared rest : Body}
    (hshared : shared ≠ []) (hrest : shared ++ rest ∈ bodies) :
    Cleared old (g.factorOnce n bodies shared) (place + 1) ∧
      (g.factorOnce n bodies shared).order[place]? = some n := by
  have hg : g.WellFormed := hc.evolved.wellFormed
  obtain ⟨hplace', hbehind⟩ : (g.factorOnce n bodies shared).order[place]? = some n ∧
      ∀ m ∈ g.order.drop (place + 1), m ∈ (g.factorOnce n bodies shared).order.drop (place + 1) :=
    place_splitOff hg.nodup_order hplace
  have hn : ¬ Waiting old g (place + 1) n :=
    fun hwaits => (not_mem_take_drop hg.nodup_order hplace).2.1 hwaits.2
  have hloop := loopFree_factorOnce hg hc.evolved.grounded hbodies hrest hn hc.loopFree
  have hwaiting : ∀ m, ¬ Waiting old (g.factorOnce n bodies shared) (place + 1) m →
      ¬ Waiting old g (place + 1) m :=
    fun m hnot hm => hnot ⟨hm.1, hbehind m hm.2⟩
  exact ⟨⟨hc.evolved.factorOnce hbodies hshared hrest, hloop.mono fun a b hab =>
    ⟨hwaiting a hab.1, hwaiting b hab.2.1, hab.2.2⟩⟩, hplace'⟩

/-- A visit clears one more place. -/
theorem visit (hc : Cleared old g place)
    (hacyclic : ∀ m, ¬ TransGen old.Step [.nonTerminal m] [.nonTerminal m])
    (hplace : g.order[place]? = some n) {limit : Nat}
    (hremove : g.removeLeftRecursion limit n = some h) :
    Cleared old (h.factor limit n).grammar (place + 1) := by
  have hfactored := factor_induction
    (P := fun k => Cleared old k (place + 1) ∧ k.order[place]? = some n) (n := n)
    (fun k bodies hk hbodies hshared => by
      obtain ⟨rest, hrest⟩ := Body.exists_append_mem_of_longestSharedPrefix hshared
      exact hk.1.factorOnce hk.2 hbodies hshared hrest)
    limit (hc.removeLeftRecursion hacyclic hplace hremove)
  exact hfactored.1

end Cleared

/-- Where normalization is finished, there are no loops of left corners. -/
theorem loopFree_leftCorner_normalizeWithin (hg : g.WellFormed) (hground : g.Grounded)
    (hlineage : g.lineage = []) (hempty : ∀ n, ¬ g.Produces n [])
    (hacyclic : ∀ n, ¬ TransGen g.Step [.nonTerminal n] [.nonTerminal n]) {limit : Nat}
    (hdone : (g.normalizeWithin limit).obstacle? = none) :
    LoopFree (g.normalizeWithin limit).grammar.LeftCorner := by
  have hstart : Cleared g g 0 := by
    refine ⟨Evolved.refl hg hground hlineage hempty, ?_⟩
    intro n hloop
    -- Only nonterminals with a rule have left corners, and all of these are still waiting.
    obtain ⟨_, hfirst, _⟩ := TransGen.head'_iff.1 hloop
    have hn := hfirst.2.2.mem_order
    exact hfirst.1 ⟨hg.order_met n hn, hn⟩
  obtain ⟨last, hlast, hlength⟩ := normalizeFrom_induction
    (P := fun place k => Cleared g k place)
    (fun place k n eliminated hk hplace hremove => hk.visit hacyclic hplace hremove) hstart hdone
  exact hlast.loopFree_leftCorner hlength

end Grammar

/-! ### Sessions -/

namespace Session

open Grammar

/-- No nonterminal has been split when a grammar was just read. -/
theorem lineage_of_parse {text : String} {s : Session} (h : Session.parse text = .ok s) :
    s.grammar.lineage = [] :=
  parse_induction (P := fun g => g.lineage = []) rfl (fun _ _ _ hg => hg) (grammar_of_parse h)

/-- Normalizing removes all left recursion of a grammar that was read from a text, has no empty
body, has no nonterminal that derives itself, and generates some string from every nonterminal that
has a production. If it finishes within the limit, no nonterminal, old or new, derives a form that
begins with itself, not even through other nonterminals or behind symbols that vanish. -/
theorem not_leftRecursive_normalizeWithin {text : String} {s : Session}
    (hparse : Session.parse text = .ok s) (hempty : ∀ n, ¬ s.grammar.Produces n [])
    (hacyclic : ∀ n, ¬ TransGen s.grammar.Step [.nonTerminal n] [.nonTerminal n])
    (hproductive : s.grammar.Productive) {limit : Nat}
    (hdone : (s.apply (.normalizeWithin limit)).2 = none) (n : NonTerminal) (σ : List Symbol) :
    ¬ TransGen (s.apply (.normalizeWithin limit)).1.grammar.Step
      [.nonTerminal n] (.nonTerminal n :: σ) := by
  have hg : s.grammar.WellFormed := wellFormed_of_parse hparse
  have hfinished : (s.grammar.normalizeWithin limit).obstacle? = none :=
    Option.map_eq_none_iff.1 hdone
  have hfree := loopFree_leftCorner_normalizeWithin hg (hproductive.grounded hg)
    (lineage_of_parse hparse) hempty hacyclic hfinished
  intro hloop
  exact hfree n (transGen_leftCorner_of_transGen_step hloop)

/-- Two nonterminals that are left recursive on their own and through each other. Each body holds a
terminal, so none is empty and no nonterminal derives itself. -/
theorem not_leftRecursive_normalizeWithin_indirect :
    let s := withLines ["S->Aa", "S->b", "A->Ac", "A->Sd", "A->e"]
    Session.parse "S->Aa\nS->b\nA->Ac\nA->Sd\nA->e" = .ok s ∧
      (∀ n, ¬ s.grammar.Produces n []) ∧
      (∀ n, ¬ TransGen s.grammar.Step [.nonTerminal n] [.nonTerminal n]) ∧
      s.grammar.Productive ∧ (s.apply (.normalizeWithin 100)).2 = none ∧
      ∀ n σ, ¬ TransGen (s.apply (.normalizeWithin 100)).1.grammar.Step
        [.nonTerminal n] (.nonTerminal n :: σ) := by
  intro s
  have hparse : Session.parse "S->Aa\nS->b\nA->Ac\nA->Sd\nA->e" = .ok s := by
    unfold s
    cbv
  have hterminals : ∀ n p, s.grammar.Produces n p → ∃ c, .terminal c ∈ p := by
    have hrules : ∀ rule ∈ s.grammar.rules, ∀ p ∈ rule.bodies.toList, p.terminals ≠ [] := by
      decide +kernel
    intro n p hp
    obtain ⟨rule, hrule, _, hbody⟩ := hp
    obtain ⟨c, hc⟩ := List.exists_mem_of_ne_nil _ (hrules rule hrule p hbody)
    exact ⟨c, Body.mem_terminals.1 hc⟩
  have hempty : ∀ n, ¬ s.grammar.Produces n [] := by
    intro n hp
    obtain ⟨c, hc⟩ := hterminals n [] hp
    cases hc
  have hacyclic : ∀ n, ¬ TransGen s.grammar.Step [.nonTerminal n] [.nonTerminal n] := by
    intro n hloop
    obtain ⟨σ, hfirst, hrest⟩ := TransGen.head'_iff.1 hloop
    obtain ⟨c, hc⟩ := hterminals n σ hfirst.of_singleton
    have hstays : .terminal c ∈ [Symbol.nonTerminal n] := Derives.terminal_mem hrest hc
    simp at hstays
  have hproductive : s.grammar.Productive := by
    have horder : s.grammar.order = [⟨'S', 0, rfl⟩, ⟨'A', 0, rfl⟩] := by decide +kernel
    intro n p hp
    have hn := hp.mem_order
    rw [horder] at hn
    simp only [List.mem_cons, List.not_mem_nil, or_false] at hn
    have hshort : ∃ c, s.grammar.Produces n [.terminal c] := by
      rcases hn with rfl | rfl
      · exact ⟨'b', by decide +kernel⟩
      · exact ⟨'e', by decide +kernel⟩
    obtain ⟨c, hc⟩ := hshort
    exact ⟨[c], hc.derives⟩
  have hdone : (s.apply (.normalizeWithin 100)).2 = none := by
    unfold s
    cbv
  exact ⟨hparse, hempty, hacyclic, hproductive, hdone,
    not_leftRecursive_normalizeWithin hparse hempty hacyclic hproductive hdone⟩

end Session

end PredictiveParsing
