/-
Module: PredictiveParsing.Proofs.FactoringConvergence
Layer: Proofs
Purpose: Factoring a nonterminal comes to an end and loses nothing. Each round merges at least two
  alternatives, so there are fewer rounds than alternatives. The nonterminals that the rounds create
  only use older ones, so replacing them by their bodies ends, whatever the order; and what it leads
  to are the alternatives from before the first round.
Imports: PredictiveParsing.Proofs.LanguagePreservation, PredictiveParsing.Proofs.NormalForm
Main exports: Grammar.createdSince, Grammar.only, Grammar.UnfoldsTo, Grammar.wellFounded_step,
  Grammar.exists_unfoldsTo_of_factorOnce, Grammar.exists_unfoldsTo_factorOnce, Grammar.Factoring,
  Grammar.finished_factor, Session.factor_converges
Open obligations: none
-/
import PredictiveParsing.Proofs.LanguagePreservation
import PredictiveParsing.Proofs.NormalForm

namespace PredictiveParsing

open Relation

namespace Grammar

variable {g old : Grammar} {n : NonTerminal} {bodies : OrderedSet Body} {shared : Body}

/-! ### Unfolding nonterminals -/

/-- The nonterminals that have a rule now and had none before. -/
def createdSince (g old : Grammar) : List NonTerminal := g.order.filter (· ∉ old.order)

/-- The part of a grammar that consists of the rules of some nonterminals. -/
def only (g : Grammar) (names : List NonTerminal) : Grammar :=
  { g with rules := g.rules.filter (·.head ∈ names) }

/-- One form is what is left of another one when some nonterminals were replaced by bodies until
none of them was left. -/
structure UnfoldsTo (g : Grammar) (names : List NonTerminal) (form result : List Symbol) :
    Prop where
  derives : (g.only names).Derives form result
  done : ∀ m ∈ names, .nonTerminal m ∉ result

theorem produces_only {names : List NonTerminal} {m : NonTerminal} {p : Body} :
    (g.only names).Produces m p ↔ m ∈ names ∧ g.Produces m p := by
  constructor
  · intro h
    obtain ⟨rule, hrule, rfl, hp⟩ := h
    obtain ⟨hold, hin⟩ := List.mem_filter.1 hrule
    exact ⟨by simpa using hin, rule, hold, rfl, hp⟩
  · intro h
    obtain ⟨hin, rule, hrule, rfl, hp⟩ := h
    exact ⟨rule, List.mem_filter.2 ⟨hrule, by simpa using hin⟩, rfl, hp⟩

/-- The order of the names does not matter. -/
theorem only_perm {names names' : List NonTerminal} (h : names.Perm names') :
    g.only names = g.only names' := by
  unfold only
  congr 2
  funext rule
  exact decide_eq_decide.2 h.mem_iff

theorem unfoldsTo_perm {names names' : List NonTerminal} (h : names.Perm names')
    {form result : List Symbol} :
    g.UnfoldsTo names form result ↔ g.UnfoldsTo names' form result := by
  constructor
  · intro hunfolds
    exact ⟨only_perm h ▸ hunfolds.derives, fun m hm => hunfolds.done m (h.mem_iff.2 hm)⟩
  · intro hunfolds
    exact ⟨only_perm h ▸ hunfolds.derives, fun m hm => hunfolds.done m (h.mem_iff.1 hm)⟩

/-- Where nothing may be replaced, a form is left as it is. -/
theorem unfoldsTo_nil {form result : List Symbol} : g.UnfoldsTo [] form result ↔ form = result := by
  constructor
  · intro h
    cases h.derives using ReflTransGen.head_induction_on with
    | refl => rfl
    | head hstep _ =>
        cases hstep with
        | expand u v hp => exact absurd (produces_only.1 hp).1 List.not_mem_nil
  · intro h
    subst h
    exact ⟨Derives.refl form, fun m hm => absurd hm List.not_mem_nil⟩

/-! ### Unfolding ends -/

/-- The weights of the nonterminals of a form, added up. -/
def weigh (weight : NonTerminal → Nat) (form : List Symbol) : Nat :=
  ((Body.nonTerminals form).map weight).sum

theorem weigh_append (weight : NonTerminal → Nat) (σ τ : List Symbol) :
    weigh weight (σ ++ τ) = weigh weight σ + weigh weight τ := by
  simp [weigh, Body.nonTerminals]

theorem weigh_nonTerminal_cons (weight : NonTerminal → Nat) (m : NonTerminal) (τ : List Symbol) :
    weigh weight (.nonTerminal m :: τ) = weight m + weigh weight τ := rfl

theorem weigh_congr {weight weight' : NonTerminal → Nat} {form : List Symbol}
    (h : ∀ m, .nonTerminal m ∈ form → weight m = weight' m) :
    weigh weight form = weigh weight' form := by
  unfold weigh
  rw [List.map_congr_left fun m hm => h m (Body.mem_nonTerminals.1 hm)]

/-- If every nonterminal outweighs each of its bodies, productions cannot be applied for ever. -/
theorem wellFounded_step {weight : NonTerminal → Nat}
    (hweight : ∀ m p, g.Produces m p → weigh weight p < weight m) :
    WellFounded fun later form => g.Step form later := by
  refine Subrelation.wf (r := InvImage (· < ·) (weigh weight)) ?_ (InvImage.wf _ Nat.lt_wfRel.wf)
  intro later form hstep
  cases hstep with
  | expand u v hp =>
      have hlt := hweight _ _ hp
      show weigh weight _ < weigh weight _
      rw [weigh_append, weigh_append, weigh_append, weigh_nonTerminal_cons]
      omega

/-! ### What a round does -/

/-- A nonterminal that is split off counts as created, if it is new. -/
theorem createdSince_splitOff {base fresh : NonTerminal} {kept moved : OrderedSet Body}
    (hnodup : g.order.Nodup) (hbase : base ∈ g.order) (hfresh : fresh ∉ old.order) :
    ((g.splitOff base fresh kept moved).createdSince old).Perm (fresh :: g.createdSince old) := by
  have hperm : (g.splitOff base fresh kept moved).order.Perm (fresh :: g.order) :=
    perm_order_splitOff hnodup hbase
  have hfilter := hperm.filter (· ∉ old.order)
  rwa [List.filter_cons_of_pos (by simpa using hfresh)] at hfilter

/-- Factoring merges two alternatives at least. -/
theorem size_factoredBodies_lt (fresh : NonTerminal)
    (hshared : Body.longestSharedPrefix bodies.toList ≠ []) :
    (factoredBodies (Body.longestSharedPrefix bodies.toList) fresh bodies).size < bodies.size := by
  obtain ⟨p, q, hpair, hp, hq⟩ := Body.exists_pair_of_longestSharedPrefix hshared
  have hp' := Body.isSome_dropPrefix?_iff.2 (hp.imp fun _ => Eq.symm)
  have hq' := Body.isSome_dropPrefix?_iff.2 (hq.imp fun _ => Eq.symm)
  unfold factoredBodies
  refine Nat.lt_of_lt_of_eq (OrderedSet.size_ofList_lt ?_) (List.length_map _)
  intro hnodup
  have htwice := (hpair.map fun r : Body =>
    if (r.dropPrefix? (Body.longestSharedPrefix bodies.toList)).isSome = true then
      (Body.longestSharedPrefix bodies.toList).followedBy fresh else r).nodup hnodup
  simp [hp', hq'] at htwice

theorem bodies?_factorOnce (hg : g.WellFormed) (hbodies : g.bodies? n = some bodies) :
    (g.factorOnce n bodies shared).bodies? n =
      some (factoredBodies shared (g.freshFor n) bodies) :=
  bodies?_splitOff_base hg.nodup_order (hg.freshFor_not_mem_order n) (mem_order_of_bodies? hbodies)

section Unfolding

variable {names : List NonTerminal} (hg : g.WellFormed) (hbodies : g.bodies? n = some bodies)
  (hn : n ∉ names)

include hg hbodies hn

/-- A form without the new nonterminal unfolds after a round as it did before. -/
theorem derives_only_of_factorOnce {σ τ : List Symbol} (hσ : .nonTerminal (g.freshFor n) ∉ σ)
    (hder : ((g.factorOnce n bodies shared).only (g.freshFor n :: names)).Derives σ τ) :
    (g.only names).Derives σ τ := by
  have hfree : ∀ s ∈ σ, s ≠ .nonTerminal (g.freshFor n) := fun s hs heq => hσ (heq ▸ hs)
  refine hder.of_closed ?_ hfree
  intro m p hm hp
  obtain ⟨hin, hp'⟩ := produces_only.1 hp
  have hne : m ≠ g.freshFor n := fun heq => hm (congrArg _ heq)
  have hname : m ∈ names := (List.mem_cons.1 hin).resolve_left hne
  have hold : g.Produces m p := by
    rcases (produces_factorOnce hbodies).1 hp' with ⟨_, hold⟩ | ⟨rfl, _⟩ | ⟨heq, _⟩
    · exact hold
    · exact absurd hname hn
    · exact absurd heq hne
  refine ⟨produces_only.2 ⟨hname, hold⟩, ?_⟩
  intro s hs heq
  exact hg.freshFor_not_mem_body n hold (heq ▸ hs)

omit hg in
theorem derives_only_factorOnce {σ τ : List Symbol} (hder : (g.only names).Derives σ τ) :
    ((g.factorOnce n bodies shared).only (g.freshFor n :: names)).Derives σ τ := by
  refine hder.simulate ?_
  intro m p hp
  obtain ⟨hname, hold⟩ := produces_only.1 hp
  have hne : m ≠ n := fun heq => hn (heq ▸ hname)
  exact (produces_only.2 ⟨List.mem_cons_of_mem _ hname,
    (produces_factorOnce hbodies).2 (Or.inl ⟨hne, hold⟩)⟩).derives

/-- What an alternative after a round unfolds to, an alternative before it does. If the new
nonterminal was replaced on the way, then by a remainder, which puts the old alternative together
again. -/
theorem exists_unfoldsTo_of_factorOnce {p q : Body}
    (hp : (g.factorOnce n bodies shared).Produces n p)
    (hunfolds : (g.factorOnce n bodies shared).UnfoldsTo (g.freshFor n :: names) p q) :
    ∃ r, g.Produces n r ∧ g.UnfoldsTo names r q := by
  have hproduces : ∀ {r}, r ∈ bodies → g.Produces n r :=
    (produces_iff_of_bodies? hg.nodup_order hbodies).2
  have hdone : ∀ m ∈ names, .nonTerminal m ∉ q :=
    fun m hm => hunfolds.done m (List.mem_cons_of_mem _ hm)
  have hold : ∀ {r}, g.Produces n r → ((g.factorOnce n bodies shared).only
      (g.freshFor n :: names)).Derives r q → ∃ r, g.Produces n r ∧ g.UnfoldsTo names r q := by
    intro r hr hder
    exact ⟨r, hr, derives_only_of_factorOnce hg hbodies hn (hg.freshFor_not_mem_body n hr) hder,
      hdone⟩
  rcases (produces_factorOnce hbodies).1 hp with ⟨hne, _⟩ | ⟨_, hkept⟩ | ⟨heq, _⟩
  · exact absurd rfl hne
  · rcases mem_factoredBodies.1 hkept with ⟨hbody, _⟩ | ⟨rfl, _⟩
    · exact hold (hproduces hbody) hunfolds.derives
    · obtain ⟨q₁, q₂, rfl, hfront, hback⟩ := derives_append_iff.1 hunfolds.derives
      rcases hback.nonTerminal_cons with ⟨_, rfl, _⟩ | ⟨rest, hrest, hback'⟩
      · have hleft := hunfolds.done _ List.mem_cons_self
        exact absurd (List.mem_append_right _ List.mem_cons_self) hleft
      · have hbody := append_mem_of_produces_freshFor hg hbodies (produces_only.1 hrest).2
        rw [List.append_nil] at hback'
        exact hold (hproduces hbody) (hfront.append hback')
  · exact absurd heq.symm (freshFor_ne hg hbodies)

theorem exists_unfoldsTo_factorOnce {p q : Body} (hp : g.Produces n p)
    (hunfolds : g.UnfoldsTo names p q) :
    ∃ r, (g.factorOnce n bodies shared).Produces n r ∧
      (g.factorOnce n bodies shared).UnfoldsTo (g.freshFor n :: names) r q := by
  have hbody : p ∈ bodies := (produces_iff_of_bodies? hg.nodup_order hbodies).1 hp
  have hder : ((g.factorOnce n bodies shared).only (g.freshFor n :: names)).Derives p q :=
    derives_only_factorOnce hbodies hn hunfolds.derives
  have hdone : ∀ m ∈ g.freshFor n :: names, .nonTerminal m ∉ q := by
    refine List.forall_mem_cons.2 ⟨?_, hunfolds.done⟩
    intro hmem
    rcases hunfolds.derives.mem_or_produces hmem with hstart | ⟨m, r, hr, hin⟩
    · exact hg.freshFor_not_mem_body n hp hstart
    · exact hg.freshFor_not_mem_body n (produces_only.1 hr).2 hin
  by_cases hprefix : ∃ rest, p = shared ++ rest
  · obtain ⟨rest, rfl⟩ := hprefix
    obtain ⟨hkept, hmoved⟩ := produces_factorOnce_merged hbodies hbody
    have hfirst : ((g.factorOnce n bodies shared).only (g.freshFor n :: names)).Derives
        [.nonTerminal (g.freshFor n)] rest :=
      (produces_only.2 ⟨List.mem_cons_self, hmoved⟩).derives
    exact ⟨shared.followedBy (g.freshFor n), hkept,
      (hfirst.append_left shared).trans hder, hdone⟩
  · exact ⟨p, produces_factorOnce_kept hbodies hbody hprefix, hder, hdone⟩

/-- A new nonterminal can be given a weight beyond that of all remainders. -/
theorem exists_weight_factorOnce
    (hweight : ∃ weight : NonTerminal → Nat,
      ∀ m p, (g.only names).Produces m p → weigh weight p < weight m) :
    ∃ weight : NonTerminal → Nat, ∀ m p,
      ((g.factorOnce n bodies shared).only (g.freshFor n :: names)).Produces m p →
        weigh weight p < weight m := by
  obtain ⟨weight, hweight⟩ := hweight
  let total := ((remainders shared bodies).toList.map (weigh weight)).sum
  let extended : NonTerminal → Nat := fun m => if m = g.freshFor n then total + 1 else weight m
  have hsame : ∀ {m : NonTerminal} {p : Body}, g.Produces m p → ∀ {r : Body}, r <:+ p →
      weigh extended r = weigh weight r := by
    intro m p hp r hr
    apply weigh_congr
    intro k hk
    have hne : k ≠ g.freshFor n :=
      fun heq => hg.freshFor_not_mem_body n hp (hr.subset (heq ▸ hk))
    exact if_neg hne
  refine ⟨extended, ?_⟩
  intro m p hp
  obtain ⟨hin, hp'⟩ := produces_only.1 hp
  rcases (produces_factorOnce hbodies).1 hp' with ⟨_, hold⟩ | ⟨rfl, _⟩ | ⟨rfl, hmoved⟩
  · have hne : m ≠ g.freshFor n := fun heq => hg.freshFor_not_mem_order n (heq ▸ hold.mem_order)
    have hname : m ∈ names := (List.mem_cons.1 hin).resolve_left hne
    have hextended : extended m = weight m := if_neg hne
    rw [hsame hold List.suffix_rfl, hextended]
    exact hweight m p (produces_only.2 ⟨hname, hold⟩)
  · exact absurd ((List.mem_cons.1 hin).resolve_left (freshFor_ne hg hbodies).symm) hn
  · have hold : g.Produces n (shared ++ p) :=
      (produces_iff_of_bodies? hg.nodup_order hbodies).2 (mem_remainders.1 hmoved)
    have hextended : extended (g.freshFor n) = total + 1 := if_pos rfl
    have hle : weigh weight p ≤ total := List.le_sum_of_mem (List.mem_map_of_mem hmoved)
    rw [hsame hold (List.suffix_append shared p), hextended]
    omega

end Unfolding

/-! ### Factoring as a whole -/

/-- What holds between the rounds of factoring `n` in the grammar `old`. -/
structure Factoring (old : Grammar) (n : NonTerminal) (g : Grammar) : Prop where
  wellFormed : g.WellFormed
  met : ∀ m ∈ old.nonTerminals, m ∈ g.nonTerminals
  /-- The names of the created nonterminals were not in use. -/
  created_unmet : ∀ m ∈ g.createdSince old, m ∉ old.nonTerminals
  length_created : (g.createdSince old).length + old.order.length = g.order.length
  /-- The created nonterminals can be weighed so that unfolding them makes a form lighter. -/
  weight : ∃ weight : NonTerminal → Nat,
    ∀ m p, (g.only (g.createdSince old)).Produces m p → weigh weight p < weight m
  unfolds : ∀ q, (∃ p, g.Produces n p ∧ g.UnfoldsTo (g.createdSince old) p q) ↔ old.Produces n q

namespace Factoring

theorem refl (hold : old.WellFormed) (n : NonTerminal) : Factoring old n old := by
  have hcreated : old.createdSince old = [] := by
    refine List.filter_eq_nil_iff.2 ?_
    intro m hm
    simpa using hm
  constructor
  · exact hold
  · exact fun m hm => hm
  · simp [hcreated]
  · simp [hcreated]
  · rw [hcreated]
    exact ⟨fun _ => 0, fun m p hp => absurd (produces_only.1 hp).1 List.not_mem_nil⟩
  · intro q
    simp only [hcreated, unfoldsTo_nil, exists_eq_right]

theorem factorOnce (hold : old.WellFormed) (hn : n ∈ old.order) (h : Factoring old n g)
    (hbodies : g.bodies? n = some bodies) {rest : Body} (hrest : shared ++ rest ∈ bodies) :
    Factoring old n (g.factorOnce n bodies shared) := by
  have hunmet : g.freshFor n ∉ old.nonTerminals := fun hmem => g.freshFor_not_mem n (h.met _ hmem)
  have hperm : ((g.factorOnce n bodies shared).createdSince old).Perm
      (g.freshFor n :: g.createdSince old) :=
    createdSince_splitOff h.wellFormed.nodup_order (mem_order_of_bodies? hbodies)
      fun hmem => hunmet (hold.order_met _ hmem)
  have hnot : n ∉ g.createdSince old := by simp [createdSince, hn]
  constructor
  · exact h.wellFormed.factorOnce hbodies hrest
  · intro m hm
    exact OrderedSet.mem_insert.2 (Or.inl (h.met m hm))
  · intro m hm
    rcases List.mem_cons.1 (hperm.mem_iff.1 hm) with rfl | hcreated
    · exact hunmet
    · exact h.created_unmet m hcreated
  · rw [hperm.length_eq, List.length_cons, length_order_factorOnce h.wellFormed.nodup_order hbodies,
      ← h.length_created]
    omega
  · rw [only_perm hperm]
    exact exists_weight_factorOnce h.wellFormed hbodies hnot h.weight
  · intro q
    rw [← h.unfolds q]
    simp only [unfoldsTo_perm hperm]
    constructor
    · intro hafter
      obtain ⟨p, hp, hunfolds⟩ := hafter
      exact exists_unfoldsTo_of_factorOnce h.wellFormed hbodies hnot hp hunfolds
    · intro hbefore
      obtain ⟨p, hp, hunfolds⟩ := hbefore
      exact exists_unfoldsTo_factorOnce h.wellFormed hbodies hnot hp hunfolds

/-- All rounds together, finished or not. -/
theorem factor (hold : old.WellFormed) (hn : n ∈ old.order) (rounds : Nat) :
    Factoring old n (old.factor rounds n).grammar :=
  factor_prefix_induction
    (fun _ _ _ _ hg hbodies hrest => hg.factorOnce hold hn hbodies hrest) rounds (refl hold n)

end Factoring

/-- With as many rounds as there are alternatives, factoring is finished, and in all but one of
these rounds at most a nonterminal was created. -/
theorem finished_factor {rounds : Nat} (hg : g.WellFormed) (hbodies : g.bodies? n = some bodies)
    (hrounds : bodies.size ≤ rounds) :
    (g.factor rounds n).obstacle? = none ∧
      (g.factor rounds n).grammar.order.length < g.order.length + bodies.size := by
  induction rounds generalizing g bodies with
  | zero =>
      have hnone : bodies.toList = [] := List.eq_nil_of_length_eq_zero (Nat.le_zero.1 hrounds)
      obtain ⟨p, hp⟩ := hg.exists_body n (mem_order_of_bodies? hbodies)
      have hmem : p ∈ bodies.toList := (produces_iff_of_bodies? hg.nodup_order hbodies).1 hp
      rw [hnone] at hmem
      cases hmem
  | succ rounds ih =>
      by_cases hshared : Body.longestSharedPrefix bodies.toList = []
      · rw [factor_succ_of_nil hbodies hshared]
        obtain ⟨p, hp⟩ := hg.exists_body n (mem_order_of_bodies? hbodies)
        have hpos : 0 < bodies.size :=
          List.length_pos_of_mem ((produces_iff_of_bodies? hg.nodup_order hbodies).1 hp)
        exact ⟨rfl, Nat.lt_add_of_pos_right hpos⟩
      · rw [factor_succ_of_shared hbodies hshared]
        obtain ⟨rest, hrest⟩ := Body.exists_append_mem_of_longestSharedPrefix hshared
        have hsize := size_factoredBodies_lt (g.freshFor n) hshared
        obtain ⟨hdone, hcount⟩ :=
          ih (hg.factorOnce hbodies hrest) (bodies?_factorOnce hg hbodies) (by omega)
        rw [length_order_factorOnce hg.nodup_order hbodies] at hcount
        exact ⟨hdone, by omega⟩

end Grammar

namespace Session

open Grammar

variable {s : Session} {n : NonTerminal} {bodies : OrderedSet Body}

/-- Factoring a nonterminal with at most as many alternatives as the limit is finished and creates
fewer nonterminals than there were alternatives, all with names that were not in use. No two
alternatives begin with the same symbol afterwards. Replacing the created nonterminals by their
bodies, in any order and as long as there are any, comes to an end, and what the alternatives become
in this way are the alternatives from before, no more and no less. -/
theorem factor_converges (hs : s.Reachable) (hbodies : s.grammar.bodies? n = some bodies)
    (hlimit : bodies.size ≤ workLimit) :
    let t := (s.apply (.factor n)).1
    let created := t.grammar.createdSince s.grammar
    (s.apply (.factor n)).2 = none ∧
      created.length + 1 ≤ bodies.size ∧ (∀ m ∈ created, m ∉ s.grammar.nonTerminals) ∧
      (∀ σ p q, t.grammar.Produces n (σ :: p) → t.grammar.Produces n (σ :: q) → p = q) ∧
      (WellFounded fun later form => (t.grammar.only created).Step form later) ∧
      ∀ q, (∃ p, t.grammar.Produces n p ∧ t.grammar.UnfoldsTo created p q) ↔ q ∈ bodies := by
  intro t created
  have hg : s.grammar.WellFormed := hs.wellFormed
  have hn : n ∈ s.grammar.order := mem_order_of_bodies? hbodies
  obtain ⟨hfinished, hcount⟩ := finished_factor hg hbodies hlimit
  have hfactoring : Factoring s.grammar n t.grammar := .factor hg hn workLimit
  refine ⟨Option.map_eq_none_iff.2 hfinished, ?_, hfactoring.created_unmet, ?_, ?_, ?_⟩
  · have hlength := hfactoring.length_created
    have hcount' : t.grammar.order.length < s.grammar.order.length + bodies.size := hcount
    show (t.grammar.createdSince s.grammar).length + 1 ≤ bodies.size
    omega
  · intro σ p q hp hq
    obtain ⟨bodies', hbodies'⟩ := exists_bodies_of_mem_order hp.mem_order
    have hproduces : ∀ {r}, t.grammar.Produces n r ↔ r ∈ bodies' :=
      produces_iff_of_bodies? hfactoring.wellFormed.nodup_order hbodies'
    have hshared : Body.longestSharedPrefix bodies'.toList = [] :=
      longestSharedPrefix_factor hfinished hbodies'
    exact Body.eq_of_longestSharedPrefix hshared (hproduces.1 hp) (hproduces.1 hq)
  · obtain ⟨weight, hweight⟩ := hfactoring.weight
    exact wellFounded_step hweight
  · intro q
    rw [hfactoring.unfolds q]
    exact produces_iff_of_bodies? hg.nodup_order hbodies

/-- The prefix `ab` of two alternatives is factored out first and `a` after it, so a nonterminal
that was created is used by another one. -/
theorem factor_converges_nested :
    let s := withLines ["A->abc", "A->ad", "A->ab", "A->b"]
    let n : NonTerminal := ⟨'A', 0, rfl⟩
    let bodies : OrderedSet Body := OrderedSet.ofList
      (["abc", "ad", "ab", "b"].map Body.ofString)
    let t := (s.apply (.factor n)).1
    let created := t.grammar.createdSince s.grammar
    s.Reachable ∧ s.grammar.bodies? n = some bodies ∧ bodies.size ≤ workLimit ∧
      created = [⟨'A', 2, rfl⟩, ⟨'A', 1, rfl⟩] ∧
      t.grammar.Produces ⟨'A', 2, rfl⟩ (Body.ofString "bA'") ∧
      (s.apply (.factor n)).2 = none ∧
      created.length + 1 ≤ bodies.size ∧ (∀ m ∈ created, m ∉ s.grammar.nonTerminals) ∧
      (∀ σ p q, t.grammar.Produces n (σ :: p) → t.grammar.Produces n (σ :: q) → p = q) ∧
      (WellFounded fun later form => (t.grammar.only created).Step form later) ∧
      ∀ q, (∃ p, t.grammar.Produces n p ∧ t.grammar.UnfoldsTo created p q) ↔ q ∈ bodies := by
  intro s n bodies t created
  have hs : s.Reachable := reachable_withLines _
  have hbodies : s.grammar.bodies? n = some bodies := by
    unfold s n bodies
    cbv
  have hlimit : bodies.size ≤ workLimit := by
    unfold bodies
    decide +kernel
  have hcreated : created = [⟨'A', 2, rfl⟩, ⟨'A', 1, rfl⟩] := by
    unfold created t s n
    cbv
  have hnested : t.grammar.Produces ⟨'A', 2, rfl⟩ (Body.ofString "bA'") := by
    unfold t s n
    decide +kernel
  exact ⟨hs, hbodies, hlimit, hcreated, hnested, factor_converges hs hbodies hlimit⟩

end Session

end PredictiveParsing
