/-
Module: PredictiveParsing.Proofs.IndexedLookahead
Layer: Proofs
Purpose: No lookup misses when lookahead sets are computed from two containers that represent a
  grammar. The map has an entry for every nonterminal of the list, and the families of sets keep an
  entry for every nonterminal that was met from the first round to the last; so the computation has
  a result, which is that for the grammar.
Imports: PredictiveParsing.Lookahead.Indexed, PredictiveParsing.Proofs.FollowSets,
  PredictiveParsing.Proofs.IndexedGrammar
Main exports: CharSets.saturate?_eq_some, followDemands?_eq_some,
  IndexedGrammar.Represents.lookahead?_eq
Open obligations: none
-/
import PredictiveParsing.Lookahead.Indexed
import PredictiveParsing.Proofs.FollowSets
import PredictiveParsing.Proofs.IndexedGrammar

namespace PredictiveParsing

/-! ### Computations that do not fail -/

/-- Saturation with rounds that do not fail on the way is saturation, if the sets stay below the
bound and a round that adds nothing changes nothing. -/
theorem CharSets.saturate?_eq_some {bound : Nat} {round? : CharSets → Option CharSets}
    {round : CharSets → CharSets} {sets : CharSets} (P : CharSets → Prop) (hstart : P sets)
    (hsome : ∀ sets, P sets → round? sets = some (round sets))
    (hround : ∀ sets, P sets → P (round sets)) (hbound : ∀ sets, P sets → sets.total ≤ bound)
    (hfixed : ∀ sets, P sets → (round sets).total ≤ sets.total → round sets = sets) :
    saturate? bound round? sets = some (saturate bound round sets) := by
  fun_induction saturate bound round sets with
  | case1 sets next hgrows ih =>
      rw [saturate?, hsome sets hstart]
      dsimp only
      rw [dif_pos hgrows.1, dif_pos hgrows.2]
      exact ih (hround sets hstart)
  | case2 sets next hdone =>
      have hle : next.total ≤ bound := hbound next (hround sets hstart)
      have hstill : ¬ sets.total < next.total := fun hlt => hdone ⟨hlt, hle⟩
      rw [saturate?, hsome sets hstart]
      dsimp only
      rw [dif_neg hstill, hfixed sets hstart (Nat.le_of_not_lt hstill)]

theorem mapM_eq_some_map {α β : Type} {f? : α → Option β} {f : α → β} {list : List α}
    (h : ∀ a ∈ list, f? a = some (f a)) : list.mapM f? = some (list.map f) := by
  induction list with
  | nil => rfl
  | cons a rest ih =>
      obtain ⟨ha, hrest⟩ := List.forall_mem_cons.1 h
      rw [List.mapM_cons, ha, ih hrest]
      rfl

/-- Where the left side has a set, the demands of a body are found. -/
theorem followDemands?_eq_some {first follow : CharSets} {head : NonTerminal}
    (hhead : head ∈ follow.keys) (p : Body) :
    followDemands? first follow head p = some (followDemands first follow head p) := by
  induction p with
  | nil => rfl
  | cons s rest ih =>
      cases s with
      | terminal t => exact ih
      | nonTerminal n =>
          rw [followDemands?, followDemands, ih, CharSets.exists_get?_of_mem_keys hhead]
          by_cases hvanish : emptyMark ∈ firstOf first rest
          · simp [hvanish]
          · simp [hvanish]

namespace IndexedGrammar

variable {c : IndexedGrammar} {g : Grammar} {first follow : CharSets}

namespace Represents

theorem get?_of_mem_rules (h : c.Represents g) (hnodup : g.order.Nodup) {rule : Rule}
    (hrule : rule ∈ g.rules) : c.productions.get? rule.head = some rule.bodies := by
  rw [h.get?_eq]
  exact Grammar.bodies?_of_mem_rules hnodup hrule

/-- A round for FIRST finds the alternatives of every nonterminal of the order. -/
theorem firstRound?_eq (h : c.Represents g) (hnodup : g.order.Nodup) :
    c.firstRound? first = some (g.firstRound first) := by
  have hrules : ∀ rules : List Rule, (∀ rule ∈ rules, rule ∈ g.rules) → ∀ sets : CharSets,
      (rules.map Rule.head).foldlM (fun sets n =>
        (c.productions.get? n).map fun bodies =>
          sets.extend n (bodies.toList.flatMap fun p => (firstOf sets p).toList)) sets =
        some (rules.foldl (fun sets rule =>
          sets.extend rule.head (rule.bodies.toList.flatMap fun p => (firstOf sets p).toList))
            sets) := by
    intro rules hsub
    induction rules with
    | nil => exact fun _ => rfl
    | cons rule rest ih =>
        intro sets
        obtain ⟨hrule, hrest⟩ := List.forall_mem_cons.1 hsub
        rw [List.map_cons, List.foldlM_cons, h.get?_of_mem_rules hnodup hrule]
        exact ih hrest _
  rw [firstRound?, h.order_eq]
  exact hrules g.rules (fun _ hrule => hrule) first

/-- The productions are listed rule by rule. -/
theorem listing_eq (h : c.Represents g) (hnodup : g.order.Nodup) :
    c.listing = g.rules.flatMap fun rule => rule.bodies.toList.map fun p => (rule.head, p) := by
  rw [listing, h.order_eq, Grammar.order, List.flatMap_map]
  apply List.flatMap_congr
  intro rule hrule
  rw [OrderedMap.getD, h.get?_of_mem_rules hnodup hrule, Option.getD_some]

/-- A round for FOLLOW finds the set of every left side. -/
theorem followRound?_eq (h : c.Represents g) (hg : g.WellFormed)
    (hkeys : follow.keys = g.nonTerminals) :
    c.followRound? first follow = some (g.followRound first follow) := by
  have hdemands : c.demands? first follow = some (g.demands first follow) := by
    have hfound : ∀ entry ∈ c.listing, followDemands? first follow entry.1 entry.2 =
        some (followDemands first follow entry.1 entry.2) := by
      rw [h.listing_eq hg.nodup_order]
      intro entry hentry
      obtain ⟨rule, hrule, hmem⟩ := List.mem_flatMap.1 hentry
      obtain ⟨p, _, rfl⟩ := List.mem_map.1 hmem
      have hmet := hg.order_met rule.head (Grammar.mem_order_iff.2 ⟨rule, hrule, rfl⟩)
      exact followDemands?_eq_some (hkeys ▸ hmet) p
    rw [demands?, mapM_eq_some_map hfound, h.listing_eq hg.nodup_order, Option.map_some,
      ← List.flatMap_def, List.flatMap_assoc]
    simp only [List.flatMap_map]
    rfl
  rw [followRound?, hdemands]
  rfl

theorem emptySets_eq (h : c.Represents g) : c.emptySets = g.emptySets := by
  rw [emptySets, Grammar.emptySets, h.nonTerminals_eq]

theorem lookaheadBound_eq (h : c.Represents g) : c.lookaheadBound = g.lookaheadBound := by
  rw [lookaheadBound, Grammar.lookaheadBound, h.nonTerminals_eq, h.terminals_eq]

theorem followSets?_eq (h : c.Represents g) (hg : g.WellFormed) (hfirst : g.FirstSound first) :
    c.followSets? first = some (g.followSets first) := by
  have hhead : c.order.head? = g.start? := by rw [h.order_eq, Grammar.start?]
  rw [followSets?, Grammar.followSets, hhead, h.emptySets_eq, h.lookaheadBound_eq]
  cases hstart : g.start? with
  | none => rfl
  | some start =>
      have hmem : start ∈ g.emptySets.keys := by
        rw [Grammar.emptySets, OrderedMap.keys_const]
        exact hg.order_met start (Grammar.start_mem_order hstart)
      dsimp only
      rw [CharSets.exists_get?_of_mem_keys hmem]
      apply CharSets.saturate?_eq_some g.FollowWithin (Grammar.followWithin_start hg hstart)
      · exact fun _ hsets => h.followRound?_eq hg hsets.keys
      · exact fun _ => Grammar.FollowWithin.followRound hg hfirst
      · exact fun _ => Grammar.FollowWithin.total_le
      · exact fun _ => Grammar.FollowWithin.followRound_eq hg

/-- The lookahead sets are computed without a lookup that misses, and they are those of the
grammar. -/
theorem lookahead?_eq (h : c.Represents g) (hg : g.WellFormed) :
    c.lookahead? = some g.lookahead := by
  have hfirst : CharSets.saturate? c.lookaheadBound c.firstRound? c.emptySets =
      some g.firstSets := by
    rw [h.lookaheadBound_eq, h.emptySets_eq]
    apply CharSets.saturate?_eq_some g.FirstSound Grammar.firstSound_emptySets
    · exact fun _ _ => h.firstRound?_eq hg.nodup_order
    · exact fun _ => Grammar.FirstSound.firstRound hg
    · exact fun _ => Grammar.FirstSound.total_le hg
    · exact fun _ => Grammar.FirstSound.firstRound_eq hg
  rw [lookahead?, hfirst]
  dsimp only
  rw [h.followSets?_eq hg (Grammar.firstSound_firstSets hg)]
  rfl

end Represents

end IndexedGrammar

end PredictiveParsing
