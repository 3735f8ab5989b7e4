/-
Module: PredictiveParsing.Proofs.FollowSets
Layer: Proofs
Purpose: FOLLOW sets miss nothing. Where the rounds for FOLLOW end, the sets are closed: whatever
  comes after a nonterminal in a body is in its set, and if nothing need come after it, the set of
  the head is included. Then a form in which every nonterminal has what can come after it in its set
  keeps this property whatever productions are applied. Conversely, if every nonterminal with a
  production is reached from the start symbol, a round adds only what does come after a nonterminal
  in some derived form.
Imports: PredictiveParsing.Proofs.FirstSets, PredictiveParsing.Table
Main exports: ComesNext, Grammar.FollowClosed, Grammar.Covers, Grammar.followRound_followSets,
  Grammar.followClosed_followSets, Grammar.FollowClosed.covers_of_step, Grammar.covers_start,
  Grammar.Follows, Grammar.Reaches, Grammar.mem_followSets_of_follows,
  Grammar.follows_of_mem_followSets
Open obligations: none
-/
import PredictiveParsing.Proofs.FirstSets
import PredictiveParsing.Table

namespace PredictiveParsing

open Relation

/-! ### Demands -/

/-- A character can come next where `rest` stands before something that `beyond` describes. -/
def ComesNext (first : CharSets) (rest : List Symbol) (beyond : OrderedSet Char) (c : Char) :
    Prop :=
  (c ∈ firstOf first rest ∧ c ≠ emptyMark) ∨ (emptyMark ∈ firstOf first rest ∧ c ∈ beyond)

instance (first : CharSets) (rest : List Symbol) (beyond : OrderedSet Char) (c : Char) :
    Decidable (ComesNext first rest beyond c) := inferInstanceAs (Decidable (_ ∨ _))

theorem mem_erase_append_iff {first : CharSets} {rest : List Symbol} {beyond : OrderedSet Char}
    {c : Char} :
    c ∈ ((firstOf first rest).erase emptyMark).toList ++
        (if emptyMark ∈ firstOf first rest then beyond.toList else []) ↔
      ComesNext first rest beyond c := by
  rw [List.mem_append, OrderedSet.mem_toList, OrderedSet.mem_erase, ComesNext]
  rcases Decidable.em (emptyMark ∈ firstOf first rest) with h | h
  · simp [h]
  · simp [h]

/-- A body is predicted by the characters that can come next where it is used. -/
theorem mem_predict_iff {lookahead : Lookahead} {n : NonTerminal} {p : Body} {c : Char} :
    c ∈ lookahead.predict n p ↔ ComesNext lookahead.first p (lookahead.follow.charsOf n) c :=
  mem_erase_append_iff

/-- The places where a nonterminal stands in a string are its first symbol and those in the rest. -/
theorem exists_split_cons {m : NonTerminal} {s : Symbol} {rest : List Symbol}
    {P : List Symbol → Prop} :
    (∃ u v, s :: rest = u ++ .nonTerminal m :: v ∧ P v) ↔
      (s = .nonTerminal m ∧ P rest) ∨ ∃ u v, rest = u ++ .nonTerminal m :: v ∧ P v := by
  constructor
  · intro h
    obtain ⟨u, v, heq, hv⟩ := h
    cases u with
    | nil =>
        obtain ⟨rfl, rfl⟩ := List.cons.inj heq
        exact Or.inl ⟨rfl, hv⟩
    | cons t u =>
        obtain ⟨rfl, rfl⟩ := List.cons.inj heq
        exact Or.inr ⟨u, v, rfl, hv⟩
  · intro h
    rcases h with ⟨rfl, hrest⟩ | ⟨u, v, rfl, hv⟩
    · exact ⟨[], rest, rfl, hrest⟩
    · exact ⟨s :: u, v, rfl, hv⟩

/-- A body demands for each of its nonterminals what can come after it. -/
theorem exists_mem_followDemands {first follow : CharSets} {head m : NonTerminal} {p : Body}
    {c : Char} :
    (∃ demand ∈ followDemands first follow head p, demand.1 = m ∧ c ∈ demand.2) ↔
      ∃ u v, p = u ++ .nonTerminal m :: v ∧ ComesNext first v (follow.charsOf head) c := by
  induction p with
  | nil => simp [followDemands]
  | cons s rest ih =>
      rw [exists_split_cons, ← ih]
      cases s with
      | terminal t => simp [followDemands]
      | nonTerminal n =>
          simp only [followDemands, List.mem_cons, or_and_right, exists_or, exists_eq_left,
            mem_erase_append_iff, Symbol.nonTerminal.injEq]

namespace Grammar

/-- The sets of the nonterminals that were met, with nothing in them but terminals of the grammar
and the end mark. -/
structure FollowWithin (g : Grammar) (follow : CharSets) : Prop where
  keys : follow.keys = g.nonTerminals
  range : ∀ n, ∀ c ∈ follow.charsOf n, c ∈ endMark :: g.terminals.toList

/-- The set of a nonterminal includes what can come after it in any body. -/
def FollowClosed (g : Grammar) (first follow : CharSets) : Prop :=
  ∀ n p, g.Produces n p → ∀ u m v, p = u ++ .nonTerminal m :: v →
    ∀ c, ComesNext first v (follow.charsOf n) c → c ∈ follow.charsOf m

/-- What the bodies of a grammar demand in a round for FOLLOW. -/
def demands (g : Grammar) (first follow : CharSets) : List (NonTerminal × List Char) :=
  g.rules.flatMap fun rule => rule.bodies.toList.flatMap (followDemands first follow rule.head)

variable {g : Grammar} {first follow : CharSets}

theorem exists_mem_demands {m : NonTerminal} {c : Char} :
    (∃ demand ∈ g.demands first follow, demand.1 = m ∧ c ∈ demand.2) ↔
      ∃ n p, g.Produces n p ∧ ∃ u v, p = u ++ .nonTerminal m :: v ∧
        ComesNext first v (follow.charsOf n) c := by
  simp only [← exists_mem_followDemands, demands, List.mem_flatMap, Produces]
  constructor
  · intro h
    obtain ⟨demand, ⟨rule, hrule, p, hp, hdemand⟩, hm⟩ := h
    exact ⟨rule.head, p, ⟨rule, hrule, rfl, hp⟩, demand, hdemand, hm⟩
  · intro h
    obtain ⟨n, p, ⟨rule, hrule, rfl, hp⟩, demand, hdemand, hm⟩ := h
    exact ⟨demand, ⟨rule, hrule, p, hp, hdemand⟩, hm⟩

/-- A round for FOLLOW meets the demands made on the sets before it. -/
theorem followRound_eq_sweep : g.followRound first follow =
    CharSets.sweep Prod.fst (fun _ demand => demand.2) (g.demands first follow) follow := rfl

/-- Only nonterminals that were met make demands. -/
theorem fst_mem_keys (hg : g.WellFormed) {sets : CharSets} (hkeys : sets.keys = g.nonTerminals) :
    ∀ demand ∈ g.demands first follow, demand.1 ∈ sets.keys := by
  have hbody : ∀ (head : NonTerminal) (p : Body),
      ∀ demand ∈ followDemands first follow head p, .nonTerminal demand.1 ∈ p := by
    intro head p
    induction p with
    | nil => simp [followDemands]
    | cons s rest ih =>
        cases s with
        | terminal t => exact fun demand hdemand => List.mem_cons_of_mem _ (ih demand hdemand)
        | nonTerminal n =>
            intro demand hdemand
            rcases List.mem_cons.1 hdemand with rfl | hrest
            · exact List.mem_cons_self
            · exact List.mem_cons_of_mem _ (ih demand hrest)
  intro demand hdemand
  obtain ⟨rule, hrule, hin⟩ := List.mem_flatMap.1 hdemand
  obtain ⟨p, hp, hmem⟩ := List.mem_flatMap.1 hin
  rw [hkeys]
  exact hg.body_met rule.head p ⟨rule, hrule, rfl, hp⟩ _ (hbody _ _ demand hmem)

theorem FollowWithin.total_le (h : g.FollowWithin follow) : follow.total ≤ g.lookaheadBound := by
  have htotal := CharSets.total_le h.range
  rw [h.keys, List.length_cons] at htotal
  exact htotal

theorem FollowWithin.followRound (hg : g.WellFormed) (hfirst : g.FirstSound first)
    (h : g.FollowWithin follow) : g.FollowWithin (g.followRound first follow) := by
  rw [followRound_eq_sweep]
  apply CharSets.sweep_induction g.FollowWithin h
  intro sets hsets demand hdemand
  constructor
  · rw [CharSets.keys_extend (fst_mem_keys hg hsets.keys demand hdemand), hsets.keys]
  · intro m c hc
    rcases CharSets.mem_charsOf_extend.1 hc with hold | ⟨hm, hnew⟩
    · exact hsets.range m c hold
    · obtain ⟨n, p, hp, u, v, rfl, hnext⟩ := exists_mem_demands.1 ⟨demand, hdemand, hm, hnew⟩
      rcases hnext with ⟨hv, hne⟩ | ⟨_, hbeyond⟩
      · -- The character begins a string that is derived from the rest of a body.
        have hmark : .terminal emptyMark ∉ v := fun hmem =>
          hg.emptyMark_not_mem hp (List.mem_append_right _ (List.mem_cons_of_mem _ hmem))
        have hmet : ∀ t, .terminal t ∈ v → t ∈ g.terminals := fun t ht =>
          (hg.body_met n _ hp _ (List.mem_append_right _ (List.mem_cons_of_mem _ ht))).1
        have hrange := (hfirst.announces_of_mem_firstOf hmark hv).mem_range hg hmet
        exact List.mem_cons_of_mem _ ((List.mem_cons.1 hrange).resolve_left hne)
      · exact h.range n c hbeyond

theorem start_mem_order {start : NonTerminal} (h : g.start? = some start) : start ∈ g.order :=
  List.mem_of_head? h

theorem followWithin_emptySets : g.FollowWithin g.emptySets where
  keys := OrderedMap.keys_const _ _
  range := by
    intro n c hc
    rw [charsOf_emptySets] at hc
    exact absurd hc (OrderedSet.not_mem_empty c)

theorem followWithin_start (hg : g.WellFormed) {start : NonTerminal}
    (hstart : g.start? = some start) : g.FollowWithin (g.emptySets.extend start [endMark]) where
  keys := by
    have hkeys : g.emptySets.keys = g.nonTerminals := OrderedMap.keys_const _ _
    rw [CharSets.keys_extend, hkeys]
    rw [hkeys]
    exact hg.order_met start (start_mem_order hstart)
  range := by
    intro n c hc
    rcases CharSets.mem_charsOf_extend.1 hc with hold | ⟨_, hnew⟩
    · exact followWithin_emptySets.range n c hold
    · exact List.mem_cons.2 (Or.inl (List.mem_singleton.1 hnew))

/-- A round for FOLLOW that does not increase the total changes nothing. -/
theorem FollowWithin.followRound_eq (hg : g.WellFormed) (h : g.FollowWithin follow)
    (hle : (g.followRound first follow).total ≤ follow.total) :
    g.followRound first follow = follow :=
  (CharSets.sweep_of_total_le (fst_mem_keys hg h.keys) hle).2

/-- Where the rounds for FOLLOW end, another round changes nothing. -/
theorem followRound_followSets (hg : g.WellFormed) (hfirst : g.FirstSound first)
    {start : NonTerminal} (hstart : g.start? = some start) :
    g.followRound first (g.followSets first) = g.followSets first := by
  rw [followSets, hstart]
  apply CharSets.round_saturate g.FollowWithin (followWithin_start hg hstart)
  · exact fun _ => FollowWithin.followRound hg hfirst
  · exact fun _ => FollowWithin.total_le
  · exact fun _ => FollowWithin.followRound_eq hg

theorem followWithin_followSets (hg : g.WellFormed) (hfirst : g.FirstSound first) :
    g.FollowWithin (g.followSets first) := by
  unfold followSets
  cases hstart : g.start? with
  | none => exact followWithin_emptySets
  | some start =>
      exact CharSets.saturate_induction g.FollowWithin (followWithin_start hg hstart)
        fun _ => FollowWithin.followRound hg hfirst

theorem followClosed_followSets (hg : g.WellFormed) (hfirst : g.FirstSound first)
    {start : NonTerminal} (hstart : g.start? = some start) :
    g.FollowClosed first (g.followSets first) := by
  intro n p hp u m v hsplit c hc
  have hle : (g.followRound first (g.followSets first)).total ≤ (g.followSets first).total := by
    rw [followRound_followSets hg hfirst hstart]
  have hkeys : ∀ demand ∈ g.demands first (g.followSets first),
      demand.1 ∈ (g.followSets first).keys :=
    fst_mem_keys hg (followWithin_followSets hg hfirst).keys
  obtain ⟨demand, hdemand, rfl, hmem⟩ := exists_mem_demands.2 ⟨n, p, hp, u, v, hsplit, hc⟩
  exact (CharSets.sweep_of_total_le hkeys hle).1 demand hdemand c hmem

/-- The end mark follows the start symbol. -/
theorem endMark_mem_followSets {start : NonTerminal} (hstart : g.start? = some start) :
    endMark ∈ (g.followSets first).charsOf start := by
  rw [followSets, hstart]
  apply CharSets.saturate_induction fun sets => endMark ∈ sets.charsOf start
  · exact CharSets.mem_charsOf_extend.2 (Or.inr ⟨rfl, List.mem_singleton_self endMark⟩)
  · intro sets hsets
    rw [followRound_eq_sweep]
    apply CharSets.sweep_induction (fun sets => endMark ∈ sets.charsOf start) hsets
    exact fun other hother demand _ => CharSets.mem_charsOf_extend.2 (Or.inl hother)

/-! ### What can come after a nonterminal in a derived form -/

/-- Every nonterminal of a form has what can come after it there in its set. -/
def Covers (first follow : CharSets) (σ : List Symbol) : Prop :=
  ∀ u m v, σ = u ++ .nonTerminal m :: v →
    ∀ c ∈ firstOf first v, c ≠ emptyMark → c ∈ follow.charsOf m

/-- Applying a production brings nothing after a nonterminal that its set does not have. -/
theorem FollowClosed.covers_of_step (hfirst : g.FirstClosed first) (h : g.FollowClosed first follow)
    {σ τ : List Symbol} (hstep : g.Step σ τ) (hσ : Covers first follow σ) :
    Covers first follow τ := by
  cases hstep with
  | @expand u v n p hp =>
      intro a m b heq c hc hne
      rcases split_append heq with ⟨rest, hup, rfl⟩ | ⟨rest, rfl, rfl⟩
      · rcases split_append hup with ⟨rest, rfl, rfl⟩ | ⟨rest, rfl, rfl⟩
        · -- Before the body: the nonterminal that it replaced begins at least as it does.
          refine hσ a m (rest ++ .nonTerminal n :: v) (by simp) c ?_ hne
          exact hfirst.mem_firstOf_of_step (Step.expand rest v hp) hc
        · -- In the body: what comes after it comes from the body or from behind it.
          apply h n _ hp rest m _ rfl
          rcases mem_firstOf_append.1 hc with hbody | ⟨hvanish, hv⟩
          · exact Or.inl hbody
          · exact Or.inr ⟨hvanish, hσ u n v rfl c hv hne⟩
      · -- Behind the body nothing has changed.
        exact hσ (u ++ .nonTerminal n :: rest) m b (by simp) c hc hne

/-- The form from which derivations start, with the end mark behind it. -/
theorem covers_start {start : NonTerminal} (hstart : g.start? = some start) :
    Covers first (g.followSets first) [.nonTerminal start, .terminal endMark] := by
  intro u m v heq c hc hne
  rcases (exists_split_cons (P := (· = v))).1 ⟨u, v, heq, rfl⟩ with ⟨hm, rfl⟩ | ⟨u', v', heq', _⟩
  · cases hm
    rcases mem_firstOf_cons.1 hc with ⟨hmark, _⟩ | ⟨hvanish, _⟩
    · rw [OrderedSet.mem_singleton.1 hmark]
      exact endMark_mem_followSets hstart
    · cases OrderedSet.mem_singleton.1 hvanish
  · have hmem : Symbol.nonTerminal m ∈ [Symbol.terminal endMark] := by simp [heq']
    cases List.mem_singleton.1 hmem

/-! ### What comes after a nonterminal is what its set holds -/

/-- The character stands directly after the nonterminal in some form that is derived from the start
symbol with the end mark behind it. -/
def Follows (g : Grammar) (start n : NonTerminal) (c : Char) : Prop :=
  ∃ u v, g.Derives [.nonTerminal start, .terminal endMark]
    (u ++ .nonTerminal n :: .terminal c :: v)

/-- The nonterminal occurs in some form that is derived from the start symbol. -/
def Reaches (g : Grammar) (start n : NonTerminal) : Prop :=
  ∃ u v, g.Derives [.nonTerminal start] (u ++ .nonTerminal n :: v)

theorem FollowClosed.covers_of_derives (hfirst : g.FirstClosed first)
    (h : g.FollowClosed first follow) {σ τ : List Symbol} (hder : g.Derives σ τ)
    (hσ : Covers first follow σ) : Covers first follow τ := by
  induction hder with
  | refl => exact hσ
  | tail _ hstep ih => exact h.covers_of_step hfirst hstep ih

/-- A well formed grammar derives no form in which the empty mark is a terminal. -/
theorem WellFormed.ne_emptyMark_of_follows (hg : g.WellFormed) {start n : NonTerminal} {c : Char}
    (h : g.Follows start n c) : c ≠ emptyMark := by
  intro heq
  subst heq
  obtain ⟨u, v, hder⟩ := h
  have hmem : Symbol.terminal emptyMark ∈ u ++ .nonTerminal n :: .terminal emptyMark :: v := by
    simp
  rcases hder.mem_or_produces hmem with hself | ⟨m, p, hp, hbody⟩
  · simp [emptyMark, endMark] at hself
  · exact hg.emptyMark_not_mem hp hbody

/-- Whatever follows a nonterminal is in its set. -/
theorem mem_followSets_of_follows (hg : g.WellFormed) {start : NonTerminal}
    (hstart : g.start? = some start) {n : NonTerminal} {c : Char} (h : g.Follows start n c) :
    c ∈ (g.followSets g.firstSets).charsOf n := by
  have hclosed : g.FollowClosed g.firstSets (g.followSets g.firstSets) :=
    followClosed_followSets hg (firstSound_firstSets hg) hstart
  have hne := hg.ne_emptyMark_of_follows h
  obtain ⟨u, v, hder⟩ := h
  have hcovers := hclosed.covers_of_derives (firstClosed_firstSets hg) hder (covers_start hstart)
  exact hcovers u n (.terminal c :: v) rfl c
    (mem_firstOf_cons.2 (Or.inl ⟨OrderedSet.mem_singleton.2 rfl, hne⟩)) hne

/-- What can come next behind a nonterminal of a body does so in a derived form, if the head is
reached and what is expected behind the head does follow it. -/
theorem follows_of_comesNext (hfirst : g.FirstSound first) {start n m : NonTerminal}
    {u v : List Symbol} {beyond : OrderedSet Char} {c : Char} (hreached : g.Reaches start n)
    (hp : g.Produces n (u ++ .nonTerminal m :: v)) (hmark : .terminal emptyMark ∉ v)
    (hbeyond : ∀ d ∈ beyond, g.Follows start n d) (hnext : ComesNext first v beyond c) :
    g.Follows start m c := by
  rcases hnext with ⟨hc, hne⟩ | ⟨hvanish, hc⟩
  · -- The rest of the body begins with the character.
    rcases hfirst.announces_of_mem_firstOf hmark hc with ⟨heq, _⟩ | ⟨_, τ, hτ⟩
    · exact absurd heq hne
    · obtain ⟨a, b, hab⟩ := hreached
      have hhead : g.Derives [.nonTerminal start, .terminal endMark]
          (a ++ .nonTerminal n :: (b ++ [.terminal endMark])) := by
        simpa using hab.append_right [.terminal endMark]
      have hbody : g.Derives (.nonTerminal n :: (b ++ [.terminal endMark]))
          (u ++ .nonTerminal m :: (.terminal c :: τ ++ (b ++ [.terminal endMark]))) := by
        apply hp.derives_cons
        have hrest := (hτ.append_right (b ++ [.terminal endMark])).append_left [.nonTerminal m]
        simpa using hrest.append_left u
      refine ⟨a ++ u, τ ++ (b ++ [.terminal endMark]), ?_⟩
      simpa using hhead.trans (hbody.append_left a)
  · -- The rest of the body vanishes, and the character is the one behind the head.
    rcases hfirst.announces_of_mem_firstOf hmark hvanish with ⟨_, hnil⟩ | ⟨hne, _⟩
    · obtain ⟨a, b, hab⟩ := hbeyond c hc
      have hbody : g.Derives (.nonTerminal n :: .terminal c :: b)
          (u ++ .nonTerminal m :: .terminal c :: b) := by
        apply hp.derives_cons
        have hrest := (hnil.append_right (.terminal c :: b)).append_left [.nonTerminal m]
        simpa using hrest.append_left u
      refine ⟨a ++ u, b, ?_⟩
      simpa using hab.trans (hbody.append_left a)
    · exact absurd rfl hne

/-- A round for FOLLOW adds only what follows. -/
theorem follows_of_mem_followRound (hg : g.WellFormed) (hfirst : g.FirstSound first)
    {start : NonTerminal} (hreached : ∀ n p, g.Produces n p → g.Reaches start n)
    (h : ∀ n, ∀ c ∈ follow.charsOf n, g.Follows start n c) :
    ∀ n, ∀ c ∈ (g.followRound first follow).charsOf n, g.Follows start n c := by
  rw [followRound_eq_sweep]
  apply CharSets.sweep_induction (fun sets => ∀ n, ∀ c ∈ sets.charsOf n, g.Follows start n c) h
  intro sets hsets demand hdemand m c hc
  rcases CharSets.mem_charsOf_extend.1 hc with hold | ⟨hm, hnew⟩
  · exact hsets m c hold
  · obtain ⟨n, p, hp, u, v, rfl, hnext⟩ := exists_mem_demands.1 ⟨demand, hdemand, hm, hnew⟩
    have hmark : .terminal emptyMark ∉ v := fun hmem =>
      hg.emptyMark_not_mem hp (List.mem_append_right _ (List.mem_cons_of_mem _ hmem))
    exact follows_of_comesNext hfirst (hreached n _ hp) hp hmark (h n) hnext

/-- Nothing is in the set of a nonterminal that does not follow it, if all nonterminals with a
production are reached from the start symbol. -/
theorem follows_of_mem_followSets (hg : g.WellFormed) {start : NonTerminal}
    (hstart : g.start? = some start) (hreached : ∀ n p, g.Produces n p → g.Reaches start n) :
    ∀ n, ∀ c ∈ (g.followSets g.firstSets).charsOf n, g.Follows start n c := by
  rw [followSets, hstart]
  apply CharSets.saturate_induction fun sets => ∀ n, ∀ c ∈ sets.charsOf n, g.Follows start n c
  · intro n c hc
    rcases CharSets.mem_charsOf_extend.1 hc with hold | ⟨rfl, hnew⟩
    · rw [charsOf_emptySets] at hold
      exact absurd hold (OrderedSet.not_mem_empty c)
    · cases List.mem_singleton.1 hnew
      exact ⟨[], [], Derives.refl _⟩
  · exact fun sets => follows_of_mem_followRound hg (firstSound_firstSets hg) hreached

end Grammar

end PredictiveParsing
