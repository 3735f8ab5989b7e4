/-
Module: PredictiveParsing.Proofs.Representation
Layer: Proofs
Purpose: How the containers of a grammar fit together, whatever was done to it. The sets of symbols
  that were met only ever grow, while normalization replaces bodies; still no symbol in them loses
  its last use. A symbol of a body that is substituted stands in the bodies that take its place or
  has a rule; what splitting a nonterminal takes from one part it puts in the other. Since the order
  and the map of alternatives stay in step, nothing that is looked up is missing.
Imports: Mathlib, PredictiveParsing.Proofs.IndexedLookahead, PredictiveParsing.Proofs.IndexedSession
Main exports: Grammar.Uses, Grammar.Tight, Grammar.Tight.normalizationStep,
  Session.Reachable.tight, IndexedGrammar.Coherent, IndexedGrammar.Represents.coherent,
  IndexedGrammar.coherent_run
Open obligations: none
-/
import Mathlib
import PredictiveParsing.Proofs.IndexedLookahead
import PredictiveParsing.Proofs.IndexedSession

namespace PredictiveParsing

namespace Grammar

variable {g h : Grammar} {n : NonTerminal}

/-- The grammar has a use for a symbol: a rule for it or an occurrence in some body. -/
def Uses (g : Grammar) (s : Symbol) : Prop :=
  (∃ n ∈ g.order, s = .nonTerminal n) ∨ ∃ n p, g.Produces n p ∧ s ∈ p

theorem uses_of_mem_order (hn : n ∈ g.order) : g.Uses (.nonTerminal n) := Or.inl ⟨n, hn, rfl⟩

theorem uses_of_mem_body {p : Body} {s : Symbol} (hp : g.Produces n p) (hs : s ∈ p) : g.Uses s :=
  Or.inr ⟨n, p, hp, hs⟩

theorem uses_terminal_iff {c : Char} :
    g.Uses (.terminal c) ↔ ∃ n p, g.Produces n p ∧ .terminal c ∈ p := by
  simp [Uses]

theorem uses_nonTerminal_iff :
    g.Uses (.nonTerminal n) ↔ n ∈ g.order ∨ ∃ m p, g.Produces m p ∧ .nonTerminal n ∈ p := by
  simp [Uses]

/-- The grammar has met no symbols but those it uses. -/
structure Tight (g : Grammar) : Prop where
  terminals_used : ∀ c ∈ g.terminals, g.Uses (.terminal c)
  nonTerminals_used : ∀ n ∈ g.nonTerminals, g.Uses (.nonTerminal n)

theorem tight_empty : (∅ : Grammar).Tight where
  terminals_used := fun c hc => absurd hc (OrderedSet.not_mem_empty c)
  nonTerminals_used := fun n hn => absurd hn (OrderedSet.not_mem_empty n)

/-! ### What becomes of the symbols -/

/-- A symbol of a root is left in some body that remains of the forest, unless it was a nonterminal
that was substituted. -/
theorem uses_of_mem_root (hg : g.WellFormed) {roots : List Body} {forest : Forest}
    (hgrown : Forest.Grown (g.substitutions n) roots forest) {p : Body} (hp : p ∈ roots)
    {s : Symbol} (hs : s ∈ p) :
    (∃ m ∈ g.order, s = .nonTerminal m) ∨ ∃ q ∈ forest.prune n, s ∈ q := by
  induction hgrown generalizing p with
  | nil => cases hp
  | @cons root rest children siblings below beside ihBelow ihBeside =>
      rcases List.mem_cons.1 hp with rfl | hrest
      · cases hexposes : children.exposes n with
        | false => exact Or.inr ⟨p, by simp [Forest.prune, hexposes], hs⟩
        | true =>
            have hchild : ∃ q, q ∈ g.substitutions n p := by
              apply List.exists_mem_of_ne_nil
              intro hleaf
              rw [hleaf] at below
              cases below
              cases hexposes
            obtain ⟨q, hq⟩ := hchild
            obtain ⟨b, tail, r, rfl, hb, _, _, rfl⟩ := (mem_substitutions hg.nodup_order).1 hq
            rcases List.mem_cons.1 hs with rfl | htail
            · exact Or.inl ⟨b, (List.takeWhile_sublist _).subset hb, rfl⟩
            · rcases ihBelow hq (List.mem_append_right r htail) with hold | ⟨q', hq', hs'⟩
              · exact Or.inl hold
              · exact Or.inr ⟨q', by simp [Forest.prune, hexposes, hq'], hs'⟩
      · rcases ihBeside hrest hs with hold | ⟨q, hq, hs'⟩
        · exact Or.inl hold
        · exact Or.inr ⟨q, List.mem_append_right _ hq, hs'⟩

/-- Substitution, which replaces only the alternatives of `n`, leaves a use for every symbol. -/
theorem Uses.expandEarlier (hg : g.WellFormed) {limit : Nat}
    (hexpand : g.expandEarlier limit n = some h) {s : Symbol} (hs : g.Uses s) : h.Uses s := by
  rcases expandEarlier_cases hexpand with rfl | ⟨bodies, forest, hbodies, hgrown, rfl⟩
  · exact hs
  · have hn := mem_order_of_bodies? hbodies
    rcases hs with ⟨m, hm, rfl⟩ | ⟨m, p, hp, hsp⟩
    · exact uses_of_mem_order (by rwa [order_setBodies])
    · by_cases hmn : m = n
      · subst hmn
        have hroot := (produces_iff_of_bodies? hg.nodup_order hbodies).1 hp
        rcases uses_of_mem_root hg hgrown hroot hsp with ⟨b, hb, rfl⟩ | ⟨q, hq, hsq⟩
        · exact uses_of_mem_order (by rwa [order_setBodies])
        · exact uses_of_mem_body
            (produces_setBodies.2 (Or.inr ⟨rfl, hn, OrderedSet.mem_ofList.2 hq⟩)) hsq
      · exact uses_of_mem_body (produces_setBodies.2 (Or.inl ⟨hmn, hp⟩)) hsp

/-- Splitting a nonterminal leaves a use for every symbol if the two parts together do so for those
of its alternatives. -/
theorem Uses.splitOff {base fresh : NonTerminal} {bodies kept moved : OrderedSet Body}
    (hg : g.WellFormed) (hbodies : g.bodies? base = some bodies)
    (hparts : ∀ p ∈ bodies, ∀ s ∈ p, s = .nonTerminal base ∨ ∃ q, (q ∈ kept ∨ q ∈ moved) ∧ s ∈ q)
    {s : Symbol} (hs : g.Uses s) : (g.splitOff base fresh kept moved).Uses s := by
  have hbase := mem_order_of_bodies? hbodies
  have horder : ∀ m ∈ g.order, (g.splitOff base fresh kept moved).Uses (.nonTerminal m) :=
    fun m hm => uses_of_mem_order (mem_order_splitOff.2 (Or.inl hm))
  rcases hs with ⟨m, hm, rfl⟩ | ⟨m, p, hp, hsp⟩
  · exact horder m hm
  · by_cases hm : m = base
    · subst hm
      have hp' := (produces_iff_of_bodies? hg.nodup_order hbodies).1 hp
      rcases hparts p hp' s hsp with rfl | ⟨q, hkept | hmoved, hsq⟩
      · exact horder m hbase
      · exact uses_of_mem_body
          (produces_splitOff.2 (Or.inr ⟨hbase, Or.inl ⟨rfl, hkept⟩⟩)) hsq
      · exact uses_of_mem_body
          (produces_splitOff.2 (Or.inr ⟨hbase, Or.inr ⟨rfl, hmoved⟩⟩)) hsq
    · exact uses_of_mem_body (produces_splitOff.2 (Or.inl ⟨hm, hp⟩)) hsp

/-- The symbols of an alternative that begins with `n` are left in what is repeated, those of any
other are left in front of the new nonterminal. -/
theorem Uses.splitRecursion (hg : g.WellFormed) {bodies : OrderedSet Body}
    (hbodies : g.bodies? n = some bodies) {s : Symbol} (hs : g.Uses s) :
    (g.splitRecursion n).Uses s := by
  rw [splitRecursion_eq hbodies]
  refine hs.splitOff hg hbodies ?_
  intro p hp s hsp
  cases hbegins : p.beginsWith n with
  | true =>
      obtain ⟨tail, rfl⟩ := Body.beginsWith_iff.1 hbegins
      rcases List.mem_cons.1 hsp with rfl | htail
      · exact Or.inl rfl
      · have hmoved : Body.followedBy tail (g.freshFor n) ∈ repeatBodies n (g.freshFor n) bodies :=
          mem_repeatBodies.2 (Or.inr ⟨tail, List.ne_nil_of_mem htail, hp, rfl⟩)
        exact Or.inr ⟨_, Or.inr hmoved, List.mem_append_left _ htail⟩
  | false =>
      have hkept : p.followedBy (g.freshFor n) ∈ baseBodies n (g.freshFor n) bodies :=
        mem_baseBodies.2 (Or.inl ⟨p, hp, hbegins, rfl⟩)
      exact Or.inr ⟨_, Or.inl hkept, List.mem_append_left _ hsp⟩

/-- The symbols of a shared prefix are left in front of the new nonterminal, those behind it in the
remainders. -/
theorem Uses.factorOnce (hg : g.WellFormed) {bodies : OrderedSet Body}
    (hbodies : g.bodies? n = some bodies) {shared : Body} {s : Symbol} (hs : g.Uses s) :
    (g.factorOnce n bodies shared).Uses s := by
  refine hs.splitOff hg hbodies ?_
  intro p hp s hsp
  right
  by_cases hprefix : ∃ rest, p = shared ++ rest
  · obtain ⟨rest, rfl⟩ := hprefix
    rcases List.mem_append.1 hsp with hshared | hrest
    · have hkept : shared.followedBy (g.freshFor n) ∈
          factoredBodies shared (g.freshFor n) bodies :=
        mem_factoredBodies.2 (Or.inr ⟨rfl, rest, hp⟩)
      exact ⟨_, Or.inl hkept, List.mem_append_left _ hshared⟩
    · exact ⟨rest, Or.inr (mem_remainders.2 hp), hrest⟩
  · exact ⟨p, Or.inl (mem_factoredBodies.2 (Or.inl ⟨hp, hprefix⟩)), hsp⟩

/-! ### Symbols that were met -/

namespace Tight

/-- Adding a production meets its symbols, all of which it uses. -/
theorem insert (ht : g.Tight) (head : NonTerminal) (body : Body) :
    (g.insert head body).Tight := by
  have hhead : (g.insert head body).Produces head body := produces_insert.2 (Or.inl ⟨rfl, rfl⟩)
  have hold : ∀ {s}, g.Uses s → (g.insert head body).Uses s := by
    intro s hs
    rcases hs with ⟨m, hm, rfl⟩ | ⟨m, p, hp, hsp⟩
    · apply uses_of_mem_order
      rw [order_insert]
      split
      · exact hm
      · exact List.mem_append_left _ hm
    · exact uses_of_mem_body (produces_insert.2 (Or.inr hp)) hsp
  constructor
  · intro c hc
    rcases OrderedSet.mem_insertAll.1 hc with hmet | hnew
    · exact hold (ht.terminals_used c hmet)
    · exact uses_of_mem_body hhead (Body.mem_terminals.1 hnew)
  · intro m hm
    rcases OrderedSet.mem_insertAll.1 hm with hfirst | hnew
    · rcases OrderedSet.mem_insert.1 hfirst with hmet | rfl
      · exact hold (ht.nonTerminals_used m hmet)
      · exact uses_of_mem_order hhead.mem_order
    · exact uses_of_mem_body hhead (Body.mem_nonTerminals.1 hnew)

/-- A split meets only the new nonterminal, which gets a rule. -/
theorem splitOff {base fresh : NonTerminal} {kept moved : OrderedSet Body} (ht : g.Tight)
    (hbase : base ∈ g.order)
    (huses : ∀ {s}, g.Uses s → (g.splitOff base fresh kept moved).Uses s) :
    (g.splitOff base fresh kept moved).Tight := by
  constructor
  · exact fun c hc => huses (ht.terminals_used c hc)
  · intro m hm
    rcases OrderedSet.mem_insert.1 hm with hmet | rfl
    · exact huses (ht.nonTerminals_used m hmet)
    · exact uses_of_mem_order (mem_order_splitOff.2 (Or.inr ⟨rfl, hbase⟩))

/-- No change made by normalization takes the last use of a symbol away. -/
theorem normalizationStep (hg : g.WellFormed) (ht : g.Tight) (hstep : NormalizationStep g h) :
    h.Tight := by
  cases hstep with
  | expand hexpand =>
      have huses : ∀ {s}, g.Uses s → h.Uses s := fun hs => hs.expandEarlier hg hexpand
      rcases expandEarlier_cases hexpand with rfl | ⟨_, _, _, _, rfl⟩
      · exact ht
      · exact ⟨fun c hc => huses (ht.terminals_used c hc),
          fun m hm => huses (ht.nonTerminals_used m hm)⟩
  | split hrecursive =>
      obtain ⟨bodies, hbodies⟩ := exists_bodies_of_isLeftRecursive hrecursive
      have huses : ∀ {s}, g.Uses s → (g.splitRecursion _).Uses s :=
        fun hs => hs.splitRecursion hg hbodies
      rw [splitRecursion_eq hbodies] at huses ⊢
      exact ht.splitOff (mem_order_of_bodies? hbodies) huses
  | factor hbodies _ =>
      exact ht.splitOff (mem_order_of_bodies? hbodies) fun hs => hs.factorOnce hg hbodies

end Tight

end Grammar

namespace Session

open Grammar

variable {s : Session}

theorem Reachable.tight (hs : s.Reachable) : s.grammar.Tight := by
  have hboth : s.grammar.WellFormed ∧ s.grammar.Tight :=
    hs.grammar_induction (P := fun g => g.WellFormed ∧ g.Tight) ⟨wellFormed_empty, tight_empty⟩
      (fun _ head cs hg => ⟨hg.1.insert head cs, hg.2.insert head (Body.read cs)⟩)
      (fun _ _ hg hstep => ⟨hg.1.normalizationStep hstep, hg.2.normalizationStep hg.1 hstep⟩)
  exact hboth.2

end Session

/-! ### The containers -/

namespace IndexedGrammar

/-- The map has a body among the alternatives of a nonterminal. -/
def Holds (c : IndexedGrammar) (n : NonTerminal) (p : Body) : Prop :=
  ∃ bodies, c.productions.get? n = some bodies ∧ p ∈ bodies

/-- How the containers fit together. -/
structure Coherent (c : IndexedGrammar) : Prop where
  /-- No nonterminal stands in the order twice. -/
  nodup_order : c.order.Nodup
  /-- The nonterminals of the order are those that have an entry in the map. -/
  mem_order_iff : ∀ n, n ∈ c.order ↔ n ∈ c.productions.keys
  bodies_ne_empty : ∀ n bodies, c.productions.get? n = some bodies → bodies ≠ ∅
  /-- No mark for the empty body stands in a body. -/
  marks_not_mem : ∀ n p, c.Holds n p → .terminal '&' ∉ p ∧ .terminal emptyMark ∉ p
  mem_terminals_iff : ∀ t, t ∈ c.terminals ↔ ∃ n p, c.Holds n p ∧ .terminal t ∈ p
  mem_nonTerminals_iff : ∀ n,
    n ∈ c.nonTerminals ↔ n ∈ c.order ∨ ∃ m p, c.Holds m p ∧ .nonTerminal n ∈ p

variable {c : IndexedGrammar} {g : Grammar}

namespace Represents

theorem holds_iff (h : c.Represents g) (hnodup : g.order.Nodup) {n : NonTerminal} {p : Body} :
    c.Holds n p ↔ g.Produces n p := by
  constructor
  · intro hp
    obtain ⟨bodies, hbodies, hmem⟩ := hp
    rw [h.get?_eq] at hbodies
    exact (Grammar.produces_iff_of_bodies? hnodup hbodies).2 hmem
  · intro hp
    obtain ⟨bodies, hbodies⟩ := Grammar.exists_bodies_of_mem_order hp.mem_order
    exact ⟨bodies, (h.get?_eq n).trans hbodies,
      (Grammar.produces_iff_of_bodies? hnodup hbodies).1 hp⟩

/-- Containers that represent a grammar are coherent if the grammar has met the symbols that it
uses, and no others. -/
theorem coherent (h : c.Represents g) (hg : g.WellFormed) (ht : g.Tight) : c.Coherent where
  nodup_order := h.order_eq ▸ hg.nodup_order
  mem_order_iff := fun _ => h.mem_keys_iff.symm
  bodies_ne_empty := by
    intro n bodies hbodies hempty
    rw [h.get?_eq] at hbodies
    obtain ⟨p, hp⟩ := hg.exists_body n (Grammar.mem_order_of_bodies? hbodies)
    rw [Grammar.produces_iff_of_bodies? hg.nodup_order hbodies, hempty] at hp
    exact OrderedSet.not_mem_empty p hp
  marks_not_mem := by
    intro n p hp
    rw [h.holds_iff hg.nodup_order] at hp
    constructor
    · exact fun hmem => Bool.noConfusion (hg.body_met n p hp _ hmem).2
    · exact hg.emptyMark_not_mem hp
  mem_terminals_iff := by
    intro t
    simp only [h.terminals_eq, h.holds_iff hg.nodup_order]
    constructor
    · exact fun hmem => Grammar.uses_terminal_iff.1 (ht.terminals_used t hmem)
    · intro hmem
      obtain ⟨n, p, hp, hin⟩ := hmem
      exact (hg.body_met n p hp _ hin).1
  mem_nonTerminals_iff := by
    intro n
    simp only [h.nonTerminals_eq, h.order_eq, h.holds_iff hg.nodup_order]
    constructor
    · exact fun hn => Grammar.uses_nonTerminal_iff.1 (ht.nonTerminals_used n hn)
    · intro hn
      rcases hn with horder | ⟨m, p, hp, hmem⟩
      · exact hg.order_met n horder
      · exact hg.body_met m p hp _ hmem

end Represents

/-- The containers fit together after any sequence of operations, failed ones included, and hold the
grammar of the session. So what the computation of lookahead sets looks up without asking is there:
the alternatives of each nonterminal of the order, and the FOLLOW sets of the start symbol at first
and of each left side in every round. -/
theorem coherent_run (operations : List Operation) :
    let c := run operations
    let s := Session.run operations
    c.Coherent ∧ c.Represents s.grammar ∧ c.lookahead? = some s.grammar.lookahead := by
  intro c s
  have hs : s.Reachable := Session.reachable_run operations
  have hrepresents : c.Represents s.grammar := represents_run operations
  exact ⟨hrepresents.coherent hs.wellFormed hs.tight, hrepresents,
    hrepresents.lookahead?_eq hs.wellFormed⟩

/-- A primed name that is merely used is not taken for the new nonterminal and does not lose its
only use; the faulty line that is added last changes nothing. -/
example :
    let c := run [.insertLine "A->A", .insertLine "A->Ab", .insertLine "A->A'c",
      .normalizeWithin 100, .insertLine "a->b"]
    (c.order, c.nonTerminals.toList) = ([⟨'A', 0, rfl⟩, ⟨'A', 2, rfl⟩],
      [⟨'A', 0, rfl⟩, ⟨'A', 1, rfl⟩, ⟨'A', 2, rfl⟩]) := by
  cbv

end IndexedGrammar

end PredictiveParsing
