/-
Module: PredictiveParsing.Proofs.IndexedGrammar
Layer: Proofs
Purpose: When two containers represent a grammar. The list then holds its nonterminals in order, and
  looking up a nonterminal in the map finds the alternatives of its rule; so the map and the list
  are in step. Each group of primitive changes that an operation makes keeps them in step and does
  to the containers what the operation does to the grammar.
Imports: PredictiveParsing.Grammar.Indexed, PredictiveParsing.Proofs.Frame,
  PredictiveParsing.Proofs.GrammarText
Main exports: IndexedGrammar.Represents, IndexedGrammar.Represents.insert,
  IndexedGrammar.Represents.setProductions, IndexedGrammar.Represents.freshNonTerminal,
  IndexedGrammar.Represents.split, IndexedGrammar.Represents.size_eq, IndexedGrammar.agrees_parse
Open obligations: none
-/
import PredictiveParsing.Grammar.Indexed
import PredictiveParsing.Proofs.Frame
import PredictiveParsing.Proofs.GrammarText

namespace PredictiveParsing

namespace Grammar

variable {g : Grammar} {base fresh : NonTerminal} {kept moved : OrderedSet Body}

/-- To split a nonterminal is to create the new one without alternatives and then to set those of
both. -/
theorem setBodies_setBodies_splitOff (hfresh : fresh ∉ g.order) (hbase : base ∈ g.order)
    {old : OrderedSet Body} :
    ((g.splitOff base fresh old ∅).setBodies base kept).setBodies fresh moved =
      g.splitOff base fresh kept moved := by
  have hne : base ≠ fresh := fun e => hfresh (e ▸ hbase)
  simp only [splitOff, setBodies, List.map_map, List.map_flatMap, Grammar.mk.injEq, and_true]
  apply List.flatMap_congr
  intro rule hrule
  have hrule' : rule.head ≠ fresh := fun e => hfresh (mem_order_iff.2 ⟨rule, hrule, e⟩)
  by_cases h : rule.head = base
  · simp [h, hne, hne.symm]
  · simp [h, hrule']

/-- Which symbols were met depends on the two sets of them only. -/
theorem meets_congr {h : Grammar} (hnonTerminals : g.nonTerminals = h.nonTerminals)
    (hterminals : g.terminals = h.terminals) {s : Symbol} : g.Meets s ↔ h.Meets s := by
  cases s with
  | nonTerminal m => rw [Meets, Meets, hnonTerminals]
  | terminal t => rw [Meets, Meets, hterminals]

end Grammar

namespace IndexedGrammar

variable {c : IndexedGrammar} {g : Grammar} {n : NonTerminal}

/-! ### Primitive changes -/

/-- The containers have met a symbol. -/
def Meets (c : IndexedGrammar) : Symbol → Prop
  | .nonTerminal n => n ∈ c.nonTerminals
  | .terminal t => t ∈ c.terminals

/-- Symbols that were met keep their places when they are met again. -/
theorem meet_eq_self {p : Body} (hmet : ∀ s ∈ p, c.Meets s) : c.meet p = c := by
  have hnonTerminals : c.nonTerminals.insertAll p.nonTerminals = c.nonTerminals :=
    OrderedSet.insertAll_of_subset fun _ hm => hmet _ (Body.mem_nonTerminals.1 hm)
  have hterminals : c.terminals.insertAll p.terminals = c.terminals :=
    OrderedSet.insertAll_of_subset fun _ ht => hmet _ (Body.mem_terminals.1 ht)
  rw [meet, hnonTerminals, hterminals]

/-- Bodies without new symbols are written to the map, and that is all. -/
theorem setProductions_eq {bodies : OrderedSet Body} (hmet : ∀ p ∈ bodies, ∀ s ∈ p, c.Meets s) :
    c.setProductions n bodies = { c with productions := c.productions.insert n bodies } := by
  have hfold : ∀ list : List Body, (∀ p ∈ list, ∀ s ∈ p, c.Meets s) → list.foldl meet c = c := by
    intro list hlist
    induction list with
    | nil => rfl
    | cons p rest ih =>
        rw [List.foldl_cons, meet_eq_self (hlist p List.mem_cons_self)]
        exact ih fun q hq => hlist q (List.mem_cons_of_mem _ hq)
  rw [setProductions, hfold bodies.toList hmet]

theorem place?_eq_some_iff (hnodup : c.order.Nodup) {place : Nat} :
    c.place? n = some place ↔ c.order[place]? = some n := by
  rw [place?, List.findIdx?_eq_some_iff_getElem, List.getElem?_eq_some_iff]
  refine exists_congr fun hlt => ?_
  simp only [decide_eq_true_eq]
  refine and_iff_left_of_imp fun hplace j hj heq => ?_
  have hsame := (List.Nodup.getElem_inj_iff hnodup).1 (heq.trans hplace.symm)
  exact absurd hsame (Nat.ne_of_lt hj)

theorem place?_eq_none_iff : c.place? n = none ↔ n ∉ c.order := by
  rw [place?, List.findIdx?_eq_none_iff]
  constructor
  · intro h hn
    simpa using h n hn
  · intro h m hm
    have hne : m ≠ n := fun e => h (e ▸ hm)
    simpa using hne

/-- Inserting right behind a member of a list. -/
theorem insertIdx_behind {order : List NonTerminal} {place : Nat} (hplace : order[place]? = some n)
    (fresh : NonTerminal) : order.insertIdx (place + 1) fresh =
      order.take place ++ n :: fresh :: order.drop (place + 1) := by
  induction order generalizing place with
  | nil => cases hplace
  | cons m rest ih =>
      cases place with
      | zero =>
          rw [List.getElem?_cons_zero] at hplace
          cases hplace
          rfl
      | succ place =>
          rw [List.getElem?_cons_succ] at hplace
          rw [List.insertIdx_succ_cons, ih hplace]
          rfl

/-! ### Representation -/

/-- The containers hold a grammar: the list has its nonterminals in order, and the map has their
alternatives and no other entries. -/
structure Represents (c : IndexedGrammar) (g : Grammar) : Prop where
  order_eq : c.order = g.order
  get?_eq : ∀ n, c.productions.get? n = g.bodies? n
  nonTerminals_eq : c.nonTerminals = g.nonTerminals
  terminals_eq : c.terminals = g.terminals
  lineage_eq : c.lineage = g.lineage

theorem represents_empty : (∅ : IndexedGrammar).Represents ∅ :=
  ⟨rfl, fun _ => rfl, rfl, rfl, rfl⟩

namespace Represents

/-- The map and the list are in step. -/
theorem mem_keys_iff (h : c.Represents g) : n ∈ c.productions.keys ↔ n ∈ c.order := by
  rw [← not_iff_not, ← OrderedMap.get?_eq_none, h.get?_eq, Grammar.bodies?_eq_none_iff, h.order_eq]

theorem freshFor_eq (h : c.Represents g) (base : NonTerminal) :
    c.freshFor base = g.freshFor base := by
  rw [freshFor, Grammar.freshFor, h.nonTerminals_eq]

theorem meets (h : c.Represents g) {s : Symbol} (hs : g.Meets s) : c.Meets s := by
  cases s with
  | nonTerminal m =>
      show m ∈ c.nonTerminals
      rw [h.nonTerminals_eq]
      exact hs
  | terminal t =>
      show t ∈ c.terminals
      rw [h.terminals_eq]
      exact hs.1

theorem isLeftRecursive_eq (h : c.Represents g) (n : NonTerminal) :
    c.isLeftRecursive n = g.isLeftRecursive n := by
  rw [isLeftRecursive, Grammar.isLeftRecursive, h.get?_eq]

/-- The entries of the map are those of the rules, though perhaps in another order. -/
theorem perm_rules (h : c.Represents g) (hnodup : g.order.Nodup) :
    c.productions.toList.Perm (g.rules.map fun rule => (rule.head, rule.bodies)) := by
  have hrules : (g.rules.map fun rule => (rule.head, rule.bodies)).Nodup := by
    apply List.Nodup.of_map Prod.fst
    rw [List.map_map]
    exact hnodup
  rw [List.perm_ext_iff_of_nodup (List.Nodup.of_map _ c.productions.nodup_keys) hrules]
  rintro ⟨n, bodies⟩
  rw [← OrderedMap.get?_eq_some, h.get?_eq]
  constructor
  · intro hbodies
    exact List.mem_map.2 ⟨_, Grammar.rule_mem_of_bodies? hbodies, rfl⟩
  · intro hmem
    obtain ⟨rule, hrule, heq⟩ := List.mem_map.1 hmem
    cases heq
    exact Grammar.bodies?_of_mem_rules hnodup hrule

/-- Counting in the map counts all productions. -/
theorem size_eq (h : c.Represents g) (hnodup : g.order.Nodup) : c.size = g.size := by
  have hcomm : ∀ first ∈ c.productions.toList, ∀ second ∈ c.productions.toList, ∀ sum : Nat,
      second.2.size + (first.2.size + sum) = first.2.size + (second.2.size + sum) := by
    intros
    omega
  rw [size, (h.perm_rules hnodup).foldr_eq' hcomm, List.foldr_map]
  rfl

/-- A nonterminal that is added together with its first production goes to the map and to the end of
the list; one that is there already stays where it is. -/
theorem insert (h : c.Represents g) (hmet : ∀ n ∈ g.order, n ∈ g.nonTerminals) (head : NonTerminal)
    (body : Body) : (c.insert head body).Represents (g.insert head body) := by
  by_cases hmem : head ∈ c.productions.keys
  · have hadd : c.addNonTerminal head = c := if_pos hmem
    have horder : head ∈ g.order := h.order_eq ▸ h.mem_keys_iff.1 hmem
    have hfirst : g.nonTerminals.insert head = g.nonTerminals :=
      OrderedSet.insert_of_mem (hmet head horder)
    rw [IndexedGrammar.insert, hadd]
    constructor
    · rw [Grammar.order_insert, if_pos horder]
      exact h.order_eq
    · intro m
      rw [Grammar.bodies?_insert, ← h.get?_eq, ← h.get?_eq]
      exact (OrderedMap.get?_insert _ _ _ _).trans (if_congr eq_comm rfl rfl)
    · show c.nonTerminals.insertAll body.nonTerminals =
        (g.nonTerminals.insert head).insertAll body.nonTerminals
      rw [hfirst, h.nonTerminals_eq]
    · show c.terminals.insertAll body.terminals = g.terminals.insertAll body.terminals
      rw [h.terminals_eq]
    · exact h.lineage_eq
  · have horder : head ∉ g.order := fun hin => hmem (h.mem_keys_iff.2 (h.order_eq ▸ hin))
    have hnone : g.bodies? head = none := Grammar.bodies?_eq_none_iff.2 horder
    have hadd : c.addNonTerminal head = _ := if_neg hmem
    rw [IndexedGrammar.insert, hadd]
    constructor
    · rw [Grammar.order_insert, if_neg horder]
      exact congrArg (· ++ [head]) h.order_eq
    · intro m
      show ((c.productions.insert head ∅).insert head
        (((c.productions.insert head ∅).getD head ∅).insert body)).get? m = _
      rw [Grammar.bodies?_insert, hnone, OrderedMap.get?_insert, OrderedMap.getD,
        OrderedMap.get?_insert, OrderedMap.get?_insert, if_pos rfl]
      by_cases hm : head = m
      · simp [hm]
      · rw [if_neg hm, if_neg hm, if_neg (Ne.symm hm), h.get?_eq]
    · show (c.nonTerminals.insert head).insertAll body.nonTerminals = _
      rw [h.nonTerminals_eq]
      rfl
    · show c.terminals.insertAll body.terminals = g.terminals.insertAll body.terminals
      rw [h.terminals_eq]
    · exact h.lineage_eq

/-- Replacing alternatives changes one entry of the map, if no symbol is new. -/
theorem setProductions (h : c.Represents g) (hnodup : g.order.Nodup) (hn : n ∈ g.order)
    {bodies : OrderedSet Body} (hmet : ∀ p ∈ bodies, ∀ s ∈ p, g.Meets s) :
    (c.setProductions n bodies).Represents (g.setBodies n bodies) := by
  have hmet' : ∀ p ∈ bodies, ∀ s ∈ p, c.Meets s := fun p hp s hs => h.meets (hmet p hp s hs)
  rw [setProductions_eq hmet']
  constructor
  · rw [Grammar.order_setBodies]
    exact h.order_eq
  · intro m
    rw [Grammar.bodies?_setBodies hnodup hn, ← h.get?_eq]
    exact OrderedMap.get?_insert _ _ _ _
  · exact h.nonTerminals_eq
  · exact h.terminals_eq
  · exact h.lineage_eq

/-- The new nonterminal is entered in the map and in the list; it has no alternatives yet, and those
of the other one are the old ones. -/
theorem freshNonTerminal (h : c.Represents g) (hg : g.WellFormed) {base : NonTerminal}
    {old : OrderedSet Body} (hold : g.bodies? base = some old) :
    (c.freshNonTerminal base).Represents (g.splitOff base (g.freshFor base) old ∅) := by
  have hbase : base ∈ g.order := Grammar.mem_order_of_bodies? hold
  obtain ⟨place, hplace⟩ := List.getElem?_of_mem hbase
  have hplace' : c.place? base = some place := by
    rw [place?_eq_some_iff (h.order_eq ▸ hg.nodup_order), h.order_eq]
    exact hplace
  rw [IndexedGrammar.freshNonTerminal, hplace', h.freshFor_eq]
  constructor
  · rw [Grammar.order_splitOff_of_getElem? hg.nodup_order hplace, h.order_eq]
    exact insertIdx_behind hplace _
  · intro m
    rw [Grammar.bodies?_splitOff hg.nodup_order (hg.freshFor_not_mem_order base) hbase,
      OrderedMap.get?_insert, h.get?_eq]
    split
    · rfl
    · split
      · next hm => rw [← hm, hold]
      · rfl
  · exact congrArg (OrderedSet.insert · _) h.nonTerminals_eq
  · exact h.terminals_eq
  · exact congrArg ((g.freshFor base, base) :: ·) h.lineage_eq

/-- Once both parts have got their alternatives, the nonterminal is split. -/
theorem split (h : c.Represents g) (hg : g.WellFormed) {base : NonTerminal}
    {old kept moved : OrderedSet Body} (hold : g.bodies? base = some old)
    (hsplit : (g.splitOff base (g.freshFor base) kept moved).WellFormed) :
    (((c.freshNonTerminal base).setProductions base kept).setProductions (c.freshFor base)
      moved).Represents (g.splitOff base (g.freshFor base) kept moved) := by
  have hbase : base ∈ g.order := Grammar.mem_order_of_bodies? hold
  have hfresh : g.freshFor base ∉ g.order := hg.freshFor_not_mem_order base
  have hnodup : (g.splitOff base (g.freshFor base) old ∅).order.Nodup :=
    Grammar.nodup_order_splitOff hg.nodup_order hfresh
  rw [h.freshFor_eq, ← Grammar.setBodies_setBodies_splitOff hfresh hbase]
  refine ((h.freshNonTerminal hg hold).setProductions hnodup ?_ ?_).setProductions ?_ ?_ ?_
  · exact Grammar.mem_order_splitOff.2 (Or.inl hbase)
  · intro p hp s hs
    have hmet := hsplit.body_met base p
      (Grammar.produces_splitOff.2 (Or.inr ⟨hbase, Or.inl ⟨rfl, hp⟩⟩)) s hs
    exact (Grammar.meets_congr rfl rfl).1 hmet
  · rw [Grammar.order_setBodies]
    exact hnodup
  · rw [Grammar.order_setBodies]
    exact Grammar.mem_order_splitOff.2 (Or.inr ⟨rfl, hbase⟩)
  · intro p hp s hs
    have hmet := hsplit.body_met (g.freshFor base) p
      (Grammar.produces_splitOff.2 (Or.inr ⟨hbase, Or.inr ⟨rfl, hp⟩⟩)) s hs
    exact (Grammar.meets_congr rfl rfl).1 hmet

end Represents

/-! ### Reading -/

/-- Both readings fail for the same reason, or the containers that are read hold the grammar. -/
inductive Agrees : Except GrammarError IndexedGrammar → Except GrammarError Grammar → Prop where
  | ok {c : IndexedGrammar} {g : Grammar} (h : c.Represents g) : Agrees (.ok c) (.ok g)
  | error (e : GrammarError) : Agrees (.error e) (.error e)

theorem Represents.insertLine (h : c.Represents g) (hmet : ∀ n ∈ g.order, n ∈ g.nonTerminals)
    (line : String) : Agrees (c.insertLine line) (g.insertLine line) := by
  unfold IndexedGrammar.insertLine Grammar.insertLine
  dsimp only
  cases NonTerminal.ofChars? ((Text.splitArrow line.toList).getD (line.toList, [])).1 with
  | none => exact .error _
  | some head => exact .ok (h.insert hmet head _)

/-- Valid lines are added to both. -/
theorem Represents.foldlM_insertLine {lines : List ProductionLine}
    (hlines : ∀ line ∈ lines, line.Valid) (h : c.Represents g) (hg : g.WellFormed) :
    Agrees ((lines.map fun line => String.ofList line.content).foldlM IndexedGrammar.insertLine c)
      (.ok (lines.foldl (fun g line => g.insert line.head (Body.read line.right)) g)) := by
  induction lines generalizing c g with
  | nil => exact .ok h
  | cons line rest ih =>
      obtain ⟨hline, hrest⟩ := List.forall_mem_cons.1 hlines
      have hagrees := h.insertLine hg.order_met (String.ofList line.content)
      rw [hline.insertLine] at hagrees
      rw [List.map_cons, List.foldlM_cons, List.foldl_cons]
      generalize c.insertLine (String.ofList line.content) = added at hagrees ⊢
      cases hagrees with
      | ok hrepresents => exact ih hrest hrepresents (hg.insert line.head line.right)

/-- A text is read in the same way into containers as into a grammar. -/
theorem agrees_parse (text : String) : Agrees (parse text) (Grammar.parse text) := by
  unfold parse Grammar.parse
  cases hvalidate : Grammar.validate text with
  | error e => exact .error e
  | ok lines =>
      have hlines : ∀ line ∈ lines, line.Valid := (Grammar.validate_eq_ok_iff.1 hvalidate).2
      exact represents_empty.foldlM_insertLine hlines Grammar.wellFormed_empty

end IndexedGrammar

end PredictiveParsing
