/-
Module: PredictiveParsing.Proofs.Productions
Layer: Proofs
Purpose: What the elementary changes of a grammar do to its productions and to the order of its
  nonterminals: adding a production, replacing the alternatives of a nonterminal, and splitting a
  nonterminal in two. Later proofs speak of productions only and do not look at lists of rules.
Imports: Mathlib.Data.List.Nodup, PredictiveParsing.Proofs.Derivation
Main exports: Grammar.produces_insert, Grammar.produces_setBodies, Grammar.produces_splitOff,
  Grammar.produces_iff_of_bodies?, Grammar.takeWhile_order, Grammar.nodup_order_splitOff,
  Grammar.place_splitOff, Grammar.undefined_splitOff
Open obligations: none
-/
import Mathlib.Data.List.Nodup
import PredictiveParsing.Proofs.Derivation

namespace PredictiveParsing.Grammar

variable {g : Grammar}

theorem mem_order_iff {n : NonTerminal} : n ∈ g.order ↔ ∃ rule ∈ g.rules, rule.head = n :=
  List.mem_map

/-! ### Looking up alternatives -/

theorem bodies?_eq_none_iff {n : NonTerminal} : g.bodies? n = none ↔ n ∉ g.order := by
  simp [bodies?, rule?, order]

/-- The alternatives that are found are those of a rule. -/
theorem rule_mem_of_bodies? {n : NonTerminal} {bodies : OrderedSet Body}
    (h : g.bodies? n = some bodies) : ⟨n, bodies⟩ ∈ g.rules := by
  obtain ⟨rule, hrule, rfl⟩ := Option.map_eq_some_iff.1 h
  have hhead : rule.head = n := by simpa using List.find?_some hrule
  subst hhead
  exact List.mem_of_find?_eq_some hrule

theorem exists_bodies_of_mem_order {n : NonTerminal} (hn : n ∈ g.order) :
    ∃ bodies, g.bodies? n = some bodies :=
  Option.ne_none_iff_exists'.1 fun hnone => bodies?_eq_none_iff.1 hnone hn

theorem mem_order_of_bodies? {n : NonTerminal} {bodies : OrderedSet Body}
    (h : g.bodies? n = some bodies) : n ∈ g.order :=
  mem_order_iff.2 ⟨_, rule_mem_of_bodies? h, rfl⟩

/-! ### Places in the order -/

theorem order_eq_of_getElem? {n : NonTerminal} {place : Nat} (h : g.order[place]? = some n) :
    g.order = g.order.take place ++ n :: g.order.drop (place + 1) := by
  obtain ⟨hlt, hget⟩ := List.getElem?_eq_some_iff.1 h
  rw [← hget, ← List.drop_eq_getElem_cons hlt, List.take_append_drop]

/-- Without repetitions, a nonterminal stands before or behind another one and not on both sides. -/
theorem not_mem_take_drop (hnodup : g.order.Nodup) {n : NonTerminal} {place : Nat}
    (h : g.order[place]? = some n) :
    n ∉ g.order.take place ∧ n ∉ g.order.drop (place + 1) ∧
      ∀ m ∈ g.order.take place, m ∉ g.order.drop (place + 1) := by
  rw [order_eq_of_getElem? h, List.nodup_append, List.nodup_cons] at hnodup
  obtain ⟨_, ⟨hafter, _⟩, hdisjoint⟩ := hnodup
  exact ⟨fun hmem => hdisjoint n hmem n List.mem_cons_self rfl, hafter,
    fun m hm hmem => hdisjoint m hm m (List.mem_cons_of_mem _ hmem) rfl⟩

theorem takeWhile_order (hnodup : g.order.Nodup) {n : NonTerminal} {place : Nat}
    (h : g.order[place]? = some n) : g.order.takeWhile (· ≠ n) = g.order.take place := by
  have hbefore : ∀ m ∈ g.order.take place, decide (m ≠ n) = true := by
    intro m hm
    have hne : m ≠ n := fun e => (not_mem_take_drop hnodup h).1 (e ▸ hm)
    simpa using hne
  conv_lhs => rw [order_eq_of_getElem? h]
  rw [List.takeWhile_append_of_pos hbefore, List.takeWhile_cons_of_neg (by simp), List.append_nil]

/-! ### Productions of a rule -/

/-- With distinct heads a rule is determined by its head. -/
theorem rule_eq_of_head_eq (hnodup : g.order.Nodup) {rule rule' : Rule} (h : rule ∈ g.rules)
    (h' : rule' ∈ g.rules) (hhead : rule.head = rule'.head) : rule = rule' :=
  List.inj_on_of_nodup_map hnodup h h' hhead

/-- With distinct heads the productions of a nonterminal are the alternatives found for it. -/
theorem produces_iff_of_bodies? (hnodup : g.order.Nodup) {n : NonTerminal}
    {bodies : OrderedSet Body} (h : g.bodies? n = some bodies) {p : Body} :
    g.Produces n p ↔ p ∈ bodies := by
  have hmem := rule_mem_of_bodies? h
  constructor
  · intro hp
    obtain ⟨rule, hrule, hhead, hbody⟩ := hp
    have hrule' : rule = ⟨n, bodies⟩ := rule_eq_of_head_eq hnodup hrule hmem hhead
    rw [hrule'] at hbody
    exact hbody
  · intro hp
    exact ⟨_, hmem, rfl, hp⟩

/-! ### Adding a production -/

theorem mem_addBody {head : NonTerminal} {body : Body} {rules : List Rule} {n : NonTerminal}
    {p : Body} :
    (∃ rule ∈ addBody head body rules, rule.head = n ∧ p ∈ rule.bodies) ↔
      (n = head ∧ p = body) ∨ ∃ rule ∈ rules, rule.head = n ∧ p ∈ rule.bodies := by
  induction rules with
  | nil => simp [addBody, eq_comm]
  | cons rule rest ih =>
      by_cases h : rule.head = head
      · subst h
        simp only [addBody, if_true, List.mem_cons, or_and_right, exists_or, exists_eq_left,
          OrderedSet.mem_insert, and_or_left, eq_comm (b := n)]
        rw [or_comm (a := n = rule.head ∧ p ∈ rule.bodies), or_assoc]
      · simp only [addBody, h, if_false, List.mem_cons, or_and_right, exists_or, exists_eq_left, ih]
        exact or_left_comm

theorem produces_insert {head n : NonTerminal} {body p : Body} :
    (g.insert head body).Produces n p ↔ (n = head ∧ p = body) ∨ g.Produces n p := mem_addBody

theorem map_head_addBody (head : NonTerminal) (body : Body) (rules : List Rule) :
    (addBody head body rules).map Rule.head =
      if head ∈ rules.map Rule.head then rules.map Rule.head
      else rules.map Rule.head ++ [head] := by
  induction rules with
  | nil => rfl
  | cons rule rest ih =>
      by_cases h : rule.head = head
      · simp [addBody, h]
      · have h' : head ≠ rule.head := fun e => h e.symm
        by_cases hmem : head ∈ rest.map Rule.head <;> simp_all [addBody]

/-- A nonterminal that gets its first production goes to the end of the order. -/
theorem order_insert (head : NonTerminal) (body : Body) :
    (g.insert head body).order = if head ∈ g.order then g.order else g.order ++ [head] :=
  map_head_addBody head body g.rules

/-! ### Replacing alternatives -/

theorem produces_setBodies {n m : NonTerminal} {bodies : OrderedSet Body} {p : Body} :
    (g.setBodies n bodies).Produces m p ↔
      (m ≠ n ∧ g.Produces m p) ∨ (m = n ∧ n ∈ g.order ∧ p ∈ bodies) := by
  constructor
  · intro h
    obtain ⟨rule', hrule', hhead, hp⟩ := h
    obtain ⟨rule, hrule, rfl⟩ := List.mem_map.1 hrule'
    by_cases h : rule.head = n
    · rw [if_pos h] at hhead hp
      exact Or.inr ⟨hhead ▸ h, mem_order_iff.2 ⟨rule, hrule, h⟩, hp⟩
    · rw [if_neg h] at hhead hp
      exact Or.inl ⟨hhead ▸ h, rule, hrule, hhead, hp⟩
  · intro h
    rcases h with ⟨hne, rule, hrule, rfl, hp⟩ | ⟨rfl, hmem, hp⟩
    · exact ⟨rule, List.mem_map.2 ⟨rule, hrule, if_neg hne⟩, rfl, hp⟩
    · obtain ⟨rule, hrule, rfl⟩ := mem_order_iff.1 hmem
      exact ⟨_, List.mem_map.2 ⟨rule, hrule, if_pos rfl⟩, rfl, hp⟩

/-! ### Splitting a nonterminal -/

section SplitOff

variable {base fresh : NonTerminal} {kept moved : OrderedSet Body}

theorem produces_splitOff {m : NonTerminal} {p : Body} :
    (g.splitOff base fresh kept moved).Produces m p ↔
      (m ≠ base ∧ g.Produces m p) ∨
        (base ∈ g.order ∧ ((m = base ∧ p ∈ kept) ∨ (m = fresh ∧ p ∈ moved))) := by
  constructor
  · intro h
    obtain ⟨rule', hrule', hhead, hp⟩ := h
    obtain ⟨rule, hrule, hmem⟩ := List.mem_flatMap.1 hrule'
    by_cases h : rule.head = base
    · rw [if_pos h, List.mem_cons, List.mem_singleton] at hmem
      refine Or.inr ⟨mem_order_iff.2 ⟨rule, hrule, h⟩, ?_⟩
      rcases hmem with rfl | rfl
      · exact Or.inl ⟨hhead.symm, hp⟩
      · exact Or.inr ⟨hhead.symm, hp⟩
    · rw [if_neg h, List.mem_singleton] at hmem
      subst hmem
      exact Or.inl ⟨hhead ▸ h, rule', hrule, hhead, hp⟩
  · intro h
    rcases h with ⟨hne, rule, hrule, rfl, hp⟩ | ⟨hbase, hnew⟩
    · exact ⟨rule, List.mem_flatMap.2 ⟨rule, hrule, by simp [hne]⟩, rfl, hp⟩
    · obtain ⟨rule, hrule, rfl⟩ := mem_order_iff.1 hbase
      rcases hnew with ⟨rfl, hp⟩ | ⟨rfl, hp⟩
      · exact ⟨⟨rule.head, kept⟩, List.mem_flatMap.2 ⟨rule, hrule, by simp⟩, rfl, hp⟩
      · exact ⟨⟨m, moved⟩, List.mem_flatMap.2 ⟨rule, hrule, by simp⟩, rfl, hp⟩

/-- The names that stand in an order after `base` was split. -/
theorem mem_flatMap_pair {order : List NonTerminal} {m : NonTerminal} :
    m ∈ order.flatMap (fun n => if n = base then [base, fresh] else [n]) ↔
      m ∈ order ∨ (m = fresh ∧ base ∈ order) := by
  rw [List.mem_flatMap]
  constructor
  · intro h
    obtain ⟨n, hn, hm⟩ := h
    by_cases h : n = base
    · subst h
      rw [if_pos rfl, List.mem_cons, List.mem_singleton] at hm
      rcases hm with rfl | rfl
      · exact Or.inl hn
      · exact Or.inr ⟨rfl, hn⟩
    · rw [if_neg h, List.mem_singleton] at hm
      exact Or.inl (hm ▸ hn)
  · intro h
    rcases h with hm | ⟨rfl, hbase⟩
    · refine ⟨m, hm, ?_⟩
      by_cases h : m = base <;> simp [h]
    · exact ⟨base, hbase, by simp⟩

theorem nodup_flatMap_pair {order : List NonTerminal} (hnodup : order.Nodup)
    (hfresh : fresh ∉ order) :
    (order.flatMap fun n => if n = base then [base, fresh] else [n]).Nodup := by
  induction order with
  | nil => simp
  | cons n rest ih =>
      obtain ⟨hn, hrest⟩ := List.nodup_cons.1 hnodup
      obtain ⟨hne, hfresh'⟩ := List.ne_and_not_mem_of_not_mem_cons hfresh
      rw [List.flatMap_cons, List.nodup_append]
      by_cases h : n = base
      · -- `base` does not occur again, so the fresh name is added here only.
        subst h
        refine ⟨by simpa using Ne.symm hne, ih hrest hfresh', ?_⟩
        intro a ha b hb hab
        rw [if_pos rfl, List.mem_cons, List.mem_singleton] at ha
        have hold : b ∈ rest := by simpa [hn] using mem_flatMap_pair.1 hb
        rcases ha with rfl | rfl
        · exact hn (hab ▸ hold)
        · exact hfresh' (hab ▸ hold)
      · refine ⟨by simp [h], ih hrest hfresh', ?_⟩
        intro a ha b hb hab
        rw [if_neg h, List.mem_singleton] at ha
        subst ha
        rcases mem_flatMap_pair.1 hb with hold | ⟨hb', _⟩
        · exact hn (hab ▸ hold)
        · exact hne (hb'.symm.trans hab.symm)

theorem mem_order_splitOff {m : NonTerminal} :
    m ∈ (g.splitOff base fresh kept moved).order ↔
      m ∈ g.order ∨ (m = fresh ∧ base ∈ g.order) := by
  rw [order_splitOff]
  exact mem_flatMap_pair

/-- Splitting leaves the nonterminal of the first rule in front. -/
theorem start?_splitOff : (g.splitOff base fresh kept moved).start? = g.start? := by
  rw [start?, start?, order_splitOff]
  cases g.order with
  | nil => rfl
  | cons n rest =>
      by_cases h : n = base
      · simp [h]
      · simp [h]

/-- A name that is not in use may be given to the new nonterminal. -/
theorem nodup_order_splitOff (hnodup : g.order.Nodup) (hfresh : fresh ∉ g.order) :
    (g.splitOff base fresh kept moved).order.Nodup := by
  rw [order_splitOff]
  exact nodup_flatMap_pair hnodup hfresh

/-- The fresh nonterminal stands directly behind the place of the one that was split. -/
theorem order_splitOff_of_getElem? (hnodup : g.order.Nodup) {place : Nat}
    (hplace : g.order[place]? = some base) :
    (g.splitOff base fresh kept moved).order =
      g.order.take place ++ base :: fresh :: g.order.drop (place + 1) := by
  have hkeep : ∀ {names : List NonTerminal}, base ∉ names →
      names.flatMap (fun n => if n = base then [base, fresh] else [n]) = names := by
    intro names hnames
    conv_rhs => rw [← List.flatMap_singleton' names]
    apply List.flatMap_congr
    intro n hn
    have hne : n ≠ base := fun e => hnames (e ▸ hn)
    rw [if_neg hne]
  obtain ⟨hbefore, hafter, _⟩ := not_mem_take_drop hnodup hplace
  rw [order_splitOff]
  conv_lhs => rw [order_eq_of_getElem? hplace]
  rw [List.flatMap_append, List.flatMap_cons, hkeep hbefore, hkeep hafter, if_pos rfl]
  rfl

/-- The nonterminal that was split keeps its place, and what stood behind it still does. -/
theorem place_splitOff (hnodup : g.order.Nodup) {place : Nat}
    (hplace : g.order[place]? = some base) :
    (g.splitOff base fresh kept moved).order[place]? = some base ∧
      ∀ m ∈ g.order.drop (place + 1),
        m ∈ (g.splitOff base fresh kept moved).order.drop (place + 1) := by
  have hlength : (g.order.take place).length = place :=
    List.length_take_of_le (Nat.le_of_lt (List.getElem?_eq_some_iff.1 hplace).1)
  rw [order_splitOff_of_getElem? hnodup hplace]
  constructor
  · rw [List.getElem?_append_right (Nat.le_of_eq hlength), hlength, Nat.sub_self]
    rfl
  · intro m hm
    rw [List.append_cons, List.drop_left' (by simp [hlength])]
    exact List.mem_cons_of_mem _ hm

/-- Splitting leaves the nonterminals without a rule as they are. -/
theorem undefined_splitOff (hbase : base ∈ g.order) (hfresh : fresh ∉ g.nonTerminals) :
    (g.splitOff base fresh kept moved).undefined = g.undefined := by
  show ((g.nonTerminals.insert fresh).toList.filter
    (· ∉ (g.splitOff base fresh kept moved).order)) = g.undefined
  rw [OrderedSet.toList_insert_of_not_mem hfresh, List.filter_append]
  have hnone : [fresh].filter (· ∉ (g.splitOff base fresh kept moved).order) = [] := by
    simp [mem_order_splitOff, hbase]
  rw [hnone, List.append_nil]
  apply List.filter_congr
  intro m hm
  have hne : m ≠ fresh := fun e => hfresh (e ▸ hm)
  simp [mem_order_splitOff, hne]

end SplitOff

end PredictiveParsing.Grammar
