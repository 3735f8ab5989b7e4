/-
Module: PredictiveParsing.Proofs.Frame
Layer: Proofs
Purpose: What stays as it was when one rule is changed. Replacing the alternatives of a nonterminal
  and splitting it keep the alternatives of the others, and the substitutions that are made for the
  sake of a nonterminal as long as the one that changes does not stand before it.
Imports: PredictiveParsing.Proofs.Substitution
Main exports: Grammar.bodies?_setBodies, Grammar.bodies?_splitOff, Grammar.perm_order_splitOff,
  Grammar.substitutions_setBodies, Grammar.substitutions_splitOff
Open obligations: none
-/
import PredictiveParsing.Proofs.Substitution

namespace PredictiveParsing.Grammar

variable {g : Grammar}

/-! ### Alternatives -/

/-- With distinct heads the alternatives that are found for a nonterminal are those of its rule. -/
theorem bodies?_of_mem_rules (hnodup : g.order.Nodup) {n : NonTerminal} {bodies : OrderedSet Body}
    (h : ⟨n, bodies⟩ ∈ g.rules) : g.bodies? n = some bodies := by
  obtain ⟨found, hfound⟩ := exists_bodies_of_mem_order (mem_order_iff.2 ⟨_, h, rfl⟩)
  have hsame := rule_eq_of_head_eq hnodup (rule_mem_of_bodies? hfound) h rfl
  rw [hfound, (Rule.mk.inj hsame).2]

section SetBodies

variable {n m : NonTerminal} {bodies old : OrderedSet Body}

theorem bodies?_setBodies_self (hnodup : g.order.Nodup) (hn : n ∈ g.order) :
    (g.setBodies n bodies).bodies? n = some bodies := by
  apply bodies?_of_mem_rules
  · rw [order_setBodies]
    exact hnodup
  · obtain ⟨rule, hrule, rfl⟩ := mem_order_iff.1 hn
    exact List.mem_map.2 ⟨rule, hrule, if_pos rfl⟩

theorem bodies?_setBodies_of_ne (hnodup : g.order.Nodup) (hne : m ≠ n)
    (h : g.bodies? m = some old) : (g.setBodies n bodies).bodies? m = some old := by
  apply bodies?_of_mem_rules
  · rw [order_setBodies]
    exact hnodup
  · exact List.mem_map.2 ⟨_, rule_mem_of_bodies? h, if_neg hne⟩

/-- What is looked up after the alternatives of a nonterminal were replaced. -/
theorem bodies?_setBodies (hnodup : g.order.Nodup) (hn : n ∈ g.order) :
    (g.setBodies n bodies).bodies? m = if n = m then some bodies else g.bodies? m := by
  by_cases h : n = m
  · subst h
    rw [if_pos rfl, bodies?_setBodies_self hnodup hn]
  · rw [if_neg h]
    cases hm : g.bodies? m with
    | none =>
        rw [bodies?_eq_none_iff] at hm ⊢
        rwa [order_setBodies]
    | some old => exact bodies?_setBodies_of_ne hnodup (Ne.symm h) hm

end SetBodies

section SplitOff

variable {base fresh m : NonTerminal} {kept moved old : OrderedSet Body}

theorem bodies?_splitOff_base (hnodup : g.order.Nodup) (hfresh : fresh ∉ g.order)
    (hbase : base ∈ g.order) : (g.splitOff base fresh kept moved).bodies? base = some kept := by
  apply bodies?_of_mem_rules (nodup_order_splitOff hnodup hfresh)
  obtain ⟨rule, hrule, rfl⟩ := mem_order_iff.1 hbase
  exact List.mem_flatMap.2 ⟨rule, hrule, by simp⟩

theorem bodies?_splitOff_of_ne (hnodup : g.order.Nodup) (hfresh : fresh ∉ g.order) (hne : m ≠ base)
    (h : g.bodies? m = some old) : (g.splitOff base fresh kept moved).bodies? m = some old := by
  apply bodies?_of_mem_rules (nodup_order_splitOff hnodup hfresh)
  exact List.mem_flatMap.2 ⟨_, rule_mem_of_bodies? h, by simp [hne]⟩

/-- What is looked up after a nonterminal was split. -/
theorem bodies?_splitOff (hnodup : g.order.Nodup) (hfresh : fresh ∉ g.order)
    (hbase : base ∈ g.order) : (g.splitOff base fresh kept moved).bodies? m =
      if fresh = m then some moved else if base = m then some kept else g.bodies? m := by
  by_cases hm : fresh = m
  · subst hm
    rw [if_pos rfl]
    apply bodies?_of_mem_rules (nodup_order_splitOff hnodup hfresh)
    obtain ⟨rule, hrule, rfl⟩ := mem_order_iff.1 hbase
    exact List.mem_flatMap.2 ⟨rule, hrule, by simp⟩
  · rw [if_neg hm]
    by_cases hmbase : base = m
    · subst hmbase
      rw [if_pos rfl, bodies?_splitOff_base hnodup hfresh hbase]
    · rw [if_neg hmbase]
      cases hold : g.bodies? m with
      | none =>
          rw [bodies?_eq_none_iff] at hold ⊢
          rw [mem_order_splitOff]
          rintro (hmem | ⟨rfl, _⟩)
          · exact hold hmem
          · exact hm rfl
      | some old => exact bodies?_splitOff_of_ne hnodup hfresh (Ne.symm hmbase) hold

/-- Splitting adds one nonterminal to the order. -/
theorem perm_order_splitOff (hnodup : g.order.Nodup) (hbase : base ∈ g.order) :
    (g.splitOff base fresh kept moved).order.Perm (fresh :: g.order) := by
  obtain ⟨place, hplace⟩ := List.getElem?_of_mem hbase
  rw [order_splitOff_of_getElem? hnodup hplace, List.append_cons]
  conv_rhs => rw [order_eq_of_getElem? hplace, List.append_cons]
  exact List.perm_middle

theorem length_order_splitOff (hnodup : g.order.Nodup) (hbase : base ∈ g.order) :
    (g.splitOff base fresh kept moved).order.length = g.order.length + 1 :=
  (perm_order_splitOff hnodup hbase).length_eq

theorem length_order_factorOnce {n : NonTerminal} {bodies : OrderedSet Body} {shared : Body}
    (hnodup : g.order.Nodup) (hbodies : g.bodies? n = some bodies) :
    (g.factorOnce n bodies shared).order.length = g.order.length + 1 :=
  length_order_splitOff hnodup (mem_order_of_bodies? hbodies)

end SplitOff

/-! ### Substitutions -/

/-- What stands before the rule of `m` stays if no rule there is replaced and the rule of `m` stands
in front of what replaces it. -/
theorem takeWhile_flatMap_eq {replace : Rule → List Rule} {m : NonTerminal} {rules : List Rule}
    (hkeep : ∀ rule ∈ rules.takeWhile (·.head ≠ m), replace rule = [rule])
    (hfront : ∀ rule, rule.head = m → ∃ first rest, replace rule = first :: rest ∧ first.head = m) :
    (rules.flatMap replace).takeWhile (·.head ≠ m) = rules.takeWhile (·.head ≠ m) := by
  induction rules with
  | nil => rfl
  | cons rule rest ih =>
      by_cases h : rule.head = m
      · obtain ⟨first, others, hreplace, hfirst⟩ := hfront rule h
        rw [List.flatMap_cons, hreplace, List.cons_append,
          List.takeWhile_cons_of_neg (by simpa using hfirst),
          List.takeWhile_cons_of_neg (by simpa using h)]
      · have hcons : ∀ others : List Rule, (rule :: others).takeWhile (·.head ≠ m) =
            rule :: others.takeWhile (·.head ≠ m) :=
          fun others => List.takeWhile_cons_of_pos (by simpa using h)
        rw [hcons] at hkeep ⊢
        rw [List.flatMap_cons, hkeep rule List.mem_cons_self, List.singleton_append, hcons,
          ih fun other hother => hkeep other (List.mem_cons_of_mem _ hother)]

theorem head_ne_of_mem_takeWhile {n m : NonTerminal} (hbefore : n ∉ g.order.takeWhile (· ≠ m))
    {rule : Rule} (hrule : rule ∈ g.rules.takeWhile (·.head ≠ m)) : rule.head ≠ n := by
  rintro rfl
  apply hbefore
  rw [← map_head_earlierRules]
  exact List.mem_map_of_mem hrule

/-- A nonterminal that does not stand before `m` may get other alternatives. -/
theorem substitutions_setBodies {n m : NonTerminal} {bodies : OrderedSet Body}
    (hbefore : n ∉ g.order.takeWhile (· ≠ m)) :
    (g.setBodies n bodies).substitutions m = g.substitutions m := by
  have hearlier : (g.setBodies n bodies).earlierRules m = g.earlierRules m := by
    unfold earlierRules setBodies
    rw [List.map_eq_flatMap]
    apply takeWhile_flatMap_eq
    · intro rule hrule
      rw [if_neg (head_ne_of_mem_takeWhile hbefore hrule)]
    · intro rule hrule
      refine ⟨_, [], rfl, ?_⟩
      split
      · exact hrule
      · exact hrule
  funext p
  simp only [substitutions, hearlier]
  rfl

/-- A nonterminal that does not stand before `m` may be split. -/
theorem substitutions_splitOff {base fresh m : NonTerminal} {kept moved : OrderedSet Body}
    (hbefore : base ∉ g.order.takeWhile (· ≠ m)) (hfresh : fresh ≠ m) :
    (g.splitOff base fresh kept moved).substitutions m = g.substitutions m := by
  have hearlier : (g.splitOff base fresh kept moved).earlierRules m = g.earlierRules m := by
    apply takeWhile_flatMap_eq
    · intro rule hrule
      rw [if_neg (head_ne_of_mem_takeWhile hbefore hrule)]
    · intro rule hrule
      split
      · next hbase => exact ⟨_, _, rfl, hbase.symm.trans hrule⟩
      · exact ⟨_, _, rfl, hrule⟩
  have hdescends : ∀ b,
      (g.splitOff base fresh kept moved).descendsFrom m b = g.descendsFrom m b := by
    intro b
    show isDescendant m b ((fresh, base) :: g.lineage) = isDescendant m b g.lineage
    rw [isDescendant, if_neg hfresh]
  funext p
  simp only [substitutions, hearlier, hdescends]

theorem not_mem_takeWhile_self (n : NonTerminal) : n ∉ g.order.takeWhile (· ≠ n) :=
  fun hmem => by simpa using List.mem_takeWhile_imp hmem

/-- A nonterminal does not stand before those that stand before it. -/
theorem not_mem_takeWhile_of_mem_take (hnodup : g.order.Nodup) {n m : NonTerminal} {place : Nat}
    (hplace : g.order[place]? = some n) (hm : m ∈ g.order.take place) :
    n ∉ g.order.takeWhile (· ≠ m) := by
  obtain ⟨earlier, hearlier⟩ := List.getElem?_of_mem hm
  rw [List.getElem?_take, Option.ite_none_right_eq_some] at hearlier
  obtain ⟨hlt, hget⟩ := hearlier
  rw [takeWhile_order hnodup hget]
  intro hmem
  have hfront := List.take_subset_take_left g.order (Nat.le_of_lt hlt) hmem
  exact (not_mem_take_drop hnodup hplace).1 hfront

end PredictiveParsing.Grammar
