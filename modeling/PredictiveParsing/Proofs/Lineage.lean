/-
Module: PredictiveParsing.Proofs.Lineage
Layer: Proofs
Purpose: The order of the nonterminals and the descent of those that normalization created. A new
  nonterminal is placed directly behind the one that it was split off from, so the descendants of a
  nonterminal stand together behind it, and the order walks through the forest of descent from the
  front, whatever was split in between and whatever lines were added. A new nonterminal is not known
  before and has more primes than its parent. So climbing from parent to parent comes to an end, and
  reading the lineage once, from the newest entry on, finds the same ancestors.
Imports: Mathlib, PredictiveParsing.Proofs.WellFormed
Main exports: Grammar.parent?, Grammar.Climbs, Grammar.Together, Grammar.Arranged,
  Grammar.Arranged.insert, Grammar.Arranged.splitOff, Grammar.Arranged.climbs_descendsFrom,
  Session.Reachable.arranged, Session.order_preorder
Open obligations: none
-/
import Mathlib
import PredictiveParsing.Proofs.WellFormed

namespace PredictiveParsing

namespace Grammar

variable {g : Grammar} {n m a : NonTerminal}

/-! ### Ancestors -/

/-- The nonterminal that another one was split off from. -/
def parent? (g : Grammar) (n : NonTerminal) : Option NonTerminal := OrderedMap.lookup n g.lineage

/-- Climbing from a nonterminal to its parent, to the parent of that one and so on, until the
ancestor is found or there is no further parent, ends with an answer. -/
inductive Climbs (g : Grammar) (ancestor : NonTerminal) : NonTerminal → Bool → Prop where
  | top {n : NonTerminal} (hparent : g.parent? n = none) : Climbs g ancestor n false
  | found {n : NonTerminal} (hparent : g.parent? n = some ancestor) : Climbs g ancestor n true
  | further {n parent : NonTerminal} {answer : Bool} (hparent : g.parent? n = some parent)
      (hne : parent ≠ ancestor) (h : Climbs g ancestor parent answer) : Climbs g ancestor n answer

/-- What a lineage says of a nonterminal, it said when that nonterminal was created: no older entry
mentions it, and it has the letter of its parent and more primes. -/
structure Genealogy (lineage : List (NonTerminal × NonTerminal)) : Prop where
  newer : lineage.Pairwise fun newer older => newer.1 ≠ older.1 ∧ newer.1 ≠ older.2
  named : ∀ entry ∈ lineage,
    entry.1.letter = entry.2.letter ∧ entry.2.primes < entry.1.primes

theorem genealogy_nil : Genealogy [] := ⟨.nil, fun _ h => absurd h List.not_mem_nil⟩

namespace Genealogy

variable {lineage : List (NonTerminal × NonTerminal)}

theorem mem_of_lookup (h : Genealogy lineage) (hparent : OrderedMap.lookup n lineage = some m) :
    (n, m) ∈ lineage := by
  have hnodup : (lineage.map Prod.fst).Nodup := by
    rw [List.Nodup, List.pairwise_map]
    exact h.newer.imp fun hnewer => hnewer.1
  exact (OrderedMap.lookup_eq_some hnodup).1 hparent

/-- One step of the climb. The entries that are newer than that of `n` have nothing to say about its
ancestors, so it does not matter that the search leaves them behind. -/
theorem isDescendant_iff (h : Genealogy lineage) :
    isDescendant n a lineage = true ↔
      ∃ m, OrderedMap.lookup n lineage = some m ∧ (m = a ∨ isDescendant m a lineage = true) := by
  induction lineage with
  | nil => simp [isDescendant, OrderedMap.lookup]
  | cons entry older ih =>
      obtain ⟨child, parent⟩ := entry
      obtain ⟨hfirst, holder⟩ := List.pairwise_cons.1 h.newer
      have hrest : Genealogy older :=
        ⟨holder, fun entry hentry => h.named entry (List.mem_cons_of_mem _ hentry)⟩
      have hskip : ∀ {m}, child ≠ m →
          isDescendant m a ((child, parent) :: older) = isDescendant m a older := by
        intro m hne
        rw [isDescendant, if_neg hne]
      by_cases hchild : child = n
      · subst hchild
        have hprimes := (h.named _ List.mem_cons_self).2
        have hne : child ≠ parent := by
          rintro rfl
          exact Nat.lt_irrefl _ hprimes
        simp [isDescendant, OrderedMap.lookup, hne]
      · rw [hskip hchild, OrderedMap.lookup, if_neg hchild, ih hrest]
        refine exists_congr fun m => and_congr_right fun hm => ?_
        have hne : child ≠ m := (hfirst _ (hrest.mem_of_lookup hm)).2
        rw [hskip hne]

end Genealogy

/-! ### The order and the lineage -/

/-- The descendants of a nonterminal stand together directly behind it. -/
def Together (g : Grammar) (a : NonTerminal) : Prop :=
  ∃ before block behind, g.order = before ++ a :: (block ++ behind) ∧
    ∀ n, g.descendsFrom n a = true ↔ n ∈ block

/-- How the order and the lineage of a grammar belong together. -/
structure Arranged (g : Grammar) : Prop where
  genealogy : Genealogy g.lineage
  /-- A nonterminal of the lineage, child or parent, has a rule. -/
  mentioned : ∀ entry ∈ g.lineage, entry.1 ∈ g.order ∧ entry.2 ∈ g.order
  together : ∀ a ∈ g.order, g.Together a

theorem arranged_empty : (∅ : Grammar).Arranged where
  genealogy := genealogy_nil
  mentioned := fun _ h => absurd h List.not_mem_nil
  together := fun _ h => absurd h List.not_mem_nil

namespace Arranged

theorem descendsFrom_iff (hg : g.Arranged) :
    g.descendsFrom n a = true ↔
      ∃ m, g.parent? n = some m ∧ (m = a ∨ g.descendsFrom m a = true) :=
  hg.genealogy.isDescendant_iff

theorem parent_primes (hg : g.Arranged) (hparent : g.parent? n = some m) :
    n.letter = m.letter ∧ m.primes < n.primes :=
  hg.genealogy.named _ (hg.genealogy.mem_of_lookup hparent)

theorem parent_mem_order (hg : g.Arranged) (hparent : g.parent? n = some m) :
    n ∈ g.order ∧ m ∈ g.order :=
  hg.mentioned _ (hg.genealogy.mem_of_lookup hparent)

/-- A property that is handed down from parents to children holds if it does where there is no
parent. -/
theorem parent_induction (hg : g.Arranged) {P : NonTerminal → Prop}
    (h : ∀ n, (∀ m, g.parent? n = some m → P m) → P n) (n : NonTerminal) : P n := by
  induction hprimes : n.primes using Nat.strong_induction_on generalizing n with
  | _ primes ih =>
      refine h n fun m hparent => ih m.primes ?_ m rfl
      rw [← hprimes]
      exact (hg.parent_primes hparent).2

/-- Climbing to the parents ends, with the answer that the lineage gives. -/
theorem climbs_descendsFrom (hg : g.Arranged) (n a : NonTerminal) :
    g.Climbs a n (g.descendsFrom n a) := by
  induction n using hg.parent_induction with
  | h n ih =>
      cases hparent : g.parent? n with
      | none =>
          have hfalse : g.descendsFrom n a = false := by
            rw [← Bool.not_eq_true, hg.descendsFrom_iff]
            simp [hparent]
          rw [hfalse]
          exact .top hparent
      | some m =>
          by_cases hm : m = a
          · subst hm
            have htrue : g.descendsFrom n m = true :=
              hg.descendsFrom_iff.2 ⟨m, hparent, Or.inl rfl⟩
            rw [htrue]
            exact .found hparent
          · have hsame : g.descendsFrom n a = g.descendsFrom m a := by
              rw [Bool.eq_iff_iff, hg.descendsFrom_iff]
              simp [hparent, hm]
            rw [hsame]
            exact .further hparent hm (ih m hparent)

theorem letter_primes_of_descendsFrom (hg : g.Arranged) (h : g.descendsFrom n a = true) :
    n.letter = a.letter ∧ a.primes < n.primes := by
  induction n using hg.parent_induction with
  | h n ih =>
      obtain ⟨m, hparent, hm⟩ := hg.descendsFrom_iff.1 h
      obtain ⟨hletter, hprimes⟩ := hg.parent_primes hparent
      rcases hm with rfl | hm
      · exact ⟨hletter, hprimes⟩
      · obtain ⟨hletter', hprimes'⟩ := ih m hparent hm
        exact ⟨hletter.trans hletter', Nat.lt_trans hprimes' hprimes⟩

theorem descendsFrom_self (hg : g.Arranged) (n : NonTerminal) : g.descendsFrom n n = false := by
  rw [← Bool.not_eq_true]
  intro h
  exact Nat.lt_irrefl _ (hg.letter_primes_of_descendsFrom h).2

theorem descendsFrom_trans (hg : g.Arranged) (h : g.descendsFrom n m = true)
    (h' : g.descendsFrom m a = true) : g.descendsFrom n a = true := by
  induction n using hg.parent_induction with
  | h n ih =>
      obtain ⟨k, hparent, hk⟩ := hg.descendsFrom_iff.1 h
      rcases hk with rfl | hk
      · exact hg.descendsFrom_iff.2 ⟨k, hparent, Or.inr h'⟩
      · exact hg.descendsFrom_iff.2 ⟨k, hparent, Or.inr (ih k hparent hk)⟩

theorem mem_order_of_descendsFrom (hg : g.Arranged) (h : g.descendsFrom n a = true) :
    n ∈ g.order ∧ a ∈ g.order := by
  induction n using hg.parent_induction with
  | h n ih =>
      obtain ⟨m, hparent, hm⟩ := hg.descendsFrom_iff.1 h
      rcases hm with rfl | hm
      · exact hg.parent_mem_order hparent
      · exact ⟨(hg.parent_mem_order hparent).1, (ih m hparent hm).2⟩

/-! ### Changes of the grammar -/

/-- A nonterminal that gets its first production is nobody's descendant and has none, and it goes to
the end of the order. -/
theorem insert (hg : g.Arranged) (head : NonTerminal) (body : Body) :
    (g.insert head body).Arranged := by
  have hdescends : ∀ n a, (g.insert head body).descendsFrom n a = g.descendsFrom n a :=
    fun _ _ => rfl
  have hkept : ∀ m ∈ g.order, m ∈ (g.insert head body).order := by
    intro m hm
    rw [order_insert]
    split
    · exact hm
    · exact List.mem_append_left _ hm
  refine ⟨hg.genealogy, ?_, ?_⟩
  · intro entry hentry
    obtain ⟨hchild, hparent⟩ := hg.mentioned entry hentry
    exact ⟨hkept _ hchild, hkept _ hparent⟩
  · intro a ha
    unfold Together
    simp only [hdescends]
    rw [order_insert] at ha ⊢
    by_cases hhead : head ∈ g.order
    · rw [if_pos hhead] at ha ⊢
      exact hg.together a ha
    · rw [if_neg hhead] at ha ⊢
      rcases List.mem_append.1 ha with hold | hnew
      · obtain ⟨before, block, behind, horder, hblock⟩ := hg.together a hold
        exact ⟨before, block, behind ++ [head], by simp [horder], hblock⟩
      · rw [List.mem_singleton] at hnew
        subst hnew
        refine ⟨g.order, [], [], rfl, ?_⟩
        intro n
        have hnone : ¬ g.descendsFrom n a = true :=
          fun h => hhead (hg.mem_order_of_descendsFrom h).2
        simpa using hnone

theorem setBodies (hg : g.Arranged) (n : NonTerminal) (bodies : OrderedSet Body) :
    (g.setBodies n bodies).Arranged := by
  refine ⟨hg.genealogy, ?_, ?_⟩
  · rw [order_setBodies]
    exact hg.mentioned
  · unfold Together
    rw [order_setBodies]
    exact hg.together

section SplitOff

variable {base fresh : NonTerminal} {kept moved : OrderedSet Body}

/-- Splitting gives the new nonterminal the ancestors of its parent, and that parent. -/
theorem descendsFrom_splitOff (hg : g.Arranged) (hfresh : fresh ∉ g.order) :
    (g.splitOff base fresh kept moved).descendsFrom n a = true ↔
      g.descendsFrom n a = true ∨ (n = fresh ∧ (base = a ∨ g.descendsFrom base a = true)) := by
  have hnone : ¬ isDescendant fresh a g.lineage = true :=
    fun h => hfresh (hg.mem_order_of_descendsFrom h).1
  show isDescendant n a ((fresh, base) :: g.lineage) = true ↔
    isDescendant n a g.lineage = true ∨
      (n = fresh ∧ (base = a ∨ isDescendant base a g.lineage = true))
  by_cases h : fresh = n
  · subst h
    simp [isDescendant, hnone]
  · have hne : ¬ n = fresh := fun heq => h heq.symm
    simp [isDescendant, h, hne]

/-- The new nonterminal joins the block of every ancestor of the one that is split, and it begins
the block of that one. -/
theorem together_splitOff (hg : g.Arranged) (hfresh : fresh ∉ g.order) (ha : a ∈ g.order) :
    (g.splitOff base fresh kept moved).Together a := by
  obtain ⟨before, block, behind, horder, hblock⟩ := hg.together a ha
  unfold Together
  simp only [hg.descendsFrom_splitOff hfresh, hblock]
  rw [order_splitOff, horder, List.flatMap_append, List.flatMap_cons, List.flatMap_append]
  by_cases hab : a = base
  · subst hab
    refine ⟨_, fresh :: block.flatMap _, _, by rw [if_pos rfl]; rfl, ?_⟩
    intro n
    rw [List.mem_cons, mem_flatMap_pair]
    tauto
  · refine ⟨_, block.flatMap _, _, by rw [if_neg hab]; rfl, ?_⟩
    intro n
    rw [mem_flatMap_pair]
    have hba : ¬ base = a := fun heq => hab heq.symm
    tauto

/-- The new nonterminal has no descendants yet. -/
theorem together_splitOff_fresh (hg : g.Arranged) (hbase : base ∈ g.order)
    (hfresh : fresh ∉ g.order) : (g.splitOff base fresh kept moved).Together fresh := by
  have hnone : ∀ n, ¬ g.descendsFrom n fresh = true :=
    fun n h => hfresh (hg.mem_order_of_descendsFrom h).2
  have hne : base ≠ fresh := fun heq => hfresh (heq ▸ hbase)
  obtain ⟨before, behind, horder⟩ := List.append_of_mem hbase
  unfold Together
  simp only [hg.descendsFrom_splitOff hfresh]
  rw [order_splitOff, horder, List.flatMap_append, List.flatMap_cons, if_pos rfl]
  refine ⟨before.flatMap _ ++ [base], [], behind.flatMap _, by simp; rfl, ?_⟩
  intro n
  simp [hnone, hne]

/-- A nonterminal may be split if the name of the new one is not in use. -/
theorem splitOff (hg : g.Arranged) (hbase : base ∈ g.order) (hfresh : fresh ∉ g.order)
    (hnamed : fresh.letter = base.letter ∧ base.primes < fresh.primes) :
    (g.splitOff base fresh kept moved).Arranged := by
  refine ⟨⟨?_, ?_⟩, ?_, ?_⟩
  · refine List.pairwise_cons.2 ⟨?_, hg.genealogy.newer⟩
    intro entry hentry
    obtain ⟨hchild, hparent⟩ := hg.mentioned entry hentry
    exact ⟨fun heq => hfresh (Eq.mpr (congrArg (· ∈ g.order) heq) hchild),
      fun heq => hfresh (Eq.mpr (congrArg (· ∈ g.order) heq) hparent)⟩
  · exact List.forall_mem_cons.2 ⟨hnamed, hg.genealogy.named⟩
  · refine List.forall_mem_cons.2 ⟨?_, ?_⟩
    · exact ⟨mem_order_splitOff.2 (Or.inr ⟨rfl, hbase⟩), mem_order_splitOff.2 (Or.inl hbase)⟩
    · intro entry hentry
      obtain ⟨hchild, hparent⟩ := hg.mentioned entry hentry
      exact ⟨mem_order_splitOff.2 (Or.inl hchild), mem_order_splitOff.2 (Or.inl hparent)⟩
  · intro a ha
    rcases mem_order_splitOff.1 ha with hold | ⟨rfl, _⟩
    · exact hg.together_splitOff hfresh hold
    · exact hg.together_splitOff_fresh hbase hfresh

end SplitOff

/-- A new name has the letter of the old one and more primes. -/
theorem splitOff_freshFor (hg : g.Arranged) (hwell : g.WellFormed) (hbase : n ∈ g.order)
    (kept moved : OrderedSet Body) : (g.splitOff n (g.freshFor n) kept moved).Arranged := by
  refine hg.splitOff hbase (hwell.freshFor_not_mem_order n) ?_
  exact NonTerminal.unusedFrom_letter_primes g.nonTerminals.toList n.primed

theorem normalizationStep (hg : g.Arranged) (hwell : g.WellFormed) {h : Grammar}
    (hstep : NormalizationStep g h) : h.Arranged := by
  cases hstep with
  | expand hexpand =>
      rcases expandEarlier_cases hexpand with rfl | ⟨_, _, _, _, rfl⟩
      · exact hg
      · exact hg.setBodies _ _
  | split hrecursive =>
      obtain ⟨bodies, hbodies⟩ := exists_bodies_of_isLeftRecursive hrecursive
      rw [splitRecursion_eq hbodies]
      exact hg.splitOff_freshFor hwell (mem_order_of_bodies? hbodies) _ _
  | factor hbodies _ => exact hg.splitOff_freshFor hwell (mem_order_of_bodies? hbodies) _ _

/-- Seen from a nonterminal, the order goes on with its descendants, up to the first nonterminal
that is none, and there are no others. -/
theorem descendsFrom_iff_mem_takeWhile (hg : g.Arranged) (hnodup : g.order.Nodup)
    {before later : List NonTerminal} (horder : g.order = before ++ a :: later) :
    g.descendsFrom n a = true ↔ n ∈ later.takeWhile (g.descendsFrom · a) := by
  constructor
  · intro hn
    have ha : a ∈ g.order := (hg.mem_order_of_descendsFrom hn).2
    obtain ⟨before', block, behind, horder', hblock⟩ := hg.together a ha
    -- A nonterminal stands in the order once, so what follows it is determined.
    rw [horder] at horder' hnodup
    have hnot : a ∉ before ++ later := (List.nodup_cons.1 (List.nodup_middle.1 hnodup)).1
    obtain ⟨hbefore, hafter⟩ := not_or.1 (mt List.mem_append.2 hnot)
    have hlater : later = block ++ behind :=
      ((List.append_cons_inj_of_notMem hbefore hafter).1 horder').2.2
    rw [hlater, List.takeWhile_append_of_pos fun m hm => (hblock m).2 hm]
    exact List.mem_append_left _ ((hblock n).1 hn)
  · exact List.mem_takeWhile_imp

end Arranged

end Grammar

namespace Session

open Grammar

variable {s : Session}

theorem Reachable.arranged (hs : s.Reachable) : s.grammar.Arranged := by
  have hboth : s.grammar.WellFormed ∧ s.grammar.Arranged :=
    hs.grammar_induction (P := fun g => g.WellFormed ∧ g.Arranged)
      ⟨wellFormed_empty, arranged_empty⟩
      (fun _ head cs hg => ⟨hg.1.insert head cs, hg.2.insert head (Body.read cs)⟩)
      (fun _ _ hg hstep => ⟨hg.1.normalizationStep hstep, hg.2.normalizationStep hg.1 hstep⟩)
  exact hboth.2

/-- The order is a walk through the forest of descent. Climbing from parent to parent ends for all
nonterminals, with the answer whether one descends from the other; descent is a strict partial
order; a descendant has the letter of its ancestor and more primes; and the descendants of a
nonterminal of the order are those that follow it up to the first one that is no descendant. -/
theorem order_preorder (hs : s.Reachable) :
    (∀ n a, s.grammar.Climbs a n (s.grammar.descendsFrom n a)) ∧
      (∀ n, s.grammar.descendsFrom n n = false) ∧
      (∀ n m a, s.grammar.descendsFrom n m = true → s.grammar.descendsFrom m a = true →
        s.grammar.descendsFrom n a = true) ∧
      (∀ n a, s.grammar.descendsFrom n a = true → n.letter = a.letter ∧ a.primes < n.primes) ∧
      ∀ before a later, s.grammar.order = before ++ a :: later → ∀ n,
        s.grammar.descendsFrom n a = true ↔
          n ∈ later.takeWhile (s.grammar.descendsFrom · a) := by
  have hg : s.grammar.Arranged := hs.arranged
  refine ⟨hg.climbs_descendsFrom, hg.descendsFrom_self, ?_, ?_, ?_⟩
  · exact fun n m a => hg.descendsFrom_trans
  · exact fun n a => hg.letter_primes_of_descendsFrom
  · intro before a later horder n
    exact hg.descendsFrom_iff_mem_takeWhile hs.wellFormed.nodup_order horder

/-- Lines are added between two normalizations, one of them for a primed name that was merely used
before. It descends from nothing; of the other primed names the newest stands in front. -/
theorem order_preorder_interleaved :
    let first := ((withLines ["A->Aab", "A->Aac", "A->c", "A->A'd"]).apply (.normalizeWithin 9)).1
    let second := ((first.apply (.insertLine "B->Bx")).1.apply (.insertLine "A'->z")).1
    let s := ((second.apply (.insertLine "A->cx")).1.apply (.factor ⟨'A', 0, rfl⟩)).1
    s.Reachable ∧ s.grammar.order = [⟨'A', 0, rfl⟩, ⟨'A', 4, rfl⟩, ⟨'A', 2, rfl⟩, ⟨'A', 3, rfl⟩,
        ⟨'B', 0, rfl⟩, ⟨'A', 1, rfl⟩] ∧
      (∀ n, s.grammar.descendsFrom n ⟨'A', 0, rfl⟩ = true ↔
        n ∈ [⟨'A', 4, rfl⟩, ⟨'A', 2, rfl⟩, ⟨'A', 3, rfl⟩]) ∧
      (∀ n, s.grammar.descendsFrom n ⟨'A', 2, rfl⟩ = true ↔ n = ⟨'A', 3, rfl⟩) ∧
      ∀ n, s.grammar.descendsFrom n ⟨'B', 0, rfl⟩ = false := by
  intro first second s
  have hs : s.Reachable :=
    ((((reachable_withLines _).apply _).apply _).apply _).apply _ |>.apply _
  have horder : s.grammar.order = [⟨'A', 0, rfl⟩, ⟨'A', 4, rfl⟩, ⟨'A', 2, rfl⟩, ⟨'A', 3, rfl⟩,
      ⟨'B', 0, rfl⟩, ⟨'A', 1, rfl⟩] := by
    unfold s second first
    cbv
  have hlineage : s.grammar.lineage = [(⟨'A', 4, rfl⟩, ⟨'A', 0, rfl⟩),
      (⟨'A', 3, rfl⟩, ⟨'A', 2, rfl⟩), (⟨'A', 2, rfl⟩, ⟨'A', 0, rfl⟩)] := by
    unfold s second first
    cbv
  have hdescends : ∀ n a, s.grammar.descendsFrom n a = isDescendant n a _ :=
    fun n a => congrArg (isDescendant n a) hlineage
  obtain ⟨_, _, _, _, hwalk⟩ := order_preorder hs
  refine ⟨hs, horder, ?_, ?_, ?_⟩
  · intro n
    rw [hwalk [] _ _ horder n]
    simp [hdescends, isDescendant]
  · intro n
    rw [hwalk [_, _] _ _ horder n]
    simp [hdescends, isDescendant]
  · intro n
    rw [← Bool.not_eq_true, hwalk [_, _, _, _] _ _ horder n]
    simp [hdescends, isDescendant]

end Session

end PredictiveParsing
