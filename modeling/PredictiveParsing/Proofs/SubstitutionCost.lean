/-
Module: PredictiveParsing.Proofs.SubstitutionCost
Layer: Proofs
Purpose: What it takes to substitute in a list of bodies. A complete forest is grown exactly if the
  budget covers the nodes below its roots. Bodies are calm for a nonterminal if their forest stays
  within the budget and never brings the nonterminal to the front: substitution leaves them alone.
  What remains of a forest is calm but for the bodies that begin with the nonterminal, and calm
  bodies stay calm when some are dropped and when ends of them are replaced by a nonterminal without
  a rule.
Imports: PredictiveParsing.Proofs.Substitution
Main exports: Forest.cost, Forest.grow?_eq_some_iff, Forest.Calm, Forest.Calm.sublist,
  Forest.Grown.calm_prune, Forest.CutOff, Forest.Calm.cutOff, Grammar.forall₂_cutOff_substitutions
Open obligations: none
-/
import PredictiveParsing.Proofs.Substitution

namespace PredictiveParsing

namespace Forest

/-- What growing a forest costs: the number of its nodes below the roots. -/
def cost : Forest → Nat
  | .nil => 0
  | .cons _ children siblings => size children + cost siblings

variable {expand : Body → List Body} {roots : List Body} {forest : Forest}

theorem Grown.size_eq (h : Grown expand roots forest) :
    forest.size = roots.length + forest.cost := by
  induction h with
  | nil => rfl
  | cons _ _ _ ihBeside =>
      simp only [size, cost, List.length_cons, ihBeside]
      omega

/-- Growing takes the cost of the forest from the budget. -/
theorem cost_add_of_grow {budget : Nat} {grown : { grown : Forest × Nat // grown.2 ≤ budget }}
    (h : grow expand budget roots = some grown) : grown.val.1.cost + grown.val.2 = budget := by
  fun_induction grow expand budget roots with
  | case1 =>
      cases h
      exact Nat.zero_add _
  | case2 => cases h
  | case3 budget root rest _ siblings left _ hgrow ih =>
      cases h
      simpa [cost, size] using ih hgrow
  | case4 => cases h
  | case5 => cases h
  | case6 budget root rest child others hexpand hfits children left hleft hbelow siblings unspent
      hunspent hbeside ihBelow ihBeside =>
      cases h
      have hchildren := (grown_of_grow hbelow).size_eq
      have hspent : children.cost + left = budget - (child :: others).length := ihBelow hbelow
      have hrest : siblings.cost + unspent = left := ihBeside hbeside
      simp only [cost, hchildren]
      omega
  | case7 => cases h

/-- A budget that covers the cost of a forest suffices to grow it. -/
theorem Grown.exists_grow (h : Grown expand roots forest) {budget : Nat}
    (hfits : forest.cost ≤ budget) :
    ∃ hleft, grow expand budget roots = some ⟨(forest, budget - forest.cost), hleft⟩ := by
  induction h generalizing budget with
  | nil => exact ⟨Nat.le_refl _, by rw [grow]; rfl⟩
  | @cons root rest children siblings below beside ihBelow ihBeside =>
      simp only [cost] at hfits
      have hsize := below.size_eq
      rw [grow]
      cases hexpand : expand root with
      | nil =>
          rw [hexpand] at below
          cases below
          have hbeside : siblings.cost ≤ budget := Nat.le_trans (Nat.le_add_left _ _) hfits
          obtain ⟨hleft, hgrow⟩ := ihBeside hbeside
          refine ⟨Nat.sub_le _ _, ?_⟩
          simp [hgrow, cost, size]
      | cons child others =>
          rw [hexpand] at hsize ihBelow
          have hroom : (child :: others).length ≤ budget := by omega
          have hbelow : children.cost ≤ budget - (child :: others).length := by omega
          have hbeside : siblings.cost ≤ budget - (child :: others).length - children.cost := by
            omega
          obtain ⟨hleft, hgrow⟩ := ihBelow hbelow
          obtain ⟨hleft', hgrow'⟩ := ihBeside hbeside
          refine ⟨Nat.sub_le _ _, ?_⟩
          simp only [hroom, dif_pos, hgrow, hgrow', cost, Option.some.injEq, Subtype.mk.injEq,
            Prod.mk.injEq, true_and]
          omega

/-- A forest is grown within a limit exactly if it is complete and costs no more. -/
theorem grow?_eq_some_iff {limit : Nat} :
    grow? expand limit roots = some forest ↔ Grown expand roots forest ∧ forest.cost ≤ limit := by
  constructor
  · intro h
    obtain ⟨grown, hgrow, rfl⟩ := Option.map_eq_some_iff.1 h
    have hcost := cost_add_of_grow hgrow
    exact ⟨grown_of_grow hgrow, by omega⟩
  · intro h
    obtain ⟨_, hgrow⟩ := h.1.exists_grow h.2
    rw [grow?, hgrow]
    rfl

/-! ### Bodies that substitution leaves alone -/

/-- Substitution in the bodies stays within the budget and never brings `n` to the front. -/
def Calm (expand : Body → List Body) (n : NonTerminal) (budget : Nat) (bodies : List Body) :
    Prop :=
  ∃ forest, Grown expand bodies forest ∧ forest.exposes n = false ∧ forest.cost ≤ budget

variable {n : NonTerminal} {budget : Nat} {bodies : List Body}

theorem calm_nil : Calm expand n budget [] := ⟨.nil, .nil, rfl, Nat.zero_le _⟩

/-- A calm tree can be put in front of calm ones if the budget covers it too. -/
theorem Calm.cons {root : Body} {children : Forest} {left : Nat}
    (hrest : Calm expand n left bodies) (hroot : root.beginsWith n = false)
    (hbelow : Grown expand (expand root) children) (hhidden : children.exposes n = false)
    (hfits : children.size + left ≤ budget) : Calm expand n budget (root :: bodies) := by
  obtain ⟨siblings, hbeside, hexposes, hcost⟩ := hrest
  refine ⟨.cons root children siblings, .cons hbelow hbeside, ?_, ?_⟩
  · simp [exposes, hroot, hhidden, hexposes]
  · exact Nat.le_trans (Nat.add_le_add_left hcost _) hfits

/-- The first of calm bodies has a calm tree, and what it costs is left over for the others. -/
theorem Calm.exists_of_cons {root : Body} (h : Calm expand n budget (root :: bodies)) :
    root.beginsWith n = false ∧ ∃ children left, Grown expand (expand root) children ∧
      children.exposes n = false ∧ children.size + left ≤ budget ∧
        Calm expand n left bodies := by
  obtain ⟨forest, hgrown, hexposes, hcost⟩ := h
  cases hgrown with
  | @cons _ _ children siblings below beside =>
      simp only [exposes, Bool.or_eq_false_iff] at hexposes
      obtain ⟨⟨hroot, hhidden⟩, hrest⟩ := hexposes
      exact ⟨hroot, children, siblings.cost, below, hhidden, hcost, siblings, beside, hrest,
        Nat.le_refl _⟩

theorem Calm.mono {budget' : Nat} (h : Calm expand n budget bodies) (hle : budget ≤ budget') :
    Calm expand n budget' bodies := by
  obtain ⟨forest, hgrown, hexposes, hcost⟩ := h
  exact ⟨forest, hgrown, hexposes, Nat.le_trans hcost hle⟩

theorem Calm.beginsWith_eq_false (h : Calm expand n budget bodies) :
    ∀ p ∈ bodies, p.beginsWith n = false := by
  obtain ⟨forest, hgrown, hexposes, _⟩ := h
  intro p hp
  exact (hgrown.exists_children_of_mem hexposes hp).1

/-- Some of several calm bodies are calm, and cost no more. -/
theorem Calm.sublist {bodies' : List Body} (h : Calm expand n budget bodies)
    (hsub : bodies'.Sublist bodies) : Calm expand n budget bodies' := by
  induction hsub generalizing budget with
  | slnil => exact calm_nil
  | cons root _ ih =>
      obtain ⟨_, children, left, _, _, hfits, hrest⟩ := h.exists_of_cons
      exact (ih hrest).mono (Nat.le_trans (Nat.le_add_left _ _) hfits)
  | cons_cons root _ ih =>
      obtain ⟨hroot, children, left, hbelow, hhidden, hfits, hrest⟩ := h.exists_of_cons
      exact (ih hrest).cons hroot hbelow hhidden hfits

/-- What remains of a forest is calm, but for the bodies that begin with `n`. Other calm
bodies may stand behind. -/
theorem Grown.calm_prune (h : Grown expand roots forest) (hrest : Calm expand n budget bodies) :
    Calm expand n (forest.cost + budget)
      ((forest.prune n).filter (!·.beginsWith n) ++ bodies) := by
  induction h generalizing budget bodies with
  | nil => simpa [prune, cost] using hrest
  | @cons root rest children siblings below beside ihBelow ihBeside =>
      have hbehind := ihBeside hrest
      simp only [prune, List.filter_append, List.append_assoc, cost]
      split
      · next hexposes =>
        have hsize := below.size_eq
        refine (ihBelow hbehind).mono ?_
        omega
      · next hexposes =>
        have hhidden : children.exposes n = false := by simpa using hexposes
        cases hroot : root.beginsWith n with
        | true =>
            simp only [hroot, List.filter_cons, List.filter_nil, Bool.not_true, Bool.false_eq_true,
              if_false, List.nil_append]
            refine hbehind.mono ?_
            omega
        | false =>
            simp only [hroot, List.filter_cons, List.filter_nil, Bool.not_false, if_true,
              List.cons_append, List.nil_append]
            refine hbehind.cons hroot below hhidden ?_
            omega

/-! ### Cutting bodies off -/

/-- `q` is `p` itself, or a front of `p` followed by the nonterminal `fresh`. -/
def CutOff (fresh : NonTerminal) (p q : Body) : Prop :=
  q = p ∨ ∃ front rest, p = front ++ rest ∧ q = Body.followedBy front fresh

theorem CutOff.beginsWith_eq_false {fresh : NonTerminal} {p q : Body} (h : CutOff fresh p q)
    (hfresh : fresh ≠ n) (hp : p.beginsWith n = false) : q.beginsWith n = false := by
  rcases h with rfl | ⟨front, rest, rfl, rfl⟩
  · exact hp
  · cases front with
    | nil => simpa [Body.beginsWith, Body.followedBy] using hfresh
    | cons s front => simpa [Body.beginsWith, Body.followedBy] using hp

/-- If calm bodies are cut off and what is put in their place is not substituted, substitution
goes on as before as long as it stays in the part that is left. -/
theorem Calm.cutOff {fresh : NonTerminal} (hfresh : fresh ≠ n)
    (hexpand : ∀ {p q}, CutOff fresh p q →
      expand q = [] ∨ List.Forall₂ (CutOff fresh) (expand p) (expand q))
    {bodies' : List Body} (h : Calm expand n budget bodies)
    (hcut : List.Forall₂ (CutOff fresh) bodies bodies') : Calm expand n budget bodies' := by
  obtain ⟨forest, hgrown, hexposes, hcost⟩ := h
  suffices hcalm : Calm expand n forest.cost bodies' from hcalm.mono hcost
  clear hcost
  induction hgrown generalizing bodies' with
  | nil =>
      cases hcut
      exact calm_nil
  | @cons root rest children siblings below beside ihBelow ihBeside =>
      simp only [exposes, Bool.or_eq_false_iff] at hexposes
      obtain ⟨⟨hroot, hhidden⟩, hrest⟩ := hexposes
      cases hcut with
      | @cons _ root' _ rest' hcutRoot hcutRest =>
          have hroot' := hcutRoot.beginsWith_eq_false hfresh hroot
          have hbeside := ihBeside hcutRest hrest
          rcases hexpand hcutRoot with hleaf | hchildren
          · have hnone : Grown expand (expand root') .nil := hleaf ▸ .nil
            refine hbeside.cons hroot' hnone rfl ?_
            simp [cost, size]
          · obtain ⟨children', hbelow', hhidden', hcost'⟩ := ihBelow hchildren hhidden
            refine hbeside.cons hroot' hbelow' hhidden' ?_
            have hlength := hchildren.length_eq
            rw [hbelow'.size_eq, cost, below.size_eq]
            omega

end Forest

namespace Grammar

variable {g : Grammar} {n : NonTerminal}

/-- Only the front of a body takes part in a substitution. -/
theorem substitutions_append {front : Body} (hfront : front ≠ []) (rest : Body) :
    g.substitutions n (front ++ rest) = (g.substitutions n front).map (· ++ rest) := by
  obtain ⟨s, tail, rfl⟩ := List.exists_cons_of_ne_nil hfront
  cases s with
  | terminal c => rfl
  | nonTerminal b =>
      simp only [substitutions, Body.leading?, List.cons_append, List.head?_cons, Option.bind_some,
        Symbol.nonTerminal?]
      cases (g.earlierRules n).find? (·.head = b) with
      | none => rfl
      | some rule =>
          dsimp only
          split
          · rfl
          · simp [Body.substituteLeading, Function.comp_def]

/-- A nonterminal without a rule is not substituted. -/
theorem substitutions_singleton_of_not_mem_order {m : NonTerminal} (hm : m ∉ g.order) :
    g.substitutions n [.nonTerminal m] = [] := by
  have hnone : (g.earlierRules n).find? (·.head = m) = none := by
    apply List.find?_eq_none.2
    intro rule hrule
    have hne : rule.head ≠ m := by
      rintro rfl
      exact hm (List.mem_map_of_mem ((List.takeWhile_sublist _).subset hrule))
    simpa using hne
  simp [substitutions, Body.leading?, Symbol.nonTerminal?, hnone]

theorem forall₂_cutOff_substitutions {fresh : NonTerminal} (hfresh : fresh ∉ g.order) {p q : Body}
    (h : Forest.CutOff fresh p q) :
    g.substitutions n q = [] ∨
      List.Forall₂ (Forest.CutOff fresh) (g.substitutions n p) (g.substitutions n q) := by
  rcases h with rfl | ⟨front, rest, rfl, rfl⟩
  · exact Or.inr (List.forall₂_same.2 fun p _ => Or.inl rfl)
  · by_cases hfront : front = []
    · subst hfront
      exact Or.inl (substitutions_singleton_of_not_mem_order hfresh)
    · right
      rw [Body.followedBy, substitutions_append hfront, substitutions_append hfront,
        List.forall₂_map_left_iff, List.forall₂_map_right_iff]
      exact List.forall₂_same.2 fun p _ => Or.inr ⟨p, rest, rfl, rfl⟩

end Grammar

end PredictiveParsing
