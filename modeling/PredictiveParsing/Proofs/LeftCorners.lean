/-
Module: PredictiveParsing.Proofs.LeftCorners
Layer: Proofs
Purpose: Left recursion as a loop. A left corner of a nonterminal is what one of its bodies has in
  front, once the symbols before it have vanished; a nonterminal is left recursive, through others
  and behind vanishing symbols too, if left corners lead from it back to it. Growing substitution
  trees follows left corners, so where there is no loop nothing is exposed, and removing left
  recursion leaves the grammar as it is.
Imports: PredictiveParsing.Proofs.WellFormed
Main exports: LoopFree, Grammar.LeftCorner, Grammar.LeftCornerIn,
  Grammar.transGen_leftCorner_of_transGen_step, Forest.Grown.exists_leftCorner,
  Grammar.removeLeftRecursion_eq_self
Open obligations: none
-/
import PredictiveParsing.Proofs.WellFormed

namespace PredictiveParsing

open Relation

/-! ### Relations without loops -/

/-- Nothing is related to itself, directly or by way of others. -/
def LoopFree {α : Type} (r : α → α → Prop) : Prop := ∀ a, ¬ TransGen r a a

namespace LoopFree

variable {α : Type} {r r' : α → α → Prop}

theorem mono (h : LoopFree r) (hle : ∀ a b, r' a b → r a b) : LoopFree r' :=
  fun a hloop => h a (TransGen.mono hle a a hloop)

/-- An element that nothing leads to is on no loop, whatever it leads to. -/
theorem of_unreached (h : LoopFree r) {x : α} (hx : ∀ a, ¬ r' a x)
    (hr : ∀ a b, a ≠ x → r' a b → r a b) : LoopFree r' := by
  have hne : ∀ {a b}, TransGen r' a b → b ≠ x := by
    rintro a b hab rfl
    cases hab with
    | single hlast => exact hx _ hlast
    | tail _ hlast => exact hx _ hlast
  intro a hloop
  have hpath : ∀ {b}, TransGen r' a b → TransGen r a b := by
    intro b hab
    induction hab with
    | single hfirst => exact .single (hr _ _ (hne hloop) hfirst)
    | tail hbefore hlast ih => exact .tail ih (hr _ _ (hne hbefore) hlast)
  exact h a (hpath hloop)

/-- If an element `y` is taken for the element `x` that leads to it, there are no loops but those
that there were. -/
theorem of_contract (h : LoopFree r) {x y : α} (f : α → α) (hx : f x = x) (hy : f y = x)
    (hne : x ≠ y) (hr : ∀ a b, r' a b → (a = x ∧ b = y) ∨ r (f a) (f b)) : LoopFree r' := by
  have hpath : ∀ {a b}, TransGen r' a b → (a = x ∧ b = y) ∨ TransGen r (f a) (f b) := by
    intro a b hab
    induction hab with
    | single hfirst => exact (hr _ _ hfirst).imp_right .single
    | tail _ hlast ih =>
        rcases ih with ⟨rfl, rfl⟩ | ih
        · rcases hr _ _ hlast with ⟨heq, _⟩ | hlast'
          · exact absurd heq.symm hne
          · rw [hy] at hlast'
            rw [hx]
            exact Or.inr (.single hlast')
        · rcases hr _ _ hlast with ⟨rfl, rfl⟩ | hlast'
          · rw [hx] at ih
            rw [hy]
            exact Or.inr ih
          · exact Or.inr (.tail ih hlast')
  intro a hloop
  rcases hpath hloop with ⟨rfl, heq⟩ | hold
  · exact hne heq
  · exact h _ hold

/-- A loop passes through `x` or avoids it. -/
theorem of_not_through (h : LoopFree r) {x : α} (hr : ∀ a b, a ≠ x → b ≠ x → r' a b → r a b)
    (hx : ¬ TransGen r' x x) : LoopFree r' := by
  have hpath : ∀ {a b}, TransGen r' a b →
      TransGen r a b ∨ (ReflTransGen r' a x ∧ ReflTransGen r' x b) := by
    intro a b hab
    have hends : ∀ {c d}, r' c d → r c d ∨ c = x ∨ d = x := by
      intro c d hcd
      by_cases hc : c = x
      · exact Or.inr (Or.inl hc)
      · by_cases hd : d = x
        · exact Or.inr (Or.inr hd)
        · exact Or.inl (hr c d hc hd hcd)
    induction hab with
    | single hfirst =>
        rcases hends hfirst with hold | rfl | rfl
        · exact Or.inl (.single hold)
        · exact Or.inr ⟨.refl, .single hfirst⟩
        · exact Or.inr ⟨.single hfirst, .refl⟩
    | tail hbefore hlast ih =>
        rcases ih with ih | ⟨hto, hfrom⟩
        · rcases hends hlast with hold | rfl | rfl
          · exact Or.inl (.tail ih hold)
          · exact Or.inr ⟨hbefore.to_reflTransGen, .single hlast⟩
          · exact Or.inr ⟨hbefore.to_reflTransGen.tail hlast, .refl⟩
        · exact Or.inr ⟨hto, hfrom.tail hlast⟩
  intro a hloop
  rcases hpath hloop with hold | ⟨hto, hfrom⟩
  · exact h a hold
  · exact hx ((hloop.trans_left hto).trans_right hfrom)

end LoopFree

namespace Grammar

/-! ### Left corners -/

/-- A body of `n` has `m` in front, once the symbols before it have vanished. -/
def LeftCorner (g : Grammar) (n m : NonTerminal) : Prop :=
  ∃ u v, g.Produces n (u ++ .nonTerminal m :: v) ∧ g.Derives u []

/-- A left corner, both nonterminals being among given ones. -/
def LeftCornerIn (g : Grammar) (V : NonTerminal → Prop) (n m : NonTerminal) : Prop :=
  V n ∧ V m ∧ g.LeftCorner n m

variable {g : Grammar} {n : NonTerminal}

theorem LeftCorner.mem_order {m : NonTerminal} (h : g.LeftCorner n m) : n ∈ g.order := by
  obtain ⟨_, _, hp, _⟩ := h
  exact hp.mem_order

theorem leftCorner_of_produces_cons {m : NonTerminal} {rest : Body}
    (h : g.Produces n (.nonTerminal m :: rest)) : g.LeftCorner n m :=
  ⟨[], rest, h, Derives.refl []⟩

/-- Left corners can be brought to the front. -/
theorem exists_derives_of_leftCorners {m : NonTerminal} (h : ReflTransGen g.LeftCorner n m) :
    ∃ v, g.Derives [.nonTerminal n] (.nonTerminal m :: v) := by
  induction h with
  | refl => exact ⟨[], Derives.refl _⟩
  | tail _ hlast ih =>
      obtain ⟨v, hv⟩ := ih
      obtain ⟨u, v', hp, hu⟩ := hlast
      refine ⟨v' ++ v, hv.trans (hp.derives_cons ?_)⟩
      simpa using hu.append_right (_ :: v' ++ v)

/-- Whatever nonterminal comes to the front of a form, left corners lead to it from a nonterminal
that is in front once the symbols before it have vanished. -/
theorem exists_leftCorners_of_derives {m : NonTerminal} {σ τ : List Symbol}
    (h : g.Derives σ (.nonTerminal m :: τ)) :
    ∃ u k v, σ = u ++ .nonTerminal k :: v ∧ g.Derives u [] ∧ ReflTransGen g.LeftCorner k m := by
  induction h using ReflTransGen.head_induction_on with
  | refl => exact ⟨[], m, τ, rfl, Derives.refl [], .refl⟩
  | head hstep _ ih =>
      obtain ⟨u, k, v, heq, hu, hpath⟩ := ih
      cases hstep with
      | @expand a b x p hp =>
          rcases split_append heq with ⟨rest, hap, _⟩ | ⟨rest, rfl, rfl⟩
          · rcases split_append hap with ⟨rest', rfl, _⟩ | ⟨rest', rfl, rfl⟩
            · exact ⟨u, k, rest' ++ .nonTerminal x :: b, by simp, hu, hpath⟩
            · obtain ⟨ha, hrest⟩ := derives_append_nil_iff.1 hu
              exact ⟨a, x, b, rfl, ha, .head ⟨rest', rest, hp, hrest⟩ hpath⟩
          · obtain ⟨hap, hrest⟩ := derives_append_nil_iff.1 hu
            obtain ⟨ha, hp'⟩ := derives_append_nil_iff.1 hap
            refine ⟨a ++ .nonTerminal x :: rest, k, v, by simp, ?_, hpath⟩
            exact derives_append_nil_iff.2 ⟨ha, hp.derives_cons (hp'.append hrest)⟩

/-- A nonterminal that derives a form with another one in front has it among the left corners of its
left corners. -/
theorem transGen_leftCorner_of_transGen_step {m : NonTerminal} {τ : List Symbol}
    (h : TransGen g.Step [.nonTerminal n] (.nonTerminal m :: τ)) : TransGen g.LeftCorner n m := by
  obtain ⟨σ, hfirst, hrest⟩ := TransGen.head'_iff.1 h
  obtain ⟨u, k, v, rfl, hu, hpath⟩ := exists_leftCorners_of_derives hrest
  exact TransGen.head' ⟨u, v, hfirst.of_singleton, hu⟩ hpath

/-! ### Substitution without loops -/

/-- Replacing the alternatives of a nonterminal by themselves changes nothing. -/
theorem setBodies_self (hnodup : g.order.Nodup) {bodies : OrderedSet Body}
    (h : g.bodies? n = some bodies) : g.setBodies n bodies = g := by
  have hrule := rule_mem_of_bodies? h
  have hrules : g.rules.map (fun rule => if rule.head = n then { rule with bodies } else rule) =
      g.rules := by
    conv_rhs => rw [← List.map_id g.rules]
    apply List.map_congr_left
    intro rule hmem
    by_cases hhead : rule.head = n
    · rw [rule_eq_of_head_eq hnodup hmem hrule hhead]
      simp
    · simp [hhead]
  cases g
  simpa [setBodies] using hrules

end Grammar

namespace Forest

theorem prune_of_exposes_eq_false {expand : Body → List Body} {n : NonTerminal} {roots : List Body}
    {forest : Forest} (h : Grown expand roots forest) (hexposes : forest.exposes n = false) :
    forest.prune n = roots := by
  induction h with
  | nil => rfl
  | cons _ _ _ ihBeside =>
      simp only [exposes, Bool.or_eq_false_iff] at hexposes
      simp [prune, hexposes.1.2, ihBeside hexposes.2]

variable {g : Grammar} {n : NonTerminal}

/-- If substitution brings `k` to the front, left corners lead to `k` from a nonterminal that is in
front of a root once the symbols before it have vanished. The nonterminals on the way are among
those that may be substituted. -/
theorem Grown.exists_leftCorner (hnodup : g.order.Nodup) {V : NonTerminal → Prop}
    (hV : ∀ b ∈ g.order.takeWhile (· ≠ n), V b) {k : NonTerminal} (hk : V k) {roots : List Body}
    {forest : Forest} (h : Grown (g.substitutions n) roots forest)
    (hexposes : forest.exposes k = true) :
    ∃ root ∈ roots, ∃ u m v, root = u ++ .nonTerminal m :: v ∧ g.Derives u [] ∧ V m ∧
      ReflTransGen (g.LeftCornerIn V) m k := by
  induction h with
  | nil => cases hexposes
  | @cons root rest children siblings _ _ ihBelow ihBeside =>
      simp only [exposes, Bool.or_eq_true] at hexposes
      rcases hexposes with (hroot | hchildren) | hsiblings
      · obtain ⟨tail, hfront⟩ := Body.beginsWith_iff.1 hroot
        exact ⟨root, List.mem_cons_self, [], k, tail, hfront, Grammar.Derives.refl [], hk, .refl⟩
      · refine ⟨root, List.mem_cons_self, ?_⟩
        obtain ⟨child, hchild, u, m, v, heq, hu, hm, hpath⟩ := ihBelow hchildren
        obtain ⟨b, tail, r, rfl, hb, _, hr, rfl⟩ := (Grammar.mem_substitutions hnodup).1 hchild
        rcases split_append heq with ⟨rest', rfl, _⟩ | ⟨rest', rfl, rfl⟩
        · -- What is in front comes from the body that was substituted.
          exact ⟨[], b, tail, rfl, Grammar.Derives.refl [], hV b hb,
            .head ⟨hV b hb, hm, u, rest', hr, hu⟩ hpath⟩
        · -- The body that was substituted vanishes, and so does the nonterminal it replaced.
          obtain ⟨hr', hrest'⟩ := Grammar.derives_append_nil_iff.1 hu
          exact ⟨.nonTerminal b :: rest', m, v, rfl, hr.derives_cons (hr'.append hrest'), hm, hpath⟩
      · obtain ⟨other, hother, hfound⟩ := ihBeside hsiblings
        exact ⟨other, List.mem_cons_of_mem _ hother, hfound⟩

end Forest

namespace Grammar

variable {g h : Grammar} {n : NonTerminal}

/-- Where left corners do not lead from a nonterminal back to it, by way of those that may be
substituted, removing its left recursion leaves the grammar as it is. -/
theorem removeLeftRecursion_eq_self (hnodup : g.order.Nodup) {V : NonTerminal → Prop} (hn : V n)
    (hV : ∀ b ∈ g.order.takeWhile (· ≠ n), V b) (hloop : ¬ TransGen (g.LeftCornerIn V) n n)
    {limit : Nat} (hremove : g.removeLeftRecursion limit n = some h) : h = g := by
  obtain ⟨expanded, hexpand, hh⟩ := Option.map_eq_some_iff.1 hremove
  have hexpanded : expanded = g := by
    rcases expandEarlier_cases hexpand with heq | ⟨bodies, forest, hbodies, hgrown, heq⟩
    · exact heq
    · have hexposes : forest.exposes n = false := by
        by_contra hexposed
        obtain ⟨root, hroot, u, m, v, rfl, hu, hm, hpath⟩ :=
          hgrown.exists_leftCorner hnodup hV hn (by simpa using hexposed)
        have hproduces := (produces_iff_of_bodies? hnodup hbodies).2 hroot
        exact hloop (.head' ⟨hn, hm, u, v, hproduces, hu⟩ hpath)
      rw [heq, Forest.prune_of_exposes_eq_false hgrown hexposes, OrderedSet.ofList_toList,
        setBodies_self hnodup hbodies]
  have hdirect : ¬ expanded.isLeftRecursive n = true := by
    intro hrecursive
    subst hexpanded
    obtain ⟨rest, hrest⟩ := (isLeftRecursive_iff hnodup).1 hrecursive
    exact hloop (.single ⟨hn, hn, leftCorner_of_produces_cons hrest⟩)
  rw [if_neg hdirect] at hh
  rw [← hh, hexpanded]

end Grammar

end PredictiveParsing
