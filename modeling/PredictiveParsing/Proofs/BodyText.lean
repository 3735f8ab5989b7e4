/-
Module: PredictiveParsing.Proofs.BodyText
Layer: Proofs
Purpose: Which bodies can be told by their text. A body that is written and read again takes all
  primes after a letter for primes of that nonterminal, so what is read differs if and only if a
  nonterminal was directly followed by a terminal prime. Normalization brings symbols together that
  did not stand together before. But a body that is substituted takes the place of a nonterminal, a
  new nonterminal is added at the end of a body, and a prefix is cut off from the rest of its own
  body, so a nonterminal that had no prime behind it gets none.
Imports: Mathlib, PredictiveParsing.Proofs.NormalizationFrame
Main exports: Body.Legible, Body.Plain, Body.ofString_toString_iff, Forest.Grown.forall_mem_prune,
  Grammar.Legible, Grammar.Legible.normalizationSteps, Session.ofString_toString_normalizeWithin
Open obligations: none
-/
import Mathlib
import PredictiveParsing.Proofs.NormalizationFrame

namespace PredictiveParsing

namespace Body

/-- No nonterminal of the body is directly followed by a terminal prime. -/
def Legible (p : Body) : Prop :=
  ∀ u n v, p ≠ u ++ .nonTerminal n :: .terminal primeMark :: v

/-- The terminals of the body are characters that are read as terminals. -/
def Plain (p : Body) : Prop :=
  ∀ c, .terminal c ∈ p → isEmptyMark c = false ∧ c.isUpper = false

/-! ### Legible bodies -/

section Legible

variable {p q : Body} {n : NonTerminal} {c : Char}

theorem Legible.of_append_left (h : Legible (p ++ q)) : p.Legible := by
  rintro u n v rfl
  exact h u n (v ++ q) (by simp)

theorem Legible.of_append_right (h : Legible (p ++ q)) : q.Legible := by
  rintro u n v rfl
  exact h (p ++ u) n v (by simp)

/-- Two legible bodies can be joined unless the second begins with a prime. -/
theorem Legible.append (hp : p.Legible) (hq : q.Legible)
    (hfirst : q.head? ≠ some (.terminal primeMark)) : Legible (p ++ q) := by
  intro u n v heq
  rcases split_append heq with ⟨rest, hold, hnext⟩ | ⟨rest, _, hlater⟩
  · cases rest with
    | nil =>
        -- The nonterminal ends the first body, so the prime begins the second.
        exact hfirst (by rw [← List.nil_append q, ← hnext, List.head?_cons])
    | cons s rest =>
        obtain ⟨rfl, _⟩ := List.cons.inj hnext
        exact hp u n rest hold
  · exact hq rest n v hlater

@[simp]
theorem legible_nil : Legible [] := by
  intro u n v heq
  simp at heq

@[simp]
theorem legible_terminal_cons : Legible (.terminal c :: p) ↔ p.Legible := by
  constructor
  · exact Legible.of_append_right (p := [.terminal c])
  · intro h u n v heq
    cases u with
    | nil => cases heq
    | cons s u => exact h u n v (List.cons.inj heq).2

@[simp]
theorem legible_nonTerminal_cons :
    Legible (.nonTerminal n :: p) ↔ p.head? ≠ some (.terminal primeMark) ∧ p.Legible := by
  constructor
  · intro h
    refine ⟨fun hfirst => ?_, Legible.of_append_right (p := [.nonTerminal n]) h⟩
    obtain ⟨v, rfl⟩ := List.head?_eq_some_iff.1 hfirst
    exact h [] n v rfl
  · rintro ⟨hfirst, h⟩
    refine Legible.append (p := [.nonTerminal n]) ?_ h hfirst
    intro u m v heq
    have hlength := congrArg List.length heq
    simp at hlength
    omega

instance decidableLegible : (p : Body) → Decidable p.Legible
  | [] => isTrue legible_nil
  | .terminal _ :: p =>
      have := decidableLegible p
      decidable_of_iff _ legible_terminal_cons.symm
  | .nonTerminal _ :: p =>
      have := decidableLegible p
      decidable_of_iff _ legible_nonTerminal_cons.symm

theorem Legible.followedBy (h : p.Legible) (n : NonTerminal) : (p.followedBy n).Legible :=
  h.append (by simp) (by simp)

end Legible

/-! ### Reading what was written -/

theorem plain_read (cs : List Char) : (read cs).Plain :=
  fun _ hc => (of_mem_read hc).2

variable {p : Body}

/-- The mark of the empty body is dropped when it is read, so all bodies can be treated alike. -/
theorem read_text (p : Body) : read p.text = read (p.flatMap Symbol.text) := by
  cases p with
  | nil => simp [text, read, isEmptyMark]
  | cons s rest => rfl

/-- Reading a name takes all primes that follow it. -/
theorem read_nonTerminal_text_append (n : NonTerminal) (rest : List Char) :
    read (n.text ++ rest) =
      .nonTerminal ⟨n.letter, n.primes + (rest.takeWhile (· == primeMark)).length,
        n.letter_isUpper⟩ :: read (rest.dropWhile (· == primeMark)) := by
  have hprimes : ∀ c ∈ List.replicate n.primes primeMark, (c == primeMark) = true := by
    intro c hc
    rw [List.eq_of_mem_replicate hc, beq_self_eq_true]
  have hampersand : n.letter ≠ '&' := n.letter_ne rfl
  have hmark : n.letter ≠ emptyMark := n.letter_ne rfl
  rw [NonTerminal.text, List.cons_append, read, if_neg (by simp [isEmptyMark, hampersand, hmark]),
    dif_pos n.letter_isUpper]
  simp only [List.takeWhile_append_of_pos hprimes, List.dropWhile_append_of_pos hprimes,
    List.length_append, List.length_replicate]

/-- The text of some symbols begins with a prime only if the first of them is one. -/
theorem head?_flatMap_text :
    (p.flatMap Symbol.text).head? = some primeMark ↔ p.head? = some (.terminal primeMark) := by
  cases p with
  | nil => simp
  | cons s rest =>
      cases s with
      | terminal c => simp [Symbol.text]
      | nonTerminal n =>
          have hletter : n.letter ≠ primeMark := n.letter_ne rfl
          simp [Symbol.text, NonTerminal.text, hletter]

/-- Symbols are read back from their text if and only if no prime changes its meaning. -/
theorem read_flatMap_text_iff (hplain : p.Plain) :
    read (p.flatMap Symbol.text) = p ↔ p.Legible := by
  induction p with
  | nil => simp [read]
  | cons s rest ih =>
      have hrest : Plain rest := fun c hc => hplain c (List.mem_cons_of_mem _ hc)
      rw [List.flatMap_cons]
      cases s with
      | terminal c =>
          obtain ⟨hmark, hupper⟩ := hplain c List.mem_cons_self
          rw [Symbol.text, List.singleton_append, read, if_neg (by simp [hmark]),
            dif_neg (by simp [hupper]), List.cons.injEq, legible_terminal_cons, ih hrest]
          exact and_iff_right rfl
      | nonTerminal n =>
          rw [Symbol.text, read_nonTerminal_text_append, legible_nonTerminal_cons, ← ih hrest,
            ne_eq, ← head?_flatMap_text]
          obtain ⟨letter, primes, _⟩ := n
          cases hchars : rest.flatMap Symbol.text with
          | nil => simp
          | cons c tail =>
              by_cases hprime : c = primeMark
              · -- The nonterminal that is read has more primes.
                simp [hprime]
              · simp [hprime]

/-- A body is read back from its text if and only if it is legible. -/
theorem ofString_toString_iff (hplain : p.Plain) : ofString p.toString = p ↔ p.Legible := by
  rw [ofString, toString, String.toList_ofList, read_text, read_flatMap_text_iff hplain]

end Body

namespace Forest

/-- What holds of the roots and is handed down to children holds of all that remains. -/
theorem Grown.forall_mem_prune {expand : Body → List Body} {roots : List Body} {forest : Forest}
    {P : Body → Prop} (h : Grown expand roots forest)
    (hexpand : ∀ p q, P p → q ∈ expand p → P q) (hroots : ∀ p ∈ roots, P p) (n : NonTerminal) :
    ∀ p ∈ forest.prune n, P p := by
  induction h with
  | nil => exact fun _ hp => absurd hp List.not_mem_nil
  | @cons root rest children siblings _ _ ihBelow ihBeside =>
      obtain ⟨hroot, hrest⟩ := List.forall_mem_cons.1 hroots
      intro p hp
      rcases List.mem_append.1 hp with htree | hsiblings
      · by_cases hexposes : exposes n children = true
        · rw [if_pos hexposes] at htree
          exact ihBelow (fun q hq => hexpand root q hroot hq) p htree
        · rw [if_neg hexposes, List.mem_singleton] at htree
          exact htree ▸ hroot
      · exact ihBeside hrest p hsiblings

end Forest

namespace Grammar

/-- All bodies of the grammar are legible. -/
def Legible (g : Grammar) : Prop := ∀ n p, g.Produces n p → p.Legible

namespace Legible

variable {g h : Grammar} {n : NonTerminal} {bodies : OrderedSet Body}

theorem of_mem_bodies (hg : g.Legible) (hnodup : g.order.Nodup)
    (hbodies : g.bodies? n = some bodies) {p : Body} (hp : p ∈ bodies) : p.Legible :=
  hg n p ((produces_iff_of_bodies? hnodup hbodies).2 hp)

/-- A body that is substituted stands before what stood behind a nonterminal. -/
theorem of_mem_substitutions (hg : g.Legible) (hnodup : g.order.Nodup) {p q : Body}
    (hp : p.Legible) (hq : q ∈ g.substitutions n p) : q.Legible := by
  obtain ⟨b, tail, r, rfl, _, _, hr, rfl⟩ := (mem_substitutions hnodup).1 hq
  obtain ⟨hfirst, htail⟩ := Body.legible_nonTerminal_cons.1 hp
  exact (hg b r hr).append htail hfirst

theorem expandEarlier (hg : g.Legible) (hnodup : g.order.Nodup) {limit : Nat}
    (hexpand : g.expandEarlier limit n = some h) : h.Legible := by
  rcases expandEarlier_cases hexpand with rfl | ⟨bodies, forest, hbodies, hgrown, rfl⟩
  · exact hg
  · intro m p hp
    rcases produces_setBodies.1 hp with ⟨_, hold⟩ | ⟨_, _, hnew⟩
    · exact hg m p hold
    · refine hgrown.forall_mem_prune (fun _ _ => hg.of_mem_substitutions hnodup) ?_ n p
        (OrderedSet.mem_ofList.1 hnew)
      exact fun q hq => hg.of_mem_bodies hnodup hbodies hq

theorem splitRecursion (hg : g.Legible) (hnodup : g.order.Nodup)
    (hrecursive : g.isLeftRecursive n = true) : (g.splitRecursion n).Legible := by
  obtain ⟨bodies, hbodies⟩ := exists_bodies_of_isLeftRecursive hrecursive
  have hold : ∀ q ∈ bodies, q.Legible := fun q => hg.of_mem_bodies hnodup hbodies
  intro m p hp
  rcases (produces_splitRecursion hbodies).1 hp with ⟨_, hother⟩ | ⟨_, hkept⟩ | ⟨_, hmoved⟩
  · exact hg m p hother
  · rcases mem_baseBodies.1 hkept with ⟨q, hq, _, rfl⟩ | ⟨_, rfl⟩
    · exact (hold q hq).followedBy _
    · simp
  · rcases mem_repeatBodies.1 hmoved with rfl | ⟨tail, _, hq, rfl⟩
    · exact Body.legible_nil
    · -- The nonterminal in front is gone, and what followed it goes to the new one.
      exact (Body.legible_nonTerminal_cons.1 (hold _ hq)).2.followedBy _

theorem factorOnce (hg : g.Legible) (hnodup : g.order.Nodup) (hbodies : g.bodies? n = some bodies)
    (shared : Body) : (g.factorOnce n bodies shared).Legible := by
  have hold : ∀ q ∈ bodies, q.Legible := fun q => hg.of_mem_bodies hnodup hbodies
  intro m p hp
  rcases (produces_factorOnce hbodies).1 hp with ⟨_, hother⟩ | ⟨_, hkept⟩ | ⟨_, hmoved⟩
  · exact hg m p hother
  · rcases mem_factoredBodies.1 hkept with ⟨hq, _⟩ | ⟨rfl, rest, hq⟩
    · exact hold p hq
    · exact (hold _ hq).of_append_left.followedBy _
  · exact (hold _ (mem_remainders.1 hmoved)).of_append_right

theorem normalizationStep (hg : g.Legible) (hwell : g.WellFormed) (hstep : NormalizationStep g h) :
    h.Legible := by
  cases hstep with
  | expand hexpand => exact hg.expandEarlier hwell.nodup_order hexpand
  | split hrecursive => exact hg.splitRecursion hwell.nodup_order hrecursive
  | factor hbodies _ => exact hg.factorOnce hwell.nodup_order hbodies _

theorem normalizationSteps (hg : g.Legible) (hwell : g.WellFormed)
    (hsteps : NormalizationSteps g h) : h.Legible := by
  induction hsteps with
  | refl => exact hg
  | tail hfirst hlast ih => exact ih.normalizationStep (hwell.normalizationSteps hfirst) hlast

end Legible

/-- No terminal of a grammar that is read is an uppercase letter. -/
theorem isUpper_of_parse {text : String} {g : Grammar} (h : parse text = .ok g) :
    ∀ c ∈ g.terminals, c.isUpper = false := by
  refine parse_induction (P := fun g => ∀ c ∈ g.terminals, c.isUpper = false)
    (fun _ hc => absurd hc List.not_mem_nil) ?_ h
  intro g head cs hg c hc
  rcases OrderedSet.mem_insertAll.1 hc with hold | hnew
  · exact hg c hold
  · exact (Body.of_mem_read (Body.mem_terminals.1 hnew)).2.2

/-- All bodies over the terminals of such a grammar are plain. -/
theorem plain_of_normalizationSteps {text : String} {g h : Grammar} (hparse : parse text = .ok g)
    (hsteps : NormalizationSteps g h) {n : NonTerminal} {p : Body} (hp : h.Produces n p) :
    p.Plain := by
  have hwell : g.WellFormed := .of_parse hparse
  intro c hc
  obtain ⟨hmet, hmark⟩ := (hwell.normalizationSteps hsteps).body_met n p hp _ hc
  rw [(Keeps.normalizationSteps hwell hsteps).terminals] at hmet
  exact ⟨hmark, isUpper_of_parse hparse c hmet⟩

end Grammar

namespace Session

open Grammar

/-- If no body of a text has a terminal prime directly behind a nonterminal, then the bodies that
normalizing it within a limit leaves, finished or not, are read back from their texts, and
different ones have different texts. Of all bodies that can be read, exactly those without such a
prime are read back. -/
theorem ofString_toString_normalizeWithin :
    (∀ (text : String) (s : Session), Session.parse text = .ok s → s.grammar.Legible → ∀ limit,
      let t := (s.apply (.normalizeWithin limit)).1
      (∀ n p, t.grammar.Produces n p → Body.ofString p.toString = p) ∧
      ∀ m n p q, t.grammar.Produces m p → t.grammar.Produces n q → p.toString = q.toString →
        p = q) ∧
    ∀ text : String, Body.ofString (Body.ofString text).toString = Body.ofString text ↔
      (Body.ofString text).Legible := by
  refine ⟨?_, fun text => Body.ofString_toString_iff (Body.plain_read text.toList)⟩
  intro text s hparse hlegible limit t
  have hwell := wellFormed_of_parse hparse
  have hsteps := normalizationSteps_normalizeWithin limit s.grammar
  have hread : ∀ n p, t.grammar.Produces n p → Body.ofString p.toString = p := by
    intro n p hp
    have hplain : p.Plain :=
      plain_of_normalizationSteps (grammar_of_parse hparse) hsteps hp
    exact (Body.ofString_toString_iff hplain).2 (hlegible.normalizationSteps hwell hsteps n p hp)
  refine ⟨hread, fun m n p q hp hq htext => ?_⟩
  rw [← hread m p hp, htext, hread n q hq]

/-- A normalization that gives up after a body was substituted in front of another nonterminal and
a prefix that is a prime was factored out; and a dropped mark that kept a prime from a letter. -/
theorem ofString_toString_normalizeWithin_stopped :
    let s := withLines ["S->A'b", "S->&", "A->SAc'", "A->'d", "A->'a"]
    let t := (s.apply (.normalizeWithin 5)).1
    Session.parse "S->A'b\nS->&\nA->SAc'\nA->'d\nA->'a" = .ok s ∧ s.grammar.Legible ∧
      (s.apply (.normalizeWithin 5)).2 ≠ none ∧
      (t.grammar.bodies? ⟨'A', 0, rfl⟩).map (·.toList.map Body.text) =
        some ["A'bAc'A''".toList, "'A'''".toList] ∧
      (∀ n p, t.grammar.Produces n p → Body.ofString p.toString = p) ∧
      ¬ (Body.ofString "A&'").Legible ∧
      Body.ofString (Body.ofString "A&'").toString ≠ Body.ofString "A&'" := by
  intro s t
  have hparse : Session.parse "S->A'b\nS->&\nA->SAc'\nA->'d\nA->'a" = .ok s := by
    unfold s
    cbv
  have hlegible : s.grammar.Legible := by
    have hrules : ∀ rule ∈ s.grammar.rules, ∀ p ∈ rule.bodies.toList, p.Legible := by
      decide +kernel
    intro n p hp
    obtain ⟨rule, hrule, _, hbody⟩ := hp
    exact hrules rule hrule p hbody
  have hstopped : (s.apply (.normalizeWithin 5)).2 =
      some (.limitExceeded ⟨.size, ⟨'A', 3, rfl⟩⟩) := by
    unfold s
    cbv
  have hbodies : (t.grammar.bodies? ⟨'A', 0, rfl⟩).map (·.toList.map Body.text) =
      some ["A'bAc'A''".toList, "'A'''".toList] := by
    unfold t s
    cbv
  have hillegible : ¬ (Body.ofString "A&'").Legible := by
    have hread : Body.ofString "A&'" = [.nonTerminal ⟨'A', 0, rfl⟩, .terminal primeMark] := by cbv
    rw [hread]
    decide
  obtain ⟨hnormalized, htexts⟩ := ofString_toString_normalizeWithin
  exact ⟨hparse, hlegible, by rw [hstopped]; exact Option.some_ne_none _, hbodies,
    (hnormalized _ s hparse hlegible 5).1, hillegible, mt (htexts "A&'").1 hillegible⟩

end Session

end PredictiveParsing
