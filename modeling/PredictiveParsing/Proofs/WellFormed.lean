/-
Module: PredictiveParsing.Proofs.WellFormed
Layer: Proofs
Purpose: What holds of the grammar of every session. Each nonterminal has one rule, and a rule has
  alternatives; the grammar has met all symbols that it uses; and no body holds a mark for the empty
  body as a terminal. Adding a production keeps this, and so does each change that normalization
  makes, so that it holds after any sequence of operations.
Imports: PredictiveParsing.Proofs.Substitution, PredictiveParsing.Session
Main exports: Body.of_mem_read, Grammar.WellFormed, Grammar.WellFormed.normalizationSteps,
  Grammar.WellFormed.of_parse, Session.grammar_of_parse, Session.exists_of_build,
  Session.Reachable.grammar_induction, Session.Reachable.wellFormed, Session.withLines
Open obligations: none
-/
import PredictiveParsing.Proofs.Substitution
import PredictiveParsing.Session

namespace PredictiveParsing

open Relation

/-- A terminal that is read was written. It is no mark for the empty body, since these are dropped,
and no uppercase letter, since that is read as a nonterminal. -/
theorem Body.of_mem_read {cs : List Char} {c : Char} (h : .terminal c ∈ Body.read cs) :
    c ∈ cs ∧ isEmptyMark c = false ∧ c.isUpper = false := by
  fun_induction Body.read cs with
  | case1 => cases h
  | case2 _ _ _ ih =>
      obtain ⟨hmem, hplain⟩ := ih h
      exact ⟨List.mem_cons_of_mem _ hmem, hplain⟩
  | case3 _ rest _ _ ih =>
      rcases List.mem_cons.1 h with heq | hrest
      · cases heq
      · obtain ⟨hmem, hplain⟩ := ih hrest
        exact ⟨List.mem_cons_of_mem _ ((List.dropWhile_sublist _).subset hmem), hplain⟩
  | case4 _ _ hmark hupper ih =>
      rcases List.mem_cons.1 h with heq | hrest
      · cases heq
        exact ⟨List.mem_cons_self, by simpa using hmark, by simpa using hupper⟩
      · obtain ⟨hmem, hplain⟩ := ih hrest
        exact ⟨List.mem_cons_of_mem _ hmem, hplain⟩

theorem Body.mem_nonTerminals {p : Body} {n : NonTerminal} :
    n ∈ p.nonTerminals ↔ .nonTerminal n ∈ p := by
  simp only [Body.nonTerminals, List.mem_filterMap]
  constructor
  · intro h
    obtain ⟨s, hs, hn⟩ := h
    cases s with
    | nonTerminal m => cases hn; exact hs
    | terminal c => cases hn
  · intro h
    exact ⟨_, h, rfl⟩

theorem Body.mem_terminals {p : Body} {c : Char} : c ∈ p.terminals ↔ .terminal c ∈ p := by
  simp only [Body.terminals, List.mem_filterMap]
  constructor
  · intro h
    obtain ⟨s, hs, hc⟩ := h
    cases s with
    | nonTerminal m => cases hc
    | terminal d => cases hc; exact hs
  · intro h
    exact ⟨_, h, rfl⟩

namespace Grammar

/-- The grammar has met a symbol, which is not a mark for the empty body. -/
def Meets (g : Grammar) : Symbol → Prop
  | .nonTerminal n => n ∈ g.nonTerminals
  | .terminal c => c ∈ g.terminals ∧ isEmptyMark c = false

/-- Every nonterminal of the order has one rule and some alternative, and the symbols in use were
met. -/
structure WellFormed (g : Grammar) : Prop where
  nodup_order : g.order.Nodup
  exists_body : ∀ n ∈ g.order, ∃ p, g.Produces n p
  order_met : ∀ n ∈ g.order, n ∈ g.nonTerminals
  body_met : ∀ n p, g.Produces n p → ∀ s ∈ p, g.Meets s

theorem wellFormed_empty : (∅ : Grammar).WellFormed where
  nodup_order := List.nodup_nil
  exists_body := fun _ hn => absurd hn List.not_mem_nil
  order_met := fun _ hn => absurd hn List.not_mem_nil
  body_met := by
    intro n p hp
    obtain ⟨rule, hrule, _⟩ := hp
    exact absurd hrule List.not_mem_nil

namespace WellFormed

variable {g : Grammar}

/-- Only symbols that were met are derived from such symbols. -/
theorem met_of_derives (hg : g.WellFormed) {σ τ : List Symbol} (hσ : ∀ s ∈ σ, g.Meets s)
    (h : g.Derives σ τ) : ∀ s ∈ τ, g.Meets s := by
  intro s hs
  rcases h.mem_or_produces hs with hold | ⟨n, p, hp, hbody⟩
  · exact hσ s hold
  · exact hg.body_met n p hp s hbody

/-- A new name is the head of no rule. -/
theorem freshFor_not_mem_order (hg : g.WellFormed) (n : NonTerminal) : g.freshFor n ∉ g.order :=
  fun hmem => g.freshFor_not_mem n (hg.order_met _ hmem)

/-- A new name stands in no body. -/
theorem freshFor_not_mem_body (hg : g.WellFormed) (n : NonTerminal) {m : NonTerminal} {p : Body}
    (hp : g.Produces m p) : .nonTerminal (g.freshFor n) ∉ p :=
  fun hmem => g.freshFor_not_mem n (hg.body_met m p hp _ hmem)

/-- A production whose body was read from text may be added. -/
theorem insert (hg : g.WellFormed) (head : NonTerminal) (cs : List Char) :
    (g.insert head (Body.read cs)).WellFormed := by
  have hmet : ∀ s, g.Meets s → (g.insert head (Body.read cs)).Meets s := by
    intro s hs
    cases s with
    | nonTerminal n =>
        exact OrderedSet.mem_insertAll.2 (Or.inl (OrderedSet.mem_insert.2 (Or.inl hs)))
    | terminal c => exact ⟨OrderedSet.mem_insertAll.2 (Or.inl hs.1), hs.2⟩
  have horder : ∀ n, n ∈ (g.insert head (Body.read cs)).order → n ∈ g.order ∨ n = head := by
    intro n hn
    rw [order_insert] at hn
    by_cases h : head ∈ g.order
    · rw [if_pos h] at hn
      exact Or.inl hn
    · rw [if_neg h, List.mem_append, List.mem_singleton] at hn
      exact hn
  constructor
  · rw [order_insert]
    by_cases h : head ∈ g.order
    · rw [if_pos h]
      exact hg.nodup_order
    · rw [if_neg h]
      exact List.nodup_append.2 ⟨hg.nodup_order, by simp, by
        intro a ha b hb hab
        rw [List.mem_singleton] at hb
        exact h (hb ▸ hab ▸ ha)⟩
  · intro n hn
    rcases horder n hn with hold | rfl
    · obtain ⟨p, hp⟩ := hg.exists_body n hold
      exact ⟨p, produces_insert.2 (Or.inr hp)⟩
    · exact ⟨_, produces_insert.2 (Or.inl ⟨rfl, rfl⟩)⟩
  · intro n hn
    apply OrderedSet.mem_insertAll.2
    rcases horder n hn with hold | rfl
    · exact Or.inl (OrderedSet.mem_insert.2 (Or.inl (hg.order_met n hold)))
    · exact Or.inl (OrderedSet.mem_insert.2 (Or.inr rfl))
  · intro n p hp s hs
    rcases produces_insert.1 hp with ⟨_, rfl⟩ | hold
    · cases s with
      | nonTerminal m =>
          exact OrderedSet.mem_insertAll.2 (Or.inr (Body.mem_nonTerminals.2 hs))
      | terminal c =>
          exact ⟨OrderedSet.mem_insertAll.2 (Or.inr (Body.mem_terminals.2 hs)),
            (Body.of_mem_read hs).2.1⟩
    · exact hmet s (hg.body_met n p hold s hs)

/-- Alternatives may be replaced by others that use met symbols only. -/
theorem setBodies (hg : g.WellFormed) {n : NonTerminal} {bodies : OrderedSet Body}
    (hbodies : ∃ p, p ∈ bodies) (hmet : ∀ p ∈ bodies, ∀ s ∈ p, g.Meets s) :
    (g.setBodies n bodies).WellFormed := by
  constructor
  · rw [order_setBodies]
    exact hg.nodup_order
  · intro m hm
    rw [order_setBodies] at hm
    by_cases h : m = n
    · subst h
      obtain ⟨p, hp⟩ := hbodies
      exact ⟨p, produces_setBodies.2 (Or.inr ⟨rfl, hm, hp⟩)⟩
    · obtain ⟨p, hp⟩ := hg.exists_body m hm
      exact ⟨p, produces_setBodies.2 (Or.inl ⟨h, hp⟩)⟩
  · intro m hm
    rw [order_setBodies] at hm
    exact hg.order_met m hm
  · intro m p hp
    have hold : ∀ s ∈ p, g.Meets s := by
      rcases produces_setBodies.1 hp with ⟨_, hp'⟩ | ⟨_, _, hp'⟩
      · exact hg.body_met m p hp'
      · exact hmet p hp'
    intro s hs
    -- Replacing alternatives leaves the sets of met symbols alone.
    cases s with
    | nonTerminal k => exact hold _ hs
    | terminal c => exact hold _ hs

/-- A nonterminal may be split if both parts use met symbols and the new name only. -/
theorem splitOff (hg : g.WellFormed) {base fresh : NonTerminal} {kept moved : OrderedSet Body}
    (hfresh : fresh ∉ g.nonTerminals) (hkept : ∃ p, p ∈ kept) (hmoved : ∃ p, p ∈ moved)
    (hmet : ∀ p, p ∈ kept ∨ p ∈ moved → ∀ s ∈ p, g.Meets s ∨ s = .nonTerminal fresh) :
    (g.splitOff base fresh kept moved).WellFormed := by
  constructor
  · exact nodup_order_splitOff hg.nodup_order fun hmem => hfresh (hg.order_met _ hmem)
  · intro m hm
    rcases mem_order_splitOff.1 hm with hold | ⟨rfl, hbase⟩
    · by_cases h : m = base
      · subst h
        obtain ⟨p, hp⟩ := hkept
        exact ⟨p, produces_splitOff.2 (Or.inr ⟨hold, Or.inl ⟨rfl, hp⟩⟩)⟩
      · obtain ⟨p, hp⟩ := hg.exists_body m hold
        exact ⟨p, produces_splitOff.2 (Or.inl ⟨h, hp⟩)⟩
    · obtain ⟨p, hp⟩ := hmoved
      exact ⟨p, produces_splitOff.2 (Or.inr ⟨hbase, Or.inr ⟨rfl, hp⟩⟩)⟩
  · intro m hm
    apply OrderedSet.mem_insert.2
    rcases mem_order_splitOff.1 hm with hold | ⟨rfl, _⟩
    · exact Or.inl (hg.order_met m hold)
    · exact Or.inr rfl
  · intro m p hp
    have hold : ∀ s ∈ p, g.Meets s ∨ s = .nonTerminal fresh := by
      rcases produces_splitOff.1 hp with ⟨_, hp'⟩ | ⟨_, ⟨_, hp'⟩ | ⟨_, hp'⟩⟩
      · exact fun s hs => Or.inl (hg.body_met m p hp' s hs)
      · exact hmet p (Or.inl hp')
      · exact hmet p (Or.inr hp')
    intro s hs
    cases s with
    | nonTerminal k =>
        apply OrderedSet.mem_insert.2
        rcases hold _ hs with hmeets | heq
        · exact Or.inl hmeets
        · exact Or.inr (Symbol.nonTerminal.inj heq)
    | terminal c =>
        rcases hold _ hs with hmeets | heq
        · exact hmeets
        · cases heq

/-- Substitution keeps a grammar well formed. -/
theorem expandEarlier (hg : g.WellFormed) {h : Grammar} {limit : Nat} {n : NonTerminal}
    (hexpand : g.expandEarlier limit n = some h) : h.WellFormed := by
  rcases expandEarlier_cases hexpand with rfl | ⟨bodies, forest, hbodies, hgrown, rfl⟩
  · exact hg
  · have hproduces : ∀ {p}, g.Produces n p ↔ p ∈ bodies :=
      produces_iff_of_bodies? hg.nodup_order hbodies
    apply hg.setBodies
    · -- The old alternatives are not empty, so neither is their forest.
      obtain ⟨p, hp⟩ := hg.exists_body n (mem_order_of_bodies? hbodies)
      have hne : forest ≠ .nil := hgrown.ne_nil (List.ne_nil_of_mem (hproduces.1 hp))
      obtain ⟨q, hq⟩ := List.exists_mem_of_ne_nil _ (Forest.prune_ne_nil (n := n) hne)
      exact ⟨q, OrderedSet.mem_ofList.2 hq⟩
    · intro p hp
      obtain ⟨root, hroot, hder⟩ :=
        hgrown.derives_of_mem_prune hg.nodup_order (OrderedSet.mem_ofList.1 hp)
      exact hg.met_of_derives (hg.body_met n root (hproduces.2 hroot)) hder

/-- Moving left recursion to a new nonterminal keeps a grammar well formed. -/
theorem splitRecursion (hg : g.WellFormed) {n : NonTerminal}
    (hrecursive : g.isLeftRecursive n = true) : (g.splitRecursion n).WellFormed := by
  obtain ⟨bodies, hbodies⟩ := exists_bodies_of_isLeftRecursive hrecursive
  have hproduces : ∀ {p}, g.Produces n p ↔ p ∈ bodies :=
    produces_iff_of_bodies? hg.nodup_order hbodies
  rw [splitRecursion_eq hbodies]
  apply hg.splitOff (g.freshFor_not_mem n)
  · by_cases hbase : ∃ q ∈ bodies, q.beginsWith n = false
    · obtain ⟨q, hq, hq'⟩ := hbase
      exact ⟨_, mem_baseBodies.2 (Or.inl ⟨q, hq, hq', rfl⟩)⟩
    · have hall : ∀ q ∈ bodies, q.beginsWith n = true := by
        intro q hq
        by_contra hnot
        exact hbase ⟨q, hq, by simpa using hnot⟩
      exact ⟨_, mem_baseBodies.2 (Or.inr ⟨hall, rfl⟩)⟩
  · exact ⟨[], mem_repeatBodies.2 (Or.inl rfl)⟩
  · intro p hp s hs
    rcases hp with hkept | hmoved
    · rcases mem_baseBodies.1 hkept with ⟨q, hq, _, rfl⟩ | ⟨_, rfl⟩
      · rcases List.mem_append.1 hs with hold | hnew
        · exact Or.inl (hg.body_met n q (hproduces.2 hq) s hold)
        · exact Or.inr (List.mem_singleton.1 hnew)
      · exact Or.inr (List.mem_singleton.1 hs)
    · rcases mem_repeatBodies.1 hmoved with rfl | ⟨tail, _, hq, rfl⟩
      · cases hs
      · rcases List.mem_append.1 hs with hold | hnew
        · exact Or.inl (hg.body_met n _ (hproduces.2 hq) s (List.mem_cons_of_mem _ hold))
        · exact Or.inr (List.mem_singleton.1 hnew)

/-- Factoring out a prefix of some alternative keeps a grammar well formed. -/
theorem factorOnce (hg : g.WellFormed) {n : NonTerminal} {bodies : OrderedSet Body}
    {shared rest : Body} (hbodies : g.bodies? n = some bodies) (hrest : shared ++ rest ∈ bodies) :
    (g.factorOnce n bodies shared).WellFormed := by
  have hproduces : ∀ {p}, g.Produces n p ↔ p ∈ bodies :=
    produces_iff_of_bodies? hg.nodup_order hbodies
  apply hg.splitOff (g.freshFor_not_mem n)
  · exact ⟨_, mem_factoredBodies.2 (Or.inr ⟨rfl, rest, hrest⟩)⟩
  · exact ⟨rest, mem_remainders.2 hrest⟩
  · intro p hp s hs
    rcases hp with hkept | hmoved
    · rcases mem_factoredBodies.1 hkept with ⟨hold, _⟩ | ⟨rfl, _⟩
      · exact Or.inl (hg.body_met n p (hproduces.2 hold) s hs)
      · rcases List.mem_append.1 hs with hshared | hnew
        · exact Or.inl (hg.body_met n _ (hproduces.2 hrest) s (List.mem_append_left _ hshared))
        · exact Or.inr (List.mem_singleton.1 hnew)
    · have hold := hproduces.2 (mem_remainders.1 hmoved)
      exact Or.inl (hg.body_met n _ hold s (List.mem_append_right _ hs))

/-- Each change made by normalization keeps a grammar well formed. -/
theorem normalizationStep (hg : g.WellFormed) {h : Grammar} (hstep : NormalizationStep g h) :
    h.WellFormed := by
  cases hstep with
  | expand hexpand => exact hg.expandEarlier hexpand
  | split hrecursive => exact hg.splitRecursion hrecursive
  | factor hbodies hshared =>
      obtain ⟨rest, hrest⟩ := Body.exists_append_mem_of_longestSharedPrefix hshared
      exact hg.factorOnce hbodies hrest

theorem normalizationSteps (hg : g.WellFormed) {h : Grammar} (hsteps : NormalizationSteps g h) :
    h.WellFormed := by
  induction hsteps with
  | refl => exact hg
  | tail _ hstep ih => exact ih.normalizationStep hstep

end WellFormed

end Grammar

/-! ### Sessions -/

namespace Grammar

/-- A property of grammars that added lines keep holds of every grammar that is read. -/
theorem ofLines_induction {P : Grammar → Prop} (hempty : P ∅)
    (hinsert : ∀ g head cs, P g → P (g.insert head (Body.read cs)))
    (productions : List ProductionLine) : P (ofLines productions) := by
  have hfold : ∀ (lines : List ProductionLine) (g : Grammar), P g →
      P (lines.foldl (fun g line => g.insert line.head (Body.read line.right)) g) := by
    intro lines
    induction lines with
    | nil => exact fun g hg => hg
    | cons line rest ih => exact fun g hg => ih _ (hinsert g line.head line.right hg)
  exact hfold productions ∅ hempty

theorem parse_induction {P : Grammar → Prop} (hempty : P ∅)
    (hinsert : ∀ g head cs, P g → P (g.insert head (Body.read cs))) {text : String} {g : Grammar}
    (h : Grammar.parse text = .ok g) : P g := by
  unfold Grammar.parse at h
  cases hlines : Grammar.validate text with
  | error e =>
      rw [hlines] at h
      cases h
  | ok productions =>
      rw [hlines] at h
      cases h
      exact ofLines_induction hempty hinsert productions

theorem WellFormed.of_parse {text : String} {g : Grammar} (h : Grammar.parse text = .ok g) :
    g.WellFormed :=
  parse_induction wellFormed_empty (fun _ head cs hg => hg.insert head cs) h

end Grammar

namespace Session

/-- Reading a session is reading its grammar. -/
theorem grammar_of_parse {text : String} {s : Session} (h : Session.parse text = .ok s) :
    Grammar.parse text = .ok s.grammar := by
  unfold Session.parse at h
  cases hg : Grammar.parse text with
  | error e =>
      rw [hg] at h
      cases h
  | ok g =>
      rw [hg] at h
      cases h
      rfl

theorem wellFormed_of_parse {text : String} {s : Session} (h : Session.parse text = .ok s) :
    s.grammar.WellFormed :=
  .of_parse (grammar_of_parse h)

/-- Building normalizes the grammar that is read to the end and computes its table. -/
theorem exists_of_build {text : String} {t : Session} (h : Session.build text = .ok t) :
    ∃ g, Grammar.parse text = .ok g ∧ (g.normalizeWithin workLimit).obstacle? = none ∧
      t = (ofGrammar (g.normalizeWithin workLimit).grammar).computeLookahead.computeTable := by
  unfold Session.build at h
  cases hg : Grammar.parse text with
  | error e =>
      rw [hg] at h
      cases h
  | ok g =>
      rw [hg] at h
      refine ⟨g, rfl, ?_⟩
      have hnormal : g.normalize = g.normalizeWithin workLimit := rfl
      rw [← hnormal]
      rcases hresult : g.normalize with ⟨normalized, obstacle?⟩
      cases obstacle? with
      | none =>
          simp only [hresult] at h
          cases h
          exact ⟨rfl, rfl⟩
      | some obstacle =>
          simp only [hresult] at h
          cases h

/-- A property of grammars that added productions and the changes of normalization keep holds of the
grammar of every session. -/
theorem Reachable.grammar_induction {P : Grammar → Prop} (hempty : P ∅)
    (hinsert : ∀ g head cs, P g → P (g.insert head (Body.read cs)))
    (hstep : ∀ g h, P g → Grammar.NormalizationStep g h → P h) {s : Session}
    (hs : s.Reachable) : P s.grammar := by
  have hsteps : ∀ {g h : Grammar}, P g → Grammar.NormalizationSteps g h → P h := by
    intro g h hg hgh
    induction hgh with
    | refl => exact hg
    | tail _ hlast ih => exact hstep _ _ ih hlast
  have hparse : ∀ {text : String} {g : Grammar}, Grammar.parse text = .ok g → P g :=
    fun h => Grammar.parse_induction hempty hinsert h
  have hbuild : ∀ {text : String} {t : Session}, Session.build text = .ok t → P t.grammar := by
    intro text t ht
    obtain ⟨g, hg, _, rfl⟩ := exists_of_build ht
    exact hsteps (hparse hg) (Grammar.normalizationSteps_normalizeWithin workLimit g)
  induction hs with
  | empty => exact hempty
  | @apply s operation hs ih =>
      cases operation with
      | reset => exact hempty
      | parse text =>
          show P (s.adopt ((Grammar.parse text).map ofGrammar)).1.grammar
          cases hg : Grammar.parse text with
          | error e => exact ih
          | ok g => exact hparse hg
      | build text =>
          show P (s.adopt (Session.build text)).1.grammar
          cases ht : Session.build text with
          | error e => exact ih
          | ok t => exact hbuild ht
      | load text =>
          show P ((∅ : Session).adopt (Session.build text)).1.grammar
          cases ht : Session.build text with
          | error e => exact hempty
          | ok t => exact hbuild ht
      | insertLine line =>
          show P (s.adopt
            ((s.grammar.insertLine line).map fun g => { s with grammar := g })).1.grammar
          unfold Grammar.insertLine
          cases hn : NonTerminal.ofChars?
              ((Text.splitArrow line.toList).getD (line.toList, [])).1 with
          | none =>
              simp only [hn]
              exact ih
          | some head =>
              simp only [hn]
              exact hinsert _ head _ ih
      | normalize => exact hsteps ih (Grammar.normalizationSteps_normalizeWithin _ _)
      | normalizeWithin limit => exact hsteps ih (Grammar.normalizationSteps_normalizeWithin _ _)
      | removeLeftRecursion n =>
          cases hremove : s.grammar.removeLeftRecursion workLimit n with
          | none =>
              have hsame : (s.apply (.removeLeftRecursion n)).1.grammar = s.grammar := by
                simp [Session.apply, hremove]
              rw [hsame]
              exact ih
          | some g =>
              have hnew : (s.apply (.removeLeftRecursion n)).1.grammar = g := by
                simp [Session.apply, hremove]
              rw [hnew]
              exact hsteps ih (Grammar.normalizationSteps_removeLeftRecursion hremove)
      | factor n => exact hsteps ih (Grammar.normalizationSteps_factor workLimit n _)
      | computeLookahead => exact ih
      | computeTable => exact ih

/-- The grammar of every session is well formed. -/
theorem Reachable.wellFormed {s : Session} (hs : s.Reachable) : s.grammar.WellFormed :=
  hs.grammar_induction Grammar.wellFormed_empty (fun _ head cs hg => hg.insert head cs)
    (fun _ _ hg hstep => hg.normalizationStep hstep)

/-- The session in which lines were added one after the other. -/
def withLines (lines : List String) : Session :=
  lines.foldl (fun s line => (s.apply (.insertLine line)).1) ∅

theorem reachable_withLines (lines : List String) : (withLines lines).Reachable := by
  have hfold : ∀ (lines : List String) (s : Session), s.Reachable →
      (lines.foldl (fun s line => (s.apply (.insertLine line)).1) s).Reachable := by
    intro lines
    induction lines with
    | nil => exact fun s hs => hs
    | cons line rest ih => exact fun s hs => ih _ (hs.apply _)
  exact hfold lines ∅ .empty

end Session

end PredictiveParsing
