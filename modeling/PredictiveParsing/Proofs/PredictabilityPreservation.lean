/-
Module: PredictiveParsing.Proofs.PredictabilityPreservation
Layer: Proofs
Purpose: Normalization keeps a predictable grammar predictable. There is no left recursion to
  remove, and factoring only takes out a prefix that vanishes, since otherwise the alternatives with
  that prefix would be used with the same character in front. Derivations after factoring are read
  as derivations before it by putting remainders in the place of the new nonterminal, which stands
  in a form only behind the factored nonterminal's prefix.
Imports: Mathlib, PredictiveParsing.Proofs.Predictability
Main exports: Grammar.remainderOf, Grammar.exists_spells_of_derives_factorOnce,
  Grammar.Reduced.factorOnce, Grammar.Predictable.factorOnce, Session.conflicts_build_eq_nil
Open obligations: none
-/
import Mathlib
import PredictiveParsing.Proofs.Predictability

namespace PredictiveParsing

open Relation

namespace Grammar

/-! ### Reading forms after factoring as forms before it -/

/-- What the nonterminals stand for when forms are read as they were before factoring: the new one
stands for any of the remainders, and all others for themselves. -/
def remainderOf (shared : Body) (bodies : OrderedSet Body) (fresh k : NonTerminal)
    (ρ : List Symbol) : Prop :=
  (k = fresh → shared ++ ρ ∈ bodies) ∧ (k ≠ fresh → ρ = [.nonTerminal k])

variable {g : Grammar} {start n : NonTerminal} {bodies : OrderedSet Body} {shared : Body}

section Remainders

variable {fresh : NonTerminal}

/-- A form without the new nonterminal is read as itself. -/
theorem eq_of_spells_remainderOf {σ ρ : List Symbol} (hσ : .nonTerminal fresh ∉ σ)
    (h : Spells (remainderOf shared bodies fresh) σ ρ) : ρ = σ := by
  induction σ generalizing ρ with
  | nil => exact h
  | cons s rest ih =>
      have hrest : ∀ {τ}, Spells (remainderOf shared bodies fresh) rest τ → τ = rest :=
        ih fun hmem => hσ (List.mem_cons_of_mem _ hmem)
      cases s with
      | terminal c =>
          obtain ⟨tail, rfl, htail⟩ := h
          rw [hrest htail]
      | nonTerminal k =>
          have hne : k ≠ fresh := by
            rintro rfl
            exact hσ List.mem_cons_self
          obtain ⟨piece, tail, rfl, hpiece, htail⟩ := h
          rw [hpiece.2 hne, hrest htail]
          rfl

/-- Some remainder can be put wherever the new nonterminal stands. -/
theorem exists_spells_remainderOf {rest : Body} (hrest : shared ++ rest ∈ bodies)
    (σ : List Symbol) : ∃ ρ, Spells (remainderOf shared bodies fresh) σ ρ := by
  induction σ with
  | nil => exact ⟨[], rfl⟩
  | cons s σ ih =>
      obtain ⟨ρ, hρ⟩ := ih
      cases s with
      | terminal c => exact ⟨.terminal c :: ρ, ρ, rfl, hρ⟩
      | nonTerminal k =>
          by_cases hk : k = fresh
          · exact ⟨rest ++ ρ, rest, ρ, rfl, ⟨fun _ => hrest, fun hne => absurd hk hne⟩, hρ⟩
          · exact ⟨.nonTerminal k :: ρ, [.nonTerminal k], ρ, rfl,
              ⟨fun heq => absurd heq hk, fun _ => rfl⟩, hρ⟩

end Remainders

variable (hg : g.WellFormed) (hbodies : g.bodies? n = some bodies)

include hg hbodies

/-- The bodies of an old nonterminal, read before factoring: they are its old bodies, and the one
that ends in the new nonterminal is any of those with the prefix. -/
theorem eq_or_mem_of_produces_factorOnce {k : NonTerminal} (hk : k ≠ g.freshFor n) {p ρ : Body}
    (hp : (g.factorOnce n bodies shared).Produces k p)
    (hρ : Spells (remainderOf shared bodies (g.freshFor n)) p ρ) :
    (ρ = p ∧ g.Produces k p ∧ (k = n → ¬ ∃ rest, p = shared ++ rest)) ∨
      (k = n ∧ p = shared.followedBy (g.freshFor n) ∧ ρ ∈ bodies ∧ ∃ rest, ρ = shared ++ rest) := by
  have hproduces : ∀ {q}, q ∈ bodies → g.Produces n q :=
    (produces_iff_of_bodies? hg.nodup_order hbodies).2
  have hself : ∀ {m}, g.Produces m p → ρ = p :=
    fun hm => eq_of_spells_remainderOf (hg.freshFor_not_mem_body n hm) hρ
  rcases (produces_factorOnce hbodies).1 hp with ⟨hne, hold⟩ | ⟨rfl, hkept⟩ | ⟨heq, _⟩
  · exact Or.inl ⟨hself hold, hold, fun heq => absurd heq hne⟩
  · rcases mem_factoredBodies.1 hkept with ⟨hold, hnot⟩ | ⟨rfl, rest, hrest⟩
    · exact Or.inl ⟨hself (hproduces hold), hproduces hold, fun _ => hnot⟩
    · -- The prefix is read as itself, and the new nonterminal behind it as a remainder.
      have hshared : .nonTerminal (g.freshFor k) ∉ shared := fun hmem =>
        hg.freshFor_not_mem_body k (hproduces hrest) (List.mem_append_left _ hmem)
      obtain ⟨ρ₁, ρ₂, rfl, hfront, hbehind⟩ := hρ.of_append
      rw [eq_of_spells_remainderOf hshared hfront]
      exact Or.inr ⟨rfl, rfl, hbehind.nonTerminal_singleton.1 rfl, ρ₂, rfl⟩
  · exact absurd heq hk

theorem produces_of_spells_remainderOf {k : NonTerminal} (hk : k ≠ g.freshFor n) {p ρ : Body}
    (hp : (g.factorOnce n bodies shared).Produces k p)
    (hρ : Spells (remainderOf shared bodies (g.freshFor n)) p ρ) : g.Produces k ρ := by
  rcases eq_or_mem_of_produces_factorOnce hg hbodies hk hp hρ with
    ⟨rfl, hold, _⟩ | ⟨rfl, _, hbody, _⟩
  · exact hold
  · exact (produces_iff_of_bodies? hg.nodup_order hbodies).2 hbody

/-- Different bodies of an old nonterminal are not read as the same body. -/
theorem eq_of_spells_same {k : NonTerminal} (hk : k ≠ g.freshFor n) {p q ρ : Body}
    (hp : (g.factorOnce n bodies shared).Produces k p)
    (hq : (g.factorOnce n bodies shared).Produces k q)
    (hpρ : Spells (remainderOf shared bodies (g.freshFor n)) p ρ)
    (hqρ : Spells (remainderOf shared bodies (g.freshFor n)) q ρ) : p = q := by
  rcases eq_or_mem_of_produces_factorOnce hg hbodies hk hp hpρ with
    ⟨rfl, _, hnot⟩ | ⟨hkn, rfl, _, hprefix⟩
  · rcases eq_or_mem_of_produces_factorOnce hg hbodies hk hq hqρ with
      ⟨hself, _⟩ | ⟨hkn, _, _, hprefix⟩
    · exact hself
    · exact absurd hprefix (hnot hkn)
  · rcases eq_or_mem_of_produces_factorOnce hg hbodies hk hq hqρ with
      ⟨rfl, _, hnot⟩ | ⟨_, hself, _⟩
    · exact absurd hprefix (hnot hkn)
    · exact hself.symm

/-- One production after factoring, read before it. -/
theorem exists_derives_of_produces_factorOnce {k : NonTerminal} {p ρ : Body}
    (hp : (g.factorOnce n bodies shared).Produces k p)
    (hρ : Spells (remainderOf shared bodies (g.freshFor n)) p ρ) :
    ∃ piece, remainderOf shared bodies (g.freshFor n) k piece ∧ g.Derives piece ρ := by
  by_cases hk : k = g.freshFor n
  · subst hk
    have hbody := append_mem_of_produces_freshFor hg hbodies hp
    have hold : g.Produces n (shared ++ p) :=
      (produces_iff_of_bodies? hg.nodup_order hbodies).2 hbody
    have hfresh : .nonTerminal (g.freshFor n) ∉ p := fun hmem =>
      hg.freshFor_not_mem_body n hold (List.mem_append_right _ hmem)
    rw [eq_of_spells_remainderOf hfresh hρ]
    exact ⟨p, ⟨fun _ => hbody, fun hne => absurd rfl hne⟩, Derives.refl p⟩
  · exact ⟨[.nonTerminal k], ⟨fun heq => absurd heq hk, fun _ => rfl⟩,
      (produces_of_spells_remainderOf hg hbodies hk hp hρ).derives⟩

/-- A derivation after factoring, read before it: the remainders in the derived form may be chosen,
and those in the form it starts from are chosen accordingly. -/
theorem exists_spells_of_derives_factorOnce {σ τ ρ : List Symbol}
    (hder : (g.factorOnce n bodies shared).Derives σ τ)
    (hρ : Spells (remainderOf shared bodies (g.freshFor n)) τ ρ) :
    ∃ π, Spells (remainderOf shared bodies (g.freshFor n)) σ π ∧ g.Derives π ρ := by
  induction hder using ReflTransGen.head_induction_on with
  | refl => exact ⟨ρ, hρ, Derives.refl ρ⟩
  | head hstep _ ih =>
      obtain ⟨π, hπ, hrest⟩ := ih
      cases hstep with
      | expand u v hp =>
          obtain ⟨π', π₃, rfl, h', h₃⟩ := hπ.of_append
          obtain ⟨π₁, π₂, rfl, h₁, h₂⟩ := h'.of_append
          obtain ⟨piece, hpiece, hder⟩ := exists_derives_of_produces_factorOnce hg hbodies hp h₂
          refine ⟨π₁ ++ (piece ++ π₃), h₁.append ⟨piece, π₃, rfl, hpiece, h₃⟩, ?_⟩
          have hfirst := (hder.append_right π₃).append_left π₁
          rw [List.append_assoc] at hrest
          exact hfirst.trans hrest

/-- The new nonterminal stands in a body only at its end, and only in the body of the factored
nonterminal. -/
theorem eq_of_freshFor_mem_body {rest : Body} (hrest : shared ++ rest ∈ bodies) {k : NonTerminal}
    {u v : Body}
    (hp : (g.factorOnce n bodies shared).Produces k (u ++ .nonTerminal (g.freshFor n) :: v)) :
    k = n ∧ v = [] := by
  have hproduces : ∀ {q}, q ∈ bodies → g.Produces n q :=
    (produces_iff_of_bodies? hg.nodup_order hbodies).2
  rcases (produces_factorOnce hbodies).1 hp with ⟨_, hold⟩ | ⟨rfl, hkept⟩ | ⟨_, hmoved⟩
  · exact absurd (by simp) (hg.freshFor_not_mem_body n hold)
  · refine ⟨rfl, ?_⟩
    rcases mem_factoredBodies.1 hkept with ⟨hold, _⟩ | ⟨heq, _⟩
    · exact absurd (by simp) (hg.freshFor_not_mem_body k (hproduces hold))
    · rcases split_append heq.symm with ⟨behind, rfl, _⟩ | ⟨behind, _, hlast⟩
      · exact absurd (by simp) (hg.freshFor_not_mem_body k (hproduces hrest))
      · exact (eq_of_singleton_eq_append hlast).2.2
  · exact absurd (by simp) (hg.freshFor_not_mem_body n (hproduces (mem_remainders.1 hmoved)))

/-- Where the new nonterminal stands in a form, the factored one stood before, and what is behind
the new one was derived from what was behind the factored one. -/
theorem exists_context_of_freshFor {rest : Body} (hrest : shared ++ rest ∈ bodies)
    {σ u v : List Symbol} (hσ : .nonTerminal (g.freshFor n) ∉ σ)
    (hder : (g.factorOnce n bodies shared).Derives σ (u ++ .nonTerminal (g.freshFor n) :: v)) :
    ∃ a b, (g.factorOnce n bodies shared).Derives σ (a ++ .nonTerminal n :: b) ∧
      (g.factorOnce n bodies shared).Derives b v := by
  generalize hform : u ++ .nonTerminal (g.freshFor n) :: v = form at hder
  induction hder generalizing u v with
  | refl => exact absurd (by simp [← hform]) hσ
  | tail hbefore hlast ih =>
      cases hlast with
      | @expand a b k p hp =>
          rcases split_append hform.symm with ⟨behind, hap, rfl⟩ | ⟨behind, rfl, rfl⟩
          · rcases split_append hap with ⟨behind, rfl, rfl⟩ | ⟨before, rfl, rfl⟩
            · -- The last production was applied behind the new nonterminal.
              obtain ⟨a', b', hcontext, hbehind⟩ :=
                ih (u := u) (v := behind ++ .nonTerminal k :: b) (by simp)
              have hstep := (hp.derives.append_left behind).append_right b
              exact ⟨a', b', hcontext, hbehind.trans (by simpa using hstep)⟩
            · -- The last production brought it in.
              obtain ⟨rfl, rfl⟩ := eq_of_freshFor_mem_body hg hbodies hrest hp
              exact ⟨a, b, hbefore, Derives.refl b⟩
          · exact ih (u := a ++ .nonTerminal k :: behind) (by simp)

/-! ### Factoring a predictable grammar -/

omit hbodies in
theorem freshFor_not_mem_start (hstart : g.start? = some start) :
    Symbol.nonTerminal (g.freshFor n) ∉ [Symbol.nonTerminal start, .terminal endMark] := by
  have hne : g.freshFor n ≠ start := by
    rintro rfl
    exact hg.freshFor_not_mem_order n (start_mem_order hstart)
  simpa using hne

/-- Of a body of an old nonterminal, some reading was used with the same character before. -/
theorem exists_predicted_of_factorOnce (hstart : g.start? = some start) {rest : Body}
    (hrest : shared ++ rest ∈ bodies) {m : NonTerminal} (hm : m ≠ g.freshFor n) {p : Body}
    {c : Char} (hpredicted : (g.factorOnce n bodies shared).Predicted start m p c) :
    ∃ ρ, Spells (remainderOf shared bodies (g.freshFor n)) p ρ ∧ g.Predicted start m ρ c := by
  obtain ⟨u, v, τ, hcontext, hnext⟩ := hpredicted
  have hchoice : ∀ σ, ∃ ρ, Spells (remainderOf shared bodies (g.freshFor n)) σ ρ :=
    exists_spells_remainderOf hrest
  obtain ⟨τ', hτ'⟩ := hchoice τ
  obtain ⟨π, hπ, hder⟩ := exists_spells_of_derives_factorOnce hg hbodies hnext
    (show Spells _ (.terminal c :: τ) (.terminal c :: τ') from ⟨τ', rfl, hτ'⟩)
  obtain ⟨ρ, v', rfl, hρ, hv'⟩ := hπ.of_append
  -- What stands behind the nonterminal is read in the context as it is behind the body.
  obtain ⟨u', hu'⟩ := hchoice u
  have hself : Spells (remainderOf shared bodies (g.freshFor n)) (.nonTerminal m :: v)
      (.nonTerminal m :: v') :=
    ⟨[.nonTerminal m], v', rfl, ⟨fun heq => absurd heq hm, fun _ => rfl⟩, hv'⟩
  obtain ⟨first, hfirst, hcontext'⟩ :=
    exists_spells_of_derives_factorOnce hg hbodies hcontext (hu'.append hself)
  rw [eq_of_spells_remainderOf (freshFor_not_mem_start hg hstart) hfirst] at hcontext'
  exact ⟨ρ, hρ, u', v', τ', hcontext', hder⟩

theorem derives_factorOnce_of_derives {σ τ : List Symbol} (hder : g.Derives σ τ) :
    (g.factorOnce n bodies shared).Derives σ τ :=
  hder.simulate fun _ p hp => derives_factorOnce_of_produces hg hbodies hp (Derives.refl p)

/-- If the prefix vanishes, a remainder is used with a character only if the whole alternative
was. -/
theorem predicted_of_predicted_freshFor (hstart : g.start? = some start)
    (hvanish : g.Derives shared []) {rest : Body} (hrest : shared ++ rest ∈ bodies) {c : Char}
    (hpredicted : (g.factorOnce n bodies shared).Predicted start (g.freshFor n) rest c) :
    g.Predicted start n (shared ++ rest) c := by
  have hproduces : g.Produces n (shared ++ rest) :=
    (produces_iff_of_bodies? hg.nodup_order hbodies).2 hrest
  obtain ⟨u, v, τ, hcontext, hnext⟩ := hpredicted
  obtain ⟨a, b, hcontext', hbehind⟩ :=
    exists_context_of_freshFor hg hbodies hrest (freshFor_not_mem_start hg hstart) hcontext
  have hshared : (g.factorOnce n bodies shared).Derives shared [] :=
    derives_factorOnce_of_derives hg hbodies hvanish
  have hwhole : (g.factorOnce n bodies shared).Predicted start n (shared ++ rest) c :=
    ⟨a, b, τ, hcontext', ((hshared.append_right rest).append hbehind).trans hnext⟩
  obtain ⟨ρ, hρ, hpredicted⟩ := exists_predicted_of_factorOnce hg hbodies hstart hrest
    (freshFor_ne hg hbodies).symm hwhole
  rwa [eq_of_spells_remainderOf (hg.freshFor_not_mem_body n hproduces) hρ] at hpredicted

omit hg in
/-- Alternatives with a common prefix would be used with the character that it leads to, so the
prefix vanishes. -/
theorem Predictable.derives_shared_nil (hp : g.Predictable start) (hr : g.Reduced start)
    {rest rest' : Body} (hne : rest ≠ rest') (hrest : shared ++ rest ∈ bodies)
    (hrest' : shared ++ rest' ∈ bodies) : g.Derives shared [] := by
  have hproduces : ∀ {q}, q ∈ bodies → g.Produces n q :=
    (produces_iff_of_bodies? hr.wellFormed.nodup_order hbodies).2
  obtain ⟨w, hw⟩ := hr.exists_word (σ := shared) fun m hm =>
    hr.mem_order_of_produces (hproduces hrest) (List.mem_append_left _ hm)
  cases w with
  | nil => exact hw
  | cons c w =>
      obtain ⟨u, v, hcontext⟩ := hr.exists_context (hproduces hrest)
      have hpredicted : ∀ r, g.Predicted start n (shared ++ r) c := by
        intro r
        exact ⟨u, _, _, hcontext, (hw.append_right r).append_right _⟩
      have heq := hp n _ _ c (hproduces hrest) (hproduces hrest') (hpredicted rest)
        (hpredicted rest')
      exact absurd (List.append_cancel_left heq) hne

omit hg in
/-- Factoring out a prefix that vanishes keeps a grammar predictable. -/
theorem Predictable.factorOnce (hp : g.Predictable start) (hr : g.Reduced start) {rest : Body}
    (hrest : shared ++ rest ∈ bodies) (hvanish : g.Derives shared []) :
    (g.factorOnce n bodies shared).Predictable start := by
  have hg := hr.wellFormed
  have hproduces : ∀ {q}, q ∈ bodies → g.Produces n q :=
    (produces_iff_of_bodies? hg.nodup_order hbodies).2
  intro m p q c hmp hmq hpredicted hpredicted'
  by_cases hm : m = g.freshFor n
  · subst hm
    have hp' := append_mem_of_produces_freshFor hg hbodies hmp
    have hq' := append_mem_of_produces_freshFor hg hbodies hmq
    exact List.append_cancel_left (hp n _ _ c (hproduces hp') (hproduces hq')
      (predicted_of_predicted_freshFor hg hbodies hr.start?_eq hvanish hp' hpredicted)
      (predicted_of_predicted_freshFor hg hbodies hr.start?_eq hvanish hq' hpredicted'))
  · obtain ⟨ρ, hρ, hused⟩ :=
      exists_predicted_of_factorOnce hg hbodies hr.start?_eq hrest hm hpredicted
    obtain ⟨π, hπ, hused'⟩ :=
      exists_predicted_of_factorOnce hg hbodies hr.start?_eq hrest hm hpredicted'
    -- Both readings are old bodies that were used with the character, so they are the same.
    obtain rfl : ρ = π := hp m ρ π c (produces_of_spells_remainderOf hg hbodies hm hmp hρ)
      (produces_of_spells_remainderOf hg hbodies hm hmq hπ) hused hused'
    exact eq_of_spells_same hg hbodies hm hmp hmq hρ hπ

omit hg in
/-- Factoring keeps a grammar reduced. -/
theorem Reduced.factorOnce (hr : g.Reduced start) {rest : Body} (hrest : shared ++ rest ∈ bodies) :
    (g.factorOnce n bodies shared).Reduced start := by
  have hg := hr.wellFormed
  have hbody : g.Produces n (shared ++ rest) :=
    (produces_iff_of_bodies? hg.nodup_order hbodies).2 hrest
  obtain ⟨hkept, hmoved⟩ := produces_factorOnce_merged hbodies hrest
  have hsimulate : ∀ {σ τ}, g.Derives σ τ → (g.factorOnce n bodies shared).Derives σ τ :=
    fun hder => derives_factorOnce_of_derives hg hbodies hder
  refine ⟨hg.factorOnce hbodies hrest, start?_splitOff.trans hr.start?_eq,
    (undefined_factorOnce hbodies shared).trans hr.undefined_eq, ?_, ?_⟩
  · intro m p hp
    rcases (mem_order_factorOnce hbodies).1 hp.mem_order with hold | rfl
    · obtain ⟨q, hq⟩ := hg.exists_body m hold
      obtain ⟨u, v, hder⟩ := hr.reached m q hq
      exact ⟨u, v, hsimulate hder⟩
    · obtain ⟨u, v, hder⟩ := hr.reached n _ hbody
      have hstep := (hkept.derives.append_left u).append_right v
      refine ⟨u ++ shared, v, (hsimulate hder).trans ?_⟩
      simpa [Body.followedBy] using hstep
  · intro m p hp
    rcases (mem_order_factorOnce hbodies).1 hp.mem_order with hold | rfl
    · obtain ⟨q, hq⟩ := hg.exists_body m hold
      obtain ⟨w, hw⟩ := hr.productive m q hq
      exact ⟨w, hsimulate hw⟩
    · obtain ⟨w, hw⟩ := hr.exists_word (σ := rest) fun k hk =>
        hr.mem_order_of_produces hbody (List.mem_append_right _ hk)
      exact ⟨w, hmoved.derives.trans (hsimulate hw)⟩

/-! ### Normalizing a predictable grammar -/

omit hg hbodies in
/-- Where normalization is finished, a predictable grammar is predictable still. -/
theorem Predictable.normalizeWithin (hp : g.Predictable start) (hr : g.Reduced start) {limit : Nat}
    (hdone : (g.normalizeWithin limit).obstacle? = none) :
    (g.normalizeWithin limit).grammar.Reduced start ∧
      (g.normalizeWithin limit).grammar.Predictable start := by
  have hfactor : ∀ (k : Grammar) (m : NonTerminal) (bodies : OrderedSet Body),
      k.Reduced start ∧ k.Predictable start → k.bodies? m = some bodies →
      Body.longestSharedPrefix bodies.toList ≠ [] →
      (k.factorOnce m bodies (Body.longestSharedPrefix bodies.toList)).Reduced start ∧
        (k.factorOnce m bodies (Body.longestSharedPrefix bodies.toList)).Predictable start := by
    intro k m bodies hk hbodies hshared
    obtain ⟨rest, rest', hne, hrest, hrest'⟩ :=
      Body.exists_ne_of_longestSharedPrefix bodies.nodup hshared
    have hvanish := hk.2.derives_shared_nil hbodies hk.1 hne hrest hrest'
    exact ⟨hk.1.factorOnce hbodies hrest, hk.2.factorOnce hbodies hk.1 hrest hvanish⟩
  obtain ⟨_, hlast, _⟩ := normalizeFrom_induction
    (P := fun _ k => k.Reduced start ∧ k.Predictable start)
    (fun _ k m eliminated hk _ hremove => by
      rw [hk.2.removeLeftRecursion_eq_self hk.1 hremove]
      exact factor_induction (fun k' => hfactor k' m) limit hk)
    ⟨hr, hp⟩ hdone
  exact hlast

end Grammar

/-! ### Sessions -/

namespace Session

open Grammar

/-- A text whose grammar has no undefined nonterminals, of which each nonterminal is reached from
the start symbol and generates some string, and whose table has no conflicts as it stands: if it can
be built, the table of its normalized grammar has no conflicts either. -/
theorem conflicts_build_eq_nil {text : String} {s t : Session}
    (hparse : Session.parse text = .ok s) (hundefined : s.grammar.undefined = [])
    (hreached : ∀ n ∈ s.grammar.nonTerminals, ∃ start, s.grammar.start? = some start ∧
      s.grammar.Reaches start n)
    (hproductive : ∀ n ∈ s.grammar.nonTerminals, ∃ w, s.grammar.Generates n w)
    (hconflicts : ((s.apply .computeLookahead).1.apply .computeTable).1.table.conflicts = [])
    (hbuild : Session.build text = .ok t) : t.table.conflicts = [] := by
  obtain ⟨g, hg, hdone, rfl⟩ := exists_of_build hbuild
  obtain rfl : s.grammar = g := Except.ok.inj ((grammar_of_parse hparse).symm.trans hg)
  have hwell : s.grammar.WellFormed := wellFormed_of_parse hparse
  show ((s.grammar.normalizeWithin workLimit).grammar.table
    (s.grammar.normalizeWithin workLimit).grammar.lookahead).conflicts = []
  cases hstart : s.grammar.start? with
  | none =>
      -- Without rules there is nothing to normalize.
      have horder : s.grammar.order = [] := List.head?_eq_none_iff.1 hstart
      have hsame : s.grammar.normalizeWithin workLimit = ⟨s.grammar, none⟩ :=
        normalizeFrom_of_length_le (by simp [horder])
      rw [hsame]
      exact hconflicts
  | some start =>
      have hr : s.grammar.Reduced start := by
        refine ⟨hwell, hstart, hundefined, ?_, ?_⟩
        · intro n p hp
          obtain ⟨start', hstart', hreaches⟩ := hreached n (hwell.order_met n hp.mem_order)
          rw [hstart] at hstart'
          cases hstart'
          exact hreaches
        · exact fun n p hp => hproductive n (hwell.order_met n hp.mem_order)
      have hp : s.grammar.Predictable start := hr.conflicts_eq_nil_iff.1 hconflicts
      obtain ⟨hr', hp'⟩ := hp.normalizeWithin hr hdone
      exact hr'.conflicts_eq_nil_iff.2 hp'

/-- Two alternatives begin with a nonterminal that vanishes, which is factored out. -/
theorem conflicts_build_eq_nil_vanishing :
    let s := withLines ["S->Xa", "S->Xb", "X->"]
    let t := (((s.apply .normalize).1.apply .computeLookahead).1.apply .computeTable).1
    Session.parse "S->Xa\nS->Xb\nX->" = .ok s ∧ s.grammar.undefined = [] ∧
      (∀ n ∈ s.grammar.nonTerminals, ∃ start, s.grammar.start? = some start ∧
        s.grammar.Reaches start n) ∧
      (∀ n ∈ s.grammar.nonTerminals, ∃ w, s.grammar.Generates n w) ∧
      ((s.apply .computeLookahead).1.apply .computeTable).1.table.conflicts = [] ∧
      Session.build "S->Xa\nS->Xb\nX->" = .ok t ∧ t.grammar ≠ s.grammar ∧
      t.table.conflicts = [] := by
  intro s t
  have hparse : Session.parse "S->Xa\nS->Xb\nX->" = .ok s := by
    unfold s
    cbv
  have hundefined : s.grammar.undefined = [] := by decide +kernel
  have hmet : s.grammar.nonTerminals.toList = [⟨'S', 0, rfl⟩, ⟨'X', 0, rfl⟩] := by decide +kernel
  have hstart : s.grammar.start? = some ⟨'S', 0, rfl⟩ := by decide +kernel
  have hbody : s.grammar.Derives [.nonTerminal ⟨'S', 0, rfl⟩]
      [.nonTerminal ⟨'X', 0, rfl⟩, .terminal 'a'] :=
    Produces.derives (by decide +kernel)
  have hvanish : s.grammar.Derives [.nonTerminal ⟨'X', 0, rfl⟩] [] :=
    Produces.derives (by decide +kernel)
  have hnames : ∀ n ∈ s.grammar.nonTerminals, n = ⟨'S', 0, rfl⟩ ∨ n = ⟨'X', 0, rfl⟩ := by
    intro n hn
    rw [← OrderedSet.mem_toList, hmet] at hn
    simpa using hn
  have hreached : ∀ n ∈ s.grammar.nonTerminals, ∃ start, s.grammar.start? = some start ∧
      s.grammar.Reaches start n := by
    intro n hn
    refine ⟨⟨'S', 0, rfl⟩, hstart, ?_⟩
    rcases hnames n hn with rfl | rfl
    · exact ⟨[], [], Derives.refl _⟩
    · exact ⟨[], [.terminal 'a'], hbody⟩
  have hproductive : ∀ n ∈ s.grammar.nonTerminals, ∃ w, s.grammar.Generates n w := by
    intro n hn
    rcases hnames n hn with rfl | rfl
    · exact ⟨['a'], hbody.trans (hvanish.append_right [.terminal 'a'])⟩
    · exact ⟨[], hvanish⟩
  have hconflicts :
      ((s.apply .computeLookahead).1.apply .computeTable).1.table.conflicts = [] := by
    unfold s
    cbv
  have hbuild : Session.build "S->Xa\nS->Xb\nX->" = .ok t := by
    unfold t s
    cbv
  have hchanged : t.grammar ≠ s.grammar := by
    have hlength : t.grammar.order.length = 3 := by
      unfold t s
      cbv
    have hlength' : s.grammar.order.length = 2 := by decide +kernel
    intro heq
    rw [heq, hlength'] at hlength
    cases hlength
  exact ⟨hparse, hundefined, hreached, hproductive, hconflicts, hbuild, hchanged,
    conflicts_build_eq_nil hparse hundefined hreached hproductive hconflicts hbuild⟩

end Session

end PredictiveParsing
