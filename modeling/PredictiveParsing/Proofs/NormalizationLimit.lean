/-
Module: PredictiveParsing.Proofs.NormalizationLimit
Layer: Proofs
Purpose: What the limit of a normalization does and does not do. The visits are told one by one, so
  that they can be counted: there are never more of them than the limit. The limit only decides
  whether normalization is finished; what is left where it is finished stays within the limit, and
  any larger limit leads to the same grammar by the same visits.
Imports: Mathlib, PredictiveParsing.Proofs.NormalForm
Main exports: Grammar.visit_mono, Grammar.NormalizesIn, Grammar.exists_normalizesIn,
  Grammar.normalizeWithin_mono, Session.normalizeWithin_bounded_independent
Open obligations: none
-/
import Mathlib
import PredictiveParsing.Proofs.NormalForm

namespace PredictiveParsing

namespace Grammar

variable {g h : Grammar} {limit limit' : Nat} {n : NonTerminal}

/-! ### A larger limit -/

theorem exceeds_eq_false_iff :
    g.exceeds limit = false ↔ g.order.length ≤ limit ∧ g.size ≤ limit := by
  simp [exceeds, order]

theorem exceeds_mono (hle : limit ≤ limit') (h : g.exceeds limit = false) :
    g.exceeds limit' = false := by
  rw [exceeds_eq_false_iff] at h ⊢
  exact ⟨Nat.le_trans h.1 hle, Nat.le_trans h.2 hle⟩

/-- A forest that fits a limit is grown alike within a larger one. -/
theorem expandEarlier_mono (hle : limit ≤ limit') (hexpand : g.expandEarlier limit n = some h) :
    g.expandEarlier limit' n = some h := by
  cases hbodies : g.bodies? n with
  | none =>
      rw [expandEarlier, hbodies] at hexpand ⊢
      exact hexpand
  | some bodies =>
      rw [expandEarlier, hbodies] at hexpand ⊢
      obtain ⟨forest, hforest, heq⟩ := Option.map_eq_some_iff.1 hexpand
      obtain ⟨hgrown, hcost⟩ := Forest.grow?_eq_some_iff.1 hforest
      have hforest' : Forest.grow? (g.substitutions n) limit' bodies.toList = some forest :=
        Forest.grow?_eq_some_iff.2 ⟨hgrown, Nat.le_trans hcost hle⟩
      exact Option.map_eq_some_iff.2 ⟨forest, hforest', heq⟩

theorem removeLeftRecursion_mono (hle : limit ≤ limit')
    (hremove : g.removeLeftRecursion limit n = some h) :
    g.removeLeftRecursion limit' n = some h := by
  obtain ⟨expanded, hexpand, heq⟩ := Option.map_eq_some_iff.1 hremove
  exact Option.map_eq_some_iff.2 ⟨expanded, expandEarlier_mono hle hexpand, heq⟩

/-- Factoring that is finished before the last of its rounds does not need the others. -/
theorem factor_mono {rounds rounds' : Nat} (hle : rounds ≤ rounds')
    (hdone : g.factor rounds n = ⟨h, none⟩) : g.factor rounds' n = ⟨h, none⟩ := by
  fun_induction factor rounds n g generalizing rounds' with
  | case1 => cases hdone
  | case2 rounds n g hbodies =>
      obtain ⟨more, rfl⟩ := Nat.exists_eq_add_of_le' (Nat.le_trans (Nat.succ_pos _) hle)
      rw [factor, hbodies]
      exact hdone
  | case3 rounds n g bodies hbodies hshared =>
      obtain ⟨more, rfl⟩ := Nat.exists_eq_add_of_le' (Nat.le_trans (Nat.succ_pos _) hle)
      rw [factor_succ_of_nil hbodies hshared]
      exact hdone
  | case4 rounds n g bodies hbodies hshared ih =>
      obtain ⟨more, rfl⟩ := Nat.exists_eq_add_of_le' (Nat.le_trans (Nat.succ_pos _) hle)
      rw [factor_succ_of_shared hbodies hshared]
      exact ih (Nat.le_of_succ_le_succ hle) hdone

theorem visit_mono (hle : limit ≤ limit') (hvisit : g.visit limit n = ⟨h, none⟩) :
    g.visit limit' n = ⟨h, none⟩ := by
  obtain ⟨eliminated, hremove, hfactored⟩ := exists_of_visit hvisit
  rw [visit, removeLeftRecursion_mono hle hremove]
  exact factor_mono hle hfactored

/-! ### Counting the visits -/

/-- From a place on, normalization ends with a result after a number of visits. -/
inductive NormalizesIn (limit : Nat) :
    (place : Nat) → Grammar → (visits : Nat) → NormalizationResult → Prop where
  /-- All nonterminals have been visited. -/
  | finished {place : Nat} {g : Grammar} (hplace : g.order[place]? = none) :
      NormalizesIn limit place g 0 ⟨g, none⟩
  /-- The grammar is beyond the limit before the visit. -/
  | tooLarge {place : Nat} {g : Grammar} {n : NonTerminal} (hplace : g.order[place]? = some n)
      (hsize : g.exceeds limit = true) : NormalizesIn limit place g 0 ⟨g, some ⟨.size, n⟩⟩
  /-- The visit gives up. -/
  | stopped {place : Nat} {g visited : Grammar} {n : NonTerminal} {obstacle : Obstacle}
      (hplace : g.order[place]? = some n) (hsize : g.exceeds limit = false)
      (hvisit : g.visit limit n = ⟨visited, some obstacle⟩) :
      NormalizesIn limit place g 1 ⟨visited, some obstacle⟩
  /-- The visit is finished, and the next place is visited. -/
  | visited {place visits : Nat} {g visited : Grammar} {n : NonTerminal}
      {result : NormalizationResult} (hplace : g.order[place]? = some n)
      (hsize : g.exceeds limit = false) (hvisit : g.visit limit n = ⟨visited, none⟩)
      (h : NormalizesIn limit (place + 1) visited visits result) :
      NormalizesIn limit place g (visits + 1) result

/-- A place that is visited within the limit is below it. -/
theorem place_lt_of_exceeds_eq_false {place : Nat} (hplace : g.order[place]? = some n)
    (hsize : g.exceeds limit = false) : place < limit :=
  Nat.lt_of_lt_of_le (List.getElem?_eq_some_iff.1 hplace).1 (exceeds_eq_false_iff.1 hsize).1

/-- Normalization ends, and there are no more visits than the limit has places. -/
theorem exists_normalizesIn {place : Nat} (hplace : place ≤ limit) :
    ∃ visits, place + visits ≤ limit ∧
      NormalizesIn limit place g visits (normalizeFrom limit place g) := by
  fun_induction normalizeFrom limit place g with
  | case1 place g hnone => exact ⟨0, hplace, .finished hnone⟩
  | case2 place g n hget hsize => exact ⟨0, hplace, .tooLarge hget hsize⟩
  | case3 place g n hget hsize visited obstacle hvisit =>
      have hwithin : g.exceeds limit = false := by simpa using hsize
      exact ⟨1, place_lt_of_exceeds_eq_false hget hwithin, .stopped hget hwithin hvisit⟩
  | case4 place g n hget hsize visited hvisit ih =>
      have hwithin : g.exceeds limit = false := by simpa using hsize
      obtain ⟨visits, hvisits, hrest⟩ := ih (place_lt_of_exceeds_eq_false hget hwithin)
      exact ⟨visits + 1, by omega, .visited hget hwithin hvisit hrest⟩

/-- At a place that is not behind all nonterminals, the size is checked and then a visit is made. -/
theorem normalizeFrom_of_getElem? {place : Nat} (hplace : g.order[place]? = some n) :
    normalizeFrom limit place g =
      if g.exceeds limit = true then ⟨g, some ⟨.size, n⟩⟩
      else
        match g.visit limit n with
        | ⟨visited, some obstacle⟩ => ⟨visited, some obstacle⟩
        | ⟨visited, none⟩ => normalizeFrom limit (place + 1) visited := by
  rw [normalizeFrom]
  split
  · next hnone => cases hplace.symm.trans hnone
  · next m hget =>
    cases hplace.symm.trans hget
    by_cases hsize : g.exceeds limit = true
    · simp [hsize]
    · rcases g.visit limit n with ⟨visited, obstacle?⟩
      cases obstacle? with
      | none => simp [hsize]
      | some obstacle => simp [hsize]

/-- The visits determine the result. -/
theorem NormalizesIn.eq {place visits : Nat} {result : NormalizationResult}
    (h : NormalizesIn limit place g visits result) : normalizeFrom limit place g = result := by
  induction h with
  | finished hplace => exact normalizeFrom_of_length_le (List.getElem?_eq_none_iff.1 hplace)
  | tooLarge hplace hsize => rw [normalizeFrom_of_getElem? hplace, if_pos hsize]
  | stopped hplace hsize hvisit =>
      rw [normalizeFrom_of_getElem? hplace, hsize, if_neg Bool.false_ne_true, hvisit]
  | visited hplace hsize hvisit _ ih =>
      rw [normalizeFrom_of_getElem? hplace, hsize, if_neg Bool.false_ne_true, hvisit]
      exact ih

/-- Visits that are all finished are the same within a larger limit. -/
theorem NormalizesIn.mono (hle : limit ≤ limit') {place visits : Nat}
    (hvisits : NormalizesIn limit place g visits ⟨h, none⟩) :
    NormalizesIn limit' place g visits ⟨h, none⟩ := by
  generalize hresult : (⟨h, none⟩ : NormalizationResult) = result at hvisits
  induction hvisits with
  | finished hplace =>
      cases hresult
      exact .finished hplace
  | tooLarge => cases hresult
  | stopped => cases hresult
  | visited hplace hsize hvisit _ ih =>
      exact .visited hplace (exceeds_mono hle hsize) (visit_mono hle hvisit) (ih hresult)

/-- A normalization that is finished has the same result within any larger limit. -/
theorem normalizeWithin_mono (hle : limit ≤ limit')
    (hdone : g.normalizeWithin limit = ⟨h, none⟩) : g.normalizeWithin limit' = ⟨h, none⟩ := by
  obtain ⟨visits, _, hvisits⟩ := exists_normalizesIn (g := g) (Nat.zero_le limit)
  have hfinished : NormalizesIn limit 0 g visits ⟨h, none⟩ := hdone ▸ hvisits
  exact (hfinished.mono hle).eq

end Grammar

namespace Session

open Grammar

variable {s : Session} {limit : Nat}

/-- Normalization within a limit ends after at most as many visits. If it is finished, neither the
nonterminals nor the productions are more than the limit, and within every larger limit it is
finished too and leaves the same. -/
theorem normalizeWithin_bounded_independent (hs : s.Reachable) (limit : Nat) :
    (∃ visits, visits ≤ limit ∧
      NormalizesIn limit 0 s.grammar visits (s.grammar.normalizeWithin limit)) ∧
    ((s.apply (.normalizeWithin limit)).2 = none →
      let t := (s.apply (.normalizeWithin limit)).1
      t.grammar.order.length ≤ limit ∧ t.grammar.size ≤ limit ∧
        ∀ limit', limit ≤ limit' → s.apply (.normalizeWithin limit') = (t, none)) := by
  refine ⟨?_, ?_⟩
  · obtain ⟨visits, hvisits, hends⟩ := exists_normalizesIn (g := s.grammar) (Nat.zero_le limit)
    exact ⟨visits, by omega, hends⟩
  · intro hdone t
    have hfinished : (s.grammar.normalizeWithin limit).obstacle? = none :=
      Option.map_eq_none_iff.1 hdone
    obtain ⟨_, hwithin⟩ := normalizeWithin_normal hs.wellFormed hfinished
    obtain ⟨horder, hsize⟩ := exceeds_eq_false_iff.1 hwithin
    refine ⟨horder, hsize, ?_⟩
    intro limit' hle
    have hresult : s.grammar.normalizeWithin limit =
        ⟨(s.grammar.normalizeWithin limit).grammar, none⟩ := by
      rw [← hfinished]
    have hlarger := normalizeWithin_mono hle hresult
    show s.adoptNormalized (s.grammar.normalizeWithin limit') = _
    rw [hlarger]
    rfl

/-- Six productions become eleven, those of five nonterminals. -/
theorem normalizeWithin_bounded_independent_created :
    let s := withLines ["S->Aa", "S->b", "A->Ac", "A->Sd", "A->Se", "A->"]
    let t := (s.apply (.normalizeWithin 11)).1
    s.Reachable ∧ (s.apply (.normalizeWithin 11)).2 = none ∧ t.grammar.order.length = 5 ∧
      t.grammar.size = 11 ∧ s.apply (.normalizeWithin workLimit) = (t, none) := by
  intro s t
  have hs : s.Reachable := reachable_withLines _
  have hdone : (s.apply (.normalizeWithin 11)).2 = none := by
    unfold s
    cbv
  have horder : t.grammar.order.length = 5 := by
    unfold t s
    cbv
  have hsize : t.grammar.size = 11 := by
    unfold t s
    cbv
  obtain ⟨_, hbounded⟩ := normalizeWithin_bounded_independent hs 11
  obtain ⟨_, _, hlarger⟩ := hbounded hdone
  exact ⟨hs, hdone, horder, hsize, hlarger workLimit (by decide)⟩

end Session

end PredictiveParsing
