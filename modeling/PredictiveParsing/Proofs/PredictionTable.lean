/-
Module: PredictiveParsing.Proofs.PredictionTable
Layer: Proofs
Purpose: What the cells of a prediction table hold, for any lookahead sets. The claimants of a cell
  are the bodies predicted there. The last of them stands in the cell, and the conflicts of the cell
  are the replacements met on the way, one for each two claimants that follow each other. So where
  no conflict is recorded there is no choice.
Imports: PredictiveParsing.Proofs.WellFormed
Main exports: Table.claimants, Table.replacements, Table.replacements_eq_zipWith,
  Grammar.entry?_table, Grammar.conflicts_table, Grammar.filter_conflicts_table,
  Grammar.conflicts_table_eq_nil_iff, Grammar.produces_of_entry, Grammar.entry?_of_no_conflicts
Open obligations: none
-/
import PredictiveParsing.Proofs.WellFormed

namespace PredictiveParsing

namespace Table

/-- The alternatives predicted in one cell, in the order in which they are entered. -/
def claimants (lookahead : Lookahead) (n : NonTerminal) (c : Char) (bodies : List Body) :
    List Body :=
  bodies.filter fun p => c ∈ lookahead.predict n p

/-- The conflict of writing a body into a cell that may hold another one. -/
def replacement (n : NonTerminal) (c : Char) (old? : Option Body) (p : Body) : List Conflict :=
  match old? with
  | none => []
  | some old => if old = p then [] else [⟨n, c, old, p⟩]

/-- The conflicts of writing bodies one after the other into a cell. -/
def replacements (n : NonTerminal) (c : Char) : Option Body → List Body → List Conflict
  | _, [] => []
  | old?, p :: rest => replacement n c old? p ++ replacements n c (some p) rest

variable {lookahead : Lookahead} {n : NonTerminal}

theorem writeCell_eq (row : Row) (conflicts : List Conflict) (c : Char) (p : Body) :
    writeCell n (row, conflicts) (c, p) =
      (row.insert c p, conflicts ++ replacement n c (row.get? c) p) := rfl

theorem replacement_some_self (c : Char) (p : Body) : replacement n c (some p) p = [] := by
  simp [replacement]

theorem filter_replacement (c d : Char) (old? : Option Body) (p : Body) :
    (replacement n d old? p).filter (·.terminal = c) =
      if d = c then replacement n d old? p else [] := by
  cases old? with
  | none => simp [replacement]
  | some old => grind [replacement]

/-- The cells of one body: afterwards the body stands in each of them, and each has met at most one
conflict, however often it was written. -/
theorem foldl_writeCell (p : Body) (chars : List Char) (row : Row) (conflicts : List Conflict)
    (c : Char) :
    let filled := (chars.map fun d => (d, p)).foldl (writeCell n) (row, conflicts)
    filled.1.get? c = (if c ∈ chars then some p else row.get? c) ∧
      filled.2.filter (·.terminal = c) = conflicts.filter (·.terminal = c) ++
        if c ∈ chars then replacement n c (row.get? c) p else [] := by
  induction chars generalizing row conflicts with
  | nil => simp
  | cons d chars ih =>
      obtain ⟨hget, hconflicts⟩ :=
        ih (row.insert d p) (conflicts ++ replacement n d (row.get? d) p)
      rw [List.map_cons, List.foldl_cons, writeCell_eq]
      refine ⟨?_, ?_⟩
      · rw [hget, OrderedMap.get?_insert]
        grind
      · rw [hconflicts, List.filter_append, filter_replacement, OrderedMap.get?_insert]
        rcases eq_or_ne d c with rfl | hne
        · -- The cell holds the body from now on, and writing it again is no conflict.
          simp [replacement_some_self]
        · simp [hne, hne.symm]

theorem claimants_cons (c : Char) (p : Body) (bodies : List Body) :
    claimants lookahead n c (p :: bodies) =
      if c ∈ lookahead.predict n p then p :: claimants lookahead n c bodies
      else claimants lookahead n c bodies := by
  simp [claimants, List.filter_cons]

/-- The last of the bodies that are written after a first one is the last of all. -/
theorem getLast?_cons_or (p : Body) (rest : List Body) (old? : Option Body) :
    (p :: rest).getLast?.or old? = rest.getLast?.or (some p) := by
  rw [List.getLast?_cons]
  cases rest.getLast? <;> rfl

/-- The row of `n`: the last claimant of a cell stands in it, and the conflicts of the cell are
those between claimants that follow each other. -/
theorem foldl_writeCell_flatMap (lookahead : Lookahead) (n : NonTerminal) (bodies : List Body)
    (row : Row) (conflicts : List Conflict) (c : Char) :
    let filled := (bodies.flatMap fun p => (lookahead.predict n p).map fun d => (d, p)).foldl
      (writeCell n) (row, conflicts)
    filled.1.get? c = (claimants lookahead n c bodies).getLast?.or (row.get? c) ∧
      filled.2.filter (·.terminal = c) = conflicts.filter (·.terminal = c) ++
        replacements n c (row.get? c) (claimants lookahead n c bodies) := by
  induction bodies generalizing row conflicts with
  | nil => simp [claimants, replacements]
  | cons p bodies ih =>
      obtain ⟨hget, hconflicts⟩ := foldl_writeCell p (lookahead.predict n p) row conflicts c
      rw [List.flatMap_cons, List.foldl_append]
      generalize ((lookahead.predict n p).map fun d => (d, p)).foldl (writeCell n)
        (row, conflicts) = filled at hget hconflicts
      obtain ⟨row', conflicts'⟩ := filled
      obtain ⟨hget', hconflicts'⟩ := ih row' conflicts'
      dsimp only at hget hconflicts hget' hconflicts' ⊢
      rw [hget', hconflicts', hget, hconflicts]
      rcases Decidable.em (c ∈ lookahead.predict n p) with hc | hc
      · simp [claimants_cons, hc, replacements, getLast?_cons_or]
      · simp [claimants_cons, hc]

theorem get?_fillRow (bodies : List Body) (c : Char) :
    (fillRow lookahead n bodies).1.get? c = (claimants lookahead n c bodies).getLast? := by
  have hrow := (foldl_writeCell_flatMap lookahead n bodies ∅ [] c).1
  rw [OrderedMap.get?_empty, Option.or_none] at hrow
  exact hrow

theorem filter_conflicts_fillRow (bodies : List Body) (c : Char) :
    (fillRow lookahead n bodies).2.filter (·.terminal = c) =
      replacements n c none (claimants lookahead n c bodies) :=
  (foldl_writeCell_flatMap lookahead n bodies ∅ [] c).2

theorem replacements_some_eq_zipWith {c : Char} {old : Body} {bodies : List Body}
    (h : (old :: bodies).Nodup) : replacements n c (some old) bodies =
      List.zipWith (fun p q => ⟨n, c, p, q⟩) (old :: bodies) bodies := by
  induction bodies generalizing old with
  | nil => rfl
  | cons p rest ih =>
      obtain ⟨hold, hrest⟩ := List.nodup_cons.1 h
      have hne : old ≠ p := fun e => hold (e ▸ List.mem_cons_self)
      rw [replacements, ih hrest]
      simp [replacement, hne]

/-- Distinct bodies replace each other one after the other. -/
theorem replacements_eq_zipWith {c : Char} {bodies : List Body} (h : bodies.Nodup) :
    replacements n c none bodies =
      List.zipWith (fun p q => ⟨n, c, p, q⟩) bodies bodies.tail := by
  cases bodies with
  | nil => rfl
  | cons p rest => exact replacements_some_eq_zipWith h

/-- The conflicts of a row are conflicts of its nonterminal. -/
theorem nonTerminal_of_mem_conflicts_fillRow {bodies : List Body} :
    ∀ conflict ∈ (fillRow lookahead n bodies).2, conflict.nonTerminal = n := by
  have hfold : ∀ (cells : List (Char × Body)) (filled : Row × List Conflict),
      (∀ conflict ∈ filled.2, conflict.nonTerminal = n) →
      ∀ conflict ∈ (cells.foldl (writeCell n) filled).2, conflict.nonTerminal = n := by
    intro cells
    induction cells with
    | nil => exact fun filled hfilled => hfilled
    | cons cell rest ih =>
        intro filled hfilled
        apply ih
        intro conflict hconflict
        obtain ⟨row, conflicts⟩ := filled
        obtain ⟨c, p⟩ := cell
        rw [writeCell_eq, List.mem_append] at hconflict
        rcases hconflict with hold | hnew
        · exact hfilled conflict hold
        · cases hget : row.get? c with
          | none => simp [replacement, hget] at hnew
          | some old =>
              have hmem : old ≠ p ∧ conflict = ⟨n, c, old, p⟩ := by
                simpa [replacement, hget] using hnew
              rw [hmem.2]
  exact hfold _ (∅, []) (by simp)

/-- Without replacements all bodies that were written are the same. -/
theorem eq_of_replacements_eq_nil {c : Char} {old : Body} {bodies : List Body}
    (h : replacements n c (some old) bodies = []) : ∀ p ∈ bodies, p = old := by
  induction bodies with
  | nil => simp
  | cons p bodies ih =>
      obtain ⟨hfirst, hrest⟩ := List.append_eq_nil_iff.1 h
      have hp : old = p := by
        by_contra hne
        simp [replacement, hne] at hfirst
      subst hp
      intro q hq
      rcases List.mem_cons.1 hq with rfl | hq
      · rfl
      · exact ih hrest q hq

/-- A row without conflicts holds every body in every cell where it is predicted. -/
theorem get?_fillRow_of_no_conflicts {bodies : List Body} {p : Body} {c : Char}
    (h : (fillRow lookahead n bodies).2 = []) (hp : p ∈ bodies)
    (hc : c ∈ lookahead.predict n p) : (fillRow lookahead n bodies).1.get? c = some p := by
  have hreplace : replacements n c none (claimants lookahead n c bodies) = [] := by
    rw [← filter_conflicts_fillRow, h, List.filter_nil]
  have hclaim : p ∈ claimants lookahead n c bodies := List.mem_filter.2 ⟨hp, by simpa using hc⟩
  rw [get?_fillRow]
  generalize claimants lookahead n c bodies = claims at hreplace hclaim
  cases claims with
  | nil => cases hclaim
  | cons first rest =>
      -- Nothing replaces the first claimant, so it is the only one.
      have hsame : ∀ q ∈ first :: rest, q = first := by
        intro q hq
        rcases List.mem_cons.1 hq with rfl | hq
        · rfl
        · exact eq_of_replacements_eq_nil hreplace q hq
      rw [List.getLast?_eq_some_getLast (List.cons_ne_nil first rest), hsame p hclaim]
      exact congrArg some (hsame _ (List.getLast_mem _))

/-- Rows are added for distinct nonterminals, so none is overwritten. -/
theorem get?_foldl_addRow {rules : List Rule} (h : (rules.map Rule.head).Nodup) (table : Table)
    (n : NonTerminal) :
    (rules.foldl (addRow lookahead) table).rows.get? n =
      ((rules.find? (·.head = n)).map fun rule =>
        (fillRow lookahead n rule.bodies.toList).1).or (table.rows.get? n) := by
  induction rules generalizing table with
  | nil => rfl
  | cons rule rest ih =>
      obtain ⟨hhead, hrest⟩ := List.nodup_cons.1 h
      have hrow : (addRow lookahead table rule).rows.get? n =
          if rule.head = n then some (fillRow lookahead rule.head rule.bodies.toList).1
          else table.rows.get? n := OrderedMap.get?_insert _ _ _ _
      rw [List.foldl_cons, ih hrest, hrow]
      rcases eq_or_ne rule.head n with rfl | hne
      · have hnone : rest.find? (·.head = rule.head) = none := by
          rw [List.find?_eq_none]
          intro other hother hsame
          exact hhead (List.mem_map.2 ⟨other, hother, of_decide_eq_true hsame⟩)
        simp [hnone]
      · simp [hne]

end Table

namespace Grammar

open Table

variable {g : Grammar} {lookahead : Lookahead}

/-- The cell of `n` and `c` holds the last of the alternatives that claim it. -/
theorem entry?_table (h : g.order.Nodup) (n : NonTerminal) (c : Char) :
    Table.entry? (g.table lookahead) n c =
      (g.bodies? n).bind fun bodies => (claimants lookahead n c bodies.toList).getLast? := by
  have hrow : (g.table lookahead).rows.get? n = _ := get?_foldl_addRow h ∅ n
  rw [Table.entry?, hrow]
  unfold bodies? rule?
  cases g.rules.find? (·.head = n) with
  | none => rfl
  | some rule => exact get?_fillRow rule.bodies.toList c

/-- The conflicts of a table are those of its rows. -/
theorem conflicts_table : (g.table lookahead).conflicts =
    g.rules.flatMap fun rule => (fillRow lookahead rule.head rule.bodies.toList).2 := by
  have hfold : ∀ (rules : List Rule) (table : Table),
      (rules.foldl (addRow lookahead) table).conflicts = table.conflicts ++
        rules.flatMap fun rule => (fillRow lookahead rule.head rule.bodies.toList).2 := by
    intro rules
    induction rules with
    | nil => simp
    | cons rule rest ih =>
        intro table
        rw [List.foldl_cons, ih, List.flatMap_cons, ← List.append_assoc]
        rfl
  exact hfold g.rules ∅

/-- The conflicts of the cell of `n` and `c` are the replacements among the alternatives that claim
it. -/
theorem filter_conflicts_table (h : g.order.Nodup) {n : NonTerminal} {bodies : OrderedSet Body}
    (hbodies : g.bodies? n = some bodies) (c : Char) :
    (g.table lookahead).conflicts.filter (fun k => k.nonTerminal = n ∧ k.terminal = c) =
      replacements n c none (claimants lookahead n c bodies.toList) := by
  obtain ⟨before, after, hrules⟩ := List.append_of_mem (rule_mem_of_bodies? hbodies)
  -- The rules beside that of `n` have conflicts of other nonterminals only.
  have hother : ∀ rule : Rule, rule.head ≠ n →
      (fillRow lookahead rule.head rule.bodies.toList).2.filter
        (fun k => k.nonTerminal = n ∧ k.terminal = c) = [] := by
    intro rule hne
    rw [List.filter_eq_nil_iff]
    intro conflict hconflict hboth
    rw [decide_eq_true_eq] at hboth
    exact hne ((nonTerminal_of_mem_conflicts_fillRow conflict hconflict).symm.trans hboth.1)
  have hown : (fillRow lookahead n bodies.toList).2.filter
      (fun k => k.nonTerminal = n ∧ k.terminal = c) =
        replacements n c none (claimants lookahead n c bodies.toList) := by
    rw [← filter_conflicts_fillRow]
    apply List.filter_congr
    intro conflict hconflict
    simp [nonTerminal_of_mem_conflicts_fillRow conflict hconflict]
  have hheads : (before.map Rule.head ++ n :: after.map Rule.head).Nodup := by
    simpa [order, hrules] using h
  obtain ⟨_, hafter, hdisjoint⟩ := List.nodup_append.1 hheads
  have hbefore : ∀ rule ∈ before, rule.head ≠ n := fun rule hrule =>
    hdisjoint _ (List.mem_map_of_mem hrule) n List.mem_cons_self
  have hafter' : ∀ rule ∈ after, rule.head ≠ n := fun rule hrule e =>
    (List.nodup_cons.1 hafter).1 (e ▸ List.mem_map_of_mem hrule)
  rw [conflicts_table, hrules, List.filter_flatMap, List.flatMap_append, List.flatMap_cons,
    List.flatMap_eq_nil_iff.2 fun rule hrule => hother rule (hbefore rule hrule),
    List.flatMap_eq_nil_iff.2 fun rule hrule => hother rule (hafter' rule hrule),
    List.nil_append, List.append_nil]
  exact hown

/-- Only bodies of a nonterminal are predicted for it. -/
theorem produces_of_entry (h : g.order.Nodup) {n : NonTerminal} {c : Char} {p : Body}
    (hentry : Table.entry? (g.table lookahead) n c = some p) : g.Produces n p := by
  rw [entry?_table h] at hentry
  obtain ⟨bodies, hbodies, hlast⟩ := Option.bind_eq_some_iff.1 hentry
  have hclaim : p ∈ claimants lookahead n c bodies.toList := List.mem_of_getLast? hlast
  exact (produces_iff_of_bodies? h hbodies).2 (List.mem_filter.1 hclaim).1

/-- In a table without conflicts every body stands wherever it is predicted. -/
theorem entry?_of_no_conflicts (h : g.order.Nodup) (hnone : (g.table lookahead).conflicts = [])
    {n : NonTerminal} {p : Body} (hp : g.Produces n p) {c : Char}
    (hc : c ∈ lookahead.predict n p) : Table.entry? (g.table lookahead) n c = some p := by
  obtain ⟨bodies, hbodies⟩ := exists_bodies_of_mem_order hp.mem_order
  have hbody : p ∈ bodies.toList := (produces_iff_of_bodies? h hbodies).1 hp
  rw [conflicts_table, List.flatMap_eq_nil_iff] at hnone
  rw [entry?_table h, hbodies, Option.bind_some, ← get?_fillRow]
  exact get?_fillRow_of_no_conflicts (hnone _ (rule_mem_of_bodies? hbodies)) hbody hc

/-- A table has no conflicts exactly if no two bodies of a nonterminal are predicted by the same
character. -/
theorem conflicts_table_eq_nil_iff (h : g.order.Nodup) :
    (g.table lookahead).conflicts = [] ↔
      ∀ n p q, g.Produces n p → g.Produces n q → p ≠ q →
        ∀ c, ¬ (c ∈ lookahead.predict n p ∧ c ∈ lookahead.predict n q) := by
  constructor
  · intro hnone n p q hp hq hne c hboth
    have hentry := entry?_of_no_conflicts h hnone hp hboth.1
    rw [entry?_of_no_conflicts h hnone hq hboth.2] at hentry
    exact hne (Option.some.inj hentry).symm
  · intro hdisjoint
    rw [List.eq_nil_iff_forall_not_mem]
    intro conflict hconflict
    rw [conflicts_table] at hconflict
    obtain ⟨rule, hrule, hrow⟩ := List.mem_flatMap.1 hconflict
    -- The conflict is a replacement in its cell, which at most one body claims.
    have hcell : conflict ∈ replacements rule.head conflict.terminal none
        (claimants lookahead rule.head conflict.terminal rule.bodies.toList) := by
      rw [← filter_conflicts_fillRow]
      exact List.mem_filter.2 ⟨hrow, by simp⟩
    have hnodup : (claimants lookahead rule.head conflict.terminal rule.bodies.toList).Nodup :=
      rule.bodies.nodup.filter _
    have hclaim : ∀ p ∈ claimants lookahead rule.head conflict.terminal rule.bodies.toList,
        g.Produces rule.head p ∧ conflict.terminal ∈ lookahead.predict rule.head p := by
      intro p hp
      obtain ⟨hbody, hpredict⟩ := List.mem_filter.1 hp
      exact ⟨⟨rule, hrule, rfl, hbody⟩, of_decide_eq_true hpredict⟩
    rw [replacements_eq_zipWith hnodup] at hcell
    generalize claimants lookahead rule.head conflict.terminal rule.bodies.toList = claims at *
    match claims, hcell with
    | p :: q :: rest, _ =>
        have hne : p ≠ q := fun e => (List.nodup_cons.1 hnodup).1 (e ▸ List.mem_cons_self)
        have hp := hclaim p List.mem_cons_self
        have hq := hclaim q (List.mem_cons_of_mem _ List.mem_cons_self)
        exact hdisjoint rule.head p q hp.1 hq.1 hne conflict.terminal ⟨hp.2, hq.2⟩

end Grammar

end PredictiveParsing
