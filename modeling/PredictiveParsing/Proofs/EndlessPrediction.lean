/-
Module: PredictiveParsing.Proofs.EndlessPrediction
Layer: Proofs
Purpose: When predictions go on for ever. A parse gives up after a number of predictions in a row,
  since there might be no end to them. There is none exactly if a nonterminal comes up again while
  it is still being expanded: otherwise, as only finitely many nonterminals have a row, each of them
  is done with after finitely many predictions. The parser does not look for this. It gives up after
  a fixed number of predictions, also where some more of them would have led to a terminal.
Imports: Mathlib, PredictiveParsing.Proofs.TableRuns, PredictiveParsing.Proofs.WellFormed
Main exports: Table.predictTimes, Table.PredictsForever, Table.Recurs, Table.halts_of_not_recurs,
  Table.predictsForever_iff_recurs, Table.Runs.exists_stretch, Table.Runs.exists_stopped,
  Session.recognize_out_of_patience
Open obligations: none
-/
import Mathlib
import PredictiveParsing.Proofs.TableRuns
import PredictiveParsing.Proofs.WellFormed

namespace PredictiveParsing

/-- The last row of a longer record is the last one behind its first row. -/
theorem Trace.exists_of_rows_after {row last : TraceStep} {trace : Trace} {rows : List TraceStep}
    (hne : row ≠ last) (h : (trace.after row).rows = rows ++ [last]) :
    ∃ others, rows = row :: others ∧ trace.rows = others ++ [last] := by
  cases rows with
  | nil => exact absurd (List.cons.inj h).1 hne
  | cons first others =>
      obtain ⟨rfl, hrest⟩ := List.cons.inj h
      exact ⟨others, rfl, hrest⟩

namespace Table

variable {table : Table} {c : Char} {σ τ below : List Symbol} {n : NonTerminal} {p : Body}

/-- Replace the nonterminal on top of the stack by the body that the table has for the next
character. -/
def predict? (table : Table) (c : Char) : List Symbol → Option (List Symbol)
  | .nonTerminal n :: below => (table.entry? n c).map (· ++ below)
  | _ => none

/-- Make a number of predictions in a row, and shift nothing. -/
def predictTimes (table : Table) (c : Char) : Nat → List Symbol → Option (List Symbol)
  | 0, stack => some stack
  | k + 1, stack => (table.predict? c stack).bind (table.predictTimes c k)

/-- However many predictions were made, another one can be made: no terminal comes to the top, no
entry is missing, and the stack does not run empty. -/
def PredictsForever (table : Table) (c : Char) (stack : List Symbol) : Prop :=
  ∀ k, (table.predictTimes c k stack).isSome = true

/-- Predictions bring a nonterminal to the top of a stack. -/
def Brings (table : Table) (c : Char) (stack : List Symbol) (n : NonTerminal) : Prop :=
  ∃ k below, table.predictTimes c k stack = some (.nonTerminal n :: below)

/-- While a nonterminal is being expanded, another one, or the same one again, comes to the top. -/
def Involves (table : Table) (c : Char) (n m : NonTerminal) : Prop :=
  ∃ k behind, table.predictTimes c (k + 1) [.nonTerminal n] = some (.nonTerminal m :: behind)

/-- Predictions come back to a nonterminal that is still being expanded. -/
def Recurs (table : Table) (c : Char) (stack : List Symbol) : Prop :=
  ∃ n, table.Brings c stack n ∧ table.Involves c n n

/-- After some predictions, no further one can be made. -/
def Halts (table : Table) (c : Char) (stack : List Symbol) : Prop :=
  ∃ k last, table.predictTimes c k stack = some last ∧ table.predict? c last = none

/-! ### Predictions in a row -/

theorem predict?_eq_some_iff : table.predict? c σ = some τ ↔
    ∃ n p below, table.entry? n c = some p ∧ σ = .nonTerminal n :: below ∧ τ = p ++ below := by
  constructor
  · intro h
    cases σ with
    | nil => cases h
    | cons s below =>
        cases s with
        | terminal d => cases h
        | nonTerminal n =>
            obtain ⟨p, hentry, rfl⟩ := Option.map_eq_some_iff.1 h
            exact ⟨n, p, below, hentry, rfl, rfl⟩
  · intro h
    obtain ⟨n, p, below, hentry, rfl, rfl⟩ := h
    exact Option.map_eq_some_iff.2 ⟨p, hentry, rfl⟩

/-- Whether a prediction can be made is seen from the top of the stack. -/
theorem predict?_cons_eq_none {s : Symbol} (h : table.predict? c (s :: σ) = none)
    (τ : List Symbol) : table.predict? c (s :: τ) = none := by
  cases s with
  | terminal d => rfl
  | nonTerminal n => exact Option.map_eq_none_iff.2 (Option.map_eq_none_iff.1 h)

theorem predictTimes_succ (hentry : table.entry? n c = some p) (k : Nat) (below : List Symbol) :
    table.predictTimes c (k + 1) (.nonTerminal n :: below) =
      table.predictTimes c k (p ++ below) := by
  have hfirst : table.predict? c (.nonTerminal n :: below) = some (p ++ below) :=
    predict?_eq_some_iff.2 ⟨n, p, below, hentry, rfl, rfl⟩
  rw [predictTimes, hfirst, Option.bind_some]

theorem exists_of_isSome_predictTimes {k : Nat}
    (h : (table.predictTimes c (k + 1) σ).isSome = true) :
    ∃ n p below, table.entry? n c = some p ∧ σ = .nonTerminal n :: below ∧
      (table.predictTimes c k (p ++ below)).isSome = true := by
  cases hfirst : table.predict? c σ with
  | none => simp [predictTimes, hfirst] at h
  | some next =>
      obtain ⟨n, p, below, hentry, rfl, rfl⟩ := predict?_eq_some_iff.1 hfirst
      rw [predictTimes_succ hentry] at h
      exact ⟨n, p, below, hentry, rfl, h⟩

theorem predictTimes_add (k l : Nat) (σ : List Symbol) :
    table.predictTimes c (k + l) σ = (table.predictTimes c k σ).bind (table.predictTimes c l) := by
  induction k generalizing σ with
  | zero => rw [Nat.zero_add, predictTimes, Option.bind_some]
  | succ k ih =>
      rw [Nat.succ_add, predictTimes, predictTimes, Option.bind_assoc]
      exact congrArg _ (funext ih)

theorem predictTimes_trans {k l : Nat} {ρ : List Symbol} (h : table.predictTimes c k σ = some τ)
    (h' : table.predictTimes c l τ = some ρ) : table.predictTimes c (k + l) σ = some ρ := by
  rw [predictTimes_add, h, Option.bind_some, h']

/-- A shorter series of predictions can be made where a longer one can. -/
theorem isSome_predictTimes_of_le {k l : Nat} (hle : k ≤ l)
    (h : (table.predictTimes c l σ).isSome = true) : (table.predictTimes c k σ).isSome = true := by
  obtain ⟨extra, rfl⟩ := Nat.exists_eq_add_of_le hle
  rw [predictTimes_add] at h
  exact Option.isSome_of_isSome_bind h

/-- Predictions do not depend on what lies below. -/
theorem predictTimes_append {k : Nat} (h : table.predictTimes c k σ = some τ)
    (below : List Symbol) : table.predictTimes c k (σ ++ below) = some (τ ++ below) := by
  induction k generalizing σ with
  | zero =>
      cases h
      rfl
  | succ k ih =>
      obtain ⟨next, hfirst, hrest⟩ := Option.bind_eq_some_iff.1 h
      obtain ⟨n, p, deep, hentry, rfl, rfl⟩ := predict?_eq_some_iff.1 hfirst
      rw [List.cons_append, predictTimes_succ hentry, ← List.append_assoc]
      exact ih hrest

/-- The first predictions do not change whether there is an end. -/
theorem predictsForever_iff_of_predictTimes {k : Nat} (h : table.predictTimes c k σ = some τ) :
    table.PredictsForever c σ ↔ table.PredictsForever c τ := by
  have hlater : ∀ l, table.predictTimes c (k + l) σ = table.predictTimes c l τ := by
    intro l
    rw [predictTimes_add, h, Option.bind_some]
  constructor
  · intro hforever l
    rw [← hlater]
    exact hforever (k + l)
  · intro hforever l
    have hlong := hforever l
    rw [← hlater] at hlong
    exact isSome_predictTimes_of_le (Nat.le_add_left l k) hlong

theorem PredictsForever.append (h : table.PredictsForever c σ) (below : List Symbol) :
    table.PredictsForever c (σ ++ below) := by
  intro k
  obtain ⟨τ, hτ⟩ := Option.isSome_iff_exists.1 (h k)
  rw [predictTimes_append hτ below]
  rfl

/-! ### An end to predictions -/

theorem predictsForever_iff_not_halts :
    table.PredictsForever c σ ↔ ¬ table.Halts c σ := by
  constructor
  · intro hforever hhalts
    obtain ⟨k, last, hlast, hstuck⟩ := hhalts
    have hnext := hforever (k + 1)
    rw [predictTimes_add, hlast, Option.bind_some, predictTimes, hstuck] at hnext
    cases hnext
  · intro hnot k
    induction k with
    | zero => rfl
    | succ k ih =>
        obtain ⟨last, hlast⟩ := Option.isSome_iff_exists.1 ih
        rw [predictTimes_add, hlast, Option.bind_some]
        cases hnext : table.predict? c last with
        | none => exact absurd ⟨k, last, hlast, hnext⟩ hnot
        | some next => simp [predictTimes, hnext]

theorem Halts.of_predictTimes {k : Nat} (h : table.predictTimes c k σ = some τ)
    (hhalts : table.Halts c τ) : table.Halts c σ := by
  obtain ⟨l, last, hlast, hstuck⟩ := hhalts
  exact ⟨k + l, last, predictTimes_trans h hlast, hstuck⟩

theorem Brings.of_predictTimes {k : Nat} (h : table.predictTimes c k σ = some τ)
    (hbrings : table.Brings c τ n) : table.Brings c σ n := by
  obtain ⟨l, below, hn⟩ := hbrings
  exact ⟨k + l, below, predictTimes_trans h hn⟩

/-- What comes to the top while a nonterminal is expanded comes to the top of every stack that the
nonterminal does. -/
theorem Brings.trans {m : NonTerminal} (h : table.Brings c σ n) (hm : table.Involves c n m) :
    table.Brings c σ m := by
  obtain ⟨k, below, hn⟩ := h
  obtain ⟨l, behind, hl⟩ := hm
  exact ⟨k + (l + 1), behind ++ below, predictTimes_trans hn (predictTimes_append hl below)⟩

theorem involves_iff {m : NonTerminal} : table.Involves c n m ↔
    ∃ p, table.entry? n c = some p ∧ table.Brings c p m := by
  constructor
  · intro h
    obtain ⟨k, behind, hk⟩ := h
    obtain ⟨n', p, below, hentry, heq, _⟩ :=
      exists_of_isSome_predictTimes (Option.isSome_of_eq_some hk)
    cases heq
    rw [predictTimes_succ hentry, List.append_nil] at hk
    exact ⟨p, hentry, k, behind, hk⟩
  · intro h
    obtain ⟨p, hentry, k, behind, hk⟩ := h
    refine ⟨k, behind, ?_⟩
    rw [predictTimes_succ hentry, List.append_nil]
    exact hk

theorem Involves.trans {l m : NonTerminal} (h : table.Involves c n m) (h' : table.Involves c m l) :
    table.Involves c n l := by
  obtain ⟨p, hentry, hm⟩ := involves_iff.1 h
  exact involves_iff.2 ⟨p, hentry, hm.trans h'⟩

/-- Predictions on a stack come to an end if they do for each nonterminal that they bring to the
top, taken alone. -/
theorem halts_of_tops (htops : ∀ n, table.Brings c σ n → table.Halts c [.nonTerminal n]) :
    table.Halts c σ := by
  induction σ with
  | nil => exact ⟨0, [], rfl, rfl⟩
  | cons s rest ih =>
      cases s with
      | terminal d => exact ⟨0, .terminal d :: rest, rfl, rfl⟩
      | nonTerminal n =>
          obtain ⟨k, last, hlast, hstuck⟩ := htops n ⟨0, rest, rfl⟩
          have hwhole : table.predictTimes c k (.nonTerminal n :: rest) = some (last ++ rest) :=
            predictTimes_append hlast rest
          cases last with
          | nil =>
              -- The nonterminal has vanished, and it is the turn of what lay below it.
              exact .of_predictTimes hwhole (ih fun m hm => htops m (.of_predictTimes hwhole hm))
          | cons top above => exact ⟨k, _, hwhole, predict?_cons_eq_none hstuck (above ++ rest)⟩

/-- The predictions for a nonterminal come to an end if those for all nonterminals that it involves
do. -/
theorem halts_of_involved (h : ∀ m, table.Involves c n m → table.Halts c [.nonTerminal m]) :
    table.Halts c [.nonTerminal n] := by
  cases hentry : table.entry? n c with
  | none => exact ⟨0, _, rfl, by simp [predict?, hentry]⟩
  | some p =>
      have hfirst : table.predictTimes c 1 [.nonTerminal n] = some p := by
        rw [predictTimes_succ hentry, List.append_nil]
        rfl
      exact .of_predictTimes hfirst
        (halts_of_tops fun m hm => h m (involves_iff.2 ⟨p, hentry, hm⟩))

/-- A nonterminal that involves others has a row. -/
theorem Involves.mem_keys {m : NonTerminal} (h : table.Involves c n m) : n ∈ table.rows.keys := by
  obtain ⟨p, hentry, _⟩ := involves_iff.1 h
  by_contra hnot
  unfold entry? at hentry
  rw [OrderedMap.get?_eq_none.2 hnot] at hentry
  cases hentry

/-- Where predictions never come back to a nonterminal that is still being expanded, they come to an
end: the nonterminals that come up and have a row are finitely many, involving one another is an
order on them, and induction on this order brings the predictions for each of them to an end. -/
theorem halts_of_not_recurs (hnot : ¬ table.Recurs c σ) : table.Halts c σ := by
  let tops : Set NonTerminal := { n | n ∈ table.rows.keys ∧ table.Brings c σ n }
  let Under : tops → tops → Prop := fun m n => table.Involves c n.val m.val
  have hfinite : Finite tops :=
    (table.rows.keys.toList.finite_toSet).subset fun n hn => hn.1
  have htrans : IsTrans tops Under := ⟨fun l m n hlm hmn => hmn.trans hlm⟩
  have hirrefl : Std.Irrefl Under := ⟨fun n hself => hnot ⟨n.val, n.property.2, hself⟩⟩
  have hwf : WellFounded Under := Finite.wellFounded_of_trans_of_irrefl Under
  have hrows : ∀ n : tops, table.Halts c [.nonTerminal n.val] := by
    intro n
    induction n using hwf.induction with
    | _ n ih =>
        apply halts_of_involved
        intro m hm
        by_cases hrow : m ∈ table.rows.keys
        · exact ih ⟨m, hrow, n.property.2.trans hm⟩ hm
        · exact halts_of_involved fun l hl => absurd hl.mem_keys hrow
  apply halts_of_tops
  intro n hn
  by_cases hrow : n ∈ table.rows.keys
  · exact hrows ⟨n, hrow, hn⟩
  · exact halts_of_involved fun m hm => absurd hm.mem_keys hrow

/-- A nonterminal that involves itself does so again and again. -/
theorem Involves.predictsForever (h : table.Involves c n n) :
    table.PredictsForever c [.nonTerminal n] := by
  obtain ⟨k, behind, hagain⟩ := h
  have hrounds : ∀ rounds, ∃ rest, table.predictTimes c (rounds * (k + 1)) [.nonTerminal n] =
      some (.nonTerminal n :: rest) := by
    intro rounds
    induction rounds with
    | zero => exact ⟨[], by rw [Nat.zero_mul, predictTimes]⟩
    | succ rounds ih =>
        obtain ⟨rest, hrest⟩ := ih
        rw [Nat.succ_mul]
        exact ⟨behind ++ rest, predictTimes_trans hrest (predictTimes_append hagain rest)⟩
  intro l
  obtain ⟨rest, hrest⟩ := hrounds l
  apply isSome_predictTimes_of_le (Nat.le_mul_of_pos_right l k.succ_pos)
  rw [hrest]
  rfl

/-- There is no end to predictions exactly if they come back to a nonterminal that is still being
expanded. -/
theorem predictsForever_iff_recurs : table.PredictsForever c σ ↔ table.Recurs c σ := by
  constructor
  · intro hforever
    by_contra hnot
    exact predictsForever_iff_not_halts.1 hforever (halts_of_not_recurs hnot)
  · intro h
    obtain ⟨n, ⟨k, below, hreached⟩, hself⟩ := h
    exact (predictsForever_iff_of_predictTimes hreached).2 (hself.predictsForever.append below)

/-! ### Giving up -/

namespace Runs

variable {limit patience : Nat} {stack : List Symbol} {input later : List Char} {trace : Trace}
  {rows : List TraceStep}

/-- A parse that rejects where the table has an entry has made as many predictions in a row as are
allowed, with the same input before it. -/
theorem exists_stretch (h : table.Runs limit patience stack input trace)
    (hrows : trace.rows = rows ++ [⟨.nonTerminal n :: below, c :: later, .reject⟩])
    (hentry : table.entry? n c = some p) :
    ∃ passed stretch base, rows = passed ++ stretch ∧
      (∀ row ∈ stretch, row.input = c :: later ∧ row.action.prediction?.isSome = true) ∧
      table.predictTimes c stretch.length base = some (.nonTerminal n :: below) ∧
      (stretch.length = limit ∨
        stretch.length = patience ∧ passed = [] ∧ base = stack ∧ input = c :: later) := by
  induction h generalizing rows with
  | accept => simp at hrows
  | @shift _ d deep rest _ hruns ih =>
      obtain ⟨rows', rfl, hrest⟩ := Trace.exists_of_rows_after (by simp) hrows
      obtain ⟨passed, stretch, base, rfl, hstretch, hbase, hlength⟩ := ih hrest
      refine ⟨_ :: passed, stretch, base, rfl, hstretch, hbase, Or.inl ?_⟩
      exact hlength.elim id fun hleft => hleft.1
  | @predict left m d q deep rest _ hother hruns ih =>
      obtain ⟨rows', rfl, hrest⟩ := Trace.exists_of_rows_after (by simp) hrows
      obtain ⟨passed, stretch, base, rfl, hstretch, hbase, hlength⟩ := ih hrest
      rcases hlength with hlimit | ⟨hleft, rfl, rfl, hinput⟩
      · exact ⟨_ :: passed, stretch, base, rfl, hstretch, hbase, Or.inl hlimit⟩
      · cases hinput
        refine ⟨[], _ :: stretch, .nonTerminal m :: deep, rfl, ?_, ?_, Or.inr ⟨?_, rfl, rfl, rfl⟩⟩
        · exact List.forall_mem_cons.2 ⟨⟨rfl, rfl⟩, hstretch⟩
        · rw [List.length_cons, predictTimes_succ hother]
          exact hbase
        · rw [List.length_cons, hleft]
  | reject hstuck =>
      obtain ⟨rfl, hlast⟩ | ⟨_, hnil⟩ := List.singleton_eq_append_iff.1 hrows
      · cases hlast
        rcases hstuck with rfl | hnone
        · exact ⟨[], [], _, rfl, by simp, rfl, Or.inr ⟨rfl, rfl, rfl, rfl⟩⟩
        · cases hentry.symm.trans hnone
      · cases hnil

/-- A parse gives up in front of a prediction where more of them can be made than are allowed. -/
theorem exists_stopped (hmore : (table.predictTimes c (patience + 1) stack).isSome = true)
    (h : table.Runs limit patience stack (c :: later) trace) :
    ∃ rows n below p, trace.rows = rows ++ [⟨.nonTerminal n :: below, c :: later, .reject⟩] ∧
      table.entry? n c = some p ∧
      table.predictTimes c patience stack = some (.nonTerminal n :: below) := by
  induction patience generalizing stack trace with
  | zero =>
      obtain ⟨n, p, below, hentry, rfl, _⟩ := exists_of_isSome_predictTimes hmore
      cases h with
      | reject => exact ⟨[], n, below, p, rfl, hentry, rfl⟩
  | succ patience ih =>
      obtain ⟨m, q, deep, hfirst, rfl, hmore'⟩ := exists_of_isSome_predictTimes hmore
      obtain ⟨rest, rfl, hrest⟩ := h.exists_after_predict hfirst
      obtain ⟨rows, n, below, p, hrows, hentry, hreached⟩ := ih hmore' hrest
      refine ⟨_ :: rows, n, below, p, congrArg _ hrows, hentry, ?_⟩
      rw [predictTimes_succ hfirst]
      exact hreached

/-- A parse makes the predictions that it is allowed, and goes on behind them. -/
theorem exists_rest {k : Nat} {last : List Symbol}
    (hlast : table.predictTimes c k stack = some last)
    (h : table.Runs limit (k + patience) stack (c :: later) trace) :
    ∃ rest, table.Runs limit patience last (c :: later) rest ∧
      trace.accepted = rest.accepted := by
  induction k generalizing stack trace with
  | zero =>
      cases hlast
      rw [Nat.zero_add] at h
      exact ⟨trace, h, rfl⟩
  | succ k ih =>
      obtain ⟨m, q, deep, hfirst, rfl, _⟩ :=
        exists_of_isSome_predictTimes (Option.isSome_of_eq_some hlast)
      rw [predictTimes_succ hfirst] at hlast
      rw [Nat.succ_add] at h
      obtain ⟨after, rfl, hafter⟩ := h.exists_after_predict hfirst
      obtain ⟨rest, hrest, haccepted⟩ := ih hlast hafter
      exact ⟨rest, hrest, haccepted⟩

end Runs

/-! ### Many nonterminals that vanish -/

/-- Equal nonterminals vanish one after the other. -/
theorem predictTimes_replicate {k : Nat} (h : table.predictTimes c k [.nonTerminal n] = some [])
    (count : Nat) :
    table.predictTimes c (count * k) (List.replicate count (.nonTerminal n)) = some [] := by
  induction count with
  | zero => rw [Nat.zero_mul, List.replicate_zero, predictTimes]
  | succ count ih =>
      rw [List.replicate_succ, Nat.succ_mul, Nat.add_comm]
      exact predictTimes_trans (predictTimes_append h _) ih

/-- A nonterminal that is replaced by equal ones vanishes after they have. -/
theorem predictTimes_of_replicate {m : NonTerminal} {k count : Nat}
    (hentry : table.entry? n c = some (List.replicate count (.nonTerminal m)))
    (h : table.predictTimes c k [.nonTerminal m] = some []) :
    table.predictTimes c (count * k + 1) [.nonTerminal n] = some [] := by
  rw [predictTimes_succ hentry, List.append_nil]
  exact predictTimes_replicate h count

end Table

namespace Session

open Table

/-- Where a parse rejects although the table has an entry, it has made as many predictions in a row
as are allowed, all with the same input before it. Without the bound it would go on predicting for
ever exactly if it comes back to a nonterminal that it is still expanding. -/
theorem recognize_out_of_patience {s : Session} {input : String} {rows : List TraceStep}
    {n : NonTerminal} {below : List Symbol} {c : Char} {later : List Char} {p : Body}
    (hrows : (s.recognize input).rows = rows ++ [⟨.nonTerminal n :: below, c :: later, .reject⟩])
    (hentry : s.table.entry? n c = some p) :
    (∃ passed stretch base, rows = passed ++ stretch ∧ stretch.length = workLimit ∧
      (∀ row ∈ stretch, row.input = c :: later ∧ row.action.prediction?.isSome = true) ∧
      s.table.predictTimes c workLimit base = some (.nonTerminal n :: below)) ∧
    (s.table.PredictsForever c (.nonTerminal n :: below) ↔
      s.table.Recurs c (.nonTerminal n :: below)) := by
  refine ⟨?_, predictsForever_iff_recurs⟩
  obtain ⟨passed, stretch, base, hsplit, hstretch, hbase, hlength⟩ :=
    (runs_run _ _ _).exists_stretch hrows hentry
  have hlimit : stretch.length = workLimit := hlength.elim id fun hleft => hleft.1
  rw [hlimit] at hbase
  exact ⟨passed, stretch, base, hsplit, hlimit, hstretch, hbase⟩

/-- The nonterminal `C` vanishes in front of `A`, so `A` is on top again after two predictions. -/
theorem recognize_out_of_patience_hidden :
    let s := withLines ["A->a", "A->CAx", "C->&"]
    let t := (((s.apply .normalize).1.apply .computeLookahead).1.apply .computeTable).1
    Session.build "A->a\nA->CAx\nC->&" = .ok t ∧ ∃ rows n below p,
      (t.recognize "a").rows =
        rows ++ [⟨.nonTerminal n :: below, ['a', endMark], .reject⟩] ∧
      t.table.entry? n 'a' = some p ∧
      (∃ passed stretch base, rows = passed ++ stretch ∧ stretch.length = workLimit ∧
        (∀ row ∈ stretch, row.input = ['a', endMark] ∧ row.action.prediction?.isSome = true) ∧
        t.table.predictTimes 'a' workLimit base = some (.nonTerminal n :: below)) ∧
      t.table.PredictsForever 'a' (.nonTerminal n :: below) ∧
      t.table.Recurs 'a' (.nonTerminal n :: below) := by
  intro s t
  have hbuild : Session.build "A->a\nA->CAx\nC->&" = .ok t := by
    unfold t s
    cbv
  have hstart : t.grammar.start? = some ⟨'A', 0, rfl⟩ := by
    unfold t s
    cbv
  have hfirst : t.table.entry? ⟨'A', 0, rfl⟩ 'a' =
      some [.nonTerminal ⟨'C', 0, rfl⟩, .nonTerminal ⟨'A', 0, rfl⟩, .terminal 'x'] := by
    unfold t s
    cbv
  have hsecond : t.table.entry? ⟨'C', 0, rfl⟩ 'a' = some [] := by
    unfold t s
    cbv
  have hruns : t.table.Runs workLimit workLimit
      [.nonTerminal ⟨'A', 0, rfl⟩, .terminal endMark] ['a', endMark] (t.recognize "a") := by
    have hrecognize : t.recognize "a" = t.table.recognize (some ⟨'A', 0, rfl⟩) "a" :=
      congrArg (t.table.recognize · "a") hstart
    rw [hrecognize]
    exact runs_run _ _ _
  have hself : t.table.Involves 'a' ⟨'A', 0, rfl⟩ ⟨'A', 0, rfl⟩ :=
    involves_iff.2 ⟨_, hfirst, 1, [.terminal 'x'], predictTimes_succ hsecond 0 _⟩
  have hforever : t.table.PredictsForever 'a'
      [.nonTerminal ⟨'A', 0, rfl⟩, .terminal endMark] :=
    predictsForever_iff_recurs.2 ⟨⟨'A', 0, rfl⟩, ⟨0, [.terminal endMark], rfl⟩, hself⟩
  obtain ⟨rows, n, below, p, hrows, hentry, hreached⟩ := hruns.exists_stopped (hforever _)
  obtain ⟨hstretch, hrecurs⟩ := recognize_out_of_patience hrows hentry
  have hrest : t.table.PredictsForever 'a' (.nonTerminal n :: below) :=
    (predictsForever_iff_of_predictTimes hreached).1 hforever
  exact ⟨hbuild, rows, n, below, p, hrows, hentry, hstretch, hrest, hrecurs.1 hrest⟩

/-- Not every parse that is given up would go on for ever: eleven thousand nonterminals that vanish
take more predictions than are allowed before the end of the input can be shifted, and nothing else
is wrong with that parse, which is accepted if twice as many predictions are allowed. -/
theorem recognize_out_of_patience_vanishing :
    let s := withLines
      ["S->AAAAAAAAAA", "A->BBBBBBBBBB", "B->CCCCCCCCCC", "C->DDDDDDDDDD", "D->"]
    let t := (((s.apply .normalize).1.apply .computeLookahead).1.apply .computeTable).1
    Session.build "S->AAAAAAAAAA\nA->BBBBBBBBBB\nB->CCCCCCCCCC\nC->DDDDDDDDDD\nD->" = .ok t ∧
      t.table.conflicts = [] ∧
      (∃ rows n below p,
        (t.recognize "").rows = rows ++ [⟨.nonTerminal n :: below, [endMark], .reject⟩] ∧
        t.table.entry? n endMark = some p ∧
        ¬ t.table.PredictsForever endMark (.nonTerminal n :: below)) ∧
      (t.table.run (2 * workLimit) (2 * workLimit)
        [.nonTerminal ⟨'S', 0, rfl⟩, .terminal endMark] [endMark] []).accepted = true := by
  intro s t
  have hfacts :
      Session.build "S->AAAAAAAAAA\nA->BBBBBBBBBB\nB->CCCCCCCCCC\nC->DDDDDDDDDD\nD->" = .ok t ∧
        t.table.conflicts = [] ∧ t.grammar.start? = some ⟨'S', 0, rfl⟩ ∧
        t.table.entry? ⟨'S', 0, rfl⟩ endMark =
          some (List.replicate 10 (.nonTerminal ⟨'A', 0, rfl⟩)) ∧
        t.table.entry? ⟨'A', 0, rfl⟩ endMark =
          some (List.replicate 10 (.nonTerminal ⟨'B', 0, rfl⟩)) ∧
        t.table.entry? ⟨'B', 0, rfl⟩ endMark =
          some (List.replicate 10 (.nonTerminal ⟨'C', 0, rfl⟩)) ∧
        t.table.entry? ⟨'C', 0, rfl⟩ endMark =
          some (List.replicate 10 (.nonTerminal ⟨'D', 0, rfl⟩)) ∧
        t.table.entry? ⟨'D', 0, rfl⟩ endMark = some [] := by
    unfold t s
    cbv
    simp only [and_self]
  obtain ⟨hbuild, hconflicts, hstart, hS, hA, hB, hC, hD⟩ := hfacts
  have hvanish : t.table.predictTimes endMark 11111 [.nonTerminal ⟨'S', 0, rfl⟩] = some [] :=
    predictTimes_of_replicate hS (predictTimes_of_replicate hA (predictTimes_of_replicate hB
      (predictTimes_of_replicate hC (predictTimes_succ hD 0 []))))
  have hlast : t.table.predictTimes endMark 11111
      [.nonTerminal ⟨'S', 0, rfl⟩, .terminal endMark] = some [.terminal endMark] :=
    predictTimes_append hvanish [.terminal endMark]
  have hruns : t.table.Runs workLimit workLimit
      [.nonTerminal ⟨'S', 0, rfl⟩, .terminal endMark] [endMark] (t.recognize "") := by
    have hrecognize : t.recognize "" = t.table.recognize (some ⟨'S', 0, rfl⟩) "" :=
      congrArg (t.table.recognize · "") hstart
    rw [hrecognize]
    exact runs_run _ _ _
  refine ⟨hbuild, hconflicts, ?_, ?_⟩
  · have hmore : (t.table.predictTimes endMark (workLimit + 1)
        [.nonTerminal ⟨'S', 0, rfl⟩, .terminal endMark]).isSome = true :=
      isSome_predictTimes_of_le (by decide) (Option.isSome_of_eq_some hlast)
    obtain ⟨rows, n, below, p, hrows, hentry, hreached⟩ := hruns.exists_stopped hmore
    refine ⟨rows, n, below, p, hrows, hentry, ?_⟩
    intro hforever
    -- The parse that goes on comes to the end mark, on which nothing is predicted.
    have hwhole := (predictsForever_iff_of_predictTimes hreached).2 hforever
    cases (predictsForever_iff_of_predictTimes hlast).1 hwhole 1
  · have hallowed : 2 * workLimit = 11111 + 8889 := by decide
    have hruns' : t.table.Runs (2 * workLimit) (11111 + 8889)
        [.nonTerminal ⟨'S', 0, rfl⟩, .terminal endMark] [endMark] (t.table.run (2 * workLimit)
          (2 * workLimit) [.nonTerminal ⟨'S', 0, rfl⟩, .terminal endMark] [endMark] []) := by
      rw [← hallowed]
      exact runs_run _ _ _
    obtain ⟨rest, hrest, haccepted⟩ := hruns'.exists_rest hlast
    obtain ⟨_, rfl, hend⟩ := hrest.exists_after_shift
    rw [haccepted, hend.eq_of_nil]
    rfl

end Session

end PredictiveParsing
