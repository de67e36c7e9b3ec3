import QueryEngine.Operator.Basic

/-!
# Scans of tables

A table scan yields the rows of a table in the order of their ids. Opening it again goes back to
the first of the rows that it was first opened on; only after closing does opening see new rows.

* `TableScan.bind`: a scan of a table, with the attributes renamed after the table or an alias.
* `TableScan.rewind`: back to the first row, which a join does once per block.
-/

namespace QueryEngine

/-- A scan of the rows of one table. -/
structure TableScan where
  table : String
  schema : Schema
  deriving DecidableEq, Repr

namespace TableScan

/-- A scan of a table that the store has. -/
def bind (store : Store) (table : String) (alias? : Option String) : Except Error TableScan := do
  let schema ← store.schema table
  return ⟨table, schema.qualified (alias?.getD table)⟩

/-- The scanner of an open scan. -/
structure State where
  scanner : Option RowScanner
  /-- The scanner had no more rows. -/
  done : Bool

def initial : State := ⟨none, false⟩

/-- Back to the first row of an open scan. -/
def rewind (s : State) : Except Error Unit × State :=
  match s.scanner with
  | none => (.error (.notOpen "TableScan"), s)
  | some scanner =>
    match scanner.rewind with
    | (.error e, scanner) => (.error e, { s with scanner := some scanner })
    | (.ok _, scanner) => (.ok (), ⟨some scanner, false⟩)

theorem rewind_eq_ok_iff {s s' : State} :
    rewind s = (.ok (), s') ↔
      ∃ scanner back, s.scanner = some scanner ∧ scanner.rewind = (.ok (), back) ∧
        s' = ⟨some back, false⟩ := by
  unfold rewind
  cases s.scanner with
  | none => simp
  | some scanner => rcases hback : scanner.rewind with ⟨_ | _, back⟩ <;> simp [hback, eq_comm]

def start (scan : TableScan) (db : Database) (s : State) : Except Error Unit × State :=
  match s.scanner with
  | some _ => rewind s
  | none =>
    match db.scan scan.table with
    | .error e => (.error e, s)
    | .ok scanner => (.ok (), ⟨some scanner, false⟩)

def next (s : State) : Except Error (Option Tuple) × State :=
  match s.scanner with
  | none => (.error (.notOpen "TableScan"), s)
  | some scanner =>
    if s.done then (.ok none, s)
    else
      match scanner.next with
      | (.error e, scanner) => (.error e, { s with scanner := some scanner })
      | (.ok none, scanner) => (.ok none, ⟨some scanner, true⟩)
      | (.ok (some row), scanner) => (.ok (some row.2), { s with scanner := some scanner })

def close (s : State) : State := { s with scanner := none }

/-- How many rows are unread. -/
def State.rank (s : State) : Nat := (s.scanner.map (·.unread.length)).getD 0

theorem rank_next_lt {s s' : State} {t : Tuple} (h : next s = (.ok (some t), s')) :
    s'.rank < s.rank := by
  unfold next at h
  split at h
  · simp at h
  · rename_i scanner hs
    split at h
    · simp at h
    · split at h <;> simp only [Prod.mk.injEq, reduceCtorEq, false_and, Except.ok.injEq] at h
      rename_i row scanner' hn
      obtain ⟨-, rfl⟩ := h
      have := scanner.length_unread_next (show scanner.next.1 = .ok (some row) by rw [hn])
      simpa [State.rank, hs, hn] using this

theorem finite_next :
    WellFounded (Pull.Later fun (_ : Database) s n => ⟨(next s).1, (next s).2, n⟩) :=
  Subrelation.wf
    (fun ⟨_, _, _, _, h⟩ => by
      simp only [Pull.mk.injEq] at h
      exact rank_next_lt (Prod.ext h.1 h.2.1))
    (InvImage.wf State.rank Nat.lt_wfRel.wf)

/-- The scan as an operator. -/
def operator (scan : TableScan) : Operator where
  State := State
  name := "TableScan"
  schema := scan.schema
  initial := initial
  start := scan.start
  next _ s n := ⟨(next s).1, (next s).2, n⟩
  close := close
  finite := finite_next

end TableScan

end QueryEngine
