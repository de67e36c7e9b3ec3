import QueryEngine.Error
import QueryEngine.Tuple.Basic

/-!
# Scans over rows

A row scanner reads the rows that a table had when the scan was opened, from the first, and can be
put back there at any time. It counts the calls of each kind, and a plan of faults may make any of
them fail without moving the scan.
-/

namespace QueryEngine

/-- What a row is found by. -/
abbrev RowId : Type := Int

/-- A row under its id. -/
abbrev Row : Type := RowId × Tuple

/-- Which calls of a source fail, counted from zero, and with what error. -/
abbrev FaultPlan : Type := Nat → Option Error

namespace FaultPlan

/-- No call fails. -/
def never : FaultPlan := fun _ => none

/-- Every call fails once `limit` of them were made. -/
def after (limit : Nat) (e : Error) : FaultPlan := fun call => if limit ≤ call then some e else none

end FaultPlan

/-- What a scanner is asked for: the next row, or to go back before the first. -/
inductive ScanCall where
  | next
  | rewind
  deriving DecidableEq, Repr

/-- The faults of a scanner. Its calls are counted for each kind by itself. -/
abbrev ScanFaults : Type := ScanCall → FaultPlan

namespace ScanFaults

/-- No call fails. -/
def never : ScanFaults := fun _ => .never

/-- Only calls for the next row fail. -/
def onNext (plan : FaultPlan) : ScanFaults
  | .next => plan
  | .rewind => .never

end ScanFaults

/-- A walk through rows, with the faults planned for it. -/
structure RowScanner where
  rows : List Row
  unread : List Row
  closed : Bool
  /-- How many times the next row was asked for. -/
  calls : Nat
  /-- How many times the scanner was to go back. -/
  rewinds : Nat
  faults : ScanFaults

namespace RowScanner

/-- A scanner before the first of some rows. -/
def ofRows (rows : List Row) (faults : ScanFaults) : RowScanner :=
  ⟨rows, rows, false, 0, 0, faults⟩

/-- A scanner over tuples that get the ids from one on. -/
def ofTuples (tuples : List Tuple) : RowScanner :=
  ofRows (tuples.zipIdx.map fun p => ((p.2 : Int) + 1, p.1)) .never

/-- How many calls of a kind were made. -/
def made (s : RowScanner) : ScanCall → Nat
  | .next => s.calls
  | .rewind => s.rewinds

/-- The next row. There is none after the last, nor in a closed scan. -/
def next (s : RowScanner) : Except Error (Option Row) × RowScanner :=
  let counted := { s with calls := s.calls + 1 }
  match s.faults .next s.calls with
  | some e => (.error e, counted)
  | none =>
    if s.closed then (.ok none, counted)
    else
      match s.unread with
      | [] => (.ok none, counted)
      | row :: rest => (.ok (some row), { counted with unread := rest })

/-- Back before the first row, also of a closed scan. -/
def rewind (s : RowScanner) : Except Error Unit × RowScanner :=
  let counted := { s with rewinds := s.rewinds + 1 }
  match s.faults .rewind s.rewinds with
  | some e => (.error e, counted)
  | none => (.ok (), { counted with unread := s.rows, closed := false })

def close (s : RowScanner) : RowScanner := { s with closed := true }

theorem rewind_eq_ok_iff {s s' : RowScanner} :
    s.rewind = (.ok (), s') ↔ s.faults .rewind s.rewinds = none ∧
      s' = { s with unread := s.rows, closed := false, rewinds := s.rewinds + 1 } := by
  unfold rewind
  cases s.faults .rewind s.rewinds <;> simp [eq_comm]

@[simp] theorem rows_rewind (s : RowScanner) : s.rewind.2.rows = s.rows := by
  unfold rewind
  simp only
  split <;> rfl

@[simp] theorem faults_rewind (s : RowScanner) : s.rewind.2.faults = s.faults := by
  unfold rewind
  simp only
  split <;> rfl

theorem length_unread_next {s : RowScanner} {row : Row} (h : s.next.1 = .ok (some row)) :
    s.next.2.unread.length < s.unread.length := by
  unfold next at h ⊢
  split at h
  · simp at h
  · simp only at h ⊢
    split at h
    · simp at h
    · rename_i hf hc
      split at h
      · simp at h
      · rename_i hu
        simp [hc, hu]

end RowScanner

end QueryEngine
