import QueryEngine.Store.Basic

/-!
# Databases

What operators read from: a store, together with the calls that are planned to fail. Each scan
over rows counts its own calls; fetches of single rows are counted by the operators that make them
and numbered over the whole database.
-/

namespace QueryEngine

/-- A store with the faults planned for reading it. -/
structure Database where
  store : Store := {}
  /-- The faults of every scan over rows. -/
  scanFaults : ScanFaults := .never
  /-- The faults of fetches by row id. -/
  readFaults : FaultPlan := .never

namespace Database

/-- A scan over the rows of a table. -/
def scan (db : Database) (table : String) : Except Error RowScanner :=
  db.store.scan table db.scanFaults

/-- The row with an id, fetched after `reads` fetches were made before. -/
def readTuple (db : Database) (reads : Nat) (table : String) (rowId : RowId) :
    Except Error Tuple :=
  match db.readFaults reads with
  | some e => .error e
  | none => db.store.readTuple table rowId

end Database

end QueryEngine
