import QueryEngine.Store.Table

/-!
# The store

A store holds tables under their names. A change returns the new store, or an error and no store;
readers hold on to what they were opened on, so a change never shows in an open scan.

* `Store.createTable`, `Store.insert`, `Store.createIndex`: the changes.
* `Store.scan`, `Store.indexScan`, `Store.readTuple`: reading rows in order, through an index, and
  one by its id.
-/

namespace QueryEngine

/-- Tables under their names, with the limit on the tuples of all of them. -/
structure Store where
  maxTupleSize : Nat := defaultMaxTupleSize
  tables : List (String × Table) := []

namespace Store

/-- The table called `name`. -/
def table (s : Store) (name : String) : Except Error Table :=
  match s.tables.lookup name with
  | some t => .ok t
  | none => .error (.tableNotFound name)

/-- The store with the table called `name` replaced. -/
def setTable (s : Store) (name : String) (t : Table) : Store :=
  { s with tables := s.tables.map fun e => if e.1 = name then (name, t) else e }

/-- The first name that repeats an earlier one. -/
def duplicate? : List String → List String → Option String
  | _, [] => none
  | seen, name :: rest => if name ∈ seen then some name else duplicate? (name :: seen) rest

/-- Adds a table. Its attributes have different names. -/
def createTable (s : Store) (name : String) (schema : Schema) : Except Error Store := do
  if let some column := duplicate? [] (schema.map (·.name)) then
    throw (.invalidArgument (.duplicateAttribute column name))
  if (s.tables.lookup name).isSome then
    throw (.tableAlreadyExists name)
  return { s with tables := s.tables ++ [(name, .empty ⟨schema, s.maxTupleSize⟩)] }

/-- Adds a row to a table and returns its id. -/
def insert (s : Store) (name : String) (values : List Value) : Except Error (RowId × Store) := do
  let (rowId, t) ← (← s.table name).insert values
  return (rowId, s.setTable name t)

/-- Builds an index on an attribute of a table. -/
def createIndex (s : Store) (name column : String) : Except Error Store := do
  let t ← (← s.table name).createIndex name column
  return s.setTable name t

def rowCount (s : Store) (name : String) : Except Error Nat := do
  return (← s.table name).rows.length

/-- The names of the tables in ascending order. -/
def tableNames (s : Store) : List String :=
  (s.tables.map (·.1)).mergeSort fun a b => !(decide (b < a))

def schema (s : Store) (name : String) : Except Error Schema := do
  return (← s.table name).schema

/-- A scan over the rows of a table, with the faults that are planned for it. -/
def scan (s : Store) (name : String) (faults : ScanFaults) : Except Error RowScanner := do
  return .ofRows (← s.table name).rows faults

def readTuple (s : Store) (name : String) (rowId : RowId) : Except Error Tuple := do
  (← s.table name).readTuple name rowId

/-- `readTuple` as a machine does it; see `Table.readTuple?`. -/
def readTuple? (s : Store) (name : String) (rowId : Int64) : Option (Except Error Tuple) :=
  match s.table name with
  | .ok t => t.readTuple? name rowId
  | .error e => some (.error e)

/-- A scan over a range of the index on an attribute. -/
def indexScan (s : Store) (name column : String) (range : KeyRange) :
    Except Error IndexScanner := do
  let t ← s.table name
  match t.indexes.lookup column with
  | some index => index.scan range
  | none => throw (.indexNotFound name column)

end Store

end QueryEngine
