import QueryEngine.Store.Index
import QueryEngine.Tuple.Layout

/-!
# Tables

A table holds rows of one schema under ids counted from one, and indexes on some of its
attributes. Rows are only ever added. A change that is refused leaves no trace: it returns an error
and no table.
-/

namespace QueryEngine

/-- The rows of a table in the order they were inserted, and its indexes. -/
structure Table where
  layout : Layout
  rows : List Row
  /-- The indexes under the names of their attributes. -/
  indexes : List (String × Index)

namespace Table

def empty (layout : Layout) : Table := ⟨layout, [], []⟩

def schema (t : Table) : Schema := t.layout.schema

/-- The indexes with one more row. Every index takes the value of its own attribute. -/
def addToIndexes (values : List Value) (rowId : RowId) :
    List (String × Index) → Except Error (List (String × Index))
  | [] => .ok []
  | (name, index) :: rest => do
    let k ← match values[index.column]? with
      | some v => Key.typed v index.keyType
      | none => throw (.internal (.fieldOutOfBounds index.column values.length))
    return (name, index.add k rowId) :: (← addToIndexes values rowId rest)

/-- Adds a row at the end and returns its id. -/
def insert (t : Table) (values : List Value) : Except Error (RowId × Table) := do
  let tuple ← t.layout.encode values
  let rowId : RowId := t.rows.length + 1
  let indexes ← addToIndexes values rowId t.indexes
  return (rowId, { t with rows := t.rows ++ [(rowId, tuple)], indexes })

/-- The index with rows added from their tuples. -/
def addRows (layout : Layout) : List Row → Index → Except Error Index
  | [], index => .ok index
  | (rowId, tuple) :: rest, index => do
    let v ← layout.field tuple index.column
    let k ← Key.typed v index.keyType
    addRows layout rest (index.add k rowId)

/-- Builds an index over the rows there are. The name of the table is for messages. -/
def createIndex (t : Table) (name column : String) : Except Error Table := do
  if (t.indexes.lookup column).isSome then
    throw (.invalidArgument (.indexExists name column))
  let (position, found) ← t.schema.find column
  let index ← addRows t.layout t.rows ⟨position, found.dataType, .empty⟩
  return { t with indexes := t.indexes ++ [(column, index)] }

/-- The tuple of the row with the given id. -/
def readTuple (t : Table) (name : String) (rowId : RowId) : Except Error Tuple :=
  let missing := .error (.storage (.rowNotFound rowId name))
  if rowId < 1 then missing
  else
    match t.rows[(rowId - 1).toNat]? with
    | some (id, tuple) => if id = rowId then .ok tuple else missing
    | none => missing

/-- `readTuple` as a machine does it, on ids of 64 bits: `none` is an overflow, which stops the
program. -/
def readTuple? (t : Table) (name : String) (rowId : Int64) : Option (Except Error Tuple) :=
  let missing := .error (.storage (.rowNotFound rowId.toInt name))
  if rowId.toBitVec.ssubOverflow 1 then none
  else some <|
    if rowId - 1 < 0 then missing
    else
      match t.rows[(rowId - 1).toNatClampNeg]? with
      | some (id, tuple) => if id = rowId.toInt then .ok tuple else missing
      | none => missing

end Table

end QueryEngine
