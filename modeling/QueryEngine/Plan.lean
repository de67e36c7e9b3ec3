import QueryEngine.Pipeline

/-!
# Plans

A plan says what to run in terms of names: of tables, of their attributes, and of conditions over
them. Binding it to a store looks all names up, from the leaves to the root and from left to right,
and stops at the first that is not right. What comes out is a pipeline.

* `Plan.bind`: the pipeline of a plan, with the hash that its joins spread keys by.
-/

namespace QueryEngine

/-- What a scan of a table reads, and the name that its attributes get, if not the table's. -/
structure TableSource where
  table : String
  alias? : Option String := none
  deriving DecidableEq, Repr

/-- What a scan through an index reads: a table source, and the indexed attribute. -/
structure IndexSource extends TableSource where
  column : String
  deriving DecidableEq, Repr

/-- A tree of operators given by names. -/
inductive Plan where
  | tableScan (source : TableSource)
  | indexScan (source : IndexSource)
  /-- Tuples as they are, whatever they hold. -/
  | tuples (schema : Schema) (list : List Tuple)
  | rows (schema : Schema) (list : List (List Value))
  | empty (schema : Schema)
  /-- Rows with one failure before the row at `failAt`. -/
  | failing (schema : Schema) (list : List (List Value)) (failAt : Nat)
  | filter (child : Plan) (condition : Condition)
  | project (child : Plan) (names : List String) (config : Config)
  | aggregate (child : Plan) (name : String) (statistic : Statistic) (groupBy? : Option String)
    (config : Config)
  | blockJoin (left : Plan) (right : TableSource) (condition : Condition) (pages : Nat)
    (config : Config)
  | indexJoin (left : Plan) (right : IndexSource) (condition : Condition) (config : Config)
  | hashJoin (left right : Plan) (condition : Condition) (partitions : Nat) (config : Config)
  deriving Repr

namespace Plan

/-- The pipeline of a plan over the tables of a store. -/
def bind (hash : Key → UInt64) (store : Store) : Plan → Except Error Pipeline
  | tableScan source => do
    return .tableScan (← TableScan.bind store source.table source.alias?)
  | indexScan source => do
    return .indexScan (← IndexScan.bind store source.table source.column source.alias?)
  | tuples schema list => return .materialized ⟨schema, list⟩
  | rows schema list => do return .materialized (← Materialized.ofValues schema list)
  | empty schema => return .empty ⟨schema⟩
  | failing schema list failAt => do
    let leaf ← Materialized.ofValues schema list
    return .failing ⟨schema, leaf.tuples, failAt⟩
  | filter child condition => do
    let child ← child.bind hash store
    return .filter (← Filter.bind child.schema condition) child
  | project child names config => do
    let child ← child.bind hash store
    return .project (← Project.bind child.schema names config) child
  | aggregate child name statistic groupBy? config => do
    let child ← child.bind hash store
    return .aggregate (← Aggregate.bind child.schema name statistic groupBy? config) child
  | blockJoin left right condition pages config => do
    let left ← left.bind hash store
    let right ← TableScan.bind store right.table right.alias?
    return .blockJoin (← BlockJoin.bind left.schema right condition pages config) left
  | indexJoin left right condition config => do
    let left ← left.bind hash store
    let right ← IndexScan.bind store right.table right.column right.alias?
    return .indexJoin (← IndexJoin.bind left.schema right condition config) left
  | hashJoin left right condition partitions config => do
    let left ← left.bind hash store
    let right ← right.bind hash store
    let join ← HashJoin.bind left.schema right.schema condition partitions
      (fun k => (hash k).toNat) config
    return .hashJoin join left right

end Plan

end QueryEngine
