import QueryEngine.Operator.Aggregate
import QueryEngine.Operator.BlockJoin
import QueryEngine.Operator.Filter
import QueryEngine.Operator.HashJoin
import QueryEngine.Operator.IndexJoin
import QueryEngine.Operator.Materialized
import QueryEngine.Operator.Project

/-!
# Pipelines

A pipeline is a tree of operators whose names are all bound to positions. It runs as one operator,
that of its root.

* `Pipeline.operator`: a pipeline as an operator.
* `Pipeline.schema`: the schema of the tuples it yields (`Pipeline.operator_schema`).
-/

namespace QueryEngine

/-- A tree of bound operators. -/
inductive Pipeline where
  | tableScan (scan : TableScan)
  | indexScan (scan : IndexScan)
  | materialized (leaf : Materialized)
  | empty (leaf : Empty)
  | failing (leaf : Failing)
  | filter (f : Filter) (child : Pipeline)
  | project (p : Project) (child : Pipeline)
  | aggregate (a : Aggregate) (child : Pipeline)
  | blockJoin (join : BlockJoin) (left : Pipeline)
  | indexJoin (join : IndexJoin) (left : Pipeline)
  | hashJoin (join : HashJoin) (left right : Pipeline)

namespace Pipeline

def schema : Pipeline → Schema
  | tableScan scan => scan.schema
  | indexScan scan => scan.schema
  | materialized leaf => leaf.schema
  | empty leaf => leaf.schema
  | failing leaf => leaf.schema
  | filter _ child => child.schema
  | project p _ => p.schema
  | aggregate a _ => a.layout.schema
  | blockJoin join _ => join.schema
  | indexJoin join _ => join.schema
  | hashJoin join _ _ => join.schema

/-- The pipeline as one operator. -/
def operator : Pipeline → Operator
  | tableScan scan => scan.operator
  | indexScan scan => scan.operator
  | materialized leaf => leaf.operator
  | empty leaf => leaf.operator
  | failing leaf => leaf.operator
  | filter f child => f.operator child.operator
  | project p child => p.operator child.operator
  | aggregate a child => a.operator child.operator
  | blockJoin join left => join.operator left.operator
  | indexJoin join left => join.operator left.operator
  | hashJoin join left right => join.operator left.operator right.operator

theorem operator_schema (p : Pipeline) : p.operator.schema = p.schema := by
  induction p with
  | filter f child ih => exact ih
  | _ => rfl

end Pipeline

end QueryEngine
