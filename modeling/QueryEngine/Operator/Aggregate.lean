import QueryEngine.Accumulator
import QueryEngine.Config
import QueryEngine.Groups
import QueryEngine.Operator.Machine

/-!
# Aggregation

An aggregate takes in all tuples of its child when it is first pulled, and then yields one tuple
for each group: the statistic over one numeric attribute, after the value that the group is made
by, if there is one. Groups come in ascending order of that value. Without any tuples there is no
group, and nothing is yielded.

* `Aggregate.ungrouped`, `Aggregate.grouped`: the tuples yielded, made of all tuples of a child.
-/

namespace QueryEngine

/-- An aggregate whose attributes are bound to positions. -/
structure Aggregate where
  statistic : Statistic
  /-- The position of the aggregated attribute. -/
  position : Nat
  /-- The type of the aggregated attribute. -/
  input : DataType
  /-- The position and the type of the grouping attribute. -/
  groupBy : Option (Nat × DataType)
  childLayout : Layout
  /-- The layout of the tuples yielded. -/
  layout : Layout
  deriving DecidableEq, Repr

namespace Aggregate

/-- The attribute that holds a statistic. -/
def statisticAttribute (s : Statistic) (a : Attribute) : Attribute :=
  match s.outputType a.dataType with
  | .integer => .integer s!"{s.name}({a.name})"
  | _ => .real s!"{s.name}({a.name})"

/-- An aggregate over tuples of a schema: a statistic over the attribute called `name`, for all
tuples together or for each value of the attribute called `groupBy?`. -/
def bind (input : Schema) (name : String) (statistic : Statistic) (groupBy? : Option String)
    (config : Config) : Except Error Aggregate := do
  config.validate
  let (position, found) ← input.find name
  if !found.dataType.isNumeric then
    throw (.invalidAggregate (.notNumericAttribute statistic found.dataType found.name))
  let group? ← groupBy?.mapM input.find
  let schema := (group?.map (·.2)).toList ++ [statisticAttribute statistic found]
  return {
    statistic, position, input := found.dataType
    groupBy := group?.map fun g => (g.1, g.2.dataType)
    childLayout := ⟨input, config.maxTupleSize⟩, layout := ⟨schema, config.maxTupleSize⟩ }

/-- The number that a tuple brings. -/
def measure (a : Aggregate) (t : Tuple) : Except Error Double := do
  (← a.childLayout.field t a.position).measure

/-- Takes in one tuple, all being one group. -/
def add (a : Aggregate) (acc : Accumulator) (t : Tuple) : Except Error Accumulator := do
  return acc.update (← a.measure t)

/-- Takes in one tuple, in the group of the field at `position`. -/
def addGrouped (a : Aggregate) (position : Nat) (groups : Groups Accumulator) (t : Tuple) :
    Except Error (Groups Accumulator) := do
  let key ← a.childLayout.field t position
  let x ← a.measure t
  groups.update key .empty (·.update x)

/-- The tuple of one group. -/
def groupTuple (a : Aggregate) (key : List Value) (acc : Accumulator) : Except Error Tuple := do
  let v ← acc.statistic a.statistic a.input
  a.layout.encode (key ++ [v])

/-- The tuples yielded when all are one group. -/
def ungrouped (a : Aggregate) (acc : Accumulator) : Except Error (List Tuple) :=
  if acc.count = 0 then .ok [] else do return [← a.groupTuple [] acc]

/-- The tuples yielded for the groups. -/
def grouped (a : Aggregate) (groups : Groups Accumulator) : Except Error (List Tuple) :=
  groups.toList.mapM fun g => a.groupTuple [g.1] g.2

/-- Takes in all tuples of the child. -/
def compute (a : Aggregate) (child : Operator) (db : Database) (s : child.State) (reads : Nat) :
    Except Error (List Tuple) × child.State × Nat :=
  match a.groupBy with
  | none =>
    let (acc, rest) := child.fold a.add db .empty s reads
    (acc.bind a.ungrouped, rest)
  | some (position, keyType) =>
    let (groups, rest) := child.fold (a.addGrouped position) db (.empty keyType) s reads
    (groups.bind a.grouped, rest)

/-- The child, and what was made of its tuples. -/
structure State (σ : Type) where
  child : σ
  /-- The tuples still to be yielded, once they are computed. -/
  output : Option (List Tuple)

def start (child : Operator) (db : Database) (s : State child.State) :
    Except Error Unit × State child.State :=
  match child.start db s.child with
  | (.error e, c) => (.error e, { s with child := c })
  | (.ok _, c) => (.ok (), ⟨c, none⟩)

/-- Computes the tuples, or yields one of them. -/
def step (a : Aggregate) (child : Operator) (db : Database) (s : State child.State) (reads : Nat) :
    Step (State child.State) :=
  match s.output with
  | none =>
    match a.compute child db s.child reads with
    | (.error e, c, n) => .fail e { s with child := c } n
    | (.ok tuples, c, n) => .again ⟨c, some tuples⟩ n
  | some [] => .finish s reads
  | some (t :: rest) => .emit t { s with output := some rest } reads

/-- Whether the tuples are still to be computed, and how many are to be yielded. -/
def State.rank {σ : Type} (s : State σ) : Nat × Nat :=
  match s.output with
  | none => (1, 0)
  | some tuples => (0, tuples.length)

theorem progress (a : Aggregate) (child : Operator) : WellFounded (Step.Later (a.step child)) := by
  refine Machine.ofRank (Prod.lex Nat.lt_wfRel Nat.lt_wfRel).wf State.rank
    fun {db s n s'} h => ?_
  unfold step at h
  repeat' split at h
  all_goals simp only [Step.continuation, reduceCtorEq, Option.some.injEq] at h
  · rename_i ho _ _ _ _ _
    subst h
    simp only [State.rank, ho]
    exact .left _ _ Nat.zero_lt_one
  · rename_i ho
    subst h
    simp only [State.rank, ho]
    exact .right _ (Nat.lt_succ_self _)

def machine (a : Aggregate) (child : Operator) : Machine where
  State := State child.State
  initial := ⟨child.initial, none⟩
  start := start child
  step := a.step child
  close s := ⟨child.close s.child, none⟩
  progress := a.progress child

/-- The aggregate of a child. -/
def operator (a : Aggregate) (child : Operator) : Operator :=
  (a.machine child).operator "Aggregate" a.layout.schema

end Aggregate

end QueryEngine
