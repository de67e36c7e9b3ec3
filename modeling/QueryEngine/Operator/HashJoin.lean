import QueryEngine.Config
import QueryEngine.Multimap
import QueryEngine.Operator.Machine
import QueryEngine.Predicate

/-!
# Joins by hashing

A hash join spreads the tuples of both children over partitions by the key they are joined by, so
that tuples with equal keys meet in one partition. Then it takes the partitions in turn: it puts
the side with fewer tuples, or the left one of two equal sides, into a table under the keys, reads
the other side, and pairs each tuple with those under its key. Pairs are left tuple first, whichever
side the table holds.

Any function may route keys to partitions. It decides in what order pairs come, and not which.

* `HashJoin.bind`: a hash join of two schemas on an equality of two attributes.
* `HashJoin.step`: spreads both children, loads one partition, reads one tuple, or yields one pair.
* `HashJoin.Phase.rank`: what every such step uses up.
-/

namespace QueryEngine

/-- One of the two sides of a join. -/
inductive Side where
  | left
  | right
  deriving DecidableEq, Repr

def Side.other : Side → Side
  | left => right
  | right => left

/-- The value that a tuple of one side is joined by. -/
def JoinPredicate.valueOn (p : JoinPredicate) : Side → Tuple → Except Error Value
  | .left => p.leftValue
  | .right => p.rightValue

/-- A hash join whose condition is bound to positions. -/
structure HashJoin where
  condition : Condition
  predicate : JoinPredicate
  partitions : Nat
  positive : 0 < partitions
  /-- Where a key goes, up to multiples of the number of partitions. -/
  route : Key → Nat
  medium : Spill.Medium
  maxTupleSize : Nat
  schema : Schema

namespace HashJoin

/-- A join of tuples of two schemas, with as many partitions on each side. -/
def bind (left right : Schema) (condition : Condition) (partitions : Nat) (route : Key → Nat)
    (config : Config) : Except Error HashJoin := do
  config.validate
  if condition.comparator ≠ .eq then
    throw (.unsupportedJoinCondition (.needsEquality condition))
  if let .literal _ := condition.right then
    throw (.unsupportedJoinCondition (.needsAttribute condition))
  if h : partitions = 0 then throw (.invalidArgument .zeroPartitions)
  else
    let predicate ← condition.bindJoin left right
    return {
      condition, predicate, partitions, positive := Nat.pos_of_ne_zero h, route
      medium := config.medium, maxTupleSize := config.maxTupleSize, schema := left ++ right }

/-- A partition that is being joined. -/
structure Active where
  /-- The side that the table holds. -/
  build : Side
  table : Multimap Tuple
  /-- The other side. -/
  reader : Spill.Reader
  /-- The tuple of the other side read last, with the tuples it has still to be paired with. -/
  probe : Option (Tuple × List Tuple)

/-- What the join is at. -/
inductive Phase where
  /-- Both children are still to be spread. -/
  | spreading
  /-- The partitions that are `pending` come after the active one. -/
  | joining (pending : List (Spill.Partition × Spill.Partition)) (active : Option Active)

/-- The children, and what was made of their tuples. -/
structure State (σ τ : Type) where
  left : σ
  right : τ
  phase : Phase

def start (left right : Operator) (db : Database) (s : State left.State right.State) :
    Except Error Unit × State left.State right.State :=
  match left.start db s.left with
  | (.error e, l) => (.error e, { s with left := l })
  | (.ok _, l) =>
    match right.start db s.right with
    | (.error e, r) => (.error e, { s with left := l, right := r })
    | (.ok _, r) => (.ok (), ⟨l, r, .spreading⟩)

/-- The partition of a key. -/
def slot (join : HashJoin) (k : Key) : Fin join.partitions :=
  ⟨join.route k % join.partitions, Nat.mod_lt _ join.positive⟩

/-- The partitions of one side. -/
abbrev Partitions (join : HashJoin) : Type := Vector Spill.Partition join.partitions

/-- Partitions without tuples. -/
def noTuples (join : HashJoin) : join.Partitions := .replicate _ (.empty join.medium)

/-- Puts a tuple of one side into the partition of its key. -/
def place (join : HashJoin) (side : Side) (parts : join.Partitions) (t : Tuple) :
    Except Error join.Partitions := do
  let k ← Key.typed (← join.predicate.valueOn side t) join.predicate.keyType
  let i := join.slot k
  return parts.set i (← parts[i].push t)

/-- Spreads all tuples of both children, the left one first. -/
def spread (join : HashJoin) (left right : Operator) (db : Database)
    (s : State left.State right.State) (reads : Nat) : Step (State left.State right.State) :=
  match left.fold (join.place .left) db join.noTuples s.left reads with
  | (.error e, l, n) => .fail e { s with left := l } n
  | (.ok lefts, l, n) =>
    match right.fold (join.place .right) db join.noTuples s.right n with
    | (.error e, r, n) => .fail e { s with left := l, right := r } n
    | (.ok rights, r, n) => .again ⟨l, r, .joining (lefts.zip rights).toList none⟩ n

/-- Loads a partition. If one side is empty there is nothing to join. -/
def load (join : HashJoin) (left right : Spill.Partition) : Except Error (Option Active) :=
  if left.isEmpty || right.isEmpty then .ok none
  else do
    let side := if left.count ≤ right.count then Side.left else Side.right
    let (build, probe) := match side with
      | .left => (left, right)
      | .right => (right, left)
    let insert (table : Multimap Tuple) (t : Tuple) : Except Error (Multimap Tuple) := do
      table.insert (← join.predicate.valueOn side t) t
    let table ← build.reader.fold insert (.empty join.predicate.keyType)
    return some ⟨side, table, probe.reader, none⟩

/-- The pair of a tuple that was read with one from the table. -/
def pair (join : HashJoin) (build : Side) (probe found : Tuple) : Except Error Tuple :=
  match build with
  | .left => found.joinWithin join.maxTupleSize probe
  | .right => probe.joinWithin join.maxTupleSize found

/-- The tuples of the table that a tuple of the other side is paired with. -/
def matchesOf (join : HashJoin) (active : Active) (t : Tuple) : Except Error (List Tuple) := do
  active.table.get (← join.predicate.valueOn active.build.other t)

/-- Reads one tuple of the active partition, or lets the partition go. -/
def readProbe {σ τ : Type} (join : HashJoin) (pending : List (Spill.Partition × Spill.Partition))
    (active : Active) (s : State σ τ) (reads : Nat) : Step (State σ τ) :=
  match active.reader.next with
  | .error e => .fail e s reads
  | .ok none => .again { s with phase := .joining pending none } reads
  | .ok (some (t, reader)) =>
    match join.matchesOf active t with
    | .error e => .fail e s reads
    | .ok found =>
      let active := { active with reader, probe := some (t, found) }
      .again { s with phase := .joining pending (some active) } reads

/-- Spreads both children, loads one partition, reads one tuple, or yields one pair. -/
def step (join : HashJoin) (left right : Operator) (db : Database)
    (s : State left.State right.State) (reads : Nat) : Step (State left.State right.State) :=
  match s.phase with
  | .spreading => join.spread left right db s reads
  | .joining [] none => .finish s reads
  | .joining ((l, r) :: pending) none =>
    match join.load l r with
    | .error e => .fail e { s with phase := .joining pending none } reads
    | .ok active => .again { s with phase := .joining pending active } reads
  | .joining pending (some active) =>
    match active.probe with
    | some (t, found :: rest) =>
      let s := { s with phase := .joining pending (some { active with probe := some (t, rest) }) }
      match join.pair active.build t found with
      | .error e => .fail e s reads
      | .ok t => .emit t s reads
    | _ => join.readProbe pending active s reads

/-- Lets all partitions go. -/
def Phase.close : Phase → Phase
  | .spreading => .spreading
  | .joining _ _ => .joining [] none

def close (left right : Operator) (s : State left.State right.State) :
    State left.State right.State :=
  ⟨left.close s.left, right.close s.right, s.phase.close⟩

/-! ## Progress -/

/-- What is used up, first things first: the children, partitions, the active one, tuples to be
read, and pairs. -/
def Phase.rank : Phase → Nat × Nat × Nat × Nat × Nat
  | .spreading => (1, 0, 0, 0, 0)
  | .joining pending none => (0, pending.length, 0, 0, 0)
  | .joining pending (some active) =>
    (0, pending.length, 1, active.reader.remaining, (active.probe.map (·.2.length)).getD 0)

/-- The order of ranks. -/
abbrev rankOrder : WellFoundedRelation (Nat × Nat × Nat × Nat × Nat) :=
  Prod.lex Nat.lt_wfRel (Prod.lex Nat.lt_wfRel (Prod.lex Nat.lt_wfRel
    (Prod.lex Nat.lt_wfRel Nat.lt_wfRel)))

/-- A step that goes on, or yields, uses something up. -/
theorem rank_step {join : HashJoin} {left right : Operator} {db : Database}
    {s s' : State left.State right.State} {n : Nat}
    (h : (join.step left right db s n).continuation = some s') :
    rankOrder.rel s'.phase.rank s.phase.rank := by
  unfold step at h
  split at h
  · rename_i hp
    unfold spread at h
    repeat' split at h
    all_goals simp only [Step.continuation, reduceCtorEq, Option.some.injEq] at h
    subst h
    simp only [hp]
    exact .left _ _ Nat.zero_lt_one
  · simp [Step.continuation] at h
  · rename_i l r pending hp
    split at h <;> simp only [Step.continuation, reduceCtorEq, Option.some.injEq] at h
    rename_i active _
    subst h
    simp only [hp]
    cases active <;> exact .right _ (.left _ _ (Nat.lt_succ_self _))
  · rename_i pending active hp
    split at h
    · rename_i t found rest ha
      simp only at h
      split at h <;> simp only [Step.continuation, reduceCtorEq, Option.some.injEq] at h
      subst h
      simp only [hp, Phase.rank, ha]
      exact .right _ (.right _ (.right _ (.right _ (Nat.lt_succ_self _))))
    · unfold readProbe at h
      repeat' split at h
      all_goals simp only [Step.continuation, reduceCtorEq, Option.some.injEq] at h
      · subst h
        simp only [hp]
        exact .right _ (.right _ (.left _ _ Nat.zero_lt_one))
      · rename_i hr _ _ _
        subst h
        simp only [hp, Phase.rank]
        have := Spill.Reader.remaining_next hr
        exact .right _ (.right _ (.right _ (.left _ _ (by show _ < _; omega))))

theorem progress (join : HashJoin) (left right : Operator) :
    WellFounded (Step.Later (join.step left right)) :=
  Machine.ofRank rankOrder.wf (·.phase.rank) rank_step

def machine (join : HashJoin) (left right : Operator) : Machine where
  State := State left.State right.State
  initial := ⟨left.initial, right.initial, .spreading⟩
  start := start left right
  step := join.step left right
  close := close left right
  progress := join.progress left right

/-- The join of two children. -/
def operator (join : HashJoin) (left right : Operator) : Operator :=
  (join.machine left right).operator "HashJoin" join.schema

end HashJoin

end QueryEngine
