import QueryEngine.Config
import QueryEngine.Operator.IndexScan
import QueryEngine.Operator.Machine
import QueryEngine.Predicate

/-!
# Joins through an index

An index join takes the tuples of its left child one by one. For each it works out the ranges of
the values that the left value compares with as the condition asks, and moves a scan through the
index on the right attribute over these ranges, one after the other. Every row that the scan yields
is a match; the condition is not tested again.

* `IndexJoin.bind`: an index join of two schemas on a condition that names the indexed attribute.
* `IndexJoin.step`: takes one left tuple, moves to one range, or fetches one row.
* `IndexJoin.State.rank`: what every such step uses up.
-/

namespace QueryEngine

/-- An index join whose condition is bound to positions. -/
structure IndexJoin where
  right : IndexScan
  condition : Condition
  predicate : JoinPredicate
  maxTupleSize : Nat
  schema : Schema
  deriving DecidableEq, Repr

namespace IndexJoin

/-- A join of tuples of the left schema with the rows of an indexed table. -/
def bind (left : Schema) (right : IndexScan) (condition : Condition) (config : Config) :
    Except Error IndexJoin := do
  config.validate
  let predicate ← condition.bindJoin left right.schema
  if condition.right ≠ .column right.indexed.name then
    throw (.invalidCondition (.notIndexed condition right.indexed.name))
  return {
    right, condition, predicate
    maxTupleSize := config.maxTupleSize, schema := left ++ right.schema }

/-- A left tuple whose matches are being looked up. -/
structure Probe where
  tuple : Tuple
  /-- The ranges not yet looked up. -/
  ranges : List KeyRange
  /-- Whether the scan is on a range of this tuple. -/
  scanning : Bool

/-- The left child, the scan through the index, and the left tuple between them. -/
structure State (σ : Type) where
  left : σ
  right : IndexScan.State
  probe : Option Probe
  done : Bool

variable {σ : Type}

def start (join : IndexJoin) (left : Operator) (db : Database) (s : State left.State) :
    Except Error Unit × State left.State :=
  match left.start db s.left with
  | (.error e, l) => (.error e, { s with left := l })
  | (.ok _, l) =>
    match join.right.start db s.right with
    | (.error e, r) => (.error e, { s with left := l, right := r })
    | (.ok _, r) => (.ok (), ⟨l, r, none, false⟩)

/-- The ranges in which a left tuple has its matches. Where every value matches, the left value is
not read. -/
def rangesOf (join : IndexJoin) (t : Tuple) : Except Error (List KeyRange) := do
  if join.predicate.comparator.needsValue then
    return join.predicate.comparator.lookupRanges (← join.predicate.leftValue t)
  else return [.all]

/-- Takes one left tuple. -/
def advance (join : IndexJoin) (left : Operator) (db : Database) (s : State left.State)
    (reads : Nat) : Step (State left.State) :=
  match left.next db s.left reads with
  | ⟨.error e, l, n⟩ => .fail e { s with left := l } n
  | ⟨.ok none, l, n⟩ => .finish { s with left := l, done := true } n
  | ⟨.ok (some t), l, n⟩ =>
    match join.rangesOf t with
    | .error e => .fail e { s with left := l } n
    | .ok ranges => .again { s with left := l, probe := some ⟨t, ranges, false⟩ } n

/-- Fetches one row for a left tuple, and joins the two. -/
def fetch (join : IndexJoin) (db : Database) (probe : Probe) (s : State σ) (reads : Nat) :
    Step (State σ) :=
  match join.right.next db s.right reads with
  | ⟨.error e, r, n⟩ => .fail e { s with right := r } n
  | ⟨.ok none, r, n⟩ =>
    .again { s with right := r, probe := some { probe with scanning := false } } n
  | ⟨.ok (some t), r, n⟩ =>
    match probe.tuple.joinWithin join.maxTupleSize t with
    | .error e => .fail e { s with right := r } n
    | .ok t => .emit t { s with right := r } n

/-- Moves the scan to one range of a left tuple. -/
def move (join : IndexJoin) (db : Database) (t : Tuple) (range : KeyRange)
    (ranges : List KeyRange) (s : State σ) (reads : Nat) : Step (State σ) :=
  match join.right.setRange db range s.right with
  | (.error e, r) => .fail e { s with right := r, probe := some ⟨t, ranges, false⟩ } reads
  | (.ok _, r) => .again { s with right := r, probe := some ⟨t, ranges, true⟩ } reads

/-- Takes one left tuple, moves to one range, or fetches one row. -/
def step (join : IndexJoin) (left : Operator) (db : Database) (s : State left.State)
    (reads : Nat) : Step (State left.State) :=
  if s.done then .finish s reads
  else
    match s.probe with
    | none => join.advance left db s reads
    | some ⟨t, ranges, true⟩ => join.fetch db ⟨t, ranges, true⟩ s reads
    | some ⟨t, range :: ranges, false⟩ => join.move db t range ranges s reads
    | some ⟨_, [], false⟩ => .again { s with probe := none } reads

def close (left : Operator) (s : State left.State) : State left.State :=
  { s with left := left.close s.left, right := IndexScan.close s.right, probe := none }

/-! ## Progress -/

/-- The ranges still to be moved to and left again, and one step to let the left tuple go. -/
def State.movesLeft (s : State σ) : Nat :=
  match s.probe with
  | none => 0
  | some ⟨_, ranges, scanning⟩ => 2 * ranges.length + (if scanning then 2 else 1)

/-- What is used up, first things first: left tuples, ranges, and rows. -/
def State.rank (s : State σ) : σ × Nat × Nat × Nat := (s.left, s.movesLeft, s.right.rank)

/-- The order of ranks over a left child. -/
abbrev rankOrder (left : Operator) : WellFoundedRelation (left.State × Nat × Nat × Nat) :=
  Prod.lex ⟨Pull.Later left.next, left.finite⟩
    (Prod.lex Nat.lt_wfRel (Prod.lex Nat.lt_wfRel Nat.lt_wfRel))

theorem rank_of_movesLeft {left : Operator} {s s' : State left.State} (hl : s'.left = s.left)
    (h : s'.movesLeft < s.movesLeft) : (rankOrder left).rel s'.rank s.rank := by
  unfold State.rank
  rw [hl]
  exact .right _ (.left _ _ h)

/-- A step that goes on, or yields, uses something up. -/
theorem rank_step {join : IndexJoin} {left : Operator} {db : Database} {s s' : State left.State}
    {n : Nat} (h : (join.step left db s n).continuation = some s') :
    (rankOrder left).rel s'.rank s.rank := by
  unfold step at h
  split at h
  · simp [Step.continuation] at h
  split at h
  · unfold advance at h
    repeat' split at h
    all_goals simp only [Step.continuation, reduceCtorEq, Option.some.injEq] at h
    subst h
    exact .left _ _ ⟨_, _, _, _, ‹left.next db s.left n = _›⟩
  · rename_i t ranges hp
    unfold fetch at h
    repeat' split at h
    all_goals simp only [Step.continuation, reduceCtorEq, Option.some.injEq] at h
    · subst h
      exact rank_of_movesLeft rfl (by simp [State.movesLeft, hp])
    · rename_i hr _ _ _
      subst h
      exact .right _ (.right _ (IndexScan.rank_next_lt hr))
  · rename_i t range ranges hp
    unfold move at h
    split at h <;> simp only [Step.continuation, reduceCtorEq, Option.some.injEq] at h
    subst h
    exact rank_of_movesLeft rfl (by simp [State.movesLeft, hp]; omega)
  · rename_i t hp
    simp only [Step.continuation, Option.some.injEq] at h
    subst h
    exact rank_of_movesLeft rfl (by simp [State.movesLeft, hp])

theorem progress (join : IndexJoin) (left : Operator) :
    WellFounded (Step.Later (join.step left)) :=
  Machine.ofRank (rankOrder left).wf State.rank rank_step

def machine (join : IndexJoin) (left : Operator) : Machine where
  State := State left.State
  initial := ⟨left.initial, IndexScan.initial, none, false⟩
  start := join.start left
  step := join.step left
  close := close left
  progress := join.progress left

/-- The join with a left child. -/
def operator (join : IndexJoin) (left : Operator) : Operator :=
  (join.machine left).operator "IndexNestedLoopJoin" join.schema

end IndexJoin

end QueryEngine
