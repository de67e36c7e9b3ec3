import QueryEngine.Operator.Machine
import QueryEngine.Predicate

/-!
# Selection

A filter yields the tuples of its child that satisfy a condition, in the child's order.
-/

namespace QueryEngine

/-- A selection whose condition is bound to positions. -/
structure Filter where
  condition : Condition
  predicate : Predicate
  deriving DecidableEq, Repr

namespace Filter

/-- A filter over tuples of a schema. -/
def bind (schema : Schema) (condition : Condition) : Except Error Filter := do
  return ⟨condition, ← condition.bind schema⟩

/-- The child, and whether it came to its end. -/
structure State (σ : Type) where
  child : σ
  /-- The child had no more tuples. -/
  done : Bool

def start (child : Operator) (db : Database) (s : State child.State) :
    Except Error Unit × State child.State :=
  match child.start db s.child with
  | (.error e, c) => (.error e, { s with child := c })
  | (.ok _, c) => (.ok (), ⟨c, false⟩)

/-- Looks at one tuple of the child. -/
def step (f : Filter) (child : Operator) (db : Database) (s : State child.State) (reads : Nat) :
    Step (State child.State) :=
  if s.done then .finish s reads
  else
    match child.next db s.child reads with
    | ⟨.error e, c, n⟩ => .fail e { s with child := c } n
    | ⟨.ok none, c, n⟩ => .finish ⟨c, true⟩ n
    | ⟨.ok (some t), c, n⟩ =>
      match f.predicate.evaluate t with
      | .error e => .fail e { s with child := c } n
      | .ok true => .emit t { s with child := c } n
      | .ok false => .again { s with child := c } n

theorem progress (f : Filter) (child : Operator) : WellFounded (Step.Later (f.step child)) := by
  refine Machine.ofRank child.finite State.child fun {db s n s'} h => ?_
  unfold step at h
  repeat' split at h
  all_goals simp only [Step.continuation, reduceCtorEq, Option.some.injEq] at h
  all_goals
    subst h
    exact ⟨_, _, _, _, ‹child.next db s.child n = _›⟩

def machine (f : Filter) (child : Operator) : Machine where
  State := State child.State
  initial := ⟨child.initial, false⟩
  start := start child
  step := f.step child
  close s := { s with child := child.close s.child }
  progress := f.progress child

/-- The filter over a child. -/
def operator (f : Filter) (child : Operator) : Operator :=
  (f.machine child).operator "Filter" child.schema

end Filter

end QueryEngine
