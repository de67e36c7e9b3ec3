import QueryEngine.Tuple.Layout

/-!
# Predicates

A predicate is a condition bound to the schema of the tuples it is put to; a join predicate is one
bound to two schemas. Unknown names and operands of different types are found out when a condition
is bound. What remains to fail is reading a tuple and comparing a real that is not finite.

* `Condition.bind`, `Condition.bindJoin`: binding to one schema, and to two.
* `Predicate.evaluate`, `JoinPredicate.evaluate`: whether a tuple, or a pair of them, satisfies it.
-/

namespace QueryEngine

/-- The right-hand side of a bound condition. -/
inductive BoundOperand where
  | field (position : Nat)
  | literal (value : Value)
  deriving DecidableEq, Repr

/-- A condition between a field of a tuple and another field or a value. -/
structure Predicate where
  layout : Layout
  left : Nat
  comparator : Comparator
  right : BoundOperand
  deriving DecidableEq, Repr

/-- A condition between a field of a left and a field of a right tuple, both of type `keyType`. -/
structure JoinPredicate where
  left : Layout
  right : Layout
  leftPosition : Nat
  rightPosition : Nat
  comparator : Comparator
  keyType : DataType
  deriving DecidableEq, Repr

namespace Condition

/-- Refuses operands of different types, if they are to be compared. -/
def checkTypes (c : Condition) (left right : DataType) : Except Error Unit :=
  if c.comparator.needsValue ∧ left ≠ right then .error (.typeMismatch left right) else .ok ()

/-- The condition as a predicate on the tuples of a schema. -/
def bind (c : Condition) (schema : Schema) : Except Error Predicate := do
  let (left, leftAttribute) ← schema.find c.left
  match c.right with
  | .column name =>
    let (right, rightAttribute) ← schema.find name
    c.checkTypes leftAttribute.dataType rightAttribute.dataType
    return { layout := { schema }, left, comparator := c.comparator, right := .field right }
  | .literal value =>
    c.checkTypes leftAttribute.dataType value.dataType
    return { layout := { schema }, left, comparator := c.comparator, right := .literal value }

/-- The condition as a predicate on pairs of tuples, its left name from the left schema and its
right name from the right one. -/
def bindJoin (c : Condition) (left right : Schema) : Except Error JoinPredicate := do
  match c.right with
  | .literal _ => throw (.invalidCondition (.needsRightAttribute c))
  | .column name =>
    let (leftPosition, leftAttribute) ← left.find c.left
    let (rightPosition, rightAttribute) ← right.find name
    c.checkTypes leftAttribute.dataType rightAttribute.dataType
    return {
      left := { schema := left }, right := { schema := right }, leftPosition, rightPosition
      comparator := c.comparator, keyType := leftAttribute.dataType }

end Condition

namespace Predicate

/-- Whether a tuple satisfies the predicate. -/
def evaluate (p : Predicate) (t : Tuple) : Except Error Bool :=
  if p.comparator.needsValue then do
    let left ← p.layout.field t p.left
    let right ← match p.right with
      | .field position => p.layout.field t position
      | .literal value => pure value
    return p.comparator.holds (← left.compare right)
  else .ok true

end Predicate

namespace JoinPredicate

/-- The value that a left tuple is joined by. -/
def leftValue (p : JoinPredicate) (t : Tuple) : Except Error Value := p.left.field t p.leftPosition

/-- The value that a right tuple is joined by. -/
def rightValue (p : JoinPredicate) (t : Tuple) : Except Error Value :=
  p.right.field t p.rightPosition

/-- Whether a value from the left and a right tuple satisfy the predicate. -/
def matchesValue (p : JoinPredicate) (left : Value) (t : Tuple) : Except Error Bool :=
  if p.comparator.needsValue then do
    let right ← p.rightValue t
    return p.comparator.holds (← left.compare right)
  else .ok true

/-- Whether a pair of tuples satisfies the predicate. -/
def evaluate (p : JoinPredicate) (s t : Tuple) : Except Error Bool :=
  if p.comparator.needsValue then do
    let left ← p.leftValue s
    let right ← p.rightValue t
    return p.comparator.holds (← left.compare right)
  else .ok true

end JoinPredicate

end QueryEngine
