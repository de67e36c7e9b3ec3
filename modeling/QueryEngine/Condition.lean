import QueryEngine.Comparator
import QueryEngine.Value.Basic

/-!
# Conditions

A condition compares an attribute, given by name, with another attribute or with a constant. It
says nothing about where the attributes are found: binding it to a schema gives a predicate on
tuples (`QueryEngine.Predicate`).
-/

namespace QueryEngine

/-- The right-hand side of a condition. -/
inductive Operand where
  | column (name : String)
  | literal (value : Value)
  deriving DecidableEq, Repr

/-- A comparison by name, not yet bound to a schema. -/
structure Condition where
  left : String
  comparator : Comparator
  right : Operand
  deriving DecidableEq, Repr

namespace Condition

/-- The name on the right, unless a constant stands there. -/
def rightAttribute? (c : Condition) : Option String :=
  match c.right with
  | .column name => some name
  | .literal _ => none

/-- The condition as it is written, with text constants in quotes. -/
def display (c : Condition) : String :=
  let right := match c.right with
    | .column name => name
    | .literal (.text bytes) => s!"'{Utf8.decodeLossy bytes}'"
    | .literal value => value.display
  s!"{c.left} {c.comparator.symbol} {right}"

end Condition

end QueryEngine
