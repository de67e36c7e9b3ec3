/-!
# Comparators

A comparator is a test on the ordering of two values. `always` is the one that compares nothing.
-/

namespace QueryEngine

/-- A relation between two values. -/
inductive Comparator where
  | eq
  | ne
  | lt
  | le
  | gt
  | ge
  | always
  deriving DecidableEq, Repr

namespace Comparator

/-- Whether the operands have to be compared at all. -/
def needsValue : Comparator → Bool
  | always => false
  | _ => true

/-- Whether the comparator holds of operands that stand in the given order, left to right. -/
def holds : Comparator → Ordering → Bool
  | eq, o => o == .eq
  | ne, o => o != .eq
  | lt, o => o == .lt
  | le, o => o != .gt
  | gt, o => o == .gt
  | ge, o => o != .lt
  | always, _ => true

/-- The comparator that holds with the operands exchanged. -/
def flip : Comparator → Comparator
  | lt => gt
  | le => ge
  | gt => lt
  | ge => le
  | c => c

def symbol : Comparator → String
  | eq => "="
  | ne => "!="
  | lt => "<"
  | le => "<="
  | gt => ">"
  | ge => ">="
  | always => "TRUE"

theorem holds_flip (c : Comparator) (o : Ordering) : c.flip.holds o = c.holds o.swap := by
  cases c <;> cases o <;> rfl

end Comparator

end QueryEngine
