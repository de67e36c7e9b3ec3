import QueryEngine.DataType

/-!
# Statistics over an attribute

The five statistics that a group of rows can be summed up by, and the type of each.
-/

namespace QueryEngine

/-- What is computed from the numbers of a group. -/
inductive Statistic where
  | min
  | max
  | count
  | sum
  | avg
  deriving DecidableEq, Repr

namespace Statistic

/-- The type of the statistic over an attribute of type `input`. -/
def outputType (s : Statistic) (input : DataType) : DataType :=
  match s with
  | count => .integer
  | min | max => input
  | sum | avg => .real

def name : Statistic → String
  | min => "MIN"
  | max => "MAX"
  | count => "COUNT"
  | sum => "SUM"
  | avg => "AVG"

end Statistic

end QueryEngine
