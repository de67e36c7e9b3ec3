import QueryEngine.Error

/-!
# The order of values

Values of one type are ordered: integers and finite reals by size, text byte by byte. Values of
two types are not, nor is a real that is infinite or not a number, and comparing them is an error.
-/

namespace QueryEngine.Value

/-- A value is finite unless it is a real that is infinite or not a number. -/
def isFinite : Value → Bool
  | real x => x.isFinite
  | _ => true

/-- The order of two values of one type. -/
def compare : Value → Value → Except Error Ordering
  | integer m, integer n => .ok (Ord.compare m.toInt n.toInt)
  | real x, real y =>
    if x.isFinite && y.isFinite then .ok (Ord.compare x.signedUnits y.signedUnits)
    else .error .nonFiniteReal
  | text s, text t => .ok (Ord.compare s t)
  | v, w => .error (.typeMismatch v.dataType w.dataType)

/-- Refuses a value that is not of the given type. -/
def expectType (v : Value) (expected : DataType) : Except Error Unit :=
  if v.dataType = expected then .ok () else .error (.typeMismatch expected v.dataType)

end QueryEngine.Value
