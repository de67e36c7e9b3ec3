import QueryEngine.Comparator
import QueryEngine.Key.Interval

/-!
# Ranges of values

A range is what an index is asked for: a lower and an upper value, each of which may be absent and
may or may not belong to it. Nothing keeps the two values from being of different types or the
wrong way round; `KeyRange.interval?` finds out against the type of an index.

* `KeyRange.contains`: whether a value lies in a range.
* `KeyRange.interval?`: the interval of keys of a range, unless it is empty.
* `Comparator.lookupRanges`: the ranges of the values that a given value compares with as asked.
-/

namespace QueryEngine

/-- A range of values, as it was asked for. -/
structure KeyRange where
  low : Option Value := none
  high : Option Value := none
  lowInclusive : Bool := false
  highInclusive : Bool := false
  deriving DecidableEq, Repr

namespace KeyRange

/-- Every value. -/
def all : KeyRange := {}

/-- The values equal to `v`. -/
def point (v : Value) : KeyRange := ⟨some v, some v, true, true⟩

/-- The values above `v`, and `v` itself if `inclusive`. -/
def above (v : Value) (inclusive : Bool) : KeyRange := ⟨some v, none, inclusive, false⟩

/-- The values below `v`, and `v` itself if `inclusive`. -/
def below (v : Value) (inclusive : Bool) : KeyRange := ⟨none, some v, false, inclusive⟩

/-- The values between two. -/
def between (low : Value) (lowInclusive : Bool) (high : Value) (highInclusive : Bool) : KeyRange :=
  ⟨some low, some high, lowInclusive, highInclusive⟩

def isFull (r : KeyRange) : Bool := r.low.isNone && r.high.isNone

/-- Whether a value passes the lower bound. -/
def passesLow (r : KeyRange) (v : Value) : Except Error Bool :=
  match r.low with
  | none => .ok true
  | some low => (v.compare low).map fun o => o == .gt || (o == .eq && r.lowInclusive)

/-- Whether a value passes the upper bound. -/
def passesHigh (r : KeyRange) (v : Value) : Except Error Bool :=
  match r.high with
  | none => .ok true
  | some high => (v.compare high).map fun o => o == .lt || (o == .eq && r.highInclusive)

/-- Whether a value lies in the range. The upper bound is not looked at when the lower one already
rules the value out. -/
def contains (r : KeyRange) (v : Value) : Except Error Bool := do
  if ← r.passesLow v then r.passesHigh v else return false

/-- The bound that a value sets on the keys of a type. -/
def bound (v : Option Value) (inclusive : Bool) (keyType : DataType) : Except Error Bound :=
  match v with
  | none => .ok .unbounded
  | some v => (Key.typed v keyType).map fun k => if inclusive then .included k else .excluded k

/-- The interval of keys of a range, or none when its bounds leave no room: the lower one above the
upper one, or both at one key that does not belong to both. -/
def interval? (r : KeyRange) (keyType : DataType) : Except Error (Option Interval) := do
  let low ← bound r.low r.lowInclusive keyType
  let high ← bound r.high r.highInclusive keyType
  return if Interval.crossed low high then none else some ⟨low, high⟩

/-- The range in interval notation. -/
def display (r : KeyRange) : String :=
  let low := match r.low with
    | none => "(-inf"
    | some v => (if r.lowInclusive then "[" else "(") ++ v.display
  let high := match r.high with
    | none => "+inf)"
    | some v => v.display ++ if r.highInclusive then "]" else ")"
  s!"{low}, {high}"

end KeyRange

/-- The ranges, in ascending order, of the values `w` for which `v` stands in the comparator's
relation to `w`. -/
def Comparator.lookupRanges (c : Comparator) (v : Value) : List KeyRange :=
  match c with
  | .eq => [.point v]
  | .ne => [.below v false, .above v false]
  | .lt => [.above v false]
  | .le => [.above v true]
  | .gt => [.below v false]
  | .ge => [.below v true]
  | .always => [.all]

end QueryEngine
