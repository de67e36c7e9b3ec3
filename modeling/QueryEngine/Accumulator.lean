import QueryEngine.Error

/-!
# Accumulators

An accumulator takes in the numbers of one group and gives any of the statistics over them. Sums
are kept in eight bytes and rounded at every step, so the order of the numbers matters to them.
-/

namespace QueryEngine

/-- What is kept of the numbers of one group. -/
structure Accumulator where
  count : Nat
  sum : Double
  min : Double
  max : Double
  deriving DecidableEq, Repr

namespace Accumulator

/-- Before the first number. The least and the greatest start at the other end of the range. -/
def empty : Accumulator := ⟨0, .zero false, .extreme false, .extreme true⟩

/-- One more number. -/
def update (a : Accumulator) (x : Double) : Accumulator where
  count := a.count + 1
  sum := a.sum.add x
  min := if x.lt a.min then x else a.min
  max := if a.max.lt x then x else a.max

/-- The sum divided by the count. -/
def mean (a : Accumulator) : Double := a.sum.div (.ofInt a.count)

/-- The mean, once there is one. -/
def mean? (a : Accumulator) : Option Double := if a.count = 0 then none else some a.mean

/-- A number as a value of the type that the statistic has. -/
def typed (t : DataType) (x : Double) : Except Error Value :=
  match t with
  | .integer => .ok (.integer x.toInt32)
  | _ =>
    let real : Single := x.convert
    if real.isFinite then .ok (.real real) else .error .nonFiniteReal

/-- A statistic over the numbers of an attribute of type `input`. -/
def statistic (a : Accumulator) (s : Statistic) (input : DataType) : Except Error Value :=
  if a.count = 0 then .error (.internal .emptyGroup)
  else
    match s with
    | .count =>
      if a.count < 2 ^ 31 then .ok (.integer (Int32.ofNat a.count))
      else .error (.internal .countOverflow)
    | .sum => typed (s.outputType input) a.sum
    | .avg => typed (s.outputType input) a.mean
    | .min => typed (s.outputType input) a.min
    | .max => typed (s.outputType input) a.max

end Accumulator

/-- The number that a value brings to a group. -/
def Value.measure (v : Value) : Except Error Double :=
  match v.toDouble? with
  | none => .error (.invalidAggregate (.notNumericValue v))
  | some x => if x.isFinite then .ok x else .error .nonFiniteReal

end QueryEngine
