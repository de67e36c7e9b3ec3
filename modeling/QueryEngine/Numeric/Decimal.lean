import QueryEngine.Numeric.Binary

/-!
# The shortest decimal of a number

A finite number is written as the decimal of fewest digits that reads back to it, the nearest of
those, and the one farther from zero of two that are equally near. All of it is arithmetic on
natural numbers: half a unit is a whole multiple of `10 ^ (-places f)`, so the number, the two ends
of the interval that rounds to it and every candidate decimal are such multiples.

* `Binary.shortest`: the decimal, in multiples of `10 ^ (-places f)`.
* `Binary.text`: its positional notation, which never has an exponent or a trailing zero.
-/

namespace QueryEngine

namespace Format

/-- How many decimal places write half a unit exactly. -/
def places (f : Format) : Nat := f.scale + 1

/-- Half units as a multiple of `10 ^ (-places f)`. -/
def decimal (f : Format) (halves : Nat) : Nat := halves * 5 ^ f.places

/-- Whether a decimal lies in the interval of numbers that round to the magnitude `m`. The ends
lie half way to the neighbours and belong to the interval when `m` is even. -/
def readsBack (f : Format) (m n : Nat) : Bool :=
  let low := f.decimal (f.units (m - 1) + f.units m)
  let high := f.decimal (f.units m + f.units (m + 1))
  if m % 2 = 0 then low ≤ n && n ≤ high else low < n && n < high

/-- The coarsest grid of powers of ten, from `10 ^ k` down, with a point that `accepts` allows: of
its two points around `v` the allowed one, and of two allowed ones the nearer. -/
def onCoarsestGrid (accepts : Nat → Bool) (v : Nat) : Nat → Nat
  | 0 => v
  | k + 1 =>
    let low := v / 10 ^ (k + 1) * 10 ^ (k + 1)
    let high := low + 10 ^ (k + 1)
    if accepts low && !(accepts high && high - v ≤ v - low) then low
    else if accepts high then high
    else onCoarsestGrid accepts v k

/-- The shortest decimal that reads back to the magnitude `m`. -/
def shortest (f : Format) (m : Nat) : Nat :=
  let v := f.decimal (2 * f.units m)
  onCoarsestGrid (f.readsBack m) v (v.log2 + 1)

end Format

/-- The digits of `n` with `places` of them after the point, and no point before an empty or
all-zero end. -/
def positional (places n : Nat) : List Char :=
  let whole := Nat.toDigits 10 (n / 10 ^ places)
  let fraction := Nat.toDigits 10 (n % 10 ^ places)
  let padded := List.replicate (places - fraction.length) '0' ++ fraction
  match padded.reverse.dropWhile (· = '0') with
  | [] => whole
  | rest => whole ++ '.' :: rest.reverse

namespace Binary

/-- The text of a number. -/
def text {f : Format} (x : Binary f) : String :=
  if x.isNaN then "NaN"
  else
    let size := if x.isInfinite then "inf".toList else positional f.places (f.shortest x.magnitude)
    String.ofList (if x.negative then '-' :: size else size)

end Binary

end QueryEngine
