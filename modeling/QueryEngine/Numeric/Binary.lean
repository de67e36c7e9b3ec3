import QueryEngine.Numeric.Format

/-!
# Binary numbers and their arithmetic

A `Binary f` is any pattern of the format `f`: a finite number, an infinity, or one of the
patterns that are not numbers, which keep their payload. Arithmetic is exact arithmetic on units
followed by one rounding to nearest, so no operation depends on the machine's own floating point.

* `Binary.ofBits`, `Binary.toBits`: the pattern as one natural number, sign bit on top.
* `Binary.compare?`: the numeric order, undefined beside a pattern that is not a number.
* `Binary.add`, `Binary.div`, `Binary.convert`, `Binary.ofInt`: correctly rounded results.
* `Binary.toInt32`: the integer part, clamped to the range of the type.
-/

namespace QueryEngine

/-- A pattern of the format `f`. -/
@[ext] structure Binary (f : Format) where
  negative : Bool
  magnitude : Fin f.magnitudes
  deriving DecidableEq, Repr

/-- A four-byte number. -/
abbrev Single : Type := Binary .single

/-- An eight-byte number. -/
abbrev Double : Type := Binary .double

namespace Binary

variable {f : Format}

/-- The low bits of `n` as a pattern, sign bit on top. -/
def ofBits (n : Nat) : Binary f :=
  ⟨n / f.magnitudes % 2 = 1, ⟨n % f.magnitudes, Nat.mod_lt _ (Nat.two_pow_pos _)⟩⟩

/-- The pattern as one natural number. -/
def toBits (x : Binary f) : Nat := x.negative.toNat * f.magnitudes + x.magnitude

/-- The magnitude nearest to `n / d` units, under the given sign. -/
def ofUnits (negative : Bool) (n d : Nat) : Binary f :=
  ⟨negative, ⟨f.nearest n d, f.nearest_lt_magnitudes n d⟩⟩

/-- The pattern with no fraction bits and all exponent bits set. -/
def infinite (negative : Bool) : Binary f := ⟨negative, ⟨f.infinity, f.infinity_lt_magnitudes⟩⟩

/-- The pattern that stands for every result that is not a number. -/
def nan : Binary f := ⟨false, ⟨f.magnitudes - 1, Nat.sub_lt (Nat.two_pow_pos _) Nat.one_pos⟩⟩

/-- The largest number of the format, or the least one. -/
def extreme (negative : Bool) : Binary f :=
  ⟨negative, ⟨f.infinity - 1, Nat.lt_of_le_of_lt (Nat.sub_le _ _) f.infinity_lt_magnitudes⟩⟩

/-- Zero, with the sign given. -/
def zero (negative : Bool) : Binary f := ⟨negative, ⟨0, Nat.two_pow_pos _⟩⟩

def isNaN (x : Binary f) : Bool := f.infinity < x.magnitude

def isInfinite (x : Binary f) : Bool := x.magnitude = f.infinity

def isFinite (x : Binary f) : Bool := x.magnitude < f.infinity

/-- Either zero. -/
def isZero (x : Binary f) : Bool := x.magnitude = (0 : Nat)

/-- The size of a number in units, without its sign. -/
def units (x : Binary f) : Nat := f.units x.magnitude

/-- A number in units. Infinity lies past every finite number, so this orders it too. -/
def signedUnits (x : Binary f) : Int := if x.negative then -x.units else x.units

/-- The numeric order of two patterns that are numbers. Both zeros are equal. -/
def compare? (x y : Binary f) : Option Ordering :=
  if x.isNaN || y.isNaN then none else some (compare x.signedUnits y.signedUnits)

/-- Strictly less; false beside a pattern that is not a number. -/
def lt (x y : Binary f) : Bool := x.compare? y = some .lt

/-- Numerically equal; a pattern that is not a number equals nothing. -/
def eq (x y : Binary f) : Bool := x.compare? y = some .eq

/-- The whole number `n`, rounded to nearest. -/
def ofInt (n : Int) : Binary f := ofUnits (n < 0) (n.natAbs * 2 ^ f.scale) 1

/-- The same number in another format, rounded to nearest. -/
def convert {g : Format} (x : Binary f) : Binary g :=
  if x.isNaN then nan
  else if x.isInfinite then infinite x.negative
  else ofUnits x.negative (x.units * 2 ^ g.scale) (2 ^ f.scale)

/-- The sum, rounded to nearest. Two zeros give a negative zero only when both are negative; a
sum that cancels is a positive one. -/
def add (x y : Binary f) : Binary f :=
  if x.isNaN || y.isNaN then nan
  else if x.isInfinite then if y.isInfinite && x.negative != y.negative then nan else x
  else if y.isInfinite then y
  else
    let sum := x.signedUnits + y.signedUnits
    if sum = 0 then zero (x.negative && y.negative)
    else ofUnits (sum < 0) sum.natAbs 1

/-- The quotient, rounded to nearest. Its sign is that of the two numbers together. -/
def div (x y : Binary f) : Binary f :=
  let negative := x.negative != y.negative
  if x.isNaN || y.isNaN then nan
  else if x.isInfinite then if y.isInfinite then nan else infinite negative
  else if y.isInfinite then zero negative
  else if y.isZero then if x.isZero then nan else infinite negative
  else ofUnits negative (x.units * 2 ^ f.scale) y.units

/-- The integer part of a number, clamped to the thirty-two-bit range; zero for a pattern that
is not a number. -/
def toInt32 (x : Binary f) : Int32 :=
  if x.isNaN then 0
  else
    let whole : Nat := x.units / 2 ^ f.scale
    if x.negative then Int32.ofInt (max (-(whole : Int)) (-2 ^ 31))
    else Int32.ofInt (min (whole : Int) (2 ^ 31 - 1))

theorem toBits_ofBits {n : Nat} (h : n < 2 * f.magnitudes) :
    (ofBits n : Binary f).toBits = n := by
  have hm : 0 < f.magnitudes := Nat.two_pow_pos _
  have hq : n / f.magnitudes < 2 := Nat.div_lt_of_lt_mul (by rwa [Nat.mul_comm])
  have hn := Nat.div_add_mod' n f.magnitudes
  simp only [ofBits, toBits]
  generalize n / f.magnitudes = q at hq hn ⊢
  obtain rfl | rfl : q = 0 ∨ q = 1 := by omega
  · simpa using hn
  · simpa using hn

theorem toBits_lt (x : Binary f) : x.toBits < 2 * f.magnitudes := by
  have h := x.magnitude.isLt
  cases hn : x.negative <;> simp [toBits, hn] <;> omega

theorem ofBits_toBits (x : Binary f) : ofBits x.toBits = x := by
  have hm : 0 < f.magnitudes := Nat.two_pow_pos _
  have h := x.magnitude.isLt
  ext1
  · cases hn : x.negative <;> simp [ofBits, toBits, hn, Nat.div_eq_of_lt h, Nat.add_div_left _ hm]
  · ext1
    cases hn : x.negative <;> simp [ofBits, toBits, hn, Nat.mod_eq_of_lt h]

end Binary

end QueryEngine
