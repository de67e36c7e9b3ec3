/-!
# Binary number formats

A number of base two is stored as a sign and a magnitude; the magnitude is a bit pattern, read as
a natural number, with the exponent above the fraction. Two facts make the patterns easy to
compute with. Their order is the order of the numbers, and each number is a whole multiple of the
least positive one, so `Format.units` gives the exact size of a magnitude and no fractions are
needed anywhere.

* `Format.units`: a magnitude in multiples of the least positive number of the format.
* `Format.nearest`: the magnitude nearest to a quotient of such multiples, ties to the even one.
-/

-- powers are those of the core library, also where Mathlib has other ones
attribute [instance (1100), default_instance 10001] instPowNat

namespace QueryEngine

/-- How many bits of a pattern hold the fraction, and how many the exponent above it. -/
structure Format where
  fractionBits : Nat
  exponentBits : Nat
  deriving DecidableEq, Repr

namespace Format

/-- The four-byte format. -/
@[reducible] def single : Format := ⟨23, 8⟩

/-- The eight-byte format. -/
@[reducible] def double : Format := ⟨52, 11⟩

/-- The number of magnitudes, which is also the weight of the sign bit above them. -/
@[reducible] def magnitudes (f : Format) : Nat := 2 ^ (f.fractionBits + f.exponentBits)

/-- The magnitude of infinity: all exponent bits set over an empty fraction. Patterns above it
are not numbers. -/
def infinity (f : Format) : Nat := (2 ^ f.exponentBits - 1) * 2 ^ f.fractionBits

/-- The least positive number of the format is two to the power of minus this. -/
def scale (f : Format) : Nat := 2 ^ (f.exponentBits - 1) - 2 + f.fractionBits

/-- A magnitude in multiples of the least positive number. An exponent of zero leaves the
fraction as it is; any other puts a one above it and doubles for each step past the first. -/
def units (f : Format) (m : Nat) : Nat :=
  if m / 2 ^ f.fractionBits = 0 then m
  else (2 ^ f.fractionBits + m % 2 ^ f.fractionBits) * 2 ^ (m / 2 ^ f.fractionBits - 1)

/-- The whole number nearest to `n / d`, the even one of two that are equally near. -/
def roundHalfEven (n d : Nat) : Nat :=
  if 2 * (n % d) < d then n / d
  else if d < 2 * (n % d) then n / d + 1
  else n / d + n / d % 2

/-- The magnitude nearest to `n / d` units. The quotient keeps as many leading bits as a fraction
with its leading one holds; a carry out of the rounding runs on into the exponent, which is where
it belongs, and what passes the largest number is infinity. -/
def nearest (f : Format) (n d : Nat) : Nat :=
  let shift := (n / d).log2 - f.fractionBits
  min (shift * 2 ^ f.fractionBits + roundHalfEven n (d * 2 ^ shift)) f.infinity

theorem infinity_lt_magnitudes (f : Format) : f.infinity < f.magnitudes := by
  have hp : 0 < 2 ^ f.fractionBits := Nat.two_pow_pos _
  have he : 0 < 2 ^ f.exponentBits := Nat.two_pow_pos _
  rw [infinity, magnitudes, Nat.pow_add, Nat.mul_comm (2 ^ f.fractionBits)]
  exact Nat.mul_lt_mul_of_pos_right (by omega) hp

theorem nearest_lt_magnitudes (f : Format) (n d : Nat) : f.nearest n d < f.magnitudes :=
  Nat.lt_of_le_of_lt (Nat.min_le_right _ _) f.infinity_lt_magnitudes

end Format

end QueryEngine
