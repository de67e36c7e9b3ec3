import Mathlib.Order.Compare
import Mathlib.Data.Rat.Cast.Order
import Mathlib.Tactic.Positivity
import Mathlib.Tactic.Ring
import QueryEngine.Numeric.Binary

/-!
# Numbers as rationals

A pattern is read as a sign, an exponent and a fraction, and what it stands for is a product of
three rational numbers. Arithmetic and comparisons use whole multiples of the least positive number
instead. The two readings differ by a constant factor.

* `Binary.toRat`: the number that a pattern stands for.
* `Binary.toRat_mul_scale`: in multiples of the least positive number.
* `Binary.compare_signedUnits`: patterns are ordered as the numbers that they stand for.
-/

namespace QueryEngine

/-- What is added to exponents, so that they are stored without a sign. -/
def Format.bias (f : Format) : Nat := 2 ^ (f.exponentBits - 1) - 1

theorem Format.scale_eq {f : Format} (hf : 2 ≤ f.exponentBits) :
    f.scale + 1 = f.bias + f.fractionBits := by
  have hpow : 2 ^ 1 ≤ 2 ^ (f.exponentBits - 1) := Nat.pow_le_pow_right Nat.two_pos (by omega)
  unfold scale bias
  omega

namespace Binary

variable {f : Format}

/-- The bits of a pattern between its sign and its fraction. -/
def exponent (x : Binary f) : Nat := x.magnitude / 2 ^ f.fractionBits

def fraction (x : Binary f) : Nat := x.magnitude % 2 ^ f.fractionBits

/-- The fraction with the digit before it, which is one unless the exponent is the least. -/
def significand (x : Binary f) : ℚ :=
  (if x.exponent = 0 then 0 else 1) + x.fraction / 2 ^ f.fractionBits

/-- The number that a finite pattern stands for. The two least exponents mean the same power. -/
def toRat (x : Binary f) : ℚ :=
  (if x.negative then -1 else 1) * x.significand * 2 ^ ((max x.exponent 1 : ℤ) - f.bias)

theorem significand_mul_scale (hf : 2 ≤ f.exponentBits) (x : Binary f) :
    x.significand * 2 ^ ((max x.exponent 1 : ℤ) - f.bias) * 2 ^ f.scale = x.units := by
  have htwo : (2 : ℚ) ≠ 0 := two_ne_zero
  have hunits : x.units = if x.exponent = 0 then x.magnitude.val
      else (2 ^ f.fractionBits + x.fraction) * 2 ^ (x.exponent - 1) := rfl
  have hpower : (2 : ℚ) ^ ((max x.exponent 1 : ℤ) - f.bias) * 2 ^ f.scale =
      2 ^ f.fractionBits * 2 ^ (x.exponent - 1) := by
    have hscale := f.scale_eq hf
    rw [← zpow_natCast, ← zpow_natCast, ← zpow_natCast, ← zpow_add₀ htwo, ← zpow_add₀ htwo]
    congr 1
    omega
  have hfraction : (x.fraction : ℚ) / 2 ^ f.fractionBits * 2 ^ f.fractionBits = x.fraction :=
    div_mul_cancel₀ _ (pow_ne_zero _ htwo)
  rw [mul_assoc, hpower, significand, hunits, ← mul_assoc, add_mul, hfraction]
  split
  · rename_i hzero
    have hmagnitude : x.fraction = x.magnitude.val :=
      Nat.mod_eq_of_lt (Nat.lt_of_div_eq_zero (Nat.two_pow_pos _) hzero)
    simp [hzero, hmagnitude]
  · push_cast
    ring

/-- A number in multiples of the least positive one. -/
theorem toRat_mul_scale (hf : 2 ≤ f.exponentBits) (x : Binary f) :
    x.toRat * 2 ^ f.scale = x.signedUnits := by
  have hsize := x.significand_mul_scale hf
  unfold toRat signedUnits
  cases x.negative with
  | true =>
    simp only [if_true, neg_mul, one_mul, hsize]
    push_cast
    rfl
  | false =>
    simp only [Bool.false_eq_true, if_false, one_mul, hsize]
    push_cast
    rfl

/-- Patterns are ordered as the numbers that they stand for. -/
theorem compare_signedUnits (hf : 2 ≤ f.exponentBits) (x y : Binary f) :
    compare x.signedUnits y.signedUnits = cmp x.toRat y.toRat := by
  have hscale : StrictMono fun q : ℚ => q * 2 ^ f.scale :=
    fun a b h => mul_lt_mul_of_pos_right h (by positivity)
  have hcast : StrictMono fun n : ℤ => (n : ℚ) := Int.cast_strictMono
  calc compare x.signedUnits y.signedUnits
      = cmp x.signedUnits y.signedUnits := (cmp_eq_compare _ _).symm
    _ = cmp (x.signedUnits : ℚ) y.signedUnits := (hcast.cmp_map_eq _ _).symm
    _ = cmp (x.toRat * 2 ^ f.scale) (y.toRat * 2 ^ f.scale) := by
      rw [toRat_mul_scale hf, toRat_mul_scale hf]
    _ = cmp x.toRat y.toRat := hscale.cmp_map_eq _ _

end Binary

end QueryEngine
