import QueryEngine.Accumulator
import QueryEngine.Proofs.Key.Order

/-!
# The numbers of values

Groups take in numbers of eight bytes, made from values of four. Nothing overflows on the way.

* `Format.nearest_lt_infinity`: what is not far past the numbers of a format is not rounded to
  infinity.
* `Value.exists_measure`: a finite value of a numeric type brings a number.
-/

namespace QueryEngine

namespace Format

variable {f : Format} {n d e : Nat}

theorem roundHalfEven_le (n d : Nat) : roundHalfEven n d ≤ n / d + 1 := by
  unfold roundHalfEven
  split
  · omega
  · split <;> omega

theorem nearest_lt_infinity (h : n / d < 2 ^ (e + 1)) (he : e + 3 < 2 ^ f.exponentBits) :
    f.nearest n d < f.infinity := by
  have hlog : (n / d).log2 ≤ e := by
    rcases Nat.eq_zero_or_pos (n / d) with hz | hz
    · rw [hz, Nat.log2_zero]
      exact Nat.zero_le e
    · have := (Nat.log2_lt (by omega)).2 h
      omega
  have hshift : (n / d).log2 - f.fractionBits ≤ e := by omega
  have hquotient : n / (d * 2 ^ ((n / d).log2 - f.fractionBits)) < 2 ^ (f.fractionBits + 1) := by
    rw [← Nat.div_div_eq_div_mul]
    apply Nat.div_lt_of_lt_mul
    rw [← Nat.pow_add]
    exact Nat.lt_of_lt_of_le Nat.lt_log2_self (Nat.pow_le_pow_right (by omega) (by omega))
  have hround := roundHalfEven_le n (d * 2 ^ ((n / d).log2 - f.fractionBits))
  rw [nearest, infinity]
  refine Nat.lt_of_le_of_lt (Nat.min_le_left _ _) ?_
  calc ((n / d).log2 - f.fractionBits) * 2 ^ f.fractionBits +
        roundHalfEven n (d * 2 ^ ((n / d).log2 - f.fractionBits))
      ≤ e * 2 ^ f.fractionBits + 2 ^ (f.fractionBits + 1) :=
        Nat.add_le_add (Nat.mul_le_mul_right _ hshift) (by omega)
    _ = (e + 2) * 2 ^ f.fractionBits := by rw [Nat.pow_succ, Nat.add_mul, Nat.mul_comm 2]
    _ < (2 ^ f.exponentBits - 1) * 2 ^ f.fractionBits :=
        Nat.mul_lt_mul_of_pos_right (by omega) (Nat.two_pow_pos _)

theorem nearest_shifted_lt_infinity {m j s : Nat} (hm : m < 2 ^ j)
    (hs : j + s + 3 < 2 ^ f.exponentBits) : f.nearest (m * 2 ^ s) d < f.infinity := by
  refine nearest_lt_infinity ?_ hs
  calc m * 2 ^ s / d ≤ m * 2 ^ s := Nat.div_le_self _ _
    _ < 2 ^ j * 2 ^ s := Nat.mul_lt_mul_of_pos_right hm (Nat.two_pow_pos _)
    _ = 2 ^ (j + s) := (Nat.pow_add 2 j s).symm
    _ < 2 ^ (j + s + 1) := Nat.pow_lt_pow_succ Nat.one_lt_two

end Format

namespace Binary

/-- A finite number is smaller than the first of the exponent past the last. -/
theorem units_lt {f : Format} {x : Binary f} (h : x.isFinite = true) :
    x.units < 2 ^ (f.fractionBits + 2 ^ f.exponentBits) := by
  have hm : x.magnitude.val < (2 ^ f.exponentBits - 1) * 2 ^ f.fractionBits := of_decide_eq_true h
  have hexponent : x.magnitude.val / 2 ^ f.fractionBits < 2 ^ f.exponentBits - 1 :=
    Nat.div_lt_of_lt_mul (by rwa [Nat.mul_comm])
  calc x.units < 2 ^ f.fractionBits * 2 ^ (x.magnitude.val / 2 ^ f.fractionBits) := f.units_lt _
    _ ≤ 2 ^ (f.fractionBits + 2 ^ f.exponentBits) := by
      rw [← Nat.pow_add]
      exact Nat.pow_le_pow_right Nat.two_pos
        (Nat.add_le_add_left (Nat.le_trans (Nat.le_of_lt hexponent) (Nat.sub_le _ _)) _)

theorem isNaN_of_isFinite {f : Format} {x : Binary f} (h : x.isFinite = true) : x.isNaN = false :=
  decide_eq_false (Nat.not_lt.2 (Nat.le_of_lt (of_decide_eq_true h)))

theorem convert_eq {f g : Format} {x : Binary f} (h : x.isFinite = true) :
    (x.convert : Binary g) = ofUnits x.negative (x.units * 2 ^ g.scale) (2 ^ f.scale) := by
  have hinfinite : x.isInfinite = false := decide_eq_false (Nat.ne_of_lt (of_decide_eq_true h))
  rw [convert, isNaN_of_isFinite h, hinfinite]
  rfl

theorem isFinite_convert {x : Single} (h : x.isFinite = true) :
    (x.convert : Double).isFinite = true := by
  rw [convert_eq h]
  exact decide_eq_true (Format.nearest_shifted_lt_infinity (units_lt h) (by decide))

theorem isFinite_ofInt (n : Int32) : (ofInt n.toInt : Double).isFinite = true := by
  have hn : n.toInt.natAbs < 2 ^ 32 := by
    have hlow := n.le_toInt
    have hhigh := n.toInt_lt
    omega
  exact decide_eq_true (Format.nearest_shifted_lt_infinity hn (by decide))

end Binary

/-- A finite value of a numeric type brings a number. -/
theorem Value.exists_measure {v : Value} (ht : v.dataType.isNumeric = true)
    (h : v.isFinite = true) : ∃ x, v.measure = .ok x := by
  cases v with
  | integer n => exact ⟨_, if_pos (Binary.isFinite_ofInt n)⟩
  | real x => exact ⟨_, if_pos (Binary.isFinite_convert h)⟩
  | text bytes => simp [dataType, DataType.isNumeric] at ht

end QueryEngine
