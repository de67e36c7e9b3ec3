import QueryEngine.Proofs.Measure

/-!
# Numbers that need no rounding

A number is a few digits with zeros behind them. Where a format has room for the digits it stands
for the number exactly, and rounding to nearest finds that pattern. Eight bytes have room for every
number of four, and on the way back the same pattern is found again.

* `Format.nearest_units`: a number of a format is rounded to itself.
* `Format.units_nearest`: digits that a format has room for are not rounded.
* `Value.Brings`: what a finite value brings to a group; the order of the values is that of the
  numbers (`Value.Brings.compare_eq`), and a number gives the value back (`Value.Brings.typed_eq`).
-/

namespace QueryEngine

/-! ## Digits -/

namespace Format

variable {f : Format} {m k s d : Nat}

theorem roundHalfEven_mul (hd : 0 < d) (k : Nat) : roundHalfEven (k * d) d = k := by
  rw [roundHalfEven, Nat.mul_mod_left, Nat.mul_div_cancel _ hd, if_pos hd]

/-- A number of a format is rounded to itself. -/
theorem nearest_units (hm : m ≤ f.infinity) (hd : 0 < d) : f.nearest (f.units m * d) d = m := by
  have hlower := f.units_lt m
  have hsplit := Nat.div_add_mod' m (2 ^ f.fractionBits)
  rw [nearest, Nat.mul_div_cancel _ hd]
  cases he : m / 2 ^ f.fractionBits with
  | zero =>
    have hunits : f.units m = m := by rw [units, if_pos he]
    rw [he, Nat.pow_zero, Nat.mul_one, hunits] at hlower
    have hshift : m.log2 - f.fractionBits = 0 := by
      rcases Nat.eq_zero_or_pos m with rfl | hpos
      · simp
      · have := (Nat.log2_lt (by omega)).2 hlower
        omega
    rw [hunits, hshift, Nat.pow_zero, Nat.mul_one, roundHalfEven_mul hd, Nat.zero_mul, Nat.zero_add,
      Nat.min_eq_left hm]
  | succ e =>
    have hunits : f.units m = (2 ^ f.fractionBits + m % 2 ^ f.fractionBits) * 2 ^ e := by
      rw [units, if_neg (by omega), he, Nat.add_sub_cancel]
    have hfirst := le_units he
    have hpos : f.units m ≠ 0 :=
      Nat.ne_of_gt (Nat.lt_of_lt_of_le (Nat.mul_pos (Nat.two_pow_pos _) (Nat.two_pow_pos _)) hfirst)
    rw [he, ← Nat.pow_add, ← Nat.add_assoc] at hlower
    rw [← Nat.pow_add] at hfirst
    have hlog : (f.units m).log2 = f.fractionBits + e :=
      (Nat.log2_eq_iff hpos).2 ⟨hfirst, hlower⟩
    have hshift : (f.units m).log2 - f.fractionBits = e := by omega
    have hround : roundHalfEven (f.units m * d) (d * 2 ^ e) =
        2 ^ f.fractionBits + m % 2 ^ f.fractionBits := by
      rw [hunits, Nat.mul_assoc, Nat.mul_comm (2 ^ e) d]
      exact roundHalfEven_mul (Nat.mul_pos hd (Nat.two_pow_pos e)) _
    rw [he, Nat.succ_mul] at hsplit
    rw [hshift, hround, ← Nat.add_assoc, hsplit, Nat.min_eq_left hm]

/-- A number is as many digits as its format has room for, with zeros behind them. -/
theorem exists_units_eq (hm : m < f.infinity) :
    ∃ k s, f.units m = k * 2 ^ s ∧ k < 2 ^ (f.fractionBits + 1) ∧ s + 2 ≤ 2 ^ f.exponentBits := by
  have hr : m % 2 ^ f.fractionBits < 2 ^ f.fractionBits := Nat.mod_lt _ (Nat.two_pow_pos _)
  have hexponent : m / 2 ^ f.fractionBits < 2 ^ f.exponentBits - 1 :=
    Nat.div_lt_of_lt_mul (by rwa [Nat.mul_comm])
  have hpow := Nat.pow_succ 2 f.fractionBits
  unfold units
  split
  · rename_i he
    have hlt : m < 2 ^ f.fractionBits := Nat.lt_of_div_eq_zero (Nat.two_pow_pos _) he
    exact ⟨m, 0, by simp, by omega, by omega⟩
  · rename_i he
    have hpos := Nat.pos_of_ne_zero he
    exact ⟨_, _, rfl, by omega, by omega⟩

/-- As many digits as the format has room for are a number of it: the first stands where it is left
out, and what is added to the exponent for it is what the exponent needs. -/
theorem units_of_full (hfirst : 2 ^ f.fractionBits ≤ k) (hk : k < 2 ^ (f.fractionBits + 1))
    (s : Nat) : f.units (s * 2 ^ f.fractionBits + k) = k * 2 ^ s := by
  have hpow := Nat.pow_succ 2 f.fractionBits
  have hexponent : (s * 2 ^ f.fractionBits + k) / 2 ^ f.fractionBits = s + 1 := by
    refine Nat.div_eq_of_lt_le ?_ ?_ <;> simp only [Nat.add_mul] <;> omega
  have hfraction := Nat.div_add_mod' (s * 2 ^ f.fractionBits + k) (2 ^ f.fractionBits)
  rw [hexponent, Nat.add_mul] at hfraction
  rw [units, if_neg (by omega), hexponent, Nat.add_sub_cancel]
  congr 1
  omega

theorem add_lt_infinity (hk : k < 2 ^ (f.fractionBits + 1)) (hs : s + 2 < 2 ^ f.exponentBits) :
    s * 2 ^ f.fractionBits + k < f.infinity := by
  have hpow := Nat.pow_succ 2 f.fractionBits
  calc s * 2 ^ f.fractionBits + k < (s + 2) * 2 ^ f.fractionBits := by
        rw [Nat.add_mul]
        omega
    _ ≤ (2 ^ f.exponentBits - 1) * 2 ^ f.fractionBits := Nat.mul_le_mul_right _ (by omega)

/-- Digits that a format has room for are a number of it. -/
theorem exists_magnitude (hk : k < 2 ^ (f.fractionBits + 1)) (hs : s + 2 < 2 ^ f.exponentBits) :
    ∃ m < f.infinity, f.units m = k * 2 ^ s := by
  have hpow := Nat.pow_succ 2 f.fractionBits
  -- fewer digits than there is room for get the zeros behind them, as long as there are some
  induction s generalizing k with
  | zero =>
    refine ⟨0 * 2 ^ f.fractionBits + k, add_lt_infinity hk hs, ?_⟩
    by_cases hfirst : 2 ^ f.fractionBits ≤ k
    · exact units_of_full hfirst hk 0
    · rw [Nat.zero_mul, Nat.zero_add, units, if_pos (Nat.div_eq_of_lt (by omega)), Nat.pow_zero,
        Nat.mul_one]
  | succ s ih =>
    by_cases hfirst : 2 ^ f.fractionBits ≤ k
    · exact ⟨_, add_lt_infinity hk hs, units_of_full hfirst hk (s + 1)⟩
    · obtain ⟨m, hm, hunits⟩ := ih (k := 2 * k) (by omega) (by omega)
      exact ⟨m, hm, by rw [hunits, Nat.pow_succ', Nat.mul_left_comm, Nat.mul_assoc]⟩

/-- Digits that a format has room for are not rounded. -/
theorem units_nearest (hk : k < 2 ^ (f.fractionBits + 1)) (hs : s + 2 < 2 ^ f.exponentBits)
    (hd : 0 < d) : f.units (f.nearest (k * 2 ^ s * d) d) = k * 2 ^ s := by
  obtain ⟨m, hm, hunits⟩ := exists_magnitude hk hs
  rw [← hunits, nearest_units (Nat.le_of_lt hm) hd]

end Format

/-! ## Numbers -/

namespace Binary

variable {f g : Format} {x : Binary f} {e : Nat}

/-- A larger format has room for a number. Only what the number is a multiple of is smaller. -/
theorem units_convert (h : x.isFinite = true) (hscale : e + f.scale = g.scale)
    (hfraction : f.fractionBits ≤ g.fractionBits)
    (hexponent : 2 ^ f.exponentBits + e < 2 ^ g.exponentBits) :
    (x.convert : Binary g).units = x.units * 2 ^ e := by
  obtain ⟨k, s, hunits, hk, hs⟩ := Format.exists_units_eq (of_decide_eq_true h)
  have hx : x.units * 2 ^ e = k * 2 ^ (s + e) := by
    rw [Nat.pow_add, ← Nat.mul_assoc]
    exact congrArg (· * 2 ^ e) hunits
  have hscaled : x.units * 2 ^ g.scale = k * 2 ^ (s + e) * 2 ^ f.scale := by
    rw [← hscale, Nat.pow_add, ← Nat.mul_assoc, hx]
  have hk' : k < 2 ^ (g.fractionBits + 1) :=
    Nat.lt_of_lt_of_le hk (Nat.pow_le_pow_right Nat.two_pos (by omega))
  rw [convert_eq h, hscaled, hx]
  exact Format.units_nearest hk' (by omega) (Nat.two_pow_pos _)

/-- From there the number is found again. -/
theorem convert_of_units {y : Binary g} (hy : y.isFinite = true) (h : x.isFinite = true)
    (hscale : e + f.scale = g.scale) (hsign : y.negative = x.negative)
    (hunits : y.units = x.units * 2 ^ e) : y.convert = x := by
  have hm : x.magnitude.val < f.infinity := of_decide_eq_true h
  rw [convert_eq hy, hunits, Nat.mul_assoc, ← Nat.pow_add, hscale, hsign]
  exact Binary.ext rfl (Fin.ext (Format.nearest_units (Nat.le_of_lt hm) (Nat.two_pow_pos _)))

/-- A whole number that the format has room for. -/
theorem units_ofInt {n : Int} (hn : n.natAbs < 2 ^ (f.fractionBits + 1))
    (hscale : f.scale + 2 < 2 ^ f.exponentBits) :
    (ofInt n : Binary f).units = n.natAbs * 2 ^ f.scale := by
  have hunits := Format.units_nearest hn hscale Nat.one_pos
  rwa [Nat.mul_one] at hunits

/-- Its whole part is found again. -/
theorem toInt32_of_units {n : Int32} (hx : x.isFinite = true)
    (hsign : x.negative = decide (n.toInt < 0))
    (hunits : x.units = n.toInt.natAbs * 2 ^ f.scale) : x.toInt32 = n := by
  have hlow := n.le_toInt
  have hhigh := n.toInt_lt
  have hwhole : x.units / 2 ^ f.scale = n.toInt.natAbs := by
    rw [hunits, Nat.mul_div_cancel _ (Nat.two_pow_pos _)]
  rw [toInt32, isNaN_of_isFinite hx, hsign]
  simp only [hwhole, Bool.false_eq_true, if_false, decide_eq_true_eq]
  split
  · have hn : -(n.toInt.natAbs : Int) = n.toInt := by omega
    rw [hn, Int.max_eq_left (by omega), Int32.ofInt_toInt]
  · have hn : (n.toInt.natAbs : Int) = n.toInt := by omega
    rw [hn, Int.min_eq_left (by omega), Int32.ofInt_toInt]

theorem signedUnits_eq {y : Binary g} {c : Nat} (hsign : y.negative = x.negative)
    (hunits : y.units = x.units * c) : y.signedUnits = x.signedUnits * c := by
  rw [signedUnits, signedUnits, hsign, hunits]
  split <;> push_cast
  · rw [Int.neg_mul]
  · rfl

theorem signedUnits_le_units (x : Binary f) :
    x.signedUnits ≤ x.units ∧ -x.units ≤ x.signedUnits := by
  unfold signedUnits
  split <;> omega

/-! ### Four bytes in eight -/

/-- How much smaller the least positive number of eight bytes is than that of four, as a power of
two. -/
def refinement : Nat := Format.double.scale - Format.single.scale

theorem refinement_add_scale : refinement + Format.single.scale = Format.double.scale := by decide

theorem double_units {x : Single} (h : x.isFinite = true) :
    (x.convert : Double).units = x.units * 2 ^ refinement :=
  units_convert h refinement_add_scale (by decide) (by decide)

theorem double_negative {x : Single} (h : x.isFinite = true) :
    (x.convert : Double).negative = x.negative := by
  rw [convert_eq h]
  rfl

theorem double_units_ofInt (n : Int32) :
    (ofInt n.toInt : Double).units = n.toInt.natAbs * 2 ^ Format.double.scale := by
  have hlow := n.le_toInt
  have hhigh := n.toInt_lt
  have hroom : 2 ^ 32 < 2 ^ (Format.double.fractionBits + 1) := by decide
  exact units_ofInt (by omega) (by decide)

theorem signedUnits_ofInt (n : Int32) :
    (ofInt n.toInt : Double).signedUnits = n.toInt * (2 ^ Format.double.scale : Nat) := by
  have hsign : (ofInt n.toInt : Double).negative = decide (n.toInt < 0) := rfl
  rw [signedUnits, double_units_ofInt, hsign]
  by_cases h : n.toInt < 0
  · rw [if_pos (decide_eq_true h), Int.natCast_mul, ← Int.neg_mul]
    congr 1
    omega
  · rw [if_neg (by simpa using h), Int.natCast_mul]
    congr 1
    omega

/-- The ends of the range of eight bytes are far from every number of four. -/
theorem lt_units_extreme {n e : Nat} (h : n < 2 ^ e) (he : e ≤ 2000) (negative : Bool) :
    n < (extreme negative : Double).units := by
  obtain ⟨last, hlast, hfar⟩ : ∃ last,
      (Format.double.infinity - 1) / 2 ^ Format.double.fractionBits = last + 1 ∧ 2000 ≤ last :=
    ⟨2045, by decide, by decide⟩
  calc n < 2 ^ e := h
    _ ≤ 2 ^ (Format.double.fractionBits + last) := Nat.pow_le_pow_right Nat.two_pos (by omega)
    _ = 2 ^ Format.double.fractionBits * 2 ^ last := Nat.pow_add ..
    _ ≤ (extreme negative : Double).units := Format.le_units hlast

end Binary

/-! ## Values -/

theorem compare_mul_right {c : Nat} (hc : 0 < c) (a b : Int) :
    compare (a * c) (b * c) = compare a b := by
  have hpos : (0 : Int) < c := Int.natCast_pos.2 hc
  rcases Int.lt_trichotomy a b with h | rfl | h
  · rw [Int.compare_eq_lt.2 h, Int.compare_eq_lt.2 (Int.mul_lt_mul_of_pos_right h hpos)]
  · rw [Std.ReflOrd.compare_self, Std.ReflOrd.compare_self]
  · rw [Int.compare_eq_gt.2 h, Int.compare_eq_gt.2 (Int.mul_lt_mul_of_pos_right h hpos)]

/-- What a finite value brings to a group. -/
inductive Value.Brings : Value → Double → Prop where
  | integer (n : Int32) : Brings (.integer n) (.ofInt n.toInt)
  | real (x : Single) (h : x.isFinite = true) : Brings (.real x) x.convert

namespace Value.Brings

variable {v w : Value} {x y : Double}

theorem of_measure (hv : v.isFinite = true) (h : v.measure = .ok x) : v.Brings x := by
  cases v with
  | integer n =>
    rw [measure, toDouble?] at h
    obtain rfl := Except.ok.inj ((if_pos (Binary.isFinite_ofInt n)).symm.trans h)
    exact .integer n
  | real y =>
    rw [measure, toDouble?] at h
    obtain rfl := Except.ok.inj ((if_pos (Binary.isFinite_convert hv)).symm.trans h)
    exact .real y hv
  | text bytes => cases h

theorem isFinite (h : v.Brings x) : x.isFinite = true := by
  cases h with
  | integer n => exact Binary.isFinite_ofInt n
  | real y hy => exact Binary.isFinite_convert hy

theorem units_lt_extreme (h : v.Brings x) (negative : Bool) :
    x.units < (Binary.extreme negative : Double).units := by
  have hshift : ∀ {m j k : Nat}, m < 2 ^ j → m * 2 ^ k < 2 ^ (j + k) := fun {m j k} hm => by
    rw [Nat.pow_add]
    exact Nat.mul_lt_mul_of_pos_right hm (Nat.two_pow_pos k)
  cases h with
  | integer n =>
    have hlow := n.le_toInt
    have hhigh := n.toInt_lt
    have hsmall : n.toInt.natAbs < 2 ^ 32 := by omega
    rw [Binary.double_units_ofInt]
    exact Binary.lt_units_extreme (hshift hsmall) (by decide) negative
  | real y hy =>
    rw [Binary.double_units hy]
    exact Binary.lt_units_extreme (hshift (Binary.units_lt hy)) (by decide) negative

/-- Values are ordered as the numbers that they bring. -/
theorem compare_eq (hv : v.Brings x) (hw : w.Brings y) (h : v.dataType = w.dataType) :
    v.compare w = .ok (Ord.compare x.signedUnits y.signedUnits) := by
  cases hv with
  | integer m =>
    cases hw with
    | integer n =>
      rw [compare, Binary.signedUnits_ofInt, Binary.signedUnits_ofInt,
        compare_mul_right (Nat.two_pow_pos _)]
    | real y hy => cases h
  | real x hx =>
    cases hw with
    | integer n => cases h
    | real y hy =>
      have hscale : ∀ {z : Single}, z.isFinite = true →
          (z.convert : Double).signedUnits = z.signedUnits * (2 ^ Binary.refinement : Nat) :=
        fun hz => Binary.signedUnits_eq (Binary.double_negative hz) (Binary.double_units hz)
      rw [compare, hx, hy, hscale hx, hscale hy, compare_mul_right (Nat.two_pow_pos _)]
      rfl

/-- The number gives the value back. -/
theorem typed_eq (h : v.Brings x) : Accumulator.typed v.dataType x = .ok v := by
  cases h with
  | integer n =>
    have hback : (Binary.ofInt n.toInt : Double).toInt32 = n :=
      Binary.toInt32_of_units (Binary.isFinite_ofInt n) rfl (Binary.double_units_ofInt n)
    simp only [dataType, Accumulator.typed, hback]
  | real y hy =>
    have hback : ((y.convert : Double).convert : Single) = y :=
      Binary.convert_of_units (Binary.isFinite_convert hy) hy Binary.refinement_add_scale
        (Binary.double_negative hy) (Binary.double_units hy)
    simp only [dataType, Accumulator.typed, hback, hy, if_true]

end Value.Brings

end QueryEngine
