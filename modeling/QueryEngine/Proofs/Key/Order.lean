import QueryEngine.Key.Basic

/-!
# Keys and the order of values

Values are compared by size, keys by type and then by bit pattern. The two agree.

* `Format.units_lt_units`: larger magnitudes are larger numbers.
* `Key.typed_eq_ok_iff`: the values that have keys of a type are the finite ones of that type.
* `Key.compare_of_typed`: two values of one type that have keys compare as their keys do.
* `Key.toValue_compare`: the value that a key stands for compares equal to those that have the key.
* `Key.compare_eq_error`: comparing a finite value with one of its type that has no key fails.
-/

namespace QueryEngine

/-! ## Magnitudes -/

namespace Format

variable {f : Format} {m n : Nat}

/-- A number lies below the least one of the next exponent. -/
theorem units_lt (f : Format) (m : Nat) :
    f.units m < 2 ^ f.fractionBits * 2 ^ (m / 2 ^ f.fractionBits) := by
  have hr : m % 2 ^ f.fractionBits < 2 ^ f.fractionBits := Nat.mod_lt _ (Nat.two_pow_pos _)
  unfold units
  split
  · rename_i he
    rw [he, Nat.pow_zero, Nat.mul_one]
    exact Nat.lt_of_div_eq_zero (Nat.two_pow_pos _) he
  · rename_i he
    obtain ⟨e, he'⟩ := Nat.exists_eq_succ_of_ne_zero he
    rw [he', Nat.succ_sub_one, Nat.pow_succ, Nat.mul_comm (2 ^ e), ← Nat.mul_assoc]
    exact Nat.mul_lt_mul_of_pos_right (by omega) (Nat.two_pow_pos e)

/-- A number whose exponent is not the least one is at least the first of its exponent. -/
theorem le_units {e : Nat} (h : m / 2 ^ f.fractionBits = e + 1) :
    2 ^ f.fractionBits * 2 ^ e ≤ f.units m := by
  rw [units, if_neg (by omega), h, Nat.add_sub_cancel]
  exact Nat.mul_le_mul_right _ (Nat.le_add_right _ _)

theorem units_lt_units (h : m < n) : f.units m < f.units n := by
  have hle : m / 2 ^ f.fractionBits ≤ n / 2 ^ f.fractionBits := Nat.div_le_div_right (by omega)
  rcases Nat.lt_or_eq_of_le hle with hlt | heq
  · obtain ⟨e, he⟩ := Nat.exists_eq_succ_of_ne_zero (Nat.ne_zero_of_lt hlt)
    calc f.units m < 2 ^ f.fractionBits * 2 ^ (m / 2 ^ f.fractionBits) := units_lt f m
      _ ≤ 2 ^ f.fractionBits * 2 ^ e :=
        Nat.mul_le_mul_left _ (Nat.pow_le_pow_right (by omega) (by omega))
      _ ≤ f.units n := le_units he
  · have hm := Nat.div_add_mod m (2 ^ f.fractionBits)
    have hn := Nat.div_add_mod n (2 ^ f.fractionBits)
    rw [heq] at hm
    unfold units
    rw [heq]
    split
    · exact h
    · exact Nat.mul_lt_mul_of_pos_right (by omega) (Nat.two_pow_pos _)

@[simp] theorem units_zero (f : Format) : f.units 0 = 0 := by simp [units]

theorem units_pos (h : 0 < m) : 0 < f.units m := f.units_zero ▸ units_lt_units h

end Format

/-! ## Numbers -/

namespace RealKey

/-- A number and its key are equally large. -/
theorem signedUnits_of_ofSingle {x : Single} {k : RealKey} (h : ofSingle x = .ok k) :
    x.signedUnits = k.value.signedUnits := by
  unfold ofSingle at h
  split at h
  · split at h
    · rename_i hz
      simp only [Except.ok.injEq] at h
      subst h
      have : x.magnitude.val = 0 := by simpa [Binary.isZero] using hz
      simp [Binary.signedUnits, Binary.units, this, zero, Binary.zero]
    · simp only [Except.ok.injEq] at h
      rw [← h]
  · simp at h

theorem signedUnits_lt_of_ordinal_lt {a b : RealKey} (h : a.ordinal < b.ordinal) :
    a.value.signedUnits < b.value.signedUnits := by
  unfold ordinal at h
  unfold Binary.signedUnits Binary.units
  cases ha : a.value.negative <;> cases hb : b.value.negative <;>
    simp only [ha, hb, if_true, if_false, Bool.false_eq_true] at h ⊢
  · have := Format.units_lt_units (f := .single) (Int.ofNat_lt.1 h)
    omega
  · omega
  · -- one of the two is not zero, as a zero has no sign among keys
    rcases Nat.eq_zero_or_pos a.value.magnitude.val with hz | hz
    · have := Format.units_pos (f := .single) (m := b.value.magnitude) (by omega)
      omega
    · have := Format.units_pos (f := .single) hz
      omega
  · have := Format.units_lt_units (f := .single) (m := b.value.magnitude)
      (n := a.value.magnitude) (by omega)
    omega

/-- Numbers are ordered as the ordinals of their keys. -/
theorem compare_signedUnits (a b : RealKey) :
    compare a.value.signedUnits b.value.signedUnits = compare a.ordinal b.ordinal := by
  rcases Int.lt_trichotomy a.ordinal b.ordinal with h | h | h
  · rw [Int.compare_eq_lt.2 h, Int.compare_eq_lt.2 (signedUnits_lt_of_ordinal_lt h)]
  · rw [ordinal_inj h, Std.ReflOrd.compare_self, Std.ReflOrd.compare_self]
  · rw [Int.compare_eq_gt.2 h, Int.compare_eq_gt.2 (signedUnits_lt_of_ordinal_lt h)]

end RealKey

/-! ## Values -/

namespace Value

theorem compare_swap {v w : Value} {o : Ordering} (h : v.compare w = .ok o) :
    w.compare v = .ok o.swap := by
  cases v <;> cases w <;> simp only [compare, reduceCtorEq] at h ⊢
  · obtain rfl := Except.ok.inj h
    exact congrArg _ Std.OrientedCmp.eq_swap
  · split at h
    · rename_i hfinite
      obtain rfl := Except.ok.inj h
      rw [Bool.and_comm] at hfinite
      rw [if_pos hfinite]
      exact congrArg _ Std.OrientedCmp.eq_swap
    · simp at h
  · obtain rfl := Except.ok.inj h
    exact congrArg _ Std.OrientedCmp.eq_swap

end Value

namespace Key

variable {v w : Value} {k l : Key} {t : DataType}

theorem typed_eq_ok_iff :
    typed v t = .ok k ↔ v.dataType = t ∧ ofValue v = .ok k := by
  unfold typed Value.expectType
  by_cases h : v.dataType = t <;> simp [h, bind, Except.bind]

theorem dataType_of_typed (h : typed v t = .ok k) : v.dataType = t := (typed_eq_ok_iff.1 h).1

/-- A finite value has a key. -/
theorem exists_ofValue (h : v.isFinite = true) : ∃ k, ofValue v = .ok k := by
  cases v with
  | integer n => exact ⟨_, rfl⟩
  | text bytes => exact ⟨_, rfl⟩
  | real x =>
    have hx : x.isFinite = true := h
    by_cases hz : x.isZero = true <;> simp [ofValue, RealKey.ofSingle, hx, hz, Except.map]

theorem exists_typed (ht : v.dataType = t) (h : v.isFinite = true) : ∃ k, typed v t = .ok k := by
  obtain ⟨k, hk⟩ := exists_ofValue h
  exact ⟨k, typed_eq_ok_iff.2 ⟨ht, hk⟩⟩

theorem isFinite_of_typed (h : typed v t = .ok k) : v.isFinite = true := by
  have hk := (typed_eq_ok_iff.1 h).2
  cases v with
  | integer n => rfl
  | text bytes => rfl
  | real x =>
    cases hx : x.isFinite with
    | true => exact hx
    | false => simp [ofValue, RealKey.ofSingle, hx, Except.map] at hk

theorem typed_eq_nonFiniteReal (ht : v.dataType = t) (h : v.isFinite = false) :
    typed v t = .error .nonFiniteReal := by
  cases v with
  | integer n => simp [Value.isFinite] at h
  | text bytes => simp [Value.isFinite] at h
  | real x =>
    have hx : x.isFinite = false := h
    simp [typed, Value.expectType, ht, ofValue, RealKey.ofSingle, hx, Except.map, bind, Except.bind]

/-- The value that a key stands for has that key. -/
theorem typed_toValue (k : Key) : typed k.toValue k.dataType = .ok k := by
  refine typed_eq_ok_iff.2 ⟨by cases k <;> rfl, ?_⟩
  cases k with
  | integer n => rfl
  | text bytes => rfl
  | real x =>
    obtain ⟨value, hfinite, hzero⟩ := x
    have hx : RealKey.ofSingle value = .ok ⟨value, hfinite, hzero⟩ := by
      unfold RealKey.ofSingle
      rw [dif_pos hfinite]
      split
      · rename_i hz
        have hm : value.magnitude.val = 0 := by simpa [Binary.isZero] using hz
        have hs : value.negative = false := by
          cases hs : value.negative with
          | false => rfl
          | true => exact (hzero (Binary.ext hs (Fin.ext hm))).elim
        have hvalue : value = .zero false := Binary.ext hs (Fin.ext hm)
        subst hvalue
        rfl
      · rfl
    simp only [toValue, ofValue, hx, Except.map]

theorem dataType_of_ofValue (h : ofValue v = .ok k) : k.dataType = v.dataType := by
  cases v with
  | integer n => exact Except.ok.inj h ▸ rfl
  | text bytes => exact Except.ok.inj h ▸ rfl
  | real x =>
    cases hx : RealKey.ofSingle x with
    | error e => simp [ofValue, hx, Except.map] at h
    | ok y =>
      simp only [ofValue, hx, Except.map, Except.ok.injEq] at h
      rw [← h]
      rfl

theorem typed_toValue_of_typed (h : typed v t = .ok k) : typed k.toValue t = .ok k := by
  have hself := typed_toValue k
  rwa [dataType_of_ofValue (typed_eq_ok_iff.1 h).2, dataType_of_typed h] at hself

theorem compare_integer (m n : Int32) :
    Ord.compare (integer m) (integer n) = Ord.compare m.toInt n.toInt := by
  show (Ord.compare 0 0).then ((Ord.compare m.toInt n.toInt).then
    (Ord.compare ([] : List UInt8) [])) = _
  simp

theorem compare_real (a b : RealKey) :
    Ord.compare (real a) (real b) = Ord.compare a.ordinal b.ordinal := by
  show (Ord.compare 1 1).then ((Ord.compare a.ordinal b.ordinal).then
    (Ord.compare ([] : List UInt8) [])) = _
  simp

theorem compare_text (s t : List UInt8) :
    Ord.compare (text s) (text t) = Ord.compare s t := by
  show (Ord.compare 2 2).then ((Ord.compare (0 : Int) 0).then (Ord.compare s t)) = _
  simp

/-- Values with keys of one type compare as their keys do. -/
theorem compare_of_typed (hv : typed v t = .ok k) (hw : typed w t = .ok l) :
    v.compare w = .ok (Ord.compare k l) := by
  obtain ⟨ht, hk⟩ := typed_eq_ok_iff.1 hv
  obtain ⟨ht', hl⟩ := typed_eq_ok_iff.1 hw
  have hfv := isFinite_of_typed hv
  have hfw := isFinite_of_typed hw
  rw [← ht'] at ht
  cases v <;> cases w <;> simp only [Value.dataType, reduceCtorEq] at ht
  · simp only [ofValue, Except.ok.injEq] at hk hl
    subst hk hl
    rw [compare_integer]
    rfl
  · rename_i x y
    simp only [Value.isFinite] at hfv hfw
    cases hx : RealKey.ofSingle x with
    | error e => simp [ofValue, hx, Except.map] at hk
    | ok a =>
      cases hy : RealKey.ofSingle y with
      | error e => simp [ofValue, hy, Except.map] at hl
      | ok b =>
        simp only [ofValue, hx, hy, Except.map, Except.ok.injEq] at hk hl
        subst hk hl
        simp only [Value.compare, hfv, hfw, Bool.and_self, if_true,
          RealKey.signedUnits_of_ofSingle hx, RealKey.signedUnits_of_ofSingle hy,
          RealKey.compare_signedUnits, compare_real]
  · simp only [ofValue, Except.ok.injEq] at hk hl
    subst hk hl
    rw [compare_text]
    rfl

/-- The value that a key stands for is as large as those that have the key. -/
theorem toValue_compare (h : typed v t = .ok k) : k.toValue.compare v = .ok .eq := by
  rw [compare_of_typed (typed_toValue_of_typed h) h, Std.ReflOrd.compare_self]

/-- A finite value and one of its type that is not do not compare. -/
theorem compare_eq_error (ht : v.dataType = w.dataType) (hv : v.isFinite = false) :
    v.compare w = .error .nonFiniteReal := by
  cases v <;> cases w <;> simp only [Value.dataType, reduceCtorEq, Value.isFinite] at ht hv
  simp [Value.compare, hv]

end Key

end QueryEngine
