import QueryEngine.Key.Partition
import QueryEngine.Proofs.Key.Order
import QueryEngine.Proofs.Numeric.Rational

/-!
# Keys stand for values

Grouping, hashing and indexes use the order and the equality of keys in place of those of values.
What values mean decides what both come to: integers and reals are numbers, and texts are words in
the order of a dictionary.

* `Value.order`: the order of values by what they mean; `Value.compare_eq` says that comparing
  values finds it.
* `Binary.place`: the order of all patterns; `RealKey.compare_ordinal` says that the keys of reals
  keep to it.
* `Key.faithful`: the order and the equality of keys are those of values.
-/

namespace QueryEngine

namespace Binary

variable {f : Format}

/-- The place of a pattern in the order of all patterns: those with a sign come first, and among
them the larger magnitudes. -/
def place (x : Binary f) : Int :=
  if x.negative then -(x.magnitude.val : Int) - 1 else x.magnitude.val

theorem isFinite_eq (x : Binary f) : x.isFinite = (!x.isNaN && !x.isInfinite) := by
  unfold isFinite isNaN isInfinite
  rcases Nat.lt_trichotomy x.magnitude.val f.infinity with h | h | h
  · simp [h, Nat.lt_asymm h, Nat.ne_of_lt h]
  · simp [h]
  · simp [h, Nat.lt_asymm h, Nat.ne_of_gt h]

end Binary

/-- Keys of reals are ordered as their patterns. There is only one zero among them, so it does not
matter that patterns tell two. -/
theorem RealKey.compare_ordinal (a b : RealKey) :
    compare a.ordinal b.ordinal = compare a.value.place b.value.place := by
  have hplace : ∀ k : RealKey, k.value.place =
      if k.value.negative then k.ordinal - 1 else k.ordinal := by
    intro k
    unfold Binary.place ordinal
    split <;> rfl
  have hsign : ∀ k : RealKey, k.value.negative = true ↔ k.ordinal < 0 := by
    rintro ⟨⟨negative, magnitude⟩, -, hzero⟩
    cases negative with
    | false => simp [ordinal]
    | true =>
      have hne : magnitude.val ≠ 0 := fun h => hzero (Binary.ext rfl (Fin.ext h))
      simp only [ordinal, if_true, true_iff]
      omega
  rw [hplace, hplace]
  simp only [hsign]
  rcases Int.lt_trichotomy a.ordinal b.ordinal with h | h | h
  · rw [Int.compare_eq_lt.2 h, Int.compare_eq_lt.2 (by split <;> split <;> omega)]
  · rw [h, Std.ReflOrd.compare_self, Std.ReflOrd.compare_self]
  · rw [Int.compare_eq_gt.2 h, Int.compare_eq_gt.2 (by split <;> split <;> omega)]

/-! ## What values mean -/

namespace Value

/-- A value is finite unless it is a real that is no number or an infinite one. -/
theorem isFinite_iff {v : Value} :
    v.isFinite = true ↔ ∀ x, v = .real x → x.isNaN = false ∧ x.isInfinite = false := by
  cases v <;> simp [isFinite, Binary.isFinite_eq]

/-- The order of two values by what they mean: numbers by size, and texts by the first byte in
which they differ. -/
def order : Value → Value → Except Error Ordering
  | integer m, integer n => .ok (cmp m.toInt n.toInt)
  | real x, real y =>
    if x.isNaN || x.isInfinite || y.isNaN || y.isInfinite then .error .nonFiniteReal
    else .ok (cmp x.toRat y.toRat)
  | text s, text t => .ok (cmp s t)
  | v, w => .error (.typeMismatch v.dataType w.dataType)

/-- Comparing texts byte by byte finds the order of the dictionary. -/
theorem compare_bytes (s t : List UInt8) : Ord.compare s t = cmp s t := by
  induction s generalizing t with
  | nil => cases t <;> rfl
  | cons a s ih =>
    cases t with
    | nil => rfl
    | cons b t =>
      have hcons : Ord.compare (a :: s) (b :: t) = (Ord.compare a b).then (Ord.compare s t) :=
        List.compareLex_cons_cons
      rw [hcons, ih, cmp, cmpUsing, cmp, cmpUsing]
      simp only [List.cons_lt_cons_iff]
      cases h : Ord.compare a b with
      | lt => simp [Std.compare_eq_lt.1 h]
      | eq =>
        obtain rfl := Std.LawfulEqOrd.eq_of_compare h
        simp
      | gt =>
        have hgt : b < a := Std.compare_eq_gt.1 h
        have hne : a ≠ b := fun he => UInt8.lt_irrefl b (he ▸ hgt)
        simp [UInt8.lt_asymm hgt, hne, hgt]

/-- **Comparing values finds the order of what they mean.** -/
theorem compare_eq (v w : Value) : v.compare w = v.order w := by
  cases v <;> cases w <;> try rfl
  case integer.integer m n => exact congrArg _ (cmp_eq_compare _ _).symm
  case real.real x y =>
    have hf : 2 ≤ Format.single.exponentBits := by decide
    rw [compare, order, Binary.isFinite_eq, Binary.isFinite_eq, Binary.compare_signedUnits hf]
    cases x.isNaN <;> cases x.isInfinite <;> cases y.isNaN <;> cases y.isInfinite <;> rfl
  case text.text s t => exact congrArg _ (compare_bytes s t)

end Value

/-! ## Keys in place of values -/

namespace Key

variable {u v w : Value} {t : DataType} {k l : Key} {o o' : Ordering}

theorem exists_typed_iff :
    (∃ k, typed v t = .ok k) ↔
      v.dataType = t ∧ ∀ x, v = .real x → x.isNaN = false ∧ x.isInfinite = false := by
  rw [← Value.isFinite_iff]
  exact ⟨fun ⟨_, h⟩ => ⟨dataType_of_typed h, isFinite_of_typed h⟩,
    fun ⟨htype, hfinite⟩ => exists_typed htype hfinite⟩

/-- Values that compare have keys of one type. -/
theorem exists_of_compare (h : v.compare w = .ok o) :
    ∃ t k l, typed v t = .ok k ∧ typed w t = .ok l := by
  have hcommon : v.dataType = w.dataType ∧ v.isFinite = true ∧ w.isFinite = true := by
    cases v <;> cases w <;> simp only [Value.compare, reduceCtorEq] at h
    · exact ⟨rfl, rfl, rfl⟩
    · split at h
      · rename_i hfinite
        rw [Bool.and_eq_true] at hfinite
        exact ⟨rfl, hfinite⟩
      · cases h
    · exact ⟨rfl, rfl, rfl⟩
  obtain ⟨htype, hv, hw⟩ := hcommon
  obtain ⟨k, hk⟩ := exists_typed htype hv
  obtain ⟨l, hl⟩ := exists_typed rfl hw
  exact ⟨_, k, l, hk, hl⟩

theorem compare_eq_iff (hv : typed v t = .ok k) (hw : typed w t = .ok l) :
    k = l ↔ v.compare w = .ok .eq := by
  rw [compare_of_typed hv hw, Except.ok.injEq, Std.LawfulEqOrd.compare_eq_iff_eq]

/-- A value that is not more than one that is not more than a third is not more than the third. -/
theorem compare_trans (huv : u.compare v = .ok o) (hvw : v.compare w = .ok o')
    (ho : o.isLE = true) (ho' : o'.isLE = true) : u.compare w = .ok (o.then o') := by
  obtain ⟨t, k, l, hu, hv⟩ := exists_of_compare huv
  obtain ⟨t', l', m, hv', hw⟩ := exists_of_compare hvw
  obtain rfl : t = t' := (dataType_of_typed hv).symm.trans (dataType_of_typed hv')
  obtain rfl : l = l' := Except.ok.inj (hv.symm.trans hv')
  rw [compare_of_typed hu hv] at huv
  rw [compare_of_typed hv hw] at hvw
  obtain rfl := Except.ok.inj huv
  obtain rfl := Except.ok.inj hvw
  rw [compare_of_typed hu hw]
  congr 1
  cases hkl : Ord.compare k l with
  | lt =>
    have hlm := Std.TransCmp.lt_of_lt_of_isLE hkl ho'
    exact hlm
  | eq =>
    obtain rfl := Std.LawfulEqOrd.eq_of_compare hkl
    rfl
  | gt => simp [hkl] at ho

/-- Keys can be used in place of values. -/
structure Faithful : Prop where
  /-- A value has a key of its own type, unless it is a real that is no number or infinite. -/
  keyed : ∀ v t, (∃ k, typed v t = .ok k) ↔
    v.dataType = t ∧ ∀ x, v = .real x → x.isNaN = false ∧ x.isInfinite = false
  /-- Two values compare if they have keys of one type. -/
  compares : ∀ v w, (∃ o, Value.compare v w = .ok o) ↔
    ∃ t k l, typed v t = .ok k ∧ typed w t = .ok l
  order : ∀ v w t k l, typed v t = .ok k → typed w t = .ok l →
    v.compare w = .ok (Ord.compare k l)
  equality : ∀ v w t k l, typed v t = .ok k → typed w t = .ok l →
    (k = l ↔ v.compare w = .ok .eq)
  /-- Equal values fall into one partition, whatever the hash. -/
  partitions : ∀ hash v w t k l, typed v t = .ok k → typed w t = .ok l →
    v.compare w = .ok .eq → ∀ n, k.partition hash n = l.partition hash n
  toValue : ∀ v t k, typed v t = .ok k → k.toValue.compare v = .ok .eq
  /-- The keys of reals are in the order of all patterns. -/
  patterns : ∀ a b, Ord.compare (real a) (real b) = Ord.compare a.value.place b.value.place
  /-- Values are in the order of what they mean. -/
  meaning : ∀ v w, Value.compare v w = v.order w
  refl : ∀ v t k, typed v t = .ok k → v.compare v = .ok .eq
  swap : ∀ v w o, Value.compare v w = .ok o → w.compare v = .ok o.swap
  trans : ∀ u v w o o', Value.compare u v = .ok o → v.compare w = .ok o' → o.isLE = true →
    o'.isLE = true → u.compare w = .ok (o.then o')

/-- **The order and the equality of keys are those of values.** -/
theorem faithful : Faithful where
  keyed _ _ := exists_typed_iff
  compares _ _ := ⟨fun ⟨_, h⟩ => exists_of_compare h,
    fun ⟨_, _, _, hv, hw⟩ => ⟨_, compare_of_typed hv hw⟩⟩
  order _ _ _ _ _ := compare_of_typed
  equality _ _ _ _ _ := compare_eq_iff
  partitions hash v w t k l hv hw h n := by
    rw [(compare_eq_iff hv hw).2 h]
  toValue _ _ _ := toValue_compare
  patterns a b := (compare_real a b).trans (RealKey.compare_ordinal a b)
  meaning := Value.compare_eq
  refl v t k h := by
    rw [compare_of_typed h h, Std.ReflOrd.compare_self]
  swap _ _ _ := Value.compare_swap
  trans _ _ _ _ _ := compare_trans

end Key

end QueryEngine
