import QueryEngine.Value.Order

/-!
# Keys

Values themselves are not totally ordered, so grouping, partitioning and indexes work on keys. A
key is a value that is finite, with one zero: negative zero becomes the positive one, and then two
values of one type are equal exactly when their keys are the same.

* `Key.ofValue`, `Key.typed`: the key of a value, of any type or of a given one.
* `Key.toValue`: the value a key stands for.
* `Key.lt_trans`, `Key.lt_irrefl`, `Key.lt_trichotomy`: keys are totally ordered, first by type and
  then by size or content.
-/

namespace QueryEngine

/-- A finite number other than negative zero. -/
structure RealKey where
  value : Single
  isFinite : value.isFinite = true
  ne_negative_zero : value ≠ .zero true
  deriving DecidableEq, Repr

namespace RealKey

def zero : RealKey := ⟨.zero false, by decide, by decide⟩

/-- The key of a number, unless it is infinite or no number at all. -/
def ofSingle (x : Single) : Except Error RealKey :=
  if h : x.isFinite = true then
    if hz : x.isZero = true then .ok zero
    else .ok ⟨x, h, fun he => hz (he ▸ by decide)⟩
  else .error .nonFiniteReal

/-- The place of a number among all of them: magnitudes are ordered like the numbers they stand
for. -/
def ordinal (k : RealKey) : Int :=
  if k.value.negative then -(k.value.magnitude.val : Int) else k.value.magnitude.val

theorem ordinal_inj {a b : RealKey} (h : a.ordinal = b.ordinal) : a = b := by
  obtain ⟨⟨sa, ma, _⟩, _, hza⟩ := a
  obtain ⟨⟨sb, mb, _⟩, _, hzb⟩ := b
  simp only [ordinal] at h
  simp only [Binary.zero, ne_eq, Binary.mk.injEq, not_and, Fin.mk.injEq] at hza hzb
  simp only [RealKey.mk.injEq, Binary.mk.injEq, Fin.mk.injEq]
  cases sa <;> cases sb <;> simp at h hza hzb ⊢ <;> omega

end RealKey

/-- A value that can be looked up and put in order. -/
inductive Key where
  | integer (n : Int32)
  | real (x : RealKey)
  | text (bytes : List UInt8)
  deriving DecidableEq, Repr

namespace Key

def dataType : Key → DataType
  | integer _ => .integer
  | real _ => .real
  | text _ => .text

/-- The key of a value. -/
def ofValue : Value → Except Error Key
  | .integer n => .ok (integer n)
  | .real x => (RealKey.ofSingle x).map real
  | .text bytes => .ok (text bytes)

/-- The key of a value that has to be of the given type. -/
def typed (v : Value) (expected : DataType) : Except Error Key := do
  v.expectType expected
  ofValue v

def toValue : Key → Value
  | integer n => .integer n
  | real x => .real x.value
  | text bytes => .text bytes

/-! ## The order of keys -/

/-- What orders the numbers among the keys of one type. -/
def number : Key → Int
  | integer n => n.toInt
  | real x => x.ordinal
  | text _ => 0

/-- What orders the texts. -/
def content : Key → List UInt8
  | text bytes => bytes
  | _ => []

/-- By type, then by number, then by content. -/
def compare : Key → Key → Ordering :=
  compareLex (compareOn (·.dataType.code)) (compareLex (compareOn number) (compareOn content))

instance : Ord Key := ⟨compare⟩

instance : Std.TransOrd Key := inferInstanceAs (Std.TransCmp (compareLex _ (compareLex _ _)))

instance : Std.LawfulEqOrd Key where
  eq_of_compare {a b} h := by
    change compareLex _ (compareLex _ _) a b = .eq at h
    simp only [compareLex_eq_eq, compareOn, Std.LawfulEqOrd.compare_eq_iff_eq] at h
    obtain ⟨ht, hn, hc⟩ := h
    cases a <;> cases b <;> simp [dataType, DataType.code] at ht <;>
      simp only [number, content] at hn hc
    · rw [Int32.toInt_inj.1 hn]
    · rw [RealKey.ordinal_inj hn]
    · rw [hc]

instance : LT Key := ⟨fun a b => compare a b = .lt⟩

instance : DecidableLT Key := fun a b => inferInstanceAs (Decidable (compare a b = .lt))

theorem lt_iff_compare {a b : Key} : a < b ↔ Ord.compare a b = .lt := Iff.rfl

theorem lt_trans {a b c : Key} (hab : a < b) (hbc : b < c) : a < c :=
  lt_iff_compare.2 (Std.TransCmp.lt_trans (lt_iff_compare.1 hab) (lt_iff_compare.1 hbc))

theorem lt_irrefl (a : Key) : ¬ a < a := by
  rw [lt_iff_compare, Std.ReflOrd.compare_self]
  decide

theorem lt_asymm {a b : Key} (h : a < b) : ¬ b < a := fun hba => lt_irrefl a (lt_trans h hba)

theorem lt_trichotomy (a b : Key) : a < b ∨ a = b ∨ b < a := by
  cases h : Ord.compare a b with
  | lt => exact .inl h
  | eq => exact .inr (.inl (Std.LawfulEqOrd.eq_of_compare h))
  | gt => exact .inr (.inr (lt_iff_compare.2 (Std.OrientedCmp.lt_of_gt h)))

end Key

end QueryEngine
