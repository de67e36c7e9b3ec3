import QueryEngine.Predicate
import QueryEngine.Proofs.Attribute
import QueryEngine.Proofs.Key.Order
import QueryEngine.Proofs.Tuple.Layout

/-!
# Which pairs are joined

`JoinPredicate.joins` says it by the order of two values. Joins find it out in ways of their own:
by comparing, by looking up, or by equality of keys.

* `Condition.exists_of_bind`, `Condition.exists_of_bindJoin`: what a condition is once it is bound.
* `JoinPredicate.evaluate_of_comparable`: comparing a pair that can be compared.
* `JoinPredicate.joins_of_keys`: pairs by their keys.
-/

namespace QueryEngine

namespace Condition

variable {c : Condition} {schema left right : Schema}

theorem eq_of_checkTypes {a b : DataType} (h : c.checkTypes a b = .ok ()) :
    c.comparator.needsValue = true → a = b := by
  intro hn
  rw [checkTypes, refuse_eq_ok_iff] at h
  exact Decidable.not_not.1 fun hab => h.1 ⟨hn, hab⟩

/-- What a condition is once it is bound to a schema. -/
theorem exists_of_bind {p : Predicate} (h : c.bind schema = .ok p) :
    ∃ a, schema.find c.left = .ok (p.left, a) ∧ p.layout = { schema } ∧
      p.comparator = c.comparator ∧
      ((∃ name j b, c.right = .column name ∧ p.right = .field j ∧ schema.find name = .ok (j, b) ∧
          (c.comparator.needsValue = true → a.dataType = b.dataType)) ∨
        ∃ v, c.right = .literal v ∧ p.right = .literal v ∧
          (c.comparator.needsValue = true → a.dataType = v.dataType)) := by
  obtain ⟨⟨i, a⟩, ha, h⟩ := bind_eq_ok_iff.1 h
  refine ⟨a, ?_⟩
  cases hright : c.right with
  | column name =>
    simp only [hright, bind_eq_ok_iff, Prod.exists, pure_eq_ok, Except.ok.injEq] at h
    obtain ⟨j, b, hb, _, htypes, rfl⟩ := h
    exact ⟨ha, rfl, rfl, .inl ⟨name, j, b, rfl, rfl, hb, eq_of_checkTypes htypes⟩⟩
  | literal v =>
    simp only [hright, bind_eq_ok_iff, pure_eq_ok, Except.ok.injEq] at h
    obtain ⟨_, htypes, rfl⟩ := h
    exact ⟨ha, rfl, rfl, .inr ⟨v, rfl, rfl, eq_of_checkTypes htypes⟩⟩

/-- What a condition is once it is bound to two schemas. -/
theorem exists_of_bindJoin {p : JoinPredicate} (h : c.bindJoin left right = .ok p) :
    ∃ name a b, c.right = .column name ∧ left.find c.left = .ok (p.leftPosition, a) ∧
      right.find name = .ok (p.rightPosition, b) ∧
      (c.comparator.needsValue = true → a.dataType = b.dataType) ∧
      p.left = { schema := left } ∧ p.right = { schema := right } ∧
      p.comparator = c.comparator ∧ p.keyType = a.dataType := by
  unfold bindJoin at h
  split at h
  · simp at h
  · rename_i name hname
    simp only [bind_eq_ok_iff, Prod.exists, pure_eq_ok, Except.ok.injEq] at h
    obtain ⟨i, a, hi, j, b, hj, _, htypes, rfl⟩ := h
    exact ⟨name, a, b, hname, hi, hj, eq_of_checkTypes htypes, rfl, rfl, rfl, rfl⟩

end Condition

/-- Only reals may be infinite. -/
theorem Value.isFinite_of_text {v : Value} (h : v.dataType = .text) : v.isFinite = true := by
  cases v with
  | text bytes => rfl
  | integer n => rfl
  | real x => cases h

namespace JoinPredicate

variable {p : JoinPredicate} {l r : Tuple} {v w : Value} {k k' : Key}

/-- Whether a pair of tuples stands in the relation of the predicate. -/
def joins (p : JoinPredicate) (l r : Tuple) : Bool :=
  !p.comparator.needsValue ||
    match p.leftValue l, p.rightValue r with
    | .ok v, .ok w =>
      match v.compare w with
      | .ok o => p.comparator.holds o
      | .error _ => false
    | _, _ => false

/-- Whether a pair of tuples can be compared, if it has to be. -/
def Comparable (p : JoinPredicate) (l r : Tuple) : Prop :=
  p.comparator.needsValue = true →
    ∃ v w o, p.leftValue l = .ok v ∧ p.rightValue r = .ok w ∧ v.compare w = .ok o

theorem joins_of_not_needsValue (h : p.comparator.needsValue = false) : p.joins l r = true := by
  rw [joins, h]
  rfl

theorem joins_of_compare {o : Ordering} (hv : p.leftValue l = .ok v) (hw : p.rightValue r = .ok w)
    (ho : v.compare w = .ok o) (hn : p.comparator.needsValue = true) :
    p.joins l r = p.comparator.holds o := by
  simp only [joins, hn, hv, hw, ho, Bool.not_true, Bool.false_or]

theorem evaluate_of_comparable (h : p.Comparable l r) : p.evaluate l r = .ok (p.joins l r) := by
  cases hn : p.comparator.needsValue with
  | false => rw [joins_of_not_needsValue hn, evaluate, hn, if_neg Bool.false_ne_true]
  | true =>
    obtain ⟨v, w, o, hv, hw, ho⟩ := h hn
    rw [joins_of_compare hv hw ho hn, evaluate, if_pos hn, hv, hw, ok_bind, ok_bind, ho]
    rfl

/-! ## Rows -/

variable {c : Condition} {left right : Schema}

theorem exists_leftValue (h : c.bindJoin left right = .ok p) (hl : l.IsRow left) :
    ∃ v, p.leftValue l = .ok v ∧ v.dataType = p.keyType := by
  obtain ⟨name, a, b, -, ha, -, -, hleft, -, -, hkey⟩ := c.exists_of_bindJoin h
  obtain ⟨row, hrow⟩ := hl
  obtain ⟨v, -, hv, ht⟩ := Layout.field_of_decode hrow (Schema.getElem?_of_find ha).1
  exact ⟨v, by rw [leftValue, hleft, hv], by rw [ht, hkey]⟩

theorem exists_rightValue (h : c.bindJoin left right = .ok p) (hr : r.IsRow right) :
    ∃ w, p.rightValue r = .ok w ∧ (p.comparator.needsValue = true → w.dataType = p.keyType) := by
  obtain ⟨name, a, b, -, -, hb, hab, -, hright, hc, hkey⟩ := c.exists_of_bindJoin h
  obtain ⟨row, hrow⟩ := hr
  obtain ⟨w, -, hw, ht⟩ := Layout.field_of_decode hrow (Schema.getElem?_of_find hb).1
  exact ⟨w, by rw [rightValue, hright, hw], fun hn => by rw [ht, hkey, hab (hc ▸ hn)]⟩

/-! ## Keys -/

/-- The key that a left tuple is joined by. -/
def leftKey (p : JoinPredicate) (t : Tuple) : Except Error Key := do
  Key.typed (← p.leftValue t) p.keyType

/-- The key that a right tuple is joined by. -/
def rightKey (p : JoinPredicate) (t : Tuple) : Except Error Key := do
  Key.typed (← p.rightValue t) p.keyType

theorem leftKey_eq_ok_iff :
    p.leftKey l = .ok k ↔ ∃ v, p.leftValue l = .ok v ∧ Key.typed v p.keyType = .ok k :=
  bind_eq_ok_iff

theorem rightKey_eq_ok_iff :
    p.rightKey r = .ok k ↔ ∃ w, p.rightValue r = .ok w ∧ Key.typed w p.keyType = .ok k :=
  bind_eq_ok_iff

/-- A row of the left schema has a key if the value that it is joined by is finite. -/
theorem exists_leftKey (h : c.bindJoin left right = .ok p) (hl : l.IsRow left)
    (hf : ∀ v, p.leftValue l = .ok v → v.isFinite = true) : ∃ k, p.leftKey l = .ok k := by
  obtain ⟨v, hv, ht⟩ := exists_leftValue h hl
  obtain ⟨k, hk⟩ := Key.exists_typed ht (hf v hv)
  exact ⟨k, leftKey_eq_ok_iff.2 ⟨v, hv, hk⟩⟩

theorem exists_rightKey (h : c.bindJoin left right = .ok p) (hn : p.comparator.needsValue = true)
    (hr : r.IsRow right) (hf : ∀ w, p.rightValue r = .ok w → w.isFinite = true) :
    ∃ k, p.rightKey r = .ok k := by
  obtain ⟨w, hw, ht⟩ := exists_rightValue h hr
  obtain ⟨k, hk⟩ := Key.exists_typed (ht hn) (hf w hw)
  exact ⟨k, rightKey_eq_ok_iff.2 ⟨w, hw, hk⟩⟩

/-- Pairs by their keys. -/
theorem joins_of_keys (hl : p.leftKey l = .ok k) (hr : p.rightKey r = .ok k')
    (hn : p.comparator.needsValue = true) : p.joins l r = p.comparator.holds (compare k k') := by
  obtain ⟨v, hv, hk⟩ := leftKey_eq_ok_iff.1 hl
  obtain ⟨w, hw, hk'⟩ := rightKey_eq_ok_iff.1 hr
  exact joins_of_compare hv hw (Key.compare_of_typed hk hk') hn

theorem comparable_of_keys (hl : p.leftKey l = .ok k) (hr : p.rightKey r = .ok k') :
    p.Comparable l r := by
  intro _
  obtain ⟨v, hv, hk⟩ := leftKey_eq_ok_iff.1 hl
  obtain ⟨w, hw, hk'⟩ := rightKey_eq_ok_iff.1 hr
  exact ⟨v, w, _, hv, hw, Key.compare_of_typed hk hk'⟩

/-- Pairs joined by equality have one key. -/
theorem joins_iff_of_eq (hl : p.leftKey l = .ok k) (hr : p.rightKey r = .ok k')
    (hc : p.comparator = .eq) : p.joins l r = true ↔ k = k' := by
  rw [joins_of_keys hl hr (by rw [hc]; rfl), hc, Comparator.holds, beq_iff_eq,
    Std.LawfulEqOrd.compare_eq_iff_eq]

end JoinPredicate

end QueryEngine
