import QueryEngine.KeyRange
import QueryEngine.Proofs.Key.Faithful
import QueryEngine.Proofs.Key.Map
import QueryEngine.Proofs.Key.Order
import QueryEngine.Proofs.Outcome

/-!
# Ranges and the keys in them

A range is a matter of values, the interval that an index reads for it one of keys. They agree on
what is in them (`KeyRange.contains_eq`). There is one unless a bound does not fit the index
(`KeyRange.exists_interval?_iff`).

A comparator is looked up range by range. The ranges of a value are intervals of keys, and the
entries of a sorted list that lie in them, one interval after the other, are those whose keys stand
in the relation asked for, in the order of the list. Among values, the ranges cover each one that
matches once.

* `Comparator.interval?_lookupRanges`: the intervals of the ranges.
* `Comparator.flatMap_lookupIntervals`: the entries that are found.
* `Comparator.lookupRanges_cover`: the values that are in the ranges.
-/

namespace QueryEngine

namespace Comparator

variable {c : Comparator} {v : Value} {t : DataType} {k l : Key}

/-- The intervals, in ascending order, of the keys to which a key stands in the relation. -/
def lookupIntervals (c : Comparator) (k : Key) : List Interval :=
  match c with
  | .eq => [⟨.included k, .included k⟩]
  | .ne => [⟨.unbounded, .excluded k⟩, ⟨.excluded k, .unbounded⟩]
  | .lt => [⟨.excluded k, .unbounded⟩]
  | .le => [⟨.included k, .unbounded⟩]
  | .gt => [⟨.unbounded, .excluded k⟩]
  | .ge => [⟨.unbounded, .included k⟩]
  | .always => [.all]

/-- The ranges of a value are the intervals of its key. -/
theorem interval?_lookupRanges (c : Comparator) (hk : Key.typed v t = .ok k) :
    (c.lookupRanges v).map (·.interval? t) = (c.lookupIntervals k).map (.ok ∘ some) := by
  have hself : decide (k < k) = false := decide_eq_false (Key.lt_irrefl k)
  cases c <;>
    simp [lookupRanges, lookupIntervals, KeyRange.interval?, KeyRange.bound, KeyRange.point,
      KeyRange.above, KeyRange.below, KeyRange.all, Interval.crossed, Interval.all, hk, hself,
      Except.map]

/-- A value without a key is refused at the first of its ranges. -/
theorem exists_lookupRanges_error {e : Error} (hc : c.needsValue = true)
    (hv : Key.typed v t = .error e) :
    ∃ range ranges, c.lookupRanges v = range :: ranges ∧ range.interval? t = .error e := by
  cases c with
  | always => simp [needsValue] at hc
  | _ =>
    exact ⟨_, _, rfl, by
      simp [KeyRange.interval?, KeyRange.bound, KeyRange.point, KeyRange.above, KeyRange.below, hv,
        Except.map]⟩

theorem decide_lt (k l : Key) : decide (k < l) = (compare k l == .lt) := by
  rw [Bool.eq_iff_iff, decide_eq_true_iff, beq_iff_eq, Key.lt_iff_compare]

theorem decide_gt (k l : Key) : decide (l < k) = (compare k l == .gt) := by
  have hswap : compare l k = (compare k l).swap := Std.OrientedCmp.eq_swap
  rw [decide_lt, hswap]
  cases compare k l <;> rfl

/-- Entries of two kinds, of which the one comes before the other. -/
theorem filter_append_filter {α : Type} {p q : α → Bool} {list : List α}
    (h : list.Pairwise fun a b => q a = true → p b = false)
    (hpq : ∀ a, p a = true → q a = false) :
    list.filter p ++ list.filter q = list.filter fun a => p a || q a := by
  induction list with
  | nil => rfl
  | cons a list ih =>
    obtain ⟨ha, hlist⟩ := List.pairwise_cons.1 h
    cases hp : p a with
    | true => simp [hp, hpq a hp, ih hlist]
    | false =>
      cases hq : q a with
      | false => simp [hp, hq, ih hlist]
      | true =>
        have hnone : list.filter p = [] := List.filter_eq_nil_iff.2 fun b hb => by
          simp [ha b hb hq]
        have hsame : list.filter (fun b => p b || q b) = list.filter q :=
          List.filter_congr fun b hb => by simp [ha b hb hq]
        simp [hp, hq, hnone, hsame]

/-- **Looking up ranges finds the entries that match**, in the order of their list. -/
theorem flatMap_lookupIntervals {α : Type} (c : Comparator) (k : Key) {list : List (Key × α)}
    (h : list.Pairwise fun e f => ¬f.1 < e.1) :
    ((c.lookupIntervals k).flatMap fun i => list.filter (i.contains ·.1)) =
      list.filter fun e => c.holds (compare k e.1) := by
  cases c
  case ne =>
    simp only [lookupIntervals, List.flatMap_cons, List.flatMap_nil, List.append_nil,
      Interval.contains, Bound.below, Bound.above, Bool.true_and, Bool.and_true]
    -- past the key nothing lies below it
    have hpast : list.Pairwise fun e f => decide (k < e.1) = true → decide (f.1 < k) = false :=
      h.imp fun {e f} hef he => by
        rw [decide_eq_true_iff] at he
        exact decide_eq_false fun hf => hef (Key.lt_trans hf he)
    have hboth : ∀ e : Key × α, decide (e.1 < k) = true → decide (k < e.1) = false := by
      intro e he
      rw [decide_eq_true_iff] at he
      exact decide_eq_false (Key.lt_asymm he)
    rw [filter_append_filter hpast hboth]
    apply List.filter_congr
    intro e _
    simp only [decide_lt k, decide_gt k, holds]
    cases compare k e.1 <;> rfl
  all_goals
    simp only [lookupIntervals, List.flatMap_cons, List.flatMap_nil, List.append_nil]
    apply List.filter_congr
    intro e _
    simp only [Interval.contains, Interval.all, Bound.below, Bound.above, decide_lt k, decide_gt k,
      holds]
    cases compare k e.1 <;> rfl

end Comparator

namespace KeyRange

variable {r : KeyRange} {v : Value} {t : DataType} {k : Key} {low high : Bound}

/-- A bound on values is one on their keys. -/
theorem passesLow_eq (hlow : bound r.low r.lowInclusive t = .ok low)
    (hk : Key.typed v t = .ok k) : r.passesLow v = .ok (low.below k) := by
  unfold bound at hlow
  unfold passesLow
  cases hr : r.low with
  | none =>
    simp only [hr, Except.ok.injEq] at hlow
    rw [← hlow]
    rfl
  | some w =>
    cases hl : Key.typed w t with
    | error e => simp [hr, hl, Except.map] at hlow
    | ok l =>
      simp only [hr, hl, Except.map, Except.ok.injEq] at hlow
      simp only [Key.compare_of_typed hk hl, Except.map, ← hlow]
      cases r.lowInclusive with
      | true =>
        simp only [Bound.below, if_true, Comparator.decide_lt]
        cases compare k l <;> rfl
      | false =>
        simp only [Bound.below, Bool.false_eq_true, if_false, Comparator.decide_gt]
        cases compare k l <;> rfl

theorem passesHigh_eq (hhigh : bound r.high r.highInclusive t = .ok high)
    (hk : Key.typed v t = .ok k) : r.passesHigh v = .ok (high.above k) := by
  unfold bound at hhigh
  unfold passesHigh
  cases hr : r.high with
  | none =>
    simp only [hr, Except.ok.injEq] at hhigh
    rw [← hhigh]
    rfl
  | some w =>
    cases hl : Key.typed w t with
    | error e => simp [hr, hl, Except.map] at hhigh
    | ok l =>
      simp only [hr, hl, Except.map, Except.ok.injEq] at hhigh
      simp only [Key.compare_of_typed hk hl, Except.map, ← hhigh]
      cases r.highInclusive with
      | true =>
        simp only [Bound.above, if_true, Comparator.decide_gt]
        cases compare k l <;> rfl
      | false =>
        simp only [Bound.above, Bool.false_eq_true, if_false, Comparator.decide_lt]
        cases compare k l <;> rfl

/-- A value lies in a range if its key lies between the bounds. -/
theorem contains_eq (hlow : bound r.low r.lowInclusive t = .ok low)
    (hhigh : bound r.high r.highInclusive t = .ok high) (hk : Key.typed v t = .ok k) :
    r.contains v = .ok ((⟨low, high⟩ : Interval).contains k) := by
  rw [contains, passesLow_eq hlow hk, ok_bind, Interval.contains]
  cases low.below k with
  | true => rw [if_pos rfl, passesHigh_eq hhigh hk, Bool.true_and]
  | false => rfl

/-- What an index reads for a range whose bounds are `low` and `high`. -/
theorem interval?_eq (hlow : bound r.low r.lowInclusive t = .ok low)
    (hhigh : bound r.high r.highInclusive t = .ok high) :
    r.interval? t = .ok (if Interval.crossed low high then none else some ⟨low, high⟩) := by
  rw [interval?, hlow, ok_bind, hhigh, ok_bind, pure_eq_ok]

/-- Whether a value lies in a range that has keys of its type depends on its key. -/
theorem exists_contains {i? : Option Interval} (h : r.interval? t = .ok i?) :
    ∃ i : Interval, ∀ v k, Key.typed v t = .ok k → r.contains v = .ok (i.contains k) := by
  obtain ⟨low, hlow, hrest⟩ := bind_eq_ok_iff.1 h
  obtain ⟨high, hhigh, -⟩ := bind_eq_ok_iff.1 hrest
  exact ⟨⟨low, high⟩, fun v k hk => contains_eq hlow hhigh hk⟩

/-- The bounds of a range have keys of a type: they are finite values of it. -/
def Fits (r : KeyRange) (t : DataType) : Prop :=
  ∀ v, r.low = some v ∨ r.high = some v → v.dataType = t ∧ v.isFinite = true

theorem exists_bound_iff_fits {v? : Option Value} {inclusive : Bool} :
    (∃ b, bound v? inclusive t = .ok b) ↔
      ∀ v, v? = some v → v.dataType = t ∧ v.isFinite = true := by
  cases v? with
  | none => simp [bound]
  | some v =>
    simp only [bound, Option.some.injEq, forall_eq']
    constructor
    · rintro ⟨b, hb⟩
      cases hk : Key.typed v t with
      | ok k => exact ⟨Key.dataType_of_typed hk, Key.isFinite_of_typed hk⟩
      | error e => simp [hk, Except.map] at hb
    · rintro ⟨htype, hfinite⟩
      obtain ⟨k, hk⟩ := Key.exists_typed htype hfinite
      exact ⟨_, by rw [hk]; rfl⟩

theorem exists_interval?_iff : (∃ i?, r.interval? t = .ok i?) ↔ r.Fits t := by
  simp only [interval?, bind_eq_ok_iff, pure_eq_ok, Except.ok.injEq]
  constructor
  · rintro ⟨_, low, hlow, high, hhigh, -⟩ v (hv | hv)
    · exact exists_bound_iff_fits.1 ⟨low, hlow⟩ v hv
    · exact exists_bound_iff_fits.1 ⟨high, hhigh⟩ v hv
  · intro h
    obtain ⟨low, hlow⟩ := exists_bound_iff_fits.2 fun v hv => h v (.inl hv)
    obtain ⟨high, hhigh⟩ := exists_bound_iff_fits.2 fun v hv => h v (.inr hv)
    exact ⟨_, low, hlow, high, hhigh, rfl⟩

theorem compare_of_below {v x : Value} (h : (below v false).contains x = .ok true) :
    x.compare v = .ok .lt := by
  unfold contains passesLow passesHigh below at h
  cases hc : x.compare v with
  | error e => simp [hc, Except.map] at h
  | ok o => cases o <;> simp [hc, Except.map] at h ⊢

theorem compare_of_above {v x : Value} (h : (above v false).contains x = .ok true) :
    x.compare v = .ok .gt := by
  unfold contains passesLow passesHigh above at h
  cases hc : x.compare v with
  | error e => simp [hc, Except.map] at h
  | ok o => cases o <;> simp [hc, Except.map] at h ⊢

end KeyRange

/-! ## The values in the ranges of a comparator -/

namespace Comparator

variable {v w : Value} {t : DataType} {k l : Key}

/-- Of the intervals of a key, another key lies in one if the two stand in the relation, and
otherwise in none. -/
theorem countP_lookupIntervals (c : Comparator) (k l : Key) :
    (c.lookupIntervals k).countP (·.contains l) = if c.holds (compare k l) then 1 else 0 := by
  cases c <;>
    simp only [lookupIntervals, List.countP_cons, List.countP_nil, Interval.contains, Interval.all,
      Bound.below, Bound.above, decide_lt k, decide_gt k, holds] <;>
    cases compare k l <;> rfl

/-- Range by range, a value lies in the ranges of another if its key lies in the intervals. -/
theorem map_contains_lookupRanges (c : Comparator) (hk : Key.typed v t = .ok k)
    (hl : Key.typed w t = .ok l) :
    (c.lookupRanges v).map (·.contains w) =
      (c.lookupIntervals k).map fun i => .ok (i.contains l) := by
  have hbound : ∀ inclusive, KeyRange.bound (some v) inclusive t =
      .ok (if inclusive then .included k else .excluded k) := by
    intro inclusive
    rw [KeyRange.bound, hk]
    rfl
  have hcontains : ∀ {r : KeyRange} {low high : Bound},
      KeyRange.bound r.low r.lowInclusive t = .ok low →
      KeyRange.bound r.high r.highInclusive t = .ok high →
      r.contains w = .ok ((⟨low, high⟩ : Interval).contains l) :=
    fun hlow hhigh => KeyRange.contains_eq hlow hhigh hl
  cases c <;> simp only [lookupRanges, lookupIntervals, List.map_cons, List.map_nil,
    KeyRange.point, KeyRange.above, KeyRange.below, KeyRange.all, Interval.all]
  case eq => rw [hcontains (hbound _) (hbound _)]; rfl
  case ne => rw [hcontains rfl (hbound _), hcontains (hbound _) rfl]; rfl
  case always => rw [hcontains rfl rfl]
  case lt | le => rw [hcontains (hbound _) rfl]; rfl
  case gt | ge => rw [hcontains rfl (hbound _)]; rfl

/-- What lies in an earlier one of the ranges is less than what lies in a later one. -/
theorem pairwise_lookupRanges (c : Comparator) (v : Value) :
    (c.lookupRanges v).Pairwise fun r s =>
      ∀ x y, r.contains x = .ok true → s.contains y = .ok true → x.compare y = .ok .lt := by
  cases c
  case ne =>
    -- the value itself lies between the two ranges
    simp only [lookupRanges, List.pairwise_pair]
    intro x y hx hy
    have hxv : x.compare v = .ok .lt := KeyRange.compare_of_below hx
    have hvy : v.compare y = .ok .lt := Value.compare_swap (KeyRange.compare_of_above hy)
    exact Key.compare_trans hxv hvy rfl rfl
  all_goals exact List.pairwise_singleton _ _

/-- **Each value that matches lies in one of the ranges looked up, and no other value does**, and
the ranges come in the order of the values. -/
theorem lookupRanges_cover (c : Comparator) (htype : v.dataType = w.dataType)
    (hv : v.isFinite = true) (hw : w.isFinite = true) :
    ∃ o, v.compare w = .ok o ∧
      (∀ r ∈ c.lookupRanges v, ∃ b, r.contains w = .ok b) ∧
      ((c.lookupRanges v).countP fun r => r.contains w = .ok true) = (if c.holds o then 1 else 0) ∧
      (c.lookupRanges v).Pairwise fun r s =>
        ∀ x y, r.contains x = .ok true → s.contains y = .ok true → x.compare y = .ok .lt := by
  obtain ⟨k, hk⟩ := Key.exists_typed htype hv
  obtain ⟨l, hl⟩ := Key.exists_typed rfl hw
  have hmap := map_contains_lookupRanges c hk hl
  refine ⟨compare k l, Key.compare_of_typed hk hl, fun r hr => ?_, ?_, pairwise_lookupRanges c v⟩
  · have hmem : r.contains w ∈ (c.lookupRanges v).map (·.contains w) := List.mem_map_of_mem hr
    rw [hmap] at hmem
    obtain ⟨i, -, hi⟩ := List.mem_map.1 hmem
    exact ⟨_, hi.symm⟩
  · calc ((c.lookupRanges v).countP fun r => r.contains w = .ok true)
        = ((c.lookupRanges v).map (·.contains w)).countP (· = .ok true) := by
          rw [List.countP_map]
          rfl
      _ = (c.lookupIntervals k).countP (·.contains l) := by
          rw [hmap, List.countP_map]
          exact List.countP_congr fun i _ => by simp
      _ = if c.holds (compare k l) then 1 else 0 := countP_lookupIntervals c k l

/-- One zero is not among the values other than the other zero. -/
theorem lookupRanges_cover_zeros :
    ((ne.lookupRanges (.real (.zero true))).countP fun r =>
      r.contains (.real (.zero false)) = .ok true) = 0 := by
  obtain ⟨o, ho, -, hcount, -⟩ :=
    @lookupRanges_cover (.real (.zero true)) (.real (.zero false)) ne rfl rfl rfl
  obtain rfl : Ordering.eq = o := Except.ok.inj (Eq.trans (by rfl) ho)
  exact hcount

end Comparator

end QueryEngine
