import QueryEngine.Key.Basic

/-!
# Intervals of keys

An interval has a bound on each side, which may be absent and may or may not belong to it.
-/

namespace QueryEngine

/-- One end of an interval of keys. -/
inductive Bound where
  | unbounded
  | included (k : Key)
  | excluded (k : Key)
  deriving DecidableEq, Repr

namespace Bound

/-- Whether a lower bound leaves room for `k` above it. -/
def below (b : Bound) (k : Key) : Bool :=
  match b with
  | unbounded => true
  | included l => !(decide (k < l))
  | excluded l => l < k

/-- Whether an upper bound leaves room for `k` below it. -/
def above (b : Bound) (k : Key) : Bool :=
  match b with
  | unbounded => true
  | included h => !(decide (h < k))
  | excluded h => k < h

/-- Moving a lower bound up to a key it leaves room for, and past it, only takes room away. -/
theorem below_of_excluded {b : Bound} {k l : Key} (hk : b.below k) (hl : (excluded k).below l) :
    b.below l := by
  cases b with
  | unbounded => rfl
  | included m =>
    simp only [below, Bool.not_eq_true', decide_eq_false_iff_not, decide_eq_true_eq] at hk hl ⊢
    exact fun h => hk (Key.lt_trans hl h)
  | excluded m =>
    simp only [below, decide_eq_true_eq] at hk hl ⊢
    exact Key.lt_trans hk hl

end Bound

/-- The keys that both ends admit. -/
structure Interval where
  low : Bound
  high : Bound
  deriving DecidableEq, Repr

namespace Interval

/-- Whether two bounds leave no room between them: the lower one above the upper one, or both at one
key that does not belong to both. -/
def crossed : Bound → Bound → Bool
  | .included l, .included h => h < l
  | .included l, .excluded h | .excluded l, .included h | .excluded l, .excluded h =>
    !(decide (l < h))
  | _, _ => false

/-- Every key. -/
def all : Interval := ⟨.unbounded, .unbounded⟩

def contains (i : Interval) (k : Key) : Bool := i.low.below k && i.high.above k

/-- The keys of the interval that come after `k`. -/
def after (i : Interval) (k : Key) : Interval := ⟨.excluded k, i.high⟩

theorem not_contains_after_self (i : Interval) (k : Key) : (i.after k).contains k = false := by
  simp [contains, after, Bound.below, Key.lt_irrefl]

theorem contains_of_contains_after {i : Interval} {k l : Key} (hk : i.contains k)
    (hl : (i.after k).contains l) : i.contains l := by
  simp only [contains, after, Bool.and_eq_true] at hk hl ⊢
  exact ⟨Bound.below_of_excluded hk.1 hl.1, hl.2⟩

end Interval

end QueryEngine
