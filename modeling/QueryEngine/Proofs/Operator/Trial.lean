import QueryEngine.Proofs.Operator.Stream
import QueryEngine.Proofs.Predicate

/-!
# Trials

The streams of joins come about by trial: pairs are tried in order, each makes a tuple or nothing,
and the first error ends it.

* `Trial.of`: what comes of trying some items; `Trial.exists_of_stop` and
  `Trial.stop_eq_none_iff` say when it comes to an end, and in what.
* `Machine.Follows`: a machine whose states show what they try, and which does what a trial does.
* `Trial.of_concat`, `Trial.of_test`: trying pairs none of which is too long.
-/

namespace QueryEngine

/-- What comes of trying items in order: the items tried, the tuples made of them, and the error
that put an end to it, if any. -/
structure Trial (α : Type) where
  tried : List α
  tuples : List Tuple
  stop : Option Error

namespace Trial

variable {α : Type} {f : α → Except Error (Option Tuple)}

/-- Tries the items in order until the first that fails. -/
def of (f : α → Except Error (Option Tuple)) : List α → Trial α
  | [] => ⟨[], [], none⟩
  | a :: items =>
    let rest := of f items
    match f a with
    | .error e => ⟨[a], [], some e⟩
    | .ok made => ⟨a :: rest.tried, made.toList ++ rest.tuples, rest.stop⟩

theorem of_cons_ok {a : α} {made : Option Tuple} {items : List α} (h : f a = .ok made) :
    of f (a :: items) =
      ⟨a :: (of f items).tried, made.toList ++ (of f items).tuples, (of f items).stop⟩ := by
  rw [of, h]

theorem of_cons_error {a : α} {e : Error} {items : List α} (h : f a = .error e) :
    of f (a :: items) = ⟨[a], [], some e⟩ := by
  rw [of, h]

/-- Where nothing fails, every item is tried. -/
theorem of_eq {g : α → Option Tuple} {items : List α} (h : ∀ a ∈ items, f a = .ok (g a)) :
    of f items = ⟨items, items.filterMap g, none⟩ := by
  induction items with
  | nil => rfl
  | cons a items ih =>
    rw [of_cons_ok (h a List.mem_cons_self), ih fun b hb => h b (List.mem_cons_of_mem a hb),
      List.filterMap_cons]
    cases g a <;> rfl

/-- A trial ends in the error of one of its items. -/
theorem exists_of_stop {items : List α} {e : Error} (h : (of f items).stop = some e) :
    ∃ a ∈ items, f a = .error e := by
  induction items with
  | nil => simp [of] at h
  | cons a items ih =>
    cases ha : f a with
    | error e' =>
      rw [of_cons_error ha] at h
      exact ⟨a, List.mem_cons_self, by rw [ha, Option.some.inj h]⟩
    | ok made =>
      rw [of_cons_ok ha] at h
      obtain ⟨b, hb, hfb⟩ := ih h
      exact ⟨b, List.mem_cons_of_mem a hb, hfb⟩

/-- A trial comes to its end if none of its items fails, and only then. -/
theorem stop_eq_none_iff {items : List α} :
    (of f items).stop = none ↔ ∀ a ∈ items, ∃ made, f a = .ok made := by
  constructor
  · induction items with
    | nil => simp
    | cons a items ih =>
      intro h
      cases ha : f a with
      | error e => simp [of_cons_error ha] at h
      | ok made =>
        rw [of_cons_ok ha] at h
        simpa [ha] using ih h
  · intro h
    cases hs : (of f items).stop with
    | none => rfl
    | some e =>
      obtain ⟨a, ha, hfa⟩ := exists_of_stop hs
      obtain ⟨made, hm⟩ := h a ha
      rw [hfa] at hm
      cases hm

/-- Either all items are tried, or one of them fails. -/
theorem exists_made_or (f : α → Except Error (Option Tuple)) (items : List α) :
    (∀ a ∈ items, ∃ made, f a = .ok made) ∨
      ∃ a ∈ items, ∃ e, f a = .error e ∧ (of f items).stop = some e := by
  cases hs : (of f items).stop with
  | none => exact .inl (stop_eq_none_iff.1 hs)
  | some e =>
    obtain ⟨a, ha, hfa⟩ := exists_of_stop hs
    exact .inr ⟨a, ha, e, hfa, rfl⟩

/-- What a trial comes to as a whole. -/
def answer (trial : Trial α) : Except Error (List Tuple) :=
  Operator.drained trial.tuples trial.stop

theorem answer_of_stop {trial : Trial α} {e : Error} (h : trial.stop = some e) :
    trial.answer = .error e := by
  rw [answer, h]
  rfl

/-! ## Pairs of tuples -/

/-- What comes of a pair that is known to match. -/
def concat (limit : Nat) (x : Tuple × Tuple) : Except Error (Option Tuple) :=
  (x.1.joinWithin limit x.2).map some

/-- What comes of a pair, which is its tuple if it matches and otherwise nothing. -/
def test (p : JoinPredicate) (limit : Nat) (x : Tuple × Tuple) : Except Error (Option Tuple) := do
  if ← p.evaluate x.1 x.2 then concat limit x else return none

variable {p : JoinPredicate} {limit : Nat} {x : Tuple × Tuple} {items : List (Tuple × Tuple)}

theorem concat_of_le (h : (x.1 ++ x.2).length ≤ limit) :
    concat limit x = .ok (some (x.1 ++ x.2)) := by
  rw [concat, Tuple.joinWithin, if_neg (by omega)]
  rfl

theorem concat_of_lt (h : limit < (x.1 ++ x.2).length) :
    concat limit x = .error (.tupleTooLarge (x.1 ++ x.2).length limit) := by
  rw [concat, Tuple.joinWithin, if_pos h]
  rfl

theorem le_of_concat {made : Option Tuple} (h : concat limit x = .ok made) :
    (x.1 ++ x.2).length ≤ limit := by
  by_contra hlt
  rw [concat_of_lt (by omega)] at h
  cases h

theorem eq_of_concat_error {e : Error} (h : concat limit x = .error e) :
    limit < (x.1 ++ x.2).length ∧ e = .tupleTooLarge (x.1 ++ x.2).length limit := by
  by_cases hlt : limit < (x.1 ++ x.2).length
  · rw [concat_of_lt hlt] at h
    exact ⟨hlt, (Except.error.inj h).symm⟩
  · rw [concat_of_le (by omega)] at h
    cases h

theorem test_of_comparable (h : p.Comparable x.1 x.2) :
    test p limit x = if p.joins x.1 x.2 then concat limit x else .ok none := by
  rw [test, JoinPredicate.evaluate_of_comparable h, ok_bind]
  rfl

theorem of_concat (h : ∀ x ∈ items, (x.1 ++ x.2).length ≤ limit) :
    of (concat limit) items = ⟨items, items.map fun x => x.1 ++ x.2, none⟩ := by
  rw [of_eq fun x hx => concat_of_le (h x hx), List.filterMap_eq_map']

theorem of_test (hc : ∀ x ∈ items, p.Comparable x.1 x.2)
    (h : ∀ x ∈ items, p.joins x.1 x.2 = true → (x.1 ++ x.2).length ≤ limit) :
    of (test p limit) items =
      ⟨items, (items.filter fun x => p.joins x.1 x.2).map fun x => x.1 ++ x.2, none⟩ := by
  have hmade : ∀ x ∈ items, test p limit x =
      .ok (if p.joins x.1 x.2 then some (x.1 ++ x.2) else none) := by
    intro x hx
    rw [test_of_comparable (hc x hx)]
    cases hj : p.joins x.1 x.2 with
    | true => exact concat_of_le (h x hx hj)
    | false => rfl
  rw [of_eq hmade, ← List.filterMap_eq_map', List.filterMap_filter]

end Trial

/-! ## Machines that try items -/

/-- The step that trying an item comes to. -/
def Step.trying {σ : Type} (made : Except Error (Option Tuple)) (s : σ) (n : Nat) : Step σ :=
  match made with
  | .error e => .fail e s n
  | .ok none => .again s n
  | .ok (some t) => .emit t s n

namespace Machine

variable {α : Type} {m : Machine} {db : Database} {seen : m.State → Option α} {s : m.State}
  {trial : Trial α}

/-- From `s` on the machine tries what the trial tries, yields its tuples, and stops as it does. -/
def Follows (m : Machine) (db : Database) (seen : m.State → Option α) (s : m.State)
    (trial : Trial α) : Prop :=
  m.Course db seen s trial.tried trial.tuples trial.stop

namespace Follows

theorem of_again (hs : seen s = none)
    (h : ∀ n, ∃ s' n', m.step db s n = .again s' n' ∧ m.Follows db seen s' trial) :
    m.Follows db seen s trial :=
  Course.of_again_unseen hs h

theorem of_ending {stop : Option Error} (hs : seen s = none)
    (h : ∀ n, ∃ s' n', m.step db s n = .settled ⟨Operator.ending stop, s', n'⟩) :
    m.Follows db seen s ⟨[], [], stop⟩ :=
  Course.of_ending_unseen hs h

theorem of_failure {f : α → Except Error (Option Tuple)} {a : α} {e : Error} {items : List α}
    (hs : seen s = some a) (ha : f a = .error e)
    (h : ∀ n, ∃ s' n', m.step db s n = .fail e s' n') :
    m.Follows db seen s (.of f (a :: items)) := by
  have hlog : [a] = (seen s).toList := by rw [hs]; rfl
  rw [Follows, Trial.of_cons_error ha, hlog]
  exact Course.of_ending h

theorem of_try {f : α → Except Error (Option Tuple)} {a : α} {items : List α} (hs : seen s = some a)
    (h : ∀ n, ∃ s' n', m.step db s n = .trying (f a) s' n' ∧
      m.Follows db seen s' (.of f items)) : m.Follows db seen s (.of f (a :: items)) := by
  cases ha : f a with
  | error e =>
    apply of_failure hs ha
    intro n
    obtain ⟨s', n', hstep, -⟩ := h n
    exact ⟨s', n', by rw [hstep, ha]; rfl⟩
  | ok made =>
    have hlog : ∀ log, a :: log = (seen s).toList ++ log := fun log => by rw [hs]; rfl
    unfold Follows at h ⊢
    rw [Trial.of_cons_ok ha, hlog]
    cases made with
    | none =>
      apply Course.of_again
      intro n
      obtain ⟨s', n', hstep, hrest⟩ := h n
      exact ⟨s', n', by rw [hstep, ha]; rfl, hrest⟩
    | some t =>
      apply Course.of_emit
      intro n
      obtain ⟨s', n', hstep, hrest⟩ := h n
      exact ⟨s', n', by rw [hstep, ha]; rfl, hrest⟩

theorem yields (h : m.Follows db seen s trial) (name : String) (schema : Schema) :
    (m.operator name schema).Yields db trial.stop ⟨s, true, false⟩ trial.tuples :=
  Course.yields h name schema

/-- Draining the operator of the machine comes to what the trial comes to. -/
theorem collectTuples_fst {name : String} {schema : Schema} {s₀ : (m.operator name schema).State}
    (h : m.Follows db seen s trial)
    (hs : (m.operator name schema).start db s₀ = (.ok (), ⟨s, true, false⟩)) (n : Nat) :
    ((m.operator name schema).collectTuples db s₀ n).1 = trial.answer :=
  (h.yields name schema).collectTuples_fst hs n

/-- The items tried on the way to the end. -/
theorem filterMap_visited (h : m.Follows db seen s trial) (n : Nat) :
    (m.visited db s n).filterMap seen = trial.tried :=
  Course.filterMap_visited h n

end Follows

end Machine

end QueryEngine
