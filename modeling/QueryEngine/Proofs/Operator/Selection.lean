import QueryEngine.Proofs.Key.Faithful
import QueryEngine.Proofs.Operator.Leaf
import QueryEngine.Proofs.Operator.Restart
import QueryEngine.Proofs.Operator.Typing

/-!
# Selection

A condition says of a row whether it is wanted: it names the fields, and compares what they mean. A
filter knows nothing of that. It reads fields of tuples at positions that were found once, and takes
from its child one tuple after the other. What it makes of them is what the condition says.

* `Condition.judge`: what a condition says of a row; `Condition.evaluate_eq` says that a bound
  condition comes to it on the row of a tuple.
* `Filter.next_of_refused`, `Filter.next_of_kept`: a filter and one tuple of its child.
* `Filter.results_eq`: what a filter gives until it stops, by sifting what its child gives.
* `Filter.selects_of_bind`: which tuples a filter gives, and how much of the child each pull takes.
-/

namespace QueryEngine

/-! ## What conditions mean -/

/-- The value of an operand in a row, which is given with the names of its fields. Of two fields
with one name it is the first. -/
def Operand.value (fields : List (String × Value)) : Operand → Except Error Value
  | .column name =>
    match fields.lookup name with
    | some v => .ok v
    | none => .error (.columnNotFound name)
  | .literal v => .ok v

namespace Condition

/-- Whether a row satisfies the condition. If there is nothing to compare, every row does. -/
def judge (c : Condition) (fields : List (String × Value)) : Except Error Bool :=
  if c.comparator = .always then .ok true
  else do
    let v ← (Operand.column c.left).value fields
    let w ← c.right.value fields
    return c.comparator.holds (← v.order w)

/-- Whether the row that a tuple decodes to satisfies the condition. -/
def judgeTuple (c : Condition) (schema : Schema) (t : Tuple) : Except Error Bool := do
  let row ← ({ schema } : Layout).decode t
  c.judge ((schema.map (·.name)).zip row)

end Condition

variable {schema : Schema} {row : List Value} {t : Tuple}

theorem Schema.lookup_eq {name : String} {i : Nat} {a : Attribute}
    (hrow : row.length = schema.length) (h : schema.find? name = some (i, a)) :
    ((schema.map (·.name)).zip row).lookup name = row[i]? := by
  induction schema generalizing row i with
  | nil => cases h
  | cons b schema ih =>
    cases row with
    | nil => cases hrow
    | cons v row =>
      rw [find?] at h
      split at h
      · rename_i hname
        obtain ⟨rfl, -⟩ := Prod.mk.inj (Option.some.inj h)
        simp [hname]
      · rename_i hname
        obtain ⟨⟨j, a'⟩, hfound, hij⟩ := Option.map_eq_some_iff.1 h
        obtain ⟨rfl, rfl⟩ := Prod.mk.inj hij
        have hne : (name == b.name) = false := beq_false_of_ne (Ne.symm hname)
        rw [List.map_cons, List.zip_cons_cons, List.lookup_cons, hne]
        exact ih (Nat.succ.inj hrow) hfound

theorem Comparator.needsValue_iff {c : Comparator} : c.needsValue = true ↔ c ≠ .always := by
  cases c <;> simp [needsValue]

namespace Condition

variable {c : Condition} {p : Predicate}

/-- A field at the position of a name is the one with the name. -/
theorem field_eq_value {name : String} {i : Nat} {a : Attribute}
    (hrow : ({ schema } : Layout).decode t = .ok row) (h : schema.find name = .ok (i, a)) :
    ({ schema } : Layout).field t i =
      (Operand.column name).value ((schema.map (·.name)).zip row) := by
  have hlength := Layout.length_of_decodeFields (Layout.decodeFields_of_decode hrow)
  obtain ⟨v, hv, hfield, -⟩ := Layout.field_of_decode hrow (Schema.getElem?_of_find h).1
  rw [Operand.value, Schema.lookup_eq hlength (Schema.find_eq_ok_iff.1 h), hv, hfield]

/-- **A bound condition comes to what the condition says of the row.** -/
theorem evaluate_eq (h : c.bind schema = .ok p) (ht : t.IsRow schema) :
    p.evaluate t = c.judgeTuple schema t := by
  obtain ⟨row, hrow⟩ := ht
  rw [judgeTuple, hrow, ok_bind, judge]
  obtain ⟨a, ha, hlayout, hc, hright⟩ := c.exists_of_bind h
  have hleft := field_eq_value hrow ha
  rcases hright with ⟨name, j, b, hright, hp, hb, -⟩ | ⟨v, hright, hp, -⟩
  · simp only [Predicate.evaluate, hc, hlayout, Comparator.needsValue_iff, hleft, hright, hp,
      field_eq_value hrow hb, Value.compare_eq, ite_not]
  · simp only [Predicate.evaluate, hc, hlayout, Comparator.needsValue_iff, hleft, hright, hp,
      Operand.value, Value.compare_eq, ite_not, pure_eq_ok]

/-- Judging a row fails for no reason but a real that is not finite. -/
theorem eq_of_judgeTuple_error {e : Error} (h : c.bind schema = .ok p) (ht : t.IsRow schema)
    (he : c.judgeTuple schema t = .error e) : e = .nonFiniteReal := by
  have hmeets : Meets (fun _ => True) (· = .nonFiniteReal) (p.evaluate t) :=
    meets_evaluate rfl h ht
  rw [evaluate_eq h ht] at hmeets
  exact (meets_iff.1 hmeets).2 e he

end Condition

/-! ## Filters -/

namespace Operator

variable {op : Operator} {db : Database} {s s' : op.State} {n n' : Nat} {t : Tuple}
  {answer : Except Error (Option Tuple)}

/-- What an operator gives until it stops, and the error that it stops in, if any. -/
def results (op : Operator) (db : Database) (s : op.State) (n : Nat) : List Tuple × Option Error :=
  ((op.drain db s n).1, (op.drain db s n).2.1)

theorem results_of_some (h : op.next db s n = ⟨.ok (some t), s', n'⟩) :
    op.results db s n = (t :: (op.results db s' n').1, (op.results db s' n').2) := by
  simp only [results, drain_of_next_some h]

theorem results_of_error {e : Error} (h : op.next db s n = ⟨.error e, s', n'⟩) :
    op.results db s n = ([], some e) := by
  simp only [results, drain_of_error h]

theorem results_of_none (h : op.next db s n = ⟨.ok none, s', n'⟩) :
    op.results db s n = ([], none) := by
  simp only [results, drain_of_none h]

theorem results_congr (h : op.next db s n = op.next db s' n') :
    op.results db s n = op.results db s' n' := by
  rw [results, drain_congr h, results]

theorem Yields.results_eq {stop : Option Error} {tuples : List Tuple}
    (h : op.Yields db stop s tuples) (n : Nat) : op.results db s n = (tuples, stop) := by
  obtain ⟨_, _, hdrain⟩ := h.drain_eq n
  simp only [results, hdrain]

/-- The state after some pulls, and the number of fetches made then. -/
def after (op : Operator) (db : Database) : Nat → op.State → Nat → op.State × Nat
  | 0, s, n => (s, n)
  | k + 1, s, n => op.after db k (op.next db s n).state (op.next db s n).reads

theorem after_of_next (h : op.next db s n = ⟨answer, s', n'⟩) (k : Nat) :
    op.after db (k + 1) s n = op.after db k s' n' := by
  rw [after, h]

theorem answers_of_next (h : op.next db s n = ⟨answer, s', n'⟩) (k : Nat) :
    op.answers db (k + 1) s n = answer :: op.answers db k s' n' := by
  rw [answers, h]

end Operator

namespace Filter

variable {f : Filter} {child : Operator} {db : Database} {c c' : child.State} {n n' : Nat}
  {e : Error} {judge : Tuple → Except Error Bool}

/-- A filter in a run, with the state of its child. -/
def running (f : Filter) (child : Operator) (c : child.State) : (f.operator child).State :=
  ⟨⟨c, false⟩, true, false⟩

/-! ### One tuple -/

theorem next_of_error (h : child.next db c n = ⟨.error e, c', n'⟩) :
    (f.operator child).next db (f.running child c) n =
      ⟨.error e, ⟨⟨c', false⟩, true, true⟩, n'⟩ :=
  Machine.guardedNext_of_settled_error "Filter" (by simp [machine, step, h, Step.fail])

theorem next_of_none (h : child.next db c n = ⟨.ok none, c', n'⟩) :
    (f.operator child).next db (f.running child c) n =
      ⟨.ok none, ⟨⟨c', true⟩, true, false⟩, n'⟩ :=
  Machine.guardedNext_of_settled_ok "Filter" (by simp [machine, step, h, Step.finish])

theorem next_of_failed (h : child.next db c n = ⟨.ok (some t), c', n'⟩)
    (ht : f.predicate.evaluate t = .error e) :
    (f.operator child).next db (f.running child c) n =
      ⟨.error e, ⟨⟨c', false⟩, true, true⟩, n'⟩ :=
  Machine.guardedNext_of_settled_error "Filter" (by simp [machine, step, h, ht, Step.fail])

theorem next_of_kept (h : child.next db c n = ⟨.ok (some t), c', n'⟩)
    (ht : f.predicate.evaluate t = .ok true) :
    (f.operator child).next db (f.running child c) n = ⟨.ok (some t), f.running child c', n'⟩ :=
  Machine.guardedNext_of_settled_ok "Filter" (by simp [machine, step, h, ht, Step.emit])

theorem next_of_refused (h : child.next db c n = ⟨.ok (some t), c', n'⟩)
    (ht : f.predicate.evaluate t = .ok false) :
    (f.operator child).next db (f.running child c) n =
      (f.operator child).next db (f.running child c') n' :=
  Machine.guardedNext_of_again "Filter" (by simp [machine, step, h, ht])

theorem next_of_done (f : Filter) (child : Operator) (db : Database) (c : child.State) (n : Nat) :
    (f.operator child).next db ⟨⟨c, true⟩, true, false⟩ n =
      ⟨.ok none, ⟨⟨c, true⟩, true, false⟩, n⟩ :=
  Machine.guardedNext_of_settled_ok "Filter" (by simp [machine, step, Step.finish])

/-! ### All tuples -/

/-- What a test leaves of some tuples and of what stops them: those that pass it, up to the first
that it fails on. -/
def sift (test : Tuple → Except Error Bool) (stop : Option Error) :
    List Tuple → List Tuple × Option Error
  | [] => ([], stop)
  | t :: tuples =>
    match test t with
    | .error e => ([], some e)
    | .ok false => sift test stop tuples
    | .ok true => (t :: (sift test stop tuples).1, (sift test stop tuples).2)

theorem sift_congr {test test' : Tuple → Except Error Bool} (stop : Option Error)
    {tuples : List Tuple} (h : ∀ t ∈ tuples, test t = test' t) :
    sift test stop tuples = sift test' stop tuples := by
  induction tuples with
  | nil => rfl
  | cons t tuples ih =>
    obtain ⟨ht, hrest⟩ := List.forall_mem_cons.1 h
    rw [sift, sift, ht, ih hrest]

/-- Either all tuples are tested, or one is met that the test fails on. -/
theorem exists_sift (test : Tuple → Except Error Bool) (stop : Option Error)
    (tuples : List Tuple) :
    ∃ tested rest, tuples = tested ++ rest ∧ (∀ t ∈ tested, ∃ passed, test t = .ok passed) ∧
      (sift test stop tuples).1 = tested.filter (fun t => test t = .ok true) ∧
      (rest = [] ∧ (sift test stop tuples).2 = stop ∨
        ∃ t later e, rest = t :: later ∧ test t = .error e ∧
          (sift test stop tuples).2 = some e) := by
  induction tuples with
  | nil => exact ⟨[], [], rfl, by simp, rfl, .inl ⟨rfl, rfl⟩⟩
  | cons t tuples ih =>
    cases ht : test t with
    | error e =>
      simp only [sift, ht]
      exact ⟨[], t :: tuples, rfl, by simp, rfl, .inr ⟨t, tuples, e, rfl, ht, rfl⟩⟩
    | ok passed =>
      obtain ⟨tested, rest, rfl, htested, htuples, hstop⟩ := ih
      refine ⟨t :: tested, rest, rfl, List.forall_mem_cons.2 ⟨⟨passed, ht⟩, htested⟩, ?_⟩
      cases passed <;> simp only [sift, ht] <;> exact ⟨by simp [ht, htuples], hstop⟩

/-- A filter sifts what its child gives. -/
theorem results_eq (f : Filter) (child : Operator) (db : Database) (c : child.State) (n : Nat) :
    (f.operator child).results db (f.running child c) n =
      sift f.predicate.evaluate (child.results db c n).2 (child.results db c n).1 := by
  induction c using child.finite.induction generalizing n with
  | h c ih =>
    rcases hnext : child.next db c n with ⟨e | _ | t, c', n'⟩
    · rw [Operator.results_of_error hnext, Operator.results_of_error (next_of_error hnext), sift]
    · rw [Operator.results_of_none hnext, Operator.results_of_none (next_of_none hnext), sift]
    · have hrest := ih c' ⟨_, _, _, _, hnext⟩ n'
      rw [Operator.results_of_some hnext, sift]
      cases ht : f.predicate.evaluate t with
      | error e => exact Operator.results_of_error (next_of_failed hnext ht)
      | ok passed =>
        cases passed with
        | false => exact (Operator.results_congr (next_of_refused hnext ht)).trans hrest
        | true =>
          rw [Operator.results_of_some (next_of_kept hnext ht), hrest]

/-! ### One pull -/

/-- What a pull reports of the last that it takes from the child. -/
def report (judge : Tuple → Except Error Bool) :
    Except Error (Option Tuple) → Except Error (Option Tuple)
  | .ok (some t) => (judge t).map fun _ => some t
  | last => last

/-- A pull takes tuples from the child as long as they are refused, and then the one that it
reports, or the end, or an error. The child is left where it was pulled to. -/
def PullsTo (f : Filter) (child : Operator) (judge : Tuple → Except Error Bool) (db : Database)
    (c : child.State) (n : Nat) : Prop :=
  ∃ (refused : List Tuple) (last : Except Error (Option Tuple)),
    (∀ t ∈ refused, judge t = .ok false) ∧ (∀ t, last = .ok (some t) → judge t ≠ .ok false) ∧
    child.answers db (refused.length + 1) c n = refused.map (.ok ∘ some) ++ [last] ∧
    (f.operator child).next db (f.running child c) n =
      let answer := report judge last
      let (c', n') := child.after db (refused.length + 1) c n
      ⟨answer, ⟨⟨c', last = .ok none⟩, true, !answer.toBool⟩, n'⟩

/-- How a filter goes on in a run, by what is to be judged of the tuples that its child, in the
state `c`, has still to give. -/
structure Selects (f : Filter) (child : Operator) (judge : Tuple → Except Error Bool)
    (db : Database) (c : child.State) (n : Nat) : Prop where
  pull : f.PullsTo child judge db c n
  /-- After the end nothing more is taken from the child. -/
  ended : (f.operator child).next db ⟨⟨c, true⟩, true, false⟩ n =
    ⟨.ok none, ⟨⟨c, true⟩, true, false⟩, n⟩
  /-- All pulls together give what is wanted of the child's tuples, as they are and in their order,
  and come to the end of the child, unless a tuple before it cannot be judged. -/
  all : ∃ judged rest, (child.results db c n).1 = judged ++ rest ∧
    (∀ t ∈ judged, ∃ wanted, judge t = .ok wanted) ∧
    ((f.operator child).results db (f.running child c) n).1 =
      judged.filter (fun t => judge t = .ok true) ∧
    (rest = [] ∧ ((f.operator child).results db (f.running child c) n).2 =
        (child.results db c n).2 ∨
      ∃ t later e, rest = t :: later ∧ judge t = .error e ∧
        ((f.operator child).results db (f.running child c) n).2 = some e)
  /-- That is for a real that is not finite. -/
  failure : ∀ t ∈ (child.results db c n).1, ∀ e, judge t = .error e → e = .nonFiniteReal

/-- The child's first answer is the one that the pull reports. -/
theorem pullsTo_of_reported {last : Except Error (Option Tuple)}
    (h : child.next db c n = ⟨last, c', n'⟩)
    (hlast : ∀ t, last = .ok (some t) → judge t ≠ .ok false)
    (hpull : (f.operator child).next db (f.running child c) n =
      ⟨report judge last, ⟨⟨c', last = .ok none⟩, true, !(report judge last).toBool⟩, n'⟩) :
    f.PullsTo child judge db c n := by
  refine ⟨[], last, fun _ ht => absurd ht List.not_mem_nil, hlast, Operator.answers_of_next h 0, ?_⟩
  rw [List.length_nil, Operator.after_of_next h]
  exact hpull

/-- The child's first tuple is refused, and the pull goes on from there. -/
theorem PullsTo.of_refused (h : child.next db c n = ⟨.ok (some t), c', n'⟩)
    (hjudge : judge t = .ok false) (hevaluate : f.predicate.evaluate t = .ok false)
    (hrest : f.PullsTo child judge db c' n') : f.PullsTo child judge db c n := by
  obtain ⟨refused, last, hrefused, hlast, hanswers, hpull⟩ := hrest
  refine ⟨t :: refused, last, List.forall_mem_cons.2 ⟨hjudge, hrefused⟩, hlast, ?_, ?_⟩
  · rw [List.length_cons, Operator.answers_of_next h, hanswers]
    rfl
  · rw [List.length_cons, Operator.after_of_next h, ← hpull]
    exact next_of_refused h hevaluate

theorem pullsTo (f : Filter) (child : Operator) (db : Database) (c : child.State) (n : Nat)
    (hjudge : ∀ t ∈ (child.results db c n).1, f.predicate.evaluate t = judge t) :
    f.PullsTo child judge db c n := by
  -- The child ends after finitely many tuples, and each that is refused leaves one pull less of it.
  induction c using child.finite.induction generalizing n with
  | h c ih =>
    rcases hnext : child.next db c n with ⟨e | _ | t, c', n'⟩
    · exact pullsTo_of_reported hnext (by simp) (next_of_error hnext)
    · exact pullsTo_of_reported hnext (by simp) (next_of_none hnext)
    · rw [Operator.results_of_some hnext] at hjudge
      obtain ⟨ht, hrest⟩ := List.forall_mem_cons.1 hjudge
      cases hwanted : judge t with
      | error e =>
        refine pullsTo_of_reported hnext (by simp [hwanted]) ?_
        rw [report, hwanted]
        exact next_of_failed hnext (ht.trans hwanted)
      | ok wanted =>
        cases wanted with
        | true =>
          refine pullsTo_of_reported hnext (by simp [hwanted]) ?_
          rw [report, hwanted]
          exact next_of_kept hnext (ht.trans hwanted)
        | false =>
          have hrest := ih c' ⟨_, _, _, _, hnext⟩ n' hrest
          exact hrest.of_refused hnext hwanted (ht.trans hwanted)

/-- **A filter gives the tuples whose rows satisfy its condition**, and each pull takes no more of
the child than it reports. -/
theorem selects_of_bind {child : Operator} {condition : Condition} {f : Filter}
    (hbind : Filter.bind child.schema condition = .ok f) :
    (∀ db s c, child.start db (Machine.Guarded.body s).child = (.ok (), c) →
      (f.operator child).start db s = (.ok (), f.running child c)) ∧
    ∀ db c n, (∀ t ∈ (child.results db c n).1, t.IsRow child.schema) →
      f.Selects child (condition.judgeTuple child.schema) db c n := by
  obtain ⟨p, hp, hf⟩ := bind_eq_ok_iff.1 hbind
  obtain rfl := Except.ok.inj hf
  constructor
  · exact fun db s c hstart => Machine.start_of_ok (start_eq_ok_iff.2 ⟨c, hstart, rfl⟩)
  · intro db c n hrows
    have hjudge : ∀ t ∈ (child.results db c n).1,
        p.evaluate t = condition.judgeTuple child.schema t :=
      fun t ht => condition.evaluate_eq hp (hrows t ht)
    constructor
    case pull => exact pullsTo _ child db c n hjudge
    case ended => exact next_of_done _ child db c n
    case all =>
      rw [results_eq, sift_congr _ hjudge]
      exact exists_sift _ _ _
    case failure => exact fun t ht e => condition.eq_of_judgeTuple_error hp (hrows t ht)

/-- Of the reals 1, 3, and one that is not a number, those above 2. -/
theorem selects_of_bind_reals :
    let condition : Condition := ⟨"a", .gt, .literal (.real (.ofBits 0x40000000))⟩
    let tuples : List Tuple := [⟨[0, 0, 128, 63]⟩, ⟨[0, 0, 64, 64]⟩, ⟨[0, 0, 192, 127]⟩]
    let child := Materialized.operator ⟨[.real "a"], tuples⟩
    let c : child.State := ⟨tuples, true⟩
    ∃ f, Filter.bind child.schema condition = .ok f ∧
      (f.operator child).start {} (f.operator child).initial = (.ok (), f.running child c) ∧
      (∀ t ∈ (child.results {} c 0).1, t.IsRow child.schema) ∧
      f.Selects child (condition.judgeTuple child.schema) {} c 0 ∧
      (f.operator child).results {} (f.running child c) 0 =
        ([⟨[0, 0, 64, 64]⟩], some .nonFiniteReal) := by
  intro condition tuples child c
  have hresults : child.results {} c 0 = (tuples, none) :=
    (Materialized.yields ⟨[.real "a"], tuples⟩ {} tuples).results_eq 0
  have hrows : ∀ t ∈ (child.results {} c 0).1, t.IsRow child.schema := by
    rw [hresults]
    simp only [tuples, List.forall_mem_cons, List.not_mem_nil, false_implies, implies_true,
      and_true]
    exact ⟨⟨_, rfl⟩, ⟨_, rfl⟩, ⟨_, rfl⟩⟩
  have hbind : Filter.bind child.schema condition =
      .ok ⟨condition, { schema := child.schema }, 0, .gt, .literal (.real (.ofBits 0x40000000))⟩ :=
    rfl
  obtain ⟨hstart, hselects⟩ := selects_of_bind hbind
  refine ⟨_, hbind, hstart {} _ c rfl, hrows, hselects {} c 0 hrows, ?_⟩
  rw [results_eq, hresults]
  rfl

end Filter

end QueryEngine
