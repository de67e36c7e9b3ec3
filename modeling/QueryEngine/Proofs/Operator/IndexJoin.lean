import QueryEngine.Operator.IndexJoin
import QueryEngine.Proofs.KeyRange
import QueryEngine.Proofs.Operator.IndexScan
import QueryEngine.Proofs.Operator.Leaf
import QueryEngine.Proofs.Operator.Trial
import QueryEngine.Proofs.Pairs
import QueryEngine.Proofs.Store.LongTexts

/-!
# What an index join yields

A left tuple is looked up range by range, and what its ranges hold are the rows that match it, in
the order of the index. A left tuple without a key is refused when the scan is moved to its first
range.

* `IndexJoin.Serves`: what the join needs of the index and the store that it reads from.
* `IndexJoin.Finds`: what a left tuple comes to, which is what matches it
  (`IndexJoin.Serves.finds`).
* `IndexJoin.follows_left`: the join looks up the left tuples that are to come.
* `IndexJoin.fetched_eq`: it fetches a row for every tuple that it yields, and no other.
-/

namespace QueryEngine.IndexJoin

open IndexScan (State.Reading)

variable {join : IndexJoin} {left : Operator} {db : Database} {index : Index}
  {keyed : List (Key × Row)}

/-- The rows in the order of the index serve the scan on the right, and their keys are those that
they are joined by. -/
structure Serves (join : IndexJoin) (db : Database) (index : Index) (keyed : List (Key × Row)) :
    Prop extends join.right.Serves db index keyed where
  keyType_eq : join.predicate.comparator.needsValue = true →
    index.keyType = join.predicate.keyType
  rightKey_eq : join.predicate.comparator.needsValue = true →
    ∀ e ∈ keyed, join.predicate.rightKey e.2.2 = .ok e.1

/-! ## Looking up -/

/-- Why a left tuple cannot be looked up. -/
def refusal (join : IndexJoin) (t : Tuple) : Option Error :=
  if join.predicate.comparator.needsValue then
    match join.predicate.leftKey t with
    | .error e => some e
    | .ok _ => none
  else none

/-- The ranges of a left tuple are intervals that hold the rows that match it. -/
theorem exists_intervals (h : join.Serves db index keyed) {t : Tuple}
    (ht : join.refusal t = none) :
    ∃ (ranges : List KeyRange) (intervals : List Interval), join.rangesOf t = .ok ranges ∧
      ranges.map (·.interval? index.keyType) = intervals.map (.ok ∘ some) ∧
      (intervals.flatMap fun i => keyed.filter (i.contains ·.1)) =
        keyed.filter fun e => join.predicate.joins t e.2.2 := by
  cases hn : join.predicate.comparator.needsValue with
  | false =>
    refine ⟨[.all], [.all], by rw [rangesOf, hn]; rfl, rfl, ?_⟩
    simp only [List.flatMap_cons, List.flatMap_nil, List.append_nil]
    exact List.filter_congr fun e _ => (JoinPredicate.joins_of_not_needsValue hn).symm
  | true =>
    rw [refusal, hn, if_pos rfl] at ht
    cases hk : join.predicate.leftKey t with
    | error e => simp [hk] at ht
    | ok k =>
      obtain ⟨v, hv, hkv⟩ := JoinPredicate.leftKey_eq_ok_iff.1 hk
      refine ⟨_, join.predicate.comparator.lookupIntervals k, by rw [rangesOf, hn, hv]; rfl, ?_, ?_⟩
      · rw [h.keyType_eq hn]
        exact Comparator.interval?_lookupRanges _ hkv
      · rw [Comparator.flatMap_lookupIntervals _ _ h.sorted]
        apply List.filter_congr
        intro e he
        rw [JoinPredicate.joins_of_keys hk (h.rightKey_eq hn e he) hn]

/-- A tuple that cannot be looked up fails at the first of its ranges. -/
theorem exists_range_of_refusal (h : join.Serves db index keyed) {t : Tuple} {v : Value} {e : Error}
    (hv : join.predicate.leftValue t = .ok v) (ht : join.refusal t = some e) :
    ∃ range ranges, join.rangesOf t = .ok (range :: ranges) ∧
      range.interval? index.keyType = .error e := by
  unfold refusal at ht
  split at ht
  · rename_i hn
    rw [JoinPredicate.leftKey, hv, ok_bind] at ht
    cases hk : Key.typed v join.predicate.keyType with
    | ok k => simp [hk] at ht
    | error e' =>
      simp only [hk, Option.some.injEq] at ht
      subst ht
      rw [← h.keyType_eq hn] at hk
      obtain ⟨range, ranges, hranges, hrange⟩ :=
        Comparator.exists_lookupRanges_error hn hk
      exact ⟨range, ranges, by rw [rangesOf, hn, hv, ← hranges]; rfl, hrange⟩
  · simp at ht

/-! ## The run -/

/-- The pair that is tried next, or the error of a left tuple that cannot be looked up. -/
def tried? {σ : Type} (join : IndexJoin) (db : Database) (s : State σ) :
    Option (Except Error (Tuple × Tuple)) :=
  match s.probe with
  | some ⟨t, _, true⟩ =>
    match (join.right.next db s.right 0).answer with
    | .ok (some r) => some (.ok (t, r))
    | _ => none
  | some ⟨_, range :: _, false⟩ =>
    match (join.right.setRange db range s.right).1 with
    | .error e => some (.error e)
    | .ok _ => none
  | _ => none

/-- What comes of a pair that is found, or of a left tuple that cannot be looked up. -/
def attempt (join : IndexJoin) (x : Except Error (Tuple × Tuple)) : Except Error (Option Tuple) :=
  x.bind (Trial.concat join.maxTupleSize)

/-- What comes of all of them. -/
abbrev trial (join : IndexJoin) : List (Except Error (Tuple × Tuple)) →
    Trial (Except Error (Tuple × Tuple)) :=
  Trial.of join.attempt

/-- What is found for a left tuple among rows. -/
def found (join : IndexJoin) (rows : List Row) (t : Tuple) : List (Except Error (Tuple × Tuple)) :=
  match join.refusal t with
  | some e => [.error e]
  | none => (rows.filter (join.predicate.joins t ·.2)).map fun row => .ok (t, row.2)

/-- A left tuple with a key can be looked up. -/
theorem refusal_eq_none {t : Tuple} (h : join.predicate.comparator.needsValue = true →
    ∃ k, join.predicate.leftKey t = .ok k) : join.refusal t = none := by
  unfold refusal
  split
  · rename_i hn
    obtain ⟨k, hk⟩ := h hn
    rw [hk]
  · rfl

/-- Where all left tuples can be looked up, pairs that match are found, and nothing else. -/
theorem flatMap_found {rows : List Row} {lefts : List Tuple}
    (h : ∀ a ∈ lefts, join.refusal a = none) :
    lefts.flatMap (join.found rows) =
      (pairs join.predicate.joins lefts (rows.map (·.2))).map .ok := by
  rw [pairs, List.map_flatMap]
  apply List.flatMap_congr
  intro a ha
  rw [found, h a ha, List.filter_map, List.map_map, List.map_map]
  rfl

theorem trial_map_ok {items : List (Tuple × Tuple)}
    (h : ∀ x ∈ items, (x.1 ++ x.2).length ≤ join.maxTupleSize) :
    join.trial (items.map .ok) = ⟨items.map .ok, items.map fun x => x.1 ++ x.2, none⟩ := by
  induction items with
  | nil => rfl
  | cons x items ih =>
    have hx : join.attempt (.ok x) = .ok (some (x.1 ++ x.2)) :=
      Trial.concat_of_le (h x List.mem_cons_self)
    rw [List.map_cons, trial, Trial.of_cons_ok hx, ← trial,
      ih fun y hy => h y (List.mem_cons_of_mem x hy)]
    rfl

variable {l : left.State} {right : IndexScan.State} {t : Tuple} {ranges : List KeyRange}
  {rest : List (Except Error (Tuple × Tuple))}

/-- The rows of the current range come first. -/
theorem follows_reading {rows : List Row} (hright : right.Reading rows)
    (hread : ∀ row ∈ rows, ∀ n, db.readTuple n join.right.table row.1 = .ok row.2)
    (h : ∀ right : IndexScan.State, right.opened = true →
      (join.machine left).Follows db (join.tried? db) ⟨l, right, some ⟨t, ranges, false⟩, false⟩
        (join.trial rest)) :
    (join.machine left).Follows db (join.tried? db) ⟨l, right, some ⟨t, ranges, true⟩, false⟩
      (join.trial (rows.map (fun row => .ok (t, row.2)) ++ rest)) := by
  induction rows generalizing right with
  | nil =>
    have hseen : join.tried? db (⟨l, right, some ⟨t, ranges, true⟩, false⟩ : State left.State) =
        none := by
      obtain ⟨right', hnext, -⟩ := IndexScan.next_of_reading_nil join.right db 0 hright
      simp only [tried?, hnext]
    refine .of_again hseen fun n => ?_
    obtain ⟨right', hnext, hopened⟩ := IndexScan.next_of_reading_nil join.right db n hright
    refine ⟨_, n, ?_, h right' hopened⟩
    simp only [machine, step, fetch, hnext]
    rfl
  | cons row rows ih =>
    have hrow := hread row List.mem_cons_self
    have hseen : join.tried? db (⟨l, right, some ⟨t, ranges, true⟩, false⟩ : State left.State) =
        some (.ok (t, row.2)) := by
      obtain ⟨right', hnext, -⟩ := IndexScan.next_of_reading_cons hright (hrow 0)
      simp only [tried?, hnext]
    rw [List.map_cons, List.cons_append]
    refine .of_try hseen fun n => ?_
    obtain ⟨right', hnext, hrest⟩ := IndexScan.next_of_reading_cons hright (hrow n)
    refine ⟨_, n + 1, ?_, ih hrest fun row hr => hread row (List.mem_cons_of_mem _ hr)⟩
    simp only [machine, step, fetch, hnext, attempt, Except.bind, Trial.concat]
    cases t.joinWithin join.maxTupleSize row.2 <;> rfl

/-- Then come those of the other ranges of the left tuple. -/
theorem follows_ranges (hs : join.right.Serves db index keyed) {intervals : List Interval}
    (hright : right.opened = true)
    (hranges : ranges.map (·.interval? index.keyType) = intervals.map (.ok ∘ some))
    (h : ∀ right : IndexScan.State, right.opened = true →
      (join.machine left).Follows db (join.tried? db) ⟨l, right, none, false⟩ (join.trial rest)) :
    (join.machine left).Follows db (join.tried? db) ⟨l, right, some ⟨t, ranges, false⟩, false⟩
      (join.trial ((intervals.flatMap fun i => keyed.filter (i.contains ·.1)).map
        (fun e => .ok (t, e.2.2)) ++ rest)) := by
  induction ranges generalizing right intervals with
  | nil =>
    obtain rfl := List.map_eq_nil_iff.1 hranges.symm
    exact .of_again rfl fun n => ⟨_, n, rfl, h right hright⟩
  | cons range ranges ih =>
    cases intervals with
    | nil => simp at hranges
    | cons i intervals =>
      simp only [List.map_cons, List.cons.injEq, Function.comp_apply] at hranges
      obtain ⟨right', hset, hreading⟩ := hs.exists_setRange hright hranges.1
      have hseen : join.tried? db
          (⟨l, right, some ⟨t, range :: ranges, false⟩, false⟩ : State left.State) = none := by
        simp only [tried?, hset]
      rw [List.flatMap_cons, List.map_append, List.append_assoc]
      have hrest := follows_reading hreading hs.readTuple_of_mem fun right hr => ih hr hranges.2
      rw [List.map_map] at hrest
      refine .of_again hseen fun n => ⟨_, n, ?_, hrest⟩
      simp only [machine, step, move, hset]
      rfl

theorem setRange_of_error (hs : join.right.Serves db index keyed) {range : KeyRange} {e : Error}
    (hright : right.opened = true) (hrange : range.interval? index.keyType = .error e) :
    ∃ right', join.right.setRange db range right = (.error e, right') := by
  have hscan : db.store.indexScan join.right.table join.right.column range = .error e := by
    rw [hs.indexScan_eq, Index.scan, hrange, error_bind]
  refine ⟨{ right with range, scanner := none }, ?_⟩
  simp only [IndexScan.setRange, IndexScan.reopen, hright, hscan, if_true]

/-- What a left tuple comes to: the rows of its ranges, or the error of the first of them. -/
inductive Finds (join : IndexJoin) (index : Index) (keyed : List (Key × Row)) (t : Tuple) :
    List (Except Error (Tuple × Tuple)) → Prop where
  | rows {ranges : List KeyRange} {intervals : List Interval}
      (ranges_eq : join.rangesOf t = .ok ranges)
      (intervals_eq : ranges.map (·.interval? index.keyType) = intervals.map (.ok ∘ some)) :
    Finds join index keyed t ((intervals.flatMap fun i => keyed.filter (i.contains ·.1)).map
      fun e => .ok (t, e.2.2))
  | refused {range : KeyRange} {ranges : List KeyRange} {e : Error}
      (ranges_eq : join.rangesOf t = .ok (range :: ranges))
      (range_eq : range.interval? index.keyType = .error e) :
    Finds join index keyed t [.error e]

/-- Where the index has the rows under their keys, these are the rows that match. -/
theorem Serves.finds (hs : join.Serves db index keyed) {v : Value}
    (hv : join.predicate.leftValue t = .ok v) :
    join.Finds index keyed t (join.found (keyed.map (·.2)) t) := by
  cases ht : join.refusal t with
  | none =>
    obtain ⟨ranges, intervals, hranges, hintervals, hfilter⟩ := exists_intervals hs ht
    have hfound : join.found (keyed.map (·.2)) t =
        (intervals.flatMap fun i => keyed.filter (i.contains ·.1)).map
          fun e => .ok (t, e.2.2) := by
      rw [hfilter, found, ht, List.filter_map, List.map_map]
      rfl
    rw [hfound]
    exact .rows hranges hintervals
  | some e =>
    obtain ⟨range, ranges, hranges, hrange⟩ := exists_range_of_refusal hs hv ht
    have hfound : join.found (keyed.map (·.2)) t = [.error e] := by rw [found, ht]
    rw [hfound]
    exact .refused hranges hrange

/-- **An index join looks up the left tuples that are to come**, from any point at which a left
tuple is taken. -/
theorem follows_left (hs : join.right.Serves db index keyed) {lefts : List Tuple}
    {found : Tuple → List (Except Error (Tuple × Tuple))} (hl : left.Yields db none l lefts)
    (hfound : ∀ t ∈ lefts, join.Finds index keyed t (found t)) (hright : right.opened = true) :
    (join.machine left).Follows db (join.tried? db) ⟨l, right, none, false⟩
      (join.trial (lefts.flatMap found)) := by
  induction lefts generalizing l right with
  | nil =>
    refine .of_ending rfl fun n => ?_
    obtain ⟨l', n', hn⟩ := hl n
    refine ⟨⟨l', right, none, true⟩, n', ?_⟩
    simp only [machine, step, advance, hn, Operator.ending]
    rfl
  | cons t lefts ih =>
    obtain ⟨ht, hothers⟩ := List.forall_mem_cons.1 hfound
    rw [List.flatMap_cons]
    refine .of_again rfl fun n => ?_
    obtain ⟨l', n', hn, hrest⟩ := hl n
    generalize found t = items at ht
    cases ht with
    | rows hranges hintervals =>
      refine ⟨_, n', ?_, follows_ranges (l := l') hs hright hintervals fun right hright =>
        ih hrest hothers hright⟩
      simp only [machine, step, advance, hn, hranges]
      rfl
    | refused hranges hrange =>
      rename_i range ranges e
      obtain ⟨right', hset⟩ := setRange_of_error hs hright hrange
      refine ⟨⟨l', right, some ⟨t, range :: ranges, false⟩, false⟩, n', ?_,
        .of_failure ?_ rfl fun n => ⟨⟨l', right', some ⟨t, ranges, false⟩, false⟩, n, ?_⟩⟩
      · simp only [machine, step, advance, hn, hranges]
        rfl
      · simp only [tried?, hset]
      · simp only [machine, step, move, hset]
        rfl

/-! ## Fetches -/

theorem fetched_of_again {s s' : State left.State} {n n' : Nat}
    (h : join.step left db s n = .again s' n') : s'.right.fetched = s.right.fetched := by
  unfold step at h
  split at h
  · simp [Step.finish] at h
  split at h
  · unfold advance at h
    repeat' split at h
    all_goals simp only [Step.fail, Step.finish, Step.again.injEq, reduceCtorEq] at h
    rw [← h.1]
  · unfold fetch at h
    repeat' split at h
    all_goals simp only [Step.fail, Step.emit, Step.again.injEq, reduceCtorEq] at h
    rename_i r k hnext
    rw [← h.1]
    exact IndexScan.fetched_of_next hnext
  · rename_i t range ranges _
    have hset := IndexScan.fetched_setRange join.right db range s.right
    unfold move at h
    split at h <;> simp only [Step.fail, Step.again.injEq, reduceCtorEq] at h
    rename_i r hr
    rw [hr] at hset
    rw [← h.1]
    exact hset
  · simp only [Step.again.injEq] at h
    rw [← h.1]

theorem fetched_of_settled {s s' : State left.State} {n n' : Nat} {answer : Option Tuple}
    (h : join.step left db s n = .settled ⟨.ok answer, s', n'⟩) :
    s'.right.fetched = s.right.fetched + answer.toList.length := by
  unfold step at h
  split at h
  · simp only [Step.finish, Step.settled.injEq, Pull.mk.injEq, Except.ok.injEq] at h
    obtain ⟨rfl, rfl, -⟩ := h
    rfl
  split at h
  · unfold advance at h
    repeat' split at h
    all_goals simp only [Step.finish, Step.fail, Step.settled.injEq, Pull.mk.injEq, reduceCtorEq,
      false_and, Except.ok.injEq] at h
    obtain ⟨rfl, rfl, -⟩ := h
    rfl
  · unfold fetch at h
    repeat' split at h
    all_goals simp only [Step.emit, Step.fail, Step.settled.injEq, Pull.mk.injEq, reduceCtorEq,
      false_and, Except.ok.injEq] at h
    rename_i hnext _ _ _
    have hfetched := IndexScan.fetched_of_next hnext
    obtain ⟨rfl, rfl, -⟩ := h
    exact hfetched
  · unfold move at h
    split at h <;> simp [Step.fail] at h
  · simp at h

theorem fetched_of_run {s s' : State left.State} {n n' : Nat} {answer : Option Tuple}
    (h : (join.machine left).run db s n = ⟨.ok answer, s', n'⟩) :
    s'.right.fetched = s.right.fetched + answer.toList.length := by
  refine @Machine.run_induction (join.machine left) db
    (fun s _ pull => ∀ answer s' n', pull = ⟨.ok answer, s', n'⟩ →
      s'.right.fetched = s.right.fetched + answer.toList.length) ?_ ?_ s n answer s' n' h
  · intro s n s₁ n₁ pull hstep ih answer s' n' hpull
    rw [ih answer s' n' hpull, fetched_of_again hstep]
  · rintro s n _ hstep answer s' n' rfl
    exact fetched_of_settled hstep

/-- Pulling from the join fetches one row for every tuple that it yields, and no other. -/
theorem fetched_eq {s s' : (join.operator left).State} {tuples : List Tuple}
    (h : (join.operator left).Pulls db s tuples s') :
    s'.body.right.fetched = s.body.right.fetched + tuples.length :=
  Machine.count_eq_of_pulls h (fun s => s.right.fetched) (fun _ _ _ _ _ => fetched_of_run)
    fun _ _ _ _ => fetched_of_run

/-! ## The join -/

variable {right : IndexScan} {condition : Condition} {config : Config} {table column : String}
  {alias? : Option String} {t : Table}

theorem exists_of_bind {left : Schema} (h : bind left right condition config = .ok join) :
    condition.bindJoin left right.schema = .ok join.predicate ∧
      condition.right = .column right.indexed.name ∧ join.right = right ∧
      join.maxTupleSize = config.maxTupleSize := by
  simp only [bind, bind_eq_ok_iff, throw_eq_error, error_bind, refuse_eq_ok_iff, pure_eq_ok,
    ne_eq, Decidable.not_not, Except.ok.injEq] at h
  obtain ⟨_, -, p, hp, hcolumn, rfl⟩ := h
  exact ⟨hp, hcolumn, rfl, rfl⟩

/-- The attribute on the right is the one that is indexed. -/
theorem rightValue_eq {left : Schema} (hsound : t.Sound)
    (htable : db.store.table table = .ok t)
    (hindex : t.indexes.lookup column = some index)
    (hscan : IndexScan.bind db.store table column alias? = .ok right)
    (hbind : bind left right condition config = .ok join) :
    (∀ u, join.predicate.rightValue u = t.layout.field u index.column) ∧
      (join.predicate.comparator.needsValue = true →
        index.keyType = join.predicate.keyType) := by
  obtain ⟨hpred, hcolumn, -, -⟩ := exists_of_bind hbind
  obtain ⟨t', position, found, ht', hfound, rfl⟩ := IndexScan.exists_of_bind hscan
  obtain rfl : t = t' := Except.ok.inj (htable.symm.trans ht')
  obtain ⟨rfl, htype⟩ := hsound.column_eq hindex hfound
  obtain ⟨name, al, b, hname, -, hb, hab, -, hright, hc, hkey⟩ := condition.exists_of_bindJoin hpred
  obtain rfl : name = (found.qualified (alias?.getD table)).name :=
    Operand.column.inj (hname.symm.trans hcolumn)
  have hfoundName := (Schema.getElem?_of_find hfound).2
  rw [Schema.find_eq_ok_iff, Schema.find?_qualified, hfoundName, Schema.find_eq_ok_iff.1 hfound,
    Option.map_some, Option.some.injEq, Prod.mk.injEq] at hb
  constructor
  · intro u
    rw [JoinPredicate.rightValue, hright, ← hb.1]
    exact Layout.field_qualified _ _ _ _ _
  · intro hn
    rw [hkey, hab (hc ▸ hn), ← hb.2, htype]
    rfl

/-- The rows of an indexed table serve the join in the order of the index. -/
theorem serves {left : Schema} (hstore : db.store.Reachable) (hfaults : db.readFaults = .never)
    (htable : db.store.table table = .ok t) (hindex : t.indexes.lookup column = some index)
    (hscan : IndexScan.bind db.store table column alias? = .ok right)
    (hbind : bind left right condition config = .ok join)
    (hordered : index.Ordered t.layout t.rows keyed) : join.Serves db index keyed := by
  have hsound := hstore.sound_of_table htable
  obtain ⟨hvalue, htype⟩ := rightValue_eq hsound htable hindex hscan hbind
  obtain ⟨-, -, hright, -⟩ := exists_of_bind hbind
  obtain ⟨_, _, _, -, -, heq⟩ := IndexScan.exists_of_bind hscan
  rw [← hright] at heq
  have hserves : join.right.Serves db index keyed :=
    IndexScan.serves hstore hfaults (by rw [heq, htable]) (by rw [heq, hindex]) hordered.lists
  refine { hserves with keyType_eq := htype, rightKey_eq := fun hn e he => ?_ }
  have hkey := hordered.keyOf_eq e he
  rw [JoinPredicate.rightKey, hvalue, ← htype hn]
  exact hkey

/-- The order of rows by the values that they are joined by, and then by their ids. -/
def Before (join : IndexJoin) (r s : Row) : Prop :=
  ∃ v w o, join.predicate.rightValue r.2 = .ok v ∧ join.predicate.rightValue s.2 = .ok w ∧
    v.compare w = .ok o ∧ (o = .lt ∨ o = .eq ∧ r.1 < s.1)

/-- There is one such order, as no two rows have the same id. -/
theorem Before.asymm {r s : Row} (h : join.Before r s) : ¬join.Before s r := by
  rintro ⟨w', v', o', hw', hv', ho', hs⟩
  obtain ⟨v, w, o, hv, hw, ho, hr⟩ := h
  obtain rfl : w = w' := Except.ok.inj (hw.symm.trans hw')
  obtain rfl : v = v' := Except.ok.inj (hv.symm.trans hv')
  obtain rfl : o.swap = o' := Except.ok.inj ((Value.compare_swap ho).symm.trans ho')
  rcases hr with rfl | ⟨rfl, hid⟩
  · simp [Ordering.swap] at hs
  · obtain hs | ⟨-, hid'⟩ := hs
    · simp [Ordering.swap] at hs
    · exact Int.lt_asymm hid hid'

theorem pairwise_before (hvalue : ∀ u, join.predicate.rightValue u = t.layout.field u index.column)
    (hordered : index.Ordered t.layout t.rows keyed) :
    (keyed.map (·.2)).Pairwise join.Before := by
  refine List.pairwise_map.2 (hordered.sorted.imp_of_mem fun {e f} he hf h => ?_)
  obtain ⟨v, hv, hk⟩ := bind_eq_ok_iff.1 (hordered.keyOf_eq e he)
  obtain ⟨w, hw, hl⟩ := bind_eq_ok_iff.1 (hordered.keyOf_eq f hf)
  refine ⟨v, w, compare e.1 f.1, by rw [hvalue, hv], by rw [hvalue, hw],
    Key.compare_of_typed hk hl, ?_⟩
  rcases h with h | ⟨h, hid⟩
  · exact .inl (Key.lt_iff_compare.1 h)
  · exact .inr ⟨by rw [h]; exact Std.ReflCmp.compare_self, hid⟩

theorem exists_start {s : (join.operator left).State} {l : left.State} {r : IndexScan.State}
    (hl : left.start db s.body.left = (.ok (), l))
    (hr : join.right.start db s.body.right = (.ok (), r)) :
    (join.operator left).start db s = (.ok (), ⟨⟨l, r, none, false⟩, true, false⟩) := by
  have hstart : join.start left db s.body = (.ok (), ⟨l, r, none, false⟩) := by
    simp only [start, hl, hr]
  exact Machine.start_of_ok hstart

/-- **An index join yields the pairs that match in the order of the index.** It takes the left
tuples in their order, and fetches a row for every tuple that it yields and no other. The texts of
the right table have fewer than 2 ^ 32 bytes each, so that a row is in the index under the value
that it is read to have. -/
theorem yields_inOrder {s : (join.operator left).State} {l : left.State} {r : IndexScan.State}
    {lefts : List Tuple} (hstore : db.store.Reachable) (hfaults : db.readFaults = .never)
    (htable : db.store.table table = .ok t) (hshort : t.Short)
    (hscan : IndexScan.bind db.store table column alias? = .ok right)
    (hbind : bind left.schema right condition config = .ok join)
    (hlstart : left.start db s.body.left = (.ok (), l)) (hl : left.Yields db none l lefts)
    (hrstart : right.start db s.body.right = (.ok (), r))
    (hlrow : ∀ a ∈ lefts, a.IsRow left.schema)
    (hlfinite : ∀ a ∈ lefts, ∀ v, join.predicate.leftValue a = .ok v → v.isFinite = true)
    (hfits : ∀ a ∈ lefts, ∀ row ∈ t.rows, join.predicate.joins a row.2 = true →
      (a ++ row.2).length ≤ config.maxTupleSize) :
    ∃ (s' : (join.operator left).State) (rows : List Row),
      (join.operator left).start db s = (.ok (), s') ∧
      rows.Perm t.rows ∧ rows.Pairwise join.Before ∧
      (join.operator left).Yields db none s'
        (lefts.flatMap fun a => (rows.filter (join.predicate.joins a ·.2)).map (a ++ ·.2)) ∧
      ∀ tuples s'', (join.operator left).Pulls db s' tuples s'' →
        s''.body.right.fetched = s.body.right.fetched + tuples.length := by
  obtain ⟨hpred, -, rfl, hmax⟩ := exists_of_bind hbind
  obtain ⟨_, _, _, -, -, heq⟩ := IndexScan.exists_of_bind hscan
  obtain ⟨t', index, htable', hindex, hopened, hfetched⟩ := IndexScan.exists_of_start hrstart
  rw [heq] at htable' hindex
  obtain rfl : t = t' := Except.ok.inj (htable.symm.trans htable')
  have hsound := hstore.sound_of_table htable
  obtain ⟨keyed, hordered⟩ := hshort.exists_ordered hindex
  have hserves := serves hstore hfaults htable hindex hscan hbind hordered
  have hfinds : ∀ a ∈ lefts, join.Finds index keyed a (join.found (keyed.map (·.2)) a) := by
    intro a ha
    obtain ⟨v, hv, -⟩ := JoinPredicate.exists_leftValue hpred (hlrow a ha)
    exact hserves.finds hv
  have hrefusal : ∀ a ∈ lefts, join.refusal a = none := fun a ha =>
    refusal_eq_none fun _ => JoinPredicate.exists_leftKey hpred (hlrow a ha) (hlfinite a ha)
  have hfollows := follows_left hserves.toServes hl hfinds hopened
  have hlong : ∀ x ∈ pairs join.predicate.joins lefts ((keyed.map (·.2)).map (·.2)),
      (x.1 ++ x.2).length ≤ join.maxTupleSize := by
    intro x hx
    obtain ⟨ha, hb, hj⟩ := mem_pairs.1 hx
    obtain ⟨row, hrow, hb⟩ := List.mem_map.1 hb
    rw [← hb] at hj ⊢
    exact hmax ▸ hfits _ ha row (hordered.perm.mem_iff.1 hrow) hj
  rw [flatMap_found hrefusal, trial_map_ok hlong] at hfollows
  have htuples : (pairs join.predicate.joins lefts ((keyed.map (·.2)).map (·.2))).map
      (fun x => x.1 ++ x.2) = lefts.flatMap fun a =>
        ((keyed.map (·.2)).filter (join.predicate.joins a ·.2)).map (a ++ ·.2) := by
    rw [pairs, List.map_flatMap]
    apply List.flatMap_congr
    intro a _
    rw [List.filter_map, List.map_map, List.map_map]
    rfl
  have hyields := hfollows.yields "IndexNestedLoopJoin" join.schema
  rw [htuples] at hyields
  refine ⟨_, _, exists_start hlstart hrstart, hordered.perm,
    pairwise_before (rightValue_eq hsound htable hindex hscan hbind).1 hordered, hyields,
    fun tuples s'' h => ?_⟩
  rw [fetched_eq h, ← hfetched]

def integersIndex : Index := ((⟨0, .integer, .empty⟩ : Index).add (.integer 3) 1).add (.integer 2) 2

/-- A table of two integers with an index, in which they are the other way round. -/
def integersTable : Table :=
  ⟨⟨[.integer "b"], 4096⟩, [(1, ⟨[3, 0, 0, 0]⟩), (2, ⟨[2, 0, 0, 0]⟩)], [("b", integersIndex)]⟩

def integersStore : Store := ⟨4096, [("r", integersTable)]⟩

theorem reachable_integersStore : integersStore.Reachable := by
  have hcreate : Store.Reachable ⟨4096, [("r", ⟨⟨[.integer "b"], 4096⟩, [], []⟩)]⟩ :=
    .createTable (.empty 4096) (show Store.createTable _ "r" [.integer "b"] = _ from rfl)
  have hinsert : Store.Reachable
      ⟨4096, [("r", ⟨⟨[.integer "b"], 4096⟩, [(1, ⟨[3, 0, 0, 0]⟩)], []⟩)]⟩ :=
    .insert hcreate (show Store.insert _ "r" [.integer 3] = .ok (1, _) from rfl)
  have hinsert' : Store.Reachable
      ⟨4096, [("r", ⟨⟨[.integer "b"], 4096⟩, [(1, ⟨[3, 0, 0, 0]⟩), (2, ⟨[2, 0, 0, 0]⟩)], []⟩)]⟩ :=
    .insert hinsert (show Store.insert _ "r" [.integer 2] = .ok (2, _) from rfl)
  exact .createIndex hinsert' (show Store.createIndex _ "r" "b" = _ from rfl)

/-- A join of integers with larger ones, through that index. -/
def integers : IndexJoin where
  right := ⟨"r", "b", .integer "r.b", [.integer "r.b"]⟩
  condition := ⟨"a", .lt, .column "r.b"⟩
  predicate := ⟨⟨[.integer "a"], 4096⟩, ⟨[.integer "r.b"], 4096⟩, 0, 0, .lt, .integer⟩
  maxTupleSize := 4096
  schema := [.integer "a", .integer "r.b"]

theorem short_integersTable : integersTable.Short :=
  reachable_integersStore.short (by decide) ("r", integersTable) List.mem_cons_self

theorem yields_inOrder_integers :
    ∃ s', (integers.operator (Materialized.operator ⟨[.integer "a"], [⟨[1, 0, 0, 0]⟩]⟩)).Yields
      { store := integersStore } none s'
      [⟨[1, 0, 0, 0, 2, 0, 0, 0]⟩, ⟨[1, 0, 0, 0, 3, 0, 0, 0]⟩] := by
  let left : Materialized := ⟨[.integer "a"], [⟨[1, 0, 0, 0]⟩]⟩
  have hscan : IndexScan.bind integersStore "r" "b" none = .ok integers.right := rfl
  have hbind : bind left.schema integers.right ⟨"a", .lt, .column "r.b"⟩ {} = .ok integers := rfl
  obtain ⟨s', rows, -, hperm, hbefore, h, -⟩ := yields_inOrder (t := integersTable)
    (s := (integers.operator left.operator).initial) reachable_integersStore rfl rfl
    short_integersTable hscan hbind rfl
    (left.yields { store := integersStore } left.tuples) rfl
    (List.forall_mem_singleton.2 ⟨_, rfl⟩)
    (List.forall_mem_singleton.2 fun _ hv => Except.ok.inj hv ▸ rfl)
    (by decide)
  have hrows : rows = [(2, ⟨[2, 0, 0, 0]⟩), (1, ⟨[3, 0, 0, 0]⟩)] := by
    refine List.Perm.eq_of_pairwise (fun _ _ _ _ h h' => (h.asymm h').elim) hbefore ?_
      (hperm.trans (.swap _ _ _))
    exact List.pairwise_pair.2 ⟨_, _, .lt, rfl, rfl, rfl, .inl rfl⟩
  subst hrows
  exact ⟨s', h⟩

/-- A join of empty texts with those of a table that are read to be empty. -/
def emptyTexts : IndexJoin where
  right := ⟨"r", "s", .text "r.s" (2 ^ 32), [.text "r.s" (2 ^ 32)]⟩
  condition := ⟨"l.a", .eq, .column "r.s"⟩
  predicate := ⟨⟨[.text "l.a" 0], 4096⟩, ⟨[.text "r.s" (2 ^ 32)], 4096⟩, 0, 0, .eq, .text⟩
  maxTupleSize := 2 ^ 33
  schema := [.text "l.a" 0, .text "r.s" (2 ^ 32)]

variable {bytes : List UInt8}

theorem rightKey_emptyTexts (hlength : bytes.length = 2 ^ 32) :
    emptyTexts.predicate.rightKey ⟨Value.encode (.text bytes)⟩ = .ok (.text []) :=
  JoinPredicate.rightKey_eq_ok_iff.2 ⟨.text [], Layout.field_long hlength _ _ _, rfl⟩

theorem joins_emptyTexts (hlength : bytes.length = 2 ^ 32) :
    emptyTexts.predicate.joins ⟨[0, 0, 0, 0]⟩ ⟨Value.encode (.text bytes)⟩ = true := by
  have hleft : emptyTexts.predicate.leftKey ⟨[0, 0, 0, 0]⟩ = .ok (.text []) := rfl
  exact (JoinPredicate.joins_iff_of_eq hleft (rightKey_emptyTexts hlength) rfl).2 rfl

/-- The text of 2 ^ 32 bytes has its place in the index elsewhere, so the empty one finds none. -/
theorem yields_emptyTexts (hlength : bytes.length = 2 ^ 32) {l : left.State} {r : IndexScan.State}
    (hl : left.Yields { store := .overlong bytes } none l [⟨[0, 0, 0, 0]⟩])
    (hr : r.opened = true) :
    (emptyTexts.operator left).Yields { store := .overlong bytes } none
      ⟨⟨l, r, none, false⟩, true, false⟩ [] := by
  let keyed : List (Key × Row) := [(.text bytes, (1, ⟨Value.encode (.text bytes)⟩))]
  have hserves : emptyTexts.right.Serves { store := .overlong bytes } (.overlong bytes) keyed :=
    IndexScan.serves (Store.reachable_overlong (Nat.le_of_eq hlength)) rfl rfl rfl
      (Store.lists_overlong hlength)
  have hnone : (Comparator.eq.lookupIntervals (.text [])).flatMap
      (fun i => keyed.filter (i.contains ·.1)) = [] := by
    rw [Comparator.flatMap_lookupIntervals _ _ hserves.sorted]
    simp [keyed, Comparator.holds, Key.compare_overlong hlength]
  have hranges : emptyTexts.rangesOf ⟨[0, 0, 0, 0]⟩ = .ok [.point (.text [])] := rfl
  have hfinds : ∀ t ∈ [(⟨[0, 0, 0, 0]⟩ : Tuple)],
      emptyTexts.Finds (.overlong bytes) keyed t ((fun _ => []) t) := by
    have hrows := @Finds.rows emptyTexts (.overlong bytes) keyed ⟨[0, 0, 0, 0]⟩ _
      (Comparator.eq.lookupIntervals (.text [])) hranges rfl
    rw [hnone] at hrows
    exact List.forall_mem_singleton.2 hrows
  exact (follows_left hserves hl hfinds hr).yields "IndexNestedLoopJoin" emptyTexts.schema

/-- A row is not found by the text that it is read to have. -/
theorem not_always_inOrder :
    ¬∀ (db : Database) (left : Operator) (right : IndexScan) (join : IndexJoin)
        (condition : Condition) (config : Config) (table column : String) (t : Table)
        (l : left.State) (r : IndexScan.State) (lefts : List Tuple), db.store.Reachable →
      db.readFaults = .never → db.store.table table = .ok t →
      IndexScan.bind db.store table column none = .ok right →
      bind left.schema right condition config = .ok join →
      left.start db left.initial = (.ok (), l) → left.Yields db none l lefts →
      right.start db IndexScan.initial = (.ok (), r) → (∀ a ∈ lefts, a.IsRow left.schema) →
      (∀ a ∈ lefts, ∀ v, join.predicate.leftValue a = .ok v → v.isFinite = true) →
      (∀ a ∈ lefts, ∀ row ∈ t.rows, join.predicate.joins a row.2 = true →
        (a ++ row.2).length ≤ config.maxTupleSize) →
      ∃ (s' : (join.operator left).State) (rows : List Row),
        (join.operator left).start db (join.operator left).initial = (.ok (), s') ∧
        rows.Perm t.rows ∧ (join.operator left).Yields db none s'
          (lefts.flatMap fun a => (rows.filter (join.predicate.joins a ·.2)).map (a ++ ·.2)) := by
  intro hall
  obtain ⟨bytes, hlength⟩ : ∃ bytes : List UInt8, bytes.length = 2 ^ 32 :=
    ⟨List.replicate (2 ^ 32) 0, List.length_replicate⟩
  let db : Database := { store := .overlong bytes }
  let left : TableScan := ⟨"l", [.text "l.a" 0]⟩
  have hbind : TableScan.bind db.store "l" none = .ok left := rfl
  have htable : db.store.table "l" = .ok .emptyText := rfl
  obtain ⟨l, hlstart, hl⟩ := TableScan.exists_yields hbind htable rfl
  obtain ⟨r, hrstart⟩ : ∃ r, emptyTexts.right.start db IndexScan.initial = (.ok (), r) := ⟨_, rfl⟩
  obtain ⟨-, -, -, -, hopened, -⟩ := IndexScan.exists_of_start hrstart
  have hfits : ∀ a ∈ Table.emptyText.tuples, ∀ row ∈ (Table.overlong bytes).rows,
      emptyTexts.predicate.joins a row.2 = true → (a ++ row.2).length ≤ 2 ^ 33 := by
    intro a ha row hrow _
    obtain rfl := List.mem_singleton.1 ha
    obtain rfl := Table.eq_of_mem_overlong hrow
    rw [Tuple.length_append, Store.length_overlong hlength]
    decide
  have hscan : IndexScan.bind db.store "r" "s" none = .ok emptyTexts.right := rfl
  have hjoin : bind left.schema emptyTexts.right emptyTexts.condition { maxTupleSize := 2 ^ 33 } =
      .ok emptyTexts := rfl
  have hlrow : ∀ a ∈ Table.emptyText.tuples, a.IsRow left.schema :=
    List.forall_mem_singleton.2 ⟨[.text []], by decide⟩
  obtain ⟨s', rows, hstart, hperm, hyields⟩ := hall db left.operator emptyTexts.right emptyTexts
    emptyTexts.condition { maxTupleSize := 2 ^ 33 } "r" "s" (.overlong bytes) l r _
    (Store.reachable_overlong (Nat.le_of_eq hlength)) rfl rfl hscan hjoin hlstart hl hrstart
    hlrow (List.forall_mem_singleton.2 fun _ hv => Except.ok.inj hv ▸ rfl) hfits
  -- it yields nothing, though there is a pair that matches
  have hstart' : (emptyTexts.operator left.operator).start db
      (emptyTexts.operator left.operator).initial = (.ok (), ⟨⟨l, r, none, false⟩, true, false⟩) :=
    exists_start hlstart hrstart
  obtain rfl := (Prod.mk.inj (hstart.symm.trans hstart')).2
  obtain ⟨hnone, -⟩ := (yields_emptyTexts hlength hl hopened).unique hyields
  have hrow : (1, ⟨Value.encode (.text bytes)⟩) ∈ rows := hperm.mem_iff.2 List.mem_cons_self
  have hfound : (1, ⟨Value.encode (.text bytes)⟩) ∈
      rows.filter (emptyTexts.predicate.joins ⟨[0, 0, 0, 0]⟩ ·.2) :=
    List.mem_filter.2 ⟨hrow, joins_emptyTexts hlength⟩
  have hnil := List.map_eq_nil_iff.1
    (List.flatMap_eq_nil_iff.1 hnone.symm ⟨[0, 0, 0, 0]⟩ List.mem_cons_self)
  exact List.not_mem_nil (hnil ▸ hfound)

end QueryEngine.IndexJoin
