import QueryEngine.Proofs.Operator.KeepingJoins
import QueryEngine.Proofs.Operator.Selection
import QueryEngine.Proofs.Tuple.Concat

/-!
# Joins as selections from products

A block join tests a pair before it puts its tuples together, and a filter over the product of the
same inputs tests what was put together. The product is itself a block join, on a condition that
compares nothing, so pairs come up in the same order, and both ways find the same answers and stop
at the same errors.

* `Condition.exists_bind_append`: a condition between two schemas as one on both together.
* `Step.Sifts`, `Machine.results_of_sifts`: a machine that takes the steps of another one, but tests
  what that gives.
* `BlockJoin.Ready`: what a join holds is made of the tuples of its inputs.
* `BlockJoin.outcome_eq`: a join and the selection from the product come to the same.
-/

namespace QueryEngine

variable {db : Database}

namespace Operator

variable {op : Operator} {s s' : op.State} {n : Nat}

/-- What opening an operator and pulling it until it stops comes to: the tuples, and the error that
put an end to them, if any. -/
def outcome (op : Operator) (db : Database) (s : op.State) (n : Nat) : List Tuple × Option Error :=
  match op.start db s with
  | (.error e, _) => ([], some e)
  | (.ok _, s) => op.results db s n

theorem outcome_of_error {e : Error} (h : op.start db s = (.error e, s')) :
    op.outcome db s n = ([], some e) := by
  rw [outcome, h]

theorem outcome_of_ok (h : op.start db s = (.ok (), s')) :
    op.outcome db s n = op.results db s' n := by
  rw [outcome, h]

end Operator

/-- A filter sifts what comes of its child, whether that can be opened or not. -/
theorem Filter.outcome_eq_sift (f : Filter) (child : Operator) (u : (f.operator child).State)
    (n : Nat) : (f.operator child).outcome db u n =
      sift f.predicate.evaluate (child.outcome db u.body.child n).2
        (child.outcome db u.body.child n).1 := by
  rcases hchild : child.start db u.body.child with ⟨e | ⟨⟩, c⟩
  · have hfilter : (f.operator child).start db u = (.error e, _) :=
      Machine.start_of_error (start_of_error hchild)
    rw [Operator.outcome_of_error hchild, Operator.outcome_of_error hfilter, sift]
  · have hfilter : (f.operator child).start db u = (.ok (), f.running child c) :=
      Machine.start_of_ok (start_eq_ok_iff.2 ⟨c, hchild, rfl⟩)
    rw [Operator.outcome_of_ok hchild, Operator.outcome_of_ok hfilter, results_eq]

/-! ## Conditions between two schemas -/

namespace Condition

variable {c : Condition} {left right : Schema} {p : JoinPredicate}

/-- The condition that compares nothing can be bound where this one can. -/
theorem bindJoin_always (h : c.bindJoin left right = .ok p) :
    { c with comparator := .always }.bindJoin left right =
      .ok { p with comparator := .always } := by
  obtain ⟨name, a, b, hright, ha, hb, -, hl, hr, -, hkey⟩ := c.exists_of_bindJoin h
  obtain ⟨_, _, i, j, _, _⟩ := p
  obtain rfl := hl
  obtain rfl := hr
  obtain rfl := hkey
  simp only [bindJoin, hright, ha, hb, checkTypes, ok_bind, Comparator.needsValue,
    Bool.false_eq_true, false_and, if_false, pure_eq_ok]

/-- **A condition between two schemas is one on both together**, if its right name is not one of
the left schema as well. -/
theorem exists_bind_append (h : c.bindJoin left right = .ok p)
    (hname : ∀ name ∈ c.rightAttribute?, ∀ a ∈ left, a.name ≠ name) :
    ∃ q, c.bind (left ++ right) = .ok q ∧ ∀ s t : Tuple, s.IsRow left → t.IsRow right →
      q.evaluate (s ++ t) = p.evaluate s t := by
  obtain ⟨name, a, b, hright, ha, hb, htypes, hl, hr, hc, -⟩ := c.exists_of_bindJoin h
  have hnotleft : ∀ a ∈ left, a.name ≠ name := hname name (by simp [rightAttribute?, hright])
  have hfindLeft : (left ++ right).find c.left = .ok (p.leftPosition, a) :=
    Schema.find_eq_ok_iff.2 (Schema.find?_append_left right (Schema.find_eq_ok_iff.1 ha))
  have hfindRight : (left ++ right).find name = .ok (left.length + p.rightPosition, b) :=
    Schema.find_eq_ok_iff.2 (Schema.find?_append_right hnotleft (Schema.find_eq_ok_iff.1 hb))
  have hcheck : c.checkTypes a.dataType b.dataType = .ok () :=
    if_neg fun hne => hne.2 (htypes hne.1)
  refine ⟨⟨{ schema := left ++ right }, p.leftPosition, c.comparator,
    .field (left.length + p.rightPosition)⟩, ?_, ?_⟩
  · simp only [bind, hright, hfindLeft, hfindRight, hcheck, ok_bind, pure_eq_ok]
  · rintro s t ⟨u, hu⟩ ⟨w, hw⟩
    simp only [Predicate.evaluate, JoinPredicate.evaluate, JoinPredicate.leftValue,
      JoinPredicate.rightValue, hc, hl, hr,
      Layout.field_append_left hu hw (Schema.getElem?_of_find ha).1,
      Layout.field_append_right hu hw (Schema.getElem?_of_find hb).1]

end Condition

/-! ## Machines that test what others give -/

namespace Step

variable {σ τ : Type} {test : Tuple → Except Error Bool} {alike : σ → τ → Nat → Prop}

/-- A step, and one that gives a tuple where this one tests it. -/
inductive Sifts (test : Tuple → Except Error Bool) (alike : σ → τ → Nat → Prop) :
    Step σ → Step τ → Prop where
  | again {s t n} (states : alike s t n) : Sifts test alike (.again s n) (.again t n)
  | kept {x s t n} (passed : test x = .ok true) (states : alike s t n) :
    Sifts test alike (.emit x s n) (.emit x t n)
  | dropped {x s t n} (passed : test x = .ok false) (states : alike s t n) :
    Sifts test alike (.again s n) (.emit x t n)
  | refused {x e s t n} (failed : test x = .error e) :
    Sifts test alike (.fail e s n) (.emit x t n)
  | fail {e s t n} : Sifts test alike (.fail e s n) (.fail e t n)
  | finish {s t n} : Sifts test alike (.finish s n) (.finish t n)

/-- The step gives nothing. If the pull goes on, it does so from where `P` holds. -/
def Silent (P : σ → Nat → Prop) : Step σ → Prop
  | .again s n => P s n
  | .settled pull => ∀ x, pull.answer ≠ .ok (some x)

/-- Two machines are in one state, and `P` holds there. -/
structure Together (P : σ → Nat → Prop) (s t : σ) (n : Nat) : Prop where
  states : s = t
  holds : P s n

theorem Silent.sifts {P : σ → Nat → Prop} {step : Step σ} (h : step.Silent P) :
    step.Sifts test (Together P) step := by
  cases step with
  | again s n => exact .again ⟨rfl, h⟩
  | settled pull =>
    obtain ⟨_ | _ | x, s, n⟩ := pull
    · exact .fail
    · exact .finish
    · exact (h x rfl).elim

end Step

namespace Machine

variable {m m' : Machine} {name name' : String} {schema schema' : Schema}

theorem results_of_again {s s' : m.State} {n n' : Nat} (h : m.step db s n = .again s' n') :
    (m.operator name schema).results db ⟨s, true, false⟩ n =
      (m.operator name schema).results db ⟨s', true, false⟩ n' :=
  Operator.results_congr (guardedNext_of_again name h)

theorem results_of_emit {s s' : m.State} {n n' : Nat} {x : Tuple}
    (h : m.step db s n = .emit x s' n') :
    (m.operator name schema).results db ⟨s, true, false⟩ n =
      (x :: ((m.operator name schema).results db ⟨s', true, false⟩ n').1,
        ((m.operator name schema).results db ⟨s', true, false⟩ n').2) :=
  Operator.results_of_some (guardedNext_of_settled_ok name h)

theorem results_of_fail {s s' : m.State} {n n' : Nat} {e : Error}
    (h : m.step db s n = .fail e s' n') :
    (m.operator name schema).results db ⟨s, true, false⟩ n = ([], some e) :=
  Operator.results_of_error (guardedNext_of_settled_error name h)

theorem results_of_finish {s s' : m.State} {n n' : Nat} (h : m.step db s n = .finish s' n') :
    (m.operator name schema).results db ⟨s, true, false⟩ n = ([], none) :=
  Operator.results_of_none (guardedNext_of_settled_ok name h)

/-- A machine that tests what another one gives gives what is left of it. -/
theorem results_of_sifts (m m' : Machine) {test : Tuple → Except Error Bool}
    {alike : m.State → m'.State → Nat → Prop}
    (h : ∀ s t n, alike s t n → (m.step db s n).Sifts test alike (m'.step db t n))
    {s : m.State} {t : m'.State} {n : Nat} (hst : alike s t n) :
    (m.operator name schema).results db ⟨s, true, false⟩ n =
      Filter.sift test ((m'.operator name' schema').results db ⟨t, true, false⟩ n).2
        ((m'.operator name' schema').results db ⟨t, true, false⟩ n).1 := by
  -- Either machine may take many steps for one tuple, and this one takes them for tuples that it
  -- does not give. So the induction is on single steps, of the machine that gives all of them.
  induction t using m'.progress.induction generalizing s n with
  | h t ih =>
    have hstep := h s t n hst
    generalize hm : m.step db s n = step at hstep
    generalize hm' : m'.step db t n = step' at hstep
    cases hstep with
    | again states =>
      rw [results_of_again hm, results_of_again hm']
      exact ih _ ⟨db, n, by rw [hm']; rfl⟩ states
    | kept passed states =>
      rw [results_of_emit hm, results_of_emit hm', ih _ ⟨db, n, by rw [hm']; rfl⟩ states]
      simp only [Filter.sift, passed]
    | dropped passed states =>
      rw [results_of_again hm, results_of_emit hm', ih _ ⟨db, n, by rw [hm']; rfl⟩ states]
      simp only [Filter.sift, passed]
    | refused failed =>
      rw [results_of_fail hm, results_of_emit hm']
      simp only [Filter.sift, failed]
    | fail => rw [results_of_fail hm, results_of_fail hm', Filter.sift]
    | finish => rw [results_of_finish hm, results_of_finish hm', Filter.sift]

end Machine

/-! ## Block joins -/

namespace TableScan

/-- The tuples that an open scan gives from its first row on. -/
def State.tuples (s : State) : List Tuple :=
  (s.scanner.map fun scanner => scanner.rows.map (·.2)).getD []

/-- A scan that was just opened is before its first row. -/
theorem fit_of_start {scan : TableScan} {s r : State} (h : scan.start db s = (.ok (), r)) :
    ∀ scanner ∈ r.scanner, scanner.Fit (· ∈ r.tuples) (.still db) := by
  have hfit : ∀ (rows : List Row) (closed : Bool) (calls rewinds : Nat) (faults : ScanFaults),
      (RowScanner.mk rows rows closed calls rewinds faults).Fit (· ∈ rows.map (·.2)) (.still db) :=
    fun rows _ _ _ _ =>
      have hrow : ∀ row ∈ rows, row.2 ∈ rows.map (·.2) := fun _ => List.mem_map_of_mem
      ⟨hrow, hrow, fun _ _ _ _ => trivial, fun _ _ _ => trivial⟩
  unfold start at h
  split at h
  · obtain ⟨scanner, _, -, hback, rfl⟩ := rewind_eq_ok_iff.1 h
    obtain ⟨-, rfl⟩ := RowScanner.rewind_eq_ok_iff.1 hback
    rintro _ ⟨⟩
    exact hfit _ _ _ _ _
  · split at h
    · cases (Prod.mk.inj h).1
    · rename_i hscan
      obtain ⟨-, rfl⟩ := Prod.mk.inj h
      obtain ⟨table, -, hrows⟩ := bind_eq_ok_iff.1 hscan
      obtain rfl := Except.ok.inj hrows
      rintro _ ⟨⟩
      exact hfit _ _ _ _ _

end TableScan

namespace BlockJoin

variable {join : BlockJoin} {left : Operator} {goodLeft goodRight : Tuple → Prop}
  {s : State left.State} {n : Nat}

/-- The join of the same inputs in the same blocks, on a condition that compares nothing. -/
def product (join : BlockJoin) : BlockJoin :=
  { join with
    condition := { join.condition with comparator := .always }
    predicate := { join.predicate with comparator := .always } }

theorem bind_product {left : Schema} {right : TableScan} {condition : Condition} {pages : Nat}
    {config : Config} (h : bind left right condition pages config = .ok join) :
    bind left right { condition with comparator := .always } pages config = .ok join.product := by
  simp only [bind, bind_eq_ok_iff, throw_eq_error, error_bind, refuse_eq_ok_iff, pure_eq_ok,
    Except.ok.injEq] at h ⊢
  obtain ⟨u, hvalid, hpages, p, hp, rfl⟩ := h
  exact ⟨u, hvalid, hpages, _, Condition.bindJoin_always hp, rfl⟩

/-- All that the join holds, and all that it will still read, is made of good tuples. What the left
input has still to give depends on how often was read before. Once it has ended it is not asked
again. -/
structure Ready (goodLeft goodRight : Tuple → Prop) (db : Database) (s : State left.State)
    (n : Nat) : Prop where
  left : s.exhausted = false → ∀ t ∈ (left.results db s.left n).1, goodLeft t
  right : (TableScan.contract (.still db) goodRight).holds false db s.right
  block : ∀ t ∈ s.block.toList, goodLeft t
  phase : s.phase.Fit goodLeft goodRight

theorem silent_complete (hs : Ready goodLeft goodRight db s n) {pending : Option Tuple}
    (hpending : ∀ t ∈ pending, goodLeft t) :
    (s.complete pending n).Silent (Ready goodLeft goodRight db) := by
  have hrewind := TableScan.starts_rewind hs.right
  unfold State.complete
  split
  · exact fun x h => nomatch h
  · rename_i hc
    rw [hc] at hrewind
    exact ⟨hs.left, Contract.weaken _ hrewind, hs.block, hpending, fun _ h => nomatch h⟩

theorem silent_fill (join : BlockJoin) (hs : Ready goodLeft goodRight db s n) :
    (join.fill left db s n).Silent (Ready goodLeft goodRight db) := by
  unfold fill
  split
  · split
    · exact fun x h => nomatch h
    · exact silent_complete hs fun _ h => nomatch h
  · rename_i hexhausted
    split
    · exact fun x h => nomatch h
    · exact ⟨fun h => (nomatch h), hs.right, hs.block, hs.phase⟩
    · rename_i t l k hnext
      have hleft := hs.left (Bool.eq_false_of_not_eq_true hexhausted)
      rw [Operator.results_of_some hnext] at hleft
      obtain ⟨ht, hrest⟩ := List.forall_mem_cons.1 hleft
      have hs' : Ready goodLeft goodRight db { s with left := l } k :=
        ⟨fun _ => hrest, hs.right, hs.block, hs.phase⟩
      simp only
      split
      · exact silent_complete hs' fun u hu => Option.mem_some_iff.1 hu ▸ ht
      · refine ⟨fun _ => hrest, hs.right, ?_, hs.phase⟩
        simp only [State.take, Pile.toList_push, List.forall_mem_append, List.forall_mem_singleton]
        exact ⟨hs.block, ht⟩

/-- The product puts together what the join tests. -/
theorem sifts_test {test : Tuple → Except Error Bool} {l r : Tuple}
    (htest : test (l ++ r) = join.predicate.evaluate l r)
    (hfits : (l ++ r).length ≤ join.maxTupleSize) (hs : Ready goodLeft goodRight db s n) :
    (join.test l r s n).Sifts test (Step.Together (Ready goodLeft goodRight db))
      (join.product.test l r s n) := by
  have hpair : l.joinWithin join.maxTupleSize r = .ok (l ++ r) := if_neg (Nat.not_lt.2 hfits)
  have hproduct : join.product.test l r s n = .emit (l ++ r) s n := by
    simp only [BlockJoin.test, product, JoinPredicate.evaluate, Comparator.needsValue,
      Bool.false_eq_true, if_false, hpair]
  rw [hproduct, BlockJoin.test]
  cases hmatched : join.predicate.evaluate l r with
  | error e => exact .refused (htest.trans hmatched)
  | ok matched =>
    cases matched with
    | false => exact .dropped (htest.trans hmatched) ⟨rfl, hs⟩
    | true =>
      simp only [hpair]
      exact .kept (htest.trans hmatched) ⟨rfl, hs⟩

theorem sifts_step {test : Tuple → Except Error Bool}
    (htest : ∀ l r, goodLeft l → goodRight r →
      test (l ++ r) = join.predicate.evaluate l r ∧ (l ++ r).length ≤ join.maxTupleSize)
    (hs : Ready goodLeft goodRight db s n) :
    (join.step left db s n).Sifts test (Step.Together (Ready goodLeft goodRight db))
      (join.product.step left db s n) := by
  unfold step
  split
  · exact .finish
  · have hphase := hs.phase
    split
    · exact (silent_fill join hs).sifts
    · rename_i pending r l untested hp
      rw [hp] at hphase
      obtain ⟨hpending, hcurrent⟩ := hphase
      obtain ⟨hr, huntested⟩ := hcurrent _ rfl
      obtain ⟨hl, huntested⟩ := List.forall_mem_cons.1 huntested
      obtain ⟨hevaluate, hfits⟩ := htest l r hl hr
      refine sifts_test hevaluate hfits ⟨hs.left, hs.right, hs.block, hpending, ?_⟩
      rintro _ ⟨⟩
      exact ⟨hr, huntested⟩
    · rename_i pending r hp
      rw [hp] at hphase
      exact .again ⟨rfl, ⟨hs.left, hs.right, hs.block, hphase.1, fun _ h => nomatch h⟩⟩
    · rename_i pending hp
      rw [hp] at hphase
      have hnext := TableScan.pulls hs.right n
      split
      · exact .fail
      · rename_i hc
        rw [hc] at hnext
        refine .again ⟨rfl, ⟨hs.left, hnext, ?_, trivial⟩⟩
        simpa [State.nextBlock] using hphase.1
      · rename_i hc
        rw [hc] at hnext
        refine .again ⟨rfl, ⟨hs.left, hnext.2, hs.block, hphase.1, ?_⟩⟩
        rintro _ ⟨⟩
        exact ⟨hnext.1, hs.block⟩

/-- In a run, a join gives what a test leaves of the product. -/
theorem results_eq_sift {test : Tuple → Except Error Bool}
    (htest : ∀ l r, goodLeft l → goodRight r →
      test (l ++ r) = join.predicate.evaluate l r ∧ (l ++ r).length ≤ join.maxTupleSize)
    (hs : Ready goodLeft goodRight db s n) :
    (join.operator left).results db ⟨s, true, false⟩ n =
      Filter.sift test ((join.product.operator left).results db ⟨s, true, false⟩ n).2
        ((join.product.operator left).results db ⟨s, true, false⟩ n).1 := by
  have hsteps : ∀ (s t : State left.State) n, Step.Together (Ready goodLeft goodRight db) s t n →
      (join.step left db s n).Sifts test (Step.Together (Ready goodLeft goodRight db))
        (join.product.step left db t n) := by
    rintro s _ n ⟨rfl, hs⟩
    exact sifts_step htest hs
  exact Machine.results_of_sifts (join.machine left) (join.product.machine left) hsteps ⟨rfl, hs⟩

theorem ready_fresh {l : left.State} {r : TableScan.State}
    (hl : ∀ t ∈ (left.results db l n).1, goodLeft t) (hr : ∀ scanner ∈ r.scanner,
      scanner.Fit goodRight (.still db)) : Ready goodLeft goodRight db (.fresh l r) n :=
  ⟨fun _ => hl, ⟨fun h => (nomatch h), hr⟩, fun _ h => (nomatch h), trivial⟩

theorem schema_of_bind {left : Schema} {right : TableScan} {condition : Condition} {pages : Nat}
    {config : Config} (h : bind left right condition pages config = .ok join) :
    join.schema = left ++ right.schema := by
  simp only [bind, bind_eq_ok_iff, throw_eq_error, error_bind, refuse_eq_ok_iff, pure_eq_ok,
    Except.ok.injEq] at h
  obtain ⟨_, -, -, p, -, rfl⟩ := h
  rfl

/-- What comes of a join is what a test leaves of what comes of the product. -/
theorem outcome_sift {test : Tuple → Except Error Bool} {s : (join.operator left).State}
    {t : (join.product.operator left).State} (hbody : t.body = s.body)
    (htest : ∀ l r, left.start db s.body.left = (.ok (), l) →
      join.right.start db s.body.right = (.ok (), r) →
      ∀ a ∈ (left.results db l n).1, ∀ b ∈ r.tuples,
        test (a ++ b) = join.predicate.evaluate a b ∧ (a ++ b).length ≤ join.maxTupleSize) :
    (join.operator left).outcome db s n =
      Filter.sift test ((join.product.operator left).outcome db t n).2
        ((join.product.operator left).outcome db t n).1 := by
  rcases hstart : join.start left db s.body with ⟨e | ⟨⟩, b⟩
  · have hjoin : (join.operator left).start db s = (.error e, _) := Machine.start_of_error hstart
    have hproduct : (join.product.operator left).start db t = (.error e, _) :=
      Machine.start_of_error (hbody ▸ hstart)
    rw [Operator.outcome_of_error hjoin, Operator.outcome_of_error hproduct, Filter.sift]
  · have hjoin : (join.operator left).start db s = (.ok (), ⟨b, true, false⟩) :=
      Machine.start_of_ok hstart
    have hproduct : (join.product.operator left).start db t = (.ok (), ⟨b, true, false⟩) :=
      Machine.start_of_ok (hbody ▸ hstart)
    obtain ⟨l, r, hl, hr, rfl⟩ := start_eq_ok_iff.1 hstart
    have hready : Ready (· ∈ (left.results db l n).1) (· ∈ r.tuples) db (.fresh l r) n :=
      ready_fresh (fun _ ht => ht) (TableScan.fit_of_start hr)
    rw [Operator.outcome_of_ok hjoin, Operator.outcome_of_ok hproduct]
    exact results_eq_sift (fun a b ha hb => htest l r hl hr a ha b hb) hready

/-- **A block join on a condition is the selection by it from the product**, with the tuples in the
same order and the same error in the same place. -/
theorem outcome_eq {right : TableScan} {condition : Condition} {pages : Nat} {config : Config}
    (hbind : bind left.schema right condition pages config = .ok join)
    (hname : ∀ name ∈ condition.rightAttribute?, ∀ a ∈ left.schema, a.name ≠ name) :
    ∃ product f,
      bind left.schema right { condition with comparator := .always } pages config = .ok product ∧
      Filter.bind (product.operator left).schema condition = .ok f ∧
      ∀ db n (s : (join.operator left).State) (u : (f.operator (product.operator left)).State),
        u.body.child.body = s.body →
        (∀ l r, left.start db s.body.left = (.ok (), l) →
          right.start db s.body.right = (.ok (), r) →
          (∀ a ∈ (left.results db l n).1, a.IsRow left.schema) ∧
          (∀ b ∈ r.tuples, b.IsRow right.schema) ∧
          ∀ a ∈ (left.results db l n).1, ∀ b ∈ r.tuples, (a ++ b).length ≤ config.maxTupleSize) →
        (join.operator left).outcome db s n =
          (f.operator (product.operator left)).outcome db u n := by
  obtain ⟨hpredicate, rfl, -, hmax⟩ := exists_of_bind hbind
  obtain ⟨q, hq, hevaluate⟩ := condition.exists_bind_append hpredicate hname
  refine ⟨join.product, ⟨condition, q⟩, bind_product hbind, ?_, ?_⟩
  · have hschema : (join.product.operator left).schema = left.schema ++ join.right.schema :=
      schema_of_bind (bind_product hbind)
    rw [hschema, Filter.bind, hq]
    rfl
  · intro db n s u hbody hinputs
    rw [Filter.outcome_eq_sift]
    refine outcome_sift hbody fun l r hl hr a ha b hb => ?_
    obtain ⟨hlefts, hrights, hfits⟩ := hinputs l r hl hr
    exact ⟨hevaluate a b (hlefts a ha) (hrights b hb), hmax ▸ hfits a ha b hb⟩

/-- A table of two reals, of which the second is not a number. -/
def realsStore : Store where
  tables := [("r", ⟨⟨[.real "b"], 4096⟩, [(1, ⟨[0, 0, 0, 64]⟩), (2, ⟨[0, 0, 192, 127]⟩)], []⟩)]

/-- A join of reals with larger ones, in blocks of one tuple. -/
def reals : BlockJoin where
  right := ⟨"r", [.real "r.b"]⟩
  condition := ⟨"a", .lt, .column "r.b"⟩
  predicate := ⟨⟨[.real "a"], 4096⟩, ⟨[.real "r.b"], 4096⟩, 0, 0, .lt, .real⟩
  budget := 4
  maxTupleSize := 4096
  schema := [.real "a", .real "r.b"]

/-- The real 1 is less than the first real of the table, and cannot be compared with the second. -/
theorem outcome_eq_reals :
    let lefts : List Tuple := [⟨[0, 0, 128, 63]⟩, ⟨[0, 0, 64, 64]⟩]
    let left := Materialized.operator ⟨[.real "a"], lefts⟩
    let db : Database := { store := realsStore }
    bind left.schema reals.right reals.condition 1 { pageSize := 4 } = .ok reals ∧
      ∃ product f,
        bind left.schema reals.right { reals.condition with comparator := .always } 1
          { pageSize := 4 } = .ok product ∧
        Filter.bind (product.operator left).schema reals.condition = .ok f ∧
        (f.operator (product.operator left)).outcome db
          (f.operator (product.operator left)).initial 0 =
            ([⟨[0, 0, 128, 63, 0, 0, 0, 64]⟩], some .nonFiniteReal) := by
  intro lefts left db
  have hbind : bind left.schema reals.right reals.condition 1 { pageSize := 4 } = .ok reals := rfl
  have hname : ∀ name ∈ reals.condition.rightAttribute?, ∀ a ∈ left.schema, a.name ≠ name := by
    rintro _ ⟨⟩ a ha
    obtain rfl := List.mem_singleton.1 ha
    decide
  obtain ⟨product, f, hproduct, hf, houtcome⟩ := outcome_eq hbind hname
  have hjoin : (reals.operator left).outcome db (reals.operator left).initial 0 =
      ([⟨[0, 0, 128, 63, 0, 0, 0, 64]⟩], some .nonFiniteReal) := by
    let opened := (reals.operator left).start db (reals.operator left).initial
    have hstart : opened = (.ok (), opened.2) := rfl
    obtain ⟨u, k, hdrain⟩ : ∃ u k, (reals.operator left).drain db opened.2 0 =
        ([⟨[0, 0, 128, 63, 0, 0, 0, 64]⟩], some .nonFiniteReal, u, k) :=
      ⟨_, _, Machine.drain_of_drainWithin _ _ 20 rfl⟩
    rw [Operator.outcome_of_ok hstart, Operator.results, hdrain]
  refine ⟨hbind, product, f, hproduct, hf, ?_⟩
  rw [← houtcome db 0 (reals.operator left).initial _ rfl ?_, hjoin]
  rintro l r ⟨⟩ ⟨⟩
  have hlefts : (left.results db ⟨lefts, true⟩ 0).1 = lefts := by
    rw [(Materialized.yields ⟨[.real "a"], lefts⟩ db lefts).results_eq 0]
  have hrows : (∀ a ∈ lefts, a.IsRow left.schema) ∧
      ∀ b ∈ [(⟨[0, 0, 0, 64]⟩ : Tuple), ⟨[0, 0, 192, 127]⟩], b.IsRow reals.right.schema := by
    simp only [lefts, List.forall_mem_cons, List.not_mem_nil, false_implies, implies_true, and_true]
    exact ⟨⟨⟨_, rfl⟩, ⟨_, rfl⟩⟩, ⟨_, rfl⟩, ⟨_, rfl⟩⟩
  refine ⟨fun a ha => hrows.1 a (hlefts ▸ ha), hrows.2, fun a ha => ?_⟩
  exact (by decide : ∀ a ∈ lefts, ∀ b ∈ [(⟨[0, 0, 0, 64]⟩ : Tuple), ⟨[0, 0, 192, 127]⟩],
    (a ++ b).length ≤ 4096) a (hlefts ▸ ha)

end BlockJoin

end QueryEngine
