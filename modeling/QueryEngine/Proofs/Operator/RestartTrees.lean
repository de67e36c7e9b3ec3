import QueryEngine.Proofs.Operator.Closed
import QueryEngine.Proofs.Operator.Growing
import QueryEngine.Proofs.Operator.KeepingJoins
import QueryEngine.Proofs.Operator.Restart

/-!
# Opening trees again

Aggregates, block joins and hash joins can be opened again as their children can. What they have
kept of the tuples of an earlier run is let go when they are opened, so that two states after
opening differ in their children alone, and there not in what they answer.

* `Operator.Bisimilar.exists_fold`: taking in all tuples makes the same from bisimilar states.
* `BlockJoin.restartable`: the right table is opened anew or gone through from its first row, and
  has the same rows either way (`TableScan.readsOnly`).
* `Pipeline.reopens`: after any calls, opening a tree of these operators starts the first run anew.
-/

namespace QueryEngine

variable {db : Database} {n n' : Nat}

/-- Taking in all tuples from bisimilar states. -/
theorem Operator.Bisimilar.exists_fold {β : Type} {op : Operator} {s t : op.State}
    (h : op.Bisimilar db s t) (f : β → Tuple → Except Error β) (b : β) (n n' : Nat) :
    ∃ result u v k k', op.fold f db b s n = (result, u, k) ∧
      op.fold f db b t n' = (result, v, k') ∧ op.Bisimilar db u v := by
  fun_induction Operator.fold op f db b s n generalizing t n' with
  | case1 b s n e s' k hnext =>
    obtain ⟨_, u, v, _, k', hs, ht, huv⟩ := h.exists_next n n'
    obtain ⟨rfl, rfl, rfl⟩ := Pull.mk.inj (hs.symm.trans hnext)
    exact ⟨_, _, _, _, _, rfl, fold_of_error ht, huv⟩
  | case2 b s n s' k hnext =>
    obtain ⟨_, u, v, _, k', hs, ht, huv⟩ := h.exists_next n n'
    obtain ⟨rfl, rfl, rfl⟩ := Pull.mk.inj (hs.symm.trans hnext)
    exact ⟨_, _, _, _, _, rfl, fold_of_none ht, huv⟩
  | case3 b s n t' s' k hnext e he =>
    obtain ⟨_, u, v, _, k', hs, ht, huv⟩ := h.exists_next n n'
    obtain ⟨rfl, rfl, rfl⟩ := Pull.mk.inj (hs.symm.trans hnext)
    exact ⟨_, _, _, _, _, rfl, fold_of_refused ht he, huv⟩
  | case4 b s n t' s' k hnext b' hb ih =>
    obtain ⟨_, u, v, _, k', hs, ht, huv⟩ := h.exists_next n n'
    obtain ⟨rfl, rfl, rfl⟩ := Pull.mk.inj (hs.symm.trans hnext)
    rw [fold_of_taken ht hb]
    exact ih huv k'

/-! ## Leaves and operators of one child -/

theorem Empty.restartable (leaf : Empty) (db : Database) : leaf.operator.Restartable db := by
  rintro u ⟨⟩
  refine ⟨_, leaf.keeps, fun s _ => ⟨_, rfl, (· = ·), ?_, rfl⟩⟩
  rintro s _ rfl n n'
  cases s <;> exact ⟨rfl, rfl⟩

namespace Aggregate

variable {a : Aggregate} {child : Operator}

/-- The children are bisimilar, and the tuples to be yielded are the same. -/
def Bisimilar (child : Operator) (db : Database) (s t : State child.State) : Prop :=
  child.Bisimilar db s.child t.child ∧ s.output = t.output

theorem exists_compute (a : Aggregate) {s t : child.State} (h : child.Bisimilar db s t)
    (n n' : Nat) : ∃ result u v k k', a.compute child db s n = (result, u, k) ∧
      a.compute child db t n' = (result, v, k') ∧ child.Bisimilar db u v := by
  unfold compute
  split
  · obtain ⟨result, u, v, k, k', hs, ht, huv⟩ := h.exists_fold a.add .empty n n'
    rw [hs, ht]
    exact ⟨_, _, _, _, _, rfl, rfl, huv⟩
  · rename_i position keyType _
    obtain ⟨result, u, v, k, k', hs, ht, huv⟩ :=
      h.exists_fold (a.addGrouped position) (.empty keyType) n n'
    rw [hs, ht]
    exact ⟨_, _, _, _, _, rfl, rfl, huv⟩

theorem matches_bisimilar (a : Aggregate) (child : Operator) (db : Database) :
    (a.machine child).Matches db (Bisimilar child db) := by
  rintro ⟨s, output⟩ ⟨t, _⟩ ⟨hst, rfl⟩ n n'
  show Step.Agree _ (a.step child db _ n) (a.step child db _ n')
  rcases output with _ | _ | ⟨t, rest⟩
  · obtain ⟨result, u, v, k, k', hs, ht, huv⟩ := a.exists_compute hst n n'
    simp only [step, hs, ht]
    cases result with
    | error e => exact ⟨rfl, huv, rfl⟩
    | ok tuples => exact ⟨huv, rfl⟩
  · exact ⟨rfl, hst, rfl⟩
  · exact ⟨rfl, hst, rfl⟩

/-- Computing keeps what the child does. -/
theorem folds_compute_still {c : Contract (.still db) child.State}
    (hchild : child.Keeps c fun _ => True) {running : Bool} {db' : Database} {s : child.State}
    (hdb : (Setting.still db).changes db' db') (hs : c.holds running db' s) :
    c.Folds (fun tuples => ∀ t ∈ tuples, True) running db' (a.compute child db' s n) := by
  have hmeets : ∀ x : Except Error (List Tuple),
      Meets (fun tuples => ∀ t ∈ tuples, True) (Setting.still db).may x :=
    fun _ => meets_iff.2 ⟨fun _ _ _ _ => trivial, fun _ _ => trivial⟩
  unfold compute
  split
  · have hfold : c.Folds (fun _ => True) running db' (child.fold a.add db' .empty s n) :=
      hchild.pulled.fold hdb (fun _ _ _ _ => meets_trivial _) trivial hs n
    exact hfold.bind fun _ _ => hmeets _
  · rename_i position keyType _
    have hfold : c.Folds (fun _ => True) running db'
        (child.fold (a.addGrouped position) db' (.empty keyType) s n) :=
      hchild.pulled.fold hdb (fun _ _ _ _ => meets_trivial _) trivial hs n
    exact hfold.bind fun _ _ => hmeets _

theorem restartable (hchild : child.Restartable db) : (a.operator child).Restartable db := by
  intro u hu
  obtain ⟨_, hbody, rfl⟩ := Machine.exists_start hu
  obtain ⟨c₀, hc₀, rfl⟩ := start_eq_ok_iff.1 hbody
  obtain ⟨c, hkeeps, hrestart⟩ := hchild c₀ hc₀
  have ha : (a.machine child).Keeps (contract c fun _ => True) fun _ => True :=
    Aggregate.keeps hkeeps fun hdb hs => folds_compute_still hkeeps hdb hs
  refine ⟨_, ha.operator _ _, fun s hs => ?_⟩
  obtain ⟨v, hv, hsim⟩ := hrestart _ hs.1.1
  have hstart : start child db s.body = (.ok (), ⟨v, none⟩) := start_eq_ok_iff.2 ⟨v, hv, rfl⟩
  have hbodies : Bisimilar child db ⟨v, none⟩ ⟨c₀, none⟩ := ⟨hsim, rfl⟩
  exact ⟨_, Machine.start_of_ok hstart, (a.matches_bisimilar child db).bisimilar hbodies _ _ _ _⟩

end Aggregate

/-! ## Joins -/

namespace BlockJoin

variable {join : BlockJoin} {left : Operator}

/-- The children are bisimilar, and all else is the same. -/
def Bisimilar (left : Operator) (db : Database) (s t : State left.State) : Prop :=
  left.Bisimilar db s.left t.left ∧ TableScan.Bisimilar s.right t.right ∧
    t = { s with left := t.left, right := t.right }

theorem agree_complete {s t : State left.State} (h : Bisimilar left db s t)
    (pending : Option Tuple) (n n' : Nat) :
    Step.Agree (Bisimilar left db) (s.complete pending n) (t.complete pending n') := by
  obtain ⟨hl, hr, heq⟩ := h
  obtain ⟨u, v, hu, hv, huv⟩ := hr.exists_rewind
  unfold State.complete
  rw [hu, hv, heq]
  exact ⟨hl, huv, rfl⟩

theorem agree_fill {s t : State left.State} (h : Bisimilar left db s t) (n n' : Nat) :
    Step.Agree (Bisimilar left db) (join.fill left db s n) (join.fill left db t n') := by
  obtain ⟨l, r, block, bytes, phase, exhausted, done⟩ := s
  obtain ⟨l', r', _, _, _, _, _⟩ := t
  obtain ⟨hl, hr, ⟨⟩⟩ := h
  obtain ⟨answer, u, v, k, k', hs, ht, huv⟩ := Operator.Bisimilar.exists_next hl n n'
  unfold fill
  cases exhausted with
  | true =>
    by_cases hblock : block.isEmpty = true
    · simp only [hblock, if_true]
      exact ⟨rfl, hl, hr, rfl⟩
    · simp only [hblock, if_true]
      exact agree_complete ⟨hl, hr, rfl⟩ none n n'
  | false =>
    simp only [hs, ht, Bool.false_eq_true, if_false]
    rcases answer with e | _ | t
    · exact ⟨rfl, huv, hr, rfl⟩
    · exact ⟨huv, hr, rfl⟩
    · simp only
      split
      · refine agree_complete ?_ (some t) k k'
        exact ⟨huv, hr, rfl⟩
      · exact ⟨huv, hr, rfl⟩

theorem agree_test (join : BlockJoin) {s t : State left.State} (h : Bisimilar left db s t)
    (l r : Tuple) (n n' : Nat) :
    Step.Agree (Bisimilar left db) (join.test l r s n) (join.test l r t n') := by
  unfold test
  split
  · exact ⟨rfl, h⟩
  · exact h
  · split <;> exact ⟨rfl, h⟩

theorem matches_bisimilar (join : BlockJoin) (left : Operator) (db : Database) :
    (join.machine left).Matches db (Bisimilar left db) := by
  rintro ⟨l, r, block, bytes, phase, exhausted, done⟩ ⟨l', r', _, _, _, _, _⟩ ⟨hl, hr, ⟨⟩⟩ n n'
  show Step.Agree _ (join.step left db _ n) (join.step left db _ n')
  unfold step
  cases done with
  | true => exact ⟨rfl, hl, hr, rfl⟩
  | false =>
    simp only [Bool.false_eq_true, if_false]
    rcases phase with _ | ⟨pending, _ | ⟨t, _ | ⟨u, untested⟩⟩⟩
    · exact agree_fill ⟨hl, hr, rfl⟩ n n'
    · obtain ⟨hanswer, hnext⟩ := hr.next
      rcases hs : TableScan.next r with ⟨a, u⟩
      rcases ht : TableScan.next r' with ⟨b, v⟩
      rw [hs, ht] at hanswer hnext
      obtain rfl : a = b := hanswer
      rcases a with e | _ | t
      · exact ⟨rfl, hl, hnext, rfl⟩
      · exact ⟨hl, hnext, rfl⟩
      · exact ⟨hl, hnext, rfl⟩
    · exact ⟨hl, hr, rfl⟩
    · refine join.agree_test ?_ u t n n'
      exact ⟨hl, hr, rfl⟩

/-- A scan in a run can be gone through again, and has the same rows then. -/
theorem rewinds_readsOnly (db : Database) (rows : List Row) :
    Rewinds ((TableScan.contract (.still db) fun _ => True).and (TableScan.readsOnly db rows)) := by
  intro running db' s hs
  have hstarts := TableScan.starts_rewind hs.1
  have hstarts' := TableScan.starts_readsOnly hs.2
  rcases hrewind : TableScan.rewind s with ⟨_ | _, s'⟩ <;> rw [hrewind] at hstarts hstarts'
  · exact ⟨hstarts.1, hstarts.2, hstarts'.2⟩
  · exact ⟨hstarts, hstarts'⟩

theorem restartable (hleft : left.Restartable db) (hfaults : db.scanFaults = .never) :
    (join.operator left).Restartable db := by
  intro u hu
  obtain ⟨_, hbody, rfl⟩ := Machine.exists_start hu
  obtain ⟨l₀, r₀, hl₀, hr₀, rfl⟩ := start_eq_ok_iff.1 hbody
  obtain ⟨c, hkeeps, hrestart⟩ := hleft l₀ hl₀
  obtain ⟨rows, hreads, hreopen⟩ := TableScan.exists_start hfaults hr₀
  -- `readsOnly` does not say that the scan is open, which going back to its first row needs.
  have hscan : join.right.operator.Keeps (TableScan.contract (.still db) fun _ => True)
      fun _ => True := by
    refine TableScan.keeps fun {db'} _ => ?_
    exact meets_iff.2 ⟨fun _ _ => ⟨fun _ _ => trivial, fun _ _ => trivial, fun _ _ _ _ => trivial,
      fun _ _ _ => trivial⟩, fun _ _ => trivial⟩
  have hjoin : (join.machine left).Keeps _ fun _ => True :=
    BlockJoin.keeps hkeeps (hscan.and hreads) (rewinds_readsOnly db rows)
      ⟨fun _ _ _ _ => meets_trivial _, fun _ _ _ _ => meets_trivial _⟩
  refine ⟨_, hjoin.operator _ _, fun s hs => ?_⟩
  obtain ⟨l, hl, hsim⟩ := hrestart _ hs.1.1.1
  obtain ⟨r, hr, hsimRight⟩ := hreopen _ hs.1.1.2.2
  have hstart : join.start left db s.body = (.ok (), .fresh l r) :=
    start_eq_ok_iff.2 ⟨l, r, hl, hr, rfl⟩
  have hbodies : Bisimilar left db (.fresh l r) (.fresh l₀ r₀) := ⟨hsim, hsimRight, rfl⟩
  exact ⟨_, Machine.start_of_ok hstart,
    (join.matches_bisimilar left db).bisimilar hbodies _ _ _ _⟩

end BlockJoin

namespace HashJoin

variable {join : HashJoin} {left right : Operator}

/-- The children are bisimilar, and the partitions are the same. -/
def Bisimilar (left right : Operator) (db : Database) (s t : State left.State right.State) : Prop :=
  left.Bisimilar db s.left t.left ∧ right.Bisimilar db s.right t.right ∧ s.phase = t.phase

theorem agree_spread {s t : State left.State right.State} (h : Bisimilar left right db s t)
    (n n' : Nat) : Step.Agree (Bisimilar left right db) (join.spread left right db s n)
      (join.spread left right db t n') := by
  obtain ⟨hl, hr, hphase⟩ := h
  obtain ⟨lefts, u, v, k, k', hs, ht, huv⟩ := hl.exists_fold (join.place .left) join.noTuples n n'
  unfold spread
  rw [hs, ht]
  cases lefts with
  | error e => exact ⟨rfl, huv, hr, hphase⟩
  | ok lefts =>
    obtain ⟨rights, u', v', j, j', hs', ht', huv'⟩ :=
      hr.exists_fold (join.place .right) join.noTuples k k'
    simp only [hs', ht']
    cases rights with
    | error e => exact ⟨rfl, huv, huv', hphase⟩
    | ok rights => exact ⟨huv, huv', rfl⟩

theorem agree_readProbe {s t : State left.State right.State} (h : Bisimilar left right db s t)
    (pending : List (Spill.Partition × Spill.Partition)) (active : Active) (n n' : Nat) :
    Step.Agree (Bisimilar left right db) (join.readProbe pending active s n)
      (join.readProbe pending active t n') := by
  unfold readProbe
  split
  · exact ⟨rfl, h⟩
  · exact ⟨h.1, h.2.1, rfl⟩
  · split
    · exact ⟨rfl, h⟩
    · exact ⟨h.1, h.2.1, rfl⟩

theorem matches_bisimilar (join : HashJoin) (left right : Operator) (db : Database) :
    (join.machine left right).Matches db (Bisimilar left right db) := by
  rintro ⟨l, r, phase⟩ ⟨l', r', _⟩ ⟨hl, hr, rfl⟩ n n'
  show Step.Agree _ (join.step left right db _ n) (join.step left right db _ n')
  unfold step
  simp only
  split
  · exact agree_spread ⟨hl, hr, rfl⟩ n n'
  · exact ⟨rfl, hl, hr, rfl⟩
  · split
    · exact ⟨rfl, hl, hr, rfl⟩
    · exact ⟨hl, hr, rfl⟩
  · split
    · split <;> exact ⟨rfl, hl, hr, rfl⟩
    · exact agree_readProbe ⟨hl, hr, rfl⟩ _ _ n n'

theorem restartable (hleft : left.Restartable db) (hright : right.Restartable db) :
    (join.operator left right).Restartable db := by
  intro u hu
  obtain ⟨_, hbody, rfl⟩ := Machine.exists_start hu
  obtain ⟨l₀, r₀, hl₀, hr₀, rfl⟩ := start_eq_ok_iff.1 hbody
  obtain ⟨c, hkeeps, hrestart⟩ := hleft l₀ hl₀
  obtain ⟨d, hkeepsRight, hrestartRight⟩ := hright r₀ hr₀
  have hjoin : (join.machine left right).Keeps (join.contract c d fun _ _ => True) fun _ => True :=
    HashJoin.keeps hkeeps hkeepsRight
      ⟨fun _ _ _ => meets_trivial _, fun _ _ => trivial, fun _ _ _ _ => meets_trivial _⟩
  refine ⟨_, hjoin.operator _ _, fun s hs => ?_⟩
  obtain ⟨l, hl, hsim⟩ := hrestart _ hs.1.1.1
  obtain ⟨r, hr, hsimRight⟩ := hrestartRight _ hs.1.1.2
  have hstart : start left right db s.body = (.ok (), ⟨l, r, .spreading⟩) :=
    start_eq_ok_iff.2 ⟨l, r, hl, hr, rfl⟩
  have hbodies : Bisimilar left right db ⟨l, r, .spreading⟩ ⟨l₀, r₀, .spreading⟩ :=
    ⟨hsim, hsimRight, rfl⟩
  exact ⟨_, Machine.start_of_ok hstart,
    (join.matches_bisimilar left right db).bisimilar hbodies _ _ _ _⟩

end HashJoin

/-! ## Trees -/

namespace Pipeline

/-- All operators of the tree can be opened again. Its leaves read the store or have no tuples. -/
def restarts : Pipeline → Bool
  | tableScan _ | indexScan _ | empty _ => true
  | materialized _ | failing _ | indexJoin _ _ => false
  | filter _ child | project _ child | aggregate _ child => child.restarts
  | blockJoin _ left => left.restarts
  | hashJoin _ left right => left.restarts && right.restarts

theorem restarts_of_isScanTree {p : Pipeline} (h : p.isScanTree = true) : p.restarts = true := by
  induction p with
  | tableScan | indexScan => rfl
  | filter f child ih => exact ih h
  | project p child ih => exact ih h
  | materialized | empty | failing | aggregate | blockJoin | indexJoin | hashJoin => cases h

theorem readsStore_of_restarts {p : Pipeline} (h : p.restarts = true) : p.readsStore = true := by
  induction p with
  | tableScan | indexScan | empty => rfl
  | filter f child ih => exact ih h
  | project p child ih => exact ih h
  | aggregate a child ih => exact ih h
  | blockJoin join left ih => exact ih h
  | hashJoin join left right ihLeft ihRight =>
    obtain ⟨hleft, hright⟩ := Bool.and_eq_true_iff.1 h
    exact Bool.and_eq_true_iff.2 ⟨ihLeft hleft, ihRight hright⟩
  | materialized | failing | indexJoin => cases h

theorem restartable {p : Pipeline} (h : p.restarts = true) (hfaults : db.Faultless) :
    p.operator.Restartable db := by
  induction p with
  | tableScan scan => exact scan.restartable hfaults.scan
  | indexScan scan => exact scan.restartable hfaults.read
  | empty leaf => exact leaf.restartable db
  | filter f child ih => exact Filter.restartable (ih h)
  | project p child ih => exact Project.restartable (ih h)
  | aggregate a child ih => exact Aggregate.restartable (ih h)
  | blockJoin join left ih => exact BlockJoin.restartable (ih h) hfaults.scan
  | hashJoin join left right ihLeft ihRight =>
    obtain ⟨hleft, hright⟩ := Bool.and_eq_true_iff.1 h
    exact HashJoin.restartable (ihLeft hleft) (ihRight hright)
  | materialized | failing | indexJoin => cases h

/-- **Opening a tree again.** If a tree can be opened at first, it can be opened after any calls
over the same store, and its pulls answer from then on as they do after the first opening. -/
theorem reopens {p : Pipeline} (h : p.restarts = true) (hfaults : db.Faultless)
    {first s : p.operator.State} {events : List Operator.Event}
    (hfirst : p.operator.start db p.operator.initial = (.ok (), first))
    (hover : Operator.Over db events)
    (hhistory : p.operator.History p.operator.initial events s) :
    ∃ u, p.operator.start db s = (.ok (), u) ∧
      ∀ k n n', p.operator.answers db k u n = p.operator.answers db k first n' := by
  obtain ⟨c, hkeeps, hrestart⟩ := restartable h hfaults first hfirst
  obtain ⟨u, hu, hsim⟩ := hrestart s (hkeeps.holds_of_over hover hhistory)
  exact ⟨u, hu, fun k n n' => hsim.answers_eq k n n'⟩

theorem reopens_integers :
    let db := { store := BlockJoin.integersStore }
    ∃ first s u, integers.operator.start db integers.operator.initial = (.ok (), first) ∧
      integers.operator.History integers.operator.initial integersEvents s ∧
      integers.operator.start db s = (.ok (), u) ∧
      ∀ k n n', integers.operator.answers db k u n = integers.operator.answers db k first n' := by
  intro db
  obtain ⟨s, hhistory⟩ := exists_history_integers
  have hfirst : integers.operator.start db integers.operator.initial = (.ok (), _) := rfl
  have hover : Operator.Over db integersEvents := by
    simp [Operator.Over, integersEvents, Operator.Event.database?, db]
  obtain ⟨u, hu, hanswers⟩ := reopens rfl ⟨rfl, rfl⟩ hfirst hover hhistory
  exact ⟨_, s, u, hfirst, hhistory, hu, hanswers⟩

end Pipeline

end QueryEngine
