import QueryEngine.Pipeline
import QueryEngine.Proofs.Operator.Failure
import QueryEngine.Proofs.Operator.Keeping

/-!
# Opening again

Over a store that does not change, opening a tree of scans, filters and projections starts a fresh
run, whatever was done before. The state is not the one after the first opening, since scans count
what they read, but it gives the same answers.

* `Operator.Bisimilar`: states from which pulls give the same answers for ever.
  `Machine.Matches.bisimilar` gets this from single steps.
* `Operator.Restartable`: if the operator can be opened first, it can always be, and is then like
  after the first opening.
  This is shown here for scans, filters and projections.
-/

namespace QueryEngine

variable {db : Database} {n n' : Nat}

/-! ## States with the same answers -/

namespace Operator

variable {op : Operator} {s t : op.State}

/-- The answers of some pulls, one after the other. -/
def answers (op : Operator) (db : Database) : Nat → op.State → Nat →
    List (Except Error (Option Tuple))
  | 0, _, _ => []
  | k + 1, s, n =>
    let pull := op.next db s n
    pull.answer :: op.answers db k pull.state pull.reads

/-- Pulls from related states give the same answers and lead to related states. -/
def Matches (op : Operator) (db : Database) (r : op.State → op.State → Prop) : Prop :=
  ∀ ⦃s t⦄, r s t → ∀ n n', (op.next db s n).answer = (op.next db t n').answer ∧
    r (op.next db s n).state (op.next db t n').state

/-- Pulls give the same answers from both states, for ever. -/
def Bisimilar (op : Operator) (db : Database) (s t : op.State) : Prop :=
  ∃ r, op.Matches db r ∧ r s t

theorem matches_bisimilar (op : Operator) (db : Database) : op.Matches db (op.Bisimilar db) := by
  rintro s t ⟨r, hr, hst⟩ n n'
  obtain ⟨hanswer, hstate⟩ := hr hst n n'
  exact ⟨hanswer, r, hr, hstate⟩

theorem Bisimilar.answers_eq (h : op.Bisimilar db s t) (k n n' : Nat) :
    op.answers db k s n = op.answers db k t n' := by
  induction k generalizing s t n n' with
  | zero => rfl
  | succ k ih =>
    obtain ⟨hanswer, hstate⟩ := op.matches_bisimilar db h n n'
    rw [answers, answers, hanswer, ih hstate]

/-- A pull from either of two bisimilar states. -/
theorem Bisimilar.exists_next (h : op.Bisimilar db s t) (n n' : Nat) :
    ∃ answer u v k k', op.next db s n = ⟨answer, u, k⟩ ∧ op.next db t n' = ⟨answer, v, k'⟩ ∧
      op.Bisimilar db u v := by
  obtain ⟨hanswer, hstate⟩ := op.matches_bisimilar db h n n'
  refine ⟨_, _, _, _, (op.next db t n').reads, rfl, ?_, hstate⟩
  rw [hanswer]

end Operator

/-- Both steps go on, or both are settled with one answer, and lead to related states. -/
def Step.Agree {σ : Type} (r : σ → σ → Prop) : Step σ → Step σ → Prop
  | .again s _, .again t _ => r s t
  | .settled p, .settled q => p.answer = q.answer ∧ r p.state q.state
  | _, _ => False

namespace Machine

variable {m : Machine} {r : m.State → m.State → Prop} {s t : m.State}

/-- Steps from related states agree. -/
def Matches (m : Machine) (db : Database) (r : m.State → m.State → Prop) : Prop :=
  ∀ ⦃s t⦄, r s t → ∀ n n', Step.Agree r (m.step db s n) (m.step db t n')

theorem Matches.run (h : m.Matches db r) (hst : r s t) (n n' : Nat) :
    (m.run db s n).answer = (m.run db t n').answer ∧
      r (m.run db s n).state (m.run db t n').state := by
  refine m.run_induction (motive := fun s _ pull => ∀ t n', r s t →
    pull.answer = (m.run db t n').answer ∧ r pull.state (m.run db t n').state) ?_ ?_ s n t n' hst
  · intro s n s₁ n₁ pull hstep ih t n' hst
    have hagree := h hst n n'
    rw [hstep] at hagree
    cases ht : m.step db t n' with
    | again t₁ k =>
      rw [ht] at hagree
      rw [run_of_again ht]
      exact ih t₁ k hagree
    | settled q =>
      rw [ht] at hagree
      exact hagree.elim
  · intro s n pull hstep t n' hst
    have hagree := h hst n n'
    rw [hstep] at hagree
    cases ht : m.step db t n' with
    | again t₁ k =>
      rw [ht] at hagree
      exact hagree.elim
    | settled q =>
      rw [ht] at hagree
      rw [run_of_settled ht]
      exact hagree

/-- Machines in related states, with the same flags. -/
def Guarded.Both {σ : Type} (r : σ → σ → Prop) (s t : Guarded σ) : Prop :=
  s.opened = t.opened ∧ s.failed = t.failed ∧ r s.body t.body

theorem Matches.guardedNext (h : m.Matches db r) (name : String) {s t : Guarded m.State}
    (hst : Guarded.Both r s t) (n n' : Nat) :
    (m.guardedNext name db s n).answer = (m.guardedNext name db t n').answer ∧
      Guarded.Both r (m.guardedNext name db s n).state (m.guardedNext name db t n').state := by
  obtain ⟨s, opened, failed⟩ := s
  obtain ⟨t, _, _⟩ := t
  obtain ⟨rfl, rfl, hst⟩ := hst
  obtain ⟨hanswer, hstate⟩ := h.run hst n n'
  cases failed with
  | true => exact ⟨rfl, rfl, rfl, hst⟩
  | false =>
    cases opened with
    | false => exact ⟨rfl, rfl, rfl, hst⟩
    | true =>
      simp only [Machine.guardedNext, Bool.false_eq_true, if_false, if_true]
      rcases hs : m.run db s n with ⟨a, s', k⟩
      rcases ht : m.run db t n' with ⟨b, t', k'⟩
      rw [hs, ht] at hanswer hstate
      obtain rfl : a = b := hanswer
      cases a with
      | error e => exact ⟨rfl, rfl, rfl, hstate⟩
      | ok a => exact ⟨rfl, rfl, rfl, hstate⟩

/-- Machines in related states are bisimilar. -/
theorem Matches.bisimilar (h : m.Matches db r) (hst : r s t) (name : String) (schema : Schema)
    (opened failed : Bool) :
    (m.operator name schema).Bisimilar db ⟨s, opened, failed⟩ ⟨t, opened, failed⟩ :=
  ⟨Guarded.Both r, fun _ _ hst n n' => h.guardedNext name hst n n', rfl, rfl, hst⟩

/-- Opening a machine is opening its body. -/
theorem exists_start {name : String} {schema : Schema} {s u : (m.operator name schema).State}
    (h : (m.operator name schema).start db s = (.ok (), u)) :
    ∃ body, m.start db (Guarded.body s) = (.ok (), body) ∧ u = ⟨body, true, false⟩ := by
  replace h : m.guardedStart db s = (.ok (), u) := h
  rcases m.guardedStart_cases db s with ⟨e, body, -, heq⟩ | ⟨body, hm, heq⟩
  · cases (Prod.mk.inj (heq.symm.trans h)).1
  · exact ⟨body, hm, (Prod.mk.inj (heq.symm.trans h)).2.symm⟩

end Machine

/-! ## Operators that can be opened again -/

/-- The calls are all made over one database. -/
def Operator.Over (db : Database) (events : List Operator.Event) : Prop :=
  ∀ event ∈ events, ∀ db' ∈ event.database?, db' = db

/-- Calls over one database. -/
def Setting.still (db : Database) : Setting where
  changes a b := a = db ∧ b = db
  stays h := ⟨h.2, h.2⟩
  may _ := True
  refuses _ := True

namespace Operator

/-- What calls over one database keep. -/
theorem Keeps.holds_of_over {op : Operator} {c : Contract (.still db) op.State}
    {good : Tuple → Prop} (h : op.Keeps c good) {events : List Event} {s : op.State}
    (hover : Over db events) (hhistory : op.History op.initial events s) : c.holds false db s := by
  refine hhistory.induction (motive := c.holds false db) ?_ (h.initial ⟨rfl, rfl⟩)
  intro s event u hevent hanswers hs
  have hdb : event.database?.getD db = db := by
    cases hd : event.database? with
    | none => rfl
    | some db' => exact hover event hevent db' hd
  have hu := (h.answers (fun db' hd => ⟨rfl, hover event hevent db' hd⟩) hs hanswers).1
  rw [hdb] at hu
  exact c.relax hu

/-- If opening succeeds at first, it does after any calls over the database, and leads to a state
like the first one. -/
def Restartable (op : Operator) (db : Database) : Prop :=
  ∀ u, op.start db op.initial = (.ok (), u) → ∃ c : Contract (.still db) op.State,
    op.Keeps c (fun _ => True) ∧
      ∀ s, c.holds false db s → ∃ v, op.start db s = (.ok (), v) ∧ op.Bisimilar db v u

end Operator

/-! ### Scans -/

namespace TableScan

variable {scan : TableScan}

/-- Scanners of the same rows that have the same ones before them. -/
def Bisimilar (s t : State) : Prop :=
  s.done = t.done ∧ ∃ a b, s.scanner = some a ∧ t.scanner = some b ∧ a.faults = .never ∧
    b.faults = .never ∧ a.rows = b.rows ∧ a.unread = b.unread ∧ a.closed = b.closed

theorem Bisimilar.next {s t : State} (h : Bisimilar s t) :
    (next s).1 = (next t).1 ∧ Bisimilar (TableScan.next s).2 (TableScan.next t).2 := by
  obtain ⟨_, done⟩ := s
  obtain ⟨_, _⟩ := t
  obtain ⟨rfl, ⟨_, unread, closed, _, _, _⟩, ⟨_, _, _, _, _, _⟩, rfl, rfl, rfl, rfl, rfl, rfl,
    rfl⟩ := h
  cases done with
  | true => exact ⟨rfl, rfl, _, _, rfl, rfl, rfl, rfl, rfl, rfl, rfl⟩
  | false =>
    cases closed with
    | true => exact ⟨rfl, rfl, _, _, rfl, rfl, rfl, rfl, rfl, rfl, rfl⟩
    | false => cases unread <;> exact ⟨rfl, rfl, _, _, rfl, rfl, rfl, rfl, rfl, rfl, rfl⟩

theorem Bisimilar.exists_rewind {s t : State} (h : Bisimilar s t) :
    ∃ u v, rewind s = (.ok (), u) ∧ rewind t = (.ok (), v) ∧ Bisimilar u v := by
  obtain ⟨_, done⟩ := s
  obtain ⟨_, _⟩ := t
  obtain ⟨rfl, ⟨_, _, _, _, _, _⟩, ⟨_, _, _, _, _, _⟩, rfl, rfl, rfl, rfl, rfl, -, -⟩ := h
  exact ⟨_, _, rfl, rfl, rfl, _, _, rfl, rfl, rfl, rfl, rfl, rfl, rfl⟩

theorem matches_bisimilar (scan : TableScan) (db : Database) :
    scan.operator.Matches db Bisimilar :=
  fun _ _ h _ _ => h.next

/-- A scan that has rows has those of the table. -/
def readsOnly (db : Database) (rows : List Row) : Contract (.still db) State :=
  .always _ fun s => ∀ scanner ∈ s.scanner, scanner.rows = rows ∧ scanner.faults = .never

/-- Going back keeps the rows. -/
theorem starts_readsOnly {rows : List Row} {running : Bool} {db' : Database} {s : State}
    (hs : (readsOnly db rows).holds running db' s) :
    (readsOnly db rows).Starts running db' (rewind s) := by
  unfold rewind
  split
  · exact ⟨fun _ => ⟨trivial, trivial⟩, hs⟩
  · rename_i scanner hscanner
    have hback : scanner.rewind.2.rows = rows ∧ scanner.rewind.2.faults = .never := by
      simpa using hs scanner hscanner
    split
    all_goals
      rename_i hrewind
      rw [hrewind] at hback
    · exact ⟨fun _ => ⟨trivial, trivial⟩, by rintro _ ⟨⟩; exact hback⟩
    · rintro _ ⟨⟩
      exact hback

theorem keeps_readsOnly {rows : List Row} (hscan : db.scan scan.table = .ok (.ofRows rows .never)) :
    scan.operator.Keeps (readsOnly db rows) fun _ => True where
  initial _ := fun _ h => nomatch h
  start {running db' s} hdb hs := by
    obtain rfl := hdb.1
    show (readsOnly db' rows).Starts running db' (scan.start db' s)
    unfold start
    split
    · exact starts_readsOnly hs
    · rw [hscan]
      rintro _ ⟨⟩
      exact ⟨rfl, rfl⟩
  next {running db' s} _ hs n := by
    show (readsOnly db rows).Pulls _ running db' ⟨(next s).1, (next s).2, n⟩
    unfold next
    split
    · exact ⟨fun _ => trivial, hs⟩
    · rename_i scanner hscanner
      split
      · exact hs
      · have hnext : scanner.next.2.rows = rows ∧ scanner.next.2.faults = .never := by
          obtain ⟨hrows, hfaults⟩ := hs scanner hscanner
          unfold RowScanner.next
          simp only [hfaults, ScanFaults.never, FaultPlan.never]
          split
          · exact ⟨hrows, rfl⟩
          · split <;> exact ⟨hrows, rfl⟩
        split
        all_goals
          rename_i hn
          rw [hn] at hnext
        · exact ⟨fun _ => trivial, by rintro _ ⟨⟩; exact hnext⟩
        · rintro _ ⟨⟩
          exact hnext
        · exact ⟨trivial, by rintro _ ⟨⟩; exact hnext⟩
  close _ := fun _ h => nomatch h

/-- A scan that was opened first is opened again on the same rows. -/
theorem exists_start (hfaults : db.scanFaults = .never) {u : State}
    (hu : scan.start db initial = (.ok (), u)) :
    ∃ rows, scan.operator.Keeps (readsOnly db rows) (fun _ => True) ∧
      ∀ s, (readsOnly db rows).holds false db s →
        ∃ v, scan.start db s = (.ok (), v) ∧ Bisimilar v u := by
  unfold start at hu
  simp only [initial] at hu
  split at hu
  · cases (Prod.mk.inj hu).1
  · rename_i scanner hscan
    obtain ⟨t, ht, hrows⟩ := bind_eq_ok_iff.1 hscan
    obtain rfl := (Prod.mk.inj hu).2
    obtain rfl : RowScanner.ofRows t.rows .never = scanner := hfaults ▸ Except.ok.inj hrows
    refine ⟨_, keeps_readsOnly hscan, fun s hs => ?_⟩
    unfold start
    split
    · rename_i scanner hscanner
      obtain ⟨hrows', hfaults'⟩ := hs scanner hscanner
      have hback := RowScanner.rewind_eq_ok_iff.2 ⟨by rw [hfaults']; rfl, rfl⟩
      exact ⟨_, rewind_eq_ok_iff.2 ⟨scanner, _, hscanner, hback, rfl⟩, rfl, _, _, rfl, rfl,
        hfaults', rfl, hrows', hrows', rfl⟩
    · rw [hscan]
      exact ⟨_, rfl, rfl, _, _, rfl, rfl, rfl, rfl, rfl, rfl, rfl⟩

theorem restartable (scan : TableScan) (hfaults : db.scanFaults = .never) :
    scan.operator.Restartable db := by
  intro u hu
  obtain ⟨rows, hkeeps, hstart⟩ := exists_start hfaults hu
  refine ⟨_, hkeeps, fun s hs => ?_⟩
  obtain ⟨v, hv, hsim⟩ := hstart s hs
  exact ⟨v, hv, Bisimilar, scan.matches_bisimilar db, hsim⟩

end TableScan

namespace IndexScan

variable {scan : IndexScan}

/-- Scans that have the same entries before them. -/
def Bisimilar (s t : State) : Prop := s.scanner = t.scanner ∧ s.done = t.done

theorem matches_bisimilar (scan : IndexScan) (hfaults : db.readFaults = .never) :
    scan.operator.Matches db Bisimilar := by
  rintro ⟨_, scanner, _, done, _⟩ ⟨_, _, _, _, _⟩ ⟨rfl, rfl⟩ n n'
  show (scan.next db _ n).answer = (scan.next db _ n').answer ∧
    Bisimilar (scan.next db _ n).state (scan.next db _ n').state
  have hread : ∀ id, db.readTuple n scan.table id = db.readTuple n' scan.table id := by
    intro id
    rw [Database.readTuple, Database.readTuple, hfaults]
    rfl
  cases scanner with
  | none => exact ⟨rfl, rfl, rfl⟩
  | some scanner =>
    cases done with
    | true => exact ⟨rfl, rfl, rfl⟩
    | false =>
      simp only [next, nextEntry, Bool.false_eq_true, if_false]
      rcases scanner.next with ⟨_ | entry, scanner'⟩
      · exact ⟨rfl, rfl, rfl⟩
      · exact ⟨congrArg (Except.map some) (hread entry.1), rfl, rfl⟩

/-- Pulls do not move a scan, nor open or close it. -/
theorem state_next (scan : IndexScan) (db : Database) (s : State) (n : Nat) :
    ∃ scanner done fetched, (scan.next db s n).state = { s with scanner, done, fetched } := by
  have hentry : ∃ scanner done, (nextEntry s).2 = { s with scanner, done } := by
    unfold nextEntry
    split
    · exact ⟨_, _, rfl⟩
    · split
      · exact ⟨_, _, rfl⟩
      · split <;> exact ⟨_, _, rfl⟩
  obtain ⟨scanner, done, hentry⟩ := hentry
  refine ⟨scanner, done, ?_⟩
  unfold next
  split <;> rename_i he <;> rw [he] at hentry <;> obtain rfl := hentry <;> exact ⟨_, rfl⟩

theorem range_next (scan : IndexScan) (db : Database) (s : State) (n : Nat) :
    (scan.next db s n).state.range = s.range := by
  obtain ⟨_, _, _, h⟩ := scan.state_next db s n
  rw [h]

theorem opened_next (scan : IndexScan) (db : Database) (s : State) (n : Nat) :
    (scan.next db s n).state.opened = s.opened := by
  obtain ⟨_, _, _, h⟩ := scan.state_next db s n
  rw [h]

/-- A scan that nobody moves stays on the full range. -/
theorem keeps_full {scanner : IndexScanner}
    (hscan : db.store.indexScan scan.table scan.column .all = .ok scanner) :
    scan.operator.Keeps (.always (.still db) fun s => State.range s = .all) fun _ => True where
  initial _ := rfl
  start {running db' s} hdb hs := by
    obtain rfl := hdb.1
    replace hs : s.range = .all := hs
    show Contract.Starts _ running db' (scan.start db' s)
    simp only [start, reopen, hs, hscan]
    exact rfl
  next {running db' s} _ hs n := by
    show Contract.Pulls _ _ running db' (scan.next db' s n)
    have hrange := range_next scan db' s n
    rcases hnext : scan.next db' s n with ⟨_ | _ | t, u, k⟩ <;> rw [hnext] at hrange
    · exact ⟨fun _ => trivial, hrange.trans hs⟩
    · exact hrange.trans hs
    · exact ⟨trivial, hrange.trans hs⟩
  close hs := hs

theorem restartable (scan : IndexScan) (hfaults : db.readFaults = .never) :
    scan.operator.Restartable db := by
  intro u hu
  replace hu : scan.reopen db { initial with opened := true } = (.ok (), u) := hu
  unfold reopen at hu
  split at hu
  · cases (Prod.mk.inj hu).1
  · rename_i scanner hscan
    obtain rfl := (Prod.mk.inj hu).2
    replace hscan : db.store.indexScan scan.table scan.column .all = .ok scanner := hscan
    refine ⟨_, keeps_full hscan, fun s hs => ?_⟩
    replace hs : s.range = .all := hs
    refine ⟨{ s with opened := true, scanner := some scanner, done := false }, ?_, Bisimilar,
      scan.matches_bisimilar hfaults, rfl, rfl⟩
    show scan.start db s = _
    simp only [start, reopen, hs, hscan]
    rfl

end IndexScan

/-! ### Operators of one child -/

namespace Filter

variable {f : Filter} {child : Operator}

/-- The children are bisimilar, and both or none came to their ends. -/
def Bisimilar (child : Operator) (db : Database) (s t : State child.State) : Prop :=
  child.Bisimilar db s.child t.child ∧ s.done = t.done

theorem matches_bisimilar (f : Filter) (child : Operator) (db : Database) :
    (f.machine child).Matches db (Bisimilar child db) := by
  rintro ⟨s, done⟩ ⟨t, _⟩ ⟨hst, rfl⟩ n n'
  obtain ⟨answer, u, v, k, k', hs, ht, huv⟩ := Operator.Bisimilar.exists_next hst n n'
  show Step.Agree _ (f.step child db _ n) (f.step child db _ n')
  cases done with
  | true => exact ⟨rfl, hst, rfl⟩
  | false =>
    simp only [step, hs, ht, Bool.false_eq_true, if_false]
    rcases answer with e | _ | t
    · exact ⟨rfl, huv, rfl⟩
    · exact ⟨rfl, huv, rfl⟩
    · simp only
      cases f.predicate.evaluate t with
      | error e => exact ⟨rfl, huv, rfl⟩
      | ok b =>
        cases b with
        | true => exact ⟨rfl, huv, rfl⟩
        | false => exact ⟨huv, rfl⟩

theorem restartable (hchild : child.Restartable db) : (f.operator child).Restartable db := by
  intro u hu
  obtain ⟨_, hbody, rfl⟩ := Machine.exists_start hu
  obtain ⟨c₀, hc₀, rfl⟩ := start_eq_ok_iff.1 hbody
  obtain ⟨c, hkeeps, hrestart⟩ := hchild c₀ hc₀
  have hf : (f.machine child).Keeps (c.on State.child) fun _ => True :=
    Filter.keeps hkeeps fun t _ => meets_trivial _
  refine ⟨_, hf.operator _ _, fun s hs => ?_⟩
  obtain ⟨v, hv, hsim⟩ := hrestart _ hs.1
  have hstart : start child db s.body = (.ok (), ⟨v, false⟩) := start_eq_ok_iff.2 ⟨v, hv, rfl⟩
  have hbodies : Bisimilar child db ⟨v, false⟩ ⟨c₀, false⟩ := ⟨hsim, rfl⟩
  exact ⟨_, Machine.start_of_ok hstart, (f.matches_bisimilar child db).bisimilar hbodies _ _ _ _⟩

end Filter

namespace Project

variable {p : Project} {child : Operator}

theorem matches_bisimilar (p : Project) (child : Operator) (db : Database) :
    (p.machine child).Matches db (child.Bisimilar db) := by
  intro s t hst n n'
  obtain ⟨answer, u, v, k, k', hs, ht, huv⟩ := Operator.Bisimilar.exists_next hst n n'
  show Step.Agree _ (p.step child db _ n) (p.step child db _ n')
  simp only [step, hs, ht]
  rcases answer with e | _ | t
  · exact ⟨rfl, huv⟩
  · exact ⟨rfl, huv⟩
  · simp only
    cases p.layout.project t p.positions with
    | error e => exact ⟨rfl, huv⟩
    | ok t => exact ⟨rfl, huv⟩

theorem restartable (hchild : child.Restartable db) : (p.operator child).Restartable db := by
  intro u hu
  obtain ⟨c₀, hc₀, rfl⟩ := Machine.exists_start hu
  obtain ⟨c, hkeeps, hrestart⟩ := hchild c₀ hc₀
  have hp : (p.machine child).Keeps c fun _ => True :=
    Project.keeps hkeeps fun t _ => meets_trivial _
  refine ⟨_, hp.operator _ _, fun s hs => ?_⟩
  obtain ⟨v, hv, hsim⟩ := hrestart _ hs.1
  have hmatches := p.matches_bisimilar child db
  exact ⟨⟨v, true, false⟩, Machine.start_of_ok hv, hmatches.bisimilar hsim _ _ _ _⟩

end Project

/-- The tree is made of scans, filters and projections. -/
def Pipeline.isScanTree : Pipeline → Bool
  | tableScan _ | indexScan _ => true
  | filter _ child | project _ child => child.isScanTree
  | _ => false

end QueryEngine
