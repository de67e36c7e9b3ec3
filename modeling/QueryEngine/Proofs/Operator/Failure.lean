import QueryEngine.Operator.Aggregate
import QueryEngine.Operator.Filter
import QueryEngine.Operator.IndexJoin
import QueryEngine.Operator.Project
import QueryEngine.Proofs.Operator.BlockJoin
import QueryEngine.Proofs.Operator.Fault
import QueryEngine.Proofs.Operator.HashJoin

/-!
# Failures of what an operator reads

An operator whose source fails has given a prefix of what it gives otherwise, returns the error as
it is, and does not go on. For each operator its steps are compared with those over a source that
differs in a fault; everything else follows for machines in general.

* `Filter.faulty`, `Project.faulty`, `Aggregate.faulty`, `BlockJoin.faulty`, `IndexJoin.faulty`,
  `HashJoin.faulty`: operators over sources that differ in a fault differ in it too.
* `TableScan.faulty`, `IndexScan.faulty`: so do scans over databases of which a call is to fail.
* `Aggregate.eq_nil_of_struck`, `HashJoin.eq_nil_of_struck`: what reads its children to the end
  before it yields has yielded nothing.
* `Operator.OneFault`: two runs over the same inputs, of which one fails in the second run.
-/

namespace QueryEngine

variable {e : Error} {σ τ : Type} {db db' : Database}

/-! ## Operators of one child -/

namespace Filter

def fault (g : Fault e σ τ) : Fault e (State σ) (State τ) :=
  g.inPart State.child State.child State.done State.done

theorem start_eq_ok_iff {child : Operator} {s s' : State child.State} :
    start child db s = (.ok (), s') ↔
      ∃ c, child.start db s.child = (.ok (), c) ∧ s' = ⟨c, false⟩ := by
  unfold start
  rcases child.start db s.child with ⟨_ | _, c⟩
  · simp
  · simp [eq_comm]

theorem start_of_error {child : Operator} {s : State child.State} {c : child.State}
    (h : child.start db s.child = (.error e, c)) :
    start child db s = (.error e, { s with child := c }) := by
  rw [start, h]

theorem faulty (f : Filter) {child child' : Operator} {g : Fault e child.State child'.State}
    (h : child.Faulty child' db db' g) :
    (f.machine child).Faulty (f.machine child') db db' (fault g) where
  start := by
    rintro _ _ _ ⟨hchild, -⟩ hstart
    obtain ⟨c, hc, rfl⟩ := start_eq_ok_iff.1 hstart
    obtain ⟨c', hc', halike⟩ := h.start hchild hc
    exact ⟨_, start_eq_ok_iff.2 ⟨c', hc', rfl⟩, halike, rfl⟩
  step := by
    rintro ⟨s, done⟩ ⟨t, _⟩ n ⟨hchild, rfl⟩ hn
    show (f.step child db ⟨s, done⟩ n).Falters (fault g) (f.step child' db' ⟨t, done⟩ n)
    cases done with
    | true => exact .settled (.same ⟨hchild, rfl⟩ hn)
    | false =>
      have hpull := h.next hchild hn
      unfold step
      simp only
      generalize child.next db s n = p at hpull ⊢
      generalize child'.next db' t n = q at hpull ⊢
      cases hpull with
      | struck hstruck => exact .struck hstruck
      | @same answer u v k states reads =>
        rcases answer with e | _ | x
        · exact .settled (.same ⟨states, rfl⟩ reads)
        · exact .settled (.same ⟨states, rfl⟩ reads)
        · simp only
          rcases f.predicate.evaluate x with e | _ | _
          · exact .settled (.same ⟨states, rfl⟩ reads)
          · exact .again ⟨states, rfl⟩ reads
          · exact .settled (.same ⟨states, rfl⟩ reads)

end Filter

theorem Project.faulty (p : Project) {child child' : Operator}
    {g : Fault e child.State child'.State} (h : child.Faulty child' db db' g) :
    (p.machine child).Faulty (p.machine child') db db' g where
  start := h.start
  step := by
    intro s t n hchild hn
    show (p.step child db s n).Falters g (p.step child' db' t n)
    have hpull := h.next hchild hn
    unfold step
    generalize child.next db s n = r at hpull ⊢
    generalize child'.next db' t n = q at hpull ⊢
    cases hpull with
    | struck hstruck => exact .struck hstruck
    | @same answer u v k states reads =>
      rcases answer with e | _ | x
      · exact .settled (.same states reads)
      · exact .settled (.same states reads)
      · simp only
        cases p.layout.project x p.positions with
        | error e => exact .settled (.same states reads)
        | ok y => exact .settled (.same states reads)

namespace Aggregate

def fault (g : Fault e σ τ) : Fault e (State σ) (State τ) :=
  g.inPart State.child State.child State.output State.output

theorem start_eq_ok_iff {child : Operator} {s s' : State child.State} :
    start child db s = (.ok (), s') ↔
      ∃ c, child.start db s.child = (.ok (), c) ∧ s' = ⟨c, none⟩ := by
  unfold start
  rcases child.start db s.child with ⟨_ | _, c⟩
  · simp
  · simp [eq_comm]

theorem compute_cases (a : Aggregate) {child child' : Operator}
    {g : Fault e child.State child'.State} (h : child.Faulty child' db db' g) {s : child.State}
    {t : child'.State} {n : Nat} (hs : g.alike s t) (hn : g.fine n) :
    (∃ r u v k, a.compute child db s n = (r, u, k) ∧ a.compute child' db' t n = (r, v, k) ∧
      g.alike u v ∧ g.fine k) ∨
    ∃ v k, a.compute child' db' t n = (.error e, v, k) ∧ g.Struck v k := by
  unfold compute
  rcases a.groupBy with _ | ⟨position, keyType⟩
  · rcases h.fold_cases hs hn a.add .empty with
      ⟨r, u, v, k, hfold, hfold', hv, hk⟩ | ⟨v, k, hfold', hstruck⟩
    · exact .inl ⟨r.bind a.ungrouped, u, v, k, by rw [hfold], by rw [hfold'], hv, hk⟩
    · exact .inr ⟨v, k, by rw [hfold']; rfl, hstruck⟩
  · rcases h.fold_cases hs hn (a.addGrouped position) (.empty keyType) with
      ⟨r, u, v, k, hfold, hfold', hv, hk⟩ | ⟨v, k, hfold', hstruck⟩
    · refine .inl ⟨r.bind a.grouped, u, v, k, ?_, ?_, hv, hk⟩
      · simp only [hfold]
      · simp only [hfold']
    · refine .inr ⟨v, k, ?_, hstruck⟩
      simp only [hfold']
      rfl

theorem faulty (a : Aggregate) {child child' : Operator} {g : Fault e child.State child'.State}
    (h : child.Faulty child' db db' g) :
    (a.machine child).Faulty (a.machine child') db db' (fault g) where
  start := by
    rintro _ _ _ ⟨hchild, -⟩ hstart
    obtain ⟨c, hc, rfl⟩ := start_eq_ok_iff.1 hstart
    obtain ⟨c', hc', halike⟩ := h.start hchild hc
    exact ⟨_, start_eq_ok_iff.2 ⟨c', hc', rfl⟩, halike, rfl⟩
  step := by
    rintro ⟨s, output⟩ ⟨t, _⟩ n ⟨hchild, rfl⟩ hn
    show (a.step child db ⟨s, output⟩ n).Falters (fault g) (a.step child' db' ⟨t, output⟩ n)
    rcases output with _ | _ | ⟨x, rest⟩
    · rcases a.compute_cases h hchild hn with
        ⟨r, u, v, k, hcompute, hcompute', hv, hk⟩ | ⟨v, k, hcompute', hstruck⟩
      · simp only [step, hcompute, hcompute']
        cases r with
        | error e => exact .settled (.same ⟨hv, rfl⟩ hk)
        | ok tuples => exact .again ⟨hv, rfl⟩ hk
      · simp only [step, hcompute']
        exact .struck hstruck
    · exact .settled (.same ⟨hchild, rfl⟩ hn)
    · exact .settled (.same ⟨hchild, rfl⟩ hn)

/-- Once the tuples are computed the child is not pulled. -/
theorem step_computed (a : Aggregate) (child : Operator) (db : Database) (c : child.State)
    (tuples : List Tuple) (n : Nat) :
    (a.step child db ⟨c, some tuples⟩ n).state = ⟨c, some tuples.tail⟩ := by
  cases tuples <;> rfl

/-- What is yielded is yielded after that. -/
theorem step_ne_emit (a : Aggregate) (child : Operator) (db : Database) (c : child.State) (n : Nat)
    (x : Tuple) (u : State child.State) (k : Nat) : a.step child db ⟨c, none⟩ n ≠ .emit x u k := by
  simp only [step]
  rcases a.compute child db c n with ⟨_ | tuples, rest, m⟩ <;> simp [Step.fail, Step.emit]

/-- The child is read to its end before anything is yielded. -/
theorem eq_nil_of_struck (a : Aggregate) {child child' : Operator}
    {g : Fault e child.State child'.State} (h : child.Faulty child' db db' g)
    (hfine : ∀ n, g.fine n) {s : (a.operator child).State} {t u : (a.operator child').State}
    (hs : (fault g).guarded.alike s t) {tuples : List Tuple} {stop : Option Error} {n k : Nat}
    (hdrain : (a.operator child').drain db' t n = (tuples, stop, u, k))
    (hstruck : (fault g).guarded.Struck u k) : tuples = [] := by
  refine (a.faulty h).drain_eq_nil hfine (fun u => ∃ c tuples, u = ⟨c, some tuples⟩) ?_ ?_ hs
    hdrain hstruck
  · rintro ⟨c, _ | tuples⟩ n x u k hemit
    · exact (a.step_ne_emit child' db' c n x u k hemit).elim
    · have hstate := a.step_computed child' db' c tuples n
      rw [show a.step child' db' _ n = _ from hemit] at hstate
      exact ⟨_, _, hstate⟩
  · rintro _ n ⟨⟨c, tuples, rfl⟩, hmissed⟩
    rw [show ((a.machine child').step db' _ n).state = _ from a.step_computed child' db' c tuples n]
    exact ⟨⟨_, _, rfl⟩, hmissed⟩

end Aggregate

/-! ## Scans that fail -/

/-- The first call in which a plan of faults differs from another is `k`, which fails. -/
structure FaultPlan.FailsAt (faults' faults : FaultPlan) (k : Nat) (e : Error) : Prop where
  agree : ∀ i < k, faults' i = faults i
  fails : faults' k = some e

/-- The plan for one kind of calls differs so, and no other. -/
structure ScanFaults.FailsAt (faults' faults : ScanFaults) (call : ScanCall) (k : Nat) (e : Error) :
    Prop where
  strikes : (faults' call).FailsAt (faults call) k e
  others : ∀ other, other ≠ call → faults' other = faults other

/-- The next call of a kind is the one that fails, or is planned alike. -/
theorem ScanFaults.FailsAt.next_call {faults' faults : ScanFaults} {call : ScanCall} {k : Nat}
    (h : faults'.FailsAt faults call k e) (asked : ScanCall) (made : Nat)
    (early : asked = call → made ≤ k) :
    (asked = call ∧ made = k ∧ faults' asked made = some e) ∨
      (faults' asked made = faults asked made ∧ (asked = call → made < k)) := by
  by_cases hasked : asked = call
  · subst hasked
    rcases Nat.eq_or_lt_of_le (early rfl) with rfl | hlt
    · exact .inl ⟨rfl, rfl, h.strikes.fails⟩
    · exact .inr ⟨h.strikes.agree made hlt, fun _ => hlt⟩
  · exact .inr ⟨by rw [h.others asked hasked], fun h => (hasked h).elim⟩

namespace TableScan

/-- A scan over two databases that differ in a fault. -/
structure Faulty (scan : TableScan) (db db' : Database) (g : Fault e State State) : Prop where
  fine : ∀ n, g.fine n
  start : ∀ {s s' t}, g.ready s t → scan.start db s = (.ok (), s') →
    ∃ t', scan.start db' t = (.ok (), t') ∧ g.alike s' t'
  rewind : ∀ {s t}, g.alike s t →
    (∃ answer u v, rewind s = (answer, u) ∧ rewind t = (answer, v) ∧ g.alike u v) ∨
      ∃ v, rewind t = (.error e, v) ∧ g.hit v
  next : ∀ {s t}, g.alike s t →
    (∃ answer u v, next s = (answer, u) ∧ next t = (answer, v) ∧ g.alike u v) ∨
      ∃ v, next t = (.error e, v) ∧ g.hit v

theorem Faulty.refl (scan : TableScan) (db : Database) (e : Error) :
    scan.Faulty db db (.none e) where
  fine _ := trivial
  start := by
    rintro s s' _ rfl h
    exact ⟨s', h, rfl⟩
  rewind := by
    rintro s _ rfl
    exact .inl ⟨_, _, _, rfl, rfl, rfl⟩
  next := by
    rintro s _ rfl
    exact .inl ⟨_, _, _, rfl, rfl, rfl⟩

/-- States of which the second has a scanner that fails at call `k` of a kind, or will be handed
one. -/
inductive Alike (db db' : Database) (call : ScanCall) (k : Nat) (e : Error) :
    State → State → Prop where
  | unopened {done : Bool} (plans : db'.scanFaults.FailsAt db.scanFaults call k e) :
    Alike db db' call k e ⟨none, done⟩ ⟨none, done⟩
  | scanning {scanner : RowScanner} {faults' : ScanFaults} {done : Bool}
      (plans : faults'.FailsAt scanner.faults call k e) (early : scanner.made call ≤ k) :
      Alike db db' call k e ⟨some scanner, done⟩ ⟨some { scanner with faults := faults' }, done⟩

/-- A scanner that is there goes back when it is opened again. That is not the call that fails. -/
def State.OpensBefore (call : ScanCall) (k : Nat) (s : State) : Prop :=
  ∀ scanner ∈ s.scanner, call = .rewind → scanner.rewinds < k

/-- The call of a kind after `k` others was made. -/
def State.Past (call : ScanCall) (k : Nat) (s : State) : Prop :=
  ∃ scanner, s.scanner = some scanner ∧ k < scanner.made call

def fault (db db' : Database) (call : ScanCall) (k : Nat) (e : Error) : Fault e State State where
  ready s t := Alike db db' call k e s t ∧ s.OpensBefore call k
  alike := Alike db db' call k e
  hit := State.Past call k
  fine _ := True
  apart := by
    rintro _ _ h ⟨scanner, hscanner, hmade⟩
    cases h with
    | unopened => cases hscanner
    | scanning _ early =>
      obtain rfl := Option.some.inj hscanner
      exact absurd early (Nat.not_le.2 hmade)

section

variable {call : ScanCall} {k : Nat} {s t : State}

/-- Both go back, or the second fails by the fault. -/
theorem Alike.rewind_cases (h : Alike db db' call k e s t) :
    (∃ answer u v, rewind s = (answer, u) ∧ rewind t = (answer, v) ∧
      Alike db db' call k e u v) ∨
    ∃ scanner v, s.scanner = some scanner ∧ call = .rewind ∧ scanner.rewinds = k ∧
      rewind t = (.error e, v) ∧ v.Past call k := by
  cases h with
  | unopened plans => exact .inl ⟨_, _, _, rfl, rfl, .unopened plans⟩
  | @scanning scanner faults' done plans early =>
    rcases plans.next_call .rewind scanner.rewinds (fun h => by subst h; exact early) with
      ⟨rfl, hk, hfails⟩ | ⟨hagree, hlater⟩
    · refine .inr ⟨scanner, ⟨some { scanner with
        rewinds := scanner.rewinds + 1, faults := faults' }, done⟩, rfl, rfl, hk, ?_, _, rfl,
        hk ▸ Nat.lt_succ_self _⟩
      simp [TableScan.rewind, RowScanner.rewind, hfails]
    · have hmade : { scanner with rewinds := scanner.rewinds + 1 }.made call ≤ k := by
        cases call with
        | next => exact early
        | rewind => exact hlater rfl
      refine .inl ?_
      simp only [TableScan.rewind, RowScanner.rewind, hagree]
      rcases scanner.faults .rewind scanner.rewinds with _ | e
      · exact ⟨_, _, _, rfl, rfl, .scanning plans hmade⟩
      · exact ⟨_, _, _, rfl, rfl, .scanning plans hmade⟩

/-- Both give the same, or the second fails by the fault. -/
theorem Alike.next_cases (h : Alike db db' call k e s t) :
    (∃ answer u v, next s = (answer, u) ∧ next t = (answer, v) ∧ Alike db db' call k e u v) ∨
      ∃ v, next t = (.error e, v) ∧ v.Past call k := by
  cases h with
  | unopened plans => exact .inl ⟨_, _, _, rfl, rfl, .unopened plans⟩
  | @scanning scanner faults' done plans early =>
    cases done with
    | true => exact .inl ⟨_, _, _, rfl, rfl, .scanning plans early⟩
    | false =>
      rcases plans.next_call .next scanner.calls (fun h => by subst h; exact early) with
        ⟨rfl, hk, hfails⟩ | ⟨hagree, hlater⟩
      · refine .inr ⟨⟨some { scanner with calls := scanner.calls + 1, faults := faults' }, false⟩,
          ?_, _, rfl, hk ▸ Nat.lt_succ_self _⟩
        simp [TableScan.next, RowScanner.next, hfails]
      · have hmade : { scanner with calls := scanner.calls + 1 }.made call ≤ k := by
          cases call with
          | next => exact hlater rfl
          | rewind => exact early
        obtain ⟨rows, unread, closed, calls, rewinds, faults⟩ := scanner
        refine .inl ?_
        simp only [TableScan.next, RowScanner.next, hagree, Bool.false_eq_true, if_false]
        rcases faults .next calls with _ | e
        · cases closed with
          | true => exact ⟨_, _, _, rfl, rfl, .scanning plans hmade⟩
          | false =>
            cases unread with
            | nil => exact ⟨_, _, _, rfl, rfl, .scanning plans hmade⟩
            | cons row rest => exact ⟨_, _, _, rfl, rfl, .scanning plans hmade⟩
        · exact ⟨_, _, _, rfl, rfl, .scanning plans hmade⟩

end

theorem faulty (scan : TableScan) (hstore : db'.store = db.store) (call : ScanCall) (k : Nat)
    (e : Error) : scan.Faulty db db' (fault db db' call k e) where
  fine _ := trivial
  start := by
    rintro s s' t ⟨h, hbefore⟩ hstart
    cases h with
    | @scanning scanner faults' done plans early =>
      have hrewind : rewind ⟨some scanner, done⟩ = (.ok (), s') := hstart
      rcases (Alike.scanning plans early).rewind_cases with
        ⟨answer, u, v, hu, hv, huv⟩ | ⟨_, v, hscanner, hcall, hk, -⟩
      · obtain ⟨rfl, rfl⟩ := Prod.mk.inj (hu.symm.trans hrewind)
        exact ⟨v, hv, huv⟩
      · exact absurd hk (Nat.ne_of_lt (hbefore _ hscanner hcall))
    | unopened plans =>
      simp only [start, Database.scan, Store.scan, hstore] at hstart ⊢
      cases htable : db.store.table scan.table with
      | error e =>
        rw [htable] at hstart
        cases (Prod.mk.inj hstart).1
      | ok table =>
        rw [htable] at hstart
        obtain ⟨-, rfl⟩ := hstart
        have hfresh : (RowScanner.ofRows table.rows db.scanFaults).made call ≤ k := by
          cases call <;> exact Nat.zero_le k
        exact ⟨_, rfl, .scanning plans hfresh⟩
  rewind h := h.rewind_cases.imp_right fun ⟨_, v, _, _, _, hv⟩ => ⟨v, hv⟩
  next h := h.next_cases

end TableScan

namespace IndexScan

theorem reopen_congr (scan : IndexScan) (hstore : db'.store = db.store) (s : State) :
    scan.reopen db' s = scan.reopen db s := by
  rw [reopen, reopen, hstore]

theorem setRange_congr (scan : IndexScan) (hstore : db'.store = db.store) (range : KeyRange)
    (s : State) : scan.setRange db' range s = scan.setRange db range s := by
  rw [setRange, setRange, scan.reopen_congr hstore]

/-- A scan through an index of which a fetch fails. -/
theorem faulty (scan : IndexScan) (hstore : db'.store = db.store) {k : Nat}
    (plans : db'.readFaults.FailsAt db.readFaults k e) :
    scan.operator.Faulty scan.operator db db' (.reading e (· ≤ k)) where
  start := by
    rintro s s' _ rfl hstart
    exact ⟨s', (scan.reopen_congr hstore _).trans hstart, rfl⟩
  next := by
    rintro s _ n rfl hn
    show Pull.Falters _ (scan.next db s n) (scan.next db' s n)
    unfold next
    rcases nextEntry s with ⟨e | _ | ⟨rowId, value⟩, s⟩
    · exact .same rfl hn
    · exact .same rfl hn
    · rcases Nat.eq_or_lt_of_le hn with rfl | hlt
      · simp only [Database.readTuple, plans.fails]
        exact .struck (.inr (Nat.not_succ_le_self _))
      · simp only [Database.readTuple, plans.agree n hlt, hstore]
        exact .same rfl hlt

end IndexScan

/-! ## Joins -/

namespace BlockJoin

def fault (f : Fault e σ τ) (g : Fault e TableScan.State TableScan.State) :
    Fault e (State σ) (State τ) :=
  (f.both g).inPart (fun s => (s.left, s.right)) (fun t => (t.left, t.right))
    (fun s => (s.block, s.blockBytes, s.phase, s.exhausted, s.done))
    fun t => (t.block, t.blockBytes, t.phase, t.exhausted, t.done)

theorem start_eq_ok_iff {join : BlockJoin} {left : Operator} {s s' : State left.State} :
    join.start left db s = (.ok (), s') ↔
      ∃ l r, left.start db s.left = (.ok (), l) ∧ join.right.start db s.right = (.ok (), r) ∧
        s' = .fresh l r := by
  unfold start
  rcases left.start db s.left with ⟨_ | _, l⟩
  · simp
  · rcases join.right.start db s.right with ⟨_ | _, r⟩
    · simp
    · simp [eq_comm]

section

variable {f : Fault e σ τ} {g : Fault e TableScan.State TableScan.State} {s : State σ} {t : State τ}
  {n : Nat}

theorem falters_complete {join : BlockJoin} (hright : join.right.Faulty db db' g)
    (h : (fault f g).alike s t) (hn : (fault f g).fine n) (pending : Option Tuple) :
    (s.complete pending n).Falters (fault f g) (t.complete pending n) := by
  obtain ⟨l, r, block, bytes, phase, exhausted, done⟩ := s
  obtain ⟨l', r', _⟩ := t
  obtain ⟨⟨hl, hr⟩, ⟨⟩⟩ := h
  rcases hright.rewind hr with ⟨answer, u, v, hrewind, hrewind', huv⟩ | ⟨v, hrewind', hhit⟩
  · simp only [State.complete, hrewind, hrewind']
    cases answer with
    | error e => exact .settled (.same ⟨⟨hl, huv⟩, rfl⟩ hn)
    | ok _ => exact .again ⟨⟨hl, huv⟩, rfl⟩ hn
  · simp only [State.complete, hrewind']
    exact .struck (Fault.Struck.right (.inl hhit) f l')

theorem falters_test (join : BlockJoin) (l r : Tuple) (h : (fault f g).alike s t)
    (hn : (fault f g).fine n) :
    (join.test l r s n).Falters (fault f g) (join.test l r t n) := by
  unfold test
  rcases join.predicate.evaluate l r with e | _ | _
  · exact .settled (.same h hn)
  · exact .again h hn
  · simp only
    cases l.joinWithin join.maxTupleSize r with
    | error e => exact .settled (.same h hn)
    | ok t => exact .settled (.same h hn)

end

variable {left left' : Operator} {f : Fault e left.State left'.State}
  {g : Fault e TableScan.State TableScan.State} {s : State left.State} {t : State left'.State}
  {n : Nat}

theorem falters_fill (join : BlockJoin) (h : left.Faulty left' db db' f)
    (hright : join.right.Faulty db db' g) (hs : (fault f g).alike s t)
    (hn : (fault f g).fine n) :
    (join.fill left db s n).Falters (fault f g) (join.fill left' db' t n) := by
  obtain ⟨l, r, block, bytes, phase, exhausted, done⟩ := s
  obtain ⟨l', r', _⟩ := t
  obtain ⟨⟨hl, hr⟩, ⟨⟩⟩ := hs
  unfold fill
  cases exhausted with
  | true =>
    simp only [if_true]
    cases block.isEmpty with
    | true => exact .settled (.same ⟨⟨hl, hr⟩, rfl⟩ hn)
    | false => exact falters_complete hright ⟨⟨hl, hr⟩, rfl⟩ hn none
  | false =>
    have hpull := h.next hl hn.1
    simp only [Bool.false_eq_true, if_false]
    generalize left.next db l n = p at hpull ⊢
    generalize left'.next db' l' n = q at hpull ⊢
    cases hpull with
    | struck hstruck => exact .struck (hstruck.left g r')
    | @same answer u v k states reads =>
      have hk : (fault f g).fine k := ⟨reads, hright.fine k⟩
      have halike : (fault f g).alike ⟨u, r, block, bytes, phase, false, done⟩
          ⟨v, r', block, bytes, phase, false, done⟩ := ⟨⟨states, hr⟩, rfl⟩
      rcases answer with e | _ | x
      · exact .settled (.same halike hk)
      · exact .again ⟨⟨states, hr⟩, rfl⟩ hk
      · simp only
        split
        · exact falters_complete hright halike hk (some x)
        · exact .again ⟨⟨states, hr⟩, rfl⟩ hk

theorem faulty (join : BlockJoin) (h : left.Faulty left' db db' f)
    (hright : join.right.Faulty db db' g) :
    (join.machine left).Faulty (join.machine left') db db' (fault f g) where
  start := by
    rintro _ _ _ ⟨⟨hl, hr⟩, -⟩ hstart
    obtain ⟨l, r, hl', hr', rfl⟩ := start_eq_ok_iff.1 hstart
    obtain ⟨l', hleft, hll⟩ := h.start hl hl'
    obtain ⟨r', hscan, hrr⟩ := hright.start hr hr'
    exact ⟨_, start_eq_ok_iff.2 ⟨l', r', hleft, hscan, rfl⟩, ⟨hll, hrr⟩, rfl⟩
  step := by
    rintro ⟨l, r, block, bytes, phase, exhausted, done⟩ ⟨l', r', _⟩ n ⟨⟨hl, hr⟩, ⟨⟩⟩ hn
    show (join.step left db ⟨l, r, block, bytes, phase, exhausted, done⟩ n).Falters (fault f g)
      (join.step left' db' ⟨l', r', block, bytes, phase, exhausted, done⟩ n)
    unfold step
    cases done with
    | true => exact .settled (.same ⟨⟨hl, hr⟩, rfl⟩ hn)
    | false =>
      simp only [Bool.false_eq_true, if_false]
      -- filling, fetching a right tuple, letting one go, testing one
      rcases phase with _ | ⟨pending, _ | ⟨x, _ | ⟨y, untested⟩⟩⟩
      · exact falters_fill join h hright ⟨⟨hl, hr⟩, rfl⟩ hn
      · rcases hright.next hr with ⟨answer, u, v, hnext, hnext', huv⟩ | ⟨v, hnext', hhit⟩
        · simp only [hnext, hnext']
          rcases answer with e | _ | x
          · exact .settled (.same ⟨⟨hl, huv⟩, rfl⟩ hn)
          · exact .again ⟨⟨hl, huv⟩, rfl⟩ hn
          · exact .again ⟨⟨hl, huv⟩, rfl⟩ hn
        · simp only [hnext']
          exact .struck (Fault.Struck.right (.inl hhit) f l')
      · exact .again ⟨⟨hl, hr⟩, rfl⟩ hn
      · exact falters_test join y x ⟨⟨hl, hr⟩, rfl⟩ hn

end BlockJoin

namespace IndexJoin

def fault (f : Fault e σ τ) : Fault e (State σ) (State τ) :=
  f.inPart State.left State.left (fun s => (s.right, s.probe, s.done))
    fun t => (t.right, t.probe, t.done)

theorem start_eq_ok_iff {join : IndexJoin} {left : Operator} {s s' : State left.State} :
    join.start left db s = (.ok (), s') ↔
      ∃ l r, left.start db s.left = (.ok (), l) ∧ join.right.start db s.right = (.ok (), r) ∧
        s' = ⟨l, r, none, false⟩ := by
  unfold start
  rcases left.start db s.left with ⟨_ | _, l⟩
  · simp
  · rcases join.right.start db s.right with ⟨_ | _, r⟩
    · simp
    · simp [eq_comm]

section

variable {f : Fault e σ τ} {s : State σ} {t : State τ} {n : Nat}

theorem falters_fetch (join : IndexJoin)
    (hright : join.right.operator.Faulty join.right.operator db db' (.reading e f.fine))
    (h : (fault f).alike s t) (hn : f.fine n) (probe : Probe) :
    (join.fetch db probe s n).Falters (fault f) (join.fetch db' probe t n) := by
  obtain ⟨l, right, probe', done⟩ := s
  obtain ⟨l', _⟩ := t
  obtain ⟨hl, ⟨⟩⟩ := h
  have hpull : (join.right.next db right n).Falters (Fault.reading e f.fine)
      (join.right.next db' right n) := hright.next rfl hn
  unfold fetch
  simp only
  generalize join.right.next db right n = p at hpull ⊢
  generalize join.right.next db' right n = q at hpull ⊢
  cases hpull with
  | struck hstruck => exact .struck (.inr (hstruck.resolve_left id))
  | @same answer u v k states reads =>
    obtain rfl := states
    rcases answer with e | _ | x
    · exact .settled (.same ⟨hl, rfl⟩ reads)
    · exact .again ⟨hl, rfl⟩ reads
    · simp only
      cases probe.tuple.joinWithin join.maxTupleSize x with
      | error e => exact .settled (.same ⟨hl, rfl⟩ reads)
      | ok y => exact .settled (.same ⟨hl, rfl⟩ reads)

theorem falters_move (join : IndexJoin) (hstore : db'.store = db.store) (h : (fault f).alike s t)
    (hn : f.fine n) (x : Tuple) (range : KeyRange) (ranges : List KeyRange) :
    (join.move db x range ranges s n).Falters (fault f) (join.move db' x range ranges t n) := by
  obtain ⟨l, right, probe, done⟩ := s
  obtain ⟨l', _⟩ := t
  obtain ⟨hl, ⟨⟩⟩ := h
  unfold move
  simp only [join.right.setRange_congr hstore]
  rcases join.right.setRange db range right with ⟨e | _, r⟩
  · exact .settled (.same ⟨hl, rfl⟩ hn)
  · exact .again ⟨hl, rfl⟩ hn

end

variable {left left' : Operator} {f : Fault e left.State left'.State} {s : State left.State}
  {t : State left'.State} {n : Nat}

theorem falters_advance (join : IndexJoin) (h : left.Faulty left' db db' f)
    (hs : (fault f).alike s t) (hn : f.fine n) :
    (join.advance left db s n).Falters (fault f) (join.advance left' db' t n) := by
  obtain ⟨l, right, probe, done⟩ := s
  obtain ⟨l', _⟩ := t
  obtain ⟨hl, ⟨⟩⟩ := hs
  have hpull := h.next hl hn
  unfold advance
  simp only
  generalize left.next db l n = p at hpull ⊢
  generalize left'.next db' l' n = q at hpull ⊢
  cases hpull with
  | struck hstruck => exact .struck hstruck
  | @same answer u v k states reads =>
    rcases answer with e | _ | x
    · exact .settled (.same ⟨states, rfl⟩ reads)
    · exact .settled (.same ⟨states, rfl⟩ reads)
    · simp only
      cases join.rangesOf x with
      | error e => exact .settled (.same ⟨states, rfl⟩ reads)
      | ok ranges => exact .again ⟨states, rfl⟩ reads

theorem faulty (join : IndexJoin) (h : left.Faulty left' db db' f)
    (hstore : db'.store = db.store)
    (hright : join.right.operator.Faulty join.right.operator db db' (.reading e f.fine)) :
    (join.machine left).Faulty (join.machine left') db db' (fault f) where
  start := by
    rintro ⟨l, r, _⟩ _ ⟨l', _⟩ ⟨hl, ⟨⟩⟩ hstart
    obtain ⟨l, r, hl', hr, rfl⟩ := start_eq_ok_iff.1 hstart
    obtain ⟨l', hleft, hll⟩ := h.start hl hl'
    obtain ⟨_, hr', rfl⟩ := hright.start rfl hr
    exact ⟨_, start_eq_ok_iff.2 ⟨l', r, hleft, hr', rfl⟩, hll, rfl⟩
  step := by
    rintro ⟨l, right, probe, done⟩ ⟨l', _⟩ n ⟨hl, ⟨⟩⟩ hn
    show (join.step left db ⟨l, right, probe, done⟩ n).Falters (fault f)
      (join.step left' db' ⟨l', right, probe, done⟩ n)
    unfold step
    cases done with
    | true => exact .settled (.same ⟨hl, rfl⟩ hn)
    | false =>
      simp only [Bool.false_eq_true, if_false]
      -- between left tuples, or with ranges left or not, scanning or not
      rcases probe with _ | ⟨x, _ | ⟨range, ranges⟩, _ | _⟩
      · exact join.falters_advance h ⟨hl, rfl⟩ hn
      · exact .again ⟨hl, rfl⟩ hn
      · exact join.falters_fetch hright ⟨hl, rfl⟩ hn _
      · exact join.falters_move hstore ⟨hl, rfl⟩ hn x range ranges
      · exact join.falters_fetch hright ⟨hl, rfl⟩ hn _

end IndexJoin

namespace HashJoin

def fault {σ' τ' : Type} (f : Fault e σ σ') (g : Fault e τ τ') :
    Fault e (State σ τ) (State σ' τ') :=
  (f.both g).inPart (fun s => (s.left, s.right)) (fun t => (t.left, t.right)) State.phase
    State.phase

theorem start_eq_ok_iff {left right : Operator} {s s' : State left.State right.State} :
    start left right db s = (.ok (), s') ↔
      ∃ l r, left.start db s.left = (.ok (), l) ∧ right.start db s.right = (.ok (), r) ∧
        s' = ⟨l, r, .spreading⟩ := by
  unfold start
  rcases left.start db s.left with ⟨_ | _, l⟩
  · simp
  · rcases right.start db s.right with ⟨_ | _, r⟩
    · simp
    · simp [eq_comm]

variable {left left' right right' : Operator} {f : Fault e left.State left'.State}
  {g : Fault e right.State right'.State} {s : State left.State right.State}
  {t : State left'.State right'.State} {n : Nat}

theorem falters_spread (join : HashJoin) (hleft : left.Faulty left' db db' f)
    (hright : right.Faulty right' db db' g) (hf : ∀ n, f.fine n) (hg : ∀ n, g.fine n)
    (hs : (fault f g).alike s t) :
    (join.spread left right db s n).Falters (fault f g) (join.spread left' right' db' t n) := by
  obtain ⟨l, r, phase⟩ := s
  obtain ⟨l', r', _⟩ := t
  obtain ⟨⟨hl, hr⟩, rfl⟩ := hs
  unfold spread
  rcases hleft.fold_cases hl (hf n) (join.place .left) join.noTuples with
    ⟨lefts, l₁, l₁', k, hfold, hfold', hl₁, -⟩ | ⟨l₁', k, hfold', hstruck⟩
  · simp only [hfold, hfold']
    cases lefts with
    | error e => exact .settled (.same ⟨⟨hl₁, hr⟩, rfl⟩ ⟨hf k, hg k⟩)
    | ok lefts =>
      rcases hright.fold_cases hr (hg k) (join.place .right) join.noTuples with
        ⟨rights, r₁, r₁', m, hfold₁, hfold₁', hr₁, -⟩ | ⟨r₁', m, hfold₁', hstruck⟩
      · simp only [hfold₁, hfold₁']
        cases rights with
        | error e => exact .settled (.same ⟨⟨hl₁, hr₁⟩, rfl⟩ ⟨hf m, hg m⟩)
        | ok rights => exact .again ⟨⟨hl₁, hr₁⟩, rfl⟩ ⟨hf m, hg m⟩
      · simp only [hfold₁']
        exact .struck (hstruck.right f l₁')
  · simp only [hfold']
    exact .struck (hstruck.left g r')

theorem falters_readProbe (join : HashJoin) (pending : List (Spill.Partition × Spill.Partition))
    (active : Active) (hs : (fault f g).alike s t) (hn : (fault f g).fine n) :
    (join.readProbe pending active s n).Falters (fault f g)
      (join.readProbe pending active t n) := by
  have hboth := hs.1
  unfold readProbe
  rcases active.reader.next with e | _ | ⟨x, reader⟩
  · exact .settled (.same hs hn)
  · exact .again ⟨hboth, rfl⟩ hn
  · simp only
    cases join.matchesOf active x with
    | error e => exact .settled (.same hs hn)
    | ok found => exact .again ⟨hboth, rfl⟩ hn

theorem faulty (join : HashJoin) (hleft : left.Faulty left' db db' f)
    (hright : right.Faulty right' db db' g) (hf : ∀ n, f.fine n) (hg : ∀ n, g.fine n) :
    (join.machine left right).Faulty (join.machine left' right') db db' (fault f g) where
  start := by
    rintro _ _ _ ⟨⟨hl, hr⟩, -⟩ hstart
    obtain ⟨l, r, hl', hr', rfl⟩ := start_eq_ok_iff.1 hstart
    obtain ⟨l', hstart', hll⟩ := hleft.start hl hl'
    obtain ⟨r', hstart'', hrr⟩ := hright.start hr hr'
    exact ⟨_, start_eq_ok_iff.2 ⟨l', r', hstart', hstart'', rfl⟩, ⟨hll, hrr⟩, rfl⟩
  step := by
    rintro ⟨l, r, phase⟩ ⟨l', r', _⟩ n ⟨⟨hl, hr⟩, rfl⟩ hn
    show (join.step left right db ⟨l, r, phase⟩ n).Falters (fault f g)
      (join.step left' right' db' ⟨l', r', phase⟩ n)
    rcases phase with _ | ⟨pending, _ | ⟨build, table, reader, probe⟩⟩
    · exact join.falters_spread hleft hright hf hg ⟨⟨hl, hr⟩, rfl⟩
    · rcases pending with _ | ⟨⟨x, y⟩, pending⟩
      · exact .settled (.same ⟨⟨hl, hr⟩, rfl⟩ hn)
      · simp only [step]
        cases join.load x y with
        | error e => exact .settled (.same ⟨⟨hl, hr⟩, rfl⟩ hn)
        | ok active => exact .again ⟨⟨hl, hr⟩, rfl⟩ hn
    · rcases probe with _ | ⟨x, _ | ⟨found, rest⟩⟩
      · rw [step_reading (by simp), step_reading (by simp)]
        exact join.falters_readProbe pending _ ⟨⟨hl, hr⟩, rfl⟩ hn
      · rw [step_reading (by simp), step_reading (by simp)]
        exact join.falters_readProbe pending _ ⟨⟨hl, hr⟩, rfl⟩ hn
      · simp only [step]
        cases join.pair build x found with
        | error e => exact .settled (.same ⟨⟨hl, hr⟩, rfl⟩ hn)
        | ok y => exact .settled (.same ⟨⟨hl, hr⟩, rfl⟩ hn)

/-- Once the children are spread they are not pulled. -/
theorem step_joining (join : HashJoin) (left right : Operator) (db : Database) (l : left.State)
    (r : right.State) (pending : List (Spill.Partition × Spill.Partition))
    (active : Option Active) (n : Nat) :
    ∃ pending' active', (join.step left right db ⟨l, r, .joining pending active⟩ n).state =
      ⟨l, r, .joining pending' active'⟩ := by
  have hread : ∀ active : Active, ∃ pending' active',
      (join.readProbe pending active (⟨l, r, .joining pending (some active)⟩ : State _ _) n).state =
        ⟨l, r, .joining pending' active'⟩ := by
    intro active
    unfold readProbe
    rcases active.reader.next with e | _ | ⟨x, reader⟩
    · exact ⟨_, _, rfl⟩
    · exact ⟨_, _, rfl⟩
    · simp only
      cases join.matchesOf active x <;> exact ⟨_, _, rfl⟩
  rcases active with _ | ⟨build, table, reader, probe⟩
  · rcases pending with _ | ⟨⟨x, y⟩, pending⟩
    · exact ⟨_, _, rfl⟩
    · simp only [step]
      cases join.load x y <;> exact ⟨_, _, rfl⟩
  · rcases probe with _ | ⟨x, _ | ⟨found, rest⟩⟩
    · rw [step_reading (by simp)]
      exact hread _
    · rw [step_reading (by simp)]
      exact hread _
    · simp only [step]
      cases join.pair build x found <;> exact ⟨_, _, rfl⟩

/-- What is yielded is yielded after that. -/
theorem spread_ne_emit (join : HashJoin) (x : Tuple) (u : State left.State right.State) (k : Nat) :
    join.spread left right db s n ≠ .emit x u k := by
  unfold spread
  rcases left.fold (join.place .left) db join.noTuples s.left n with ⟨_ | lefts, l, m⟩
  · simp [Step.fail, Step.emit]
  · simp only
    rcases right.fold (join.place .right) db join.noTuples s.right m with ⟨_ | rights, r, m⟩ <;>
      simp [Step.fail, Step.emit]

/-- The children are read to their ends before anything is yielded. -/
theorem eq_nil_of_struck (join : HashJoin) (hleft : left.Faulty left' db db' f)
    (hright : right.Faulty right' db db' g) (hf : ∀ n, f.fine n) (hg : ∀ n, g.fine n)
    {s : (join.operator left right).State} {t u : (join.operator left' right').State}
    (hs : (fault f g).guarded.alike s t) {tuples : List Tuple} {stop : Option Error} {k : Nat}
    (hdrain : (join.operator left' right').drain db' t n = (tuples, stop, u, k))
    (hstruck : (fault f g).guarded.Struck u k) : tuples = [] := by
  refine (join.faulty hleft hright hf hg).drain_eq_nil (fun n => ⟨hf n, hg n⟩)
    (fun u => ∃ l r pending active, u = ⟨l, r, .joining pending active⟩) ?_ ?_ hs hdrain hstruck
  · rintro ⟨l, r, _ | ⟨pending, active⟩⟩ n x u k hemit
    · exact (join.spread_ne_emit x u k hemit).elim
    · obtain ⟨pending', active', hstate⟩ :=
        join.step_joining left' right' db' l r pending active n
      rw [show join.step left' right' db' _ n = _ from hemit] at hstate
      exact ⟨_, _, _, _, hstate⟩
  · rintro _ n ⟨⟨l, r, pending, active, rfl⟩, hmissed⟩
    obtain ⟨pending', active', hstate⟩ := join.step_joining left' right' db' l r pending active n
    rw [show ((join.machine left' right').step db' _ n).state = _ from hstate]
    exact ⟨⟨_, _, _, _, rfl⟩, hmissed⟩

end HashJoin

/-! ## Two runs -/

namespace Operator

/-- A run of an operator, which is opened in a state after some fetches. -/
structure Run where
  op : Operator
  db : Database
  state : op.State
  reads : Nat

/-- The second run is over the same inputs as the first, but that one of them fails at a call with
error `e`. It goes on as it likes if it is pulled again. By the state and the number of fetches that
the second run comes to, `reached` tells whether it made that call; `early` is whether nothing is
yielded before it. -/
inductive OneFault :
    Error → (A B : Run) → (reached : B.op.State → Nat → Prop) → (early : Prop) → Prop
  | filter (f : Filter) (child : Operator) (failure : child.Failure) (db : Database)
      (s : (f.operator child).State) (calls n : Nat) :
    OneFault failure.error ⟨f.operator child, db, s, n⟩
      ⟨f.operator (child.withFailure failure), db,
        Machine.Guarded.map (fun t => { t with child := .before t.child calls }) s, n⟩
      (fun u _ => failure.Hit (Machine.Guarded.body u).child) False
  | project (p : Project) (child : Operator) (failure : child.Failure) (db : Database)
      (s : (p.operator child).State) (calls n : Nat) :
    OneFault failure.error ⟨p.operator child, db, s, n⟩
      ⟨p.operator (child.withFailure failure), db,
        Machine.Guarded.map (fun t => .before t calls) s, n⟩
      (fun u _ => failure.Hit (Machine.Guarded.body u)) False
  | aggregate (a : Aggregate) (child : Operator) (failure : child.Failure) (db : Database)
      (s : (a.operator child).State) (calls n : Nat) :
    OneFault failure.error ⟨a.operator child, db, s, n⟩
      ⟨a.operator (child.withFailure failure), db,
        Machine.Guarded.map (fun t => { t with child := .before t.child calls }) s, n⟩
      (fun u _ => failure.Hit (Machine.Guarded.body u).child) True
  | blockLeft (join : BlockJoin) (left : Operator) (failure : left.Failure) (db : Database)
      (s : (join.operator left).State) (calls n : Nat) :
    OneFault failure.error ⟨join.operator left, db, s, n⟩
      ⟨join.operator (left.withFailure failure), db,
        Machine.Guarded.map (fun t => { t with left := .before t.left calls }) s, n⟩
      (fun u _ => failure.Hit (Machine.Guarded.body u).left) False
  /-- The scanner fails at call `k` of a kind: a row of one of the scans, or going back for the next
  one. Only going back in an opening is left out, as no run begins then. The left child does the
  same over both databases. -/
  | blockScanner (join : BlockJoin) (left : Operator) (db db' : Database) (e : Error)
      (call : ScanCall) (k : Nat) (s : (join.operator left).State) (r : TableScan.State) (n : Nat)
      (same : db'.store = db.store) (sameLeft : left.Faulty left db db' (.none e))
      (scanner : TableScan.Alike db db' call k e (Machine.Guarded.body s).right r)
      (opens : (Machine.Guarded.body s).right.OpensBefore call k) :
    OneFault e ⟨join.operator left, db, s, n⟩
      ⟨join.operator left, db', Machine.Guarded.map (fun t => { t with right := r }) s, n⟩
      (fun u _ => (Machine.Guarded.body u).right.Past call k) False
  | indexLeft (join : IndexJoin) (left : Operator) (failure : left.Failure) (db : Database)
      (s : (join.operator left).State) (calls n : Nat) :
    OneFault failure.error ⟨join.operator left, db, s, n⟩
      ⟨join.operator (left.withFailure failure), db,
        Machine.Guarded.map (fun t => { t with left := .before t.left calls }) s, n⟩
      (fun u _ => failure.Hit (Machine.Guarded.body u).left) False
  /-- Fetch `k` fails. The left child does the same over both databases, unless that fetch is one
  of its own. -/
  | indexFetch (join : IndexJoin) (left : Operator) (db db' : Database) (e : Error) (k : Nat)
      (s : (join.operator left).State) (n : Nat) (before : n ≤ k)
      (same : db'.store = db.store) (plans : db'.readFaults.FailsAt db.readFaults k e)
      (sameLeft : left.Faulty left db db' (.reading e (· ≤ k))) :
    OneFault e ⟨join.operator left, db, s, n⟩ ⟨join.operator left, db', s, n⟩
      (fun _ n' => k < n') False
  | hashLeft (join : HashJoin) (left right : Operator) (failure : left.Failure) (db : Database)
      (s : (join.operator left right).State) (calls n : Nat) :
    OneFault failure.error ⟨join.operator left right, db, s, n⟩
      ⟨join.operator (left.withFailure failure) right, db,
        Machine.Guarded.map (fun t => { t with left := .before t.left calls }) s, n⟩
      (fun u _ => failure.Hit (Machine.Guarded.body u).left) True
  | hashRight (join : HashJoin) (left right : Operator) (failure : right.Failure) (db : Database)
      (s : (join.operator left right).State) (calls n : Nat) :
    OneFault failure.error ⟨join.operator left right, db, s, n⟩
      ⟨join.operator left (right.withFailure failure), db,
        Machine.Guarded.map (fun t => { t with right := .before t.right calls }) s, n⟩
      (fun u _ => failure.Hit (Machine.Guarded.body u).right) True

/-- **A failure gives a prefix and the error as it is, and after that nothing.** -/
theorem OneFault.prefix_then_aborted {e : Error} {A B : Run} {reached : B.op.State → Nat → Prop}
    {early : Prop} (h : OneFault e A B reached early) {a a' : A.op.State}
    (hopen : A.op.start A.db A.state = (.ok (), a)) {given : List Tuple} {n : Nat}
    (hdrain : A.op.drain A.db a A.reads = (given, none, a', n)) :
    ∃ b, B.op.start B.db B.state = (.ok (), b) ∧
      ∀ tuples stop u k, B.op.drain B.db b B.reads = (tuples, stop, u, k) → reached u k →
        tuples <+: given ∧ (early → tuples = []) ∧ stop = some e ∧
          ∀ v, B.op.Unopened u v →
            ∀ db n, B.op.next db v n = ⟨.error (.aborted B.op.name), v, n⟩ := by
  cases h with
  | filter f child failure db s calls n =>
    refine (f.faulty (child.faulty_withFailure failure db)).ends ?_ trivial hopen hdrain
      (fun _ _ => .inl) False.elim
    exact ⟨⟨⟨calls, rfl⟩, rfl⟩, rfl⟩
  | project p child failure db s calls n =>
    refine (p.faulty (child.faulty_withFailure failure db)).ends ?_ trivial hopen hdrain
      (fun _ _ => .inl) False.elim
    exact ⟨⟨calls, rfl⟩, rfl⟩
  | aggregate agg child failure db s calls n =>
    have hchild := child.faulty_withFailure failure db
    refine (agg.faulty hchild).ends ?_ trivial hopen hdrain (fun _ _ => .inl)
      fun _ _ _ _ _ _ hs => agg.eq_nil_of_struck hchild (fun _ => trivial) hs
    exact ⟨⟨⟨calls, rfl⟩, rfl⟩, rfl⟩
  | blockLeft join left failure db s calls n =>
    have hleft := left.faulty_withFailure failure db
    refine (join.faulty hleft (.refl _ db failure.error)).ends ?_ ⟨trivial, trivial⟩ hopen hdrain
      (fun _ _ h => .inl (.inl h)) False.elim
    exact ⟨⟨⟨⟨calls, rfl⟩, rfl⟩, rfl⟩, rfl⟩
  | blockScanner join left db db' e call k s r n same sameLeft scanner opens =>
    refine (join.faulty sameLeft (join.right.faulty same call k e)).ends ?_ ⟨trivial, trivial⟩ hopen
      hdrain (fun _ _ h => .inl (.inr h)) False.elim
    exact ⟨⟨⟨rfl, scanner, opens⟩, rfl⟩, rfl⟩
  | indexLeft join left failure db s calls n =>
    have hleft := left.faulty_withFailure failure db
    refine (join.faulty hleft rfl (.refl _ db failure.error)).ends ?_ trivial hopen hdrain
      (fun _ _ => .inl) False.elim
    exact ⟨⟨⟨calls, rfl⟩, rfl⟩, rfl⟩
  | indexFetch join left db db' e k s n before same plans sameLeft =>
    refine (join.faulty sameLeft same (join.right.faulty same plans)).ends ?_ before hopen hdrain
      (fun _ _ h => .inr (Nat.not_le.2 h)) False.elim
    exact ⟨⟨rfl, rfl⟩, rfl⟩
  | hashLeft join left right failure db s calls n =>
    have hleft := left.faulty_withFailure failure db
    have hright := Faulty.refl right db failure.error
    refine (join.faulty hleft hright (fun _ => trivial) fun _ => trivial).ends ?_
      ⟨trivial, trivial⟩ hopen hdrain (fun _ _ h => .inl (.inl h)) fun _ _ _ _ _ _ hs =>
        join.eq_nil_of_struck hleft hright (fun _ => trivial) (fun _ => trivial) hs
    exact ⟨⟨⟨⟨calls, rfl⟩, rfl⟩, rfl⟩, rfl⟩
  | hashRight join left right failure db s calls n =>
    have hleft := Faulty.refl left db failure.error
    have hright := right.faulty_withFailure failure db
    refine (join.faulty hleft hright (fun _ => trivial) fun _ => trivial).ends ?_
      ⟨trivial, trivial⟩ hopen hdrain (fun _ _ h => .inl (.inr h)) fun _ _ _ _ _ _ hs =>
        join.eq_nil_of_struck hleft hright (fun _ => trivial) (fun _ => trivial) hs
    exact ⟨⟨⟨rfl, ⟨calls, rfl⟩⟩, rfl⟩, rfl⟩

/-- The scanner does not go back to the first row for the second block. -/
theorem prefix_then_aborted_integers :
    let left := Materialized.operator ⟨[.integer "a"], [⟨[2, 0, 0, 0]⟩, ⟨[1, 0, 0, 0]⟩]⟩
    let join := BlockJoin.integers.operator left
    let db : Database := {
      store := BlockJoin.integersStore
      scanFaults := fun
        | .next => .never
        | .rewind => fun k => if k = 1 then some (.storage .readFailed) else none }
    ∃ s u k, join.start db join.initial = (.ok (), s) ∧
      join.drain db s 0 = ([⟨[2, 0, 0, 0, 3, 0, 0, 0]⟩], some (.storage .readFailed), u, k) ∧
      ∀ v, join.Unopened u v →
        ∀ db n, join.next db v n = ⟨.error (.aborted "BlockNestedLoopJoin"), v, n⟩ := by
  intro left join db
  have hleft : left.Faulty left { store := BlockJoin.integersStore } db
      (.none (.storage .readFailed)) := by
    refine ⟨?_, ?_⟩
    · rintro s s' _ rfl hstart
      exact ⟨s', hstart, rfl⟩
    · rintro s _ n rfl -
      exact .same rfl trivial
  have hplan : db.scanFaults.FailsAt .never .rewind 1 (.storage .readFailed) := by
    refine ⟨⟨fun i hi => if_neg (Nat.ne_of_lt hi), rfl⟩, fun other hother => ?_⟩
    cases other with
    | next => rfl
    | rewind => exact (hother rfl).elim
  obtain ⟨s, hs, h⟩ := OneFault.prefix_then_aborted
    (.blockScanner BlockJoin.integers left { store := BlockJoin.integersStore } db _ .rewind 1
      join.initial _ 0 rfl hleft (.unopened hplan) fun _ h => nomatch h) rfl
    (Machine.drain_of_drainWithin _ _ 20 rfl)
  obtain rfl := (Prod.mk.inj hs).2
  obtain ⟨u, k, hdrain, hpast⟩ : ∃ u k, join.drain db (join.start db join.initial).2 0 =
      ([⟨[2, 0, 0, 0, 3, 0, 0, 0]⟩], some (.storage .readFailed), u, k) ∧
      (Machine.Guarded.body u).right.Past .rewind 1 :=
    ⟨_, _, Machine.drain_of_drainWithin _ _ 20 rfl, _, rfl, by decide⟩
  exact ⟨_, u, k, hs, hdrain, (h _ _ u k hdrain hpast).2.2.2⟩

end Operator

end QueryEngine
