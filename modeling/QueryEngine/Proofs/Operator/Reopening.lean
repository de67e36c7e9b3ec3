import QueryEngine.Proofs.Operator.RestartTrees
import QueryEngine.Proofs.Operator.Typing

/-!
# Opening an index join again

An index join moves its scan to the ranges of one left tuple after the other, and opening it again
opens the scan on the range that it is on. Where that range can be looked up the join starts a fresh
run. A range with a bound that is not finite cannot; the join fails when it moves there, and from
then on it cannot be opened any more.

* `IndexJoin.matches_bisimilar`: the range that the scan is on when the join is opened makes no
  difference.
* `IndexJoin.leads_step`: what becomes of the range in one step, and
  `IndexJoin.Parts.ready_or_stuck` in a history.
* `IndexJoin.reopens_or_stuck`: every opening starts a fresh run, or none does any more.
-/

namespace QueryEngine

variable {db : Database} {n n' : Nat}

namespace IndexScan

variable {scan : IndexScan} {range : KeyRange} {t : Table} {index : Index}

/-- The range can be looked up. -/
def Opens (scan : IndexScan) (db : Database) (range : KeyRange) : Prop :=
  ∃ scanner, db.store.indexScan scan.table scan.column range = .ok scanner

/-- The range cannot be looked up, since it has a bound that is not finite. -/
def Refuses (scan : IndexScan) (db : Database) (range : KeyRange) : Prop :=
  db.store.indexScan scan.table scan.column range = .error .nonFiniteReal

theorem opens_or_refuses (ht : db.store.table scan.table = .ok t)
    (hindex : t.indexes.lookup scan.column = some index) (htype : index.keyType = scan.keyType)
    (hasked : scan.Asked range) : scan.Opens db range ∨ scan.Refuses db range := by
  have hscan : db.store.indexScan scan.table scan.column range = index.scan range := by
    rw [Store.indexScan, ht, ok_bind, hindex]
  cases h : index.scan range with
  | ok scanner => exact .inl ⟨scanner, hscan.trans h⟩
  | error e =>
    have hinterval := htype ▸ Index.scan_eq_error_iff.1 h
    rw [Asked, hinterval, meets_error] at hasked
    exact .inr (by rw [Refuses, hscan, h, hasked])

end IndexScan

namespace IndexJoin

variable {join : IndexJoin} {left : Operator} {s t : State left.State}

/-! ## Fresh runs -/

/-- Joins at the same place. Their scans matter only where they are on a range of the left tuple. -/
structure Bisimilar (left : Operator) (db : Database) (s t : State left.State) : Prop where
  left : left.Bisimilar db s.left t.left
  probe : s.probe = t.probe
  done : s.done = t.done
  opened : s.right.opened = true ∧ t.right.opened = true
  right : ∀ p ∈ s.probe, p.scanning = true → IndexScan.Bisimilar s.right t.right

theorem agree_advance (join : IndexJoin) (h : Bisimilar left db s t) :
    Step.Agree (Bisimilar left db) (join.advance left db s n) (join.advance left db t n') := by
  obtain ⟨answer, u, v, k, k', hs, ht, huv⟩ := h.left.exists_next n n'
  have hidle : Bisimilar left db { s with left := u } { t with left := v } := { h with left := huv }
  simp only [advance, hs, ht]
  rcases answer with e | _ | tuple
  · exact ⟨rfl, hidle⟩
  · exact ⟨rfl, { hidle with done := rfl }⟩
  · simp only
    cases join.rangesOf tuple with
    | error e => exact ⟨rfl, hidle⟩
    | ok ranges =>
      refine { hidle with probe := rfl, right := ?_ }
      rintro p ⟨⟩ hscanning
      cases hscanning

theorem agree_fetch (hfaults : db.readFaults = .never) (h : Bisimilar left db s t) {probe : Probe}
    (hprobe : s.probe = some probe) (hscanning : probe.scanning = true) :
    Step.Agree (Bisimilar left db) (join.fetch db probe s n) (join.fetch db probe t n') := by
  have hright := h.right probe hprobe hscanning
  obtain ⟨hanswer, hstate⟩ := join.right.matches_bisimilar hfaults hright n n'
  have hs := (join.right.opened_next db s.right n).trans h.opened.1
  have ht := (join.right.opened_next db t.right n').trans h.opened.2
  replace hanswer : (join.right.next db s.right n).answer =
    (join.right.next db t.right n').answer := hanswer
  replace hstate : IndexScan.Bisimilar (join.right.next db s.right n).state
    (join.right.next db t.right n').state := hstate
  unfold fetch
  rcases hr : join.right.next db s.right n with ⟨a, r, k⟩
  rcases hr' : join.right.next db t.right n' with ⟨_, r', k'⟩
  rw [hr, hr'] at hanswer hstate
  rw [hr] at hs
  rw [hr'] at ht
  obtain rfl := hanswer
  have hmoved : Bisimilar left db { s with right := r } { t with right := r' } :=
    { h with opened := ⟨hs, ht⟩, right := fun _ _ _ => hstate }
  rcases a with e | _ | u
  · exact ⟨rfl, hmoved⟩
  · refine { hmoved with probe := rfl, right := ?_ }
    rintro p ⟨⟩ hscanning
    cases hscanning
  · simp only
    cases probe.tuple.joinWithin join.maxTupleSize u with
    | error e => exact ⟨rfl, hmoved⟩
    | ok u => exact ⟨rfl, hmoved⟩

theorem agree_move (join : IndexJoin) (h : Bisimilar left db s t) (tuple : Tuple) (range : KeyRange)
    (ranges : List KeyRange) :
    Step.Agree (Bisimilar left db) (join.move db tuple range ranges s n)
      (join.move db tuple range ranges t n') := by
  simp only [move, IndexScan.setRange, IndexScan.reopen, h.opened.1, h.opened.2, if_true]
  cases db.store.indexScan join.right.table join.right.column range with
  | error e =>
    refine ⟨rfl, { h with probe := rfl, opened := ⟨rfl, rfl⟩, right := ?_ }⟩
    rintro p ⟨⟩ hscanning
    cases hscanning
  | ok scanner =>
    exact { h with probe := rfl, opened := ⟨rfl, rfl⟩, right := fun _ _ _ => ⟨rfl, rfl⟩ }

theorem matches_bisimilar (join : IndexJoin) (left : Operator) (hfaults : db.readFaults = .never) :
    (join.machine left).Matches db (Bisimilar left db) := by
  intro s t h n n'
  show Step.Agree _ (join.step left db s n) (join.step left db t n')
  unfold step
  rw [← h.done, ← h.probe]
  split
  · exact ⟨rfl, h⟩
  · split
    · exact agree_advance join h
    · rename_i hprobe
      exact agree_fetch hfaults h hprobe rfl
    · exact agree_move join h _ _ _
    · exact ⟨h.left, rfl, rfl, h.opened, fun p hp => absurd hp (Option.not_mem_none p)⟩

/-! ## What becomes of the range -/

/-- What is known of the left child and of the ranges, over a database that does not change, if the
join was in the state `first` after it was opened first. -/
structure Parts (join : IndexJoin) (left : Operator) (db : Database)
    (c : Contract (.still db) left.State) (quiet : left.State → Prop) (first : State left.State) :
    Prop where
  begins : first.probe = none ∧ first.done = false ∧ first.right.opened = true
  keeps : left.Keeps c fun _ => True
  restarts : ∀ s, c.holds false db s →
    ∃ v, left.start db s = (.ok (), v) ∧ left.Bisimilar db v first.left
  hushes : left.Hushes db quiet
  ranges : ∀ t ranges, join.rangesOf t = .ok ranges →
    ∀ range ∈ ranges, join.right.Opens db range ∨ join.right.Refuses db range

/-- The range that the scan is on can be looked up, and it is moved only while the join is open. -/
structure Ready (join : IndexJoin) (db : Database) (c : Contract (.still db) left.State)
    (quiet : left.State → Prop) (s : State left.State) : Prop where
  left : c.holds false db s.left
  ranges : ∀ p ∈ s.probe, ∀ range ∈ p.ranges,
    join.right.Opens db range ∨ join.right.Refuses db range
  range : join.right.Opens db s.right.range
  closed : s.right.opened = true ∨ s.probe = none ∧ quiet s.left

/-- The scan is on a range that cannot be looked up. -/
structure Stuck (join : IndexJoin) (db : Database) (c : Contract (.still db) left.State)
    (s : State left.State) : Prop where
  left : c.holds false db s.left
  range : join.right.Refuses db s.right.range

/-- A pull leaves the join ready, unless it fails because a real is not finite. -/
def Settled (join : IndexJoin) (db : Database) (c : Contract (.still db) left.State)
    (quiet : left.State → Prop) : Pull (State left.State) → Prop
  | ⟨.ok _, s, _⟩ => Ready join db c quiet s
  | ⟨.error e, s, _⟩ => Ready join db c quiet s ∨ e = .nonFiniteReal ∧ Stuck join db c s

variable {c : Contract (.still db) left.State} {quiet : left.State → Prop}
  {first : State left.State}

theorem leads_advance (hparts : join.Parts left db c quiet first)
    (hs : Ready join db c quiet s) :
    (join.advance left db s n).Leads (Ready join db c quiet) (Settled join db c quiet) := by
  have hpulls : c.Pulls (fun _ => True) false db (left.next db s.left n) :=
    hparts.keeps.next ⟨rfl, rfl⟩ hs.left n
  have hidles := fun h => hparts.hushes.next (s := s.left) h n
  unfold advance
  rcases hnext : left.next db s.left n with ⟨e | _ | t, l, k⟩ <;> rw [hnext] at hpulls hidles
  · refine .inl { hs with left := hpulls.2, closed := ?_ }
    exact hs.closed.imp_right fun h => ⟨h.1, hidles h.2⟩
  · refine { hs with left := hpulls, closed := ?_ }
    exact hs.closed.imp_right fun h => ⟨h.1, hidles h.2⟩
  · have hopened : s.right.opened = true := hs.closed.resolve_right fun h => hidles h.2
    have hleft : Ready join db c quiet { s with left := l } :=
      { hs with left := hpulls.2, closed := .inl hopened }
    simp only
    cases hranges : join.rangesOf t with
    | error e => exact .inl hleft
    | ok ranges =>
      refine { hleft with ranges := ?_, closed := .inl hopened }
      rintro p ⟨⟩
      exact hparts.ranges t ranges hranges

theorem leads_fetch (hs : Ready join db c quiet s) {probe : Probe} (hprobe : s.probe = some probe) :
    (join.fetch db probe s n).Leads (Ready join db c quiet)
      (Settled join db c quiet) := by
  have hopened : s.right.opened = true :=
    hs.closed.resolve_right fun h => by cases hprobe.symm.trans h.1
  have hrange := join.right.range_next db s.right n
  have hstill := join.right.opened_next db s.right n
  unfold fetch
  rcases hr : join.right.next db s.right n with ⟨a, r, k⟩
  rw [hr] at hrange hstill
  have hmoved : Ready join db c quiet { s with right := r } :=
    { hs with range := hrange ▸ hs.range, closed := .inl (hstill.trans hopened) }
  rcases a with e | _ | u
  · exact .inl hmoved
  · refine { hmoved with ranges := ?_, closed := .inl (hstill.trans hopened) }
    rintro p ⟨⟩
    exact hs.ranges probe hprobe
  · simp only
    cases probe.tuple.joinWithin join.maxTupleSize u with
    | error e => exact .inl hmoved
    | ok u => exact hmoved

theorem leads_move (hs : Ready join db c quiet s) {tuple : Tuple} {range : KeyRange}
    {ranges : List KeyRange} (hprobe : s.probe = some ⟨tuple, range :: ranges, false⟩) :
    (join.move db tuple range ranges s n).Leads (Ready join db c quiet)
      (Settled join db c quiet) := by
  have hopened : s.right.opened = true :=
    hs.closed.resolve_right fun h => by cases hprobe.symm.trans h.1
  obtain ⟨hrange, hranges⟩ := List.forall_mem_cons.1 (hs.ranges _ hprobe)
  simp only [move, IndexScan.setRange, IndexScan.reopen, hopened, if_true]
  rcases hrange with ⟨scanner, hscan⟩ | hrefuses
  · rw [hscan]
    refine ⟨hs.left, ?_, ⟨scanner, hscan⟩, .inl rfl⟩
    rintro p ⟨⟩
    exact hranges
  · replace hrefuses : db.store.indexScan join.right.table join.right.column range =
      .error .nonFiniteReal := hrefuses
    rw [hrefuses]
    exact .inr ⟨rfl, hs.left, hrefuses⟩

/-- A step leaves the join ready, unless it moves the scan to a range that cannot be looked up. -/
theorem leads_step (hparts : join.Parts left db c quiet first) (hs : Ready join db c quiet s) :
    (join.step left db s n).Leads (Ready join db c quiet)
      (Settled join db c quiet) := by
  unfold step
  split
  · exact hs
  · split
    · exact leads_advance hparts hs
    · rename_i hprobe
      exact leads_fetch hs hprobe
    · rename_i hprobe
      exact leads_move hs hprobe
    · rename_i hprobe
      have hopened : s.right.opened = true :=
        hs.closed.resolve_right fun h => by cases hprobe.symm.trans h.1
      exact { hs with
        ranges := fun p hp => absurd hp (Option.not_mem_none p), closed := .inl hopened }

/-! ## Histories -/

theorem Parts.exists_start (hparts : join.Parts left db c quiet first)
    {s : (join.operator left).State} (hs : Ready join db c quiet (Machine.Guarded.body s)) :
    ∃ body, (join.operator left).start db s = (.ok (), ⟨body, true, false⟩) ∧
      Ready join db c quiet body ∧ Bisimilar left db body first := by
  obtain ⟨l, hstart, hsim⟩ := hparts.restarts _ hs.left
  have hstarts : c.Starts false db (left.start db _) := hparts.keeps.start ⟨rfl, rfl⟩ hs.left
  rw [hstart] at hstarts
  obtain ⟨scanner, hscan⟩ := hs.range
  have hbody : (join.machine left).start db (Machine.Guarded.body s) = (.ok (),
      ⟨l, { (Machine.Guarded.body s).right with
        opened := true, scanner := some scanner, done := false }, none, false⟩) := by
    show join.start left db _ = _
    simp only [start, hstart, IndexScan.start, IndexScan.reopen, hscan]
    rfl
  obtain ⟨hprobe, hdone, hopened⟩ := hparts.begins
  refine ⟨_, Machine.start_of_ok hbody, ?_, ?_⟩
  · exact ⟨c.weaken hstarts, fun p hp => absurd hp (Option.not_mem_none p), ⟨scanner, hscan⟩,
      .inl rfl⟩
  · exact ⟨hsim, hprobe.symm, hdone.symm, ⟨rfl, hopened⟩,
      fun p hp => absurd hp (Option.not_mem_none p)⟩

/-- What a call does when the join is ready. -/
theorem Parts.answers (hparts : join.Parts left db c quiet first)
    {s u : (join.operator left).State} {event : Operator.Event}
    (hs : Ready join db c quiet (Machine.Guarded.body s))
    (hdb : ∀ db' ∈ event.database?, db' = db) (h : (join.operator left).Answers s event u) :
    Ready join db c quiet (Machine.Guarded.body u) ∨ event.failure? = some .nonFiniteReal ∧
      Machine.Guarded.failed u = true ∧ Stuck join db c (Machine.Guarded.body u) := by
  rcases h.cases with ⟨db', answer, rfl, hstart⟩ | ⟨db', n, answer, n', hdb', ha, hnext⟩ |
    ⟨rfl, rfl⟩
  · obtain rfl := hdb db' rfl
    obtain ⟨body, hok, hbody, -⟩ := hparts.exists_start hs
    obtain ⟨-, rfl⟩ := Prod.mk.inj (hok.symm.trans hstart)
    exact .inl hbody
  · obtain rfl := hdb db' hdb'
    replace hnext : (join.machine left).guardedNext _ db' s n = ⟨answer, u, n'⟩ := hnext
    have hsettled : Settled join db' c quiet ((join.machine left).run db' _ n) :=
      (join.machine left).leads_run (fun _ hs _ => leads_step hparts hs) hs n
    rcases Machine.guardedNext_cases _ _ db' s n with ⟨-, heq⟩ | ⟨-, -, heq⟩ |
      ⟨-, -, answer, body, k, hrun, heq⟩ <;>
      obtain ⟨rfl, rfl, -⟩ := Pull.mk.inj (heq.symm.trans hnext)
    · exact .inl hs
    · exact .inl hs
    · rw [hrun] at hsettled
      cases answer with
      | error e =>
        rcases hsettled with hready | ⟨rfl, hstuck⟩
        · exact .inl hready
        · exact .inr ⟨by rw [Operator.Event.failure?, ha], rfl, hstuck⟩
      | ok answer => exact .inl hsettled
  · refine .inl ⟨hparts.keeps.close hs.left, fun p hp => absurd hp (Option.not_mem_none p),
      hs.range, .inr ⟨rfl, ?_⟩⟩
    exact hparts.hushes.close _

/-- Opening a join that is stuck fails, and leaves it so. -/
theorem Parts.start_of_stuck (hparts : join.Parts left db c quiet first)
    {s : (join.operator left).State} (hs : Stuck join db c (Machine.Guarded.body s)) :
    ∃ body, (join.operator left).start db s = (.error .nonFiniteReal, { s with body }) ∧
      Stuck join db c body := by
  obtain ⟨l, hstart, -⟩ := hparts.restarts _ hs.left
  have hstarts : c.Starts false db (left.start db _) := hparts.keeps.start ⟨rfl, rfl⟩ hs.left
  rw [hstart] at hstarts
  have hrange : db.store.indexScan join.right.table join.right.column
    (Machine.Guarded.body s).right.range = .error .nonFiniteReal := hs.range
  have hbody : (join.machine left).start db (Machine.Guarded.body s) = (.error .nonFiniteReal,
      { Machine.Guarded.body s with
        left := l
        right := { (Machine.Guarded.body s).right with opened := true, scanner := none } }) := by
    show join.start left db _ = _
    simp only [start, hstart, IndexScan.start, IndexScan.reopen, hrange]
    rfl
  exact ⟨_, Machine.start_of_error hbody, c.weaken hstarts, hrange⟩

/-- Once it is stuck, a join that failed stays so. -/
theorem Parts.stuck_history (hparts : join.Parts left db c quiet first)
    {s t : (join.operator left).State} {events : List Operator.Event}
    (hover : Operator.Over db events) (h : (join.operator left).History s events t)
    (hs : Machine.Guarded.failed s = true ∧ Stuck join db c (Machine.Guarded.body s)) :
    Machine.Guarded.failed t = true ∧ Stuck join db c (Machine.Guarded.body t) := by
  refine h.induction (motive := fun s =>
    Machine.Guarded.failed s = true ∧ Stuck join db c (Machine.Guarded.body s)) ?_ hs
  rintro s event u hevent hanswers ⟨hfailed, hs⟩
  rcases hanswers.cases with ⟨db', answer, rfl, hstart⟩ | ⟨db', n, answer, n', -, -, hnext⟩ |
    ⟨rfl, rfl⟩
  · obtain rfl := hover _ hevent db' rfl
    obtain ⟨body, herror, hbody⟩ := hparts.start_of_stuck hs
    obtain ⟨-, rfl⟩ := Prod.mk.inj (herror.symm.trans hstart)
    exact ⟨hfailed, hbody⟩
  · replace hnext : (join.machine left).guardedNext _ db' s n = ⟨answer, u, n'⟩ := hnext
    unfold Machine.guardedNext at hnext
    rw [if_pos hfailed] at hnext
    obtain ⟨-, rfl, -⟩ := Pull.mk.inj hnext
    exact ⟨hfailed, hs⟩
  · exact ⟨hfailed, hparts.keeps.close hs.left, hs.range⟩

/-- A join that is ready stays so, until a pull fails because a real is not finite. -/
theorem Parts.ready_or_stuck (hparts : join.Parts left db c quiet first)
    {s t : (join.operator left).State} {events : List Operator.Event}
    (hover : Operator.Over db events) (h : (join.operator left).History s events t)
    (hs : Ready join db c quiet (Machine.Guarded.body s)) :
    Ready join db c quiet (Machine.Guarded.body t) ∨
      (∃ event ∈ events, event.failure? = some .nonFiniteReal) ∧
        Machine.Guarded.failed t = true ∧ Stuck join db c (Machine.Guarded.body t) := by
  induction h with
  | nil => exact .inl hs
  | cons first rest ih =>
    obtain ⟨hfirst, hrest⟩ := List.forall_mem_cons.1 hover
    rcases hparts.answers hs hfirst first with hu | ⟨hfailure, hstuck⟩
    · refine (ih hrest hu).imp_right fun ⟨⟨event, hevent, hfailure⟩, hstuck⟩ => ⟨?_, hstuck⟩
      exact ⟨event, List.mem_cons_of_mem _ hevent, hfailure⟩
    · exact .inr ⟨⟨_, List.mem_cons_self, hfailure⟩, hparts.stuck_history hrest rest hstuck⟩

/-! ## Joins of scan trees -/

variable {left : Pipeline} {table column : String} {alias? : Option String} {condition : Condition}
  {config : Config} {events : List Operator.Event}

/-- The parts of a bound join that can be opened at first. -/
theorem exists_parts (hstore : db.store.Reachable) (hfaults : db.Faultless)
    (hleft : left.isScanTree = true)
    (hscan : IndexScan.bind db.store table column alias? = .ok join.right)
    (hjoin : bind left.schema join.right condition config = .ok join)
    {first : (join.operator left.operator).State}
    (hfirst : (join.operator left.operator).start db (join.operator left.operator).initial =
      (.ok (), first)) :
    ∃ c quiet body, first = ⟨body, true, false⟩ ∧ join.Parts left.operator db c quiet body ∧
      Ready join db c quiet (join.machine left.operator).initial := by
  obtain ⟨body, hbody, rfl⟩ := Machine.exists_start hfirst
  replace hbody : join.start left.operator db (join.machine left.operator).initial =
    (.ok (), body) := hbody
  unfold start at hbody
  split at hbody
  · cases (Prod.mk.inj hbody).1
  · rename_i l hl
    split at hbody
    · cases (Prod.mk.inj hbody).1
    · rename_i r hr
      obtain rfl := (Prod.mk.inj hbody).2
      have hscans := Pipeline.restarts_of_isScanTree hleft
      obtain ⟨c, hkeeps, hrestarts⟩ := Pipeline.restartable hscans hfaults l hl
      obtain ⟨quiet, hquiet⟩ := Pipeline.hushes (Pipeline.readsStore_of_restarts hscans)
      have hhushes := hquiet db
      obtain ⟨t, index, ht, hindex, hopened, -⟩ := IndexScan.exists_of_start hr
      have htype := IndexScan.keyType_eq hstore .refl hscan ht hindex
      have hopens : join.right.Opens db .all := by
        unfold IndexScan.start IndexScan.reopen at hr
        split at hr
        · cases (Prod.mk.inj hr).1
        · rename_i scanner hall
          exact ⟨scanner, hall⟩
      refine ⟨c, quiet, _, rfl, ⟨⟨rfl, rfl, hopened⟩, hkeeps, hrestarts, hhushes, ?_⟩, ?_⟩
      · intro u ranges hranges range hrange
        have hasked := asked_of_rangesOf hscan hjoin hranges range hrange
        exact IndexScan.opens_or_refuses ht hindex htype hasked
      · exact ⟨hkeeps.initial ⟨rfl, rfl⟩, fun p hp => absurd hp (Option.not_mem_none p), hopens,
          .inr ⟨rfl, hhushes.initial⟩⟩

/-- **Opening an index join again.** After any calls over a store that does not change, opening the
join starts a run with the same answers as the first one, or a pull has failed because a real is not
finite and opening fails for the same reason, then and ever after. -/
theorem reopens_or_stuck (hstore : db.store.Reachable) (hfaults : db.Faultless)
    (hleft : left.isScanTree = true)
    (hscan : IndexScan.bind db.store table column alias? = .ok join.right)
    (hjoin : bind left.schema join.right condition config = .ok join)
    {first s : (join.operator left.operator).State}
    (hfirst : (join.operator left.operator).start db (join.operator left.operator).initial =
      (.ok (), first))
    (hover : Operator.Over db events)
    (hhistory : (join.operator left.operator).History (join.operator left.operator).initial
      events s) :
    (∃ u, (join.operator left.operator).start db s = (.ok (), u) ∧
      ∀ k n n', (join.operator left.operator).answers db k u n =
        (join.operator left.operator).answers db k first n') ∨
    (∃ event ∈ events, event.failure? = some .nonFiniteReal) ∧
      ∀ later t, Operator.Over db later → (join.operator left.operator).History s later t →
        ∃ v, (join.operator left.operator).start db t = (.error .nonFiniteReal, v) := by
  obtain ⟨c, quiet, body, rfl, hparts, hready⟩ :=
    exists_parts hstore hfaults hleft hscan hjoin hfirst
  rcases hparts.ready_or_stuck hover hhistory hready with hs | ⟨hfailure, hs⟩
  · obtain ⟨again, hstart, -, hsim⟩ := hparts.exists_start hs
    have hmatches := join.matches_bisimilar left.operator hfaults.read
    refine .inl ⟨_, hstart, fun k n n' => ?_⟩
    exact (hmatches.bisimilar hsim "IndexNestedLoopJoin" join.schema true false).answers_eq k n n'
  · refine .inr ⟨hfailure, fun later t hlater hrest => ?_⟩
    obtain ⟨v, hv, -⟩ := hparts.start_of_stuck (hparts.stuck_history hlater hrest hs).2
    exact ⟨_, hv⟩

/-- A table with a real that is not finite, and an empty one with an index. -/
def infinities : Store :=
  ⟨64, [("l", ⟨⟨[.real "a"], 64⟩, [(1, ⟨[0, 0, 128, 127]⟩)], []⟩),
    ("r", ⟨⟨[.real "b"], 64⟩, [], [("b", ⟨0, .real, .empty⟩)]⟩)]⟩

theorem reachable_infinities : infinities.Reachable := by
  have hcreate : Store.Reachable ⟨64, [("l", ⟨⟨[.real "a"], 64⟩, [], []⟩)]⟩ :=
    .createTable (.empty 64) (show Store.createTable _ "l" [.real "a"] = _ from rfl)
  have hinsert : Store.Reachable
      ⟨64, [("l", ⟨⟨[.real "a"], 64⟩, [(1, ⟨[0, 0, 128, 127]⟩)], []⟩)]⟩ :=
    .insert hcreate (show Store.insert _ "l" [.real (.infinite false)] = .ok (1, _) from rfl)
  have hcreate' : Store.Reachable
      ⟨64, [("l", ⟨⟨[.real "a"], 64⟩, [(1, ⟨[0, 0, 128, 127]⟩)], []⟩),
        ("r", ⟨⟨[.real "b"], 64⟩, [], []⟩)]⟩ :=
    .createTable hinsert (show Store.createTable _ "r" [.real "b"] = _ from rfl)
  exact .createIndex hcreate' (show Store.createIndex _ "r" "b" = _ from rfl)

def infinitiesLeft : Pipeline := .tableScan ⟨"l", [.real "l.a"]⟩

/-- The join of the two on equality. -/
def infinitiesJoin : IndexJoin where
  right := ⟨"r", "b", .real "r.b", [.real "r.b"]⟩
  condition := ⟨"l.a", .eq, .column "r.b"⟩
  predicate := {
    left := { schema := [.real "l.a"] }, right := { schema := [.real "r.b"] }
    leftPosition := 0, rightPosition := 0, comparator := .eq, keyType := .real }
  maxTupleSize := defaultMaxTupleSize
  schema := [.real "l.a", .real "r.b"]

/-- The join is opened, and fails when it looks the real up. -/
def infinitiesEvents : List Operator.Event :=
  [.opened { store := infinities } (.ok ()),
    .pulled { store := infinities } 0 (.error .nonFiniteReal)]

theorem over_infinities : Operator.Over { store := infinities } infinitiesEvents := by
  refine List.forall_mem_cons.2 ⟨?_, List.forall_mem_singleton.2 ?_⟩ <;>
    exact fun db' h => (Option.mem_some_iff.1 h).symm

theorem exists_history_infinities :
    ∃ first s v, (infinitiesJoin.operator infinitiesLeft.operator).start { store := infinities }
        (infinitiesJoin.operator infinitiesLeft.operator).initial = (.ok (), first) ∧
      (infinitiesJoin.operator infinitiesLeft.operator).History
        (infinitiesJoin.operator infinitiesLeft.operator).initial infinitiesEvents s ∧
      (infinitiesJoin.operator infinitiesLeft.operator).start { store := infinities } s =
        (.error .nonFiniteReal, v) := by
  refine ⟨_, _, ?_, rfl, .cons (.opened rfl) (.cons (.pulled
    ((Machine.guardedNext_of_again (m := infinitiesJoin.machine infinitiesLeft.operator)
      "IndexNestedLoopJoin" rfl).trans
        (Machine.guardedNext_of_settled_error "IndexNestedLoopJoin" rfl))) .nil), ?error⟩
  case error => rfl

theorem reopens_or_stuck_infinities :
    ∃ s, (infinitiesJoin.operator infinitiesLeft.operator).History
        (infinitiesJoin.operator infinitiesLeft.operator).initial infinitiesEvents s ∧
      ∀ later t, Operator.Over { store := infinities } later →
        (infinitiesJoin.operator infinitiesLeft.operator).History s later t →
        ∃ v, (infinitiesJoin.operator infinitiesLeft.operator).start { store := infinities } t =
          (.error .nonFiniteReal, v) := by
  obtain ⟨first, s, v, hfirst, hhistory, herror⟩ := exists_history_infinities
  refine ⟨s, hhistory, ?_⟩
  have hscan : IndexScan.bind infinities "r" "b" none = .ok infinitiesJoin.right := rfl
  have hjoin : bind infinitiesLeft.schema infinitiesJoin.right infinitiesJoin.condition {} =
    .ok infinitiesJoin := rfl
  rcases reopens_or_stuck reachable_infinities ⟨rfl, rfl⟩ rfl hscan hjoin hfirst over_infinities
    hhistory with ⟨u, hu, -⟩ | ⟨-, hstuck⟩
  · cases (Prod.mk.inj (herror.symm.trans hu)).1
  · exact hstuck

/-- It is not so that a join that was opened once can always be opened again. -/
theorem not_always_reopens : ¬∀ (db : Database) (left : Pipeline) (join : IndexJoin)
    (table column : String) (alias? : Option String) (condition : Condition) (config : Config)
    (events : List Operator.Event) (first s : (join.operator left.operator).State),
    db.store.Reachable → db.Faultless → left.isScanTree = true →
    IndexScan.bind db.store table column alias? = .ok join.right →
    bind left.schema join.right condition config = .ok join →
    (join.operator left.operator).start db (join.operator left.operator).initial = (.ok (), first) →
    Operator.Over db events →
    (join.operator left.operator).History (join.operator left.operator).initial events s →
    ∃ u, (join.operator left.operator).start db s = (.ok (), u) := by
  intro h
  obtain ⟨first, s, v, hfirst, hhistory, herror⟩ := exists_history_infinities
  obtain ⟨u, hu⟩ := h { store := infinities } infinitiesLeft infinitiesJoin "r" "b" none
    infinitiesJoin.condition {} infinitiesEvents first s reachable_infinities ⟨rfl, rfl⟩ rfl rfl rfl
    hfirst over_infinities hhistory
  cases (Prod.mk.inj (herror.symm.trans hu)).1

end IndexJoin

end QueryEngine
