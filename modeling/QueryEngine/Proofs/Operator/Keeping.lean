import QueryEngine.Operator.Aggregate
import QueryEngine.Operator.Filter
import QueryEngine.Operator.Materialized
import QueryEngine.Operator.Project
import QueryEngine.Proofs.Operator.Contract
import QueryEngine.Proofs.Store.Index
import QueryEngine.Operator.IndexScan
import QueryEngine.Operator.TableScan

/-!
# Operators keep contracts

Each operator keeps the contracts of its children, together with a condition on the tuples that it
holds. What it computes on tuples enters by hypotheses alone: of good tuples it makes good ones, or
fails with an error that may be.
-/

namespace QueryEngine

variable {w : Setting} {good : Tuple → Prop} {running : Bool} {db : Database} {n : Nat}

/-! ## Scans -/

/-- A scanner of good rows. -/
structure RowScanner.Fit (good : Tuple → Prop) (w : Setting) (s : RowScanner) : Prop where
  rows : ∀ row ∈ s.rows, good row.2
  unread : ∀ row ∈ s.unread, good row.2
  faults : ∀ call k e, s.faults call k = some e → w.may e
  rewinds : ∀ k e, s.faults .rewind k = some e → w.refuses e

namespace RowScanner

variable {s : RowScanner}

theorem Fit.rewind (h : s.Fit good w) :
    s.rewind.2.Fit good w ∧ Meets (fun _ => True) (fun e => w.may e ∧ w.refuses e) s.rewind.1 := by
  unfold RowScanner.rewind
  simp only
  split
  · rename_i e he
    exact ⟨⟨h.rows, h.unread, h.faults, h.rewinds⟩, h.faults _ _ _ he, h.rewinds _ _ he⟩
  · exact ⟨⟨h.rows, h.rows, h.faults, h.rewinds⟩, trivial⟩

theorem Fit.next (h : s.Fit good w) :
    s.next.2.Fit good w ∧ Meets (∀ row ∈ ·, good row.2) w.may s.next.1 := by
  unfold RowScanner.next
  simp only
  split
  · rename_i e he
    exact ⟨⟨h.rows, h.unread, h.faults, h.rewinds⟩, h.faults _ _ _ he⟩
  · split
    · exact ⟨⟨h.rows, h.unread, h.faults, h.rewinds⟩, by simp⟩
    · split
      · exact ⟨⟨h.rows, h.unread, h.faults, h.rewinds⟩, by simp⟩
      · rename_i row rest hunread
        have hall : ∀ row' ∈ row :: rest, good row'.2 := hunread ▸ h.unread
        have hrest : ∀ row' ∈ rest, good row'.2 :=
          fun row' hrow => hall row' (List.mem_cons_of_mem _ hrow)
        exact ⟨⟨h.rows, hrest, h.faults, h.rewinds⟩,
          fun row' hrow => Option.mem_some_iff.1 hrow ▸ hall row List.mem_cons_self⟩

end RowScanner

namespace TableScan

variable {scan : TableScan} {s : State}

/-- A scan in a run has a scanner. -/
def contract (w : Setting) (good : Tuple → Prop) : Contract w State where
  holds running _ s :=
    (running = true → s.scanner.isSome) ∧ ∀ scanner ∈ s.scanner, scanner.Fit good w
  weaken h := ⟨fun h => (by cases h), h.2⟩
  persists _ h := h

theorem starts_rewind (hs : (contract w good).holds running db s) :
    (contract w good).Starts running db (rewind s) := by
  obtain ⟨hrunning, hfit⟩ := hs
  unfold rewind
  split
  · rename_i hscanner
    rw [hscanner] at hrunning
    exact ⟨fun hr => by simp [hr] at hrunning, fun h => (by cases h), hfit⟩
  · rename_i scanner hscanner
    obtain ⟨hback, hanswer⟩ := (hfit scanner hscanner).rewind
    split
    · rename_i hrewind
      rw [hrewind] at hback hanswer
      exact ⟨fun _ => hanswer, fun h => (by cases h), by simpa using hback⟩
    · rename_i hrewind
      rw [hrewind] at hback
      exact ⟨fun _ => rfl, by simpa using hback⟩

theorem starts (scan : TableScan) (hs : (contract w good).holds running db s)
    (hdb : Meets (·.Fit good w) (fun _ => True) (db.scan scan.table)) :
    (contract w good).Starts running db (scan.start db s) := by
  unfold start
  split
  · exact starts_rewind hs
  · rename_i hscanner
    obtain ⟨hrunning, hfit⟩ := hs
    rw [hscanner] at hrunning hfit
    split
    · exact ⟨fun hr => by simp [hr] at hrunning, fun h => (by cases h),
        by rw [hscanner]; exact hfit⟩
    · rename_i scanner hscan
      rw [hscan] at hdb
      exact ⟨fun _ => rfl, by simpa using hdb⟩

theorem pulls (hs : (contract w good).holds running db s) (n : Nat) :
    (contract w good).Pulls good running db ⟨(next s).1, (next s).2, n⟩ := by
  obtain ⟨hrunning, hfit⟩ := hs
  unfold next
  split
  · rename_i hscanner
    rw [hscanner] at hrunning
    exact ⟨fun hr => by simp [hr] at hrunning, fun h => (by cases h), hfit⟩
  · rename_i scanner hscanner
    obtain ⟨hnext, hanswer⟩ := (hfit scanner hscanner).next
    split
    · exact ⟨hrunning, hfit⟩
    · split
      · rename_i hn
        rw [hn] at hnext hanswer
        exact ⟨fun _ => hanswer, fun h => (by cases h), by simpa using hnext⟩
      · rename_i hn
        rw [hn] at hnext
        exact ⟨fun _ => rfl, by simpa using hnext⟩
      · rename_i row _ hn
        rw [hn] at hnext hanswer
        exact ⟨hanswer row rfl, fun _ => rfl, by simpa using hnext⟩

theorem holds_close (db : Database) (s : State) :
    (contract w good).holds false db (close s) :=
  ⟨fun h => (by cases h), by simp [close]⟩

theorem keeps (hopen : ∀ {db}, w.changes db db →
      Meets (·.Fit good w) (fun _ => True) (db.scan scan.table)) :
    scan.operator.Keeps (contract w good) good where
  initial _ := ⟨fun h => (by cases h), by simp [operator, initial]⟩
  start hdb hs := scan.starts hs (hopen hdb)
  next _ hs n := pulls hs n
  close {_ db s} _ := holds_close db s

end TableScan

namespace IndexScan

variable {scan : IndexScan} {s : State}

/-- What an index scan reads from: the databases that have the index, the rows that can be fetched
from one of them, and the ranges that can be looked up there. -/
structure Source (scan : IndexScan) (w : Setting) (good : Tuple → Prop) where
  indexed : Database → Prop
  readable : Database → RowId → Prop
  opens : KeyRange → Prop
  indexed_of_changes : ∀ {db db'}, w.changes db db' → indexed db → indexed db'
  readable_of_changes : ∀ {db db' id}, w.changes db db' → readable db id → readable db' id
  fetched : ∀ {db id}, w.changes db db → readable db id → ∀ n,
    Meets good w.may (db.readTuple n scan.table id)
  opened : ∀ {db range scanner}, w.changes db db →
    db.store.indexScan scan.table scan.column range = .ok scanner →
    indexed db ∧ opens range ∧ ∀ entry ∈ scanner.unread, readable db entry.2
  exists_indexScan : ∀ {db range}, w.changes db db → indexed db → opens range →
    ∃ scanner, db.store.indexScan scan.table scan.column range = .ok scanner

namespace Source

variable (source : scan.Source w good)

/-- A scan in a run is open, and can be opened again on the range that it is on. -/
def contract : Contract w State where
  holds running db s :=
    (running = true →
      s.opened = true ∧ s.scanner.isSome ∧ source.indexed db ∧ source.opens s.range) ∧
    ∀ scanner ∈ s.scanner, ∀ entry ∈ scanner.unread, source.readable db entry.2
  weaken h := ⟨fun h => (by cases h), h.2⟩
  persists hdb h :=
    ⟨fun hr => ⟨(h.1 hr).1, (h.1 hr).2.1, source.indexed_of_changes hdb (h.1 hr).2.2.1,
      (h.1 hr).2.2.2⟩,
      fun scanner hs entry he => source.readable_of_changes hdb (h.2 scanner hs entry he)⟩

/-- A scan that has looked its range up is in a run. -/
theorem holds_of_reopen (hdb : w.changes db db) {scanner : IndexScanner}
    (hscan : db.store.indexScan scan.table scan.column s.range = .ok scanner)
    (hopened : s.opened = true) :
    source.contract.holds true db { s with scanner := some scanner, done := false } := by
  obtain ⟨hindexed, hopens, hunread⟩ := source.opened hdb hscan
  exact ⟨fun _ => ⟨hopened, rfl, hindexed, hopens⟩, by simpa using hunread⟩

theorem holds_closed (s : State) : source.contract.holds false db { s with scanner := none } :=
  ⟨fun h => (by cases h), by simp⟩

theorem starts (hdb : w.changes db db) (hs : source.contract.holds running db s) :
    source.contract.Starts running db (scan.start db s) := by
  unfold start reopen
  split
  · rename_i e hscan
    refine ⟨fun hr => ?_, source.holds_closed _⟩
    obtain ⟨-, -, hindexed, hopens⟩ := hs.1 hr
    obtain ⟨scanner, hok⟩ := source.exists_indexScan hdb hindexed hopens
    rw [hok] at hscan
    cases hscan
  · rename_i hscan
    exact source.holds_of_reopen (s := { s with opened := true }) hdb hscan rfl

/-- A scan in a run that is moved stays in it, unless the new range is refused. -/
theorem folds_setRange (hdb : w.changes db db) (hs : source.contract.holds running db s)
    {range : KeyRange} (hrange : source.indexed db →
      Meets (fun _ => True) w.may (db.store.indexScan scan.table scan.column range)) (n : Nat) :
    source.contract.Folds (fun _ => True) running db
      ((scan.setRange db range s).1, (scan.setRange db range s).2, n) := by
  unfold setRange reopen
  simp only
  split
  · rename_i hopened
    split
    · rename_i e hscan
      refine ⟨fun hr => ?_, source.holds_closed { s with range }⟩
      have hmay := hrange (hs.1 hr).2.2.1
      rwa [hscan] at hmay
    · rename_i hscan
      refine ⟨trivial, ?_⟩
      have hholds := source.holds_of_reopen (s := { s with range }) hdb hscan hopened
      cases running with
      | true => exact hholds
      | false => exact source.contract.weaken hholds
  · rename_i hopened
    refine ⟨trivial, fun hr => ?_, hs.2⟩
    exact absurd (hs.1 hr).1 hopened

/-- Going on to the next entry stays in the run, and its row can be fetched. -/
theorem nextEntry_cases (hs : source.contract.holds running db s) :
    (nextEntry s = (.error (.notOpen "IndexScan"), s) ∧ running = false) ∨
      (∃ s', nextEntry s = (.ok none, s') ∧ source.contract.holds running db s') ∨
      ∃ entry s', nextEntry s = (.ok (some entry), s') ∧ source.readable db entry.1 ∧
        source.contract.holds running db s' := by
  obtain ⟨hrunning, hreadable⟩ := hs
  unfold nextEntry
  split
  · rename_i hscanner
    refine .inl ⟨rfl, ?_⟩
    cases running with
    | false => rfl
    | true => simp [hscanner] at hrunning
  · rename_i scanner hscanner
    split
    · exact .inr (.inl ⟨_, rfl, hrunning, hreadable⟩)
    · obtain ⟨hanswer, hrest⟩ := scanner.next_eq
      have hall : ∀ entry ∈ scanner.next.2.unread, source.readable db entry.2 := by
        intro entry he
        rw [hrest] at he
        exact hreadable scanner hscanner entry (List.mem_of_mem_tail he)
      have hholds : ∀ done, source.contract.holds running db
          { s with scanner := some scanner.next.2, done } := fun done =>
        ⟨fun hr => ⟨(hrunning hr).1, rfl, (hrunning hr).2.2⟩, by simpa using hall⟩
      split
      · rename_i hn
        rw [hn] at hholds
        exact .inr (.inl ⟨_, rfl, hholds true⟩)
      · rename_i entry _ hn
        rw [hn] at hholds hanswer
        refine .inr (.inr ⟨entry, _, rfl, ?_, hholds s.done⟩)
        obtain ⟨e, he, rfl⟩ := Option.map_eq_some_iff.1 hanswer.symm
        exact hreadable scanner hscanner e (List.mem_of_mem_head? he)

theorem pulls (hdb : w.changes db db) (hs : source.contract.holds running db s) (n : Nat) :
    source.contract.Pulls good running db (scan.next db s n) := by
  unfold next
  rcases source.nextEntry_cases hs with ⟨he, hr⟩ | ⟨s', he, hs'⟩ | ⟨entry, s', he, hread, hs'⟩
  · rw [he]
    exact ⟨fun h => by simp [hr] at h, source.contract.relax hs⟩
  · rw [he]
    exact hs'
  · rw [he]
    have hfetched := source.fetched hdb hread n
    cases hr : db.readTuple n scan.table entry.1 with
    | error e =>
      rw [hr] at hfetched
      simp only [hr, Except.map]
      exact ⟨fun _ => hfetched, source.contract.relax hs'⟩
    | ok t =>
      rw [hr] at hfetched
      simp only [hr, Except.map]
      exact ⟨hfetched, hs'⟩

theorem holds_close (s : State) : source.contract.holds false db (close s) :=
  ⟨fun h => (by cases h), by simp [close]⟩

theorem keeps : scan.operator.Keeps source.contract good where
  initial _ := ⟨fun h => (by cases h), by simp [operator, initial]⟩
  start hdb hs := source.starts hdb hs
  next hdb hs n := source.pulls hdb hs n
  close {_ _ s} _ := source.holds_close s

end Source

end IndexScan

/-! ## Tuples at hand -/

/-- A leaf in a run was opened. -/
def Empty.contract (w : Setting) : Contract w Bool where
  holds running _ s := running = true → s = true
  weaken _ h := by cases h
  persists _ h := h

theorem Empty.keeps (leaf : Empty) : leaf.operator.Keeps (Empty.contract w) good where
  initial _ h := by cases h
  start _ _ := fun _ => rfl
  next {running db s} _ hs n := by
    cases s with
    | true => exact hs
    | false => exact ⟨fun hr => (by cases hs hr), fun h => (by cases h)⟩
  close _ h := by cases h

/-- A leaf in a run was opened, and what it has still to give is good. -/
def Materialized.contract (w : Setting) (good : Tuple → Prop) : Contract w Materialized.State where
  holds running _ s := (running = true → s.opened = true) ∧ ∀ t ∈ s.unread, good t
  weaken h := ⟨fun h => (by cases h), h.2⟩
  persists _ h := h

theorem Materialized.keeps {leaf : Materialized} (h : ∀ t ∈ leaf.tuples, good t) :
    leaf.operator.Keeps (Materialized.contract w good) good where
  initial _ := ⟨fun h => (by cases h), h⟩
  start _ hs := ⟨fun _ => rfl, hs.2⟩
  next {running db s} _ hs n := by
    obtain ⟨unread, opened⟩ := s
    cases opened with
    | false => exact ⟨fun hr => (by cases hs.1 hr), fun h => (by cases h), hs.2⟩
    | true =>
      cases unread with
      | nil => exact hs
      | cons t rest =>
        exact ⟨hs.2 t List.mem_cons_self, fun _ => rfl,
          fun t ht => hs.2 t (List.mem_cons_of_mem _ ht)⟩
  close hs := ⟨fun h => (by cases h), hs.2⟩

/-! ## Operators of one child -/

namespace Filter

variable {f : Filter} {child : Operator} {c : Contract w child.State}

theorem keeps (hchild : child.Keeps c good)
    (heval : ∀ t, good t → Meets (fun _ => True) w.may (f.predicate.evaluate t)) :
    (f.machine child).Keeps (c.on State.child) good where
  initial hdb := hchild.initial hdb
  start {running db s} hdb hs := by
    show (c.on State.child).Starts running db (start child db s)
    have hstart := hchild.start hdb hs
    unfold start
    split
    · rename_i hc
      rw [hc] at hstart
      exact hstart
    · rename_i hc
      rw [hc] at hstart
      exact hstart
  step {running db s} hdb hs n := by
    show (c.on State.child).Steps good running db (f.step child db s n)
    have hnext := hchild.next hdb hs n
    unfold step
    split
    · exact hs
    · split
      · rename_i hc
        rw [hc] at hnext
        exact hnext
      · rename_i hc
        rw [hc] at hnext
        exact hnext
      · rename_i t _ _ hc
        rw [hc] at hnext
        have ht := heval t hnext.1
        split
        · rename_i he
          rw [he] at ht
          exact ⟨fun _ => ht, c.relax hnext.2⟩
        · exact hnext
        · exact hnext.2
  close hs := hchild.close hs

end Filter

theorem Project.keeps {p : Project} {child : Operator} {c : Contract w child.State}
    {good' : Tuple → Prop} (hchild : child.Keeps c good)
    (hproject : ∀ t, good t → Meets good' w.may (p.layout.project t p.positions)) :
    (p.machine child).Keeps c good' where
  initial hdb := hchild.initial hdb
  start hdb hs := hchild.start hdb hs
  step {running db s} hdb hs n := by
    show c.Steps good' running db (p.step child db s n)
    have hnext := hchild.next hdb hs n
    unfold step
    split
    · rename_i hc
      rw [hc] at hnext
      exact hnext
    · rename_i hc
      rw [hc] at hnext
      exact hnext
    · rename_i t _ _ hc
      rw [hc] at hnext
      have ht := hproject t hnext.1
      split
      · rename_i he
        rw [he] at ht
        exact ⟨fun _ => ht, c.relax hnext.2⟩
      · rename_i he
        rw [he] at ht
        exact ⟨ht, hnext.2⟩
  close hs := hchild.close hs

namespace Aggregate

variable {a : Aggregate} {child : Operator} {c : Contract w child.State} {good' : Tuple → Prop}

/-- What was computed is good. -/
def contract (c : Contract w child.State) (good' : Tuple → Prop) :
    Contract w (State child.State) :=
  (c.on State.child).and (.always w fun s => ∀ t ∈ s.output.getD [], good' t)

theorem keeps (hchild : child.Keeps c good)
    (hcompute : ∀ {running db s n}, w.changes db db → c.holds running db s →
      c.Folds (fun tuples => ∀ t ∈ tuples, good' t) running db (a.compute child db s n)) :
    (a.machine child).Keeps (contract c good') good' where
  initial hdb := ⟨hchild.initial hdb, fun _ h => nomatch h⟩
  start {running db s} hdb hs := by
    show (contract c good').Starts running db (start child db s)
    have hstart := hchild.start hdb hs.1
    unfold start
    split
    · rename_i hc
      rw [hc] at hstart
      exact ⟨hstart.1, hstart.2, hs.2⟩
    · rename_i hc
      rw [hc] at hstart
      exact ⟨hstart, fun _ h => nomatch h⟩
  step {running db s} hdb hs n := by
    show (contract c good').Steps good' running db (a.step child db s n)
    unfold step
    split
    · have hfolds := hcompute (n := n) hdb hs.1
      split
      · rename_i hc
        rw [hc] at hfolds
        exact ⟨hfolds.1, hfolds.2, hs.2⟩
      · rename_i hc
        rw [hc] at hfolds
        exact ⟨hfolds.2, hfolds.1⟩
    · exact hs
    · rename_i t rest houtput
      have hall : ∀ u ∈ s.output.getD [], good' u := hs.2
      rw [houtput, Option.getD_some] at hall
      exact ⟨hall t List.mem_cons_self, hs.1, fun u hu => hall u (List.mem_cons_of_mem _ hu)⟩
  close hs := ⟨hchild.close hs.1, fun _ h => nomatch h⟩

end Aggregate

end QueryEngine
