import QueryEngine.Operator.Materialized
import QueryEngine.Operator.TableScan
import QueryEngine.Proofs.Operator.Stream
import QueryEngine.Proofs.Store.Table

/-!
# What leaves yield

* `Materialized.yields`: tuples at hand are given out in their order.
* `TableScan.Reads`: a scan that can be opened on some rows, as a closed one can on those of its
  table (`TableScan.reads_of_closed`); `TableScan.yields_reading` is what it yields then.
-/

namespace QueryEngine

/-! ## Tuples at hand -/

theorem Materialized.yields (m : Materialized) (db : Database) (tuples : List Tuple) :
    m.operator.Yields db none ⟨tuples, true⟩ tuples := by
  induction tuples with
  | nil => exact fun n => ⟨_, n, rfl⟩
  | cons t tuples ih => exact fun n => ⟨_, n, rfl, ih⟩

namespace TableScan

/-! ## Scans of tables -/

variable {scan : TableScan} {db : Database} {s : State} {rows unread : List Row}

theorem exists_of_bind {store : Store} {name : String} {alias? : Option String}
    (h : bind store name alias? = .ok scan) :
    ∃ t, store.table name = .ok t ∧ scan = ⟨name, t.schema.qualified (alias?.getD name)⟩ := by
  simp only [bind, Store.schema, bind_eq_ok_iff, pure_eq_ok, Except.ok.injEq] at h
  obtain ⟨_, ⟨t, ht, rfl⟩, rfl⟩ := h
  exact ⟨t, ht, rfl⟩

/-- An open scan without faults, which has still to give some of its rows. -/
def reading (rows unread : List Row) (calls rewinds : Nat) (done : Bool) : State :=
  ⟨some ⟨rows, unread, false, calls, rewinds, .never⟩, done⟩

theorem next_reading_cons (rows : List Row) (row : Row) (unread : List Row) (calls rewinds : Nat) :
    next (reading rows (row :: unread) calls rewinds false) =
      (.ok (some row.2), reading rows unread (calls + 1) rewinds false) := rfl

/-- Opening the scan puts it before the first of some rows. -/
def Reads (scan : TableScan) (db : Database) (s : State) (rows : List Row) : Prop :=
  ∃ calls rewinds, scan.start db s = (.ok (), reading rows rows calls rewinds false)

theorem reads_of_closed {table : Table} (hs : s.scanner = none)
    (htable : db.store.table scan.table = .ok table) (hfaults : db.scanFaults = .never) :
    scan.Reads db s table.rows := by
  have hscan : db.scan scan.table = .ok (.ofRows table.rows .never) := by
    rw [Database.scan, Store.scan, htable, hfaults]
    rfl
  refine ⟨0, 0, ?_⟩
  unfold start
  simp only [hs, hscan]
  rfl

theorem yields_reading (scan : TableScan) (db : Database) (rows unread : List Row)
    (calls rewinds : Nat) :
    scan.operator.Yields db none (reading rows unread calls rewinds false) (unread.map (·.2)) := by
  induction unread generalizing calls with
  | nil => exact fun n => ⟨_, n, rfl⟩
  | cons row unread ih => exact fun n => ⟨_, n, rfl, ih (calls + 1)⟩

/-- A scan that was never opened yields the rows of its table. -/
theorem exists_yields {table : Table} {name : String} {alias? : Option String}
    (hbind : bind db.store name alias? = .ok scan) (htable : db.store.table name = .ok table)
    (hfaults : db.scanFaults = .never) :
    ∃ s', scan.operator.start db scan.operator.initial = (.ok (), s') ∧
      scan.operator.Yields db none s' table.tuples := by
  obtain ⟨_, -, hscan⟩ := exists_of_bind hbind
  have hname : db.store.table scan.table = .ok table := by rw [hscan, htable]
  have hreads : scan.Reads db initial table.rows := reads_of_closed rfl hname hfaults
  obtain ⟨calls, rewinds, hstart⟩ := hreads
  exact ⟨_, hstart, yields_reading _ db table.rows table.rows calls rewinds⟩

end TableScan

end QueryEngine
