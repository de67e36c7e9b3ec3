import QueryEngine.Proofs.Operator.IndexScan
import QueryEngine.Proofs.Operator.Keeping
import QueryEngine.Proofs.Operator.Leaf
import QueryEngine.Proofs.Store.Growth
import QueryEngine.Proofs.Store.RangeScan
import QueryEngine.Proofs.Tuple.WellFormed

/-!
# Scans of growing stores

While operators run, rows, indexes and tables may be added to the store that they were bound to.
Their scans go on: tables keep their layouts, ids their rows, and an index that was there stays.

* `Setting.growing`: calls over stores that come of one another.
* `TableScan.meets_scan`: opening a table scan gives well-formed rows.
* `IndexScan.source`: what an index scan reads from.
-/

namespace QueryEngine

/-- What is planned to fail fails with errors that may be, and what refuses to go back with those
that it may refuse with. -/
structure Database.FaultsIn (db : Database) (may refuses : Error → Prop) : Prop where
  scan : ∀ call k e, db.scanFaults call k = some e → may e
  rewind : ∀ k e, db.scanFaults .rewind k = some e → refuses e
  read : ∀ k e, db.readFaults k = some e → may e

/-- Nothing is planned to fail. -/
structure Database.Faultless (db : Database) : Prop where
  scan : db.scanFaults = .never
  read : db.readFaults = .never

/-- The store of one database comes of that of another. -/
def Database.Grows (db db' : Database) : Prop := db.store.Grows db'.store

/-- Calls over stores that come of one another, all of them of one. -/
def Setting.growing (base : Store) (may refuses : Error → Prop) : Setting where
  changes db db' := base.Grows db.store ∧ db.store.Grows db'.store ∧ db'.FaultsIn may refuses
  stays h := ⟨h.1.trans h.2.1, .refl, h.2.2⟩
  may := may
  refuses := refuses

variable {base : Store} {may refuses : Error → Prop} {db : Database} {name column : String}
  {t : Table}

theorem Database.Faultless.faultsIn (h : db.Faultless) (may refuses : Error → Prop) :
    db.FaultsIn may refuses where
  scan call k e he := by
    rw [h.scan] at he
    cases he
  rewind k e he := by
    rw [h.scan] at he
    cases he
  read k e he := by
    rw [h.read] at he
    cases he

open Operator in
theorem Setting.follows_growing {events : List Operator.Event}
    (hgrows : Follows Database.Grows db events) (hbase : base.Grows db.store)
    (hfaults : ∀ event ∈ events, ∀ db' ∈ event.database?, db'.FaultsIn may refuses) :
    Follows (growing base may refuses).changes db events := by
  induction events generalizing db with
  | nil => trivial
  | cons event events ih =>
    obtain ⟨hevent, hfaults⟩ := List.forall_mem_cons.1 hfaults
    refine ⟨fun db' hdb' => ⟨hbase, hgrows.1 db' hdb', hevent db' hdb'⟩, ih hgrows.2 ?_ hfaults⟩
    cases hdb : event.database? with
    | none => exact hbase
    | some db' => exact hbase.trans (hgrows.1 db' hdb)

/-- Rows of short texts are well-formed. -/
theorem Table.Short.wellFormed (hshort : t.Short) {row : Row} (h : row ∈ t.rows)
    (relation : String) : row.2.WellFormed (t.schema.qualified relation) := by
  obtain ⟨values, hencode, htexts⟩ := hshort.exists_encode h
  exact (Layout.wellFormed_of_encode hencode htexts).qualified relation

/-- The tables there were are there, with their layouts. -/
theorem Setting.exists_table (hbase : base.Reachable) (hmax : base.maxTupleSize < 2 ^ 32)
    (hdb : (growing base may refuses).changes db db) (ht : base.table name = .ok t) :
    ∃ t', db.store.table name = .ok t' ∧ t'.layout = t.layout ∧ t'.Short := by
  obtain ⟨hgrows, -, -⟩ := hdb
  obtain ⟨t', ht', htable⟩ := hgrows.exists_table ht
  refine ⟨t', ht', htable.layout, ?_⟩
  exact (hgrows.reachable hbase).short (hgrows.maxTupleSize_eq ▸ hmax) _
    (Store.mem_tables_of_table ht')

/-- A table scan is opened on well-formed rows. -/
theorem TableScan.meets_scan {scan : TableScan} {alias? : Option String} (hbase : base.Reachable)
    (hmax : base.maxTupleSize < 2 ^ 32) (hbind : bind base name alias? = .ok scan)
    (hdb : (Setting.growing base may refuses).changes db db) :
    Meets (·.Fit (·.WellFormed scan.schema) (.growing base may refuses)) (fun _ => True)
      (db.scan scan.table) := by
  obtain ⟨t, ht, rfl⟩ := exists_of_bind hbind
  obtain ⟨t', ht', hlayout, hshort⟩ := Setting.exists_table hbase hmax hdb ht
  have hrows : ∀ row ∈ t'.rows, row.2.WellFormed (t.schema.qualified (alias?.getD name)) := by
    intro row hrow
    rw [Table.schema, ← hlayout]
    exact hshort.wellFormed hrow _
  rw [Database.scan, Store.scan, ht', ok_bind, pure_eq_ok]
  exact ⟨hrows, hrows, hdb.2.2.scan, hdb.2.2.rewind⟩

theorem Index.exists_scan_of_interval {index : Index} {range : KeyRange} {i? : Option Interval}
    (h : range.interval? index.keyType = .ok i?) : ∃ scanner, index.scan range = .ok scanner := by
  rw [scan, h, ok_bind]
  cases i? <;> exact ⟨_, rfl⟩

namespace IndexScan

variable {scan : IndexScan} {alias? : Option String} {index : Index}

/-- The database has the table and the index that are scanned. -/
def Indexed (scan : IndexScan) (db : Database) : Prop :=
  ∃ t index, db.store.table scan.table = .ok t ∧ t.indexes.lookup scan.column = some index

/-- The database has a row under an id. -/
def Readable (scan : IndexScan) (db : Database) (id : RowId) : Prop :=
  ∃ t, db.store.table scan.table = .ok t ∧ ∃ row ∈ t.rows, row.1 = id

/-- The keys of the index are of the type of the indexed attribute. -/
theorem keyType_eq {store : Store} (hbase : base.Reachable) (hgrows : base.Grows store)
    (hbind : bind base name column alias? = .ok scan) (ht : store.table scan.table = .ok t)
    (hindex : t.indexes.lookup scan.column = some index) : index.keyType = scan.keyType := by
  obtain ⟨u, position, found, hu, hfound, rfl⟩ := exists_of_bind hbind
  obtain ⟨t', ht', htable⟩ := hgrows.exists_table hu
  obtain rfl : t = t' := Except.ok.inj (ht.symm.trans ht')
  have hsound := (hgrows.reachable hbase).sound_of_table ht
  rw [Table.schema, ← htable.layout] at hfound
  exact (hsound.column_eq hindex hfound).2

/-- What an index scan reads from a growing store. -/
def source (hbase : base.Reachable) (hmax : base.maxTupleSize < 2 ^ 32)
    (hbind : bind base name column alias? = .ok scan) :
    scan.Source (Setting.growing base may refuses) (·.WellFormed scan.schema) where
  indexed := scan.Indexed
  readable := scan.Readable
  opens range := ∃ i?, range.interval? scan.keyType = .ok i?
  indexed_of_changes hdb h := by
    obtain ⟨t, index, ht, hindex⟩ := h
    obtain ⟨t', ht', hgrows⟩ := hdb.2.1.exists_table ht
    obtain ⟨index', hindex', -⟩ := hgrows.exists_index hindex
    exact ⟨t', index', ht', hindex'⟩
  readable_of_changes hdb h := by
    obtain ⟨t, ht, row, hrow, hid⟩ := h
    obtain ⟨t', ht', hgrows⟩ := hdb.2.1.exists_table ht
    exact ⟨t', ht', row, hgrows.rows.subset hrow, hid⟩
  fetched {db id} hdb h n := by
    obtain ⟨t, ht, row, hrow, rfl⟩ := h
    obtain ⟨u, _, found, hu, -, rfl⟩ := exists_of_bind hbind
    obtain ⟨t', ht', hlayout, hshort⟩ := Setting.exists_table hbase hmax hdb hu
    obtain rfl : t = t' := Except.ok.inj (ht.symm.trans ht')
    rw [Database.readTuple]
    split
    · rename_i e he
      exact hdb.2.2.read n e he
    · rw [Store.readTuple, ht, ok_bind, hshort.sound.readTuple_eq _ hrow, Table.schema, ← hlayout]
      exact hshort.wellFormed hrow _
  opened {db range scanner} hdb h := by
    obtain ⟨t, index, ht, hindex, hscan⟩ := Store.exists_of_indexScan h
    have htype := keyType_eq hbase hdb.1 hbind ht hindex
    refine ⟨⟨t, index, ht, hindex⟩, ?_, fun e he => ?_⟩
    · obtain ⟨i?, hi, -⟩ := bind_eq_ok_iff.1 hscan
      exact ⟨i?, htype ▸ hi⟩
    · obtain ⟨u, _, _, hu, -, heq⟩ := exists_of_bind hbind
      obtain ⟨t', ht', -, hshort⟩ := Setting.exists_table hbase hmax hdb hu
      obtain rfl : t = t' := Except.ok.inj (ht.symm.trans (heq ▸ ht'))
      obtain ⟨row, hrow, hid, -⟩ := (hshort.covers_of_lookup hindex).mem_listing.1
        (Index.mem_listing_of_scan hscan e he)
      exact ⟨t, ht, row, hrow, hid⟩
  exists_indexScan {db range} hdb h hopens := by
    obtain ⟨t, index, ht, hindex⟩ := h
    obtain ⟨i?, hi⟩ := hopens
    have htype := keyType_eq hbase hdb.1 hbind ht hindex
    obtain ⟨scanner, hscan⟩ := Index.exists_scan_of_interval (htype.symm ▸ hi)
    exact ⟨scanner, by rw [Store.indexScan, ht, ok_bind, hindex]; exact hscan⟩

end IndexScan

end QueryEngine
