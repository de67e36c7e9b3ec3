import QueryEngine.Operator.IndexScan
import QueryEngine.Proofs.Store.Placement

/-!
# What an index scan yields

* `IndexScan.State.Reading`: an open scan that has still to give some rows.
* `IndexScan.next_of_reading_cons`, `IndexScan.next_of_reading_nil`: pulling from it gives these
  rows, as long as fetching them does.
* `IndexScan.setRange_of_opened`: an open scan can be moved to the rows of another range.
* `IndexScan.Serves`: what a scan needs of the index and the store that it reads from, which those
  of an indexed table have (`IndexScan.serves`).
-/

namespace QueryEngine.IndexScan

variable {scan : IndexScan} {db : Database} {s : State} {rows : List Row} {row : Row} {n : Nat}

theorem exists_of_bind {store : Store} {table column : String} {alias? : Option String}
    (h : bind store table column alias? = .ok scan) :
    ∃ t position found, store.table table = .ok t ∧ t.schema.find column = .ok (position, found) ∧
      scan = ⟨table, column, found.qualified (alias?.getD table),
        t.schema.qualified (alias?.getD table)⟩ := by
  simp only [bind, Store.schema, bind_eq_ok_iff, Prod.exists, pure_eq_ok, Except.ok.injEq] at h
  obtain ⟨_, ⟨t, ht, rfl⟩, position, found, hfound, rfl⟩ := h
  exact ⟨t, position, found, ht, hfound, rfl⟩

/-- A scan that can be opened is through an index that the table has. -/
theorem exists_of_start {r : State} (h : scan.start db s = (.ok (), r)) :
    ∃ t index, db.store.table scan.table = .ok t ∧ t.indexes.lookup scan.column = some index ∧
      r.opened = true ∧ r.fetched = s.fetched := by
  unfold start reopen at h
  split at h
  · simp at h
  · rename_i scanner hscan
    obtain ⟨t, ht, hindex⟩ := bind_eq_ok_iff.1 hscan
    cases hl : t.indexes.lookup scan.column with
    | none => simp [hl] at hindex
    | some index =>
      obtain ⟨-, rfl⟩ := Prod.mk.inj h
      exact ⟨t, index, ht, hl, rfl, rfl⟩

/-- A scan of the full range can be opened if there is an index. -/
theorem exists_start {t : Table} {index : Index} (htable : db.store.table scan.table = .ok t)
    (hindex : t.indexes.lookup scan.column = some index) (hrange : s.range = .all) :
    ∃ r, scan.start db s = (.ok (), r) := by
  have hscan : ∃ scanner, db.store.indexScan scan.table scan.column .all = .ok scanner := by
    simp only [Store.indexScan, htable, ok_bind, hindex]
    exact ⟨_, rfl⟩
  obtain ⟨scanner, hscan⟩ := hscan
  refine ⟨{ s with opened := true, scanner := some scanner, done := false }, ?_⟩
  simp only [start, reopen, hrange, hscan]

/-- An open scan that has still to give some rows. -/
def State.Reading (s : State) (rows : List Row) : Prop :=
  s.opened = true ∧ s.done = false ∧
    ∃ scanner, s.scanner = some scanner ∧ scanner.unread.map (·.2) = rows.map (·.1)

theorem nextEntry_of_reading_cons (h : s.Reading (row :: rows)) :
    ∃ s' v, nextEntry s = (.ok (some (row.1, v)), s') ∧ s'.Reading rows ∧
      s'.fetched = s.fetched := by
  obtain ⟨hopened, hdone, scanner, hscanner, hunread⟩ := h
  obtain ⟨hanswer, hrest⟩ := scanner.next_eq
  cases hu : scanner.unread with
  | nil => simp [hu] at hunread
  | cons e unread =>
    simp only [hu, List.map_cons, List.cons.injEq] at hunread
    rw [hu, List.head?_cons, Option.map_some, hunread.1] at hanswer
    rw [hu, List.tail_cons] at hrest
    have hnext : scanner.next = (some (row.1, e.1.toValue), scanner.next.2) := Prod.ext hanswer rfl
    refine ⟨{ s with scanner := some scanner.next.2 }, e.1.toValue, ?_,
      ⟨hopened, hdone, _, rfl, by rw [hrest, hunread.2]⟩, rfl⟩
    unfold nextEntry
    simp only [hscanner, hdone, Bool.false_eq_true, if_false]
    rw [hnext]

theorem nextEntry_of_reading_nil (h : s.Reading []) :
    ∃ s', nextEntry s = (.ok none, s') ∧ s'.opened = true := by
  obtain ⟨hopened, hdone, scanner, hscanner, hunread⟩ := h
  obtain ⟨hanswer, -⟩ := scanner.next_eq
  rw [List.map_nil, List.map_eq_nil_iff] at hunread
  rw [hunread, List.head?_nil, Option.map_none] at hanswer
  have hnext : scanner.next = (none, scanner.next.2) := Prod.ext hanswer rfl
  refine ⟨{ s with scanner := some scanner.next.2, done := true }, ?_, hopened⟩
  unfold nextEntry
  simp only [hscanner, hdone, Bool.false_eq_true, if_false]
  rw [hnext]

/-- The next row is fetched by its id. -/
theorem next_of_reading_cons (h : s.Reading (row :: rows))
    (hread : db.readTuple n scan.table row.1 = .ok row.2) :
    ∃ s', scan.next db s n = ⟨.ok (some row.2), s', n + 1⟩ ∧ s'.Reading rows := by
  obtain ⟨s', v, hentry, hrest, -⟩ := nextEntry_of_reading_cons h
  refine ⟨{ s' with fetched := s'.fetched + 1 }, ?_, hrest⟩
  rw [next, hentry]
  simp only [hread, Except.map]

theorem next_of_reading_nil (scan : IndexScan) (db : Database) (n : Nat) (h : s.Reading []) :
    ∃ s', scan.next db s n = ⟨.ok none, s', n⟩ ∧ s'.opened = true := by
  obtain ⟨s', hentry, hopened⟩ := nextEntry_of_reading_nil h
  exact ⟨s', by rw [next, hentry], hopened⟩

/-- An open scan can be moved to another range. -/
theorem setRange_of_opened {range : KeyRange} {scanner : IndexScanner} (h : s.opened = true)
    (hscan : db.store.indexScan scan.table scan.column range = .ok scanner)
    (hrows : scanner.unread.map (·.2) = rows.map (·.1)) :
    ∃ s', scan.setRange db range s = (.ok (), s') ∧ s'.Reading rows := by
  refine ⟨{ s with range, scanner := some scanner, done := false }, ?_, h, rfl, scanner, rfl, hrows⟩
  simp only [setRange, reopen, h, hscan, if_true]

/-! ## Indexed tables -/

variable {index : Index} {keyed : List (Key × Row)} {t : Table}

/-- The rows in the order of the index, with their keys, can be listed and fetched. -/
structure Serves (scan : IndexScan) (db : Database) (index : Index) (keyed : List (Key × Row)) :
    Prop where
  indexScan_eq : ∀ range, db.store.indexScan scan.table scan.column range = index.scan range
  readTuple_eq : ∀ e ∈ keyed, ∀ n, db.readTuple n scan.table e.2.1 = .ok e.2.2
  listing_eq : keyed.map (fun e => (e.1, e.2.1)) = index.entries.listing
  sorted : keyed.Pairwise fun e f => ¬f.1 < e.1

/-- The rows of an indexed table, in the order of the index. -/
theorem serves (hstore : db.store.Reachable) (hfaults : db.readFaults = .never)
    (htable : db.store.table scan.table = .ok t)
    (hindex : t.indexes.lookup scan.column = some index)
    (hlists : index.Lists t keyed) : scan.Serves db index keyed where
  indexScan_eq range := by simp only [Store.indexScan, htable, ok_bind, hindex]
  readTuple_eq e he n := by
    have hrow : e.2 ∈ t.rows := hlists.perm.mem_iff.1 (List.mem_map_of_mem he)
    simp only [Database.readTuple, hfaults, FaultPlan.never, Store.readTuple, htable, ok_bind]
    exact (hstore.sound_of_table htable).readTuple_eq scan.table hrow
  listing_eq := hlists.listing_eq
  sorted := by
    refine hlists.sorted.imp fun {e f} h => ?_
    rcases h with h | ⟨h, -⟩
    · exact Key.lt_asymm h
    · rw [h]
      exact Key.lt_irrefl _

/-- An open scan can be moved to an interval of keys. -/
theorem Serves.exists_setRange (h : scan.Serves db index keyed) (hs : s.opened = true)
    {range : KeyRange} {i : Interval} (hrange : range.interval? index.keyType = .ok (some i)) :
    ∃ s', scan.setRange db range s = (.ok (), s') ∧
      s'.Reading ((keyed.filter (i.contains ·.1)).map (·.2)) := by
  obtain ⟨scanner, hscan, hunread⟩ := Index.exists_scan hrange
  rw [← h.indexScan_eq] at hscan
  refine setRange_of_opened hs hscan ?_
  rw [hunread, ← h.listing_eq, List.filter_map, List.map_map, List.map_map]
  rfl

/-- The rows found there can be fetched. -/
theorem Serves.readTuple_of_mem (h : scan.Serves db index keyed) {p : Key × Row → Bool} :
    ∀ row ∈ (keyed.filter p).map (·.2), ∀ n, db.readTuple n scan.table row.1 = .ok row.2 := by
  intro row hrow
  obtain ⟨e, he, rfl⟩ := List.mem_map.1 hrow
  exact h.readTuple_eq e (List.mem_of_mem_filter he)

/-! ## Fetches -/

theorem fetched_nextEntry (s : State) : (nextEntry s).2.fetched = s.fetched := by
  unfold nextEntry
  split
  · rfl
  · split
    · rfl
    · split <;> rfl

/-- A pull fetches a row if it answers with one, and otherwise none. -/
theorem fetched_of_next {answer : Option Tuple} {s' : State} {n' : Nat}
    (h : scan.next db s n = ⟨.ok answer, s', n'⟩) :
    s'.fetched = s.fetched + answer.toList.length := by
  have hentry := fetched_nextEntry s
  unfold next at h
  split at h
  · simp at h
  · rename_i he
    rw [he] at hentry
    simp only [Pull.mk.injEq, Except.ok.injEq] at h
    obtain ⟨rfl, rfl, -⟩ := h
    exact hentry
  · rename_i rowId v s₁ he
    rw [he] at hentry
    simp only [Pull.mk.injEq] at h
    obtain ⟨hread, rfl, -⟩ := h
    cases hr : db.readTuple n scan.table rowId with
    | error e => simp [hr, Except.map] at hread
    | ok t =>
      rw [hr] at hread
      obtain rfl := Except.ok.inj hread
      rw [← hentry]
      rfl

theorem fetched_setRange (scan : IndexScan) (db : Database) (range : KeyRange) (s : State) :
    (scan.setRange db range s).2.fetched = s.fetched := by
  unfold setRange reopen
  simp only
  split
  · split <;> rfl
  · rfl

end QueryEngine.IndexScan
