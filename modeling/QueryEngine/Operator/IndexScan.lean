import QueryEngine.Operator.Basic

/-!
# Scans through indexes

An index scan yields the rows of a table whose indexed attribute lies in a range, in ascending
order of that attribute. The entries are those that the index had when the scan was opened, or last
moved to another range; each row is then fetched by its id.

* `IndexScan.bind`: a scan through the index on an attribute, over the full range at first.
* `IndexScan.setRange`: moves the scan to another range, at once if it is open.
* `IndexScan.nextEntry`: the next entry of the index without its row.
-/

namespace QueryEngine

/-- A scan through the index on one attribute of a table. -/
structure IndexScan where
  table : String
  /-- The name of the indexed attribute in its table. -/
  column : String
  /-- The indexed attribute as the scan yields it. -/
  indexed : Attribute
  schema : Schema
  deriving DecidableEq, Repr

namespace IndexScan

/-- A scan through an index on an attribute that the table has. Whether there is such an index is
found out when the scan is opened. -/
def bind (store : Store) (table column : String) (alias? : Option String) :
    Except Error IndexScan := do
  let schema ← store.schema table
  let (_, found) ← schema.find column
  let relation := alias?.getD table
  return ⟨table, column, found.qualified relation, schema.qualified relation⟩

def keyType (scan : IndexScan) : DataType := scan.indexed.dataType

/-- The range asked for, and the entries still to come. -/
structure State where
  /-- The range of the next entries. -/
  range : KeyRange
  scanner : Option IndexScanner
  opened : Bool
  /-- The scanner had no more entries. -/
  done : Bool
  /-- How many rows this scan has fetched. -/
  fetched : Nat

def initial : State := ⟨.all, none, false, false, 0⟩

/-- Looks the range up in the index anew. If that fails there is no scanner left. -/
def reopen (scan : IndexScan) (db : Database) (s : State) : Except Error Unit × State :=
  match db.store.indexScan scan.table scan.column s.range with
  | .error e => (.error e, { s with scanner := none })
  | .ok scanner => (.ok (), { s with scanner := some scanner, done := false })

/-- Moves the scan to another range. -/
def setRange (scan : IndexScan) (db : Database) (range : KeyRange) (s : State) :
    Except Error Unit × State :=
  let s := { s with range }
  if s.opened then scan.reopen db s else (.ok (), s)

def start (scan : IndexScan) (db : Database) (s : State) : Except Error Unit × State :=
  scan.reopen db { s with opened := true }

def nextEntry (s : State) : Except Error (Option (RowId × Value)) × State :=
  match s.scanner with
  | none => (.error (.notOpen "IndexScan"), s)
  | some scanner =>
    if s.done then (.ok none, s)
    else
      match scanner.next with
      | (none, scanner) => (.ok none, { s with scanner := some scanner, done := true })
      | (some entry, scanner) => (.ok (some entry), { s with scanner := some scanner })

def next (scan : IndexScan) (db : Database) (s : State) (reads : Nat) : Pull State :=
  match nextEntry s with
  | (.error e, s) => ⟨.error e, s, reads⟩
  | (.ok none, s) => ⟨.ok none, s, reads⟩
  | (.ok (some (rowId, _)), s) =>
    ⟨(db.readTuple reads scan.table rowId).map some, { s with fetched := s.fetched + 1 }, reads + 1⟩

def close (s : State) : State := { s with opened := false, scanner := none }

/-- How many keys and then how many ids are still to come. -/
def State.rank (s : State) : Nat × Nat := (s.scanner.map (·.rank)).getD (0, 0)

theorem rank_nextEntry_lt {s s' : State} {entry : RowId × Value}
    (h : nextEntry s = (.ok (some entry), s')) :
    Prod.Lex (· < ·) (· < ·) s'.rank s.rank := by
  unfold nextEntry at h
  split at h
  · simp at h
  · rename_i scanner hs
    split at h
    · simp at h
    · split at h <;> simp only [Prod.mk.injEq, reduceCtorEq, false_and, Except.ok.injEq,
        Option.some.injEq] at h
      rename_i entry' scanner' hn
      obtain ⟨-, rfl⟩ := h
      have := scanner.rank_next_lt (show scanner.next.1 = some entry' by rw [hn])
      rw [hn] at this
      simpa [State.rank, hs] using this

theorem rank_next_lt {scan : IndexScan} {db : Database} {s s' : State} {n n' : Nat} {t : Tuple}
    (h : scan.next db s n = ⟨.ok (some t), s', n'⟩) :
    Prod.Lex (· < ·) (· < ·) s'.rank s.rank := by
  unfold next at h
  split at h
  · simp at h
  · simp at h
  · rename_i rowId v s₁ he
    simp only [Pull.mk.injEq] at h
    obtain ⟨-, rfl, -⟩ := h
    have hr := rank_nextEntry_lt he
    exact hr

theorem finite_next (scan : IndexScan) : WellFounded (Pull.Later scan.next) :=
  Subrelation.wf (fun ⟨_, _, _, _, h⟩ => rank_next_lt h)
    (InvImage.wf State.rank (Prod.lex Nat.lt_wfRel Nat.lt_wfRel).wf)

/-- The scan as an operator. -/
def operator (scan : IndexScan) : Operator where
  State := State
  name := "IndexScan"
  schema := scan.schema
  initial := initial
  start := scan.start
  next := scan.next
  close := close
  finite := scan.finite_next

end IndexScan

end QueryEngine
