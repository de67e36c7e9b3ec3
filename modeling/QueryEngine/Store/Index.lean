import QueryEngine.Key.Map
import QueryEngine.KeyRange
import QueryEngine.Store.RowScanner

/-!
# Indexes

An index maps each key of one attribute to the ids of the rows that have it, in ascending order of
the keys. An index scanner walks the entries that an interval held when the scan was opened: it
keeps the key it is at with the ids still to be given, and looks up the next key once they are
used up.

* `Index.add`, `Index.scan`: one more row, and a scan over a range of values.
* `IndexScanner.next`: the next row id with its value.
* `IndexScanner.rank_next_lt`: every id given brings the scan nearer to its end.
-/

namespace QueryEngine

/-- The row ids of a table under the keys of one attribute. -/
structure Index where
  /-- The position of the indexed attribute. -/
  column : Nat
  keyType : DataType
  entries : KeyMap (List RowId)

namespace Index

/-- The index with one more row under a key, after the rows already there. -/
def add (index : Index) (k : Key) (rowId : RowId) : Index :=
  { index with entries := index.entries.update k fun ids => ids.getD [] ++ [rowId] }

end Index

/-- A walk through the entries of an index. -/
structure IndexScanner where
  entries : KeyMap (List RowId)
  /-- The keys not yet looked up. -/
  interval : Interval
  /-- The key looked up last, with the ids still to be given. -/
  cursor : Option (Key × List RowId)
  done : Bool

namespace IndexScanner

/-- The keys that come after the cursor. -/
def ahead (s : IndexScanner) : Interval :=
  match s.cursor with
  | none => s.interval
  | some (k, _) => s.interval.after k

/-- How many keys and then how many ids are still to come. -/
def rank (s : IndexScanner) : Nat × Nat :=
  (s.entries.countIn s.ahead, (s.cursor.map (·.2.length)).getD 0)

/-- The next row id with its value, or none after the last. -/
def next (s : IndexScanner) : Option (RowId × Value) × IndexScanner :=
  if s.done then (none, s)
  else
    match s.cursor with
    | some (k, id :: ids) => (some (id, k.toValue), { s with cursor := some (k, ids) })
    | _ =>
      match h : s.entries.firstIn? s.ahead with
      | none => (none, { s with interval := s.ahead, cursor := none, done := true })
      | some (k, ids) =>
        have := KeyMap.countIn_after_lt h
        next { s with interval := s.ahead, cursor := some (k, ids) }
termination_by s.entries.countIn s.ahead

def close (s : IndexScanner) : IndexScanner := { s with cursor := none, done := true }

theorem rank_next_lt {s : IndexScanner} {entry : RowId × Value} (h : s.next.1 = some entry) :
    Prod.Lex (· < ·) (· < ·) s.next.2.rank s.rank := by
  fun_induction next s with
  | case1 => simp at h
  | case2 s _ k id ids hc =>
    simp only [rank, ahead, hc]
    exact .right _ (by simp)
  | case3 => simp at h
  | case4 s _ k ids _ hlt _ ih =>
    rcases Prod.lex_def.1 (ih h) with hrank | ⟨heq, _⟩
    · exact .left _ _ (Nat.lt_trans hrank hlt)
    · exact .left _ _ (Nat.lt_of_le_of_lt (Nat.le_of_eq heq) hlt)

end IndexScanner

/-- A scan over the entries of a range. -/
def Index.scan (index : Index) (range : KeyRange) : Except Error IndexScanner := do
  match ← range.interval? index.keyType with
  | some interval => return ⟨index.entries, interval, none, false⟩
  | none => return ⟨index.entries, .all, none, true⟩

end QueryEngine
