import QueryEngine.Operator.Filter
import QueryEngine.Proofs.KeyRange
import QueryEngine.Proofs.Operator.Failure
import QueryEngine.Proofs.Operator.Growing
import QueryEngine.Proofs.Operator.IndexJoin
import QueryEngine.Proofs.Store.LongTexts

/-!
# Two ways to the same rows

The rows whose attribute compares with a value as asked are found by filtering a scan of the table,
which reads the attribute of every row and compares it, and by moving a scan through an index to the
ranges of the value one after the other. The first gives them in the order of the table, the second
in that of the index.

* `Filter.yields`: a filter yields the tuples that its predicate selects.
* `IndexScan.sweep`: what an open index scan gives range by range; `IndexScan.Serves.sweep_eq` says
  that it is the entries of the index in these ranges.
* `accessPaths_agree`: the two ways lead to the same rows.
-/

namespace QueryEngine

variable {db : Database} {n : Nat}

/-! ## Filters -/

namespace Predicate

variable {p : Predicate} {t : Tuple} {v : Value} {type : DataType} {k l : Key}

/-- Whether a tuple satisfies the predicate. One that cannot be compared does not. -/
def selects (p : Predicate) (t : Tuple) : Bool :=
  match p.evaluate t with
  | .ok b => b
  | .error _ => false

/-- A field is compared with a value as their keys are. -/
theorem evaluate_of_keys (hright : p.right = .literal v)
    (hl : (do Key.typed (← p.layout.field t p.left) type) = .ok l) (hk : Key.typed v type = .ok k) :
    p.evaluate t = .ok (p.comparator.holds (compare l k)) := by
  obtain ⟨w, hw, hl⟩ := bind_eq_ok_iff.1 hl
  unfold evaluate
  cases hn : p.comparator.needsValue with
  | false =>
    cases hc : p.comparator <;> simp [hc, Comparator.needsValue] at hn
    rfl
  | true =>
    simp only [hright, hw, Key.compare_of_typed hl hk, ok_bind, pure_eq_ok, if_true]

end Predicate

/-- **A filter yields the tuples that its predicate selects**, if it can be put to all. -/
theorem Filter.yields {f : Filter} {child : Operator} {c : child.State} {tuples : List Tuple}
    (h : child.Yields db none c tuples)
    (hevaluate : ∀ t ∈ tuples, ∃ b, f.predicate.evaluate t = .ok b) :
    (f.operator child).Yields db none ⟨⟨c, false⟩, true, false⟩
      (tuples.filter f.predicate.selects) := by
  suffices hcourse : (f.machine child).Course db (fun _ => (none : Option Unit)) ⟨c, false⟩ []
      (tuples.filter f.predicate.selects) none from hcourse.yields "Filter" _
  induction tuples generalizing c with
  | nil =>
    refine .of_ending_unseen rfl fun n => ?_
    obtain ⟨c', n', hnext⟩ := h n
    refine ⟨⟨c', true⟩, n', ?_⟩
    simp only [machine, step, hnext, Operator.ending, Bool.false_eq_true, if_false]
    rfl
  | cons t tuples ih =>
    obtain ⟨⟨b, hb⟩, hrest⟩ := List.forall_mem_cons.1 hevaluate
    have hselects : f.predicate.selects t = b := by rw [Predicate.selects, hb]
    have hstep : ∀ n, ∃ c' n', child.next db c n = ⟨.ok (some t), c', n'⟩ ∧
        child.Yields db none c' tuples := h
    cases b with
    | false =>
      rw [List.filter_cons_of_neg (by simp [hselects])]
      refine .of_again_unseen rfl fun n => ?_
      obtain ⟨c', n', hnext, hyields⟩ := hstep n
      refine ⟨⟨c', false⟩, n', ?_, ih hyields hrest⟩
      simp only [machine, step, hnext, hb, Bool.false_eq_true, if_false]
    | true =>
      rw [List.filter_cons_of_pos hselects]
      refine .of_emit fun n => ?_
      obtain ⟨c', n', hnext, hyields⟩ := hstep n
      refine ⟨⟨c', false⟩, n', ?_, ih hyields hrest⟩
      simp only [machine, step, hnext, hb, Bool.false_eq_true, if_false]

/-- A whole run of a filter over a child that can be opened. -/
theorem Filter.collectTuples_fst {f : Filter} {child : Operator} {c : child.State}
    {tuples : List Tuple} (hstart : child.start db child.initial = (.ok (), c))
    (h : child.Yields db none c tuples)
    (hevaluate : ∀ t ∈ tuples, ∃ b, f.predicate.evaluate t = .ok b) (n : Nat) :
    ((f.operator child).collectTuples db (f.operator child).initial n).1 =
      .ok (tuples.filter f.predicate.selects) := by
  have hopened : (f.operator child).start db (f.operator child).initial =
      (.ok (), ⟨⟨c, false⟩, true, false⟩) :=
    Machine.start_of_ok (start_eq_ok_iff.2 ⟨c, hstart, rfl⟩)
  exact (yields h hevaluate).collectTuples_fst hopened n

/-! ## Index scans -/

namespace IndexScan

variable {scan : IndexScan} {s : State} {index : Index} {keyed : List (Key × Row)}
  {rows : List Row} {ranges : List KeyRange} {intervals : List Interval}

/-- All tuples of an open scan that is moved to some ranges one after the other, or the first
error. -/
def sweep (scan : IndexScan) (db : Database) :
    List KeyRange → State → Nat → Except Error (List Tuple)
  | [], _, _ => .ok []
  | range :: ranges, s, n =>
    match scan.setRange db range s with
    | (.error e, _) => .error e
    | (.ok _, s) =>
      match scan.operator.drain db s n with
      | (_, some e, _, _) => .error e
      | (tuples, none, s, n) => (scan.sweep db ranges s n).map (tuples ++ ·)

/-- The rows of the current range are drained, and the scan stays open. -/
theorem exists_drain_of_reading (h : s.Reading rows)
    (hread : ∀ row ∈ rows, ∀ n, db.readTuple n scan.table row.1 = .ok row.2) (n : Nat) :
    ∃ s' n', scan.operator.drain db s n = (rows.map (·.2), none, s', n') ∧ s'.opened = true := by
  induction rows generalizing s n with
  | nil =>
    obtain ⟨s', hnext, hopened⟩ := next_of_reading_nil scan db n h
    exact ⟨s', n, Operator.drain_of_next_ending hnext, hopened⟩
  | cons row rows ih =>
    obtain ⟨hrow, hrest⟩ := List.forall_mem_cons.1 hread
    obtain ⟨s', hnext, hreading⟩ := next_of_reading_cons h (hrow n)
    obtain ⟨s'', n', hdrain, hopened⟩ := ih hreading hrest (n + 1)
    have hnext : scan.operator.next db s n = ⟨.ok (some row.2), s', n + 1⟩ := hnext
    refine ⟨s'', n', ?_, hopened⟩
    rw [Operator.drain_of_next_some hnext, hdrain]
    rfl

/-- Range by range the scan gives the rows whose keys lie there. -/
theorem Serves.sweep_eq (h : scan.Serves db index keyed) (hs : s.opened = true)
    (hranges : ranges.map (·.interval? index.keyType) = intervals.map (.ok ∘ some)) (n : Nat) :
    scan.sweep db ranges s n =
      .ok ((intervals.flatMap fun i => keyed.filter (i.contains ·.1)).map (·.2.2)) := by
  induction ranges generalizing intervals s n with
  | nil =>
    obtain rfl := List.map_eq_nil_iff.1 hranges.symm
    rfl
  | cons range ranges ih =>
    cases intervals with
    | nil => simp at hranges
    | cons i intervals =>
      simp only [List.map_cons, List.cons.injEq, Function.comp_apply] at hranges
      obtain ⟨s', hset, hreading⟩ := h.exists_setRange hs hranges.1
      obtain ⟨s'', n', hdrain, hopened⟩ := exists_drain_of_reading hreading h.readTuple_of_mem n
      simp only [sweep, hset, hdrain, ih hopened hranges.2 n', Except.map, List.flatMap_cons,
        List.map_append, List.map_map]
      rfl

/-- Moved to the ranges of a value, the scan gives the rows whose keys compare with it as asked. -/
theorem Serves.sweep_lookupRanges (h : scan.Serves db index keyed) (hs : s.opened = true)
    (c : Comparator) {v : Value} {k : Key} (hk : Key.typed v index.keyType = .ok k) (n : Nat) :
    scan.sweep db (c.lookupRanges v) s n =
      .ok ((keyed.filter fun e => c.holds (compare k e.1)).map (·.2.2)) := by
  rw [h.sweep_eq hs (Comparator.interval?_lookupRanges c hk) n,
    Comparator.flatMap_lookupIntervals c k h.sorted]

end IndexScan

/-! ## Both ways -/

variable {t : Table} {table column : String} {index : Index} {position : Nat} {a : Attribute}

/-- A condition between an attribute and a value can be put to a scan under the name that the scan
gives to the attribute, and compares keys there. -/
theorem Filter.exists_bind (ha : t.schema.find column = .ok (position, a)) (relation : String)
    (c : Comparator) {v : Value} (htype : v.dataType = a.dataType) :
    ∃ filter, Filter.bind (t.schema.qualified relation)
        ⟨relation ++ "." ++ column, c, .literal v⟩ = .ok filter ∧
      ∀ u k l, (do Key.typed (← t.layout.field u position) a.dataType) = .ok l →
        Key.typed v a.dataType = .ok k →
        filter.predicate.evaluate u = .ok (c.holds (compare l k)) := by
  have hfind : (t.schema.qualified relation).find (relation ++ "." ++ column) =
      .ok (position, a.qualified relation) := by
    have hqualified := t.schema.find?_qualified a relation
    obtain ⟨-, hname⟩ := Schema.getElem?_of_find ha
    rw [hname, Schema.find_eq_ok_iff.1 ha] at hqualified
    rw [Schema.find_eq_ok_iff, ← hname]
    exact hqualified
  have hcheck : Condition.checkTypes ⟨relation ++ "." ++ column, c, .literal v⟩
      (a.qualified relation).dataType v.dataType = .ok () := by
    rw [Condition.checkTypes, htype]
    exact if_neg fun h => h.2 rfl
  refine ⟨⟨⟨relation ++ "." ++ column, c, .literal v⟩,
    ⟨{ schema := t.schema.qualified relation }, position, c, .literal v⟩⟩, ?_, ?_⟩
  · simp only [Filter.bind, Condition.bind, hfind, hcheck, ok_bind, pure_eq_ok]
  · intro u k l hl hk
    refine Predicate.evaluate_of_keys rfl ?_ hk
    rw [← hl]
    exact congrArg (· >>= fun w => Key.typed w a.dataType) (Layout.field_qualified _ _ _ u position)

/-- A filter over a scan of a table yields the rows that it selects. -/
theorem Filter.collectTuples_scan {f : Filter} {scan : TableScan} {alias? : Option String}
    (hbind : TableScan.bind db.store table alias? = .ok scan)
    (htable : db.store.table table = .ok t) (hfaults : db.scanFaults = .never)
    (hevaluate : ∀ row ∈ t.rows, ∃ b, f.predicate.evaluate row.2 = .ok b) (n : Nat) :
    ((f.operator scan.operator).collectTuples db (f.operator scan.operator).initial n).1 =
      .ok ((t.rows.filter (f.predicate.selects ·.2)).map (·.2)) := by
  obtain ⟨s, hstart, hyields⟩ := TableScan.exists_yields hbind htable hfaults
  have hall : ∀ u ∈ t.tuples, ∃ b, f.predicate.evaluate u = .ok b :=
    List.forall_mem_map.2 hevaluate
  rw [collectTuples_fst hstart hyields hall n, Table.tuples, List.filter_map]
  rfl

/-- The rows that a predicate selects, in the order of an index, if it tells them by their keys. -/
theorem Predicate.map_filter_keyed {p : Predicate} {q : Key → Bool} {keyed : List (Key × Row)}
    (h : ∀ e ∈ keyed, p.evaluate e.2.2 = .ok (q e.1)) :
    (keyed.filter (q ·.1)).map (·.2) = (keyed.map (·.2)).filter (p.selects ·.2) := by
  rw [List.filter_map]
  refine congrArg _ (List.filter_congr fun e he => ?_)
  simp only [Function.comp_apply, selects, h e he]

/-- **A filtered scan and an index lead to the same rows**, each of them once. The index is asked
for the values to which the given one stands in a relation, so the comparator is flipped there. The
texts of the table have fewer than 2 ^ 32 bytes each: of a longer one the filter reads another value
than the index has. -/
theorem accessPaths_agree (hstore : db.store.Reachable) (hfaults : db.Faultless)
    (htable : db.store.table table = .ok t) (hshort : t.Short)
    (hindex : t.indexes.lookup column = some index)
    (ha : t.schema.find column = .ok (position, a)) (c : Comparator) {v : Value}
    (htype : v.dataType = a.dataType) (hfinite : v.isFinite = true)
    (alias? alias'? : Option String) :
    ∃ (scan : TableScan) (filter : Filter) (through : IndexScan) (found : List Row),
      TableScan.bind db.store table alias? = .ok scan ∧
      Filter.bind scan.schema ⟨alias?.getD table ++ "." ++ column, c, .literal v⟩ = .ok filter ∧
      IndexScan.bind db.store table column alias'? = .ok through ∧
      (∀ n, ((filter.operator scan.operator).collectTuples db
        (filter.operator scan.operator).initial n).1 =
          .ok ((t.rows.filter (filter.predicate.selects ·.2)).map (·.2))) ∧
      (∃ r, through.start db IndexScan.initial = (.ok (), r) ∧ r.opened = true) ∧
      (∀ r, r.opened = true → ∀ n,
        through.sweep db (c.flip.lookupRanges v) r n = .ok (found.map (·.2))) ∧
      found.Perm (t.rows.filter (filter.predicate.selects ·.2)) ∧ (found.map (·.1)).Nodup := by
  have hsound := hstore.sound_of_table htable
  obtain ⟨rfl, hkeyType⟩ := hsound.column_eq hindex ha
  obtain ⟨k, hk⟩ := Key.exists_typed htype hfinite
  obtain ⟨keyed, hordered⟩ := hshort.exists_ordered hindex
  let scan : TableScan := ⟨table, t.schema.qualified (alias?.getD table)⟩
  have hscan : TableScan.bind db.store table alias? = .ok scan := by
    simp only [TableScan.bind, Store.schema, htable, ok_bind, pure_eq_ok, scan]
  let through : IndexScan := ⟨table, column, a.qualified (alias'?.getD table),
    t.schema.qualified (alias'?.getD table)⟩
  have hthrough : IndexScan.bind db.store table column alias'? = .ok through := by
    simp only [IndexScan.bind, Store.schema, htable, ok_bind, pure_eq_ok, ha, through]
  obtain ⟨filter, hfilter, hkeys⟩ := Filter.exists_bind ha (alias?.getD table) c htype
  -- The index has a key for every row, so the filter can compare them all, and both compare keys.
  have hevaluate : ∀ e ∈ keyed, filter.predicate.evaluate e.2.2 =
      .ok (c.flip.holds (compare k e.1)) := by
    intro e he
    rw [Comparator.holds_flip, ← Std.OrientedCmp.eq_swap]
    exact hkeys e.2.2 k e.1 (hkeyType ▸ hordered.keyOf_eq e he) hk
  have hfound := Predicate.map_filter_keyed (q := fun l => c.flip.holds (compare k l)) hevaluate
  have hperm : ((keyed.map (·.2)).filter (filter.predicate.selects ·.2)).Perm
      (t.rows.filter (filter.predicate.selects ·.2)) := hordered.perm.filter _
  refine ⟨scan, filter, through, _, hscan, hfilter, hthrough, ?scanned, ?opened,
    fun r hr n => ?swept, hperm, ?once⟩
  case scanned =>
    refine Filter.collectTuples_scan hscan htable hfaults.scan fun row hrow => ?_
    obtain ⟨e, he, rfl⟩ := List.mem_map.1 (hordered.perm.mem_iff.2 hrow)
    exact ⟨_, hevaluate e he⟩
  case opened =>
    obtain ⟨r, hr⟩ : ∃ r, through.start db IndexScan.initial = (.ok (), r) :=
      IndexScan.exists_start htable hindex rfl
    obtain ⟨-, -, -, -, hopened, -⟩ := IndexScan.exists_of_start hr
    exact ⟨r, hr, hopened⟩
  case swept =>
    have hserves : through.Serves db index keyed :=
      IndexScan.serves hstore hfaults.read htable hindex hordered.lists
    rw [hserves.sweep_lookupRanges hr c.flip (hkeyType ▸ hk) n, ← hfound, List.map_map]
    rfl
  case once =>
    have hids : (t.rows.map (·.1)).Nodup := hsound.ids_pairwise.imp fun h => Int.ne_of_lt h
    exact ((hperm.map _).nodup_iff).2 (hids.sublist (List.filter_sublist.map _))

theorem accessPaths_agree_integers :
    let db : Database := { store := IndexJoin.integersStore }
    let scan : Operator := TableScan.operator ⟨"r", [.integer "r.b"]⟩
    ∃ (filter : Filter) (through : IndexScan) (found : List Row),
      Filter.bind scan.schema ⟨"r.b", .lt, .literal (.integer 7)⟩ = .ok filter ∧
      IndexScan.bind db.store "r" "b" none = .ok through ∧
      (∀ n, ((filter.operator scan).collectTuples db (filter.operator scan).initial n).1 =
        .ok [⟨[3, 0, 0, 0]⟩, ⟨[2, 0, 0, 0]⟩]) ∧
      (∀ r, r.opened = true → ∀ n,
        through.sweep db [.below (.integer 7) false] r n = .ok (found.map (·.2))) ∧
      found.Perm [(1, ⟨[3, 0, 0, 0]⟩), (2, ⟨[2, 0, 0, 0]⟩)] := by
  intro db scan
  have htable : db.store.table "r" = .ok IndexJoin.integersTable := rfl
  have hattribute : IndexJoin.integersTable.schema.find "b" = .ok (0, .integer "b") := rfl
  obtain ⟨_, _, through, found, hscan, hfilter, hthrough, hscanned, -, hswept, hperm, -⟩ :=
    accessPaths_agree IndexJoin.reachable_integersStore ⟨rfl, rfl⟩ htable
      IndexJoin.short_integersTable rfl hattribute .lt
      (show (Value.integer 7).dataType = .integer from rfl) rfl none none
  obtain rfl := Except.ok.inj hscan
  obtain rfl := Except.ok.inj hfilter
  exact ⟨_, through, found, rfl, hthrough, hscanned, hswept, hperm⟩

/-- A row with a text of 2 ^ 32 bytes passes a filter for the empty text, and is not found through
the index. -/
theorem accessPaths_not_always_agree :
    ¬∀ (db : Database) (table column : String) (t : Table) (index : Index) (position : Nat)
        (a : Attribute) (c : Comparator) (v : Value) (scan : TableScan) (filter : Filter)
        (through : IndexScan), db.store.Reachable → db.Faultless → db.store.table table = .ok t →
      t.indexes.lookup column = some index → t.schema.find column = .ok (position, a) →
      v.dataType = a.dataType → v.isFinite = true → TableScan.bind db.store table none = .ok scan →
      Filter.bind scan.schema ⟨table ++ "." ++ column, c, .literal v⟩ = .ok filter →
      IndexScan.bind db.store table column none = .ok through →
      ∀ scanned r swept, ((filter.operator scan.operator).collectTuples db
          (filter.operator scan.operator).initial 0).1 = .ok scanned → r.opened = true →
        through.sweep db (c.flip.lookupRanges v) r 0 = .ok swept → swept.Perm scanned := by
  intro hall
  obtain ⟨bytes, hlength⟩ : ∃ bytes : List UInt8, bytes.length = 2 ^ 32 :=
    ⟨List.replicate (2 ^ 32) 0, List.length_replicate⟩
  let db : Database := { store := .overlong bytes }
  let tuple : Tuple := ⟨Value.encode (.text bytes)⟩
  let scan : TableScan := ⟨"r", [.text "r.s" (2 ^ 32)]⟩
  let through : IndexScan := ⟨"r", "s", .text "r.s" (2 ^ 32), [.text "r.s" (2 ^ 32)]⟩
  have hstore : db.store.Reachable := Store.reachable_overlong (Nat.le_of_eq hlength)
  have htable : db.store.table "r" = .ok (.overlong bytes) := rfl
  have hindex : (Table.overlong bytes).indexes.lookup "s" = some (.overlong bytes) := rfl
  have hattribute : (Table.overlong bytes).schema.find "s" = .ok (0, .text "s" (2 ^ 32)) := rfl
  have hscan : TableScan.bind db.store "r" none = .ok scan := rfl
  have hkey : Key.typed (.text []) .text = .ok (.text []) := rfl
  obtain ⟨filter, hfilter, hkeys⟩ :=
    Filter.exists_bind (v := .text []) hattribute "r" .eq rfl
  -- as it is read, the row is selected
  have hevaluate : filter.predicate.evaluate tuple = .ok true := by
    refine hkeys tuple (.text []) (.text []) ?_ hkey
    rw [show (Table.overlong bytes).layout.field tuple 0 = .ok (.text []) from
      Layout.field_long hlength _ _ _, ok_bind]
    rfl
  have hscanned : ((filter.operator scan.operator).collectTuples db
      (filter.operator scan.operator).initial 0).1 = .ok [tuple] := by
    rw [Filter.collectTuples_scan hscan htable rfl
      (List.forall_mem_singleton.2 ⟨true, hevaluate⟩) 0]
    simp [Table.overlong, Predicate.selects, hevaluate, tuple]
  -- but its place in the index is another
  have hserves : through.Serves db (.overlong bytes) [(.text bytes, (1, tuple))] :=
    IndexScan.serves hstore rfl htable hindex (Store.lists_overlong hlength)
  have hswept : through.sweep db (Comparator.eq.flip.lookupRanges (.text []))
      { IndexScan.initial with opened := true } 0 = .ok [] := by
    rw [hserves.sweep_lookupRanges rfl _ hkey 0]
    simp only [Comparator.flip, Comparator.holds, Key.compare_overlong hlength, List.filter_cons]
    rfl
  have hperm := hall db "r" "s" _ _ _ _ .eq (.text []) scan filter through hstore ⟨rfl, rfl⟩ htable
    hindex hattribute rfl rfl rfl hfilter rfl _ _ _ hscanned rfl hswept
  exact List.not_perm_nil_cons _ _ hperm

end QueryEngine
