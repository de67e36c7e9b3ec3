import QueryEngine.Proofs.KeyRange
import QueryEngine.Proofs.Store.Table

/-!
# Where indexes have rows

A row that is inserted is put into the indexes by the values handed in, while an index that is
created later reads them out of the bytes. The length of a text of 2 ^ 32 bytes or more is not
written in full, so the two may differ there. What remains is that every index has every row once,
under one key or the other.

* `Index.Places`: an index and the keys that it has the rows of a table under.
* `Store.Reachable.exists_places_of_mem`: there are such keys for all indexes of the stores that
  come of changes.
* `Index.Lists`: the rows in the order of an index; `Index.Lists.unread_scan` says that a scan over
  a range gives those whose values lie in it.
* `Table.Short.ordered`: where texts are short, the keys are those of the rows.
-/

namespace QueryEngine

namespace Index

variable {index : Index} {layout : Layout} {rows : List Row} {t : Table}
  {placed listed : List (Key × Row)}

/-- Building an index takes in all rows, each under the key of its field. -/
theorem Holds.exists_addRows {index' : Index} (h : index.Holds placed)
    (hrows : Table.addRows layout rows index = .ok index') :
    ∃ added : List (Key × Row), added.map (·.2) = rows ∧ index'.Holds (placed ++ added) ∧
      (∀ e ∈ added, index'.keyOf layout e.2.2 = .ok e.1) ∧
      index'.column = index.column ∧ index'.keyType = index.keyType := by
  induction rows generalizing placed index with
  | nil =>
    simp only [Table.addRows, Except.ok.injEq] at hrows
    subst hrows
    exact ⟨[], rfl, (List.append_nil placed).symm ▸ h, by simp, rfl, rfl⟩
  | cons row rows ih =>
    obtain ⟨id, tuple⟩ := row
    simp only [Table.addRows, bind_eq_ok_iff] at hrows
    obtain ⟨v, hv, k, hk, hrest⟩ := hrows
    obtain ⟨added, hadded, hholds, hkeys, hcolumn, htype⟩ := ih (h.add k (id, tuple)) hrest
    have hkey : index'.keyOf layout tuple = .ok k := by
      rw [keyOf, hcolumn, htype]
      exact bind_eq_ok_iff.2 ⟨v, hv, hk⟩
    rw [List.append_assoc] at hholds
    exact ⟨(k, (id, tuple)) :: added, by rw [List.map_cons, hadded], hholds,
      List.forall_mem_cons.2 ⟨hkey, hkeys⟩, hcolumn, htype⟩

/-- The index has every row of the table under one key. -/
structure Places (index : Index) (t : Table) (placed : List (Key × Row)) : Prop where
  rows_eq : placed.map (·.2) = t.rows
  holds : index.Holds placed
  typed_eq : ∀ e ∈ placed, Key.typed e.1.toValue index.keyType = .ok e.1

/-- The rows of the table in the order of the index, each with its key there. -/
structure Lists (index : Index) (t : Table) (listed : List (Key × Row)) : Prop where
  listing_eq : listed.map (fun e => (e.1, e.2.1)) = index.entries.listing
  perm : (listed.map (·.2)).Perm t.rows
  typed_eq : ∀ e ∈ listed, Key.typed e.1.toValue index.keyType = .ok e.1
  sorted : listed.Pairwise fun e f => e.1 < f.1 ∨ e.1 = f.1 ∧ e.2.1 < f.2.1

theorem Places.exists_lists (h : index.Places t placed)
    (hids : (t.rows.map (·.1)).Pairwise (· < ·)) : ∃ listed, index.Lists t listed := by
  rw [← h.rows_eq, List.map_map] at hids
  obtain ⟨listed, hlisting, hperm, hsorted⟩ := h.holds.exists_listing hids
  exact ⟨listed, hlisting, h.rows_eq ▸ hperm.map _,
    fun e he => h.typed_eq e (hperm.mem_iff.1 he), hsorted⟩

/-- The values of the rows are in order. -/
theorem Lists.sorted_toValue (h : index.Lists t listed) :
    listed.Pairwise fun e f => e.1.toValue.compare f.1.toValue = .ok .lt ∨
      e.1.toValue.compare f.1.toValue = .ok .eq ∧ e.2.1 < f.2.1 := by
  refine h.sorted.imp_of_mem fun {e f} he hf hlt => ?_
  rw [Key.compare_of_typed (h.typed_eq e he) (h.typed_eq f hf)]
  rcases hlt with hlt | ⟨heq, hid⟩
  · exact .inl (congrArg _ (Key.lt_iff_compare.1 hlt))
  · exact .inr ⟨by rw [heq, Std.ReflOrd.compare_self], hid⟩

theorem Ordered.lists (h : index.Ordered t.layout t.rows listed) : index.Lists t listed where
  listing_eq := h.listing_eq
  perm := h.perm
  typed_eq e he := by
    obtain ⟨v, -, hkey⟩ := bind_eq_ok_iff.1 (h.keyOf_eq e he)
    exact Key.typed_toValue_of_typed hkey
  sorted := h.sorted

/-- A scan over a range has still to give the rows whose values lie in it, and of all values it can
be said whether they do. -/
theorem Lists.unread_scan (h : index.Lists t listed) {range : KeyRange} {scanner : IndexScanner}
    (hscan : index.scan range = .ok scanner) :
    (∀ e ∈ listed, ∃ b, range.contains e.1.toValue = .ok b) ∧
      scanner.unread.map (fun e => (e.2, e.1.toValue)) =
        (listed.filter fun e => range.contains e.1.toValue = .ok true).map
          fun e => (e.2.1, e.1.toValue) := by
  obtain ⟨i?, hrange, -⟩ := bind_eq_ok_iff.1 hscan
  obtain ⟨low, hlow, hrest⟩ := bind_eq_ok_iff.1 hrange
  obtain ⟨high, hhigh, -⟩ := bind_eq_ok_iff.1 hrest
  have hcontains : ∀ e ∈ listed,
      range.contains e.1.toValue = .ok ((⟨low, high⟩ : Interval).contains e.1) :=
    fun e he => KeyRange.contains_eq hlow hhigh (h.typed_eq e he)
  have hfilter : listed.filter (fun e => range.contains e.1.toValue = .ok true) =
      listed.filter ((⟨low, high⟩ : Interval).contains ·.1) :=
    List.filter_congr fun e he => by
      rw [hcontains e he]
      cases (⟨low, high⟩ : Interval).contains e.1 <;> rfl
  refine ⟨fun e he => ⟨_, hcontains e he⟩, ?_⟩
  have hinterval := KeyRange.interval?_eq hlow hhigh
  rw [hfilter]
  cases hcrossed : Interval.crossed low high with
  | true =>
    rw [hcrossed, if_pos rfl] at hinterval
    rw [scan, hinterval] at hscan
    obtain rfl := Except.ok.inj hscan
    have hnone : listed.filter ((⟨low, high⟩ : Interval).contains ·.1) = [] :=
      List.filter_eq_nil_iff.2 fun e _ => by
        rw [Interval.contains_of_crossed (i := ⟨low, high⟩) hcrossed]
        exact Bool.false_ne_true
    rw [hnone]
    rfl
  | false =>
    rw [hcrossed, if_neg Bool.false_ne_true] at hinterval
    obtain ⟨scanner', hscan', hunread⟩ := exists_scan hinterval
    obtain rfl := Except.ok.inj (hscan'.symm.trans hscan)
    rw [hunread, ← h.listing_eq, List.filter_map, List.map_map]
    rfl

end Index

namespace Table

variable {t t' : Table} {values : List Value} {rowId : RowId} {name column : String}

/-- Where texts are short, the rows are listed under their keys. -/
theorem Short.ordered (h : t.Short) {index : Index} {listed : List (Key × Row)}
    (hindex : t.indexes.lookup column = some index) (hlists : index.Lists t listed) :
    index.Ordered t.layout t.rows listed where
  listing_eq := hlists.listing_eq
  perm := hlists.perm
  sorted := hlists.sorted
  keyOf_eq e he := by
    have hrow : e.2 ∈ t.rows := hlists.perm.mem_iff.1 (List.mem_map_of_mem he)
    have hentry : (e.1, e.2.1) ∈ index.entries.listing :=
      hlists.listing_eq ▸ List.mem_map_of_mem (f := fun e => (e.1, e.2.1)) he
    obtain ⟨row, hrow', hid, hkey⟩ := (h.covers_of_lookup hindex).mem_listing.1 hentry
    have hread := h.sound.readTuple_eq column hrow
    rw [← hid, h.sound.readTuple_eq column hrow'] at hread
    rwa [← Except.ok.inj hread]

theorem exists_places_insert
    (hplaces : ∀ e ∈ t.indexes, ∃ placed, e.2.Places t placed)
    (h : t.insert values = .ok (rowId, t')) :
    ∀ e ∈ t'.indexes, ∃ placed, e.2.Places t' placed := by
  obtain ⟨tuple, indexes, htuple, rfl, hindexes, rfl⟩ := exists_of_insert h
  intro e' he'
  obtain ⟨e, he, v, k, hv, hk, rfl⟩ := exists_of_mem_addToIndexes hindexes he'
  obtain ⟨placed, hplaced⟩ := hplaces e he
  let row : Row := (t.rows.length + 1, tuple)
  refine ⟨placed ++ [(k, row)], ?_, hplaced.holds.add k row, ?_⟩
  · rw [List.map_append, hplaced.rows_eq]
    rfl
  · refine List.forall_mem_append.2 ⟨hplaced.typed_eq, List.forall_mem_singleton.2 ?_⟩
    exact Key.typed_toValue_of_typed hk

theorem exists_places_createIndex
    (hplaces : ∀ e ∈ t.indexes, ∃ placed, e.2.Places t placed)
    (h : t.createIndex name column = .ok t') :
    ∀ e ∈ t'.indexes, ∃ placed, e.2.Places t' placed := by
  obtain ⟨position, a, -, index, hindex, rfl⟩ := exists_of_createIndex h
  intro e he
  rcases List.mem_append.1 he with he | he
  · obtain ⟨placed, hplaced⟩ := hplaces e he
    exact ⟨placed, hplaced.rows_eq, hplaced.holds, hplaced.typed_eq⟩
  · obtain rfl := List.mem_singleton.1 he
    obtain ⟨added, hadded, hholds, hkeys, -, -⟩ :=
      (Index.holds_empty position a.dataType).exists_addRows hindex
    refine ⟨added, hadded, hholds, fun e he => ?_⟩
    obtain ⟨v, -, hkey⟩ := bind_eq_ok_iff.1 (hkeys e he)
    exact Key.typed_toValue_of_typed hkey

end Table

namespace Store

variable {s : Store} {t : Table} {name column : String} {index : Index}

theorem Reachable.exists_places_of_mem (h : s.Reachable) :
    ∀ e ∈ s.tables, ∀ f ∈ e.2.indexes, ∃ placed, f.2.Places e.2 placed := by
  induction h with
  | empty => simp
  | createTable before change ih =>
    rename_i s s' name schema
    obtain rfl := eq_of_createTable change
    intro e he
    rcases List.mem_append.1 he with he | he
    · exact ih e he
    · obtain rfl := List.mem_singleton.1 he
      simp [Table.empty]
  | insert before change ih =>
    obtain ⟨t, t', ht, hinsert, rfl⟩ := exists_of_insert change
    intro e he
    rcases mem_setTable he with rfl | he
    · exact Table.exists_places_insert (ih _ (mem_tables_of_table ht)) hinsert
    · exact ih e he
  | createIndex before change ih =>
    obtain ⟨t, t', ht, hcreate, rfl⟩ := exists_of_createIndex change
    intro e he
    rcases mem_setTable he with rfl | he
    · exact Table.exists_places_createIndex (ih _ (mem_tables_of_table ht)) hcreate
    · exact ih e he

/-- The rows of a table can be listed in the order of any of its indexes. -/
theorem Reachable.exists_lists (h : s.Reachable) (ht : s.table name = .ok t)
    (hindex : t.indexes.lookup column = some index) : ∃ listed, index.Lists t listed := by
  obtain ⟨placed, hplaces⟩ :=
    h.exists_places_of_mem _ (mem_tables_of_table ht) _ (mem_of_lookup hindex)
  exact hplaces.exists_lists (h.sound_of_table ht).ids_pairwise

end Store

end QueryEngine
