import QueryEngine.Proofs.Store.Session

/-!
# Stores grow

Rows, indexes and tables are only ever added. What a reader found in a store it finds in every later
one: the tables with their layouts, the rows under their ids, and the indexes with their entries.

* `Table.Grows`: one table has all that another has.
* `Store.Grows`: one store comes of another by changes.
* `Store.Grows.exists_table`: a table of the earlier store, with more rows and indexes.
* `Store.Grows.readTuple_eq`: a row of the earlier store, under its id.
* `Store.Reachable.grows_after`: every call in place makes a store grow, also one that fails.
-/

namespace QueryEngine

/-- A table with more rows and indexes, and with more entries in the indexes. -/
structure Table.Grows (t t' : Table) : Prop where
  layout : t'.layout = t.layout
  rows : t.rows <+: t'.rows
  exists_index : ∀ {column index}, t.indexes.lookup column = some index →
    ∃ index', t'.indexes.lookup column = some index' ∧
      index.entries.listing ⊆ index'.entries.listing

theorem Index.listing_subset_add (index : Index) (k : Key) (rowId : RowId) :
    index.entries.listing ⊆ (index.add k rowId).entries.listing := by
  rintro ⟨l, id⟩ h
  rw [KeyMap.mem_listing] at h ⊢
  rw [add, KeyMap.get?_update]
  by_cases hl : l = k
  · rw [if_pos hl]
    exact List.mem_append_left _ (hl ▸ h)
  · rwa [if_neg hl]

namespace Table

variable {t t' t'' : Table} {values : List Value} {rowId : RowId} {name column : String}

theorem Grows.refl (t : Table) : t.Grows t :=
  ⟨rfl, List.prefix_refl _, fun h => ⟨_, h, List.Subset.refl _⟩⟩

theorem Grows.trans (h : t.Grows t') (h' : t'.Grows t'') : t.Grows t'' := by
  refine ⟨h'.layout.trans h.layout, h.rows.trans h'.rows, fun hindex => ?_⟩
  obtain ⟨index', hindex', hsub⟩ := h.exists_index hindex
  obtain ⟨index'', hindex'', hsub'⟩ := h'.exists_index hindex'
  exact ⟨index'', hindex'', List.Subset.trans hsub hsub'⟩

theorem grows_insert (h : t.insert values = .ok (rowId, t')) : t.Grows t' := by
  obtain ⟨tuple, indexes, -, -, hindexes, rfl⟩ := exists_of_insert h
  refine ⟨rfl, List.prefix_append _ _, fun {column index} hindex => ?_⟩
  obtain ⟨_, k, -, -, hk⟩ := exists_lookup_addToIndexes hindexes hindex
  exact ⟨_, hk, index.listing_subset_add k rowId⟩

theorem grows_createIndex (h : t.createIndex name column = .ok t') : t.Grows t' := by
  obtain ⟨position, a, -, index, -, rfl⟩ := exists_of_createIndex h
  refine ⟨rfl, List.prefix_refl _, fun hindex => ⟨_, ?_, List.Subset.refl _⟩⟩
  rw [List.lookup_append, hindex, Option.some_or]

theorem mem_rows_of_readTuple {id : RowId} {tuple : Tuple}
    (h : t.readTuple name id = .ok tuple) : (id, tuple) ∈ t.rows := by
  simp only [readTuple] at h
  split at h
  · cases h
  · split at h
    · rename_i hrow
      split at h
      · rename_i hid
        obtain rfl := Except.ok.inj h
        exact hid ▸ List.mem_of_getElem? hrow
      · cases h
    · cases h

end Table

namespace Store

variable {s s' s'' : Store} {t : Table} {name other : String}

/-- The later store comes of the earlier one by changes. -/
inductive Grows (s : Store) : Store → Prop where
  | refl : Grows s s
  | createTable {u v : Store} {name : String} {schema : Schema} (before : Grows s u)
    (change : u.createTable name schema = .ok v) : Grows s v
  | insert {u v : Store} {name : String} {values : List Value} {rowId : RowId} (before : Grows s u)
    (change : u.insert name values = .ok (rowId, v)) : Grows s v
  | createIndex {u v : Store} {name column : String} (before : Grows s u)
    (change : u.createIndex name column = .ok v) : Grows s v

namespace Grows

theorem trans (h : s.Grows s') (h' : s'.Grows s'') : s.Grows s'' := by
  induction h' with
  | refl => exact h
  | createTable _ change ih => exact .createTable ih change
  | insert _ change ih => exact .insert ih change
  | createIndex _ change ih => exact .createIndex ih change

theorem reachable (h : s.Grows s') (hs : s.Reachable) : s'.Reachable := by
  induction h with
  | refl => exact hs
  | createTable _ change ih => exact .createTable ih change
  | insert _ change ih => exact .insert ih change
  | createIndex _ change ih => exact .createIndex ih change

theorem maxTupleSize_eq (h : s.Grows s') : s'.maxTupleSize = s.maxTupleSize := by
  induction h with
  | refl => rfl
  | createTable _ change ih =>
    obtain rfl := eq_of_createTable change
    exact ih
  | insert _ change ih =>
    obtain ⟨_, _, -, -, rfl⟩ := exists_of_insert change
    exact ih
  | createIndex _ change ih =>
    obtain ⟨_, _, -, -, rfl⟩ := exists_of_createIndex change
    exact ih

/-- A change to one table leaves the others as they are. -/
theorem exists_table_setTable {u t' : Table} (ht : s.table other = .ok t)
    (hu : s.table name = .ok u) (hgrows : u.Grows t') :
    ∃ t'', (s.setTable name t').table other = .ok t'' ∧ t.Grows t'' := by
  by_cases hname : other = name
  · subst hname
    obtain rfl : u = t := Except.ok.inj (hu.symm.trans ht)
    exact ⟨t', table_setTable_self t' hu, hgrows⟩
  · exact ⟨t, by rw [table_setTable_of_ne s t' hname, ht], .refl t⟩

/-- The tables of the earlier store are there, and have grown. -/
theorem exists_table (h : s.Grows s') (ht : s.table other = .ok t) :
    ∃ t', s'.table other = .ok t' ∧ t.Grows t' := by
  induction h with
  | refl => exact ⟨t, ht, .refl t⟩
  | @createTable u v name schema _ change ih =>
    obtain ⟨t', ht', hgrows⟩ := ih
    have hne : other ≠ name := by
      rintro rfl
      rw [Store.table, lookup_of_createTable change] at ht'
      cases ht'
    exact ⟨t', by rw [table_createTable_of_ne change hne, ht'], hgrows⟩
  | insert _ change ih =>
    obtain ⟨t', ht', hgrows⟩ := ih
    obtain ⟨u, u', hu, hinsert, rfl⟩ := exists_of_insert change
    obtain ⟨t'', ht'', hgrows'⟩ := exists_table_setTable ht' hu (Table.grows_insert hinsert)
    exact ⟨t'', ht'', hgrows.trans hgrows'⟩
  | createIndex _ change ih =>
    obtain ⟨t', ht', hgrows⟩ := ih
    obtain ⟨u, u', hu, hcreate, rfl⟩ := exists_of_createIndex change
    obtain ⟨t'', ht'', hgrows'⟩ := exists_table_setTable ht' hu (Table.grows_createIndex hcreate)
    exact ⟨t'', ht'', hgrows.trans hgrows'⟩

/-- A row that was read once is read again. -/
theorem readTuple_eq {id : RowId} {tuple : Tuple} (h : s.Grows s') (hs : s.Reachable)
    (hread : s.readTuple name id = .ok tuple) : s'.readTuple name id = .ok tuple := by
  obtain ⟨t, ht, hread⟩ := bind_eq_ok_iff.1 hread
  obtain ⟨t', ht', hgrown⟩ := h.exists_table ht
  have hrow := hgrown.rows.subset (Table.mem_rows_of_readTuple hread)
  rw [readTuple, ht', ok_bind]
  exact ((h.reachable hs).sound_of_table ht').readTuple_eq name hrow

end Grows

/-- The store as a call in place leaves it, also when it fails. -/
def after (s : Store) (visit : Visit) (c : Call) : Store :=
  match (c.edit visit).run s with
  | .ok _ s' | .error _ s' => s'

theorem Reachable.after_eq (h : s.Reachable) (visit : Visit) {c : Call} {answer : Option RowId}
    (hc : c.change s = .ok (answer, s')) : s.after visit c = s' := by
  rw [after, c.run_edit h visit, hc]
  rfl

theorem Reachable.grows_after (h : s.Reachable) (visit : Visit) (c : Call) :
    s.Grows (s.after visit c) := by
  rw [after, c.run_edit h visit]
  cases hc : c.change s with
  | error e => exact .refl
  | ok p =>
    cases c with
    | createTable name schema =>
      simp only [Call.change, bind_eq_ok_iff, pure_eq_ok, Except.ok.injEq] at hc
      obtain ⟨s', hs', rfl⟩ := hc
      exact .createTable .refl hs'
    | insert name values =>
      simp only [Call.change, bind_eq_ok_iff, pure_eq_ok, Except.ok.injEq] at hc
      obtain ⟨⟨rowId, s'⟩, hs', rfl⟩ := hc
      exact .insert .refl hs'
    | createIndex name column =>
      simp only [Call.change, bind_eq_ok_iff, pure_eq_ok, Except.ok.injEq] at hc
      obtain ⟨s', hs', rfl⟩ := hc
      exact .createIndex .refl hs'

end Store

end QueryEngine
